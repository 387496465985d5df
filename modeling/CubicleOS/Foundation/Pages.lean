import CubicleOS.Foundation.Outcome

/-!
# Pages and machine words

The page grid over `ℕ`, for any page size, and the few facts about 64-bit
words that address arithmetic needs: a signed comparison of two words, an
address range, the page of an address.
-/

namespace Foundation

/-! ## The page grid -/

section Grid

variable {P : ℕ}

/-- First address of the page that holds `a`. -/
def pageBase (P a : ℕ) : ℕ := a / P * P

theorem pageBase_le (P a : ℕ) : pageBase P a ≤ a := Nat.div_mul_le_self a P

theorem lt_pageBase_add (hP : 0 < P) (a : ℕ) : a < pageBase P a + P := by
  have h := Nat.lt_div_mul_add hP (a := a)
  exact h

/-- An aligned bound lies below an address exactly when it lies below the
address's page. -/
theorem le_pageBase_iff (hP : 0 < P) {s : ℕ} (hs : P ∣ s) (a : ℕ) :
    s ≤ pageBase P a ↔ s ≤ a := by
  constructor
  · intro h
    exact h.trans (pageBase_le P a)
  · intro h
    obtain ⟨k, rfl⟩ := hs
    have hk : k ≤ a / P := (Nat.le_div_iff_mul_le hP).mpr (by rwa [Nat.mul_comm])
    calc P * k = k * P := Nat.mul_comm P k
      _ ≤ a / P * P := Nat.mul_le_mul_right P hk

theorem pageBase_lt_iff (hP : 0 < P) {e : ℕ} (he : P ∣ e) (a : ℕ) :
    pageBase P a < e ↔ a < e := by
  have h := le_pageBase_iff hP he a
  constructor <;> intro h' <;> omega

/-- Membership in an aligned range depends on the page only. -/
theorem mem_aligned_iff (hP : 0 < P) {s e : ℕ} (hs : P ∣ s) (he : P ∣ e)
    (a : ℕ) : (s ≤ pageBase P a ∧ pageBase P a < e) ↔ (s ≤ a ∧ a < e) := by
  rw [le_pageBase_iff hP hs, pageBase_lt_iff hP he]

/-- Some byte of `[s, e)` lies on the page of `a`. -/
def MeetsPage (P s e a : ℕ) : Prop :=
  ∃ b, (s ≤ b ∧ b < e) ∧ pageBase P b = pageBase P a

theorem meetsPage_congr {s e a b : ℕ} (h : pageBase P b = pageBase P a) :
    MeetsPage P s e b ↔ MeetsPage P s e a := by
  unfold MeetsPage
  rw [h]

theorem pageBase_eq_iff (hP : 0 < P) (a b : ℕ) :
    pageBase P b = pageBase P a ↔ pageBase P a ≤ b ∧ b < pageBase P a + P := by
  constructor
  · intro h
    rw [← h]
    exact ⟨pageBase_le P b, lt_pageBase_add hP b⟩
  · rintro ⟨hlo, hhi⟩
    have hdiv : b / P = a / P := by
      apply Nat.div_eq_of_lt_le
      · exact hlo
      · calc b < a / P * P + P := hhi
          _ = (a / P + 1) * P := by ring
    unfold pageBase
    rw [hdiv]

/-- The page of `a` meets `[s, e)` exactly when the two intervals overlap. -/
theorem meetsPage_iff (hP : 0 < P) {s e a : ℕ} :
    MeetsPage P s e a ↔
      s < e ∧ s < pageBase P a + P ∧ pageBase P a < e := by
  constructor
  · rintro ⟨b, ⟨hs, he⟩, hb⟩
    obtain ⟨hlo, hhi⟩ := (pageBase_eq_iff hP a b).mp hb
    omega
  · rintro ⟨hse, hs, he⟩
    refine ⟨max s (pageBase P a), ⟨le_max_left _ _, by omega⟩, ?_⟩
    rw [pageBase_eq_iff hP]
    omega

end Grid

/-! ## Words -/

/-- `s <= a && a < e` on `long`: the comparisons are signed. -/
def longRange (s e a : UInt64) : Bool :=
  decide (s.toInt64 ≤ a.toInt64) && decide (a.toInt64 < e.toInt64)

theorem toInt64_toInt (a : UInt64) :
    a.toInt64.toInt = if a.toNat < 2 ^ 63 then (a.toNat : ℤ)
      else (a.toNat : ℤ) - 2 ^ 64 := by
  have h := a.toNat_lt
  have hb : a.toInt64.toInt = (a.toNat : ℤ).bmod (2 ^ 64) := by
    rw [← Int64.toInt_toBitVec, UInt64.toBitVec_toInt64, BitVec.toInt_eq_toNat_bmod]
    rfl
  rw [hb, Int.bmod_def]
  split <;> split <;> omega

/-- Between bounds of the user half of the address space the signed and the
unsigned comparison agree. -/
theorem longRange_iff {s e a : UInt64} (hs : s.toNat < 2 ^ 63)
    (he : e.toNat < 2 ^ 63) :
    longRange s e a = true ↔ s.toNat ≤ a.toNat ∧ a.toNat < e.toNat := by
  have h := a.toNat_lt
  simp only [longRange, Bool.and_eq_true, decide_eq_true_eq,
    Int64.le_iff_toInt_le, Int64.lt_iff_toInt_lt, toInt64_toInt, if_pos hs,
    if_pos he]
  split <;> omega

/-- `(a >> 12) << 12`. -/
def pageStart (a : UInt64) : UInt64 := (a >>> 12) <<< 12

theorem pageStart_toNat (a : UInt64) :
    (pageStart a).toNat = pageBase 4096 a.toNat := by
  have h := a.toNat_lt
  have h12 : (12 : UInt64).toNat % 64 = 12 := by decide
  unfold pageStart pageBase
  rw [UInt64.toNat_shiftLeft, UInt64.toNat_shiftRight, h12,
    Nat.shiftRight_eq_div_pow, Nat.shiftLeft_eq]
  omega

/-! ### Alignment -/

/-- `v & ~(a - 1)`. -/
def alignDown (v a : UInt64) : UInt64 := v &&& ~~~(a - 1)

/-- `(v + a - 1) & ~(a - 1)`. -/
def alignUp (v a : UInt64) : UInt64 := alignDown (v + a - 1) a

/-- Masking the low `k` bits of a 64-bit number. -/
theorem and_mask_eq {x k : ℕ} (hx : x < 2 ^ 64) (hk : k < 64) :
    x &&& (2 ^ 64 - 1 - (2 ^ k - 1)) = x / 2 ^ k * 2 ^ k := by
  have hpow : 2 ^ k - 1 < 2 ^ 64 :=
    (Nat.sub_le _ _).trans_lt (Nat.pow_lt_pow_right (by omega) hk)
  apply Nat.eq_of_testBit_eq
  intro i
  rw [Nat.sub_sub, Nat.add_comm 1, Nat.testBit_and, Nat.testBit_two_pow_sub_succ hpow,
    Nat.testBit_two_pow_sub_one, Nat.testBit_mul_two_pow, Nat.testBit_div_two_pow]
  by_cases hi : k ≤ i
  · rw [Nat.sub_add_cancel hi]
    by_cases h64 : i < 64
    · simp [hi, h64]
    · have hbig : x.testBit i = false :=
        Nat.testBit_lt_two_pow (hx.trans_le (Nat.pow_le_pow_right (by omega) (by omega)))
      simp [hbig]
  · simp [hi, Nat.lt_of_not_le hi]

theorem alignDown_toNat {v a : UInt64} {k : ℕ} (ha : a.toNat = 2 ^ k) :
    (alignDown v a).toNat = pageBase a.toNat v.toNat := by
  have hk : k < 64 := by
    by_contra hge
    have hle : 2 ^ 64 ≤ 2 ^ k := Nat.pow_le_pow_right (by omega) (by omega)
    have := a.toNat_lt
    omega
  have hone : (1 : UInt64) ≤ a := by
    rw [UInt64.le_iff_toNat_le, ha]
    exact Nat.one_le_two_pow
  have hsub : (a - 1).toNat = 2 ^ k - 1 := by
    rw [UInt64.toNat_sub_of_le _ _ hone, ha]
    rfl
  unfold alignDown pageBase
  rw [UInt64.toNat_and, UInt64.toNat_not, hsub, ha]
  exact and_mask_eq v.toNat_lt hk

theorem alignUp_toNat {v a : UInt64} {k : ℕ} (ha : a.toNat = 2 ^ k)
    (hwrap : v.toNat + a.toNat ≤ 2 ^ 64) :
    (alignUp v a).toNat = pageBase a.toNat (v.toNat + a.toNat - 1) := by
  have hone : 1 ≤ a.toNat := ha ▸ Nat.one_le_two_pow
  have hv := v.toNat_lt
  have hsub : (v + a - 1).toNat = v.toNat + a.toNat - 1 := by
    rw [UInt64.toNat_sub, UInt64.toNat_add, show (1 : UInt64).toNat = 1 from rfl]
    omega
  unfold alignUp
  rw [alignDown_toNat ha, hsub]

/-- Rounding up: the first multiple of `a` from `v` on. -/
theorem alignUp_bounds {v a : UInt64} {k : ℕ} (ha : a.toNat = 2 ^ k)
    (hwrap : v.toNat + a.toNat ≤ 2 ^ 64) :
    v.toNat ≤ (alignUp v a).toNat ∧ (alignUp v a).toNat < v.toNat + a.toNat ∧
      a.toNat ∣ (alignUp v a).toNat := by
  have hpos : 0 < a.toNat := ha ▸ Nat.two_pow_pos k
  have hlow := pageBase_le a.toNat (v.toNat + a.toNat - 1)
  have hhigh := lt_pageBase_add hpos (v.toNat + a.toNat - 1)
  rw [alignUp_toNat ha hwrap]
  exact ⟨by omega, by omega, Nat.dvd_mul_left _ _⟩

/-- What the test `((a - 1) & a) == 0` accepts. -/
theorem two_pow_of_and {a : UInt64} (h : (a - 1) &&& a = 0) (ha : a ≠ 0) :
    ∃ k, a.toNat = 2 ^ k := by
  have hne : a.toNat ≠ 0 := fun h0 => ha (UInt64.toNat_inj.mp h0)
  have hone : (1 : UInt64) ≤ a := by
    rw [UInt64.le_iff_toNat_le]
    exact Nat.one_le_iff_ne_zero.mpr hne
  have hnat := congrArg UInt64.toNat h
  rw [UInt64.toNat_and, UInt64.toNat_sub_of_le _ _ hone, Nat.and_comm] at hnat
  exact (Nat.and_sub_one_eq_zero_iff_isPowerOfTwo hne).mp hnat

/-- `(a - s) >> 12`, used as an array subscript. -/
def pageIndex (s a : UInt64) : ℕ := ((a - s) >>> 12).toNat

theorem pageIndex_eq {s a : UInt64} (h : s.toNat ≤ a.toNat) :
    pageIndex s a = (a.toNat - s.toNat) / 4096 := by
  have h12 : (12 : UInt64).toNat % 64 = 12 := by decide
  unfold pageIndex
  rw [UInt64.toNat_shiftRight, h12, Nat.shiftRight_eq_div_pow,
    UInt64.toNat_sub_of_le _ _ (UInt64.le_iff_toNat_le.mpr h)]

/-- `start <= a && a < start + size` on `unsigned long`; the sum wraps. -/
def inBlock (start size a : UInt64) : Bool :=
  decide (start ≤ a) && decide (a < start + size)

theorem inBlock_iff {start size a : UInt64} :
    inBlock start size a = true ↔
      start.toNat ≤ a.toNat ∧ a.toNat < (start.toNat + size.toNat) % 2 ^ 64 := by
  simp only [inBlock, Bool.and_eq_true, decide_eq_true_eq,
    UInt64.le_iff_toNat_le, UInt64.lt_iff_toNat_lt, UInt64.toNat_add]

/-- What a block accepts lies in the interval it names, wrapped or not. -/
theorem mem_of_inBlock {start size a : UInt64}
    (h : inBlock start size a = true) :
    start.toNat ≤ a.toNat ∧ a.toNat < start.toNat + size.toNat := by
  rw [inBlock_iff] at h
  have := Nat.mod_le (start.toNat + size.toNat) (2 ^ 64)
  omega

end Foundation
