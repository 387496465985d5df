import Mathlib

/-!
# Blocks of a power of two

Aligned blocks of `2 ^ order` units, as a buddy system cuts memory into them.
Two such blocks are nested or apart. A family of them is *coalesced* when no
two buddies are in it; such a family is determined by the units it covers: it
consists of the largest blocks that fit. While a block is split or merged the
family has a *hole*, the block in hand.
-/

namespace Foundation

/-- `2 ^ order` units from `start` on. -/
structure Block where
  order : ℕ
  start : ℕ
deriving DecidableEq, Repr

namespace Block

variable {b c : Block} {x : ℕ}

def stop (b : Block) : ℕ := b.start + 2 ^ b.order

def Aligned (b : Block) : Prop := 2 ^ b.order ∣ b.start

def span (b : Block) : Set ℕ := {x | b.start ≤ x ∧ x < b.stop}

theorem mem_span : x ∈ b.span ↔ b.start ≤ x ∧ x < b.start + 2 ^ b.order := Iff.rfl

theorem start_lt_stop (b : Block) : b.start < b.stop :=
  Nat.lt_add_of_pos_right (Nat.two_pow_pos _)

theorem start_mem (b : Block) : b.start ∈ b.span := ⟨le_rfl, b.start_lt_stop⟩

/-- A block lies between two bounds when its units do. -/
theorem bounds_of_span {lo hi : ℕ} (h : ∀ x ∈ b.span, lo ≤ x ∧ x < hi) :
    lo ≤ b.start ∧ b.stop ≤ hi := by
  have hlt := b.start_lt_stop
  have hlast : b.stop - 1 ∈ b.span := ⟨by omega, by omega⟩
  exact ⟨(h _ b.start_mem).1, by have := (h _ hlast).2; omega⟩

/-- The lower half of the block of the next order is a multiple of that order. -/
def lower (b : Block) : Prop := 2 ^ (b.order + 1) ∣ b.start

instance (b : Block) : Decidable b.lower := by
  unfold lower
  infer_instance

/-- The other half. -/
def buddy (b : Block) : Block :=
  ⟨b.order, if b.lower then b.start + 2 ^ b.order else b.start - 2 ^ b.order⟩

/-- The block of which `b` is a half. -/
def parent (b : Block) : Block :=
  ⟨b.order + 1, if b.lower then b.start else b.start - 2 ^ b.order⟩

/-- The lower half of a block. -/
def low (b : Block) : Block := ⟨b.order - 1, b.start⟩

/-- The upper half of a block. -/
def high (b : Block) : Block := ⟨b.order - 1, b.start + 2 ^ (b.order - 1)⟩

/-! ## Nested or apart -/

/-- Two multiples of `d` are `d` apart. -/
theorem add_le_of_dvd {d m n : ℕ} (hm : d ∣ m) (hn : d ∣ n) (h : m < n) : m + d ≤ n := by
  obtain ⟨k, rfl⟩ := Nat.le.dest h
  have hd : d ∣ k + 1 := by
    have := (Nat.dvd_add_right hm).mp (by rwa [show m + (k + 1) = m.succ + k by omega])
    exact this
  have := Nat.le_of_dvd (Nat.succ_pos k) hd
  omega

/-- The smaller of two aligned blocks that meet lies in the larger one. -/
theorem span_subset (hb : b.Aligned) (hc : c.Aligned) (hle : b.order ≤ c.order)
    (hxb : x ∈ b.span) (hxc : x ∈ c.span) : b.span ⊆ c.span := by
  have hpow : 2 ^ b.order ∣ 2 ^ c.order := Nat.pow_dvd_pow 2 hle
  have hcs : 2 ^ b.order ∣ c.start := hpow.trans hc
  have hlow : c.start ≤ b.start := by
    by_contra hlt
    have := add_le_of_dvd hb hcs (Nat.lt_of_not_le hlt)
    exact absurd (hxb.2.trans_le this) (Nat.not_lt.mpr hxc.1)
  have hhigh : b.start + 2 ^ b.order ≤ c.start + 2 ^ c.order :=
    add_le_of_dvd hb ((Nat.dvd_add_right hcs).mpr hpow) (hxb.1.trans_lt hxc.2)
  intro y hy
  exact ⟨hlow.trans hy.1, hy.2.trans_le hhigh⟩

/-- The block of order `m` with the unit `x`. -/
def unit (m x : ℕ) : Block := ⟨m, x / 2 ^ m * 2 ^ m⟩

theorem unit_aligned (m x : ℕ) : (unit m x).Aligned := dvd_mul_left _ _

theorem mem_unit (m x : ℕ) : x ∈ (unit m x).span := by
  refine ⟨Nat.div_mul_le_self _ _, ?_⟩
  show x < x / 2 ^ m * 2 ^ m + 2 ^ m
  have hdiv := Nat.div_add_mod' x (2 ^ m)
  have hlt := Nat.mod_lt x (Nat.two_pow_pos m)
  omega

theorem unit_subset {m : ℕ} (hb : b.Aligned) (hm : m ≤ b.order) (hx : x ∈ b.span) :
    (unit m x).span ⊆ b.span :=
  span_subset (unit_aligned m x) hb hm (mem_unit m x) hx

/-- Blocks of one order that meet are equal. -/
theorem eq_of_meets (hb : b.Aligned) (hc : c.Aligned) (ho : b.order = c.order)
    (hxb : x ∈ b.span) (hxc : x ∈ c.span) : b = c := by
  have h₁ := span_subset hb hc ho.le hxb hxc b.start_mem
  have h₂ := span_subset hc hb ho.ge hxc hxb c.start_mem
  obtain ⟨k, a⟩ := b
  obtain ⟨j, d⟩ := c
  cases ho
  exact congrArg (Block.mk k) (le_antisymm h₂.1 h₁.1)

/-! ## Halves -/

theorem lower_or (hb : b.Aligned) : b.lower ∨ 2 ^ (b.order + 1) ∣ b.start + 2 ^ b.order := by
  obtain ⟨k, hk⟩ := hb
  rcases Nat.even_or_odd' k with ⟨j, rfl | rfl⟩
  · left
    exact ⟨j, by rw [hk, pow_succ, Nat.mul_assoc]⟩
  · right
    exact ⟨j + 1, by rw [hk, pow_succ]; ring⟩

/-- An upper half does not start at zero. -/
theorem le_start_of_not_lower (hb : b.Aligned) (h : ¬ b.lower) : 2 ^ b.order ≤ b.start := by
  apply Nat.le_of_dvd (Nat.pos_of_ne_zero fun h0 => h ?_) hb
  rw [lower, h0]
  exact dvd_zero _

/-- The bit that tells the halves apart. -/
theorem and_pow_ne_zero_iff (hb : b.Aligned) :
    b.start &&& 2 ^ b.order ≠ 0 ↔ ¬ b.lower := by
  obtain ⟨k, hk⟩ := hb
  have hdiv : b.start / 2 ^ b.order = k := by
    rw [hk, Nat.mul_div_cancel_left k (Nat.two_pow_pos _)]
  have hlow : b.lower ↔ 2 ∣ k := by
    unfold lower
    rw [hk, pow_succ, Nat.mul_dvd_mul_iff_left (Nat.two_pow_pos _)]
  rw [Nat.and_two_pow, Nat.testBit_eq_decide_div_mod_eq, hdiv, hlow, Nat.dvd_iff_mod_eq_zero]
  have hpos := Nat.two_pow_pos b.order
  rcases Nat.mod_two_eq_zero_or_one k with h | h <;> simp [h]

theorem buddy_aligned (hb : b.Aligned) : b.buddy.Aligned := by
  unfold buddy Aligned
  dsimp only
  split
  · exact (Nat.dvd_add_right hb).mpr dvd_rfl
  · exact Nat.dvd_sub hb dvd_rfl

theorem parent_aligned (hb : b.Aligned) : b.parent.Aligned := by
  unfold parent Aligned
  dsimp only
  split
  · assumption
  · rename_i h
    have hle := le_start_of_not_lower hb h
    have hsum := (lower_or hb).resolve_left h
    have := Nat.dvd_sub hsum (dvd_refl (2 ^ (b.order + 1)))
    rwa [pow_succ, show b.start + 2 ^ b.order - 2 ^ b.order * 2 = b.start - 2 ^ b.order by omega]
      at this

/-- A block and its buddy are the two halves of their parent. -/
theorem mem_parent (hb : b.Aligned) : x ∈ b.parent.span ↔ x ∈ b.span ∨ x ∈ b.buddy.span := by
  unfold parent buddy
  simp only [mem_span, pow_succ]
  split
  · omega
  · have hle := le_start_of_not_lower hb ‹_›
    omega

theorem buddy_apart (hb : b.Aligned) (hx : x ∈ b.span) : x ∉ b.buddy.span := by
  unfold buddy
  simp only [mem_span] at hx ⊢
  split
  · omega
  · have hle := le_start_of_not_lower hb ‹_›
    omega

@[simp] theorem buddy_order (b : Block) : b.buddy.order = b.order := rfl

@[simp] theorem parent_order (b : Block) : b.parent.order = b.order + 1 := rfl

theorem buddy_eq_lower (h : b.lower) : b.buddy = ⟨b.order, b.start + 2 ^ b.order⟩ := by
  unfold buddy
  rw [if_pos h]

theorem buddy_eq_upper (h : ¬ b.lower) : b.buddy = ⟨b.order, b.start - 2 ^ b.order⟩ := by
  unfold buddy
  rw [if_neg h]

/-- Buddies touch. -/
theorem buddy_adjacent (hb : b.Aligned) : b.stop = b.buddy.start ∨ b.buddy.stop = b.start := by
  by_cases h : b.lower
  · left
    rw [buddy_eq_lower h]
    rfl
  · right
    rw [buddy_eq_upper h]
    exact Nat.sub_add_cancel (le_start_of_not_lower hb h)

theorem buddy_lower (hb : b.Aligned) : b.buddy.lower ↔ ¬ b.lower := by
  by_cases h : b.lower
  · refine iff_of_false (fun h' => ?_) (not_not.mpr h)
    rw [buddy_eq_lower h] at h'
    have hd := Nat.le_of_dvd (Nat.two_pow_pos _) ((Nat.dvd_add_right h).mp h')
    have := Nat.pow_lt_pow_right (a := 2) (by norm_num) (Nat.lt_succ_self b.order)
    omega
  · refine iff_of_true ?_ h
    have hp := parent_aligned hb
    unfold parent at hp
    rw [if_neg h] at hp
    rw [buddy_eq_upper h]
    exact hp

theorem buddy_buddy (hb : b.Aligned) : b.buddy.buddy = b := by
  by_cases h : b.lower
  · have h' := (buddy_lower hb).not.mpr (not_not.mpr h)
    rw [buddy_eq_upper h', buddy_eq_lower h]
    obtain ⟨k, a⟩ := b
    exact congrArg (Block.mk k) (Nat.add_sub_cancel a _)
  · have h' := (buddy_lower hb).mpr h
    have hle := le_start_of_not_lower hb h
    rw [buddy_eq_lower h', buddy_eq_upper h]
    obtain ⟨k, a⟩ := b
    exact congrArg (Block.mk k) (Nat.sub_add_cancel hle)

theorem low_aligned (hb : b.Aligned) : b.low.Aligned :=
  (Nat.pow_dvd_pow 2 (Nat.sub_le _ _)).trans hb

theorem high_aligned (hb : b.Aligned) : b.high.Aligned :=
  (Nat.dvd_add_right (low_aligned hb)).mpr dvd_rfl

theorem halves_apart (hx : x ∈ b.low.span) : x ∉ b.high.span := by
  unfold low high at *
  simp only [mem_span] at *
  omega

section Halves

variable (h : 0 < b.order)

include h

theorem half_pow : 2 ^ b.order = 2 ^ (b.order - 1) + 2 ^ (b.order - 1) := by
  obtain ⟨k, hk⟩ := Nat.exists_eq_succ_of_ne_zero h.ne'
  rw [hk, Nat.succ_sub_one, pow_succ]
  ring

theorem mem_halves : x ∈ b.span ↔ x ∈ b.low.span ∨ x ∈ b.high.span := by
  unfold low high
  simp only [mem_span, half_pow h]
  omega

theorem high_buddy (hb : b.Aligned) : b.high.buddy = b.low := by
  have hnot : ¬ b.high.lower := by
    intro hl
    have hd : 2 ^ b.order ∣ b.start + 2 ^ (b.order - 1) := by
      have := hl
      unfold lower high at this
      rwa [Nat.sub_add_cancel h] at this
    have := Nat.le_of_dvd (Nat.two_pow_pos _) ((Nat.dvd_add_right hb).mp hd)
    have := Nat.pow_lt_pow_right (a := 2) (by norm_num) (Nat.sub_lt h one_pos)
    omega
  rw [buddy_eq_upper hnot]
  simp [high, low]

end Halves

end Block

/-! ## Families of blocks -/

open Block

/-- The units that a family covers. -/
def cover (B : Set Block) : Set ℕ := {x | ∃ b ∈ B, x ∈ b.span}

/-- Aligned blocks, apart from each other, no two of them buddies. -/
structure Coalesced (B : Set Block) : Prop where
  aligned : ∀ b ∈ B, b.Aligned
  unique : ∀ b ∈ B, ∀ c ∈ B, ∀ x ∈ b.span, x ∈ c.span → b = c
  single : ∀ b ∈ B, b.buddy ∉ B

namespace Coalesced

variable {B C : Set Block} {m : ℕ}

/-- **Largest blocks.** Whatever fits into the covered units fits into one block
of the family. -/
theorem exists_ge (hB : Coalesced B) (hm : ∀ b ∈ B, m ≤ b.order) {c : Block}
    (hc : c.Aligned) (hmc : m ≤ c.order)
    (hcov : ∀ x ∈ c.span, 2 ^ m ∣ x → x ∈ cover B) :
    ∃ b ∈ B, c.order ≤ b.order ∧ c.span ⊆ b.span := by
  -- on the order of `c`; a block of two covered halves is no larger than either
  induction hk : c.order - m generalizing c with
  | zero =>
      have ho : c.order = m := by omega
      obtain ⟨b, hb, hx⟩ := hcov c.start c.start_mem (ho ▸ hc)
      have hle : c.order ≤ b.order := ho ▸ hm b hb
      exact ⟨b, hb, hle, span_subset hc (hB.aligned b hb) hle c.start_mem hx⟩
  | succ k ih =>
      have hpos : 0 < c.order := by omega
      have hlow := low_aligned hc
      have hhigh := high_aligned hc
      obtain ⟨b, hb, hle, hsub⟩ := ih hlow (by show m ≤ c.order - 1; omega)
        (fun x hx => hcov x ((mem_halves hpos).mpr (Or.inl hx)))
        (by show c.order - 1 - m = k; omega)
      obtain ⟨b', hb', hle', hsub'⟩ := ih hhigh (by show m ≤ c.order - 1; omega)
        (fun x hx => hcov x ((mem_halves hpos).mpr (Or.inr hx)))
        (by show c.order - 1 - m = k; omega)
      have hmeet := hsub c.low.start_mem
      have hmeet' := hsub' c.high.start_mem
      have hin := (mem_halves hpos).mpr (Or.inl c.low.start_mem)
      have hin' := (mem_halves hpos).mpr (Or.inr c.high.start_mem)
      by_cases hbig : c.order ≤ b.order
      · exact ⟨b, hb, hbig, span_subset hc (hB.aligned b hb) hbig hin hmeet⟩
      by_cases hbig' : c.order ≤ b'.order
      · exact ⟨b', hb', hbig', span_subset hc (hB.aligned b' hb') hbig' hin' hmeet'⟩
      -- otherwise the two are the halves themselves, and buddies
      have ho : c.low.order = b.order := by
        have : c.low.order = c.order - 1 := rfl
        omega
      have ho' : c.high.order = b'.order := by
        have : c.high.order = c.order - 1 := rfl
        omega
      have hbl : c.low = b := eq_of_meets hlow (hB.aligned b hb) ho c.low.start_mem hmeet
      have hbh : c.high = b' := eq_of_meets hhigh (hB.aligned b' hb') ho' c.high.start_mem hmeet'
      refine absurd ?_ (hB.single b' hb')
      rw [← hbh, high_buddy hpos hc, hbl]
      exact hb

/-- A block that fits into one of the family and is as large is that one. -/
theorem eq_of_subset (hB : Coalesced B) {b c d : Block} (hb : b ∈ B) (hd : d ∈ B)
    (hbc : b.span ⊆ c.span) (hcd : c.span ⊆ d.span) : b = d :=
  hB.unique b hb d hd b.start b.start_mem (hcd (hbc b.start_mem))

/-- **Coalesced families are determined by what they cover.** -/
theorem ext_cover (hB : Coalesced B) (hC : Coalesced C) (hmB : ∀ b ∈ B, m ≤ b.order)
    (hmC : ∀ b ∈ C, m ≤ b.order) (h : ∀ x, 2 ^ m ∣ x → (x ∈ cover B ↔ x ∈ cover C)) :
    B = C := by
  have hsub : ∀ {B C : Set Block}, Coalesced B → Coalesced C → (∀ b ∈ B, m ≤ b.order) →
      (∀ b ∈ C, m ≤ b.order) → (∀ x, 2 ^ m ∣ x → (x ∈ cover B ↔ x ∈ cover C)) → B ⊆ C := by
    intro B C hB hC hmB hmC h b hb
    obtain ⟨c, hc, hle, hbc⟩ := hC.exists_ge hmC (hB.aligned b hb) (hmB b hb)
      fun x hx hd => (h x hd).mp ⟨b, hb, hx⟩
    obtain ⟨d, hd, hle', hcd⟩ := hB.exists_ge hmB (hC.aligned c hc) (hmC c hc)
      fun x hx hd => (h x hd).mpr ⟨c, hc, hx⟩
    have hbd := hB.eq_of_subset hb hd hbc hcd
    have ho : b.order = c.order := le_antisymm hle (hbd ▸ hle')
    rw [eq_of_meets (hB.aligned b hb) (hC.aligned c hc) ho b.start_mem (hbc b.start_mem)]
    exact hc
  exact Set.Subset.antisymm (hsub hB hC hmB hmC h) (hsub hC hB hmC hmB fun x hx => (h x hx).symm)

end Coalesced

/-- A coalesced family and, apart from it, a block in hand. -/
structure Holed (B : Set Block) (h : Block) : Prop where
  family : Coalesced B
  aligned : h.Aligned
  apart : ∀ b ∈ B, ∀ x ∈ b.span, x ∉ h.span

namespace Coalesced

variable {B : Set Block}

theorem mono (hB : Coalesced B) {C : Set Block} (h : C ⊆ B) : Coalesced C where
  aligned := fun b hb => hB.aligned b (h hb)
  unique := fun b hb c hc => hB.unique b (h hb) c (h hc)
  single := fun b hb hbud => hB.single b (h hb) (h hbud)

/-- A block is taken in hand. -/
theorem take (hB : Coalesced B) {b : Block} (hb : b ∈ B) : Holed (B \ {b}) b where
  family := hB.mono Set.sdiff_subset
  aligned := hB.aligned b hb
  apart := fun c hc x hx hxb => hc.2 (hB.unique c hc.1 b hb x hx hxb)

end Coalesced

namespace Holed

variable {B : Set Block} {h : Block}

/-- The upper half of the block in hand is put back. -/
theorem split (hH : Holed B h) (hpos : 0 < h.order) : Holed (insert h.high B) h.low := by
  have hnot : ∀ b ∈ B, ∀ x ∈ b.span, x ∉ h.low.span ∧ x ∉ h.high.span := fun b hb x hx =>
    ⟨fun hl => hH.apart b hb x hx ((mem_halves hpos).mpr (Or.inl hl)),
      fun hh => hH.apart b hb x hx ((mem_halves hpos).mpr (Or.inr hh))⟩
  have hlowB : h.low ∉ B := fun hmem =>
    (hnot _ hmem _ h.low.start_mem).1 h.low.start_mem
  refine ⟨⟨?_, ?_, ?_⟩, low_aligned hH.aligned, ?_⟩
  · rintro b (rfl | hb)
    · exact high_aligned hH.aligned
    · exact hH.family.aligned b hb
  · rintro b (rfl | hb) c (rfl | hc) x hx hx'
    · rfl
    · exact absurd hx (hnot c hc x hx').2
    · exact absurd hx' (hnot b hb x hx).2
    · exact hH.family.unique b hb c hc x hx hx'
  · rintro b (rfl | hb) hbud
    · rw [high_buddy hpos hH.aligned] at hbud
      rcases hbud with heq | hbud
      · have := h.low.start_mem
        exact halves_apart this (heq ▸ this)
      · exact hlowB hbud
    · rcases hbud with heq | hbud
      · -- the buddy of `b` would be the upper half, so `b` the lower one
        apply hlowB
        rw [← high_buddy hpos hH.aligned, ← heq, buddy_buddy (hH.family.aligned b hb)]
        exact hb
      · exact hH.family.single b hb hbud
  · rintro b (rfl | hb) x hx hl
    · exact halves_apart hl hx
    · exact (hnot b hb x hx).1 hl

/-- The block in hand is merged with its buddy. -/
theorem merge (hH : Holed B h) (hbud : h.buddy ∈ B) : Holed (B \ {h.buddy}) h.parent := by
  refine ⟨hH.family.mono Set.sdiff_subset, parent_aligned hH.aligned, ?_⟩
  intro b hb x hx hp
  rcases (mem_parent hH.aligned).mp hp with hxh | hxb
  · exact hH.apart b hb.1 x hx hxh
  · exact hb.2 (hH.family.unique b hb.1 _ hbud x hx hxb)

/-- The block in hand is put back as it is. -/
theorem fill (hH : Holed B h) (hbud : h.buddy ∉ B) : Coalesced (insert h B) := by
  have hself : h.buddy ≠ h := fun heq => by
    have := buddy_apart hH.aligned h.start_mem
    rw [heq] at this
    exact this h.start_mem
  refine ⟨?_, ?_, ?_⟩
  · rintro b (rfl | hb)
    · exact hH.aligned
    · exact hH.family.aligned b hb
  · rintro b (rfl | hb) c (rfl | hc) x hx hx'
    · rfl
    · exact absurd hx (hH.apart c hc x hx')
    · exact absurd hx' (hH.apart b hb x hx)
    · exact hH.family.unique b hb c hc x hx hx'
  · rintro b (rfl | hb) hmem
    · rcases hmem with heq | hmem
      · exact hself heq
      · exact hbud hmem
    · rcases hmem with heq | hmem
      · apply hbud
        rw [← heq, buddy_buddy (hH.family.aligned b hb)]
        exact hb
      · exact hH.family.single b hb hmem

/-- A block of the family that contains the first unit of the buddy of the block
in hand, and is no smaller, would contain the block in hand as well. -/
theorem start_of_meets (hH : Holed B h) {b : Block} (hb : b ∈ B)
    (hx : h.buddy.start ∈ b.span) : b.start = h.buddy.start ∧ b.order ≤ h.order := by
  have hal := hH.family.aligned b hb
  have hbud := buddy_aligned hH.aligned
  have hle : b.order ≤ h.order := by
    by_contra hlt
    have hin : h.buddy.start ∈ h.parent.span :=
      (mem_parent hH.aligned).mpr (Or.inr h.buddy.start_mem)
    have hsub := span_subset (parent_aligned hH.aligned) hal (Nat.lt_of_not_le hlt) hin hx
    have hstart := hsub ((mem_parent hH.aligned).mpr (Or.inl h.start_mem))
    exact hH.apart b hb h.start hstart h.start_mem
  refine ⟨?_, hle⟩
  have hsub := span_subset hal hbud hle hx h.buddy.start_mem
  exact le_antisymm hx.1 (hsub b.start_mem).1

/-- Splitting does not change what is covered. -/
theorem cover_split (hpos : 0 < h.order) (x : ℕ) :
    x ∈ cover (insert h.high B) ∨ x ∈ h.low.span ↔ x ∈ cover B ∨ x ∈ h.span := by
  rw [mem_halves hpos]
  constructor
  · rintro (⟨b, rfl | hb, hx⟩ | hx)
    · exact Or.inr (Or.inr hx)
    · exact Or.inl ⟨b, hb, hx⟩
    · exact Or.inr (Or.inl hx)
  · rintro (⟨b, hb, hx⟩ | hx | hx)
    · exact Or.inl ⟨b, Or.inr hb, hx⟩
    · exact Or.inr hx
    · exact Or.inl ⟨_, Or.inl rfl, hx⟩

/-- Neither does merging. -/
theorem cover_merge (hH : Holed B h) (hbud : h.buddy ∈ B) (x : ℕ) :
    x ∈ cover (B \ {h.buddy}) ∨ x ∈ h.parent.span ↔ x ∈ cover B ∨ x ∈ h.span := by
  rw [mem_parent hH.aligned]
  constructor
  · rintro (⟨b, hb, hx⟩ | hx | hx)
    · exact Or.inl ⟨b, hb.1, hx⟩
    · exact Or.inr hx
    · exact Or.inl ⟨_, hbud, hx⟩
  · rintro (⟨b, hb, hx⟩ | hx)
    · by_cases heq : b = h.buddy
      · exact Or.inr (Or.inr (heq ▸ hx))
      · exact Or.inl ⟨b, ⟨hb, heq⟩, hx⟩
    · exact Or.inr (Or.inl hx)

end Holed

end Foundation
