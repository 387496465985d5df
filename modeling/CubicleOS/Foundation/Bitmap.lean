import Mathlib

/-!
# Bitmaps in 64-bit words

A run of bits is set or cleared word by word: the first and the last word under
a mask, the words between them as a whole. The masks are the two idioms
`(1 << e) - 1` and `-(1 << s)`. Everything else about a bitmap is said through
`bit`.
-/

namespace Foundation

/-- Word `w` holds the bits `64 * w`, ..., `64 * w + 63`. -/
abbrev Bitmap : Type := ℕ → BitVec 64

namespace Bitmap

def bit (m : Bitmap) (i : ℕ) : Bool := (m (i / 64)).getLsbD (i % 64)

/-- All bits below `e`. -/
def lowMask (e : ℕ) : BitVec 64 := (1#64 <<< e) - 1#64

/-- All bits from `s` on. -/
def highMask (s : ℕ) : BitVec 64 := -(1#64 <<< s)

/-- `n` bits from `first` on are set. -/
def setRange (m : Bitmap) (first n : ℕ) : Bitmap := fun w =>
  let startOff := first % 64
  let endIdx := (first + n) / 64
  let endOff := (first + n) % 64
  if first / 64 = endIdx then
    if w = endIdx then m w ||| (lowMask endOff &&& highMask startOff) else m w
  else if w = first / 64 then m w ||| highMask startOff
  else if first / 64 < w ∧ w < endIdx then BitVec.allOnes 64
  else if w = endIdx then m w ||| lowMask endOff
  else m w

/-- `n` bits from `first` on are cleared. -/
def clearRange (m : Bitmap) (first n : ℕ) : Bitmap := fun w =>
  let startOff := first % 64
  let endIdx := (first + n) / 64
  let endOff := (first + n) % 64
  if first / 64 = endIdx then
    if w = endIdx then m w &&& (highMask endOff ||| lowMask startOff) else m w
  else if w = first / 64 then m w &&& lowMask startOff
  else if first / 64 < w ∧ w < endIdx then 0
  else if w = endIdx then m w &&& highMask endOff
  else m w

@[simp] theorem getLsbD_lowMask {e : ℕ} (he : e < 64) (i : ℕ) :
    (lowMask e).getLsbD i = decide (i < e) := by
  have hval : (lowMask e).toNat = 2 ^ e - 1 := by
    have hlt : 2 ^ e < 2 ^ 64 := Nat.pow_lt_pow_right (by norm_num) he
    have hpos : 1 ≤ 2 ^ e := Nat.one_le_two_pow
    unfold lowMask
    rw [BitVec.toNat_sub, BitVec.toNat_shiftLeft, BitVec.toNat_ofNat, Nat.one_mod_two_pow (by simp),
      Nat.shiftLeft_eq, Nat.one_mul, Nat.mod_eq_of_lt hlt]
    omega
  rw [← BitVec.testBit_toNat, hval, Nat.testBit_two_pow_sub_one]

/-- The two masks are complements. -/
theorem highMask_eq (s : ℕ) : highMask s = ~~~(lowMask s) := by
  unfold highMask lowMask
  rw [BitVec.not_sub_one_eq_not_add_one, BitVec.neg_eq_not_add]

@[simp] theorem getLsbD_highMask {s : ℕ} (hs : s < 64) {i : ℕ} (hi : i < 64) :
    (highMask s).getLsbD i = decide (s ≤ i) := by
  rw [highMask_eq, BitVec.getLsbD_not, getLsbD_lowMask hs, Bool.eq_iff_iff]
  simp [hi]

section Runs

variable (m : Bitmap) (first n i : ℕ)

theorem off_lt (j : ℕ) : j % 64 < 64 := Nat.mod_lt j (by norm_num)

/-- A run of bits, seen bit by bit. -/
theorem bit_setRange :
    (m.setRange first n).bit i = (m.bit i || decide (first ≤ i ∧ i < first + n)) := by
  unfold bit setRange
  dsimp only
  split_ifs with hsame hw hw hbetween hlast
  · -- the run lies in one word
    rw [BitVec.getLsbD_or, BitVec.getLsbD_and, getLsbD_lowMask (off_lt _),
      getLsbD_highMask (off_lt _) (off_lt i), ← Bool.decide_and]
    congr 1
    exact decide_eq_decide.mpr (by omega)
  · rw [decide_eq_false (by omega), Bool.or_false]
  · rw [BitVec.getLsbD_or, getLsbD_highMask (off_lt _) (off_lt i)]
    congr 1
    exact decide_eq_decide.mpr (by omega)
  · rw [BitVec.getLsbD_allOnes, decide_eq_true (off_lt i), decide_eq_true (by omega),
      Bool.or_true]
  · rw [BitVec.getLsbD_or, getLsbD_lowMask (off_lt _)]
    congr 1
    exact decide_eq_decide.mpr (by omega)
  · rw [decide_eq_false (by omega), Bool.or_false]

theorem bit_clearRange :
    (m.clearRange first n).bit i = (m.bit i && !decide (first ≤ i ∧ i < first + n)) := by
  unfold bit clearRange
  dsimp only
  split_ifs with hsame hw hw hbetween hlast
  · rw [BitVec.getLsbD_and, BitVec.getLsbD_or, getLsbD_lowMask (off_lt _),
      getLsbD_highMask (off_lt _) (off_lt i), ← Bool.decide_or, ← decide_not]
    congr 1
    exact decide_eq_decide.mpr (by omega)
  · rw [decide_eq_false (by omega), Bool.not_false, Bool.and_true]
  · rw [BitVec.getLsbD_and, getLsbD_lowMask (off_lt _), ← decide_not]
    congr 1
    exact decide_eq_decide.mpr (by omega)
  · rw [decide_eq_true (by omega), Bool.not_true, Bool.and_false]
    exact BitVec.getLsbD_zero
  · rw [BitVec.getLsbD_and, getLsbD_highMask (off_lt _) (off_lt i), ← decide_not]
    congr 1
    exact decide_eq_decide.mpr (by omega)
  · rw [decide_eq_false (by omega), Bool.not_false, Bool.and_true]

end Runs

end Bitmap

end Foundation
