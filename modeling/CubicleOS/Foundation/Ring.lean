import CubicleOS.Foundation.Outcome
import Mathlib.Data.List.Basic
import Mathlib.Logic.Function.Basic

/-!
# Ring buffers

A buffer of `cap` cells is filled from a position that moves on and wraps
around. What it holds is a list: entry `i` of the list lies `i` cells after the
position of the oldest one. Cells outside that stretch may contain anything.
-/

namespace Foundation

universe u

namespace Ring

variable {α : Type u} {cells cells' : ℕ → Option α} {cap r : ℕ} {xs ys : List α} {x : α}

/-- From position `r` on, the cells hold the entries of `xs`. -/
def Holds (cells : ℕ → Option α) (cap r : ℕ) (xs : List α) : Prop :=
  xs.length ≤ cap ∧ ∀ i x, xs[i]? = some x → cells ((r + i) % cap) = some x

/-- Less than a whole turn apart, positions have cells of their own. -/
theorem offset_injective {i j : ℕ} (hi : i < cap) (hj : j < cap)
    (h : (r + i) % cap = (r + j) % cap) : i = j := by
  have hmod : i ≡ j [MOD cap] := Nat.ModEq.add_left_cancel' r h
  exact Nat.ModEq.eq_of_lt_of_lt hmod hi hj

theorem holds_nil : Holds cells cap r [] := ⟨Nat.zero_le _, fun _ _ h => by simp at h⟩

theorem holds_mod_iff : Holds cells cap (r % cap) xs ↔ Holds cells cap r xs := by
  unfold Holds
  simp only [Nat.mod_add_mod]

/-- New entries go behind the old ones, which stay where they are. -/
theorem Holds.append (h : Holds cells cap r xs) (hroom : xs.length + ys.length ≤ cap)
    (hnew : ∀ j y, ys[j]? = some y → cells' ((r + xs.length + j) % cap) = some y)
    (hold : ∀ i < xs.length, cells' ((r + i) % cap) = cells ((r + i) % cap)) :
    Holds cells' cap r (xs ++ ys) := by
  refine ⟨by rwa [List.length_append], fun i y hy => ?_⟩
  rcases Nat.lt_or_ge i xs.length with hi | hi
  · rw [List.getElem?_append_left hi] at hy
    rw [hold i hi]
    exact h.2 i y hy
  · rw [List.getElem?_append_right hi] at hy
    have hpos : r + i = r + xs.length + (i - xs.length) := by omega
    rw [hpos]
    exact hnew _ y hy

theorem Holds.push (h : Holds cells cap r xs) (hroom : xs.length < cap) (x : α) :
    Holds (Function.update cells ((r + xs.length) % cap) (some x)) cap r (xs ++ [x]) := by
  refine h.append hroom (fun j y hy => ?_) (fun i hi => ?_)
  · have hj : j = 0 := by
      have hlt := (List.getElem?_eq_some_iff.mp hy).1
      simpa using hlt
    subst hj
    cases hy
    exact Function.update_self _ _ _
  · refine Function.update_of_ne (fun heq => ?_) _ _
    have := offset_injective (hi.trans hroom) hroom heq
    omega

/-- The oldest entries are taken out by moving the position on. -/
theorem Holds.drop (h : Holds cells cap r xs) (n : ℕ) :
    Holds cells cap (r + n) (xs.drop n) := by
  refine ⟨?_, fun i y hy => ?_⟩
  · rw [List.length_drop]
    exact (Nat.sub_le _ _).trans h.1
  · rw [List.getElem?_drop] at hy
    rw [Nat.add_assoc]
    exact h.2 _ y hy

theorem Holds.head (h : Holds cells cap r (x :: xs)) : cells (r % cap) = some x :=
  h.2 0 x rfl

theorem Holds.tail (h : Holds cells cap r (x :: xs)) : Holds cells cap (r + 1) xs :=
  h.drop 1

/-- With a cell to spare, the two positions meet only when there is nothing
between them. -/
theorem Holds.position_eq_iff (h : Holds cells cap r xs) (hspare : xs.length < cap)
    (hr : r < cap) : r = (r + xs.length) % cap ↔ xs = [] := by
  constructor
  · intro heq
    have hzero : (r + 0) % cap = (r + xs.length) % cap := by
      rw [Nat.add_zero, Nat.mod_eq_of_lt hr]
      exact heq
    have := offset_injective (Nat.zero_lt_of_lt hspare) hspare hzero
    exact List.length_eq_zero_iff.mp this.symm
  · rintro rfl
    rw [List.length_nil, Nat.add_zero, Nat.mod_eq_of_lt hr]

/-! ## Copying in pieces -/

/-- `xs` copied to the cells from `p` on. -/
def copyIn (cells : ℕ → Option α) (p : ℕ) (xs : List α) : ℕ → Option α :=
  fun i => if p ≤ i ∧ i < p + xs.length then xs[i - p]? else cells i

/-- The `n` cells from `p` on. -/
def copyOut (cells : ℕ → Option α) (p n : ℕ) : List (Option α) :=
  (List.range n).map fun i => cells (p + i)

/-- A copy that goes on at the first cell when it comes to the last. -/
def copyRound (cells : ℕ → Option α) (cap p : ℕ) (xs : List α) : ℕ → Option α :=
  if p + xs.length ≤ cap then copyIn cells p xs
  else copyIn (copyIn cells p (xs.take (cap - p))) 0 (xs.drop (cap - p))

theorem copyIn_at {p j : ℕ} (hj : j < xs.length) : copyIn cells p xs (p + j) = xs[j]? := by
  unfold copyIn
  rw [if_pos ⟨Nat.le_add_right p j, Nat.add_lt_add_left hj p⟩, Nat.add_sub_cancel_left]

theorem copyIn_of_notMem {p i : ℕ} (hi : ¬ (p ≤ i ∧ i < p + xs.length)) :
    copyIn cells p xs i = cells i := if_neg hi

theorem copyRound_at {p j : ℕ} (hp : p < cap) (hlen : xs.length ≤ cap) (hj : j < xs.length) :
    copyRound cells cap p xs ((p + j) % cap) = xs[j]? := by
  unfold copyRound
  split
  · rw [Nat.mod_eq_of_lt (by omega)]
    exact copyIn_at hj
  · rcases Nat.lt_or_ge (p + j) cap with hin | hout
    · -- in the first piece, which the second does not reach
      rw [Nat.mod_eq_of_lt hin, copyIn_of_notMem (by rw [List.length_drop]; omega),
        copyIn_at (by rw [List.length_take]; omega), List.getElem?_take, if_pos (by omega)]
    · have hmod : (p + j) % cap = 0 + (j - (cap - p)) := by
        rw [Nat.mod_eq_sub_mod hout, Nat.mod_eq_of_lt (by omega)]
        omega
      rw [hmod, copyIn_at (by rw [List.length_drop]; omega), List.getElem?_drop]
      congr 1
      omega

theorem copyRound_of_ne {p q : ℕ} (hp : p < cap) (hq : q < cap)
    (h : ∀ j < xs.length, q ≠ (p + j) % cap) : copyRound cells cap p xs q = cells q := by
  unfold copyRound
  split
  · refine copyIn_of_notMem fun hin => h (q - p) (by omega) ?_
    rw [Nat.add_sub_cancel' hin.1, Nat.mod_eq_of_lt hq]
  · rw [copyIn_of_notMem fun hin => ?_, copyIn_of_notMem fun hin => ?_]
    · rw [List.length_take] at hin
      refine h (q - p) (by omega) ?_
      rw [Nat.add_sub_cancel' hin.1, Nat.mod_eq_of_lt hq]
    · rw [List.length_drop] at hin
      refine h (cap - p + q) (by omega) ?_
      have hsum : p + (cap - p + q) = q + cap := by omega
      rw [hsum, Nat.add_mod_right, Nat.mod_eq_of_lt hq]

theorem Holds.copyRound (h : Holds cells cap r xs) (hcap : 0 < cap)
    (hroom : xs.length + ys.length ≤ cap) :
    Holds (copyRound cells cap ((r + xs.length) % cap) ys) cap r (xs ++ ys) := by
  have hp : (r + xs.length) % cap < cap := Nat.mod_lt _ hcap
  refine h.append hroom (fun j y hy => ?_) (fun i hi => ?_)
  · have hj := (List.getElem?_eq_some_iff.mp hy).1
    rw [← Nat.mod_add_mod (r + xs.length), copyRound_at hp (by omega) hj]
    exact hy
  · refine copyRound_of_ne hp (Nat.mod_lt _ hcap) fun j hj heq => ?_
    rw [Nat.mod_add_mod, Nat.add_assoc] at heq
    have := offset_injective (by omega) (by omega) heq
    omega

/-- Reading what the ring holds, in one piece. -/
theorem Holds.copyOut_eq (h : Holds cells cap r xs) {n : ℕ} (hn : n ≤ xs.length)
    (hfit : r % cap + n ≤ cap) : copyOut cells (r % cap) n = (xs.take n).map some := by
  refine List.ext_getElem (by simp [copyOut, hn]) fun i hi _ => ?_
  have hin : i < n := by simpa [copyOut] using hi
  have hcell := h.2 i _ (List.getElem?_eq_getElem (hin.trans_le hn))
  rw [← Nat.mod_add_mod, Nat.mod_eq_of_lt (by omega)] at hcell
  simpa [copyOut] using hcell

/-- Reading what the ring holds, in two pieces. -/
theorem Holds.copyOut_round (h : Holds cells cap r xs) (hcap : 0 < cap) {n : ℕ}
    (hn : n ≤ xs.length) (hround : cap ≤ r % cap + n) :
    copyOut cells (r % cap) (cap - r % cap) ++ copyOut cells 0 (r % cap + n - cap) =
      (xs.take n).map some := by
  have hlt := Nat.mod_lt r hcap
  have hlen := h.1
  have hfirst := h.copyOut_eq (n := cap - r % cap) (by omega) (by omega)
  have hrest := h.drop (cap - r % cap)
  have hzero : (r + (cap - r % cap)) % cap = 0 := by
    have hdiv := Nat.div_add_mod r cap
    have hsum : r + (cap - r % cap) = cap * (r / cap + 1) := by
      rw [Nat.mul_add, Nat.mul_one]
      omega
    rw [hsum, Nat.mul_mod_right]
  have hsecond := hrest.copyOut_eq (n := r % cap + n - cap)
    (by rw [List.length_drop]; omega) (by omega)
  rw [hzero] at hsecond
  rw [hfirst, hsecond, ← List.map_append]
  congr 1
  have hsplit : n = (cap - r % cap) + (r % cap + n - cap) := by omega
  conv_rhs => rw [hsplit, List.take_add]

end Ring

end Foundation
