import Mathlib

/-!
# Outcomes of C code

A C function that can stop in `while(1)` or leave the defined part of the
language is modelled as a value of `Outcome`: it is done with a result, it
spins forever, or it does something wild (a subscript outside an array, a jump
through a context that was never saved). `Traced` is the same with a log, used
where a property speaks about what was touched on the way and not only about
the result.
-/

namespace Foundation

universe u v w

/-- How a piece of C code ends. -/
inductive Outcome (α : Type u) : Type u where
  | done (a : α)
  | spin
  | wild
deriving DecidableEq, Repr

namespace Outcome

variable {α : Type u} {β : Type v}

def bind (x : Outcome α) (f : α → Outcome β) : Outcome β :=
  match x with
  | done a => f a
  | spin => spin
  | wild => wild

@[simp] theorem done_bind (a : α) (f : α → Outcome β) :
    (done a).bind f = f a := rfl

@[simp] theorem spin_bind (f : α → Outcome β) : (spin : Outcome α).bind f = spin := rfl

@[simp] theorem wild_bind (f : α → Outcome β) : (wild : Outcome α).bind f = wild := rfl

/-- A sequence is done exactly when both halves are. -/
theorem bind_eq_done {x : Outcome α} {f : α → Outcome β} {b : β} :
    x.bind f = done b ↔ ∃ a, x = done a ∧ f a = done b := by
  cases x with
  | done a => simp
  | spin => simp
  | wild => simp

/-- A sequence is wild when its first half is, or its second half is after a
first half that was done. -/
theorem bind_eq_wild {x : Outcome α} {f : α → Outcome β} :
    x.bind f = wild ↔ x = wild ∨ ∃ a, x = done a ∧ f a = wild := by
  cases x with
  | done a => simp
  | spin => simp
  | wild => simp

theorem bind_congr {x : Outcome α} {f g : α → Outcome β} (h : ∀ a, x = done a → f a = g a) :
    x.bind f = x.bind g := by
  cases x with
  | done a => exact h a rfl
  | spin => rfl
  | wild => rfl

theorem bind_assoc {γ : Type w} (x : Outcome α) (f : α → Outcome β)
    (g : β → Outcome γ) :
    (x.bind f).bind g = x.bind fun a => (f a).bind g := by
  cases x <;> rfl

/-- Follow a pointer. -/
def ofOption : Option α → Outcome α
  | some a => done a
  | none => wild

/-- `x` does not spin, and what it is done with satisfies `P`. -/
def Ensures (x : Outcome α) (P : α → Prop) : Prop :=
  match x with
  | done a => P a
  | spin => False
  | wild => True

@[simp] theorem ensures_done {a : α} {P : α → Prop} : (done a).Ensures P ↔ P a := Iff.rfl

theorem ensures_ofOption {x : Option α} {P : α → Prop} :
    (ofOption x).Ensures P ↔ ∀ a, x = some a → P a := by
  cases x <;> simp [ofOption, Ensures]

namespace Ensures

variable {x : Outcome α} {P Q : α → Prop}

theorem mono (h : x.Ensures P) (hPQ : ∀ a, P a → Q a) : x.Ensures Q := by
  cases x with
  | done a => exact hPQ a h
  | spin => exact h
  | wild => trivial

/-- The rule for a sequence. -/
theorem bind {f : α → Outcome β} {R : β → Prop} (h : x.Ensures P)
    (hf : ∀ a, P a → (f a).Ensures R) : (x.bind f).Ensures R := by
  cases x with
  | done a => exact hf a h
  | spin => exact h
  | wild => trivial

/-- The rule for a sequence that starts at a pointer. -/
theorem deref {o : Option α} {f : α → Outcome β} {R : β → Prop}
    (hf : ∀ a, o = some a → (f a).Ensures R) : ((ofOption o).bind f).Ensures R :=
  bind (ensures_ofOption.mpr fun _ => id) hf

theorem ne_spin (h : x.Ensures P) : x ≠ spin := by
  rintro rfl
  exact h

theorem of_done (h : x.Ensures P) {a : α} (ha : x = done a) : P a := by
  rw [ha] at h
  exact h

end Ensures

def isDone : Outcome α → Bool
  | done _ => true
  | _ => false

theorem isDone_iff {x : Outcome α} : x.isDone = true ↔ ∃ a, x = done a := by
  cases x <;> simp [isDone]

end Outcome

/-- A failed `UK_ASSERT` stops the machine. -/
def ukAssert (p : Prop) [Decidable p] : Outcome Unit := if p then .done () else .spin

theorem ukAssert_eq_done {p : Prop} [Decidable p] {u : Unit} : ukAssert p = .done u ↔ p := by
  unfold ukAssert
  split <;> simp_all

/-- A computation together with the list of things it touched, oldest first. -/
structure Traced (ι : Type u) (α : Type v) where
  used : List ι
  out : Outcome α
deriving DecidableEq, Repr

namespace Traced

variable {ι : Type u} {α : Type v} {β : Type w}

/-- Sequencing: the second half runs, and touches things, only when the first
half is done. -/
def bind (x : Traced ι α) (f : α → Traced ι β) : Traced ι β :=
  match x.out with
  | .done a => ⟨x.used ++ (f a).used, (f a).out⟩
  | .spin => ⟨x.used, .spin⟩
  | .wild => ⟨x.used, .wild⟩

def pure (a : α) : Traced ι α := ⟨[], .done a⟩

def spin : Traced ι α := ⟨[], .spin⟩

/-- Touch `i`, with result `o`. -/
def touch (i : ι) (o : Outcome α) : Traced ι α := ⟨[i], o⟩

@[simp] theorem pure_out (a : α) : (pure a : Traced ι α).out = .done a := rfl

@[simp] theorem pure_used (a : α) : (pure a : Traced ι α).used = [] := rfl

@[simp] theorem spin_out : (spin : Traced ι α).out = .spin := rfl

@[simp] theorem spin_used : (spin : Traced ι α).used = [] := rfl

@[simp] theorem touch_out (i : ι) (o : Outcome α) : (touch i o).out = o := rfl

@[simp] theorem touch_used (i : ι) (o : Outcome α) : (touch i o).used = [i] := rfl

@[simp] theorem bind_out (x : Traced ι α) (f : α → Traced ι β) :
    (x.bind f).out = x.out.bind fun a => (f a).out := by
  unfold bind
  cases x.out <;> rfl

/-- Whatever the first half touched stays in the log. -/
theorem used_subset_bind (x : Traced ι α) (f : α → Traced ι β) :
    x.used ⊆ (x.bind f).used := by
  unfold bind
  cases x.out <;> simp

theorem bind_used_ne_nil {x : Traced ι α} (f : α → Traced ι β) (h : x.used ≠ []) :
    (x.bind f).used ≠ [] := by
  intro hnil
  apply h
  exact List.subset_nil.mp (hnil ▸ used_subset_bind x f)

end Traced

/-- A procedure on a state. The state it leaves is kept however it ends, so
that what it wrote before spinning can be spoken about. -/
def Proc (σ : Type u) : Type u := σ → σ × Outcome Unit

namespace Proc

variable {σ : Type u}

def skip : Proc σ := fun s => (s, .done ())

@[simp] theorem skip_apply (s : σ) : (skip : Proc σ) s = (s, .done ()) := rfl

/-- Run `p`, and `q` only if `p` is done. -/
def seq (p q : Proc σ) : Proc σ := fun s =>
  match p s with
  | (s', .done ()) => q s'
  | r => r

/-- The procedure as a step: the state counts only when it is done. -/
def toStep (p : Proc σ) (s : σ) : Outcome σ := (p s).2.bind fun _ => .done (p s).1

theorem seq_of_done {p q : Proc σ} {s s' : σ} (h : p s = (s', .done ())) :
    p.seq q s = q s' := by
  unfold seq
  rw [h]

theorem seq_of_not_done {p q : Proc σ} {s : σ} (h : (p s).2 ≠ .done ()) :
    p.seq q s = p s := by
  unfold seq
  rcases hp : p s with ⟨s', o⟩
  rw [hp] at h
  cases o with
  | done _ => exact absurd rfl h
  | spin => rfl
  | wild => rfl

/-- Either `p` was done and `q` decides, or `p` ended the sequence. -/
theorem seq_cases (p q : Proc σ) (s : σ) :
    ((p s).2 = .done () ∧ p.seq q s = q (p s).1) ∨
      ((p s).2 ≠ .done () ∧ p.seq q s = p s) := by
  by_cases h : (p s).2 = .done ()
  · exact Or.inl ⟨h, seq_of_done (Prod.ext rfl h)⟩
  · exact Or.inr ⟨h, seq_of_not_done h⟩

theorem toStep_eq_done {p : Proc σ} {s t : σ} :
    p.toStep s = .done t ↔ p s = (t, .done ()) := by
  unfold toStep
  rcases p s with ⟨s', o⟩
  cases o <;> simp

theorem toStep_eq_wild {p : Proc σ} {s : σ} :
    p.toStep s = .wild ↔ (p s).2 = .wild := by
  unfold toStep
  rcases p s with ⟨s', o⟩
  cases o <;> simp

end Proc

end Foundation
