import Mathlib.Data.List.Basic
import Mathlib.Data.List.DropRight
import Mathlib.Logic.Function.Basic

/-!
# Files

A tree of directories and files, and the calls that build one: `mkdir`, an
`open` that creates and appends, `write` and `stat`, as POSIX has them for one
process without links, permissions or limits. A call that fails is `none`.

A place is the list of names from the root. A path is text; whether it leads
somewhere depends on the tree, but where to does not.
-/

namespace Foundation

abbrev FileName := List UInt8

abbrev Place := List FileName

inductive Node where
  | dir
  | file (content : List UInt8)
deriving DecidableEq, Repr

/-- What is at each place. -/
abbrev Fs := Place → Option Node

/-- Only the root. -/
def Fs.empty : Fs := fun p => if p = [] then some .dir else none

/-! ## Paths -/

def slash : UInt8 := 47

def dot : UInt8 := 46

/-- The names in a path, without the empty ones at its end. -/
def components (path : List UInt8) : List FileName :=
  (path.splitOn slash).rdropWhile (· = [])

/-- A name that stands for an entry of a directory. -/
def Plain (c : FileName) : Prop := c ≠ [] ∧ c ≠ [dot] ∧ c ≠ [dot, dot]

instance : DecidablePred Plain := fun _ => inferInstanceAs (Decidable (_ ∧ _ ∧ _))

/-- Where a name leads from a place. -/
def enter (p : Place) (c : FileName) : Place :=
  if c = [] ∨ c = [dot] then p else if c = [dot, dot] then p.dropLast else p ++ [c]

/-- Where a path leads. -/
def place (path : List UInt8) : Place := (components path).foldl enter []

@[simp] theorem enter_plain {c : FileName} (h : Plain c) (p : Place) : enter p c = p ++ [c] := by
  obtain ⟨hne, hdot, hdots⟩ := h
  simp [enter, hne, hdot, hdots]

namespace Fs

variable (fs : Fs)

/-- From directory to directory. -/
def walk : Place → List FileName → Option Place
  | p, [] => some p
  | p, c :: cs =>
      if Plain c ∧ fs (p ++ [c]) ≠ some .dir then none else walk (enter p c) cs

/-- The place of a path that ends in a name, with its directory there. -/
def target (path : List UInt8) : Option Place :=
  (components path).getLast?.bind fun last =>
    if Plain last then (fs.walk [] (components path).dropLast).map (· ++ [last]) else none

def put (p : Place) (n : Node) : Fs := Function.update fs p (some n)

/-! ## Calls -/

def mkdir (path : List UInt8) : Option Fs :=
  (fs.target path).bind fun p => if fs p = none then some (fs.put p .dir) else none

/-- `open(path, O_WRONLY | O_APPEND | O_CREAT)`. The descriptor is the place. -/
def openAppend (path : List UInt8) : Option (Fs × Place) :=
  if path.getLast? = some slash then none
  else
    (fs.target path).bind fun p =>
      match fs p with
      | none => some (fs.put p (.file []), p)
      | some (.file _) => some (fs, p)
      | some .dir => none

/-- All bytes are written, at the end. -/
def write (p : Place) (bytes : List UInt8) : Option Fs :=
  match fs p with
  | some (.file content) => some (fs.put p (.file (content ++ bytes)))
  | _ => none

/-- What is found at a path. -/
def stat (path : List UInt8) : Option Node :=
  match (components path).getLast? with
  | none => fs []
  | some last =>
      if Plain last then
        (fs.target path).bind fun p =>
          if path.getLast? = some slash ∧ fs p ≠ some .dir then none else fs p
      else (fs.walk [] (components path)).bind fs

end Fs

/-! ## What the calls do -/

section Calls

variable {fs fs' : Fs} {path bytes : List UInt8} {p : Place}

@[simp] theorem Fs.put_self (n : Node) : fs.put p n p = some n := Function.update_self ..

theorem Fs.put_ne {q : Place} (h : q ≠ p) (n : Node) : fs.put p n q = fs q :=
  Function.update_of_ne h ..

theorem Fs.walk_eq {cs : List FileName} {q : Place} (h : fs.walk q cs = some p) :
    p = cs.foldl enter q := by
  induction cs generalizing q with
  | nil =>
      cases h
      rfl
  | cons c cs ih =>
      unfold Fs.walk at h
      split at h
      · cases h
      · exact ih h

/-- Where a path leads does not depend on the tree. -/
theorem Fs.target_eq (h : fs.target path = some p) : p = place path := by
  obtain ⟨last, hlast, h⟩ := Option.bind_eq_some_iff.mp h
  split at h
  · rename_i hplain
    obtain ⟨q, hq, rfl⟩ := Option.map_eq_some_iff.mp h
    have hsplit : components path = (components path).dropLast ++ [last] :=
      (List.dropLast_append_getLast? last hlast).symm
    rw [place, hsplit, List.foldl_append, ← Fs.walk_eq hq]
    simp [hplain]
  · cases h

/-- No directory has gone. -/
def Fs.Keeps (fs fs' : Fs) : Prop := ∀ q, fs q = some .dir → fs' q = some .dir

theorem Fs.Keeps.trans {fs'' : Fs} (h : fs.Keeps fs') (h' : fs'.Keeps fs'') : fs.Keeps fs'' :=
  fun q hq => h' q (h q hq)

/-- Something new, or more of a file, is no directory less. -/
theorem Fs.Keeps.put (h : fs p ≠ some .dir) (n : Node) : fs.Keeps (fs.put p n) := by
  intro q hq
  have hne : q ≠ p := by
    rintro rfl
    exact h hq
  rw [Fs.put_ne hne, hq]

theorem Fs.Keeps.walk (h : fs.Keeps fs') {cs : List FileName} {q : Place}
    (hw : fs.walk q cs = some p) : fs'.walk q cs = some p := by
  induction cs generalizing q with
  | nil => exact hw
  | cons c cs ih =>
      unfold Fs.walk at hw ⊢
      split at hw
      · cases hw
      · rename_i hstep
        rw [if_neg]
        · exact ih hw
        · rintro ⟨hplain, hno⟩
          refine hstep ⟨hplain, fun hdir => hno (h _ hdir)⟩

theorem Fs.Keeps.target (h : fs.Keeps fs') (ht : fs.target path = some p) :
    fs'.target path = some p := by
  obtain ⟨last, hlast, ht⟩ := Option.bind_eq_some_iff.mp ht
  split at ht
  · rename_i hplain
    obtain ⟨q, hq, rfl⟩ := Option.map_eq_some_iff.mp ht
    refine Option.bind_eq_some_iff.mpr ⟨last, hlast, ?_⟩
    rw [if_pos hplain, h.walk hq]
    rfl
  · cases ht

theorem Fs.mkdir_some (h : fs.mkdir path = some fs') :
    fs.target path = some (place path) ∧ fs (place path) = none ∧
      fs' = fs.put (place path) .dir := by
  obtain ⟨p, hp, h⟩ := Option.bind_eq_some_iff.mp h
  obtain rfl := Fs.target_eq hp
  split at h
  · rename_i hnone
    cases h
    exact ⟨hp, hnone, rfl⟩
  · cases h

/-- `open`, and a `write` to what was opened. -/
theorem Fs.append_some (h : (fs.openAppend path).bind (fun r => r.1.write r.2 bytes) = some fs') :
    path.getLast? ≠ some slash ∧ fs.target path = some (place path) ∧
      ((fs (place path) = none ∧ fs' = fs.put (place path) (.file bytes)) ∨
        ∃ content, fs (place path) = some (.file content) ∧
          fs' = fs.put (place path) (.file (content ++ bytes))) := by
  obtain ⟨⟨fs₁, q⟩, hopen, hwrite⟩ := Option.bind_eq_some_iff.mp h
  unfold Fs.openAppend at hopen
  split at hopen
  · cases hopen
  · rename_i hslash
    obtain ⟨p, hp, hopen⟩ := Option.bind_eq_some_iff.mp hopen
    obtain rfl := Fs.target_eq hp
    refine ⟨hslash, hp, ?_⟩
    split at hopen
    · -- a new file
      rename_i hnone
      cases hopen
      left
      refine ⟨hnone, ?_⟩
      unfold Fs.write at hwrite
      dsimp only at hwrite
      rw [Fs.put_self] at hwrite
      cases hwrite
      exact Function.update_idem ..
    · rename_i content hfile
      cases hopen
      right
      refine ⟨content, hfile, ?_⟩
      unfold Fs.write at hwrite
      dsimp only at hwrite
      rw [hfile] at hwrite
      cases hwrite
      rfl
    · cases hopen

/-- What is found at a path with its directory there. -/
theorem Fs.stat_eq (ht : fs.target path = some p)
    (h : path.getLast? = some slash → fs p = some .dir) : fs.stat path = fs p := by
  obtain ⟨last, hlast, hif⟩ := Option.bind_eq_some_iff.mp ht
  have hplain : Plain last := by
    by_contra hno
    rw [if_neg hno] at hif
    cases hif
  unfold Fs.stat
  rw [hlast]
  dsimp only
  rw [if_pos hplain, ht, Option.bind_some, if_neg]
  rintro ⟨hslash, hno⟩
  exact hno (h hslash)

end Calls

end Foundation
