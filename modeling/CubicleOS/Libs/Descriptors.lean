import CubicleOS.Foundation.Machine
import CubicleOS.Libs.Sockets
import Mathlib.Algebra.BigOperators.Group.Finset.Basic
import Mathlib.Algebra.Order.BigOperators.Group.Finset
import Mathlib.Tactic.Ring

/-!
# Descriptors and the files they refer to

`vfscore/fd.c`, `vfscore/file.c` and the calls of `vfscore/main.c` that make,
copy and close descriptors. A file is freed when its `f_count` comes down to
zero, so the count should be the number of descriptors that refer to the file
and of calls in progress that use it. Most calls keep it so. `dup3` installs a
file without a reference for the new descriptor and keeps one on the file that
it closed there, and a call that finds the table full keeps what it took.

`stdio_file` is a variable and not a block of the heap. It is compiled with a
count of two, `init_stdio` gives it three descriptors, and its dentry is counted
by nobody: with its last reference `drele` stops the machine.

What closing does to the vnode and the dentry of other files is left out, and
the count is a natural number.
-/

namespace CubicleOS

namespace Descriptors

open Foundation Sockets

/-! ## §1  The calls -/

/-- Where `stdio_file` is. -/
abbrev StaticFile : Type := { fp : UInt64 // fp ≠ 0 }

/-- The table, `f_count` of the files that are allocated, and the files that
calls in progress have. `surplus` has no counterpart in the code: it is what the
calls so far have miscounted. -/
structure State where
  stdio : StaticFile
  fds : Fdtable
  fCount : UInt64 → Option ℕ
  inUse : List UInt64
  surplus : UInt64 → ℤ

def State.setCount (s : State) (fp : UInt64) (c : Option ℕ) : State :=
  { s with fCount := Function.update s.fCount fp c }

def State.withFds (s : State) (t : Fdtable) : State := { s with fds := t }

def fhold (s : State) (fp : UInt64) : Outcome State :=
  match s.fCount fp with
  | some n => .done (s.setCount fp (some (n + 1)))
  | none => .wild

/-- What is left of a count; the file is freed with the last reference. -/
def dropped (n : ℕ) : Option ℕ := if n = 1 then none else some (n - 1)

def fdrop (s : State) (fp : UInt64) : Outcome State :=
  match s.fCount fp with
  | some n =>
      (ukAssert (0 < n)).bind fun _ =>
        -- the assertion of `drele` on `stdio_dentry`
        (ukAssert (¬ (n = 1 ∧ fp = s.stdio))).bind fun _ => .done (s.setCount fp (dropped n))
  | none => .wild

/-- `vfscore_install_fd` at a descriptor that was reserved; `none` for
`-EBADF`. -/
def vfscoreInstallFd (s : State) (r : Reserved) (file : UInt64) : Outcome (Option State) :=
  if fdtableMaxFiles ≤ r.fd ∨ file = 0 then .done none
  else
    (fhold s file).bind fun s =>
      let orig := r.fds.files r.fd
      (fdrop (s.withFds (r.install file)) file).bind fun s =>
        if orig ≠ 0 then (fdrop s orig).bind fun s => .done (some s) else .done (some s)

/-- `vfscore_get_file`. A negative descriptor passes the assertion. -/
def vfscoreGetFile (s : State) (fd : ℤ) : Outcome (Option UInt64 × State) :=
  (ukAssert (fd < fdtableMaxFiles)).bind fun _ =>
    if fd < 0 then .wild
    else if fd.toNat ∈ s.fds.bitmap then
      let fp := s.fds.files fd.toNat
      (fhold s fp).bind fun s => .done (some fp, s)
    else .done (none, s)

/-- `vfscore_put_fd`. -/
def vfscorePutFd (s : State) (fd : ℤ) : Outcome State :=
  let fp := s.fds.files fd.toNat
  let s := s.withFds (s.fds.clear fd.toNat)
  if fp ≠ 0 then fdrop s fp else .done s

/-- `fdalloc`; `none` for an error. -/
def fdalloc (s : State) (fp : UInt64) : Outcome (Option ℕ × State) :=
  (fhold s fp).bind fun s =>
    match s.fds.vfscoreAllocFd with
    | none => .done (none, s)
    | some r =>
        (vfscoreInstallFd s r fp).bind fun
          | some s => .done (some r.fd, s)
          | none => (fdrop (s.withFds r.fds) fp).bind fun s => .done (none, s)

/-- `open`, once `sys_open` has allocated the file at `fp`. -/
def openFile (s : State) (fp : UInt64) : Outcome State :=
  (fdalloc (s.setCount fp (some 1)) fp).bind fun r => fdrop r.2 fp

/-- `fdclose`. -/
def fdclose (s : State) (fd : ℤ) : Outcome State :=
  (vfscoreGetFile s fd).bind fun
    | (none, s) => .done s
    | (some fp, s) => (vfscorePutFd s fd).bind fun s => fdrop s fp

/-- `dup`: both ways out drop what `fget` took. -/
def dup (s : State) (oldfd : ℤ) : Outcome State :=
  (vfscoreGetFile s oldfd).bind fun
    | (none, s) => .done s
    | (some fp, s) => (fdalloc s fp).bind fun r => fdrop r.2 fp

/-- `fcntl` with `F_DUPFD`: the way out after an error passes the `fdrop`. -/
def fcntlDupfd (s : State) (fd : ℤ) : Outcome State :=
  (vfscoreGetFile s fd).bind fun
    | (none, s) => .done s
    | (some fp, s) =>
        (fdalloc s fp).bind fun
          | (none, s) => .done s
          | (some _, s) => fdrop s fp

/-- The part of `dup3` that closes `newfd`. The file that was there is looked up
and not dropped. -/
def dup3Close (s : State) (newfd : ℤ) : Outcome State :=
  (vfscoreGetFile s newfd).bind fun
    | (none, s) => .done s
    | (some _, s) => fdclose s newfd

/-- `dup3` from there on. -/
def dup3Install (s : State) (fp : UInt64) (newfd : ℤ) : Outcome State :=
  if newfd.toNat ∈ s.fds.bitmap then .done s
  else
    (vfscoreInstallFd s (s.fds.reserve newfd.toNat) fp).bind fun
      | some s => fdrop s fp
      | none => fdrop (s.withFds (s.fds.reserve newfd.toNat).fds) fp

/-- `dup3`; `badFlags` is whether there are flags other than `O_CLOEXEC`. -/
def dup3 (s : State) (oldfd newfd : ℤ) (badFlags : Bool) : Outcome State :=
  if badFlags ∨ oldfd = newfd then .done s
  else
    (vfscoreGetFile s oldfd).bind fun
      | (none, s) => .done s
      | (some fp, s) => (dup3Close s newfd).bind fun s => dup3Install s fp newfd

/-- What the threads do. `begin` is a call such as `read`, up to where it has its
file, and `finish` the end of one that has `fp`. -/
inductive Call where
  | openFile (fp : UInt64)
  | close (fd : ℤ)
  | dup (oldfd : ℤ)
  | fcntlDupfd (fd : ℤ)
  | dup3 (oldfd newfd : ℤ) (badFlags : Bool)
  | begin (fd : ℤ)
  | finish (fp : UInt64)
deriving DecidableEq, Repr

/-- No file is at `fp`. A descriptor may still be left at a file that was freed
there. -/
def State.Fresh (s : State) (fp : UInt64) : Prop := fp ≠ 0 ∧ s.fCount fp = none

instance (s : State) (fp : UInt64) : Decidable (s.Fresh fp) :=
  inferInstanceAs (Decidable (_ ∧ _))

/-- One call. Only blocks that are free are opened, and only calls that have a
file finish. -/
def call (s : State) : Call → Outcome State
  | .openFile fp => if s.Fresh fp then Descriptors.openFile s fp else .done s
  | .close fd => fdclose s fd
  | .dup fd => Descriptors.dup s fd
  | .fcntlDupfd fd => Descriptors.fcntlDupfd s fd
  | .dup3 oldfd newfd badFlags => Descriptors.dup3 s oldfd newfd badFlags
  | .begin fd =>
      (vfscoreGetFile s fd).bind fun
        | (none, s) => .done s
        | (some fp, s) => .done { s with inUse := fp :: s.inUse }
  | .finish fp =>
      if fp ∈ s.inUse then fdrop { s with inUse := s.inUse.erase fp } fp else .done s

/-- The file at an open descriptor, zero for a closed one. -/
def State.fileAt (s : State) (fd : ℤ) : UInt64 := s.fds.files fd.toNat

/-- One, for the file `fp` and for no other. -/
def one (fp x : UInt64) : ℤ := if x = fp then 1 else 0

/-- The table is full. -/
def State.full (s : State) : Prop := s.fds.vfscoreAllocFd = none

instance (s : State) : Decidable s.full :=
  decidable_of_iff (s.fds.vfscoreAllocFd.isNone = true) Option.isNone_iff_eq_none

/-- The references that a call keeps for nobody, less those that it should have
taken and did not. -/
def miscount (s : State) (x : UInt64) : Call → ℤ
  | .openFile fp => if s.Fresh fp ∧ s.full then one fp x else 0
  | .close _ => 0
  | .dup fd => if s.fileAt fd ≠ 0 ∧ s.full then one (s.fileAt fd) x else 0
  | .fcntlDupfd fd => if s.fileAt fd ≠ 0 ∧ s.full then 2 * one (s.fileAt fd) x else 0
  | .dup3 oldfd newfd badFlags =>
      if badFlags ∨ oldfd = newfd ∨ s.fileAt oldfd = 0 then 0
      else one (s.fileAt newfd) x - one (s.fileAt oldfd) x
  | .begin _ => 0
  | .finish _ => 0

def step (s : State) (c : Call) : Outcome State :=
  (call s c).bind fun s' => .done { s' with surplus := fun x => s.surplus x + miscount s x c }

theorem memset_unused (fd : ℕ) (_ : fd ∉ (∅ : Finset ℕ)) :
    (fun _ : ℕ => (0 : UInt64)) fd = 0 := rfl

/-- The table after the `memset`, and `stdio_file` as it is compiled. -/
def zeroed (f : StaticFile) : State where
  stdio := f
  fds := { bitmap := ∅, files := fun _ => 0, unused := memset_unused }
  fCount := Function.update (fun _ => none) f (some 2)
  inUse := []
  -- two references for three descriptors
  surplus := fun x => -one f x

theorem stdio_unused (f : StaticFile) (fd : ℕ) (h : fd ∉ ({0, 1, 2} : Finset ℕ)) :
    (if fd < 3 then (f : UInt64) else 0) = 0 := by
  have hge : ¬ fd < 3 := by
    intro hlt
    interval_cases fd <;> exact h (by decide)
  exact if_neg hge

/-- The three descriptors of `stdio_file`. -/
def stdioFds (f : StaticFile) : Fdtable where
  bitmap := {0, 1, 2}
  files := fun fd => if fd < 3 then f else 0
  unused := stdio_unused f

/-- What `fdtable_init` leaves. -/
def start (f : StaticFile) : State := (zeroed f).withFds (stdioFds f)

/-! ## §2  What a call does when its files are there -/

section Calls

variable {s : State} {fp : UInt64} {n : ℕ} {fd : ℤ} {r : Reserved}

@[simp] theorem setCount_fCount (c : Option ℕ) : (s.setCount fp c).fCount fp = c :=
  Function.update_self ..

@[simp] theorem setCount_setCount (c c' : Option ℕ) :
    (s.setCount fp c).setCount fp c' = s.setCount fp c' := by
  unfold State.setCount
  rw [Function.update_idem]

theorem setCount_self {c : Option ℕ} (h : s.fCount fp = c) : s.setCount fp c = s := by
  unfold State.setCount
  rw [← h, Function.update_eq_self]

@[simp] theorem setCount_fds (c : Option ℕ) : (s.setCount fp c).fds = s.fds := rfl

theorem withFds_setCount_self (t : Fdtable) (h : s.fCount fp = some n) :
    (s.withFds t).setCount fp (some n) = s.withFds t :=
  setCount_self h

theorem setCount_of_ne {x : UInt64} (c : Option ℕ) (h : x ≠ fp) :
    (s.setCount fp c).fCount x = s.fCount x :=
  Function.update_of_ne h ..

theorem setCount_withFds (t : Fdtable) (c : Option ℕ) :
    (s.setCount fp c).withFds t = (s.withFds t).setCount fp c := rfl

theorem fhold_eq (h : s.fCount fp = some n) :
    fhold s fp = .done (s.setCount fp (some (n + 1))) := by
  rw [fhold, h]

/-- The last reference on `stdio_file`. -/
def State.Last (s : State) (fp : UInt64) : Prop := s.fCount fp = some 1 ∧ fp = s.stdio

instance (s : State) (fp : UInt64) : Decidable (s.Last fp) :=
  inferInstanceAs (Decidable (_ ∧ _))

theorem fdrop_eq (h : s.fCount fp = some n) (hn : 0 < n) (hlast : ¬ s.Last fp) :
    fdrop s fp = .done (s.setCount fp (dropped n)) := by
  have hnot : ¬ (n = 1 ∧ fp = s.stdio) := fun hc => hlast ⟨hc.1 ▸ h, hc.2⟩
  rw [fdrop, h]
  show (ukAssert (0 < n)).bind _ = _
  rw [ukAssert, if_pos hn, Outcome.done_bind, ukAssert, if_pos hnot, Outcome.done_bind]

theorem fdrop_last (h : s.Last fp) : fdrop s fp = .spin := by
  have hnot : ¬ ¬ (1 = 1 ∧ fp = s.stdio) := not_not.mpr ⟨rfl, h.2⟩
  rw [fdrop, h.1]
  show (ukAssert (0 < 1)).bind _ = _
  rw [ukAssert, if_pos one_pos, Outcome.done_bind, ukAssert, if_neg hnot]
  rfl

/-- A reference that is not the last one. -/
theorem fdrop_succ (h : s.fCount fp = some (n + 1)) (hn : 0 < n) :
    fdrop s fp = .done (s.setCount fp (some n)) := by
  have hmany : n + 1 ≠ 1 := by omega
  have hlast : ¬ s.Last fp := fun hl => hmany (Option.some.inj (h.symm.trans hl.1))
  rw [fdrop_eq h (Nat.succ_pos n) hlast, dropped, if_neg hmany, Nat.add_sub_cancel]

/-- Installing takes no reference: the one that is taken is given back. -/
theorem vfscoreInstallFd_eq (h : s.fCount fp = some n) (hn : 0 < n) (hfp : fp ≠ 0)
    (hfd : r.fd < fdtableMaxFiles) (hempty : r.fds.files r.fd = 0) :
    vfscoreInstallFd s r fp = .done (some (s.withFds (r.install fp))) := by
  rw [vfscoreInstallFd, if_neg (by push Not; exact ⟨hfd, hfp⟩), fhold_eq h, Outcome.done_bind]
  dsimp only
  rw [setCount_withFds, fdrop_succ (setCount_fCount _) hn, Outcome.done_bind,
    if_neg (not_not.mpr hempty), setCount_setCount, withFds_setCount_self _ h]

theorem fdalloc_full (h : s.fCount fp = some n) (hfull : s.fds.vfscoreAllocFd = none) :
    fdalloc s fp = .done (none, s.setCount fp (some (n + 1))) := by
  rw [fdalloc, fhold_eq h, Outcome.done_bind, setCount_fds, hfull]

theorem fdalloc_eq (h : s.fCount fp = some n) (hfp : fp ≠ 0)
    (hr : s.fds.vfscoreAllocFd = some r) :
    fdalloc s fp = .done (some r.fd, (s.withFds (r.install fp)).setCount fp (some (n + 1))) := by
  obtain ⟨hempty, -, hlt, -⟩ := vfscoreAllocFd_some hr
  rw [fdalloc, fhold_eq h, Outcome.done_bind, setCount_fds, hr]
  show (vfscoreInstallFd _ r fp).bind _ = _
  rw [vfscoreInstallFd_eq (setCount_fCount _) (Nat.succ_pos n) hfp hlt hempty]
  rfl

def State.place (s : State) (fp : UInt64) : Option Reserved → State
  | none => s
  | some r => s.withFds (r.install fp)

/-- What `fdalloc` leaves, with a descriptor or without one. -/
def allocated (s : State) (fp : UInt64) : State := s.place fp s.fds.vfscoreAllocFd

/-- The caller's reference stays, and there is one more. -/
theorem fdalloc_cases (h : s.fCount fp = some n) (hfp : fp ≠ 0) :
    ∃ o, fdalloc s fp = .done (o, (allocated s fp).setCount fp (some (n + 1))) ∧
      (o = none ↔ s.full) := by
  unfold allocated State.full
  cases hr : s.fds.vfscoreAllocFd with
  | none => exact ⟨none, fdalloc_full h hr, by simp⟩
  | some r => exact ⟨some r.fd, fdalloc_eq h hfp hr, by simp⟩

/-- The descriptor is one, and there is a file if it is open. -/
def Usable (s : State) (fd : ℤ) : Prop :=
  0 ≤ fd ∧ fd < fdtableMaxFiles ∧
    (fd.toNat ∈ s.fds.bitmap → (s.fCount (s.fileAt fd)).isSome = true)

theorem vfscoreGetFile_closed (h : Usable s fd) (hfd : fd.toNat ∉ s.fds.bitmap) :
    vfscoreGetFile s fd = .done (none, s) := by
  have hneg : ¬ fd < 0 := not_lt.mpr h.1
  rw [vfscoreGetFile, ukAssert, if_pos h.2.1, Outcome.done_bind, if_neg hneg, if_neg hfd]

theorem vfscoreGetFile_eq (h : Usable s fd) (hfd : fd.toNat ∈ s.fds.bitmap)
    (hfile : s.fileAt fd = fp) (hn : s.fCount fp = some n) :
    vfscoreGetFile s fd = .done (some fp, s.setCount fp (some (n + 1))) := by
  have hneg : ¬ fd < 0 := not_lt.mpr h.1
  rw [vfscoreGetFile, ukAssert, if_pos h.2.1, Outcome.done_bind, if_neg hneg, if_pos hfd]
  show (fhold s (s.fileAt fd)).bind _ = _
  rw [hfile, fhold_eq hn, Outcome.done_bind]
  exact congrArg (fun x => Outcome.done (some x, _)) hfile

/-- A lookup that goes through was of a usable descriptor. -/
theorem usable_of_getFile {p : Option UInt64 × State} (h : vfscoreGetFile s fd = .done p) :
    Usable s fd := by
  rw [vfscoreGetFile] at h
  obtain ⟨_, hlt, h⟩ := Outcome.bind_eq_done.mp h
  split at h
  · cases h
  · rename_i hneg
    refine ⟨not_lt.mp hneg, ukAssert_eq_done.mp hlt, fun hfd => ?_⟩
    rw [if_pos hfd] at h
    obtain ⟨s', hhold, -⟩ := Outcome.bind_eq_done.mp h
    cases hc : s.fCount (s.fileAt fd) with
    | some n => rfl
    | none =>
        rw [fhold, show s.fCount (s.fds.files fd.toNat) = none from hc] at hhold
        cases hhold

theorem vfscorePutFd_eq (hfile : s.fileAt fd = fp) (hn : s.fCount fp = some (n + 1))
    (hpos : 0 < n) (hfp : fp ≠ 0) :
    vfscorePutFd s fd =
      .done ((s.withFds (s.fds.clear fd.toNat)).setCount fp (some n)) := by
  subst hfile
  unfold vfscorePutFd
  dsimp only
  rw [if_pos (show s.fds.files fd.toNat ≠ 0 from hfp)]
  exact fdrop_succ (show (s.withFds _).fCount (s.fileAt fd) = some (n + 1) from hn) hpos

/-- What is left of closing a descriptor when `vfscore_put_fd` is through. -/
theorem fdclose_drop (h : Usable s fd) (hfd : fd.toNat ∈ s.fds.bitmap)
    (hfile : s.fileAt fd = fp) (hn : s.fCount fp = some n) (hpos : 0 < n) (hfp : fp ≠ 0) :
    fdclose s fd = fdrop (s.withFds (s.fds.clear fd.toNat)) fp := by
  have hput : vfscorePutFd (s.setCount fp (some (n + 1))) fd = _ :=
    vfscorePutFd_eq hfile (setCount_fCount _) hpos hfp
  rw [fdclose, vfscoreGetFile_eq h hfd hfile hn, Outcome.done_bind]
  show (vfscorePutFd _ fd).bind _ = _
  rw [hput, Outcome.done_bind, setCount_withFds, setCount_setCount, setCount_fds,
    withFds_setCount_self _ hn]

/-- Closing a descriptor drops one reference. -/
theorem fdclose_eq (h : Usable s fd) (hfd : fd.toNat ∈ s.fds.bitmap)
    (hfile : s.fileAt fd = fp) (hn : s.fCount fp = some n) (hpos : 0 < n) (hfp : fp ≠ 0)
    (hlast : ¬ s.Last fp) :
    fdclose s fd =
      .done ((s.withFds (s.fds.clear fd.toNat)).setCount fp (dropped n)) := by
  rw [fdclose_drop h hfd hfile hn hpos hfp]
  exact fdrop_eq (show (s.withFds _).fCount fp = some n from hn) hpos hlast

theorem fdclose_last (h : Usable s fd) (hfd : fd.toNat ∈ s.fds.bitmap)
    (hfile : s.fileAt fd = fp) (hlast : s.Last fp) : fdclose s fd = .spin := by
  have hfp : fp ≠ 0 := hlast.2 ▸ s.stdio.2
  rw [fdclose_drop h hfd hfile hlast.1 one_pos hfp]
  exact fdrop_last (show (s.withFds _).Last fp from hlast)

theorem fdclose_closed (h : Usable s fd) (hfd : fd.toNat ∉ s.fds.bitmap) :
    fdclose s fd = .done s := by
  rw [fdclose, vfscoreGetFile_closed h hfd, Outcome.done_bind]

theorem allocated_setCount (c : Option ℕ) :
    allocated (s.setCount fp c) fp = (allocated s fp).setCount fp c := by
  unfold allocated
  rw [setCount_fds]
  cases s.fds.vfscoreAllocFd <;> rfl

/-- `fdalloc` and then `fdrop`: the new descriptor has a reference or, when there
is none, nobody has it. -/
theorem fdalloc_fdrop (h : s.fCount fp = some (n + 1)) (hfp : fp ≠ 0) :
    ((fdalloc s fp).bind fun r => fdrop r.2 fp) =
      .done ((allocated s fp).setCount fp (some (n + 1))) := by
  obtain ⟨o, hrun, -⟩ := fdalloc_cases h hfp
  rw [hrun, Outcome.done_bind, fdrop_succ (setCount_fCount _) (Nat.succ_pos n),
    setCount_setCount]

theorem openFile_eq (hfp : fp ≠ 0) :
    openFile s fp = .done ((allocated s fp).setCount fp (some 1)) := by
  rw [openFile, fdalloc_fdrop (setCount_fCount _) hfp, allocated_setCount, setCount_setCount]

theorem dup_eq (h : Usable s fd) (hfd : fd.toNat ∈ s.fds.bitmap) (hfile : s.fileAt fd = fp)
    (hn : s.fCount fp = some n) (hfp : fp ≠ 0) :
    Descriptors.dup s fd = .done ((allocated s fp).setCount fp (some (n + 1))) := by
  rw [Descriptors.dup, vfscoreGetFile_eq h hfd hfile hn, Outcome.done_bind]
  show ((fdalloc _ fp).bind fun r => fdrop r.2 fp) = _
  rw [fdalloc_fdrop (setCount_fCount _) hfp, allocated_setCount, setCount_setCount]

theorem fcntlDupfd_eq (h : Usable s fd) (hfd : fd.toNat ∈ s.fds.bitmap)
    (hfile : s.fileAt fd = fp) (hn : s.fCount fp = some n) (hfp : fp ≠ 0) :
    Descriptors.fcntlDupfd s fd =
      .done ((allocated s fp).setCount fp (some (if s.full then n + 2 else n + 1))) := by
  obtain ⟨o, hrun, ho⟩ :=
    fdalloc_cases (s := s.setCount fp (some (n + 1))) (setCount_fCount _) hfp
  have hfull : (s.setCount fp (some (n + 1))).full ↔ s.full := Iff.rfl
  rw [hfull] at ho
  rw [Descriptors.fcntlDupfd, vfscoreGetFile_eq h hfd hfile hn, Outcome.done_bind]
  show (fdalloc _ fp).bind _ = _
  rw [hrun, Outcome.done_bind, allocated_setCount, setCount_setCount]
  cases o with
  | none => rw [if_pos (ho.mp rfl)]
  | some k =>
      rw [if_neg (fun hf => by cases ho.mpr hf)]
      show fdrop _ fp = _
      rw [fdrop_succ (setCount_fCount _) (Nat.succ_pos n), setCount_setCount]

/-- What `dup3` does once `newfd` is closed: a descriptor without a reference,
and what `fget` took is given back. -/
theorem dup3Install_eq (hfd : fd.toNat ∉ s.fds.bitmap) (hlt : fd < fdtableMaxFiles) (h0 : 0 ≤ fd)
    (hn : s.fCount fp = some (n + 1)) (hpos : 0 < n) (hfp : fp ≠ 0) :
    dup3Install s fp fd =
      .done ((s.withFds ((s.fds.reserve fd.toNat).install fp)).setCount fp (some n)) := by
  have hempty : (s.fds.reserve fd.toNat).fds.files fd.toNat = 0 := s.fds.unused _ hfd
  have hbound : (s.fds.reserve fd.toNat).fd < fdtableMaxFiles := by
    show fd.toNat < _
    omega
  rw [dup3Install, if_neg hfd,
    vfscoreInstallFd_eq hn (Nat.succ_pos n) hfp hbound hempty, Outcome.done_bind]
  show fdrop _ fp = _
  exact fdrop_succ (show (s.withFds _).fCount fp = some (n + 1) from hn) hpos

/-- The descriptor is taken from what it referred to and given to `fp`. -/
def replaced (t : Fdtable) (fd : ℕ) (fp : UInt64) : Fdtable := ((t.clear fd).reserve fd).install fp

theorem replaced_self {t : Fdtable} {i : ℕ} : (replaced t i fp).files i = fp :=
  Function.update_self ..

theorem replaced_of_ne {t : Fdtable} {i j : ℕ} (h : j ≠ i) :
    (replaced t i fp).files j = t.files j := by
  show Function.update (Function.update t.files i 0) i fp j = _
  rw [Function.update_of_ne h, Function.update_of_ne h]

theorem mem_replaced {t : Fdtable} {i j : ℕ} (h : j ∈ t.bitmap) : j ∈ (replaced t i fp).bitmap := by
  show j ∈ insert i (t.bitmap.erase i)
  rw [Finset.mem_insert, Finset.mem_erase]
  tauto

theorem clear_of_notMem {t : Fdtable} {i : ℕ} (h : i ∉ t.bitmap) : t.clear i = t := by
  apply Fdtable.ext
  · exact Finset.erase_eq_of_notMem h
  · change Function.update t.files i 0 = t.files
    rw [← t.unused i h, Function.update_eq_self]

theorem usable_setCount (h : Usable s fd) : Usable (s.setCount fp (some n)) fd := by
  refine ⟨h.1, h.2.1, fun hmem => ?_⟩
  show ((s.setCount fp (some n)).fCount (s.fileAt fd)).isSome = true
  by_cases heq : s.fileAt fd = fp
  · rw [heq, setCount_fCount]
    rfl
  · rw [setCount_of_ne _ heq]
    exact h.2.2 hmem

/-- Files that are there have a positive count, and there is none at `NULL`. -/
structure Counted (s : State) : Prop where
  pos : ∀ x m, s.fCount x = some m → 0 < m
  null : s.fCount 0 = none

theorem Counted.setCount (h : Counted s) (hfp : fp ≠ 0) (hn : 0 < n) :
    Counted (s.setCount fp (some n)) := by
  refine ⟨fun x m hx => ?_, ?_⟩
  · by_cases heq : x = fp
    · rw [heq, setCount_fCount] at hx
      cases hx
      exact hn
    · rw [setCount_of_ne _ heq] at hx
      exact h.pos x m hx
  · rw [setCount_of_ne _ hfp.symm]
    exact h.null

/-- An open descriptor that is usable refers to a file that is there. -/
theorem Counted.file (h : Counted s) (hu : Usable s fd) (hfd : fd.toNat ∈ s.fds.bitmap) :
    ∃ n, s.fCount (s.fileAt fd) = some n ∧ 0 < n ∧ s.fileAt fd ≠ 0 := by
  obtain ⟨n, hn⟩ := Option.isSome_iff_exists.mp (hu.2.2 hfd)
  refine ⟨n, hn, h.pos _ n hn, fun h0 => ?_⟩
  rw [h0, h.null] at hn
  cases hn

/-- The count is back where it was, and the descriptor is gone. -/
theorem dup3Close_eq (hs : Counted s) (h : Usable s fd) :
    dup3Close s fd = .done (s.withFds (s.fds.clear fd.toNat)) := by
  unfold dup3Close
  by_cases hfd : fd.toNat ∈ s.fds.bitmap
  · obtain ⟨n, hn, hpos, hfp⟩ := hs.file h hfd
    have hclose : fdclose (s.setCount (s.fileAt fd) (some (n + 1))) fd = _ :=
      fdclose_drop (usable_setCount h) hfd rfl (setCount_fCount _) (Nat.succ_pos n) hfp
    rw [vfscoreGetFile_eq h hfd rfl hn, Outcome.done_bind]
    show fdclose _ fd = _
    rw [hclose, setCount_withFds]
    show fdrop _ (s.fileAt fd) = _
    rw [fdrop_succ (setCount_fCount _) hpos, setCount_setCount]
    exact congrArg Outcome.done (withFds_setCount_self _ hn)
  · rw [vfscoreGetFile_closed h hfd, Outcome.done_bind, clear_of_notMem hfd]
    rfl

/-- `dup3` changes no count at all. -/
theorem dup3_eq {newfd : ℤ} (hs : Counted s) (hne : fd ≠ newfd) (h : Usable s fd)
    (hfd : fd.toNat ∈ s.fds.bitmap) (hnew : Usable s newfd) :
    Descriptors.dup3 s fd newfd false =
      .done (s.withFds (replaced s.fds newfd.toNat (s.fileAt fd))) := by
  obtain ⟨n, hn, hpos, hfp⟩ := hs.file h hfd
  have hgoes : ¬ (false = true ∨ fd = newfd) := by simp [hne]
  have hclose := dup3Close_eq (hs.setCount hfp (Nat.succ_pos n)) (usable_setCount hnew)
  have hinstall := dup3Install_eq (n := n)
    (s := (s.setCount (s.fileAt fd) (some (n + 1))).withFds (s.fds.clear newfd.toNat))
    (Finset.notMem_erase newfd.toNat _) hnew.2.1 hnew.1 (setCount_fCount _) hpos hfp
  rw [Descriptors.dup3, if_neg hgoes, vfscoreGetFile_eq h hfd rfl hn, Outcome.done_bind]
  show (dup3Close _ newfd).bind _ = _
  rw [hclose, Outcome.done_bind]
  refine hinstall.trans ?_
  rw [setCount_withFds, setCount_withFds, setCount_setCount]
  exact congrArg Outcome.done (withFds_setCount_self _ hn)

end Calls

/-! ## §3  Descriptors, calls and counts -/

/-- The descriptors that refer to `x`. -/
def slots (t : Fdtable) (x : UInt64) : ℤ :=
  ∑ fd ∈ Finset.range fdtableMaxFiles, one (t.files fd) x

/-- The references on `x`. -/
def State.refs (s : State) (x : UInt64) : ℤ := ((s.fCount x).getD 0 : ℕ)

/-- Every open descriptor has a file, every count is the number of descriptors
and calls that have the file, but for what was miscounted, and `stdio_file` is
still there. -/
structure Good (f : StaticFile) (s : State) : Prop extends Counted s where
  stdio_eq : s.stdio = f
  static : (s.fCount f).isSome = true
  installed : ∀ fd ∈ s.fds.bitmap, s.fds.files fd ≠ 0
  used : 0 ∉ s.inUse
  tally : ∀ x, x ≠ 0 → s.refs x = slots s.fds x + s.inUse.count x + s.surplus x

section Tally

variable {s : State} {t t' : Fdtable} {x v fp : UInt64} {i n : ℕ} {fd : ℤ}

/-- One descriptor goes from one file to another. -/
theorem slots_update (hi : i < fdtableMaxFiles) (h : t'.files = Function.update t.files i v) :
    slots t' x + one (t.files i) x = slots t x + one v x := by
  have hmem : i ∈ Finset.range fdtableMaxFiles := Finset.mem_range.mpr hi
  have hrest : ∑ j ∈ (Finset.range fdtableMaxFiles).erase i, one (t'.files j) x =
      ∑ j ∈ (Finset.range fdtableMaxFiles).erase i, one (t.files j) x := by
    refine Finset.sum_congr rfl fun j hj => ?_
    rw [h, Function.update_of_ne (Finset.ne_of_mem_erase hj)]
  unfold slots
  rw [← Finset.add_sum_erase _ _ hmem, ← Finset.add_sum_erase _ (fun j => one (t.files j) x) hmem,
    hrest, h, Function.update_self]
  ring

theorem one_nonneg : 0 ≤ one v x := by
  unfold one
  split <;> decide

theorem one_zero (hx : x ≠ 0) : one 0 x = 0 := if_neg hx

theorem slots_pos (hi : i < fdtableMaxFiles) (h : t.files i = x) : 0 < slots t x := by
  have hle : one (t.files i) x ≤ slots t x :=
    Finset.single_le_sum (fun j _ => one_nonneg) (Finset.mem_range.mpr hi)
  rw [one, if_pos h.symm] at hle
  omega

theorem slots_eq_zero (h : ∀ j < fdtableMaxFiles, t.files j ≠ x) : slots t x = 0 :=
  Finset.sum_eq_zero fun j hj => if_neg (h j (Finset.mem_range.mp hj)).symm

theorem refs_setCount (c : Option ℕ) :
    (s.setCount fp c).refs x = if x = fp then ((c.getD 0 : ℕ) : ℤ) else s.refs x := by
  unfold State.refs
  split
  · rename_i h
    rw [h, setCount_fCount]
  · rename_i h
    rw [setCount_of_ne _ h]

theorem getD_dropped (hn : 0 < n) : (((dropped n).getD 0 : ℕ) : ℤ) = n - 1 := by
  unfold dropped
  split
  · rename_i h
    rw [h]
    rfl
  · show ((n - 1 : ℕ) : ℤ) = n - 1
    omega

theorem dropped_pos {m : ℕ} (hn : 0 < n) (h : dropped n = some m) : 0 < m := by
  unfold dropped at h
  split at h
  · cases h
  · cases h
    omega

theorem install_installed (h : ∀ j ∈ t.bitmap, t.files j ≠ 0) (hfp : fp ≠ 0) :
    ∀ j ∈ ((t.reserve i).install fp).bitmap, ((t.reserve i).install fp).files j ≠ 0 := by
  intro j hj
  show Function.update t.files i fp j ≠ 0
  by_cases heq : j = i
  · rwa [heq, Function.update_self]
  · rw [Function.update_of_ne heq]
    exact h j ((Finset.mem_insert.mp hj).resolve_left heq)

theorem clear_installed (h : ∀ j ∈ t.bitmap, t.files j ≠ 0) :
    ∀ j ∈ (t.clear i).bitmap, (t.clear i).files j ≠ 0 := by
  intro j hj
  obtain ⟨hne, hmem⟩ := Finset.mem_erase.mp hj
  show Function.update t.files i 0 j ≠ 0
  rw [Function.update_of_ne hne]
  exact h j hmem

/-- What `fdalloc` does to the table. -/
theorem allocated_cases :
    s.full ∧ allocated s fp = s ∨
      ¬ s.full ∧ ∃ i, i < fdtableMaxFiles ∧ s.fds.files i = 0 ∧
        allocated s fp = s.withFds ((s.fds.reserve i).install fp) := by
  rcases Option.eq_none_or_eq_some s.fds.vfscoreAllocFd with hnone | ⟨r, hr⟩
  · exact Or.inl ⟨hnone, congrArg (s.place fp) hnone⟩
  · have hempty := vfscoreAllocFd_some hr
    have heq : allocated s fp = s.withFds (r.install fp) := congrArg (s.place fp) hr
    have hfull : ¬ s.full := fun hf => by
      rw [State.full, hr] at hf
      cases hf
    obtain ⟨i, -, rfl⟩ := Option.map_eq_some_iff.mp hr
    exact Or.inr ⟨hfull, i, hempty.2.2.1, hempty.1, heq⟩

theorem allocated_slots (hx : x ≠ 0) :
    slots (allocated s fp).fds x = slots s.fds x + if s.full then 0 else one fp x := by
  rcases @allocated_cases s fp with ⟨hfull, heq⟩ | ⟨hfull, i, hi, hempty, heq⟩
  · rw [heq, if_pos hfull, add_zero]
  · have h : slots ((s.fds.reserve i).install fp) x + one (s.fds.files i) x = _ :=
      slots_update hi rfl
    rw [hempty, one_zero hx, add_zero] at h
    rw [heq, if_neg hfull]
    exact h

theorem allocated_installed (h : ∀ j ∈ s.fds.bitmap, s.fds.files j ≠ 0) (hfp : fp ≠ 0) :
    ∀ j ∈ (allocated s fp).fds.bitmap, (allocated s fp).fds.files j ≠ 0 := by
  rcases @allocated_cases s fp with ⟨-, heq⟩ | ⟨-, i, -, -, heq⟩
  · rwa [heq]
  · rw [heq]
    exact install_installed h hfp

end Tally

/-! ## §4  Whole runs -/

/-- The files that the call is about are there, and it does not drop the last
reference on `stdio_file`. -/
def Safe (s : State) : Call → Prop
  | .openFile _ => True
  | .close fd => Usable s fd ∧ ¬ s.Last (s.fileAt fd)
  | .dup fd => Usable s fd
  | .fcntlDupfd fd => Usable s fd
  | .dup3 oldfd newfd badFlags =>
      badFlags ∨ oldfd = newfd ∨ Usable s oldfd ∧ (s.fileAt oldfd ≠ 0 → Usable s newfd)
  | .begin fd => Usable s fd
  | .finish fp => fp ∈ s.inUse → (s.fCount fp).isSome = true ∧ ¬ s.Last fp

section Runs

variable {f : StaticFile} {s s' : State} {fp : UInt64} {n : ℕ} {fd : ℤ}

theorem fileAt_closed (h : fd.toNat ∉ s.fds.bitmap) : s.fileAt fd = 0 := s.fds.unused _ h

theorem Good.mem_iff (h : Good f s) : fd.toNat ∈ s.fds.bitmap ↔ s.fileAt fd ≠ 0 :=
  ⟨h.installed _, fun hne => by_contra fun hmem => hne (fileAt_closed hmem)⟩

theorem Good.refs_eq (h : s.fCount fp = some n) : s.refs fp = n := by
  rw [State.refs, h]
  rfl

/-- A new count for `fp` and a new table, which add up. -/
theorem Good.update (h : Good f s) {t : Fdtable} {c : Option ℕ} {us : List UInt64}
    {sur : UInt64 → ℤ} (hfp : fp ≠ 0) (hc : ∀ m, c = some m → 0 < m)
    (hstatic : fp = f → c.isSome = true)
    (hinst : ∀ j ∈ t.bitmap, t.files j ≠ 0) (hus : 0 ∉ us)
    (htally : ∀ x, x ≠ 0 → (if x = fp then ((c.getD 0 : ℕ) : ℤ) else s.refs x) =
      slots t x + us.count x + sur x) :
    Good f { (s.withFds t).setCount fp c with inUse := us, surplus := sur } := by
  refine ⟨⟨fun x m hx => ?_, ?_⟩, h.stdio_eq, ?_, hinst, hus, fun x hx => ?_⟩
  · by_cases heq : x = fp
    · have hcm : ((s.withFds t).setCount fp c).fCount x = some m := hx
      rw [heq, setCount_fCount] at hcm
      exact hc m hcm
    · have hxm : ((s.withFds t).setCount fp c).fCount x = some m := hx
      rw [setCount_of_ne _ heq] at hxm
      exact h.pos x m hxm
  · show ((s.withFds t).setCount fp c).fCount 0 = none
    rw [setCount_of_ne _ hfp.symm]
    exact h.null
  · show (((s.withFds t).setCount fp c).fCount f).isSome = true
    by_cases heq : (f : UInt64) = fp
    · rw [heq, setCount_fCount]
      exact hstatic heq.symm
    · rw [setCount_of_ne _ heq]
      exact h.static
  · refine Eq.trans ?_ (htally x hx)
    exact refs_setCount (s := s.withFds t) c

/-- The same, when `fdalloc` has been at the table: what the count has gained is
what the table has gained and what was miscounted. -/
theorem Good.alloc (h : Good f s) {m : ℕ} {mis : UInt64 → ℤ} (hfp : fp ≠ 0) (hm : 0 < m)
    (hmis : ∀ x, (m - s.refs fp) * one fp x = (if s.full then 0 else one fp x) + mis x) :
    Good f { (allocated s fp).setCount fp (some m) with
      surplus := fun x => s.surplus x + mis x } := by
  have heq : { (allocated s fp).setCount fp (some m) with
        surplus := fun x => s.surplus x + mis x } =
      { (s.withFds (allocated s fp).fds).setCount fp (some m) with
        inUse := s.inUse, surplus := fun x => s.surplus x + mis x } := by
    rcases @allocated_cases s fp with ⟨-, h⟩ | ⟨-, i, -, -, h⟩ <;> rw [h] <;> rfl
  rw [heq]
  refine h.update hfp (fun k hk => by cases hk; exact hm) (fun _ => rfl)
    (allocated_installed h.installed hfp) h.used fun x hx => ?_
  have ht := h.tally x hx
  have hgain := hmis x
  rw [allocated_slots hx]
  by_cases hxfp : x = fp
  · subst hxfp
    rw [one, if_pos rfl] at hgain ⊢
    rw [if_pos rfl]
    show (m : ℤ) = _
    omega
  · rw [one, if_neg hxfp] at hgain ⊢
    rw [if_neg hxfp]
    omega

/-- A call that does nothing and miscounts nothing. -/
theorem Good.same (h : Good f s) {c : Call} (hc : call s c = .done s)
    (hz : ∀ x, miscount s x c = 0) : ∃ s', step s c = .done s' ∧ Good f s' := by
  rw [step, hc, Outcome.done_bind]
  refine ⟨_, rfl, ⟨h.pos, h.null⟩, h.stdio_eq, h.static, h.installed, h.used, fun x hx => ?_⟩
  have ht := h.tally x hx
  show s.refs x = slots s.fds x + s.inUse.count x + (s.surplus x + miscount s x c)
  rw [hz x]
  omega

theorem Good.openFile (h : Good f s) : ∃ s', step s (.openFile fp) = .done s' ∧ Good f s' := by
  by_cases hf : s.Fresh fp
  · have hrefs : s.refs fp = 0 := by
      rw [State.refs, hf.2]
      rfl
    rw [step, call, if_pos hf, openFile_eq hf.1, Outcome.done_bind]
    refine ⟨_, rfl, h.alloc hf.1 one_pos fun x => ?_⟩
    simp only [miscount, hf, true_and, hrefs]
    split <;> simp
  · exact h.same (by rw [call, if_neg hf]) fun x => by simp [miscount, hf]

theorem Good.dropped_static (h : Good f s) (hn : s.fCount fp = some n) (hlast : ¬ s.Last fp)
    (hfp : fp = f) : (dropped n).isSome = true := by
  have hne : n ≠ 1 := by
    rintro rfl
    exact hlast ⟨hn, h.stdio_eq ▸ hfp⟩
  rw [dropped, if_neg hne]
  rfl

theorem Good.close (h : Good f s) (hu : Usable s fd) (hlast : ¬ s.Last (s.fileAt fd)) :
    ∃ s', step s (.close fd) = .done s' ∧ Good f s' := by
  by_cases hfd : fd.toNat ∈ s.fds.bitmap
  · obtain ⟨n, hn, hpos, hfp⟩ := h.file hu hfd
    have hlt : fd.toNat < fdtableMaxFiles := by
      have := hu.1
      have := hu.2.1
      omega
    rw [step, call, fdclose_eq hu hfd rfl hn hpos hfp hlast, Outcome.done_bind]
    refine ⟨_, rfl, h.update hfp (fun m hm => dropped_pos hpos hm) (h.dropped_static hn hlast)
      (clear_installed h.installed) h.used fun x hx => ?_⟩
    have ht := h.tally x hx
    have hslots : slots (s.fds.clear fd.toNat) x + one (s.fileAt fd) x = slots s.fds x + one 0 x :=
      slots_update hlt rfl
    rw [one_zero hx] at hslots
    rw [getD_dropped hpos]
    show _ = slots (s.fds.clear fd.toNat) x + s.inUse.count x + (s.surplus x + 0)
    unfold one at hslots
    split
    · rename_i heq
      rw [heq, Good.refs_eq hn] at ht
      rw [if_pos heq] at hslots
      rw [heq] at hslots ⊢
      omega
    · rename_i heq
      rw [if_neg heq] at hslots
      omega
  · exact h.same (fdclose_closed hu hfd) fun _ => rfl

theorem Good.dup (h : Good f s) (hu : Usable s fd) :
    ∃ s', step s (.dup fd) = .done s' ∧ Good f s' := by
  by_cases hfd : fd.toNat ∈ s.fds.bitmap
  · obtain ⟨n, hn, -, hfp⟩ := h.file hu hfd
    rw [step, call, dup_eq hu hfd rfl hn hfp, Outcome.done_bind]
    refine ⟨_, rfl, h.alloc hfp (Nat.succ_pos n) fun x => ?_⟩
    simp only [miscount, ne_eq, hfp, not_false_eq_true, true_and, Good.refs_eq hn]
    split <;> push_cast <;> ring
  · refine h.same ?_ fun x => ?_
    · rw [call, Descriptors.dup, vfscoreGetFile_closed hu hfd, Outcome.done_bind]
    · simp [miscount, fileAt_closed hfd]

theorem Good.fcntlDupfd (h : Good f s) (hu : Usable s fd) :
    ∃ s', step s (.fcntlDupfd fd) = .done s' ∧ Good f s' := by
  by_cases hfd : fd.toNat ∈ s.fds.bitmap
  · obtain ⟨n, hn, -, hfp⟩ := h.file hu hfd
    rw [step, call, fcntlDupfd_eq hu hfd rfl hn hfp, Outcome.done_bind]
    refine ⟨_, rfl, h.alloc hfp (by split <;> omega) fun x => ?_⟩
    simp only [miscount, ne_eq, hfp, not_false_eq_true, true_and, Good.refs_eq hn]
    split <;> push_cast <;> ring
  · refine h.same ?_ fun x => ?_
    · rw [call, Descriptors.fcntlDupfd, vfscoreGetFile_closed hu hfd, Outcome.done_bind]
    · simp [miscount, fileAt_closed hfd]

theorem slots_replaced {t : Fdtable} {i : ℕ} {x : UInt64} (hi : i < fdtableMaxFiles) :
    slots (replaced t i fp) x + one (t.files i) x = slots t x + one fp x := by
  refine slots_update hi ?_
  show Function.update (Function.update t.files i 0) i fp = _
  rw [Function.update_idem]

theorem Good.dup3 (h : Good f s) {newfd : ℤ} {badFlags : Bool}
    (hs : Safe s (.dup3 fd newfd badFlags)) :
    ∃ s', step s (.dup3 fd newfd badFlags) = .done s' ∧ Good f s' := by
  by_cases hbad : badFlags = true ∨ fd = newfd
  · refine h.same (by rw [call, Descriptors.dup3, if_pos hbad]) fun x => ?_
    rw [miscount, if_pos (by tauto)]
  obtain ⟨hflags, hne⟩ := not_or.mp hbad
  rw [Bool.not_eq_true] at hflags
  subst hflags
  obtain ⟨hu, hnew⟩ := (hs.resolve_left Bool.false_ne_true).resolve_left hne
  by_cases hfd : fd.toNat ∈ s.fds.bitmap
  · obtain ⟨n, hn, hpos, hfp⟩ := h.file hu hfd
    have hu' := hnew hfp
    have hlt : newfd.toNat < fdtableMaxFiles := by
      have := hu'.1
      have := hu'.2.1
      omega
    rw [step, call, dup3_eq h.toCounted hne hu hfd hu', Outcome.done_bind]
    refine ⟨_, rfl, ⟨h.pos, h.null⟩, h.stdio_eq, h.static, ?_, h.used, fun x hx => ?_⟩
    · exact install_installed (clear_installed h.installed) hfp
    · have ht := h.tally x hx
      have hslots : slots (replaced s.fds newfd.toNat (s.fileAt fd)) x + one (s.fileAt newfd) x =
          slots s.fds x + one (s.fileAt fd) x := slots_replaced hlt
      show s.refs x = slots (replaced s.fds newfd.toNat (s.fileAt fd)) x + s.inUse.count x +
        (s.surplus x + miscount s x (.dup3 fd newfd false))
      rw [miscount, if_neg (by simp [hne, hfp])]
      omega
  · refine h.same ?_ fun x => ?_
    · rw [call, Descriptors.dup3, if_neg hbad, vfscoreGetFile_closed hu hfd, Outcome.done_bind]
    · rw [miscount, if_pos (by simp [fileAt_closed hfd])]

theorem Good.begin (h : Good f s) (hu : Usable s fd) :
    ∃ s', step s (.begin fd) = .done s' ∧ Good f s' := by
  by_cases hfd : fd.toNat ∈ s.fds.bitmap
  · obtain ⟨n, hn, hpos, hfp⟩ := h.file hu hfd
    rw [step, call, vfscoreGetFile_eq hu hfd rfl hn, Outcome.done_bind]
    refine ⟨_, rfl, h.update hfp (fun m hm => by cases hm; exact Nat.succ_pos n) (fun _ => rfl)
      h.installed (fun h0 => ?_) fun x hx => ?_⟩
    · rcases List.mem_cons.mp h0 with h0 | h0
      · exact hfp h0.symm
      · exact h.used h0
    have ht := h.tally x hx
    show _ = slots s.fds x + ((s.fileAt fd :: s.inUse).count x : ℕ) + (s.surplus x + 0)
    rw [List.count_cons]
    by_cases heq : x = s.fileAt fd
    · rw [heq, Good.refs_eq hn] at ht
      simp only [heq, if_true, Option.getD_some, beq_self_eq_true]
      push_cast
      omega
    · rw [if_neg heq, if_neg (by simpa using Ne.symm heq)]
      push_cast
      omega
  · refine h.same ?_ fun _ => rfl
    rw [call, vfscoreGetFile_closed hu hfd, Outcome.done_bind]

theorem Good.finish (h : Good f s)
    (hs : fp ∈ s.inUse → (s.fCount fp).isSome = true ∧ ¬ s.Last fp) :
    ∃ s', step s (.finish fp) = .done s' ∧ Good f s' := by
  by_cases hmem : fp ∈ s.inUse
  · obtain ⟨hsome, hlast⟩ := hs hmem
    obtain ⟨n, hn⟩ := Option.isSome_iff_exists.mp hsome
    have hpos := h.pos fp n hn
    have hfp : fp ≠ 0 := by
      rintro rfl
      rw [h.null] at hn
      cases hn
    have hn' : State.fCount { s with inUse := s.inUse.erase fp } fp = some n := hn
    have hdrop := fdrop_eq hn' hpos hlast
    rw [step, call, if_pos hmem, hdrop, Outcome.done_bind]
    refine ⟨_, rfl, h.update hfp (fun m hm => dropped_pos hpos hm) (h.dropped_static hn hlast)
      h.installed (fun h0 => h.used (List.mem_of_mem_erase h0)) fun x hx => ?_⟩
    have ht := h.tally x hx
    have hcount := List.one_le_count_iff.mpr hmem
    show _ = slots s.fds x + ((s.inUse.erase fp).count x : ℕ) + (s.surplus x + 0)
    rw [List.count_erase, getD_dropped hpos]
    by_cases heq : x = fp
    · subst heq
      rw [Good.refs_eq hn] at ht
      simp only [if_true, beq_self_eq_true]
      omega
    · rw [if_neg heq, if_neg (by simpa using Ne.symm heq)]
      omega
  · exact h.same (by rw [call, if_neg hmem]) fun _ => rfl

/-- **One call**, when its files are there. -/
theorem Good.step (h : Good f s) {c : Call} (hs : Safe s c) :
    ∃ s', Descriptors.step s c = .done s' ∧ Good f s' := by
  cases c with
  | openFile fp => exact h.openFile
  | close fd => exact h.close hs.1 hs.2
  | dup fd => exact h.dup hs
  | fcntlDupfd fd => exact h.fcntlDupfd hs
  | dup3 oldfd newfd badFlags => exact h.dup3 hs
  | begin fd => exact h.begin hs
  | finish fp => exact h.finish hs

theorem usable_of_setCount (h : Usable (s.setCount fp (some n)) fd)
    (hfp : (s.fCount fp).isSome = true) : Usable s fd := by
  refine ⟨h.1, h.2.1, fun hmem => ?_⟩
  by_cases heq : s.fileAt fd = fp
  · rwa [heq]
  · have hsome : ((s.setCount fp (some n)).fCount (s.fileAt fd)).isSome = true := h.2.2 hmem
    rwa [setCount_of_ne _ heq] at hsome

/-- A call that goes through found its files. -/
theorem Good.safe (h : Good f s) {c : Call} (hstep : Descriptors.step s c = .done s') :
    Safe s c := by
  obtain ⟨t, hcall, -⟩ := Outcome.bind_eq_done.mp hstep
  cases c with
  | openFile fp => trivial
  | close fd =>
      obtain ⟨_, hget, -⟩ := Outcome.bind_eq_done.mp hcall
      have hu := usable_of_getFile hget
      refine ⟨hu, fun hl => ?_⟩
      have hfp : s.fileAt fd ≠ 0 := hl.2 ▸ s.stdio.2
      cases hcall.symm.trans (fdclose_last hu (h.mem_iff.mpr hfp) rfl hl)
  | dup fd =>
      obtain ⟨_, hget, -⟩ := Outcome.bind_eq_done.mp hcall
      exact usable_of_getFile hget
  | fcntlDupfd fd =>
      obtain ⟨_, hget, -⟩ := Outcome.bind_eq_done.mp hcall
      exact usable_of_getFile hget
  | begin fd =>
      obtain ⟨_, hget, -⟩ := Outcome.bind_eq_done.mp hcall
      exact usable_of_getFile hget
  | dup3 oldfd newfd badFlags =>
      rw [call, Descriptors.dup3] at hcall
      split at hcall
      · rename_i hbad
        rcases hbad with hbad | hbad
        · exact Or.inl hbad
        · exact Or.inr (Or.inl hbad)
      · obtain ⟨_, hget, hrest⟩ := Outcome.bind_eq_done.mp hcall
        have hu := usable_of_getFile hget
        refine Or.inr (Or.inr ⟨hu, fun hfp => ?_⟩)
        have hfd := h.mem_iff.mpr hfp
        obtain ⟨n, hn, -, -⟩ := h.file hu hfd
        cases hget.symm.trans (vfscoreGetFile_eq hu hfd rfl hn)
        obtain ⟨_, hclose, -⟩ := Outcome.bind_eq_done.mp hrest
        obtain ⟨_, hnew, -⟩ := Outcome.bind_eq_done.mp hclose
        exact usable_of_setCount (usable_of_getFile hnew) (by rw [hn]; rfl)
  | finish fp =>
      intro hmem
      rw [call, if_pos hmem] at hcall
      refine ⟨?_, fun hl => by cases hcall.symm.trans (fdrop_last hl)⟩
      cases hc : s.fCount fp with
      | some n => rfl
      | none =>
          rw [fdrop, show State.fCount { s with inUse := s.inUse.erase fp } fp = none from hc]
            at hcall
          cases hcall

theorem zeroed_counted : Counted (zeroed f) := by
  refine ⟨fun x m hx => ?_, ?_⟩
  · have hx : Function.update (fun _ => none) (f : UInt64) (some 2) x = some m := hx
    by_cases heq : x = f
    · rw [heq, Function.update_self] at hx
      cases hx
      decide
    · rw [Function.update_of_ne heq] at hx
      cases hx
  · show Function.update (fun _ => none) (f : UInt64) (some 2) 0 = none
    rw [Function.update_of_ne f.2.symm]

theorem zeroed_count : (zeroed f).fCount f = some 2 := by
  show Function.update (fun _ => none) (f : UInt64) (some 2) f = some 2
  rw [Function.update_self]

theorem slots_stdioFds {x : UInt64} (hx : x ≠ 0) : slots (stdioFds f) x = 3 * one f x := by
  have hrest : ∑ fd ∈ Finset.range fdtableMaxFiles, one ((stdioFds f).files fd) x =
      ∑ fd ∈ Finset.range 3, one ((stdioFds f).files fd) x := by
    refine (Finset.sum_subset (Finset.range_mono (by decide)) fun fd _ hfd => ?_).symm
    rw [Finset.mem_range] at hfd
    show one (if fd < 3 then (f : UInt64) else 0) x = 0
    rw [if_neg hfd, one_zero hx]
  rw [slots, hrest]
  show one (f : UInt64) x + (one (f : UInt64) x + (one (f : UInt64) x + 0)) = _
  ring

theorem good_start : Good f (start f) := by
  refine ⟨⟨zeroed_counted.pos, zeroed_counted.null⟩, rfl, ?_, fun fd hfd => ?_,
    List.not_mem_nil, fun x hx => ?_⟩
  · show ((zeroed f).fCount f).isSome = true
    rw [zeroed_count]
    rfl
  · have hlt : fd < 3 := by
      have hmem : fd ∈ ({0, 1, 2} : Finset ℕ) := hfd
      simp only [Finset.mem_insert, Finset.mem_singleton] at hmem
      omega
    show (if fd < 3 then (f : UInt64) else 0) ≠ 0
    rw [if_pos hlt]
    exact f.2
  · have hrefs : (start f).refs x = 2 * one f x := by
      show (((Function.update (fun _ => none) (f : UInt64) (some 2) x).getD 0 : ℕ) : ℤ) = _
      unfold one
      split
      · rename_i heq
        rw [heq, Function.update_self]
        rfl
      · rename_i heq
        rw [Function.update_of_ne heq]
        rfl
    rw [hrefs]
    show _ = slots (stdioFds f) x + ((0 : ℕ) : ℤ) + -one f x
    rw [slots_stdioFds hx]
    push_cast
    ring

end Runs

section Init

variable {f : StaticFile}

end Init

section FileCounts

variable {f : StaticFile}

theorem runs_iff_safe (es : List Call) :
    (∃ s, runs step (start f) es = .done s) ↔ Along step Safe (start f) es :=
  runs_done_iff_along (fun _ _ (h : Good f _) hs => h.step hs)
    (fun _ _ _ h hst => h.safe hst) good_start

theorem good_of_runs {es : List Call} {s : State} (hrun : runs step (start f) es = .done s) :
    Good f s := by
  obtain ⟨s', hrun', hgood⟩ :=
    runs_done (fun s c (h : Good f s) hs => h.step hs) good_start ((runs_iff_safe es).mp ⟨s, hrun⟩)
  cases hrun.symm.trans hrun'
  exact hgood

end FileCounts

def InTable (fd : ℤ) : Prop := 0 ≤ fd ∧ fd < fdtableMaxFiles

/-- The call is given descriptors, finds room, does not use `dup3` to make one
descriptor refer to the file of another, and leaves `stdio_file` a reference. -/
def Balanced (s : State) : Call → Prop
  | .openFile _ => ¬ s.full
  | .close fd => InTable fd ∧ ¬ s.Last (s.fileAt fd)
  | .dup fd => InTable fd ∧ ¬ s.full
  | .fcntlDupfd fd => InTable fd ∧ ¬ s.full
  | .dup3 oldfd newfd _ =>
      InTable oldfd ∧ InTable newfd ∧
        (s.fileAt oldfd = 0 ∨ s.fileAt oldfd = s.fileAt newfd)
  | .begin fd => InTable fd
  | .finish fp => fp ∈ s.inUse → ¬ s.Last fp

instance (fd : ℤ) : Decidable (InTable fd) := inferInstanceAs (Decidable (_ ∧ _))

instance (s : State) : (c : Call) → Decidable (Balanced s c)
  | .openFile _ => inferInstanceAs (Decidable (¬ s.full))
  | .close fd => inferInstanceAs (Decidable (InTable fd ∧ ¬ s.Last (s.fileAt fd)))
  | .dup fd => inferInstanceAs (Decidable (InTable fd ∧ ¬ s.full))
  | .fcntlDupfd fd => inferInstanceAs (Decidable (InTable fd ∧ ¬ s.full))
  | .dup3 _ _ _ => inferInstanceAs (Decidable (_ ∧ _ ∧ (_ ∨ _)))
  | .begin fd => inferInstanceAs (Decidable (InTable fd))
  | .finish fp => inferInstanceAs (Decidable (fp ∈ s.inUse → ¬ s.Last fp))

/-- Nothing has been miscounted but `stdio_file`. -/
def Exact (f : StaticFile) (s : State) : Prop :=
  Good f s ∧ ∀ x : UInt64, x ≠ f → s.surplus x = 0

section Exact

variable {f : StaticFile} {s s' : State} {x fp : UInt64} {fd : ℤ}

/-- Whatever has a file keeps it. -/
theorem Exact.live (h : Exact f s) (hx : x ≠ 0)
    (href : x ∈ s.inUse ∨ ∃ i < fdtableMaxFiles, s.fds.files i = x) :
    (s.fCount x).isSome = true := by
  by_cases hstdio : x = f
  · rw [hstdio]
    exact h.1.static
  have ht := h.1.tally x hx
  rw [h.2 x hstdio] at ht
  have hslots : 0 ≤ slots s.fds x := Finset.sum_nonneg fun _ _ => one_nonneg
  have hpos : 0 < s.refs x := by
    rcases href with hmem | ⟨i, hi, hfile⟩
    · have := List.one_le_count_iff.mpr hmem
      omega
    · have := slots_pos hi hfile
      omega
  cases hc : s.fCount x with
  | some n => rfl
  | none =>
      rw [State.refs, hc] at hpos
      exact absurd hpos (lt_irrefl 0)

/-- A file that nothing has is gone. -/
theorem Exact.referenced (h : Exact f s) (hstdio : x ≠ f)
    (hlive : (s.fCount x).isSome = true) :
    x ∈ s.inUse ∨ ∃ i < fdtableMaxFiles, s.fds.files i = x := by
  obtain ⟨n, hn⟩ := Option.isSome_iff_exists.mp hlive
  have hx : x ≠ 0 := by
    rintro rfl
    rw [h.1.null] at hn
    cases hn
  by_contra hno
  push Not at hno
  have ht := h.1.tally x hx
  have hpos := h.1.pos x n hn
  rw [Good.refs_eq hn, h.2 x hstdio, slots_eq_zero hno.2, List.count_eq_zero.mpr hno.1] at ht
  push_cast at ht
  omega

theorem Exact.usable (h : Exact f s) (hfd : InTable fd) : Usable s fd := by
  refine ⟨hfd.1, hfd.2, fun hmem => h.live (h.1.mem_iff.mp hmem) (Or.inr ⟨fd.toNat, ?_, rfl⟩)⟩
  have := hfd.1
  have := hfd.2
  omega

theorem Exact.safe (h : Exact f s) {c : Call} (hb : Balanced s c) : Safe s c := by
  cases c with
  | openFile fp => trivial
  | close fd => exact ⟨h.usable hb.1, hb.2⟩
  | dup fd => exact h.usable hb.1
  | fcntlDupfd fd => exact h.usable hb.1
  | dup3 oldfd newfd badFlags =>
      exact Or.inr (Or.inr ⟨h.usable hb.1, fun _ => h.usable hb.2.1⟩)
  | begin fd => exact h.usable hb
  | finish fp =>
      exact fun hmem => ⟨h.live (fun h0 => h.1.used (h0 ▸ hmem)) (Or.inl hmem), hb hmem⟩

theorem Balanced.miscount {c : Call} (hb : Balanced s c) : miscount s x c = 0 := by
  cases c with
  | openFile fp => exact if_neg fun h => hb h.2
  | close fd => rfl
  | dup fd => exact if_neg fun h => hb.2 h.2
  | fcntlDupfd fd => exact if_neg fun h => hb.2 h.2
  | dup3 oldfd newfd badFlags =>
      rw [Descriptors.miscount]
      split
      · rfl
      · rename_i hno
        have heq : s.fileAt oldfd = s.fileAt newfd :=
          hb.2.2.resolve_left fun h0 => hno (Or.inr (Or.inr h0))
        rw [heq, sub_self]
  | begin fd => rfl
  | finish fp => rfl

theorem Exact.step (h : Exact f s) {c : Call} (hb : Balanced s c) :
    ∃ s', Descriptors.step s c = .done s' ∧ Exact f s' := by
  obtain ⟨s', hstep, hgood⟩ := h.1.step (h.safe hb)
  refine ⟨s', hstep, hgood, fun x hx => ?_⟩
  obtain ⟨t, -, ht⟩ := Outcome.bind_eq_done.mp hstep
  cases ht
  show s.surplus x + Descriptors.miscount s x c = 0
  rw [h.2 x hx, hb.miscount, add_zero]

end Exact

/-- **Without `dup3`, nothing dangles and nothing leaks.** When calls are given
descriptors, find room, do not use `dup3` across files and leave `stdio_file` a
reference, every run goes through, and at its end a file other than `stdio_file`
is allocated exactly when a descriptor or a call in progress has it. -/
theorem balanced_runs {f : StaticFile} {es : List Call}
    (hes : Along step Balanced (start f) es) :
    ∃ s, runs step (start f) es = .done s ∧ ∀ x, x ≠ 0 →
      ((s.fCount x).isSome = true ↔
        x = f ∨ x ∈ s.inUse ∨ ∃ i < fdtableMaxFiles, s.fds.files i = x) := by
  have hstart : ∀ x : UInt64, x ≠ f → (start f).surplus x = 0 := by
    intro x hx
    show -one f x = 0
    rw [one, if_neg hx, neg_zero]
  obtain ⟨s, hrun, h⟩ :=
    runs_done (fun s c (h : Exact f s) hb => h.step hb) ⟨good_start, hstart⟩ hes
  refine ⟨s, hrun, fun x hx => ?_⟩
  by_cases hstdio : x = f
  · rw [hstdio]
    exact iff_of_true h.1.static (Or.inl rfl)
  · exact ⟨fun hlive => Or.inr (h.referenced hstdio hlive),
      fun href => h.live hx (href.resolve_left hstdio)⟩

/-- A file is opened, copied, read by a call that is still going on, and closed
twice; another one is opened at its address; and descriptor zero is closed. -/
def sampleCalls : List Call :=
  [.openFile 0x1000, .dup 3, .begin 4, .close 3, .close 4, .finish 0x1000, .openFile 0x1000,
    .close 0, .begin 1]

def sampleStdio : StaticFile := ⟨0x600000, by decide⟩

theorem balanced_sample :
    ∃ s, runs step (start sampleStdio) sampleCalls = .done s ∧ ∀ x, x ≠ 0 →
      ((s.fCount x).isSome = true ↔
        x = sampleStdio ∨ x ∈ s.inUse ∨ ∃ i < fdtableMaxFiles, s.fds.files i = x) :=
  balanced_runs (by decide +kernel)

section Redirect

/-- A call on a descriptor whose file is gone. -/
theorem begin_wild {s : State} {fd : ℤ} (hin : InTable fd) (hopen : fd.toNat ∈ s.fds.bitmap)
    (hgone : s.fCount (s.fileAt fd) = none) : step s (.begin fd) = .wild := by
  have hneg : ¬ fd < 0 := not_lt.mpr hin.1
  have hhold : fhold s (s.fileAt fd) = .wild := by rw [fhold, hgone]
  rw [step, call, vfscoreGetFile, ukAssert, if_pos hin.2, Outcome.done_bind, if_neg hneg,
    if_pos hopen]
  show (((fhold s (s.fileAt fd)).bind _).bind _).bind _ = _
  rw [hhold]
  rfl

/-- The last reference goes with the descriptor. -/
theorem close_frees {s : State} {fd : ℤ} {fp : UInt64} (hu : Usable s fd)
    (hopen : fd.toNat ∈ s.fds.bitmap) (hfile : s.fileAt fd = fp) (hone : s.fCount fp = some 1)
    (hfp : fp ≠ 0) (hlast : ¬ s.Last fp) :
    ∃ s', step s (.close fd) = .done s' ∧ s'.fds = s.fds.clear fd.toNat ∧
      s'.fCount fp = none := by
  rw [step, call, fdclose_eq hu hopen hfile hone one_pos hfp hlast, Outcome.done_bind]
  exact ⟨_, rfl, rfl, setCount_fCount _⟩

end Redirect

/-- **Redirecting a descriptor loses the file.** In every state that a run
reaches, when `oldfd` holds the only reference that is counted on a file, `dup3`
to a closed descriptor and the `close` of `oldfd` free the file, the new
descriptor still refers to it, and the next call on it uses freed memory. With
`stdio_file` the `close` stops the machine. -/
theorem dup3_dangles {f : StaticFile} {es : List Call} {s : State}
    (hrun : runs step (start f) es = .done s)
    {oldfd newfd : ℤ} (hne : oldfd ≠ newfd) (hold : InTable oldfd) (hnew : InTable newfd)
    (hone : s.fCount (s.fileAt oldfd) = some 1) (hclosed : s.fileAt newfd = 0) :
    (s.fileAt oldfd ≠ f →
      ∃ s', runs step s [.dup3 oldfd newfd false, .close oldfd] = .done s' ∧
        s'.fileAt newfd = s.fileAt oldfd ∧ s'.fCount (s.fileAt oldfd) = none ∧
        step s' (.begin newfd) = .wild) ∧
    (s.fileAt oldfd = f →
      runs step s [.dup3 oldfd newfd false, .close oldfd] = .spin) := by
  have hgood := good_of_runs hrun
  have hfp : s.fileAt oldfd ≠ 0 := by
    intro h0
    rw [h0, hgood.null] at hone
    cases hone
  have hopen : oldfd.toNat ∈ s.fds.bitmap := hgood.mem_iff.mpr hfp
  have hnot : newfd.toNat ∉ s.fds.bitmap := fun h => hgood.mem_iff.mp h hclosed
  have hu : Usable s oldfd := ⟨hold.1, hold.2, fun _ => by rw [hone]; rfl⟩
  have hu' : Usable s newfd := ⟨hnew.1, hnew.2, fun h => absurd h hnot⟩
  have hapart : oldfd.toNat ≠ newfd.toNat := by
    have := hold.1
    have := hnew.1
    omega
  -- the copy changes the table only
  set s₁ : State := { s.withFds (replaced s.fds newfd.toNat (s.fileAt oldfd)) with
    surplus := fun x => s.surplus x + miscount s x (.dup3 oldfd newfd false) }
  have hcopy : step s (.dup3 oldfd newfd false) = .done s₁ := by
    rw [step, call, dup3_eq hgood.toCounted hne hu hopen hu', Outcome.done_bind]
  have hfile₁ : s₁.fileAt oldfd = s.fileAt oldfd := replaced_of_ne hapart
  have hone₁ : s₁.fCount (s.fileAt oldfd) = some 1 := hone
  have hu₁ : Usable s₁ oldfd := ⟨hold.1, hold.2, fun _ => by rw [hfile₁, hone₁]; rfl⟩
  have hlast : s₁.Last (s.fileAt oldfd) ↔ s.fileAt oldfd = f := by
    have hstdio : s₁.stdio = f := hgood.stdio_eq
    rw [State.Last, hstdio]
    exact and_iff_right hone₁
  constructor
  · intro hother
    obtain ⟨s₂, hstep₂, hfds, hgone⟩ := close_frees hu₁ (mem_replaced hopen) hfile₁ hone₁ hfp
      fun hl => hother (hlast.mp hl)
    have hfile₂ : s₂.fileAt newfd = s.fileAt oldfd := by
      rw [State.fileAt, hfds]
      show Function.update (replaced s.fds newfd.toNat (s.fileAt oldfd)).files oldfd.toNat 0
        newfd.toNat = _
      rw [Function.update_of_ne hapart.symm, replaced_self]
    have hopen₂ : newfd.toNat ∈ s₂.fds.bitmap := by
      rw [hfds]
      exact Finset.mem_erase.mpr ⟨hapart.symm, Finset.mem_insert_self _ _⟩
    refine ⟨s₂, ?_, hfile₂, hgone, begin_wild hnew hopen₂ (by rw [hfile₂, hgone])⟩
    exact runs_cons_eq_done.mpr ⟨s₁, hcopy, runs_cons_eq_done.mpr ⟨s₂, hstep₂, rfl⟩⟩
  · intro hstdio
    have hstop : step s₁ (.close oldfd) = .spin := by
      rw [step, call, fdclose_last hu₁ (mem_replaced hopen) hfile₁ (hlast.mpr hstdio)]
      rfl
    rw [runs, hcopy, Outcome.done_bind, runs, hstop]
    rfl

def resultOr (d : State) : Outcome State → State
  | .done s => s
  | _ => d

/-- A file at descriptor three, after one `open`. -/
def oneFile : State :=
  resultOr (start sampleStdio) (runs step (start sampleStdio) [.openFile 0x1000])

theorem dup3_dangles_sample :
    ∃ s', runs step oneFile [.dup3 3 4 false, .close 3] = .done s' ∧
      s'.fileAt 4 = 0x1000 ∧ s'.fCount 0x1000 = none ∧ step s' (.begin 4) = .wild := by
  have hdone : (runs step (start sampleStdio) [.openFile 0x1000]).isDone = true := by
    decide +kernel
  obtain ⟨s, hs⟩ := Outcome.isDone_iff.mp hdone
  have hrun : runs step (start sampleStdio) [.openFile 0x1000] = .done oneFile :=
    hs.trans (congrArg Outcome.done (congrArg (resultOr (start sampleStdio)) hs).symm)
  have hfile : oneFile.fileAt 3 = 0x1000 := by decide +kernel
  have hone : oneFile.fCount (oneFile.fileAt 3) = some 1 := by decide +kernel
  have hclosed : oneFile.fileAt 4 = 0 := by decide +kernel
  have hother : oneFile.fileAt 3 ≠ sampleStdio := by
    rw [hfile]
    decide
  have h := (dup3_dangles hrun (by decide : (3 : ℤ) ≠ 4) (by decide) (by decide) hone
    hclosed).1 hother
  rwa [hfile] at h

end Descriptors

end CubicleOS
