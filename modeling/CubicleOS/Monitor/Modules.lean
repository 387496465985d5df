import CubicleOS.Foundation.Outcome

/-!
# The modules the monitor knows

`enum modules`, `modnames`, the lists `must` and `shared`, and the relation
`friends`, as the generator writes them into `gen_hooks.h`. The enumerators
follow the generator's library list, so the numbers are those that the
cubicles use in their window masks (`1 << 21` is vfscore).
-/

namespace CubicleOS

open Foundation

/-- `enum modules` of `gen_hooks.h`, without the closing `E_END`. -/
inductive Modules where
  | app | uksched | ramfs | posixSysinfo | ukswrand | uktimeconv | ukalloc
  | uklibparam | posixLibdl | ukbus | ukschedcoop | uknetdev | d9pfs | fdt
  | ukmpi | ukargparse | uktime | lwip | uksglist | linuxuplat | uklock
  | vfscore | ukallocbbuddy | ukblkdev | devfs | ukboot
deriving DecidableEq, Repr

namespace Modules

/-- The enumerator as the `int` that C code computes with. -/
def id (m : Modules) : ℤ := m.ctorIdx

/-- The generator's `lib` of an enumerator. -/
def lib : Modules → String
  | app => "app" | uksched => "uksched" | ramfs => "ramfs"
  | posixSysinfo => "posix_sysinfo" | ukswrand => "ukswrand"
  | uktimeconv => "uktimeconv" | ukalloc => "ukalloc"
  | uklibparam => "uklibparam" | posixLibdl => "posix_libdl"
  | ukbus => "ukbus" | ukschedcoop => "ukschedcoop" | uknetdev => "uknetdev"
  | d9pfs => "d9pfs" | fdt => "fdt" | ukmpi => "ukmpi"
  | ukargparse => "ukargparse" | uktime => "uktime" | lwip => "lwip"
  | uksglist => "uksglist" | linuxuplat => "linuxuplat" | uklock => "uklock"
  | vfscore => "vfscore" | ukallocbbuddy => "ukallocbbuddy"
  | ukblkdev => "ukblkdev" | devfs => "devfs" | ukboot => "ukboot"

/-- `modnames[m]`. -/
def modname (m : Modules) : String :=
  match m with
  | app => "app.so"
  | m => "lib" ++ m.lib ++ ".so"

/-- All enumerators, in the order of their values. -/
def all : List Modules :=
  [app, uksched, ramfs, posixSysinfo, ukswrand, uktimeconv, ukalloc,
    uklibparam, posixLibdl, ukbus, ukschedcoop, uknetdev, d9pfs, fdt, ukmpi,
    ukargparse, uktime, lwip, uksglist, linuxuplat, uklock, vfscore,
    ukallocbbuddy, ukblkdev, devfs, ukboot]

theorem all_getElem? (m : Modules) : all[m.ctorIdx]? = some m := by
  cases m <;> rfl

theorem ctorIdx_injective : Function.Injective Modules.ctorIdx := by
  intro a b h
  have ha := all_getElem? a
  rw [h, all_getElem? b] at ha
  exact (Option.some.inj ha).symm

end Modules

/-- `E_END`. -/
def eEnd : ℕ := 26

theorem Modules.ctorIdx_lt (m : Modules) : m.ctorIdx < eEnd := by
  cases m <;> decide

theorem Modules.id_range (m : Modules) : 0 ≤ m.id ∧ m.id < 26 := by
  cases m <;> decide

theorem Modules.id_inj {a b : Modules} : a.id = b.id ↔ a = b := by
  unfold Modules.id
  rw [Int.ofNat_inj]
  exact Modules.ctorIdx_injective.eq_iff

/-- `char *modnames[]`. -/
def modnames : List String := Modules.all.map Modules.modname

theorem modnames_length : modnames.length = eEnd := rfl

/-- `char *must[]`: the modules that run as cubicles. -/
def must : List String :=
  ["app.so", "libramfs.so", "libposix_sysinfo.so", "libdevfs.so",
    "libukbus.so", "liblinuxuplat.so", "libuktime.so", "libukswrand.so",
    "libuklibparam.so", "libukblkdev.so", "libuknetdev.so", "libfdt.so",
    "libvfscore.so", "libukboot.so", "libukalloc.so", "libposix_libdl.so",
    "liblwip.so"]

/-- `char *shared[]`: the modules every cubicle may execute. -/
def shared : List String :=
  ["libnewlibm.so", "libnewlibglue.so", "libnewlibc.so", "libnolibc.so",
    "libposix_process.so", "libposix_user.so", "libsyscall_shim.so",
    "libukdebug.so", "libukboot_main.so", "libpthread-embedded.so",
    "libukargparse.so", "libukmpi.so", "libuksglist.so", "libuktimeconv.so",
    "libuklock.so", "libukallocbbuddy.so", "lib9pfs.so", "libuk9p.so",
    "libuksched.so", "libukschedcoop.so", "libukmmap.so"]

theorem must_subset_modnames : ∀ n ∈ must, n ∈ modnames := by decide

theorem must_not_shared : ∀ n ∈ must, n ∉ shared := by decide

/-- `is_must`: a module in neither list stops the loader. -/
def isMust (module : String) : Outcome Bool :=
  if module ∈ must then .done true
  else if module ∈ shared then .done false
  else .spin

/-- `get_id`: the enumerator of a file name, `-1` when there is none. -/
def getId (name : String) : ℤ :=
  match modnames.findIdx? (· = name) with
  | some i => i
  | none => -1

theorem getId_modname (m : Modules) : getId m.modname = m.id := by
  cases m <;> decide

theorem Modules.modname_injective : Function.Injective Modules.modname := by
  intro a b h
  rw [← Modules.id_inj, ← getId_modname a, ← getId_modname b, h]

theorem getId_eq_neg_one_iff {name : String} :
    getId name = -1 ↔ name ∉ modnames := by
  unfold getId
  cases h : modnames.findIdx? (· = name) with
  | none =>
      rw [List.findIdx?_eq_none_iff] at h
      simp only [true_iff]
      intro hmem
      have := h name hmem
      simp at this
  | some i =>
      rw [List.findIdx?_eq_some_iff_getElem] at h
      obtain ⟨hi, hp, _⟩ := h
      have hmem : name ∈ modnames := by
        have := of_decide_eq_true hp
        rw [← this]
        exact List.getElem_mem hi
      constructor
      · intro h'
        have hneg : (i : ℤ) = -1 := h'
        omega
      · intro h'
        exact absurd hmem h'

/-! ## Builds and friends -/

/-- The builds of the Makefile and of the `#if`s: `SQLITE_FINAL` comes with or
without `SQLITE_3`. -/
inductive Build where
  | plain
  | sqlite (sqlite3 : Bool)
  | nginx
deriving DecidableEq, Repr

/-- `flist[]`. -/
def flist : Build → List Modules
  | .plain => []
  | .sqlite true => [.ukalloc, .ukboot, .vfscore, .ramfs]
  | .sqlite false => [.ukalloc, .ukboot, .vfscore]
  | .nginx => [.ukalloc, .app]

/-- The loop of `friends` over `flist`, with its two flags. -/
def friendsLoop (a b : Modules) : List Modules → Bool → Bool → Bool
  | [], _, _ => false
  | m :: ms, aOk, bOk =>
      let aOk := aOk || decide (m = a)
      let bOk := bOk || decide (m = b)
      if aOk && bOk then true else friendsLoop a b ms aOk bOk

/-- `friends(a, b)`: a call between friends needs no switch. -/
def friends (build : Build) (a b : Modules) : Bool :=
  if a = b then true
  else
    match build with
    | .plain => false
    | build => friendsLoop a b (flist build) false false

theorem friendsLoop_iff {a b : Modules} : ∀ (ms : List Modules) (aOk bOk : Bool),
    (aOk && bOk) = false →
      (friendsLoop a b ms aOk bOk = true ↔
        (aOk = true ∨ a ∈ ms) ∧ (bOk = true ∨ b ∈ ms))
  | [], aOk, bOk, h => by
      cases aOk <;> cases bOk <;> simp_all [friendsLoop]
  | m :: ms, aOk, bOk, h => by
      simp only [friendsLoop]
      split
      · rename_i hok
        simp only [Bool.and_eq_true, Bool.or_eq_true, decide_eq_true_eq] at hok
        simp only [true_iff, List.mem_cons]
        exact ⟨hok.1.imp_right fun h => Or.inl h.symm,
          hok.2.imp_right fun h => Or.inl h.symm⟩
      · rename_i hok
        rw [friendsLoop_iff ms _ _ (by simpa using hok)]
        simp only [Bool.or_eq_true, decide_eq_true_eq, List.mem_cons, or_assoc,
          eq_comm (a := m)]

/-- Friends are the members of one list, and everybody is its own friend. -/
theorem friends_iff {build : Build} {a b : Modules} :
    friends build a b = true ↔
      a = b ∨ (a ∈ flist build ∧ b ∈ flist build) := by
  unfold friends
  by_cases h : a = b
  · simp [h]
  · rw [if_neg h]
    cases build with
    | plain => simp [h, flist]
    | sqlite s =>
        simp only [h, false_or]
        rw [friendsLoop_iff _ _ _ rfl]
        simp
    | nginx =>
        simp only [h, false_or]
        rw [friendsLoop_iff _ _ _ rfl]
        simp

end CubicleOS
