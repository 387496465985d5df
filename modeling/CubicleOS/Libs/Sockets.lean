import CubicleOS.Libs.Vfs
import CubicleOS.Libs.IpcTables

/-!
# Sockets as files

`sock_fd_alloc` gives a socket of lwip a file of vfscore: it reserves a
descriptor, allocates the two structures that hold the socket, asks vfscore for
a vnode and a dentry, opens a window on the file and installs it. When a step
fails, a chain of labels undoes the steps before it.

Which step fails is part of the arguments: every allocation comes as the address
that the allocator returns, zero for `NULL`. The vnode comes back through a
static variable, for which each call writes an entry of the stack table of lwip
before anything else; no label takes that back. The flags of the file and the
type and the data of the vnode are left out.
-/

namespace CubicleOS

namespace Sockets

open Foundation

/-! ## §1  Descriptors -/

/-- `FDTABLE_MAX_FILES`. -/
def fdtableMaxFiles : ℕ := 1024

/-- The table of descriptors: those in use and their files, zero for `NULL`. A
descriptor that is not in use has none. -/
@[ext]
structure Fdtable where
  bitmap : Finset ℕ
  files : ℕ → UInt64
  unused : ∀ fd, fd ∉ bitmap → files fd = 0

/-- A descriptor that was reserved, and the table with it. -/
structure Reserved where
  fds : Fdtable
  fd : ℕ
  mem : fd ∈ fds.bitmap

namespace Fdtable

def reserve (t : Fdtable) (fd : ℕ) : Reserved where
  fds := {
    bitmap := insert fd t.bitmap
    files := t.files
    unused := fun fd' h => t.unused fd' fun hmem => h (Finset.mem_insert_of_mem hmem) }
  fd := fd
  mem := Finset.mem_insert_self fd t.bitmap

/-- `vfscore_alloc_fd`: the first bit that is zero, `none` for `-ENFILE`. -/
def vfscoreAllocFd (t : Fdtable) : Option Reserved :=
  ((List.range fdtableMaxFiles).find? fun fd => decide (fd ∉ t.bitmap)).map t.reserve

/-- The table part of `vfscore_put_fd`. -/
def clear (t : Fdtable) (fd : ℕ) : Fdtable where
  bitmap := t.bitmap.erase fd
  files := Function.update t.files fd 0
  unused := by
    intro fd' h
    by_cases heq : fd' = fd
    · rw [heq, Function.update_self]
    · rw [Function.update_of_ne heq]
      exact t.unused fd' fun hmem => h (Finset.mem_erase.mpr ⟨heq, hmem⟩)

end Fdtable

/-- `vfscore_install_fd` where it does not fail. The file is held before it is
stored and dropped after it, and there was none at the descriptor. -/
def Reserved.install (r : Reserved) (file : UInt64) : Fdtable where
  bitmap := r.fds.bitmap
  files := Function.update r.fds.files r.fd file
  unused := by
    intro fd h
    have hne : fd ≠ r.fd := by
      rintro rfl
      exact h r.mem
    rw [Function.update_of_ne hne]
    exact r.fds.unused fd h

/-! ## §2  Creation -/

/-- The two structures of a socket. -/
inductive Obj where
  | sockNetFile (vfscoreFile : UInt64) (sockFd : Int32)
  | vfscoreFile (fd fCount : ℕ) (fData fDentry : UInt64)
deriving DecidableEq, Repr

/-- `LWIP_ipc_tab_stack`. -/
abbrev StackTab : Type := Fin 6 → IpcStruct

def lwipIpcAddStack (tab : StackTab) (i : Fin 6) (begin : UInt64) (size mask : Int32) :
    StackTab :=
  Function.update tab i (ipcEntry begin size.toInt64.toUInt64 mask)

/-- vfscore, the descriptors, the structures that are allocated, the heap windows
and the stack windows of lwip, `pad1.s_vnode` and the inode counter. -/
structure State where
  vfs : Vfs.State
  fds : Fdtable
  objs : UInt64 → Option Obj
  tab : List IpcStruct
  stack : StackTab
  sVnode : UInt64
  sInode : UInt64

def State.put (s : State) (a : UInt64) (o : Obj) : State :=
  { s with objs := Function.update s.objs a (some o) }

/-- `uk_free`: there has to be something. -/
def State.ukFree (s : State) (a : UInt64) : Outcome State :=
  match s.objs a with
  | some _ => .done { s with objs := Function.update s.objs a none }
  | none => .wild

/-- The argument of `sock_fd_alloc`, what the allocations of the two structures,
the vnode and the dentry return, and whether the file cannot be installed. -/
structure SockArgs where
  sockFd : Int32
  file : UInt64
  vfsFile : UInt64
  vp : UInt64
  dp : UInt64
  installFails : Bool
deriving DecidableEq, Repr

def enfile : Int32 := 23

def enomem : Int32 := 12

def ebadf : Int32 := 9

/-- `sizeof(struct vfscore_file)`. -/
def vfscoreFileSize : UInt64 := 80

/-- `(1 << 17) | (1 << 21)`. -/
def fileWindowMask : Int32 := 0x220000

section Labels

-- what `fdrop` does to a file that is taken out of the table, the mount of all
-- sockets, and where `pad1.s_vnode` is
variable (fdrop : UInt64 → State → Outcome State) (sMount pad1 : UInt64)

/-- `vfscore_put_fd`. -/
def vfscorePutFd (r : Reserved) (s : State) : Outcome State :=
  let fp := r.fds.files r.fd
  let s := { s with fds := r.fds.clear r.fd }
  if fp ≠ 0 then fdrop fp s else .done s

def errExit (ret : Int32) (s : State) : Outcome (Int32 × State) :=
  (ukAssert (ret < 0)).bind fun _ => .done (ret, s)

def errMallocFile (r : Reserved) (ret : Int32) (s : State) : Outcome (Int32 × State) :=
  (vfscorePutFd fdrop r s).bind fun s => errExit ret s

def errMallocVfsFile (r : Reserved) (m : SockArgs) (ret : Int32) (s : State) :
    Outcome (Int32 × State) :=
  (s.ukFree m.file).bind fun s => errMallocFile fdrop r ret s

def errAllocVnode (r : Reserved) (m : SockArgs) (ret : Int32) (s : State) :
    Outcome (Int32 × State) :=
  (s.ukFree m.vfsFile).bind fun s => errMallocVfsFile fdrop r m ret s

def errAllocDentry (r : Reserved) (m : SockArgs) (vp : UInt64) (ret : Int32) (s : State) :
    Outcome (Int32 × State) :=
  (Vfs.vrele s.vfs vp).bind fun vfs => errAllocVnode fdrop r m ret { s with vfs := vfs }

def errVfsInstall (r : Reserved) (m : SockArgs) (vp dp : UInt64) (ret : Int32) (s : State) :
    Outcome (Int32 × State) :=
  (Vfs.drele s.vfs dp).bind fun vfs => errAllocDentry fdrop r m vp ret { s with vfs := vfs }

/-- From the window on the file on. -/
def sockInstall (r : Reserved) (m : SockArgs) (vp dp : UInt64) (s : State) :
    Outcome (Int32 × State) :=
  (lwipIpcAddHeap s.tab m.vfsFile vfscoreFileSize fileWindowMask).bind fun tab =>
    let s := ({ s with tab := tab }.put m.vfsFile (.vfscoreFile r.fd 1 m.file dp)).put m.file
      (.sockNetFile m.vfsFile m.sockFd)
    if m.installFails then errVfsInstall fdrop r m vp dp (-ebadf) s
    else
      -- only the dentry holds a reference on the vnode from here on
      (Vfs.vrele s.vfs vp).bind fun vfs =>
        .done (Int32.ofNat r.fd, { s with vfs := vfs, fds := r.install m.vfsFile })

/-- From the vnode on. A vnode that is found in the cache stops the machine. -/
def sockVnode (r : Reserved) (m : SockArgs) (s : State) : Outcome (Int32 × State) :=
  (ukAssert (Vfs.vnLookup s.vfs sMount s.sInode = none)).bind fun _ =>
  (Vfs.vfscoreVget s.vfs sMount s.sInode m.vp false).bind fun (vnode, vfs) =>
    let s := { s with vfs := vfs, sVnode := vnode.getD 0, sInode := s.sInode + 1 }
    match vnode with
    | none => errAllocVnode fdrop r m (-enomem) s
    | some vp =>
        (Vfs.dentryAlloc s.vfs 0 vp m.dp).bind fun (dentry, vfs) =>
          let s := { s with vfs := vfs }
          match dentry with
          | none => errAllocDentry fdrop r m vp (-enomem) s
          | some dp => sockInstall fdrop r m vp dp s

def sockFdAlloc (m : SockArgs) (s : State) : Outcome (Int32 × State) :=
  let s := { s with stack := lwipIpcAddStack s.stack 4 pad1 8 fileWindowMask }
  match s.fds.vfscoreAllocFd with
  | none => errExit (-enfile) s
  | some r =>
      let s := { s with fds := r.fds }
      if m.file = 0 then errMallocFile fdrop r (-enomem) s
      else
        let s := s.put m.file (.sockNetFile 0 0)
        if m.vfsFile = 0 then errMallocVfsFile fdrop r m (-enomem) s
        else sockVnode fdrop sMount r m (s.put m.vfsFile (.vfscoreFile 0 0 0 0))

end Labels

/-! ## §3  All or nothing -/

/-- Blocks that are allocated are not in use. -/
structure SockArgs.Fresh (m : SockArgs) (s : State) : Prop where
  file : s.objs m.file = none
  vfsFile : s.objs m.vfsFile = none
  apart : m.file ≠ m.vfsFile
  vnode : m.vp ∉ s.vfs.heap

/-- A descriptor and the two structures are there. -/
def SockArgs.Took (m : SockArgs) (s : State) : Prop :=
  (∃ fd < fdtableMaxFiles, fd ∉ s.fds.bitmap) ∧ m.file ≠ 0 ∧ m.vfsFile ≠ 0

/-- Nothing but the inode counter is left of the attempt, and no window of lwip on
the file that was freed. -/
structure Undone (m : SockArgs) (s s' : State) : Prop where
  restored : s' = { s with sInode := s'.sInode }
  closed : m.Took s → m.vfsFile ∉ openBegins s'.tab

section Chain

variable {fdrop : UInt64 → State → Outcome State} {sMount pad1 : UInt64} {m : SockArgs}
  {s s' : State} {r : Reserved} {ret ret' : Int32}

theorem vfscoreAllocFd_some {t : Fdtable} (h : t.vfscoreAllocFd = some r) :
    r.fds.files r.fd = 0 ∧ r.fds.clear r.fd = t ∧ r.fd < fdtableMaxFiles ∧ r.fd ∉ t.bitmap := by
  obtain ⟨fd, hfind, rfl⟩ := Option.map_eq_some_iff.mp h
  have hfree : fd ∉ t.bitmap := by simpa using List.find?_some hfind
  have hlt : fd < fdtableMaxFiles := List.mem_range.mp (List.mem_of_find?_eq_some hfind)
  refine ⟨t.unused fd hfree, ?_, hlt, hfree⟩
  apply Fdtable.ext
  · exact Finset.erase_insert hfree
  · change Function.update t.files fd 0 = t.files
    rw [← t.unused fd hfree, Function.update_eq_self]

theorem vfscoreAllocFd_none {t : Fdtable} (h : t.vfscoreAllocFd = none) :
    ∀ fd < fdtableMaxFiles, fd ∈ t.bitmap := by
  intro fd hlt
  have hnone := Option.map_eq_none_iff.mp h
  have hall := List.find?_eq_none.mp hnone fd (List.mem_range.mpr hlt)
  simpa using hall

theorem errExit_done (h : errExit ret s = .done (ret', s')) : s' = s := by
  obtain ⟨-, -, h⟩ := Outcome.bind_eq_done.mp h
  cases h
  rfl

/-- Each label takes back one step, and goes on with the next. -/
theorem errMallocFile_done (hr : r.fds.files r.fd = 0)
    (h : errMallocFile fdrop r ret s = .done (ret', s')) :
    s' = { s with fds := r.fds.clear r.fd } := by
  obtain ⟨s₁, hput, h⟩ := Outcome.bind_eq_done.mp h
  unfold vfscorePutFd at hput
  rw [hr] at hput
  cases hput
  exact errExit_done h

theorem ukFree_done {a : UInt64} (h : s.ukFree a = .done s') :
    s' = { s with objs := Function.update s.objs a none } := by
  unfold State.ukFree at h
  split at h
  · cases h
    rfl
  · cases h

theorem errMallocVfsFile_done (hr : r.fds.files r.fd = 0)
    (h : errMallocVfsFile fdrop r m ret s = .done (ret', s')) :
    s' = { s with fds := r.fds.clear r.fd, objs := Function.update s.objs m.file none } := by
  obtain ⟨s₁, hfree, h⟩ := Outcome.bind_eq_done.mp h
  rw [errMallocFile_done hr h, ukFree_done hfree]

theorem errAllocVnode_done (hr : r.fds.files r.fd = 0)
    (h : errAllocVnode fdrop r m ret s = .done (ret', s')) :
    s' = { s with
      fds := r.fds.clear r.fd
      objs := Function.update (Function.update s.objs m.vfsFile none) m.file none } := by
  obtain ⟨s₁, hfree, h⟩ := Outcome.bind_eq_done.mp h
  rw [errMallocVfsFile_done hr h, ukFree_done hfree]

theorem errAllocDentry_done {vp : UInt64} (hr : r.fds.files r.fd = 0)
    (h : errAllocDentry fdrop r m vp ret s = .done (ret', s')) :
    ∃ vfs, Vfs.vrele s.vfs vp = .done vfs ∧
      s' = { s with
        vfs := vfs
        fds := r.fds.clear r.fd
        objs := Function.update (Function.update s.objs m.vfsFile none) m.file none } := by
  obtain ⟨vfs, hvfs, h⟩ := Outcome.bind_eq_done.mp h
  exact ⟨vfs, hvfs, errAllocVnode_done hr h⟩

theorem errVfsInstall_tab {vp dp : UInt64} (hr : r.fds.files r.fd = 0)
    (h : errVfsInstall fdrop r m vp dp ret s = .done (ret', s')) : s'.tab = s.tab := by
  obtain ⟨vfs, -, h⟩ := Outcome.bind_eq_done.mp h
  obtain ⟨vfs', -, rfl⟩ := errAllocDentry_done hr h
  rfl

theorem erase_insert_heap {heap : Vfs.Heap} {a : UInt64} (h : a ∉ heap) (o : Vfs.Obj) :
    (heap.insert a o).erase a = heap := by
  apply AList.ext
  change (heap.insert a o).entries.kerase a = heap.entries
  rw [AList.entries_insert_of_notMem h]
  exact List.kerase_cons_eq rfl

/-- A vnode that was got and is released at once: only its window stays. -/
theorem vrele_vget {vfs vfs₁ vfs₂ : Vfs.State} {ino vp a : UInt64} (hfresh : vp ∉ vfs.heap)
    (hcache : Vfs.vnLookup vfs sMount ino = none)
    (hget : Vfs.vfscoreVget vfs sMount ino vp false = .done (some a, vfs₁))
    (hrele : Vfs.vrele vfs₁ a = .done vfs₂) :
    vfs₂ = { vfs with windows := insert vp vfs.windows } := by
  rcases Vfs.vfscoreVget_done hget with
    ⟨b, v, hfound, -, -⟩ | ⟨-, -, hnone⟩ | ⟨-, -, v, hone, ⟨hfails, -⟩ | ⟨-, hvfs₁⟩⟩
  · rw [hcache] at hfound
    cases hfound
  · cases hnone
  · cases hfails
  · cases hvfs₁
    obtain ⟨v', hv', hcase⟩ := Vfs.releaseVnode_done hrele
    have hlookup : (vfs.heap.insert vp (.vnode v)).lookup vp = some (.vnode v) :=
      AList.lookup_insert vfs.heap
    have hsame : v' = v := by
      have heq := hlookup.symm.trans hv'
      cases heq
      rfl
    subst hsame
    rcases hcase with ⟨hmany, -⟩ | ⟨-, rfl⟩
    · omega
    · have hheap := erase_insert_heap hfresh (.vnode v')
      have htable : (vp :: vfs.vnodeTable).erase vp = vfs.vnodeTable := List.erase_cons_head ..
      unfold Vfs.State.free
      dsimp only [Vfs.State.put, Vfs.State.vfsIpcAddHeap]
      rw [hheap, htable]

/-- A block that was allocated and freed. -/
theorem update_update_none {objs : UInt64 → Option Obj} {a : UInt64} (h : objs a = none)
    (o : Option Obj) : Function.update (Function.update objs a o) a none = objs := by
  rw [Function.update_idem, ← h, Function.update_eq_self]

/-- The structures go back as they came. -/
theorem objs_restored (hfresh : m.Fresh s) (o o' : Option Obj) :
    Function.update (Function.update (Function.update (Function.update s.objs m.file o)
      m.vfsFile o') m.vfsFile none) m.file none = s.objs := by
  have hvfs : Function.update s.objs m.file o m.vfsFile = none := by
    rw [Function.update_of_ne hfresh.apart.symm]
    exact hfresh.vfsFile
  rw [update_update_none hvfs, update_update_none hfresh.file]

/-- The window on the file is open once it was added, and only the labels behind
it can fail. -/
theorem sockInstall_done {vp dp : UInt64} (hr : r.fds.files r.fd = 0)
    (hlt : r.fd < fdtableMaxFiles) (h : sockInstall fdrop r m vp dp s = .done (ret, s'))
    (hret : ret < 0) : m.vfsFile ∈ openBegins s'.tab := by
  obtain ⟨tab, hadd, h⟩ := Outcome.bind_eq_done.mp h
  dsimp only at h
  split at h
  · rw [errVfsInstall_tab hr h]
    exact lwipIpcAddHeap_opens (by decide) hadd
  · obtain ⟨vfs, -, h⟩ := Outcome.bind_eq_done.mp h
    cases h
    have hnat : (Int32.ofNat r.fd).toInt = r.fd := by
      apply Int32.toInt_ofNat_of_lt
      unfold fdtableMaxFiles at hlt
      omega
    rw [Int32.lt_iff_toInt_lt, hnat] at hret
    simp at hret
    omega

/-- The three ways on from the vnode. -/
theorem sockVnode_done (h : sockVnode fdrop sMount r m s = .done (ret, s')) (hret : ret < 0)
    (hr : r.fds.files r.fd = 0) (hlt : r.fd < fdtableMaxFiles) (hvp : m.vp ∉ s.vfs.heap) :
    (m.vp = 0 ∧ s' = { s with
        fds := r.fds.clear r.fd
        objs := Function.update (Function.update s.objs m.vfsFile none) m.file none
        sVnode := 0
        sInode := s.sInode + 1 }) ∨
    (m.vp ≠ 0 ∧ m.dp = 0 ∧ s' = { s with
        vfs := { s.vfs with windows := insert m.vp s.vfs.windows }
        fds := r.fds.clear r.fd
        objs := Function.update (Function.update s.objs m.vfsFile none) m.file none
        sVnode := m.vp
        sInode := s.sInode + 1 }) ∨
    (m.vp ≠ 0 ∧ m.dp ≠ 0 ∧ m.vfsFile ∈ openBegins s'.tab) := by
  obtain ⟨_, hcache, h⟩ := Outcome.bind_eq_done.mp h
  have hcache := ukAssert_eq_done.mp hcache
  obtain ⟨⟨vnode, vfs₁⟩, hget, h⟩ := Outcome.bind_eq_done.mp h
  rcases Vfs.vfscoreVget_done hget with
    ⟨b, v, hfound, -, -⟩ | ⟨-, hnull, hr'⟩ | ⟨-, hvp0, v, hone, ⟨hfails, -⟩ | ⟨-, hr'⟩⟩
  · rw [hcache] at hfound
    cases hfound
  · cases hr'
    exact Or.inl ⟨hnull, errAllocVnode_done hr h⟩
  · cases hfails
  · obtain ⟨rfl, -⟩ := Prod.mk.inj hr'
    obtain ⟨⟨dentry, vfs₂⟩, halloc, h⟩ := Outcome.bind_eq_done.mp h
    rcases Vfs.dentryAlloc_done halloc with ⟨hdp, hr''⟩ | ⟨hdp, hr'', -⟩
    · cases hr''
      obtain ⟨vfs₃, hrele, rfl⟩ := errAllocDentry_done hr h
      have hvfs := vrele_vget hvp hcache hget hrele
      rw [hvfs]
      exact Or.inr (Or.inl ⟨hvp0, hdp, rfl⟩)
    · cases hr''
      exact Or.inr (Or.inr ⟨hvp0, hdp, sockInstall_done hr hlt h hret⟩)

/-- The entry that every call writes. -/
def vnodeWindow (pad1 : UInt64) : IpcStruct := ipcEntry pad1 8 fileWindowMask

/-- The state with that entry. -/
def State.entered (s : State) (pad1 : UInt64) : State :=
  { s with stack := lwipIpcAddStack s.stack 4 pad1 8 fileWindowMask }

theorem stack_kept_iff :
    lwipIpcAddStack s.stack 4 pad1 8 fileWindowMask = s.stack ↔ s.stack 4 = vnodeWindow pad1 :=
  Function.update_eq_self_iff.trans eq_comm

/-- What a call that fails leaves behind: it stops before the vnode, at the vnode,
at the dentry, or with the window on the file open. -/
theorem sockFdAlloc_fails (hfresh : m.Fresh s)
    (h : sockFdAlloc fdrop sMount pad1 m s = .done (ret, s')) (hret : ret < 0) :
    (¬ m.Took s ∧ s' = s.entered pad1) ∨
    (m.Took s ∧ m.vp = 0 ∧
      s' = { s.entered pad1 with sVnode := 0, sInode := s.sInode + 1 }) ∨
    (m.Took s ∧ m.vp ≠ 0 ∧ m.dp = 0 ∧ s' = { s.entered pad1 with
        vfs := { s.vfs with windows := insert m.vp s.vfs.windows }
        sVnode := m.vp
        sInode := s.sInode + 1 }) ∨
    (m.Took s ∧ m.vp ≠ 0 ∧ m.dp ≠ 0 ∧ m.vfsFile ∈ openBegins s'.tab) := by
  unfold sockFdAlloc at h
  dsimp only at h
  split at h
  · rename_i hfull
    have hno : ¬ m.Took s := by
      rintro ⟨⟨fd, hlt, hfree⟩, -⟩
      exact hfree (vfscoreAllocFd_none hfull fd hlt)
    exact Or.inl ⟨hno, errExit_done h⟩
  · rename_i r hr
    obtain ⟨hfile, hclear, hlt, hfree⟩ := vfscoreAllocFd_some hr
    split at h
    · rename_i hnull
      refine Or.inl ⟨fun htook => htook.2.1 hnull, ?_⟩
      rw [errMallocFile_done hfile h, hclear]
      rfl
    · rename_i hne
      split at h
      · rename_i hnull
        refine Or.inl ⟨fun htook => htook.2.2 hnull, ?_⟩
        rw [errMallocVfsFile_done hfile h, hclear]
        dsimp only [State.put]
        rw [update_update_none hfresh.file]
        rfl
      · rename_i hne'
        have htook : m.Took s := ⟨⟨r.fd, hlt, hfree⟩, hne, hne'⟩
        have hobjs := objs_restored hfresh (some (.sockNetFile 0 0)) (some (.vfscoreFile 0 0 0 0))
        rcases sockVnode_done h hret hfile hlt hfresh.vnode with
          ⟨hvp, rfl⟩ | ⟨hvp, hdp, rfl⟩ | ⟨hvp, hdp, hopen⟩
        · refine Or.inr (Or.inl ⟨htook, hvp, ?_⟩)
          dsimp only [State.put]
          rw [hclear, hobjs]
          rfl
        · refine Or.inr (Or.inr (Or.inl ⟨htook, hvp, hdp, ?_⟩))
          dsimp only [State.put]
          rw [hclear, hobjs]
          rfl
        · exact Or.inr (Or.inr (Or.inr ⟨htook, hvp, hdp, hopen⟩))

/-- **All or nothing.** When `sock_fd_alloc` fails, it has taken everything back,
and there is no window on the file that it freed, exactly if the stack window on
`pad1.s_vnode` was there before, and it did not get as far as the vnode, or
`vfscore_vget` failed and `pad1.s_vnode` was null, or `dentry_alloc` failed and
the window that stays on the vnode was open before, with `pad1.s_vnode` at it;
and, once the file was allocated, no old window was open at its address. -/
theorem sock_alloc_undone_iff (hfresh : m.Fresh s)
    (h : sockFdAlloc fdrop sMount pad1 m s = .done (ret, s')) (hret : ret < 0) :
    Undone m s s' ↔
      s.stack 4 = vnodeWindow pad1 ∧
        (m.Took s →
          (m.vp = 0 ∧ s.sVnode = 0 ∨ m.dp = 0 ∧ m.vp ∈ s.vfs.windows ∧ s.sVnode = m.vp) ∧
          m.vfsFile ∉ openBegins s.tab) := by
  rcases sockFdAlloc_fails hfresh h hret with
    ⟨hno, rfl⟩ | ⟨htook, hvp, rfl⟩ | ⟨htook, hvp, hdp, rfl⟩ | ⟨htook, hvp, hdp, hopen⟩
  · constructor
    · intro hundone
      exact ⟨stack_kept_iff.mp (congrArg State.stack hundone.restored),
        fun htook => absurd htook hno⟩
    · rintro ⟨hstack, -⟩
      refine ⟨?_, fun htook => absurd htook hno⟩
      unfold State.entered
      rw [stack_kept_iff.mpr hstack]
  · -- no vnode
    constructor
    · intro hundone
      have hnull : 0 = s.sVnode := congrArg State.sVnode hundone.restored
      exact ⟨stack_kept_iff.mp (congrArg State.stack hundone.restored),
        fun _ => ⟨Or.inl ⟨hvp, hnull.symm⟩, hundone.closed htook⟩⟩
    · rintro ⟨hstack, hcond⟩
      obtain ⟨hcase, hclosed⟩ := hcond htook
      have hnull : s.sVnode = 0 := by
        rcases hcase with ⟨-, hnull⟩ | ⟨-, -, hold⟩
        · exact hnull
        · rw [hold, hvp]
      refine ⟨?_, fun _ => hclosed⟩
      unfold State.entered
      rw [stack_kept_iff.mpr hstack, ← hnull]
  · -- no dentry: the vnode is gone, its window is not
    constructor
    · intro hundone
      have hwindows := congrArg (fun t => t.vfs.windows) hundone.restored
      have hold : m.vp = s.sVnode := congrArg State.sVnode hundone.restored
      exact ⟨stack_kept_iff.mp (congrArg State.stack hundone.restored),
        fun _ => ⟨Or.inr ⟨hdp, Finset.insert_eq_self.mp hwindows, hold.symm⟩,
          hundone.closed htook⟩⟩
    · rintro ⟨hstack, hcond⟩
      obtain ⟨⟨hvp0, -⟩ | ⟨-, hopen, hold⟩, hclosed⟩ := hcond htook
      · exact absurd hvp0 hvp
      · refine ⟨?_, fun _ => hclosed⟩
        unfold State.entered
        rw [stack_kept_iff.mpr hstack, Finset.insert_eq_self.mpr hopen, ← hold]
  · -- not installed: the window on the file is still open
    refine iff_of_false (fun hundone => hundone.closed htook hopen) fun hcond => ?_
    rcases (hcond.2 htook).1 with ⟨hvp0, -⟩ | ⟨hdp0, -⟩
    · exact hvp hvp0
    · exact hdp hdp0

end Chain

/-- The stack table as it is compiled. -/
def lwipStackInit : StackTab := fun i =>
  { begin := i.val.toUInt64, size := 0, mask := if i < 4 then 0x20800 else 0x220000 }

/-- No descriptor is in use and nothing is allocated. -/
def idle : State where
  vfs := Vfs.start
  fds := { bitmap := ∅, files := fun _ => 0, unused := fun _ _ => rfl }
  objs := fun _ => none
  tab := lwipInit
  stack := lwipStackInit
  sVnode := 0
  sInode := 7

/-- The arguments of a socket whose structure is at `file`, vnode at `vp` and
dentry at `dp`. -/
def sampleArgs (file vp dp : UInt64) (installFails : Bool) : SockArgs :=
  { sockFd := 3, file := file, vfsFile := 0x2000, vp := vp, dp := dp,
    installFails := installFails }

/-- `sock_fd_alloc` with `pad1` at `0x8000` and the mount at `0x9000`. -/
def attempt (file vp dp : UInt64) (installFails : Bool) :
    State → Outcome (Int32 × State) :=
  sockFdAlloc (fun _ s => .done s) 0x9000 0x8000 (sampleArgs file vp dp installFails)

/-- A socket was attempted before. -/
def idleAgain : State := idle.entered 0x8000

theorem sampleArgs_fresh (vp dp : UInt64) (installFails : Bool) :
    (sampleArgs 0x1000 vp dp installFails).Fresh idleAgain where
  file := rfl
  vfsFile := rfl
  apart := show (0x1000 : UInt64) ≠ 0x2000 by decide
  vnode := AList.notMem_empty vp

theorem idle_alloc : idle.fds.vfscoreAllocFd = some (idle.fds.reserve 0) := by
  unfold Fdtable.vfscoreAllocFd fdtableMaxFiles
  rw [List.range_succ_eq_map, List.find?_cons_of_pos (by decide)]
  rfl

theorem idleAgain_alloc : idleAgain.fds.vfscoreAllocFd = some (idle.fds.reserve 0) :=
  idle_alloc

theorem no_vnode_undone :
    ∃ s', attempt 0x1000 0 0x4000 false idleAgain = .done (-12, s') ∧
      Undone (sampleArgs 0x1000 0 0x4000 false) idleAgain s' := by
  have hrun : ∃ s', attempt 0x1000 0 0x4000 false idleAgain = .done (-12, s') := by
    unfold attempt sockFdAlloc
    dsimp only
    rw [idleAgain_alloc]
    exact ⟨_, rfl⟩
  obtain ⟨s', hs'⟩ := hrun
  refine ⟨s', hs', (sock_alloc_undone_iff (sampleArgs_fresh _ _ _) hs' (by decide)).mpr ?_⟩
  exact ⟨rfl, fun _ => ⟨Or.inl ⟨rfl, rfl⟩, by decide⟩⟩

/-- When the file cannot be installed the window on it stays, and when there is no
dentry that on the vnode. The first call leaves the stack window even if it gets
no memory at all. -/
theorem windows_left_behind :
    (∃ s', attempt 0x1000 0x3000 0x4000 true idleAgain = .done (-9, s') ∧
        s'.objs 0x2000 = none ∧ 0x2000 ∈ openBegins s'.tab ∧
        ¬ Undone (sampleArgs 0x1000 0x3000 0x4000 true) idleAgain s') ∧
      (∃ s', attempt 0x1000 0x3000 0 false idleAgain = .done (-12, s') ∧
        0x3000 ∉ s'.vfs.heap ∧ 0x3000 ∈ s'.vfs.windows ∧
        ¬ Undone (sampleArgs 0x1000 0x3000 0 false) idleAgain s') ∧
      ∃ s', attempt 0 0x3000 0x4000 false idle = .done (-12, s') ∧
        s'.stack 4 ≠ idle.stack 4 ∧ ¬ Undone (sampleArgs 0 0x3000 0x4000 false) idle s' := by
  refine ⟨?_, ?_, ?_⟩
  · have hrun : ∃ s', attempt 0x1000 0x3000 0x4000 true idleAgain = .done (-9, s') ∧
        s'.objs 0x2000 = none ∧ 0x2000 ∈ openBegins s'.tab := by
      unfold attempt sockFdAlloc
      dsimp only
      rw [idleAgain_alloc]
      exact ⟨_, rfl, rfl, by decide +kernel⟩
    obtain ⟨s', hs', hfreed, hopen⟩ := hrun
    refine ⟨s', hs', hfreed, hopen, fun hundone => hundone.closed ?_ hopen⟩
    exact ⟨⟨0, by decide, by decide⟩, by decide, by decide⟩
  · have hrun : ∃ s', attempt 0x1000 0x3000 0 false idleAgain = .done (-12, s') ∧
        0x3000 ∉ s'.vfs.heap ∧ 0x3000 ∈ s'.vfs.windows := by
      unfold attempt sockFdAlloc
      dsimp only
      rw [idleAgain_alloc]
      exact ⟨_, rfl, by decide, by decide⟩
    obtain ⟨s', hs', hfreed, hopen⟩ := hrun
    refine ⟨s', hs', hfreed, hopen, fun hundone => ?_⟩
    have hempty : s'.vfs.windows = ∅ := congrArg (fun t => t.vfs.windows) hundone.restored
    rw [hempty] at hopen
    exact absurd hopen (Finset.notMem_empty _)
  · have hrun : ∃ s', attempt 0 0x3000 0x4000 false idle = .done (-12, s') ∧
        s'.stack 4 ≠ idle.stack 4 := by
      unfold attempt sockFdAlloc
      dsimp only
      rw [idle_alloc]
      exact ⟨_, rfl, by decide⟩
    obtain ⟨s', hs', hstack⟩ := hrun
    exact ⟨s', hs', hstack, fun hundone =>
      hstack (congrArg (fun t => t.stack 4) hundone.restored)⟩

end Sockets

end CubicleOS
