import CubicleOS.Foundation.Machine
import Mathlib.Data.List.AList

/-!
# Vnodes, dentries and mounts of vfscore

vfscore opens a heap window on every vnode, dentry and mount that it allocates.
Vnodes and dentries are counted: a dentry holds a reference on its vnode and on
its parent, a mount holds one on its root and on the dentry it covers. Windows
are closed in one function only, `drele`, for the dentry that it frees and for
the vnode of that dentry; vnodes and mounts are freed elsewhere as well.

The objects are one heap, a finite map from addresses, and the windows are the
set of their begin addresses. Paths of dentries, names of vnodes, locks and
`m_count` are left out: nothing here reads them.
-/

namespace CubicleOS

namespace Vfs

open Foundation

/-! ## §1  Objects -/

structure Vnode where
  vIno : UInt64
  vMount : UInt64
  vRefcnt : ℕ
deriving DecidableEq, Repr

structure Dentry where
  dRefcnt : ℕ
  dVnode : UInt64
  dParent : UInt64
deriving DecidableEq, Repr

structure Mount where
  mPath : List UInt8
  mRoot : UInt64
  mCovered : UInt64
deriving DecidableEq, Repr

inductive Obj where
  | vnode (v : Vnode)
  | dentry (d : Dentry)
  | mount (m : Mount)
deriving DecidableEq, Repr

inductive Kind where
  | vnode | dentry | mount
deriving DecidableEq, Repr

def Obj.kind : Obj → Kind
  | .vnode _ => .vnode
  | .dentry _ => .dentry
  | .mount _ => .mount

/-- The live objects by their addresses. -/
abbrev Heap := AList fun _ : UInt64 => Obj

/-- `vnodeTable` are the vnodes that `vn_lookup` finds, all buckets in one. -/
structure State where
  heap : Heap
  vnodeTable : List UInt64
  mountList : List UInt64
  windows : Finset UInt64

/-- Nothing is allocated. -/
def start : State := { heap := ∅, vnodeTable := [], mountList := [], windows := ∅ }

namespace State

def put (s : State) (a : UInt64) (o : Obj) : State := { s with heap := s.heap.insert a o }

def free (s : State) (a : UInt64) : State := { s with heap := s.heap.erase a }

def vfsIpcAddHeap (s : State) (a : UInt64) : State := { s with windows := insert a s.windows }

def vfsIpcRemoveHeap (s : State) (a : UInt64) : State := { s with windows := s.windows.erase a }

def kind (s : State) (a : UInt64) : Option Kind := (s.heap.lookup a).map Obj.kind

/-- `v_refcnt` of a vnode. -/
def refs (s : State) (a : UInt64) : ℕ :=
  match s.heap.lookup a with
  | some (.vnode v) => v.vRefcnt
  | _ => 0

end State

/-- Every live object has its window, and nothing else has one. -/
def WindowsFollow (s : State) : Prop := ∀ a, a ∈ s.windows ↔ a ∈ s.heap

def vnodeAt (s : State) (a : UInt64) : Outcome Vnode :=
  match s.heap.lookup a with
  | some (.vnode v) => .done v
  | _ => .wild

def dentryAt (s : State) (a : UInt64) : Outcome Dentry :=
  match s.heap.lookup a with
  | some (.dentry d) => .done d
  | _ => .wild

/-! ## §2  Vnodes and dentries -/

def vref (s : State) (vp : UInt64) : Outcome State :=
  (ukAssert (vp ≠ 0)).bind fun _ =>
  (vnodeAt s vp).bind fun v =>
  (ukAssert (0 < v.vRefcnt)).bind fun _ =>
    .done (s.put vp (.vnode { v with vRefcnt := v.vRefcnt + 1 }))

/-- `vput` and `vrele` without their locks. -/
def releaseVnode (s : State) (vp : UInt64) : Outcome State :=
  (ukAssert (vp ≠ 0)).bind fun _ =>
  (vnodeAt s vp).bind fun v =>
  (ukAssert (0 < v.vRefcnt)).bind fun _ =>
    if v.vRefcnt - 1 > 0 then .done (s.put vp (.vnode { v with vRefcnt := v.vRefcnt - 1 }))
    else .done ({ s with vnodeTable := s.vnodeTable.erase vp }.free vp)

def vput : State → UInt64 → Outcome State := releaseVnode

def vrele : State → UInt64 → Outcome State := releaseVnode

def isVnodeOf (mp ino : UInt64) : Option Obj → Bool
  | some (.vnode v) => v.vMount = mp && v.vIno = ino
  | _ => false

def vnLookup (s : State) (mp ino : UInt64) : Option UInt64 :=
  s.vnodeTable.find? fun a => isVnodeOf mp ino (s.heap.lookup a)

/-- Returns `*vpp`. `vp` is what `malloc` returns and `fails` is whether
`VFS_VGET` does. -/
def vfscoreVget (s : State) (mp ino vp : UInt64) (fails : Bool) :
    Outcome (Option UInt64 × State) :=
  match vnLookup s mp ino with
  | some a =>
      (vnodeAt s a).bind fun v =>
        .done (some a, s.put a (.vnode { v with vRefcnt := v.vRefcnt + 1 }))
  | none =>
      if vp = 0 then .done (none, s)
      else
        let s := (s.put vp (.vnode { vIno := ino, vMount := mp, vRefcnt := 1 })).vfsIpcAddHeap vp
        if fails then .done (none, s.free vp)
        else .done (some vp, { s with vnodeTable := vp :: s.vnodeTable })

def dref (s : State) (dp : UInt64) : Outcome State :=
  (ukAssert (dp ≠ 0)).bind fun _ =>
  (dentryAt s dp).bind fun d =>
  (ukAssert (0 < d.dRefcnt)).bind fun _ =>
    .done (s.put dp (.dentry { d with dRefcnt := d.dRefcnt + 1 }))

/-- `dp` is what `calloc` returns; the parent may be `NULL`. -/
def dentryAlloc (s : State) (parent vp dp : UInt64) : Outcome (Option UInt64 × State) :=
  (vnodeAt s vp).bind fun _ =>
  if dp = 0 then .done (none, s)
  else
    (vref ((s.put dp (.dentry { dRefcnt := 0, dVnode := 0, dParent := 0 })).vfsIpcAddHeap dp)
      vp).bind fun s =>
    let s := s.put dp (.dentry { dRefcnt := 1, dVnode := vp, dParent := parent })
    (if parent ≠ 0 then dref s parent else .done s).bind fun s => .done (some dp, s)

/-- The body of `drele`; `self` is its call on the parent. The window of the
vnode is closed before the parent is released, the vnode is released after
it. -/
def dreleBody (self : State → UInt64 → Outcome State) (s : State) (dp : UInt64) :
    Outcome State :=
  (ukAssert (dp ≠ 0)).bind fun _ =>
  (dentryAt s dp).bind fun d =>
  (ukAssert (0 < d.dRefcnt)).bind fun _ =>
    let s := s.put dp (.dentry { d with dRefcnt := d.dRefcnt - 1 })
    if d.dRefcnt - 1 ≠ 0 then .done s
    else
      let s := s.vfsIpcRemoveHeap d.dVnode
      (if d.dParent ≠ 0 then self s d.dParent else .done s).bind fun s =>
      (vrele s d.dVnode).bind fun s => .done ((s.vfsIpcRemoveHeap dp).free dp)

def dreleWith : ℕ → State → UInt64 → Outcome State
  | 0 => fun _ _ => .spin
  | fuel + 1 => dreleBody (dreleWith fuel)

/-- A dentry is not visited twice, so the number of objects is fuel enough. -/
def drele (s : State) (dp : UInt64) : Outcome State := dreleWith (s.heap.keys.length + 1) s dp

/-- The dentries that a `drele` frees, each with its vnode: `dp` if this is its
last reference, then its parent if that was its last one, and so on. -/
def dyingWith : ℕ → Heap → UInt64 → List (UInt64 × UInt64)
  | 0, _, _ => []
  | fuel + 1, heap, dp =>
      match heap.lookup dp with
      | some (.dentry d) =>
          if d.dRefcnt = 1 then
            (dp, d.dVnode) ::
              (if d.dParent ≠ 0 then
                dyingWith fuel (heap.insert dp (.dentry { d with dRefcnt := 0 })) d.dParent
              else [])
          else []
      | _ => []

def dying (s : State) (dp : UInt64) : List (UInt64 × UInt64) :=
  dyingWith (s.heap.keys.length + 1) s.heap dp

/-! ## §3  Mounts -/

/-- What `mount` and `umount2` return. `fs` is the file system's own error and
`stale` whatever `error` held before. -/
inductive Errno where
  | ok | enoent | enodev | ebusy | enomem | enotdir | einval | enametoolong | fs | stale
deriving DecidableEq, Repr

/-- The arguments of `mount` and what it is answered: whether `fs_getfs` knows
the file system, the address of the mount, the dentry that `namei` finds and
whether its vnode is a directory, the addresses of the root vnode and the root
dentry, and whether `VFS_VGET` and `VFS_MOUNT` fail. -/
structure MountArgs where
  dev : Option (List UInt8)
  dir : List UInt8
  known : Bool
  mp : UInt64
  namei : Option UInt64
  isDir : Bool
  vp : UInt64
  vgetFails : Bool
  dp : UInt64
  mountFails : Bool
deriving DecidableEq, Repr

def pathMax : ℕ := 4096

/-- `/`. -/
def rootPath : List UInt8 := [47]

/-- `/dev/`. -/
def devPrefix : List UInt8 := [47, 100, 101, 118, 47]

/-- The mount with that path in the mount list. -/
def findMount (s : State) (path : List UInt8) : Option UInt64 :=
  s.mountList.find? fun a =>
    match s.heap.lookup a with
    | some (.mount m) => m.mPath = path
    | _ => false

/-- From label `err3` to `err2`. -/
def mountErr3 (s : State) (covered : UInt64) (error : Errno) : Outcome (Errno × State) :=
  (if covered ≠ 0 then drele s covered else .done s).bind fun s => .done (error, s)

/-- `VFS_MOUNT`, when there is a root dentry. -/
def mountFs (s : State) (m : MountArgs) (covered : UInt64) :
    Option UInt64 → Outcome (Errno × State)
  | none => mountErr3 s covered .stale
  | some root =>
      if m.mountFails then (drele s root).bind fun s => mountErr3 s covered .fs
      else
        .done (.ok, s.put m.mp (.mount
          { mPath := m.dir.take (pathMax - 1), mRoot := root, mCovered := covered }))

/-- The root vnode and the root dentry. `vput` comes with or without the
dentry. -/
def mountRoot (s : State) (m : MountArgs) (covered : UInt64) : Outcome (Errno × State) :=
  (vfscoreVget s m.mp 0 m.vp m.vgetFails).bind fun
    | (none, s) => mountErr3 s covered .enomem
    | (some vp, s) =>
        (dentryAlloc s 0 vp m.dp).bind fun r =>
        (vput r.2 vp).bind fun s => mountFs s m covered r.1

/-- The covered dentry. `namei` answers with it and takes a reference on it, as it
does for a path that is cached. Its walk along any other path is made of `dref`,
`vfscore_vget`, `dentry_alloc`, `vput` and `drele` on these objects; a run has
these as calls of their own, each with its own effect on the windows. -/
def mountCovered (s : State) (m : MountArgs) : Outcome (Errno × State) :=
  if m.dir = rootPath then mountRoot s m 0
  else
    match m.namei with
    | none => .done (.enoent, s)
    | some dp =>
        (dentryAt s dp).bind fun d =>
          let s := s.put dp (.dentry { d with dRefcnt := d.dRefcnt + 1 })
          (vnodeAt s d.dVnode).bind fun _ =>
            if m.isDir then mountRoot s m dp else mountErr3 s dp .enotdir

/-- Devices cannot be opened: `device_open` is a `UK_CRASH`. -/
def mount (s : State) (m : MountArgs) : Outcome (Errno × State) :=
  if m.dir = [] then .done (.enoent, s)
  else if !m.known then .done (.enodev, s)
  else if m.dev.any fun dev => devPrefix.isPrefixOf dev then .spin
  else if (findMount s m.dir).isSome then .done (.ebusy, s)
  else if m.mp = 0 then .done (.enomem, s)
  else if m.dev = none then .wild
  else
    (mountCovered ((s.put m.mp (.mount
      { mPath := m.dir.take (pathMax - 1), mRoot := 0, mCovered := 0 })).vfsIpcAddHeap m.mp)
      m).bind fun r =>
      if r.1 = .ok then .done (.ok, { r.2 with mountList := r.2.mountList ++ [m.mp] })
      else .done (r.1, r.2.free m.mp)

def vfscoreReleaseMpDentries (s : State) (m : Mount) : Outcome State :=
  (if m.mCovered ≠ 0 then drele s m.mCovered else .done s).bind fun s => drele s m.mRoot

/-- `VFS_UNMOUNT` fails, or it is `vfscore_release_mp_dentries`. -/
def umount2 (s : State) (path : List UInt8) (force fails : Bool) : Outcome (Errno × State) :=
  if path.length ≥ pathMax then .done (.enametoolong, s)
  else
    match findMount s path with
    | none => .done (.einval, s)
    | some mp =>
        match s.heap.lookup mp with
        | some (.mount m) =>
            if m.mCovered = 0 ∧ !force then .done (.einval, s)
            else if fails then .done (.fs, s)
            else
              (vfscoreReleaseMpDentries s m).bind fun s =>
                .done (.ok, { s with mountList := s.mountList.erase mp }.free mp)
        | _ => .wild

/-! ## §4  Runs -/

inductive Call where
  | vfscoreVget (mp ino vp : UInt64) (fails : Bool)
  | vref (vp : UInt64)
  | vrele (vp : UInt64)
  | vput (vp : UInt64)
  | dentryAlloc (parent vp dp : UInt64)
  | dref (dp : UInt64)
  | drele (dp : UInt64)
  | mount (m : MountArgs)
  | umount2 (path : List UInt8) (force fails : Bool)
deriving DecidableEq, Repr

def step (s : State) : Call → Outcome State
  | .vfscoreVget mp ino vp fails => (vfscoreVget s mp ino vp fails).bind fun r => .done r.2
  | .vref vp => vref s vp
  | .vrele vp => vrele s vp
  | .vput vp => vput s vp
  | .dentryAlloc parent vp dp => (dentryAlloc s parent vp dp).bind fun r => .done r.2
  | .dref dp => dref s dp
  | .drele dp => drele s dp
  | .mount m => (mount s m).bind fun r => .done r.2
  | .umount2 path force fails => (umount2 s path force fails).bind fun r => .done r.2

/-- The addresses that the allocator returns during a call. -/
def Call.allocs : Call → List UInt64
  | .vfscoreVget _ _ vp _ => [vp]
  | .dentryAlloc _ _ dp => [dp]
  | .mount m => [m.mp, m.vp, m.dp]
  | _ => []

/-- They are fresh, unless they are `NULL`. -/
def Fresh (s : State) (c : Call) : Prop :=
  c.allocs.Pairwise (fun a b => a ≠ 0 → a ≠ b) ∧ ∀ a ∈ c.allocs, a ≠ 0 → a ∉ s.heap

-- not by trying all addresses
instance (s : State) (c : Call) : Decidable (Fresh s c) :=
  @instDecidableAnd _ _ inferInstance (List.decidableBAll _ c.allocs)

/-- A vnode for that number is there, or can be made. -/
def Vgets (s : State) (mp ino vp : UInt64) (fails : Bool) : Prop :=
  vnLookup s mp ino ≠ none ∨ (vp ≠ 0 ∧ fails = false)

instance (s : State) (mp ino vp : UInt64) (fails : Bool) : Decidable (Vgets s mp ino vp fails) :=
  inferInstanceAs (Decidable (_ ∨ _))

/-- Nothing fails in `mount` after its `malloc`. -/
def Mounts (s : State) (m : MountArgs) : Prop :=
  (m.dir = rootPath ∨ (m.namei ≠ none ∧ m.isDir = true)) ∧
    Vgets s m.mp 0 m.vp m.vgetFails ∧ m.dp ≠ 0 ∧ m.mountFails = false

instance (s : State) (m : MountArgs) : Decidable (Mounts s m) :=
  inferInstanceAs (Decidable (_ ∧ _))

/-- `m_covered` of a mount. -/
def coveredAt (s : State) (mp : UInt64) : Option UInt64 :=
  match s.heap.lookup mp with
  | some (.mount m) => some m.mCovered
  | _ => none

/-- `umount2` stops at one of its checks or at `VFS_UNMOUNT`. -/
def StaysMounted (s : State) (path : List UInt8) (force fails : Bool) : Prop :=
  path.length ≥ pathMax ∨ fails = true ∨ ∀ mp ∈ findMount s path,
    ∀ covered ∈ coveredAt s mp, covered = 0 ∧ force = false

instance (s : State) (path : List UInt8) (force fails : Bool) :
    Decidable (StaysMounted s path force fails) :=
  decidable_of_iff (path.length ≥ pathMax ∨ fails = true ∨
    (findMount s path).all (fun mp => (coveredAt s mp).all
      fun covered => decide (covered = 0 ∧ force = false)) = true)
    (by simp [StaysMounted, Option.all_eq_true])

/-- The calls after which windows still follow the objects. A vnode is freed
only by `drele`, together with the last dentries on it, and these are freed
only together with it; a mount is never freed. -/
def Tended (s : State) : Call → Prop
  | .vfscoreVget mp ino vp fails => vp ≠ 0 → Vgets s mp ino vp fails
  | .vrele vp => s.refs vp ≠ 1
  | .vput vp => s.refs vp ≠ 1
  | .drele dp =>
      ∀ a ∈ (dying s dp).map Prod.snd, s.refs a = ((dying s dp).map Prod.snd).count a
  | .mount m =>
      m.dir = [] ∨ m.known = false ∨ (findMount s m.dir).isSome ∨ m.mp = 0 ∨ Mounts s m
  | .umount2 path force fails => StaysMounted s path force fails
  | _ => True

instance (s : State) : (c : Call) → Decidable (Tended s c)
  | .vfscoreVget _ _ _ _ => inferInstanceAs (Decidable (_ → _))
  | .vref _ => isTrue trivial
  | .vrele _ => inferInstanceAs (Decidable (_ ≠ _))
  | .vput _ => inferInstanceAs (Decidable (_ ≠ _))
  | .dentryAlloc _ _ _ => isTrue trivial
  | .dref _ => isTrue trivial
  | .drele dp => List.decidableBAll _ ((dying s dp).map Prod.snd)
  | .mount _ => inferInstanceAs (Decidable (_ ∨ _))
  | .umount2 path force fails => inferInstanceAs (Decidable (StaysMounted s path force fails))

/-! ## §5  Reading and writing the heap -/

section Heap

variable {s s' : State} {a b : UInt64} {o : Obj}

@[simp] theorem put_windows : (s.put a o).windows = s.windows := rfl

@[simp] theorem add_heap : (s.vfsIpcAddHeap a).heap = s.heap := rfl

@[simp] theorem remove_heap : (s.vfsIpcRemoveHeap a).heap = s.heap := rfl

@[simp] theorem mem_put : b ∈ (s.put a o).heap ↔ b = a ∨ b ∈ s.heap := AList.mem_insert s.heap

@[simp] theorem mem_free : b ∈ (s.free a).heap ↔ b ≠ a ∧ b ∈ s.heap := AList.mem_erase

theorem lookup_put_self : (s.put a o).heap.lookup a = some o := AList.lookup_insert s.heap

theorem lookup_put_ne (h : b ≠ a) : (s.put a o).heap.lookup b = s.heap.lookup b :=
  AList.lookup_insert_ne h

theorem kind_put_self : (s.put a o).kind a = some o.kind := by
  rw [State.kind, lookup_put_self]
  rfl

theorem kind_put_ne (h : b ≠ a) : (s.put a o).kind b = s.kind b := by
  rw [State.kind, lookup_put_ne h]
  rfl

theorem kind_free_ne (h : b ≠ a) : (s.free a).kind b = s.kind b :=
  congrArg (Option.map Obj.kind) (AList.lookup_erase_ne h)

theorem refs_put_ne (h : b ≠ a) : (s.put a o).refs b = s.refs b := by
  unfold State.refs
  rw [lookup_put_ne h]

theorem refs_put_vnode {v : Vnode} : (s.put a (.vnode v)).refs a = v.vRefcnt := by
  unfold State.refs
  rw [lookup_put_self]

theorem refs_free_ne (h : b ≠ a) : (s.free a).refs b = s.refs b := by
  unfold State.refs State.free
  rw [AList.lookup_erase_ne h]

theorem mem_of_kind {k : Kind} (h : s.kind a = some k) : a ∈ s.heap := by
  obtain ⟨o, ho, -⟩ := Option.map_eq_some_iff.mp h
  exact AList.lookup_isSome.mp (by rw [ho]; rfl)

/-- An object changes in place. -/
theorem kind_put_same (h : s.kind a = some o.kind) : (s.put a o).kind b = s.kind b := by
  by_cases hb : b = a
  · rw [hb, kind_put_self, h]
  · exact kind_put_ne hb

theorem mem_put_same (h : a ∈ s.heap) : b ∈ (s.put a o).heap ↔ b ∈ s.heap := by
  rw [mem_put]
  exact ⟨fun hb => hb.elim (fun hba => hba ▸ h) id, Or.inr⟩

/-- What is not a vnode has no `v_refcnt`. -/
theorem refs_put_dentry {d : Dentry} (h : s.kind a = some .dentry) :
    (s.put a (.dentry d)).refs b = s.refs b := by
  by_cases hb : b = a
  · obtain ⟨o, ho, hk⟩ := Option.map_eq_some_iff.mp h
    unfold State.refs
    rw [hb, lookup_put_self, ho]
    cases o with
    | dentry d => rfl
    | vnode v => cases hk
    | mount m => cases hk
  · exact refs_put_ne hb

theorem vnodeAt_eq_done {v : Vnode} :
    vnodeAt s a = .done v ↔ s.heap.lookup a = some (.vnode v) := by
  unfold vnodeAt
  split <;> simp_all

theorem dentryAt_eq_done {d : Dentry} :
    dentryAt s a = .done d ↔ s.heap.lookup a = some (.dentry d) := by
  unfold dentryAt
  split <;> simp_all

theorem kind_of_vnode {v : Vnode} (h : s.heap.lookup a = some (.vnode v)) :
    s.kind a = some .vnode := by
  rw [State.kind, h]
  rfl

theorem kind_of_dentry {d : Dentry} (h : s.heap.lookup a = some (.dentry d)) :
    s.kind a = some .dentry := by
  rw [State.kind, h]
  rfl

theorem not_mount_of_vnode {v : Vnode} (h : s.heap.lookup a = some (.vnode v)) :
    s.kind a ≠ some .mount := by
  simp [kind_of_vnode h]

theorem not_mount_of_dentry {d : Dentry} (h : s.heap.lookup a = some (.dentry d)) :
    s.kind a ≠ some .mount := by
  simp [kind_of_dentry h]

theorem not_mount_of_fresh (h : a ∉ s.heap) : s.kind a ≠ some .mount :=
  fun hk => h (mem_of_kind hk)

theorem refs_of_vnode {v : Vnode} (h : s.heap.lookup a = some (.vnode v)) :
    s.refs a = v.vRefcnt := by
  rw [State.refs, h]

end Heap

/-! ### Windows -/

namespace WindowsFollow

variable {s : State} {a : UInt64}

/-- A new object gets its window. -/
theorem add (h : WindowsFollow s) (a : UInt64) (o : Obj) :
    WindowsFollow ((s.put a o).vfsIpcAddHeap a) := by
  intro b
  show b ∈ insert a s.windows ↔ b ∈ (s.put a o).heap
  rw [Finset.mem_insert, mem_put, h b]

/-- An object changes in place. -/
theorem put (h : WindowsFollow s) (ha : a ∈ s.heap) (o : Obj) : WindowsFollow (s.put a o) := by
  intro b
  rw [mem_put_same ha]
  exact h b

/-- What is freed with its window open leaves it behind. -/
theorem not_free (h : a ∈ s.windows) : ¬ WindowsFollow (s.free a) := by
  intro hfollow
  exact (mem_free.mp ((hfollow a).mp h)).1 rfl

end WindowsFollow

/-! ## §6  Single calls -/

section Calls

variable {s s' : State} {vp dp : UInt64}

theorem vref_done (h : vref s vp = .done s') :
    ∃ v, s.heap.lookup vp = some (.vnode v) ∧
      s' = s.put vp (.vnode { v with vRefcnt := v.vRefcnt + 1 }) := by
  obtain ⟨-, -, h⟩ := Outcome.bind_eq_done.mp h
  obtain ⟨v, hv, h⟩ := Outcome.bind_eq_done.mp h
  obtain ⟨-, -, h⟩ := Outcome.bind_eq_done.mp h
  cases h
  exact ⟨v, vnodeAt_eq_done.mp hv, rfl⟩

theorem dref_done (h : dref s dp = .done s') :
    ∃ d, s.heap.lookup dp = some (.dentry d) ∧
      s' = s.put dp (.dentry { d with dRefcnt := d.dRefcnt + 1 }) := by
  obtain ⟨-, -, h⟩ := Outcome.bind_eq_done.mp h
  obtain ⟨d, hd, h⟩ := Outcome.bind_eq_done.mp h
  obtain ⟨-, -, h⟩ := Outcome.bind_eq_done.mp h
  cases h
  exact ⟨d, dentryAt_eq_done.mp hd, rfl⟩

/-- The last reference frees the vnode. -/
theorem releaseVnode_done (h : releaseVnode s vp = .done s') :
    ∃ v, s.heap.lookup vp = some (.vnode v) ∧
      ((1 < v.vRefcnt ∧ s' = s.put vp (.vnode { v with vRefcnt := v.vRefcnt - 1 })) ∨
        (v.vRefcnt = 1 ∧ s' = { s with vnodeTable := s.vnodeTable.erase vp }.free vp)) := by
  obtain ⟨-, -, h⟩ := Outcome.bind_eq_done.mp h
  obtain ⟨v, hv, h⟩ := Outcome.bind_eq_done.mp h
  obtain ⟨_, hpos, h⟩ := Outcome.bind_eq_done.mp h
  have hpos := ukAssert_eq_done.mp hpos
  refine ⟨v, vnodeAt_eq_done.mp hv, ?_⟩
  split at h
  · cases h
    exact Or.inl ⟨by omega, rfl⟩
  · cases h
    exact Or.inr ⟨by omega, rfl⟩

/-- One reference on the vnode is gone, and the vnode with the last one. -/
theorem releaseVnode_effect (h : releaseVnode s vp = .done s') :
    s.kind vp = some .vnode ∧ s'.windows = s.windows ∧
      (∀ a, a ∈ s'.heap ↔ a ∈ s.heap ∧ ¬ (a = vp ∧ s.refs a = 1)) ∧
      ∀ a ∈ s'.heap, s'.kind a = s.kind a ∧ s'.refs a + [vp].count a = s.refs a := by
  obtain ⟨v, hv, ⟨hmore, rfl⟩ | ⟨hlast, rfl⟩⟩ := releaseVnode_done h
  · have hk := kind_of_vnode hv
    have hr := refs_of_vnode hv
    refine ⟨hk, rfl, fun a => ?_, fun a _ => ⟨kind_put_same hk, ?_⟩⟩
    · rw [mem_put_same (mem_of_kind hk), iff_self_and]
      rintro - ⟨rfl, hone⟩
      omega
    · by_cases ha : a = vp
      · rw [ha, refs_put_vnode, hr, List.count_singleton_self]
        show v.vRefcnt - 1 + 1 = v.vRefcnt
        omega
      · rw [refs_put_ne ha, List.count_eq_zero_of_not_mem (by simpa using ha)]
        rfl
  · have hr := refs_of_vnode hv
    refine ⟨kind_of_vnode hv, rfl, fun a => ?_, fun a ha => ?_⟩
    · rw [mem_free, and_comm]
      refine and_congr_right fun _ => not_congr ⟨fun ha => ⟨ha, ?_⟩, And.left⟩
      rw [ha, hr, hlast]
    · have hne := (mem_free.mp ha).1
      refine ⟨kind_free_ne hne, ?_⟩
      rw [refs_free_ne hne, List.count_eq_zero_of_not_mem (by simpa using hne)]
      rfl

theorem releaseVnode_follow_iff (hf : WindowsFollow s) (h : releaseVnode s vp = .done s') :
    WindowsFollow s' ↔ s.refs vp ≠ 1 := by
  obtain ⟨v, hv, ⟨hmore, rfl⟩ | ⟨hlast, rfl⟩⟩ := releaseVnode_done h
  · have hlive := mem_of_kind (kind_of_vnode hv)
    rw [refs_of_vnode hv]
    exact iff_of_true (hf.put hlive _) hmore.ne'
  · rw [refs_of_vnode hv]
    refine iff_of_false ?_ (fun hne => hne hlast)
    exact WindowsFollow.not_free ((hf vp).mpr (mem_of_kind (kind_of_vnode hv)))

/-- What `vfscore_vget` does: a vnode is found, or there is no memory for one,
or one is made, and lost again when `VFS_VGET` fails. -/
theorem vfscoreVget_done {mp ino : UInt64} {fails : Bool} {r : Option UInt64 × State}
    (h : vfscoreVget s mp ino vp fails = .done r) :
    (∃ a v, vnLookup s mp ino = some a ∧ s.heap.lookup a = some (.vnode v) ∧
      r = (some a, s.put a (.vnode { v with vRefcnt := v.vRefcnt + 1 }))) ∨
    (vnLookup s mp ino = none ∧ vp = 0 ∧ r = (none, s)) ∨
    (vnLookup s mp ino = none ∧ vp ≠ 0 ∧ ∃ v : Vnode, v.vRefcnt = 1 ∧
      ((fails = true ∧ r = (none, ((s.put vp (.vnode v)).vfsIpcAddHeap vp).free vp)) ∨
        (fails = false ∧ r = (some vp, { (s.put vp (.vnode v)).vfsIpcAddHeap vp with
          vnodeTable := vp :: s.vnodeTable })))) := by
  unfold vfscoreVget at h
  split at h
  · next a ha =>
      obtain ⟨v, hv, h⟩ := Outcome.bind_eq_done.mp h
      cases h
      exact Or.inl ⟨a, v, ha, vnodeAt_eq_done.mp hv, rfl⟩
  · next hnone =>
      split at h
      · next hvp =>
          cases h
          exact Or.inr (Or.inl ⟨hnone, hvp, rfl⟩)
      · next hvp =>
          refine Or.inr (Or.inr ⟨hnone, hvp, ⟨ino, mp, 1⟩, rfl, ?_⟩)
          cases fails with
          | true =>
              cases h
              exact Or.inl ⟨rfl, rfl⟩
          | false =>
              cases h
              exact Or.inr ⟨rfl, rfl⟩

theorem vfscoreVget_follow_iff (hf : WindowsFollow s) {mp ino : UInt64} {fails : Bool}
    {r : Option UInt64 × State} (h : vfscoreVget s mp ino vp fails = .done r) :
    WindowsFollow r.2 ↔ (vp ≠ 0 → Vgets s mp ino vp fails) := by
  obtain ⟨a, v, ha, hv, rfl⟩ | ⟨hnone, rfl, rfl⟩ | ⟨hnone, hvp, v, -, ⟨rfl, rfl⟩ | ⟨rfl, rfl⟩⟩ :=
    vfscoreVget_done h
  · refine iff_of_true (hf.put (mem_of_kind (kind_of_vnode hv)) _) fun _ => Or.inl ?_
    rw [ha]
    exact Option.some_ne_none a
  · exact iff_of_true hf fun hne => absurd rfl hne
  · refine iff_of_false (WindowsFollow.not_free (Finset.mem_insert_self vp s.windows)) ?_
    intro hvget
    rcases hvget hvp with hfound | ⟨-, hok⟩
    · exact hfound hnone
    · cases hok
  · exact iff_of_true (hf.add vp (.vnode v)) fun _ => Or.inr ⟨hvp, rfl⟩

/-- A dentry is made, or there is no memory for one. -/
theorem dentryAlloc_done {parent : UInt64} {r : Option UInt64 × State}
    (h : dentryAlloc s parent vp dp = .done r) :
    (dp = 0 ∧ r = (none, s)) ∨ (dp ≠ 0 ∧ r.1 = some dp ∧ ∃ v,
      let s₁ := (s.put dp (.dentry ⟨0, 0, 0⟩)).vfsIpcAddHeap dp
      let s₂ := (s₁.put vp (.vnode { v with vRefcnt := v.vRefcnt + 1 })).put dp
        (.dentry ⟨1, vp, parent⟩)
      s₁.heap.lookup vp = some (.vnode v) ∧
        ((parent = 0 ∧ r.2 = s₂) ∨ (parent ≠ 0 ∧ dref s₂ parent = .done r.2))) := by
  obtain ⟨-, -, h⟩ := Outcome.bind_eq_done.mp h
  split at h
  · next hdp =>
      cases h
      exact Or.inl ⟨hdp, rfl⟩
  · next hdp =>
      obtain ⟨s₂, hs₂, h⟩ := Outcome.bind_eq_done.mp h
      obtain ⟨v, hv, rfl⟩ := vref_done hs₂
      obtain ⟨s₃, hs₃, h⟩ := Outcome.bind_eq_done.mp h
      cases h
      refine Or.inr ⟨hdp, rfl, v, hv, ?_⟩
      split at hs₃
      · next hparent => exact Or.inr ⟨hparent, hs₃⟩
      · next hparent =>
          cases hs₃
          exact Or.inl ⟨not_not.mp hparent, rfl⟩

theorem dref_follow (hf : WindowsFollow s) (h : dref s dp = .done s') : WindowsFollow s' := by
  obtain ⟨d, hd, rfl⟩ := dref_done h
  exact hf.put (mem_of_kind (kind_of_dentry hd)) _

theorem dentryAlloc_follow (hf : WindowsFollow s) {parent : UInt64}
    {r : Option UInt64 × State} (h : dentryAlloc s parent vp dp = .done r) :
    WindowsFollow r.2 := by
  obtain ⟨-, rfl⟩ | ⟨-, -, v, hv, hparent⟩ := dentryAlloc_done h
  · exact hf
  · have hmade := ((hf.add dp (.dentry ⟨0, 0, 0⟩)).put (mem_of_kind (kind_of_vnode hv))
      (.vnode { v with vRefcnt := v.vRefcnt + 1 })).put
      (mem_put.mpr (Or.inr (mem_put.mpr (Or.inl rfl)))) (.dentry ⟨1, vp, parent⟩)
    rcases hparent with ⟨-, hr⟩ | ⟨-, hdref⟩
    · rw [hr]
      exact hmade
    · exact dref_follow hmade hdref

end Calls

/-! ### Releasing a dentry -/

/-- The state after the dentries `F` were freed and their vnodes released. -/
structure Released (s s' : State) (F : List (UInt64 × UInt64)) : Prop where
  windows : ∀ a, a ∈ s'.windows ↔
    a ∈ s.windows ∧ a ∉ F.map Prod.fst ∧ a ∉ F.map Prod.snd
  live : ∀ a, a ∈ s'.heap ↔ a ∈ s.heap ∧ a ∉ F.map Prod.fst ∧
    ¬ (a ∈ F.map Prod.snd ∧ s.refs a = (F.map Prod.snd).count a)
  kind : ∀ a ∈ s'.heap, s'.kind a = s.kind a
  refs : ∀ a ∈ s'.heap, s'.refs a + (F.map Prod.snd).count a = s.refs a
  dentry : ∀ a ∈ F.map Prod.fst, s.kind a = some .dentry
  vnode : ∀ a ∈ F.map Prod.snd, s.kind a = some .vnode

namespace Released

variable {s s' : State} {F : List (UInt64 × UInt64)}

theorem refl (s : State) : Released s s [] := by
  constructor <;> simp

/-- One reference less, and nothing is freed. -/
theorem putDentry {dp : UInt64} (hk : s.kind dp = some .dentry) (d : Dentry) :
    Released s (s.put dp (.dentry d)) [] where
  windows := by simp
  live := by
    intro a
    rw [mem_put_same (mem_of_kind hk)]
    simp
  kind := fun a _ => kind_put_same hk
  refs := fun a _ => refs_put_dentry hk
  dentry := by simp
  vnode := by simp

/-- The windows follow exactly when every vnode whose window was closed is
gone. -/
theorem follow_iff (h : Released s s' F) (hf : WindowsFollow s) :
    WindowsFollow s' ↔ ∀ a ∈ F.map Prod.snd, s.refs a = (F.map Prod.snd).count a := by
  constructor
  · intro hf' a ha
    by_contra hne
    have hdentry : a ∉ F.map Prod.fst := by
      intro hmem
      have hk := h.dentry a hmem
      rw [h.vnode a ha] at hk
      cases hk
    have hlive : a ∈ s'.heap :=
      (h.live a).mpr ⟨mem_of_kind (h.vnode a ha), hdentry, fun hgone => hne hgone.2⟩
    exact ((h.windows a).mp ((hf' a).mpr hlive)).2.2 ha
  · intro hall a
    rw [h.windows, h.live, hf a]
    refine and_congr_right fun _ => and_congr_right fun _ => ?_
    exact not_congr ⟨fun ha => ⟨ha, hall a ha⟩, And.left⟩

end Released

/-- One more dentry on top of the chain. -/
theorem Released.cons {s s₂ s₃ : State} {F : List (UInt64 × UInt64)} {dp : UInt64} {d : Dentry}
    (hd : s.heap.lookup dp = some (.dentry d)) (d' : Dentry)
    (h : Released ((s.put dp (.dentry d')).vfsIpcRemoveHeap d.dVnode) s₂ F)
    (hvrele : vrele s₂ d.dVnode = .done s₃) :
    Released s ((s₃.vfsIpcRemoveHeap dp).free dp) ((dp, d.dVnode) :: F) := by
  have hk := kind_of_dentry hd
  obtain ⟨hvk, hwin, hlive, hrest⟩ := releaseVnode_effect hvrele
  -- the first write changes a dentry in place, so that `F` can be read in `s`
  have hmem : ∀ a, a ∈ (s.put dp (.dentry d')).heap ↔ a ∈ s.heap := fun a =>
    mem_put_same (mem_of_kind hk)
  have hkind : ∀ a, (s.put dp (.dentry d')).kind a = s.kind a := fun a => kind_put_same hk
  have hrefs : ∀ a, (s.put dp (.dentry d')).refs a = s.refs a := fun a => refs_put_dentry hk
  have hlive₂ : ∀ a, a ∈ s₂.heap ↔ a ∈ s.heap ∧ a ∉ F.map Prod.fst ∧
      ¬ (a ∈ F.map Prod.snd ∧ s.refs a = (F.map Prod.snd).count a) := by
    intro a
    rw [h.live, remove_heap, hmem, ← hrefs]
    rfl
  have hkind₂ : ∀ a ∈ s₂.heap, s₂.kind a = s.kind a := fun a ha => (h.kind a ha).trans (hkind a)
  have hrefs₂ : ∀ a ∈ s₂.heap, s₂.refs a + (F.map Prod.snd).count a = s.refs a :=
    fun a ha => (h.refs a ha).trans (hrefs a)
  have hsub : ∀ {a}, a ∈ s₃.heap → a ∈ s₂.heap := fun ha => ((hlive _).mp ha).1
  refine ⟨fun a => ?_, fun a => ?_, fun a ha => ?_, fun a ha => ?_, ?_, ?_⟩
  · show a ∈ s₃.windows.erase dp ↔ _
    rw [Finset.mem_erase, hwin, h.windows]
    show _ ∧ a ∈ s.windows.erase d.dVnode ∧ _ ↔ _
    rw [Finset.mem_erase]
    simp only [List.map_cons, List.mem_cons, not_or]
    tauto
  · rw [mem_free, remove_heap, hlive, List.map_cons, List.map_cons]
    by_cases ha : a = d.dVnode
    · have hmem₂ : a ∈ s₂.heap := ha ▸ mem_of_kind hvk
      have hcount := hrefs₂ a hmem₂
      have hbefore := (hlive₂ a).mp hmem₂
      rw [← ha, List.count_cons_self]
      simp only [List.mem_cons, true_or, true_and, not_or]
      constructor
      · rintro ⟨hdp, -, hone⟩
        exact ⟨hbefore.1, ⟨hdp, hbefore.2.1⟩, fun heq => hone (by omega)⟩
      · rintro ⟨-, ⟨hdp, -⟩, hne⟩
        exact ⟨hdp, hmem₂, fun hone => hne (by omega)⟩
    · rw [hlive₂, List.count_cons_of_ne (Ne.symm ha)]
      simp only [List.mem_cons, ha, false_or, false_and, not_false_eq_true, and_true, not_or]
      tauto
  · obtain ⟨hdp, ha₃⟩ := mem_free.mp ha
    rw [kind_free_ne hdp]
    exact ((hrest a ha₃).1).trans (hkind₂ a (hsub ha₃))
  · obtain ⟨hdp, ha₃⟩ := mem_free.mp ha
    have hone := (hrest a ha₃).2
    have hcount := hrefs₂ a (hsub ha₃)
    have hsum : (List.map Prod.snd ((dp, d.dVnode) :: F)).count a =
        [d.dVnode].count a + (F.map Prod.snd).count a := by
      rw [List.map_cons, ← List.singleton_append, List.count_append]
    rw [refs_free_ne hdp, hsum]
    show s₃.refs a + _ = _
    omega
  · intro a ha
    rcases List.mem_cons.mp ha with rfl | ha
    · exact hk
    · exact (hkind a).symm.trans (h.dentry a ha)
  · intro a ha
    rcases List.mem_cons.mp ha with rfl | ha
    · exact (hkind₂ _ (mem_of_kind hvk)).symm.trans hvk
    · exact (hkind a).symm.trans (h.vnode a ha)

theorem dreleWith_released {fuel : ℕ} {s s' : State} {dp : UInt64}
    (h : dreleWith fuel s dp = .done s') : Released s s' (dyingWith fuel s.heap dp) := by
  -- along the chain of parents
  induction fuel generalizing s s' dp with
  | zero => cases h
  | succ fuel ih =>
      obtain ⟨-, -, h⟩ := Outcome.bind_eq_done.mp h
      obtain ⟨d, hd, h⟩ := Outcome.bind_eq_done.mp h
      obtain ⟨_, hpos, h⟩ := Outcome.bind_eq_done.mp h
      have hd := dentryAt_eq_done.mp hd
      have hpos := ukAssert_eq_done.mp hpos
      unfold dyingWith
      rw [hd]
      dsimp only at h ⊢
      split at h
      · next hmore =>
          cases h
          rw [if_neg (by omega)]
          exact Released.putDentry (kind_of_dentry hd) _
      · next hlast =>
          have hone : d.dRefcnt = 1 := by omega
          obtain ⟨s₂, hs₂, h⟩ := Outcome.bind_eq_done.mp h
          obtain ⟨s₃, hs₃, h⟩ := Outcome.bind_eq_done.mp h
          cases h
          rw [if_pos hone]
          refine Released.cons hd { d with dRefcnt := 0 } ?_ hs₃
          rw [hone] at hs₂
          split at hs₂
          · next hparent =>
              rw [if_pos hparent]
              exact ih hs₂
          · next hparent =>
              cases hs₂
              rw [if_neg hparent]
              exact Released.refl _

/-! ### Fuel -/

/-- `d_refcnt` of a dentry. -/
def drefs (heap : Heap) (a : UInt64) : ℕ :=
  match heap.lookup a with
  | some (.dentry d) => d.dRefcnt
  | _ => 0

/-- The dentries that can still be released. -/
def counted (heap : Heap) : Finset UInt64 := heap.keys.toFinset.filter fun a => 0 < drefs heap a

theorem mem_counted {heap : Heap} {a : UInt64} : a ∈ counted heap ↔ 0 < drefs heap a := by
  rw [counted, Finset.mem_filter, List.mem_toFinset, and_iff_right_iff_imp]
  intro hpos
  by_contra hnot
  unfold drefs at hpos
  rw [AList.lookup_eq_none.mpr hnot] at hpos
  exact absurd hpos (lt_irrefl 0)

theorem card_counted_le (heap : Heap) : (counted heap).card ≤ heap.keys.length :=
  (Finset.card_filter_le _ _).trans (List.toFinset_card_le _)

/-- A dentry whose count has come to zero is not released again. -/
theorem counted_lt {s : State} {dp : UInt64} {d : Dentry}
    (hd : s.heap.lookup dp = some (.dentry d)) (hpos : 0 < d.dRefcnt) :
    (counted (s.put dp (.dentry { d with dRefcnt := 0 })).heap).card < (counted s.heap).card := by
  have hself : drefs (s.put dp (.dentry { d with dRefcnt := 0 })).heap dp = 0 := by
    unfold drefs
    rw [lookup_put_self]
  have hother : ∀ a, a ≠ dp →
      drefs (s.put dp (.dentry { d with dRefcnt := 0 })).heap a = drefs s.heap a := by
    intro a ha
    unfold drefs
    rw [lookup_put_ne ha]
  apply Finset.card_lt_card
  refine (Finset.ssubset_iff_of_subset fun a ha => ?_).mpr ⟨dp, ?_, ?_⟩
  · rw [mem_counted] at ha ⊢
    by_cases hdp : a = dp
    · rw [hdp, hself] at ha
      exact absurd ha (lt_irrefl 0)
    · exact hother a hdp ▸ ha
  · rw [mem_counted, drefs, hd]
    exact hpos
  · rw [mem_counted, hself]
    exact lt_irrefl 0

/-- The call on the parent has fewer dentries left to release. -/
theorem dreleBody_congr {self self' : State → UInt64 → Outcome State} {s : State} {dp : UInt64}
    (h : ∀ s' p, (counted s'.heap).card < (counted s.heap).card → self s' p = self' s' p) :
    dreleBody self s dp = dreleBody self' s dp := by
  refine Outcome.bind_congr fun _ _ => Outcome.bind_congr fun d hd =>
    Outcome.bind_congr fun _ hpos => ?_
  dsimp only
  split
  · rfl
  next hlast =>
  have hzero : d.dRefcnt - 1 = 0 := not_not.mp hlast
  rw [hzero]
  congr 1
  split
  · apply h
    exact counted_lt (dentryAt_eq_done.mp hd) (ukAssert_eq_done.mp hpos)
  · rfl

/-- With more fuel than dentries to release, more fuel makes no difference. -/
theorem dreleWith_eq {n m : ℕ} {s : State} {dp : UInt64} (hn : (counted s.heap).card < n)
    (hm : (counted s.heap).card < m) : dreleWith n s dp = dreleWith m s dp := by
  induction n generalizing m s dp with
  | zero => exact absurd hn (Nat.not_lt_zero _)
  | succ n ih =>
      cases m with
      | zero => exact absurd hm (Nat.not_lt_zero _)
      | succ m => exact dreleBody_congr fun s' p hlt => ih (by omega) (by omega)

/-- `drele` is the recursion of the source. -/
theorem drele_eq (s : State) (dp : UInt64) : drele s dp = dreleBody drele s dp := by
  have hcard := card_counted_le s.heap
  apply dreleBody_congr
  intro s' p hlt
  exact dreleWith_eq (hlt.trans_le hcard) (Nat.lt_succ_of_le (card_counted_le s'.heap))

/-! ### Mounts -/

/-- A mount with its window. Only `free` on the mount itself undoes this. -/
structure Marked (mp : UInt64) (s : State) : Prop where
  isOpen : mp ∈ s.windows
  kind : s.kind mp = some .mount

namespace Marked

variable {mp : UInt64} {s s' : State} {a : UInt64}

theorem ne (h : Marked mp s) (ha : s.kind a ≠ some .mount) : mp ≠ a := by
  rintro rfl
  exact ha h.kind

theorem put (h : Marked mp s) (hne : mp ≠ a) (o : Obj) : Marked mp (s.put a o) :=
  ⟨h.isOpen, (kind_put_ne hne).trans h.kind⟩

theorem add (h : Marked mp s) (hne : mp ≠ a) (o : Obj) :
    Marked mp ((s.put a o).vfsIpcAddHeap a) :=
  ⟨Finset.mem_insert_of_mem h.isOpen, (h.put hne o).kind⟩

theorem released {F : List (UInt64 × UInt64)} (h : Marked mp s) (hr : Released s s' F) :
    Marked mp s' := by
  have hdentry : mp ∉ F.map Prod.fst := by
    intro hmem
    have hk := hr.dentry mp hmem
    rw [h.kind] at hk
    cases hk
  have hvnode : mp ∉ F.map Prod.snd := by
    intro hmem
    have hk := hr.vnode mp hmem
    rw [h.kind] at hk
    cases hk
  have hlive : mp ∈ s'.heap :=
    (hr.live mp).mpr ⟨mem_of_kind h.kind, hdentry, fun hgone => hvnode hgone.1⟩
  exact ⟨(hr.windows mp).mpr ⟨h.isOpen, hdentry, hvnode⟩, (hr.kind mp hlive).trans h.kind⟩

theorem drele (h : Marked mp s) (hd : Vfs.drele s a = .done s') : Marked mp s' :=
  h.released (dreleWith_released hd)

theorem releaseVnode (h : Marked mp s) (hv : Vfs.releaseVnode s a = .done s') :
    Marked mp s' := by
  obtain ⟨hk, hwin, hlive, hrest⟩ := releaseVnode_effect hv
  have hne : mp ≠ a := h.ne (by simp [hk])
  have hmem : mp ∈ s'.heap := (hlive mp).mpr ⟨mem_of_kind h.kind, fun hgone => hne hgone.1⟩
  exact ⟨hwin ▸ h.isOpen, (hrest mp hmem).1.trans h.kind⟩

theorem dref (h : Marked mp s) (hdref : Vfs.dref s a = .done s') : Marked mp s' := by
  obtain ⟨d, hd, rfl⟩ := dref_done hdref
  exact h.put (h.ne (not_mount_of_dentry hd)) _

theorem vfscoreVget (h : Marked mp s) {mp' ino : UInt64} {fails : Bool}
    (ha : a ≠ 0 → a ∉ s.heap) {r : Option UInt64 × State}
    (hv : Vfs.vfscoreVget s mp' ino a fails = .done r) : Marked mp r.2 := by
  obtain ⟨b, v, -, hb, rfl⟩ | ⟨-, -, rfl⟩ | ⟨-, hne, v, -, ⟨-, rfl⟩ | ⟨-, rfl⟩⟩ :=
    vfscoreVget_done hv
  · exact h.put (h.ne (not_mount_of_vnode hb)) _
  · exact h
  · have hmp : mp ≠ a := h.ne (not_mount_of_fresh (ha hne))
    have hmade := h.add hmp (.vnode v)
    exact ⟨hmade.isOpen, (kind_free_ne hmp).trans hmade.kind⟩
  · have hmade := h.add (h.ne (not_mount_of_fresh (ha hne))) (.vnode v)
    exact ⟨hmade.isOpen, hmade.kind⟩

theorem dentryAlloc (h : Marked mp s) {parent vp : UInt64} (ha : a ≠ 0 → a ∉ s.heap)
    {r : Option UInt64 × State} (hd : Vfs.dentryAlloc s parent vp a = .done r) :
    Marked mp r.2 := by
  obtain ⟨-, rfl⟩ | ⟨hne, -, v, hv, hparent⟩ := dentryAlloc_done hd
  · exact h
  · have hmp : mp ≠ a := h.ne (not_mount_of_fresh (ha hne))
    have hadded := h.add hmp (.dentry ⟨0, 0, 0⟩)
    have hmade := (hadded.put (hadded.ne (not_mount_of_vnode hv))
      (.vnode { v with vRefcnt := v.vRefcnt + 1 })).put hmp (.dentry ⟨1, vp, parent⟩)
    rcases hparent with ⟨-, hr⟩ | ⟨-, hdref⟩
    · rw [hr]
      exact hmade
    · exact hmade.dref hdref

theorem mountErr3 (h : Marked mp s) {covered : UInt64} {error : Errno} {r : Errno × State}
    (hr : Vfs.mountErr3 s covered error = .done r) : r.1 = error ∧ Marked mp r.2 := by
  obtain ⟨s', hs', hr⟩ := Outcome.bind_eq_done.mp hr
  cases hr
  refine ⟨rfl, ?_⟩
  split at hs'
  · exact h.drele hs'
  · cases hs'
    exact h

end Marked

section Mounts

variable {s : State} {m : MountArgs}

/-- The vnode that `vfscore_vget` returns carries a reference. -/
theorem vfscoreVget_some {mp ino vp : UInt64} {fails : Bool} {r : Option UInt64 × State}
    (h : vfscoreVget s mp ino vp fails = .done r) :
    (r.1 ≠ none ↔ Vgets s mp ino vp fails) ∧
      ∀ a, r.1 = some a → 0 < r.2.refs a ∧ (a ∈ s.heap ∨ a = vp) := by
  obtain ⟨b, v, hb, hv, rfl⟩ | ⟨hnone, rfl, rfl⟩ | ⟨hnone, hvp, v, hone, ⟨rfl, rfl⟩ | ⟨rfl, rfl⟩⟩ :=
    vfscoreVget_done h
  · refine ⟨iff_of_true (Option.some_ne_none b) (Or.inl ?_), ?_⟩
    · rw [hb]
      exact Option.some_ne_none b
    · rintro a ⟨⟩
      rw [refs_put_vnode]
      exact ⟨Nat.succ_pos _, Or.inl (mem_of_kind (kind_of_vnode hv))⟩
  · exact ⟨by simp [Vgets, hnone], fun _ ha => nomatch ha⟩
  · exact ⟨by simp [Vgets, hnone], fun _ ha => nomatch ha⟩
  · refine ⟨iff_of_true (Option.some_ne_none vp) (Or.inr ⟨hvp, rfl⟩), ?_⟩
    rintro a ⟨⟩
    have hrefs : (s.put vp (.vnode v)).refs vp = 1 := refs_put_vnode.trans hone
    exact ⟨hrefs ▸ Nat.one_pos, Or.inr rfl⟩

theorem vfscoreVget_mem {mp ino vp : UInt64} {fails : Bool} {r : Option UInt64 × State}
    (h : vfscoreVget s mp ino vp fails = .done r) {a : UInt64} (ha : a ∈ r.2.heap) :
    a ∈ s.heap ∨ a = vp := by
  obtain ⟨b, v, -, hv, rfl⟩ | ⟨-, -, rfl⟩ | ⟨-, -, v, -, ⟨-, rfl⟩ | ⟨-, rfl⟩⟩ :=
    vfscoreVget_done h
  · exact Or.inl ((mem_put_same (mem_of_kind (kind_of_vnode hv))).mp ha)
  · exact Or.inl ha
  · exact (mem_put.mp (mem_free.mp ha).2).symm
  · exact (mem_put.mp ha).symm

/-- A root dentry takes one reference on its vnode. -/
theorem dentryAlloc_root {vp dp : UInt64} (hne : dp ≠ 0 → vp ≠ dp)
    {r : Option UInt64 × State} (h : dentryAlloc s 0 vp dp = .done r) :
    (r.1 ≠ none ↔ dp ≠ 0) ∧ (dp ≠ 0 → r.2.refs vp = s.refs vp + 1) := by
  obtain ⟨rfl, rfl⟩ | ⟨hdp, hr, v, hv, ⟨-, hs⟩ | ⟨hparent, -⟩⟩ := dentryAlloc_done h
  · simp
  · refine ⟨by simp [hr, hdp], fun _ => ?_⟩
    rw [hs, refs_put_ne (hne hdp), refs_put_vnode]
    show v.vRefcnt + 1 = _
    rw [add_heap, lookup_put_ne (hne hdp)] at hv
    rw [refs_of_vnode hv]
  · exact absurd rfl hparent

theorem mountFs_spec (hmark : Marked m.mp s) {covered : UInt64} {root : Option UInt64}
    {r : Errno × State} (h : mountFs s m covered root = .done r) :
    Marked m.mp r.2 ∧ (r.1 = .ok ↔ root ≠ none ∧ m.mountFails = false) ∧
      (r.1 = .ok → WindowsFollow s → WindowsFollow r.2) := by
  cases root with
  | none =>
      obtain ⟨herror, hmark'⟩ := hmark.mountErr3 h
      exact ⟨hmark', by simp [herror], by simp [herror]⟩
  | some root =>
      simp only [mountFs] at h
      split at h
      · next hfails =>
          obtain ⟨s', hdrele, h⟩ := Outcome.bind_eq_done.mp h
          obtain ⟨herror, hmark'⟩ := (hmark.drele hdrele).mountErr3 h
          exact ⟨hmark', by simp [herror, hfails], by simp [herror]⟩
      · next hfails =>
          cases h
          refine ⟨⟨hmark.isOpen, kind_put_self⟩, by simpa using hfails, fun _ hf => ?_⟩
          exact hf.put (mem_of_kind hmark.kind) _

/-- The part of `mount` on the root. -/
theorem mountRoot_spec (hmark : Marked m.mp s) (hf : WindowsFollow s)
    (hvp : m.vp ≠ 0 → m.vp ∉ s.heap) (hdp : m.dp ≠ 0 → m.dp ∉ s.heap)
    (hne : m.dp ≠ 0 → m.vp ≠ m.dp) {covered : UInt64} {r : Errno × State}
    (h : mountRoot s m covered = .done r) :
    Marked m.mp r.2 ∧
      (r.1 = .ok ↔ Vgets s m.mp 0 m.vp m.vgetFails ∧ m.dp ≠ 0 ∧ m.mountFails = false) ∧
      (r.1 = .ok → WindowsFollow r.2) := by
  obtain ⟨⟨o, s₁⟩, hvget, h⟩ := Outcome.bind_eq_done.mp h
  have hmark₁ := hmark.vfscoreVget hvp hvget
  obtain ⟨hgot, hsome⟩ := vfscoreVget_some hvget
  cases o with
  | none =>
      obtain ⟨herror, hmark₂⟩ := hmark₁.mountErr3 h
      refine ⟨hmark₂, ?_, by simp [herror]⟩
      refine iff_of_false (by simp [herror]) fun hok => ?_
      exact absurd rfl (hgot.mpr hok.1)
  | some vp =>
      obtain ⟨⟨root, s₂⟩, halloc, h⟩ := Outcome.bind_eq_done.mp h
      obtain ⟨s₃, hvput, h⟩ := Outcome.bind_eq_done.mp h
      obtain ⟨hpos, hfrom⟩ := hsome vp rfl
      have hvget' : Vgets s m.mp 0 m.vp m.vgetFails := hgot.mp (Option.some_ne_none vp)
      have hdp₁ : m.dp ≠ 0 → m.dp ∉ s₁.heap := by
        intro hnull hmem
        rcases vfscoreVget_mem hvget hmem with hold | hvp'
        · exact hdp hnull hold
        · exact hne hnull hvp'.symm
      have hvdp : m.dp ≠ 0 → vp ≠ m.dp := by
        rintro hnull rfl
        exact hfrom.elim (hdp hnull) fun hvp' => hne hnull hvp'.symm
      obtain ⟨hmade, hrefs⟩ := dentryAlloc_root hvdp halloc
      have hmark₃ := (hmark₁.dentryAlloc hdp₁ halloc).releaseVnode hvput
      obtain ⟨hmark₄, hok, hfollow⟩ := mountFs_spec hmark₃ h
      refine ⟨hmark₄, ?_, fun hrok => hfollow hrok ?_⟩
      · rw [hok, ← hmade]
        exact ⟨fun hroot => ⟨hvget', hroot⟩, And.right⟩
      · -- the vnode keeps the reference of its dentry
        have hnull : m.dp ≠ 0 := hmade.mp (hok.mp hrok).1
        have hf₂ : WindowsFollow s₂ :=
          dentryAlloc_follow ((vfscoreVget_follow_iff hf hvget).mpr fun _ => hvget') halloc
        apply (releaseVnode_follow_iff hf₂ hvput).mpr
        rw [hrefs hnull]
        exact (Nat.succ_lt_succ hpos).ne'

theorem isVnodeOf_false {mp ino : UInt64} {o : Option Obj}
    (h : o.map Obj.kind ≠ some .vnode) : isVnodeOf mp ino o = false := by
  match o with
  | none => rfl
  | some (.vnode v) => exact absurd rfl h
  | some (.dentry d) => rfl
  | some (.mount m) => rfl

/-- Objects that are not vnodes do not matter to `vn_lookup`. -/
theorem vnLookup_put {a : UInt64} {o : Obj} (ha : s.kind a ≠ some .vnode) (ho : o.kind ≠ .vnode)
    (mp ino : UInt64) : vnLookup (s.put a o) mp ino = vnLookup s mp ino := by
  unfold vnLookup
  congr 1
  funext b
  by_cases hb : b = a
  · rw [hb, lookup_put_self, isVnodeOf_false ha, isVnodeOf_false (by simpa using ho)]
  · rw [lookup_put_ne hb]

/-- The part of `mount` between the allocation of the mount and its end. -/
theorem mountCovered_spec (hmark : Marked m.mp s) (hf : WindowsFollow s)
    (hvp : m.vp ≠ 0 → m.vp ∉ s.heap) (hdp : m.dp ≠ 0 → m.dp ∉ s.heap)
    (hne : m.dp ≠ 0 → m.vp ≠ m.dp) {r : Errno × State} (h : mountCovered s m = .done r) :
    Marked m.mp r.2 ∧ (r.1 = .ok ↔ Mounts s m) ∧ (r.1 = .ok → WindowsFollow r.2) := by
  unfold mountCovered at h
  split at h
  · next hroot =>
      obtain ⟨hmark', hok, hfollow⟩ := mountRoot_spec hmark hf hvp hdp hne h
      exact ⟨hmark', hok.trans ⟨fun hrest => ⟨Or.inl hroot, hrest⟩, And.right⟩, hfollow⟩
  next hroot =>
  split at h
  · next hnone =>
      cases h
      refine ⟨hmark, iff_of_false (by simp) ?_, by simp⟩
      rintro ⟨hdir | ⟨hnamei, -⟩, -⟩
      · exact hroot hdir
      · exact hnamei hnone
  next dp hnamei =>
  obtain ⟨d, hd, h⟩ := Outcome.bind_eq_done.mp h
  obtain ⟨-, -, h⟩ := Outcome.bind_eq_done.mp h
  have hd := dentryAt_eq_done.mp hd
  have hlive := mem_of_kind (kind_of_dentry hd)
  have hmark₁ := hmark.put (hmark.ne (not_mount_of_dentry hd))
    (.dentry { d with dRefcnt := d.dRefcnt + 1 })
  split at h
  · next hdir =>
      have hsame : vnLookup (s.put dp (.dentry { d with dRefcnt := d.dRefcnt + 1 })) m.mp 0 =
          vnLookup s m.mp 0 :=
        vnLookup_put (by simp [kind_of_dentry hd]) (by simp [Obj.kind]) m.mp 0
      obtain ⟨hmark', hok, hfollow⟩ := mountRoot_spec hmark₁ (hf.put hlive _)
        (fun hnull hmem => hvp hnull ((mem_put_same hlive).mp hmem))
        (fun hnull hmem => hdp hnull ((mem_put_same hlive).mp hmem)) hne h
      refine ⟨hmark', hok.trans ?_, hfollow⟩
      unfold Vgets Mounts
      rw [hsame]
      exact ⟨fun hrest => ⟨Or.inr ⟨by simp [hnamei], hdir⟩, hrest⟩, And.right⟩
  · next hdir =>
      obtain ⟨herror, hmark'⟩ := hmark₁.mountErr3 h
      refine ⟨hmark', iff_of_false (by simp [herror]) ?_, by simp [herror]⟩
      rintro ⟨hpath | ⟨-, hisDir⟩, -⟩
      · exact hroot hpath
      · exact hdir hisDir

/-- A mount that fails after its allocation leaves its window open. -/
theorem mount_follow_iff (hf : WindowsFollow s) (hfresh : Fresh s (.mount m)) {r : Errno × State}
    (h : mount s m = .done r) : WindowsFollow r.2 ↔ Tended s (.mount m) := by
  unfold mount at h
  split at h
  · next hdir =>
      cases h
      exact iff_of_true hf (Or.inl hdir)
  next hdir =>
  split at h
  · next hknown =>
      cases h
      exact iff_of_true hf (Or.inr (Or.inl (by simpa using hknown)))
  next hknown =>
  split at h
  · cases h
  split at h
  · next hbusy =>
      cases h
      exact iff_of_true hf (Or.inr (Or.inr (Or.inl hbusy)))
  next hbusy =>
  split at h
  · next hmp =>
      cases h
      exact iff_of_true hf (Or.inr (Or.inr (Or.inr (Or.inl hmp))))
  next hmp =>
  split at h
  · cases h
  obtain ⟨r', hr', h⟩ := Outcome.bind_eq_done.mp h
  obtain ⟨⟨hmpv, hmpd⟩, hvd⟩ : (m.mp ≠ m.vp ∧ m.mp ≠ m.dp) ∧ (m.vp ≠ 0 → m.vp ≠ m.dp) := by
    simpa [Call.allocs, hmp] using hfresh.1
  have hfree : ∀ a ∈ [m.mp, m.vp, m.dp], a ≠ 0 → a ∉ s.heap := hfresh.2
  -- with the mount in place, the rest of the call can be read in `s`
  have hmark : Marked m.mp ((s.put m.mp (.mount
      { mPath := m.dir.take (pathMax - 1), mRoot := 0, mCovered := 0 })).vfsIpcAddHeap m.mp) :=
    ⟨Finset.mem_insert_self _ _, kind_put_self⟩
  have hkind : s.kind m.mp ≠ some .vnode := fun hk =>
    hfree m.mp (by simp) hmp (mem_of_kind hk)
  have hvp : ∀ {a}, a ∈ [m.mp, m.vp, m.dp] → a ≠ m.mp → a ≠ 0 → a ∉ (s.put m.mp (.mount
      { mPath := m.dir.take (pathMax - 1), mRoot := 0, mCovered := 0 })).heap := by
    intro a ha hne hnull hmem
    exact (mem_put.mp hmem).elim hne (hfree a ha hnull)
  obtain ⟨hmark', hok, hfollow⟩ := mountCovered_spec hmark (hf.add m.mp _)
    (hvp (by simp) hmpv.symm) (hvp (by simp) hmpd.symm)
    (fun hnull heq => hvd (heq ▸ hnull) heq) hr'
  have hknown : m.known = true := by simpa using hknown
  have hmounts : Tended s (.mount m) ↔ r'.1 = .ok := by
    have hsame := vnLookup_put hkind (o := .mount
      { mPath := m.dir.take (pathMax - 1), mRoot := 0, mCovered := 0 }) (by simp [Obj.kind]) m.mp 0
    have hstate : Mounts s m ↔ r'.1 = .ok := by
      rw [hok]
      unfold Mounts Vgets
      rw [← hsame]
      rfl
    rw [← hstate]
    simp [Tended, hdir, hmp, hbusy, hknown]
  rw [hmounts]
  split at h
  · next hrok =>
      cases h
      exact iff_of_true (hfollow hrok) hrok
  · next hrok =>
      cases h
      exact iff_of_false (WindowsFollow.not_free hmark'.isOpen) hrok

/-- An unmount leaves the window of the mount open. -/
theorem umount2_follow_iff (hf : WindowsFollow s) {path : List UInt8} {force fails : Bool}
    {r : Errno × State} (h : umount2 s path force fails = .done r) :
    WindowsFollow r.2 ↔ StaysMounted s path force fails := by
  unfold umount2 at h
  split at h
  · next hlong =>
      cases h
      exact iff_of_true hf (Or.inl hlong)
  next hlong =>
  split at h
  · next hnone =>
      cases h
      exact iff_of_true hf (Or.inr (Or.inr (by simp [hnone])))
  next mp hfind =>
  split at h
  · next m hm =>
      have hcovered : coveredAt s mp = some m.mCovered := by
        unfold coveredAt
        rw [hm]
      split at h
      · next hstay =>
          cases h
          refine iff_of_true hf (Or.inr (Or.inr ?_))
          simpa [hfind, hcovered] using hstay
      next hstay =>
      split at h
      · next hfails =>
          cases h
          exact iff_of_true hf (Or.inr (Or.inl hfails))
      next hfails =>
      obtain ⟨s', hs', h⟩ := Outcome.bind_eq_done.mp h
      cases h
      have hkind : s.kind mp = some .mount := by
        rw [State.kind, hm]
        rfl
      have hmark : Marked mp s := ⟨(hf mp).mpr (mem_of_kind hkind), hkind⟩
      have hmark' : Marked mp s' := by
        obtain ⟨s₁, hs₁, hs'⟩ := Outcome.bind_eq_done.mp hs'
        refine Marked.drele ?_ hs'
        split at hs₁
        · exact hmark.drele hs₁
        · cases hs₁
          exact hmark
      refine iff_of_false (WindowsFollow.not_free hmark'.isOpen) ?_
      rintro (hlong' | hfails' | hstay')
      · exact hlong hlong'
      · exact hfails hfails'
      · exact hstay (by simpa [hfind, hcovered] using hstay')
  · cases h

end Mounts

/-- One call, whatever it is. -/
theorem step_follow_iff {s s' : State} {c : Call} (hf : WindowsFollow s) (hfresh : Fresh s c)
    (h : step s c = .done s') : WindowsFollow s' ↔ Tended s c := by
  cases c with
  | vfscoreVget mp ino vp fails =>
      obtain ⟨r, hr, h⟩ := Outcome.bind_eq_done.mp h
      cases h
      exact vfscoreVget_follow_iff hf hr
  | vref vp =>
      obtain ⟨v, hv, rfl⟩ := vref_done h
      exact iff_of_true (hf.put (mem_of_kind (kind_of_vnode hv)) _) trivial
  | vrele vp => exact releaseVnode_follow_iff hf h
  | vput vp => exact releaseVnode_follow_iff hf h
  | dentryAlloc parent vp dp =>
      obtain ⟨r, hr, h⟩ := Outcome.bind_eq_done.mp h
      cases h
      exact iff_of_true (dentryAlloc_follow hf hr) trivial
  | dref dp => exact iff_of_true (dref_follow hf h) trivial
  | drele dp => exact (dreleWith_released h).follow_iff hf
  | mount m =>
      obtain ⟨r, hr, h⟩ := Outcome.bind_eq_done.mp h
      cases h
      exact mount_follow_iff hf hfresh hr
  | umount2 path force fails =>
      obtain ⟨r, hr, h⟩ := Outcome.bind_eq_done.mp h
      cases h
      exact umount2_follow_iff hf hr

end Vfs

/-! ## §7  Whole runs -/

open Foundation Vfs

/-- **Windows follow the objects.** After every call of a run exactly the live
vnodes, dentries and mounts have windows, if and only if every call that goes
through was tended. -/
theorem object_windows_iff {cs : List Vfs.Call} (hfresh : Along Vfs.step Fresh start cs) :
    Throughout Vfs.step WindowsFollow start cs ↔
      Along Vfs.step (fun s c => (∃ s', Vfs.step s c = .done s') → Tended s c) start cs := by
  have hstart : WindowsFollow start := by
    intro a
    simp [start]
  exact throughout_iff_along (J := fun _ => True) (fun _ _ _ _ _ _ _ => trivial)
    (fun _ _ _ _ hf hfresh h => step_follow_iff hf hfresh h) trivial hstart hfresh

/-- The root file system is mounted. -/
def mountAtRoot : Vfs.Call :=
  .mount { dev := some [], dir := rootPath, known := true, mp := 0x1000, namei := none,
           isDir := false, vp := 0x2000, vgetFails := false, dp := 0x3000, mountFails := false }

/-- A file is looked up below the root, opened twice and closed twice. The root
cannot be unmounted. -/
def openAndClose : List Vfs.Call :=
  [mountAtRoot, .vfscoreVget 0x1000 1 0x4000 false, .dentryAlloc 0x3000 0x4000 0x5000,
    .vput 0x4000, .dref 0x5000, .drele 0x5000, .drele 0x5000, .umount2 rootPath false false]

theorem lookup_keeps_windows : Throughout Vfs.step WindowsFollow start openAndClose := by
  have htended : Along Vfs.step Tended start openAndClose := by decide +kernel
  apply (object_windows_iff (by decide +kernel)).mpr
  refine Along.mono ?_ htended
  exact fun _ _ h _ => h

/-- Three runs that give back what they took. A vnode without a dentry is freed
with its window open; the first of two dentries on a vnode closes the window of
the vnode that the second one still has; a mount is freed with its window
open. -/
theorem windows_part_from_objects :
    let alone : List Vfs.Call := [.vfscoreVget 0x1000 1 0x2000 false, .vrele 0x2000]
    let linked : List Vfs.Call :=
      [.vfscoreVget 0x1000 1 0x2000 false, .dentryAlloc 0 0x2000 0x3000,
        .dentryAlloc 0 0x2000 0x4000, .vput 0x2000, .drele 0x3000]
    let unmounted : List Vfs.Call := [mountAtRoot, .umount2 rootPath true false]
    Along Vfs.step Fresh start alone ∧ Along Vfs.step Fresh start linked ∧
      Along Vfs.step Fresh start unmounted ∧
      (∃ s, runs Vfs.step start alone = .done s ∧ 0x2000 ∈ s.windows ∧ 0x2000 ∉ s.heap) ∧
      (∃ s, runs Vfs.step start linked = .done s ∧ 0x2000 ∉ s.windows ∧ 0x2000 ∈ s.heap) ∧
      (∃ s, runs Vfs.step start unmounted = .done s ∧ 0x1000 ∈ s.windows ∧ 0x1000 ∉ s.heap) := by
  refine ⟨by decide +kernel, by decide +kernel, by decide +kernel, ⟨_, rfl, ?_, ?_⟩,
    ⟨_, rfl, ?_, ?_⟩, ⟨_, rfl, ?_, ?_⟩⟩
  all_goals decide +kernel

end CubicleOS
