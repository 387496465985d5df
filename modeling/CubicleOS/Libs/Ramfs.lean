import CubicleOS.Foundation.Pages
import CubicleOS.Libs.IpcTables

/-!
# File buffers of ramfs

A regular file of ramfs keeps its bytes in one buffer, `rn_buf`, that it owns
unless it was lent by `ramfs_set_file_data`. `ramfs_write` opens a heap window
on each buffer that it allocates and closes the window of the buffer it
replaces; the other operations that free, allocate, lend or move a buffer do
nothing about windows. Buffers and windows are compared after every call.

What the model leaves out of a node is what no operation on buffers reads: the
times and the mode. The bytes are left out too, but not the pointers they are
moved through.
-/

namespace CubicleOS

namespace Ramfs

open Foundation

/-! ## §1  Nodes, vnodes and buffers -/

/-- `enum vtype`. -/
inductive Vtype where
  | vnon | vreg | vdir | vblk | vchr | vlnk | vsock | vfifo | vbad
deriving DecidableEq, Repr

/-- What the operations return. -/
inductive Errno where
  | ok | enoent | eio | enomem | ebusy | eisdir | einval | efbig | enametoolong
deriving DecidableEq, Repr

/-- `struct ramfs_node`. The chain of a directory, `rn_child` and the `rn_next`
of its members, is the list `rnChild`; a name has no terminator. -/
structure Node where
  rnType : Vtype
  rnName : List UInt8
  rnChild : List ℕ
  rnSize : UInt64
  rnBuf : UInt64
  rnBufsize : UInt64
  rnOwnsBuf : Bool
deriving DecidableEq, Repr

/-- What ramfs reads of a `struct vnode`. `vData` is the number of a node. -/
structure Vnode where
  vData : ℕ
  vType : Vtype
  vSize : Int64
deriving DecidableEq, Repr

/-- Nodes are never freed: the call in `ramfs_remove_node` is commented out.
`live` are the file buffers that were allocated and not freed. -/
structure State where
  nodes : List Node
  vnodes : List Vnode
  tab : List IpcStruct
  live : List UInt64
deriving DecidableEq, Repr

/-- The buffer that a node has and owns. -/
def Node.owned (np : Node) : Option UInt64 :=
  if np.rnBuf ≠ 0 ∧ np.rnOwnsBuf then some np.rnBuf else none

/-- The `rn_buf` of nodes with `rn_buf` non-null and `rn_owns_buf`. -/
def ownedBufs (nodes : List Node) : List UInt64 := nodes.filterMap Node.owned

namespace State

def modifyNode (s : State) (i : ℕ) (f : Node → Node) : State :=
  { s with nodes := s.nodes.modify i f }

/-- `np->rn_size` and `vp->v_size` get a new value, after `np` got a new buffer. -/
def resize (s : State) (vp : ℕ) (v : Vnode) (np : Node) (size : Int64) : State :=
  { s with
    nodes := s.nodes.set v.vData { np with rnSize := size.toUInt64 }
    vnodes := s.vnodes.set vp { v with vSize := size } }

end State

/-- `dl_ramfs_free` of a buffer. -/
def dlRamfsFree (live : List UInt64) (buf : UInt64) : Outcome (List UInt64) :=
  if buf = 0 then .done live
  else if buf ∈ live then .done (live.erase buf)
  else .wild

/-- `memcpy(new_buf, np->rn_buf, vp->v_size)`. -/
def copyOver (np : Node) (newSize : UInt64) (vSize : Int64) : Outcome Unit :=
  if vSize = 0 ∨ (np.rnBuf ≠ 0 ∧ vSize.toUInt64 ≤ np.rnBufsize ∧ vSize.toUInt64 ≤ newSize) then
    .done ()
  else .wild

/-- `vfscore_uiomove(np->rn_buf + offset, resid, uio)`. The count is an `int`
there, and `uio_resid` bounds it again. -/
def vfscoreUiomove (np : Node) (offset resid : Int64) : Outcome Errno :=
  let moved := min resid.toInt32.toInt64.toUInt64 resid.toUInt64
  if moved = 0 ∨
      (np.rnBuf ≠ 0 ∧ offset.toUInt64.toNat + moved.toNat ≤ np.rnBufsize.toNat) then
    .done .ok
  else .wild

def roundPgup (a : UInt64) : UInt64 := alignUp a 4096

/-! ## §2  Operations on the chains -/

def nameMax : ℕ := 255

/-- `room` is whether there is memory for the node and its name. -/
def ramfsAllocateNode (name : List UInt8) (type : Vtype) (room : Bool) : Option Node :=
  if room then
    some { rnType := type, rnName := name, rnChild := [], rnSize := 0, rnBuf := 0,
           rnBufsize := 0, rnOwnsBuf := true }
  else none

/-- The state with the new node at the end of the chain, and its number. -/
def ramfsAddNode (s : State) (dnp : ℕ) (name : List UInt8) (type : Vtype) (room : Bool) :
    Outcome (Option (ℕ × State)) :=
  match ramfsAllocateNode name type room with
  | none => .done none
  | some np =>
      (Outcome.ofOption s.nodes[dnp]?).bind fun _ =>
        let s' := s.modifyNode dnp fun d => { d with rnChild := d.rnChild ++ [s.nodes.length] }
        .done (some (s.nodes.length, { s' with nodes := s'.nodes ++ [np] }))

def ramfsRemoveNode (s : State) (dnp np : ℕ) : Outcome (Errno × State) :=
  (Outcome.ofOption s.nodes[dnp]?).bind fun d =>
    if d.rnChild = [] then .done (.ebusy, s)
    else if np ∈ d.rnChild then
      .done (.ok, s.modifyNode dnp fun d => { d with rnChild := d.rnChild.erase np })
    else .done (.enoent, s)

/-- `room` is whether there is memory for a longer name. -/
def ramfsRenameNode (s : State) (np : ℕ) (name : List UInt8) (room : Bool) :
    Outcome (Errno × State) :=
  (Outcome.ofOption s.nodes[np]?).bind fun n =>
    if name.length > nameMax then .done (.enametoolong, s)
    else if name.length ≤ n.rnName.length ∨ room then
      .done (.ok, s.modifyNode np fun n => { n with rnName := name })
    else .done (.enomem, s)

/-- What `vfscore_vget` gives `ramfs_lookup`. -/
inductive Vget where
  | cached | fresh | null
deriving DecidableEq, Repr

def ramfsLookup (s : State) (dvp : ℕ) (name : List UInt8) (got : Vget) :
    Outcome (Errno × State) :=
  if name = [] then .done (.enoent, s)
  else
    (Outcome.ofOption s.vnodes[dvp]?).bind fun dv =>
    (Outcome.ofOption s.nodes[dv.vData]?).bind fun dnp =>
      match dnp.rnChild.find? fun i => (s.nodes[i]?).any fun n => n.rnName = name with
      | none => .done (.enoent, s)
      | some i =>
          match got with
          | .cached => .done (.ok, s)
          | .null => .done (.enomem, s)
          | .fresh =>
              (Outcome.ofOption s.nodes[i]?).bind fun np =>
                let vp := { vData := i, vType := np.rnType, vSize := np.rnSize.toInt64 }
                .done (.ok, { s with vnodes := s.vnodes ++ [vp] })

/-- `regular` is `S_ISREG(mode)`. -/
def ramfsCreate (s : State) (dvp : ℕ) (name : List UInt8) (regular room : Bool) :
    Outcome (Errno × State) :=
  if name.length > nameMax then .done (.enametoolong, s)
  else if !regular then .done (.einval, s)
  else
    (Outcome.ofOption s.vnodes[dvp]?).bind fun dv =>
    (ramfsAddNode s dv.vData name .vreg room).bind fun
      | none => .done (.enomem, s)
      | some (_, s') => .done (.ok, s')

/-! ## §3  Operations on the buffers -/

/-- `free` when the buffer is owned. -/
def freeOwned (s : State) (np : Node) : Outcome State :=
  if np.rnOwnsBuf then
    (dlRamfsFree s.live np.rnBuf).bind fun live => .done { s with live }
  else .done s

/-- `newBuf` is what `dl_ramfs_malloc` returns when it is called. -/
def ramfsTruncate (s : State) (vp : ℕ) (length : Int64) (newBuf : UInt64) :
    Outcome (Errno × State) :=
  (Outcome.ofOption s.vnodes[vp]?).bind fun v =>
  (Outcome.ofOption s.nodes[v.vData]?).bind fun np =>
    if length = 0 then
      if np.rnBuf ≠ 0 then
        (freeOwned s np).bind fun s =>
          .done (.ok, s.resize vp v { np with rnBuf := 0, rnBufsize := 0 } length)
      else .done (.ok, s.resize vp v np length)
    else if length.toUInt64 > np.rnBufsize then
      let newSize := roundPgup length.toUInt64
      if newBuf = 0 then .done (.eio, s)
      else
        let s := { s with live := newBuf :: s.live }
        (if np.rnSize ≠ 0 then (copyOver np newSize v.vSize).bind fun _ => freeOwned s np
          else .done s).bind fun s =>
          .done (.ok, s.resize vp v
            { np with rnBuf := newBuf, rnBufsize := newSize, rnOwnsBuf := true } length)
    else .done (.ok, s.resize vp v np length)

def ramfsSetFileData (s : State) (vp : ℕ) (data size : UInt64) : Outcome (Errno × State) :=
  (Outcome.ofOption s.vnodes[vp]?).bind fun v =>
  (Outcome.ofOption s.nodes[v.vData]?).bind fun np =>
    if v.vType = .vdir then .done (.eisdir, s)
    else if v.vType ≠ .vreg then .done (.einval, s)
    else if np.rnBuf ≠ 0 then .done (.einval, s)
    else
      .done (.ok, s.resize vp v
        { np with rnBuf := data, rnBufsize := size, rnOwnsBuf := false } size.toInt64)

/-- The returns of `ramfs_write` before it looks at the node. -/
def writeCheck (v : Vnode) (offset resid : Int64) : Option Errno :=
  if v.vType = .vdir then some .eisdir
  else if v.vType ≠ .vreg then some .einval
  else if offset < 0 then some .einval
  else if offset ≥ Int64.maxValue then some .efbig
  else if resid = 0 then some .ok
  else none

/-- Where the bytes go: `IO_APPEND` overrides the offset. -/
def writePos (np : Node) (offset : Int64) (append : Bool) : Int64 :=
  if append then np.rnSize.toInt64 else offset

/-- `(1 << 21) | (1 << 2)`. -/
def bufMask : Int32 := 0x200004

/-- What `ramfs_write` does with the buffer that it replaces. -/
def giveBack (s : State) (v : Vnode) (np : Node) (newSize : UInt64) : Outcome State :=
  if np.rnSize ≠ 0 then
    (copyOver np newSize v.vSize).bind fun _ =>
      if np.rnOwnsBuf then
        (dlRamfsFree s.live np.rnBuf).bind fun live =>
        (ramfsIpcRemoveHeap s.tab np.rnBuf).bind fun tab => .done { s with tab, live }
      else .done s
  else .done s

/-- The part of `ramfs_write` that gives the file a larger buffer. `newBuf` is
what `dl_ramfs_calloc` returns; nothing comes back when there is no memory. -/
def expand (s : State) (v : Vnode) (np : Node) (newSize newBuf : UInt64) :
    Outcome (Option (State × Node)) :=
  if newBuf = 0 then .done none
  else
    (ramfsIpcAddHeap s.tab newBuf newSize bufMask).bind fun tab =>
    (giveBack { s with tab, live := newBuf :: s.live } v np newSize).bind fun s =>
      .done (some (s, { np with rnBuf := newBuf, rnBufsize := newSize }))

/-- Sums of offsets wrap, as compiled. -/
def ramfsWrite (s : State) (vp : ℕ) (offset resid : Int64) (append : Bool)
    (newBuf : UInt64) : Outcome (Errno × State) :=
  (Outcome.ofOption s.vnodes[vp]?).bind fun v =>
  (Outcome.ofOption s.nodes[v.vData]?).bind fun np =>
    match writeCheck v offset resid with
    | some e => .done (e, s)
    | none =>
        let pos := writePos np offset append
        if pos.toUInt64 + resid.toUInt64 > v.vSize.toUInt64 then
          let endPos := pos + resid
          (if endPos > np.rnBufsize.toInt64 then
            expand s v np (roundPgup endPos.toUInt64) newBuf
          else .done (some (s, np))).bind fun
          | none => .done (.eio, s)
          | some (s, np) =>
              (vfscoreUiomove np pos resid).bind fun e =>
                .done (e, s.resize vp v { np with rnOwnsBuf := true } endPos)
        else (vfscoreUiomove np pos resid).bind fun e => .done (e, s)

/-- The file data of the old node, taken over by a new one. -/
def takeBuffer (old np : Node) : Node :=
  { np with rnBuf := old.rnBuf, rnSize := old.rnSize, rnBufsize := old.rnBufsize }

/-- The new node `k` takes the buffer of the old node `j`. -/
def moveBuffer (s : State) (j k : ℕ) : State :=
  match s.nodes[j]? with
  | none => s
  | some old =>
      if old.rnBuf ≠ 0 then
        (s.modifyNode k (takeBuffer old)).modifyNode j fun np => { np with rnBuf := 0 }
      else s

/-- `vp2` is the file that is there under the new name, if any. -/
def removeDestination (s : State) (dnp2 : ℕ) : Option ℕ → Outcome (Errno × State)
  | none => .done (.ok, s)
  | some vp2 =>
      (Outcome.ofOption s.vnodes[vp2]?).bind fun v2 => ramfsRemoveNode s dnp2 v2.vData

/-- What the last `ramfs_remove_node` returns is not looked at. -/
def ramfsRename (s : State) (dvp1 vp1 dvp2 : ℕ) (vp2 : Option ℕ) (name2 : List UInt8)
    (room : Bool) : Outcome (Errno × State) :=
  (Outcome.ofOption s.vnodes[dvp1]?).bind fun dv1 =>
  (Outcome.ofOption s.vnodes[vp1]?).bind fun v1 =>
  (Outcome.ofOption s.vnodes[dvp2]?).bind fun dv2 =>
  (removeDestination s dv2.vData vp2).bind fun r =>
    if r.1 ≠ .ok then .done r
    else if dvp1 = dvp2 then ramfsRenameNode r.2 v1.vData name2 room
    else
      (Outcome.ofOption r.2.nodes[v1.vData]?).bind fun old =>
      (ramfsAddNode r.2 dv2.vData name2 old.rnType room).bind fun
        | none => .done (.enomem, r.2)
        | some (k, s) =>
            (ramfsRemoveNode (moveBuffer s v1.vData k) dv1.vData v1.vData).bind fun r =>
              .done (.ok, r.2)

/-- The calls, with what the allocator answers them. -/
inductive Call where
  | write (vp : ℕ) (offset resid : Int64) (append : Bool) (newBuf : UInt64)
  | truncate (vp : ℕ) (length : Int64) (newBuf : UInt64)
  | setFileData (vp : ℕ) (data size : UInt64)
  | rename (dvp1 vp1 dvp2 : ℕ) (vp2 : Option ℕ) (name2 : List UInt8) (room : Bool)
  | create (dvp : ℕ) (name : List UInt8) (regular room : Bool)
  | lookup (dvp : ℕ) (name : List UInt8) (got : Vget)
deriving DecidableEq, Repr

def call (s : State) : Call → Outcome (Errno × State)
  | .write vp offset resid append newBuf => ramfsWrite s vp offset resid append newBuf
  | .truncate vp length newBuf => ramfsTruncate s vp length newBuf
  | .setFileData vp data size => ramfsSetFileData s vp data size
  | .rename dvp1 vp1 dvp2 vp2 name2 room => ramfsRename s dvp1 vp1 dvp2 vp2 name2 room
  | .create dvp name regular room => ramfsCreate s dvp name regular room
  | .lookup dvp name got => ramfsLookup s dvp name got

def step (s : State) (c : Call) : Outcome State := (call s c).bind fun r => .done r.2

/-- What the allocator returns for a buffer. -/
def Call.newBuf : Call → UInt64
  | .write _ _ _ _ newBuf => newBuf
  | .truncate _ _ newBuf => newBuf
  | _ => 0

/-- Fresh addresses, and fewer than `HEAP_MAX` buffers. -/
def Fresh (s : State) (c : Call) : Prop :=
  c.newBuf ∉ s.live ∧ s.live.length < PlainTable.ramfs.heapMax

instance (s : State) (c : Call) : Decidable (Fresh s c) := inferInstanceAs (Decidable (_ ∧ _))

/-- Any files and directories, and no buffer yet. -/
structure Empty (s : State) : Prop where
  nodes : ∀ np ∈ s.nodes, np.rnBuf = 0
  tab : s.tab = PlainTable.ramfs.init
  live : s.live = []

/-- The open windows are those on the live owned buffers. -/
def WindowsExact (s : State) : Prop :=
  (∀ b, b ∈ openBegins s.tab ↔ b ∈ ownedBufs s.nodes) ∧ ∀ b ∈ openBegins s.tab, b ∈ s.live

/-- The calls that leave the windows to `ramfs_write`, and leave them as it
expects: they do not free, allocate or take over a buffer behind its back. -/
def Attended (s : State) : Call → Prop
  | .write vp offset resid append newBuf =>
      ∀ v ∈ s.vnodes[vp]?, ∀ np ∈ s.nodes[v.vData]?, writeCheck v offset resid = none →
        (writePos np offset append).toUInt64 + resid.toUInt64 > v.vSize.toUInt64 →
          if writePos np offset append + resid > np.rnBufsize.toInt64 then
            newBuf ≠ 0 → roundPgup (writePos np offset append + resid).toUInt64 ≠ 0 ∧
              (np.rnSize ≠ 0 → np.rnOwnsBuf = true → np.rnBuf ≠ 0)
          else np.rnBuf ≠ 0 → np.rnOwnsBuf = true
  | .truncate vp length newBuf =>
      ∀ v ∈ s.vnodes[vp]?, ∀ np ∈ s.nodes[v.vData]?,
        if length = 0 then np.rnBuf ≠ 0 → np.rnOwnsBuf = false
        else length.toUInt64 > np.rnBufsize → newBuf = 0
  | .rename dvp1 vp1 dvp2 _ _ room =>
      dvp1 ≠ dvp2 → room = true → ∀ v ∈ s.vnodes[vp1]?, ∀ np ∈ s.nodes[v.vData]?,
        np.rnBuf ≠ 0 → np.rnOwnsBuf = true
  | _ => True

instance (s : State) (c : Call) : Decidable (Attended s c) := by
  cases c <;> unfold Attended <;> infer_instance

/-! ## §4  What the calls keep -/

/-- Windows, owned buffers and live buffers are the same addresses, each of
them once, and a file without bytes owns no buffer. -/
structure Follows (s : State) : Prop where
  tidy : Tidy PlainTable.ramfs.heapMax s.tab
  windows : (openBegins s.tab).Perm (ownedBufs s.nodes)
  live : s.live.Perm (ownedBufs s.nodes)
  nodup : s.live.Nodup
  sized : ∀ np ∈ s.nodes, np.owned ≠ none → np.rnSize ≠ 0

theorem owned_eq_none {np : Node} : np.owned = none ↔ (np.rnBuf ≠ 0 → np.rnOwnsBuf = false) := by
  simp [Node.owned]

theorem owned_eq_some {np : Node} (hbuf : np.rnBuf ≠ 0) (howns : np.rnOwnsBuf = true) :
    np.owned = some np.rnBuf :=
  if_pos ⟨hbuf, howns⟩

theorem ownedBufs_set {nodes : List Node} {i : ℕ} {np : Node} (hi : nodes[i]? = some np)
    (np' : Node) :
    Exchange np.owned np'.owned (ownedBufs nodes) (ownedBufs (nodes.set i np')) :=
  filterMap_set_exchange Node.owned hi np'

theorem modify_eq_set {nodes : List Node} {i : ℕ} {np : Node} (hi : nodes[i]? = some np)
    (f : Node → Node) : nodes.modify i f = nodes.set i (f np) := by
  rw [List.modify_eq_set_getElem?, hi]
  rfl

namespace Follows

variable {s s' : State} {i : ℕ} {np np' : Node}

theorem windowsExact (h : Follows s) : WindowsExact s :=
  ⟨fun _ => h.windows.mem_iff, fun _ hb => h.live.mem_iff.mpr (h.windows.mem_iff.mp hb)⟩

theorem of_empty (h : Empty s) : Follows s := by
  have hnone : ∀ np ∈ s.nodes, np.owned = none := fun np hnp =>
    owned_eq_none.mpr fun hbuf => absurd (h.nodes np hnp) hbuf
  have howned : ownedBufs s.nodes = [] := List.filterMap_eq_nil_iff.mpr hnone
  have hopen : openBegins s.tab = [] := by
    rw [openBegins, h.tab]
    exact List.map_eq_nil_iff.mpr (List.Perm.eq_nil (Holds.replicate ipcNone_inUse _))
  refine ⟨h.tab ▸ Tidy.replicate _, ?_, ?_, ?_, fun np hnp ho => absurd (hnone np hnp) ho⟩
  · rw [hopen, howned]
  · rw [h.live, howned]
  · rw [h.live]
    exact List.nodup_nil

/-- One node changes, and windows and live buffers change with it. -/
theorem put (h : Follows s) (hi : s.nodes[i]? = some np) (hnodes : s'.nodes = s.nodes.set i np')
    (htidy : Tidy PlainTable.ramfs.heapMax s'.tab)
    (htab : Exchange np.owned np'.owned (openBegins s.tab) (openBegins s'.tab))
    (hlive : Exchange np.owned np'.owned s.live s'.live)
    (hfresh : np'.owned = np.owned ∨ ∀ b, np'.owned = some b → b ∉ s.live)
    (hsized : np'.owned ≠ none → np'.rnSize ≠ 0) : Follows s' where
  tidy := htidy
  windows := by
    rw [hnodes]
    exact htab.perm (ownedBufs_set hi np') h.windows
  live := by
    rw [hnodes]
    exact hlive.perm (ownedBufs_set hi np') h.live
  nodup := hlive.nodup h.nodup hfresh
  sized := by
    intro n hn
    rw [hnodes] at hn
    rcases List.mem_or_eq_of_mem_set hn with hn | rfl
    · exact h.sized n hn
    · exact hsized

/-- One node changes, but not the buffer it owns. -/
theorem putSame (h : Follows s) (hi : s.nodes[i]? = some np)
    (hnodes : s'.nodes = s.nodes.set i np') (htab : s'.tab = s.tab) (hlive : s'.live = s.live)
    (howned : np'.owned = np.owned) (hsized : np'.owned ≠ none → np'.rnSize ≠ 0) :
    Follows s' := by
  refine h.put hi hnodes (htab ▸ h.tidy) ?_ ?_ (Or.inl howned) hsized
  · rw [htab, howned]
  · rw [hlive, howned]

end Follows

/-- Only the chain or the name changes. -/
def KeepsBuffer (f : Node → Node) : Prop :=
  ∀ np, (f np).rnBuf = np.rnBuf ∧ (f np).rnOwnsBuf = np.rnOwnsBuf ∧ (f np).rnSize = np.rnSize

theorem KeepsBuffer.owned {f : Node → Node} (hf : KeepsBuffer f) (np : Node) :
    (f np).owned = np.owned := by
  unfold Node.owned
  rw [(hf np).1, (hf np).2.1]

/-- The node owns its buffer if it has one. -/
def Movable (s : State) (j : ℕ) : Prop :=
  ∀ np, s.nodes[j]? = some np → np.rnBuf ≠ 0 → np.rnOwnsBuf = true

section Relink

variable {s : State} {f : Node → Node}

theorem Follows.modifyNode (h : Follows s) (hf : KeepsBuffer f) (i : ℕ) :
    Follows (s.modifyNode i f) := by
  cases hi : s.nodes[i]? with
  | none =>
      have hsame : s.modifyNode i f = s := by
        unfold State.modifyNode
        rw [List.modify_eq_set_getElem?, hi]
        rfl
      rw [hsame]
      exact h
  | some np =>
      refine h.putSame hi (modify_eq_set hi f) rfl rfl (hf.owned np) ?_
      rw [hf.owned, (hf np).2.2]
      exact h.sized np (List.mem_of_getElem? hi)

theorem Movable.modifyNode {j : ℕ} (h : Movable s j) (hf : KeepsBuffer f) (i : ℕ) :
    Movable (s.modifyNode i f) j := by
  intro np hnp
  have hget : (s.nodes[j]?).map (fun n => if i = j then f n else n) = some np := by
    rw [← hnp]
    exact (List.getElem?_modify f i s.nodes j).symm
  obtain ⟨n, hn, rfl⟩ := Option.map_eq_some_iff.mp hget
  split
  · rw [(hf n).1, (hf n).2.1]
    exact h n hn
  · exact h n hn

/-- A node without a buffer is added. -/
theorem Follows.push (h : Follows s) {np : Node} (hbuf : np.rnBuf = 0) :
    Follows { s with nodes := s.nodes ++ [np] } := by
  have hnone : np.owned = none := owned_eq_none.mpr fun hne => absurd hbuf hne
  have howned : ownedBufs (s.nodes ++ [np]) = ownedBufs s.nodes := by
    simp [ownedBufs, hnone]
  refine ⟨h.tidy, ?_, ?_, h.nodup, ?_⟩
  · rw [howned]
    exact h.windows
  · rw [howned]
    exact h.live
  · intro n hn ho
    rcases List.mem_append.mp hn with hn | hn
    · exact h.sized n hn ho
    · rw [List.mem_singleton.mp hn] at ho
      exact absurd hnone ho

theorem Movable.push {j : ℕ} (h : Movable s j) {np : Node} (hbuf : np.rnBuf = 0) :
    Movable { s with nodes := s.nodes ++ [np] } j := by
  intro n hn
  rcases lt_trichotomy j s.nodes.length with hlt | rfl | hgt
  · exact h n ((List.getElem?_append_left hlt).symm.trans hn)
  · rw [List.getElem?_concat_length] at hn
    cases hn
    exact fun hne => absurd hbuf hne
  · rw [List.getElem?_eq_none (by simp; omega)] at hn
    cases hn

end Relink

/-! ### Chains -/

/-- At most the chain or the name of node `i` is different. -/
def Relinked (s : State) (i : ℕ) (s' : State) : Prop :=
  s' = s ∨ ∃ f, KeepsBuffer f ∧ s' = s.modifyNode i f

theorem ramfsRemoveNode_spec (s : State) (d n : ℕ) :
    (ramfsRemoveNode s d n).Ensures fun r => Relinked s d r.2 := by
  refine Outcome.Ensures.deref fun dnp _ => ?_
  split
  · exact Or.inl rfl
  split
  · refine Or.inr ⟨_, ?_, rfl⟩
    exact fun _ => ⟨rfl, rfl, rfl⟩
  · exact Or.inl rfl

theorem removeDestination_spec (s : State) (d : ℕ) (vp2 : Option ℕ) :
    (removeDestination s d vp2).Ensures fun r => Relinked s d r.2 := by
  cases vp2 with
  | none => exact Or.inl rfl
  | some vp2 => exact Outcome.Ensures.deref fun v2 _ => ramfsRemoveNode_spec s d v2.vData

theorem ramfsRenameNode_spec (s : State) (n : ℕ) (name : List UInt8) (room : Bool) :
    (ramfsRenameNode s n name room).Ensures fun r => Relinked s n r.2 := by
  refine Outcome.Ensures.deref fun np _ => ?_
  split
  · exact Or.inl rfl
  split
  · refine Or.inr ⟨_, ?_, rfl⟩
    exact fun _ => ⟨rfl, rfl, rfl⟩
  · exact Or.inl rfl

/-- The new node is the last one; it has no buffer and would own one. -/
theorem ramfsAddNode_spec (s : State) (d : ℕ) (name : List UInt8) (type : Vtype) (room : Bool) :
    (ramfsAddNode s d name type room).Ensures fun r => ∀ k s', r = some (k, s') →
      room = true ∧ ∃ f np, KeepsBuffer f ∧ np.rnBuf = 0 ∧ np.rnOwnsBuf = true ∧
        k = (s.modifyNode d f).nodes.length ∧
        s' = { s.modifyNode d f with nodes := (s.modifyNode d f).nodes ++ [np] } := by
  unfold ramfsAddNode ramfsAllocateNode
  cases room with
  | false => exact fun _ _ h => nomatch h
  | true =>
      refine Outcome.Ensures.deref fun dnp _ => ?_
      rintro k s' h
      cases h
      refine ⟨rfl, _, _, ?_, ?_, ?_, ?_, rfl⟩
      · exact fun _ => ⟨rfl, rfl, rfl⟩
      · rfl
      · rfl
      · exact (List.length_modify _ _ _).symm

section Chains

variable {s s' : State} {i : ℕ}

theorem Follows.relinked (h : Follows s) (hs' : Relinked s i s') : Follows s' := by
  rcases hs' with rfl | ⟨f, hf, rfl⟩
  · exact h
  · exact h.modifyNode hf i

theorem Movable.relinked {j : ℕ} (h : Movable s j) (hs' : Relinked s i s') : Movable s' j := by
  rcases hs' with rfl | ⟨f, hf, rfl⟩
  · exact h
  · exact h.modifyNode hf i

theorem Follows.ramfsLookup (h : Follows s) (dvp : ℕ) (name : List UInt8) (got : Vget) :
    (ramfsLookup s dvp name got).Ensures fun r => Follows r.2 := by
  unfold Ramfs.ramfsLookup
  split
  · exact h
  refine Outcome.Ensures.deref fun dv _ => Outcome.Ensures.deref fun dnp _ => ?_
  split
  · exact h
  · cases got with
    | cached => exact h
    | null => exact h
    | fresh =>
        refine Outcome.Ensures.deref fun np _ => ?_
        exact ⟨h.tidy, h.windows, h.live, h.nodup, h.sized⟩

theorem Follows.ramfsCreate (h : Follows s) (dvp : ℕ) (name : List UInt8)
    (regular room : Bool) :
    (ramfsCreate s dvp name regular room).Ensures fun r => Follows r.2 := by
  unfold Ramfs.ramfsCreate
  split
  · exact h
  split
  · exact h
  refine Outcome.Ensures.deref fun dv _ =>
    (ramfsAddNode_spec s dv.vData name .vreg room).bind ?_
  rintro (_ | ⟨k, s'⟩) hadd
  · exact h
  · obtain ⟨-, f, np, hf, hbuf, -, -, rfl⟩ := hadd k s' rfl
    exact (h.modifyNode hf _).push hbuf

end Chains

/-! ### Buffers -/

section Buffers

variable {s : State} {vp : ℕ} {v : Vnode} {np : Node}

theorem toUInt64_ne_zero {a : Int64} (h : a ≠ 0) : a.toUInt64 ≠ 0 := by
  intro hzero
  apply h
  rw [← Int64.toInt64_toUInt64 a, hzero]
  rfl

/-- A new size, and no change of the owned buffer. -/
theorem Follows.resize (h : Follows s) (hnp : s.nodes[v.vData]? = some np) {np' : Node}
    (howned : np'.owned = np.owned) {size : Int64} (hsize : np'.owned ≠ none → size ≠ 0)
    (vp : ℕ) : Follows (s.resize vp v np' size) := by
  exact h.putSame hnp rfl rfl rfl howned fun ho => toUInt64_ne_zero (hsize ho)

theorem Follows.ramfsTruncate (h : Follows s) {length : Int64} {newBuf : UInt64}
    (hcond : Attended s (.truncate vp length newBuf)) :
    (ramfsTruncate s vp length newBuf).Ensures fun r => Follows r.2 := by
  refine Outcome.Ensures.deref fun v hv => Outcome.Ensures.deref fun np hnp => ?_
  have hcond := hcond v hv np hnp
  by_cases hzero : length = 0
  · rw [if_pos hzero] at hcond ⊢
    have hnone : np.owned = none := owned_eq_none.mpr hcond
    split
    · next hbuf =>
        unfold freeOwned
        rw [hcond hbuf]
        exact h.resize hnp (hnone ▸ owned_eq_none.mpr fun hne => absurd rfl hne)
          (fun ho => absurd (owned_eq_none.mpr fun hne => absurd rfl hne) ho) vp
    · exact h.resize hnp rfl (fun ho => absurd hnone ho) vp
  · rw [if_neg hzero] at hcond ⊢
    by_cases hlong : length.toUInt64 > np.rnBufsize
    · rw [if_pos hlong, hcond hlong]
      exact h
    · rw [if_neg hlong]
      exact h.resize hnp rfl (fun _ => hzero) vp

theorem Follows.ramfsSetFileData (h : Follows s) (vp : ℕ) (data size : UInt64) :
    (ramfsSetFileData s vp data size).Ensures fun r => Follows r.2 := by
  refine Outcome.Ensures.deref fun v _ => Outcome.Ensures.deref fun np hnp => ?_
  split
  · exact h
  split
  · exact h
  split
  · exact h
  · next hbuf =>
      have hnone : np.owned = none := owned_eq_none.mpr fun hne => absurd hne hbuf
      have hlent : ({ np with rnBuf := data, rnBufsize := size, rnOwnsBuf := false } :
          Node).owned = none := owned_eq_none.mpr fun _ => rfl
      exact h.resize hnp (hlent.trans hnone.symm) (fun ho => absurd hlent ho) vp

theorem dlRamfsFree_owned {live : List UInt64} {buf : UInt64} (hbuf : buf ≠ 0)
    (hlive : buf ∈ live) : dlRamfsFree live buf = .done (live.erase buf) := by
  unfold dlRamfsFree
  rw [if_neg hbuf, if_pos hlive]

/-- The buffer that a write replaces is freed and its window is closed. -/
theorem giveBack_spec (htidy : Tidy PlainTable.ramfs.heapMax s.tab)
    (hsized : np.owned ≠ none → np.rnSize ≠ 0)
    (hold : np.rnSize ≠ 0 → np.rnOwnsBuf = true → np.rnBuf ≠ 0)
    (hopen : ∀ b, np.owned = some b → b ∈ openBegins s.tab)
    (hlive : ∀ b, np.owned = some b → b ∈ s.live) (newSize : UInt64) :
    (giveBack s v np newSize).Ensures fun s' =>
      s'.nodes = s.nodes ∧ Tidy PlainTable.ramfs.heapMax s'.tab ∧
      Exchange np.owned none (openBegins s.tab) (openBegins s'.tab) ∧
      Exchange np.owned none s.live s'.live := by
  unfold giveBack
  by_cases hsize : np.rnSize ≠ 0
  · rw [if_pos hsize]
    refine Outcome.Ensures.bind (P := fun _ => True) ?_ fun _ _ => ?_
    · unfold copyOver
      split <;> trivial
    by_cases howns : np.rnOwnsBuf = true
    · have hbuf := hold hsize howns
      have ho := owned_eq_some hbuf howns
      obtain ⟨tab', hremove, htidy', hclosed⟩ :=
        openBegins_remove (fun _ => .spin) htidy hbuf (hopen _ ho)
      have hremove : ramfsIpcRemoveHeap s.tab np.rnBuf = .done tab' := hremove
      rw [if_pos howns, dlRamfsFree_owned hbuf (hlive _ ho), Outcome.done_bind, hremove, ho]
      exact ⟨rfl, htidy', hclosed, (List.perm_cons_erase (hlive _ ho)).symm⟩
    · rw [if_neg howns, owned_eq_none.mpr fun _ => by simpa using howns]
      exact ⟨rfl, htidy, List.Perm.refl _, List.Perm.refl _⟩
  · have hnone : np.owned = none := by
      by_contra ho
      exact hsize (hsized ho)
    rw [if_neg hsize, hnone]
    exact ⟨rfl, htidy, List.Perm.refl _, List.Perm.refl _⟩

/-- The new buffer takes the place of the owned one. -/
theorem expand_spec (h : Follows s) (hnp : s.nodes[v.vData]? = some np) {newSize newBuf : UInt64}
    (hroom : s.live.length < PlainTable.ramfs.heapMax)
    (hcond : newBuf ≠ 0 → newSize ≠ 0 ∧
      (np.rnSize ≠ 0 → np.rnOwnsBuf = true → np.rnBuf ≠ 0)) :
    (expand s v np newSize newBuf).Ensures fun r => ∀ s' np', r = some (s', np') →
      newBuf ≠ 0 ∧ s'.nodes = s.nodes ∧
      np' = { np with rnBuf := newBuf, rnBufsize := newSize } ∧
      Tidy PlainTable.ramfs.heapMax s'.tab ∧
      Exchange np.owned (some newBuf) (openBegins s.tab) (openBegins s'.tab) ∧
      Exchange np.owned (some newBuf) s.live s'.live := by
  unfold expand
  split
  · exact fun _ _ hr => nomatch hr
  next hbuf =>
  obtain ⟨hsize, hold⟩ := hcond hbuf
  have hlen : (openBegins s.tab).length < PlainTable.ramfs.heapMax :=
    (h.windows.trans h.live.symm).length_eq ▸ hroom
  obtain ⟨tab, hadd, htidy, hopen⟩ := openBegins_add h.tidy hlen newBuf hsize bufMask
  have hadd : ramfsIpcAddHeap s.tab newBuf newSize bufMask = .done tab := hadd
  have howned : ∀ b, np.owned = some b → b ∈ ownedBufs s.nodes := fun b hb =>
    List.mem_filterMap.mpr ⟨np, List.mem_of_getElem? hnp, hb⟩
  rw [hadd, Outcome.done_bind]
  refine (giveBack_spec htidy (h.sized np (List.mem_of_getElem? hnp)) hold ?_ ?_ newSize).bind ?_
  · intro b hb
    exact hopen.mem_iff.mpr (List.mem_cons_of_mem _ (h.windows.mem_iff.mpr (howned b hb)))
  · exact fun b hb => List.mem_cons_of_mem _ (h.live.mem_iff.mpr (howned b hb))
  · rintro s' ⟨hnodes, htidy', hclosed, hfreed⟩ s'' np' hr
    cases hr
    exact ⟨hbuf, hnodes, rfl, htidy', hclosed.trans hopen, hfreed⟩

theorem Follows.ramfsWrite (h : Follows s) {offset resid : Int64} {append : Bool}
    {newBuf : UInt64} (hfresh : Fresh s (.write vp offset resid append newBuf))
    (hcond : Attended s (.write vp offset resid append newBuf)) :
    (ramfsWrite s vp offset resid append newBuf).Ensures fun r => Follows r.2 := by
  refine Outcome.Ensures.deref fun v hv => Outcome.Ensures.deref fun np hnp => ?_
  cases hcheck : writeCheck v offset resid with
  | some e => exact h
  | none =>
  have hmove : ∀ np pos, (vfscoreUiomove np pos resid).Ensures fun _ => True := by
    intro np pos
    unfold vfscoreUiomove
    dsimp only
    split <;> trivial
  have hcond := hcond v hv np hnp hcheck
  dsimp only
  by_cases hlong : (writePos np offset append).toUInt64 + resid.toUInt64 > v.vSize.toUInt64
  · have hcond := hcond hlong
    have hend : writePos np offset append + resid ≠ 0 := by
      intro hzero
      rw [← Int64.toUInt64_add, hzero] at hlong
      exact absurd hlong (UInt64.not_lt.mpr (UInt64.zero_le))
    rw [if_pos hlong]
    split at hcond
    · next hgrow =>
        rw [if_pos hgrow]
        refine (expand_spec h hnp hfresh.2 hcond).bind ?_
        rintro (_ | ⟨s', np'⟩) hspec
        · exact h
        obtain ⟨hbuf, hnodes, rfl, htidy, hopen, hlive⟩ := hspec s' np' rfl
        refine (hmove _ _).bind fun e _ => ?_
        have howned : ({ np with rnBuf := newBuf, rnOwnsBuf := true } : Node).owned =
            some newBuf := owned_eq_some hbuf rfl
        refine h.put hnp (congrArg (List.set · v.vData _) hnodes) htidy ?_ ?_ (Or.inr ?_) ?_
        · exact howned ▸ hopen
        · exact howned ▸ hlive
        · rintro b hb
          cases howned.symm.trans hb
          exact hfresh.1
        · exact fun _ => toUInt64_ne_zero hend
    · next hfits =>
        rw [if_neg hfits]
        refine (hmove _ _).bind fun e _ => h.resize hnp ?_ (fun _ => hend) vp
        unfold Node.owned
        by_cases hbuf : np.rnBuf ≠ 0
        · rw [hcond hbuf]
        · simp [hbuf]
  · rw [if_neg hlong]
    exact (hmove _ _).bind fun e _ => h

/-- The new node owns what the old one owned. -/
theorem Follows.moveBuffer (h : Follows s) {j k : ℕ} {new : Node}
    (hk : s.nodes[k]? = some new) (hbuf : new.rnBuf = 0) (howns : new.rnOwnsBuf = true)
    (hjk : j ≠ k) (hm : Movable s j) : Follows (moveBuffer s j k) := by
  unfold Ramfs.moveBuffer
  cases hj : s.nodes[j]? with
  | none => exact h
  | some old =>
  dsimp only
  split
  · next hold =>
      let new' : Node := takeBuffer old new
      let old' : Node := { old with rnBuf := 0 }
      have hj' : (s.nodes.set k new')[j]? = some old := by
        rw [List.getElem?_set_ne hjk.symm, hj]
      have hnodes : ((s.modifyNode k (takeBuffer old)).modifyNode j
          fun np => { np with rnBuf := 0 }).nodes = (s.nodes.set k new').set j old' := by
        show (s.nodes.modify k _).modify j _ = _
        rw [modify_eq_set hk, modify_eq_set hj']
      have hnew : new.owned = none := owned_eq_none.mpr fun hne => absurd hbuf hne
      have howned : old.owned = some old.rnBuf := owned_eq_some hold (hm old hj hold)
      have hnew' : new'.owned = some old.rnBuf := owned_eq_some hold howns
      have hold' : old'.owned = none := owned_eq_none.mpr fun hne => absurd rfl hne
      have hfirst := ownedBufs_set hk new'
      have hthen := ownedBufs_set hj' old'
      rw [hnew, hnew'] at hfirst
      rw [howned, hold'] at hthen
      have hsame : (ownedBufs ((s.nodes.set k new').set j old')).Perm (ownedBufs s.nodes) :=
        List.Perm.cons_inv (hthen.trans hfirst)
      refine ⟨h.tidy, ?_, ?_, h.nodup, ?_⟩
      · rw [hnodes]
        exact h.windows.trans hsame.symm
      · rw [hnodes]
        exact h.live.trans hsame.symm
      · intro n hn ho
        rw [hnodes] at hn
        rcases List.mem_or_eq_of_mem_set hn with hn | rfl
        · rcases List.mem_or_eq_of_mem_set hn with hn | rfl
          · exact h.sized n hn ho
          · exact h.sized old (List.mem_of_getElem? hj) (by simp [howned])
        · exact absurd hold' ho
  · exact h

theorem Follows.ramfsRename (h : Follows s) {dvp1 vp1 dvp2 : ℕ} {vp2 : Option ℕ}
    {name2 : List UInt8} {room : Bool}
    (hcond : Attended s (.rename dvp1 vp1 dvp2 vp2 name2 room)) :
    (ramfsRename s dvp1 vp1 dvp2 vp2 name2 room).Ensures fun r => Follows r.2 := by
  refine Outcome.Ensures.deref fun dv1 _ => Outcome.Ensures.deref fun v1 hv1 =>
    Outcome.Ensures.deref fun dv2 _ => (removeDestination_spec s dv2.vData vp2).bind ?_
  rintro ⟨e, s₁⟩ hremoved
  have h₁ : Follows s₁ := h.relinked hremoved
  dsimp only
  split
  · exact h₁
  split
  · exact (ramfsRenameNode_spec s₁ v1.vData name2 room).mono fun r hr => h₁.relinked hr
  next hdirs =>
  refine Outcome.Ensures.deref fun old hold =>
    (ramfsAddNode_spec s₁ dv2.vData name2 old.rnType room).bind ?_
  rintro (_ | ⟨k, s₂⟩) hadd
  · exact h₁
  obtain ⟨hroom, f, np, hf, hbuf, howns, rfl, rfl⟩ := hadd k s₂ rfl
  have hm : Movable s v1.vData := fun n hn => hcond hdirs hroom v1 hv1 n hn
  have hlast : ((s₁.modifyNode dv2.vData f).nodes ++ [np])[(s₁.modifyNode dv2.vData f).nodes.length]? =
      some np := List.getElem?_concat_length
  have hne : v1.vData ≠ (s₁.modifyNode dv2.vData f).nodes.length := by
    have hlt := (List.getElem?_eq_some_iff.mp hold).1
    rw [State.modifyNode, List.length_modify]
    exact hlt.ne
  have h₂ := ((h₁.modifyNode hf dv2.vData).push hbuf).moveBuffer hlast hbuf howns hne
    (((hm.relinked hremoved).modifyNode hf dv2.vData).push hbuf)
  exact (ramfsRemoveNode_spec _ dv1.vData v1.vData).bind fun r hr => h₂.relinked hr

end Buffers

/-! ## §5  Whole runs -/

theorem Follows.step {s : State} {c : Call} (h : Follows s) (hfresh : Fresh s c)
    (hcond : Attended s c) : (step s c).Ensures Follows := by
  refine Outcome.Ensures.bind (P := fun r : Errno × State => Follows r.2) ?_ fun _ hr => hr
  cases c with
  | write vp offset resid append newBuf => exact h.ramfsWrite hfresh hcond
  | truncate vp length newBuf => exact h.ramfsTruncate hcond
  | setFileData vp data size => exact h.ramfsSetFileData vp data size
  | rename dvp1 vp1 dvp2 vp2 name2 room => exact h.ramfsRename hcond
  | create dvp name regular room => exact h.ramfsCreate dvp name regular room
  | lookup dvp name got => exact h.ramfsLookup dvp name got

end Ramfs

open Foundation Ramfs

/-- **Windows are the owned buffers.** As long as every call attends to the
windows, the open windows of ramfs are those on the buffers that its files own,
all of them live, and no call is caught in the removal of a window that is not
there. -/
theorem buffer_windows_exact {s : Ramfs.State} (hempty : Ramfs.Empty s) {cs : List Ramfs.Call}
    (hfresh : Along Ramfs.step Fresh s cs) (hcond : Along Ramfs.step Attended s cs) :
    Throughout Ramfs.step WindowsExact s cs ∧ runs Ramfs.step s cs ≠ .spin := by
  have hrun := throughout_of_along (fun s c h hG => Follows.step h hG.1 hG.2)
    (Follows.of_empty hempty) (hfresh.and hcond)
  exact ⟨hrun.1.mono fun _ h => h.windowsExact, hrun.2⟩

/-- A root directory with two files, and a vnode on each. -/
def twoFiles : Ramfs.State where
  nodes :=
    [{ rnType := .vdir, rnName := [47], rnChild := [1, 2], rnSize := 0, rnBuf := 0,
       rnBufsize := 0, rnOwnsBuf := true },
     { rnType := .vreg, rnName := [97], rnChild := [], rnSize := 0, rnBuf := 0,
       rnBufsize := 0, rnOwnsBuf := true },
     { rnType := .vreg, rnName := [98], rnChild := [], rnSize := 0, rnBuf := 0,
       rnBufsize := 0, rnOwnsBuf := true }]
  vnodes :=
    [{ vData := 0, vType := .vdir, vSize := 0 }, { vData := 1, vType := .vreg, vSize := 0 },
     { vData := 2, vType := .vreg, vSize := 0 }]
  tab := PlainTable.ramfs.init
  live := []

theorem twoFiles_empty : Ramfs.Empty twoFiles := ⟨by decide, rfl, rfl⟩

/-- A file is written and grows twice; the other one is written inside its page,
cut and written again. -/
theorem writes_keep_windows_exact :
    let cs : List Ramfs.Call :=
      [.write 1 0 10 false 0x10000, .write 2 0 100 false 0x20000, .write 1 0 5000 true 0x30000,
       .truncate 2 50 0, .write 2 0 60 true 0, .rename 0 1 0 (some 2) [99] true,
       .write 1 9000 10 false 0x10000]
    Throughout Ramfs.step WindowsExact twoFiles cs ∧ runs Ramfs.step twoFiles cs ≠ .spin :=
  buffer_windows_exact twoFiles_empty (by decide +kernel) (by decide +kernel)

/-- Two legal runs. After `truncate` to zero the window on the freed buffer is
still open. After `truncate` to 5000 the file owns a buffer without a window,
and the next write that outgrows it never returns from closing it. -/
theorem truncate_leaves_windows :
    let cut : List Ramfs.Call := [.write 1 0 10 false 0x10000, .truncate 1 0 0]
    let grown : List Ramfs.Call :=
      [.write 1 0 10 false 0x10000, .truncate 1 5000 0x20000, .write 1 0 9000 false 0x30000]
    Along Ramfs.step Fresh twoFiles cut ∧
      (∃ s, runs Ramfs.step twoFiles cut = .done s ∧ openBegins s.tab = [0x10000] ∧
        ownedBufs s.nodes = [] ∧ s.live = []) ∧
      Along Ramfs.step Fresh twoFiles grown ∧ runs Ramfs.step twoFiles grown = .spin := by
  refine ⟨by decide +kernel, ⟨_, rfl, ?_, ?_, ?_⟩, by decide +kernel, by decide +kernel⟩
  · decide +kernel
  · decide +kernel
  · decide +kernel

end CubicleOS
