import CubicleOS.Foundation.Outcome
import CubicleOS.Foundation.Machine
import CubicleOS.Foundation.Pages

/-!
# Network buffers

A `uk_netbuf` is a header for packet data that usually lies behind it in the same
block of memory. Two functions of uknetdev take the block from the dlmalloc of
that library; lwip takes blocks for receiving and for sending from the allocator
that it then registers in the header. All of them are given back by
`uk_netbuf_free_single`, which is part of uknetdev and compiled without
`UK_ALLOC_ORIG`, as the files of lwip are not.

A block comes as an argument, zero for `NULL`. Chains of buffers and the packet
data are left out: no buffer here has a neighbour, and where `next` or `prev` is
not `NULL` it points to no buffer.
-/

namespace CubicleOS

open Foundation

/-! ## §1  Headers -/

/-- The allocator that a block belongs to. -/
inductive Pool where
  | ukAlloc (a : UInt64)
  | netdev
deriving DecidableEq, Repr

/-- `struct uk_netbuf`, with `_a` as `a`. -/
structure Netbuf where
  next : UInt64
  prev : UInt64
  data : UInt64
  len : UInt16
  refcount : UInt32
  priv : UInt64
  buf : UInt64
  buflen : UInt64
  dtor : UInt64
  a : UInt64
deriving DecidableEq, Repr

/-- `sizeof(struct uk_netbuf)`. -/
def netbufSize : UInt64 := 72

/-- `NETBUF_ADDR_ALIGN_UP`. -/
def netbufAddrAlignUp (x : UInt64) : UInt64 := alignUp x 8

def ukNetbufInitIndir (m buf buflen : UInt64) (headroom : UInt16) (priv dtor : UInt64) :
    Outcome Netbuf :=
  (ukAssert (m ≠ 0)).bind fun _ =>
  (ukAssert (buf ≠ 0 ∨ buf = 0 ∧ buflen = 0)).bind fun _ =>
  (ukAssert (headroom.toUInt64 ≤ buflen)).bind fun _ =>
    .done {
      next := 0
      prev := 0
      data := buf + headroom.toUInt64
      len := 0
      refcount := 1
      priv := priv
      buf := buf
      buflen := buflen
      dtor := dtor
      a := 0 }

/-- Where `buf` and `priv` lie in a block with the header at its start, and the
padding that is added to the headroom. -/
structure NetbufOffsets where
  buf : UInt64
  priv : UInt64
  extra : UInt64
deriving DecidableEq, Repr

/-- A headroom too large to be padded leaves both at zero, on the header. -/
def netbufOffsets (headroom : UInt16) (privlen : UInt64) : NetbufOffsets :=
  if (0xFFFF - headroom).toUInt64 > 8 then
    if privlen = 0 then
      { buf := netbufSize
        priv := 0
        extra := netbufAddrAlignUp netbufSize - netbufSize }
    else
      { buf := netbufAddrAlignUp netbufSize + privlen
        priv := netbufAddrAlignUp netbufSize
        extra := netbufAddrAlignUp privlen - privlen }
  else { buf := 0, priv := 0, extra := 0 }

/-- The bytes that `dl_netdev_malloc` is asked for: its prototype has an `int`. -/
def dlNetdevBytes (size : UInt64) : UInt64 := size.toUInt32.toUInt64

/-- A block of `dl_netdev_malloc(size)` as a header. It may be too small for
one. -/
def asHeader (size : UInt64) (init : Outcome Netbuf) : Outcome Netbuf :=
  if dlNetdevBytes size < netbufSize then .wild else init

def ukNetbufAllocIndir (a m buf buflen : UInt64) (headroom : UInt16) (privlen dtor : UInt64) :
    Outcome (Option Netbuf) :=
  if m = 0 then .done none
  else
    let size := if privlen ≠ 0 then netbufAddrAlignUp netbufSize + privlen else netbufSize
    let priv := if privlen > 0 then m + netbufAddrAlignUp netbufSize else 0
    (asHeader size (ukNetbufInitIndir m buf buflen headroom priv dtor)).bind fun nb =>
      .done (some { nb with a := a })

def ukNetbufAllocBuf (a m buflen : UInt64) (headroom : UInt16) (privlen dtor : UInt64) :
    Outcome (Option Netbuf) :=
  (ukAssert (buflen > 0)).bind fun _ =>
  (ukAssert (headroom.toUInt64 ≤ buflen)).bind fun _ =>
    if m = 0 then .done none
    else
      let size := netbufAddrAlignUp netbufSize + netbufAddrAlignUp privlen + buflen
      let off := netbufOffsets headroom privlen
      let priv := if privlen > 0 then m + off.priv else 0
      (asHeader size (ukNetbufInitIndir m (m + off.buf) (buflen + off.extra)
        (headroom.toUInt64 + off.extra).toUInt16 priv dtor)).bind fun nb =>
        .done (some { nb with a := a })

/-- `none` when the block is too small. -/
def ukNetbufPrepareBuf (mem size : UInt64) (headroom : UInt16) (privlen dtor : UInt64) :
    Outcome (Option Netbuf) :=
  (ukAssert (mem ≠ 0)).bind fun _ =>
    if netbufAddrAlignUp netbufSize + netbufAddrAlignUp privlen + headroom.toUInt64 > size then
      .done none
    else
      let off := netbufOffsets headroom privlen
      let priv := if privlen > 0 then mem + off.priv else 0
      (ukNetbufInitIndir mem (mem + off.buf) (size - off.buf)
        (headroom.toUInt64 + off.extra).toUInt16 priv dtor).bind fun nb => .done (some nb)

def ukNetbufTailroom (nb : Netbuf) : Outcome UInt64 :=
  (ukAssert (nb.buf ≠ 0)).bind fun _ =>
  (ukAssert (nb.data ≠ 0)).bind fun _ =>
    .done (nb.buf + nb.buflen - (nb.data + nb.len.toUInt64))

/-! ## §2  References -/

def ukRefcountAcquire (counter : UInt32) : Outcome UInt32 :=
  (ukAssert (counter < 0xFFFFFFFF)).bind fun _ => .done (counter + 1)

/-- The counter and whether this was the last reference. -/
def ukRefcountRelease (old : UInt32) : Outcome (UInt32 × Bool) :=
  (ukAssert (old > 0)).bind fun _ => .done (old - 1, decide (old ≤ 1))

/-- What the last release does to a buffer. -/
inductive NetbufEvent where
  | destroy (dtor : UInt64)
  | free (pool : Pool)
deriving DecidableEq, Repr

/-- `uk_netbuf_disconnect` of a buffer without neighbours. -/
def ukNetbufDisconnect (nb : Netbuf) : Outcome Netbuf :=
  if nb.prev ≠ 0 ∨ nb.next ≠ 0 then .wild else .done { nb with prev := 0, next := 0 }

/-- The destructor is the maker's; where an allocator is registered it leaves the
memory alone. `dl_netdev_free` whatever the allocator. -/
def ukNetbufFreeSingle (nb : Netbuf) : Outcome (Netbuf × List NetbufEvent) :=
  (ukRefcountRelease nb.refcount).bind fun (counter, last) =>
    if last then
      (ukNetbufDisconnect { nb with refcount := counter }).bind fun nb =>
        .done (nb, (if nb.dtor ≠ 0 then [.destroy nb.dtor] else []) ++
          if nb.a ≠ 0 then [.free .netdev] else [])
    else .done ({ nb with refcount := counter }, [])

/-- The allocators that the memory was given to. -/
def frees (log : List NetbufEvent) : List Pool :=
  log.filterMap fun
    | .destroy _ => none
    | .free pool => some pool

inductive RefOp where
  | take
  | release
deriving DecidableEq, Repr

/-- A buffer is not there any more once its memory was given back. -/
def refStep (s : Netbuf × List NetbufEvent) (op : RefOp) :
    Outcome (Netbuf × List NetbufEvent) :=
  if frees s.2 ≠ [] then .wild
  else
    match op with
    | .take =>
        (ukRefcountAcquire s.1.refcount).bind fun counter =>
          .done ({ s.1 with refcount := counter }, s.2)
    | .release =>
        (ukNetbufFreeSingle s.1).bind fun (nb, log) => .done (nb, s.2 ++ log)

/-- The references that are left of `n`, when one is there for every operation and
there are never more than the counter counts. -/
def references : ℕ → List RefOp → Option ℕ
  | n, [] => some n
  | 0, _ :: _ => none
  | n + 1, .take :: ops => if n + 2 < 2 ^ 32 then references (n + 2) ops else none
  | n + 1, .release :: ops => references n ops

/-- Whatever references are taken and released, the memory is given back at the
last release, once and to `origin`. -/
def ReturnsTo (origin : Pool) (nb : Netbuf) : Prop :=
  ∀ ops n, references 1 ops = some n →
    ∃ s, runs refStep (nb, []) ops = .done s ∧
      frees s.2 = if n = 0 then [origin] else []

/-! ## §3  Makers -/

/-- `sizeof(struct _netbuf_pbuf)`. -/
def netbufPbufSize : UInt64 := 40

/-- The pbuf at the start of the block, over the header `b`: a zero `next`, the
payload where `prev` is, its type, flags and count on `data`, the upper half of
the address of `_netbuf_free` on the reference count, and the link back to the
buffer on `priv`. The payload is read from `data` when the count is not yet
there. -/
def pbufOverHeader (netbufFree allocation : UInt64) (b : Netbuf) : Netbuf :=
  { b with
    next := 0
    prev := 0x20100000000
    data := 0x1020100000000
    refcount := (netbufFree >>> 32).toUInt32
    priv := allocation }

/-- `lwip_alloc_netbuf` from the block on; `netbufFree` is the address of
`_netbuf_free`. The pbuf is written to the private data, which is apart from the
header unless it is at the start of the block. -/
def lwipInitNetbuf (netbufFree a allocation allocSize headroom : UInt64) :
    Outcome (Option Netbuf) :=
  (ukNetbufPrepareBuf allocation allocSize headroom.toUInt16 netbufPbufSize 0).bind fun
    | none => .done none
    | some b =>
        let b := if b.priv = allocation then pbufOverHeader netbufFree allocation b else b
        .done (some { b with a := a, len := (b.buflen - headroom).toUInt16 })

/-- `UKNETDEV_BUFLEN`. -/
def uknetdevBuflen : UInt64 := 2048

/-- The buffer that `uknetdev_output` makes for itself. -/
def outputNetbuf (a allocation : UInt64) (txHeadroom : UInt16) : Outcome Netbuf :=
  (ukNetbufPrepareBuf allocation uknetdevBuflen txHeadroom 0 0).bind fun
    | none => .spin
    | some nb => .done { nb with a := a }

/-- The ways to get a buffer. `mem` is the block that the allocator hands out. -/
inductive NetbufMaker where
  | lwip (netbufFree allocSize headroom : UInt64)
  | output (txHeadroom : UInt16)
  | allocIndir (buf buflen : UInt64) (headroom : UInt16) (privlen dtor : UInt64)
  | allocBuf (buflen : UInt64) (headroom : UInt16) (privlen dtor : UInt64)
deriving DecidableEq, Repr

namespace NetbufMaker

/-- `uk_malloc` has nothing without an allocator. -/
def make (a mem : UInt64) : NetbufMaker → Outcome (Option Netbuf)
  | lwip netbufFree allocSize headroom =>
      if a = 0 ∨ mem = 0 then .done none
      else lwipInitNetbuf netbufFree a mem allocSize headroom
  | output txHeadroom =>
      if a = 0 ∨ mem = 0 then .done none
      else (outputNetbuf a mem txHeadroom).bind fun nb => .done (some nb)
  | allocIndir buf buflen headroom privlen dtor =>
      ukNetbufAllocIndir a mem buf buflen headroom privlen dtor
  | allocBuf buflen headroom privlen dtor =>
      ukNetbufAllocBuf a mem buflen headroom privlen dtor

/-- The allocator that the block is from. -/
def origin (a : UInt64) : NetbufMaker → Pool
  | lwip .. => .ukAlloc a
  | output .. => .ukAlloc a
  | allocIndir .. => .netdev
  | allocBuf .. => .netdev

/-- Made by uknetdev itself. -/
def ofNetdev : NetbufMaker → Prop
  | lwip .. => False
  | output .. => False
  | allocIndir .. => True
  | allocBuf .. => True

instance : DecidablePred ofNetdev
  | lwip .. => isFalse id
  | output .. => isFalse id
  | allocIndir .. => isTrue trivial
  | allocBuf .. => isTrue trivial

end NetbufMaker

/-- One reference and no neighbours: the next release is the last. -/
structure Netbuf.Single (nb : Netbuf) : Prop where
  refcount : nb.refcount = 1
  prev : nb.prev = 0
  next : nb.next = 0

theorem ukNetbufInitIndir_done {m buf buflen priv dtor : UInt64} {headroom : UInt16}
    {nb : Netbuf} (h : ukNetbufInitIndir m buf buflen headroom priv dtor = .done nb) :
    nb = { next := 0, prev := 0, data := buf + headroom.toUInt64, len := 0, refcount := 1,
           priv := priv, buf := buf, buflen := buflen, dtor := dtor, a := 0 } := by
  obtain ⟨-, -, h⟩ := Outcome.bind_eq_done.mp h
  obtain ⟨-, -, h⟩ := Outcome.bind_eq_done.mp h
  obtain ⟨-, -, h⟩ := Outcome.bind_eq_done.mp h
  cases h
  rfl

theorem ukNetbufInitIndir_single {m buf buflen priv dtor : UInt64} {headroom : UInt16}
    {nb : Netbuf} (h : ukNetbufInitIndir m buf buflen headroom priv dtor = .done nb) :
    nb.Single := by
  rw [ukNetbufInitIndir_done h]
  exact ⟨rfl, rfl, rfl⟩

theorem asHeader_done {size : UInt64} {init : Outcome Netbuf} {nb : Netbuf}
    (h : asHeader size init = .done nb) : init = .done nb := by
  unfold asHeader at h
  split at h
  · cases h
  · exact h

/-- What `uk_netbuf_prepare_buf` makes of a block that is large enough. -/
theorem ukNetbufPrepareBuf_some {mem size privlen dtor : UInt64} {headroom : UInt16}
    {nb : Netbuf} (h : ukNetbufPrepareBuf mem size headroom privlen dtor = .done (some nb)) :
    ¬ netbufAddrAlignUp netbufSize + netbufAddrAlignUp privlen + headroom.toUInt64 > size ∧
      ukNetbufInitIndir mem (mem + (netbufOffsets headroom privlen).buf)
        (size - (netbufOffsets headroom privlen).buf)
        (headroom.toUInt64 + (netbufOffsets headroom privlen).extra).toUInt16
        (if privlen > 0 then mem + (netbufOffsets headroom privlen).priv else 0) dtor =
          .done nb := by
  obtain ⟨-, -, h⟩ := Outcome.bind_eq_done.mp h
  split at h
  · cases h
  · rename_i hsize
    obtain ⟨nb', hinit, h⟩ := Outcome.bind_eq_done.mp h
    cases h
    exact ⟨hsize, hinit⟩

theorem outputNetbuf_done {a allocation : UInt64} {txHeadroom : UInt16} {nb : Netbuf}
    (h : outputNetbuf a allocation txHeadroom = .done nb) :
    ∃ b, ukNetbufPrepareBuf allocation uknetdevBuflen txHeadroom 0 0 = .done (some b) ∧
      nb = { b with a := a } := by
  obtain ⟨b, hb, h⟩ := Outcome.bind_eq_done.mp h
  cases b with
  | none => cases h
  | some b =>
      cases h
      exact ⟨b, hb, rfl⟩

theorem lwipInitNetbuf_some {netbufFree a allocation allocSize headroom : UInt64} {nb : Netbuf}
    (h : lwipInitNetbuf netbufFree a allocation allocSize headroom = .done (some nb)) :
    ∃ b, ukNetbufPrepareBuf allocation allocSize headroom.toUInt16 netbufPbufSize 0 =
        .done (some b) ∧ nb.a = a ∧ (b.priv ≠ allocation → b.Single → nb.Single) := by
  obtain ⟨b, hb, h⟩ := Outcome.bind_eq_done.mp h
  cases b with
  | none => cases h
  | some b =>
      cases h
      refine ⟨b, hb, rfl, fun hpriv hsingle => ?_⟩
      rw [if_neg hpriv]
      exact ⟨hsingle.refcount, hsingle.prev, hsingle.next⟩

/-- The allocator that was passed is registered; lwip passes one. A buffer that
uknetdev makes starts with one reference. -/
theorem NetbufMaker.make_some {maker : NetbufMaker} {a mem : UInt64} {nb : Netbuf}
    (h : maker.make a mem = .done (some nb)) :
    nb.a = a ∧ (¬ maker.ofNetdev → a ≠ 0) ∧ (maker.ofNetdev → nb.Single) := by
  cases maker with
  | lwip netbufFree allocSize headroom =>
      change (if a = 0 ∨ mem = 0 then _
        else lwipInitNetbuf netbufFree a mem allocSize headroom) = _ at h
      split at h
      · cases h
      · rename_i hne
        obtain ⟨b, -, ha, -⟩ := lwipInitNetbuf_some h
        exact ⟨ha, fun _ ha0 => hne (Or.inl ha0), fun hno => hno.elim⟩
  | output txHeadroom =>
      change (if a = 0 ∨ mem = 0 then _
        else (outputNetbuf a mem txHeadroom).bind fun nb => _) = _ at h
      split at h
      · cases h
      · rename_i hne
        obtain ⟨nb', hmake, h⟩ := Outcome.bind_eq_done.mp h
        cases h
        obtain ⟨b, -, rfl⟩ := outputNetbuf_done hmake
        exact ⟨rfl, fun _ ha0 => hne (Or.inl ha0), fun hno => hno.elim⟩
  | allocIndir buf buflen headroom privlen dtor =>
      change ukNetbufAllocIndir a mem buf buflen headroom privlen dtor = _ at h
      unfold ukNetbufAllocIndir at h
      split at h
      · cases h
      · obtain ⟨b, hb, h⟩ := Outcome.bind_eq_done.mp h
        cases h
        have hsingle := ukNetbufInitIndir_single (asHeader_done hb)
        refine ⟨rfl, fun hno => absurd trivial hno, fun _ => ?_⟩
        exact ⟨hsingle.refcount, hsingle.prev, hsingle.next⟩
  | allocBuf buflen headroom privlen dtor =>
      obtain ⟨-, -, h⟩ := Outcome.bind_eq_done.mp h
      obtain ⟨-, -, h⟩ := Outcome.bind_eq_done.mp h
      split at h
      · cases h
      · obtain ⟨b, hb, h⟩ := Outcome.bind_eq_done.mp h
        cases h
        have hsingle := ukNetbufInitIndir_single (asHeader_done hb)
        refine ⟨rfl, fun hno => absurd trivial hno, fun _ => ?_⟩
        exact ⟨hsingle.refcount, hsingle.prev, hsingle.next⟩

/-! ## §4  Where the memory goes -/

@[simp] theorem frees_nil : frees [] = [] := rfl

theorem frees_append (log log' : List NetbufEvent) :
    frees (log ++ log') = frees log ++ frees log' :=
  List.filterMap_append

theorem ukNetbufFreeSingle_last {nb : Netbuf} (h : nb.Single) :
    ∃ nb' log, ukNetbufFreeSingle nb = .done (nb', log) := by
  refine ⟨{ nb with refcount := 0, prev := 0, next := 0 },
    (if nb.dtor ≠ 0 then [.destroy nb.dtor] else []) ++
      if nb.a ≠ 0 then [.free .netdev] else [], ?_⟩
  unfold ukNetbufFreeSingle ukRefcountRelease ukAssert ukNetbufDisconnect
  rw [h.refcount, h.prev, h.next]
  rfl

/-- The memory goes when the count is one and an allocator is registered, and it
goes to the dlmalloc of uknetdev. -/
theorem ukNetbufFreeSingle_frees {nb nb' : Netbuf} {log : List NetbufEvent}
    (h : ukNetbufFreeSingle nb = .done (nb', log)) :
    frees log = if nb.refcount = 1 ∧ nb.a ≠ 0 then [.netdev] else [] := by
  obtain ⟨⟨counter, last⟩, hrelease, h⟩ := Outcome.bind_eq_done.mp h
  obtain ⟨_, hpos, hrelease⟩ := Outcome.bind_eq_done.mp hrelease
  have hpos := ukAssert_eq_done.mp hpos
  cases hrelease
  by_cases hlast : nb.refcount ≤ 1
  · have hone : nb.refcount = 1 := by
      rw [gt_iff_lt, UInt32.lt_iff_toNat_lt] at hpos
      rw [UInt32.le_iff_toNat_le] at hlast
      exact UInt32.toNat_inj.mp (Nat.le_antisymm hlast hpos)
    rw [decide_eq_true hlast] at h
    obtain ⟨nb₁, hdisc, h⟩ := Outcome.bind_eq_done.mp h
    unfold ukNetbufDisconnect at hdisc
    split at hdisc
    · cases hdisc
    · cases hdisc
      cases h
      rw [frees_append]
      by_cases ha : nb.a ≠ 0
      · simp only [ha, hone, ne_eq, not_false_eq_true, and_self, if_true]
        split <;> rfl
      · simp only [ha, and_false, if_false]
        split <;> rfl
  · have hmany : nb.refcount ≠ 1 := by
      intro hone
      rw [hone] at hlast
      exact hlast (UInt32.le_refl 1)
    rw [decide_eq_false hlast] at h
    cases h
    simp [hmany]

theorem ukNetbufFreeSingle_a {nb nb' : Netbuf} {log : List NetbufEvent}
    (h : ukNetbufFreeSingle nb = .done (nb', log)) : nb'.a = nb.a := by
  obtain ⟨⟨counter, last⟩, -, h⟩ := Outcome.bind_eq_done.mp h
  cases last with
  | false =>
      cases h
      rfl
  | true =>
      obtain ⟨nb₁, hdisc, h⟩ := Outcome.bind_eq_done.mp h
      unfold ukNetbufDisconnect at hdisc
      split at hdisc
      · cases hdisc
      · cases hdisc
        cases h
        rfl

theorem ukNetbufFreeSingle_other {nb : Netbuf} {n : ℕ} (h : nb.refcount.toNat = n + 2) :
    ∃ nb' : Netbuf, ukNetbufFreeSingle nb = .done (nb', []) ∧
      nb' = { nb with refcount := nb.refcount - 1 } ∧ nb'.refcount.toNat = n + 1 := by
  have hpos : nb.refcount > 0 := by
    rw [gt_iff_lt, UInt32.lt_iff_toNat_lt, h]
    simp
  have hmore : ¬ nb.refcount ≤ 1 := by
    rw [UInt32.le_iff_toNat_le, h]
    simp
  refine ⟨_, ?_, rfl, ?_⟩
  · unfold ukNetbufFreeSingle ukRefcountRelease ukAssert
    rw [if_pos hpos]
    simp [hmore]
  · have hle : (1 : UInt32) ≤ nb.refcount := by
      rw [UInt32.le_iff_toNat_le, h]
      simp
    rw [UInt32.toNat_sub_of_le _ _ hle, h]
    rfl

/-- A run from `n + 1` references: the memory goes with the last one, if an
allocator is registered. -/
theorem runs_refStep {ops : List RefOp} {nb : Netbuf} {n k : ℕ}
    (hcount : nb.refcount.toNat = n + 1) (hprev : nb.prev = 0) (hnext : nb.next = 0)
    (hops : references (n + 1) ops = some k) :
    ∃ s, runs refStep (nb, []) ops = .done s ∧
      frees s.2 = if k = 0 ∧ nb.a ≠ 0 then [.netdev] else [] := by
  induction ops generalizing nb n with
  | nil =>
      cases hops
      exact ⟨(nb, []), rfl, by simp⟩
  | cons op ops ih =>
      cases op with
      | take =>
          unfold references at hops
          split at hops
          · rename_i hlt
            have hmax : nb.refcount < 0xFFFFFFFF := by
              rw [UInt32.lt_iff_toNat_lt, hcount]
              simp
              omega
            have hmore : (nb.refcount + 1).toNat = n + 1 + 1 := by
              rw [UInt32.toNat_add, hcount]
              exact Nat.mod_eq_of_lt hlt
            obtain ⟨s, hrun, hfrees⟩ :=
              @ih { nb with refcount := nb.refcount + 1 } (n + 1) hmore hprev hnext hops
            refine ⟨s, runs_cons_eq_done.mpr ⟨_, ?_, hrun⟩, hfrees⟩
            unfold refStep ukRefcountAcquire ukAssert
            simp [hmax]
          · cases hops
      | release =>
          change references n ops = some k at hops
          cases n with
          | zero =>
              have hsingle : nb.Single := ⟨UInt32.toNat_inj.mp hcount, hprev, hnext⟩
              obtain ⟨nb', log, hfree⟩ := ukNetbufFreeSingle_last hsingle
              have hlog := ukNetbufFreeSingle_frees hfree
              cases ops with
              | nil =>
                  cases hops
                  refine ⟨(nb', log), runs_cons_eq_done.mpr ⟨_, ?_, rfl⟩,
                    by simpa [hsingle.refcount] using hlog⟩
                  unfold refStep
                  simp [hfree]
              | cons op' ops' => cases hops
          | succ n =>
              obtain ⟨nb', hfree, rfl, hcount'⟩ := ukNetbufFreeSingle_other hcount
              obtain ⟨s, hrun, hfrees⟩ := ih hcount' hprev hnext hops
              refine ⟨s, runs_cons_eq_done.mpr ⟨_, ?_, hrun⟩, hfrees⟩
              unfold refStep
              simp [hfree]

/-- **Back where it came from.** The memory of a buffer returns to the allocator
that it was obtained from, exactly when uknetdev made it and was passed some
allocator: `uk_netbuf_free_single` asks whether one is registered, and then
calls its own. -/
theorem memory_returns_iff {maker : NetbufMaker} {a mem : UInt64} {nb : Netbuf}
    (h : maker.make a mem = .done (some nb)) :
    ReturnsTo (maker.origin a) nb ↔ maker.ofNetdev ∧ a ≠ 0 := by
  obtain ⟨ha, hlwip, hsingle⟩ := maker.make_some h
  constructor
  · intro hret
    -- one release of the only reference
    obtain ⟨s, hrun, hfrees⟩ := hret [.release] 0 rfl
    obtain ⟨s₁, hstep, hrun⟩ := runs_cons_eq_done.mp hrun
    cases hrun
    obtain ⟨⟨nb', log⟩, hfree, hstep⟩ := Outcome.bind_eq_done.mp hstep
    cases hstep
    change frees log = [maker.origin a] at hfrees
    rw [ukNetbufFreeSingle_frees hfree, ha] at hfrees
    split at hfrees
    · rename_i hlast
      refine ⟨?_, hlast.2⟩
      cases maker with
      | lwip netbufFree allocSize headroom => cases hfrees
      | output txHeadroom => cases hfrees
      | allocIndir buf buflen headroom privlen dtor => trivial
      | allocBuf buflen headroom privlen dtor => trivial
    · cases hfrees
  · rintro ⟨hnetdev, ha0⟩ ops n hops
    have hsingle := hsingle hnetdev
    have hcount : nb.refcount.toNat = 0 + 1 := by rw [hsingle.refcount]; rfl
    obtain ⟨s, hrun, hfrees⟩ := runs_refStep hcount hsingle.prev hsingle.next hops
    refine ⟨s, hrun, hfrees.trans ?_⟩
    have horigin : maker.origin a = .netdev := by
      cases maker with
      | lwip netbufFree allocSize headroom => exact hnetdev.elim
      | output txHeadroom => exact hnetdev.elim
      | allocIndir buf buflen headroom privlen dtor => rfl
      | allocBuf buflen headroom privlen dtor => rfl
    simp [horigin, ha, ha0]

/-- `uk_netbuf_alloc_buf(a, 1500, 64, 0, NULL)` at `0x10000`. -/
def packetNetbuf : Netbuf :=
  { next := 0, prev := 0, data := 0x10088, len := 0, refcount := 1, priv := 0,
    buf := 0x10048, buflen := 1500, dtor := 0, a := 0x5000 }

theorem alloc_buf_returns :
    NetbufMaker.make 0x5000 0x10000 (.allocBuf 1500 64 0 0) = .done (some packetNetbuf) ∧
      ReturnsTo .netdev packetNetbuf := by
  have hmake : NetbufMaker.make 0x5000 0x10000 (.allocBuf 1500 64 0 0) =
      .done (some packetNetbuf) := by decide
  exact ⟨hmake, (memory_returns_iff hmake).mpr ⟨trivial, by decide⟩⟩

/-- `lwip_alloc_netbuf(a, 2048, 2)` at `0x10000`. -/
def receiveNetbuf : Netbuf :=
  { next := 0, prev := 0, data := 0x10072, len := 1934, refcount := 1, priv := 0x10048,
    buf := 0x10070, buflen := 1936, dtor := 0, a := 0x5000 }

/-- The block of a receive buffer is from `uk_malloc` and ends in the dlmalloc of
uknetdev. -/
theorem receive_buffer_changes_pool :
    NetbufMaker.make 0x5000 0x10000 (.lwip 0x7f0000001000 2048 2) = .done (some receiveNetbuf) ∧
      (NetbufMaker.lwip 0x7f0000001000 2048 2).origin 0x5000 = .ukAlloc 0x5000 ∧
      references 1 [.take, .release, .release] = some 0 ∧
      (runs refStep (receiveNetbuf, []) [.take, .release, .release]).bind
        (fun s => .done (frees s.2)) = .done [.netdev] ∧
      ¬ ReturnsTo (.ukAlloc 0x5000) receiveNetbuf := by
  have hrun : (runs refStep (receiveNetbuf, []) [.take, .release, .release]).bind
      (fun s => .done (frees s.2)) = .done [.netdev] := by decide
  refine ⟨by decide, rfl, by decide, hrun, fun hret => ?_⟩
  obtain ⟨s, hs, hfrees⟩ := hret [.take, .release, .release] 0 (by decide)
  rw [hs, Outcome.done_bind, hfrees] at hrun
  exact absurd hrun (by decide)

end CubicleOS
