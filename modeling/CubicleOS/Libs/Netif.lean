import CubicleOS.Libs.Netbuf
import CubicleOS.Libs.IpcTables

/-!
# The network interface

`uknetdev.c` of lwip sends and receives packets through the driver in uknetdev.
Every buffer is a block of its own, and because the driver reads and writes it,
lwip opens a window on it: when the block is allocated, until the buffer is
freed or sent. Two things are compared here with that intent: what one call of
`uknetdev_output` leaves behind, on the table of windows as it is; and over a
whole run, which receive buffers have a window and which are still there, with
the table as the set of its begin addresses.
-/

namespace CubicleOS

open Foundation

/-! ## §1  Sending -/

/-- `uk_netdev_status_notready`: neither success nor an error. -/
def ukNetdevStatusNotready (status : Int32) : Bool :=
  decide (status &&& (1 ||| Int32.minValue) = 0)

/-- A driver: what `tx_one` returns, call by call, and whether the driver frees a
packet that it has sent. -/
structure NetDriver where
  statuses : List Int32
  frees : Bool
deriving DecidableEq, Repr

/-- `virtio_netdev_xmit`; `ret` is what the write to the socket returns. The
packet is not freed. -/
def virtioNetdevXmit (ret : Int32) (len : UInt16) : Outcome Int32 :=
  if ret ≠ len.toUInt32.toInt32 then .spin else .done 1

/-- The driver of uknetdev for a packet of `len` bytes: one answer, or none when
the write was short. -/
def virtioNetdev (ret : Int32) (len : UInt16) : NetDriver where
  statuses :=
    match virtioNetdevXmit ret len with
    | .done status => [status]
    | _ => []
  frees := false

/-- The status that ends the loop, of a driver that returns one. -/
def NetDriver.answer (dev : NetDriver) : Option Int32 :=
  dev.statuses.find? fun status => !ukNetdevStatusNotready status

/-- The loop around `uk_netdev_tx_one_wrap`: the status that ends it, and what the
driver did to the packet. -/
def txLoop (frees : Bool) (nb : Netbuf) : List Int32 → Outcome (Int32 × Netbuf × List NetbufEvent)
  | [] => .spin
  | ret :: statuses =>
      if ukNetdevStatusNotready ret then txLoop frees nb statuses
      else if 0 ≤ ret ∧ frees = true then
        (ukNetbufFreeSingle nb).bind fun (nb, log) => .done (ret, nb, log)
      else .done (ret, nb, [])

inductive ErrT where
  | ok | mem | interface
deriving DecidableEq, Repr

/-- The result of `uknetdev_output`, the window table after it and what happened
to the buffer. -/
structure Sent where
  err : ErrT
  tab : List IpcStruct
  log : List NetbufEvent
deriving DecidableEq, Repr

/-- `(1 << 11) | (1 << 17)`. -/
def netWindowMask : Int32 := 0x20800

/-- `ETH_PAD_SIZE`: the padding word of a packet, which is not sent. -/
def ethPadSize : UInt64 := 2

/-- `uknetdev_output` with the default allocator `a`, for a packet of `totLen`
bytes with its padding word. -/
def uknetdevOutput (a allocation : UInt64) (txHeadroom totLen : UInt16) (dev : NetDriver)
    (tab : List IpcStruct) : Outcome Sent :=
  if a = 0 then .done { err := .mem, tab := tab, log := [] }
  else if allocation = 0 then .done { err := .mem, tab := tab, log := [] }
  else
    (lwipIpcAddHeap tab allocation uknetdevBuflen netWindowMask).bind fun tab =>
    (outputNetbuf a allocation txHeadroom).bind fun nb =>
    (ukNetbufTailroom nb).bind fun tailroom =>
      if totLen.toUInt64 > tailroom then
        (ukNetbufFreeSingle nb).bind fun (_, log) =>
          .done { err := .mem, tab := tab, log := log }
      else
        (txLoop dev.frees { nb with len := totLen - ethPadSize.toUInt16 } dev.statuses).bind
          fun (ret, nb, sent) =>
        (lwipIpcRemoveHeap tab allocation).bind fun tab =>
          if ret < 0 then
            (ukNetbufFreeSingle nb).bind fun (_, log) =>
              .done { err := .interface, tab := tab, log := sent ++ log }
          else .done { err := .ok, tab := tab, log := sent }

/-- The buffer was freed once and there is no window for it. -/
def Sent.Released (s : Sent) (allocation : UInt64) : Prop :=
  (frees s.log).length = 1 ∧ allocation ∉ openBegins s.tab

/-- The packet fits behind the header and the headroom. -/
def PacketFits (txHeadroom totLen : UInt16) : Prop :=
  netbufSize.toNat + txHeadroom.toNat + totLen.toNat ≤ uknetdevBuflen.toNat

instance (txHeadroom totLen : UInt16) : Decidable (PacketFits txHeadroom totLen) := by
  unfold PacketFits
  infer_instance

section Sending

variable {a allocation : UInt64} {txHeadroom totLen : UInt16}

/-- The header of a block for sending: room for the rest of it. -/
theorem outputNetbuf_spec {nb : Netbuf} (h : outputNetbuf a allocation txHeadroom = .done nb) :
    nb.Single ∧ nb.a = a ∧ txHeadroom.toNat ≤ 1976 ∧
      nb.buf + nb.buflen - (nb.data + nb.len.toUInt64) = 1976 - txHeadroom.toUInt64 := by
  obtain ⟨b, hb, rfl⟩ := outputNetbuf_done h
  obtain ⟨hsize, hinit⟩ := ukNetbufPrepareBuf_some hb
  have hle : txHeadroom.toNat ≤ 1976 := by
    have halign : netbufAddrAlignUp netbufSize + netbufAddrAlignUp 0 = 72 := by decide
    rw [halign, gt_iff_lt, UInt64.lt_iff_toNat_lt, UInt64.toNat_add] at hsize
    simp [uknetdevBuflen] at hsize
    have hlt := txHeadroom.toNat_lt
    omega
  have hoff : netbufOffsets txHeadroom 0 = { buf := 72, priv := 0, extra := 0 } := by
    have hpad : (0xFFFF - txHeadroom).toUInt64 > 8 := by
      rw [gt_iff_lt, UInt64.lt_iff_toNat_lt, UInt16.toNat_toUInt64, UInt16.toNat_sub_of_le]
      · simp
        omega
      · rw [UInt16.le_iff_toNat_le]
        simp
        omega
    unfold netbufOffsets
    rw [if_pos hpad]
    decide
  rw [hoff] at hinit
  have hsingle := ukNetbufInitIndir_single hinit
  refine ⟨⟨hsingle.refcount, hsingle.prev, hsingle.next⟩, rfl, hle, ?_⟩
  rw [ukNetbufInitIndir_done hinit]
  simp [uknetdevBuflen]

/-- The size check is exact. -/
theorem tailroom_lt_iff {nb : Netbuf} {tailroom : UInt64}
    (hnb : outputNetbuf a allocation txHeadroom = .done nb)
    (h : ukNetbufTailroom nb = .done tailroom) :
    totLen.toUInt64 > tailroom ↔ ¬ PacketFits txHeadroom totLen := by
  obtain ⟨-, -, hle, hroom⟩ := outputNetbuf_spec hnb
  obtain ⟨-, -, h⟩ := Outcome.bind_eq_done.mp h
  obtain ⟨-, -, h⟩ := Outcome.bind_eq_done.mp h
  cases h
  have hnat : (1976 - txHeadroom.toUInt64).toNat = 1976 - txHeadroom.toNat := by
    rw [UInt64.toNat_sub_of_le]
    · simp
    · rw [UInt64.le_iff_toNat_le]
      simpa using hle
  rw [hroom, gt_iff_lt, UInt64.lt_iff_toNat_lt, hnat]
  simp [PacketFits, netbufSize, uknetdevBuflen]
  omega

/-- What the loop ends with: the first status that is an answer, and a packet that
was freed if it was sent by a driver that does so. -/
theorem txLoop_done {frees : Bool} {nb nb' : Netbuf} {ret : Int32} {log : List NetbufEvent}
    {statuses : List Int32} (h : txLoop frees nb statuses = .done (ret, nb', log)) :
    statuses.find? (fun status => !ukNetdevStatusNotready status) = some ret ∧
      (0 ≤ ret ∧ frees = true → ukNetbufFreeSingle nb = .done (nb', log)) ∧
      (¬ (0 ≤ ret ∧ frees = true) → nb' = nb ∧ log = []) := by
  induction statuses with
  | nil => cases h
  | cons status statuses ih =>
      unfold txLoop at h
      by_cases hready : ukNetdevStatusNotready status = true
      · rw [if_pos hready] at h
        rw [List.find?_cons_of_neg (by simp [hready])]
        exact ih h
      · rw [if_neg hready] at h
        rw [List.find?_cons_of_pos (by simp [hready])]
        by_cases hsent : 0 ≤ status ∧ frees = true
        · rw [if_pos hsent] at h
          obtain ⟨⟨nb₁, log₁⟩, hfree, h⟩ := Outcome.bind_eq_done.mp h
          cases h
          exact ⟨rfl, fun _ => hfree, fun hno => absurd hsent hno⟩
        · rw [if_neg hsent] at h
          cases h
          exact ⟨rfl, fun hyes => absurd hyes hsent, fun _ => ⟨rfl, rfl⟩⟩

/-- A release of the only reference. -/
theorem freeSingle_frees {nb nb' : Netbuf} {log : List NetbufEvent} (hsingle : nb.Single)
    (ha : nb.a ≠ 0) (h : ukNetbufFreeSingle nb = .done (nb', log)) : frees log = [.netdev] := by
  rw [ukNetbufFreeSingle_frees h, if_pos ⟨hsingle.refcount, ha⟩]

/-- A packet that has gone through the loop is released once, unless the driver has
sent it and keeps it. -/
theorem txLoop_releases_iff {nb nb' : Netbuf} {ret : Int32} {log log' : List NetbufEvent}
    {dev : NetDriver} (hsingle : nb.Single) (ha : nb.a ≠ 0)
    (hloop : txLoop dev.frees nb dev.statuses = .done (ret, nb', log))
    (hneg : ret < 0 → ∃ nb'' log'', ukNetbufFreeSingle nb' = .done (nb'', log'') ∧
      log' = log ++ log'')
    (hpos : ¬ ret < 0 → log' = log) :
    (frees log').length = 1 ↔
      (∃ status, dev.answer = some status ∧ status < 0) ∨ dev.frees = true := by
  obtain ⟨hanswer, hfreed, hkept⟩ := txLoop_done hloop
  by_cases hret : ret < 0
  · obtain ⟨nb'', log'', hfree, rfl⟩ := hneg hret
    obtain ⟨rfl, rfl⟩ := hkept fun hyes => absurd hret (Int32.not_lt.mpr hyes.1)
    refine iff_of_true ?_ (Or.inl ⟨ret, hanswer, hret⟩)
    rw [List.nil_append, freeSingle_frees hsingle ha hfree]
    rfl
  · rw [hpos hret]
    by_cases hdev : dev.frees = true
    · refine iff_of_true ?_ (Or.inr hdev)
      rw [freeSingle_frees hsingle ha (hfreed ⟨Int32.not_lt.mp hret, hdev⟩)]
      rfl
    · obtain ⟨-, rfl⟩ := hkept fun hyes => hdev hyes.2
      refine iff_of_false (by simp) ?_
      rintro (⟨status, hstatus, hlt⟩ | hyes)
      · rw [NetDriver.answer, hanswer] at hstatus
        cases hstatus
        exact hret hlt
      · exact hdev hyes

/-- **What is left of a packet.** When `uknetdev_output` returns, its buffer has
been freed once and has no window exactly if the packet fitted, it was not sent
or the driver frees what it sends, and there was no other entry for the block in
the table, or one that the call has found. -/
theorem output_releases_iff {dev : NetDriver} {tab : List IpcStruct} {s : Sent}
    (ht : Tidy lwipHeapMax tab) (ha : a ≠ 0) (hmem : allocation ≠ 0)
    (h : uknetdevOutput a allocation txHeadroom totLen dev tab = .done s) :
    s.Released allocation ↔
      PacketFits txHeadroom totLen ∧
      ((∃ status, dev.answer = some status ∧ status < 0) ∨ dev.frees = true) ∧
      (openBegins tab).count allocation ≤ 1 ∧
      NoFreeBefore tab (.add allocation uknetdevBuflen netWindowMask) := by
  unfold uknetdevOutput at h
  rw [if_neg ha, if_neg hmem] at h
  obtain ⟨tab₁, hadd, h⟩ := Outcome.bind_eq_done.mp h
  obtain ⟨nb, hnb, h⟩ := Outcome.bind_eq_done.mp h
  obtain ⟨tailroom, hroom, h⟩ := Outcome.bind_eq_done.mp h
  obtain ⟨hsingle, hnba, -, -⟩ := outputNetbuf_spec hnb
  have hnba0 : nb.a ≠ 0 := hnba ▸ ha
  have hsize : uknetdevBuflen ≠ 0 := by decide
  by_cases hfits : PacketFits txHeadroom totLen
  · rw [if_neg fun hgt => (tailroom_lt_iff hnb hroom).mp hgt hfits] at h
    obtain ⟨⟨ret, nb', sent⟩, hloop, h⟩ := Outcome.bind_eq_done.mp h
    obtain ⟨tab₂, hremove, h⟩ := Outcome.bind_eq_done.mp h
    have hclosed := lwip_add_remove_iff ht hmem hsize hadd hremove
    have hsent : s.tab = tab₂ ∧ (ret < 0 → ∃ nb₂ log, ukNetbufFreeSingle nb' = .done (nb₂, log) ∧
        s.log = sent ++ log) ∧ (¬ ret < 0 → s.log = sent) := by
      split at h
      · rename_i hneg
        obtain ⟨⟨nb₂, log⟩, hfree, h⟩ := Outcome.bind_eq_done.mp h
        cases h
        exact ⟨rfl, fun _ => ⟨nb₂, log, hfree, rfl⟩, fun hno => absurd hneg hno⟩
      · rename_i hpos
        cases h
        exact ⟨rfl, fun hneg => absurd hneg hpos, fun _ => rfl⟩
    obtain ⟨htab, hneg, hpos⟩ := hsent
    have hsingle' : ({ nb with len := totLen - ethPadSize.toUInt16 } : Netbuf).Single :=
      ⟨hsingle.refcount, hsingle.prev, hsingle.next⟩
    have honce := txLoop_releases_iff hsingle' hnba0 hloop hneg hpos
    unfold Sent.Released
    rw [honce, htab, hclosed]
    exact (and_iff_right hfits).symm
  · rw [if_pos ((tailroom_lt_iff hnb hroom).mpr hfits)] at h
    obtain ⟨x, -, h⟩ := Outcome.bind_eq_done.mp h
    cases h
    -- the window that was opened at the start is still there
    refine iff_of_false (fun hrel => hrel.2 ?_) fun hall => hfits hall.1
    exact lwipIpcAddHeap_opens hsize hadd

end Sending

/-- A driver that reports an error. -/
theorem failed_packet_released :
    ∃ s, uknetdevOutput 0x5000 0x10000 2 1000 { statuses := [0, -5], frees := true } lwipInit =
        .done s ∧ s.Released 0x10000 := by
  have hrun : uknetdevOutput 0x5000 0x10000 2 1000 { statuses := [0, -5], frees := true } lwipInit =
      .done { err := .interface, tab := lwipInit, log := [.free .netdev] } := by
    decide +kernel
  have htidy : Tidy lwipHeapMax lwipInit := Tidy.replicate _
  have hclosed : (0x10000 : UInt64) ∉ openBegins lwipInit := by decide
  refine ⟨_, hrun, (output_releases_iff htidy (by decide) (by decide) hrun).mpr ?_⟩
  refine ⟨by decide, Or.inr rfl, ?_, ?_⟩
  · rw [List.count_eq_zero.mpr hclosed]
    exact Nat.zero_le 1
  · rintro i j w v - - hj hvb
    rw [List.eq_of_mem_replicate (List.mem_of_getElem? hj)] at hvb
    exact absurd hvb (by decide)

/-- The driver of uknetdev keeps every buffer it has sent, and the window on a
packet that is too long stays. -/
theorem sent_packet_not_freed :
    uknetdevOutput 0x5000 0x10000 2 1000 (virtioNetdev 998 998) lwipInit =
        .done { err := .ok, tab := lwipInit, log := [] } ∧
      uknetdevOutput 0x5000 0x10000 2 1975 (virtioNetdev 1973 1973) lwipInit =
        .done { err := .mem, tab := lwipInit.set 0 (ipcEntry 0x10000 2048 netWindowMask),
                log := [.free .netdev] } ∧
      ¬ ({ err := .ok, tab := lwipInit, log := [] } : Sent).Released 0x10000 ∧
      ¬ ({ err := .mem, tab := lwipInit.set 0 (ipcEntry 0x10000 2048 netWindowMask),
           log := [.free .netdev] } : Sent).Released 0x10000 := by
  refine ⟨by decide +kernel, by decide +kernel, fun h => ?_, fun h => h.2 (by decide +kernel)⟩
  exact absurd h.1 (by decide)

/-! ## §2  Receiving -/

/-- The receive buffers that are there, with their headers, and the begin
addresses in the window table. -/
structure RxState where
  live : UInt64 → Option Netbuf
  windows : Finset UInt64

/-- The windows are those of the buffers. -/
def RxState.WindowsLive (s : RxState) : Prop :=
  ∀ b, b ∈ s.windows ↔ (s.live b).isSome

/-- No buffers and no windows. -/
def RxState.init : RxState := { live := fun _ => none, windows := ∅ }

/-- `lwip_alloc_netbuf`. A block that is not fit for a buffer goes back to the
allocator. -/
def lwipAllocNetbuf (netbufFree a allocation allocSize headroom : UInt64) (s : RxState) :
    Outcome (Option UInt64 × RxState) :=
  if a = 0 ∨ allocation = 0 then .done (none, s)
  else
    let s := { s with windows := insert allocation s.windows }
    (lwipInitNetbuf netbufFree a allocation allocSize headroom).bind fun
      | none => .done (none, s)
      | some nb =>
          .done (some allocation, { s with live := Function.update s.live allocation (some nb) })

/-- `uk_netbuf_free_single` of a receive buffer. -/
def rxFreeSingle (b : UInt64) (s : RxState) : Outcome RxState :=
  (Outcome.ofOption (s.live b)).bind fun nb =>
  (ukNetbufFreeSingle nb).bind fun (nb, log) =>
    .done { s with live := Function.update s.live b (if frees log = [] then some nb else none) }

/-- `_netbuf_free`, for the pbuf of `b`. Without a window for it the cubicle
stops. -/
def netbufFreePbuf (b : UInt64) (s : RxState) : Outcome RxState :=
  (rxFreeSingle b s).bind fun s =>
    if b ∈ s.windows then .done { s with windows := s.windows.erase b } else .spin

/-- `virtio_netdev_recv`: the packet is read into a new buffer, which has to be
there. -/
def virtioNetdevRecv (netbufFree a allocation : UInt64) (s : RxState) :
    Outcome (UInt64 × RxState) :=
  (lwipAllocNetbuf netbufFree a allocation 2048 ethPadSize s).bind fun
    | (none, _) => .wild
    | (some b, s) => .done (b, s)

/-- `err_t` is `s8_t`; `ERR_OK` is zero. -/
def errMem : Int8 := -1

/-- The packet is dropped. With threads, an input queue without memory is tried
again, with result `again`. -/
def Rejected (threads : Bool) (err again : Int8) : Prop :=
  err ≠ 0 ∧ ¬ (threads = true ∧ err = errMem ∧ again = 0)

instance (threads : Bool) (err again : Int8) : Decidable (Rejected threads err again) := by
  unfold Rejected
  infer_instance

/-- `uknetdev_input`. The driver returns success without more packets, so that
the loop has one turn; `err` and `again` are what `nf->input` returns. -/
def uknetdevInput (threads : Bool) (netbufFree a allocation : UInt64) (err again : Int8)
    (s : RxState) : Outcome RxState :=
  (virtioNetdevRecv netbufFree a allocation s).bind fun (b, s) =>
    if Rejected threads err again then rxFreeSingle b s else .done s

/-- What happens to receive buffers. `allocation` is what `uk_malloc` returns. -/
inductive RxOp where
  | alloc (a allocation allocSize headroom : UInt64)
  | input (a allocation : UInt64) (err again : Int8)
  | free (b : UInt64)
deriving DecidableEq, Repr

def rxStep (threads : Bool) (netbufFree : UInt64) (s : RxState) : RxOp → Outcome RxState
  | .alloc a allocation allocSize headroom =>
      (lwipAllocNetbuf netbufFree a allocation allocSize headroom s).bind fun (_, s) => .done s
  | .input a allocation err again => uknetdevInput threads netbufFree a allocation err again s
  | .free b => netbufFreePbuf b s

/-- A new block is not one of a buffer that is there, and lwIP releases a buffer
that it has. -/
def RxLegal (s : RxState) : RxOp → Prop
  | .alloc _ allocation _ _ => s.live allocation = none
  | .input _ allocation _ _ => s.live allocation = none
  | .free b => (s.live b).isSome

/-- The block holds a header, a pbuf and the headroom. -/
def RxFits (allocSize headroom : UInt64) : Prop :=
  netbufSize.toNat + netbufPbufSize.toNat + headroom.toUInt16.toNat ≤ allocSize.toNat

/-- No block is too small, no packet is dropped, and a buffer is released with its
count at one. -/
def RxGood (threads : Bool) (s : RxState) : RxOp → Prop
  | .alloc a allocation allocSize headroom =>
      a = 0 ∨ allocation = 0 ∨ RxFits allocSize headroom
  | .input _ _ err again => ¬ Rejected threads err again
  | .free b => ∀ nb, s.live b = some nb → nb.refcount = 1

section Receiving

variable {threads : Bool} {netbufFree a allocation allocSize headroom : UInt64}

theorem rxFits_iff :
    ¬ netbufAddrAlignUp netbufSize + netbufAddrAlignUp netbufPbufSize +
        headroom.toUInt16.toUInt64 > allocSize ↔ RxFits allocSize headroom := by
  have halign : netbufAddrAlignUp netbufSize + netbufAddrAlignUp netbufPbufSize = 112 := by
    decide
  have hlt := headroom.toUInt16.toNat_lt
  rw [halign, gt_iff_lt, UInt64.lt_iff_toNat_lt, UInt64.toNat_add]
  simp [RxFits, netbufSize, netbufPbufSize]
  omega

theorem lwipInitNetbuf_none
    (h : lwipInitNetbuf netbufFree a allocation allocSize headroom = .done none) :
    ¬ RxFits allocSize headroom := by
  obtain ⟨b, hb, h⟩ := Outcome.bind_eq_done.mp h
  cases b with
  | some b => cases h
  | none =>
      obtain ⟨-, -, hb⟩ := Outcome.bind_eq_done.mp hb
      split at hb
      · rename_i hsmall
        exact fun hfits => rxFits_iff.mpr hfits hsmall
      · obtain ⟨nb, -, hb⟩ := Outcome.bind_eq_done.mp hb
        cases hb

theorem lwipInitNetbuf_fits {nb : Netbuf}
    (h : lwipInitNetbuf netbufFree a allocation allocSize headroom = .done (some nb)) :
    RxFits allocSize headroom ∧ nb.a = a := by
  obtain ⟨b, hb, ha, -⟩ := lwipInitNetbuf_some h
  exact ⟨rxFits_iff.mp (ukNetbufPrepareBuf_some hb).1, ha⟩

/-- The buffers of the driver have their pbuf behind the header. -/
theorem lwipInitNetbuf_single {nb : Netbuf}
    (h : lwipInitNetbuf netbufFree a allocation 2048 ethPadSize = .done (some nb)) :
    nb.Single := by
  obtain ⟨b, hb, -, hsingle⟩ := lwipInitNetbuf_some h
  have hinit := (ukNetbufPrepareBuf_some hb).2
  refine hsingle ?_ (ukNetbufInitIndir_single hinit)
  have hpriv : b.priv = allocation + 72 := by
    rw [ukNetbufInitIndir_done hinit]
    rfl
  rw [hpriv]
  intro heq
  have hzero : (72 : UInt64) = 0 := by grind
  exact absurd hzero (by decide)

/-- An allocator is registered in every buffer. -/
def RxState.Registered (s : RxState) : Prop := ∀ b nb, s.live b = some nb → nb.a ≠ 0

/-- The three ways out of `lwip_alloc_netbuf`. -/
theorem lwipAllocNetbuf_done {s s' : RxState} {r : Option UInt64}
    (h : lwipAllocNetbuf netbufFree a allocation allocSize headroom s = .done (r, s')) :
    ((a = 0 ∨ allocation = 0) ∧ r = none ∧ s' = s) ∨
    (a ≠ 0 ∧ allocation ≠ 0 ∧ r = none ∧ ¬ RxFits allocSize headroom ∧
      s' = { s with windows := insert allocation s.windows }) ∨
    (a ≠ 0 ∧ allocation ≠ 0 ∧ r = some allocation ∧ ∃ nb,
      lwipInitNetbuf netbufFree a allocation allocSize headroom = .done (some nb) ∧
      s' = { live := Function.update s.live allocation (some nb)
             windows := insert allocation s.windows }) := by
  unfold lwipAllocNetbuf at h
  split at h
  · rename_i hnull
    cases h
    exact Or.inl ⟨hnull, rfl, rfl⟩
  · rename_i hnull
    obtain ⟨ha, hmem⟩ := not_or.mp hnull
    obtain ⟨o, ho, h⟩ := Outcome.bind_eq_done.mp h
    cases o with
    | none =>
        cases h
        exact Or.inr (Or.inl ⟨ha, hmem, rfl, lwipInitNetbuf_none ho, rfl⟩)
    | some nb =>
        cases h
        exact Or.inr (Or.inr ⟨ha, hmem, rfl, nb, ho, rfl⟩)

/-- A packet that arrives has a buffer, which lwIP keeps or drops. -/
theorem uknetdevInput_done {s s' : RxState} {err again : Int8}
    (h : uknetdevInput threads netbufFree a allocation err again s = .done s') :
    ∃ nb s₁, lwipInitNetbuf netbufFree a allocation 2048 ethPadSize = .done (some nb) ∧ a ≠ 0 ∧
      s₁ = { live := Function.update s.live allocation (some nb)
             windows := insert allocation s.windows } ∧
      ((Rejected threads err again ∧ rxFreeSingle allocation s₁ = .done s') ∨
        ¬ Rejected threads err again ∧ s' = s₁) := by
  obtain ⟨⟨b, s₁⟩, hrecv, h⟩ := Outcome.bind_eq_done.mp h
  obtain ⟨⟨r, s₂⟩, hdone, hrecv⟩ := Outcome.bind_eq_done.mp hrecv
  obtain ⟨-, rfl, -⟩ | ⟨-, -, rfl, -⟩ | ⟨ha, -, rfl, nb, hnb, rfl⟩ := lwipAllocNetbuf_done hdone
  · cases hrecv
  · cases hrecv
  · cases hrecv
    refine ⟨nb, _, hnb, ha, rfl, ?_⟩
    dsimp only at h
    split at h
    · rename_i hrej
      exact Or.inl ⟨hrej, h⟩
    · rename_i hacc
      cases h
      exact Or.inr ⟨hacc, rfl⟩

theorem rxFreeSingle_done {s s' : RxState} {b : UInt64} (h : rxFreeSingle b s = .done s') :
    ∃ nb nb' log, s.live b = some nb ∧ ukNetbufFreeSingle nb = .done (nb', log) ∧
      nb'.a = nb.a ∧
      s' = { s with
        live := Function.update s.live b (if frees log = [] then some nb' else none) } := by
  obtain ⟨nb, hnb, h⟩ := Outcome.bind_eq_done.mp h
  obtain ⟨⟨nb', log⟩, hfree, h⟩ := Outcome.bind_eq_done.mp h
  cases h
  refine ⟨nb, nb', log, ?_, hfree, ukNetbufFreeSingle_a hfree, rfl⟩
  cases hlive : s.live b with
  | none =>
      rw [hlive] at hnb
      cases hnb
  | some nb₁ =>
      rw [hlive] at hnb
      cases hnb
      rfl

theorem netbufFreePbuf_done {s s' : RxState} {b : UInt64}
    (h : netbufFreePbuf b s = .done s') :
    ∃ s₁, rxFreeSingle b s = .done s₁ ∧ s' = { s₁ with windows := s₁.windows.erase b } := by
  obtain ⟨s₁, hfree, h⟩ := Outcome.bind_eq_done.mp h
  split at h
  · cases h
    exact ⟨s₁, hfree, rfl⟩
  · cases h

namespace RxState.WindowsLive

/-- A new buffer with its window. -/
theorem add {s : RxState} (h : s.WindowsLive) (nb : Netbuf) :
    RxState.WindowsLive { live := Function.update s.live allocation (some nb)
                          windows := insert allocation s.windows } := by
  intro b
  by_cases hb : b = allocation
  · subst hb
    simp
  · dsimp only
    rw [Finset.mem_insert, Function.update_of_ne hb, or_iff_right hb]
    exact h b

/-- A window without a buffer. -/
theorem not_open {s : RxState} (hlive : s.live allocation = none)
    (hopen : allocation ∈ s.windows) : ¬ s.WindowsLive := by
  intro h
  have hsome := (h allocation).mp hopen
  rw [hlive] at hsome
  cases hsome

/-- A window is closed, and the buffer there exactly if it was not freed. -/
theorem close_iff {s : RxState} (h : s.WindowsLive) (b : UInt64) (o : Option Netbuf) :
    RxState.WindowsLive { live := Function.update s.live b o, windows := s.windows.erase b } ↔
      o = none := by
  constructor
  · intro hclosed
    have hb := hclosed b
    dsimp only at hb
    rw [Function.update_self] at hb
    simpa using hb
  · rintro rfl c
    by_cases hc : c = b
    · subst hc
      simp
    · dsimp only
      rw [Function.update_of_ne hc, Finset.mem_erase, and_iff_right hc]
      exact h c

end RxState.WindowsLive

theorem RxState.Registered.put {s : RxState} (h : s.Registered) {b : UInt64}
    {o : Option Netbuf} (ho : ∀ nb, o = some nb → nb.a ≠ 0) (w : Finset UInt64) :
    RxState.Registered { live := Function.update s.live b o, windows := w } := by
  intro c nb hc
  dsimp only at hc
  by_cases hcb : c = b
  · subst hcb
    rw [Function.update_self] at hc
    exact ho nb hc
  · rw [Function.update_of_ne hcb] at hc
    exact h c nb hc

theorem RxState.Registered.rxFreeSingle {s s' : RxState} {b : UInt64} (h : s.Registered)
    (hdone : CubicleOS.rxFreeSingle b s = .done s') : s'.Registered := by
  obtain ⟨nb, nb', log, hnb, -, ha, rfl⟩ := rxFreeSingle_done hdone
  apply h.put
  intro nb₁ ho
  split at ho
  · cases ho
    rw [ha]
    exact h b nb hnb
  · cases ho

theorem rxStep_registered {s s' : RxState} {op : RxOp} (h : s.Registered)
    (hstep : rxStep threads netbufFree s op = .done s') : s'.Registered := by
  have hnew {a allocation allocSize headroom : UInt64} {nb : Netbuf} (ha : a ≠ 0)
      (hnb : lwipInitNetbuf netbufFree a allocation allocSize headroom = .done (some nb)) :
      ∀ nb₁, some nb = some nb₁ → nb₁.a ≠ 0 := by
    rintro nb₁ ⟨⟩
    rw [(lwipInitNetbuf_fits hnb).2]
    exact ha
  cases op with
  | alloc a allocation allocSize headroom =>
      obtain ⟨⟨r, s₁⟩, hdone, hstep⟩ := Outcome.bind_eq_done.mp hstep
      cases hstep
      rcases lwipAllocNetbuf_done hdone with
        ⟨-, -, rfl⟩ | ⟨-, -, -, -, rfl⟩ | ⟨ha, -, -, nb, hnb, rfl⟩
      · exact h
      · exact h
      · exact h.put (hnew ha hnb) _
  | input a allocation err again =>
      obtain ⟨nb, s₁, hnb, ha, rfl, ⟨-, hdone⟩ | ⟨-, rfl⟩⟩ := uknetdevInput_done hstep
      · exact (h.put (hnew ha hnb) _).rxFreeSingle hdone
      · exact h.put (hnew ha hnb) _
  | free b =>
      obtain ⟨s₁, hdone, rfl⟩ := netbufFreePbuf_done hstep
      intro c nb hc
      exact h.rxFreeSingle hdone c nb hc

/-- A buffer that is dropped is gone. -/
theorem rxFreeSingle_dropped {s s' : RxState} {nb : Netbuf}
    (hnb : lwipInitNetbuf netbufFree a allocation 2048 ethPadSize = .done (some nb)) (ha : a ≠ 0)
    (hlive : s.live allocation = some nb) (h : rxFreeSingle allocation s = .done s') :
    s'.live allocation = none ∧ s'.windows = s.windows := by
  obtain ⟨nb₁, nb', log, hnb₁, hfree, -, rfl⟩ := rxFreeSingle_done h
  rw [hlive] at hnb₁
  cases hnb₁
  have hnba : nb.a ≠ 0 := by
    rw [(lwipInitNetbuf_fits hnb).2]
    exact ha
  dsimp only
  rw [Function.update_self, freeSingle_frees (lwipInitNetbuf_single hnb) hnba hfree]
  exact ⟨rfl, rfl⟩

/-- One step: it keeps the windows and the buffers together exactly when it is a
good one. -/
theorem rxStep_windowsLive_iff {s s' : RxState} {op : RxOp} (hreg : s.Registered)
    (h : s.WindowsLive) (hlegal : RxLegal s op)
    (hstep : rxStep threads netbufFree s op = .done s') :
    s'.WindowsLive ↔ RxGood threads s op := by
  cases op with
  | alloc a allocation allocSize headroom =>
      obtain ⟨⟨r, s₁⟩, hdone, hstep⟩ := Outcome.bind_eq_done.mp hstep
      cases hstep
      rcases lwipAllocNetbuf_done hdone with
        ⟨hnull, -, rfl⟩ | ⟨ha, hmem, -, hsmall, rfl⟩ | ⟨ha, hmem, -, nb, hnb, rfl⟩
      · refine iff_of_true h ?_
        rcases hnull with ha | hmem
        · exact Or.inl ha
        · exact Or.inr (Or.inl hmem)
      · refine iff_of_false (RxState.WindowsLive.not_open hlegal (Finset.mem_insert_self _ _)) ?_
        rintro (ha0 | hmem0 | hfits)
        · exact ha ha0
        · exact hmem hmem0
        · exact hsmall hfits
      · exact iff_of_true (h.add nb) (Or.inr (Or.inr (lwipInitNetbuf_fits hnb).1))
  | input a allocation err again =>
      obtain ⟨nb, s₁, hnb, ha, rfl, ⟨hrej, hdone⟩ | ⟨hacc, rfl⟩⟩ := uknetdevInput_done hstep
      · -- dropped: freed, and the window is still in the table
        refine iff_of_false ?_ fun hgood => hgood hrej
        obtain ⟨hgone, hsame⟩ := rxFreeSingle_dropped hnb ha (Function.update_self ..) hdone
        apply RxState.WindowsLive.not_open hgone
        rw [hsame]
        exact Finset.mem_insert_self _ _
      · exact iff_of_true (h.add nb) hacc
  | free b =>
      obtain ⟨s₁, hdone, rfl⟩ := netbufFreePbuf_done hstep
      obtain ⟨nb, nb', log, hnb, hfree, -, rfl⟩ := rxFreeSingle_done hdone
      rw [h.close_iff, ukNetbufFreeSingle_frees hfree]
      have hnba := hreg b nb hnb
      constructor
      · intro hnone nb₁ hnb₁
        rw [hnb] at hnb₁
        cases hnb₁
        by_contra hcount
        simp [hcount] at hnone
      · intro hgood
        simp [hgood nb hnb, hnba]

/-- **Windows and buffers live equally long.** Over any run in which blocks are new
and buffers released that are there, in every state the receive buffers with a
window are those not yet freed, exactly if no block was too small, no packet was
dropped, and no buffer was released with a count other than one. -/
theorem receive_windows_iff {ops : List RxOp}
    (hlegal : Along (rxStep threads netbufFree) RxLegal .init ops) :
    Throughout (rxStep threads netbufFree) RxState.WindowsLive .init ops ↔
      Along (rxStep threads netbufFree)
        (fun s op => (∃ s', rxStep threads netbufFree s op = .done s') → RxGood threads s op)
        .init ops := by
  refine throughout_iff_along (J := RxState.Registered) (L := RxLegal) ?_ ?_ ?_ ?_ hlegal
  · intro s op s' hreg _ hstep _
    exact rxStep_registered hreg hstep
  · intro s op s' hreg h hL hstep
    exact rxStep_windowsLive_iff hreg h hL hstep
  · intro b nb hnb
    cases hnb
  · intro b
    simp [RxState.init]

end Receiving

/-- A packet is received and its buffer released by lwIP. -/
theorem received_packet_windows :
    Throughout (rxStep true 0x7f0000001000) RxState.WindowsLive .init
      [.input 0x5000 0x10000 (-1) 0, .free 0x10000] := by
  refine (receive_windows_iff ?_).mpr ?_
  · exact .cons rfl rfl (.cons rfl rfl trivial)
  · have haccepted : ¬ Rejected true (-1) 0 := by decide
    refine .cons (fun _ => haccepted) rfl (.cons (fun _ nb hnb => ?_) rfl trivial)
    cases hnb
    rfl

/-- A block of a hundred bytes is too small, and a packet that lwIP refuses is
dropped: both are freed, and both windows stay. -/
theorem windows_outlive_buffers :
    (∃ s, runs (rxStep true 0x7f0000001000) .init [.alloc 0x5000 0x10000 100 2] = .done s ∧
        s.live 0x10000 = none ∧ 0x10000 ∈ s.windows) ∧
      (∃ s, runs (rxStep true 0x7f0000001000) .init [.input 0x5000 0x10000 (-1) (-1)] =
        .done s ∧ s.live 0x10000 = none ∧ 0x10000 ∈ s.windows) ∧
      ¬ Throughout (rxStep true 0x7f0000001000) RxState.WindowsLive .init
        [.alloc 0x5000 0x10000 100 2] := by
  refine ⟨⟨_, rfl, rfl, Finset.mem_insert_self _ _⟩, ⟨_, rfl, rfl, Finset.mem_insert_self _ _⟩,
    fun h => ?_⟩
  exact RxState.WindowsLive.not_open rfl (Finset.mem_insert_self _ _)
    (h _ _ (List.prefix_refl _) rfl)

end CubicleOS
