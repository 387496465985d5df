import CubicleOS.Calls.Runs
import CubicleOS.Monitor.Fault

/-!
# Faults during hooked calls

The fault handler infers the running cubicle from the code address or from the
owner of the stack; the call protocol records it in `prev_module`. In every
state that calls and returns can reach the two mean the same key, so the key
that the handler puts on a page is one that the interrupted code holds.
-/

namespace CubicleOS

open Foundation

/-- `create_cubicles` has registered the mapping of the stack of `f`. -/
def Registered (A : AddressSpace) (f : Export) : Prop :=
  ∃ s ∈ A.stackTab, s.start = f.stack ∧ s.size.toNat = 2 * stackSize ∧
    s.mid = remap A.pm f.module

/-- The address is on the stack that the coroutine of `f` runs on. -/
def OnCoroStack (f : Export) (a : UInt64) : Prop :=
  f.coroStack.toNat ≤ a.toNat ∧ a.toNat < f.coroStack.toNat + stackSize

/-- Code that cubicle `m` executes: its own, a friend's, or a shared
library's. -/
def ExecutedBy (build : Build) (A : AddressSpace) (m : Modules) (rip : UInt64) : Prop :=
  ∃ (i : ℕ) (e : ProcMap), A.pm[i]? = some e ∧ inBlock e.start e.size rip = true ∧
    (e.must = false ∨ ∃ m' : Modules, i = m'.ctorIdx ∧ Loaded A.pm m' ∧
      friends build m m' = true)

/-- On its coroutine's stack, code is attributed to the function's cubicle. -/
theorem stackToLibId_coroStack {A : AddressSpace} (hd : A.Disjoint) {f : Export}
    (hreg : Registered A f) (hmap : f.Mapped) {rsp : UInt64}
    (hrsp : OnCoroStack f rsp) : stackToLibId A.map rsp = remap A.pm f.module := by
  obtain ⟨s, hs, hstart, hsize, hmid⟩ := hreg
  obtain ⟨hlo, hhi⟩ := f.coroStack_inside hmap
  obtain ⟨hrlo, hrhi⟩ := hrsp
  have hin : inBlock s.start s.size rsp = true := by
    unfold Export.Mapped at hmap
    rw [inBlock_iff, hstart, hsize, Nat.mod_eq_of_lt hmap]
    omega
  rw [(hd.stackToLibId_eq hs hin).2, hmid]

section Effect

variable {build : Build} {T : Cubicles build} {A : AddressSpace} {f : Export}
  {rip rsp : UInt64}

/-- The caller that the handler computes has the key of `f`'s cubicle. -/
theorem callerOf_key (hT : T.pmap = A.pm) (hd : A.Disjoint)
    (hf : Loaded A.pm f.module) (hreg : Registered A f) (hmap : f.Mapped)
    (hrsp : OnCoroStack f rsp) {i : ℕ} {e : ProcMap} (hi : A.pm[i]? = some e)
    (hby : e.must = false ∨ ∃ m' : Modules, i = m'.ctorIdx ∧ Loaded A.pm m' ∧
      friends build f.module m' = true) :
    ∃ p, A.pm.at (A.callerOf i e rsp) = .done p ∧ p.pkey = keyOf A.pm f.module := by
  have hstack := stackToLibId_coroStack hd hreg hmap hrsp
  rw [← hT] at hf hstack
  unfold AddressSpace.callerOf
  cases hm : e.must with
  | false =>
      obtain ⟨p, hp, -, hkey⟩ := T.at_remap hf
      rw [if_pos rfl, hstack, ← hT]
      exact ⟨p, hp, hkey⟩
  | true =>
      rw [hm] at hby
      rcases hby with h | ⟨m', rfl, hm', hfr⟩
      · cases h
      · refine ⟨e, AddressSpace.at_entry hi, ?_⟩
        have heq := (T.key_eq_iff f.module m' hf (hT ▸ hm')).mpr hfr
        rw [← hT, heq]
        rw [← hT] at hi
        simp [keyOf, hi]

/-- Inside a switched call, `prev_module[layer]` is the cubicle of the function
on whose coroutine the code runs. -/
theorem Follows.innermost {en₀ : Rights} {s : CallState} {fr : List Frame}
    (h : Follows T en₀ s fr) (hlayer : 1 ≤ s.mon.layer) :
    ∃ a, s.cursor.act = some a ∧ a.fn ∈ switches fr ∧ s.mon.current = a.fn.module := by
  have hlen : s.mon.layer = (switches fr).length := by
    have hl := h.stacked.layer
    rw [cubicles, List.length_map] at hl
    exact hl.trans (Nat.zero_add _)
  cases hsw : switches fr with
  | nil =>
      rw [hsw, List.length_nil] at hlen
      omega
  | cons f fs =>
      have hfn := (Linked.act h.linked).2
      rw [hsw] at hfn
      obtain ⟨a, hact, rfl⟩ := Option.map_eq_some_iff.mp hfn
      refine ⟨a, hact, List.mem_cons_self, ?_⟩
      rw [h.current]
      unfold top cubicles
      rw [hsw]
      rfl

end Effect

/-- **Faults are resolved for the code that faulted.** In every state that
calls and returns reach, inside at least one switched call: whatever code the
running cubicle executes on the innermost coroutine's stack, a fault is an
access (never taken for a return into a hook), and the caller that `get_state`
computes has the key of `remap[prev_module[layer]]`, which is enabled. So when
`sig_handler` returns, the page has that key and the access goes through. -/
theorem fault_caller_holds_key {build : Build} {alloc : ℕ → ℤ} (ha : PkeyAlloc alloc)
    {files : List String} {lay : ℕ → Placement} {en en' : Rights} {A : AddressSpace}
    (hboot : boot build alloc files lay en = .done (A.pm, en')) (hd : A.Disjoint)
    {es : List Event} (hes : ∀ e ∈ es, Callable A.pm e)
    (hreg : ∀ f, Called es f → Registered A f ∧ f.Mapped) {heap : HeapMap}
    {u : UserMem} {s : CallState}
    (hrun : runs (step build A.pm) (.init en' heap u) es = .done s)
    (hlayer : 1 ≤ s.mon.layer) {rip rsp : UInt64}
    (hrip : ExecutedBy build A s.mon.current rip)
    (hrsp : ∀ a, s.cursor.act = some a → OnCoroStack a.fn rsp) (H : HeapMap)
    (addr : UInt64) {st : FaultState} {caller callee : ℤ}
    (hstate : getState A.pm A.map H rip rsp addr = .done (st, caller, callee)) :
    st ≠ .retStackToWrap ∧
      ∃ p q, A.pm.at caller = .done p ∧ A.pm.at (remap A.pm s.mon.current) = .done q ∧
        p.pkey = q.pkey ∧ s.enabled p.pkey = true ∧
        ∀ H', (sigHandler A.pm A.map H rip rsp addr).out = .done H' →
          H'.pages.key (addr.toNat / 4096) = q.pkey ∧
          H'.pages.mapped (addr.toNat / 4096) = true ∧
          s.enabled (H'.pages.key (addr.toNat / 4096)) = true := by
  obtain ⟨T, hT, hkeys, hother⟩ := boot_cubicles ha hboot
  rw [← hT] at hkeys hrun hes
  obtain ⟨fr, hfr, h⟩ := run_follows (Follows.init hkeys hother heap u) hes hrun
  obtain ⟨a, hact, hmem, hcur⟩ := h.innermost hlayer
  have hcalled : Called es a.fn := by
    obtain ⟨x, hx, hxfn⟩ := List.mem_map.mp hmem
    rw [← hxfn]
    exact called_of_frame hfr x (List.mem_filter.mp hx).1
  have hf : Loaded T.pmap a.fn.module := h.loaded _ hmem
  obtain ⟨hregf, hmapf⟩ := hreg a.fn hcalled
  obtain ⟨i, e, hi, hin, hby⟩ := hrip
  rw [hcur] at hby
  obtain ⟨hne, rfl⟩ := AddressSpace.getState_image_caller hi (hd.memToLibId_eq hi hin) hstate
  obtain ⟨p, hp, hpkey⟩ := callerOf_key hT hd (hT ▸ hf) hregf hmapf (hrsp a hact) hi hby
  obtain ⟨q, hq, -, hqkey⟩ := T.at_remap hf
  have hsame : p.pkey = q.pkey := by rw [hpkey, hqkey, hT]
  have hon : s.enabled p.pkey = true := by
    rw [hpkey, ← hT, h.keys.cubicle _ hf, ← h.current, hcur]
    simp
  refine ⟨hne, p, q, hp, ?_, hsame, hon, fun H' hdone => ?_⟩
  · rw [hcur, ← hT]
    exact hq
  · -- the handler acted for the caller that `get_state` computed
    obtain ⟨st', caller', callee', e', hstate', -, hat, hmapped, hkey⟩ := sigHandler_grants hdone
    cases hstate.symm.trans hstate'
    cases hp.symm.trans hat
    rw [hkey, if_pos rfl]
    exact ⟨hsame, hmapped, hon⟩

/-- The small system with the coroutine stack of `vfs_write` registered. -/
def callSpace : AddressSpace where
  pm := samplePmap .plain sampleLayout
  stackTab := [{ start := 0x10000000, size := 0x800000, mid := 21 }]
  mmapStart := 0x100000
  mmapEnd := 0x20000000
  aligned := by constructor <;> decide +kernel
  owners := by decide +kernel

theorem callSpace_disjoint : callSpace.Disjoint := by
  obtain ⟨himages, hnames, hin⟩ := sample_images
  refine AddressSpace.disjoint_of_ranges himages (by decide) (fun e he s hs => ?_) hnames
    (fun e he _ => ?_) (by decide)
  · obtain rfl := List.mem_singleton.mp hs
    exact Or.inl ((hin e he).2.trans (by decide))
  · exact ⟨(hin e he).1, (hin e he).2.trans (by decide)⟩

/-- The sample heap when the application has touched every page last. -/
def touchedHeap : HeapMap :=
  { sampleHeap with
    pages := { sampleHeap.pages with key := fun _ => keyOf callSpace.pm .app } }

theorem callSpace_stack {a : UInt64} (ha : inBlock 0x10000000 0x800000 a = true) :
    memToLibId callSpace.map a = -1 ∧ stackToLibId callSpace.map a = 21 :=
  callSpace_disjoint.stackToLibId_eq (List.mem_singleton.mpr rfl) ha

/-- The C library of the small system, at the instruction that faults. -/
theorem callSpace_libc : ∃ e, callSpace.pm[26]? = some e ∧
    inBlock e.start e.size 0x134010 = true ∧ e.must = false := by
  decide +kernel

theorem libc_getState : getState callSpace.pm callSpace.map touchedHeap 0x134010 0x10400800
    0x10400010 = .done (.accessToStack, 21, 21) := by
  obtain ⟨e, he, hin, hm⟩ := callSpace_libc
  have hcaller : callSpace.callerOf 26 e 0x10400800 = 21 :=
    (if_pos hm).trans (callSpace_stack (by decide)).2
  obtain ⟨hmem, hid⟩ := @callSpace_stack 0x10400010 (by decide)
  rw [AddressSpace.getState_access he (callSpace_disjoint.memToLibId_eq he hin), hmem, hid,
    hcaller]
  rfl

/-- A cubicle always gets its stack back. -/
theorem libc_sigHandler : ∃ H', (sigHandler callSpace.pm callSpace.map touchedHeap 0x134010
    0x10400800 0x10400010).out = .done H' := by
  have hat : (callSpace.pm.at 21).isDone = true := by decide +kernel
  obtain ⟨p, hp⟩ := Outcome.isDone_iff.mp hat
  rw [sigHandler_eq libc_getState]
  obtain ⟨H', hH', -⟩ := @attachPage_done _ touchedHeap _ 0x10400010 _ hp rfl
  exact ⟨H', hH'⟩

/-- Inside `vfs_write` the C library faults on vfscore's stack, on a page that
the application touched last. The handler gives it vfscore's key, and the
library goes on. -/
theorem fault_in_library_during_write :
    ∃ s, runs (step .plain callSpace.pm)
        (.init (sampleRights .plain sampleLayout) touchedHeap fun _ => 0)
        [sampleCall sampleWrite] = .done s ∧
      s.enabled (touchedHeap.pages.key 0x10400) = false ∧
      ∃ H', (sigHandler callSpace.pm callSpace.map touchedHeap 0x134010 0x10400800
          0x10400010).out = .done H' ∧
        H'.pages.key 0x10400 = keyOf callSpace.pm .vfscore ∧
        s.enabled (H'.pages.key 0x10400) = true := by
  have hdone : (runs (step .plain callSpace.pm)
      (.init (sampleRights .plain sampleLayout) touchedHeap fun _ => 0)
      [sampleCall sampleWrite]).bind (fun s => .done (s.mon.layer, s.cursor, s.mon.current,
        s.enabled (touchedHeap.pages.key 0x10400))) =
      .done (1, ⟨some ⟨0, sampleWrite⟩, 0⟩, .vfscore, false) := by
    decide +kernel
  obtain ⟨s, hs, hstate⟩ := Outcome.bind_eq_done.mp hdone
  obtain ⟨hlayer, hcursor, hcurrent, hoff⟩ :
      s.mon.layer = 1 ∧ s.cursor = ⟨some ⟨0, sampleWrite⟩, 0⟩ ∧ s.mon.current = .vfscore ∧
        s.enabled (touchedHeap.pages.key 0x10400) = false := by
    simpa only [Outcome.done.injEq, Prod.mk.injEq] using hstate
  have hcalled : ∀ f, Called [sampleCall sampleWrite] f → f = sampleWrite := by
    rintro f ⟨args, rsp, u, hmem⟩
    have := List.mem_singleton.mp hmem
    simp only [sampleCall, Event.call.injEq] at this
    exact this.1
  have hboot : boot .plain sampleAlloc sampleFiles sampleLayout (fun _ => true) =
      .done (callSpace.pm, sampleRights .plain sampleLayout) :=
    sampleBoot_eq .plain sampleLayout (sample_starts _ (by simp))
  obtain ⟨e, he, hin, hm⟩ := callSpace_libc
  obtain ⟨H', hH'⟩ := libc_sigHandler
  have hholds := fault_caller_holds_key sampleAlloc_pkeyAlloc hboot callSpace_disjoint ?_ ?_ hs
    (by omega) ?_ ?_ touchedHeap 0x10400010 libc_getState
  · obtain ⟨-, p, q, -, hq, -, -, hpage⟩ := hholds
    obtain ⟨hkey, -, hon⟩ := hpage H' hH'
    rw [show (0x10400010 : UInt64).toNat / 4096 = 0x10400 from by decide] at hkey hon
    refine ⟨s, hs, hoff, H', hH', hkey.trans ?_, hon⟩
    -- the entry of `remap[prev_module[layer]]` is vfscore's
    rw [hcurrent] at hq
    have hvfs : (callSpace.pm.at (remap callSpace.pm .vfscore)).bind (fun q =>
        .done q.pkey) = .done (keyOf callSpace.pm .vfscore) := by
      decide +kernel
    rw [hq] at hvfs
    exact Outcome.done.inj hvfs
  · intro e he
    obtain rfl := List.mem_singleton.mp he
    exact sample_loaded .plain (by simp) .vfscore (by simp)
  · intro f hf
    rw [hcalled f hf]
    refine ⟨⟨_, List.mem_singleton.mpr rfl, rfl, by decide, by decide +kernel⟩, ?_⟩
    unfold Export.Mapped
    decide +kernel
  · exact ⟨26, e, he, hin, Or.inl hm⟩
  · intro a ha
    rw [hcursor] at ha
    cases ha
    unfold OnCoroStack
    decide +kernel

end CubicleOS
