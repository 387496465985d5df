import CubicleOS.Calls.Handover
import CubicleOS.Monitor.Fault

/-!
# Owners and keys

`heap_cfg` says who owns a heap page, the page table says whose key it has, and
different functions write the two: `setup_heap` the first, `cmp_attach` the
second, `heap_attach` both. A fault may give a page to somebody else for a
while. Over a run of hooked allocator calls and faults, a page should have the
key of its owner or of somebody it was given to.
-/

namespace CubicleOS

open Foundation

/-! ## §1  The heap over a run -/

/-- The map and, for the address of each page, the cubicles that `sig_handler`
has given the page to since it was last recorded. -/
structure HeapRun where
  heap : HeapMap
  grants : UInt64 → List ℤ

/-- The wrap of a hooked call, before it or after it, or a fault. What happens
between the two wraps of a call is up to the run. -/
inductive HeapEvent where
  | preWrap (c : HookedCall)
  | postWrap (c : HookedCall)
  | fault (rip rsp addr : UInt64)

namespace HeapRun

/-- `setup_heap` has just returned. -/
def start (s : HeapMap) (base len : UInt64) : HeapRun where
  heap := (setupHeap base len s).1
  grants := fun _ => []

/-- Monitor code; recording a page ends what it was given for. -/
def afterOps (pm : Pmap) (ops : List MonitorOp) (s : HeapRun) : Outcome HeapRun :=
  ((runOps pm ops).toStep s.heap).bind fun H =>
    .done
      { heap := H
        grants := fun a =>
          if ∃ op ∈ ops, op.Writes s.heap a then [] else s.grants a }

/-- `sig_handler`; the page goes to the caller that `get_state` names. -/
def afterFault (pm : Pmap) (M : PageMap) (rip rsp addr : UInt64) (s : HeapRun) :
    Outcome HeapRun :=
  (sigHandler pm M s.heap rip rsp addr).out.bind fun H =>
    (getState pm M s.heap rip rsp addr).bind fun r =>
      .done
        { heap := H
          grants := Function.update s.grants (pageStart addr)
            (r.2.1 :: s.grants (pageStart addr)) }

def step (build : Build) (pm : Pmap) (M : PageMap) (s : HeapRun) : HeapEvent → Outcome HeapRun
  | .preWrap c => s.afterOps pm (c.preOps build pm)
  | .postWrap c => s.afterOps pm (c.postOps build pm)
  | .fault rip rsp addr => s.afterFault pm M rip rsp addr

end HeapRun

/-- `k` is the key of the cubicle `m`. -/
def HasKey (pm : Pmap) (m : ℤ) (k : ℤ) : Prop := ∃ e, pm.at m = .done e ∧ e.pkey = k

/-- The key of every heap page is that of its owner, or of a cubicle that the
page was given to. -/
def Coherent (pm : Pmap) (s : HeapRun) : Prop :=
  ∀ a : UInt64, 4096 ∣ a.toNat → s.heap.inHeap a = true →
    ∃ m, (m = heapToLibId s.heap a ∨ m ∈ s.grants a) ∧
      HasKey pm m (s.heap.pages.key (a.toNat / 4096))

/-- Every heap page that the code re-keys for `mid` without recording it belongs
to, or was given to, a cubicle with the key of `mid`. -/
def Covered (pm : Pmap) (ops : List MonitorOp) (mid : ℤ) (s : HeapRun) : Prop :=
  ∀ a : UInt64, 4096 ∣ a.toNat → s.heap.inHeap a = true →
    (∃ op ∈ ops, op.Keys s.heap (a.toNat / 4096)) →
    (¬ ∃ op ∈ ops, op.Writes s.heap a) →
      ∃ m, (m = heapToLibId s.heap a ∨ m ∈ s.grants a) ∧ ∃ k, HasKey pm m k ∧ HasKey pm mid k

/-- The hooked calls are calls of the allocator, between loaded cubicles. -/
def HeapEvent.OfAllocator (pm : Pmap) : HeapEvent → Prop
  | .preWrap c => c.fn.lib = .ukalloc ∧ Loaded pm c.caller
  | .postWrap c => c.fn.lib = .ukalloc ∧ Loaded pm c.caller
  | .fault _ _ _ => True

/-- The pages that a wrap re-keys on their own are covered. -/
def HeapEvent.Keeps (build : Build) (pm : Pmap) (s : HeapRun) : HeapEvent → Prop
  | .preWrap c => Covered pm (c.preOps build pm) Modules.ukalloc.id s
  | .postWrap c => Covered pm (c.postOps build pm) c.caller.id s
  | .fault _ _ _ => True

/-! ## §2  One step -/

section Step

variable {pm : Pmap} {s s' : HeapRun}

theorem afterOps_done {ops : List MonitorOp} (h : s.afterOps pm ops = .done s') :
    runOps pm ops s.heap = (s'.heap, .done ()) ∧
      ∀ a, s'.grants a = if ∃ op ∈ ops, op.Writes s.heap a then [] else s.grants a := by
  obtain ⟨H, hH, h⟩ := Outcome.bind_eq_done.mp h
  cases h
  exact ⟨Proc.toStep_eq_done.mp hH, fun _ => rfl⟩

/-- Monitor code keeps the map coherent exactly when it is covered. -/
theorem coherent_afterOps_iff {mid : ℤ} (hmid : -128 ≤ mid ∧ mid < 128) {e : ProcMap}
    (hat : pm.at mid = .done e) {ops : List MonitorOp} (hops : ∀ op ∈ ops, op.For mid)
    (huser : s.heap.UserHalf) (hcoh : Coherent pm s) (h : s.afterOps pm ops = .done s') :
    Coherent pm s' ↔ Covered pm ops mid s := by
  obtain ⟨hrun, hgrants⟩ := afterOps_done h
  have hdone : (runOps pm ops s.heap).2 = .done () := by rw [hrun]
  have hshape := runOps_shape pm (fun op hop => ⟨mid, hops op hop⟩) s.heap
  rw [hrun] at hshape
  have hin : ∀ a, s'.heap.inHeap a = s.heap.inHeap a := by
    intro a
    unfold HeapMap.inHeap
    rw [hshape.heapStart, hshape.heapEnd]
  have howner := fun a => runOps_owner pm hmid hops s.heap a
  have hkey := fun p => runOps_key hat hops s.heap p
  simp only [writesEntry_iff hops hdone, keysPage_iff hops hdone, hrun] at howner hkey
  constructor
  · intro hcoh' a ha haheap hk hw
    obtain ⟨m, hm, em, hem, hek⟩ := hcoh' a ha ((hin a).trans haheap)
    rw [(howner a).2 hw, hgrants a, if_neg hw] at hm
    rw [(hkey _).1 hk] at hek
    exact ⟨m, hm, e.pkey, ⟨em, hem, hek⟩, e, hat, rfl⟩
  · intro hcov a ha haheap
    rw [hin a] at haheap
    by_cases hw : ∃ op ∈ ops, op.Writes s.heap a
    · -- recorded for `mid`, and re-keyed with it
      have hk := runOps_keys_of_writes ha hops huser hdone hw
      refine ⟨mid, Or.inl ((howner a).1 hw).symm, e, hat, ?_⟩
      exact ((hkey _).1 hk).symm
    · rw [(howner a).2 hw, hgrants a, if_neg hw]
      by_cases hk : ∃ op ∈ ops, op.Keys s.heap (a.toNat / 4096)
      · obtain ⟨m, hm, k, hmk, e', hat', rfl⟩ := hcov a ha haheap hk hw
        rw [hat] at hat'
        cases hat'
        refine ⟨m, hm, ?_⟩
        rw [(hkey _).1 hk]
        exact hmk
      · rw [(hkey _).2 hk]
        exact hcoh a ha haheap

/-- What a fault that is handled does to the map. -/
theorem sigHandler_done {M : PageMap} {H H' : HeapMap} {rip rsp addr : UInt64}
    (h : (sigHandler pm M H rip rsp addr).out = .done H') :
    ∃ st caller callee, getState pm M H rip rsp addr = .done (st, caller, callee) ∧
      cmpAttach pm caller (pageStart addr) 4096 H = (H', .done ()) := by
  unfold sigHandler at h
  split at h
  · rename_i st caller callee hstate
    refine ⟨st, caller, callee, hstate, ?_⟩
    unfold handleFault at h
    rw [Traced.bind_out] at h
    obtain ⟨ok, -, h⟩ := Outcome.bind_eq_done.mp h
    split at h
    · exact Proc.toStep_eq_done.mp h
    · cases h
  · cases h
  · cases h

theorem afterFault_done {M : PageMap} {rip rsp addr : UInt64}
    (h : s.afterFault pm M rip rsp addr = .done s') :
    ∃ caller, cmpAttach pm caller (pageStart addr) 4096 s.heap = (s'.heap, .done ()) ∧
      s'.grants = Function.update s.grants (pageStart addr)
        (caller :: s.grants (pageStart addr)) := by
  obtain ⟨H, hH, h⟩ := Outcome.bind_eq_done.mp h
  obtain ⟨st, caller, callee, hstate, hattach⟩ := sigHandler_done hH
  rw [hstate] at h
  cases h
  exact ⟨caller, hattach, rfl⟩

/-- A fault keeps the map coherent: whoever gets the key is noted. -/
theorem coherent_afterFault {M : PageMap} {rip rsp addr : UInt64} (hcoh : Coherent pm s)
    (h : s.afterFault pm M rip rsp addr = .done s') : Coherent pm s' := by
  obtain ⟨caller, hattach, hgrants⟩ := afterFault_done h
  have hdone : (cmpAttach pm caller (pageStart addr) 4096 s.heap).2 = .done () := by
    rw [hattach]
  obtain ⟨⟨e, hat⟩, haligned, hmap⟩ := cmpAttach_done hdone (by decide)
  have hshape := cmpAttach_shape pm caller (pageStart addr) 4096 s.heap
  have hkey := cmpAttach_key hat (pageStart addr) 4096 s.heap
  have howner := cmpAttach_owner pm caller (pageStart addr) 4096 s.heap
  rw [hattach] at hshape
  simp only [hattach] at hkey howner
  intro a ha hin
  have hin' : s.heap.inHeap a = true := by
    unfold HeapMap.inHeap at hin ⊢
    rwa [hshape.heapStart, hshape.heapEnd] at hin
  have hone : pagesOf 4096 = 1 := by decide
  by_cases hpage : a = pageStart addr
  · subst hpage
    refine ⟨caller, Or.inr ?_, e, hat, ?_⟩
    · rw [hgrants, Function.update_self]
      exact List.mem_cons_self
    · refine ((hkey _).1 ⟨by decide, haligned, hmap, le_refl _, ?_⟩).symm
      rw [hone]
      omega
  · have hno : ¬ Rekeys s.heap (pageStart addr) 4096 (a.toNat / 4096) := by
      rintro ⟨-, -, -, hlo, hhi⟩
      rw [hone] at hhi
      exact hpage (UInt64.toNat_inj.mp (by omega))
    rw [howner a, hgrants, Function.update_of_ne hpage, (hkey _).2 hno]
    exact hcoh a ha hin'

/-! ### The guard, by function

A block is recorded and re-keyed page by page, so the only page that a wrap
re-keys without recording it is the one of the record, and only if it is not a
page of the block. `uk_realloc_ifpages` records that page too when it returns
the new block. -/

/-- The page at `tmp` is outside the heap, or one of the `num` pages from `base`
on, or belongs to or was given to a cubicle with the key of `mid`. -/
def RecordCovered (pm : Pmap) (s : HeapRun) (mid : ℤ) (tmp base num : UInt64) : Prop :=
  s.heap.inHeap tmp = true →
    ¬ (base.toNat ≤ tmp.toNat ∧ tmp.toNat < base.toNat + num.toNat % 2 ^ 52 * 4096) →
      ∃ m, (m = heapToLibId s.heap tmp ∨ m ∈ s.grants tmp) ∧
        ∃ k, HasKey pm m k ∧ HasKey pm mid k

/-- The pages of a block that is there are a range of addresses. -/
theorem HeapMap.RunAt.inRun_iff {H : HeapMap} (huser : H.UserHalf) {base num a : UInt64}
    (hrun : H.RunAt base num) (ha : 4096 ∣ a.toNat) (hin : H.inHeap a = true) :
    H.InRun base num a ↔
      base.toNat ≤ a.toNat ∧ a.toNat < base.toNat + num.toNat % 2 ^ 52 * 4096 := by
  unfold HeapMap.InRun
  rcases hrun with hnone | ⟨hbase, hal, -⟩
  · omega
  · have hrange := (longRange_iff huser.heapStart huser.heapEnd).mp hbase
    have hrange' := (longRange_iff huser.heapStart huser.heapEnd).mp hin
    rw [pageIndex_eq hrange.1, pageIndex_eq hrange'.1, and_iff_right hbase, and_iff_right hin]
    omega

theorem covered_attachBlock_iff (huser : s.heap.UserHalf) {mid : ℤ} {tmp base num : UInt64}
    (hpage : s.heap.PageAt tmp) (hrun : s.heap.RunAt base num) :
    Covered pm (attachBlock mid tmp base num) mid s ↔ RecordCovered pm s mid tmp base num := by
  have hdvd : 4096 ∣ tmp.toNat := Nat.dvd_of_mod_eq_zero hpage.1
  unfold Covered RecordCovered
  simp only [attachBlock_attaches, attachBlock_keys hpage hrun, pageOfRun_one]
  constructor
  · intro h hin hout
    exact h tmp hdvd hin (Or.inl rfl) fun hw => hout ((hrun.inRun_iff huser hdvd hin).mp hw)
  · intro h a ha hin hk hw
    rw [hrun.inRun_iff huser ha hin] at hw
    rcases hk with hk | hk
    · obtain rfl : a = tmp := UInt64.toNat_inj.mp (by omega)
      exact h hin hw
    · -- the page lies in the block
      obtain ⟨hlo, hhi⟩ := hk
      rcases hrun with hnone | ⟨-, hal, -⟩
      · omega
      · omega

theorem covered_attachBlock_of_done (huser : s.heap.UserHalf) {mid : ℤ} {e : ProcMap}
    (hat : pm.at mid = .done e) {tmp base num : UInt64} {H : HeapMap}
    (hops : runOps pm (attachBlock mid tmp base num) s.heap = (H, .done ())) :
    Covered pm (attachBlock mid tmp base num) mid s ↔ RecordCovered pm s mid tmp base num := by
  obtain ⟨hpage, hrun⟩ := (attachBlock_done hat).mp (congrArg Prod.snd hops)
  exact covered_attachBlock_iff huser hpage hrun

theorem covered_attachWithRecord (huser : s.heap.UserHalf) {mid : ℤ} {tmp base num : UInt64}
    (hpage : s.heap.RunAt tmp 1) (hrun : s.heap.RunAt base num) :
    Covered pm (attachWithRecord mid tmp base num) mid s := by
  intro a ha hin hk hw
  rw [attachWithRecord_attaches, hpage.inRun_iff huser ha hin,
    hrun.inRun_iff huser ha hin] at hw
  rw [attachWithRecord_keys hpage hrun] at hk
  unfold PageOfRun at hk
  rw [show (1 : UInt64).toNat % 2 ^ 52 = 1 from rfl] at hk hw
  rcases hrun with hnone | ⟨-, hal, -⟩
  · rcases hpage with h | ⟨-, hal', -⟩
    · exact absurd h (by decide)
    · omega
  · rcases hpage with h | ⟨-, hal', -⟩
    · exact absurd h (by decide)
    · omega

theorem covered_nil {mid : ℤ} : Covered pm [] mid s := by
  rintro a - - ⟨op, hop, -⟩
  cases hop

end Step

/-! ## §3  Whole runs -/

section Runs

variable {build : Build} (T : Cubicles build) (M : PageMap)

/-- The wraps of a call of the allocator act for ukalloc or for the caller. -/
theorem allocator_preOps_for (hU : Loaded T.pmap .ukalloc) {c : HookedCall}
    (hlib : c.fn.lib = .ukalloc) :
    ∀ op ∈ c.preOps build T.pmap, op.For Modules.ukalloc.id :=
  preOps_for T (by rw [Export.module_ukalloc hlib]; exact hU)

theorem allocator_postOps_for {c : HookedCall} (hlib : c.fn.lib = .ukalloc)
    (hC : Loaded T.pmap c.caller) :
    ∀ op ∈ c.postOps build T.pmap, op.For c.caller.id := by
  unfold HookedCall.postOps
  split
  · simp
  · rw [T.remap_loaded hC]
    rcases genPostWrap_for c.fn c.caller.id c.args c.ret c.memory' with h | ⟨hplat, -⟩
    · exact h
    · rw [hlib] at hplat
      cases hplat

theorem loaded_hasKey {m : Modules} (hm : Loaded T.pmap m) :
    ∃ e, T.pmap.at m.id = .done e ∧ e.pkey = keyOf T.pmap m := by
  obtain ⟨e, hat, -, hkey⟩ := T.at_remap hm
  rw [T.remap_loaded hm] at hat
  exact ⟨e, hat, hkey⟩

/-- One step keeps the map coherent exactly when the guard holds before it. -/
theorem coherent_step_iff (hU : Loaded T.pmap .ukalloc) {s s' : HeapRun} {e : HeapEvent}
    (huser : s.heap.UserHalf) (hcoh : Coherent T.pmap s) (hes : e.OfAllocator T.pmap)
    (h : s.step build T.pmap M e = .done s') :
    Coherent T.pmap s' ↔ e.Keeps build T.pmap s := by
  cases e with
  | preWrap c =>
      obtain ⟨e, hat, -⟩ := loaded_hasKey T hU
      exact coherent_afterOps_iff (Modules.id_char .ukalloc) hat
        (allocator_preOps_for T hU hes.1) huser hcoh h
  | postWrap c =>
      obtain ⟨e, hat, -⟩ := loaded_hasKey T hes.2
      exact coherent_afterOps_iff (Modules.id_char c.caller) hat
        (allocator_postOps_for T hes.1 hes.2) huser hcoh h
  | fault rip rsp addr => exact iff_of_true (coherent_afterFault hcoh h) trivial

/-- What the guard asks of a pre-wrap that goes through. -/
theorem preWrap_keeps_iff (hU : Loaded T.pmap .ukalloc) {s s' : HeapRun} {c : HookedCall}
    (huser : s.heap.UserHalf) (hlib : c.fn.lib = .ukalloc)
    (h : s.step build T.pmap M (.preWrap c) = .done s') :
    (HeapEvent.preWrap c).Keeps build T.pmap s ↔
      (friends build c.caller .ukalloc = false → c.args 1 ≠ 0 →
        (c.fn.wrapped = some .free →
          RecordCovered T.pmap s Modules.ukalloc.id (freeRecord (c.args 1))
            (metaBase c.memory (freeRecord (c.args 1)))
            (numPages c.memory (freeRecord (c.args 1)))) ∧
        (c.fn.wrapped = some .realloc →
          RecordCovered T.pmap s Modules.ukalloc.id (c.args 1 - 16)
            (metaBase c.memory (c.args 1 - 16)) (numPages c.memory (c.args 1 - 16)))) := by
  obtain ⟨e, hat, -⟩ := loaded_hasKey T hU
  have hrun := (afterOps_done h).1
  show Covered T.pmap (c.preOps build T.pmap) Modules.ukalloc.id s ↔ _
  unfold HookedCall.preOps at hrun ⊢
  rw [Export.module_ukalloc hlib] at hrun ⊢
  by_cases hfr : friends build c.caller .ukalloc = true
  · rw [if_pos hfr]
    exact iff_of_true covered_nil fun hno => absurd (hfr.symm.trans hno) (by decide)
  · rw [if_neg hfr, T.remap_loaded hU, genPreWrap_wrapped] at hrun ⊢
    have hno : friends build c.caller .ukalloc = false := Bool.not_eq_true _ ▸ hfr
    by_cases harg : c.args 1 = 0
    · simp only [harg, ne_eq, not_true_eq_false, if_false, false_implies, implies_true,
        iff_true]
      split <;> exact covered_nil
    · cases hfn : c.fn.wrapped with
      | none => simp [covered_nil]
      | some fn =>
          rw [hfn] at hrun
          cases fn with
          | free =>
              dsimp only at hrun ⊢
              rw [if_pos harg] at hrun ⊢
              rw [covered_attachBlock_of_done huser hat hrun]
              simp [hno, harg]
          | realloc =>
              dsimp only at hrun ⊢
              rw [if_pos harg] at hrun ⊢
              rw [covered_attachBlock_of_done huser hat hrun]
              simp [hno, harg]
          | posixMemalign => simp [covered_nil]
          | malloc => simp [covered_nil]
          | memregionGet => simp [covered_nil]

/-- And of a post-wrap. -/
theorem postWrap_keeps_iff {s s' : HeapRun} {c : HookedCall} (huser : s.heap.UserHalf)
    (hlib : c.fn.lib = .ukalloc) (hC : Loaded T.pmap c.caller)
    (h : s.step build T.pmap M (.postWrap c) = .done s') :
    (HeapEvent.postWrap c).Keeps build T.pmap s ↔
      (friends build c.caller .ukalloc = false →
        (c.fn.wrapped = some .malloc → c.ret ≠ 0 →
          RecordCovered T.pmap s c.caller.id (c.ret - 16) (metaBase c.memory' (c.ret - 16))
            (numPages c.memory' (c.ret - 16))) ∧
        (c.fn.wrapped = some .posixMemalign → c.ret.toUInt32 = 0 →
          RecordCovered T.pmap s c.caller.id (memalignRecord (c.memory' (c.args 1)))
            (metaBase c.memory' (memalignRecord (c.memory' (c.args 1))))
            (memalignPages c.memory' (c.memory' (c.args 1))))) := by
  obtain ⟨e, hat, -⟩ := loaded_hasKey T hC
  have hrun := (afterOps_done h).1
  show Covered T.pmap (c.postOps build T.pmap) c.caller.id s ↔ _
  unfold HookedCall.postOps at hrun ⊢
  rw [Export.module_ukalloc hlib] at hrun ⊢
  by_cases hfr : friends build c.caller .ukalloc = true
  · rw [if_pos hfr]
    exact iff_of_true covered_nil fun hno => absurd (hfr.symm.trans hno) (by decide)
  · rw [if_neg hfr, T.remap_loaded hC, genPostWrap_wrapped] at hrun ⊢
    have hno : friends build c.caller .ukalloc = false := Bool.not_eq_true _ ▸ hfr
    cases hfn : c.fn.wrapped with
    | none => simp [covered_nil]
    | some fn =>
        rw [hfn] at hrun
        cases fn with
        | free => simp [covered_nil]
        | realloc =>
            by_cases hret : c.ret = 0
            · simp [hret, covered_nil]
            · dsimp only at hrun ⊢
              rw [if_pos hret] at hrun ⊢
              obtain ⟨hpage, hruns⟩ := (attachWithRecord_done hat).mp (congrArg Prod.snd hrun)
              simp [covered_attachWithRecord huser hpage hruns]
        | posixMemalign =>
            by_cases hret : c.ret.toUInt32 = 0
            · dsimp only at hrun ⊢
              rw [if_pos hret] at hrun ⊢
              rw [covered_attachBlock_of_done huser hat hrun]
              simp [hno, hret]
            · simp [hret, covered_nil]
        | malloc =>
            by_cases hret : c.ret = 0
            · simp [hret, covered_nil]
            · dsimp only at hrun ⊢
              rw [if_pos hret] at hrun ⊢
              rw [covered_attachBlock_of_done huser hat hrun]
              simp [hno, hret]
        | memregionGet => cases (Export.wrapped_lib hfn).symm.trans hlib

theorem userHalf_step (hU : Loaded T.pmap .ukalloc) {s s' : HeapRun} {e : HeapEvent}
    (huser : s.heap.UserHalf) (hes : e.OfAllocator T.pmap)
    (h : s.step build T.pmap M e = .done s') : s'.heap.UserHalf := by
  have hops : ∀ {mid : ℤ} {ops : List MonitorOp}, (∀ op ∈ ops, op.For mid) →
      s.afterOps T.pmap ops = .done s' → s'.heap.UserHalf := by
    intro mid ops hfor hdone
    have hshape := runOps_shape T.pmap (fun op hop => ⟨mid, hfor op hop⟩) s.heap
    rw [(afterOps_done hdone).1] at hshape
    exact huser.congr hshape
  cases e with
  | preWrap c => exact hops (allocator_preOps_for T hU hes.1) h
  | postWrap c => exact hops (allocator_postOps_for T hes.1 hes.2) h
  | fault rip rsp addr =>
      obtain ⟨caller, hattach, -⟩ := afterFault_done h
      have hshape := cmpAttach_shape T.pmap caller (pageStart addr) 4096 s.heap
      rw [hattach] at hshape
      exact huser.congr hshape

/-- A fresh map is coherent exactly when the heap has ukalloc's key already. -/
theorem coherent_start_iff (hU : Loaded T.pmap .ukalloc) (s : HeapMap) {base len : UInt64}
    (huser : base.toNat + len.toNat < 2 ^ 63) :
    Coherent T.pmap (HeapRun.start s base len) ↔
      ∀ a : UInt64, 4096 ∣ a.toNat → base.toNat ≤ a.toNat →
        a.toNat < base.toNat + len.toNat →
          s.pages.key (a.toNat / 4096) = keyOf T.pmap .ukalloc := by
  have hsum : (base + len).toNat = base.toNat + len.toNat := by
    rw [UInt64.toNat_add]
    exact Nat.mod_eq_of_lt (by omega)
  have hin : ∀ a, (HeapRun.start s base len).heap.inHeap a = true ↔
      base.toNat ≤ a.toNat ∧ a.toNat < base.toNat + len.toNat := by
    intro a
    show longRange base (base + len) a = true ↔ _
    rw [← hsum]
    exact longRange_iff (by omega) (by omega)
  obtain ⟨e, hat, hkey⟩ := loaded_hasKey T hU
  constructor
  · intro h a ha hlo hhi
    obtain ⟨m, hm, e', hat', hkey'⟩ := h a ha ((hin a).mpr ⟨hlo, hhi⟩)
    have hown : heapToLibId (HeapRun.start s base len).heap a = Modules.ukalloc.id :=
      if_pos ((hin a).mpr ⟨hlo, hhi⟩)
    rcases hm with rfl | hm
    · rw [hown, hat] at hat'
      cases hat'
      exact hkey'.symm.trans hkey
    · cases hm
  · intro h a ha hheap
    obtain ⟨hlo, hhi⟩ := (hin a).mp hheap
    have hown : heapToLibId (HeapRun.start s base len).heap a = Modules.ukalloc.id :=
      if_pos hheap
    refine ⟨_, Or.inl hown.symm, e, hat, hkey.trans (h a ha hlo hhi).symm⟩

/-- **Owners and keys, exactly.** In every state that a run of allocator calls
and faults reaches from `setup_heap`, each heap page has the key of its owner or
of a cubicle it was given to, if and only if the heap had ukalloc's key before
`setup_heap`, and each wrap that goes through re-keys on its own only pages of,
or given to, cubicles with the same key. -/
theorem heap_coherent_iff (hU : Loaded T.pmap .ukalloc) (s : HeapMap) {base len : UInt64}
    (huser : base.toNat + len.toNat < 2 ^ 63) {es : List HeapEvent}
    (hes : ∀ e ∈ es, e.OfAllocator T.pmap) :
    Throughout (HeapRun.step build T.pmap M) (Coherent T.pmap) (HeapRun.start s base len) es ↔
      (∀ a : UInt64, 4096 ∣ a.toNat → base.toNat ≤ a.toNat →
        a.toNat < base.toNat + len.toNat →
          s.pages.key (a.toNat / 4096) = keyOf T.pmap .ukalloc) ∧
      Along (HeapRun.step build T.pmap M)
        (fun s e => (∃ s', s.step build T.pmap M e = .done s') → e.Keeps build T.pmap s)
        (HeapRun.start s base len) es := by
  rw [← coherent_start_iff T hU s huser]
  have hstart : (HeapRun.start s base len).heap.UserHalf := by
    have hsum : (base + len).toNat = base.toNat + len.toNat := by
      rw [UInt64.toNat_add]
      exact Nat.mod_eq_of_lt (by omega)
    refine ⟨?_, ?_⟩
    · show base.toNat < 2 ^ 63
      omega
    · show (base + len).toNat < 2 ^ 63
      omega
  have hrun : Coherent T.pmap (HeapRun.start s base len) →
      (Throughout (HeapRun.step build T.pmap M) (Coherent T.pmap)
          (HeapRun.start s base len) es ↔
        Along (HeapRun.step build T.pmap M)
          (fun s e => (∃ s', s.step build T.pmap M e = .done s') → e.Keeps build T.pmap s)
          (HeapRun.start s base len) es) := by
    intro hcoh
    refine throughout_iff_along (J := fun s => s.heap.UserHalf)
      (L := fun _ e => e.OfAllocator T.pmap) ?_ ?_ hstart hcoh ?_
    · exact fun _ _ _ hJ hL h _ => userHalf_step T M hU hJ hL h
    · exact fun _ _ _ hJ hI hL h => coherent_step_iff T M hU hJ hI hL h
    · exact Along.of_forall_mem fun e he _ => hes e he
  constructor
  · intro h
    have hcoh := h [] _ List.nil_prefix rfl
    exact ⟨hcoh, (hrun hcoh).mp h⟩
  · rintro ⟨hcoh, halong⟩
    exact (hrun hcoh).mpr halong

end Runs

/-- The sample heap, with ukalloc's key on every page. -/
def keyedHeap : HeapMap :=
  { sampleHeap with
    pages :=
      { key := fun _ => keyOf (samplePmap .plain sampleLayout) .ukalloc
        mapped := fun _ => true } }

/-- The application's call for a hundred bytes. -/
def appMalloc : HookedCall :=
  (AllocCall.malloc 100).hooked .app 0x10000000 0x700000 (fun _ => 0) 0x805010
    (ukMallocIfpages samplePages 100 fun _ => 0).2

/-- On a heap that is ukalloc's from the start, a `malloc` keeps owners and keys
together: the page of the record is the first page of the block. -/
theorem malloc_keeps_coherent :
    ∃ T : Cubicles .plain, T.pmap = samplePmap .plain sampleLayout ∧
      Throughout (HeapRun.step .plain T.pmap sampleSpace.map) (Coherent T.pmap)
        (HeapRun.start keyedHeap 0x800000 0x100000) [.postWrap appMalloc] := by
  obtain ⟨T, hT, happ, hukalloc⟩ := sample_plain
  refine ⟨T, hT, (heap_coherent_iff T sampleSpace.map hukalloc keyedHeap (by decide) ?_).mpr
    ⟨?_, ?_, fun _ _ => trivial⟩⟩
  · intro e he
    obtain rfl := List.mem_singleton.mp he
    exact ⟨rfl, happ⟩
  · intro a _ _ _
    rw [hT]
    rfl
  · rintro ⟨s', hstep⟩
    -- the page of the record is a page of the block
    refine (postWrap_keeps_iff T sampleSpace.map ⟨by decide, by decide⟩ rfl happ hstep).mpr ?_
    intro _
    refine ⟨fun _ _ _ hout => absurd ?_ hout, fun hfn => ?_⟩
    · decide +kernel
    · simp [appMalloc, AllocCall.hooked, AllocCall.name, Export.wrapped] at hfn

/-- The platform maps the heap with key 0 and nobody changes that: right after
`setup_heap` every page is recorded as ukalloc's and has nobody's key. -/
theorem fresh_heap_has_nobodys_key :
    let pm := samplePmap .plain sampleLayout
    let s := HeapRun.start sampleHeap 0x800000 0x100000
    heapToLibId s.heap 0x800000 = Modules.ukalloc.id ∧ s.grants 0x800000 = [] ∧
      s.heap.pages.key 0x800 = 0 ∧ keyOf pm .ukalloc ≠ 0 ∧
      ¬ Throughout (HeapRun.step .plain pm sampleSpace.map) (Coherent pm) s [] := by
  intro pm s
  have hown : heapToLibId s.heap 0x800000 = Modules.ukalloc.id := by decide +kernel
  have hkey : (pm.at Modules.ukalloc.id).bind (fun e => .done (decide (e.pkey = 0))) =
      .done false := by
    decide +kernel
  refine ⟨hown, rfl, rfl, by decide +kernel, fun h => ?_⟩
  obtain ⟨m, hm, e, hat, hzero⟩ := throughout_nil.mp h 0x800000 (by decide) (by decide +kernel)
  rcases hm with rfl | hm
  · rw [hown] at hat
    rw [hat, Outcome.done_bind, Outcome.done.injEq, decide_eq_false_iff_not] at hkey
    exact hkey hzero
  · cases hm

end CubicleOS
