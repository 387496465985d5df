import CubicleOS.Libs.Alloc

/-!
# Blocks and their owners

The wraps of the allocator's hooks find the record of a block on their own,
from the pointer alone, and move its pages between the caller and ukalloc. So
the two codes have to fit: does the caller own what it got, do both look for
the record in the same place, what does a failure leave behind, and what is
missing after a call that skips the wraps.
-/

namespace CubicleOS

open Foundation

/-! ## §1  The caller owns its block -/

/-- Arguments of the exported function; `a` is the `struct uk_alloc`. -/
def AllocCall.args (a : UInt64) : AllocCall → List UInt64
  | malloc size => [a, size]
  | calloc nmemb size => [a, nmemb, size]
  | realloc ptr size => [a, ptr, size]
  | memalign align size => [a, align, size]
  | posixMemalign memptr align size => [a, memptr, align, size]

/-- The call through its hook, by the cubicle `C`: with memory `u`, and with
`ret` and `u'` when the function is done. -/
def AllocCall.hooked (call : AllocCall) (C : Modules) (stack a : UInt64) (u : UserMem)
    (ret : UInt64) (u' : UserMem) : HookedCall where
  caller := C
  fn := { lib := .ukalloc, name := call.name, stack }
  args := fun i => (call.args a).getD i 0
  memory := u
  ret := ret
  memory' := u'

/-- `m` is recorded for every page that holds one of the `len` bytes from `p`
on. -/
def HeapMap.Owns (s : HeapMap) (m : Modules) (p len : UInt64) : Prop :=
  ∀ b : UInt64, p.toNat ≤ b.toNat → b.toNat < p.toNat + len.toNat →
    heapToLibId s (pageStart b) = m.id

section Pages

variable {s : HeapMap} {base : UInt64} {n : ℕ}

/-- The page of an address inside is inside. -/
theorem HeapMap.Encloses.page (h : s.Encloses base n) {b : UInt64}
    (hlo : base.toNat ≤ b.toNat) (hhi : b.toNat < base.toNat + n * 4096) :
    4096 ∣ (pageStart b).toNat ∧ s.inHeap (pageStart b) = true ∧
      base.toNat ≤ (pageStart b).toNat ∧ (pageStart b).toNat < base.toNat + n * 4096 := by
  obtain ⟨haligned, hlow, hhigh, huser⟩ := h
  have hle := pageBase_le 4096 b.toNat
  have hbase := (le_pageBase_iff (by decide) haligned b.toNat).mpr hlo
  rw [HeapMap.inHeap, longRange_iff (by omega) huser, pageStart_toNat]
  exact ⟨Nat.dvd_mul_left _ _, ⟨by omega, by omega⟩, hbase, by omega⟩

end Pages

/-- After the record is found, the pages of the block are attached. -/
theorem AllocCall.postWrap_plain {call : AllocCall} (hplain : call.Plain) (stack a : UInt64)
    (caller : ℤ) {ret : UInt64} (hret : ret ≠ 0) (u' : UserMem) :
    ∃ op, op.For caller ∧
      genPostWrap { lib := .ukalloc, name := call.name, stack } caller
        (fun i => (call.args a).getD i 0) ret u' =
      [op, .heapAttach caller (metaBase u' (ret - 16)) (numPages u' (ret - 16) * 4096)] := by
  cases call with
  | malloc size =>
      refine ⟨.cmpAttach caller (ret - 16) 4096, rfl, ?_⟩
      simp [genPostWrap, AllocCall.name, hret]
  | calloc nmemb size =>
      refine ⟨.cmpAttach caller (ret - 16) 4096, rfl, ?_⟩
      simp [genPostWrap, AllocCall.name, hret]
  | realloc ptr size =>
      refine ⟨.heapAttach caller (ret - 16) 4096, rfl, ?_⟩
      simp [genPostWrap, AllocCall.name, hret]
  | memalign align size => exact hplain.elim
  | posixMemalign memptr align size => exact hplain.elim

/-- `uk_memalign_compat` has no wraps. -/
theorem wraps_memalign (stack : UInt64) (mid : ℤ) (args : ℕ → UInt64) (ret : UInt64)
    (u : UserMem) :
    genPreWrap { lib := .ukalloc, name := "uk_memalign_compat", stack } mid args u = [] ∧
      genPostWrap { lib := .ukalloc, name := "uk_memalign_compat", stack } mid args ret u =
        [] := by
  simp [genPreWrap, genPostWrap]

/-- So its hook leaves the map as it is. -/
theorem hooked_memalign {align size : UInt64} {C : Modules} {stack a : UInt64} {u u' : UserMem}
    {ret : UInt64} (build : Build) (pm : Pmap) (s : HeapMap) :
    ((AllocCall.memalign align size).hooked C stack a u ret u').Returns build pm s ∧
      ((AllocCall.memalign align size).hooked C stack a u ret u').returned build pm s = s := by
  have hpre : ((AllocCall.memalign align size).hooked C stack a u ret u').preOps build pm =
      [] := by
    unfold HookedCall.preOps
    split
    · rfl
    · exact (wraps_memalign _ _ _ 0 _).1
  have hpost : ((AllocCall.memalign align size).hooked C stack a u ret u').postOps build pm =
      [] := by
    unfold HookedCall.postOps
    split
    · rfl
    · exact (wraps_memalign _ _ _ _ _).2
  unfold HookedCall.Returns HookedCall.returned HookedCall.called
  rw [hpre, hpost]
  exact ⟨⟨rfl, rfl⟩, rfl⟩

section HandedOver

variable {build : Build} (T : Cubicles build) {C : Modules} {s : HeapMap}

theorem preOps_shape (c : HookedCall) (pm : Pmap) (s : HeapMap) :
    SameShape s (c.called build pm s) := by
  refine runOps_shape pm (fun op hop => ?_) s
  unfold HookedCall.preOps at hop
  split at hop
  · cases hop
  · exact ⟨_, genPreWrap_for _ _ _ _ op hop⟩

/-- A post-wrap that ends by attaching whole pages makes the caller their
owner. -/
theorem returned_owner {c : HookedCall} (hret : c.Returns build T.pmap s) {op : MonitorOp}
    (hop : op.For c.caller.id) {base num : UInt64}
    (hpost : c.postOps build T.pmap = [op, .heapAttach c.caller.id base (num * 4096)])
    (hin : s.Encloses base num.toNat) {b : UInt64} (hlo : base.toNat ≤ b.toNat)
    (hhi : b.toNat < base.toNat + num.toNat * 4096) :
    heapToLibId (c.returned build T.pmap s) (pageStart b) = c.caller.id := by
  obtain ⟨hpage, hheap, hbelow, habove⟩ := hin.page hlo hhi
  have hfor : ∀ x ∈ [op, .heapAttach c.caller.id base (num * 4096)],
      x.For c.caller.id := by
    intro x hx
    rcases List.mem_pair.mp hx with rfl | rfl
    · exact hop
    · rfl
  have hshape : SameShape s (c.called build T.pmap s) := preOps_shape c T.pmap s
  have hdone := hret.2
  unfold HookedCall.returned
  rw [hpost] at hdone ⊢
  refine (runOps_owner T.pmap (Modules.id_char c.caller) hfor _ _).1 ?_
  rw [writesEntry_iff hfor hdone]
  refine ⟨_, List.mem_pair.mpr (Or.inr rfl), ?_⟩
  have hlast : MonitorOp.For c.caller.id (.heapAttach c.caller.id base (num * 4096)) := rfl
  rw [MonitorOp.writes_congr hshape hlast]
  exact (hin.attaches_iff hpage hheap).mpr ⟨hbelow, habove⟩

/-- The post-wrap of a block behind its record. -/
theorem AllocCall.postOps_plain (hC : Loaded T.pmap C)
    (hfriends : friends build C .ukalloc = false) {call : AllocCall} (hplain : call.Plain)
    (stack a : UInt64) (u : UserMem) {u' : UserMem} {p r num : UInt64} (hp : p ≠ 0)
    (hpr : p = r + 16) (hrec : HasRecord u' r num r) :
    ∃ op, op.For C.id ∧ (call.hooked C stack a u p u').postOps build T.pmap =
      [op, .heapAttach C.id r (num * 4096)] := by
  obtain ⟨op, hop, hops⟩ := AllocCall.postWrap_plain hplain stack a C.id hp u'
  refine ⟨op, hop, ?_⟩
  unfold HookedCall.postOps
  rw [show (call.hooked C stack a u p u').fn.module = .ukalloc from
      Export.module_ukalloc rfl,
    show (call.hooked C stack a u p u').caller = C from rfl, hfriends, T.remap_loaded hC]
  rw [hpr, UInt64.add_sub_cancel, hrec.1, hrec.2, ← hpr] at hops
  exact hops

/-- **The caller owns its block, exactly.** A cubicle that is not a friend of
ukalloc is recorded for every page of the block it got from a call that
succeeds, unless the function is `uk_memalign_compat`: then it is if, and only
if, it was so before. -/
theorem blocks_handed_over_iff (hC : Loaded T.pmap C)
    (hfriends : friends build C .ukalloc = false) (A : PageAlloc) (call : AllocCall)
    (hexport : ∀ memptr align size, call ≠ .posixMemalign memptr align size)
    (hwrap : call.NoWrap) {u u' : UserMem} {p : UInt64}
    (hrun : call.run A u = .done (p, u')) (hp : p ≠ 0)
    (hspare : call.FreeSpares A u)
    (hin : s.Encloses (A.palloc u call.pages).1 call.pages.toNat) (stack a : UInt64)
    (hret : (call.hooked C stack a u p u').Returns build T.pmap s) :
    ((call.hooked C stack a u p u').returned build T.pmap s).Owns C p call.bytes ↔
      (∀ align size, call ≠ .memalign align size) ∨
        s.Owns C (call.start (A.palloc u call.pages).1) call.bytes := by
  obtain ⟨hacc, hbytes, hne, hstart⟩ := AllocCall.run_spec hrun hp
  by_cases hplain : call.Plain
  · refine iff_of_true ?_ (Or.inl ?_)
    · obtain ⟨hpr, hrec⟩ := AllocCall.record hrun hp hplain hin.aligned hspare
      obtain ⟨op, hop, hpost⟩ := AllocCall.postOps_plain T hC hfriends hplain stack a u hp hpr hrec
      intro b hlo hhi
      -- the block lies in the pages that the last operation attaches
      have hinside := AllocCall.block_inside hacc hwrap hbytes hin.aligned
        (by have := hin.high; have := hin.user; omega)
      rw [← hstart] at hinside
      exact returned_owner T hret hop hpost hin (by omega) (by omega)
    · rintro align size rfl
      exact hplain
  · -- no wraps, so the map is the one before
    obtain ⟨align, size, rfl⟩ : ∃ align size, call = .memalign align size := by
      cases call with
      | memalign align size => exact ⟨align, size, rfl⟩
      | posixMemalign memptr align size => exact absurd rfl (hexport memptr align size)
      | _ => exact absurd trivial hplain
    rw [(hooked_memalign build T.pmap s).2, hstart]
    constructor
    · exact Or.inr
    · rintro (h | h)
      · exact absurd rfl (h align size)
      · exact h

end HandedOver

/-- A page allocator for the examples: it always hands out page 5 of the sample
heap and keeps nothing in memory. -/
def samplePages : PageAlloc where
  palloc := fun u _ => (0x805000, u)
  pfree := fun u _ _ => u

/-- One that keeps its free list in the pages that are free, as the buddy
allocator does: `next`, `pprev` and `level` of what it gets back. -/
def listedPages : PageAlloc where
  palloc := fun u _ => (0x805000, u)
  pfree := fun u base _ => ((u.store base 0x700008).store (base + 8) 0x700000).store (base + 16) 0

/-- The application has a block in page 0 of the sample heap. -/
def sampleMemory : UserMem := fun a =>
  if a = 0x800000 then 1 else if a = 0x800008 then 0x800000 else 0

/-- The memory after a `realloc` of that block to a hundred bytes. -/
def sampleMoved : UserMem :=
  listedPages.pfree ((ukMallocIfpages listedPages 100 sampleMemory).2.memcpy 0x805010 0x800010
    100) 0x800000 1

theorem listedPages_spares :
    (AllocCall.realloc 0x800010 100).FreeSpares listedPages sampleMemory := by
  intro v m num base hv hm hrec
  have hcopied : reallocCopied listedPages 0x800010 100 sampleMemory = .done
      ((ukMallocIfpages listedPages 100 sampleMemory).2.memcpy 0x805010 0x800010 100) := rfl
  obtain rfl := Outcome.done.inj (hcopied.symm.trans hv)
  obtain rfl : (0x800000 : UInt64) = m :=
    Outcome.done.inj ((show ukGetMetadata 0x800010 = .done 0x800000 from by decide).symm.trans hm)
  -- the old record is still there, and names another page
  have hbase : metaBase ((ukMallocIfpages listedPages 100 sampleMemory).2.memcpy 0x805010
      0x800010 100) 0x800000 = 0x800000 := by
    decide +kernel
  rw [hbase]
  exact ((hrec.store_ne (by decide) (by decide) _).store_ne (by decide) (by decide) _).store_ne
    (by decide) (by decide) _

/-- The application gets a hundred bytes, by `malloc` or for an old block. -/
theorem app_blocks_handed_over :
    ∃ T : Cubicles .plain, T.pmap = samplePmap .plain sampleLayout ∧
      (((AllocCall.malloc 100).hooked .app 0x10000000 0x700000 (fun _ => 0) 0x805010
        (ukMallocIfpages samplePages 100 fun _ => 0).2).returned .plain T.pmap
          sampleHeap).Owns .app 0x805010 100 ∧
      (AllocCall.realloc 0x800010 100).run listedPages sampleMemory =
        .done (0x805010, sampleMoved) ∧
      (((AllocCall.realloc 0x800010 100).hooked .app 0x10000000 0x700000 sampleMemory 0x805010
        sampleMoved).returned .plain T.pmap sampleHeap).Owns .app 0x805010 100 := by
  obtain ⟨T, hT, happ, -⟩ := sample_plain
  have hpages : (AllocCall.malloc 100).pages = 1 := by decide +kernel
  have hmoved : (AllocCall.realloc 0x800010 100).run listedPages sampleMemory =
      .done (0x805010, sampleMoved) := rfl
  refine ⟨T, hT, ?_, hmoved, ?_⟩
  · refine (blocks_handed_over_iff T happ (by decide) samplePages (.malloc 100)
      ?_ ?_ ?_ (by decide) trivial ?_ 0x10000000 0x700000 ?_).mpr (Or.inl ?_)
    · simp
    · show 16 + (100 : UInt64).toNat + 4095 < 2 ^ 64
      decide
    · rfl
    · rw [hpages]
      exact ⟨by decide, by decide, by decide, by decide⟩
    · rw [hT]
      constructor
      · decide +kernel
      · decide +kernel
    · simp
  · refine (blocks_handed_over_iff T happ (by decide) listedPages (.realloc 0x800010 100)
      ?_ ?_ hmoved (by decide) listedPages_spares ?_ 0x10000000 0x700000 ?_).mpr (Or.inl ?_)
    · simp
    · show 16 + (100 : UInt64).toNat + 4095 < 2 ^ 64
      decide
    · have hone : (AllocCall.realloc 0x800010 100).pages = 1 := hpages
      rw [hone]
      exact ⟨by decide, by decide, by decide, by decide⟩
    · rw [hT]
      constructor
      · decide +kernel
      · decide +kernel
    · simp

/-- The application gets a hundred bytes aligned to 64. The page still belongs
to ukalloc afterwards. -/
theorem memalign_block_not_handed_over :
    ∃ u', (AllocCall.memalign 64 100).run samplePages (fun _ => 0) = .done (0x805040, u') ∧
      let pm := samplePmap .plain sampleLayout
      let c := (AllocCall.memalign 64 100).hooked .app 0x10000000 0x700000 (fun _ => 0)
        0x805040 u'
      Loaded pm .app ∧ friends .plain .app .ukalloc = false ∧
        sampleHeap.Encloses 0x805000 1 ∧ c.Returns .plain pm sampleHeap ∧
        heapToLibId (c.returned .plain pm sampleHeap) 0x805000 = Modules.ukalloc.id ∧
        ¬ (c.returned .plain pm sampleHeap).Owns .app 0x805040 100 := by
  have hptr : ((AllocCall.memalign 64 100).run samplePages fun _ => 0).bind
      (fun r => .done r.1) = .done 0x805040 := by
    decide +kernel
  obtain ⟨⟨q, u'⟩, hrun, hq⟩ := Outcome.bind_eq_done.mp hptr
  obtain rfl : q = 0x805040 := Outcome.done.inj hq
  refine ⟨u', hrun, ?_⟩
  intro pm c
  have hsame : c.returned .plain pm sampleHeap = sampleHeap := (hooked_memalign _ _ _).2
  have howner : heapToLibId sampleHeap 0x805000 = Modules.ukalloc.id := by decide +kernel
  refine ⟨sample_loaded _ (by simp) _ (by simp), by decide,
    ⟨by decide, by decide, by decide, by decide⟩, (hooked_memalign _ _ _).1, ?_, ?_⟩
  · rw [hsame]
    exact howner
  · rw [hsame]
    intro h
    have happ := h 0x805040 (by decide) (by decide)
    rw [show pageStart 0x805040 = 0x805000 from by decide, howner] at happ
    exact absurd happ (by decide)

/-! ## §2  Where the wraps look for the record -/

/-- The pre-wrap of the function `name` agrees with `uk_get_metadata` on where
the record of `p` is, and so gives exactly the pages that are recorded there
back to ukalloc. -/
def RecordAgrees (name : String) (p : UInt64) : Prop :=
  ∃ m, ukGetMetadata p = .done m ∧
    (∀ (stack : UInt64) (callee : ℤ) (args : ℕ → UInt64) (v : UserMem), args 1 = p →
      genPreWrap { lib := .ukalloc, name, stack } callee args v =
        [.cmpAttach callee m 4096,
          .heapAttach callee (metaBase v m) (numPages v m * 4096)]) ∧
    ∀ (pm : Pmap) (s s' : HeapMap) (stack : UInt64) (args : ℕ → UInt64) (v : UserMem),
      args 1 = p → s.Encloses (metaBase v m) (numPages v m).toNat →
      runOps pm (genPreWrap { lib := .ukalloc, name, stack } Modules.ukalloc.id args v) s =
        (s', .done ()) →
      ∀ a : UInt64, 4096 ∣ a.toNat → s.inHeap a = true →
        heapToLibId s' a =
          if (metaBase v m).toNat ≤ a.toNat ∧
              a.toNat < (metaBase v m).toNat + (numPages v m).toNat * 4096
          then Modules.ukalloc.id else heapToLibId s a

/-- The two operations of a pre-wrap, when they go through. -/
theorem preWrap_owner {pm : Pmap} {s s' : HeapMap} {mid : ℤ} (hmid : -128 ≤ mid ∧ mid < 128)
    {m base num : UInt64} (hin : s.Encloses base num.toNat)
    (h : runOps pm [.cmpAttach mid m 4096, .heapAttach mid base (num * 4096)] s =
      (s', .done ()))
    {a : UInt64} (ha : 4096 ∣ a.toNat) (hheap : s.inHeap a = true) :
    heapToLibId s' a =
      if base.toNat ≤ a.toNat ∧ a.toNat < base.toNat + num.toNat * 4096 then mid
      else heapToLibId s a := by
  have hfor : ∀ op ∈ [MonitorOp.cmpAttach mid m 4096, .heapAttach mid base (num * 4096)],
      op.For mid := by
    intro op hop
    rcases List.mem_pair.mp hop with rfl | rfl
    · rfl
    · rfl
  have howner := runOps_owner pm hmid hfor s a
  rw [writesEntry_iff hfor (by rw [h]), h] at howner
  have hwrites : (∃ op ∈ [MonitorOp.cmpAttach mid m 4096, .heapAttach mid base (num * 4096)],
      op.Writes s a) ↔ base.toNat ≤ a.toNat ∧ a.toNat < base.toNat + num.toNat * 4096 := by
    rw [← hin.attaches_iff ha hheap]
    constructor
    · rintro ⟨op, hop, hw⟩
      rcases List.mem_pair.mp hop with rfl | rfl
      · exact hw.elim
      · exact hw
    · intro hw
      exact ⟨_, List.mem_pair.mpr (Or.inr rfl), hw⟩
  rw [hwrites] at howner
  split
  · exact howner.1 ‹_›
  · exact howner.2 ‹_›

/-- The pre-wraps that move a block: they differ in where they look. -/
theorem recordAgrees_iff {name : String} {p look : UInt64}
    (hwrap : ∀ (stack : UInt64) (callee : ℤ) (args : ℕ → UInt64) (v : UserMem), args 1 = p →
      genPreWrap { lib := .ukalloc, name, stack } callee args v =
        [.cmpAttach callee look 4096,
          .heapAttach callee (metaBase v look) (numPages v look * 4096)]) :
    RecordAgrees name p ↔ ukGetMetadata p = .done look := by
  constructor
  · rintro ⟨m, hm, hops, -⟩
    have hfirst := (hops 0 0 (fun _ => p) (fun _ => 0) rfl).symm.trans
      (hwrap 0 0 (fun _ => p) (fun _ => 0) rfl)
    simp only [List.cons.injEq, MonitorOp.cmpAttach.injEq] at hfirst
    rw [hm, hfirst.1.2.1]
  · intro hm
    refine ⟨look, hm, hwrap, ?_⟩
    intro pm s s' stack args v hargs hin hrun a ha hheap
    rw [hwrap stack _ args v hargs] at hrun
    exact preWrap_owner (Modules.id_char .ukalloc) hin hrun ha hheap

theorem free_agrees_iff {p : UInt64} (hp : p ≠ 0) :
    RecordAgrees "uk_free_ifpages" p ↔
      ukGetMetadata p = .done (if p &&& 0xfff ≠ 0 then p - 16 else p - 4096) := by
  refine recordAgrees_iff fun stack callee args v hargs => ?_
  simp [genPreWrap, hargs, hp]

theorem realloc_agrees_iff {p : UInt64} (hp : p ≠ 0) :
    RecordAgrees "uk_realloc_ifpages" p ↔ ukGetMetadata p = .done (p - 16) := by
  refine recordAgrees_iff fun stack callee args v hargs => ?_
  simp [genPreWrap, hargs, hp]

theorem and_fff_ne_zero_iff {p : UInt64} : p &&& 0xfff ≠ 0 ↔ p.toNat % 4096 ≠ 0 := by
  have hmask : (p &&& 0xfff).toNat = p.toNat % 4096 := by
    rw [UInt64.toNat_and]
    exact Nat.and_two_pow_sub_one_eq_mod p.toNat 12
  rw [Ne, ← UInt64.toNat_inj, hmask]
  rfl

/-- A block `d` bytes into its first page: both pre-wraps look 16 bytes before
it. -/
theorem agrees_inside {r p : UInt64} (hr : 4096 ∣ r.toNat) (hne : r ≠ 0)
    (hlo : r.toNat + 16 ≤ p.toNat) (hhi : p.toNat < r.toNat + 4096) :
    (RecordAgrees "uk_free_ifpages" p ↔ p.toNat = r.toNat + 16) ∧
      (RecordAgrees "uk_realloc_ifpages" p ↔ p.toNat = r.toNat + 16) := by
  have hp : p ≠ 0 := by
    rintro rfl
    exact absurd hlo (by simp)
  have hfff : p &&& 0xfff ≠ 0 := by
    rw [and_fff_ne_zero_iff]
    omega
  have hsub : (p - 16).toNat = p.toNat - 16 := by
    rw [UInt64.toNat_sub_of_le _ _ (by rw [UInt64.le_iff_toNat_le]; exact le_of_add_le_right hlo)]
    rfl
  have hiff : (Outcome.done r = .done (p - 16)) ↔ p.toNat = r.toNat + 16 := by
    rw [Outcome.done.injEq, ← UInt64.toNat_inj, hsub]
    omega
  rw [free_agrees_iff hp, realloc_agrees_iff hp, if_pos hfff, ukGetMetadata_inside hr hne hlo hhi]
  exact ⟨hiff, hiff⟩

/-- A page-aligned block: only the pre-wrap of `uk_free_ifpages` knows. -/
theorem agrees_page {p : UInt64} (hdvd : 4096 ∣ p.toNat) (hge : 8192 ≤ p.toNat) :
    RecordAgrees "uk_free_ifpages" p ∧ ¬ RecordAgrees "uk_realloc_ifpages" p := by
  have hp : p ≠ 0 := by
    rintro rfl
    exact absurd hge (by decide)
  have hfff : ¬ (p &&& 0xfff ≠ 0) := by
    rw [and_fff_ne_zero_iff]
    omega
  rw [free_agrees_iff hp, realloc_agrees_iff hp, if_neg hfff, ukGetMetadata_page hdvd hge]
  refine ⟨rfl, fun h => ?_⟩
  have hsub := congrArg UInt64.toNat (Outcome.done.inj h)
  rw [UInt64.toNat_sub_of_le _ _ (by rw [UInt64.le_iff_toNat_le]; exact le_trans (by decide) hge),
    UInt64.toNat_sub_of_le _ _ (by rw [UInt64.le_iff_toNat_le]; exact le_trans (by decide) hge),
    show (4096 : UInt64).toNat = 4096 from rfl, show (16 : UInt64).toNat = 16 from rfl] at hsub
  omega

/-- An aligned block: the alignment decides. -/
theorem agrees_aligned {align r p : UInt64} (hacc : GoodAlign align) (hr : 4096 ∣ r.toNat)
    (hne : r ≠ 0) (hp : p = alignUp (r + 16) (memalignAlign align))
    (hfit : r.toNat + (memalignPadding align).toNat + (memalignAlign align).toNat < 2 ^ 64) :
    (RecordAgrees "uk_free_ifpages" p ↔ align ≤ 16 ∨ 4096 ≤ align) ∧
      (RecordAgrees "uk_realloc_ifpages" p ↔ align ≤ 16) := by
  obtain ⟨k, hlo, hk⟩ := memalignAlign_two_pow hacc
  have h16 : (16 : UInt64).toNat = 16 := rfl
  have h4096 : (4096 : UInt64).toNat = 4096 := rfl
  simp only [UInt64.le_iff_toNat_le, h16, h4096]
  -- the alignment that is used, in terms of the one that was asked for
  have hal : (memalignAlign align).toNat = if align.toNat < 16 then 16 else align.toNat := by
    unfold memalignAlign
    simp only [UInt64.lt_iff_toNat_lt, h16]
    split <;> rfl
  rcases Nat.lt_or_ge k 12 with hlt | hge
  · have hpal : p.toNat = r.toNat + (memalignAlign align).toNat :=
      hp ▸ alignUp_small hk hlo (by omega) hr
    have hpow : 2 ^ 4 ≤ 2 ^ k := Nat.pow_le_pow_right (by omega) hlo
    have hhalf : 2 ^ k ≤ 2 ^ 11 := Nat.pow_le_pow_right (by omega) (by omega)
    obtain ⟨hfree, hrealloc⟩ := agrees_inside (p := p) hr hne (by omega) (by omega)
    rw [hfree, hrealloc]
    split at hal <;> omega
  · have hbig : 2 ^ 12 ≤ 2 ^ k := Nat.pow_le_pow_right (by omega) hge
    have hpad := memalignPadding_large hk hge
    obtain ⟨hdvd, hlow, -⟩ := alignUp_large hk hge hr (by omega)
    rw [← hp] at hdvd hlow
    have hrpos : r.toNat ≠ 0 := fun h => hne (UInt64.toNat_inj.mp h)
    obtain ⟨hfree, hrealloc⟩ := agrees_page hdvd (by omega)
    refine ⟨iff_of_true hfree ?_, iff_of_false hrealloc ?_⟩
    · split at hal <;> omega
    · split at hal <;> omega

/-- **One record, two ways to find it, exactly.** For a pointer that the four
functions hand out, the pre-wrap of `uk_free_ifpages` agrees with the allocator
unless the block was aligned to more than 16 bytes and less than a page, and
the pre-wrap of `uk_realloc_ifpages` agrees unless it was aligned to more than
16 bytes. -/
theorem records_agree_iff (A : PageAlloc) (call : AllocCall)
    (hfour : ∀ align size, call ≠ .memalign align size) (hwrap : call.NoWrap)
    {u u' : UserMem} {p : UInt64} (hrun : call.run A u = .done (p, u')) (hp : p ≠ 0)
    (hr : 4096 ∣ (A.palloc u call.pages).1.toNat)
    (hfit : (A.palloc u call.pages).1.toNat + call.pages.toNat * 4096 < 2 ^ 64) :
    (RecordAgrees "uk_free_ifpages" p ↔
      ∀ memptr align size, call = .posixMemalign memptr align size →
        align ≤ 16 ∨ 4096 ≤ align) ∧
      (RecordAgrees "uk_realloc_ifpages" p ↔
        ∀ memptr align size, call = .posixMemalign memptr align size → align ≤ 16) := by
  obtain ⟨hacc, hbytes, hne, hstart⟩ := AllocCall.run_spec hrun hp
  have hinside := AllocCall.block_inside hacc hwrap hbytes hr hfit
  rw [← hstart] at hinside
  generalize hrdef : (A.palloc u call.pages).1 = r at *
  have hplain : p = r + 16 → (∀ memptr align size, call ≠ .posixMemalign memptr align size) →
      (RecordAgrees "uk_free_ifpages" p ↔
        ∀ memptr align size, call = .posixMemalign memptr align size →
          align ≤ 16 ∨ 4096 ≤ align) ∧
        (RecordAgrees "uk_realloc_ifpages" p ↔
          ∀ memptr align size, call = .posixMemalign memptr align size → align ≤ 16) := by
    intro hpr hno
    have h16 : p.toNat = r.toNat + 16 := hpr ▸ page_add hr (by decide)
    obtain ⟨hfree, hrealloc⟩ := agrees_inside (p := p) hr hne (by omega) (by omega)
    exact ⟨iff_of_true (hfree.mpr h16) fun _ _ _ h => absurd h (hno _ _ _),
      iff_of_true (hrealloc.mpr h16) fun _ _ _ h => absurd h (hno _ _ _)⟩
  cases call with
  | malloc size => exact hplain hstart (by simp)
  | calloc nmemb size => exact hplain hstart (by simp)
  | realloc ptr size => exact hplain hstart (by simp)
  | memalign align size => exact absurd rfl (hfour align size)
  | posixMemalign memptr align size =>
      have hcond : ∀ P : UInt64 → Prop, (∀ memptr' align' size',
          AllocCall.posixMemalign memptr align size = .posixMemalign memptr' align' size' →
            P align') ↔ P align := by
        intro P
        constructor
        · exact fun h => h memptr align size rfl
        · rintro h _ _ _ heq
          cases heq
          exact h
      rw [hcond fun al => al ≤ 16 ∨ 4096 ≤ al, hcond fun al => al ≤ 16]
      have hpages := aligned_pages hwrap
      change r.toNat + (sizeToNumPages (size + memalignPadding align +
        memalignAlign align)).toNat * 4096 < 2 ^ 64 at hfit
      exact agrees_aligned hacc hr hne hstart (by omega)

/-- For a block from `uk_malloc_ifpages` all three agree. -/
theorem malloc_records_agree :
    RecordAgrees "uk_free_ifpages" 0x805010 ∧ RecordAgrees "uk_realloc_ifpages" 0x805010 := by
  have hpages : (AllocCall.malloc 100).pages = 1 := by decide +kernel
  have h := records_agree_iff samplePages (.malloc 100) (by simp)
    (show 16 + (100 : UInt64).toNat + 4095 < 2 ^ 64 by decide)
    (u := fun _ => 0) (p := 0x805010) rfl (by decide)
    (show 4096 ∣ (0x805000 : UInt64).toNat by decide)
    (by rw [hpages]; decide)
  exact ⟨h.1.mpr (by simp), h.2.mpr (by simp)⟩

/-- A hundred bytes aligned to 64: the allocator has the record at the start of
the page, both pre-wraps read the 16 bytes before the block. -/
theorem aligned_record_missed :
    ((AllocCall.posixMemalign 0x700000 64 100).run samplePages fun _ => 0).bind
        (fun r => .done r.1) = .done 0x805040 ∧
      ukGetMetadata 0x805040 = .done 0x805000 ∧
      (∀ (v : UserMem) (callee : ℤ) (name : String),
        name = "uk_free_ifpages" ∨ name = "uk_realloc_ifpages" →
          genPreWrap { lib := .ukalloc, name, stack := 0 } callee (fun _ => 0x805040) v =
            [.cmpAttach callee 0x805030 4096,
              .heapAttach callee (metaBase v 0x805030) (numPages v 0x805030 * 4096)]) ∧
      ¬ RecordAgrees "uk_free_ifpages" 0x805040 ∧
      ¬ RecordAgrees "uk_realloc_ifpages" 0x805040 := by
  have hmeta : ukGetMetadata 0x805040 = .done 0x805000 := by decide
  refine ⟨by decide +kernel, hmeta, ?_, ?_, ?_⟩
  · have hfff : (0x805040 : UInt64) &&& 0xfff ≠ 0 := by decide
    rintro v callee name (rfl | rfl)
    · simp [genPreWrap, hfff]
    · simp [genPreWrap]
  · rw [free_agrees_iff (by decide), hmeta]
    decide
  · rw [realloc_agrees_iff (by decide), hmeta]
    decide

/-! ## §3  What a failed `realloc` leaves behind -/

/-- A block that `C` got from `uk_malloc_ifpages` and still has. -/
structure LiveBlock (s : HeapMap) (u : UserMem) (C : Modules) (p base num : UInt64) :
    Prop where
  ptr : p = base + 16
  record : HasRecord u base num base
  inside : s.Encloses base num.toNat
  nonempty : base ≠ 0 ∧ num ≠ 0
  owned : ∀ b : UInt64, base.toNat ≤ b.toNat → b.toNat < base.toNat + num.toNat * 4096 →
    heapToLibId s (pageStart b) = C.id

/-- Owners and keys of the pages are the same in both maps. -/
def SamePages (s s' : HeapMap) (base num : UInt64) : Prop :=
  ∀ b : UInt64, base.toNat ≤ b.toNat → b.toNat < base.toNat + num.toNat * 4096 →
    heapToLibId s' (pageStart b) = heapToLibId s (pageStart b) ∧
      s'.pages.key (b.toNat / 4096) = s.pages.key (b.toNat / 4096)

theorem HeapMap.Encloses.congr {s s' : HeapMap} (h : SameShape s s') {base : UInt64} {n : ℕ}
    (hin : s.Encloses base n) : s'.Encloses base n where
  aligned := hin.aligned
  low := h.heapStart ▸ hin.low
  high := h.heapEnd ▸ hin.high
  user := h.heapEnd ▸ hin.user

section Realloc

variable {build : Build} (T : Cubicles build) {C : Modules} {s : HeapMap}

/-- Such blocks come from the hook. -/
theorem malloc_live (hC : Loaded T.pmap C) (hfriends : friends build C .ukalloc = false)
    (A : PageAlloc) {size p : UInt64} {u u' : UserMem}
    (hwrap : 16 + size.toNat + 4095 < 2 ^ 64)
    (hrun : ukMallocIfpages A size u = (p, u')) (hp : p ≠ 0)
    (hin : s.Encloses (A.palloc u (sizeToNumPages (16 + size))).1
      (sizeToNumPages (16 + size)).toNat) (stack a : UInt64)
    (hret : ((AllocCall.malloc size).hooked C stack a u p u').Returns build T.pmap s) :
    LiveBlock (((AllocCall.malloc size).hooked C stack a u p u').returned build T.pmap s) u' C
      p (A.palloc u (sizeToNumPages (16 + size))).1 (sizeToNumPages (16 + size)) := by
  obtain ⟨-, hne, hpr, rfl⟩ := ukMallocIfpages_spec hrun hp
  have hplain : (AllocCall.malloc size).Plain := trivial
  obtain ⟨op, hop, hpost⟩ :=
    AllocCall.postOps_plain T hC hfriends hplain stack a u hp hpr .store
  refine ⟨hpr, .store, ?_, ⟨hne, fun hzero => ?_⟩, ?_⟩
  · refine hin.congr ((preOps_shape _ T.pmap s).trans (runOps_shape T.pmap ?_ _))
    rw [hpost]
    intro x hx
    rcases List.mem_pair.mp hx with rfl | rfl
    · exact ⟨_, hop⟩
    · exact ⟨_, rfl⟩
  · -- sixteen bytes need a page
    have hreal : (16 + size).toNat = 16 + size.toNat := by
      rw [UInt64.toNat_add, show (16 : UInt64).toNat = 16 from rfl]
      exact Nat.mod_eq_of_lt (by omega)
    have hnum := congrArg UInt64.toNat hzero
    rw [sizeToNumPages_toNat (by omega), hreal, show (0 : UInt64).toNat = 0 from rfl] at hnum
    omega
  · intro b hlo hhi
    exact returned_owner T hret hop hpost hin hlo hhi

/-- **A failed `realloc` takes the block away.** The pre-wrap gives the block to
ukalloc, and without a result there is no post-wrap to give it back. The
allocator has not freed it, all that touched the memory is the attempt to get a
new block, but ukalloc is recorded for every page of it. -/
theorem failed_realloc_takes_block (hU : Loaded T.pmap .ukalloc)
    (hfriends : friends build C .ukalloc = false) (A : PageAlloc)
    {p base num size : UInt64} {u u' : UserMem} (hlive : LiveBlock s u C p base num)
    (hsize : size ≠ 0) (hrun : (AllocCall.realloc p size).run A u = .done (0, u'))
    (stack a : UInt64)
    (hret : ((AllocCall.realloc p size).hooked C stack a u 0 u').Returns build T.pmap s) :
    u' = (ukMallocIfpages A size u).2 ∧
      (∀ b : UInt64, base.toNat ≤ b.toNat → b.toNat < base.toNat + num.toNat * 4096 →
        heapToLibId (((AllocCall.realloc p size).hooked C stack a u 0 u').returned build
          T.pmap s) (pageStart b) = Modules.ukalloc.id) ∧
      ¬ SamePages s (((AllocCall.realloc p size).hooked C stack a u 0 u').returned build
        T.pmap s) base num := by
  have hp : p ≠ 0 := by
    have h16 : (base + 16).toNat = base.toNat + 16 :=
      page_add hlive.inside.aligned (by decide)
    rintro rfl
    rw [← hlive.ptr] at h16
    exact absurd h16 (by simp)
  have hmod : ((AllocCall.realloc p size).hooked C stack a u 0 u').fn.module = .ukalloc :=
    Export.module_ukalloc rfl
  have hpre : ((AllocCall.realloc p size).hooked C stack a u 0 u').preOps build T.pmap =
      [.cmpAttach Modules.ukalloc.id base 4096,
        .heapAttach Modules.ukalloc.id base (num * 4096)] := by
    unfold HookedCall.preOps
    rw [hmod, show ((AllocCall.realloc p size).hooked C stack a u 0 u').caller = C from rfl,
      hfriends, T.remap_loaded hU]
    have hlook : p - 16 = base := by rw [hlive.ptr, UInt64.add_sub_cancel]
    simp [genPreWrap, AllocCall.hooked, AllocCall.name, AllocCall.args, hp, hlook,
      hlive.record.1, hlive.record.2]
  have hpost : ((AllocCall.realloc p size).hooked C stack a u 0 u').postOps build T.pmap =
      [] := by
    unfold HookedCall.postOps
    split
    · rfl
    · simp [genPostWrap, AllocCall.hooked, AllocCall.name]
  have hmap : runOps T.pmap [.cmpAttach Modules.ukalloc.id base 4096,
      .heapAttach Modules.ukalloc.id base (num * 4096)] s =
      (((AllocCall.realloc p size).hooked C stack a u 0 u').returned build T.pmap s,
        .done ()) := by
    have hdone := hret.1
    rw [hpre] at hdone
    unfold HookedCall.returned HookedCall.called
    rw [hpost, hpre]
    exact Prod.ext rfl hdone
  have howner : ∀ b : UInt64, base.toNat ≤ b.toNat →
      b.toNat < base.toNat + num.toNat * 4096 →
      heapToLibId (((AllocCall.realloc p size).hooked C stack a u 0 u').returned build
        T.pmap s) (pageStart b) = Modules.ukalloc.id := by
    intro b hlo hhi
    obtain ⟨hpage, hheap, hbelow, habove⟩ := hlive.inside.page hlo hhi
    rw [preWrap_owner (Modules.id_char .ukalloc) hlive.inside hmap hpage hheap]
    exact if_pos ⟨hbelow, habove⟩
  refine ⟨ukReallocIfpages_null hp hsize hrun, howner, fun hsame => ?_⟩
  -- already the first page of the block has changed hands
  have hpos : num.toNat ≠ 0 := fun h => hlive.nonempty.2 (UInt64.toNat_inj.mp h)
  have hnew := howner base (le_refl _) (by omega)
  rw [(hsame base (le_refl _) (by omega)).1, hlive.owned base (le_refl _) (by omega)] at hnew
  have heq : C = .ukalloc := Modules.id_inj.mp hnew
  rw [heq, friends_iff.mpr (Or.inl rfl)] at hfriends
  cases hfriends

end Realloc

/-- A page allocator that has run out. -/
def noPages : PageAlloc where
  palloc := fun u _ => (0, u)
  pfree := fun u _ _ => u

/-- The application has a hundred bytes and asks for five thousand when there
are no pages left: it loses the page it has. -/
theorem realloc_out_of_memory :
    ∃ T : Cubicles .plain, T.pmap = samplePmap .plain sampleLayout ∧
      let u := (ukMallocIfpages samplePages 100 fun _ => 0).2
      let s := ((AllocCall.malloc 100).hooked .app 0x10000000 0x700000 (fun _ => 0) 0x805010
        u).returned .plain T.pmap sampleHeap
      let c := (AllocCall.realloc 0x805010 5000).hooked .app 0x10000000 0x700000 u 0 u
      LiveBlock s u .app 0x805010 0x805000 1 ∧
        (AllocCall.realloc 0x805010 5000).run noPages u = .done (0, u) ∧
        ¬ SamePages s (c.returned .plain T.pmap s) 0x805000 1 := by
  obtain ⟨T, hT, happ, hukalloc⟩ := sample_plain
  refine ⟨T, hT, ?_⟩
  intro u s c
  have hpages : sizeToNumPages (16 + 100) = 1 := by decide +kernel
  have hin : sampleHeap.Encloses (samplePages.palloc (fun _ => 0)
      (sizeToNumPages (16 + 100))).1 (sizeToNumPages (16 + 100)).toNat := by
    rw [hpages]
    exact ⟨by decide, by decide, by decide, by decide⟩
  have hlive : LiveBlock s u .app 0x805010 0x805000 1 := by
    have h := malloc_live T happ (by decide) samplePages (by decide) rfl (by decide) hin
      0x10000000 0x700000 (by rw [hT]; constructor <;> decide +kernel)
    rw [hpages] at h
    exact h
  have hrun : (AllocCall.realloc 0x805010 5000).run noPages u = .done (0, u) := rfl
  refine ⟨hlive, hrun, ?_⟩
  refine (failed_realloc_takes_block T hukalloc (by decide) noPages hlive (by decide) hrun
    0x10000000 0x700000 ?_).2.2
  show c.Returns .plain T.pmap s
  simp only [s]
  rw [hT]
  constructor
  · decide +kernel
  · decide +kernel

/-- The application's block on page 0 of the sample heap, with one page in its
record: recorded as the application's before the failed call, as ukalloc's and
with ukalloc's key after it. -/
theorem realloc_loses_page :
    let pm := samplePmap .plain sampleLayout
    let u : UserMem := fun a => if a = 0x800000 then 1 else if a = 0x800008 then 0x800000 else 0
    let c := (AllocCall.realloc 0x800010 5000).hooked .app 0x10000000 0x700000 u 0 u
    friends .plain .app .ukalloc = false ∧
      (AllocCall.realloc 0x800010 5000).run noPages u = .done (0, u) ∧
      c.Returns .plain pm sampleHeap ∧
      heapToLibId sampleHeap 0x800000 = Modules.app.id ∧
      heapToLibId (c.returned .plain pm sampleHeap) 0x800000 = Modules.ukalloc.id ∧
      sampleHeap.pages.key 0x800 = 0 ∧
      (c.returned .plain pm sampleHeap).pages.key 0x800 = keyOf pm .ukalloc := by
  intro pm u c
  exact ⟨by decide, rfl, ⟨by decide +kernel, by decide +kernel⟩, by decide +kernel,
    by decide +kernel, rfl, by decide +kernel⟩

/-! ## §4  Calls that skip the wraps -/

namespace HookedCall

variable (pm : Pmap) (c : HookedCall)

/-- The pre-wrap that a call with a switch would run. -/
def fullPre : List MonitorOp := genPreWrap c.fn (remap pm c.fn.module) c.args c.memory

/-- The post-wrap that a call with a switch would run. -/
def fullPost : List MonitorOp := genPostWrap c.fn (remap pm c.caller) c.args c.ret c.memory'

/-- The map after the full path: pre-wrap, switch, post-wrap. -/
def full : Proc HeapMap := (runOps pm (c.fullPre pm)).seq (runOps pm (c.fullPost pm))

end HookedCall

/-- The platform is nobody's friend. -/
theorem linuxuplat_not_friend (build : Build) : Modules.linuxuplat ∉ flist build := by
  rcases build with - | b | -
  · decide
  · cases b <;> decide
  · decide

section Shortcut

variable {build : Build} (T : Cubicles build) {c : HookedCall}

/-- Friends do not call the platform through the shortcut. -/
theorem lib_between_friends (hfriends : friends build c.caller c.fn.module = true)
    (hne : c.caller ≠ c.fn.module) : c.fn.lib ≠ .linuxuplat := by
  intro hlib
  have hmod : c.fn.module = .linuxuplat := by
    rw [Export.module_lib (by rw [hlib]; decide), hlib]
  rcases friends_iff.mp hfriends with h | ⟨-, h⟩
  · exact hne h
  · exact linuxuplat_not_friend build (hmod ▸ h)

/-- Between friends the post-wrap never starts the map over. -/
theorem fullPost_for (hA : Loaded T.pmap c.caller)
    (hfriends : friends build c.caller c.fn.module = true) (hne : c.caller ≠ c.fn.module) :
    ∀ op ∈ c.fullPost T.pmap, op.For c.caller.id := by
  unfold HookedCall.fullPost
  rw [T.remap_loaded hA]
  rcases genPostWrap_for c.fn c.caller.id c.args c.ret c.memory' with h | ⟨hlib, -⟩
  · exact h
  · exact absurd hlib (lib_between_friends hfriends hne)

/-- The full path when it goes through: first the pre-wrap, then the
post-wrap. -/
theorem full_split {pm : Pmap} {s s' : HeapMap} (h : c.full pm s = (s', .done ())) :
    (runOps pm (c.fullPre pm) s).2 = .done () ∧
      runOps pm (c.fullPost pm) (runOps pm (c.fullPre pm) s).1 = (s', .done ()) := by
  unfold HookedCall.full at h
  rcases Proc.seq_cases (runOps pm (c.fullPre pm)) (runOps pm (c.fullPost pm)) s with
    ⟨hdone, heq⟩ | ⟨hstop, heq⟩
  · exact ⟨hdone, heq ▸ h⟩
  · rw [heq] at h
    exact absurd (by rw [h]) hstop

section Full

variable {s s' : HeapMap} (hA : Loaded T.pmap c.caller) (hB : Loaded T.pmap c.fn.module)
  (hfriends : friends build c.caller c.fn.module = true) (hne : c.caller ≠ c.fn.module)
  (hfull : c.full T.pmap s = (s', .done ()))

include hA hB hfriends hne hfull

/-- What it records. -/
theorem full_owner (a : UInt64) :
    ((∃ op ∈ c.fullPost T.pmap, op.Writes s a) → heapToLibId s' a = c.caller.id) ∧
      ((¬ ∃ op ∈ c.fullPost T.pmap, op.Writes s a) →
        ((∃ op ∈ c.fullPre T.pmap, op.Writes s a) → heapToLibId s' a = c.fn.module.id) ∧
        ((¬ ∃ op ∈ c.fullPre T.pmap, op.Writes s a) →
          heapToLibId s' a = heapToLibId s a)) := by
  obtain ⟨hdone, hrest⟩ := full_split hfull
  have hpre : ∀ op ∈ c.fullPre T.pmap, op.For c.fn.module.id := by
    unfold HookedCall.fullPre
    rw [T.remap_loaded hB]
    exact genPreWrap_for _ _ _ _
  have hpost := fullPost_for T hA hfriends hne
  have hshape : SameShape s (runOps T.pmap (c.fullPre T.pmap) s).1 :=
    runOps_shape T.pmap (fun op hop => ⟨_, hpre op hop⟩) s
  have hfirst := runOps_owner T.pmap (Modules.id_char c.fn.module) hpre s a
  rw [writesEntry_iff hpre hdone] at hfirst
  have hlast := runOps_owner T.pmap (Modules.id_char c.caller) hpost
    (runOps T.pmap (c.fullPre T.pmap) s).1 a
  rw [writesEntry_iff hpost (by rw [hrest]), hrest] at hlast
  -- what the post-wrap writes does not depend on the pre-wrap
  have hsame : (∃ op ∈ c.fullPost T.pmap,
      op.Writes (runOps T.pmap (c.fullPre T.pmap) s).1 a) ↔
      ∃ op ∈ c.fullPost T.pmap, op.Writes s a :=
    exists_congr fun op => and_congr_right fun hop =>
      MonitorOp.writes_congr hshape (hpost op hop) a
  rw [hsame] at hlast
  refine ⟨hlast.1, fun hno => ⟨fun hw => ?_, fun hw => ?_⟩⟩
  · exact (hlast.2 hno).trans (hfirst.1 hw)
  · exact (hlast.2 hno).trans (hfirst.2 hw)

/-- Which keys it sets: the one that both have. -/
theorem full_key (p : ℕ) :
    (((∃ op ∈ c.fullPre T.pmap, op.Keys s p) ∨ ∃ op ∈ c.fullPost T.pmap, op.Keys s p) →
        s'.pages.key p = keyOf T.pmap c.caller) ∧
      (¬ ((∃ op ∈ c.fullPre T.pmap, op.Keys s p) ∨ ∃ op ∈ c.fullPost T.pmap, op.Keys s p) →
        s'.pages.key p = s.pages.key p) := by
  obtain ⟨hdone, hrest⟩ := full_split hfull
  obtain ⟨eA, hatA, -, hkeyA⟩ := T.at_remap hA
  obtain ⟨eB, hatB, -, hkeyB⟩ := T.at_remap hB
  have hcommon : eB.pkey = keyOf T.pmap c.caller := by
    rw [hkeyB]
    exact ((T.key_eq_iff _ _ hA hB).mpr hfriends).symm
  have hpre : ∀ op ∈ c.fullPre T.pmap, op.For (remap T.pmap c.fn.module) :=
    genPreWrap_for _ _ _ _
  have hpost : ∀ op ∈ c.fullPost T.pmap, op.For (remap T.pmap c.caller) := by
    rw [T.remap_loaded hA]
    exact fullPost_for T hA hfriends hne
  have hshape : SameShape s (runOps T.pmap (c.fullPre T.pmap) s).1 :=
    runOps_shape T.pmap (fun op hop => ⟨_, hpre op hop⟩) s
  have hfirst := runOps_key hatB hpre s p
  rw [keysPage_iff hpre hdone, hcommon] at hfirst
  have hlast := runOps_key hatA hpost (runOps T.pmap (c.fullPre T.pmap) s).1 p
  rw [keysPage_iff hpost (by rw [hrest]), hrest, hkeyA] at hlast
  have hsame : (∃ op ∈ c.fullPost T.pmap,
      op.Keys (runOps T.pmap (c.fullPre T.pmap) s).1 p) ↔
      ∃ op ∈ c.fullPost T.pmap, op.Keys s p :=
    exists_congr fun op => and_congr_right fun _ => MonitorOp.keys_congr hshape p op
  rw [hsame] at hlast
  constructor
  · intro h
    by_cases hpostKeys : ∃ op ∈ c.fullPost T.pmap, op.Keys s p
    · exact hlast.1 hpostKeys
    · exact (hlast.2 hpostKeys).trans (hfirst.1 (h.resolve_right hpostKeys))
  · intro h
    obtain ⟨hno, hno'⟩ := not_or.mp h
    exact (hlast.2 hno').trans (hfirst.2 hno)

end Full

/-- The shortcut leaves the map as it is. -/
theorem shortcut_returned (hfriends : friends build c.caller c.fn.module = true) (pm : Pmap)
    (s : HeapMap) : c.returned build pm s = s := by
  unfold HookedCall.returned HookedCall.called HookedCall.preOps HookedCall.postOps
  rw [if_pos hfriends, if_pos hfriends]
  rfl

/-- In terms of the operations: the pages that the post-wrap would attach are
the caller's already, those that only the pre-wrap would attach are the
callee's, and all that would get the common key have it. -/
theorem shortcut_agrees_iff_ops (hA : Loaded T.pmap c.caller) (hB : Loaded T.pmap c.fn.module)
    (hfriends : friends build c.caller c.fn.module = true) (hne : c.caller ≠ c.fn.module)
    {s s' : HeapMap} (hfull : c.full T.pmap s = (s', .done ())) :
    ((∀ a, heapToLibId (c.returned build T.pmap s) a = heapToLibId s' a) ∧
        ∀ p, (c.returned build T.pmap s).pages.key p = s'.pages.key p) ↔
      (∀ a, (∃ op ∈ c.fullPost T.pmap, op.Writes s a) → heapToLibId s a = c.caller.id) ∧
      (∀ a, (∃ op ∈ c.fullPre T.pmap, op.Writes s a) →
        (¬ ∃ op ∈ c.fullPost T.pmap, op.Writes s a) →
          heapToLibId s a = c.fn.module.id) ∧
      ∀ p, ((∃ op ∈ c.fullPre T.pmap, op.Keys s p) ∨ ∃ op ∈ c.fullPost T.pmap, op.Keys s p) →
        s.pages.key p = keyOf T.pmap c.caller := by
  have howner := full_owner T hA hB hfriends hne hfull
  have hkey := full_key T hA hB hfriends hne hfull
  rw [shortcut_returned hfriends]
  constructor
  · rintro ⟨hsame, hkeys⟩
    refine ⟨fun a hw => ?_, fun a hw hno => ?_, fun p hk => ?_⟩
    · exact (hsame a).trans ((howner a).1 hw)
    · exact (hsame a).trans (((howner a).2 hno).1 hw)
    · exact (hkeys p).trans ((hkey p).1 hk)
  · rintro ⟨hpost, hpre, hkeys⟩
    constructor
    · intro a
      by_cases hw : ∃ op ∈ c.fullPost T.pmap, op.Writes s a
      · exact (hpost a hw).trans ((howner a).1 hw).symm
      · by_cases hw' : ∃ op ∈ c.fullPre T.pmap, op.Writes s a
        · exact (hpre a hw' hw).trans (((howner a).2 hw).1 hw').symm
        · exact (((howner a).2 hw).2 hw').symm
    · intro p
      by_cases hk : (∃ op ∈ c.fullPre T.pmap, op.Keys s p) ∨
          ∃ op ∈ c.fullPost T.pmap, op.Keys s p
      · exact (hkeys p hk).trans ((hkey p).1 hk).symm
      · exact ((hkey p).2 hk).symm

/-- The full path reaches both wraps, and what they attach is there. -/
theorem full_reaches {pm : Pmap} {s s' : HeapMap} (h : c.full pm s = (s', .done ())) :
    (runOps pm (c.fullPre pm) s).2 = .done () ∧
      ∃ s₁, SameShape s s₁ ∧ (runOps pm (c.fullPost pm) s₁).2 = .done () := by
  obtain ⟨hdone, hrest⟩ := full_split h
  have hshape : SameShape s (runOps pm (c.fullPre pm) s).1 :=
    runOps_shape pm (fun op hop => ⟨_, genPreWrap_for _ _ _ _ op hop⟩) s
  exact ⟨hdone, _, hshape, by rw [hrest]⟩

end Shortcut

/-! ### What the wraps would have to find -/

/-- The pages of a block are recorded for `mid`. -/
def HeapMap.Held (s : HeapMap) (mid : ℤ) (base num : UInt64) : Prop :=
  ∀ a, s.InRun base num a → heapToLibId s a = mid

/-- The pages of a block have the key `k`. -/
def HeapMap.Keyed (s : HeapMap) (k : ℤ) (base num : UInt64) : Prop :=
  ∀ q, PageOfRun base num q → s.pages.key q = k

theorem pageOfRun_one {p : UInt64} {q : ℕ} : PageOfRun p 1 q ↔ q = p.toNat / 4096 := by
  unfold PageOfRun
  rw [show (1 : UInt64).toNat % 2 ^ 52 = 1 from rfl]
  omega

section Attached

variable {s : HeapMap} {mid : ℤ} {tmp base num : UInt64}

theorem attachBlock_attaches {a : UInt64} :
    (∃ op ∈ attachBlock mid tmp base num, op.Writes s a) ↔ s.InRun base num a := by
  unfold attachBlock
  simp [MonitorOp.Writes, attaches_pages]

theorem attachWithRecord_attaches {a : UInt64} :
    (∃ op ∈ attachWithRecord mid tmp base num, op.Writes s a) ↔
      s.InRun tmp 1 a ∨ s.InRun base num a := by
  unfold attachWithRecord
  simp [MonitorOp.Writes, attaches_pages, attaches_page]

theorem attachBlock_keys (hpage : s.PageAt tmp) (hrun : s.RunAt base num) {q : ℕ} :
    (∃ op ∈ attachBlock mid tmp base num, op.Keys s q) ↔
      PageOfRun tmp 1 q ∨ PageOfRun base num q := by
  have hfirst : (MonitorOp.cmpAttach mid tmp 4096).Keys s q ↔ PageOfRun tmp 1 q := by
    rw [pageOfRun_one]
    exact rekeys_page.trans (and_iff_right hpage)
  have hlast := (@keys_pages s mid base num q).trans (and_iff_right hrun)
  unfold attachBlock
  simp only [List.mem_cons, List.not_mem_nil, or_false, exists_eq_or_imp, exists_eq_left,
    hfirst, hlast]

theorem attachWithRecord_keys (hpage : s.RunAt tmp 1) (hrun : s.RunAt base num) {q : ℕ} :
    (∃ op ∈ attachWithRecord mid tmp base num, op.Keys s q) ↔
      PageOfRun tmp 1 q ∨ PageOfRun base num q := by
  have hfirst := (@keys_page s mid tmp q).trans (and_iff_right hpage)
  have hlast := (@keys_pages s mid base num q).trans (and_iff_right hrun)
  unfold attachWithRecord
  simp only [List.mem_cons, List.not_mem_nil, or_false, exists_eq_or_imp, exists_eq_left,
    hfirst, hlast]

end Attached

/-- What the wrap of the function would write stands there already. A freed block
belongs to ukalloc, a block that is handed out to the caller, and the page of
its record and its own pages have the key of the two. In `uk_realloc_ifpages`
what is part of the new block, or of the page in front of it, counts as new. -/
def HookedCall.Settled (pm : Pmap) (c : HookedCall) (s : HeapMap) : WrappedFn → Prop
  | .free =>
      let tmp := freeRecord (c.args 1)
      let base := metaBase c.memory tmp
      let num := numPages c.memory tmp
      c.args 1 ≠ 0 →
        s.Held Modules.ukalloc.id base num ∧
        s.Keyed (keyOf pm c.caller) tmp 1 ∧ s.Keyed (keyOf pm c.caller) base num
  | .realloc =>
      let old := c.args 1 - 16
      let base := metaBase c.memory old
      let num := numPages c.memory old
      let new := c.ret - 16
      let base' := metaBase c.memory' new
      let num' := numPages c.memory' new
      (c.args 1 ≠ 0 →
        (∀ a, s.InRun base num a →
          ¬ (c.ret ≠ 0 ∧ (s.InRun new 1 a ∨ s.InRun base' num' a)) →
            heapToLibId s a = Modules.ukalloc.id) ∧
        s.Keyed (keyOf pm c.caller) old 1 ∧ s.Keyed (keyOf pm c.caller) base num) ∧
      (c.ret ≠ 0 →
        s.Held c.caller.id new 1 ∧ s.Held c.caller.id base' num' ∧
        s.Keyed (keyOf pm c.caller) new 1 ∧ s.Keyed (keyOf pm c.caller) base' num')
  | .posixMemalign =>
      let p := c.memory' (c.args 1)
      let tmp := memalignRecord p
      let base := metaBase c.memory' tmp
      let num := memalignPages c.memory' p
      c.ret.toUInt32 = 0 →
        s.Held c.caller.id base num ∧
        s.Keyed (keyOf pm c.caller) tmp 1 ∧ s.Keyed (keyOf pm c.caller) base num
  | .malloc =>
      let tmp := c.ret - 16
      let base := metaBase c.memory' tmp
      let num := numPages c.memory' tmp
      c.ret ≠ 0 →
        s.Held c.caller.id base num ∧
        s.Keyed (keyOf pm c.caller) tmp 1 ∧ s.Keyed (keyOf pm c.caller) base num
  | .memregionGet => False -- the platform is nobody's friend

section Shortcut

variable {build : Build} (T : Cubicles build) {c : HookedCall}

/-- Friends wrap the functions of ukalloc only. -/
theorem wrapped_between_friends (hfriends : friends build c.caller c.fn.module = true)
    (hne : c.caller ≠ c.fn.module) {fn : WrappedFn} (hfn : c.fn.wrapped = some fn) :
    fn ≠ .memregionGet ∧ c.fn.module = .ukalloc := by
  have hlib := Export.wrapped_lib hfn
  by_cases hget : fn = .memregionGet
  · rw [if_pos hget] at hlib
    exact absurd hlib (lib_between_friends hfriends hne)
  · rw [if_neg hget] at hlib
    exact ⟨hget, Export.module_ukalloc hlib⟩

/-- **The shortcut, exactly.** A call between friends leaves the owners and keys
that the full path would leave if, and only if, its function has no wrap, or
the arguments and the record of the block are such that the wrap would change
nothing. -/
theorem shortcut_agrees_iff (hA : Loaded T.pmap c.caller) (hB : Loaded T.pmap c.fn.module)
    (hfriends : friends build c.caller c.fn.module = true) (hne : c.caller ≠ c.fn.module)
    {s s' : HeapMap} (hfull : c.full T.pmap s = (s', .done ())) :
    ((∀ a, heapToLibId (c.returned build T.pmap s) a = heapToLibId s' a) ∧
        ∀ p, (c.returned build T.pmap s).pages.key p = s'.pages.key p) ↔
      ∀ fn, c.fn.wrapped = some fn → c.Settled T.pmap s fn := by
  rw [shortcut_agrees_iff_ops T hA hB hfriends hne hfull]
  obtain ⟨hpre, s₁, hshape, hpost⟩ := full_reaches hfull
  obtain ⟨eA, hatA, -⟩ := T.at_remap hA
  obtain ⟨eB, hatB, -⟩ := T.at_remap hB
  unfold HookedCall.fullPre at hpre ⊢
  unfold HookedCall.fullPost at hpost ⊢
  rw [genPreWrap_wrapped] at hpre ⊢
  rw [genPostWrap_wrapped] at hpost ⊢
  cases hfn : c.fn.wrapped with
  | none => simp
  | some fn =>
      obtain ⟨hget, hmod⟩ := wrapped_between_friends hfriends hne hfn
      simp only [hfn, Option.some.injEq, forall_eq'] at hpre hpost ⊢
      rw [hmod] at hpre hatB ⊢
      cases fn with
      | free =>
          by_cases harg : c.args 1 = 0
          · simp [harg, HookedCall.Settled]
          · dsimp only at hpre ⊢
            rw [if_pos harg] at hpre ⊢
            obtain ⟨hpage, hrun⟩ := (attachBlock_done hatB).mp hpre
            simp only [attachBlock_attaches, attachBlock_keys hpage hrun]
            simp [harg, HookedCall.Settled, HeapMap.Held, HeapMap.Keyed, or_imp, forall_and]
      | realloc =>
          dsimp only at hpre hpost ⊢
          by_cases harg : c.args 1 = 0
          · by_cases hret : c.ret = 0
            · simp [harg, hret, HookedCall.Settled]
            · rw [if_neg (not_not.mpr harg), if_pos hret]
              rw [if_pos hret] at hpost
              obtain ⟨hpage', hrun'⟩ := (attachWithRecord_done hatA).mp hpost
              rw [hshape.runAt] at hpage' hrun'
              simp only [attachWithRecord_attaches, attachWithRecord_keys hpage' hrun']
              simp [harg, hret, HookedCall.Settled, HeapMap.Held, HeapMap.Keyed, or_imp,
                forall_and, and_assoc]
          · rw [if_pos harg] at hpre ⊢
            obtain ⟨hpage, hrun⟩ := (attachBlock_done hatB).mp hpre
            by_cases hret : c.ret = 0
            · rw [if_neg (not_not.mpr hret)]
              simp only [attachBlock_attaches, attachBlock_keys hpage hrun]
              simp [harg, hret, HookedCall.Settled, HeapMap.Keyed, or_imp, forall_and]
            · rw [if_pos hret] at hpost ⊢
              obtain ⟨hpage', hrun'⟩ := (attachWithRecord_done hatA).mp hpost
              rw [hshape.runAt] at hpage' hrun'
              simp only [attachBlock_attaches, attachBlock_keys hpage hrun,
                attachWithRecord_attaches, attachWithRecord_keys hpage' hrun']
              simp only [HookedCall.Settled, HeapMap.Held, HeapMap.Keyed, or_imp, forall_and,
                harg, hret, ne_eq, not_false_eq_true, true_and, forall_const]
              tauto
      | posixMemalign =>
          by_cases hret : c.ret.toUInt32 = 0
          · dsimp only at hpost ⊢
            rw [if_pos hret] at hpost ⊢
            obtain ⟨hpage, hrun⟩ := (attachBlock_done hatA).mp hpost
            rw [hshape.pageAt] at hpage
            rw [hshape.runAt] at hrun
            simp only [attachBlock_attaches, attachBlock_keys hpage hrun]
            simp [hret, HookedCall.Settled, HeapMap.Held, HeapMap.Keyed, or_imp, forall_and]
          · simp [hret, HookedCall.Settled]
      | malloc =>
          by_cases hret : c.ret = 0
          · simp [hret, HookedCall.Settled]
          · dsimp only at hpost ⊢
            rw [if_pos hret] at hpost ⊢
            obtain ⟨hpage, hrun⟩ := (attachBlock_done hatA).mp hpost
            rw [hshape.pageAt] at hpage
            rw [hshape.runAt] at hrun
            simp only [attachBlock_attaches, attachBlock_keys hpage hrun]
            simp [hret, HookedCall.Settled, HeapMap.Held, HeapMap.Keyed, or_imp, forall_and]
      | memregionGet => exact absurd rfl hget

end Shortcut

/-- vfscore, a friend of ukalloc here, asks for a block and gets one of page 5
of the sample heap, or nothing. -/
def sampleFriendCall (ret : UInt64) : HookedCall where
  caller := .vfscore
  fn := { lib := .ukalloc, name := "uk_malloc_ifpages", stack := 0x10000000 }
  args := fun i => if i = 1 then 100 else 0
  memory := fun _ => 0
  ret := ret
  memory' := fun a => if a = 0x805000 then 1 else if a = 0x805008 then 0x805000 else 0

/-- vfscore gives that block back. -/
def sampleFriendFree : HookedCall where
  caller := .vfscore
  fn := { lib := .ukalloc, name := "uk_free_ifpages", stack := 0x10000000 }
  args := fun i => if i = 1 then 0x805010 else 0
  memory := (sampleFriendCall 0x805010).memory'
  ret := 0
  memory' := fun _ => 0

/-- The sample heap with all pages open to the friends. -/
def sampleFriendHeap : HeapMap :=
  { sampleHeap with
    pages := { sampleHeap.pages with
      key := fun _ => keyOf (samplePmap (.sqlite false) sampleLayout) .vfscore } }

/-- A block that stayed with ukalloc is given back: the full path runs its
pre-wrap, and finds everything as it would leave it. -/
theorem friend_free_agrees :
    ∃ T : Cubicles (.sqlite false), T.pmap = samplePmap (.sqlite false) sampleLayout ∧
      ∃ s', sampleFriendFree.full T.pmap sampleFriendHeap = (s', .done ()) ∧
        (sampleFriendFree.fullPre T.pmap).length = 2 ∧
        (∀ a, heapToLibId (sampleFriendFree.returned (.sqlite false) T.pmap
          sampleFriendHeap) a = heapToLibId s' a) ∧
        ∀ p, (sampleFriendFree.returned (.sqlite false) T.pmap
          sampleFriendHeap).pages.key p = s'.pages.key p := by
  obtain ⟨T, hT⟩ := sample_cubicles (.sqlite false) sampleLayout (sample_starts _ (by simp))
  have hdone : (sampleFriendFree.full T.pmap sampleFriendHeap).2 = .done () := by
    rw [hT]
    decide +kernel
  refine ⟨T, hT, _, Prod.ext rfl hdone, rfl, ?_⟩
  refine (shortcut_agrees_iff T ?_ ?_ (by decide) (by decide) (Prod.ext rfl hdone)).mpr ?_
  · rw [hT]
    exact sample_loaded _ (by simp) .vfscore (by simp)
  · rw [hT]
    exact sample_loaded _ (by simp) .ukalloc (by simp)
  · intro fn hfn
    obtain rfl : WrappedFn.free = fn := by
      have hfree : sampleFriendFree.fn.wrapped = some .free := by
        simp [Export.wrapped, sampleFriendFree]
      exact Option.some.inj (hfree.symm.trans hfn)
    rw [hT]
    refine fun _ => ⟨?_, fun _ _ => rfl, fun _ _ => rfl⟩
    -- one page, page 5
    rintro a ⟨-, hin, hlo, hhi⟩
    have hidx : pageIndex sampleFriendHeap.heapStart a = 5 := Nat.le_antisymm
      (Nat.le_of_lt_succ hhi) hlo
    unfold heapToLibId
    rw [if_pos hin, hidx]
    decide

/-- vfscore gets page 5. The full path would record vfscore as its owner, the
shortcut leaves it with ukalloc. -/
theorem friend_block_stays_with_ukalloc :
    let pm := samplePmap (.sqlite false) sampleLayout
    let c := sampleFriendCall 0x805010
    Loaded pm .vfscore ∧ Loaded pm .ukalloc ∧
      friends (.sqlite false) .vfscore .ukalloc = true ∧
      (c.full pm sampleHeap).2 = .done () ∧
      heapToLibId (c.full pm sampleHeap).1 0x805000 = Modules.vfscore.id ∧
      heapToLibId (c.returned (.sqlite false) pm sampleHeap) 0x805000 =
        Modules.ukalloc.id := by
  intro pm c
  exact ⟨sample_loaded _ (by simp) _ (by simp), sample_loaded _ (by simp) _ (by simp), by decide,
    by decide +kernel, by decide +kernel, by decide +kernel⟩

/-! ## §5  Aligned blocks -/

/-- What `uk_palloc` promises: a result is the first of `num` pages that are
there. For no pages at all `num_pages_to_order` does not return. -/
def PageAlloc.Serves (A : PageAlloc) : Prop :=
  ∀ (u : UserMem) (num : UInt64), (A.palloc u num).1 ≠ 0 →
    num ≠ 0 ∧ 4096 ∣ (A.palloc u num).1.toNat ∧
      (A.palloc u num).1.toNat + num.toNat * 4096 ≤ 2 ^ 64

theorem alignDown_page (v : UInt64) : alignDown v 4096 = pageStart v := by
  have h4096 : (4096 : UInt64).toNat = 2 ^ 12 := rfl
  rw [← UInt64.toNat_inj, alignDown_toNat h4096, pageStart_toNat]
  rfl

/-- A size whose pages can be counted at all is not in the last page of the
address space. -/
theorem sizeToNumPages_ne_zero {size : UInt64} (h : sizeToNumPages size ≠ 0) :
    size.toNat + 4095 < 2 ^ 64 := by
  by_contra hwrap
  apply h
  have hlt := size.toNat_lt
  have hsum : (size + 4096 - 1).toNat = size.toNat + 4095 - 2 ^ 64 := by
    rw [UInt64.toNat_sub, UInt64.toNat_add, show (4096 : UInt64).toNat = 4096 from rfl,
      show (1 : UInt64).toNat = 1 from rfl]
    omega
  rw [← UInt64.toNat_inj]
  unfold sizeToNumPages alignUp
  rw [UInt64.toNat_div, alignDown_page, pageStart_toNat, hsum]
  unfold pageBase
  rw [show (4096 : UInt64).toNat = 4096 from rfl, show (0 : UInt64).toNat = 0 from rfl]
  omega

/-- The post-wrap of `uk_posix_memalign_ifpages` looks where `uk_get_metadata`
does, and gives away one page less if it was on the page before the block. -/
theorem postWrap_memalign {stack : UInt64} {caller : ℤ} {args : ℕ → UInt64} {v : UserMem}
    {ptr metadata : UInt64} (hptr : v (args 1) = ptr)
    (hmeta : ukGetMetadata ptr = .done metadata) :
    genPostWrap { lib := .ukalloc, name := "uk_posix_memalign_ifpages", stack } caller args 0 v =
      [.cmpAttach caller metadata 4096, .heapAttach caller (metaBase v metadata)
        ((numPages v metadata - if pageStart ptr = ptr then 1 else 0) * 4096)] := by
  unfold ukGetMetadata at hmeta
  rw [alignDown_page] at hmeta
  split at hmeta
  · obtain rfl := Outcome.done.inj hmeta
    simp [genPostWrap, hptr]
  · cases hmeta

/-- Where an aligned block and its record lie in the pages from `r` on. The
record is at the start of the first page, or on the page before the block; then
that page is to spare at the end. -/
theorem aligned_record {align size r num : UInt64} (halign : GoodAlign align) (hr : r ≠ 0)
    (hpage : 4096 ∣ r.toNat) (hfit : r.toNat + num.toNat * 4096 ≤ 2 ^ 64)
    (hpages : size.toNat + (memalignPadding align).toNat + (memalignAlign align).toNat ≤
      num.toNat * 4096) :
    ∃ metadata, ukGetMetadata (alignUp (r + 16) (memalignAlign align)) = .done metadata ∧
      4096 ∣ metadata.toNat ∧ r.toNat ≤ metadata.toNat ∧
      metadata.toNat + 16 ≤ (alignUp (r + 16) (memalignAlign align)).toNat ∧
      (alignUp (r + 16) (memalignAlign align)).toNat + size.toNat +
        (if pageStart (alignUp (r + 16) (memalignAlign align)) =
          alignUp (r + 16) (memalignAlign align) then 4096 else 0) ≤
            r.toNat + num.toNat * 4096 := by
  obtain ⟨k, hlo, hk⟩ := memalignAlign_two_pow halign
  have hpos : r.toNat ≠ 0 := fun h => hr (UInt64.toNat_inj.mp h)
  generalize hp : alignUp (r + 16) (memalignAlign align) = p
  rcases Nat.lt_or_ge k 12 with hlt | hge
  · -- `align` divides the page, and the block starts inside the first one
    have hstart := alignUp_small hk hlo (by omega) hpage
    rw [hp] at hstart
    have h16 : 2 ^ 4 ≤ 2 ^ k := Nat.pow_le_pow_right (by omega) hlo
    have h2048 : 2 ^ k ≤ 2 ^ 11 := Nat.pow_le_pow_right (by omega) (by omega)
    have hin : pageStart p ≠ p := by
      intro h
      have hbase := congrArg UInt64.toNat h
      rw [pageStart_toNat] at hbase
      unfold pageBase at hbase
      omega
    refine ⟨r, ukGetMetadata_inside hpage hr (by omega) (by omega), hpage, le_refl _, ?_, ?_⟩
    · omega
    · rw [if_neg hin]
      omega
  · -- a page was added for the record
    have hpad := memalignPadding_large hk hge
    obtain ⟨hdvd, hlow, hup⟩ := alignUp_large hk hge hpage (by omega)
    rw [hp] at hdvd hlow hup
    have hsub : (p - 4096).toNat = p.toNat - 4096 := by
      apply UInt64.toNat_sub_of_le
      rw [UInt64.le_iff_toNat_le]
      show 4096 ≤ p.toNat
      omega
    have hstart : pageStart p = p := by
      rw [← UInt64.toNat_inj, pageStart_toNat]
      unfold pageBase
      omega
    refine ⟨p - 4096, ukGetMetadata_page hdvd (by omega), ?_, ?_, ?_, ?_⟩
    · omega
    · omega
    · omega
    · rw [if_pos hstart]
      omega

/-- What `uk_posix_memalign_ifpages` does with the pages it got. -/
theorem ukPosixMemalignIfpages_got {A : PageAlloc} {align size : UInt64} (halign : GoodAlign align)
    (hsize : size ≠ 0) {u : UserMem} {num base metadata : UInt64}
    (hnum : num = sizeToNumPages (size + memalignPadding align + memalignAlign align))
    (hbase : base = (A.palloc u num).1) (hgot : base ≠ 0)
    (hmeta : ukGetMetadata (alignUp (base + 16) (memalignAlign align)) = .done metadata)
    (hlow : base.toNat ≤ metadata.toNat) :
    ukPosixMemalignIfpages A align size u =
      .done (0, some (alignUp (base + 16) (memalignAlign align)),
        ((A.palloc u num).2.store metadata num).store (metadata + 8) base) := by
  unfold ukPosixMemalignIfpages
  rw [if_neg (not_not.mpr halign), if_neg hsize]
  dsimp only
  rw [← hnum, ← hbase, if_neg hgot, hmeta]
  exact if_pos (UInt64.le_iff_toNat_le.mpr hlow)

/-- All pages, or all but one. -/
theorem handedPages_toNat {num : UInt64} (hnum : num ≠ 0) (P : Prop) [Decidable P] :
    (num - if P then 1 else 0).toNat = num.toNat - if P then 1 else 0 := by
  have hpos : num.toNat ≠ 0 := fun h => hnum (UInt64.toNat_inj.mp h)
  have hone : (1 : UInt64) ≤ num := by
    rw [UInt64.le_iff_toNat_le, show (1 : UInt64).toNat = 1 from rfl]
    omega
  by_cases hP : P
  · rw [if_pos hP, if_pos hP, UInt64.toNat_sub_of_le _ _ hone]
    rfl
  · rw [if_neg hP, if_neg hP, UInt64.sub_zero, Nat.sub_zero]

theorem handedBytes_toNat {num : UInt64} (hnum : num ≠ 0) (hfit : num.toNat * 4096 < 2 ^ 64)
    (P : Prop) [Decidable P] :
    ((num - if P then 1 else 0) * 4096).toNat = (num - if P then 1 else 0).toNat * 4096 := by
  have hle : (num - if P then 1 else 0).toNat ≤ num.toNat := by
    rw [handedPages_toNat hnum]
    exact Nat.sub_le _ _
  rw [UInt64.toNat_mul, show (4096 : UInt64).toNat = 4096 from rfl]
  exact Nat.mod_eq_of_lt ((Nat.mul_le_mul_right 4096 hle).trans_lt hfit)

/-- **Enough pages are handed over.** For every accepted alignment and every
size the call succeeds on the pages it got. The post-wrap finds the record where
the allocator wrote it; the range that it gives to the caller starts at the
first page, holds the record and the whole block, and ends inside the pages. In
a heap that has these pages, the caller is recorded for this range afterwards
and nothing else changes hands. -/
theorem aligned_block_handed_over {A : PageAlloc} (hA : A.Serves) {align size : UInt64}
    (halign : GoodAlign align) (hsize : size ≠ 0)
    (hwrap : size.toNat + (memalignPadding align).toNat + (memalignAlign align).toNat < 2 ^ 64)
    {u : UserMem} {num base : UInt64}
    (hnum : num = sizeToNumPages (size + memalignPadding align + memalignAlign align))
    (hbase : base = (A.palloc u num).1) (hgot : base ≠ 0) {memptr : UInt64}
    (hmemptr : memptr.toNat + 8 ≤ base.toNat ∨ base.toNat + num.toNat * 4096 ≤ memptr.toNat)
    (stack a : UInt64) (caller : ℤ) :
    ∃ ptr metadata u' len,
      ukPosixMemalignIfpages A align size u = .done (0, some ptr, u') ∧
      ukGetMetadata ptr = .done metadata ∧ HasRecord u' metadata num base ∧
      genPostWrap { lib := .ukalloc, name := "uk_posix_memalign_ifpages", stack } caller
          (fun i => ((AllocCall.posixMemalign memptr align size).args a).getD i 0) 0
          (u'.store memptr ptr) =
        [.cmpAttach caller metadata 4096, .heapAttach caller base len] ∧
      base.toNat ≤ metadata.toNat ∧ metadata.toNat + 16 ≤ base.toNat + len.toNat ∧
      base.toNat ≤ ptr.toNat ∧ ptr.toNat + size.toNat ≤ base.toNat + len.toNat ∧
      len.toNat ≤ num.toNat * 4096 ∧
      (-128 ≤ caller ∧ caller < 128 →
        ∀ (pm : Pmap) (s s' : HeapMap), s.Encloses base num.toNat →
          runOps pm [.cmpAttach caller metadata 4096, .heapAttach caller base len] s =
            (s', .done ()) →
          ∀ b : UInt64, 4096 ∣ b.toNat → s.inHeap b = true →
            heapToLibId s' b =
              if base.toNat ≤ b.toNat ∧ b.toNat < base.toNat + len.toNat then caller
              else heapToLibId s b) := by
  obtain ⟨hnz, hpage, hfit⟩ := hA u num (hbase ▸ hgot)
  rw [← hbase] at hpage hfit
  have hreal : (size + memalignPadding align + memalignAlign align).toNat =
      size.toNat + (memalignPadding align).toNat + (memalignAlign align).toNat := by
    rw [UInt64.toNat_add, UInt64.toNat_add]
    omega
  have hcount := sizeToNumPages_ne_zero (hnum ▸ hnz)
  have hpages := @aligned_pages align size (by omega)
  rw [← hnum] at hpages
  obtain ⟨metadata, hmeta, hmpage, hlow, hbelow, hend⟩ :=
    aligned_record halign hgot hpage hfit hpages
  have hrun := ukPosixMemalignIfpages_got halign hsize hnum hbase hgot hmeta hlow
  generalize alignUp (base + 16) (memalignAlign align) = ptr at hmeta hbelow hend hrun
  have hplus : (metadata + 8).toNat = metadata.toNat + 8 := page_add hmpage (by decide)
  -- the record is on the pages, `*memptr` is not
  have hne : metadata ≠ memptr := by
    rintro rfl
    omega
  have hne' : metadata + 8 ≠ memptr := by
    intro h
    rw [← h] at hmemptr
    omega
  have hrecord : HasRecord ((((A.palloc u num).2.store metadata num).store (metadata + 8)
      base).store memptr ptr) metadata num base := HasRecord.store.store_ne hne hne' ptr
  refine ⟨ptr, metadata, _, (num - if pageStart ptr = ptr then 1 else 0) * 4096, hrun, hmeta,
    .store, ?_, hlow, ?_⟩
  · rw [@postWrap_memalign _ _ _ _ ptr metadata ?_ hmeta, hrecord.1, hrecord.2]
    exact UserMem.store_self _ _ _
  · have hpos : base.toNat ≠ 0 := fun h => hgot (UInt64.toNat_inj.mp h)
    have hcount := handedPages_toNat hnz (pageStart ptr = ptr)
    have hbytes := handedBytes_toNat hnz (by omega) (pageStart ptr = ptr)
    generalize (num - if pageStart ptr = ptr then 1 else 0) = given at hcount hbytes ⊢
    rw [hbytes]
    have hsizes : metadata.toNat + 16 ≤ base.toNat + given.toNat * 4096 ∧
        ptr.toNat + size.toNat ≤ base.toNat + given.toNat * 4096 ∧
        given.toNat ≤ num.toNat := by
      by_cases hstart : pageStart ptr = ptr
      · rw [if_pos hstart] at hend hcount
        omega
      · rw [if_neg hstart] at hend hcount
        omega
    clear hend hcount
    refine ⟨hsizes.1, by omega, hsizes.2.1, by omega,
      fun hcaller pm s s' hin hops b hb hheap => ?_⟩
    -- the pages that are handed over are some of those in the heap
    have hfewer := Nat.add_le_add_left (Nat.mul_le_mul_right 4096 hsizes.2.2) base.toNat
    have hin' : s.Encloses base given.toNat := { hin with high := hfewer.trans hin.high }
    exact preWrap_owner hcaller hin' hops hb hheap

/-- Pages from page 5 of the sample heap on, as many as there are. -/
def servedPages : PageAlloc where
  palloc := fun u num => (if num ≠ 0 ∧ num < 0x100000 then 0x805000 else 0, u)
  pfree := fun u _ _ => u

theorem servedPages_serves : servedPages.Serves := by
  intro u num h
  have hnum : num ≠ 0 ∧ num < 0x100000 := by
    by_contra hnot
    exact h (if_neg hnot)
  have hlt : num.toNat < 0x100000 := hnum.2
  have hres : (servedPages.palloc u num).1 = 0x805000 := if_pos hnum
  rw [hres]
  exact ⟨hnum.1, by decide, by rw [show (0x805000 : UInt64).toNat = 0x805000 from rfl]; omega⟩

/-- The memory after a request for a hundred bytes at a page boundary. -/
def sampleAligned : UserMem :=
  (UserMem.store (fun _ => 0) 0x805000 3).store 0x805008 0x805000

/-- A hundred bytes at a page boundary: of three pages the record is on the first,
the block on the second, and the last one is not handed over. -/
theorem page_aligned_handed_over :
    ukPosixMemalignIfpages servedPages 4096 100 (fun _ => 0) =
        .done (0, some 0x806000, sampleAligned) ∧
      ∃ s', runOps (samplePmap .plain sampleLayout)
          (genPostWrap { lib := .ukalloc, name := "uk_posix_memalign_ifpages", stack := 0 }
            Modules.app.id
            (fun i => ((AllocCall.posixMemalign 0x700000 4096 100).args 0).getD i 0) 0
            (sampleAligned.store 0x700000 0x806000)) sampleHeap = (s', .done ()) ∧
        heapToLibId s' 0x805000 = Modules.app.id ∧ heapToLibId s' 0x806000 = Modules.app.id ∧
        heapToLibId s' 0x807000 = Modules.ukalloc.id := by
  have hconcrete : ukPosixMemalignIfpages servedPages 4096 100 (fun _ => 0) =
      .done (0, some 0x806000, sampleAligned) := rfl
  have hserved : (servedPages.palloc (fun _ => 0) 3).1 = 0x805000 := by decide
  obtain ⟨ptr, metadata, u', len, hrun, hmeta, -, hops, -, -, -, -, -, howner⟩ :=
    @aligned_block_handed_over _ servedPages_serves 4096 100 (by decide) (by decide) (by decide)
      (fun _ => 0) 3 0x805000 (by decide +kernel) hserved.symm (by decide) 0x700000
      (Or.inl (by decide)) 0 0 Modules.app.id
  cases hconcrete.symm.trans hrun
  cases (show ukGetMetadata 0x806000 = .done 0x805000 from by decide).symm.trans hmeta
  have hlen : len = 8192 := by
    have hpost : genPostWrap { lib := .ukalloc, name := "uk_posix_memalign_ifpages", stack := 0 }
        Modules.app.id
        (fun i => ((AllocCall.posixMemalign 0x700000 4096 100).args 0).getD i 0) 0
        (sampleAligned.store 0x700000 0x806000) =
      [.cmpAttach Modules.app.id 0x805000 4096, .heapAttach Modules.app.id 0x805000 8192] := by
      decide +kernel
    have hlast := hpost.symm.trans hops
    simp only [List.cons.injEq, MonitorOp.heapAttach.injEq, true_and, and_true] at hlast
    exact hlast.symm
  subst hlen
  have hdone : (runOps (samplePmap .plain sampleLayout)
      [.cmpAttach Modules.app.id 0x805000 4096, .heapAttach Modules.app.id 0x805000 8192]
      sampleHeap).2 = .done () := by
    decide +kernel
  have howns := howner (Modules.id_char .app) _ sampleHeap _
    ⟨by decide, by decide, by decide, by decide⟩ (Prod.ext rfl hdone)
  refine ⟨hconcrete, _, hops ▸ Prod.ext rfl hdone, ?_, ?_, ?_⟩
  · exact (howns 0x805000 (by decide) (by decide)).trans (if_pos (by decide))
  · exact (howns 0x806000 (by decide) (by decide)).trans (if_pos (by decide))
  · exact (howns 0x807000 (by decide) (by decide)).trans
      ((if_neg (by decide)).trans (by decide +kernel))

end CubicleOS
