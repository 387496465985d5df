import CubicleOS.Monitor.Heap
import CubicleOS.Monitor.MemoryMap
import CubicleOS.Monitor.Windows

/-!
# The fault handler

`get_state` infers from the instruction pointer, the stack pointer and the
fault address who wanted what from whom; `sig_handler` then asks the windows
and gives the page to the caller. Nothing here reads `layer` or `prev_module`.
-/

namespace CubicleOS

open Foundation

/-! ## §1  The handler -/

/-- `enum state`. -/
inductive FaultState where
  | retStackToWrap | accessToGlobal | accessToStack | accessToHeap
deriving DecidableEq, Repr

/-- The caller that `get_state` computes in the three access cases: the module
of `rip`, or the owner of the stack when that is not a cubicle. -/
def accessCaller (pm : Pmap) (M : PageMap) (ripLib : ℤ) (rsp : UInt64) : Outcome ℤ :=
  (pm.at ripLib).bind fun p =>
    .done (if p.must = false then stackToLibId M rsp else ripLib)

/-- `get_state`: the state with `*caller` and `*callee`. -/
def getState (pm : Pmap) (M : PageMap) (H : HeapMap) (rip rsp addr : UInt64) :
    Outcome (FaultState × ℤ × ℤ) :=
  let ripLib := memToLibId M rip
  if ripLib = -1 then
    .done (.retStackToWrap, stackToLibId M rsp, stackToLibId M addr)
  else if memToLibId M addr ≠ -1 then
    (accessCaller pm M ripLib rsp).bind fun caller =>
      .done (.accessToGlobal, caller, memToLibId M addr)
  else if stackToLibId M addr ≠ -1 then
    (accessCaller pm M ripLib rsp).bind fun caller =>
      .done (.accessToStack, caller, stackToLibId M addr)
  else if heapToLibId H addr ≠ -1 then
    (accessCaller pm M ripLib rsp).bind fun caller =>
      .done (.accessToHeap, caller, heapToLibId H addr)
  else .spin

/-- The condition of each `case` of `sig_handler`. -/
def mayMap (pm : Pmap) (caller callee : ℤ) (addr : UInt64) :
    FaultState → Traced ℤ Bool
  | .retStackToWrap => .pure (decide (caller = callee))
  | .accessToGlobal => shouldMap pm caller callee addr
  | .accessToStack => shouldMapStack pm caller callee addr
  | .accessToHeap => shouldMapHeap pm caller callee addr

/-- `cmp_attach(caller, page, 4096)`, with its read of `pmap[caller]`. -/
def attachPage (pm : Pmap) (H : HeapMap) (caller : ℤ) (addr : UInt64) :
    Traced ℤ HeapMap :=
  .touch caller ((cmpAttach pm caller (pageStart addr) 4096).toStep H)

/-- The `switch` of `sig_handler`. -/
def handleFault (pm : Pmap) (H : HeapMap) (st : FaultState) (caller callee : ℤ)
    (addr : UInt64) : Traced ℤ HeapMap :=
  (mayMap pm caller callee addr st).bind fun ok =>
    if ok then attachPage pm H caller addr else .spin

/-- `sig_handler`. The log has the ids with which `pmap` is read once
`get_state` has returned. -/
def sigHandler (pm : Pmap) (M : PageMap) (H : HeapMap) (rip rsp addr : UInt64) :
    Traced ℤ HeapMap :=
  match getState pm M H rip rsp addr with
  | .done (st, caller, callee) => handleFault pm H st caller callee addr
  | .spin => .spin
  | .wild => ⟨[], .wild⟩

theorem sigHandler_eq {pm : Pmap} {M : PageMap} {H : HeapMap} {rip rsp addr : UInt64}
    {st : FaultState} {caller callee : ℤ}
    (h : getState pm M H rip rsp addr = .done (st, caller, callee)) :
    sigHandler pm M H rip rsp addr = handleFault pm H st caller callee addr := by
  rw [sigHandler, h]

/-- A fault that is handled: who wanted what, that it was allowed, that the page
is there, and the one key that changes. -/
theorem sigHandler_grants {pm : Pmap} {M : PageMap} {H H' : HeapMap} {rip rsp addr : UInt64}
    (h : (sigHandler pm M H rip rsp addr).out = .done H') :
    ∃ st caller callee e, getState pm M H rip rsp addr = .done (st, caller, callee) ∧
      (mayMap pm caller callee addr st).out = .done true ∧ pm.at caller = .done e ∧
      H'.pages.mapped (addr.toNat / 4096) = true ∧
      ∀ p, H'.pages.key p = if p = addr.toNat / 4096 then e.pkey else H.pages.key p := by
  unfold sigHandler at h
  split at h
  · rename_i st caller callee hstate
    unfold handleFault at h
    rw [Traced.bind_out] at h
    obtain ⟨ok, hok, h⟩ := Outcome.bind_eq_done.mp h
    cases ok with
    | false => cases h
    | true =>
        have hattach : cmpAttach pm caller (pageStart addr) 4096 H = (H', .done ()) :=
          Proc.toStep_eq_done.mp h
        have hdone : (cmpAttach pm caller (pageStart addr) 4096 H).2 = .done () := by
          rw [hattach]
        obtain ⟨⟨e, hat⟩, -⟩ := cmpAttach_done hdone (by decide)
        have hpage := (cmpAttach_page_done hat).mp hdone
        have hfirst : (pageStart addr).toNat / 4096 = addr.toNat / 4096 := by
          rw [pageStart_toNat, pageBase]
          omega
        have hshape := cmpAttach_shape pm caller (pageStart addr) 4096 H
        rw [hattach] at hshape
        refine ⟨st, caller, callee, e, hstate, hok, hat, ?_, fun p => ?_⟩
        · rw [hshape.mapped, ← hfirst]
          exact hpage.2
        · have hkey := cmpAttach_key hat (pageStart addr) 4096 H p
          rw [hattach, rekeys_page, hfirst, and_iff_right hpage] at hkey
          split
          · exact hkey.1 ‹_›
          · exact hkey.2 ‹_›
  · cases h
  · cases h

/-- A check of the windows reads `pmap`, unless it says yes at once. -/
theorem mayMap_reads {st : FaultState} (hst : st ≠ .retStackToWrap) (pm : Pmap)
    (caller callee : ℤ) (addr : UInt64) :
    mayMap pm caller callee addr st = .pure true ∨
      (mayMap pm caller callee addr st).used ≠ [] := by
  cases st with
  | retStackToWrap => exact absurd rfl hst
  | accessToGlobal =>
      unfold mayMap shouldMap
      dsimp only
      split
      · exact Or.inl rfl
      · exact Or.inr (Traced.bind_used_ne_nil _ (List.cons_ne_nil _ _))
  | accessToStack =>
      unfold mayMap shouldMapStack
      dsimp only
      split
      · exact Or.inl rfl
      · exact Or.inr (Traced.bind_used_ne_nil _ (List.cons_ne_nil _ _))
  | accessToHeap =>
      unfold mayMap shouldMapHeap
      dsimp only
      split
      · exact Or.inl rfl
      · exact Or.inr (Traced.bind_used_ne_nil _ (List.cons_ne_nil _ _))

/-- In the access cases the handler always reads `pmap`; in the wrapper case
only if it goes on. -/
theorem handleFault_used (pm : Pmap) (H : HeapMap) (st : FaultState)
    (caller callee : ℤ) (addr : UInt64) :
    (handleFault pm H st caller callee addr).used ≠ [] ↔
      (st = .retStackToWrap → caller = callee) := by
  by_cases hst : st = .retStackToWrap
  · subst hst
    by_cases heq : caller = callee
    · simp [handleFault, mayMap, heq, Traced.bind, Traced.pure, attachPage]
    · simp [handleFault, mayMap, heq, Traced.bind, Traced.pure]
  · refine iff_of_true ?_ (fun h => absurd h hst)
    unfold handleFault
    rcases mayMap_reads hst pm caller callee addr with hyes | hreads
    · -- no window was read, but `cmp_attach` reads the caller's entry
      rw [hyes]
      simp [Traced.bind, Traced.pure, attachPage]
    · exact Traced.bind_used_ne_nil _ hreads

/-! ## §2  Address spaces -/

/-- Modules, registered stacks and the range of the page map, with what the
loader guarantees about them. -/
structure AddressSpace where
  pm : Pmap
  stackTab : List StackMap
  mmapStart : UInt64
  mmapEnd : UInt64
  aligned : PageAligned pm stackTab mmapStart mmapEnd
  owners : ∀ s ∈ stackTab, s.mid < pm.length

namespace AddressSpace

/-- The map that `gen_memory_map` builds. -/
def map (A : AddressSpace) : PageMap :=
  genMemoryMap A.pm A.stackTab A.mmapStart A.mmapEnd

/-- The map covers the address. -/
def Covers (A : AddressSpace) (a : UInt64) : Prop :=
  A.mmapStart.toNat ≤ a.toNat ∧ a.toNat < A.mmapEnd.toNat

def ImagePage (A : AddressSpace) (a : UInt64) : Prop :=
  A.Covers a ∧ InImage A.pm a

def StackPage (A : AddressSpace) (a : UInt64) : Prop :=
  A.Covers a ∧ ¬ InImage A.pm a ∧ OnStack A.stackTab a

/-- A page of the map that is neither image nor registered stack. -/
def UnownedPage (A : AddressSpace) (a : UInt64) : Prop :=
  A.Covers a ∧ ¬ InImage A.pm a ∧ ¬ OnStack A.stackTab a

/-- The kinds of address, with the answers of the fast lookups. -/
inductive Kind (A : AddressSpace) (a : UInt64) : Prop where
  | image (i : ℕ) (e : ProcMap) : A.ImagePage a → A.pm[i]? = some e →
      memToLibId A.map a = i → stackToLibId A.map a = -1 → Kind A a
  | stack (s : StackMap) : A.StackPage a → s ∈ A.stackTab →
      inBlock s.start s.size a = true → memToLibId A.map a = -1 →
      stackToLibId A.map a = s.mid → Kind A a
  | unowned : A.UnownedPage a → memToLibId A.map a = -1 →
      stackToLibId A.map a = 127 → Kind A a
  | outside : ¬ A.Covers a → memToLibId A.map a = -1 →
      stackToLibId A.map a = -1 → Kind A a

theorem kind (A : AddressSpace) (a : UInt64) : A.Kind a := by
  by_cases hcov : A.Covers a
  · rcases lookup_cases A.aligned hcov with ⟨hin, hmem, hstack⟩ |
      ⟨hin, hon, hmem, hstack⟩ | ⟨hin, hon, hmem, hstack⟩
    · obtain ⟨i, e, hid, hi⟩ := getModuleId_memToLib hin
      exact .image i e ⟨hcov, hin⟩ hi (hmem.trans hid) hstack
    · rcases stackToLibIdOld_cases A.stackTab a with ⟨-, s, hs, hsin, hold⟩ | ⟨hno, -⟩
      · exact .stack s ⟨hcov, hin, hon⟩ hs hsin hmem (hstack.trans hold)
      · exact absurd hon hno
    · exact .unowned ⟨hcov, hin, hon⟩ hmem hstack
  · have hrange : longRange A.map.mmapStart A.map.mmapEnd a = false := by
      rw [Bool.eq_false_iff]
      intro h
      exact hcov ((longRange_iff (A.aligned.ordered.trans_lt A.aligned.user)
        A.aligned.user).mp h)
    refine .outside hcov ?_ ?_
    · unfold memToLibId
      rw [hrange]
      rfl
    · unfold stackToLibId
      rw [hrange]
      rfl

/-- The id of an entry of the table. -/
def ScannedId (A : AddressSpace) (id : ℤ) : Prop := 0 ≤ id ∧ id < A.pm.length

theorem scannedId_entry {A : AddressSpace} {i : ℕ} {e : ProcMap}
    (h : A.pm[i]? = some e) : A.ScannedId i :=
  ⟨Int.natCast_nonneg i, Int.ofNat_lt.mpr (List.getElem?_eq_some_iff.mp h).1⟩

theorem scannedId_owner {A : AddressSpace} {s : StackMap} (h : s ∈ A.stackTab) :
    A.ScannedId s.mid := ⟨(A.aligned.owners s h).1, A.owners s h⟩

theorem not_scannedId_neg (A : AddressSpace) : ¬ A.ScannedId (-1) := fun h => by
  have := h.1
  omega

theorem not_scannedId_127 (A : AddressSpace) : ¬ A.ScannedId 127 := by
  intro h
  have hlt := h.2
  have hlen := A.aligned.modules
  unfold pmapSize at hlen
  omega

/-- An address that the map does not report as a stack. -/
def NoStack (A : AddressSpace) (a : UInt64) : Prop := ¬ A.Covers a ∨ A.ImagePage a

/-- What `stack_to_lib_id` makes of an address. -/
theorem stackId_cases (A : AddressSpace) (a : UInt64) :
    (A.NoStack a ∧ stackToLibId A.map a = -1) ∨
    (A.UnownedPage a ∧ stackToLibId A.map a = 127) ∨
    (A.StackPage a ∧ ∃ s ∈ A.stackTab, inBlock s.start s.size a = true ∧
      stackToLibId A.map a = s.mid) := by
  cases A.kind a with
  | image i e himage _ _ hstack => exact Or.inl ⟨Or.inr himage, hstack⟩
  | stack s hpage hs hin _ hstack => exact Or.inr (Or.inr ⟨hpage, s, hs, hin, hstack⟩)
  | unowned hpage _ hstack => exact Or.inr (Or.inl ⟨hpage, hstack⟩)
  | outside hcov _ hstack => exact Or.inl ⟨Or.inl hcov, hstack⟩

theorem UnownedPage.not_noStack {A : AddressSpace} {a : UInt64} (h : A.UnownedPage a) :
    ¬ A.NoStack a := by
  rintro (hcov | himage)
  · exact hcov h.1
  · exact h.2.1 himage.2

theorem stackId_unowned {A : AddressSpace} {a : UInt64} (h : A.UnownedPage a) :
    stackToLibId A.map a = 127 := by
  rcases A.stackId_cases a with ⟨hno, -⟩ | ⟨-, hid⟩ | ⟨hs, -⟩
  · exact absurd hno h.not_noStack
  · exact hid
  · exact absurd hs.2.2 h.2.2

theorem stackId_noStack {A : AddressSpace} {a : UInt64} (h : A.NoStack a) :
    stackToLibId A.map a = -1 := by
  rcases A.stackId_cases a with ⟨-, hid⟩ | ⟨hu, -⟩ | ⟨hs, -⟩
  · exact hid
  · exact absurd h hu.not_noStack
  · rcases h with hcov | himage
    · exact absurd hs.1 hcov
    · exact absurd himage.2 hs.2.1

/-- The owner of a registered stack is neither of the two ids for nobody. -/
theorem owner_ne {A : AddressSpace} {s : StackMap} (h : s ∈ A.stackTab) :
    s.mid ≠ -1 ∧ s.mid ≠ 127 := by
  have := A.aligned.owners s h
  omega

/-- The module that `rip` lies in is a cubicle. -/
def CubicleAt (A : AddressSpace) (rip : UInt64) : Prop :=
  ∃ e, A.pm.at (getModuleId A.pm (memToLib A.pm rip)) = .done e ∧ e.must = true

theorem memToLibId_image {A : AddressSpace} {a : UInt64} (h : A.ImagePage a) :
    memToLibId A.map a = getModuleId A.pm (memToLib A.pm a) := by
  rcases lookup_cases A.aligned h.1 with ⟨-, hmem, -⟩ | ⟨hin, -⟩ | ⟨hin, -⟩
  · exact hmem
  · exact absurd h.2 hin
  · exact absurd h.2 hin

/-- An image page lies in the module that the map gives for it. -/
theorem imagePage_entry {A : AddressSpace} {a : UInt64} (h : A.ImagePage a) :
    ∃ (i : ℕ) (e : ProcMap), A.pm[i]? = some e ∧ memToLibId A.map a = i := by
  cases A.kind a with
  | image i e _ hi hmem _ => exact ⟨i, e, hi, hmem⟩
  | stack _ hpage _ _ _ _ => exact absurd h.2 hpage.2.1
  | unowned hpage _ _ => exact absurd h.2 hpage.2.1
  | outside hcov _ _ => exact absurd h.1 hcov

theorem at_entry {A : AddressSpace} {i : ℕ} {e : ProcMap} (hi : A.pm[i]? = some e) :
    A.pm.at (i : ℤ) = .done e :=
  Pmap.at_natCast hi ((List.getElem?_eq_some_iff.mp hi).1.trans_le A.aligned.modules)

/-- Code outside all images is taken for a hook. -/
theorem getState_hook {A : AddressSpace} {rip : UInt64} (h : ¬ A.ImagePage rip)
    (H : HeapMap) (rsp addr : UInt64) :
    getState A.pm A.map H rip rsp addr =
      .done (.retStackToWrap, stackToLibId A.map rsp, stackToLibId A.map addr) := by
  have hrip : memToLibId A.map rip = -1 := by
    cases A.kind rip with
    | image i e himage _ _ _ => exact absurd himage h
    | stack _ _ _ _ hmem _ => exact hmem
    | unowned _ hmem _ => exact hmem
    | outside _ hmem _ => exact hmem
  unfold getState
  rw [hrip]
  rfl

/-- Code of a module acts as that module or as the owner of its stack. -/
def callerOf (A : AddressSpace) (i : ℕ) (e : ProcMap) (rsp : UInt64) : ℤ :=
  if e.must = false then stackToLibId A.map rsp else i

theorem getState_access {A : AddressSpace} {rip : UInt64} {i : ℕ} {e : ProcMap}
    (hi : A.pm[i]? = some e) (hrip : memToLibId A.map rip = i) (H : HeapMap)
    (rsp addr : UInt64) :
    getState A.pm A.map H rip rsp addr =
      if memToLibId A.map addr ≠ -1 then
        .done (.accessToGlobal, A.callerOf i e rsp, memToLibId A.map addr)
      else if stackToLibId A.map addr ≠ -1 then
        .done (.accessToStack, A.callerOf i e rsp, stackToLibId A.map addr)
      else if heapToLibId H addr ≠ -1 then
        .done (.accessToHeap, A.callerOf i e rsp, heapToLibId H addr)
      else .spin := by
  have hcaller : accessCaller A.pm A.map i rsp = .done (A.callerOf i e rsp) := by
    unfold accessCaller
    rw [at_entry hi]
    rfl
  have hne : ((i : ℕ) : ℤ) ≠ -1 := by omega
  unfold getState
  simp only [hrip, if_neg hne, hcaller, Outcome.done_bind]

/-- A fault in an image is an access by the caller computed from it. -/
theorem getState_image_caller {A : AddressSpace} {rip : UInt64} {i : ℕ} {e : ProcMap}
    (hi : A.pm[i]? = some e) (hrip : memToLibId A.map rip = i) {H : HeapMap}
    {rsp addr : UInt64} {st : FaultState} {caller callee : ℤ}
    (h : getState A.pm A.map H rip rsp addr = .done (st, caller, callee)) :
    st ≠ .retStackToWrap ∧ caller = A.callerOf i e rsp := by
  rw [getState_access hi hrip] at h
  split at h
  · cases h
    exact ⟨by simp, rfl⟩
  · split at h
    · cases h
      exact ⟨by simp, rfl⟩
    · split at h
      · cases h
        exact ⟨by simp, rfl⟩
      · cases h

end AddressSpace

/-! ## §3  Which ids the handler acts on -/

/-- When the handler goes on with the ids that `get_state` found, both are ids
of the table; and after a fault in a hook, both the stack pointer and the
fault address are on stacks registered for the caller. -/
def ActsOnCubicles (A : AddressSpace) (H : HeapMap) (rip rsp addr : UInt64) : Prop :=
  ∀ st caller callee,
    getState A.pm A.map H rip rsp addr = .done (st, caller, callee) →
    (sigHandler A.pm A.map H rip rsp addr).used ≠ [] →
      A.ScannedId caller ∧ A.ScannedId callee ∧
        (st = .retStackToWrap → ∃ s ∈ A.stackTab, ∃ s' ∈ A.stackTab,
          inBlock s.start s.size rsp = true ∧ s.mid = caller ∧
          inBlock s'.start s'.size addr = true ∧ s'.mid = caller)

/-- Every owner that `heap_cfg` records is an id of the table. -/
def AddressSpace.HeapIds (A : AddressSpace) (H : HeapMap) : Prop :=
  ∀ a, H.inHeap a = true → A.ScannedId (heapToLibId H a)

section Acts

variable {A : AddressSpace} {H : HeapMap} {rip rsp addr : UInt64}

theorem sigHandler_used {st : FaultState} {caller callee : ℤ}
    (h : getState A.pm A.map H rip rsp addr = .done (st, caller, callee)) :
    (sigHandler A.pm A.map H rip rsp addr).used ≠ [] ↔
      (st = .retStackToWrap → caller = callee) := by
  unfold sigHandler
  rw [h]
  exact handleFault_used A.pm H st caller callee addr

/-- A fault in a hook is handled well unless both addresses are nobody's, or
neither is a stack. -/
theorem acts_hook_iff (hrip : ¬ A.ImagePage rip) :
    ActsOnCubicles A H rip rsp addr ↔
      ¬ (A.UnownedPage rsp ∧ A.UnownedPage addr) ∧ ¬ (A.NoStack rsp ∧ A.NoStack addr) := by
  have hstate := AddressSpace.getState_hook hrip H rsp addr
  have hsame : ActsOnCubicles A H rip rsp addr ↔
      (stackToLibId A.map rsp = stackToLibId A.map addr →
        A.ScannedId (stackToLibId A.map rsp) ∧ A.ScannedId (stackToLibId A.map addr) ∧
          ∃ s ∈ A.stackTab, ∃ s' ∈ A.stackTab,
            inBlock s.start s.size rsp = true ∧ s.mid = stackToLibId A.map rsp ∧
            inBlock s'.start s'.size addr = true ∧ s'.mid = stackToLibId A.map rsp) := by
    constructor
    · intro h heq
      obtain ⟨h1, h2, h3⟩ := h _ _ _ hstate ((sigHandler_used hstate).mpr fun _ => heq)
      exact ⟨h1, h2, h3 rfl⟩
    · intro h st caller callee hst hused
      rw [hstate] at hst
      cases hst
      obtain ⟨h1, h2, h3⟩ := h ((sigHandler_used hstate).mp hused rfl)
      exact ⟨h1, h2, fun _ => h3⟩
  rw [hsame]
  constructor
  · intro h
    constructor
    · rintro ⟨hr, ha⟩
      rw [AddressSpace.stackId_unowned hr, AddressSpace.stackId_unowned ha] at h
      exact A.not_scannedId_127 (h rfl).1
    · rintro ⟨hr, ha⟩
      rw [AddressSpace.stackId_noStack hr, AddressSpace.stackId_noStack ha] at h
      exact A.not_scannedId_neg (h rfl).1
  · rintro ⟨hunowned, hnostack⟩ heq
    rcases A.stackId_cases rsp with ⟨hr, hidr⟩ | ⟨hr, hidr⟩ | ⟨-, s, hs, hsin, hidr⟩ <;>
      rcases A.stackId_cases addr with ⟨ha, hida⟩ | ⟨ha, hida⟩ | ⟨-, s', hs', hsin', hida⟩ <;>
      rw [hidr, hida] at heq
    · exact absurd ⟨hr, ha⟩ hnostack
    · cases heq
    · exact absurd heq.symm (AddressSpace.owner_ne hs').1
    · cases heq
    · exact absurd ⟨hr, ha⟩ hunowned
    · exact absurd heq.symm (AddressSpace.owner_ne hs').2
    · exact absurd heq (AddressSpace.owner_ne hs).1
    · exact absurd heq (AddressSpace.owner_ne hs).2
    · rw [hidr, hida]
      exact ⟨AddressSpace.scannedId_owner hs, AddressSpace.scannedId_owner hs',
        s, hs, s', hs', hsin, rfl, hsin', heq.symm⟩

/-- The caller of an access is a module, except for code of a shared library
that runs on no registered stack. -/
theorem callerOf_scanned_iff (rsp : UInt64) {i : ℕ} {e : ProcMap}
    (hi : A.pm[i]? = some e) (himage : A.ImagePage rip) (hrip : memToLibId A.map rip = i) :
    A.ScannedId (A.callerOf i e rsp) ↔ A.CubicleAt rip ∨ A.StackPage rsp := by
  have hcub : A.CubicleAt rip ↔ e.must = true := by
    unfold AddressSpace.CubicleAt
    rw [← AddressSpace.memToLibId_image himage, hrip, AddressSpace.at_entry hi]
    simp
  unfold AddressSpace.callerOf
  rw [hcub]
  cases hm : e.must with
  | true => simpa using AddressSpace.scannedId_entry hi
  | false =>
      simp only [if_true, Bool.false_eq_true, false_or]
      rcases A.stackId_cases rsp with ⟨hr, hid⟩ | ⟨hr, hid⟩ | ⟨hr, s, hs, -, hid⟩
      · rw [hid]
        refine iff_of_false A.not_scannedId_neg fun hpage => ?_
        rcases hr with hcov | himg
        · exact hcov hpage.1
        · exact hpage.2.1 himg.2
      · rw [hid]
        exact iff_of_false A.not_scannedId_127 fun hpage => hr.2.2 hpage.2.2
      · rw [hid]
        exact iff_of_true (AddressSpace.scannedId_owner hs) hr

/-- An access makes the handler read `pmap` in any case, so both ids have to be
good. -/
theorem acts_access_state_iff {st : FaultState} {caller callee : ℤ}
    (hst : st ≠ .retStackToWrap)
    (hstate : getState A.pm A.map H rip rsp addr = .done (st, caller, callee)) :
    ActsOnCubicles A H rip rsp addr ↔ A.ScannedId caller ∧ A.ScannedId callee := by
  constructor
  · intro h
    obtain ⟨h1, h2, -⟩ := h _ _ _ hstate
      ((sigHandler_used hstate).mpr fun h => absurd h hst)
    exact ⟨h1, h2⟩
  · rintro ⟨h1, h2⟩ st' caller' callee' hstate' -
    rw [hstate] at hstate'
    cases hstate'
    exact ⟨h1, h2, fun h => absurd h hst⟩

/-- A fault in code of a module. -/
theorem acts_access_iff (hheap : A.HeapIds H) (himage : A.ImagePage rip) :
    ActsOnCubicles A H rip rsp addr ↔
      (¬ A.Covers addr ∧ H.inHeap addr = false) ∨
        (¬ A.UnownedPage addr ∧ (A.CubicleAt rip ∨ A.StackPage rsp)) := by
  obtain ⟨i, e, hi, hrip⟩ := AddressSpace.imagePage_entry himage
  have hcaller := callerOf_scanned_iff rsp hi himage hrip
  have hstate := AddressSpace.getState_access hi hrip H rsp addr
  cases A.kind addr with
  | image j e' hpage hj hmem _ =>
      rw [hmem, if_pos (by omega)] at hstate
      rw [acts_access_state_iff (by simp) hstate, hcaller]
      have hunowned : ¬ A.UnownedPage addr := fun h => h.2.1 hpage.2
      simp [AddressSpace.scannedId_entry hj, hpage.1, hunowned]
  | stack s hpage hs _ hmem hstack =>
      rw [hmem, if_neg (not_not.mpr rfl), hstack,
        if_pos (AddressSpace.owner_ne hs).1] at hstate
      rw [acts_access_state_iff (by simp) hstate, hcaller]
      have hunowned : ¬ A.UnownedPage addr := fun h => h.2.2 hpage.2.2
      simp [AddressSpace.scannedId_owner hs, hpage.1, hunowned]
  | unowned hpage hmem hstack =>
      rw [hmem, if_neg (not_not.mpr rfl), hstack, if_pos (by decide)] at hstate
      rw [acts_access_state_iff (by simp) hstate]
      simp [A.not_scannedId_127, hpage, hpage.1]
  | outside hcov hmem hstack =>
      rw [hmem, if_neg (not_not.mpr rfl), hstack, if_neg (not_not.mpr rfl)] at hstate
      have hunowned : ¬ A.UnownedPage addr := fun h => hcov h.1
      cases hin : H.inHeap addr with
      | true =>
          have hid := hheap addr hin
          have hne : heapToLibId H addr ≠ -1 := fun h => by
            rw [h] at hid
            exact A.not_scannedId_neg hid
          rw [if_pos hne] at hstate
          rw [acts_access_state_iff (by simp) hstate, hcaller]
          simp [hid, hunowned]
      | false =>
          have hid : heapToLibId H addr = -1 := by
            unfold heapToLibId
            rw [hin]
            rfl
          rw [hid, if_neg (not_not.mpr rfl)] at hstate
          simp only [hcov, not_false_eq_true, and_self, true_or, iff_true]
          intro st caller callee heq
          rw [hstate] at heq
          cases heq

end Acts

/-- **Ids of the fault path, exactly.** The handler acts on ids of the table
in the following cases and in no others. For code outside all images: the
stack pointer and the fault address are not both on unowned pages, and not
both without a stack id. For code of a module: the fault address is neither
in the map nor in the heap (the handler spins), or it is not on an unowned page
and the code is a cubicle's or runs on a registered stack. -/
theorem acts_on_cubicles_iff {A : AddressSpace} {H : HeapMap} (hheap : A.HeapIds H)
    (rip rsp addr : UInt64) :
    ActsOnCubicles A H rip rsp addr ↔
      (¬ A.ImagePage rip → ¬ (A.UnownedPage rsp ∧ A.UnownedPage addr) ∧
        ¬ (A.NoStack rsp ∧ A.NoStack addr)) ∧
      (A.ImagePage rip → (¬ A.Covers addr ∧ H.inHeap addr = false) ∨
        (¬ A.UnownedPage addr ∧ (A.CubicleAt rip ∨ A.StackPage rsp))) := by
  by_cases himage : A.ImagePage rip
  · rw [acts_access_iff hheap himage]
    simp [himage]
  · rw [acts_hook_iff himage]
    simp [himage]

/-- The small system with vfscore's stack. -/
def sampleSpace : AddressSpace where
  pm := samplePmap .plain sampleLayout
  stackTab := sampleStacks
  mmapStart := 0x100000
  mmapEnd := 0x140000
  aligned := sample_pageAligned
  owners := by decide +kernel

theorem sampleSpace_heapIds : sampleSpace.HeapIds sampleHeap := by
  intro a ha
  have hlen : sampleSpace.pm.length = 27 := by decide +kernel
  unfold AddressSpace.ScannedId heapToLibId
  rw [if_pos ha, hlen]
  unfold sampleHeap
  dsimp only
  split
  · decide
  · split <;> decide

/-- The application touches a stack page of vfscore: good ids. -/
theorem acts_on_stack_page :
    ActsOnCubicles sampleSpace sampleHeap 0x100010 0x138800 0x138010 := by
  rw [acts_on_cubicles_iff sampleSpace_heapIds]
  refine ⟨fun h => absurd ?_ h, fun _ => Or.inr ⟨fun h => h.2.2 ?_, Or.inl ?_⟩⟩
  · refine ⟨by unfold AddressSpace.Covers; decide, ?_⟩
    unfold InImage
    decide +kernel
  · unfold OnStack
    decide +kernel
  · have hat : (sampleSpace.pm.at (getModuleId sampleSpace.pm
        (memToLib sampleSpace.pm 0x100010))).bind (fun e => .done e.must) =
        .done true := by
      decide +kernel
    obtain ⟨e, he, hm⟩ := Outcome.bind_eq_done.mp hat
    exact ⟨e, he, Outcome.done.inj hm⟩

/-- A hook on the process's first stack faults outside the map: neither address
has a stack id, the ids agree, and `cmp_attach` is called with `-1`. -/
theorem hook_fault_acts_on_minus_one :
    (sigHandler sampleSpace.pm sampleSpace.map sampleHeap 0x500000 0x700000
        0x600000).used = [-1] ∧
      ¬ ActsOnCubicles sampleSpace sampleHeap 0x500000 0x700000 0x600000 := by
  have hused : (sigHandler sampleSpace.pm sampleSpace.map sampleHeap 0x500000 0x700000
      0x600000).used = [-1] := by
    decide +kernel
  have hstate : getState sampleSpace.pm sampleSpace.map sampleHeap 0x500000 0x700000
      0x600000 = .done (.retStackToWrap, -1, -1) := by
    decide +kernel
  refine ⟨hused, fun h => ?_⟩
  have hacts := h _ _ _ hstate (by rw [hused]; simp)
  exact sampleSpace.not_scannedId_neg hacts.1

/-! ## §4  Owners get their pages back -/

/-- Images and registered stacks are pairwise disjoint and lie inside the range
of the map, and a module with an image has a name of its own. -/
structure AddressSpace.Disjoint (A : AddressSpace) : Prop where
  images : ∀ (i j : ℕ) (e e' : ProcMap) (a : UInt64), A.pm[i]? = some e →
    A.pm[j]? = some e' → inBlock e.start e.size a = true →
    inBlock e'.start e'.size a = true → i = j
  names : ∀ (i j : ℕ) (e e' : ProcMap) (a : UInt64), A.pm[i]? = some e →
    A.pm[j]? = some e' → inBlock e.start e.size a = true → e'.name = e.name → j = i
  regions : ∀ s ∈ A.stackTab, ∀ s' ∈ A.stackTab, ∀ a, inBlock s.start s.size a = true →
    inBlock s'.start s'.size a = true → s.mid = s'.mid
  apart : ∀ a, InImage A.pm a → ¬ OnStack A.stackTab a
  inside : ∀ a, InImage A.pm a ∨ OnStack A.stackTab a → A.Covers a

/-- Two ranges without a common byte. -/
def RangesApart (start size start' size' : UInt64) : Prop :=
  start.toNat + size.toNat ≤ start'.toNat ∨ start'.toNat + size'.toNat ≤ start.toNat

instance (start size start' size' : UInt64) :
    Decidable (RangesApart start size start' size') := by
  unfold RangesApart
  infer_instance

theorem RangesApart.not_both {start size start' size' a : UInt64}
    (h : RangesApart start size start' size') (h₁ : inBlock start size a = true)
    (h₂ : inBlock start' size' a = true) : False := by
  have h₁' := mem_of_inBlock h₁
  have h₂' := mem_of_inBlock h₂
  unfold RangesApart at h
  omega

/-- An address lies in at most one range of a table. -/
theorem RangesApart.index_eq {α : Type} {start size : α → UInt64} {l : List α}
    (h : l.Pairwise fun x y => RangesApart (start x) (size x) (start y) (size y))
    {i j : ℕ} {x y : α} {a : UInt64} (hi : l[i]? = some x) (hj : l[j]? = some y)
    (hx : inBlock (start x) (size x) a = true)
    (hy : inBlock (start y) (size y) a = true) : i = j := by
  by_contra hne
  obtain ⟨hil, rfl⟩ := List.getElem?_eq_some_iff.mp hi
  obtain ⟨hjl, rfl⟩ := List.getElem?_eq_some_iff.mp hj
  rcases Nat.lt_or_gt_of_ne hne with hlt | hlt
  · exact (List.pairwise_iff_getElem.mp h i j hil hjl hlt).not_both hx hy
  · exact (List.pairwise_iff_getElem.mp h j i hjl hil hlt).not_both hy hx

/-- It is enough to compare the bounds of the ranges. -/
theorem AddressSpace.disjoint_of_ranges {A : AddressSpace}
    (himages : A.pm.Pairwise fun e e' => RangesApart e.start e.size e'.start e'.size)
    (hstacks : A.stackTab.Pairwise fun s s' => RangesApart s.start s.size s'.start s'.size)
    (hapart : ∀ e ∈ A.pm, ∀ s ∈ A.stackTab, RangesApart e.start e.size s.start s.size)
    (hnames : ∀ i < A.pm.length, ∀ j < A.pm.length, (A.pm.getD i {}).size ≠ 0 →
      (A.pm.getD j {}).name = (A.pm.getD i {}).name → j = i)
    (hin : ∀ e ∈ A.pm, e.size ≠ 0 →
      A.mmapStart ≤ e.start ∧ e.start.toNat + e.size.toNat ≤ A.mmapEnd.toNat)
    (hin' : ∀ s ∈ A.stackTab,
      A.mmapStart ≤ s.start ∧ s.start.toNat + s.size.toNat ≤ A.mmapEnd.toNat) :
    A.Disjoint := by
  have hsize : ∀ {start size a : UInt64}, inBlock start size a = true → size ≠ 0 := by
    rintro start size a h rfl
    have := mem_of_inBlock h
    simp at this
    omega
  constructor
  · intro i j e e' a hi hj h₁ h₂
    exact RangesApart.index_eq himages hi hj h₁ h₂
  · intro i j e e' a hi hj h₁ hname
    have hil := (List.getElem?_eq_some_iff.mp hi).1
    have hjl := (List.getElem?_eq_some_iff.mp hj).1
    refine hnames i hil j hjl ?_ ?_
    · rw [List.getD_eq_getElem?_getD, hi]
      exact hsize h₁
    · rw [List.getD_eq_getElem?_getD, List.getD_eq_getElem?_getD, hi, hj]
      exact hname
  · intro s hs s' hs' a h₁ h₂
    obtain ⟨i, hi⟩ := List.mem_iff_getElem?.mp hs
    obtain ⟨j, hj⟩ := List.mem_iff_getElem?.mp hs'
    obtain rfl := RangesApart.index_eq hstacks hi hj h₁ h₂
    rw [hi] at hj
    cases hj
    rfl
  · rintro a ⟨e, he, h₁⟩ ⟨s, hs, h₂⟩
    exact (hapart e he s hs).not_both h₁ h₂
  · unfold AddressSpace.Covers
    rintro a (⟨e, he, h⟩ | ⟨s, hs, h⟩)
    · obtain ⟨hlo, hhi⟩ := hin e he (hsize h)
      have := mem_of_inBlock h
      have := UInt64.le_iff_toNat_le.mp hlo
      omega
    · obtain ⟨hlo, hhi⟩ := hin' s hs
      have := mem_of_inBlock h
      have := UInt64.le_iff_toNat_le.mp hlo
      omega

namespace AddressSpace.Disjoint

variable {A : AddressSpace} {a : UInt64}

/-- The map knows the module of every image page. -/
theorem memToLibId_eq (hd : A.Disjoint) {i : ℕ} {e : ProcMap}
    (hi : A.pm[i]? = some e) (hin : inBlock e.start e.size a = true) :
    memToLibId A.map a = i := by
  have himage : InImage A.pm a := ⟨e, List.mem_of_getElem? hi, hin⟩
  rw [AddressSpace.memToLibId_image ⟨hd.inside a (Or.inl himage), himage⟩]
  obtain ⟨e', he'⟩ : ∃ e', A.pm.find? (fun e => inBlock e.start e.size a) = some e' := by
    cases h : A.pm.find? (fun e => inBlock e.start e.size a) with
    | none => exact absurd hin (by simpa using List.find?_eq_none.mp h e (List.mem_of_getElem? hi))
    | some e' => exact ⟨e', rfl⟩
  obtain ⟨j, hj⟩ := List.mem_iff_getElem?.mp (List.mem_of_find?_eq_some he')
  have hin' : inBlock e'.start e'.size a = true :=
    List.find?_some (p := fun e : ProcMap => inBlock e.start e.size a) he'
  obtain rfl := hd.images i j e e' a hi hj hin hin'
  rw [hi] at hj
  cases hj
  have hlib : memToLib A.pm a = some e.name := by
    unfold memToLib
    rw [he']
    rfl
  rw [hlib]
  refine getModuleId_eq hi rfl fun j e' hj hej hname => ?_
  have := hd.names i j e e' a hi hej hin hname
  omega

/-- And the owner of every stack page. -/
theorem stackToLibId_eq (hd : A.Disjoint) {s : StackMap} (hs : s ∈ A.stackTab)
    (hin : inBlock s.start s.size a = true) :
    memToLibId A.map a = -1 ∧ stackToLibId A.map a = s.mid := by
  have hon : OnStack A.stackTab a := ⟨s, hs, hin⟩
  cases A.kind a with
  | image i e himage _ _ _ => exact absurd hon (hd.apart a himage.2)
  | stack s' _ hs' hin' hmem hstack =>
      refine ⟨hmem, ?_⟩
      rw [hstack]
      exact hd.regions s' hs' s hs a hin' hin
  | unowned hpage _ _ => exact absurd hon hpage.2.2
  | outside hcov _ _ => exact absurd (hd.inside a (Or.inr hon)) hcov

end AddressSpace.Disjoint

/-- A page that belongs to cubicle `C`. -/
inductive OwnedBy (A : AddressSpace) (H : HeapMap) (C : Modules) (addr : UInt64) :
    Prop where
  | image (e : ProcMap) : A.pm[C.ctorIdx]? = some e →
      inBlock e.start e.size addr = true → OwnedBy A H C addr
  | stack (s : StackMap) : s ∈ A.stackTab → s.mid = C.id →
      inBlock s.start s.size addr = true → OwnedBy A H C addr
  | heap : heapToLibId H addr = C.id → ¬ InImage A.pm addr →
      ¬ OnStack A.stackTab addr → OwnedBy A H C addr

/-- Code that runs when `C` does: its own, or that of a shared module. -/
inductive CodeOf (A : AddressSpace) (C : Modules) (rip : UInt64) : Prop where
  | own (e : ProcMap) : A.pm[C.ctorIdx]? = some e →
      inBlock e.start e.size rip = true → CodeOf A C rip
  | shared (i : ℕ) (e : ProcMap) : A.pm[i]? = some e → e.must = false →
      inBlock e.start e.size rip = true → CodeOf A C rip

/-- The address lies in the image of `C`. -/
def InImageOf (A : AddressSpace) (C : Modules) (a : UInt64) : Prop :=
  ∃ e, A.pm[C.ctorIdx]? = some e ∧ inBlock e.start e.size a = true

/-- The address lies on a stack that is registered for `C`. -/
def OnStackOf (A : AddressSpace) (C : Modules) (a : UInt64) : Prop :=
  ∃ s ∈ A.stackTab, s.mid = C.id ∧ inBlock s.start s.size a = true

/-- The handler takes the code for `C`'s: it is `C`'s own, or it is a shared
library's and runs on a stack of `C`. -/
inductive RunsAs (A : AddressSpace) (C : Modules) (rip rsp : UInt64) : Prop where
  | own (e : ProcMap) : A.pm[C.ctorIdx]? = some e →
      inBlock e.start e.size rip = true → RunsAs A C rip rsp
  | shared (i : ℕ) (e : ProcMap) (s : StackMap) : A.pm[i]? = some e → e.must = false →
      inBlock e.start e.size rip = true → s ∈ A.stackTab → s.mid = C.id →
      inBlock s.start s.size rsp = true → RunsAs A C rip rsp

/-- The handler returns and the page of `addr` has `C`'s key. -/
def Granted (A : AddressSpace) (H : HeapMap) (C : Modules) (rip rsp addr : UInt64) :
    Prop :=
  ∃ H', (sigHandler A.pm A.map H rip rsp addr).out = .done H' ∧
    H'.pages.key (addr.toNat / 4096) = keyOf A.pm C

/-- Giving a mapped page to an entry of the table succeeds. -/
theorem attachPage_done {pm : Pmap} {H : HeapMap} {caller : ℤ} {addr : UInt64}
    {e : ProcMap} (hat : pm.at caller = .done e)
    (hmapped : H.pages.mapped (addr.toNat / 4096) = true) :
    ∃ H', (attachPage pm H caller addr).out = .done H' ∧
      H'.pages.key (addr.toNat / 4096) = e.pkey := by
  have hpage : (pageStart addr).toNat / 4096 = addr.toNat / 4096 := by
    rw [pageStart_toNat]
    unfold pageBase
    omega
  have haligned : (pageStart addr).toNat % 4096 = 0 := by
    rw [pageStart_toNat]
    unfold pageBase
    omega
  have hone : pagesOf 4096 = 1 := by decide
  have hok : (pageStart addr).toNat % 4096 = 0 ∧ ∀ i < pagesOf 4096,
      H.pages.mapped ((pageStart addr).toNat / 4096 + i) = true := by
    refine ⟨haligned, fun i hi => ?_⟩
    rw [hone] at hi
    obtain rfl : i = 0 := by omega
    rw [hpage]
    exact hmapped
  have hrun : cmpAttach pm caller (pageStart addr) 4096 H =
      ({ H with pages := H.pages.retag (addr.toNat / 4096) 1 e.pkey }, .done ()) := by
    unfold cmpAttach pkeyMprotect
    rw [if_neg (by decide), hat]
    dsimp only
    rw [if_pos hok]
    simp only [hpage, hone]
  refine ⟨_, Proc.toStep_eq_done.mpr hrun, ?_⟩
  simp only [Pages.retag]
  rw [if_pos (by omega)]

section Reclaim

variable {build : Build} {T : Cubicles build} {A : AddressSpace} {H : HeapMap}
  {C : Modules} {rip rsp addr : UInt64}

/-- Whatever code of `C` does, the handler sees `C` as the caller. -/
theorem RunsAs.getState (hd : A.Disjoint) (hC : Loaded A.pm C)
    (hrun : RunsAs A C rip rsp) (H : HeapMap) (addr : UInt64) :
    CubicleOS.getState A.pm A.map H rip rsp addr =
      if memToLibId A.map addr ≠ -1 then
        .done (.accessToGlobal, C.id, memToLibId A.map addr)
      else if stackToLibId A.map addr ≠ -1 then
        .done (.accessToStack, C.id, stackToLibId A.map addr)
      else if heapToLibId H addr ≠ -1 then
        .done (.accessToHeap, C.id, heapToLibId H addr)
      else .spin := by
  cases hrun with
  | own e he hin =>
      have hcaller : A.callerOf C.ctorIdx e rsp = C.id := by
        obtain ⟨e', he', hm⟩ := hC
        rw [he] at he'
        cases he'
        unfold AddressSpace.callerOf
        rw [hm]
        rfl
      rw [AddressSpace.getState_access he (hd.memToLibId_eq he hin), hcaller]
  | shared i e s he hm hin hs hmid hsin =>
      have hcaller : A.callerOf i e rsp = C.id := by
        unfold AddressSpace.callerOf
        rw [hm, if_pos rfl, (hd.stackToLibId_eq hs hsin).2, hmid]
      rw [AddressSpace.getState_access he (hd.memToLibId_eq he hin), hcaller]

/-- The page is granted exactly when its `case` says so. -/
theorem granted_iff_mayMap (hC : Loaded A.pm C) (hT : T.pmap = A.pm)
    (hmapped : H.pages.mapped (addr.toNat / 4096) = true) {st : FaultState} {callee : ℤ}
    (hstate : getState A.pm A.map H rip rsp addr = .done (st, C.id, callee)) :
    Granted A H C rip rsp addr ↔ (mayMap A.pm C.id callee addr st).out = .done true := by
  obtain ⟨e, hat, -, hkey⟩ := T.at_remap (hT ▸ hC)
  rw [T.remap_loaded (hT ▸ hC), hT] at hat
  rw [hT] at hkey
  obtain ⟨H', hH', hpage⟩ := attachPage_done hat hmapped
  unfold Granted sigHandler
  rw [hstate]
  simp only [handleFault, Traced.bind_out]
  constructor
  · rintro ⟨H'', hdone, -⟩
    obtain ⟨ok, hok, hrest⟩ := Outcome.bind_eq_done.mp hdone
    cases ok with
    | true => exact hok
    | false => cases hrest
  · intro hok
    refine ⟨H', ?_, hpage.trans hkey⟩
    rw [hok, Outcome.done_bind, if_pos rfl]
    exact hH'

/-- `C` has opened a window for itself on the address. -/
def OwnWindow (pm : Pmap) (C : Modules) (addr : UInt64) : Prop :=
  ∃ e ws w, pm[C.ctorIdx]? = some e ∧ e.ipcTabGlobals = some ws ∧ w ∈ ws ∧
    w.mask.toNat.testBit C.ctorIdx = true ∧ inBlock w.begin w.size addr = true

/-- The check for globals has no case for the owner: it scans the owner's own
table. -/
theorem shouldMap_own_iff (hT : T.pmap = A.pm) (hC : Loaded A.pm C) (addr : UInt64) :
    (shouldMap A.pm C.id C.id addr).out = .done true ↔
      C = .vfscore ∨ C = .lwip ∨ OwnWindow A.pm C addr := by
  unfold shouldMap
  simp only [Modules.id_inj]
  by_cases hpair : C = .vfscore ∨ C = .lwip
  · rw [if_pos hpair]
    simp only [Traced.pure_out, true_iff]
    rcases hpair with h | h
    · exact Or.inl h
    · exact Or.inr (Or.inl h)
  · rw [if_neg hpair, scanWindows_true_iff]
    rw [← or_assoc, or_iff_right hpair]
    obtain ⟨e, he, hm⟩ := hC
    have hlt := (Modules.ctorIdx_lt C).trans_le (T.length_ge.trans T.length_le)
    have hat : A.pm.at C.id = .done e := Pmap.at_natCast he hlt
    have hmask := T.openTo_iff (hT ▸ hat) hm
    have hkey : e.pkey ≠ 0 := by
      have h := T.key_ne_zero C (hT ▸ ⟨e, he, hm⟩)
      rw [hT] at h
      simpa [keyOf, he] using h
    constructor
    · rintro ⟨p, q, ws, -, -, hq, hws, -, w, hw, hopen, hadmit⟩
      rw [hat] at hq
      cases hq
      refine ⟨e, ws, w, he, hws, hw, (hmask w).mp hopen, ?_⟩
      simpa [IpcStruct.admits] using hadmit
    · rintro ⟨e', ws, w, he', hws, hw, hbit, hin⟩
      rw [he] at he'
      cases he'
      exact ⟨e, e, ws, hat, hm, hat, hws, hkey, w, hw, (hmask w).mpr hbit,
        by simp [IpcStruct.admits, hin]⟩

/-- When the handler knows that it is `C`, the kind of the page decides. -/
theorem runsAs_reclaims_iff (hT : T.pmap = A.pm) (hd : A.Disjoint)
    (hC : Loaded A.pm C) (howned : OwnedBy A H C addr) (hrun : RunsAs A C rip rsp)
    (hmapped : H.pages.mapped (addr.toNat / 4096) = true) :
    Granted A H C rip rsp addr ↔
      (InImage A.pm addr → C = .vfscore ∨ C = .lwip ∨ OwnWindow A.pm C addr) ∧
      (¬ InImage A.pm addr → ¬ OnStack A.stackTab addr → ¬ A.Covers addr) := by
  have hstate := hrun.getState hd hC H addr
  have hne : C.id ≠ -1 := by
    have := C.id_range
    omega
  cases howned with
  | image e he hin =>
      have himage : InImage A.pm addr := ⟨e, List.mem_of_getElem? he, hin⟩
      have hmem : memToLibId A.map addr = C.id := hd.memToLibId_eq he hin
      rw [hmem, if_pos hne] at hstate
      rw [granted_iff_mayMap hC hT hmapped hstate]
      have hown := shouldMap_own_iff hT hC addr
      simp only [mayMap, hown, himage, true_imp_iff, not_true_eq_false, false_imp_iff,
        and_true]
  | stack s hs hmid hin =>
      have hon : OnStack A.stackTab addr := ⟨s, hs, hin⟩
      have himage : ¬ InImage A.pm addr := fun h => hd.apart addr h hon
      obtain ⟨hmem, hstack⟩ := hd.stackToLibId_eq hs hin
      rw [hmem, if_neg (not_not.mpr rfl), hstack, hmid, if_pos hne] at hstate
      rw [granted_iff_mayMap hC hT hmapped hstate]
      simp [mayMap, shouldMapStack, himage, hon]
  | heap hid himage hon =>
      cases A.kind addr with
      | image i e hpage _ _ _ => exact absurd hpage.2 himage
      | stack s hpage _ _ _ _ => exact absurd hpage.2.2 hon
      | unowned hpage hmem hstack =>
          -- the map takes the page for a stack of module 127
          rw [hmem, if_neg (not_not.mpr rfl), hstack, if_pos (by decide)] at hstate
          rw [granted_iff_mayMap hC hT hmapped hstate]
          have hscan : (mayMap A.pm C.id 127 addr .accessToStack).out ≠ .done true := by
            intro h
            have hne127 : C.id ≠ 127 := by
              have := C.id_range
              omega
            simp only [mayMap, shouldMapStack, if_neg hne127] at h
            obtain ⟨p, q, ws, -, -, hq, -⟩ := scanWindows_true_iff.mp h
            cases hq
          simp [hscan, himage, hon, hpage.1]
      | outside hcov hmem hstack =>
          rw [hmem, if_neg (not_not.mpr rfl), hstack, if_neg (not_not.mpr rfl), hid,
            if_pos hne] at hstate
          rw [granted_iff_mayMap hC hT hmapped hstate]
          simp [mayMap, shouldMapHeap, himage, hcov]

end Reclaim

section Owner

variable {T : Cubicles .plain} {A : AddressSpace} {H : HeapMap} {C : Modules}
  {rip rsp addr : UInt64}

/-- In the default build a page that gets the key of `C` is given to `C`. -/
theorem caller_of_granted (hT : T.pmap = A.pm) (hC : Loaded A.pm C)
    (h : Granted A H C rip rsp addr) :
    ∃ st callee, getState A.pm A.map H rip rsp addr = .done (st, C.id, callee) := by
  obtain ⟨H', hdone, hkey⟩ := h
  obtain ⟨st, caller, callee, e, hstate, -, hat, -, hkeys⟩ := sigHandler_grants hdone
  rw [hkeys, if_pos rfl] at hkey
  rw [← hT] at hat hkey hC
  obtain rfl := Cubicles.id_of_key hC hat hkey
  exact ⟨st, callee, hstate⟩

/-- Shared code is taken for `C`'s only on a stack of `C`. -/
theorem onStackOf_of_granted (hT : T.pmap = A.pm) (hd : A.Disjoint) (hC : Loaded A.pm C)
    {i : ℕ} {e : ProcMap} (hi : A.pm[i]? = some e) (hm : e.must = false)
    (hin : inBlock e.start e.size rip = true) (h : Granted A H C rip rsp addr) :
    OnStackOf A C rsp := by
  obtain ⟨st, callee, hstate⟩ := caller_of_granted hT hC h
  have hcaller : stackToLibId A.map rsp = C.id := by
    rw [(AddressSpace.getState_image_caller hi (hd.memToLibId_eq hi hin) hstate).2]
    exact (if_pos hm).symm
  have hrange := C.id_range
  rcases A.stackId_cases rsp with ⟨-, hid⟩ | ⟨-, hid⟩ | ⟨-, s, hs, hsin, hid⟩
  · omega
  · omega
  · exact ⟨s, hs, hid.symm.trans hcaller, hsin⟩

/-- **Reclaiming, exactly.** In the default build, a fault of code that a cubicle
runs on a page of its own is granted if, and only if, the code is the cubicle's
own or runs on a stack registered for it, and in addition: an image page is
vfscore's or lwip's, or the cubicle has opened a window for itself there; a heap
page lies outside the range of the page map. -/
theorem owner_reclaims_iff (hT : T.pmap = A.pm) (hd : A.Disjoint)
    (hC : Loaded A.pm C) (howned : OwnedBy A H C addr) (hcode : CodeOf A C rip)
    (hmapped : H.pages.mapped (addr.toNat / 4096) = true) :
    Granted A H C rip rsp addr ↔
      (InImageOf A C rip ∨ OnStackOf A C rsp) ∧
      (InImage A.pm addr → C = .vfscore ∨ C = .lwip ∨ OwnWindow A.pm C addr) ∧
      (¬ InImage A.pm addr → ¬ OnStack A.stackTab addr → ¬ A.Covers addr) := by
  cases hcode with
  | own e he hin =>
      rw [runsAs_reclaims_iff hT hd hC howned (.own e he hin) hmapped]
      exact (and_iff_right (Or.inl ⟨e, he, hin⟩)).symm
  | shared i e he hm hin =>
      -- the image is not that of `C`, which is a cubicle
      have hnot : ¬ InImageOf A C rip := by
        rintro ⟨e', he', hin'⟩
        obtain rfl := hd.images _ _ e e' rip he he' hin hin'
        obtain ⟨x, hx, hxm⟩ := hC
        rw [he] at hx
        cases hx
        rw [hm] at hxm
        cases hxm
      constructor
      · intro h
        obtain ⟨s, hs, hmid, hsin⟩ := onStackOf_of_granted hT hd hC he hm hin h
        exact ⟨Or.inr ⟨s, hs, hmid, hsin⟩, (runsAs_reclaims_iff hT hd hC howned
          (.shared i e s he hm hin hs hmid hsin) hmapped).mp h⟩
      · rintro ⟨hown, hrest⟩
        obtain ⟨s, hs, hmid, hsin⟩ := hown.resolve_left hnot
        exact (runsAs_reclaims_iff hT hd hC howned
          (.shared i e s he hm hin hs hmid hsin) hmapped).mpr hrest

end Owner

/-- The images of the small system are apart, have names of their own and lie
together. -/
theorem sample_images :
    let pm := samplePmap .plain sampleLayout
    pm.Pairwise (fun e e' => RangesApart e.start e.size e'.start e'.size) ∧
      (∀ i < pm.length, ∀ j < pm.length, (pm.getD i {}).size ≠ 0 →
        (pm.getD j {}).name = (pm.getD i {}).name → j = i) ∧
      ∀ e ∈ pm, 0x100000 ≤ e.start ∧ e.start.toNat + e.size.toNat ≤ 0x138000 := by
  decide +kernel

theorem sampleSpace_disjoint : sampleSpace.Disjoint := by
  obtain ⟨himages, hnames, hin⟩ := sample_images
  refine AddressSpace.disjoint_of_ranges himages (by decide) (fun e he s hs => ?_) hnames
    (fun e he _ => ?_) (by decide)
  · obtain rfl := List.mem_singleton.mp hs
    exact Or.inl (hin e he).2
  · exact ⟨(hin e he).1, (hin e he).2.trans (by decide)⟩

/-- The C library, running for vfscore on vfscore's stack, gets a page of that
stack back from whoever used it last; on another stack it does not. -/
theorem vfscore_reclaims_stack :
    Granted sampleSpace sampleHeap .vfscore 0x134010 0x138800 0x138010 ∧
      ¬ Granted sampleSpace sampleHeap .vfscore 0x134010 0x700000 0x138010 := by
  obtain ⟨T, hT, -, -⟩ := sample_plain
  have hlib : ∃ e, sampleSpace.pm[26]? = some e ∧ e.must = false ∧
      inBlock e.start e.size 0x134010 = true := by
    decide +kernel
  obtain ⟨e, he, hm, hin⟩ := hlib
  have hmem : sampleStacks.head (by decide) ∈ sampleSpace.stackTab := by decide +kernel
  have hpage : inBlock (sampleStacks.head (by decide)).start
      (sampleStacks.head (by decide)).size 0x138010 = true := by
    decide +kernel
  have hloaded := sample_loaded .plain (by simp) .vfscore (by simp)
  have hiff := fun rsp => @owner_reclaims_iff T sampleSpace sampleHeap .vfscore 0x134010 rsp
    0x138010 hT sampleSpace_disjoint hloaded (.stack _ hmem rfl hpage)
    (.shared 26 e he hm hin) rfl
  constructor
  · refine (hiff 0x138800).mpr ⟨Or.inr ⟨_, hmem, rfl, by decide +kernel⟩, ?_, ?_⟩
    · intro himage
      exact absurd ⟨_, hmem, hpage⟩ (sampleSpace_disjoint.apart _ himage)
    · intro _ hon
      exact absurd ⟨_, hmem, hpage⟩ hon
  · rw [hiff]
    rintro ⟨himage | hstack, -⟩
    · revert himage
      unfold InImageOf
      decide +kernel
    · revert hstack
      unfold OnStackOf
      decide +kernel

/-- The application faults on a page of its own image, say after vfscore has
used it: the handler ends in an endless loop. -/
theorem app_cannot_reclaim_image :
    Loaded sampleSpace.pm .app ∧ OwnedBy sampleSpace sampleHeap .app 0x101000 ∧
      InImageOf sampleSpace .app 0x100010 ∧
      (sigHandler sampleSpace.pm sampleSpace.map sampleHeap 0x100010 0x700000
        0x101000).out = .spin ∧
      ¬ Granted sampleSpace sampleHeap .app 0x100010 0x700000 0x101000 := by
  have hentry : ∃ e, sampleSpace.pm[Modules.app.ctorIdx]? = some e ∧
      inBlock e.start e.size 0x101000 = true ∧
      inBlock e.start e.size 0x100010 = true := by
    decide +kernel
  obtain ⟨e, he, hpage, hrip⟩ := hentry
  have hspin : (sigHandler sampleSpace.pm sampleSpace.map sampleHeap 0x100010 0x700000
      0x101000).out = .spin := rfl
  refine ⟨sample_loaded .plain (by simp) .app (by simp), .image e he hpage, ⟨e, he, hrip⟩,
    hspin, ?_⟩
  rintro ⟨H', hdone, -⟩
  rw [hspin] at hdone
  cases hdone

end CubicleOS
