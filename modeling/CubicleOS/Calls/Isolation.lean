import CubicleOS.Calls.Coherence
import CubicleOS.Calls.FaultEffect

/-!
# Isolation over whole runs

The pieces of the monitor put together: hooked calls and returns with their
wraps, accesses that go through or fault, and cubicles that change their window
tables at any time. A page gets the key of a cubicle in two ways only, from a
wrap that hands it over and from the fault handler. So a page that is neither
handed to a cubicle nor, at any access, opened to it stays closed to it, however
long the system runs and whatever the other cubicles do.
-/

namespace CubicleOS

open Foundation

/-! ## §1  The running system -/

/-- The window tables of all modules. They lie in the memory of the cubicles,
which change them without the monitor. -/
structure Tables where
  globals : ℕ → Option (List IpcStruct)
  stack : ℕ → Option (List IpcStruct)
  heap : ℕ → Option (List IpcStruct)

/-- What the monitor sees of the modules with these tables. -/
def Pmap.withTables (pm : Pmap) (t : Tables) : Pmap :=
  pm.mapIdx fun i e =>
    { e with
      ipcTabGlobals := t.globals i
      ipcTabStack := t.stack i
      ipcTabHeap := t.heap i }

structure System where
  calls : CallState
  tables : Tables

/-- What can happen: a call or a return, a change of tables, or an access of the
instruction at `rip`, on the stack at `rsp`, to `addr`. -/
inductive SystemEvent where
  | flow (e : Event)
  | windows (t : Tables)
  | access (rip rsp addr : UInt64)

namespace System

/-- The running code may access the address as it is. -/
def opens (s : System) (addr : UInt64) : Bool :=
  let pages := s.calls.heap.pages
  pages.mapped (addr.toNat / 4096) && s.calls.enabled (pages.key (addr.toNat / 4096))

/-- One event. An access that the key register forbids runs the handler. -/
def step (build : Build) (A : AddressSpace) (s : System) : SystemEvent → Outcome System
  | .flow e => (CubicleOS.step build A.pm s.calls e).bind fun c => .done { s with calls := c }
  | .windows t => .done { s with tables := t }
  | .access rip rsp addr =>
      if s.opens addr then .done s
      else
        (sigHandler (A.pm.withTables s.tables) A.map s.calls.heap rip rsp addr).out.bind
          fun H => .done { s with calls := { s.calls with heap := H } }

end System

/-! ## §2  Pages that change hands -/

/-- The monitor code around a call or a return. A return is made by the
innermost activation, and its hook has the arguments of the call. -/
def wrapOps (build : Build) (pm : Pmap) (s : CallState) : Event → List MonitorOp
  | .call f args rsp u =>
      if direct build s.mon.current f then []
      else genPreWrap f (remap pm f.module) args
        (Function.update u f.coroStack (u (rsp &&& stackMaskTop)))
  | .ret v u =>
      match s.cursor with
      | ⟨some a, 0⟩ =>
          match s.hook a.id with
          | some h => genPostWrap h.fn (remap pm s.mon.below) h.args v u
          | none => []
      | _ => []

/-- The wrap of the event hands page `q` to cubicle `c`. -/
def Hands (build : Build) (pm : Pmap) (s : CallState) (e : Event) (q : ℕ) (c : Modules) :
    Prop :=
  ∃ op ∈ wrapOps build pm s e, op.For (remap pm c) ∧ op.Keys s.heap q

/-- A window of the table is open to `c` and reaches the address. -/
def WindowFor (table : Option (List IpcStruct)) (slack : Bool) (c : Modules)
    (addr : UInt64) : Prop :=
  ∃ ws, table = some ws ∧ ∃ w ∈ ws,
    w.mask.toNat.testBit c.ctorIdx = true ∧ w.admits slack addr = true

/-- The owner of the address lets `c` have it: by a window, because it is `c`
itself, or by one of the exceptions in the code. The owner of an image never
comes into it as such. -/
inductive Lets (A : AddressSpace) (t : Tables) (H : HeapMap) (c : Modules) (addr : UInt64) :
    Prop where
  | image (o : ℕ) : memToLibId A.map addr = o →
      GlobalsPair c.id o ∨ WindowFor (t.globals o) false c addr → Lets A t H c addr
  | stack (o : ℕ) : stackToLibId A.map addr = o →
      c.id = o ∨ WindowFor (t.stack o) true c addr → Lets A t H c addr
  | heap (o : ℤ) : memToLibId A.map addr = -1 → stackToLibId A.map addr = -1 →
      heapToLibId H addr = o →
      c.id = o ∨ HasKey A.pm o (keyOf A.pm c) ∨ HeapPair c.id o ∨
        WindowFor (t.heap o.toNat) true c addr → Lets A t H c addr

/-- The address is open to no cubicle with the key of `m`. -/
def Shut (A : AddressSpace) (s : System) (m : Modules) (addr : UInt64) : Prop :=
  ∀ c, Loaded A.pm c → keyOf A.pm c = keyOf A.pm m →
    ¬ Lets A s.tables s.calls.heap c addr

/-- The stack of every function that is called is registered. -/
def StackKnown (A : AddressSpace) : Event → Prop
  | .call f _ _ _ => Registered A f ∧ f.Mapped
  | .ret _ _ => True

/-- Page `q` is closed to `m` as far as the next event goes: no wrap hands it to
a cubicle with the key of `m`, and an access to it, whoever makes it, finds it
shut. -/
def ClosedTo (build : Build) (A : AddressSpace) (m : Modules) (q : ℕ) (s : System) :
    SystemEvent → Prop
  | .flow e => Callable A.pm e ∧ StackKnown A e ∧
      ∀ c, Loaded A.pm c → Hands build A.pm s.calls e q c → keyOf A.pm c ≠ keyOf A.pm m
  | .windows _ => True
  | .access _ _ addr => addr.toNat / 4096 = q → Shut A s m addr

/-- Every registered stack belongs to a cubicle. -/
def StacksOwned (A : AddressSpace) : Prop :=
  ∀ s ∈ A.stackTab, ∃ c, Loaded A.pm c ∧ s.mid = remap A.pm c

/-! ## §3  Faults -/

section Fault

variable {pm : Pmap} {t : Tables}

/-- An entry with other tables is the same entry otherwise. -/
theorem at_withTables (pm : Pmap) (t : Tables) (id : ℤ) :
    (pm.at id = .wild ∧ (pm.withTables t).at id = .wild) ∨
      ∃ p e, pm.at id = .done p ∧ (pm.withTables t).at id = .done e ∧ e.pkey = p.pkey ∧
        e.must = p.must ∧ ∀ ws, (e.ipcTabGlobals = some ws → t.globals id.toNat = some ws) ∧
          (e.ipcTabStack = some ws → t.stack id.toNat = some ws) ∧
          (e.ipcTabHeap = some ws → t.heap id.toNat = some ws) := by
  unfold Pmap.at
  by_cases hid : 0 ≤ id ∧ id < pmapSize
  · rw [if_pos hid, if_pos hid]
    refine Or.inr ⟨_, _, rfl, rfl, ?_⟩
    unfold Pmap.withTables
    simp only [List.getD_eq_getElem?_getD, List.getElem?_mapIdx]
    cases pm[id.toNat]? with
    | none => exact ⟨rfl, rfl, fun ws => ⟨nofun, nofun, nofun⟩⟩
    | some p => exact ⟨rfl, rfl, fun ws => ⟨fun h => h, fun h => h, fun h => h⟩⟩
  · rw [if_neg hid, if_neg hid]
    exact Or.inl ⟨rfl, rfl⟩

/-- `get_state` does not look at the tables. -/
theorem getState_withTables (M : PageMap) (H : HeapMap) (rip rsp addr : UInt64) :
    getState (pm.withTables t) M H rip rsp addr = getState pm M H rip rsp addr := by
  have hcaller : ∀ id, accessCaller (pm.withTables t) M id rsp = accessCaller pm M id rsp := by
    intro id
    unfold accessCaller
    rcases at_withTables pm t id with ⟨hp, he⟩ | ⟨p, e, hp, he, -, hmust, -⟩
    · rw [hp, he]
    · rw [hp, he, Outcome.done_bind, Outcome.done_bind, hmust]
  unfold getState
  simp only [hcaller]

/-- A scan that grants has found a window. -/
theorem scan_window {table : ProcMap → Option (List IpcStruct)} {slack : Bool} {c : Modules}
    {callee : ℤ} {addr : UInt64} {tab : ℕ → Option (List IpcStruct)}
    (htab : ∀ e, (pm.withTables t).at callee = .done e → ∀ ws, table e = some ws →
      tab callee.toNat = some ws)
    (h : (scanWindows (pm.withTables t) table slack c.id callee addr).out = .done true) :
    WindowFor (tab callee.toNat) slack c addr := by
  obtain ⟨p, q, ws, -, -, hq, hws, -, w, hw, hopen, hadmit⟩ := scanWindows_true_iff.mp h
  exact ⟨ws, htab q hq ws hws, w, hw, (openTo_iff w (Modules.ctorIdx_lt c)).mp hopen, hadmit⟩

theorem tables_of_at {id : ℤ} {e : ProcMap} (h : (pm.withTables t).at id = .done e)
    (ws : List IpcStruct) :
    (e.ipcTabGlobals = some ws → t.globals id.toNat = some ws) ∧
      (e.ipcTabStack = some ws → t.stack id.toNat = some ws) ∧
      (e.ipcTabHeap = some ws → t.heap id.toNat = some ws) := by
  rcases at_withTables pm t id with ⟨-, he⟩ | ⟨-, e', -, he, -, -, htab⟩
  · cases he.symm.trans h
  · cases he.symm.trans h
    exact htab ws

theorem key_of_at {id : ℤ} {e : ProcMap} (h : (pm.withTables t).at id = .done e) :
    HasKey pm id e.pkey := by
  rcases at_withTables pm t id with ⟨-, he⟩ | ⟨p, e', hp, he, hkey, -⟩
  · cases he.symm.trans h
  · cases he.symm.trans h
    exact ⟨p, hp, hkey.symm⟩

end Fault

section Caller

variable {build : Build} {T : Cubicles build} {A : AddressSpace} {H : HeapMap}
  {rip rsp addr : UInt64} {st : FaultState} {callee : ℤ} {k : ℤ}

/-- A stack with a key belongs to a cubicle. -/
theorem stackToLibId_cubicle (hT : T.pmap = A.pm) (hown : StacksOwned A) {a : UInt64}
    (hk : HasKey A.pm (stackToLibId A.map a) k) :
    ∃ c, Loaded A.pm c ∧ stackToLibId A.map a = c.id := by
  obtain ⟨p, hp, -⟩ := hk
  rcases A.stackId_cases a with ⟨-, hid⟩ | ⟨-, hid⟩ | ⟨-, s, hs, -, hid⟩
  · rw [hid] at hp
    cases hp
  · rw [hid] at hp
    cases hp
  · obtain ⟨c, hc, hmid⟩ := hown s hs
    refine ⟨c, hc, ?_⟩
    rw [hid, hmid, ← hT, T.remap_loaded (hT ▸ hc)]

/-- The handler gives pages to cubicles only. -/
theorem getState_cubicle (hT : T.pmap = A.pm) (hown : StacksOwned A) {caller : ℤ}
    (h : getState A.pm A.map H rip rsp addr = .done (st, caller, callee))
    (hk : HasKey A.pm caller k) :
    ∃ c, Loaded A.pm c ∧ caller = c.id ∧ keyOf A.pm c = k := by
  have hcub : ∃ c, Loaded A.pm c ∧ caller = c.id := by
    by_cases himage : A.ImagePage rip
    · obtain ⟨i, e, hi, hrip⟩ := AddressSpace.imagePage_entry himage
      obtain ⟨-, rfl⟩ := AddressSpace.getState_image_caller hi hrip h
      unfold AddressSpace.callerOf at hk ⊢
      cases hm : e.must with
      | false =>
          rw [hm, if_pos rfl] at hk
          rw [if_pos rfl]
          exact stackToLibId_cubicle hT hown hk
      | true =>
          rw [if_neg (by simp)]
          rw [← hT] at hi
          obtain ⟨c, rfl, hc⟩ := T.must_at hi hm
          exact ⟨c, hT ▸ hc, rfl⟩
    · rw [AddressSpace.getState_hook himage] at h
      cases h
      exact stackToLibId_cubicle hT hown hk
  obtain ⟨c, hc, rfl⟩ := hcub
  refine ⟨c, hc, rfl, ?_⟩
  obtain ⟨p, hp, rfl⟩ := hk
  obtain ⟨p', hp', hkey⟩ := loaded_hasKey T (hT ▸ hc)
  rw [hT] at hp' hkey
  cases hp.symm.trans hp'
  exact hkey.symm

/-- What a state of `get_state` says about the address. -/
def Concerns (M : PageMap) (H : HeapMap) (addr : UInt64) (callee : ℤ) : FaultState → Prop
  | .retStackToWrap => callee = stackToLibId M addr
  | .accessToGlobal => memToLibId M addr ≠ -1 ∧ callee = memToLibId M addr
  | .accessToStack => stackToLibId M addr ≠ -1 ∧ callee = stackToLibId M addr
  | .accessToHeap => memToLibId M addr = -1 ∧ stackToLibId M addr = -1 ∧
      callee = heapToLibId H addr

theorem getState_concerns {pm : Pmap} {M : PageMap} {caller : ℤ}
    (h : getState pm M H rip rsp addr = .done (st, caller, callee)) :
    Concerns M H addr callee st := by
  unfold getState at h
  dsimp only at h
  split at h
  · cases h
    rfl
  · split at h
    · rename_i hmem
      obtain ⟨_, -, h⟩ := Outcome.bind_eq_done.mp h
      cases h
      exact ⟨hmem, rfl⟩
    · rename_i hmem
      split at h
      · rename_i hstack
        obtain ⟨_, -, h⟩ := Outcome.bind_eq_done.mp h
        cases h
        exact ⟨hstack, rfl⟩
      · rename_i hstack
        split at h
        · obtain ⟨_, -, h⟩ := Outcome.bind_eq_done.mp h
          cases h
          exact ⟨not_not.mp hmem, not_not.mp hstack, rfl⟩
        · cases h

/-- What the handler allows, the owner lets. -/
theorem lets_of_mayMap {t : Tables} {c : Modules} (hc : HasKey A.pm c.id (keyOf A.pm c))
    (h : getState A.pm A.map H rip rsp addr = .done (st, c.id, callee))
    (hmap : (mayMap (A.pm.withTables t) c.id callee addr st).out = .done true) :
    Lets A t H c addr := by
  have hcallee := getState_concerns h
  cases st with
  | retStackToWrap =>
      have heq : c.id = callee := of_decide_eq_true (Outcome.done.inj hmap)
      exact .stack c.ctorIdx (hcallee.symm.trans heq.symm) (Or.inl rfl)
  | accessToGlobal =>
      obtain ⟨hne, rfl⟩ := hcallee
      obtain ⟨o, ho⟩ : ∃ o : ℕ, memToLibId A.map addr = o := by
        cases A.kind addr with
        | image i e _ _ hmem _ => exact ⟨i, hmem⟩
        | stack _ _ _ _ hmem _ => exact absurd hmem hne
        | unowned _ hmem _ => exact absurd hmem hne
        | outside _ hmem _ => exact absurd hmem hne
      refine .image o ho ?_
      rw [ho] at hmap
      by_cases hpair : GlobalsPair c.id o
      · exact Or.inl hpair
      · have hscan : (scanWindows (A.pm.withTables t) ProcMap.ipcTabGlobals false c.id o
            addr).out = .done true :=
          (congrArg Traced.out (if_neg hpair)).symm.trans hmap
        exact Or.inr (scan_window (fun e he ws => (tables_of_at he ws).1) hscan)
  | accessToStack =>
      obtain ⟨hne, rfl⟩ := hcallee
      obtain ⟨o, ho⟩ : ∃ o : ℕ, stackToLibId A.map addr = o := by
        rcases A.stackId_cases addr with ⟨-, hid⟩ | ⟨-, hid⟩ | ⟨-, s, hs, -, hid⟩
        · exact absurd hid hne
        · exact ⟨127, hid⟩
        · exact ⟨s.mid.toNat, hid.trans (Int.toNat_of_nonneg (A.aligned.owners s hs).1).symm⟩
      refine .stack o ho ?_
      rw [ho] at hmap
      by_cases heq : c.id = o
      · exact Or.inl heq
      · have hscan : (scanWindows (A.pm.withTables t) ProcMap.ipcTabStack true c.id o
            addr).out = .done true :=
          (congrArg Traced.out (if_neg heq)).symm.trans hmap
        exact Or.inr (scan_window (fun e he ws => (tables_of_at he ws).2.1) hscan)
  | accessToHeap =>
      obtain ⟨hmem, hstack, rfl⟩ := hcallee
      refine .heap _ hmem hstack rfl ?_
      by_cases heq : c.id = heapToLibId H addr
      · exact Or.inl heq
      by_cases hpair : HeapPair c.id (heapToLibId H addr)
      · exact Or.inr (Or.inr (Or.inl hpair))
      by_cases hkey : HasKey A.pm (heapToLibId H addr) (keyOf A.pm c)
      · exact Or.inr (Or.inl hkey)
      refine Or.inr (Or.inr (Or.inr ?_))
      suffices hscan : (scanWindows (A.pm.withTables t) ProcMap.ipcTabHeap true c.id
          (heapToLibId H addr) addr).out = .done true from
        scan_window (fun e he ws => (tables_of_at he ws).2.2) hscan
      refine (shouldMapHeap_eq_scan heq ?_ hpair addr).mp hmap
      intro p q hp hq hsame
      refine hkey ?_
      obtain ⟨p', hp', hpk⟩ := key_of_at hp
      obtain ⟨p'', hp'', hck⟩ := hc
      cases hp'.symm.trans hp''
      rw [← hck, hpk, hsame]
      exact key_of_at hq

end Caller

/-! ## §4  Wraps -/

section Wraps

variable {build : Build} {T : Cubicles build} {en₀ : Rights} {s s' : CallState}
  {fr : List Frame} {e : Event}

theorem hookedCall_heap {pm : Pmap} {f : Export} {args : ℕ → UInt64} {rsp : UInt64}
    {u : UserMem} (h : hookedCall pm s f args rsp u = .done s') :
    runOps pm (genPreWrap f (remap pm f.module) args
      (Function.update u f.coroStack (u (rsp &&& stackMaskTop)))) s.heap =
        (s'.heap, .done ()) := by
  obtain ⟨mon, hmon, h⟩ := Outcome.bind_eq_done.mp h
  simp only [(Mon.enter_done hmon).1] at h
  obtain ⟨en, -, h⟩ := Outcome.bind_eq_done.mp h
  obtain ⟨heap, hheap, h⟩ := Outcome.bind_eq_done.mp h
  obtain ⟨en', -, h⟩ := Outcome.bind_eq_done.mp h
  cases h
  exact Proc.toStep_eq_done.mp hheap

theorem entryReturn_heap {pm : Pmap} {a : Activation} {v : UInt64} {u : UserMem}
    (hcoro : ∀ e, s.entry a.fn = some e → e.act = a.id →
      (s.coro a.fn).thread = some a.id)
    (hcaller : (s.thread a.id).caller = .hook a.id)
    (hfn : ∀ h, s.hook a.id = some h → h.fn = a.fn)
    (h : entryReturn pm s a v u = .done s') :
    ∃ hk, s.hook a.id = some hk ∧
      runOps pm (genPostWrap hk.fn (remap pm s.mon.below) hk.args v u) s.heap =
        (s'.heap, .done ()) := by
  unfold entryReturn at h
  cases he : s.entry a.fn with
  | none =>
      rw [he] at h
      cases h
  | some e =>
      simp only [he] at h
      split at h
      · cases h
      · rename_i hact
        obtain ⟨en, -, h⟩ := Outcome.bind_eq_done.mp h
        simp only [hcoro e he (not_not.mp hact), hcaller] at h
        unfold resumeHook at h
        cases hhk : s.hook a.id with
        | none =>
            simp only [CallState.finish, hhk] at h
            cases h
        | some hk =>
            simp only [CallState.finish, hhk, hfn hk hhk, Function.update_self] at h
            obtain ⟨en', -, h⟩ := Outcome.bind_eq_done.mp h
            obtain ⟨heap, hheap, h⟩ := Outcome.bind_eq_done.mp h
            cases h
            refine ⟨hk, rfl, ?_⟩
            rw [hfn hk hhk]
            exact Proc.toStep_eq_done.mp hheap

/-- The code of `main` returns to nobody, and a call that did not switch has no
wrap. -/
theorem wrapOps_ret (h : Follows T en₀ s fr) (v : UInt64) (u : UserMem) :
    (∃ a st, fr = ⟨a.fn, true⟩ :: st ∧ s.cursor = ⟨some a, 0⟩) ∨
      wrapOps build T.pmap s (.ret v u) = [] ∧
        ∀ s', step build T.pmap s (.ret v u) = .done s' → s'.heap = s.heap := by
  match fr, h.linked with
  | [], ⟨_, hc⟩ =>
      refine Or.inr ⟨by rw [wrapOps, hc], fun s' hstep => ?_⟩
      rw [step, hc] at hstep
      cases hstep
  | ⟨f, false⟩ :: st, ⟨d, hd, _⟩ =>
      have hc : s.cursor = ⟨s.cursor.act, d + 1⟩ := by rw [← hd]
      refine Or.inr ⟨?_, fun s' hstep => ?_⟩
      · rw [wrapOps, hc]
        cases s.cursor.act <;> rfl
      · rw [step, hc] at hstep
        cases hstep
        rfl
  | ⟨f, true⟩ :: st, ⟨a, _, _, hfn, hc, _⟩ =>
      subst hfn
      exact Or.inl ⟨a, st, rfl, hc⟩

/-- A call or a return changes the keys by its wrap only. -/
theorem step_wrapOps (h : Follows T en₀ s fr) (hstep : step build T.pmap s e = .done s') :
    runOps T.pmap (wrapOps build T.pmap s e) s.heap = (s'.heap, .done ()) := by
  cases e with
  | call f args rsp u =>
      rw [wrapOps]
      rw [step] at hstep
      split at hstep
      · rename_i hd
        rw [if_pos hd]
        cases hstep
        rfl
      · rename_i hd
        rw [if_neg hd]
        exact hookedCall_heap hstep
  | ret v u =>
      rcases wrapOps_ret h v u with ⟨a, st, rfl, hc⟩ | ⟨hops, hheap⟩
      · obtain ⟨a', rest, _, _, hc', hcaller, hentry, hhook⟩ := h.linked
        rw [step, hc] at hstep
        rw [wrapOps, hc]
        cases hc.symm.trans hc'
        obtain ⟨hk, hhk, hrun⟩ := entryReturn_heap hentry hcaller
          (fun h hh => (hhook h hh).1) hstep
        simp only [hhk]
        exact hrun
      · rw [hops, hheap _ hstep]
        rfl

/-- Code that acts for one module, or starts the heap over after it has. -/
theorem runOps_hands {pm : Pmap} {mid : ℤ} {p : ProcMap} (hat : pm.at mid = .done p)
    {ops : List MonitorOp} {H H' : HeapMap}
    (hops : (∀ op ∈ ops, op.For mid) ∨ ∃ desc base len,
      ops = [.cmpAttach mid desc 4096, .setupHeap base len])
    (hrun : runOps pm ops H = (H', .done ())) (q : ℕ) :
    H'.pages.key q = H.pages.key q ∨
      (∃ op ∈ ops, op.For mid ∧ op.Keys H q) ∧ H'.pages.key q = p.pkey := by
  rcases hops with hops | ⟨desc, base, len, rfl⟩
  · have hkey := runOps_key hat hops H q
    rw [keysPage_iff hops (by rw [hrun]), hrun] at hkey
    by_cases hk : ∃ op ∈ ops, op.Keys H q
    · obtain ⟨op, hop, hkeys⟩ := id hk
      exact Or.inr ⟨⟨op, hop, hops op hop, hkeys⟩, hkey.1 hk⟩
    · exact Or.inl (hkey.2 hk)
  · have hkey := cmpAttach_key hat desc 4096 H q
    have hdone : (runOps pm [.cmpAttach mid desc 4096, .setupHeap base len] H).2 =
        .done () := by
      rw [hrun]
    obtain ⟨-, -, heq⟩ := runOps_cons_done hdone
    -- starting the heap over leaves the keys alone
    have hlast : H'.pages = (cmpAttach pm mid desc 4096 H).1.pages := by
      rw [← show (runOps pm [.cmpAttach mid desc 4096, .setupHeap base len] H).1 = H' by
        rw [hrun], heq]
      rfl
    rw [hlast]
    by_cases hk : Rekeys H desc 4096 q
    · exact Or.inr ⟨⟨_, List.mem_cons_self, rfl, hk⟩, hkey.1 hk⟩
    · exact Or.inl (hkey.2 hk)

/-- The key of a page after a call or a return: the old one, or that of the
cubicle to which the wrap hands the page. -/
theorem step_key (h : Follows T en₀ s fr) (he : Callable T.pmap e)
    (hstep : step build T.pmap s e = .done s') (q : ℕ) :
    s'.heap.pages.key q = s.heap.pages.key q ∨
      ∃ c, Loaded T.pmap c ∧ Hands build T.pmap s e q c ∧
        s'.heap.pages.key q = keyOf T.pmap c := by
  have hrun := step_wrapOps h hstep
  -- the cubicle that the wrap acts for
  have hfor : ∃ c, Loaded T.pmap c ∧
      ((∀ op ∈ wrapOps build T.pmap s e, op.For (remap T.pmap c)) ∨ ∃ desc base len,
        wrapOps build T.pmap s e =
          [.cmpAttach (remap T.pmap c) desc 4096, .setupHeap base len]) := by
    cases e with
    | call f args rsp u =>
        refine ⟨f.module, he, Or.inl ?_⟩
        rw [wrapOps]
        split
        · simp
        · exact genPreWrap_for _ _ _ _
    | ret v u =>
        rcases wrapOps_ret h v u with ⟨a, st, rfl, hc⟩ | ⟨hops, -⟩
        · refine ⟨s.mon.below, ?_, ?_⟩
          · have hbelow : s.mon.below = top st := stacked_top h.stacked.leave
            rw [hbelow]
            exact loaded_top fun f hf => h.loaded f (List.mem_cons_of_mem _ hf)
          · rw [wrapOps, hc]
            cases hhk : s.hook a.id with
            | none =>
                simp only [hhk]
                exact Or.inl (by simp)
            | some hk =>
                simp only [hhk]
                rcases genPostWrap_for hk.fn (remap T.pmap s.mon.below) hk.args v u with
                  hall | ⟨-, hsetup⟩
                · exact Or.inl hall
                · exact Or.inr hsetup
        · refine ⟨.linuxuplat, T.platform, Or.inl ?_⟩
          rw [hops]
          simp
  obtain ⟨c, hc, hops⟩ := hfor
  obtain ⟨p, hat, -, hkey⟩ := T.at_remap hc
  rcases runOps_hands hat hops hrun q with hsame | ⟨hhands, hnew⟩
  · exact Or.inl hsame
  · exact Or.inr ⟨c, hc, hhands, hnew.trans hkey⟩

end Wraps

/-! ## §5  Whole runs -/

section Runs

variable {build : Build} (T : Cubicles build) (A : AddressSpace) {en₀ : Rights}
  {m : Modules} {q : ℕ} {s s' : System}

theorem keeps_withHeap (c : CallState) (H : HeapMap) : Keeps c.live c { c with heap := H } where
  thread _ _ := rfl
  hook _ _ _ := id
  entry _ _ _ _ he _ := ⟨he, rfl⟩

theorem Follows.withHeap {T : Cubicles build} {c : CallState} {fr : List Frame}
    (h : Follows T en₀ c fr) (H : HeapMap) : Follows T en₀ { c with heap := H } fr where
  toTracks := h.toTracks.frame (keeps_withHeap c H) rfl rfl rfl h.linked
  live := h.live
  loaded := h.loaded
  apart := h.apart
  keys := h.keys
  saved := Saved.frame (keeps_withHeap c H) h.saved

/-- The calls follow the protocol on registered stacks, and page `q` has the key
of some cubicle, but not that of `m`. -/
structure Barred (en₀ : Rights) (m : Modules) (q : ℕ) (s : System) : Prop where
  follows : ∃ fr, Follows T en₀ s.calls fr ∧ ∀ x ∈ fr, Registered A x.fn ∧ x.fn.Mapped
  cubicle : T.cubicleKey (s.calls.heap.pages.key q)
  closed : s.calls.heap.pages.key q ≠ keyOf A.pm m

variable {T A}

/-- A call or a return that hands the page to nobody with the key of `m`. -/
theorem Barred.flow (hT : T.pmap = A.pm) (h : Barred T A en₀ m q s) {e : Event}
    {c : CallState} (hclosed : ClosedTo build A m q s (.flow e))
    (hstep : step build A.pm s.calls e = .done c) :
    Barred T A en₀ m q { s with calls := c } := by
  obtain ⟨⟨fr, hfr, hreg⟩, hcub, hne⟩ := h
  obtain ⟨hcall, hknown, hhands⟩ := hclosed
  rw [← hT] at hstep hcall hhands
  obtain ⟨fr', hst, hfr'⟩ := step_follows hfr hcall hstep
  have hreg' : ∀ x ∈ fr', Registered A x.fn ∧ x.fn.Mapped := by
    cases e with
    | call f args rsp u =>
        cases hst
        exact List.forall_mem_cons.mpr ⟨hknown, hreg⟩
    | ret v u =>
        cases fr with
        | nil => cases hst
        | cons x fr =>
            cases hst
            exact (List.forall_mem_cons.mp hreg).2
  rcases step_key hfr hcall hstep q with hsame | ⟨d, hd, hhand, hnew⟩
  · exact ⟨⟨fr', hfr', hreg'⟩, by rwa [hsame], by rwa [hsame]⟩
  · refine ⟨⟨fr', hfr', hreg'⟩, ?_, ?_⟩
    · rw [hnew]
      exact ⟨d, hd, rfl⟩
    · rw [hnew, ← hT]
      exact hhands d hd hhand

/-- A fault, whoever makes it. -/
theorem Barred.fault (hT : T.pmap = A.pm) (hown : StacksOwned A)
    (h : Barred T A en₀ m q s) {rip rsp addr : UInt64} {H : HeapMap}
    (hclosed : ClosedTo build A m q s (.access rip rsp addr))
    (hfault : (sigHandler (A.pm.withTables s.tables) A.map s.calls.heap rip rsp addr).out =
      .done H) : Barred T A en₀ m q { s with calls := { s.calls with heap := H } } := by
  obtain ⟨⟨fr, hfr, hreg⟩, hcub, hne⟩ := h
  obtain ⟨st, caller, callee, e, hstate, hmap, hat, -, hkey⟩ := sigHandler_grants hfault
  rw [getState_withTables] at hstate
  obtain ⟨c, hc, rfl, hck⟩ := getState_cubicle hT hown hstate (key_of_at hat)
  have hlets := lets_of_mayMap (hck ▸ key_of_at hat) hstate hmap
  by_cases hq : q = addr.toNat / 4096
  · refine ⟨⟨fr, hfr.withHeap H, hreg⟩, ?_, ?_⟩
    · show T.cubicleKey (H.pages.key q)
      rw [hkey, if_pos hq, ← hck]
      exact ⟨c, hT ▸ hc, by rw [hT]⟩
    · show H.pages.key q ≠ _
      rw [hkey, if_pos hq, ← hck]
      exact fun heq => hclosed hq.symm c hc heq hlets
  · have hsame : H.pages.key q = s.calls.heap.pages.key q := by rw [hkey, if_neg hq]
    exact ⟨⟨fr, hfr.withHeap H, hreg⟩, by rwa [← hsame] at hcub, by rwa [← hsame] at hne⟩

/-- **One event.** -/
theorem Barred.step (hT : T.pmap = A.pm) (hown : StacksOwned A) (h : Barred T A en₀ m q s)
    {e : SystemEvent} (hclosed : ClosedTo build A m q s e)
    (hstep : s.step build A e = .done s') : Barred T A en₀ m q s' := by
  cases e with
  | flow e =>
      obtain ⟨c, hc, hstep⟩ := Outcome.bind_eq_done.mp hstep
      cases hstep
      exact h.flow hT hclosed hc
  | windows t =>
      cases hstep
      exact ⟨h.follows, h.cubicle, h.closed⟩
  | access rip rsp addr =>
      rw [System.step] at hstep
      split at hstep
      · cases hstep
        exact h
      · obtain ⟨H, hH, hstep⟩ := Outcome.bind_eq_done.mp hstep
        cases hstep
        exact h.fault hT hown hclosed hH

/-- While `m` runs, the page is out of reach, and faulting does not help. -/
theorem Barred.refused (hT : T.pmap = A.pm) (hd : A.Disjoint) (hown : StacksOwned A)
    (h : Barred T A en₀ m q s)
    (hcur : keyOf A.pm s.calls.mon.current = keyOf A.pm m) :
    s.calls.enabled (s.calls.heap.pages.key q) = false ∧
      ∀ rip rsp addr, addr.toNat / 4096 = q → Shut A s m addr →
        1 ≤ s.calls.mon.layer → ExecutedBy build A s.calls.mon.current rip →
        (∀ a, s.calls.cursor.act = some a → OnCoroStack a.fn rsp) →
        ∀ s', s.step build A (.access rip rsp addr) ≠ .done s' := by
  obtain ⟨⟨fr, hfr, hreg⟩, ⟨c, hc, hck⟩, hne⟩ := h
  have hoff : s.calls.enabled (s.calls.heap.pages.key q) = false := by
    rw [← hck, hfr.keys.cubicle c hc, decide_eq_false_iff_not, ← hfr.current, hck, hT, hcur]
    exact hne
  refine ⟨hoff, fun rip rsp addr hq hshut hlayer hrip hrsp s' hstep => ?_⟩
  have hopens : s.opens addr = false := by
    unfold System.opens
    dsimp only
    rw [hq, hoff, Bool.and_false]
  rw [System.step, hopens] at hstep
  obtain ⟨H, hfault, -⟩ := Outcome.bind_eq_done.mp hstep
  obtain ⟨st, caller, callee, e, hstate, hmap, hat, -⟩ := sigHandler_grants hfault
  rw [getState_withTables] at hstate
  obtain ⟨d, hd', rfl, hdk⟩ := getState_cubicle hT hown hstate (key_of_at hat)
  -- the caller that the handler computes has the key of the running cubicle
  obtain ⟨a, hact, hmem, hcura⟩ := hfr.innermost hlayer
  obtain ⟨x, hx, hxfn⟩ := List.mem_map.mp hmem
  obtain ⟨hregf, hmapf⟩ := hreg x (List.mem_filter.mp hx).1
  rw [hxfn] at hregf hmapf
  obtain ⟨i, p, hi, hin, hby⟩ := hrip
  rw [hcura] at hby
  obtain ⟨-, hcaller⟩ := AddressSpace.getState_image_caller hi (hd.memToLibId_eq hi hin) hstate
  obtain ⟨r, hr, hrk⟩ := callerOf_key hT hd (hT ▸ hfr.loaded _ hmem) hregf hmapf
    (hrsp a hact) hi hby
  obtain ⟨r', hr', hrk'⟩ := key_of_at hat
  rw [hcaller] at hr'
  cases hr.symm.trans hr'
  refine hshut d hd' ?_ (lets_of_mayMap (hdk ▸ key_of_at hat) hstate hmap)
  rw [hdk, ← hrk', hrk, ← hcura, hcur]

end Runs

/-- **A page that nobody opens stays closed.** Let page `q` have the key of a
cubicle other than `m`'s. As long as no wrap hands it to a cubicle with the key
of `m`, and its owner has no window there for one at any access, it never gets
that key. In every state that is reached, code of `m` has the page's key
disabled, and touching the page stops the program. -/
theorem closed_page_stays_closed {build : Build} {alloc : ℕ → ℤ} (ha : PkeyAlloc alloc)
    {files : List String} {lay : ℕ → Placement} {en en' : Rights} {A : AddressSpace}
    (hboot : boot build alloc files lay en = .done (A.pm, en')) (hd : A.Disjoint)
    (hown : StacksOwned A) {m c : Modules} (hc : Loaded A.pm c)
    (hmc : keyOf A.pm c ≠ keyOf A.pm m) {heap : HeapMap} {q : ℕ}
    (hq : heap.pages.key q = keyOf A.pm c) {u : UserMem} {t : Tables}
    {es : List SystemEvent}
    (hes : Along (System.step build A) (ClosedTo build A m q) ⟨.init en' heap u, t⟩ es)
    {s : System} (hrun : runs (System.step build A) ⟨.init en' heap u, t⟩ es = .done s) :
    s.calls.heap.pages.key q ≠ keyOf A.pm m ∧
      (keyOf A.pm s.calls.mon.current = keyOf A.pm m →
        s.calls.enabled (s.calls.heap.pages.key q) = false ∧
          ∀ rip rsp addr, addr.toNat / 4096 = q → Shut A s m addr →
            1 ≤ s.calls.mon.layer → ExecutedBy build A s.calls.mon.current rip →
            (∀ a, s.calls.cursor.act = some a → OnCoroStack a.fn rsp) →
            ∀ s', s.step build A (.access rip rsp addr) ≠ .done s') := by
  obtain ⟨T, hT, hkeys, hother⟩ := boot_cubicles ha hboot
  have hinit : Barred T A en m q ⟨.init en' heap u, t⟩ := by
    refine ⟨⟨[], Follows.init (hT ▸ hkeys) hother heap u, by simp⟩, ?_, ?_⟩
    · exact ⟨c, hT ▸ hc, by rw [hT]; exact hq.symm⟩
    · show heap.pages.key q ≠ _
      rw [hq]
      exact hmc
  have hbarred : Barred T A en m q s :=
    runs_invariant (fun _ _ _ hs hcl hst => hs.step hT hown hcl hst) hinit hes hrun
  exact ⟨hbarred.closed, hbarred.refused hT hd hown⟩

/-- A heap whose second page is lwip's. -/
def lwipHeap : HeapMap where
  pages :=
    { key := fun p => if p = 0x40001 then keyOf callSpace.pm .lwip else 0
      mapped := fun _ => true }
  heapCfg := fun p => if p = 1 then Int8.ofInt Modules.lwip.id else Int8.ofInt Modules.ukalloc.id
  heapStart := 0x40000000
  heapEnd := 0x40100000

/-- lwip has a window on that page, for the application. -/
def lwipTables : Tables where
  globals := fun _ => none
  stack := fun _ => none
  heap := fun i =>
    if i = Modules.lwip.ctorIdx then some [{ begin := 0x40001000, size := 4096, mask := 1 }]
    else none

/-- While vfscore runs, the application uses the window; then lwip closes it. -/
def windowEvents : List SystemEvent :=
  [.flow (sampleCall sampleWrite), .access 0x100010 0x7ff000 0x40001010,
    .windows ⟨fun _ => none, fun _ => none, fun _ => none⟩]

theorem lwip_page_shut {s : System} (hs : s.tables = lwipTables) (hH : s.calls.heap = lwipHeap) :
    Shut callSpace s .vfscore 0x40001010 := by
  intro c hc hkey hlets
  obtain ⟨T, hT⟩ := sample_cubicles .plain sampleLayout (sample_starts _ (by simp))
  have hvfs : Loaded T.pmap .vfscore := by
    rw [hT]
    exact sample_loaded _ (by simp) _ (by simp)
  have hfriends : friends .plain c .vfscore = true :=
    (T.key_eq_iff c .vfscore (by rw [hT]; exact hc) hvfs).mp (by rw [hT]; exact hkey)
  obtain rfl : c = .vfscore := by
    by_contra hne
    rw [friends, if_neg hne] at hfriends
    cases hfriends
  rw [hs, hH] at hlets
  cases hlets with
  | image o ho _ =>
      have hmem : memToLibId callSpace.map 0x40001010 = -1 := by decide +kernel
      omega
  | stack o ho _ =>
      have hstack : stackToLibId callSpace.map 0x40001010 = -1 := by decide +kernel
      omega
  | heap o _ _ ho h =>
      obtain rfl : o = Modules.lwip.id := ho.symm.trans (by decide +kernel)
      rcases h with h | ⟨p, hp, hpk⟩ | h | ⟨ws, hws, w, hw, hbit, -⟩
      · exact absurd h (by decide)
      · have hkeys : (callSpace.pm.at Modules.lwip.id).bind (fun p =>
            .done (decide (p.pkey = keyOf callSpace.pm .vfscore))) = .done false := by
          decide +kernel
        rw [hp, Outcome.done_bind, hpk] at hkeys
        simp at hkeys
      · exact absurd h.1 (by decide)
      · cases hws
        obtain rfl := List.mem_singleton.mp hw
        exact absurd hbit (by decide)

/-- `vfs_write` has no wrap. -/
theorem write_hands_nothing (pm : Pmap) (s : CallState) (q : ℕ) (c : Modules) :
    ¬ Hands .plain pm s (sampleCall sampleWrite) q c := by
  rintro ⟨op, hop, -⟩
  have hnone : wrapOps .plain pm s (sampleCall sampleWrite) = [] := by
    unfold sampleCall
    rw [wrapOps, genPreWrap_lib (by decide)]
    exact ite_self _
  rw [hnone] at hop
  cases hop

/-- The application's fault on the page is handled. -/
theorem window_fault_handled :
    ∃ H, (sigHandler (callSpace.pm.withTables lwipTables) callSpace.map lwipHeap 0x100010
      0x7ff000 0x40001010).out = .done H := by
  have happ : ∃ e, callSpace.pm[0]? = some e ∧ inBlock e.start e.size 0x100010 = true ∧
      e.must = true := by
    decide +kernel
  obtain ⟨e, he, hin, hm⟩ := happ
  have hmem : memToLibId callSpace.map 0x40001010 = -1 := by decide +kernel
  have hstack : stackToLibId callSpace.map 0x40001010 = -1 := by decide +kernel
  have howner : heapToLibId lwipHeap 0x40001010 = 17 := by decide +kernel
  have hstate : getState callSpace.pm callSpace.map lwipHeap 0x100010 0x7ff000 0x40001010 =
      .done (.accessToHeap, 0, 17) := by
    rw [AddressSpace.getState_access he (callSpace_disjoint.memToLibId_eq he hin), hmem, hstack,
      howner, AddressSpace.callerOf, hm]
    rfl
  have hdone : (handleFault (callSpace.pm.withTables lwipTables) lwipHeap .accessToHeap 0 17
      0x40001010).out.isDone = true := by
    decide +kernel
  rw [sigHandler_eq ((getState_withTables _ _ _ _ _).trans hstate)]
  exact Outcome.isDone_iff.mp hdone

theorem page_closed_to_vfscore :
    ∃ s, runs (System.step .plain callSpace)
        ⟨.init (sampleRights .plain sampleLayout) lwipHeap fun _ => 0, lwipTables⟩ windowEvents =
          .done s ∧
      s.calls.heap.pages.key 0x40001 ≠ keyOf callSpace.pm .vfscore ∧
      s.calls.enabled (s.calls.heap.pages.key 0x40001) = false := by
  set s₀ : CallState := .init (sampleRights .plain sampleLayout) lwipHeap fun _ => 0 with hs₀
  have hdone : (step .plain callSpace.pm s₀ (sampleCall sampleWrite)).bind
      (fun c => .done (c.mon.current, c.enabled (keyOf callSpace.pm .lwip))) =
        .done (.vfscore, false) := by
    decide +kernel
  obtain ⟨c, hc, hobs⟩ := Outcome.bind_eq_done.mp hdone
  have hcur : c.mon.current = .vfscore := congrArg Prod.fst (Outcome.done.inj hobs)
  have hlwip : c.enabled (keyOf callSpace.pm .lwip) = false :=
    congrArg Prod.snd (Outcome.done.inj hobs)
  have hheap : c.heap = lwipHeap := by
    have hdirect : direct .plain s₀.mon.current sampleWrite = false := by decide +kernel
    rw [sampleCall, step, hdirect, if_neg Bool.false_ne_true] at hc
    have hrun := hookedCall_heap hc
    rw [genPreWrap_lib (by decide)] at hrun
    exact (congrArg Prod.fst hrun).symm
  obtain ⟨H, hH⟩ := window_fault_handled
  have hopens : System.opens ⟨c, lwipTables⟩ 0x40001010 = false := by
    unfold System.opens
    rw [hheap]
    exact hlwip
  have hs : runs (System.step .plain callSpace) ⟨s₀, lwipTables⟩ windowEvents =
      .done ⟨{ c with heap := H }, ⟨fun _ => none, fun _ => none, fun _ => none⟩⟩ := by
    refine runs_cons_eq_done.mpr ⟨⟨c, lwipTables⟩, ?_, runs_cons_eq_done.mpr
      ⟨⟨{ c with heap := H }, lwipTables⟩, ?_, rfl⟩⟩
    · rw [System.step, hc]
      rfl
    · rw [System.step, hopens]
      simp only [hheap, hH]
      rfl
  have hboot : boot .plain sampleAlloc sampleFiles sampleLayout (fun _ => true) =
      .done (callSpace.pm, sampleRights .plain sampleLayout) :=
    sampleBoot_eq .plain sampleLayout (sample_starts _ (by simp))
  have hloaded : ∀ m ∈ [Modules.app, .ukalloc, .vfscore, .lwip], Loaded callSpace.pm m := by
    intro m hm
    exact sample_loaded .plain (by simp) m hm
  have hown : StacksOwned callSpace := by
    intro x hx
    obtain rfl := List.mem_singleton.mp hx
    exact ⟨.vfscore, hloaded _ (by simp), by decide +kernel⟩
  have hreg : Registered callSpace sampleWrite ∧ sampleWrite.Mapped := by
    refine ⟨⟨_, List.mem_singleton.mpr rfl, rfl, by decide, by decide +kernel⟩, ?_⟩
    unfold Export.Mapped
    decide +kernel
  have hes : Along (System.step .plain callSpace) (ClosedTo .plain callSpace .vfscore 0x40001)
      ⟨s₀, lwipTables⟩ windowEvents := by
    refine Along.cons ⟨hloaded .vfscore (by simp), hreg, fun d _ hhands => ?_⟩
      (by rw [System.step, hc]; rfl) ⟨fun _ => lwip_page_shut rfl hheap, fun _ _ => ?_⟩
    · exact absurd hhands (write_hands_nothing _ _ _ _)
    · exact ⟨trivial, fun _ _ => trivial⟩
  obtain ⟨hkey, hoff⟩ := closed_page_stays_closed sampleAlloc_pkeyAlloc hboot
    callSpace_disjoint hown (hloaded .lwip (by simp)) (by decide +kernel) (by decide +kernel)
    hes hs
  exact ⟨_, hs, hkey, (hoff (by rw [hcur])).1⟩

end CubicleOS
