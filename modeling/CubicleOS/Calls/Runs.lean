import CubicleOS.Calls.Coroutine

/-!
# Runs of the call protocol

What holds in every state that a sequence of calls and returns can reach from
the state `main` sets up: the enabled cubicle key is the running cubicle's, each
activation goes back to the hook that started it, and every stack in use
carries the pointer to the same thread.
-/

namespace CubicleOS

open Foundation

/-! ## §1  Runs follow the call stack -/

section FromTable

variable {build : Build} {T : Cubicles build} {en₀ : Rights} {es : List Event}
  {s s' : CallState} {st : List Frame}

/-- A run through loaded cubicles, re-entrant or not. -/
theorem run_follows (h : Follows T en₀ s st) (hes : ∀ e ∈ es, Callable T.pmap e)
    (hrun : runs (step build T.pmap) s es = .done s') :
    ∃ st', runs (stackStep build) st es = .done st' ∧ Follows T en₀ s' st' := by
  induction es generalizing s st with
  | nil =>
      cases hrun
      exact ⟨st, rfl, h⟩
  | cons e es ih =>
      obtain ⟨m, hm, hrest⟩ := runs_cons_eq_done.mp hrun
      obtain ⟨st₁, hst₁, h₁⟩ := step_follows h (hes e List.mem_cons_self) hm
      obtain ⟨st', hst', h'⟩ := ih h₁ (fun e he => hes e (List.mem_cons_of_mem _ he)) hrest
      exact ⟨st', runs_cons_eq_done.mpr ⟨st₁, hst₁, hst'⟩, h'⟩

theorem step_simulates :
    ∀ s st e s', (Follows T en₀ s st ∧ Intact s) → Guard build T.pmap st e →
      step build T.pmap s e = .done s' →
        ∃ st', stackStep build st e = .done st' ∧ Follows T en₀ s' st' ∧ Intact s' := by
  rintro s st e s' ⟨h, hi⟩ hg hstep
  obtain ⟨st', hst', h'⟩ := step_follows h hg.callable hstep
  exact ⟨st', hst', h', step_intact h hi hg hstep⟩

theorem run_intact (h : Follows T en₀ s st) (hi : Intact s)
    (hg : Along (stackStep build) (Guard build T.pmap) st es)
    (hrun : runs (step build T.pmap) s es = .done s') :
    ∃ st', runs (stackStep build) st es = .done st' ∧ Follows T en₀ s' st' ∧
      Intact s' :=
  runs_simulates (R := fun s st => Follows T en₀ s st ∧ Intact s) step_simulates
    ⟨h, hi⟩ hg hrun

theorem run_ne_wild (h : Follows T en₀ s st) (hi : Intact s)
    (hg : Along (stackStep build) (Guard build T.pmap) st es) :
    runs (step build T.pmap) s es ≠ .wild :=
  runs_ne_wild (R := fun s st => Follows T en₀ s st ∧ Intact s) step_simulates
    (fun _ _ _ h hg => step_ne_wild h.1 h.2 hg) ⟨h, hi⟩ hg

theorem init_intact (en : Rights) (heap : HeapMap) (u : UserMem) :
    Intact (CallState.init en heap u) := by
  intro a ha
  cases ha

end FromTable

/-! ## §2  Key discipline -/

/-- The keys of cubicles that the rights `en` enable. -/
def enabledCubicleKeys (pm : Pmap) (en : Rights) : Set ℤ :=
  { k | (∃ m, Loaded pm m ∧ keyOf pm m = k) ∧ en k = true }

/-- The enabled cubicle keys are the key of `remap[prev_module[layer]]`. -/
def KeyOfCurrent (pm : Pmap) (s : CallState) : Prop :=
  ∃ e, pm.at (remap pm s.mon.current) = .done e ∧
    enabledCubicleKeys pm s.enabled = {e.pkey}

/-- `layer`, the part of `prev_module` in use and the enabled keys of `s` are
back in `s'`. -/
def Restored (s s' : CallState) : Prop :=
  s'.mon.layer = s.mon.layer ∧
    (∀ i ≤ s.mon.layer, s'.mon.prevModule i = s.mon.prevModule i) ∧
    s'.enabled = s.enabled

section Discipline

variable {build : Build} {T : Cubicles build} {en₀ : Rights} {s s' : CallState}
  {st : List Frame}

theorem Follows.keyOfCurrent (h : Follows T en₀ s st) : KeyOfCurrent T.pmap s := by
  have htop := loaded_top h.loaded
  obtain ⟨e, hat, -, hkey⟩ := T.at_remap htop
  refine ⟨e, by rw [h.current]; exact hat, ?_⟩
  ext k
  simp only [enabledCubicleKeys, Set.mem_ofPred_eq, Set.mem_singleton_iff, hkey]
  constructor
  · rintro ⟨⟨m, hm, rfl⟩, hen⟩
    rw [h.keys.cubicle m hm] at hen
    exact of_decide_eq_true hen
  · rintro rfl
    refine ⟨⟨top st, htop, rfl⟩, ?_⟩
    rw [h.keys.cubicle _ htop]
    simp

/-- States over the same call stack agree on all that the protocol keeps. -/
theorem Follows.restored (h : Follows T en₀ s st) (h' : Follows T en₀ s' st) :
    Restored s s' := by
  obtain ⟨hlayer, hprev⟩ := h.stacked.agree h'.stacked
  exact ⟨hlayer, hprev, h.keys.agree h'.keys⟩

end Discipline

/-- **Key discipline.** From the state `main` sets up, along every sequence of
calls and returns within the nesting limit and without re-entry: no step leaves
the defined behaviour, whenever cubicle code runs the enabled cubicle keys are
that of `remap[prev_module[layer]]` alone, which is the cubicle of the innermost
function that was switched to, and a call with everything it does up to its
return restores what the call found. -/
theorem key_discipline {build : Build} {alloc : ℕ → ℤ} (ha : PkeyAlloc alloc)
    {files : List String} {lay : ℕ → Placement} {en en' : Rights} {pm : Pmap}
    (hboot : boot build alloc files lay en = .done (pm, en')) (heap : HeapMap)
    (u : UserMem) {es : List Event}
    (hg : Along (stackStep build) (Guard build pm) [] es) :
    runs (step build pm) (.init en' heap u) es ≠ .wild ∧
      (∀ s, runs (step build pm) (.init en' heap u) es = .done s →
        KeyOfCurrent pm s ∧
          ∃ st, runs (stackStep build) [] es = .done st ∧ s.mon.current = top st) ∧
      ∀ (before : List Event) (c : Event) (body : List Event) (r : Event),
        es = before ++ c :: (body ++ [r]) → c.isCall →
        Balanced Event.isCall Event.isRet body → r.isRet →
        ∀ s s', runs (step build pm) (.init en' heap u) before = .done s →
          runs (step build pm) (.init en' heap u) es = .done s' →
          Restored s s' := by
  obtain ⟨T, rfl, hkeys, hother⟩ := boot_cubicles ha hboot
  have hinit := Follows.init hkeys hother heap u
  have hi := init_intact en' heap u
  refine ⟨run_ne_wild hinit hi hg, ?_, ?_⟩
  · intro s hrun
    obtain ⟨st, hst, h, -⟩ := run_intact hinit hi hg hrun
    exact ⟨h.keyOfCurrent, st, hst, h.current⟩
  · rintro before c body r rfl hc hbody hr s s' hs hs'
    obtain ⟨m, hm, hrest⟩ := runs_append_eq_done.mp hs'
    obtain rfl : m = s := by
      rw [hs] at hm
      exact (Outcome.done.inj hm).symm
    obtain ⟨st, hst, h, hi'⟩ := run_intact hinit hi (hg.of_append) hm
    obtain ⟨st', hst', h', -⟩ := run_intact h hi' (hg.append hst) hrest
    have hword : Balanced Event.isCall Event.isRet (c :: (body ++ r :: [])) :=
      .wrap hc hbody hr .nil
    have hback := (stackStep_stackLike build).balanced_restores hword hst'
    exact h.restored (hback ▸ h')

def sampleWrite : Export := { lib := .vfscore, name := "vfs_write", stack := 0x10000000 }

def sampleMalloc : Export :=
  { lib := .ukalloc, name := "uk_malloc_ifpages", stack := 0x11000000 }

def sampleSend : Export := { lib := .lwip, name := "send", stack := 0x12000000 }

def sampleCall (f : Export) : Event := .call f (fun _ => 0) 0x7ff000 fun _ => 0

def sampleRet : Event := .ret 0 fun _ => 0

/-- In the SQLite build vfscore and ukalloc are friends: the inner call takes
the shortcut, the outer one switches. -/
theorem key_discipline_sqlite :
    let es := [sampleCall sampleWrite, sampleCall sampleMalloc, sampleRet, sampleRet]
    let pm := samplePmap (.sqlite false) sampleLayout
    let s₀ := CallState.init (sampleRights (.sqlite false) sampleLayout) sampleHeap
      fun _ => 0
    (runs (step (.sqlite false) pm) s₀ es).isDone = true ∧
      runs (step (.sqlite false) pm) s₀ es ≠ .wild ∧
      (∀ s, runs (step (.sqlite false) pm) s₀ es = .done s → KeyOfCurrent pm s) ∧
      ∀ s, runs (step (.sqlite false) pm) s₀ es = .done s → Restored s₀ s := by
  intro es pm s₀
  have hg : Along (stackStep (.sqlite false)) (Guard (.sqlite false) pm) [] es := by
    refine ⟨⟨sample_loaded _ (by simp) .vfscore (by simp), fun _ => ⟨by decide, by decide⟩⟩, ?_⟩
    rintro _ ⟨⟩
    refine ⟨⟨sample_loaded _ (by simp) .ukalloc (by simp), fun h => absurd h (by decide)⟩, ?_⟩
    rintro _ ⟨⟩
    refine ⟨trivial, ?_⟩
    rintro _ ⟨⟩
    exact ⟨trivial, fun _ _ => trivial⟩
  have h := key_discipline sampleAlloc_pkeyAlloc
    (sampleBoot_eq (.sqlite false) sampleLayout (sample_starts _ (by simp))) sampleHeap
    (fun _ => 0) hg
  refine ⟨by decide +kernel, h.1, fun s hs => (h.2.1 s hs).1, fun s hs => ?_⟩
  exact h.2.2 [] (sampleCall sampleWrite) [sampleCall sampleMalloc, sampleRet] sampleRet
    rfl trivial (@Balanced.wrap _ _ _ _ _ [] [] trivial .nil trivial .nil) trivial
    s₀ s rfl hs

/-! ## §3  Activations and their stacks -/

/-- `STACK_SIZE`. -/
def stackSize : ℕ := 1 <<< 22

/-- The mapping of the stack of `f` lies in the address space. -/
def Export.Mapped (f : Export) : Prop := f.stack.toNat + 2 * stackSize < 2 ^ 64

/-- Two mappings made by `mmap`. -/
def MappingsApart (f g : Export) : Prop :=
  f.stack.toNat + 2 * stackSize ≤ g.stack.toNat ∨
    g.stack.toNat + 2 * stackSize ≤ f.stack.toNat

/-- The stacks that the coroutines of `f` and `g` run on have no byte in
common. -/
def StacksApart (f g : Export) : Prop :=
  f.coroStack.toNat + stackSize ≤ g.coroStack.toNat ∨
    g.coroStack.toNat + stackSize ≤ f.coroStack.toNat

theorem Export.coroStack_toNat {f : Export} (h : f.Mapped) :
    f.coroStack.toNat = (f.stack.toNat / stackSize + 1) * stackSize := by
  have h22 : (22 : UInt64).toNat % 64 = 22 := by decide
  have hsize : stackSize = 2 ^ 22 := by decide
  unfold Export.Mapped at h
  unfold Export.coroStack
  rw [UInt64.toNat_shiftLeft, UInt64.toNat_add, UInt64.toNat_shiftRight, h22,
    Nat.shiftRight_eq_div_pow, Nat.shiftLeft_eq, hsize]
  rw [hsize] at h
  have hone : (1 : UInt64).toNat = 1 := rfl
  omega

/-- The coroutine's stack lies inside the mapping registered for it. -/
theorem Export.coroStack_inside {f : Export} (h : f.Mapped) :
    f.stack.toNat < f.coroStack.toNat ∧
      f.coroStack.toNat + stackSize ≤ f.stack.toNat + 2 * stackSize := by
  have hpos : 0 < stackSize := by decide
  have hmod := Nat.div_add_mod f.stack.toNat stackSize
  have hlt := Nat.mod_lt f.stack.toNat hpos
  rw [f.coroStack_toNat h, Nat.add_mul, Nat.mul_comm (f.stack.toNat / stackSize)]
  omega

theorem stacksApart {f g : Export} (hf : f.Mapped) (hg : g.Mapped)
    (h : MappingsApart f g) : StacksApart f g := by
  have hfi := f.coroStack_inside hf
  have hgi := g.coroStack_inside hg
  unfold MappingsApart at h
  unfold StacksApart
  omega

/-- `f` is called somewhere in `es`. -/
def Called (es : List Event) (f : Export) : Prop :=
  ∃ args rsp u, Event.call f args rsp u ∈ es

theorem called_of_frame {build : Build} {es : List Event} {st : List Frame}
    (hrun : runs (stackStep build) [] es = .done st) :
    ∀ fr ∈ st, Called es fr.fn := by
  refine runs_invariant (I := fun st => ∀ fr ∈ st, Called es fr.fn)
    (G := fun _ e => e ∈ es) ?_ (by simp) (Along.of_forall_mem fun e he _ => he) hrun
  intro st e st' hI he hstep fr hfr
  cases e with
  | call f args rsp u =>
      cases hstep
      rcases List.mem_cons.mp hfr with rfl | hfr
      · exact ⟨args, rsp, u, he⟩
      · exact hI fr hfr
  | ret v u =>
      cases st with
      | nil => cases hstep
      | cons fr' st =>
          cases hstep
          exact hI fr (List.mem_cons_of_mem _ hfr)

/-- Without re-entry the switched calls of a stack are pairwise different. -/
theorem switches_nodup {build : Build} {pm : Pmap} {es : List Event}
    {st st' : List Frame} (hnd : (switches st).Nodup)
    (hg : Along (stackStep build) (Guard build pm) st es)
    (hrun : runs (stackStep build) st es = .done st') : (switches st').Nodup := by
  refine runs_invariant (I := fun st => (switches st).Nodup) ?_ hnd hg hrun
  intro st e st' hI hge hstep
  cases e with
  | call f args rsp u =>
      cases hstep
      cases hd : direct build (top st) f with
      | true => exact hI
      | false => exact List.nodup_cons.mpr ⟨(hge.2 hd).2, hI⟩
  | ret v u =>
      match st, hI, hstep with
      | ⟨f, false⟩ :: st, hI, rfl => exact hI
      | ⟨f, true⟩ :: st, hI, rfl => exact (List.nodup_cons.mp hI).2

/-- The last return went from activation `a` to the hook invocation that
started `a` (they have the same number), with the value `v`. -/
def ResumedOwn (s : CallState) (a : Activation) (v : UInt64) : Prop :=
  s.resumed = some { act := a.id, hook := a.id, value := v }

/-- The stacks of live activations are different pieces of memory, and the
activation that runs, when it returns, gets back to its own hook with its own
value. -/
def ActivationsKept (build : Build) (pm : Pmap) (s : CallState) : Prop :=
  (s.live.Pairwise fun a b => StacksApart a.fn b.fn) ∧
    ∀ a v u, s.cursor = ⟨some a, 0⟩ →
      step build pm s (.ret v u) ≠ .wild ∧
        ∀ s', step build pm s (.ret v u) = .done s' → ResumedOwn s' a v

theorem Follows.activationsKept {build : Build} {T : Cubicles build} {en₀ : Rights}
    {s : CallState} {st : List Frame} (h : Follows T en₀ s st) (hi : Intact s)
    (hnd : (switches st).Nodup)
    (hmap : ∀ f ∈ switches st, ∀ g ∈ switches st, f ≠ g → StacksApart f g) :
    ActivationsKept build T.pmap s := by
  constructor
  · have hpair : (s.live.map Activation.fn).Pairwise StacksApart := by
      rw [h.live]
      exact hnd.imp_of_mem fun hf hg hne => hmap _ hf _ hg hne
    exact List.pairwise_map.mp hpair
  · intro a v u hc
    refine ⟨step_ne_wild h hi trivial, fun s' hstep => ?_⟩
    cases h.linked.stepCase build T.pmap (.ret v u) with
    | bottom hs =>
        rw [hs] at hstep
        cases hstep
    | directRet hl hs =>
        have hdepth := h.linked
        obtain ⟨d, hd, -⟩ := hdepth
        rw [hc] at hd
        cases hd
    | yield hc' hs =>
        rw [hc] at hc'
        cases hc'
        exact (follows_entryReturn h hc (hs ▸ hstep)).2

/-- **Activations.** As long as no function is switched to while an earlier
switch to it is active, every state of a run keeps its activations apart, and
each of them returns to the hook that started it. -/
theorem activations_kept {build : Build} {alloc : ℕ → ℤ} (ha : PkeyAlloc alloc)
    {files : List String} {lay : ℕ → Placement} {en en' : Rights} {pm : Pmap}
    (hboot : boot build alloc files lay en = .done (pm, en')) (heap : HeapMap)
    (u : UserMem) {es : List Event}
    (hmap : ∀ f g, Called es f → Called es g →
      f.Mapped ∧ (f ≠ g → MappingsApart f g))
    (hg : Along (stackStep build) (Guard build pm) [] es) :
    runs (step build pm) (.init en' heap u) es ≠ .wild ∧
      ∀ s, runs (step build pm) (.init en' heap u) es = .done s →
        ActivationsKept build pm s := by
  obtain ⟨T, rfl, hkeys, hother⟩ := boot_cubicles ha hboot
  have hinit := Follows.init hkeys hother heap u
  have hi := init_intact en' heap u
  refine ⟨run_ne_wild hinit hi hg, fun s hrun => ?_⟩
  obtain ⟨st, hst, h, hi'⟩ := run_intact hinit hi hg hrun
  have hcalled : ∀ f ∈ switches st, Called es f := by
    intro f hf
    obtain ⟨fr, hfr, rfl⟩ := List.mem_map.mp hf
    exact called_of_frame hst fr (List.mem_filter.mp hfr).1
  have hnd : (switches []).Nodup := List.nodup_nil
  refine h.activationsKept hi' (switches_nodup hnd hg hst) ?_
  intro f hf g hg' hne
  obtain ⟨hfm, happ⟩ := hmap f g (hcalled f hf) (hcalled g hg')
  exact stacksApart hfm (hmap g f (hcalled g hg') (hcalled f hf)).1 (happ hne)

/-- Nested calls through three cubicles. -/
theorem activations_kept_nested :
    let es := [sampleCall sampleWrite, sampleCall sampleSend, sampleCall sampleMalloc]
    let pm := samplePmap .plain sampleLayout
    let s₀ := CallState.init (sampleRights .plain sampleLayout) sampleHeap fun _ => 0
    (runs (step .plain pm) s₀ es).isDone = true ∧
      runs (step .plain pm) s₀ es ≠ .wild ∧
      ∀ s, runs (step .plain pm) s₀ es = .done s → ActivationsKept .plain pm s := by
  intro es pm s₀
  have hcalled : ∀ f, Called es f → f ∈ [sampleWrite, sampleSend, sampleMalloc] := by
    rintro f ⟨args, rsp, u, hmem⟩
    simp only [es, sampleCall, List.mem_cons, Event.call.injEq, List.not_mem_nil,
      or_false] at hmem
    rcases hmem with h | h | h <;> simp [h.1]
  have hmap : ∀ f ∈ [sampleWrite, sampleSend, sampleMalloc],
      ∀ g ∈ [sampleWrite, sampleSend, sampleMalloc],
        f.Mapped ∧ (f ≠ g → MappingsApart f g) := by
    unfold Export.Mapped MappingsApart
    decide +kernel
  have hg : Along (stackStep .plain) (Guard .plain pm) [] es := by
    refine ⟨⟨sample_loaded _ (by simp) .vfscore (by simp), fun _ => ⟨by decide, by decide⟩⟩, ?_⟩
    rintro _ ⟨⟩
    refine ⟨⟨sample_loaded _ (by simp) .lwip (by simp), fun _ => ⟨by decide, by decide⟩⟩, ?_⟩
    rintro _ ⟨⟩
    exact ⟨⟨sample_loaded _ (by simp) .ukalloc (by simp), fun _ => ⟨by decide, by decide⟩⟩,
      fun _ _ => trivial⟩
  have h := activations_kept sampleAlloc_pkeyAlloc
    (sampleBoot_eq .plain sampleLayout (sample_starts _ (by simp))) sampleHeap (fun _ => 0)
    (fun f g hf hg => hmap f (hcalled f hf) g (hcalled g hg)) hg
  exact ⟨by decide +kernel, h⟩

/-- `vfs_write`, entered again through lwip: two live activations share one
stack, and the first of them can no longer be returned to. -/
theorem reentry_shares_stack :
    let es := [sampleCall sampleWrite, sampleCall sampleSend, sampleCall sampleWrite]
    let pm := samplePmap .plain sampleLayout
    let s₀ := CallState.init (sampleRights .plain sampleLayout) sampleHeap fun _ => 0
    (∃ s, runs (step .plain pm) s₀ es = .done s ∧ ¬ ActivationsKept .plain pm s) ∧
      runs (step .plain pm) s₀ (es ++ [sampleRet, sampleRet]) = .wild := by
  intro es pm s₀
  refine ⟨?_, rfl⟩
  have hlive : (runs (step .plain pm) s₀ es).bind (fun s => .done s.live) =
      .done [⟨2, sampleWrite⟩, ⟨1, sampleSend⟩, ⟨0, sampleWrite⟩] := by
    decide +kernel
  obtain ⟨s, hs, hlive⟩ := Outcome.bind_eq_done.mp hlive
  refine ⟨s, hs, fun h => ?_⟩
  have hpair := h.1
  rw [Outcome.done.inj hlive, List.pairwise_cons] at hpair
  have hsame : ¬ StacksApart sampleWrite sampleWrite := by
    unfold StacksApart
    decide +kernel
  exact hsame (hpair.1 ⟨0, sampleWrite⟩ (by simp))

/-! ## §4  The thread pointer

Unikraft keeps the pointer to the running thread in the lowest word of the
thread's stack and finds it by rounding the stack pointer down. The hook copies
that word to the stack that it switches to. -/

/-- `STACK_MASK_TOP` of the hooks is an `int` that is extended with its sign. -/
theorem stackMaskTop_int :
    stackMaskTop = (~~~(4096 * 1024 - 1) : Int32).toInt64.toUInt64 := by
  decide

/-- `uk_thread_current` of a Unikraft with stacks of `2 ^ order` pages. -/
def ukThreadCurrent (order : UInt64) (u : UserMem) (sp : UInt64) : UInt64 :=
  u (sp &&& ~~~(4096 * ((1 : UInt64) <<< order) - 1))

/-- The lowest address of the stack that `c` runs on; `first` is that of the
first stack. -/
def Cursor.base (first : UInt64) (c : Cursor) : UInt64 :=
  match c.act with
  | none => first
  | some a => a.fn.coroStack

/-- Strictly inside the stack at `base`. -/
def InStack (base rsp : UInt64) : Prop :=
  base.toNat < rsp.toNat ∧ rsp.toNat < base.toNat + stackSize

/-- The stacks that are in use: the one that runs and those of hooks that wait. -/
def CallState.Uses (s : CallState) (c : Cursor) : Prop :=
  c = s.cursor ∨ ∃ k h, s.hook k = some h ∧ h.back = c

/-- Cubicle code leaves the lowest words of the stacks alone. -/
def Spares (first : UInt64) (s : CallState) (u : UserMem) : Prop :=
  ∀ c, s.Uses c → u (c.base first) = s.memory (c.base first)

/-- Calls are made from inside the stack of the activation that runs. -/
def RunsOnStack (first : UInt64) (s : CallState) : Event → Prop
  | .call f _ rsp u => f.Mapped ∧ InStack (s.cursor.base first) rsp ∧ Spares first s u
  | .ret _ u => Spares first s u

/-- A stack with the thread `w` in its lowest word. -/
def Carries (first w : UInt64) (u : UserMem) (c : Cursor) : Prop :=
  stackSize ∣ (c.base first).toNat ∧ u (c.base first) = w

section ThreadPointer

variable {first w : UInt64}

theorem Export.coroStack_dvd {f : Export} (h : f.Mapped) : stackSize ∣ f.coroStack.toNat := by
  rw [f.coroStack_toNat h]
  exact Nat.dvd_mul_left _ _

/-- Inside a stack the mask leads to its lowest address. -/
theorem and_stackMaskTop {base rsp : UInt64} (hbase : stackSize ∣ base.toNat)
    (h : InStack base rsp) : rsp &&& stackMaskTop = base := by
  have hsize : stackSize = 2 ^ 22 := by decide
  have hmask : rsp &&& stackMaskTop = alignDown rsp 0x400000 := by
    unfold stackMaskTop alignDown
    congr 1
  obtain ⟨hlo, hhi⟩ := h
  rw [hmask, ← UInt64.toNat_inj, alignDown_toNat (k := 22) rfl]
  rw [hsize] at hbase hhi
  rw [show (0x400000 : UInt64).toNat = 2 ^ 22 from rfl]
  unfold pageBase
  omega

theorem Carries.current {u : UserMem} {c : Cursor} (h : Carries first w u c) {rsp : UInt64}
    (hrsp : InStack (c.base first) rsp) : ukThreadCurrent 10 u rsp = w := by
  have hmask : ~~~(4096 * ((1 : UInt64) <<< (10 : UInt64)) - 1) = stackMaskTop := by decide
  unfold ukThreadCurrent
  rw [hmask, and_stackMaskTop h.1 hrsp]
  exact h.2

/-- What code that spares the stacks leaves behind. -/
theorem Carries.spared {s : CallState} {u : UserMem} {c : Cursor}
    (h : Carries first w s.memory c) (hu : Spares first s u) (hc : s.Uses c) :
    Carries first w u c :=
  ⟨h.1, (hu c hc).trans h.2⟩

/-- The hook copies the thread to the stack of its callee and leaves it on the
others. -/
theorem Carries.copied {u : UserMem} {c d : Cursor} {f : Export} {rsp : UInt64}
    (hd : Carries first w u d) (hrsp : InStack (d.base first) rsp) (h : Carries first w u c) :
    Carries first w (Function.update u f.coroStack (u (rsp &&& stackMaskTop))) c := by
  refine ⟨h.1, ?_⟩
  rw [and_stackMaskTop hd.1 hrsp, hd.2]
  by_cases hc : c.base first = f.coroStack
  · rw [hc, Function.update_self]
  · rw [Function.update_of_ne hc, h.2]

/-- What a hooked call does to the stacks. -/
theorem hookedCall_stacks {pm : Pmap} {s s' : CallState} {f : Export} {args : ℕ → UInt64}
    {rsp : UInt64} {u : UserMem} (h : hookedCall pm s f args rsp u = .done s') :
    s'.memory = Function.update u f.coroStack (u (rsp &&& stackMaskTop)) ∧
      s'.cursor = { act := some { id := s.next, fn := f }, depth := 0 } ∧
      ∀ k fr, s'.hook k = some fr → fr.back = s.cursor ∨ s.hook k = some fr := by
  obtain ⟨mon, -, h⟩ := Outcome.bind_eq_done.mp h
  obtain ⟨en, -, h⟩ := Outcome.bind_eq_done.mp h
  obtain ⟨heap, -, h⟩ := Outcome.bind_eq_done.mp h
  obtain ⟨en', -, h⟩ := Outcome.bind_eq_done.mp h
  cases h
  refine ⟨rfl, rfl, fun k fr hk => ?_⟩
  simp only [CallState.startCoro] at hk
  by_cases hnew : k = s.next
  · subst hnew
    rw [Function.update_self] at hk
    cases hk
    exact Or.inl rfl
  · rw [Function.update_of_ne hnew] at hk
    exact Or.inr (Option.filter_eq_some_iff.mp hk).1

/-- A return goes to a hook that waited. -/
theorem entryReturn_stacks {pm : Pmap} {s s' : CallState} {a : Activation} {v : UInt64}
    {u : UserMem} (h : entryReturn pm s a v u = .done s') :
    s'.memory = u ∧ s'.hook = s.hook ∧ ∃ k fr, s.hook k = some fr ∧ s'.cursor = fr.back := by
  unfold entryReturn at h
  split at h
  · cases h
  · split at h
    · cases h
    · obtain ⟨en, -, h⟩ := Outcome.bind_eq_done.mp h
      split at h
      · cases h
      · split at h
        · unfold resumeHook at h
          split at h
          · cases h
          · rename_i j fr hfr
            obtain ⟨en', -, h⟩ := Outcome.bind_eq_done.mp h
            obtain ⟨heap, -, h⟩ := Outcome.bind_eq_done.mp h
            cases h
            exact ⟨rfl, rfl, _, fr, hfr, rfl⟩
        · cases h

/-- Every step keeps the thread on every stack in use. -/
theorem step_carries {build : Build} {pm : Pmap} {s s' : CallState} {e : Event}
    (hI : ∀ c, s.Uses c → Carries first w s.memory c) (he : RunsOnStack first s e)
    (h : step build pm s e = .done s') : ∀ c, s'.Uses c → Carries first w s'.memory c := by
  cases e with
  | call f args rsp u =>
      obtain ⟨hf, hrsp, hu⟩ := he
      have hleft : ∀ c, s.Uses c → Carries first w u c := fun c hc => (hI c hc).spared hu hc
      unfold step at h
      dsimp only at h
      split at h
      · -- the callee runs on the same stack
        cases h
        rintro c (rfl | hc)
        · exact hleft s.cursor (Or.inl rfl)
        · exact hleft c (Or.inr hc)
      · obtain ⟨hmem, hcur, hhook⟩ := hookedCall_stacks h
        have hcaller := hleft s.cursor (Or.inl rfl)
        rw [hmem]
        rintro c (rfl | ⟨k, fr, hk, rfl⟩)
        · rw [hcur]
          refine ⟨f.coroStack_dvd hf, ?_⟩
          show Function.update u f.coroStack _ f.coroStack = w
          rw [Function.update_self, and_stackMaskTop hcaller.1 hrsp, hcaller.2]
        · refine hcaller.copied hrsp ?_
          rcases hhook k fr hk with hback | hold
          · rw [hback]
            exact hcaller
          · exact hleft _ (Or.inr ⟨k, fr, hold, rfl⟩)
  | ret v u =>
      have hleft : ∀ c, s.Uses c → Carries first w u c := fun c hc => (hI c hc).spared he hc
      unfold step at h
      dsimp only at h
      split at h
      · rename_i act d hcur
        cases h
        rintro c (rfl | hc)
        · have hsame := hleft s.cursor (Or.inl rfl)
          rw [hcur] at hsame
          exact hsame
        · exact hleft c (Or.inr hc)
      · cases h
      · obtain ⟨hmem, hhook, k, fr, hk, hcur⟩ := entryReturn_stacks h
        rw [hmem]
        rintro c (rfl | ⟨j, fr', hj, rfl⟩)
        · rw [hcur]
          exact hleft _ (Or.inr ⟨k, fr, hk, rfl⟩)
        · rw [hhook] at hj
          exact hleft _ (Or.inr ⟨j, fr', hj, rfl⟩)

end ThreadPointer

/-- **Stacks carry the thread.** The stack of a coroutine is aligned and lies
inside the mapping that was registered for it. Along every sequence of calls and
returns, with each call made from inside the stack of the activation that runs,
the thread that is found there is the one of the first stack. -/
theorem stacks_carry_thread :
    (∀ f : Export, 4096 ∣ f.stack.toNat → f.Mapped →
      stackSize ∣ f.coroStack.toNat ∧ f.stack.toNat ≤ f.coroStack.toNat ∧
        f.coroStack.toNat + stackSize ≤ f.stack.toNat + 2 * stackSize) ∧
    ∀ (build : Build) (pm : Pmap) (en : Rights) (heap : HeapMap) (u : UserMem)
      (first : UInt64) (es : List Event) (s : CallState), stackSize ∣ first.toNat →
      Along (step build pm) (RunsOnStack first) (.init en heap u) es →
      runs (step build pm) (.init en heap u) es = .done s →
      ∀ rsp, InStack (s.cursor.base first) rsp →
        s.memory (rsp &&& stackMaskTop) = u first ∧
          ukThreadCurrent 10 s.memory rsp = u first := by
  constructor
  · intro f _ hf
    obtain ⟨hlo, hhi⟩ := f.coroStack_inside hf
    exact ⟨f.coroStack_dvd hf, Nat.le_of_lt hlo, hhi⟩
  · intro build pm en heap u first es s hfirst hes hrun rsp hrsp
    have hinit : ∀ c, (CallState.init en heap u).Uses c → Carries first (u first) u c := by
      rintro c (rfl | ⟨k, fr, hk, -⟩)
      · exact ⟨hfirst, rfl⟩
      · cases hk
    have hcarries := runs_invariant
      (I := fun s => ∀ c, s.Uses c → Carries first (u first) s.memory c)
      (fun _ _ _ => step_carries) hinit hes hrun s.cursor (Or.inl rfl)
    refine ⟨?_, hcarries.current hrsp⟩
    rw [and_stackMaskTop hcarries.1 hrsp]
    exact hcarries.2

/-- Memory that holds 7 at these addresses and zero elsewhere. -/
def sevenAt (as : List UInt64) : UserMem := fun a => if a ∈ as then 7 else 0

/-- The first stack lies at `0x400000` and belongs to thread 7; the other stacks
hold zero. `vfs_write` is called from there, and `send` from the stack of
`vfs_write`; inside `send` the thread is 7. -/
theorem nested_calls_carry_thread :
    let es := [Event.call sampleWrite (fun _ => 0) 0x7ff000 (sevenAt [0x400000]),
      Event.call sampleSend (fun _ => 0) 0x107ff000 (sevenAt [0x400000, 0x10400000])]
    let pm := samplePmap .plain sampleLayout
    let s₀ := CallState.init (sampleRights .plain sampleLayout) sampleHeap (sevenAt [0x400000])
    (runs (step .plain pm) s₀ es).isDone = true ∧
      ∀ s, runs (step .plain pm) s₀ es = .done s → s.cursor.base 0x400000 = 0x12400000 ∧
        ukThreadCurrent 10 s.memory 0x12400008 = 7 := by
  intro es pm s₀
  have hcursor : (runs (step .plain pm) s₀ es).bind (fun s => .done s.cursor) =
      .done { act := some { id := 1, fn := sampleSend }, depth := 0 } := by
    decide +kernel
  have hes : Along (step .plain pm) (RunsOnStack 0x400000) s₀ es := by
    refine ⟨⟨by unfold Export.Mapped; decide, ⟨by decide, by decide⟩, fun _ _ => rfl⟩, ?_⟩
    intro s₁ h₁
    unfold step at h₁
    dsimp only at h₁
    rw [if_neg (by decide +kernel)] at h₁
    obtain ⟨hmem, hcur, -⟩ := hookedCall_stacks h₁
    refine ⟨⟨by unfold Export.Mapped; decide, ?_, ?_⟩, fun _ _ => trivial⟩
    · rw [hcur]
      exact ⟨by decide, by decide⟩
    · -- the hook has copied the thread to the stack of `vfs_write`
      intro c _
      have hcopied : Function.update (sevenAt [0x400000]) 0x10400000 7 =
          sevenAt [0x400000, 0x10400000] := by
        funext a
        unfold sevenAt
        rw [Function.update_apply]
        split
        · simp_all
        · simp_all
      rw [hmem]
      exact congrFun hcopied.symm _
  refine ⟨by decide +kernel, fun s hs => ?_⟩
  rw [hs] at hcursor
  have hbase : s.cursor.base 0x400000 = 0x12400000 := by
    rw [Outcome.done.inj hcursor]
    decide
  refine ⟨hbase, ?_⟩
  have hrsp : InStack (s.cursor.base 0x400000) 0x12400008 := by
    rw [hbase]
    exact ⟨by decide, by decide⟩
  exact (stacks_carry_thread.2 .plain pm _ sampleHeap (sevenAt [0x400000]) 0x400000 es s
    (by decide) hes hs _ hrsp).2

end CubicleOS
