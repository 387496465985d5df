import CubicleOS.Calls.Wraps

/-!
# The hooked call and its coroutine

`hooked_<name>` and `_<name>_entry_point`, together with `coro_resume` and
`coro_yield`. Cubicle code is not modelled: it acts through two events, a call
of an exported function and a return. Everything between two events is the
generated code, which runs partly on the caller's stack (the hook) and partly
on the stack of the callee's coroutine (the entry point).

Each exported function has one coroutine object and one stack. What lies on a
stack is lost when the function's entry point is started on it again, so the
frames kept there, the entry point's own and those of hooks called from that
stack, are modelled explicitly.
-/

namespace CubicleOS

open Foundation

/-! ## §1  `layer` and `prev_module` -/

structure Mon where
  layer : ℕ
  prevModule : ℕ → Modules

namespace Mon

/-- Length of `prev_module`. -/
def size : ℕ := 16

/-- `prev_module[layer]`. -/
def current (m : Mon) : Modules := m.prevModule m.layer

/-- `prev_module[layer-1]`. -/
def below (m : Mon) : Modules := m.prevModule (m.layer - 1)

/-- `layer++; prev_module[layer] = c`. -/
def enter (m : Mon) (c : Modules) : Outcome Mon :=
  if m.layer + 1 < size then
    .done { layer := m.layer + 1
            prevModule := Function.update m.prevModule (m.layer + 1) c }
  else .wild

theorem enter_done {m m' : Mon} {c : Modules} (h : m.enter c = .done m') :
    m'.current = c ∧ m'.below = m.current := by
  unfold enter at h
  split at h
  · cases h
    refine ⟨Function.update_self _ _ _, ?_⟩
    exact Function.update_of_ne (Nat.ne_of_lt (Nat.lt_succ_self m.layer)) _ _
  · cases h

/-- `layer--`. -/
def leave (m : Mon) : Mon := { m with layer := m.layer - 1 }

/-- Above the state `m₀` the monitor has recorded the cubicles `cs`, innermost
first. -/
def Stacked (m₀ : Mon) : List Modules → Mon → Prop
  | [], m => m.layer = m₀.layer ∧ ∀ i ≤ m₀.layer, m.prevModule i = m₀.prevModule i
  | c :: cs, m => 0 < m.layer ∧ m.current = c ∧ Stacked m₀ cs m.leave

theorem Stacked.congr {m₀ : Mon} : ∀ {cs : List Modules} {m m' : Mon},
    m'.layer = m.layer → (∀ i ≤ m.layer, m'.prevModule i = m.prevModule i) →
      Stacked m₀ cs m → Stacked m₀ cs m'
  | [], m, m', hl, hp, h => by
      refine ⟨hl.trans h.1, fun i hi => ?_⟩
      rw [hp i (by rw [h.1]; exact hi), h.2 i hi]
  | c :: cs, m, m', hl, hp, h => by
      refine ⟨hl ▸ h.1, ?_, ?_⟩
      · rw [current, hl, hp _ le_rfl]
        exact h.2.1
      · refine Stacked.congr (m := m.leave) ?_ ?_ h.2.2
        · show m'.layer - 1 = m.layer - 1
          rw [hl]
        · intro i hi
          exact hp i (hi.trans (Nat.sub_le _ _))

theorem Stacked.layer {m₀ : Mon} : ∀ {cs : List Modules} {m : Mon},
    Stacked m₀ cs m → m.layer = m₀.layer + cs.length
  | [], _, h => h.1
  | c :: cs, m, h => by
      have ih := Stacked.layer h.2.2
      have hleave : m.leave.layer = m.layer - 1 := rfl
      have hpos := h.1
      simp only [List.length_cons]
      omega

theorem Stacked.enter {m₀ m m' : Mon} {cs : List Modules} {c : Modules}
    (h : Stacked m₀ cs m) (he : m.enter c = .done m') :
    Stacked m₀ (c :: cs) m' := by
  unfold Mon.enter at he
  split at he
  · cases he
    refine ⟨Nat.succ_pos _, Function.update_self _ _ _, ?_⟩
    refine Stacked.congr (m := m) rfl (fun i hi => ?_) h
    have hne : i ≠ m.layer + 1 := by omega
    exact Function.update_of_ne hne _ _
  · cases he

theorem Stacked.current {m₀ m : Mon} {c : Modules} {cs : List Modules}
    (h : Stacked m₀ (c :: cs) m) : m.current = c := h.2.1

theorem Stacked.leave {m₀ m : Mon} {c : Modules} {cs : List Modules}
    (h : Stacked m₀ (c :: cs) m) : Stacked m₀ cs m.leave := h.2.2

theorem Stacked.head {m₀ m : Mon} {cs : List Modules} (h : Stacked m₀ cs m) :
    m.current = cs.headD m₀.current := by
  cases cs with
  | nil =>
      obtain ⟨hl, hp⟩ := h
      rw [Mon.current, hl, hp _ le_rfl]
      rfl
  | cons c cs => exact h.current

/-- Two states over the same cubicles agree on everything in use. -/
theorem Stacked.agree {m₀ : Mon} : ∀ {cs : List Modules} {m m' : Mon},
    Stacked m₀ cs m → Stacked m₀ cs m' →
      m'.layer = m.layer ∧ ∀ i ≤ m.layer, m'.prevModule i = m.prevModule i
  | [], m, m', h, h' => by
      refine ⟨h'.1.trans h.1.symm, fun i hi => ?_⟩
      have hi' : i ≤ m₀.layer := h.1 ▸ hi
      rw [h'.2 i hi', h.2 i hi']
  | c :: cs, m, m', h, h' => by
      obtain ⟨hl, hp⟩ := Stacked.agree h.leave h'.leave
      have hpos := h.1
      have hpos' := h'.1
      have hlayer : m'.layer = m.layer := by
        have hl' : m'.layer - 1 = m.layer - 1 := hl
        omega
      refine ⟨hlayer, fun i hi => ?_⟩
      rcases Nat.lt_or_eq_of_le hi with hlt | rfl
      · exact hp i (Nat.le_sub_one_of_lt hlt)
      · have hcur : m'.current = m.current := h'.current.trans h.current.symm
        unfold Mon.current at hcur
        rwa [hlayer] at hcur

end Mon

/-! ## §2  Coroutines -/

inductive CoroState where
  | new | running | finished
deriving DecidableEq, Repr

/-- A saved `ucontext_t`: where execution goes on when it is restored. -/
inductive Context where
  /-- Never written. -/
  | unset
  /-- Made by `makecontext`: the entry point of `fn`. -/
  | entry (fn : Export)
  /-- In `coro_resume`, called by hook invocation `k`. -/
  | hook (k : ℕ)
  /-- In `coro_yield`, called by activation `k`. -/
  | yielded (k : ℕ)
deriving DecidableEq, Repr

/-- `coro_t`. The pointer `thread` is the number of the hook invocation whose
local variable `t` it points to. -/
structure Coro where
  state : CoroState := .new
  thread : Option ℕ := none
  context : Context := .unset
  yieldValue : UInt64 := 0

/-- `thread_t`. -/
structure Thread where
  callee : Context := .unset
  caller : Context := .unset

/-- One run of an entry point. -/
structure Activation where
  id : ℕ
  fn : Export
deriving DecidableEq, Repr

/-- Where cubicle code runs: on the stack of an activation, or on the first
stack, below `depth` calls that did not switch. -/
structure Cursor where
  act : Option Activation
  depth : ℕ
deriving DecidableEq, Repr

/-- The frame of `_<fn>_entry_point`, at the far end of the stack of `fn`. -/
structure EntryFrame where
  act : ℕ
  prev : ℤ

/-- The frame of `hooked_<fn>`, on the stack of the code that called it. -/
structure HookFrame where
  fn : Export
  args : ℕ → UInt64
  callee : ℤ
  back : Cursor

/-- A hook that went on after `coro_resume`, and the value it got. -/
structure Resume where
  act : ℕ
  hook : ℕ
  value : UInt64
deriving DecidableEq, Repr

structure CallState where
  mon : Mon
  enabled : Rights
  heap : HeapMap
  memory : UserMem
  coro : Export → Coro
  thread : ℕ → Thread
  entry : Export → Option EntryFrame
  hook : ℕ → Option HookFrame
  /-- Number of the next hook invocation. -/
  next : ℕ
  cursor : Cursor
  /-- Activations that have not yielded yet. -/
  live : List Activation
  /-- The switch that the last return made, if it made one. -/
  resumed : Option Resume

/-- What cubicle code does, and the memory it has left when it does it. -/
inductive Event where
  | call (f : Export) (args : ℕ → UInt64) (rsp : UInt64) (u : UserMem)
  | ret (v : UInt64) (u : UserMem)

/-! ## §3  The generated code -/

/-- `get_hook`: functions whose hook returns on the spot. -/
def getHook (f : Export) : Bool :=
  decide (f.lib = .linuxuplat ∧
    (f.name = "ukplat_lcpu_restore_irqf" ∨ f.name = "ukplat_lcpu_save_irqf")) ||
  decide (f.lib = .posixLibdl ∧ (f.name = "dlsym2" ∨ f.name = "dlopen2"))

/-- The hook of `f`, called while `cur` runs, does not switch. -/
def direct (build : Build) (cur : Modules) (f : Export) : Bool :=
  getHook f || friends build cur f.module

/-- `{name}_coro->stack`: the first 4 MiB boundary inside the mapping. -/
def Export.coroStack (f : Export) : UInt64 := ((f.stack >>> 22) + 1) <<< 22

/-- `STACK_MASK_TOP`. -/
def stackMaskTop : UInt64 := ~~~(4096 * 1024 - 1)

/-- Starting `f` on its stack loses the hook frames that lie there. -/
def loseFrames (f : Export) (hook : ℕ → Option HookFrame) : ℕ → Option HookFrame :=
  fun k => (hook k).filter fun h => h.back.act.map Activation.fn ≠ some f

/-- From `thread_t t` in the hook to the call of `fptr` in the entry point, as
far as coroutines are concerned: `coro_resume` finds the state `CORO_NEW`. -/
def CallState.startCoro (s : CallState) (f : Export) (args : ℕ → UInt64)
    (callee prev : ℤ) : CallState :=
  { s with
    coro := Function.update s.coro f
      { (s.coro f) with state := .running, thread := some s.next, context := .entry f }
    thread := Function.update s.thread s.next { caller := .hook s.next }
    entry := Function.update s.entry f (some { act := s.next, prev := prev })
    hook := Function.update (loseFrames f s.hook) s.next
      (some { fn := f, args := args, callee := callee, back := s.cursor })
    next := s.next + 1
    cursor := { act := some { id := s.next, fn := f }, depth := 0 }
    live := { id := s.next, fn := f } :: s.live
    resumed := none }

/-- `hooked_<f>` on its long path, up to the first instruction of `f`. -/
def hookedCall (pm : Pmap) (s : CallState) (f : Export) (args : ℕ → UInt64)
    (rsp : UInt64) (u : UserMem) : Outcome CallState :=
  (s.mon.enter f.module).bind fun mon =>
    let callee := remap pm mon.current
    (cmpUnlock pm callee s.enabled).bind fun en =>
      let memory := Function.update u f.coroStack (u (rsp &&& stackMaskTop))
      ((runOps pm (genPreWrap f callee args memory)).toStep s.heap).bind fun heap =>
        -- from here on the entry point runs, on the stack of `f`
        let prev := remap pm mon.below
        (cmpLock pm prev en).bind fun en =>
          .done { s.startCoro f args callee prev with
            mon := mon
            enabled := en
            heap := heap
            memory := memory }

/-- `coro->state = CORO_FINISHED` and `coro_yield`, up to the restored
context. -/
def CallState.finish (s : CallState) (a : Activation) (v : UInt64) (t : ℕ) :
    CallState :=
  { s with
    coro := Function.update s.coro a.fn
      { (s.coro a.fn) with state := .finished, yieldValue := v }
    thread := Function.update s.thread t
      { (s.thread t) with callee := .yielded a.id } }

/-- Invocation `j` of a hook after `coro_resume`: the rest of `coro_resume`,
then `cmp_lock`, the post-wrap and `layer--`. -/
def resumeHook (pm : Pmap) (s : CallState) (a : Activation) (j : ℕ) :
    Outcome CallState :=
  match s.hook j with
  | none => .wild
  | some h =>
      let t := (s.coro h.fn).thread.getD j
      let ret := (s.coro h.fn).yieldValue
      (cmpLock pm h.callee s.enabled).bind fun en =>
        ((runOps pm (genPostWrap h.fn (remap pm s.mon.below) h.args ret
          s.memory)).toStep s.heap).bind fun heap =>
          .done { s with
            mon := s.mon.leave
            enabled := en
            heap := heap
            coro := Function.update s.coro h.fn
              { (s.coro h.fn) with context := (s.thread t).callee }
            thread := Function.update s.thread t
              { (s.thread t) with caller := .unset }
            cursor := h.back
            live := s.live.filter (·.id ≠ a.id)
            resumed := some { act := a.id, hook := j, value := ret } }

/-- Function `f` of activation `a` returns `v` to the entry point. A frame
that was overwritten, or a context that is not a hook's, leads nowhere. -/
def entryReturn (pm : Pmap) (s : CallState) (a : Activation) (v : UInt64)
    (u : UserMem) : Outcome CallState :=
  match s.entry a.fn with
  | none => .wild
  | some fr =>
      if fr.act ≠ a.id then .wild
      else
        (cmpUnlock pm fr.prev s.enabled).bind fun en =>
          match (s.coro a.fn).thread with
          | none => .wild
          | some t =>
              match (s.thread t).caller with
              | .hook j =>
                  resumeHook pm
                    { s.finish a v t with enabled := en, memory := u } a j
              | _ => .wild

/-- One event. The return of the code that `main` started ends the program. -/
def step (build : Build) (pm : Pmap) (s : CallState) : Event → Outcome CallState
  | .call f args rsp u =>
      if direct build s.mon.current f then
        .done { s with
          memory := u
          cursor := { s.cursor with depth := s.cursor.depth + 1 }
          resumed := none }
      else hookedCall pm s f args rsp u
  | .ret v u =>
      match s.cursor with
      | ⟨act, d + 1⟩ =>
          .done { s with
            memory := u
            cursor := { act := act, depth := d }
            resumed := none }
      | ⟨none, 0⟩ => .spin
      | ⟨some a, 0⟩ => entryReturn pm s a v u

/-- `layer` and `prev_module` after `create_cubicles`. -/
def Mon.init : Mon := { layer := 0, prevModule := fun _ => .linuxuplat }

/-- The state in which `main` calls the platform's entry point. -/
def CallState.init (en : Rights) (heap : HeapMap) (u : UserMem) : CallState where
  mon := Mon.init
  enabled := en
  heap := heap
  memory := u
  coro := fun _ => {}
  thread := fun _ => {}
  entry := fun _ => none
  hook := fun _ => none
  next := 0
  cursor := { act := none, depth := 0 }
  live := []
  resumed := none

/-! ## §4  Call stacks

What the protocol is for: a stack of calls, some of which switch. -/

structure Frame where
  fn : Export
  switched : Bool
deriving DecidableEq, Repr

/-- The switched calls, innermost first. -/
def switches (st : List Frame) : List Export :=
  (st.filter Frame.switched).map Frame.fn

/-- The cubicles they switched to. -/
def cubicles (st : List Frame) : List Modules := (switches st).map Export.module

/-- The cubicle that runs. -/
def top (st : List Frame) : Modules := (cubicles st).headD .linuxuplat

def stackStep (build : Build) (st : List Frame) : Event → Outcome (List Frame)
  | .call f _ _ _ => .done ({ fn := f, switched := !direct build (top st) f } :: st)
  | .ret _ _ =>
      match st with
      | [] => .spin
      | _ :: st => .done st

def Event.isCall : Event → Prop
  | .call _ _ _ _ => True
  | .ret _ _ => False

def Event.isRet : Event → Prop
  | .call _ _ _ _ => False
  | .ret _ _ => True

theorem stackStep_stackLike (build : Build) :
    StackLike (stackStep build) Event.isCall Event.isRet where
  push := by
    rintro st st' (_ | _) hopen h
    · cases h
      exact ⟨_, rfl⟩
    · exact hopen.elim
  pop := by
    rintro st st' (_ | _) hclose h
    · exact hclose.elim
    · cases st with
      | nil => cases h
      | cons f st =>
          cases h
          exact ⟨f, rfl⟩

/-- `prev_module[layer]` is the cubicle that runs. -/
theorem stacked_top {st : List Frame} {m : Mon}
    (h : Mon.Stacked Mon.init (cubicles st) m) : m.current = top st :=
  h.head

end CubicleOS
