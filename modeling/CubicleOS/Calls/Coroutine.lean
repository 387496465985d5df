import CubicleOS.Calls.Protocol

/-!
# Hooked calls follow a call stack

The state of the protocol is related to a stack of calls: `prev_module` lists
the cubicles of its switched calls, the enabled keys are those of the
innermost one, and the frames and contexts lead from each activation back to
the hook that started it. `step_follows` shows that every step that goes
through keeps this; it needs no assumption on re-entry, because a step into an
overwritten frame does not go through. `step_ne_wild` shows that without
re-entry no step ends that way.
-/

namespace CubicleOS

open Foundation

section Protocol

variable {build : Build} (T : Cubicles build)

/-! ## §1  Keys -/

/-- The cubicle keys that are enabled are those of `m`; the other keys are as
in `en₀`. -/
structure OnlyKey (en₀ : Rights) (m : Modules) (en : Rights) : Prop where
  cubicle : ∀ c, Loaded T.pmap c →
    en (keyOf T.pmap c) = decide (keyOf T.pmap c = keyOf T.pmap m)
  other : ∀ k, ¬ T.cubicleKey k → en k = en₀ k

variable {T}

/-- Giving `b` its key and taking `a`'s away, in this order. A call does it
with the callee as `b`, a return with the caller. -/
theorem OnlyKey.switch {en₀ en : Rights} {a b : Modules} (ha : Loaded T.pmap a)
    (hb : Loaded T.pmap b) (hne : keyOf T.pmap a ≠ keyOf T.pmap b)
    (h : OnlyKey T en₀ a en) :
    OnlyKey T en₀ b (Function.update (Function.update en (keyOf T.pmap b) true)
      (keyOf T.pmap a) false) := by
  constructor
  · intro c hc
    by_cases hca : keyOf T.pmap c = keyOf T.pmap a
    · rw [hca, Function.update_self]
      simp [hne]
    · rw [Function.update_of_ne hca]
      by_cases hcb : keyOf T.pmap c = keyOf T.pmap b
      · rw [hcb, Function.update_self]
        simp
      · rw [Function.update_of_ne hcb, h.cubicle c hc]
        simp [hca, hcb]
  · intro k hk
    have hka : k ≠ keyOf T.pmap a := fun heq => hk ⟨a, ha, heq.symm⟩
    have hkb : k ≠ keyOf T.pmap b := fun heq => hk ⟨b, hb, heq.symm⟩
    rw [Function.update_of_ne hka, Function.update_of_ne hkb]
    exact h.other k hk

/-- Rights over the same cubicle are the same rights. -/
theorem OnlyKey.agree {en₀ en en' : Rights} {m : Modules}
    (h : OnlyKey T en₀ m en) (h' : OnlyKey T en₀ m en') : en' = en := by
  funext k
  by_cases hk : T.cubicleKey k
  · obtain ⟨c, hc, rfl⟩ := hk
    rw [h.cubicle c hc, h'.cubicle c hc]
  · rw [h.other k hk, h'.other k hk]

/-- A call that switches goes to a cubicle with another key. -/
theorem key_ne_of_not_direct {a : Modules} {f : Export} (ha : Loaded T.pmap a)
    (hf : Loaded T.pmap f.module) (h : direct build a f = false) :
    keyOf T.pmap a ≠ keyOf T.pmap f.module := by
  intro heq
  have hfr := (T.key_eq_iff a f.module ha hf).mp heq
  unfold direct at h
  rw [hfr, Bool.or_true] at h
  cases h

/-! ## §2  Frames -/

/-- From cursor `c` the frames lead back along the stack: each live activation
has its hook as the context to yield to, its coroutine (if its entry frame is
still there) points to the hook's `t`, and its hook frame (if it still has one)
goes on where the call was made. -/
def Linked (s : CallState) : List Activation → Cursor → List Frame → Prop
  | live, c, [] => live = [] ∧ c = ⟨none, 0⟩
  | live, c, ⟨_, false⟩ :: st =>
      ∃ d, c.depth = d + 1 ∧ Linked s live ⟨c.act, d⟩ st
  | live, c, ⟨f, true⟩ :: st =>
      ∃ a rest, live = a :: rest ∧ a.fn = f ∧ c = ⟨some a, 0⟩ ∧
        (s.thread a.id).caller = .hook a.id ∧
        (∀ e, s.entry f = some e → e.act = a.id → (s.coro f).thread = some a.id) ∧
        ∀ h, s.hook a.id = some h → h.fn = f ∧ Linked s rest h.back st

/-- Nothing that the live activations need is changed between `s` and `s'`,
though frames may be lost. -/
structure Keeps (live : List Activation) (s s' : CallState) : Prop where
  thread : ∀ a ∈ live, s'.thread a.id = s.thread a.id
  hook : ∀ a ∈ live, ∀ h, s'.hook a.id = some h → s.hook a.id = some h
  entry : ∀ a ∈ live, ∀ f e, s'.entry f = some e → e.act = a.id →
    s.entry f = some e ∧ (s'.coro f).thread = (s.coro f).thread

theorem Keeps.tail {a : Activation} {live : List Activation} {s s' : CallState}
    (h : Keeps (a :: live) s s') : Keeps live s s' where
  thread b hb := h.thread b (List.mem_cons_of_mem a hb)
  hook b hb := h.hook b (List.mem_cons_of_mem a hb)
  entry b hb := h.entry b (List.mem_cons_of_mem a hb)

theorem Linked.frame {s s' : CallState} :
    ∀ {st : List Frame} {live : List Activation} {c : Cursor},
      Keeps live s s' → Linked s live c st → Linked s' live c st
  | [], _, _, _, h => h
  | ⟨_, false⟩ :: st, _, _, hk, h => by
      obtain ⟨d, hd, h⟩ := h
      exact ⟨d, hd, Linked.frame hk h⟩
  | ⟨f, true⟩ :: st, live, c, hk, h => by
      obtain ⟨a, rest, rfl, hfn, hc, hcaller, hentry, hhook⟩ := h
      refine ⟨a, rest, rfl, hfn, hc, ?_, ?_, ?_⟩
      · rw [hk.thread a List.mem_cons_self]
        exact hcaller
      · intro e he hact
        obtain ⟨he', hcoro⟩ := hk.entry a List.mem_cons_self f e he hact
        rw [hcoro]
        exact hentry e he' hact
      · intro h hs
        obtain ⟨h1, h2⟩ := hhook h (hk.hook a List.mem_cons_self h hs)
        exact ⟨h1, Linked.frame hk.tail h2⟩

/-- The running code's stack is that of the innermost switched call. -/
theorem Linked.act {s : CallState} :
    ∀ {st : List Frame} {live : List Activation} {c : Cursor},
      Linked s live c st → c.act = live.head? ∧
        c.act.map Activation.fn = (switches st).head?
  | [], _, _, ⟨hl, hc⟩ => by
      subst hl hc
      exact ⟨rfl, rfl⟩
  | ⟨_, false⟩ :: st, _, _, ⟨_, _, h⟩ => by
      have ih := Linked.act h
      exact ih
  | ⟨f, true⟩ :: st, _, _, ⟨a, rest, hl, hfn, hc, _⟩ => by
      subst hl hc hfn
      exact ⟨rfl, rfl⟩

/-- What the frames of the live activations hold: the entry frame the cubicle
below, to be unlocked, and the hook frame the one to be locked. -/
def Saved (pm : Pmap) (s : CallState) : List Activation → List Frame → Prop
  | _, [] => True
  | live, ⟨_, false⟩ :: st => Saved pm s live st
  | live, ⟨f, true⟩ :: st =>
      (∀ a ∈ live.head?,
        (∀ e, s.entry f = some e → e.act = a.id → e.prev = remap pm (top st)) ∧
        ∀ h, s.hook a.id = some h → h.callee = remap pm f.module) ∧
      Saved pm s live.tail st

theorem Saved.frame {pm : Pmap} {s s' : CallState} {st : List Frame}
    {live : List Activation} (hk : Keeps live s s') (h : Saved pm s live st) :
    Saved pm s' live st := by
  induction st generalizing live with
  | nil => trivial
  | cons fr st ih =>
      obtain ⟨f, switched⟩ := fr
      cases switched with
      | false => exact ih hk h
      | true =>
          cases live with
          | nil => exact ⟨by simp, ih hk h.2⟩
          | cons a live =>
              obtain ⟨hentry, hhook⟩ := h.1 a rfl
              refine ⟨?_, ih hk.tail h.2⟩
              rintro b ⟨⟩
              refine ⟨fun e he hact => ?_, fun h hh => ?_⟩
              · exact hentry e (hk.entry a List.mem_cons_self f e he hact).1 hact
              · exact hhook h (hk.hook a List.mem_cons_self h hh)

/-! ## §3  The relation -/

/-- Code at cursor `c` is below the calls `st`, all made since the monitor's
record was `m₀`. Nothing is said here about keys. -/
structure Tracks (m₀ : Mon) (s : CallState) (live : List Activation) (c : Cursor)
    (st : List Frame) : Prop where
  stacked : Mon.Stacked m₀ (cubicles st) s.mon
  linked : Linked s live c st
  older : live.Pairwise fun a b => b.id < a.id
  used : ∀ a ∈ live, a.id < s.next

/-- Every switched call changed the key. -/
def Apart (T : Cubicles build) : List Frame → Prop
  | [] => True
  | fr :: st =>
      (fr.switched = true → keyOf T.pmap fr.fn.module ≠ keyOf T.pmap (top st)) ∧
        Apart T st

theorem loaded_top {st : List Frame}
    (h : ∀ f ∈ switches st, Loaded T.pmap f.module) : Loaded T.pmap (top st) := by
  unfold top cubicles
  cases hs : switches st with
  | nil => exact T.platform
  | cons f fs =>
      rw [hs] at h
      exact h f List.mem_cons_self

structure Follows (T : Cubicles build) (en₀ : Rights) (s : CallState)
    (st : List Frame) : Prop extends Tracks Mon.init s s.live s.cursor st where
  live : s.live.map Activation.fn = switches st
  loaded : ∀ f ∈ switches st, Loaded T.pmap f.module
  apart : Apart T st
  keys : OnlyKey T en₀ (top st) s.enabled
  saved : Saved T.pmap s s.live st

namespace Follows

variable {en₀ : Rights} {s s' : CallState} {st : List Frame}

theorem current (h : Follows T en₀ s st) : s.mon.current = top st :=
  stacked_top h.stacked

theorem init {en : Rights}
    (h : ∀ m, Loaded T.pmap m → en (keyOf T.pmap m) =
      decide (keyOf T.pmap m = keyOf T.pmap .linuxuplat))
    (hother : ∀ k, ¬ T.cubicleKey k → en k = en₀ k) (heap : HeapMap) (u : UserMem) :
    Follows T en₀ (CallState.init en heap u) [] where
  stacked := ⟨rfl, fun _ _ => rfl⟩
  linked := ⟨rfl, rfl⟩
  older := List.Pairwise.nil
  used := by simp [CallState.init]
  live := rfl
  loaded := by simp [switches]
  apart := trivial
  keys := ⟨h, hother⟩
  saved := trivial

end Follows

/-! ## §4  Direct calls

A call that does not switch, and its return, move the cursor only. -/

/-- The state after such a step. -/
def CallState.moved (s : CallState) (c : Cursor) (u : UserMem) : CallState :=
  { s with memory := u, cursor := c, resumed := none }

theorem keeps_moved (live : List Activation) (s : CallState) (c : Cursor)
    (u : UserMem) : Keeps live s (s.moved c u) where
  thread _ _ := rfl
  hook _ _ _ := id
  entry _ _ _ _ he _ := ⟨he, rfl⟩

/-- Steps that neither call nor return across cubicles. -/
theorem Tracks.frame {m₀ : Mon} {s s' : CallState} {live : List Activation}
    {c c' : Cursor} {st st' : List Frame} (h : Tracks m₀ s live c st)
    (hk : Keeps live s s') (hmon : s'.mon = s.mon) (hnext : s'.next = s.next)
    (hsw : switches st' = switches st) (hl : Linked s live c' st') :
    Tracks m₀ s' live c' st' where
  stacked := by
    unfold cubicles
    rw [hsw, hmon]
    exact h.stacked
  linked := hl.frame hk
  older := h.older
  used := by
    rw [hnext]
    exact h.used

theorem Follows.move {en₀ : Rights} {s : CallState} {st st' : List Frame} {c : Cursor}
    {u : UserMem} (h : Follows T en₀ s st) (hsw : switches st' = switches st)
    (hap : Apart T st') (hl : Linked s s.live c st')
    (hs : Saved T.pmap s s.live st') : Follows T en₀ (s.moved c u) st' where
  toTracks := h.toTracks.frame (keeps_moved s.live s c u) rfl rfl hsw hl
  live := h.live.trans hsw.symm
  loaded := hsw ▸ h.loaded
  apart := hap
  keys := by
    unfold top cubicles
    rw [hsw]
    exact h.keys
  saved := hs.frame (keeps_moved s.live s c u)

/-! ## §5  Switched calls -/

/-- The long path of a hook, when it goes through. -/
theorem hookedCall_done {pm : Pmap} {s s' : CallState} {f : Export}
    {args : ℕ → UInt64} {rsp : UInt64} {u : UserMem}
    (h : hookedCall pm s f args rsp u = .done s') :
    ∃ mon en en' heap memory, s.mon.enter f.module = .done mon ∧
      cmpUnlock pm (remap pm f.module) s.enabled = .done en ∧
      cmpLock pm (remap pm s.mon.current) en = .done en' ∧
      s' = { s.startCoro f args (remap pm f.module) (remap pm s.mon.current) with
        mon := mon
        enabled := en'
        heap := heap
        memory := memory } := by
  obtain ⟨mon, hmon, h⟩ := Outcome.bind_eq_done.mp h
  obtain ⟨hcurrent, hbelow⟩ := Mon.enter_done hmon
  simp only [hcurrent, hbelow] at h
  obtain ⟨en, hen, h⟩ := Outcome.bind_eq_done.mp h
  obtain ⟨heap, -, h⟩ := Outcome.bind_eq_done.mp h
  obtain ⟨en', hen', h⟩ := Outcome.bind_eq_done.mp h
  cases h
  exact ⟨mon, en, en', heap, _, hmon, hen, hen', rfl⟩

/-- A new activation on top: the older ones are not disturbed. -/
theorem keeps_startCoro {live : List Activation} {s s' : CallState} {f : Export}
    {args : ℕ → UInt64} {callee prev : ℤ} (hused : ∀ a ∈ live, a.id < s.next)
    (hthread : s'.thread = (s.startCoro f args callee prev).thread)
    (hhook : s'.hook = (s.startCoro f args callee prev).hook)
    (hentry : s'.entry = (s.startCoro f args callee prev).entry)
    (hcoro : s'.coro = (s.startCoro f args callee prev).coro) : Keeps live s s' := by
  have hne : ∀ a ∈ live, a.id ≠ s.next := fun a ha => Nat.ne_of_lt (hused a ha)
  constructor
  · intro a ha
    rw [hthread]
    exact Function.update_of_ne (hne a ha) _ _
  · intro a ha h hh
    rw [hhook] at hh
    simp only [CallState.startCoro, Function.update_of_ne (hne a ha), loseFrames] at hh
    exact (Option.filter_eq_some_iff.mp hh).1
  · intro a ha g e he hact
    rw [hentry] at he
    simp only [CallState.startCoro] at he
    by_cases hg : g = f
    · subst hg
      rw [Function.update_self] at he
      cases he
      exact absurd hact.symm (hne a ha)
    · rw [Function.update_of_ne hg] at he
      refine ⟨he, ?_⟩
      rw [hcoro]
      simp only [CallState.startCoro, Function.update_of_ne hg]

theorem tracks_hookedCall {m₀ : Mon} {pm : Pmap} {s s' : CallState}
    {live : List Activation} {st : List Frame} {f : Export} {args : ℕ → UInt64}
    {rsp : UInt64} {u : UserMem} (h : Tracks m₀ s live s.cursor st)
    (hstep : hookedCall pm s f args rsp u = .done s') :
    Tracks m₀ s' ({ id := s.next, fn := f } :: live) s'.cursor
      ({ fn := f, switched := true } :: st) := by
  obtain ⟨mon, en, en', heap, memory, hmon, -, -, rfl⟩ := hookedCall_done hstep
  refine ⟨h.stacked.enter hmon, ?_, ?_, ?_⟩
  · -- the new activation, whose frames have just been written
    refine ⟨{ id := s.next, fn := f }, live, rfl, rfl, rfl, ?_, ?_, ?_⟩
    · simp [CallState.startCoro]
    · intro e he _
      simp only [CallState.startCoro, Function.update_self]
    · intro hk hhk
      simp only [CallState.startCoro, Function.update_self] at hhk
      cases hhk
      exact ⟨rfl, h.linked.frame (keeps_startCoro h.used rfl rfl rfl rfl)⟩
  · exact List.pairwise_cons.mpr ⟨fun b hb => h.used b hb, h.older⟩
  · intro a ha
    rcases List.mem_cons.mp ha with rfl | ha
    · exact Nat.lt_succ_self _
    · exact (h.used a ha).trans (Nat.lt_succ_self _)

theorem follows_hookedCall {en₀ : Rights} {s s' : CallState} {st : List Frame}
    {f : Export} {args : ℕ → UInt64} {rsp : UInt64} {u : UserMem}
    (h : Follows T en₀ s st) (hf : Loaded T.pmap f.module)
    (hd : direct build (top st) f = false)
    (hstep : hookedCall T.pmap s f args rsp u = .done s') :
    Follows T en₀ s' ({ fn := f, switched := true } :: st) := by
  have hcur : Loaded T.pmap s.mon.current := h.current ▸ (loaded_top h.loaded)
  have htracks := tracks_hookedCall h.toTracks hstep
  obtain ⟨mon, en, en', heap, memory, hmon, hen, hen', rfl⟩ := hookedCall_done hstep
  have hne := key_ne_of_not_direct (loaded_top h.loaded) hf hd
  refine ⟨htracks, ?_, ?_, ⟨fun _ => hne.symm, h.apart⟩, ?_, ?_, ?_⟩
  · show f :: s.live.map Activation.fn = f :: switches st
    rw [h.live]
  · intro g hg
    rcases List.mem_cons.mp hg with rfl | hg
    · exact hf
    · exact h.loaded g hg
  · rw [T.cmpUnlock_loaded hf] at hen
    cases hen
    rw [T.cmpLock_loaded hcur] at hen'
    have hkeys := h.keys.switch (loaded_top h.loaded) hf hne
    rw [← h.current, Outcome.done.inj hen'] at hkeys
    exact hkeys
  · rintro a ⟨⟩
    refine ⟨fun e he _ => ?_, fun hk hhk => ?_⟩
    · simp only [CallState.startCoro, Function.update_self] at he
      cases he
      rw [h.current]
    · simp only [CallState.startCoro, Function.update_self] at hhk
      cases hhk
      rfl
  · exact h.saved.frame (keeps_startCoro h.used rfl rfl rfl rfl)

/-! ## §6  Returns from them -/

/-- What a return from a switched call does to the state, for activation `a`
and its hook frame `hk`. -/
structure Returned (pm : Pmap) (s s' : CallState) (a : Activation) (hk : HookFrame)
    (v : UInt64) (prev : ℤ) : Prop where
  mon : s'.mon = s.mon.leave
  enabled : ∃ en, cmpUnlock pm prev s.enabled = .done en ∧
    cmpLock pm hk.callee en = .done s'.enabled
  entry : s'.entry = s.entry
  hook : s'.hook = s.hook
  next : s'.next = s.next
  cursor : s'.cursor = hk.back
  live : s'.live = s.live.filter (·.id ≠ a.id)
  thread : ∀ k, k ≠ a.id → s'.thread k = s.thread k
  coro : ∀ f, (s'.coro f).thread = (s.coro f).thread
  resumed : s'.resumed = some { act := a.id, hook := a.id, value := v }

theorem Returned.keeps {pm : Pmap} {s s' : CallState} {a : Activation}
    {hk : HookFrame} {v : UInt64} {prev : ℤ} {live : List Activation}
    (R : Returned pm s s' a hk v prev) (hne : ∀ b ∈ live, b.id < a.id) :
    Keeps live s s' where
  thread b hb := R.thread b.id (Nat.ne_of_lt (hne b hb))
  hook b hb h hh := by rwa [R.hook] at hh
  entry b hb f e he _ := by
    rw [R.entry] at he
    exact ⟨he, R.coro f⟩

/-- An activation with its entry frame in place and its hook as context
returns to that hook, with its own value. -/
theorem entryReturn_done {pm : Pmap} {s s' : CallState} {a : Activation}
    {v : UInt64} {u : UserMem}
    (hcoro : ∀ e, s.entry a.fn = some e → e.act = a.id →
      (s.coro a.fn).thread = some a.id)
    (hcaller : (s.thread a.id).caller = .hook a.id)
    (hfn : ∀ h, s.hook a.id = some h → h.fn = a.fn)
    (h : entryReturn pm s a v u = .done s') :
    ∃ e hk, s.entry a.fn = some e ∧ e.act = a.id ∧ s.hook a.id = some hk ∧
      Returned pm s s' a hk v e.prev := by
  unfold entryReturn at h
  cases he : s.entry a.fn with
  | none =>
      rw [he] at h
      cases h
  | some e =>
      simp only [he] at h
      split at h
      · cases h
      · rename_i hact
        have hact : e.act = a.id := not_not.mp hact
        obtain ⟨en, hen, h⟩ := Outcome.bind_eq_done.mp h
        simp only [hcoro e he hact, hcaller] at h
        unfold resumeHook at h
        cases hhk : s.hook a.id with
        | none =>
            simp only [CallState.finish, hhk] at h
            cases h
        | some hk =>
            simp only [CallState.finish, hhk, hfn hk hhk] at h
            obtain ⟨en', hen', h⟩ := Outcome.bind_eq_done.mp h
            obtain ⟨heap, -, h⟩ := Outcome.bind_eq_done.mp h
            cases h
            refine ⟨e, hk, rfl, hact, rfl, rfl, ⟨en, hen, hen'⟩, rfl, rfl, rfl, rfl,
              rfl, ?_, ?_, ?_⟩
            · intro k hk
              simp [hcoro e he hact, Function.update_of_ne hk]
            · intro g
              by_cases hg : g = a.fn
              · subst hg
                simp
              · simp [Function.update_of_ne hg]
            · simp

/-- The same for the innermost of a thread's calls. -/
theorem tracks_entryReturn {m₀ : Mon} {pm : Pmap} {s s' : CallState}
    {live : List Activation} {st : List Frame} {f : Export} {a : Activation}
    {v : UInt64} {u : UserMem}
    (h : Tracks m₀ s live s.cursor ({ fn := f, switched := true } :: st))
    (hc : s.cursor = ⟨some a, 0⟩) (hstep : entryReturn pm s a v u = .done s') :
    ∃ rest e hk, live = a :: rest ∧ a.fn = f ∧ s.entry f = some e ∧ e.act = a.id ∧
      s.hook a.id = some hk ∧ Returned pm s s' a hk v e.prev ∧ Keeps rest s s' ∧
      Tracks m₀ s' rest s'.cursor st := by
  obtain ⟨a', rest, rfl, hfn, hc', hcaller, hentry, hhook⟩ := h.linked
  obtain rfl : a' = a := by
    rw [hc] at hc'
    cases hc'
    rfl
  subst hfn
  obtain ⟨e, hk, he, hact, hhk, R⟩ := entryReturn_done hentry hcaller
    (fun h hh => (hhook h hh).1) hstep
  obtain ⟨hrest, holder⟩ := List.pairwise_cons.mp h.older
  have hkeeps := R.keeps hrest
  refine ⟨rest, e, hk, rfl, rfl, he, hact, hhk, R, hkeeps, ?_, ?_, holder, ?_⟩
  · rw [R.mon]
    exact h.stacked.leave
  · rw [R.cursor]
    exact (hhook hk hhk).2.frame hkeeps
  · intro b hb
    rw [R.next]
    exact h.used b (List.mem_cons_of_mem _ hb)

theorem follows_entryReturn {en₀ : Rights} {s s' : CallState} {st : List Frame}
    {f : Export} {a : Activation} {v : UInt64} {u : UserMem}
    (h : Follows T en₀ s ({ fn := f, switched := true } :: st))
    (hc : s.cursor = ⟨some a, 0⟩) (hstep : entryReturn T.pmap s a v u = .done s') :
    Follows T en₀ s' st ∧
      s'.resumed = some { act := a.id, hook := a.id, value := v } := by
  obtain ⟨rest, e, hk, hlive, rfl, he, hact, hhk, R, hkeeps, htracks⟩ :=
    tracks_entryReturn h.toTracks hc hstep
  have hloaded : ∀ g ∈ switches st, Loaded T.pmap g.module :=
    fun g hg => h.loaded g (List.mem_cons_of_mem _ hg)
  have hf : Loaded T.pmap a.fn.module := h.loaded _ List.mem_cons_self
  have htop := loaded_top hloaded
  obtain ⟨hsaved, hbelow⟩ := h.saved
  obtain ⟨hprev, hcallee⟩ := hsaved a (by rw [hlive]; rfl)
  have hlive' : s'.live = rest := by
    have holder := h.older
    rw [hlive, List.pairwise_cons] at holder
    rw [R.live, hlive, List.filter_cons]
    simp only [ne_eq, not_true_eq_false, decide_false, Bool.false_eq_true, if_false]
    exact List.filter_eq_self.mpr fun b hb => by
      simpa using Nat.ne_of_lt (holder.1 b hb)
  refine ⟨⟨hlive' ▸ htracks, ?_, hloaded, h.apart.2, ?_, ?_⟩, R.resumed⟩
  · have hl := h.live
    rw [hlive] at hl
    rw [hlive']
    exact (List.cons.inj hl).2
  · -- the keys that the call moved are moved back
    obtain ⟨en, hen, hen'⟩ := R.enabled
    rw [hprev e he hact, T.cmpUnlock_loaded htop] at hen
    cases hen
    rw [hcallee hk hhk, T.cmpLock_loaded hf] at hen'
    have hkeys := h.keys.switch hf htop (h.apart.1 rfl)
    rwa [Outcome.done.inj hen'] at hkeys
  · rw [hlive] at hbelow
    rw [hlive']
    exact hbelow.frame hkeeps

/-! ## §7  Steps -/

/-- Calls go to functions of loaded cubicles. -/
def Callable (pm : Pmap) : Event → Prop
  | .call f _ _ _ => Loaded pm f.module
  | .ret _ _ => True

/-- What an event amounts to for code below the calls of a stack. -/
inductive StepCase (build : Build) (pm : Pmap) (s : CallState)
    (live : List Activation) : List Frame → Event → Prop where
  | directCall {st f args rsp u} : direct build s.mon.current f = true →
      step build pm s (.call f args rsp u) =
        .done (s.moved { s.cursor with depth := s.cursor.depth + 1 } u) →
      StepCase build pm s live st (.call f args rsp u)
  | switch {st f args rsp u} : direct build s.mon.current f = false →
      step build pm s (.call f args rsp u) = hookedCall pm s f args rsp u →
      StepCase build pm s live st (.call f args rsp u)
  | bottom {v u} : step build pm s (.ret v u) = .spin →
      StepCase build pm s live [] (.ret v u)
  | directRet {f st v u d} : Linked s live ⟨s.cursor.act, d⟩ st →
      step build pm s (.ret v u) = .done (s.moved ⟨s.cursor.act, d⟩ u) →
      StepCase build pm s live (⟨f, false⟩ :: st) (.ret v u)
  | yield {f st a v u} : s.cursor = ⟨some a, 0⟩ →
      step build pm s (.ret v u) = entryReturn pm s a v u →
      StepCase build pm s live (⟨f, true⟩ :: st) (.ret v u)

theorem Linked.stepCase {s : CallState} {live : List Activation} {st : List Frame}
    (h : Linked s live s.cursor st) (build : Build) (pm : Pmap) (e : Event) :
    StepCase build pm s live st e := by
  cases e with
  | call f args rsp u =>
      cases hd : direct build s.mon.current f with
      | true => exact .directCall hd (by rw [step, hd, if_pos rfl]; rfl)
      | false => exact .switch hd (by rw [step, hd, if_neg Bool.false_ne_true])
  | ret v u =>
      match st, h with
      | [], ⟨_, hc⟩ => exact .bottom (by rw [step, hc])
      | ⟨f, false⟩ :: st, ⟨d, hd, hl⟩ =>
          have hc : s.cursor = ⟨s.cursor.act, d + 1⟩ := by rw [← hd]
          exact .directRet hl (by rw [step, hc]; rfl)
      | ⟨f, true⟩ :: st, ⟨a, _, _, _, hc, _⟩ => exact .yield hc (by rw [step, hc])

/-- **Simulation.** A step that goes through is a step of the call stack. -/
theorem step_follows {en₀ : Rights} {s s' : CallState} {st : List Frame} {e : Event}
    (h : Follows T en₀ s st) (he : Callable T.pmap e)
    (hstep : step build T.pmap s e = .done s') :
    ∃ st', stackStep build st e = .done st' ∧ Follows T en₀ s' st' := by
  cases h.linked.stepCase build T.pmap e with
  | directCall hd hs =>
      refine ⟨_, rfl, ?_⟩
      rw [hs] at hstep
      cases hstep
      rw [← h.current, hd]
      refine h.move rfl ⟨by simp, h.apart⟩ ?_ h.saved
      exact ⟨s.cursor.depth, rfl, h.linked⟩
  | switch hd hs =>
      refine ⟨_, rfl, ?_⟩
      rw [h.current] at hd
      rw [hd]
      exact follows_hookedCall h he hd (hs ▸ hstep)
  | bottom hs =>
      rw [hs] at hstep
      cases hstep
  | directRet hl hs =>
      refine ⟨_, rfl, ?_⟩
      rw [hs] at hstep
      cases hstep
      exact h.move rfl h.apart.2 hl h.saved
  | yield hc hs =>
      refine ⟨_, rfl, ?_⟩
      exact (follows_entryReturn h hc (hs ▸ hstep)).1

/-- No live activation has lost a frame. -/
def Intact (s : CallState) : Prop :=
  ∀ a ∈ s.live, (∃ e, s.entry a.fn = some e ∧ e.act = a.id) ∧
    ∃ h, s.hook a.id = some h ∧
      ∀ b, h.back.act = some b → b ∈ s.live ∧ b.id < a.id

/-- Nesting stays within `prev_module`, and no function is switched to while
an earlier switch to it is still active. -/
def Guard (build : Build) (pm : Pmap) (st : List Frame) : Event → Prop
  | .call f _ _ _ => Loaded pm f.module ∧
      (direct build (top st) f = false →
        (switches st).length + 1 < Mon.size ∧ f ∉ switches st)
  | .ret _ _ => True

theorem Guard.callable {pm : Pmap} {st : List Frame} {e : Event}
    (h : Guard build pm st e) : Callable pm e := by
  cases e with
  | call f args rsp u => exact h.1
  | ret v u => trivial

theorem intact_hookedCall {en₀ : Rights} {s s' : CallState} {st : List Frame}
    {f : Export} {args : ℕ → UInt64} {rsp : UInt64} {u : UserMem}
    (h : Follows T en₀ s st) (hi : Intact s) (hfresh : f ∉ switches st)
    (hstep : hookedCall T.pmap s f args rsp u = .done s') : Intact s' := by
  obtain ⟨mon, en, en', heap, memory, hmon, -, -, rfl⟩ := hookedCall_done hstep
  have hother : ∀ b ∈ s.live, b.fn ≠ f := by
    rintro b hb rfl
    exact hfresh (h.live ▸ List.mem_map_of_mem hb)
  intro a ha
  rcases List.mem_cons.mp ha with rfl | ha
  · refine ⟨⟨_, Function.update_self _ _ _, rfl⟩, _, Function.update_self _ _ _, ?_⟩
    intro b hb
    rw [(Linked.act h.linked).1] at hb
    have hmem : b ∈ s.live := List.mem_of_mem_head? (Option.mem_def.mpr hb)
    exact ⟨List.mem_cons_of_mem _ hmem, h.used b hmem⟩
  · -- an older activation: its frames lie on stacks of other functions
    obtain ⟨⟨e, he, hact⟩, hk, hhk, hback⟩ := hi a ha
    refine ⟨⟨e, ?_, hact⟩, hk, ?_, ?_⟩
    · simp only [CallState.startCoro, Function.update_of_ne (hother a ha)]
      exact he
    · simp only [CallState.startCoro, Function.update_of_ne (Nat.ne_of_lt (h.used a ha)),
        loseFrames, hhk]
      rw [Option.filter_some, if_pos]
      rw [decide_eq_true_eq]
      intro hfn
      obtain ⟨b, hb, rfl⟩ := Option.map_eq_some_iff.mp hfn
      exact hother b (hback b hb).1 rfl
    · intro b hb
      exact ⟨List.mem_cons_of_mem _ (hback b hb).1, (hback b hb).2⟩

theorem intact_returned {pm : Pmap} {s s' : CallState} {a : Activation}
    {hk : HookFrame} {v : UInt64} {prev : ℤ} (hi : Intact s)
    (holder : ∀ b ∈ s.live, b.id ≤ a.id) (R : Returned pm s s' a hk v prev) :
    Intact s' := by
  intro b hb
  rw [R.live] at hb
  obtain ⟨hb, -⟩ := List.mem_filter.mp hb
  obtain ⟨hentry, h, hh, hback⟩ := hi b hb
  rw [R.entry, R.hook, R.live]
  refine ⟨hentry, h, hh, fun c hc => ?_⟩
  obtain ⟨hmem, hlt⟩ := hback c hc
  refine ⟨List.mem_filter.mpr ⟨hmem, ?_⟩, hlt⟩
  have := holder b hb
  simp only [ne_eq, decide_eq_true_eq]
  omega

theorem step_intact {en₀ : Rights} {s s' : CallState} {st : List Frame} {e : Event}
    (h : Follows T en₀ s st) (hi : Intact s) (hg : Guard build T.pmap st e)
    (hstep : step build T.pmap s e = .done s') : Intact s' := by
  cases h.linked.stepCase build T.pmap e with
  | directCall hd hs =>
      rw [hs] at hstep
      cases hstep
      exact hi
  | switch hd hs => exact intact_hookedCall h hi (hg.2 (h.current ▸ hd)).2 (hs ▸ hstep)
  | bottom hs =>
      rw [hs] at hstep
      cases hstep
  | directRet hl hs =>
      rw [hs] at hstep
      cases hstep
      exact hi
  | @yield f st a v u hc hs =>
      obtain ⟨rest, _, hk, hlive, -, -, -, -, R, -⟩ :=
        tracks_entryReturn h.toTracks hc (hs ▸ hstep)
      refine intact_returned hi (fun b hb => ?_) R
      have holder := h.older
      rw [hlive] at hb
      rw [hlive, List.pairwise_cons] at holder
      rcases List.mem_cons.mp hb with rfl | hb
      · exact le_refl _
      · exact Nat.le_of_lt (holder.1 b hb)

/-- Wraps act for entries of the table. -/
theorem genPreWrap_ne_wild {m : Modules} (hm : Loaded T.pmap m) (f : Export)
    (args : ℕ → UInt64) (u : UserMem) (heap : HeapMap) :
    (runOps T.pmap (genPreWrap f (remap T.pmap m) args u)).toStep heap ≠ .wild := by
  obtain ⟨e, hat, -⟩ := T.at_remap hm
  rw [Ne, Proc.toStep_eq_wild]
  exact runOps_ne_wild hat (fun op hop => Or.inl (genPreWrap_for _ _ _ _ op hop)) heap

theorem genPostWrap_ne_wild {m : Modules} (hm : Loaded T.pmap m) (f : Export)
    (args : ℕ → UInt64) (ret : UInt64) (u : UserMem) (heap : HeapMap) :
    (runOps T.pmap (genPostWrap f (remap T.pmap m) args ret u)).toStep heap ≠
      .wild := by
  obtain ⟨e, hat, -⟩ := T.at_remap hm
  rw [Ne, Proc.toStep_eq_wild]
  refine runOps_ne_wild hat (fun op hop => ?_) heap
  rcases genPostWrap_for f (remap T.pmap m) args ret u with h | ⟨-, desc, base, len, h⟩
  · exact Or.inl (h op hop)
  · rw [h] at hop
    rcases List.mem_pair.mp hop with rfl | rfl
    · exact Or.inl rfl
    · exact Or.inr ⟨base, len, rfl⟩

theorem hookedCall_ne_wild {s : CallState} {f : Export} {args : ℕ → UInt64}
    {rsp : UInt64} {u : UserMem} (hcur : Loaded T.pmap s.mon.current)
    (hf : Loaded T.pmap f.module) (hroom : s.mon.layer + 1 < Mon.size) :
    hookedCall T.pmap s f args rsp u ≠ .wild := by
  obtain ⟨mon, hmon⟩ : ∃ mon, s.mon.enter f.module = .done mon :=
    ⟨_, if_pos hroom⟩
  obtain ⟨hcurrent, hbelow⟩ := Mon.enter_done hmon
  unfold hookedCall
  simp only [hmon, hcurrent, hbelow, T.cmpUnlock_loaded hf, Outcome.done_bind,
    T.cmpLock_loaded hcur]
  intro hwild
  rcases Outcome.bind_eq_wild.mp hwild with h | ⟨heap, -, h⟩
  · exact genPreWrap_ne_wild hf _ _ _ _ h
  · cases h

/-- An intact activation yields to its hook. -/
theorem entryReturn_ne_wild {en₀ : Rights} {s : CallState} {st : List Frame}
    {f : Export} {a : Activation} {v : UInt64} {u : UserMem}
    (h : Follows T en₀ s ({ fn := f, switched := true } :: st)) (hi : Intact s)
    (hc : s.cursor = ⟨some a, 0⟩) : entryReturn T.pmap s a v u ≠ .wild := by
  obtain ⟨a', rest, hlive, hfn, hc', hcaller, hcoro, hhook⟩ := h.linked
  obtain rfl : a' = a := by
    rw [hc] at hc'
    cases hc'
    rfl
  subst hfn
  obtain ⟨⟨e, he, hact⟩, hk, hhk, -⟩ := hi a' (hlive ▸ List.mem_cons_self)
  obtain ⟨hprev, hcallee⟩ := h.saved.1 a' (by rw [hlive]; rfl)
  have htop : Loaded T.pmap (top st) :=
    loaded_top fun g hg => h.loaded g (List.mem_cons_of_mem _ hg)
  have hbelow : s.mon.below = top st := stacked_top h.stacked.leave
  have hthread := hcoro e he hact
  intro hwild
  simp only [entryReturn, he, hact, ne_eq, not_true_eq_false, if_false,
    hprev e he hact, T.cmpUnlock_loaded htop, Outcome.done_bind, hthread, hcaller,
    resumeHook, CallState.finish, hhk, hcallee hk hhk,
    T.cmpLock_loaded (h.loaded _ List.mem_cons_self), hbelow] at hwild
  rcases Outcome.bind_eq_wild.mp hwild with h | ⟨heap, -, h⟩
  · exact genPostWrap_ne_wild htop _ _ _ _ _ h
  · cases h

theorem step_ne_wild {en₀ : Rights} {s : CallState} {st : List Frame} {e : Event}
    (h : Follows T en₀ s st) (hi : Intact s) (hg : Guard build T.pmap st e) :
    step build T.pmap s e ≠ .wild := by
  cases h.linked.stepCase build T.pmap e with
  | directCall hd hs => simp [hs]
  | switch hd hs =>
      rw [hs]
      refine hookedCall_ne_wild (h.current ▸ loaded_top h.loaded) hg.1 ?_
      have hlayer := h.stacked.layer
      rw [cubicles, List.length_map] at hlayer
      rw [hlayer]
      exact (Nat.zero_add _).symm ▸ (hg.2 (h.current ▸ hd)).1
  | bottom hs => simp [hs]
  | directRet hl hs => simp [hs]
  | yield hc hs =>
      rw [hs]
      exact entryReturn_ne_wild h hi hc

end Protocol

end CubicleOS
