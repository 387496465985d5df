import CubicleOS.Calls.Runs

/-!
# Threads

`schedcoop_schedule` ends in `sw_ctx_switch`, which saves the position of one
thread and goes on at that of another. `layer`, `prev_module`, the enabled
keys, the coroutines and their stacks are the process's: a switch leaves them
alone. So two threads make their hooked calls on one record, and each finds
there what the other has left.

In the tree as it stands `uk_sched_yield` returns at once and `boot.c` has
`uk_sched_start` commented out, so that a thread gets to the scheduler only by
calling its `yield` directly or by ending itself. The model is of the scheduler
that these two lines keep from running.
-/

namespace CubicleOS

open Foundation

/-! ## §1  Two threads -/

/-- The process and its two threads. `code.cursor` and `own` are the position
of the thread that runs and the calls it is in, `parked` and `other` those of
the thread that waits. -/
structure Threads where
  code : CallState
  own : List Frame
  parked : Cursor
  other : List Frame

inductive ThreadEvent where
  /-- A call or a return of the thread that runs. -/
  | act (e : Event)
  /-- The scheduler switches, at whatever point the thread is. -/
  | switch

/-- The calls of a thread after `e`, made while `prev_module[layer]` was
`cur`. -/
def recordCall (build : Build) (cur : Modules) (st : List Frame) : Event → List Frame
  | .call f _ _ _ => { fn := f, switched := !direct build cur f } :: st
  | .ret _ _ => st.tail

def threadStep (build : Build) (pm : Pmap) (t : Threads) :
    ThreadEvent → Outcome Threads
  | .act e =>
      (step build pm t.code e).bind fun s =>
        .done { t with
          code := s
          own := recordCall build t.code.mon.current t.own e }
  | .switch =>
      .done {
        code := { t.code with cursor := t.parked }
        own := t.other
        parked := t.code.cursor
        other := t.own }

/-- Both threads at the first instruction on their own stacks, in whatever
state the process is when they are created. -/
def Threads.start (s : CallState) : Threads where
  code := { s with cursor := { act := none, depth := 0 } }
  own := []
  parked := { act := none, depth := 0 }
  other := []

/-- For the thread that runs, `prev_module[layer]` is the cubicle of its
innermost switched call, or `base`, where it was created, if it is in none; and
`prev_module[layer-1]` is the cubicle that made that call. -/
def OwnRecord (base : Modules) (t : Threads) : Prop :=
  t.code.mon.current = (cubicles t.own).headD base ∧
    ∀ c cs, cubicles t.own = c :: cs → t.code.mon.below = cs.headD base

/-- The scheduler is entered only while the running thread is in no switched
call. -/
def SwitchOutside (t : Threads) : ThreadEvent → Prop
  | .act _ => True
  | .switch => switches t.own = []

/-! ## §2  One thread at a time

Under `SwitchOutside` the thread that waits is in no switched call, and the
record is that of the thread that runs. -/

/-- A thread in no switched call is on its own stack. -/
structure Idle (c : Cursor) (st : List Frame) : Prop where
  outside : switches st = []
  cursor : c = ⟨none, st.length⟩

/-- The thread that runs has the record, the other one is in no switched call. -/
structure Running (m₀ : Mon) (t : Threads) : Prop where
  tracks : ∃ live, Tracks m₀ t.code live t.code.cursor t.own
  waits : Idle t.parked t.other

theorem Linked.live_nil {s : CallState} {live : List Activation} {c : Cursor}
    {st : List Frame} (h : Linked s live c st) (hst : switches st = []) : live = [] := by
  obtain ⟨hact, hfn⟩ := h.act
  rw [hst, hact] at hfn
  exact List.head?_eq_none_iff.mp (Option.map_eq_none_iff.mp hfn)

theorem linked_nil_iff {s : CallState} {c : Cursor} {st : List Frame} :
    Linked s [] c st ↔ Idle c st := by
  induction st generalizing c with
  | nil =>
      constructor
      · rintro ⟨-, rfl⟩
        exact ⟨rfl, rfl⟩
      · rintro ⟨-, rfl⟩
        exact ⟨rfl, rfl⟩
  | cons fr st ih =>
      obtain ⟨act, depth⟩ := c
      obtain ⟨f, _ | _⟩ := fr
      · constructor
        · rintro ⟨d, rfl, h⟩
          obtain ⟨hsw, hc⟩ := ih.mp h
          cases hc
          exact ⟨hsw, rfl⟩
        · rintro ⟨hsw, hc⟩
          cases hc
          exact ⟨st.length, rfl, ih.mpr ⟨hsw, rfl⟩⟩
      · constructor
        · rintro ⟨a, rest, hlive, -⟩
          cases hlive
        · rintro ⟨hsw, -⟩
          cases hsw

/-- While neither thread is in a switched call, the record is as much the one
thread's as the other's. -/
theorem Tracks.handOver {m₀ : Mon} {s : CallState} {live : List Activation}
    {c c' : Cursor} {st st' : List Frame} (h : Tracks m₀ s live c st)
    (hst : switches st = []) (hi : Idle c' st') : Tracks m₀ s [] c' st' where
  stacked := by
    have hstacked := h.stacked
    unfold cubicles at hstacked ⊢
    rwa [hi.outside, ← hst]
  linked := linked_nil_iff.mpr hi
  older := List.Pairwise.nil
  used := by simp

section Steps

variable {build : Build} {pm : Pmap} {m₀ : Mon}

/-- The thread with the record makes a step. -/
theorem step_tracks {s s' : CallState} {live : List Activation} {st : List Frame}
    {e : Event} (h : Tracks m₀ s live s.cursor st)
    (hstep : step build pm s e = .done s') :
    ∃ live', Tracks m₀ s' live' s'.cursor (recordCall build s.mon.current st e) := by
  cases h.linked.stepCase build pm e with
  | @directCall _ f _ _ u hd hs =>
      rw [hs] at hstep
      cases hstep
      refine ⟨live, ?_⟩
      rw [recordCall, hd]
      refine h.frame (keeps_moved live s _ u) rfl rfl rfl ?_
      exact ⟨s.cursor.depth, rfl, h.linked⟩
  | @switch _ f _ _ _ hd hs =>
      refine ⟨{ id := s.next, fn := f } :: live, ?_⟩
      rw [recordCall, hd]
      exact tracks_hookedCall h (hs ▸ hstep)
  | bottom hs =>
      rw [hs] at hstep
      cases hstep
  | @directRet f st v u d hl hs =>
      rw [hs] at hstep
      cases hstep
      exact ⟨live, h.frame (keeps_moved live s _ u) rfl rfl rfl hl⟩
  | yield hc hs =>
      obtain ⟨rest, -, -, -, -, -, -, -, -, -, htracks⟩ :=
        tracks_entryReturn h hc (hs ▸ hstep)
      exact ⟨rest, htracks⟩

theorem threadStep_running {t t' : Threads} {e : ThreadEvent} (h : Running m₀ t)
    (hg : SwitchOutside t e) (hstep : threadStep build pm t e = .done t') :
    Running m₀ t' := by
  obtain ⟨⟨live, htracks⟩, hwaits⟩ := h
  cases e with
  | switch =>
      cases hstep
      -- nobody is in a switched call: the other thread takes over
      obtain rfl := htracks.linked.live_nil hg
      have hover := htracks.handOver hg hwaits
      have hkeeps : Keeps [] t.code { t.code with cursor := t.parked } :=
        ⟨fun _ _ => rfl, fun _ _ _ => id, fun _ _ _ _ he _ => ⟨he, rfl⟩⟩
      exact ⟨⟨[], hover.frame hkeeps rfl rfl rfl hover.linked⟩,
        linked_nil_iff.mp htracks.linked⟩
  | act e =>
      obtain ⟨s', hs', ht'⟩ := Outcome.bind_eq_done.mp hstep
      cases ht'
      exact ⟨step_tracks htracks hs', hwaits⟩

end Steps

theorem Running.ownRecord {m₀ : Mon} {t : Threads} (h : Running m₀ t) :
    OwnRecord m₀.current t := by
  obtain ⟨⟨live, htracks⟩, -⟩ := h
  refine ⟨htracks.stacked.head, fun c cs hcs => ?_⟩
  have hstacked := htracks.stacked
  rw [hcs] at hstacked
  exact hstacked.leave.head

/-! ## §3  Switches inside a call -/

/-- The calls of the run leave the cubicle that created the threads alone. -/
def NotInto (base : Modules) : ThreadEvent → Prop
  | .act (.call f _ _ _) => f.module ≠ base
  | _ => True

section Exact

variable {build : Build} {pm : Pmap} {m₀ : Mon} {t t' : Threads}

theorem cubicles_eq_nil {st : List Frame} : cubicles st = [] ↔ switches st = [] := by
  unfold cubicles
  exact List.map_eq_nil_iff

/-- After a switch the thread finds its record exactly when the one before it
was in no switched call. -/
theorem ownRecord_switch_iff (h : Running m₀ t) (hbase : m₀.current ∉ cubicles t.own)
    (hstep : threadStep build pm t .switch = .done t') :
    OwnRecord m₀.current t' ↔ switches t.own = [] := by
  constructor
  · intro hown
    cases hstep
    have hcur : t.code.mon.current = m₀.current := by
      have hhead := hown.1
      change t.code.mon.current = (cubicles t.other).headD m₀.current at hhead
      rwa [cubicles_eq_nil.mpr h.waits.outside] at hhead
    rw [← cubicles_eq_nil]
    cases hcs : cubicles t.own with
    | nil => rfl
    | cons c cs =>
        have hc := h.ownRecord.1
        rw [hcs, hcur] at hc
        rw [hcs, hc] at hbase
        exact absurd List.mem_cons_self hbase
  · exact fun hg => (threadStep_running (e := .switch) h hg hstep).ownRecord

/-- Calls into other cubicles keep it off the record. -/
theorem notInto_cubicles {e : Event} {st : List Frame} {cur : Modules}
    (h : m₀.current ∉ cubicles st) (he : NotInto m₀.current (.act e)) :
    m₀.current ∉ cubicles (recordCall build cur st e) := by
  cases e with
  | call f args rsp u =>
      rw [recordCall]
      cases direct build cur f with
      | true => exact h
      | false => exact List.not_mem_cons_of_ne_of_not_mem (Ne.symm he) h
  | ret v u =>
      have hsub : (cubicles st.tail).Sublist (cubicles st) :=
        ((st.tail_sublist.filter _).map _).map _
      exact fun hmem => h (hsub.subset hmem)

end Exact

/-- **Threads.** From any state in which two threads are created, in every run
in which the scheduler switches only while the running thread is in no switched
call, the thread that runs finds its own calls recorded in every state. If no
call goes into the cubicle that created the threads, that is the only way. -/
theorem own_record_kept {build : Build} {pm : Pmap} (s₀ : CallState)
    (es : List ThreadEvent) :
    (Along (threadStep build pm) SwitchOutside (.start s₀) es →
        Throughout (threadStep build pm) (OwnRecord s₀.mon.current) (.start s₀) es) ∧
      ((∀ e ∈ es, NotInto s₀.mon.current e) →
        Throughout (threadStep build pm) (OwnRecord s₀.mon.current) (.start s₀) es →
          Along (threadStep build pm) SwitchOutside (.start s₀) es) := by
  have hstart : Running s₀.mon (.start s₀) :=
    ⟨⟨[], ⟨rfl, fun _ _ => rfl⟩, ⟨rfl, rfl⟩, .nil, by simp⟩, rfl, rfl⟩
  constructor
  · intro hg fs t hfs hrun
    obtain ⟨rest, rfl⟩ := hfs
    exact (runs_invariant (fun _ _ _ => threadStep_running) hstart hg.of_append hrun).ownRecord
  · intro hno h
    have hiff : Throughout (threadStep build pm) (OwnRecord s₀.mon.current) (.start s₀) es ↔
        Along (threadStep build pm) (fun t e => (∃ t', threadStep build pm t e = .done t') →
          SwitchOutside t e) (.start s₀) es := by
      refine throughout_iff_along
        (J := fun t => Running s₀.mon t ∧ s₀.mon.current ∉ cubicles t.own)
        (L := fun _ e => NotInto s₀.mon.current e) ?_ ?_ ⟨hstart, List.not_mem_nil⟩
        hstart.ownRecord (Along.of_forall_mem fun e he _ => hno e he)
      · rintro t e t' ⟨hrun, hbase⟩ hL hstep hown
        cases e with
        | switch =>
            have hout := (ownRecord_switch_iff hrun hbase hstep).mp hown
            refine ⟨threadStep_running (e := .switch) hrun hout hstep, ?_⟩
            cases hstep
            rw [cubicles_eq_nil.mpr hrun.waits.outside]
            exact List.not_mem_nil
        | act e =>
            refine ⟨threadStep_running (e := .act e) hrun trivial hstep, ?_⟩
            obtain ⟨s', -, ht'⟩ := Outcome.bind_eq_done.mp hstep
            cases ht'
            exact notInto_cubicles hbase hL
      · rintro t e t' ⟨hrun, hbase⟩ - hL hstep
        cases e with
        | switch => exact ownRecord_switch_iff hrun hbase hstep
        | act e =>
            have hstays := threadStep_running (e := .act e) hrun trivial hstep
            exact iff_of_true hstays.ownRecord trivial
    refine (hiff.mp h).mono fun t e hG => ?_
    cases e with
    | switch => exact hG ⟨_, rfl⟩
    | act e => trivial

def sampleEntry : Export :=
  { lib := .ukboot, name := "ukplat_entry", stack := 0x13000000 }

/-- The process when ukboot, called by the platform, creates the threads. -/
def sampleBooted : Outcome CallState :=
  step .plain (samplePmap .plain sampleLayout)
    (.init (sampleRights .plain sampleLayout) sampleHeap fun _ => 0)
    (sampleCall sampleEntry)

/-- Both threads find their record while each finishes its call before the
scheduler switches. -/
theorem own_record_kept_send :
    let pm := samplePmap .plain sampleLayout
    let es := [.act (sampleCall sampleWrite), .act sampleRet, .switch,
      .act (sampleCall sampleSend)]
    ∃ s₀ t, sampleBooted = .done s₀ ∧
      runs (threadStep .plain pm) (.start s₀) es = .done t ∧ cubicles t.own = [.lwip] ∧
      Throughout (threadStep .plain pm) (OwnRecord s₀.mon.current) (.start s₀) es := by
  intro pm es
  have hrun : (sampleBooted.bind fun s₀ =>
      (runs (threadStep .plain pm) (.start s₀) es).bind fun t =>
        .done (cubicles t.own)) = .done [.lwip] := by decide +kernel
  obtain ⟨s₀, hs₀, hrun⟩ := Outcome.bind_eq_done.mp hrun
  obtain ⟨t, ht, hown⟩ := Outcome.bind_eq_done.mp hrun
  refine ⟨s₀, t, hs₀, ht, Outcome.done.inj hown, (own_record_kept s₀ es).1 ?_⟩
  refine ⟨trivial, fun t₁ h₁ => ?_⟩
  obtain ⟨s₁, -, h₁⟩ := Outcome.bind_eq_done.mp h₁
  cases h₁
  refine ⟨trivial, fun t₂ h₂ => ?_⟩
  obtain ⟨s₂, -, h₂⟩ := Outcome.bind_eq_done.mp h₂
  cases h₂
  -- the first thread is back from its call
  exact ⟨rfl, fun _ _ => ⟨trivial, fun _ _ => trivial⟩⟩

/-- One thread is inside `vfs_write` when the scheduler switches: the other one
runs under vfscore's record. It calls `send`, and back in the first thread the
record says lwip, called by vfscore. -/
theorem switch_inside_call_mixes_records :
    let pm := samplePmap .plain sampleLayout
    let es := [.act (sampleCall sampleWrite), .switch, .act (sampleCall sampleSend),
      .switch]
    ∃ s₀ t, sampleBooted = .done s₀ ∧ s₀.mon.current = .ukboot ∧
      runs (threadStep .plain pm) (.start s₀) es = .done t ∧
      cubicles t.own = [.vfscore] ∧ t.code.mon.current = .lwip ∧
      t.code.mon.below = .vfscore ∧ ¬ OwnRecord s₀.mon.current t := by
  intro pm es
  have hrun : (sampleBooted.bind fun s₀ =>
      (runs (threadStep .plain pm) (.start s₀) es).bind fun t =>
        .done (s₀.mon.current, cubicles t.own, t.code.mon.current, t.code.mon.below)) =
      .done (.ukboot, [.vfscore], .lwip, .vfscore) := by
    decide +kernel
  obtain ⟨s₀, hs₀, hrun⟩ := Outcome.bind_eq_done.mp hrun
  obtain ⟨t, ht, hend⟩ := Outcome.bind_eq_done.mp hrun
  simp only [Outcome.done.injEq, Prod.mk.injEq] at hend
  obtain ⟨hbase, hown, hcur, hbelow⟩ := hend
  refine ⟨s₀, t, hs₀, hbase, ht, hown, hcur, hbelow, fun h => ?_⟩
  have hc := h.1
  rw [hcur, hown] at hc
  cases hc

end CubicleOS
