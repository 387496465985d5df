import CubicleOS.Foundation.Machine
import CubicleOS.Foundation.Ring

/-!
# Mailboxes

`ukmpi/mbox.c` and lwip's `mailbox.c`. A mailbox is an array of messages with a
read and a write position, and two semaphores that count what can be read and
what can be written. The array is guarded by the semaphores and by short
sections without interrupts; everything else may be interrupted anywhere.

The model interleaves any number of threads (and interrupt handlers) at these
points. A call goes through three stages: it takes a token of one semaphore,
moves a message in a section of its own, and gives a token to the other
semaphore. The wait queues are left out: a thread that waits tries again, and
nothing is said about who is woken up. In this repository `uk_sched_yield`
returns at once and `uk_sched_start` is commented out of the boot code; the
interleavings are those of interrupts, and of threads once these are put back.
-/

namespace CubicleOS

open Foundation

namespace Mbox

/-! ## §1  The mailbox -/

/-- `struct uk_mbox`. Of the semaphores only the counts are kept; `slots` is the
number of messages that the allocated memory has room for. -/
structure Box (α : Type) where
  len : ℕ
  readsem : ℤ
  readpos : ℕ
  writesem : ℤ
  writepos : ℕ
  slots : ℕ
  msgs : ℕ → Option α

/-- `sizeof(struct uk_mbox)`. -/
def sizeofMbox : ℕ := 72

/-- The size that `uk_mbox_create` asks for, a `size_t`. -/
def createBytes (size : ℕ) : ℕ := (sizeofMbox + 8 * (size + 1)) % 2 ^ 64

variable {α : Type}

/-- `uk_mbox_create`, when there is memory. -/
def ukMboxCreate (size : ℕ) : Outcome (Box α) :=
  (ukAssert (size ≤ 2 ^ 63 - 1)).bind fun _ =>
    .done
      { len := size + 1
        readsem := 0
        readpos := 0
        writesem := size
        writepos := 0
        slots := (createBytes size - sizeofMbox) / 8
        msgs := fun _ => none }

/-- `sys_mbox_new` of lwip; `size` is an `int`. -/
def sysMboxNew (size : ℤ) : Outcome (Box α) :=
  ukMboxCreate (if size ≤ 0 then 32 else size.toNat)

/-- The assertion of `uk_mbox_free`. -/
def ukMboxFree (m : Box α) : Outcome Unit := ukAssert (m.readpos = m.writepos)

/-- `_do_mbox_post`, up to the end of the section without interrupts. -/
def doMboxPost (m : Box α) (msg : α) : Outcome (Box α) :=
  if m.writepos < m.slots then
    let m' := { m with
      msgs := Function.update m.msgs m.writepos (some msg)
      writepos := (m.writepos + 1) % m.len }
    (ukAssert (m'.readpos ≠ m'.writepos)).bind fun _ => .done m'
  else .wild

/-- `_do_mbox_recv`, up to the end of the section without interrupts. -/
def doMboxRecv (m : Box α) : Outcome (Option α × Box α) :=
  (ukAssert (m.readpos ≠ m.writepos)).bind fun _ =>
    if m.readpos < m.slots then
      .done (m.msgs m.readpos, { m with readpos := (m.readpos + 1) % m.len })
    else .wild

/-! ## §2  Threads -/

/-- How a call waits for its token: `uk_semaphore_down`, `uk_semaphore_down_try`
or `uk_semaphore_down_to`. -/
inductive Wait where
  | down | downTry | downTo
deriving DecidableEq, Repr

/-- Where a thread is. -/
inductive Task (α : Type) where
  | idle
  /-- In `uk_mbox_post…`, before it has a token of `writesem`. -/
  | post (how : Wait) (msg : α)
  /-- Before the section of `_do_mbox_post`. -/
  | store (msg : α)
  /-- Before `uk_semaphore_up(&m->readsem)`. -/
  | announce
  /-- In `uk_mbox_recv…`, before it has a token of `readsem`. -/
  | recv (how : Wait)
  /-- Before the section of `_do_mbox_recv`. -/
  | load
  /-- Before `uk_semaphore_up(&m->writesem)`, with the message in hand. -/
  | release (msg : Option α)
deriving DecidableEq, Repr

/-- The mailbox and the threads, with the messages stored and loaded so far. -/
structure State (α : Type) where
  box : Box α
  tasks : List (Task α)
  sent : List α
  got : List (Option α)

/-- What can happen: thread `t` begins a call, goes on, or its time is up. -/
inductive Event (α : Type) where
  | post (t : ℕ) (how : Wait) (msg : α)
  | recv (t : ℕ) (how : Wait)
  | run (t : ℕ)
  | expire (t : ℕ)
deriving DecidableEq, Repr

namespace State

def goTo (s : State α) (t : ℕ) (k : Task α) : State α := { s with tasks := s.tasks.set t k }

/-- A thread that finds no token: it tries again, unless it only tried. -/
def noToken (s : State α) (t : ℕ) (how : Wait) : State α :=
  if how = .downTry then s.goTo t .idle else s

/-- The next stage of thread `t`. -/
def advance (s : State α) (t : ℕ) : Task α → Outcome (State α)
  | .idle => .done s
  | .post how msg =>
      if s.box.writesem > 0 then
        .done ({ s with box := { s.box with writesem := s.box.writesem - 1 } }.goTo t
          (.store msg))
      else .done (s.noToken t how)
  | .store msg =>
      (doMboxPost s.box msg).bind fun m =>
        .done ({ s with box := m, sent := s.sent ++ [msg] }.goTo t .announce)
  | .announce =>
      .done ({ s with box := { s.box with readsem := s.box.readsem + 1 } }.goTo t .idle)
  | .recv how =>
      if s.box.readsem > 0 then
        .done ({ s with box := { s.box with readsem := s.box.readsem - 1 } }.goTo t .load)
      else .done (s.noToken t how)
  | .load =>
      (doMboxRecv s.box).bind fun r =>
        .done ({ s with box := r.2, got := s.got ++ [r.1] }.goTo t (.release r.1))
  | .release _ =>
      .done ({ s with box := { s.box with writesem := s.box.writesem + 1 } }.goTo t .idle)

/-- The deadline of `uk_semaphore_down_to` has passed: it takes a token if there
is one and gives up if there is none. -/
def timeOut (s : State α) (t : ℕ) : Task α → Outcome (State α)
  | .post .downTo msg =>
      if s.box.writesem > 0 then s.advance t (.post .downTo msg) else .done (s.goTo t .idle)
  | .recv .downTo =>
      if s.box.readsem > 0 then s.advance t (.recv .downTo) else .done (s.goTo t .idle)
  | _ => .done s

/-- A thread begins a call only when it is in none. -/
def call (s : State α) (t : ℕ) (k : Task α) : Outcome (State α) :=
  match s.tasks[t]? with
  | some .idle => .done (s.goTo t k)
  | _ => .done s

def step (s : State α) : Event α → Outcome (State α)
  | .post t how msg => s.call t (.post how msg)
  | .recv t how => s.call t (.recv how)
  | .run t =>
      match s.tasks[t]? with
      | some k => s.advance t k
      | none => .done s
  | .expire t =>
      match s.tasks[t]? with
      | some k => s.timeOut t k
      | none => .done s

end State

/-- `n` threads and a new mailbox. -/
def start (m : Box α) (n : ℕ) : State α :=
  { box := m, tasks := List.replicate n .idle, sent := [], got := [] }

/-- lwip's `sys_mbox_post` ignores `NULL`. -/
def sysMboxPost (t : ℕ) (msg : UInt64) : List (Event UInt64) :=
  if msg = 0 then [] else [.post t .down msg]

/-- lwip's `sys_arch_mbox_fetch`: no timeout means for ever. -/
def sysArchMboxFetch (t : ℕ) (timeout : UInt32) : Event UInt64 :=
  .recv t (if timeout = 0 then .down else .downTo)

/-! ## §3  Tokens -/

/-- The thread has a message of the mailbox to itself: its token of `readsem` is
taken, or not given yet. -/
def Task.owesRead : Task α → Bool
  | .announce | .load => true
  | _ => false

/-- The same for a free place and `writesem`. -/
def Task.owesWrite : Task α → Bool
  | .store _ | .release _ => true
  | _ => false

theorem countP_set_add {p : Task α → Bool} {ts : List (Task α)} {t : ℕ} {k : Task α}
    (h : ts[t]? = some k) (k' : Task α) :
    (ts.set t k').countP p + (if p k then 1 else 0) =
      ts.countP p + if p k' then 1 else 0 := by
  obtain ⟨ht, rfl⟩ := List.getElem?_eq_some_iff.mp h
  have hpos : (if p ts[t] = true then 1 else 0) ≤ ts.countP p := by
    split
    · exact List.countP_pos_iff.mpr ⟨_, List.getElem_mem ht, ‹_›⟩
    · exact Nat.zero_le _
  rw [List.countP_set ht]
  omega

/-- The mailbox holds `xs`, and every message and every free place is accounted
for by a token or by a thread. -/
structure Holds (size : ℕ) (xs : List α) (s : State α) : Prop where
  len : s.box.len = size + 1
  slots : s.box.slots = size + 1
  readpos : s.box.readpos < size + 1
  ring : Ring.Holds s.box.msgs (size + 1) s.box.readpos xs
  writepos : s.box.writepos = (s.box.readpos + xs.length) % (size + 1)
  order : s.sent.map some = s.got ++ xs.map some
  readable : s.box.readsem + s.tasks.countP Task.owesRead = xs.length
  writable : s.box.writesem + s.tasks.countP Task.owesWrite + xs.length = size
  readsem : 0 ≤ s.box.readsem
  writesem : 0 ≤ s.box.writesem

section Steps

variable {size : ℕ} {xs : List α} {s : State α} {t : ℕ} {k : Task α}

theorem holds_start {m : Box α} (hsize : size < 2 ^ 60) (h : ukMboxCreate size = .done m)
    (n : ℕ) : Holds size [] (start m n) := by
  obtain ⟨-, -, h⟩ := Outcome.bind_eq_done.mp h
  cases h
  have hbytes : createBytes size = sizeofMbox + 8 * (size + 1) :=
    Nat.mod_eq_of_lt (by unfold sizeofMbox; omega)
  constructor
  · rfl
  · show (createBytes size - sizeofMbox) / 8 = size + 1
    rw [hbytes, Nat.add_sub_cancel_left, Nat.mul_div_cancel_left _ (by decide)]
  · exact Nat.succ_pos size
  · exact Ring.holds_nil
  · rfl
  · rfl
  · simp [start, Task.owesRead, List.countP_replicate]
  · simp [start, Task.owesWrite, List.countP_replicate]
  · exact le_refl _
  · exact Int.natCast_nonneg size

namespace Holds

/-- What is left of a stage after the thread has moved on: the counts. -/
theorem goTo {box : Box α} {sent : List α} {got : List (Option α)} {k' : Task α}
    {ys : List α} (h : Holds size xs s) (ht : s.tasks[t]? = some k)
    (hlen : box.len = size + 1) (hslots : box.slots = size + 1)
    (hpos : box.readpos < size + 1) (hring : Ring.Holds box.msgs (size + 1) box.readpos ys)
    (hwpos : box.writepos = (box.readpos + ys.length) % (size + 1))
    (horder : sent.map some = got ++ ys.map some)
    (hread : box.readsem + (if k'.owesRead then 1 else 0) + xs.length =
      s.box.readsem + (if k.owesRead then 1 else 0) + ys.length)
    (hwrite : box.writesem + (if k'.owesWrite then 1 else 0) + ys.length =
      s.box.writesem + (if k.owesWrite then 1 else 0) + xs.length)
    (hr : 0 ≤ box.readsem) (hw : 0 ≤ box.writesem) :
    Holds size ys (State.goTo ⟨box, s.tasks, sent, got⟩ t k') := by
  have hcr := countP_set_add (p := Task.owesRead) ht k'
  have hcw := countP_set_add (p := Task.owesWrite) ht k'
  have hreadable := h.readable
  have hwritable := h.writable
  refine ⟨hlen, hslots, hpos, hring, hwpos, horder, ?_, ?_, hr, hw⟩
  · show box.readsem + ((s.tasks.set t k').countP Task.owesRead : ℕ) = _
    split_ifs at hcr hread <;> omega
  · show box.writesem + ((s.tasks.set t k').countP Task.owesWrite : ℕ) + _ = _
    split_ifs at hcw hwrite <;> omega

/-- Threads outside the stages come and go. -/
theorem move (h : Holds size xs s) (ht : s.tasks[t]? = some k) {k' : Task α}
    (hr : k'.owesRead = k.owesRead) (hw : k'.owesWrite = k.owesWrite) :
    Holds size xs (s.goTo t k') :=
  h.goTo ht h.len h.slots h.readpos h.ring h.writepos h.order (by rw [hr]) (by rw [hw])
    h.readsem h.writesem

/-- A thread that stores has a free place. -/
theorem store (h : Holds size xs s) {msg : α} (ht : s.tasks[t]? = some (.store msg)) :
    ∃ s', s.advance t (.store msg) = .done s' ∧ Holds size (xs ++ [msg]) s' := by
  have hcount : 0 < s.tasks.countP Task.owesWrite :=
    List.countP_pos_iff.mpr ⟨_, List.mem_of_getElem? ht, rfl⟩
  have hwritable := h.writable
  have hroom : xs.length < size := by
    have := h.writesem
    omega
  have hlen : (xs ++ [msg]).length = xs.length + 1 := by simp
  have hnext : (s.box.writepos + 1) % s.box.len =
      (s.box.readpos + (xs ++ [msg]).length) % (size + 1) := by
    rw [h.writepos, h.len, Nat.mod_add_mod, hlen, Nat.add_assoc]
  have hpush := h.ring.push (Nat.lt_succ_of_lt hroom) msg
  rw [← h.writepos] at hpush
  have hne : s.box.readpos ≠ (s.box.writepos + 1) % s.box.len := by
    rw [hnext]
    intro heq
    have hempty := (hpush.position_eq_iff (by omega) h.readpos).mp heq
    simp at hempty
  have hslot : s.box.writepos < s.box.slots := by
    rw [h.slots, h.writepos]
    exact Nat.mod_lt _ (Nat.succ_pos _)
  have hpost : doMboxPost s.box msg = .done { s.box with
      msgs := Function.update s.box.msgs s.box.writepos (some msg)
      writepos := (s.box.writepos + 1) % s.box.len } := by
    unfold doMboxPost
    rw [if_pos hslot]
    dsimp only
    rw [ukAssert, if_pos hne]
    rfl
  refine ⟨_, by rw [State.advance, hpost]; rfl, ?_⟩
  refine h.goTo ht h.len h.slots h.readpos hpush hnext ?_ ?_ ?_ h.readsem h.writesem
  · rw [List.map_append, List.map_append, h.order, List.append_assoc]
  · rw [hlen]
    simp only [Task.owesRead]
    push_cast
    omega
  · rw [hlen]
    simp only [Task.owesWrite]
    push_cast
    omega

/-- A thread that loads finds the oldest message. -/
theorem load (h : Holds size xs s) (ht : s.tasks[t]? = some .load) :
    ∃ x ys s', xs = x :: ys ∧ s.advance t .load = .done s' ∧ Holds size ys s' := by
  have hcount : 0 < s.tasks.countP Task.owesRead :=
    List.countP_pos_iff.mpr ⟨_, List.mem_of_getElem? ht, rfl⟩
  have hreadable := h.readable
  obtain ⟨x, ys, rfl⟩ : ∃ x ys, xs = x :: ys := by
    cases xs with
    | nil =>
        have := h.readsem
        simp only [List.length_nil] at hreadable
        omega
    | cons x ys => exact ⟨x, ys, rfl⟩
  have hroom : (x :: ys).length < size + 1 := by
    have := h.writable
    have := h.writesem
    omega
  have hne : s.box.readpos ≠ s.box.writepos := by
    rw [h.writepos]
    intro heq
    have hempty := (h.ring.position_eq_iff hroom h.readpos).mp heq
    cases hempty
  have hslot : s.box.readpos < s.box.slots := h.slots ▸ h.readpos
  have hmsg : s.box.msgs s.box.readpos = some x := by
    have := h.ring.head
    rwa [Nat.mod_eq_of_lt h.readpos] at this
  have hrecv : doMboxRecv s.box =
      .done (some x, { s.box with readpos := (s.box.readpos + 1) % s.box.len }) := by
    unfold doMboxRecv
    rw [ukAssert, if_pos hne, Outcome.done_bind, if_pos hslot, hmsg]
  refine ⟨x, ys, _, rfl, by rw [State.advance, hrecv]; rfl, ?_⟩
  refine h.goTo ht h.len h.slots ?_ ?_ ?_ ?_ ?_ ?_ h.readsem h.writesem
  · show (s.box.readpos + 1) % s.box.len < size + 1
    rw [h.len]
    exact Nat.mod_lt _ (Nat.succ_pos _)
  · show Ring.Holds s.box.msgs (size + 1) ((s.box.readpos + 1) % s.box.len) ys
    rw [h.len, Ring.holds_mod_iff]
    exact h.ring.tail
  · show s.box.writepos = ((s.box.readpos + 1) % s.box.len + ys.length) % (size + 1)
    rw [h.writepos, h.len, Nat.mod_add_mod, List.length_cons]
    congr 1
    omega
  · rw [h.order, List.map_cons, List.append_assoc]
    rfl
  · simp only [Task.owesRead, List.length_cons]
    push_cast
    omega
  · simp only [Task.owesWrite, List.length_cons]
    push_cast
    omega

/-- **One stage of one thread.** No assertion fails. -/
theorem advance (h : Holds size xs s) (ht : s.tasks[t]? = some k) :
    ∃ s' ys, s.advance t k = .done s' ∧ Holds size ys s' := by
  have hwait : ∀ how, k.owesRead = false → k.owesWrite = false →
      Holds size xs (s.noToken t how) := by
    intro how hr hw
    unfold State.noToken
    split
    · exact h.move ht hr.symm hw.symm
    · exact h
  have hreadable := h.readable
  have hwritable := h.writable
  cases k with
  | idle => exact ⟨s, xs, rfl, h⟩
  | post how msg =>
      rw [State.advance]
      split
      · refine ⟨_, xs, rfl, h.goTo ht h.len h.slots h.readpos h.ring h.writepos h.order rfl ?_
          h.readsem ?_⟩
        · simp [Task.owesWrite]
        · show 0 ≤ s.box.writesem - 1
          omega
      · exact ⟨_, xs, rfl, hwait how rfl rfl⟩
  | store msg =>
      obtain ⟨s', hs', h'⟩ := h.store ht
      exact ⟨s', _, hs', h'⟩
  | announce =>
      refine ⟨_, xs, rfl, h.goTo ht h.len h.slots h.readpos h.ring h.writepos h.order ?_ rfl
        (Int.le_add_one h.readsem) h.writesem⟩
      simp [Task.owesRead]
  | recv how =>
      rw [State.advance]
      split
      · refine ⟨_, xs, rfl, h.goTo ht h.len h.slots h.readpos h.ring h.writepos h.order ?_ rfl
          ?_ h.writesem⟩
        · simp [Task.owesRead]
        · show 0 ≤ s.box.readsem - 1
          omega
      · exact ⟨_, xs, rfl, hwait how rfl rfl⟩
  | load =>
      obtain ⟨x, ys, s', -, hs', h'⟩ := h.load ht
      exact ⟨s', ys, hs', h'⟩
  | release msg =>
      refine ⟨_, xs, rfl, h.goTo ht h.len h.slots h.readpos h.ring h.writepos h.order rfl ?_
        h.readsem (Int.le_add_one h.writesem)⟩
      simp [Task.owesWrite]

theorem timeOut (h : Holds size xs s) (ht : s.tasks[t]? = some k) :
    ∃ s' ys, s.timeOut t k = .done s' ∧ Holds size ys s' := by
  fun_cases State.timeOut s t k with
  | case1 msg hpos =>
      obtain ⟨s', ys, hs', h'⟩ := h.advance ht
      exact ⟨s', ys, hs', h'⟩
  | case2 msg hno => exact ⟨_, xs, rfl, h.move ht rfl rfl⟩
  | case3 hpos =>
      obtain ⟨s', ys, hs', h'⟩ := h.advance ht
      exact ⟨s', ys, hs', h'⟩
  | case4 hno => exact ⟨_, xs, rfl, h.move ht rfl rfl⟩
  | case5 => exact ⟨s, xs, rfl, h⟩

theorem call (h : Holds size xs s) (hr : k.owesRead = false) (hw : k.owesWrite = false) :
    ∃ s', s.call t k = .done s' ∧ Holds size xs s' := by
  unfold State.call
  split
  · rename_i ht
    exact ⟨_, rfl, h.move ht hr hw⟩
  · exact ⟨s, rfl, h⟩

/-- **One event.** -/
theorem step (h : Holds size xs s) (e : Event α) :
    ∃ s' ys, s.step e = .done s' ∧ Holds size ys s' := by
  cases e with
  | post t how msg =>
      obtain ⟨s', hs', h'⟩ := h.call (t := t) (k := .post how msg) rfl rfl
      exact ⟨s', xs, hs', h'⟩
  | recv t how =>
      obtain ⟨s', hs', h'⟩ := h.call (t := t) (k := .recv how) rfl rfl
      exact ⟨s', xs, hs', h'⟩
  | run t =>
      rw [State.step]
      cases ht : s.tasks[t]? with
      | none => exact ⟨s, xs, rfl, h⟩
      | some k => exact h.advance ht
  | expire t =>
      rw [State.step]
      cases ht : s.tasks[t]? with
      | none => exact ⟨s, xs, rfl, h⟩
      | some k => exact h.timeOut ht

end Holds

theorem runs_holds (h : Holds size xs s) (es : List (Event α)) :
    ∃ s' ys, runs State.step s es = .done s' ∧ Holds size ys s' := by
  induction es generalizing s xs with
  | nil => exact ⟨s, xs, rfl, h⟩
  | cons e es ih =>
      obtain ⟨m, ys, hm, h'⟩ := h.step e
      obtain ⟨s', zs, hs', h''⟩ := ih h'
      exact ⟨s', zs, runs_cons_eq_done.mpr ⟨m, hm, hs'⟩, h''⟩

end Steps

/-! ## §4  Whole runs -/

/-- **First in, first out, whatever the interleaving.** However many threads post
and receive, in whatever order their stages come: no assertion fails and no
message is stored or loaded outside the array. What has been loaded is what has
been stored, in the same order, up to the at most `size` messages that are still
in the box; and the box may be freed exactly when there are none. -/
theorem mbox_fifo {size n : ℕ} (hsize : size < 2 ^ 60) {m : Box α}
    (hm : ukMboxCreate size = .done m) (es : List (Event α)) :
    ∃ s rest, runs State.step (start m n) es = .done s ∧
      s.sent.map some = s.got ++ rest.map some ∧ rest.length ≤ size ∧
      (ukMboxFree s.box = .done () ↔ rest = []) := by
  obtain ⟨s, xs, hrun, h⟩ := runs_holds (holds_start hsize hm n) es
  have hlen : xs.length ≤ size := by
    have := h.writable
    have := h.writesem
    omega
  refine ⟨s, xs, hrun, h.order, hlen, ?_⟩
  rw [ukMboxFree, ukAssert_eq_done, h.writepos]
  exact h.ring.position_eq_iff (Nat.lt_succ_of_le hlen) h.readpos

/-- A mailbox of lwip, for two messages. -/
def sampleBox : Box UInt64 :=
  match sysMboxNew 2 with
  | .done m => m
  | _ => ⟨0, 0, 0, 0, 0, 0, fun _ => none⟩

/-- Two senders overtake each other, and a receiver is there too early. -/
def sampleEvents : List (Event UInt64) :=
  sysMboxPost 0 7 ++ [.run 0, .post 1 .downTry 8, .run 1, .run 1, sysArchMboxFetch 2 100, .run 2,
    .run 0, .run 1, .run 2, .run 2, .expire 2, .run 0, .run 2, sysArchMboxFetch 2 0] ++
    sysMboxPost 1 9

theorem mbox_fifo_sample :
    ∃ s rest, runs State.step (start sampleBox 3) sampleEvents = .done s ∧
      s.sent.map some = s.got ++ rest.map some ∧ rest.length ≤ 2 ∧
      (ukMboxFree s.box = .done () ↔ rest = []) :=
  mbox_fifo (by decide) rfl sampleEvents

/-- No thread is between taking a token and giving the other one. -/
def Settled (s : State α) : Prop :=
  ∀ k ∈ s.tasks, k.owesRead = false ∧ k.owesWrite = false

/-- The next stage of thread `t` is `k`. -/
def Proceeds (s : State α) (t : ℕ) (k : Task α) : Prop :=
  ∃ s', s.step (.run t) = .done s' ∧ s'.tasks[t]? = some k

section Settled

variable {size : ℕ} {xs : List α} {s : State α} {t : ℕ}

theorem Holds.counts (h : Holds size xs s) (hset : Settled s) :
    s.box.readsem = (s.sent.length : ℤ) - s.got.length ∧
      s.box.writesem = (s.got.length : ℤ) + size - s.sent.length := by
  have hr : s.tasks.countP Task.owesRead = 0 :=
    List.countP_eq_zero.mpr fun k hk => by simp [(hset k hk).1]
  have hw : s.tasks.countP Task.owesWrite = 0 :=
    List.countP_eq_zero.mpr fun k hk => by simp [(hset k hk).2]
  have hreadable := h.readable
  have hwritable := h.writable
  have hlen := congrArg List.length h.order
  simp only [List.length_map, List.length_append] at hlen
  rw [hr] at hreadable
  rw [hw] at hwritable
  omega

theorem goTo_task {k k' : Task α} (ht : s.tasks[t]? = some k) :
    (s.goTo t k').tasks[t]? = some k' := by
  unfold State.goTo
  rw [List.getElem?_set_self (List.getElem?_eq_some_iff.mp ht).1]

theorem noToken_task {how : Wait} {k k' : Task α} (ht : s.tasks[t]? = some k) (hk : k' ≠ k)
    (hidle : k' ≠ .idle) : (s.noToken t how).tasks[t]? ≠ some k' := by
  unfold State.noToken
  split
  · rw [goTo_task ht]
    exact fun h => hidle (Option.some.inj h).symm
  · rw [ht]
    exact fun h => hk (Option.some.inj h).symm

/-- A thread at a semaphore goes on to `k'` exactly when there is a token. -/
theorem proceeds_iff {how : Wait} {k k' : Task α} {tokens : ℤ} {s₁ : State α}
    (ht : s.tasks[t]? = some k)
    (hadv : s.advance t k =
      if tokens > 0 then .done (s₁.goTo t k') else .done (s.noToken t how))
    (htasks : s₁.tasks = s.tasks) (hk : k' ≠ k) (hidle : k' ≠ .idle) :
    Proceeds s t k' ↔ 0 < tokens := by
  unfold Proceeds
  rw [State.step, ht]
  dsimp only
  rw [hadv]
  split
  · rename_i hpos
    exact iff_of_true ⟨_, rfl, goTo_task (htasks ▸ ht)⟩ hpos
  · rename_i hno
    refine iff_of_false ?_ hno
    rintro ⟨s', hs', hnext⟩
    cases hs'
    exact noToken_task ht hk hidle hnext

end Settled

/-- **No token is lost.** Once the calls that have a token are finished, the counts
of the semaphores are exact: a receiver that tries finds a token exactly when a
message is undelivered, and a sender exactly when fewer than `size` are. -/
theorem mbox_settled {size n : ℕ} (hsize : size < 2 ^ 60) {m : Box α}
    (hm : ukMboxCreate size = .done m) {es : List (Event α)} {s : State α}
    (hrun : runs State.step (start m n) es = .done s) (hset : Settled s) (t : ℕ) :
    (∀ how, s.tasks[t]? = some (.recv how) →
      (Proceeds s t .load ↔ s.got.length < s.sent.length)) ∧
    ∀ how msg, s.tasks[t]? = some (.post how msg) →
      (Proceeds s t (.store msg) ↔ s.sent.length < s.got.length + size) := by
  obtain ⟨s', xs, hrun', h⟩ := runs_holds (holds_start hsize hm n) es
  cases hrun.symm.trans hrun'
  obtain ⟨hread, hwrite⟩ := h.counts hset
  refine ⟨fun how ht => ?_, fun how msg ht => ?_⟩
  · have hiff : Proceeds s t .load ↔ 0 < s.box.readsem :=
      proceeds_iff ht rfl rfl (by simp) (by simp)
    rw [hiff, hread]
    omega
  · have hiff : Proceeds s t (.store msg) ↔ 0 < s.box.writesem :=
      proceeds_iff ht rfl rfl (by simp) (by simp)
    rw [hiff, hwrite]
    omega

def sampleState : State UInt64 :=
  match runs State.step (start sampleBox 3) sampleEvents with
  | .done s => s
  | _ => start sampleBox 3

theorem mbox_settled_sample :
    (Proceeds sampleState 2 .load ↔ sampleState.got.length < sampleState.sent.length) ∧
      sampleState.got = [some 8] ∧ sampleState.sent = [8, 7] := by
  have hset : Settled sampleState := by
    unfold Settled
    decide
  have hrun : runs State.step (start sampleBox 3) sampleEvents = .done sampleState := rfl
  have hcreate : ukMboxCreate 2 = .done sampleBox := rfl
  have h := mbox_settled (by decide) hcreate hrun hset 2
  exact ⟨h.1 .down rfl, by decide, by decide⟩

end Mbox

end CubicleOS
