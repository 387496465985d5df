import CubicleOS.Foundation.Machine
import CubicleOS.Foundation.Ring

/-!
# Pipes

`vfscore/pipe.c`. The buffer of a pipe is a ring whose two positions are running
counters of type `unsigned long`; an index is a counter modulo the capacity, a
power of two. Reading and writing copy in one piece or, around the end, in two.

The length of the first piece of a read is computed from the counter where it
should be computed from the index. On the first lap the two are the same.

The file is under `#if 0` as a whole: what is modelled is its text, which is not
compiled.
-/

namespace CubicleOS

open Foundation

namespace Pipe

/-! ## §1  The buffer -/

/-- `struct pipe_buf`, without locks and wait queues. -/
structure PipeBuf where
  data : ℕ → Option UInt8
  capacity : ℕ
  prod : ℕ
  cons : ℕ

namespace PipeBuf

/-- `PIPE_BUF_IDX`. -/
def idx (b : PipeBuf) (n : ℕ) : ℕ := n &&& (b.capacity - 1)

/-- `pipe_buf_get_available`. -/
def getAvailable (b : PipeBuf) : ℕ := (b.prod + 2 ^ 64 - b.cons) % 2 ^ 64

/-- `pipe_buf_get_free_space`. -/
def getFreeSpace (b : PipeBuf) : ℕ := (b.capacity + 2 ^ 64 - b.getAvailable) % 2 ^ 64

end PipeBuf

/-- `pipe_buf_alloc`, with a capacity of `2 ^ order`. -/
def pipeBufAlloc (order : ℕ) : PipeBuf :=
  { data := fun _ => none, capacity := 2 ^ order, prod := 0, cons := 0 }

/-- `pipe_buf_write`; `iov` is what is left of the vector. -/
def pipeBufWrite (b : PipeBuf) (iov : List UInt8) : ℕ × PipeBuf :=
  let prodIdx := b.idx b.prod
  let toWrite := min b.getFreeSpace iov.length
  if toWrite = 0 then (0, b)
  else
    let data :=
      if prodIdx + toWrite ≤ b.capacity then
        Ring.copyIn b.data prodIdx (iov.take toWrite)
      else
        let first := b.capacity - prodIdx
        let second := prodIdx + toWrite - b.capacity
        Ring.copyIn (Ring.copyIn b.data prodIdx (iov.take first)) 0 ((iov.drop first).take second)
    (toWrite, { b with data := data, prod := (b.prod + toWrite) % 2 ^ 64 })

/-- Conversion to `int`. -/
def toInt (n : ℤ) : ℤ := Int.bmod n (2 ^ 32)

/-- `memcpy` out of the buffer. A negative length is a huge `size_t`. -/
def copyData (b : PipeBuf) (start : ℕ) (n : ℤ) : Outcome (List (Option UInt8)) :=
  if 0 ≤ n ∧ start + n ≤ b.capacity then .done (Ring.copyOut b.data start n.toNat) else .wild

/-- `pipe_buf_read` into a vector with room for `room` bytes. The first piece of
two is as long as `capacity - cons` says. -/
def pipeBufRead (b : PipeBuf) (room : ℕ) : Outcome (List (Option UInt8) × PipeBuf) :=
  let consIdx := b.idx b.cons
  let toRead := min b.getAvailable room
  if toRead = 0 then .done ([], b)
  else
    (if consIdx + toRead ≤ b.capacity then copyData b consIdx toRead
      else
        let first := toInt (((b.capacity : ℤ) - b.cons) % 2 ^ 64)
        let second := toInt ((consIdx : ℤ) + toRead - b.capacity)
        (copyData b consIdx first).bind fun xs =>
          (copyData b 0 second).bind fun ys => .done (xs ++ ys)).bind fun out =>
      .done (out, { b with cons := (b.cons + toRead) % 2 ^ 64 })

/-! ## §2  Readers and writers -/

/-- Where a thread is. A writer has vectors of bytes to go, a reader vectors of
lengths; the first one may be used in part. -/
inductive Task where
  | idle
  | write (iovs : List (List UInt8))
  | read (nonblocking : Bool) (iovs : List ℕ)
deriving DecidableEq, Repr

/-- A pipe and the threads that use it, with the bytes that went in and came
out. -/
structure State where
  buf : PipeBuf
  rRefcount : ℕ
  tasks : List Task
  sent : List UInt8
  got : List (Option UInt8)

inductive Event where
  | write (t : ℕ) (iovs : List (List UInt8))
  | read (t : ℕ) (nonblocking : Bool) (iovs : List ℕ)
  | run (t : ℕ)
deriving DecidableEq, Repr

namespace State

def goTo (s : State) (t : ℕ) (k : Task) : State := { s with tasks := s.tasks.set t k }

/-- The beginning of `pipe_write`: without readers it returns `-EPIPE`. -/
def beginWrite (s : State) (t : ℕ) (iovs : List (List UInt8)) : State :=
  if s.rRefcount = 0 then s else s.goTo t (.write iovs)

/-- The beginning of `pipe_read`: `EAGAIN` when there is nothing yet. -/
def beginRead (s : State) (t : ℕ) (nonblocking : Bool) (iovs : List ℕ) : State :=
  if nonblocking ∧ s.buf.getAvailable = 0 then s else s.goTo t (.read nonblocking iovs)

/-- One round of the loops of `pipe_write` and `pipe_read`. A thread that has to
wait tries again. -/
def advance (s : State) (t : ℕ) : Task → Outcome State
  | .idle => .done s
  | .write [] => .done (s.goTo t .idle)
  | .write ([] :: iovs) => .done (s.goTo t (.write iovs))
  | .write (iov :: iovs) =>
      let r := pipeBufWrite s.buf iov
      if r.1 = 0 then .done s
      else
        .done ({ s with buf := r.2, sent := s.sent ++ iov.take r.1 }.goTo t
          (.write (iov.drop r.1 :: iovs)))
  | .read _ [] => .done (s.goTo t .idle)
  | .read nb (0 :: iovs) => .done (s.goTo t (.read nb iovs))
  | .read nb (n :: iovs) =>
      (pipeBufRead s.buf n).bind fun r =>
        if r.1.length = 0 then .done (if nb then s.goTo t .idle else s)
        else
          .done ({ s with buf := r.2, got := s.got ++ r.1 }.goTo t
            (.read nb ((n - r.1.length) :: iovs)))

/-- One event. A thread begins a call only when it is in none. -/
def step (s : State) : Event → Outcome State
  | .write t iovs =>
      .done (if s.tasks[t]? = some .idle then s.beginWrite t iovs else s)
  | .read t nb iovs =>
      .done (if s.tasks[t]? = some .idle then s.beginRead t nb iovs else s)
  | .run t =>
      match s.tasks[t]? with
      | some k => s.advance t k
      | none => .done s

end State

/-- A new pipe of capacity `2 ^ order`, with `n` threads. -/
def start (order n : ℕ) : State :=
  { buf := pipeBufAlloc order, rRefcount := 1, tasks := List.replicate n .idle
    sent := [], got := [] }

/-! ## §3  What the buffer holds -/

/-- The buffer, of capacity `2 ^ order`, holds `xs`. -/
structure Holds (order : ℕ) (xs : List UInt8) (b : PipeBuf) : Prop where
  order_le : order ≤ 30
  capacity : b.capacity = 2 ^ order
  cons : b.cons < 2 ^ 64
  prod : b.prod = (b.cons + xs.length) % 2 ^ 64
  ring : Ring.Holds b.data (2 ^ order) b.cons xs

section Buffer

variable {order : ℕ} {xs : List UInt8} {b : PipeBuf}

theorem holds_alloc (h : order ≤ 30) : Holds order [] (pipeBufAlloc order) :=
  ⟨h, rfl, Nat.two_pow_pos 64, rfl, Ring.holds_nil⟩

namespace Holds

theorem cap_le (h : Holds order xs b) : 2 ^ order ≤ 2 ^ 30 :=
  Nat.pow_le_pow_right (by decide) h.order_le

theorem idx (h : Holds order xs b) (n : ℕ) : b.idx n = n % 2 ^ order := by
  unfold PipeBuf.idx
  rw [h.capacity, Nat.and_two_pow_sub_one_eq_mod]

/-- Counters may wrap: the capacity divides `2 ^ 64`. -/
theorem mod_mod (h : Holds order xs b) (n : ℕ) : n % 2 ^ 64 % 2 ^ order = n % 2 ^ order :=
  Nat.mod_mod_of_dvd n (pow_dvd_pow 2 (h.order_le.trans (by decide)))

theorem getAvailable (h : Holds order xs b) : b.getAvailable = xs.length := by
  have hlen := h.ring.1
  have hcap := h.cap_le
  have hcons := h.cons
  unfold PipeBuf.getAvailable
  rw [h.prod]
  omega

theorem getFreeSpace (h : Holds order xs b) : b.getFreeSpace = 2 ^ order - xs.length := by
  have hlen := h.ring.1
  have hcap := h.cap_le
  unfold PipeBuf.getFreeSpace
  rw [h.getAvailable, h.capacity]
  omega

/-- **Writing** appends what fits. -/
theorem write (h : Holds order xs b) (iov : List UInt8) :
    ∃ n b', pipeBufWrite b iov = (n, b') ∧ n = min (2 ^ order - xs.length) iov.length ∧
      Holds order (xs ++ iov.take n) b' := by
  have hlen := h.ring.1
  have hcap := h.cap_le
  have hpos : 0 < 2 ^ order := Nat.two_pow_pos order
  unfold pipeBufWrite
  rw [h.getFreeSpace, h.idx, h.capacity]
  dsimp only
  set n := min (2 ^ order - xs.length) iov.length with hn
  split
  · rename_i hzero
    exact ⟨n, b, by rw [hzero], rfl, by rw [hzero, List.take_zero, List.append_nil]; exact h⟩
  · refine ⟨n, _, rfl, rfl, h.order_le, rfl, h.cons, ?_, ?_⟩
    · show (b.prod + n) % 2 ^ 64 = _
      rw [h.prod, Nat.mod_add_mod, List.length_append, List.length_take_of_le (by omega),
        Nat.add_assoc]
    · have hroom : xs.length + (iov.take n).length ≤ 2 ^ order := by
        rw [List.length_take_of_le (by omega)]
        omega
      have hround := h.ring.copyRound hpos hroom
      have hidx : b.prod % 2 ^ order = (b.cons + xs.length) % 2 ^ order := by
        rw [h.prod, h.mod_mod]
      rw [← hidx, Ring.copyRound, List.length_take_of_le (by omega)] at hround
      have hlt := Nat.mod_lt b.prod hpos
      convert hround using 2
      rename_i hover
      congr 1
      · rw [List.take_take]
        congr 2
        omega
      · rw [List.drop_take]
        congr 1
        omega

end Holds

/-- The read stays in one piece, or the counter and the index agree as `int`s. -/
def StraightRead (b : PipeBuf) (room : ℕ) : Prop :=
  b.idx b.cons + min b.getAvailable room ≤ b.capacity ∨ 2 ^ 32 ∣ b.cons - b.idx b.cons

instance (b : PipeBuf) (room : ℕ) : Decidable (StraightRead b room) :=
  inferInstanceAs (Decidable (_ ∨ _))

theorem toInt_natCast {n : ℕ} (h : n < 2 ^ 31) : toInt n = n := by
  unfold toInt
  rw [Int.bmod_def]
  push_cast
  split <;> omega

/-- The length of the first piece, on a lap that starts at `lap`. -/
theorem first_eq {cap lap i : ℕ} (hcap : cap ≤ 2 ^ 30) (hi : i < cap) (hlap : 2 ^ 32 ∣ lap) :
    toInt (((cap : ℤ) - (lap + i : ℕ)) % 2 ^ 64) = cap - i := by
  obtain ⟨k, rfl⟩ := hlap
  unfold toInt
  rw [Int.bmod_def]
  push_cast
  split <;> omega

/-- On any other lap the piece does not fit. -/
theorem first_wild {cap lap i : ℕ} (hcap : cap ∣ 2 ^ 32) (hlap : cap ∣ lap) (hi : 0 < i)
    (hno : ¬ 2 ^ 32 ∣ lap) :
    ¬ (0 ≤ toInt (((cap : ℤ) - (lap + i : ℕ)) % 2 ^ 64) ∧
      i + toInt (((cap : ℤ) - (lap + i : ℕ)) % 2 ^ 64) ≤ cap) := by
  rintro ⟨hpos, hfit⟩
  set z := toInt (((cap : ℤ) - (lap + i : ℕ)) % 2 ^ 64) with hz
  obtain ⟨j, hj⟩ : ∃ j : ℤ, z = cap - lap - i + 2 ^ 32 * j := by
    unfold toInt at hz
    rw [Int.bmod_def] at hz
    push_cast at hz
    split at hz
    · exact ⟨(z - (cap - lap - i)) / 2 ^ 32, by omega⟩
    · exact ⟨(z - (cap - lap - i)) / 2 ^ 32, by omega⟩
  -- a whole number of capacities, between nothing and one
  have hdvd : (cap : ℤ) ∣ i + z := by
    have hsum : (i : ℤ) + z = cap - lap + 2 ^ 32 * j := by rw [hj]; ring
    rw [hsum]
    refine Int.dvd_add (Int.dvd_sub (Int.dvd_refl _) (Int.natCast_dvd_natCast.mpr hlap)) ?_
    exact Dvd.dvd.mul_right (by exact_mod_cast hcap) j
  have hge := Int.le_of_dvd (by omega) hdvd
  refine hno ?_
  have hlap' : ((2 ^ 32 : ℕ) : ℤ) ∣ lap := ⟨j, by push_cast; omega⟩
  exact Int.natCast_dvd_natCast.mp hlap'

namespace Holds

theorem lap_dvd (h : Holds order xs b) : 2 ^ order ∣ b.cons - b.idx b.cons := by
  rw [h.idx]
  exact Nat.dvd_sub_mod b.cons

/-- The buffer after `n` bytes have been taken out. -/
theorem taken (h : Holds order xs b) (n : ℕ) (hn : n ≤ xs.length) :
    Holds order (xs.drop n) { b with cons := (b.cons + n) % 2 ^ 64 } := by
  refine ⟨h.order_le, h.capacity, Nat.mod_lt _ (Nat.two_pow_pos 64), ?_, ?_⟩
  · show b.prod = _
    rw [h.prod, Nat.mod_add_mod, List.length_drop]
    congr 1
    omega
  · show Ring.Holds b.data (2 ^ order) ((b.cons + n) % 2 ^ 64) _
    rw [← Ring.holds_mod_iff, h.mod_mod, Ring.holds_mod_iff]
    exact h.ring.drop n

theorem copyData_eq (h : Holds order xs b) {start n : ℕ} (hfit : start + n ≤ 2 ^ order) :
    copyData b start n = .done (Ring.copyOut b.data start n) := by
  unfold copyData
  rw [h.capacity, if_pos ⟨Int.natCast_nonneg n, by exact_mod_cast hfit⟩, Int.toNat_natCast]

/-- **Reading** takes out the oldest bytes when it is straight. -/
theorem read (h : Holds order xs b) {room n : ℕ} (hn : n = min xs.length room)
    (hs : StraightRead b room) :
    ∃ b', pipeBufRead b room = .done ((xs.take n).map some, b') ∧
      Holds order (xs.drop n) b' := by
  have hlen := h.ring.1
  have hcap := h.cap_le
  have hpos : 0 < 2 ^ order := Nat.two_pow_pos order
  have hlt := Nat.mod_lt b.cons hpos
  unfold StraightRead at hs
  rw [h.getAvailable, h.idx, h.capacity, ← hn] at hs
  unfold pipeBufRead
  rw [h.getAvailable, h.idx, h.capacity, ← hn]
  dsimp only
  by_cases hzero : n = 0
  · rw [if_pos hzero, hzero]
    exact ⟨b, rfl, h⟩
  rw [if_neg hzero]
  refine ⟨{ b with cons := (b.cons + n) % 2 ^ 64 }, ?_, h.taken n (by omega)⟩
  by_cases hfit : b.cons % 2 ^ order + n ≤ 2 ^ order
  · rw [if_pos hfit, h.copyData_eq hfit, h.ring.copyOut_eq (by omega) hfit, Outcome.done_bind,
      h.capacity]
  · have hfirst : toInt ((((2 ^ order : ℕ) : ℤ) - b.cons) % 2 ^ 64) =
        (2 ^ order - b.cons % 2 ^ order : ℕ) := by
      have hlap := hs.resolve_left hfit
      have heq := first_eq hcap hlt hlap
      rw [Nat.sub_add_cancel (Nat.mod_le _ _)] at heq
      rw [heq]
      omega
    have hsecond : toInt (((b.cons % 2 ^ order : ℕ) : ℤ) + n - (2 ^ order : ℕ)) =
        (b.cons % 2 ^ order + n - 2 ^ order : ℕ) := by
      rw [← toInt_natCast (n := b.cons % 2 ^ order + n - 2 ^ order) (by omega)]
      congr 1
      omega
    rw [if_neg hfit, hfirst, hsecond, h.copyData_eq (by omega), h.copyData_eq (by omega),
      Outcome.done_bind, Outcome.done_bind,
      h.ring.copyOut_round hpos (by omega) (by omega), Outcome.done_bind, h.capacity]

/-- Any other read leaves the buffer. -/
theorem read_wild (h : Holds order xs b) {room : ℕ} (hs : ¬ StraightRead b room) :
    pipeBufRead b room = .wild := by
  have hlen := h.ring.1
  have hlt := Nat.mod_lt b.cons (Nat.two_pow_pos order)
  have hlap := h.lap_dvd
  unfold StraightRead at hs
  rw [h.getAvailable, h.idx, h.capacity, not_or] at hs
  rw [h.idx] at hlap
  unfold pipeBufRead
  rw [h.getAvailable, h.idx, h.capacity]
  dsimp only
  have hdvd : 2 ^ order ∣ 2 ^ 32 := pow_dvd_pow 2 (h.order_le.trans (by decide))
  have hwild := first_wild hdvd hlap (i := b.cons % 2 ^ order) (by omega) hs.2
  rw [Nat.sub_add_cancel (Nat.mod_le _ _)] at hwild
  rw [if_neg (by omega), if_neg hs.1]
  unfold copyData
  rw [h.capacity, if_neg hwild]
  rfl

end Holds

end Buffer

/-! ## §4  Whole runs -/

/-- The bytes that are in the buffer are those that went in and did not come
out. -/
def Good (order : ℕ) (s : State) : Prop :=
  ∃ xs, Holds order xs s.buf ∧ s.sent.map some = s.got ++ xs.map some

/-- The next round reads straight, if it reads. -/
def Task.Straight (b : PipeBuf) : Task → Prop
  | .read _ (n :: _) => StraightRead b n
  | _ => True

def Straight (s : State) : Event → Prop
  | .run t => (s.tasks[t]?.getD .idle).Straight s.buf
  | _ => True

instance (b : PipeBuf) : (k : Task) → Decidable (k.Straight b)
  | .read _ (n :: _) => inferInstanceAs (Decidable (StraightRead b n))
  | .read _ [] => .isTrue trivial
  | .write _ => .isTrue trivial
  | .idle => .isTrue trivial

instance (s : State) : (e : Event) → Decidable (Straight s e)
  | .run t => inferInstanceAs (Decidable ((s.tasks[t]?.getD .idle).Straight s.buf))
  | .write _ _ => .isTrue trivial
  | .read _ _ _ => .isTrue trivial

section Runs

variable {order : ℕ} {s s' : State} {t : ℕ}

theorem Good.write (h : Good order s) (iov : List UInt8) (iovs : List (List UInt8)) :
    ∃ s', s.advance t (.write (iov :: iovs)) = .done s' ∧ Good order s' := by
  obtain ⟨xs, hxs, horder⟩ := h
  cases iov with
  | nil => exact ⟨_, rfl, xs, hxs, horder⟩
  | cons byte iov =>
      obtain ⟨n, b', hwrite, -, hb'⟩ := hxs.write (byte :: iov)
      rw [State.advance, hwrite]
      · dsimp only
        split
        · exact ⟨s, rfl, xs, hxs, horder⟩
        · refine ⟨_, rfl, xs ++ (byte :: iov).take n, hb', ?_⟩
          show (s.sent ++ (byte :: iov).take n).map some = s.got ++ _
          rw [List.map_append, List.map_append, horder, List.append_assoc]
      · simp

theorem Good.read (h : Good order s) (nb : Bool) (n : ℕ) (iovs : List ℕ)
    (hs : StraightRead s.buf n) :
    ∃ s', s.advance t (.read nb (n :: iovs)) = .done s' ∧ Good order s' := by
  obtain ⟨xs, hxs, horder⟩ := h
  cases n with
  | zero => exact ⟨_, rfl, xs, hxs, horder⟩
  | succ n =>
      obtain ⟨b', hread, hb'⟩ := hxs.read rfl hs
      rw [State.advance, hread, Outcome.done_bind]
      · dsimp only
        split
        · exact ⟨_, rfl, xs, by split <;> exact hxs, by split <;> exact horder⟩
        · refine ⟨_, rfl, _, hb', ?_⟩
          show s.sent.map some = (s.got ++ (xs.take _).map some) ++ _
          rw [horder, List.append_assoc, ← List.map_append, List.take_append_drop]
      · simp

/-- **One round of one thread**, when it reads straight. -/
theorem Good.advance (h : Good order s) {k : Task} (hs : k.Straight s.buf) :
    ∃ s', s.advance t k = .done s' ∧ Good order s' := by
  match k with
  | .idle => exact ⟨s, rfl, h⟩
  | .write [] => exact ⟨_, rfl, h⟩
  | .write (iov :: iovs) => exact h.write iov iovs
  | .read nb [] => exact ⟨_, rfl, h⟩
  | .read nb (n :: iovs) => exact h.read nb n iovs hs

theorem Good.straight_of_advance (h : Good order s) {k : Task}
    (hstep : s.advance t k = .done s') : k.Straight s.buf := by
  obtain ⟨xs, hxs, -⟩ := h
  match k with
  | .idle => trivial
  | .write _ => trivial
  | .read nb [] => trivial
  | .read nb (0 :: iovs) =>
      refine Or.inl ?_
      rw [hxs.idx, hxs.capacity, Nat.min_zero]
      exact (Nat.mod_lt _ (Nat.two_pow_pos order)).le
  | .read nb ((n + 1) :: iovs) =>
      show StraightRead s.buf (n + 1)
      by_contra hno
      rw [State.advance, hxs.read_wild hno] at hstep
      · cases hstep
      · simp

/-- **One event**, when it reads straight. -/
theorem Good.step (h : Good order s) {e : Event} (hs : Straight s e) :
    ∃ s', s.step e = .done s' ∧ Good order s' := by
  cases e with
  | write t iovs =>
      refine ⟨_, rfl, ?_⟩
      split
      · unfold State.beginWrite
        split <;> exact h
      · exact h
  | read t nb iovs =>
      refine ⟨_, rfl, ?_⟩
      split
      · unfold State.beginRead
        split <;> exact h
      · exact h
  | run t =>
      rw [Straight] at hs
      rw [State.step]
      cases ht : s.tasks[t]? with
      | none => exact ⟨s, rfl, h⟩
      | some k =>
          rw [ht] at hs
          exact h.advance hs

/-- A read that is not straight does not go through. -/
theorem Good.straight (h : Good order s) {e : Event} (hstep : s.step e = .done s') :
    Straight s e := by
  cases e with
  | write t iovs => trivial
  | read t nb iovs => trivial
  | run t =>
      rw [Straight]
      rw [State.step] at hstep
      cases ht : s.tasks[t]? with
      | none => trivial
      | some k =>
          rw [ht] at hstep
          exact h.straight_of_advance hstep

end Runs

/-- **A pipe is a queue of bytes until a late read wraps.** A run of readers and
writers goes through exactly when every read of it that wraps around the end of
the buffer does so on a lap that starts at a multiple of `2 ^ 32`, such as the
first. Then the bytes come out as they went in. -/
theorem pipe_fifo_iff {order : ℕ} (horder : order ≤ 30) (n : ℕ) (es : List Event) :
    ((∃ s, runs State.step (start order n) es = .done s) ↔
      Along State.step Straight (start order n) es) ∧
    ∀ s, runs State.step (start order n) es = .done s →
      ∃ rest : List UInt8, s.sent.map some = s.got ++ rest.map some ∧ rest.length ≤ 2 ^ order := by
  have hstart : Good order (start order n) := ⟨[], holds_alloc horder, rfl⟩
  have hiff : (∃ s, runs State.step (start order n) es = .done s) ↔
      Along State.step Straight (start order n) es :=
    runs_done_iff_along (fun s e (h : Good order s) hs => h.step hs)
      (fun s e s' h hst => h.straight hst) hstart
  refine ⟨hiff, fun s hrun => ?_⟩
  obtain ⟨s', hrun', xs, hxs, hord⟩ :=
    runs_done (fun s e (h : Good order s) hs => h.step hs) hstart (hiff.mp ⟨s, hrun⟩)
  cases hrun.symm.trans hrun'
  exact ⟨xs, hord, hxs.ring.1⟩

/-- Around the end on the first lap, and again on the second. -/
def sampleEvents : List Event :=
  [.write 0 [[1, 2, 3]], .run 0, .run 0, .run 0, .read 1 false [3], .run 1, .run 1, .run 1,
    .write 0 [[4], [5, 6]], .run 0, .run 0, .run 0, .run 0, .run 0, .read 1 false [3], .run 1,
    .run 1, .run 1, .write 0 [[7, 8, 9]], .run 0, .run 0, .run 0, .read 1 true [3, 3], .run 1]

theorem pipe_wraps_once :
    (∃ s, runs State.step (start 2 2) (sampleEvents.take 18) = .done s) ∧
      ¬ ∃ s, runs State.step (start 2 2) sampleEvents = .done s := by
  constructor
  · exact (pipe_fifo_iff (show 2 ≤ 30 by decide) 2 _).1.mpr (by decide +kernel)
  · rw [(pipe_fifo_iff (show 2 ≤ 30 by decide) 2 _).1]
    decide +kernel

end Pipe

end CubicleOS
