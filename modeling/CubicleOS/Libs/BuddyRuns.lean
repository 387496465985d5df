import CubicleOS.Libs.BuddyCalls

/-!
# Runs of the page allocator

Any order of `palloc`, `pfree` and `addmem`, between callers that write what
they like into the pages they hold. The machine keeps the blocks that are out.

Every range that is added here, the first one included, is one that
`bbuddy_addmem` describes in full. For one size in 32769 it leaves the last page
out of its bitmap, and a later request may then not return.
-/

namespace CubicleOS

open Foundation

namespace Buddy

/-! ## §1  Pools -/

/-- The allocator and the blocks that callers hold. -/
structure Pool where
  alloc : Bbpalloc
  held : List Block

inductive PoolEvent where
  | palloc (numPages : ℕ)
  | pfree (obj numPages : ℕ)
  | addmem (base len : ℕ)
  | poke (a : ℕ) (next : Option ChunkPtr) (pprev : Slot ℕ ChunkPtr) (level : ℕ)

/-- The pages that a request for `n` of them gets. -/
def blockOf (a n : ℕ) : Block := ⟨Nat.clog 2 n + 12, a⟩

/-- A write over the words where a chunk head would be. -/
def pokeHead (b : Bbpalloc) (a : ℕ) (next : Option ChunkPtr) (pprev : Slot ℕ ChunkPtr)
    (level : ℕ) : Bbpalloc :=
  { b with
    links :=
      { b.links with
        next := Function.update b.links.next (.chunk a) next
        pprev := Function.update b.links.pprev (.chunk a) pprev }
    level := Function.update b.level a level }

namespace Pool

def step (s : Pool) : PoolEvent → Outcome Pool
  | .palloc n =>
      (bbuddyPalloc s.alloc n).bind fun r =>
        .done ⟨r.2, (r.1.map fun a => blockOf a n).toList ++ s.held⟩
  | .pfree a n =>
      (bbuddyPfree s.alloc a n).bind fun b => .done ⟨b, s.held.erase (blockOf a n)⟩
  | .addmem base len =>
      (bbuddyAddmem s.alloc base len).bind fun r => .done ⟨r.2, s.held⟩
  | .poke a next pprev level => .done ⟨pokeHead s.alloc a next pprev level, s.held⟩

/-- The size of a range that `bbuddy_addmem` describes in full. -/
def Describable (base len : ℕ) : Prop :=
  ¬ 32769 ∣ (roundPgdown (base + len) - roundPgup base) / pageSize + 319

/-- Callers give back what they hold, and write to what they hold. -/
def Legal (s : Pool) : PoolEvent → Prop
  | .palloc n => n ≠ 0 ∧ n ≤ 2 ^ freelistSize
  | .pfree a n => n ≠ 0 ∧ blockOf a n ∈ s.held
  | .addmem base len => Addable s.alloc base len ∧ Describable base len
  | .poke a _ _ _ => ∃ c ∈ s.held, c.start ≤ a ∧ a < c.stop

instance {b : Bbpalloc} {base len : ℕ} : Decidable (Addable b base len) :=
  decidable_of_iff (base ≠ 0 ∧ base + len < 2 ^ 63 ∧
      ∀ s ∈ b.memrs, s.stop ≤ roundPgup base ∨ roundPgdown (base + len) ≤ s.addr)
    ⟨fun h => ⟨h.1, h.2.1, h.2.2⟩, fun h => ⟨h.pos, h.user, h.apart⟩⟩

instance {base len : ℕ} : Decidable (Describable base len) := by
  unfold Describable
  infer_instance

instance (s : Pool) (e : PoolEvent) : Decidable (s.Legal e) := by
  cases e <;> unfold Legal <;> infer_instance

/-- Blocks that have no address in common. -/
def Disjoint (c d : Block) : Prop := ∀ x ∈ c.span, x ∉ d.span

instance : Std.Symm Disjoint := ⟨fun _ _ h x hx hc => h x hc hx⟩

/-- What callers and the monitor rely on. -/
structure Safe (s : Pool) : Prop where
  disjoint : s.held.Pairwise Disjoint
  aligned : ∀ c ∈ s.held, c.Aligned
  inside : ∀ c ∈ s.held, InRegion s.alloc c
  used : ∀ p, pageSize ∣ p → InRegion s.alloc ⟨12, p⟩ →
    (allocatedInMap s.alloc p = true ↔ ∃ c ∈ s.held, p ∈ c.span)
  total : s.alloc.nrFreePages + (s.held.map fun c => 2 ^ (c.order - 12)).sum =
    (s.alloc.memrs.map Memr.nrPages).sum

/-- The invariant: with the lists in memory. -/
structure Sound (s : Pool) (F : ℕ → List ℕ) : Prop extends Safe s where
  ok : Ok s.alloc F
  order : ∀ c ∈ s.held, 12 ≤ c.order

end Pool

/-! ## §2  What is held is not on the lists -/

namespace Pool.Sound

variable {s : Pool} {F : ℕ → List ℕ} {c d : Block} {x p : ℕ}

theorem page_mem (hal : c.Aligned) (ho : 12 ≤ c.order) (hx : x ∈ c.span) :
    (Block.unit 12 x).start ∈ c.span :=
  Block.unit_subset hal ho hx (Block.start_mem _)

theorem pageSize_dvd_unit (x : ℕ) : pageSize ∣ (Block.unit 12 x).start := Block.unit_aligned 12 x

/-- A page of a block that lies in a region lies in it too. -/
theorem page_inRegion {b : Bbpalloc} (hal : c.Aligned) (ho : 12 ≤ c.order) (hx : x ∈ c.span)
    (hin : InRegion b c) : InRegion b (Block.unit 12 x) := by
  obtain ⟨r, hr, hlow, hhigh⟩ := hin
  refine ⟨r, hr, Block.bounds_of_span fun y hy => ?_⟩
  have hy' := Block.unit_subset hal ho hx hy
  exact ⟨hlow.trans hy'.1, hy'.2.trans_le hhigh⟩

theorem blocks_order (hd : d ∈ blocks F) : 12 ≤ d.order := by
  obtain ⟨i, hi, -⟩ := hd
  exact hi ▸ Nat.le_add_left _ _

/-- Free and held pages are different. -/
theorem free_apart (h : Sound s F) (hd : d ∈ blocks F) (hc : c ∈ s.held) : Disjoint d c := by
  intro x hxd hxc
  have hal := h.ok.family.aligned d hd
  have hpage := pageSize_dvd_unit x
  have hfree := (h.ok.bits _ hpage).mpr ⟨d, hd, page_mem hal (blocks_order hd) hxd⟩
  have hused := (h.used _ hpage (page_inRegion (h.aligned c hc) (h.order c hc) hxc
    (h.inside c hc))).mpr ⟨c, hc, page_mem (h.aligned c hc) (h.order c hc) hxc⟩
  rw [hfree] at hused
  cases hused

/-- A block of pages that are free meets no block that is held. -/
theorem fresh_apart (h : Sound s F) (hal : d.Aligned) (ho : 12 ≤ d.order)
    (hfree : ∀ p, pageSize ∣ p → p ∈ d.span → allocatedInMap s.alloc p = false)
    (hc : c ∈ s.held) : Disjoint d c := by
  intro x hxd hxc
  have hpage := pageSize_dvd_unit x
  have hused := (h.used _ hpage (page_inRegion (h.aligned c hc) (h.order c hc) hxc
    (h.inside c hc))).mpr ⟨c, hc, page_mem (h.aligned c hc) (h.order c hc) hxc⟩
  rw [hfree _ hpage (page_mem hal ho hxd)] at hused
  cases hused

/-- The other blocks, once one is given back. -/
theorem erase_perm (hc : c ∈ s.held) : s.held.Perm (c :: s.held.erase c) := List.perm_cons_erase hc

theorem disjoint_erase (h : Sound s F) (hc : c ∈ s.held) :
    (∀ d ∈ s.held.erase c, Disjoint c d) ∧ (s.held.erase c).Pairwise Disjoint :=
  List.pairwise_cons.mp ((erase_perm hc).pairwise_iff (fun h => symm h) |>.mp h.disjoint)

/-! ## §3  One event -/

theorem palloc (h : Sound s F) {n : ℕ} (hn : n ≠ 0) (hmax : n ≤ 2 ^ freelistSize) :
    (bbuddyPalloc s.alloc n = .done (none, s.alloc) ∧ s.step (.palloc n) = .done s) ∨
    ∃ a b' F', bbuddyPalloc s.alloc n = .done (some a, b') ∧
      s.step (.palloc n) = .done ⟨b', blockOf a n :: s.held⟩ ∧
      Sound ⟨b', blockOf a n :: s.held⟩ F' := by
  rcases h.ok.palloc hn hmax with ⟨hnone, -⟩ | ⟨a, b', F', hrun, hok, hsame, hcount, hal, hin,
    hfree, hbits⟩
  · refine Or.inl ⟨hnone, ?_⟩
    show (bbuddyPalloc s.alloc n).bind _ = _
    rw [hnone]
    rfl
  · have ho : 12 ≤ (blockOf a n).order := Nat.le_add_left _ _
    have hheld : ∀ c ∈ blockOf a n :: s.held, c.Aligned ∧ InRegion s.alloc c ∧ 12 ≤ c.order :=
      List.forall_mem_cons.mpr ⟨⟨hal, hin, ho⟩,
        fun c hc => ⟨h.aligned c hc, h.inside c hc, h.order c hc⟩⟩
    refine Or.inr ⟨a, b', F', hrun, ?_, ⟨?_, fun c hc => (hheld c hc).1,
      fun c hc => (hsame.same c).mpr (hheld c hc).2.1, fun p hp hreg => ?_, ?_⟩, hok,
      fun c hc => (hheld c hc).2.2⟩
    · show (bbuddyPalloc s.alloc n).bind _ = _
      rw [hrun]
      rfl
    · exact List.pairwise_cons.mpr ⟨fun c hc => h.fresh_apart hal ho hfree hc, h.disjoint⟩
    · have hused := h.used p hp ((hsame.same _).mp hreg)
      have hbit := hbits p hp
      rw [List.exists_mem_cons_iff, ← hused, ← Bool.not_eq_false, ← Bool.not_eq_false, hbit,
        not_and_or, not_not]
      exact or_comm
    · have htotal := h.total
      have hpages : (blockOf a n).order - 12 = Nat.clog 2 n := Nat.add_sub_cancel _ _
      rw [hsame.pages, List.map_cons, List.sum_cons, hpages]
      dsimp only
      omega

theorem pfree (h : Sound s F) {a n : ℕ} (hn : n ≠ 0) (hmem : blockOf a n ∈ s.held) :
    ∃ b' F', s.step (.pfree a n) = .done ⟨b', s.held.erase (blockOf a n)⟩ ∧
      Sound ⟨b', s.held.erase (blockOf a n)⟩ F' := by
  obtain ⟨b', F', hrun, hok, hsame, hcount, hbits⟩ := h.ok.pfree hn (h.aligned _ hmem)
    (h.inside _ hmem) fun d hd => h.free_apart hd hmem
  obtain ⟨happ, hpair⟩ := h.disjoint_erase hmem
  have hsub : ∀ c ∈ s.held.erase (blockOf a n), c ∈ s.held := fun c => List.mem_of_mem_erase
  refine ⟨b', F', ?_, ⟨hpair, fun c hc => h.aligned c (hsub c hc),
    fun c hc => (hsame.same c).mpr (h.inside c (hsub c hc)), fun p hp hreg => ?_, ?_⟩, hok,
    fun c hc => h.order c (hsub c hc)⟩
  · show (bbuddyPfree s.alloc a n).bind _ = _
    rw [hrun]
    rfl
  · have hused := h.used p hp ((hsame.same _).mp hreg)
    have hbit : allocatedInMap b' p = false ↔
        allocatedInMap s.alloc p = false ∨ p ∈ (blockOf a n).span := hbits p hp
    rw [← Bool.not_eq_false, hbit, not_or, Bool.not_eq_false, hused]
    constructor
    · rintro ⟨⟨c, hc, hx⟩, hno⟩
      have hne : c ≠ blockOf a n := fun heq => hno (heq ▸ hx)
      exact ⟨c, (List.mem_erase_of_ne hne).mpr hc, hx⟩
    · rintro ⟨c, hc, hx⟩
      exact ⟨⟨c, hsub c hc, hx⟩, fun hx' => happ c hc p hx' hx⟩
  · have htotal := h.total
    have hsum := ((erase_perm hmem).map fun c => 2 ^ (c.order - 12)).sum_eq
    have hpages : (blockOf a n).order - 12 = Nat.clog 2 n := Nat.add_sub_cancel _ _
    rw [List.map_cons, List.sum_cons, hpages] at hsum
    rw [hsame.pages, hcount]
    dsimp only
    omega

theorem addmem (h : Sound s F) {base len : ℕ} (hadd : Addable s.alloc base len)
    (hdesc : Describable base len) :
    ∃ s' F', s.step (.addmem base len) = .done s' ∧ Sound s' F' := by
  by_cases hen : Enough base len
  · obtain ⟨b', F', hrun, hg⟩ := h.ok.addmem hadd hen
    have hstop := (memrOf_stop_eq hen).mpr hdesc
    obtain ⟨-, -, hlt, -, -⟩ := memrOf_fits hen
    -- what is held lies in the old regions
    have hout : ∀ c ∈ s.held, ∀ x ∈ c.span,
        ¬ ((memrOf base len).firstPage ≤ x ∧ x < (memrOf base len).stop) := by
      rintro c hc x ⟨hx₁, hx₂⟩ ⟨hx₃, hx₄⟩
      obtain ⟨q, hq, hlow, hhigh⟩ := h.inside c hc
      have hqd := h.ok.regions.desc q hq
      have := hadd.apart q hq
      omega
    refine ⟨⟨b', s.held⟩, F', ?_, ⟨h.disjoint, h.aligned,
      fun c hc => (hg.same c).mpr (Or.inl (h.inside c hc)), fun p hp hreg => ?_, ?_⟩,
      hg.ok h.ok hstop, h.order⟩
    · show (bbuddyAddmem s.alloc base len).bind _ = _
      rw [hrun]
      rfl
    · have hbit := hg.bits p hp
      rw [← Bool.not_eq_false, hbit, not_or, Bool.not_eq_false]
      rcases (hg.same _).mp hreg with hreg | ⟨hlow, hhigh⟩
      · rw [h.used p hp hreg]
        exact ⟨And.left, fun ⟨c, hc, hx⟩ => ⟨⟨c, hc, hx⟩, hout c hc p hx⟩⟩
      · have hin : (memrOf base len).firstPage ≤ p ∧ p < (memrOf base len).stop :=
          ⟨hlow, (Block.start_lt_stop ⟨12, p⟩).trans_le hhigh⟩
        exact ⟨fun hno => absurd hin hno.2, fun ⟨c, hc, hx⟩ => absurd hin (hout c hc p hx)⟩
    · have htotal := h.total
      rw [hg.total, List.sum_cons, hg.count]
      dsimp only
      omega
  · refine ⟨s, F, ?_, h⟩
    show (bbuddyAddmem s.alloc base len).bind _ = _
    rw [addmem_refused hadd.pos hen]
    rfl

/-- The lists do not go through pages that are held. -/
theorem poke (h : Sound s F) {a level : ℕ} {next : Option ChunkPtr} {pprev : Slot ℕ ChunkPtr}
    (hc : c ∈ s.held) (ha : a ∈ c.span) :
    ∃ s' F', s.step (.poke a next pprev level) = .done s' ∧ Sound s' F' := by
  have hfresh : ∀ i, ∀ e ∈ F i, e ≠ a := fun i e he heq =>
    h.free_apart (mem_blocks he) hc e (Block.start_mem _) (heq ▸ ha)
  have htail : ∀ i, ChunkPtr.tail i ≠ .chunk a := fun i heq => by cases heq
  have hshape := h.ok.shape
  refine ⟨_, F, rfl, ⟨h.disjoint, h.aligned, h.inside, h.used, h.total⟩,
    ⟨⟨?_, fun i => ?_, fun i e he => ?_⟩, h.ok.regions, h.ok.family, h.ok.inside, h.ok.bits,
      h.ok.count⟩, h.order⟩
  · refine hshape.lists.congr rfl (fun i p hp => ?_) (fun i p hp => ?_)
    · obtain ⟨e, he, rfl⟩ := List.mem_map.mp hp
      exact Function.update_of_ne (fun heq => hfresh i e he (ChunkPtr.chunk.inj heq)) _ _
    · rcases hp with hp | hp
      · obtain ⟨e, he, rfl⟩ := List.mem_map.mp hp
        exact Function.update_of_ne (fun heq => hfresh i e he (ChunkPtr.chunk.inj heq)) _ _
      · cases hp
        exact Function.update_of_ne (htail i) pprev s.alloc.links.pprev
  · exact (Function.update_of_ne (htail i) next s.alloc.links.next).trans (hshape.ends i)
  · exact (Function.update_of_ne (hfresh i e he) _ _).trans (hshape.level i e he)

theorem step (h : Sound s F) {e : PoolEvent} (hl : s.Legal e) :
    ∃ s' F', s.step e = .done s' ∧ Sound s' F' := by
  cases e with
  | palloc n =>
      rcases h.palloc hl.1 hl.2 with ⟨-, hstep⟩ | ⟨a, b', F', -, hstep, hs'⟩
      · exact ⟨s, F, hstep, h⟩
      · exact ⟨_, F', hstep, hs'⟩
  | pfree a n =>
      obtain ⟨b', F', hstep, hs'⟩ := h.pfree hl.1 hl.2
      exact ⟨_, F', hstep, hs'⟩
  | addmem base len => exact h.addmem hl.1 hl.2
  | poke a next pprev level =>
      obtain ⟨c, hc, ha⟩ := hl
      exact h.poke hc ha

/-- All events, one after the other. -/
theorem runs (h : Sound s F) {es : List PoolEvent} (hl : Along Pool.step Legal s es) :
    ∃ s', Foundation.runs Pool.step s es = .done s' ∧ ∃ F', Sound s' F' :=
  runs_done (I := fun s => ∃ F, Sound s F)
    (fun _ _ ⟨_, hs⟩ hl => by
      obtain ⟨s', F', hstep, hs'⟩ := hs.step hl
      exact ⟨s', hstep, F', hs'⟩)
    ⟨F, h⟩ hl

end Pool.Sound

/-! ## §4  From the start

The state that `uk_allocbbuddy_init` leaves. Its memory has no chunk heads yet,
and anything may stand where they will be. -/

section Start

variable {mem : Links ℕ ChunkPtr} {level : ℕ → ℕ} {metalen base len : ℕ} {b : Bbpalloc}

theorem ok_initLists : Ok (initLists mem level) fun _ => [] := by
  refine ⟨⟨⟨fun i => ⟨rfl, fun t ht => ?_⟩, fun _ => List.nodup_nil, ?_, ?_, ?_⟩, fun _ => rfl, ?_⟩,
    ⟨List.Pairwise.nil, ?_, ?_, ?_⟩, ⟨?_, ?_, ?_⟩, ?_, fun p _ => ⟨?_, ?_⟩, ?_⟩
  · cases ht
    rfl
  · intro h h' n hn
    cases hn
  · intro h h' n _ hn
    cases hn
  · intro h h' n hs hs'
    cases hs
    exact (ChunkPtr.tail.inj (Option.some.inj hs')).symm
  · intro i a ha
    cases ha
  · intro r hr
    cases hr
  · intro r hr
    cases hr
  · intro r hr
    cases hr
  · rintro c ⟨i, -, hc⟩
    cases hc
  · rintro c ⟨i, -, hc⟩
    cases hc
  · rintro c ⟨i, -, hc⟩
    cases hc
  · rintro c ⟨i, -, hc⟩
    cases hc
  · intro hfree
    cases hfree
  · rintro ⟨c, ⟨i, -, hc⟩, -⟩
    cases hc
  · rfl

theorem sound_initLists : Pool.Sound ⟨initLists mem level, []⟩ fun _ => [] := by
  refine ⟨⟨List.Pairwise.nil, ?_, ?_, fun p _ hreg => ?_, rfl⟩, ok_initLists, ?_⟩
  · intro c hc
    cases hc
  · intro c hc
    cases hc
  · obtain ⟨r, hr, -⟩ := hreg
    cases hr
  · intro c hc
    cases hc

/-- The range that `uk_allocbbuddy_init` hands to `bbuddy_addmem`. -/
def initRange (metalen base len : ℕ) : ℕ × ℕ :=
  let min := roundPgup base + metalen
  (min + metalen, roundPgdown (base + len) - min - metalen)

theorem sound_init (hinit : ukAllocbbuddyInit metalen mem level base len = .done (some b))
    (huser : base + len < 2 ^ 63)
    (hdesc : Pool.Describable (initRange metalen base len).1 (initRange metalen base len).2) :
    ∃ F, Pool.Sound ⟨b, []⟩ F := by
  unfold ukAllocbbuddyInit at hinit
  obtain ⟨-, -, hinit⟩ := Outcome.bind_eq_done.mp hinit
  split at hinit
  · cases hinit
  · dsimp only at hinit
    split at hinit
    · rename_i hlt
      obtain ⟨r, hr, hb⟩ := Outcome.bind_eq_done.mp hinit
      cases hb
      have hpos := (ukAssert_eq_done.mp (Outcome.bind_eq_done.mp hr).choose_spec.1)
      have hle := roundPgdown_le (base + len)
      have hadd : Addable (initLists mem level) (initRange metalen base len).1
          (initRange metalen base len).2 := by
        refine ⟨hpos, ?_, fun s hs => by cases hs⟩
        unfold initRange
        dsimp only
        omega
      obtain ⟨s', F', hstep, hs'⟩ :=
        (@sound_initLists mem level).addmem hadd hdesc
      obtain ⟨r', hr', hs''⟩ := Outcome.bind_eq_done.mp hstep
      obtain rfl : r = r' := Outcome.done.inj (hr.symm.trans hr')
      cases hs''
      exact ⟨F', hs'⟩
    · cases hinit
      exact ⟨_, sound_initLists⟩

/-- The pool is reached from the start by a legal run, and all of its ranges are
described in full. -/
def Pool.Reached (s : Pool) : Prop :=
  ∃ metalen mem level base len b es,
    ukAllocbbuddyInit metalen mem level base len = .done (some b) ∧ base + len < 2 ^ 63 ∧
      Pool.Describable (initRange metalen base len).1 (initRange metalen base len).2 ∧
      Along Pool.step Pool.Legal ⟨b, []⟩ es ∧ runs Pool.step ⟨b, []⟩ es = .done s

theorem Pool.Reached.sound {s : Pool} (h : s.Reached) : ∃ F, s.Sound F := by
  obtain ⟨metalen, mem, level, base, len, b, es, hinit, huser, hdesc, hlegal, hrun⟩ := h
  obtain ⟨F, hF⟩ := sound_init hinit huser hdesc
  obtain ⟨s', hrun', hs'⟩ := hF.runs hlegal
  cases hrun.symm.trans hrun'
  exact hs'

/-- Thirty-two pages, of which two go to the allocator and one to the map. -/
def sampleInit : Outcome (Option Bbpalloc) :=
  ukAllocbbuddyInit 4096 ⟨fun _ => none, fun _ => none, fun _ => .head 0⟩ (fun _ => 0)
    0x100000 0x20000

def sampleAlloc : Bbpalloc :=
  match sampleInit with
  | .done (some b) => b
  | _ => initLists ⟨fun _ => none, fun _ => none, fun _ => .head 0⟩ fun _ => 0

def sampleEvents : List PoolEvent :=
  [.palloc 3, .palloc 1, .poke 0x105000 (some (.chunk 7)) (.head 9) 2, .pfree 0x103000 1,
    .addmem 0x200001 0x8000, .palloc 5]

/-- **The page allocator is safe.** From any memory that `uk_allocbbuddy_init`
accepts and describes in full, every run of legal requests, each added range
described in full too, goes through to its end, and then the blocks that callers
hold are aligned, disjoint and inside the regions, the bitmap has exactly their
pages as allocated, and no page has been lost. -/
theorem pool_runs_safe (hinit : ukAllocbbuddyInit metalen mem level base len = .done (some b))
    (huser : base + len < 2 ^ 63)
    (hdesc : Pool.Describable (initRange metalen base len).1 (initRange metalen base len).2)
    {es : List PoolEvent} (hlegal : Along Pool.step Pool.Legal ⟨b, []⟩ es) :
    ∃ s, runs Pool.step ⟨b, []⟩ es = .done s ∧ s.Safe := by
  obtain ⟨F, hF⟩ := sound_init hinit huser hdesc
  obtain ⟨s, hrun, F', hs⟩ := hF.runs hlegal
  exact ⟨s, hrun, hs.toSafe⟩

theorem pool_runs_safe_sample :
    ∃ s, runs Pool.step ⟨sampleAlloc, []⟩ sampleEvents = .done s ∧ s.Safe :=
  @pool_runs_safe _ _ 4096 0x100000 0x20000 sampleAlloc rfl (by decide) (by decide) _
    (by decide +kernel)

/-- The pool after the events of the example. -/
def samplePool : Pool :=
  match runs Pool.step ⟨sampleAlloc, []⟩ sampleEvents with
  | .done s => s
  | _ => ⟨sampleAlloc, []⟩

theorem samplePool_reached : samplePool.Reached :=
  ⟨4096, _, _, 0x100000, 0x20000, sampleAlloc, sampleEvents, rfl, by decide, by decide,
    by decide +kernel, rfl⟩

end Start

/-! ## §5  What is free -/

section Free

variable {s s' : Pool} {F F' : ℕ → List ℕ}

/-- The free pages are those of the regions that nobody holds. -/
theorem Pool.Sound.mem_cover_iff (h : s.Sound F) {p : ℕ} (hp : pageSize ∣ p) :
    p ∈ cover (blocks F) ↔ InRegion s.alloc ⟨12, p⟩ ∧ ¬ ∃ c ∈ s.held, p ∈ c.span := by
  have hunit : (Block.unit 12 p) = ⟨12, p⟩ := congrArg (Block.mk 12) (Nat.div_mul_cancel hp)
  constructor
  · rintro ⟨d, hd, hx⟩
    have hin := Pool.Sound.page_inRegion (h.ok.family.aligned d hd) (Pool.Sound.blocks_order hd) hx
      (h.ok.inside d hd)
    exact ⟨hunit ▸ hin, fun ⟨c, hc, hxc⟩ => h.free_apart hd hc p hx hxc⟩
  · rintro ⟨hin, hno⟩
    rw [← h.ok.bits p hp, ← Bool.not_eq_true, h.used p hp hin]
    exact hno

/-- **No request fails needlessly.** In every state that is reached, a request
fails exactly when every aligned block of its size in the regions has a page
that somebody holds. -/
theorem palloc_fails_iff (h : s.Reached) {n : ℕ} (hn : n ≠ 0) (hmax : n ≤ 2 ^ freelistSize) :
    (∃ b, bbuddyPalloc s.alloc n = .done (none, b)) ↔
      ∀ a, (blockOf a n).Aligned → InRegion s.alloc (blockOf a n) →
        ∃ c ∈ s.held, ∃ x ∈ c.span, x ∈ (blockOf a n).span := by
  obtain ⟨F, hF⟩ := h.sound
  constructor
  · rintro ⟨b, hb⟩ a hal hin
    by_contra hno
    -- all pages of the block are free, so that it fits into one chunk
    have hcov : ∀ x ∈ (blockOf a n).span, 2 ^ 12 ∣ x → x ∈ cover (blocks F) := by
      intro x hx hd
      refine (hF.mem_cover_iff hd).mpr ⟨?_, fun ⟨c, hc, hxc⟩ => hno ⟨c, hc, x, hxc, hx⟩⟩
      have hunit : (Block.unit 12 x) = ⟨12, x⟩ := congrArg (Block.mk 12) (Nat.div_mul_cancel hd)
      exact hunit ▸ Pool.Sound.page_inRegion hal (Nat.le_add_left _ _) hx hin
    obtain ⟨d, ⟨i, hi, hmem⟩, hle, -⟩ :=
      hF.ok.family.exists_ge (fun c hc => Pool.Sound.blocks_order hc) hal (Nat.le_add_left _ _) hcov
    rcases hF.ok.palloc hn hmax with ⟨-, hempty⟩ | ⟨a', b', F', hdone, -⟩
    · rw [hempty i (by rw [hi] at hle; exact Nat.le_of_add_le_add_right hle)] at hmem
      cases hmem
    · rw [hb] at hdone
      cases hdone
  · intro hall
    rcases hF.ok.palloc hn hmax with ⟨hdone, -⟩ | ⟨a, b', F', hdone, -, -, -, hal, hin, hfree, -⟩
    · exact ⟨_, hdone⟩
    · obtain ⟨c, hc, x, hxc, hx⟩ := hall a hal hin
      exact absurd hxc (hF.fresh_apart hal (Nat.le_add_left _ _) hfree hc x hx)

theorem palloc_fails_iff_sample :
    (∃ b, bbuddyPalloc samplePool.alloc 17 = .done (none, b)) ↔
      ∀ a, (blockOf a 17).Aligned → InRegion samplePool.alloc (blockOf a 17) →
        ∃ c ∈ samplePool.held, ∃ x ∈ c.span, x ∈ (blockOf a 17).span :=
  palloc_fails_iff samplePool_reached (by decide) (by decide)

/-- The chunk at `a` is on the list of order `i`. -/
def OnFreeList (b : Bbpalloc) (i a : ℕ) : Prop := b.links.Reaches (.head i) (.chunk a)

theorem Shape.onFreeList_iff {b : Bbpalloc} (h : Shape b F) {i a : ℕ} :
    OnFreeList b i a ↔ a ∈ F i := by
  unfold OnFreeList
  rw [(h.lists.chain i).reaches_iff fun t ht => by cases ht; exact h.ends i]
  constructor
  · rintro (hmem | htail)
    · exact chunk_mem.mp hmem
    · cases htail
  · exact fun hmem => Or.inl (chunk_mem.mpr hmem)

/-- **The free chunks do not depend on the history.** Two states with the same
regions and the same addresses in use have the same chunks on their lists,
however they were reached. -/
theorem free_chunks_of_held (h : s.Reached) (h' : s'.Reached)
    (hreg : ∀ c, InRegion s.alloc c ↔ InRegion s'.alloc c)
    (hheld : ∀ x, (∃ c ∈ s.held, x ∈ c.span) ↔ ∃ c ∈ s'.held, x ∈ c.span) (i a : ℕ) :
    OnFreeList s.alloc i a ↔ OnFreeList s'.alloc i a := by
  obtain ⟨F, hF⟩ := h.sound
  obtain ⟨F', hF'⟩ := h'.sound
  have hblocks : blocks F = blocks F' := by
    refine hF.ok.family.ext_cover hF'.ok.family (fun c hc => Pool.Sound.blocks_order hc)
      (fun c hc => Pool.Sound.blocks_order hc) fun x hx => ?_
    rw [hF.mem_cover_iff hx, hF'.mem_cover_iff hx, hreg, hheld]
  rw [hF.ok.shape.onFreeList_iff, hF'.ok.shape.onFreeList_iff]
  constructor
  · exact fun ha => mem_list_of_blocks (hblocks ▸ mem_blocks ha)
  · exact fun ha => mem_list_of_blocks (hblocks ▸ mem_blocks ha)

/-- Other events that leave the same blocks with callers. -/
def otherEvents : List PoolEvent :=
  [.palloc 1, .palloc 1, .pfree 0x104000 1, .palloc 3, .palloc 8, .pfree 0x103000 1,
    .addmem 0x200001 0x8000]

def otherPool : Pool :=
  match runs Pool.step ⟨sampleAlloc, []⟩ otherEvents with
  | .done s => s
  | _ => ⟨sampleAlloc, []⟩

theorem otherPool_reached : otherPool.Reached :=
  ⟨4096, _, _, 0x100000, 0x20000, sampleAlloc, otherEvents, rfl, by decide, by decide,
    by decide +kernel, rfl⟩

theorem inRegion_iff_places {b : Bbpalloc} {c : Block} :
    InRegion b c ↔ ∃ q ∈ b.memrs.map fun r => (r.firstPage, r.stop),
      q.1 ≤ c.start ∧ c.stop ≤ q.2 := by
  simp [InRegion, Memr.Encloses]

theorem free_chunks_of_held_sample :
    OnFreeList samplePool.alloc 4 0x110000 ↔ OnFreeList otherPool.alloc 4 0x110000 := by
  have hplaces : samplePool.alloc.memrs.map (fun r => (r.firstPage, r.stop)) =
      otherPool.alloc.memrs.map fun r => (r.firstPage, r.stop) := by decide +kernel
  have hheld : samplePool.held = otherPool.held := by decide +kernel
  refine free_chunks_of_held samplePool_reached otherPool_reached (fun c => ?_) (fun x => ?_) _ _
  · rw [inRegion_iff_places, inRegion_iff_places, hplaces]
  · rw [hheld]

/-- **One size in 32769.** The descriptor that `bbuddy_addmem` writes leaves out
the last page of ranges of certain sizes, which is put on the lists all the
same. After that, and only then, a request for pages can fail an assertion. -/
theorem palloc_hangs_after_addmem_iff (h : s.Reached) {base len : ℕ}
    (hadd : Addable s.alloc base len) (hen : Enough base len) :
    ∃ b', bbuddyAddmem s.alloc base len = .done (some (), b') ∧
      ((∃ n, n ≠ 0 ∧ n ≤ 2 ^ freelistSize ∧ bbuddyPalloc b' n = .spin) ↔
        32769 ∣ (roundPgdown (base + len) - roundPgup base) / pageSize + 319) := by
  obtain ⟨F, hF⟩ := h.sound
  exact hF.ok.addmem_hangs_iff hadd hen

theorem palloc_hangs_after_addmem_sample :
    ∃ b', bbuddyAddmem samplePool.alloc 0x10000000 (32450 * pageSize) = .done (some (), b') ∧
      ∃ n, n ≠ 0 ∧ n ≤ 2 ^ freelistSize ∧ bbuddyPalloc b' n = .spin := by
  obtain ⟨b', hdone, hiff⟩ := palloc_hangs_after_addmem_iff samplePool_reached
    (by decide +kernel : Addable samplePool.alloc 0x10000000 (32450 * pageSize))
    (by unfold Enough; decide)
  exact ⟨b', hdone, hiff.mpr (by decide)⟩

end Free

end Buddy

end CubicleOS
