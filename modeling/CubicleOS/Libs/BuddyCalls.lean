import CubicleOS.Libs.Buddy

/-!
# The calls of the page allocator

`bbuddy_palloc`, `bbuddy_pfree` and `bbuddy_addmem` keep the allocator in order:
the lists hold a coalesced family of blocks inside the regions, and the bitmap
and the counter say the same as the lists. Merging and splitting are steps on
such families with one block taken out.
-/

namespace CubicleOS

open Foundation

namespace Buddy

/-! ## §1  The invariant

Between calls the lists hold a coalesced family of blocks, and a page is free
in the bitmap when one of them covers it. Inside a call there is a block in
hand, which is on no list and free in the bitmap. -/

/-- Some region holds the block. -/
def InRegion (b : Bbpalloc) (c : Block) : Prop := ∃ r ∈ b.memrs, r.Encloses c

structure Ok (b : Bbpalloc) (F : ℕ → List ℕ) : Prop where
  shape : Shape b F
  regions : Regions b.memrs
  family : Coalesced (blocks F)
  inside : ∀ c ∈ blocks F, InRegion b c
  bits : ∀ p, pageSize ∣ p → (allocatedInMap b p = false ↔ p ∈ cover (blocks F))
  count : b.nrFreePages = pagesIn F

structure Held (b : Bbpalloc) (F : ℕ → List ℕ) (i a : ℕ) : Prop where
  shape : Shape b F
  regions : Regions b.memrs
  holed : Holed (blocks F) ⟨i + 12, a⟩
  inside : ∀ c ∈ blocks F, InRegion b c
  hole : InRegion b ⟨i + 12, a⟩
  bits : ∀ p, pageSize ∣ p → (allocatedInMap b p = false ↔
    p ∈ cover (blocks F) ∨ p ∈ (⟨i + 12, a⟩ : Block).span)
  count : b.nrFreePages = pagesIn F + 2 ^ i

/-- Only the descriptors matter for the bitmap. -/
theorem allocatedInMap_congr {b b' : Bbpalloc} (h : b'.memrs = b.memrs) (p : ℕ) :
    allocatedInMap b' p = allocatedInMap b p := by
  unfold allocatedInMap mapGetMemr
  rw [h]

theorem inRegion_congr {b b' : Bbpalloc} (h : b'.memrs = b.memrs) {c : Block}
    (hc : InRegion b c) : InRegion b' c := by
  unfold InRegion
  rw [h]
  exact hc

/-- A block of memory is smaller than the address space. -/
theorem InRegion.order_lt {b : Bbpalloc} (hreg : Regions b.memrs) {i a : ℕ}
    (h : InRegion b ⟨i + 12, a⟩) : i + 1 < freelistSize := by
  obtain ⟨r, hr, hlow, hhigh⟩ := h
  have huser := hreg.user r hr
  have hlt : 2 ^ (i + 12) < 2 ^ 63 := by
    have : a + 2 ^ (i + 12) ≤ r.stop := hhigh
    omega
  have := (Nat.pow_lt_pow_iff_right (by norm_num : 1 < 2)).mp hlt
  unfold freelistSize
  omega

theorem pageSize_dvd_pow (i : ℕ) : pageSize ∣ 2 ^ (i + 12) := by
  rw [pow_add]
  exact dvd_mul_left _ _

theorem pages_bytes (i : ℕ) : 2 ^ i * pageSize = 2 ^ (i + 12) := by
  rw [pow_add]
  rfl

/-- The regions lie where they lay. -/
structure SameRegions (b b' : Bbpalloc) : Prop where
  regions : Regions b'.memrs
  same : ∀ c, InRegion b' c ↔ InRegion b c
  pages : b'.memrs.map Memr.nrPages = b.memrs.map Memr.nrPages

/-- A change of the bitmap on the pages of a block. -/
theorem mapUpdate_block {b : Bbpalloc} {F : Bitmap → ℕ → ℕ → Bitmap} {g : Bool → Bool → Bool}
    (hF : ∀ m first n i, (F m first n).bit i = g (m.bit i) (decide (first ≤ i ∧ i < first + n)))
    (hg : ∀ x, g x false = x) (hreg : Regions b.memrs) {i a : ℕ} (hpage : pageSize ∣ a)
    (hin : InRegion b ⟨i + 12, a⟩) :
    ∃ memrs, mapUpdate b a (2 ^ i) F = .done memrs ∧ SameRegions b { b with memrs := memrs } ∧
      ∀ p, pageSize ∣ p →
        (p ∈ (⟨i + 12, a⟩ : Block).span →
          allocatedInMap { b with memrs := memrs } p = g (allocatedInMap b p) true) ∧
        (p ∉ (⟨i + 12, a⟩ : Block).span →
          allocatedInMap { b with memrs := memrs } p = allocatedInMap b p) := by
  obtain ⟨r, hr, hlow, hhigh⟩ := hin
  have hbytes := pages_bytes i
  obtain ⟨memrs, hdone, hreg', hfwd, hbwd, hpages, hbits⟩ := mapUpdate_spec hF hg hreg hr hpage hlow
    (Nat.two_pow_pos i) (by rw [hbytes]; exact hhigh)
  refine ⟨memrs, hdone, ⟨hreg', fun c => ⟨?_, ?_⟩, hpages⟩, fun p hp => ?_⟩
  · rintro ⟨q', hq', hlo, hhi⟩
    obtain ⟨q, hq, -, hfirst, hstop⟩ := hbwd q' hq'
    exact ⟨q, hq, hfirst ▸ hlo, hstop ▸ hhi⟩
  · rintro ⟨q, hq, hlo, hhi⟩
    obtain ⟨q', hq', hfirst, hstop⟩ := hfwd q hq
    exact ⟨q', hq', hfirst ▸ hlo, hstop ▸ hhi⟩
  · have hb := hbits p hp
    rw [hbytes] at hb
    exact ⟨fun hmem => by rw [hb, if_pos (Block.mem_span.mp hmem)],
      fun hmem => by rw [hb, if_neg (fun h => hmem (Block.mem_span.mpr h))]⟩

namespace Ok

variable {b : Bbpalloc} {F : ℕ → List ℕ} {i a : ℕ}

theorem order_lt (h : Ok b F) (ha : a ∈ F i) : i < freelistSize :=
  (Nat.lt_succ_self i).trans ((h.inside _ (mem_blocks ha)).order_lt h.regions)

/-- A chunk is unlinked to be handed out or broken up. -/
theorem take (h : Ok b F) (ha : a ∈ F i) :
    ∃ b', unlinkChunk b a = .done b' ∧ b'.memrs = b.memrs ∧
      Held b' (Function.update F i ((F i).erase a)) i a := by
  obtain ⟨b', hb', hshape, hmem, hfree⟩ := h.shape.unlink ha
  have hblocks := blocks_unlink (a := a) (h.shape.nodup i)
  have hmem' := mem_blocks ha
  refine ⟨b', hb', hmem, hshape, hmem ▸ h.regions, ?_, ?_, ?_, ?_, ?_⟩
  · rw [hblocks]
    exact h.family.take hmem'
  · intro c hc
    rw [hblocks] at hc
    exact inRegion_congr hmem (h.inside c hc.1)
  · exact inRegion_congr hmem (h.inside _ hmem')
  · intro p hp
    rw [allocatedInMap_congr hmem, h.bits p hp, hblocks]
    constructor
    · rintro ⟨c, hc, hx⟩
      by_cases heq : c = ⟨i + 12, a⟩
      · exact Or.inr (heq ▸ hx)
      · exact Or.inl ⟨c, ⟨hc, heq⟩, hx⟩
    · rintro (⟨c, hc, hx⟩ | hx)
      · exact ⟨c, hc.1, hx⟩
      · exact ⟨_, hmem', hx⟩
  · rw [hfree, h.count]
    exact (pagesIn_unlink (h.order_lt ha) ha).symm

/-- Pages that are given back become the block in hand. -/
theorem free (h : Ok b F) (hal : (⟨i + 12, a⟩ : Block).Aligned) (hin : InRegion b ⟨i + 12, a⟩)
    (hapart : ∀ c ∈ blocks F, ∀ x ∈ c.span, x ∉ (⟨i + 12, a⟩ : Block).span) :
    ∃ b', mapFree b a (2 ^ i) = .done b' ∧ Held b' F i a ∧ SameRegions b b' ∧
      ∀ p, pageSize ∣ p → (allocatedInMap b' p = false ↔
        allocatedInMap b p = false ∨ p ∈ (⟨i + 12, a⟩ : Block).span) := by
  obtain ⟨memrs, hdone, hsame, hbits⟩ := mapUpdate_block (g := fun x y => x && !y)
    Bitmap.bit_clearRange (by simp) h.regions ((pageSize_dvd_pow i).trans hal) hin
  have hfree : ∀ p, pageSize ∣ p → (allocatedInMap { b with memrs := memrs } p = false ↔
      allocatedInMap b p = false ∨ p ∈ (⟨i + 12, a⟩ : Block).span) := by
    intro p hp
    by_cases hmem : p ∈ (⟨i + 12, a⟩ : Block).span
    · rw [(hbits p hp).1 hmem]
      simp [hmem]
    · rw [(hbits p hp).2 hmem]
      simp [hmem]
  refine ⟨{ b with memrs := memrs, nrFreePages := b.nrFreePages + 2 ^ i }, ?_, ?_,
    ⟨hsame.regions, hsame.same, hsame.pages⟩, hfree⟩
  · unfold mapFree
    rw [hdone]
    rfl
  · refine ⟨⟨h.shape.lists, h.shape.ends, h.shape.level⟩, hsame.regions, ⟨h.family, hal, hapart⟩,
      fun c hc => (hsame.same c).mpr (h.inside c hc), (hsame.same _).mpr hin, fun p hp => ?_, ?_⟩
    · rw [← h.bits p hp]
      exact hfree p hp
    · show b.nrFreePages + 2 ^ i = _
      rw [h.count]

end Ok

namespace Held

variable {b : Bbpalloc} {F : ℕ → List ℕ} {i a : ℕ}

theorem fresh (h : Held b F i a) {c : ℕ} (hc : c ∈ (⟨i + 12, a⟩ : Block).span) (j : ℕ) :
    c ∉ F j := fun hmem =>
  h.holed.apart _ (mem_blocks hmem) c (Block.start_mem _) hc

/-- The upper half of the block in hand goes to its list. -/
theorem split (h : Held b F (i + 1) a) :
    ∃ b', linkChunk b i (a + 2 ^ (i + 12)) = .done b' ∧ b'.memrs = b.memrs ∧
      Held b' (Function.update F i ((a + 2 ^ (i + 12)) :: F i)) i a := by
  have hlt := h.hole.order_lt h.regions
  have hi : i < freelistSize := by omega
  have hpos : 0 < (⟨i + 1 + 12, a⟩ : Block).order := Nat.succ_pos _
  have hhigh : (⟨i + 1 + 12, a⟩ : Block).high = ⟨i + 12, a + 2 ^ (i + 12)⟩ := rfl
  have hlow : (⟨i + 1 + 12, a⟩ : Block).low = ⟨i + 12, a⟩ := rfl
  have hsplit := h.holed.split hpos
  rw [hhigh, hlow] at hsplit
  have hcover := Holed.cover_split (B := blocks F) hpos
  rw [hhigh, hlow] at hcover
  have hin : a + 2 ^ (i + 12) ∈ (⟨i + 1 + 12, a⟩ : Block).span :=
    (Block.mem_halves hpos).mpr (Or.inr (hhigh ▸ Block.start_mem _))
  obtain ⟨b', hb', hshape, hmem, hfree⟩ := h.shape.link hi (fun j => h.fresh hin j)
  have hhalves : InRegion b' ⟨i + 12, a⟩ ∧ InRegion b' ⟨i + 12, a + 2 ^ (i + 12)⟩ := by
    obtain ⟨r, hr, hlo, hhi⟩ := inRegion_congr hmem h.hole
    have hbound : ∀ x ∈ (⟨i + 1 + 12, a⟩ : Block).span, r.firstPage ≤ x ∧ x < r.stop :=
      fun x hx => ⟨hlo.trans hx.1, hx.2.trans_le hhi⟩
    exact ⟨⟨r, hr, Block.bounds_of_span fun x hx =>
        hbound x ((Block.mem_halves hpos).mpr (Or.inl (hlow ▸ hx)))⟩,
      ⟨r, hr, Block.bounds_of_span fun x hx =>
        hbound x ((Block.mem_halves hpos).mpr (Or.inr (hhigh ▸ hx)))⟩⟩
  refine ⟨b', hb', hmem, hshape, hmem ▸ h.regions, ?_, ?_, hhalves.1, ?_, ?_⟩
  · rw [blocks_link]
    exact hsplit
  · rw [blocks_link]
    rintro c (rfl | hc)
    · exact hhalves.2
    · exact inRegion_congr hmem (h.inside c hc)
  · intro p hp
    rw [allocatedInMap_congr hmem, h.bits p hp, blocks_link]
    exact (hcover p).symm
  · rw [hfree, h.count, pagesIn_link hi, pow_succ]
    ring

/-- The loop of `bbuddy_palloc`. -/
theorem splitChunk (order n : ℕ) (h : Held b F (order + n) a) :
    ∃ b' F', Buddy.splitChunk a order n b = .done b' ∧ b'.memrs = b.memrs ∧
      Held b' F' order a := by
  induction n generalizing b F with
  | zero => exact ⟨b, F, rfl, rfl, h⟩
  | succ n ih =>
      have hstep : Held b F (order + n + 1) a := h
      obtain ⟨b₁, hb₁, hmem₁, hheld₁⟩ := hstep.split
      obtain ⟨b₂, F₂, hb₂, hmem₂, hheld₂⟩ := ih hheld₁
      refine ⟨b₂, F₂, ?_, hmem₂.trans hmem₁, hheld₂⟩
      unfold Buddy.splitChunk
      rw [hb₁]
      exact hb₂

/-- The block in hand is handed out. -/
theorem alloc (h : Held b F i a) :
    ∃ b', mapAlloc b a (2 ^ i) = .done b' ∧ Ok b' F ∧ SameRegions b b' ∧
      ∀ p, pageSize ∣ p → (allocatedInMap b' p = false ↔
        allocatedInMap b p = false ∧ p ∉ (⟨i + 12, a⟩ : Block).span) := by
  obtain ⟨memrs, hdone, hsame, hbits⟩ := mapUpdate_block (g := fun x y => x || y)
    Bitmap.bit_setRange (by simp) h.regions ((pageSize_dvd_pow i).trans h.holed.aligned) h.hole
  have hfree : ∀ p, pageSize ∣ p → (allocatedInMap { b with memrs := memrs } p = false ↔
      allocatedInMap b p = false ∧ p ∉ (⟨i + 12, a⟩ : Block).span) := by
    intro p hp
    by_cases hmem : p ∈ (⟨i + 12, a⟩ : Block).span
    · rw [(hbits p hp).1 hmem]
      simp [hmem]
    · rw [(hbits p hp).2 hmem]
      simp [hmem]
  refine ⟨{ b with memrs := memrs, nrFreePages := b.nrFreePages - 2 ^ i }, ?_, ?_,
    ⟨hsame.regions, hsame.same, hsame.pages⟩, hfree⟩
  · unfold mapAlloc
    rw [hdone]
    rfl
  · refine ⟨⟨h.shape.lists, h.shape.ends, h.shape.level⟩, hsame.regions, h.holed.family,
      fun c hc => (hsame.same c).mpr (h.inside c hc), fun p hp => ?_, ?_⟩
    · refine (hfree p hp).trans ?_
      rw [h.bits p hp]
      constructor
      · rintro ⟨hp | hp, hno⟩
        · exact hp
        · exact absurd hp hno
      · rintro ⟨c, hc, hx⟩
        exact ⟨Or.inl ⟨c, hc, hx⟩, h.holed.apart c hc p hx⟩
    · show b.nrFreePages - 2 ^ i = _
      rw [h.count, Nat.add_sub_cancel]

/-- The block in hand goes to its list as it is. -/
theorem fill (h : Held b F i a) (hbud : (⟨i + 12, a⟩ : Block).buddy ∉ blocks F) :
    ∃ b', linkChunk b i a = .done b' ∧ b'.memrs = b.memrs ∧
      Ok b' (Function.update F i (a :: F i)) := by
  have hi : i < freelistSize := (Nat.lt_succ_self i).trans (h.hole.order_lt h.regions)
  obtain ⟨b', hb', hshape, hmem, hfree⟩ :=
    h.shape.link hi (fun j => h.fresh (Block.start_mem _) j)
  refine ⟨b', hb', hmem, hshape, hmem ▸ h.regions, ?_, ?_, ?_, ?_⟩
  · rw [blocks_link]
    exact h.holed.fill hbud
  · rw [blocks_link]
    rintro c (rfl | hc)
    · exact inRegion_congr hmem h.hole
    · exact inRegion_congr hmem (h.inside c hc)
  · intro p hp
    rw [allocatedInMap_congr hmem, h.bits p hp, blocks_link]
    constructor
    · rintro (⟨c, hc, hx⟩ | hx)
      · exact ⟨c, Or.inr hc, hx⟩
      · exact ⟨_, Or.inl rfl, hx⟩
    · rintro ⟨c, rfl | hc, hx⟩
      · exact Or.inr hx
      · exact Or.inl ⟨c, hc, hx⟩
  · rw [hfree, h.count, pagesIn_link hi]

end Held

/-! ## §2  Merging -/

namespace Held

variable {b : Bbpalloc} {F : ℕ → List ℕ} {i a : ℕ}

/-- A block and a free buddy of it lie in one region. -/
theorem parent_inRegion (h : Held b F i a)
    (hbud : (⟨i + 12, a⟩ : Block).buddy ∈ blocks F) :
    InRegion b (⟨i + 12, a⟩ : Block).parent := by
  have hal := h.holed.aligned
  obtain ⟨r, hr, hlow, hhigh⟩ := h.hole
  obtain ⟨s, hs, hslow, hshigh⟩ := h.inside _ hbud
  obtain rfl : r = s := by
    have hadj := Block.buddy_adjacent hal
    have hlt := Block.start_lt_stop (⟨i + 12, a⟩ : Block)
    have hltb := Block.start_lt_stop (⟨i + 12, a⟩ : Block).buddy
    rcases h.regions.eq_or_apart hr hs with heq | hgap | hgap
    · exact heq
    · omega
    · omega
  refine ⟨r, hr, Block.bounds_of_span fun x hx => ?_⟩
  rcases (Block.mem_parent hal).mp hx with hx | hx
  · exact ⟨hlow.trans hx.1, hx.2.trans_le hhigh⟩
  · exact ⟨hslow.trans hx.1, hx.2.trans_le hshigh⟩

/-- The test of the loop: the first page of the buddy is free, and a chunk of
the same order starts there. -/
theorem buddy_mem_iff (h : Held b F i a) :
    (⟨i + 12, a⟩ : Block).buddy ∈ blocks F ↔
      allocatedInMap b (⟨i + 12, a⟩ : Block).buddy.start = false ∧
        b.level (⟨i + 12, a⟩ : Block).buddy.start = i := by
  set c : Block := ⟨i + 12, a⟩ with hc
  have hal : c.Aligned := h.holed.aligned
  have hbud := Block.buddy_aligned hal
  have hpage : pageSize ∣ c.buddy.start := (pageSize_dvd_pow i).trans hbud
  have hself : c.buddy = ⟨i + 12, c.buddy.start⟩ := rfl
  constructor
  · intro hmem
    refine ⟨(h.bits _ hpage).mpr (Or.inl ⟨_, hmem, Block.start_mem _⟩), ?_⟩
    rw [hself] at hmem
    exact h.shape.level i _ (mem_list_of_blocks hmem)
  · rintro ⟨hfree, hlevel⟩
    rcases (h.bits _ hpage).mp hfree with ⟨d, hd, hx⟩ | hx
    · have hstart := (h.holed.start_of_meets hd hx).1
      obtain ⟨j, hj, hmem⟩ := hd
      have hji : j = i := by
        rw [← hlevel, ← hstart]
        exact (h.shape.level j _ hmem).symm
      rw [hself, ← hstart]
      exact ⟨i, rfl, hji ▸ hmem⟩
    · exact absurd (Block.start_mem _) (Block.buddy_apart hal hx)

/-- One round of the loop: the block in hand grows. -/
theorem merge (h : Held b F i a) (hbud : (⟨i + 12, a⟩ : Block).buddy ∈ blocks F) :
    ∃ b', unlinkChunk b (⟨i + 12, a⟩ : Block).buddy.start = .done b' ∧ b'.memrs = b.memrs ∧
      Held b' (Function.update F i ((F i).erase (⟨i + 12, a⟩ : Block).buddy.start)) (i + 1)
        (⟨i + 12, a⟩ : Block).parent.start := by
  have hregion := h.parent_inRegion hbud
  have hmerge := h.holed.merge hbud
  have hcover := h.holed.cover_merge hbud
  have hmem : (⟨i + 12, a⟩ : Block).buddy.start ∈ F i := mem_list_of_blocks hbud
  have hi : i < freelistSize := (Nat.lt_succ_self i).trans (h.hole.order_lt h.regions)
  obtain ⟨b', hb', hshape, hsame, hfree⟩ := h.shape.unlink hmem
  have hblocks := blocks_unlink (a := (⟨i + 12, a⟩ : Block).buddy.start) (h.shape.nodup i)
  have hbudeq : (⟨i + 12, (⟨i + 12, a⟩ : Block).buddy.start⟩ : Block) =
      (⟨i + 12, a⟩ : Block).buddy := rfl
  have hpar : (⟨i + 12, a⟩ : Block).parent =
      ⟨i + 1 + 12, (⟨i + 12, a⟩ : Block).parent.start⟩ := rfl
  rw [hbudeq] at hblocks
  refine ⟨b', hb', hsame, hshape, hsame ▸ h.regions, ?_, ?_, inRegion_congr hsame hregion, ?_, ?_⟩
  · rw [hblocks]
    exact hmerge
  · intro c hc
    rw [hblocks] at hc
    exact inRegion_congr hsame (h.inside c hc.1)
  · intro p hp
    rw [allocatedInMap_congr hsame, h.bits p hp, hblocks, ← hpar]
    exact (hcover p).symm
  · have hpages := pagesIn_unlink hi hmem
    rw [hfree, h.count, ← hpages, pow_succ]
    ring

/-- The loop of `bbuddy_pfree`. -/
theorem mergeChunk (n : ℕ) (h : Held b F i a) (hn : n + i = freelistSize) :
    ∃ i' a' b' F', Buddy.mergeChunk n i a b = .done (i', a', b') ∧ b'.memrs = b.memrs ∧
      Held b' F' i' a' ∧ (⟨i' + 12, a'⟩ : Block).buddy ∉ blocks F' := by
  induction n generalizing b F i a with
  | zero =>
      have := h.hole.order_lt h.regions
      omega
  | succ n ih =>
      have hal := h.holed.aligned
      have hupper := Block.and_pow_ne_zero_iff hal
      have hstart : (if a &&& 2 ^ (i + 12) ≠ 0 then a - 2 ^ (i + 12) else a + 2 ^ (i + 12)) =
          (⟨i + 12, a⟩ : Block).buddy.start := by
        by_cases hl : (⟨i + 12, a⟩ : Block).lower
        · rw [if_neg (fun hne => hupper.mp hne hl), Block.buddy_eq_lower hl]
        · rw [if_pos (hupper.mpr hl), Block.buddy_eq_upper hl]
      have hnext : (if a &&& 2 ^ (i + 12) ≠ 0 then (⟨i + 12, a⟩ : Block).buddy.start else a) =
          (⟨i + 12, a⟩ : Block).parent.start := by
        unfold Block.parent
        by_cases hl : (⟨i + 12, a⟩ : Block).lower
        · rw [if_neg (fun hne => hupper.mp hne hl), if_pos hl]
        · rw [if_pos (hupper.mpr hl), if_neg hl, Block.buddy_eq_upper hl]
      unfold Buddy.mergeChunk
      dsimp only
      rw [hstart, hnext]
      by_cases hbud : (⟨i + 12, a⟩ : Block).buddy ∈ blocks F
      · obtain ⟨hfree, hlevel⟩ := h.buddy_mem_iff.mp hbud
        obtain ⟨b₁, hb₁, hmem₁, hheld₁⟩ := h.merge hbud
        obtain ⟨i', a', b', F', hrun, hmem', hheld', hno⟩ := ih hheld₁ (by omega)
        refine ⟨i', a', b', F', ?_, hmem'.trans hmem₁, hheld', hno⟩
        rw [if_neg (by simp [hfree, hlevel]), hb₁]
        exact hrun
      · refine ⟨i, a, b, F, ?_, rfl, h, hbud⟩
        rw [if_pos]
        by_contra hno
        rw [not_or, Bool.not_eq_true, not_not] at hno
        exact hbud (h.buddy_mem_iff.mpr hno)

end Held

/-! ## §3  The two calls -/

/-- The order of a request is the smallest that is large enough. -/
theorem numPagesToOrder_eq {n : ℕ} (hn : n ≠ 0) :
    numPagesToOrder n = .done (Nat.clog 2 n) := by
  unfold numPagesToOrder
  rw [ukAssert, if_pos hn, Outcome.done_bind]
  congr 1
  split
  · rename_i h1
    rw [h1, Nat.clog_one_right]
  · rename_i h1
    have hpos : n - 1 ≠ 0 := by omega
    apply le_antisymm
    · apply (Nat.log2_lt hpos).mpr
      have := Nat.le_pow_clog (by norm_num : 1 < 2) n
      omega
    · apply (Nat.clog_le_iff_le_pow (by norm_num)).mpr
      have := @Nat.lt_log2_self (n - 1)
      omega

theorem Shape.findLevel {b : Bbpalloc} {F : ℕ → List ℕ} (h : Shape b F) (n i : ℕ) :
    ∃ j, Buddy.findLevel b n i = .done j ∧ i ≤ j ∧ j ≤ i + n ∧
      (∀ k, i ≤ k → k < j → F k = []) ∧ (j < i + n → F j ≠ []) := by
  induction n generalizing i with
  | zero => exact ⟨i, rfl, le_rfl, le_rfl, fun k h₁ h₂ => absurd h₂ (Nat.not_lt.mpr h₁), by simp⟩
  | succ n ih =>
      unfold Buddy.findLevel
      rw [h.first_eq i]
      simp only [Outcome.ofOption, Outcome.done_bind]
      cases hF : F i with
      | nil =>
          rw [List.map_nil, List.headD_nil, if_pos (h.ends i)]
          obtain ⟨j, hj, hlo, hhi, hempty, hfull⟩ := ih (i + 1)
          refine ⟨j, hj, by omega, by omega, fun k h₁ h₂ => ?_, fun hlt => hfull (by omega)⟩
          rcases Nat.eq_or_lt_of_le h₁ with rfl | h₁
          · exact hF
          · exact hempty k h₁ h₂
      | cons a l =>
          have hne := h.lists.next_ne_none (n := .chunk a) (chunk_mem.mpr (hF ▸ List.mem_cons_self))
            (Option.some_ne_none _)
          rw [List.map_cons, List.headD_cons, if_neg hne]
          exact ⟨i, rfl, le_rfl, by omega, fun k h₁ h₂ => absurd h₂ (Nat.not_lt.mpr h₁),
            fun _ => by simp [hF]⟩

section Counter

variable {b b' : Bbpalloc} {i a : ℕ}

theorem linkChunk_nrFreePages (h : linkChunk b i a = .done b') :
    b'.nrFreePages = b.nrFreePages := by
  unfold linkChunk at h
  split at h
  · obtain ⟨_, -, h⟩ := Outcome.bind_eq_done.mp h
    cases h
    rfl
  · cases h

theorem unlinkChunk_nrFreePages (h : unlinkChunk b a = .done b') :
    b'.nrFreePages = b.nrFreePages := by
  obtain ⟨_, -, h⟩ := Outcome.bind_eq_done.mp h
  cases h
  rfl

/-- Only the bitmap functions count pages. -/
theorem splitChunk_nrFreePages {order n : ℕ} (h : splitChunk a order n b = .done b') :
    b'.nrFreePages = b.nrFreePages := by
  induction n generalizing b with
  | zero =>
      cases h
      rfl
  | succ n ih =>
      obtain ⟨b₁, h₁, h⟩ := Outcome.bind_eq_done.mp h
      rw [ih h, linkChunk_nrFreePages h₁]

theorem mergeChunk_nrFreePages {order ch n i a : ℕ}
    (h : mergeChunk n order ch b = .done (i, a, b')) : b'.nrFreePages = b.nrFreePages := by
  induction n generalizing b order ch with
  | zero =>
      cases h
      rfl
  | succ n ih =>
      unfold mergeChunk at h
      dsimp only at h
      generalize (if ch &&& 2 ^ (order + 12) ≠ 0 then ch - 2 ^ (order + 12)
        else ch + 2 ^ (order + 12)) = toMerge at h
      by_cases hstop : allocatedInMap b toMerge ∨ b.level toMerge ≠ order
      · rw [if_pos hstop] at h
        cases h
        rfl
      · rw [if_neg hstop] at h
        obtain ⟨b₁, h₁, h⟩ := Outcome.bind_eq_done.mp h
        rw [ih h, unlinkChunk_nrFreePages h₁]

theorem mapAlloc_nrFreePages {n : ℕ} (h : mapAlloc b a n = .done b') :
    b'.nrFreePages = b.nrFreePages - n := by
  obtain ⟨_, -, h⟩ := Outcome.bind_eq_done.mp h
  cases h
  rfl

/-- `map_alloc` insists on pages of one region. -/
theorem mapAlloc_spin (h : ¬ InRegion b ⟨i + 12, a⟩) : mapAlloc b a (2 ^ i) = .spin := by
  unfold mapAlloc mapUpdate mapGetMemr
  cases hf : b.memrs.find? (·.covers a) with
  | none => rfl
  | some memr =>
      obtain ⟨hmem, hcov⟩ := find_covers hf
      have hno : ¬ a + 2 ^ i * pageSize ≤ memr.stop := fun hle =>
        h ⟨memr, hmem, (Memr.covers_iff.mp hcov).1, by rw [pages_bytes] at hle; exact hle⟩
      dsimp only
      rw [ukAssert, if_neg hno]
      rfl

theorem mapFree_nrFreePages {n : ℕ} (h : mapFree b a n = .done b') :
    b'.nrFreePages = b.nrFreePages + n := by
  obtain ⟨_, -, h⟩ := Outcome.bind_eq_done.mp h
  cases h
  rfl

end Counter

theorem SameRegions.of_eq {b b' : Bbpalloc} (hreg : Regions b.memrs) (h : b'.memrs = b.memrs) :
    SameRegions b b' := by
  refine ⟨h ▸ hreg, fun c => ?_, by rw [h]⟩
  unfold InRegion
  rw [h]

theorem SameRegions.trans {b b' b'' : Bbpalloc} (h : SameRegions b b') (h' : SameRegions b' b'') :
    SameRegions b b'' :=
  ⟨h'.regions, fun c => (h'.same c).trans (h.same c), h'.pages.trans h.pages⟩

namespace Ok

variable {b : Bbpalloc} {F : ℕ → List ℕ}

/-- `bbuddy_palloc` fails when all lists of large enough chunks are empty, and
otherwise hands out an aligned block of free pages. -/
theorem palloc (h : Ok b F) {n : ℕ} (hn : n ≠ 0) (hmax : n ≤ 2 ^ freelistSize) :
    (bbuddyPalloc b n = .done (none, b) ∧ ∀ j, Nat.clog 2 n ≤ j → F j = []) ∨
    ∃ a b' F', bbuddyPalloc b n = .done (some a, b') ∧ Ok b' F' ∧ SameRegions b b' ∧
      b'.nrFreePages + 2 ^ Nat.clog 2 n = b.nrFreePages ∧
      (⟨Nat.clog 2 n + 12, a⟩ : Block).Aligned ∧ InRegion b ⟨Nat.clog 2 n + 12, a⟩ ∧
      (∀ p, pageSize ∣ p → p ∈ (⟨Nat.clog 2 n + 12, a⟩ : Block).span →
        allocatedInMap b p = false) ∧
      ∀ p, pageSize ∣ p → (allocatedInMap b' p = false ↔
        allocatedInMap b p = false ∧ p ∉ (⟨Nat.clog 2 n + 12, a⟩ : Block).span) := by
  have horder : Nat.clog 2 n ≤ freelistSize :=
    (Nat.clog_le_iff_le_pow (by norm_num)).mpr hmax
  generalize hk : Nat.clog 2 n = k at horder
  obtain ⟨j, hj, hkj, hjmax, hempty, hfull⟩ := h.shape.findLevel (freelistSize - k) k
  have hsum : k + (freelistSize - k) = freelistSize := by omega
  rw [hsum] at hjmax hfull
  have hcall : bbuddyPalloc b n = if j = freelistSize then .done (none, b)
      else if freelistSize < j then .wild else takeChunk b k j := by
    unfold bbuddyPalloc
    rw [numPagesToOrder_eq hn, Outcome.done_bind, hk, hj, Outcome.done_bind]
  by_cases hnone : j = freelistSize
  · left
    refine ⟨by rw [hcall, if_pos hnone], fun i hi => ?_⟩
    by_cases hlt : i < freelistSize
    · exact hempty i hi (hnone ▸ hlt)
    · refine List.eq_nil_iff_forall_not_mem.mpr fun a ha => ?_
      exact hlt (h.order_lt ha)
  · right
    have hjlt : j < freelistSize := by omega
    obtain ⟨a, l, hF⟩ := List.exists_cons_of_ne_nil (hfull hjlt)
    have ha : a ∈ F j := hF ▸ List.mem_cons_self
    obtain ⟨b₁, hb₁, hmem₁, hheld₁⟩ := h.take ha
    have hjk : j = k + (j - k) := by omega
    rw [hjk] at hheld₁
    obtain ⟨b₂, F₂, hb₂, hmem₂, hheld₂⟩ := Held.splitChunk k (j - k) hheld₁
    obtain ⟨b₃, hb₃, hok, hsame, hbits⟩ := hheld₂.alloc
    have hmem : b₂.memrs = b.memrs := hmem₂.trans hmem₁
    have hregions := SameRegions.of_eq h.regions hmem
    refine ⟨a, b₃, F₂, ?_, hok, hregions.trans hsame, ?_, hheld₂.holed.aligned,
      (hregions.same _).mp hheld₂.hole, fun p hp hin => ?_, fun p hp => ?_⟩
    · unfold takeChunk at hcall
      rw [hcall, if_neg hnone, if_neg (by omega), h.shape.first_eq j, hF]
      simp only [List.map_cons, List.headD_cons, h.shape.popChunk_eq hF, hb₁, hb₂, hb₃,
        Outcome.done_bind]
    · rw [mapAlloc_nrFreePages hb₃, ← unlinkChunk_nrFreePages hb₁, ← splitChunk_nrFreePages hb₂]
      exact Nat.sub_add_cancel (hheld₂.count ▸ Nat.le_add_left _ _)
    · rw [← allocatedInMap_congr hmem]
      exact (hheld₂.bits p hp).mpr (Or.inr hin)
    · rw [hbits p hp, allocatedInMap_congr hmem]

/-- `bbuddy_pfree` of a block that is on no list. -/
theorem pfree (h : Ok b F) {n a : ℕ} (hn : n ≠ 0)
    (hal : (⟨Nat.clog 2 n + 12, a⟩ : Block).Aligned) (hin : InRegion b ⟨Nat.clog 2 n + 12, a⟩)
    (hapart : ∀ c ∈ blocks F, ∀ x ∈ c.span, x ∉ (⟨Nat.clog 2 n + 12, a⟩ : Block).span) :
    ∃ b' F', bbuddyPfree b a n = .done b' ∧ Ok b' F' ∧ SameRegions b b' ∧
      b'.nrFreePages = b.nrFreePages + 2 ^ Nat.clog 2 n ∧
      ∀ p, pageSize ∣ p → (allocatedInMap b' p = false ↔
        allocatedInMap b p = false ∨ p ∈ (⟨Nat.clog 2 n + 12, a⟩ : Block).span) := by
  generalize hk : Nat.clog 2 n = k at hal hin hapart
  have hlt := hin.order_lt h.regions
  have hpage : a % pageSize = 0 :=
    Nat.mod_eq_zero_of_dvd ((pageSize_dvd_pow k).trans hal)
  obtain ⟨b₁, hb₁, hheld₁, hsame, hbits⟩ := h.free hal hin hapart
  obtain ⟨i, c, b₂, F₂, hb₂, hmem₂, hheld₂, hbud⟩ :=
    hheld₁.mergeChunk (freelistSize - k) (by omega)
  obtain ⟨b₃, hb₃, hmem₃, hok⟩ := hheld₂.fill hbud
  have hmem : b₃.memrs = b₁.memrs := hmem₃.trans hmem₂
  refine ⟨b₃, _, ?_, hok, hsame.trans (SameRegions.of_eq hsame.regions hmem), ?_,
    fun p hp => ?_⟩
  · unfold bbuddyPfree
    rw [numPagesToOrder_eq hn, Outcome.done_bind, ukAssert, if_pos hpage, Outcome.done_bind, hk,
      hb₁, Outcome.done_bind, hb₂, Outcome.done_bind]
    exact hb₃
  · rw [linkChunk_nrFreePages hb₃, mergeChunk_nrFreePages hb₂, mapFree_nrFreePages hb₁]
  · rw [allocatedInMap_congr hmem]
    exact hbits p hp

end Ok

/-! ## §4  Adding memory -/

/-- The inner loop finds the largest aligned chunk that fits. -/
theorem chunkShift_spec {min range : ℕ} (n : ℕ) {i : ℕ} (hal : 2 ^ i ∣ min) (hle : 2 ^ i ≤ range)
    (hlt : range < 2 ^ (i + n)) :
    ∃ j, chunkShift min range n i = j ∧ i ≤ j ∧ (⟨j, min⟩ : Block).Aligned ∧ 2 ^ j ≤ range ∧
      ((⟨j, min⟩ : Block).lower → range < 2 ^ (j + 1)) := by
  induction n generalizing i with
  | zero => exact absurd hle (Nat.not_le.mpr hlt)
  | succ n ih =>
      have hbit := Block.and_pow_ne_zero_iff (b := ⟨i, min⟩) hal
      unfold chunkShift
      by_cases hfit : 2 ^ (i + 1) ≤ range
      · rw [if_pos hfit]
        by_cases hset : min &&& 2 ^ i ≠ 0
        · rw [if_pos hset]
          exact ⟨i, rfl, le_rfl, hal, hle, fun hl => absurd hl (hbit.mp hset)⟩
        · rw [if_neg hset]
          have hlow : (⟨i, min⟩ : Block).lower := not_not.mp (fun hl => hset (hbit.mpr hl))
          have hsum : i + 1 + n = i + (n + 1) := by omega
          obtain ⟨j, hj, hij, hrest⟩ := ih hlow hfit (by rwa [hsum])
          exact ⟨j, hj, (Nat.le_succ i).trans hij, hrest⟩
      · rw [if_neg hfit]
        exact ⟨i, rfl, le_rfl, hal, hle, fun _ => Nat.lt_of_not_le hfit⟩

/-- Memory from `lo` on is being cut into chunks, and `cur` has been reached. The
other chunks are not even adjacent. -/
structure Adding (b : Bbpalloc) (F : ℕ → List ℕ) (lo cur max : ℕ) : Prop where
  shape : Shape b F
  family : Coalesced (blocks F)
  place : ∀ c ∈ blocks F, (c.stop < lo ∨ max < c.start) ∨
    (lo ≤ c.start ∧ c.stop ≤ cur ∧ (c.lower → max < c.start + 2 ^ (c.order + 1)))

namespace Adding

variable {b : Bbpalloc} {F : ℕ → List ℕ} {lo cur max i : ℕ}

/-- One chunk. -/
theorem step (h : Adding b F lo cur max) (hlo : lo ≤ cur)
    (hal : (⟨i + 12, cur⟩ : Block).Aligned) (hfit : cur + 2 ^ (i + 12) ≤ max)
    (hbig : (⟨i + 12, cur⟩ : Block).lower → max < cur + 2 ^ (i + 12 + 1)) (hmax : max < 2 ^ 63) :
    ∃ b', linkChunk b i cur = .done b' ∧ b'.memrs = b.memrs ∧ b'.nrFreePages = b.nrFreePages ∧
      i < freelistSize ∧
      Adding b' (Function.update F i (cur :: F i)) lo (cur + 2 ^ (i + 12)) max := by
  set c : Block := ⟨i + 12, cur⟩ with hc
  have hstop : c.stop = cur + 2 ^ (i + 12) := rfl
  have hstart : c.start = cur := rfl
  have hclt := c.start_lt_stop
  have hi : i < freelistSize := by
    have hlt : 2 ^ (i + 12) < 2 ^ 63 := by omega
    have := (Nat.pow_lt_pow_iff_right (by norm_num : 1 < 2)).mp hlt
    unfold freelistSize
    omega
  have hapart : ∀ d ∈ blocks F, ∀ x ∈ d.span, x ∉ c.span := by
    rintro d hd x ⟨hx₁, hx₂⟩ ⟨hx₃, hx₄⟩
    have := h.place d hd
    omega
  -- a buddy on the lists would be the piece before, which was not the largest then
  have hbud : c.buddy ∉ blocks F := by
    intro hmem
    have hblt := c.buddy.start_lt_stop
    have hplace := h.place _ hmem
    rcases Block.buddy_adjacent hal with hadj | hadj
    · omega
    · rcases hplace with hout | ⟨-, -, hgreedy⟩
      · omega
      · have hnot : ¬ c.lower := by
          intro hl
          have := congrArg Block.start (Block.buddy_eq_lower hl)
          dsimp only at this
          have hb : c.buddy.stop = c.buddy.start + 2 ^ (i + 12) := rfl
          have hpos := Nat.two_pow_pos c.order
          omega
        have hup := hgreedy ((Block.buddy_lower hal).mpr hnot)
        have hb : c.buddy.stop = c.buddy.start + 2 ^ (i + 12) := rfl
        have hord : c.buddy.order = i + 12 := rfl
        rw [hord, pow_succ] at hup
        omega
  obtain ⟨b', hb', hshape, hmem, hfree⟩ := h.shape.link hi (a := cur) fun j hj =>
    hapart _ (mem_blocks hj) cur (Block.start_mem _) (Block.start_mem _)
  refine ⟨b', hb', hmem, hfree, hi, hshape, ?_, ?_⟩
  · rw [blocks_link]
    exact Holed.fill ⟨h.family, hal, hapart⟩ hbud
  · rw [blocks_link]
    rintro d (rfl | hd)
    · exact Or.inr ⟨hlo, le_rfl, hbig⟩
    · rcases h.place d hd with hout | ⟨h₁, h₂, h₃⟩
      · exact Or.inl hout
      · exact Or.inr ⟨h₁, by omega, h₃⟩

/-- The outer loop. -/
theorem addChunks (n : ℕ) (h : Adding b F lo cur max) (hlo : lo ≤ cur) (hle : cur ≤ max)
    (hcur : pageSize ∣ cur) (hpage : pageSize ∣ max) (hmax : max < 2 ^ 63)
    (hn : (max - cur) / pageSize ≤ n) :
    ∃ b' F', Buddy.addChunks n cur (max - cur) b = .done b' ∧ b'.memrs = b.memrs ∧
      b'.nrFreePages = b.nrFreePages ∧ Adding b' F' lo max max ∧
      (cur = max → F' = F) ∧ (cur < max → ∃ i a l, F' i = a :: l ∧ a + 2 ^ (i + 12) = max) ∧
      (∀ c ∈ blocks F', c ∈ blocks F ∨ cur ≤ c.start ∧ c.stop ≤ max) ∧
      (∀ x, x ∈ cover (blocks F') ↔ x ∈ cover (blocks F) ∨ cur ≤ x ∧ x < max) ∧
      pagesIn F' * pageSize = pagesIn F * pageSize + (max - cur) := by
  induction n generalizing b F cur with
  | zero =>
      have hend : cur = max := by
        obtain ⟨m, rfl⟩ := hcur
        obtain ⟨k, rfl⟩ := hpage
        unfold pageSize at *
        omega
      subst hend
      exact ⟨b, F, rfl, rfl, rfl, h, fun _ => rfl, fun hlt => absurd hlt (lt_irrefl _),
        fun _ => Or.inl, fun x => ⟨Or.inl, fun hx => hx.resolve_right (by omega)⟩, by omega⟩
  | succ n ih =>
      unfold Buddy.addChunks
      by_cases hrange : max - cur = 0
      · rw [if_pos hrange]
        obtain rfl : cur = max := by omega
        exact ⟨b, F, rfl, rfl, rfl, h, fun _ => rfl, fun hlt => absurd hlt (lt_irrefl _),
          fun _ => Or.inl, fun x => ⟨Or.inl, fun hx => hx.resolve_right (by omega)⟩, by omega⟩
      · have hone : 2 ^ 12 ≤ max - cur := by
          obtain ⟨m, rfl⟩ := hcur
          obtain ⟨k, rfl⟩ := hpage
          unfold pageSize at *
          omega
        obtain ⟨j, hj, hij, hal, hfit, hbig⟩ := chunkShift_spec freelistSize hcur hone
          (by unfold freelistSize; omega)
        obtain ⟨i, rfl⟩ : ∃ i, j = i + 12 := ⟨j - 12, by omega⟩
        obtain ⟨b₁, hb₁, hmem₁, hfree₁, hi, hadd₁⟩ := h.step hlo hal (by omega)
          (fun hl => by have := hbig hl; omega) hmax
        have hpow : pageSize ≤ 2 ^ (i + 12) :=
          Nat.le_of_dvd (Nat.two_pow_pos _) (pageSize_dvd_pow i)
        have hcur₁ : pageSize ∣ cur + 2 ^ (i + 12) :=
          (Nat.dvd_add_right hcur).mpr (pageSize_dvd_pow i)
        have hn₁ : (max - (cur + 2 ^ (i + 12))) / pageSize ≤ n := by
          have hsub : max - (cur + 2 ^ (i + 12)) + pageSize ≤ max - cur := by omega
          have := Nat.div_le_div_right (c := pageSize) hsub
          rw [Nat.add_div_right _ (by decide)] at this
          omega
        have hne : cur ≠ max := by omega
        obtain ⟨b₂, F₂, hb₂, hmem₂, hfree₂, hadd₂, hend, hlast, hplace, hcov, hcount⟩ :=
          ih hadd₁ (by omega) (by omega) hcur₁ hn₁
        refine ⟨b₂, F₂, ?_, hmem₂.trans hmem₁, hfree₂.trans hfree₁, hadd₂,
          fun heq => absurd heq hne, fun _ => ?_, fun c hc => ?_, fun x => ?_, ?_⟩
        · rw [if_neg hrange, hj]
          dsimp only
          rw [Nat.add_sub_cancel, hb₁, Outcome.done_bind, Nat.sub_sub]
          exact hb₂
        · by_cases hrest : cur + 2 ^ (i + 12) < max
          · exact hlast hrest
          · -- this was the last round
            have hmax' : cur + 2 ^ (i + 12) = max := by omega
            exact ⟨i, cur, F i, by rw [hend hmax', Function.update_self], hmax'⟩
        · rcases hplace c hc with hc | hin
          · rw [blocks_link] at hc
            rcases hc with rfl | hc
            · exact Or.inr ⟨le_rfl, by show cur + 2 ^ (i + 12) ≤ max; omega⟩
            · exact Or.inl hc
          · exact Or.inr ⟨by omega, hin.2⟩
        · rw [hcov x, blocks_link]
          constructor
          · rintro (⟨c, rfl | hc, hx⟩ | hx)
            · exact Or.inr ⟨hx.1, hx.2.trans_le (by show cur + 2 ^ (i + 12) ≤ max; omega)⟩
            · exact Or.inl ⟨c, hc, hx⟩
            · exact Or.inr ⟨by omega, hx.2⟩
          · rintro (⟨c, hc, hx⟩ | hx)
            · exact Or.inl ⟨c, Or.inr hc, hx⟩
            · by_cases hin : x < cur + 2 ^ (i + 12)
              · exact Or.inl ⟨_, Or.inl rfl, hx.1, hin⟩
              · exact Or.inr ⟨by omega, hx.2⟩
        · clear hlast
          rw [hcount, pagesIn_link hi, Nat.add_mul, pages_bytes]
          omega

end Adding

/-- The range has a page for the descriptor and one for data. -/
def Enough (base len : ℕ) : Prop := roundPgup base + 2 * pageSize ≤ roundPgdown (base + len)

/-- `bbuddy_addmem` has put the memory from the first page of `r` up to `max` on
the lists. -/
structure Grown (b : Bbpalloc) (F : ℕ → List ℕ) (r : Memr) (max : ℕ) (b' : Bbpalloc)
    (F' : ℕ → List ℕ) : Prop where
  shape : Shape b' F'
  family : Coalesced (blocks F')
  regions : Regions b'.memrs
  last : ∃ i a l, F' i = a :: l ∧ a + 2 ^ (i + 12) = max
  place : ∀ c ∈ blocks F', c ∈ blocks F ∨ r.firstPage ≤ c.start ∧ c.stop ≤ max
  cover : ∀ x, x ∈ cover (blocks F') ↔ x ∈ cover (blocks F) ∨ r.firstPage ≤ x ∧ x < max
  same : ∀ c, InRegion b' c ↔ InRegion b c ∨ r.Encloses c
  bits : ∀ p, pageSize ∣ p → (allocatedInMap b' p = false ↔
    allocatedInMap b p = false ∨ r.firstPage ≤ p ∧ p < r.stop)
  count : b'.nrFreePages = b.nrFreePages + r.nrPages
  total : b'.memrs.map Memr.nrPages = r.nrPages :: b.memrs.map Memr.nrPages
  pages : pagesIn F' * pageSize = pagesIn F * pageSize + (max - r.firstPage)

section Sizes

variable {base len min range : ℕ}

theorem pageSize_dvd_roundPgup : pageSize ∣ roundPgup base := dvd_mul_left _ _

theorem pageSize_dvd_roundPgdown : pageSize ∣ roundPgdown base := dvd_mul_left _ _

theorem roundPgdown_le (a : ℕ) : roundPgdown a ≤ a := Nat.div_mul_le_self _ _

/-- The descriptor takes one page for every 32768 pages it describes. -/
theorem memr_pages {m : ℕ} (h : 2 ≤ m) :
    nrPagesFor (m * pageSize) = m - 1 - (m + 319) / 32769 ∧
      memrSize (m * pageSize) =
        ((m + 319) / 32769 + if (m + 319) % 32769 = 0 then 0 else 1) * pageSize := by
  have hnr : nrPagesFor (m * pageSize) = m - 1 - (m + 319) / 32769 := by
    unfold nrPagesFor memrSizeof pageSize
    omega
  refine ⟨hnr, ?_⟩
  unfold memrSize
  rw [hnr]
  -- so many pages are described
  obtain ⟨q, t, hsum, hq, ht⟩ : ∃ q t, m + 319 = 32769 * q + t ∧ (m + 319) / 32769 = q ∧
      (m + 319) % 32769 = t := ⟨_, _, (Nat.div_add_mod _ _).symm, rfl, rfl⟩
  have htlt : t < 32769 := ht ▸ Nat.mod_lt _ (by norm_num)
  rw [hq, ht]
  have hbytes : memrSizeof + (m - 1 - q + 7) / 8 = 4096 * q + (t + 7) / 8 := by
    unfold memrSizeof
    omega
  rw [hbytes]
  unfold roundPgup pageSize
  split <;> omega

/-- Descriptor and pages fit into the range, and there is a page. -/
theorem memr_fits (hpage : pageSize ∣ range) (h : 2 * pageSize ≤ range) :
    memrSize range + nrPagesFor range * pageSize ≤ range ∧ 0 < nrPagesFor range ∧
      0 < memrSize range := by
  obtain ⟨m, rfl⟩ := hpage
  rw [Nat.mul_comm] at h ⊢
  have hm : 2 ≤ m := by unfold pageSize at h; omega
  obtain ⟨hnr, hsize⟩ := memr_pages hm
  rw [hnr, hsize]
  unfold pageSize
  split <;> omega

/-- They fill it but for one size in 32769, where a page is left over. -/
theorem memr_exact (hpage : pageSize ∣ range) (h : 2 * pageSize ≤ range) :
    memrSize range + nrPagesFor range * pageSize = range ↔
      ¬ 32769 ∣ range / pageSize + 319 := by
  obtain ⟨m, rfl⟩ := hpage
  rw [Nat.mul_comm] at h ⊢
  have hm : 2 ≤ m := by unfold pageSize at h; omega
  obtain ⟨hnr, hsize⟩ := memr_pages hm
  rw [hnr, hsize, Nat.mul_div_cancel _ (by decide), Nat.dvd_iff_mod_eq_zero]
  unfold pageSize
  split <;> omega

end Sizes

/-- The range may be given to the allocator. -/
structure Addable (b : Bbpalloc) (base len : ℕ) : Prop where
  pos : base ≠ 0
  user : base + len < 2 ^ 63
  apart : ∀ s ∈ b.memrs, s.stop ≤ roundPgup base ∨ roundPgdown (base + len) ≤ s.addr

/-- The descriptor for the range. -/
def memrOf (base len : ℕ) : Memr :=
  newMemr (roundPgup base) (roundPgdown (base + len) - roundPgup base)

section AddMem

variable {b : Bbpalloc} {F : ℕ → List ℕ} {base len : ℕ}

theorem memrOf_fits (h : Enough base len) :
    pageSize ∣ (memrOf base len).firstPage ∧ (memrOf base len).addr = roundPgup base ∧
      roundPgup base < (memrOf base len).firstPage ∧ 0 < (memrOf base len).nrPages ∧
      (memrOf base len).stop ≤ roundPgdown (base + len) := by
  have hdvd : pageSize ∣ roundPgdown (base + len) - roundPgup base :=
    Nat.dvd_sub pageSize_dvd_roundPgdown pageSize_dvd_roundPgup
  unfold Enough at h
  obtain ⟨hfit, hnr, hsize⟩ := memr_fits hdvd (by omega)
  refine ⟨(Nat.dvd_add_right pageSize_dvd_roundPgup).mpr (dvd_mul_left _ _), rfl, ?_, hnr, ?_⟩
  · show roundPgup base < roundPgup base + _
    omega
  · show roundPgup base + memrSize _ + nrPagesFor _ * pageSize ≤ _
    omega

/-- The pages fill the range but for one size in 32769. -/
theorem memrOf_stop_eq (h : Enough base len) :
    (memrOf base len).stop = roundPgdown (base + len) ↔
      ¬ 32769 ∣ (roundPgdown (base + len) - roundPgup base) / pageSize + 319 := by
  have hdvd : pageSize ∣ roundPgdown (base + len) - roundPgup base :=
    Nat.dvd_sub pageSize_dvd_roundPgdown pageSize_dvd_roundPgup
  unfold Enough at h
  rw [← memr_exact hdvd (by omega)]
  show roundPgup base + memrSize _ + nrPagesFor _ * pageSize = _ ↔ _
  omega

/-- A range without room for a descriptor and a page is refused. -/
theorem addmem_refused (hbase : base ≠ 0) (h : ¬ Enough base len) :
    bbuddyAddmem b base len = .done (none, b) := by
  have hone : roundPgup (memrSizeof + 8) + pageSize = 2 * pageSize := rfl
  unfold bbuddyAddmem
  rw [ukAssert, if_pos hbase, Outcome.done_bind]
  unfold Enough at h
  by_cases hlt : roundPgdown (base + len) < roundPgup base
  · exact if_pos hlt
  · dsimp only
    rw [if_neg hlt, if_pos (by omega)]

/-- The region joins the others, with all its pages allocated. -/
theorem Regions.cons_memrOf (h : Ok b F) (hadd : Addable b base len) (hen : Enough base len) :
    Regions (memrOf base len :: b.memrs) := by
  obtain ⟨hpage, haddr, hlt, -, hstop⟩ := memrOf_fits hen
  have hmax := roundPgdown_le (base + len)
  have huser := hadd.user
  refine ⟨List.pairwise_cons.mpr ⟨fun s hs => ?_, h.regions.apart⟩, ?_, ?_, ?_⟩
  · rcases hadd.apart s hs with hle | hle
    · exact Or.inr (haddr ▸ hle)
    · exact Or.inl (hstop.trans hle)
  · exact List.forall_mem_cons.mpr ⟨haddr ▸ hlt, h.regions.desc⟩
  · exact List.forall_mem_cons.mpr ⟨hpage, h.regions.page⟩
  · exact List.forall_mem_cons.mpr ⟨by omega, h.regions.user⟩

theorem allocatedInMap_cons {r : Memr} {p : ℕ} (hr : r.mmAllocBitmap = fun _ => BitVec.allOnes 64) :
    allocatedInMap { b with memrs := r :: b.memrs } p =
      (r.covers p || allocatedInMap b p) := by
  unfold allocatedInMap mapGetMemr
  rw [List.find?_cons]
  cases r.covers p with
  | true =>
      show r.mmAllocBitmap.bit _ = true
      rw [hr]
      exact (BitVec.getLsbD_allOnes).trans (decide_eq_true (Nat.mod_lt _ (by norm_num)))
  | false => rfl

/-- `bbuddy_addmem` runs to its end, whatever the size of the range. -/
theorem Ok.addmem (h : Ok b F) (hadd : Addable b base len) (hen : Enough base len) :
    ∃ b' F', bbuddyAddmem b base len = .done (some (), b') ∧
      Grown b F (memrOf base len) (roundPgdown (base + len)) b' F' := by
  obtain ⟨hpage, haddr, hlt, hnr, hstop⟩ := memrOf_fits hen
  set r := memrOf base len with hr
  set max := roundPgdown (base + len) with hmax
  have huser : max < 2 ^ 63 := (roundPgdown_le (base + len)).trans_lt hadd.user
  have hreg := Regions.cons_memrOf h hadd hen
  obtain ⟨memrs, hupd, hregs, hfrom, hto, hpagesr, hbits⟩ :=
    mapUpdate_spec (b := { b with memrs := r :: b.memrs }) (g := fun x y => x && !y)
      Bitmap.bit_clearRange (by simp) hreg List.mem_cons_self hpage le_rfl hnr le_rfl
  -- the chunks that are there lie in the other regions
  have hstart : Adding { b with memrs := memrs, nrFreePages := b.nrFreePages + r.nrPages } F
      r.firstPage r.firstPage max := by
    refine ⟨⟨h.shape.lists, h.shape.ends, h.shape.level⟩, h.family, fun c hc => Or.inl ?_⟩
    obtain ⟨s, hs, hlow, hhigh⟩ := h.inside c hc
    have hdesc := h.regions.desc s hs
    rcases hadd.apart s hs with hle | hle
    · omega
    · omega
  obtain ⟨b', F', hrun, hmem, hfree, hdone, -, hlast, hplace, hcov, hpages⟩ :=
    hstart.addChunks ((max - r.firstPage) / pageSize) le_rfl
      ((Nat.le_add_right _ _).trans hstop) hpage pageSize_dvd_roundPgdown huser le_rfl
  refine ⟨b', F', ?_, hdone.shape, hdone.family, hmem ▸ hregs, hlast ?_, hplace, hcov, ?_,
    ?_, hfree, (congrArg (List.map Memr.nrPages) hmem).trans hpagesr, hpages⟩
  · have hone : roundPgup (memrSizeof + 8) + pageSize = 2 * pageSize := rfl
    have hen' := hen
    unfold Enough at hen'
    have hleft : max - roundPgup base - memrSize (max - roundPgup base) = max - r.firstPage :=
      Nat.sub_sub _ _ _
    unfold bbuddyAddmem mapFree
    rw [ukAssert, if_pos hadd.pos, Outcome.done_bind]
    dsimp only
    rw [if_neg (by omega), if_neg (by omega), ← hmax, hleft]
    show Outcome.bind (Outcome.bind (mapUpdate { b with memrs := r :: b.memrs } r.firstPage
      r.nrPages Bitmap.clearRange) _) _ = _
    rw [hupd, Outcome.done_bind, Outcome.done_bind]
    show Outcome.bind (addChunks ((max - r.firstPage) / pageSize) r.firstPage (max - r.firstPage)
      { b with memrs := memrs, nrFreePages := b.nrFreePages + r.nrPages }) _ = _
    rw [hrun, Outcome.done_bind]
  · have hpos : 0 < r.nrPages * pageSize := Nat.mul_pos hnr (by decide)
    have hstop' : r.firstPage + r.nrPages * pageSize ≤ max := hstop
    omega
  · intro c
    unfold InRegion
    rw [hmem]
    constructor
    · rintro ⟨q', hq', hlow, hhigh⟩
      obtain ⟨q, hq, -, hfirst, hstop'⟩ := hto q' hq'
      rw [hfirst] at hlow
      rw [hstop'] at hhigh
      rcases List.mem_cons.mp hq with rfl | hq
      · exact Or.inr ⟨hlow, hhigh⟩
      · exact Or.inl ⟨q, hq, hlow, hhigh⟩
    · rintro (⟨q, hq, hlow, hhigh⟩ | ⟨hlow, hhigh⟩)
      · obtain ⟨q', hq', hfirst, hstop'⟩ := hfrom q (List.mem_cons_of_mem r hq)
        exact ⟨q', hq', hfirst ▸ hlow, hstop' ▸ hhigh⟩
      · obtain ⟨q', hq', hfirst, hstop'⟩ := hfrom r List.mem_cons_self
        exact ⟨q', hq', hfirst ▸ hlow, hstop' ▸ hhigh⟩
  · intro p hp
    have hsame : allocatedInMap b' p = allocatedInMap { b with memrs := memrs } p :=
      allocatedInMap_congr hmem p
    rw [hsame, hbits p hp, allocatedInMap_cons (by rfl)]
    have hcovers := @Memr.covers_iff r p
    unfold Memr.stop at hcovers ⊢
    by_cases hin : r.firstPage ≤ p ∧ p < r.firstPage + r.nrPages * pageSize
    · rw [if_pos hin]
      simp [hin]
    · rw [if_neg hin]
      have : r.covers p = false := by
        rw [← Bool.not_eq_true]
        exact fun hc => hin (hcovers.mp hc)
      simp [this, hin]

namespace Grown

variable {b' : Bbpalloc} {F' : ℕ → List ℕ} {r : Memr} {max : ℕ}

/-- When the pages fill the range, the allocator is in order again. -/
theorem ok (h : Ok b F) (hg : Grown b F r max b' F') (hmax : r.stop = max) : Ok b' F' := by
  subst hmax
  refine ⟨hg.shape, hg.regions, hg.family, fun c hc => ?_, fun p hp => ?_, ?_⟩
  · rw [hg.same]
    exact (hg.place c hc).imp_left (h.inside c)
  · rw [hg.bits p hp, h.bits p hp, hg.cover]
  · have hpages := hg.pages
    have hsize : r.stop - r.firstPage = r.nrPages * pageSize := Nat.add_sub_cancel_left _ _
    rw [hsize, ← Nat.add_mul] at hpages
    rw [hg.count, h.count, Nat.eq_of_mul_eq_mul_right (by decide) hpages]

/-- A page left over is in the chunk that was put on its list last, and in no
region: a request for just that chunk does not return. -/
theorem spins (hg : Grown b F r max b' F') (hmax : max < 2 ^ 63) (hlt : r.stop < max)
    (hapart : ∀ s ∈ b.memrs, s.stop ≤ r.firstPage ∨ max ≤ s.firstPage) :
    ∃ n, n ≠ 0 ∧ n ≤ 2 ^ freelistSize ∧ bbuddyPalloc b' n = .spin := by
  obtain ⟨i, a, l, hF, hend⟩ := hg.last
  have ha : a ∈ F' i := hF ▸ List.mem_cons_self
  have hi : i < freelistSize := by
    have hpow : 2 ^ (i + 12) < 2 ^ 63 := by omega
    have := (Nat.pow_lt_pow_iff_right (by norm_num : 1 < 2)).mp hpow
    unfold freelistSize
    omega
  obtain ⟨b₁, hb₁, -, hmem₁, -⟩ := hg.shape.unlink ha
  have hout : ¬ InRegion b₁ ⟨i + 12, a⟩ := by
    intro hin
    rcases (hg.same _).mp (inRegion_congr hmem₁.symm hin) with ⟨s, hs, hlow, hhigh⟩ | ⟨-, hstop⟩
    · have hlow' : s.firstPage ≤ a := hlow
      have hhigh' : a + 2 ^ (i + 12) ≤ s.stop := hhigh
      have hpos := Nat.two_pow_pos (i + 12)
      rcases hapart s hs with hs | hs
      · have hdesc : r.firstPage ≤ r.stop := Nat.le_add_right _ _
        omega
      · omega
    · have hstop' : a + 2 ^ (i + 12) ≤ r.stop := hstop
      omega
  refine ⟨2 ^ i, (Nat.two_pow_pos i).ne', Nat.pow_le_pow_right (by norm_num) hi.le, ?_⟩
  have hclog : Nat.clog 2 (2 ^ i) = i := Nat.clog_pow 2 i (by norm_num)
  obtain ⟨j, hj, hij, -, hempty, -⟩ := hg.shape.findLevel (freelistSize - i) i
  obtain rfl : j = i := by
    by_contra hne
    rw [hempty i le_rfl (by omega)] at ha
    cases ha
  unfold bbuddyPalloc
  rw [numPagesToOrder_eq (Nat.two_pow_pos _).ne', Outcome.done_bind, hclog, hj, Outcome.done_bind,
    if_neg (by omega), if_neg (by omega), takeChunk, hg.shape.first_eq, hF, List.map_cons,
    List.headD_cons]
  dsimp only
  rw [hg.shape.popChunk_eq hF, hb₁, Outcome.done_bind, Nat.sub_self, splitChunk, Outcome.done_bind, mapAlloc_spin hout]
  rfl

end Grown

/-- Whether a later request can hang is decided by the size of the range. -/
theorem Ok.addmem_hangs_iff (h : Ok b F) (hadd : Addable b base len) (hen : Enough base len) :
    ∃ b', bbuddyAddmem b base len = .done (some (), b') ∧
      ((∃ n, n ≠ 0 ∧ n ≤ 2 ^ freelistSize ∧ bbuddyPalloc b' n = .spin) ↔
        32769 ∣ (roundPgdown (base + len) - roundPgup base) / pageSize + 319) := by
  obtain ⟨b', F', hrun, hg⟩ := h.addmem hadd hen
  obtain ⟨-, -, hlt, -, hstop⟩ := memrOf_fits hen
  refine ⟨b', hrun, ?_, ?_⟩
  · rintro ⟨n, hn, hmax, hspin⟩
    by_contra hdesc
    have hok := hg.ok h ((memrOf_stop_eq hen).mpr hdesc)
    rcases hok.palloc hn hmax with ⟨hdone, -⟩ | ⟨a, b'', F'', hdone, -⟩
    · rw [hspin] at hdone
      cases hdone
    · rw [hspin] at hdone
      cases hdone
  · intro hdesc
    have hne := (not_congr (memrOf_stop_eq hen)).mpr (not_not.mpr hdesc)
    have huser := (roundPgdown_le (base + len)).trans_lt hadd.user
    refine hg.spins huser (lt_of_le_of_ne hstop hne) fun s hs => ?_
    have hd := h.regions.desc s hs
    have := hadd.apart s hs
    omega

end AddMem

end Buddy

end CubicleOS
