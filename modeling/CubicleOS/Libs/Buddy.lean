import CubicleOS.Foundation.Bitmap
import CubicleOS.Foundation.Dyadic
import CubicleOS.Foundation.Machine
import CubicleOS.Foundation.Plist

/-!
# The page allocator

`ukallocbbuddy`: free memory is kept as chunks of a power of two of pages, one
doubly linked list per order, with a bitmap of the allocated pages for each
memory region. The head of a chunk lies in the chunk itself, so a page that is
handed out takes its old links with it. Addresses are natural numbers; memory is
in the user half of the address space, where nothing wraps around.
-/

namespace CubicleOS

open Foundation

namespace Buddy

/-! ## §1  The allocator's memory -/

/-- `__PAGE_SIZE`. -/
def pageSize : ℕ := 4096

/-- `FREELIST_SIZE`. -/
def freelistSize : ℕ := 52

/-- A `chunk_head_t *`: the chunk at an address, or `&free_tail[i]`. -/
inductive ChunkPtr where
  | chunk (a : ℕ)
  | tail (i : ℕ)
deriving DecidableEq, Repr

/-- `struct uk_bbpalloc_memr`, which lies at `addr`. -/
structure Memr where
  addr : ℕ
  firstPage : ℕ
  nrPages : ℕ
  mmAllocBitmap : Bitmap

/-- `struct uk_bbpalloc` and the chunk heads: `links` has `free_head` and the
`next` and `pprev` of all heads, `level` their third field. -/
structure Bbpalloc where
  nrFreePages : ℕ
  links : Links ℕ ChunkPtr
  level : ℕ → ℕ
  memrs : List Memr

def Memr.stop (r : Memr) : ℕ := r.firstPage + r.nrPages * pageSize

/-- The test in `map_get_memr`. -/
def Memr.covers (r : Memr) (va : ℕ) : Bool := r.firstPage ≤ va ∧ va < r.stop

/-- `map_get_memr`. -/
def mapGetMemr (b : Bbpalloc) (va : ℕ) : Option Memr := b.memrs.find? (·.covers va)

/-- `allocated_in_map`: pages outside all regions count as allocated. -/
def allocatedInMap (b : Bbpalloc) (va : ℕ) : Bool :=
  match mapGetMemr b va with
  | none => true
  | some memr => memr.mmAllocBitmap.bit ((va - memr.firstPage) / pageSize)

/-- A write through the pointer that `map_get_memr` returns. -/
def setMemr (va : ℕ) (f : Memr → Memr) : List Memr → List Memr
  | [] => []
  | r :: rs => if r.covers va then f r :: rs else r :: setMemr va f rs

/-- The part that `map_alloc` and `map_free` share: the region has to be there
and to hold all the pages. -/
def mapUpdate (b : Bbpalloc) (firstPage nrPages : ℕ) (f : Bitmap → ℕ → ℕ → Bitmap) :
    Outcome (List Memr) :=
  match mapGetMemr b firstPage with
  | none => .spin
  | some memr =>
      (ukAssert (firstPage + nrPages * pageSize ≤ memr.stop)).bind fun _ =>
        .done (setMemr firstPage (fun r =>
          { r with
            mmAllocBitmap :=
              f r.mmAllocBitmap ((firstPage - r.firstPage) / pageSize) nrPages }) b.memrs)

/-- `map_alloc`. -/
def mapAlloc (b : Bbpalloc) (firstPage nrPages : ℕ) : Outcome Bbpalloc :=
  (mapUpdate b firstPage nrPages Bitmap.setRange).bind fun memrs =>
    .done { b with memrs := memrs, nrFreePages := b.nrFreePages - nrPages }

/-- `map_free`. -/
def mapFree (b : Bbpalloc) (firstPage nrPages : ℕ) : Outcome Bbpalloc :=
  (mapUpdate b firstPage nrPages Bitmap.clearRange).bind fun memrs =>
    .done { b with memrs := memrs, nrFreePages := b.nrFreePages + nrPages }

/-- `num_pages_to_order`; `ukarch_flsl` is the number of the highest bit. -/
def numPagesToOrder (numPages : ℕ) : Outcome ℕ :=
  (ukAssert (numPages ≠ 0)).bind fun _ =>
    .done (if numPages = 1 then 0 else Nat.log2 (numPages - 1) + 1)

/-! ## §2  Allocating and freeing -/

/-- A chunk is put in front of `free_head[i]`; its `next` is followed. -/
def linkChunk (b : Bbpalloc) (i a : ℕ) : Outcome Bbpalloc :=
  if i < freelistSize then
    (Outcome.ofOption (b.links.first i)).bind fun _ =>
      .done { b with
        links := b.links.push i (.chunk a)
        level := Function.update b.level a i }
  else .wild

/-- A chunk is unlinked; its `next` is followed. -/
def unlinkChunk (b : Bbpalloc) (a : ℕ) : Outcome Bbpalloc :=
  (Outcome.ofOption (b.links.next (.chunk a))).bind fun _ =>
    .done { b with links := b.links.unlink (.chunk a) }

/-- The first chunk of a list is taken off it; its `next` is followed. -/
def popChunk (b : Bbpalloc) (i a : ℕ) : Outcome Bbpalloc :=
  (Outcome.ofOption (b.links.next (.chunk a))).bind fun _ =>
    .done { b with links := b.links.pop i (.chunk a) }

/-- The loop that looks for a list that is not `FREELIST_EMPTY`. -/
def findLevel (b : Bbpalloc) : ℕ → ℕ → Outcome ℕ
  | 0, i => .done i
  | n + 1, i =>
      (Outcome.ofOption (b.links.first i)).bind fun head =>
        if b.links.next head = none then findLevel b n (i + 1) else .done i

/-- The loop that breaks the chunk at `a`, `n` orders above `order`. -/
def splitChunk (a order : ℕ) : ℕ → Bbpalloc → Outcome Bbpalloc
  | 0, b => .done b
  | n + 1, b =>
      (linkChunk b (order + n) (a + 2 ^ (order + n + 12))).bind (splitChunk a order n)

/-- The first chunk of list `i` is taken off, broken up and marked allocated. The
head of a list that is not empty is a chunk. -/
def takeChunk (b : Bbpalloc) (order i : ℕ) : Outcome (Option ℕ × Bbpalloc) :=
  match b.links.first i with
  | some (.chunk a) =>
      (popChunk b i a).bind fun b =>
        (splitChunk a order (i - order) b).bind fun b =>
          (mapAlloc b a (2 ^ order)).bind fun b => .done (some a, b)
  | _ => .wild

/-- `bbuddy_palloc`. -/
def bbuddyPalloc (b : Bbpalloc) (numPages : ℕ) : Outcome (Option ℕ × Bbpalloc) :=
  (numPagesToOrder numPages).bind fun order =>
    (findLevel b (freelistSize - order) order).bind fun i =>
      if i = freelistSize then .done (none, b)
      else if freelistSize < i then .wild
      else takeChunk b order i

/-- The loop that merges the chunk at `ch` with its neighbours. -/
def mergeChunk : ℕ → ℕ → ℕ → Bbpalloc → Outcome (ℕ × ℕ × Bbpalloc)
  | 0, order, ch, b => .done (order, ch, b)
  | n + 1, order, ch, b =>
      let mask := 2 ^ (order + 12)
      let upper := ch &&& mask ≠ 0
      let toMerge := if upper then ch - mask else ch + mask
      if allocatedInMap b toMerge ∨ b.level toMerge ≠ order then .done (order, ch, b)
      else
        (unlinkChunk b toMerge).bind
          (mergeChunk n (order + 1) (if upper then toMerge else ch))

/-- `bbuddy_pfree`. -/
def bbuddyPfree (b : Bbpalloc) (obj numPages : ℕ) : Outcome Bbpalloc :=
  (numPagesToOrder numPages).bind fun order =>
    (ukAssert (obj % pageSize = 0)).bind fun _ =>
      (mapFree b obj (2 ^ order)).bind fun b =>
        (mergeChunk (freelistSize - order) order obj b).bind fun (order, ch, b) =>
          linkChunk b order ch

/-! ## §3  Adding memory -/

def roundPgup (a : ℕ) : ℕ := (a + (pageSize - 1)) / pageSize * pageSize

def roundPgdown (a : ℕ) : ℕ := a / pageSize * pageSize

/-- `sizeof(struct uk_bbpalloc_memr)`. -/
def memrSizeof : ℕ := 40

/-- `memr->nr_pages` for a range of bytes. -/
def nrPagesFor (range : ℕ) : ℕ := 8 * (range - memrSizeof) / (8 * pageSize + 1)

/-- `memr_size`: the structure and its bitmap, in whole pages. -/
def memrSize (range : ℕ) : ℕ := roundPgup (memrSizeof + (nrPagesFor range + 7) / 8)

/-- The descriptor that `bbuddy_addmem` writes at the start of its range: all
pages are allocated by default. -/
def newMemr (min range : ℕ) : Memr where
  addr := min
  firstPage := min + memrSize range
  nrPages := nrPagesFor range
  mmAllocBitmap := fun _ => BitVec.allOnes 64

/-- The inner loop of `bbuddy_addmem`. -/
def chunkShift (min range : ℕ) : ℕ → ℕ → ℕ
  | 0, i => i
  | n + 1, i =>
      if 2 ^ (i + 1) ≤ range then
        if min &&& 2 ^ i ≠ 0 then i else chunkShift min range n (i + 1)
      else i

/-- The outer loop of `bbuddy_addmem`; every round takes a page or more. -/
def addChunks : ℕ → ℕ → ℕ → Bbpalloc → Outcome Bbpalloc
  | 0, _, _, b => .done b
  | n + 1, min, range, b =>
      if range = 0 then .done b
      else
        let i := chunkShift min range freelistSize 12
        (linkChunk b (i - 12) min).bind (addChunks n (min + 2 ^ i) (range - 2 ^ i))

/-- `bbuddy_addmem`, with `-EINVAL` as `none`. -/
def bbuddyAddmem (b : Bbpalloc) (base len : ℕ) : Outcome (Option Unit × Bbpalloc) :=
  (ukAssert (base ≠ 0)).bind fun _ =>
    let min := roundPgup base
    let max := roundPgdown (base + len)
    if max < min then .done (none, b)
    else
      let range := max - min
      if range < roundPgup (memrSizeof + 8) + pageSize then .done (none, b)
      else
        let memr := newMemr min range
        let b := { b with memrs := memr :: b.memrs }
        (mapFree b memr.firstPage memr.nrPages).bind fun b =>
          let left := range - memrSize range
          (addChunks (left / pageSize) memr.firstPage left b).bind fun b => .done (some (), b)

/-- The empty lists of `uk_allocbbuddy_init`, in memory that otherwise has
anything in it. -/
def initLists (mem : Links ℕ ChunkPtr) (level : ℕ → ℕ) : Bbpalloc where
  nrFreePages := 0
  links :=
    { first := fun i => some (.tail i)
      next := fun p => match p with
        | .tail _ => none
        | .chunk a => mem.next (.chunk a)
      pprev := fun p => match p with
        | .tail i => .head i
        | .chunk a => mem.pprev (.chunk a) }
  level := level
  memrs := []

/-- `uk_allocbbuddy_init`; `metalen` bytes go to the descriptor, and as many
again are skipped. -/
def ukAllocbbuddyInit (metalen : ℕ) (mem : Links ℕ ChunkPtr) (level : ℕ → ℕ) (base len : ℕ) :
    Outcome (Option Bbpalloc) :=
  let min := roundPgup base
  let max := roundPgdown (base + len)
  (ukAssert (min < max)).bind fun _ =>
    if max < min + metalen then .done none
    else
      let min := min + metalen
      let b := initLists mem level
      if min + metalen < max then
        (bbuddyAddmem b (min + metalen) (max - min - metalen)).bind fun r => .done (some r.2)
      else .done (some b)

/-! ## §4  Regions and their bitmaps -/

/-- Two regions, each with its descriptor, do not meet. -/
def Memr.Apart (r s : Memr) : Prop := r.stop ≤ s.addr ∨ s.stop ≤ r.addr

instance : Std.Symm Memr.Apart := ⟨fun _ _ h => h.symm⟩

structure Regions (memrs : List Memr) : Prop where
  apart : memrs.Pairwise Memr.Apart
  desc : ∀ r ∈ memrs, r.addr < r.firstPage
  page : ∀ r ∈ memrs, pageSize ∣ r.firstPage
  user : ∀ r ∈ memrs, r.stop < 2 ^ 63

theorem Memr.covers_iff {r : Memr} {va : ℕ} :
    r.covers va = true ↔ r.firstPage ≤ va ∧ va < r.stop := by
  unfold Memr.covers
  exact decide_eq_true_iff

theorem find_covers {memrs : List Memr} {va : ℕ} {r : Memr}
    (h : memrs.find? (·.covers va) = some r) : r ∈ memrs ∧ r.covers va = true :=
  ⟨List.mem_of_find?_eq_some h, @List.find?_some _ (fun s : Memr => s.covers va) r memrs h⟩

namespace Regions

variable {memrs : List Memr} {r s : Memr} {va : ℕ}

theorem tail {rs : List Memr} (h : Regions (r :: rs)) : Regions rs where
  apart := h.apart.of_cons
  desc := fun s hs => h.desc s (List.mem_cons_of_mem r hs)
  page := fun s hs => h.page s (List.mem_cons_of_mem r hs)
  user := fun s hs => h.user s (List.mem_cons_of_mem r hs)

/-- Two regions do not even touch: a descriptor lies between them. -/
theorem eq_or_apart (h : Regions memrs) (hr : r ∈ memrs) (hs : s ∈ memrs) :
    r = s ∨ r.stop < s.firstPage ∨ s.stop < r.firstPage := by
  by_cases heq : r = s
  · exact Or.inl heq
  · right
    rcases h.apart.forall hr hs heq with hle | hle
    · exact Or.inl (hle.trans_lt (h.desc s hs))
    · exact Or.inr (hle.trans_lt (h.desc r hr))

theorem covers_unique (h : Regions memrs) (hr : r ∈ memrs) (hs : s ∈ memrs)
    (hrc : r.covers va = true) (hsc : s.covers va = true) : r = s := by
  obtain ⟨hr₁, hr₂⟩ := Memr.covers_iff.mp hrc
  obtain ⟨hs₁, hs₂⟩ := Memr.covers_iff.mp hsc
  rcases h.eq_or_apart hr hs with heq | hlt | hlt
  · exact heq
  · omega
  · omega

theorem find_eq (h : Regions memrs) (hr : r ∈ memrs) (hrc : r.covers va = true) :
    memrs.find? (·.covers va) = some r := by
  cases hf : memrs.find? (·.covers va) with
  | none => exact absurd hrc (by simpa using List.find?_eq_none.mp hf r hr)
  | some s =>
      obtain ⟨hs, hsc⟩ := find_covers hf
      rw [h.covers_unique hs hr hsc hrc]

end Regions

/-- An update keeps where the regions lie. -/
def KeepsPlace (f : Memr → Memr) : Prop :=
  ∀ r, (f r).addr = r.addr ∧ (f r).firstPage = r.firstPage ∧ (f r).nrPages = r.nrPages

section SetMemr

variable {memrs : List Memr} {f : Memr → Memr} {va p : ℕ}

theorem KeepsPlace.stop (hf : KeepsPlace f) (r : Memr) : (f r).stop = r.stop := by
  unfold Memr.stop
  rw [(hf r).2.1, (hf r).2.2]

theorem KeepsPlace.covers (hf : KeepsPlace f) (r : Memr) : (f r).covers va = r.covers va := by
  unfold Memr.covers
  rw [hf.stop, (hf r).2.1]

/-- The regions after the update, one by one. -/
theorem mem_setMemr {s : Memr} (hs : s ∈ setMemr va f memrs) :
    s ∈ memrs ∨ ∃ r ∈ memrs, s = f r := by
  induction memrs with
  | nil => cases hs
  | cons r rs ih =>
      unfold setMemr at hs
      split at hs
      · rcases List.mem_cons.mp hs with rfl | hs
        · exact Or.inr ⟨r, List.mem_cons_self, rfl⟩
        · exact Or.inl (List.mem_cons_of_mem r hs)
      · rcases List.mem_cons.mp hs with rfl | hs
        · exact Or.inl List.mem_cons_self
        · rcases ih hs with hs | ⟨r', hr', rfl⟩
          · exact Or.inl (List.mem_cons_of_mem r hs)
          · exact Or.inr ⟨r', List.mem_cons_of_mem r hr', rfl⟩

theorem exists_setMemr (hf : KeepsPlace f) {r : Memr} (hr : r ∈ memrs) :
    ∃ s ∈ setMemr va f memrs, s.firstPage = r.firstPage ∧ s.stop = r.stop := by
  induction memrs with
  | nil => cases hr
  | cons q rs ih =>
      unfold setMemr
      rcases List.mem_cons.mp hr with rfl | hr
      · split
        · exact ⟨f r, List.mem_cons_self, (hf r).2.1, hf.stop r⟩
        · exact ⟨r, List.mem_cons_self, rfl, rfl⟩
      · split
        · exact ⟨r, List.mem_cons_of_mem _ hr, rfl, rfl⟩
        · obtain ⟨s, hs, heq⟩ := ih hr
          exact ⟨s, List.mem_cons_of_mem _ hs, heq⟩

theorem nrPages_setMemr (hf : KeepsPlace f) :
    (setMemr va f memrs).map Memr.nrPages = memrs.map Memr.nrPages := by
  induction memrs with
  | nil => rfl
  | cons r rs ih =>
      unfold setMemr
      split
      · rw [List.map_cons, List.map_cons, (hf r).2.2]
      · rw [List.map_cons, List.map_cons, ih]

theorem regions_setMemr (hf : KeepsPlace f) (h : Regions memrs) :
    Regions (setMemr va f memrs) := by
  refine ⟨?_, ?_, ?_, ?_⟩
  · have hsame : ∀ r, (f r).addr = r.addr ∧ (f r).stop = r.stop :=
      fun r => ⟨(hf r).1, hf.stop r⟩
    have hap := h.apart
    clear h
    induction memrs with
    | nil => exact List.Pairwise.nil
    | cons r rs ih =>
        obtain ⟨hr, hrs⟩ := List.pairwise_cons.mp hap
        unfold setMemr
        split
        · refine List.pairwise_cons.mpr ⟨fun s hs => ?_, hrs⟩
          have := hr s hs
          unfold Memr.Apart at this ⊢
          rwa [(hsame r).1, (hsame r).2]
        · refine List.pairwise_cons.mpr ⟨fun s hs => ?_, ih hrs⟩
          rcases mem_setMemr hs with hs | ⟨s', hs', rfl⟩
          · exact hr s hs
          · have := hr s' hs'
            unfold Memr.Apart at this ⊢
            rwa [(hsame s').1, (hsame s').2]
  all_goals
    intro s hs
    rcases mem_setMemr hs with hs | ⟨r, hr, rfl⟩
  · exact h.desc s hs
  · rw [(hf r).1, (hf r).2.1]
    exact h.desc r hr
  · exact h.page s hs
  · rw [(hf r).2.1]
    exact h.page r hr
  · exact h.user s hs
  · rw [hf.stop]
    exact h.user r hr

/-- Which descriptor a later lookup finds. -/
theorem find_setMemr (hf : KeepsPlace f) (h : Regions memrs) :
    (setMemr va f memrs).find? (·.covers p) =
      (memrs.find? (·.covers p)).map fun r => if r.covers va then f r else r := by
  induction memrs with
  | nil => rfl
  | cons r rs ih =>
      unfold setMemr
      by_cases hva : r.covers va = true
      · rw [if_pos hva, List.find?_cons, List.find?_cons, hf.covers]
        cases hp : r.covers p with
        | true => simp [hva]
        | false =>
            -- no other region holds `va`
            cases hfind : rs.find? (·.covers p) with
            | none => rfl
            | some s =>
                obtain ⟨hs, hsp⟩ := find_covers hfind
                have hne : s.covers va = false := by
                  by_contra hsva
                  have heq := h.covers_unique List.mem_cons_self (List.mem_cons_of_mem r hs) hva
                    (by simpa using hsva)
                  rw [heq, hsp] at hp
                  cases hp
                simp [hne]
      · rw [if_neg hva, List.find?_cons, List.find?_cons]
        cases hp : r.covers p with
        | true => simp [hva]
        | false => exact ih h.tail

end SetMemr

/-- A region holds the block. -/
def Memr.Encloses (r : Memr) (c : Block) : Prop := r.firstPage ≤ c.start ∧ c.stop ≤ r.stop

/-- Pages of a block, seen from the start of the region. -/
theorem page_index {q s p n : ℕ} (hq : pageSize ∣ q) (hs : pageSize ∣ s) (hp : pageSize ∣ p)
    (hqs : q ≤ s) (hqp : q ≤ p) :
    ((s - q) / pageSize ≤ (p - q) / pageSize ∧
        (p - q) / pageSize < (s - q) / pageSize + n) ↔
      s ≤ p ∧ p < s + n * pageSize := by
  unfold pageSize at *
  omega

/-- What `map_alloc` and `map_free` do to the regions: the pages are those of a
block inside one of them. -/
theorem mapUpdate_spec {b : Bbpalloc} {F : Bitmap → ℕ → ℕ → Bitmap} {g : Bool → Bool → Bool}
    (hF : ∀ m first n i, (F m first n).bit i = g (m.bit i) (decide (first ≤ i ∧ i < first + n)))
    (hg : ∀ x, g x false = x) (hreg : Regions b.memrs) {r : Memr} (hr : r ∈ b.memrs) {s n : ℕ}
    (hs : pageSize ∣ s) (hlow : r.firstPage ≤ s) (hn : 0 < n) (hhigh : s + n * pageSize ≤ r.stop) :
    ∃ memrs, mapUpdate b s n F = .done memrs ∧ Regions memrs ∧
      (∀ q ∈ b.memrs, ∃ q' ∈ memrs, q'.firstPage = q.firstPage ∧ q'.stop = q.stop) ∧
      (∀ q' ∈ memrs, ∃ q ∈ b.memrs, q'.addr = q.addr ∧ q'.firstPage = q.firstPage ∧
        q'.stop = q.stop) ∧
      memrs.map Memr.nrPages = b.memrs.map Memr.nrPages ∧
      ∀ p, pageSize ∣ p → allocatedInMap { b with memrs := memrs } p =
        (if s ≤ p ∧ p < s + n * pageSize then g (allocatedInMap b p) true
          else allocatedInMap b p) := by
  have hpos : 0 < n * pageSize := Nat.mul_pos hn (by decide)
  have hcov : r.covers s = true := Memr.covers_iff.mpr ⟨hlow, by omega⟩
  have hfind := hreg.find_eq hr hcov
  set f : Memr → Memr := fun r =>
    { r with mmAllocBitmap := F r.mmAllocBitmap ((s - r.firstPage) / pageSize) n } with hfdef
  have hkeep : KeepsPlace f := fun _ => ⟨rfl, rfl, rfl⟩
  refine ⟨setMemr s f b.memrs, ?_, regions_setMemr hkeep hreg,
    fun q hq => exists_setMemr hkeep hq, ?_, nrPages_setMemr hkeep, fun p hp => ?_⟩
  · unfold mapUpdate mapGetMemr
    rw [hfind]
    dsimp only
    rw [ukAssert, if_pos hhigh]
    rfl
  · intro q' hq'
    rcases mem_setMemr hq' with hq | ⟨q, hq, rfl⟩
    · exact ⟨q', hq, rfl, rfl, rfl⟩
    · exact ⟨q, hq, (hkeep q).1, (hkeep q).2.1, hkeep.stop q⟩
  · unfold allocatedInMap mapGetMemr
    dsimp only
    rw [find_setMemr hkeep hreg]
    cases hq : b.memrs.find? (·.covers p) with
    | none =>
        have hout : ¬ (s ≤ p ∧ p < s + n * pageSize) := by
          rintro ⟨h₁, h₂⟩
          have := List.find?_eq_none.mp hq r hr
          exact this (Memr.covers_iff.mpr ⟨by omega, by omega⟩)
        rw [if_neg hout]
        rfl
    | some q =>
        obtain ⟨hqmem, hqcov⟩ := find_covers hq
        have hqp := Memr.covers_iff.mp hqcov
        simp only [Option.map_some]
        by_cases hqs : q.covers s = true
        · obtain rfl := hreg.covers_unique hqmem hr hqs hcov
          rw [if_pos hqs]
          show (F q.mmAllocBitmap _ n).bit _ = _
          rw [hF, decide_eq_decide.mpr
            (page_index (hreg.page q hr) hs hp hlow hqp.1)]
          split
          · rename_i hin
            rw [decide_eq_true hin]
          · rename_i hout
            rw [decide_eq_false hout, hg]
        · have hout : ¬ (s ≤ p ∧ p < s + n * pageSize) := by
            rintro ⟨h₁, h₂⟩
            have hrp : r.covers p = true := Memr.covers_iff.mpr ⟨by omega, by omega⟩
            exact hqs (hreg.covers_unique hqmem hr hqcov hrp ▸ hcov)
          rw [if_neg hout]
          simp [hqs]

/-! ## §5  Free lists -/

/-- The chunks on the lists `F`, as blocks of bytes. -/
def blocks (F : ℕ → List ℕ) : Set Block := {c | ∃ i, c.order = i + 12 ∧ c.start ∈ F i}

/-- The number of pages on the lists. -/
def pagesIn (F : ℕ → List ℕ) : ℕ := ∑ i ∈ Finset.range freelistSize, (F i).length * 2 ^ i

/-- The lists in memory are `F`. -/
structure Shape (b : Bbpalloc) (F : ℕ → List ℕ) : Prop where
  lists : b.links.Lists (fun i => some (.tail i)) (fun i => (F i).map .chunk)
  ends : ∀ i, b.links.next (.tail i) = none
  level : ∀ i, ∀ a ∈ F i, b.level a = i

section FreeLists

variable {b : Bbpalloc} {F : ℕ → List ℕ} {i a : ℕ}

theorem chunk_mem : ChunkPtr.chunk a ∈ (F i).map .chunk ↔ a ∈ F i :=
  List.mem_map_of_injective fun _ _ h => ChunkPtr.chunk.inj h

theorem mem_blocks (h : a ∈ F i) : (⟨i + 12, a⟩ : Block) ∈ blocks F := ⟨i, rfl, h⟩

/-- The list of an order, from a block of that order. -/
theorem mem_list_of_blocks (h : (⟨i + 12, a⟩ : Block) ∈ blocks F) : a ∈ F i := by
  obtain ⟨j, hj, ha⟩ := h
  obtain rfl : i = j := Nat.add_right_cancel hj
  exact ha

theorem blocks_link : blocks (Function.update F i (a :: F i)) = insert ⟨i + 12, a⟩ (blocks F) := by
  ext c
  constructor
  · rintro ⟨j, hj, hc⟩
    by_cases hji : j = i
    · subst hji
      rw [Function.update_self] at hc
      rcases List.mem_cons.mp hc with hc | hc
      · exact Or.inl (by cases c; simp_all)
      · exact Or.inr ⟨j, hj, hc⟩
    · rw [Function.update_of_ne hji] at hc
      exact Or.inr ⟨j, hj, hc⟩
  · rintro (rfl | ⟨j, hj, hc⟩)
    · exact ⟨i, rfl, by rw [Function.update_self]; exact List.mem_cons_self⟩
    · refine ⟨j, hj, ?_⟩
      by_cases hji : j = i
      · subst hji
        rw [Function.update_self]
        exact List.mem_cons_of_mem a hc
      · rwa [Function.update_of_ne hji]

theorem blocks_unlink (hnodup : (F i).Nodup) :
    blocks (Function.update F i ((F i).erase a)) = blocks F \ {⟨i + 12, a⟩} := by
  ext c
  constructor
  · rintro ⟨j, hj, hc⟩
    by_cases hji : j = i
    · subst hji
      rw [Function.update_self] at hc
      obtain ⟨hne, hc⟩ := (hnodup.mem_erase_iff).mp hc
      refine ⟨⟨j, hj, hc⟩, fun heq => hne ?_⟩
      rw [Set.mem_singleton_iff.mp heq]
    · rw [Function.update_of_ne hji] at hc
      refine ⟨⟨j, hj, hc⟩, fun heq => hji ?_⟩
      rw [Set.mem_singleton_iff.mp heq] at hj
      exact (Nat.add_right_cancel hj).symm
  · rintro ⟨⟨j, hj, hc⟩, hne⟩
    refine ⟨j, hj, ?_⟩
    by_cases hji : j = i
    · subst hji
      rw [Function.update_self]
      refine hnodup.mem_erase_iff.mpr ⟨fun heq => hne ?_, hc⟩
      cases c
      simp_all
    · rwa [Function.update_of_ne hji]

/-- Changing one list changes the sum by that list. -/
theorem pagesIn_update (hi : i < freelistSize) (l : List ℕ) :
    pagesIn (Function.update F i l) + (F i).length * 2 ^ i = pagesIn F + l.length * 2 ^ i := by
  have hmem : i ∈ Finset.range freelistSize := Finset.mem_range.mpr hi
  unfold pagesIn
  rw [← Finset.add_sum_erase _ _ hmem,
    ← Finset.add_sum_erase _ (fun j => (F j).length * 2 ^ j) hmem, Function.update_self]
  have hrest : ∑ j ∈ (Finset.range freelistSize).erase i,
      (Function.update F i l j).length * 2 ^ j =
        ∑ j ∈ (Finset.range freelistSize).erase i, (F j).length * 2 ^ j :=
    Finset.sum_congr rfl fun j hj => by
      rw [Function.update_of_ne (Finset.ne_of_mem_erase hj)]
  rw [hrest]
  ring

theorem pagesIn_link (hi : i < freelistSize) :
    pagesIn (Function.update F i (a :: F i)) = pagesIn F + 2 ^ i := by
  have := pagesIn_update (F := F) hi (a :: F i)
  rw [List.length_cons, Nat.succ_mul] at this
  omega

theorem pagesIn_unlink (hi : i < freelistSize) (ha : a ∈ F i) :
    pagesIn (Function.update F i ((F i).erase a)) + 2 ^ i = pagesIn F := by
  have := pagesIn_update (F := F) hi ((F i).erase a)
  have hlen := List.length_erase_add_one ha
  rw [← hlen, Nat.succ_mul] at this
  omega

theorem map_erase_chunk : ((F i).erase a).map ChunkPtr.chunk =
    ((F i).map .chunk).erase (.chunk a) :=
  List.map_erase (fun _ _ h => ChunkPtr.chunk.inj h) (F i)

theorem Shape.nodup (h : Shape b F) (i : ℕ) : (F i).Nodup :=
  List.Nodup.of_map _ (h.lists.nodup i)

/-- The list of an order is empty when its head is the sentinel. -/
theorem Shape.first_eq (h : Shape b F) (i : ℕ) :
    b.links.first i = some (((F i).map ChunkPtr.chunk).headD (.tail i)) := by
  rw [h.lists.first_eq]
  cases (F i).map ChunkPtr.chunk <;> rfl

/-- The first chunk of a list points back to its head. -/
theorem Shape.popChunk_eq (h : Shape b F) {l : List ℕ} (hF : F i = a :: l) :
    popChunk b i a = unlinkChunk b a := by
  have hchain := h.lists.chain i
  rw [hF, List.map_cons] at hchain
  unfold popChunk unlinkChunk
  rw [Links.pop_eq_unlink hchain.2.1]

theorem Shape.link (h : Shape b F) (hi : i < freelistSize) (ha : ∀ j, a ∉ F j) :
    ∃ b', linkChunk b i a = .done b' ∧ Shape b' (Function.update F i (a :: F i)) ∧
      b'.memrs = b.memrs ∧ b'.nrFreePages = b.nrFreePages := by
  refine ⟨{ b with links := b.links.push i (.chunk a), level := Function.update b.level a i },
    ?_, ⟨?_, ?_, ?_⟩, rfl, rfl⟩
  · unfold linkChunk
    rw [if_pos hi, h.first_eq]
    rfl
  · have hpush := h.lists.push (h := i) (n := .chunk a) (fun j hmem => ha j (chunk_mem.mp hmem))
      (fun _ heq => by cases heq)
    have hfun : (fun j => (Function.update F i (a :: F i) j).map ChunkPtr.chunk) =
        Function.update (fun j => (F j).map ChunkPtr.chunk) i (.chunk a :: (F i).map .chunk) := by
      funext j
      by_cases hji : j = i
      · subst hji
        simp
      · simp [Function.update_of_ne hji]
    rw [hfun]
    exact hpush
  · intro j
    have hload : (b.links.push i (.chunk a)).load (.next (.tail j)) =
        b.links.load (.next (.tail j)) := Links.load_push_of_ne (by simp) (by simp)
    exact hload.trans (h.ends j)
  · intro j c hc
    dsimp only
    by_cases hji : j = i
    · subst hji
      rw [Function.update_self] at hc
      rcases List.mem_cons.mp hc with rfl | hc
      · exact Function.update_self _ _ _
      · have hne : c ≠ a := fun heq => ha j (heq ▸ hc)
        rw [Function.update_of_ne hne]
        exact h.level j c hc
    · rw [Function.update_of_ne hji] at hc
      have hne : c ≠ a := fun heq => ha j (heq ▸ hc)
      rw [Function.update_of_ne hne]
      exact h.level j c hc

theorem Shape.unlink (h : Shape b F) (ha : a ∈ F i) :
    ∃ b', unlinkChunk b a = .done b' ∧ Shape b' (Function.update F i ((F i).erase a)) ∧
      b'.memrs = b.memrs ∧ b'.nrFreePages = b.nrFreePages := by
  have hmem : ChunkPtr.chunk a ∈ (F i).map .chunk := chunk_mem.mpr ha
  refine ⟨{ b with links := b.links.unlink (.chunk a) }, ?_, ⟨?_, ?_, ?_⟩, rfl, rfl⟩
  · obtain ⟨n, hn⟩ := Option.ne_none_iff_exists'.mp
      (h.lists.next_ne_none hmem (Option.some_ne_none _))
    unfold unlinkChunk
    rw [hn]
    rfl
  · have hun := h.lists.unlink hmem
    have hfun : (fun j => (Function.update F i ((F i).erase a) j).map ChunkPtr.chunk) =
        Function.update (fun j => (F j).map ChunkPtr.chunk) i
          (((F i).map .chunk).erase (.chunk a)) := by
      funext j
      by_cases hji : j = i
      · subst hji
        rw [Function.update_self, Function.update_self, map_erase_chunk]
      · simp [Function.update_of_ne hji]
    rw [hfun]
    exact hun
  · intro j
    rw [h.lists.next_unlink hmem (fun k hk => by simp at hk)]
    exact h.ends j
  · intro j c hc
    by_cases hji : j = i
    · subst hji
      rw [Function.update_self] at hc
      exact h.level j c (List.mem_of_mem_erase hc)
    · rw [Function.update_of_ne hji] at hc
      exact h.level j c hc

end FreeLists

end Buddy

end CubicleOS
