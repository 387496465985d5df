import CubicleOS.Calls.Handover
import CubicleOS.Libs.BuddyRuns

/-!
# `malloc` over the page allocator

The `malloc` family of ukalloc on top of the buddy allocator, for any order of
calls. A block lies in pages of its own, behind the record of these pages that
`free` will read; callers write to their blocks, and the page allocator to the
pages that nobody holds.
-/

namespace CubicleOS

open Foundation Buddy

/-! ## §1  Blocks and their records -/

/-- A block that is out: where it is, and in which pages. -/
structure Live where
  ptr : UInt64
  size : UInt64
  base : UInt64
  num : UInt64
deriving DecidableEq, Repr

def Live.pages (l : Live) : Block := blockOf l.base.toNat l.num.toNat

/-- The record is where `uk_get_metadata` looks for it, and right; it lies before
the block, and both lie in the pages. -/
structure Live.Fits (l : Live) (u : UserMem) (metadata : UInt64) : Prop where
  found : ukGetMetadata l.ptr = .done metadata
  record : HasRecord u metadata l.num l.base
  page : 4096 ∣ metadata.toNat
  low : l.base.toNat ≤ metadata.toNat
  before : metadata.toNat + 16 ≤ l.ptr.toNat
  inside : l.ptr.toNat + l.size.toNat ≤ l.base.toNat + l.num.toNat * 4096
  num_ne : l.num ≠ 0
  base_ne : l.base ≠ 0
  size_ne : l.size ≠ 0

theorem Live.mem_pages {l : Live} {x : ℕ} (hlow : l.base.toNat ≤ x)
    (hhigh : x < l.base.toNat + l.num.toNat * 4096) : x ∈ l.pages.span := by
  refine ⟨hlow, hhigh.trans_le (Nat.add_le_add_left ?_ _)⟩
  show l.num.toNat * 4096 ≤ 2 ^ (Nat.clog 2 l.num.toNat + 12)
  rw [← pages_bytes]
  exact Nat.mul_le_mul_right _ (Nat.le_pow_clog (by norm_num) _)

namespace Live.Fits

variable {l : Live} {u u' : UserMem} {metadata : UInt64}

theorem ptr_ne (h : l.Fits u metadata) : l.ptr ≠ 0 := by
  intro heq
  have hz : l.ptr.toNat = 0 := by rw [heq]; rfl
  have := h.before
  omega

theorem base_word (h : l.Fits u metadata) : (metadata + 8).toNat = metadata.toNat + 8 :=
  page_add h.page (by decide)

/-- All that the record depends on are the words in the pages. -/
theorem congr (h : l.Fits u metadata) (hu : ∀ b : UInt64, b.toNat ∈ l.pages.span → u' b = u b) :
    l.Fits u' metadata := by
  have hlow := h.low
  have hbefore := h.before
  have hinside := h.inside
  have hword := h.base_word
  refine { h with record := ⟨?_, ?_⟩ }
  · exact (hu metadata (Live.mem_pages hlow (by omega))).trans h.record.1
  · exact (hu (metadata + 8) (Live.mem_pages (by omega) (by omega))).trans h.record.2

/-- The block itself may be written. -/
theorem fill (h : l.Fits u metadata) (len : UInt64) (src : UInt64 → UInt64) :
    l.Fits (u.fill l.ptr len src) metadata := by
  have hbefore := h.before
  have hword := h.base_word
  refine { h with record := ⟨?_, ?_⟩ }
  · exact (UserMem.fill_below u (by omega) len src).trans h.record.1
  · exact (UserMem.fill_below u (by omega) len src).trans h.record.2

/-- That changes nothing outside the pages. -/
theorem fill_outside (h : l.Fits u metadata) {len : UInt64} (hlen : len ≤ l.size)
    (src : UInt64 → UInt64) {b : UInt64} (hb : b.toNat ∉ l.pages.span) :
    u.fill l.ptr len src b = u b := by
  refine if_neg fun hin => hb (Live.mem_pages ?_ ?_)
  · have hlow := h.low
    have hbefore := h.before
    omega
  · have hinside := h.inside
    have hle := UInt64.le_iff_toNat_le.mp hlen
    omega

end Live.Fits

/-! ## §2  The calls -/

/-- The page allocator itself writes to none of these words. -/
structure PageAlloc.Quiet (A : PageAlloc) : Prop where
  palloc : ∀ u num, (A.palloc u num).2 = u
  pfree : ∀ u base num, A.pfree u base num = u

section Calls

variable {A : PageAlloc} {u : UserMem} {l : Live} {metadata base : UInt64}

theorem ukFreeIfpages_fits (hA : A.Quiet) (h : l.Fits u metadata) :
    ukFreeIfpages A l.ptr u = .done u := by
  unfold ukFreeIfpages
  rw [if_neg h.ptr_ne, h.found, Outcome.done_bind, h.record.1, h.record.2,
    if_pos ⟨h.base_ne, h.num_ne⟩, hA.pfree]

theorem sizeToNumPages_pos {size : UInt64} (h : size.toNat + 4095 < 2 ^ 64)
    (hne : size.toNat ≠ 0) : sizeToNumPages size ≠ 0 := by
  intro heq
  have hz := congrArg UInt64.toNat heq
  rw [sizeToNumPages_toNat h] at hz
  have h0 : (0 : UInt64).toNat = 0 := rfl
  omega

/-- `uk_malloc_ifpages` when it gets pages. -/
theorem ukMallocIfpages_fits (hA : A.Quiet) {size : UInt64} (hsize : size ≠ 0)
    (hwrap : 16 + size.toNat + 4095 < 2 ^ 64)
    (hbase : (A.palloc u (sizeToNumPages (16 + size))).1 = base) (hne : base ≠ 0)
    (hpage : 4096 ∣ base.toNat) :
    ∃ u', ukMallocIfpages A size u = (base + 16, u') ∧
      (⟨base + 16, size, base, sizeToNumPages (16 + size)⟩ : Live).Fits u' base ∧
      ∀ b : UInt64,
        b.toNat ∉ (⟨base + 16, size, base, sizeToNumPages (16 + size)⟩ : Live).pages.span →
          u' b = u b := by
  have h16 : (base + 16).toNat = base.toNat + 16 := page_add hpage (by decide)
  have h8 : (base + 8).toNat = base.toNat + 8 := page_add hpage (by decide)
  obtain ⟨-, hin⟩ := plain_inside hwrap hpage
  have hreal : (16 + size).toNat = 16 + size.toNat := by
    rw [UInt64.toNat_add, show (16 : UInt64).toNat = 16 from rfl]
    exact Nat.mod_eq_of_lt (by omega)
  refine ⟨(u.store base (sizeToNumPages (16 + size))).store (base + 8) base, ?_, ?_, ?_⟩
  · unfold ukMallocIfpages
    rw [if_neg hsize]
    dsimp only
    rw [hbase, if_neg hne, hA.palloc]
  · exact ⟨ukGetMetadata_inside hpage hne h16.ge (h16.trans_lt (by omega)), .store, hpage, le_rfl,
      h16.ge, hin, sizeToNumPages_pos (by omega) (by omega), hne, hsize⟩
  · intro b hb
    have hne₁ : b ≠ base := by
      rintro rfl
      exact hb (Live.mem_pages le_rfl (by dsimp only; omega))
    have hne₂ : b ≠ base + 8 := by
      rintro rfl
      exact hb (Live.mem_pages (by dsimp only; omega) (by dsimp only; omega))
    rw [UserMem.store_of_ne _ hne₂, UserMem.store_of_ne _ hne₁]

/-- `uk_posix_memalign_ifpages` when it gets pages. -/
theorem ukPosixMemalignIfpages_fits (hA : A.Quiet) {align size : UInt64} (halign : GoodAlign align)
    (hsize : size ≠ 0)
    (hwrap : size.toNat + (memalignPadding align).toNat + (memalignAlign align).toNat +
      4095 < 2 ^ 64) {num : UInt64}
    (hnum : num = sizeToNumPages (size + memalignPadding align + memalignAlign align))
    (hbase : (A.palloc u num).1 = base) (hne : base ≠ 0) (hpage : 4096 ∣ base.toNat)
    (hfit : base.toNat + num.toNat * 4096 ≤ 2 ^ 64) :
    ∃ p u' metadata, ukPosixMemalignIfpages A align size u = .done (0, some p, u') ∧
      (⟨p, size, base, num⟩ : Live).Fits u' metadata ∧
      ∀ b : UInt64, b.toNat ∉ (⟨p, size, base, num⟩ : Live).pages.span → u' b = u b := by
  have hpages := aligned_pages hwrap
  rw [← hnum] at hpages
  obtain ⟨metadata, hmeta, hmpage, hlow, hbefore, hend⟩ :=
    aligned_record halign hne hpage hfit hpages
  have hrun := ukPosixMemalignIfpages_got halign hsize hnum hbase.symm hne hmeta hlow
  rw [hA.palloc] at hrun
  generalize alignUp (base + 16) (memalignAlign align) = p at hmeta hbefore hend hrun
  have h8 : (metadata + 8).toNat = metadata.toNat + 8 := page_add hmpage (by decide)
  have hin : p.toNat + size.toNat ≤ base.toNat + num.toNat * 4096 :=
    (Nat.le_add_right _ _).trans hend
  have hnz : num ≠ 0 := by
    rintro rfl
    have h0 : (0 : UInt64).toNat = 0 := rfl
    omega
  refine ⟨p, _, metadata, hrun, ⟨hmeta, .store, hmpage, hlow, hbefore, hin, hnz, hne, hsize⟩,
    fun b hb => ?_⟩
  have hne₁ : b ≠ metadata := by
    rintro rfl
    exact hb (Live.mem_pages hlow (by dsimp only; omega))
  have hne₂ : b ≠ metadata + 8 := by
    rintro rfl
    exact hb (Live.mem_pages (by dsimp only; omega) (by dsimp only; omega))
  rw [UserMem.store_of_ne _ hne₂, UserMem.store_of_ne _ hne₁]

end Calls

namespace AllocCall

/-- The block that is to be moved. -/
def oldPtr : AllocCall → UInt64
  | realloc ptr _ => ptr
  | _ => 0

/-- The block that is freed by a call that returned `p`. -/
def frees (p : UInt64) : AllocCall → Option UInt64
  | realloc ptr size => if ptr ≠ 0 ∧ (size = 0 ∨ p ≠ 0) then some ptr else none
  | _ => none

/-- The call comes to `uk_palloc`. -/
def Asks (c : AllocCall) : Prop := c.Accepted ∧ c.bytes ≠ 0

instance (c : AllocCall) : Decidable c.Accepted := by
  cases c <;> unfold Accepted <;> infer_instance

instance (c : AllocCall) : Decidable c.NoWrap := by
  cases c <;> unfold NoWrap <;> infer_instance

instance (c : AllocCall) : Decidable c.Asks := by
  unfold Asks
  infer_instance

variable {A : PageAlloc} {u : UserMem} {c : AllocCall} {base : UInt64}

/-- A call that does not ask for pages: at most the old block is freed. -/
theorem run_of_not_asks (hA : A.Quiet) (hask : ¬ c.Asks)
    (hold : c.oldPtr ≠ 0 → ∃ (l : Live) (metadata : _), l.ptr = c.oldPtr ∧ l.Fits u metadata) :
    c.run A u = .done (0, u) := by
  cases c with
  | malloc size =>
      have hz : size = 0 := by_contra fun hne => hask ⟨trivial, hne⟩
      rw [hz]
      rfl
  | calloc nmemb size =>
      have hz : nmemb * size = 0 := by_contra fun hne => hask ⟨trivial, hne⟩
      show Outcome.done (ukCallocCompat A nmemb size u) = _
      unfold ukCallocCompat
      rw [hz]
      rfl
  | realloc ptr size =>
      have hz : size = 0 := by_contra fun hne => hask ⟨trivial, hne⟩
      show ukReallocIfpages A ptr size u = _
      unfold ukReallocIfpages
      rw [hz]
      by_cases hptr : ptr = 0
      · rw [if_pos hptr]
        rfl
      · obtain ⟨l, metadata, hl, hfits⟩ := hold hptr
        have hfree := ukFreeIfpages_fits hA hfits
        rw [if_neg hptr, if_pos rfl, show ptr = l.ptr from hl.symm, hfree]
        rfl
  | memalign align size =>
      show ukMemalignCompat A align size u = _
      unfold ukMemalignCompat ukPosixMemalignIfpages
      by_cases halign : GoodAlign align
      · have hz : size = 0 := by_contra fun hne => hask ⟨halign, hne⟩
        rw [if_neg (not_not.mpr halign), if_pos hz]
        rfl
      · rw [if_pos halign]
        rfl
  | posixMemalign memptr align size =>
      show (ukPosixMemalignIfpages A align size u).bind _ = _
      unfold ukPosixMemalignIfpages
      by_cases halign : GoodAlign align
      · have hz : size = 0 := by_contra fun hne => hask ⟨halign, hne⟩
        rw [if_neg (not_not.mpr halign), if_pos hz]
        rfl
      · rw [if_pos halign]
        rfl

/-- A call that asks for pages and gets none. -/
theorem run_null (hA : A.Quiet) (hask : c.Asks) (hnull : (A.palloc u c.pages).1 = 0) :
    c.run A u = .done (0, u) := by
  have hmalloc : ∀ size, size ≠ 0 → (A.palloc u (sizeToNumPages (16 + size))).1 = 0 →
      ukMallocIfpages A size u = (0, u) := by
    intro size hsize hz
    unfold ukMallocIfpages
    rw [if_neg hsize]
    dsimp only
    rw [if_pos hz, hA.palloc]
  have hposix : ∀ align size, GoodAlign align → size ≠ 0 → (A.palloc u (sizeToNumPages
      (size + memalignPadding align + memalignAlign align))).1 = 0 →
      ukPosixMemalignIfpages A align size u = .done (12, none, u) := by
    intro align size halign hsize hz
    unfold ukPosixMemalignIfpages
    rw [if_neg (not_not.mpr halign), if_neg hsize]
    dsimp only
    rw [if_pos hz, hA.palloc]
  obtain ⟨hacc, hbytes⟩ := hask
  cases c with
  | malloc size => exact congrArg Outcome.done (hmalloc size hbytes hnull)
  | calloc nmemb size =>
      replace hbytes : nmemb * size ≠ 0 := hbytes
      show Outcome.done (ukCallocCompat A nmemb size u) = _
      unfold ukCallocCompat
      dsimp only
      rw [hmalloc _ hbytes hnull]
      rfl
  | realloc ptr size =>
      replace hbytes : size ≠ 0 := hbytes
      show ukReallocIfpages A ptr size u = _
      unfold ukReallocIfpages
      rw [hmalloc _ hbytes hnull, if_neg hbytes]
      by_cases hptr : ptr = 0
      · rw [if_pos hptr]
      · rw [if_neg hptr]
        rfl
  | memalign align size =>
      replace hbytes : size ≠ 0 := hbytes
      show (ukPosixMemalignIfpages A align size u).bind _ = _
      rw [hposix align size hacc hbytes hnull]
      rfl
  | posixMemalign memptr align size =>
      replace hbytes : size ≠ 0 := hbytes
      show (ukPosixMemalignIfpages A align size u).bind _ = _
      rw [hposix align size hacc hbytes hnull]
      rfl

/-- A call that gets pages. -/
theorem run_got (hA : A.Quiet) (hask : c.Asks) (hwrap : c.NoWrap)
    (hbase : (A.palloc u c.pages).1 = base) (hne : base ≠ 0) (hpage : 4096 ∣ base.toNat)
    (hfit : base.toNat + c.pages.toNat * 4096 ≤ 2 ^ 64)
    (hold : c.oldPtr ≠ 0 → ∃ (l : Live) (metadata : _), l.ptr = c.oldPtr ∧ l.Fits u metadata ∧
      Buddy.Pool.Disjoint l.pages (blockOf base.toNat c.pages.toNat)) :
    ∃ p u' metadata, c.run A u = .done (p, u') ∧
      (⟨p, c.bytes, base, c.pages⟩ : Live).Fits u' metadata ∧
      ∀ b : UInt64, b.toNat ∉ (blockOf base.toNat c.pages.toNat).span → u' b = u b := by
  obtain ⟨hacc, hbytes⟩ := hask
  cases c with
  | malloc size =>
      obtain ⟨u', hrun, hfits, hframe⟩ := ukMallocIfpages_fits hA hbytes hwrap hbase hne hpage
      exact ⟨_, u', base, congrArg Outcome.done hrun, hfits, hframe⟩
  | calloc nmemb size =>
      replace hbytes : nmemb * size ≠ 0 := hbytes
      have hmul : (nmemb * size).toNat = nmemb.toNat * size.toNat := by
        rw [UInt64.toNat_mul]
        exact Nat.mod_eq_of_lt (by unfold NoWrap at hwrap; omega)
      have hwrap' : 16 + (nmemb * size).toNat + 4095 < 2 ^ 64 := by
        rw [hmul]
        exact hwrap
      obtain ⟨u', hrun, hfits, hframe⟩ := ukMallocIfpages_fits hA hbytes hwrap' hbase hne hpage
      have hp := hfits.ptr_ne
      refine ⟨_, u'.memset (base + 16) (nmemb * size), base, ?_, hfits.fill _ _, fun b hb => ?_⟩
      · show Outcome.done (ukCallocCompat A nmemb size u) = _
        unfold ukCallocCompat
        dsimp only
        rw [hrun]
        exact congrArg Outcome.done (if_neg hp)
      · exact (hfits.fill_outside (UInt64.le_refl _) _ hb).trans (hframe b hb)
  | realloc ptr size =>
      replace hbytes : size ≠ 0 := hbytes
      obtain ⟨u', hrun, hfits, hframe⟩ := ukMallocIfpages_fits hA hbytes hwrap hbase hne hpage
      have hp := hfits.ptr_ne
      by_cases hptr : ptr = 0
      · refine ⟨_, u', base, ?_, hfits, hframe⟩
        show ukReallocIfpages A ptr size u = _
        unfold ukReallocIfpages
        rw [if_pos hptr, hrun]
      · obtain ⟨l, metadata, hl, hlfits, hapart⟩ := hold hptr
        have hl' : l.ptr = ptr := hl
        -- neither the new record nor the copy touches the old pages
        have hl₁ := hlfits.congr fun b hb => hframe b (hapart _ hb)
        have hget : ukGetmallocsize u' l.ptr =
            .done (metaBase u' metadata + numPages u' metadata * 4096 - l.ptr) := by
          unfold ukGetmallocsize
          rw [hlfits.found]
          rfl
        set ms := metaBase u' metadata + numPages u' metadata * 4096 - l.ptr with hms
        have hlen : (if size < ms then size else ms) ≤ size := by
          split
          · exact UInt64.le_refl _
          · rename_i hlt
            exact UInt64.not_lt.mp hlt
        have hcopy : (if size < ms then u'.memcpy (base + 16) l.ptr size
            else u'.memcpy (base + 16) l.ptr ms) =
            u'.memcpy (base + 16) l.ptr (if size < ms then size else ms) := by
          split <;> rfl
        have hout : ∀ b : UInt64,
            b.toNat ∉ (blockOf base.toNat (pages (.realloc ptr size)).toNat).span →
            u'.memcpy (base + 16) l.ptr (if size < ms then size else ms) b = u' b :=
          fun b hb => hfits.fill_outside hlen _ hb
        have hl₂ := hl₁.congr fun b hb => hout b (hapart _ hb)
        refine ⟨_, u'.memcpy (base + 16) l.ptr (if size < ms then size else ms), base, ?_,
          hfits.fill _ _, fun b hb => (hout b hb).trans (hframe b hb)⟩
        show ukReallocIfpages A ptr size u = _
        unfold ukReallocIfpages
        rw [if_neg hptr, if_neg hbytes, hrun]
        dsimp only
        rw [if_neg hp, ← hl', hget, Outcome.done_bind, hcopy, ukFreeIfpages_fits hA hl₂]
        rfl
  | memalign align size =>
      replace hbytes : size ≠ 0 := hbytes
      obtain ⟨p, u', metadata, hrun, hfits, hframe⟩ :=
        ukPosixMemalignIfpages_fits hA hacc hbytes hwrap rfl hbase hne hpage hfit
      refine ⟨p, u', metadata, ?_, hfits, hframe⟩
      show (ukPosixMemalignIfpages A align size u).bind _ = _
      rw [hrun]
      rfl
  | posixMemalign memptr align size =>
      replace hbytes : size ≠ 0 := hbytes
      obtain ⟨p, u', metadata, hrun, hfits, hframe⟩ :=
        ukPosixMemalignIfpages_fits hA hacc hbytes hwrap rfl hbase hne hpage hfit
      refine ⟨p, u', metadata, ?_, hfits, hframe⟩
      show (ukPosixMemalignIfpages A align size u).bind _ = _
      rw [hrun]
      rfl

end AllocCall

/-! ## §3  Arenas -/

/-- What `uk_palloc` answers in a state of the page allocator. The words that it
writes itself are in pages that nobody holds. -/
def answers (b : Bbpalloc) : PageAlloc where
  palloc := fun u num =>
    (match bbuddyPalloc b num.toNat with
      | .done (some a, _) => UInt64.ofNat a
      | _ => 0, u)
  pfree := fun u _ _ => u

/-- The page allocator, the words of memory and the blocks that are out. -/
structure Arena where
  pool : Buddy.Pool
  mem : UserMem
  live : List Live

inductive ArenaEvent where
  | call (c : AllocCall)
  | free (ptr : UInt64)
  | write (a v : UInt64)
  | poke (a : ℕ) (next : Option ChunkPtr) (pprev : Slot ℕ ChunkPtr) (level : ℕ)
  | addmem (base len : ℕ)

namespace Arena

/-- `uk_pfree` with what stands in the record. -/
def release (pool : Buddy.Pool) (u : UserMem) (ptr : UInt64) : Outcome Buddy.Pool :=
  (ukGetMetadata ptr).bind fun metadata =>
    pool.step (.pfree (metaBase u metadata).toNat (numPages u metadata).toNat)

/-- The block that the call has handed out. -/
def handed (s : Arena) (c : AllocCall) (p : UInt64) : List Live :=
  if p = 0 then [] else [⟨p, c.bytes, ((answers s.pool.alloc).palloc s.mem c.pages).1, c.pages⟩]

def step (s : Arena) : ArenaEvent → Outcome Arena
  | .call c =>
      (if c.Asks then s.pool.step (.palloc c.pages.toNat) else .done s.pool).bind fun pool =>
        (c.run (answers s.pool.alloc) s.mem).bind fun r =>
          match c.frees r.1 with
          | none => .done ⟨pool, r.2, s.handed c r.1 ++ s.live⟩
          | some ptr =>
              (release pool r.2 ptr).bind fun pool =>
                .done ⟨pool, r.2, (s.handed c r.1 ++ s.live).filter (·.ptr ≠ ptr)⟩
  | .free ptr =>
      (ukFreeIfpages (answers s.pool.alloc) ptr s.mem).bind fun u =>
        if ptr = 0 then .done { s with mem := u }
        else
          (release s.pool s.mem ptr).bind fun pool =>
            .done ⟨pool, u, s.live.filter (·.ptr ≠ ptr)⟩
  | .write a v => .done { s with mem := s.mem.store a v }
  | .poke a next pprev level =>
      (s.pool.step (.poke a next pprev level)).bind fun pool => .done { s with pool := pool }
  | .addmem base len =>
      (s.pool.step (.addmem base len)).bind fun pool => .done { s with pool := pool }

/-- Callers free and move blocks that are out, and write to them; what is in no
page of a block may change at any time. -/
def Legal (s : Arena) : ArenaEvent → Prop
  | .call c => c.NoWrap ∧ (c.oldPtr ≠ 0 → ∃ l ∈ s.live, l.ptr = c.oldPtr)
  | .free ptr => ptr ≠ 0 → ∃ l ∈ s.live, l.ptr = ptr
  | .write a _ =>
      (∃ l ∈ s.live, l.ptr.toNat ≤ a.toNat ∧ a.toNat + 8 ≤ l.ptr.toNat + l.size.toNat) ∨
        ∀ c ∈ s.pool.held, a.toNat + 8 ≤ c.start ∨ c.stop ≤ a.toNat
  | .poke a next pprev level => s.pool.Legal (.poke a next pprev level)
  | .addmem base len => s.pool.Legal (.addmem base len)

instance (s : Arena) (e : ArenaEvent) : Decidable (s.Legal e) := by
  cases e <;> unfold Legal <;> infer_instance

/-- The blocks are disjoint, each behind its record and both in pages of their
own, and no other pages are out. -/
structure Safe (s : Arena) : Prop where
  pool : s.pool.Safe
  held : ∀ c, c ∈ s.pool.held ↔ ∃ l ∈ s.live, l.pages = c
  disjoint : s.live.Pairwise fun l l' => l.ptr.toNat + l.size.toNat ≤ l'.ptr.toNat ∨
    l'.ptr.toNat + l'.size.toNat ≤ l.ptr.toNat
  records : ∀ l ∈ s.live, ∃ metadata, l.Fits s.mem metadata

/-- The invariant. -/
structure Good (s : Arena) : Prop where
  sound : ∃ F, s.pool.Sound F
  held : ∀ c, c ∈ s.pool.held ↔ ∃ l ∈ s.live, l.pages = c
  apart : s.live.Pairwise fun l l' => Buddy.Pool.Disjoint l.pages l'.pages
  records : ∀ l ∈ s.live, ∃ metadata, l.Fits s.mem metadata

end Arena

theorem answers_quiet (b : Bbpalloc) : (answers b).Quiet := ⟨fun _ _ => rfl, fun _ _ _ => rfl⟩

instance : Std.Symm fun l l' : Live => Buddy.Pool.Disjoint l.pages l'.pages :=
  ⟨fun _ _ h x hx hx' => h x hx' hx⟩

namespace Arena.Good

variable {s : Arena} {l l' : Live} {metadata : UInt64}

/-- A pointer lies in the pages of its block. -/
theorem ptr_mem {u : UserMem} (h : l.Fits u metadata) : l.ptr.toNat ∈ l.pages.span := by
  have hlow := h.low
  have hbefore := h.before
  have hinside := h.inside
  have hsize : l.size.toNat ≠ 0 := fun hz => h.size_ne (UInt64.toNat_inj.mp hz)
  exact Live.mem_pages (by omega) (by omega)

theorem eq_of_ptr (h : s.Good) (hl : l ∈ s.live) (hl' : l' ∈ s.live) (hptr : l.ptr = l'.ptr) :
    l = l' := by
  by_contra hne
  obtain ⟨metadata, hfits⟩ := h.records l hl
  obtain ⟨metadata', hfits'⟩ := h.records l' hl'
  have hmem := ptr_mem hfits'
  rw [← hptr] at hmem
  exact h.apart.forall hl hl' hne _ (ptr_mem hfits) hmem

/-- Disjoint pages, disjoint blocks. -/
theorem safe (h : s.Good) : s.Safe := by
  obtain ⟨F, hF⟩ := h.sound
  refine ⟨hF.toSafe, h.held, ?_, h.records⟩
  refine h.apart.imp_of_mem fun {l l'} hl hl' hap => ?_
  obtain ⟨metadata, hfits⟩ := h.records l hl
  obtain ⟨metadata', hfits'⟩ := h.records l' hl'
  by_contra hno
  -- the later of the two pointers is in both blocks
  have h₁ := hfits.low
  have h₂ := hfits.before
  have h₃ := hfits.inside
  have h₄ := hfits'.low
  have h₅ := hfits'.before
  have h₆ := hfits'.inside
  have h₇ : l.size.toNat ≠ 0 := fun hz => hfits.size_ne (UInt64.toNat_inj.mp hz)
  have h₈ : l'.size.toNat ≠ 0 := fun hz => hfits'.size_ne (UInt64.toNat_inj.mp hz)
  exact hap (max l.ptr.toNat l'.ptr.toNat) (Live.mem_pages (by omega) (by omega))
    (Live.mem_pages (by omega) (by omega))

/-- A block is given back. -/
theorem release (h : s.Good) (hl : l ∈ s.live) :
    ∃ pool, Arena.release s.pool s.mem l.ptr = .done pool ∧
      Good ⟨pool, s.mem, s.live.filter (·.ptr ≠ l.ptr)⟩ := by
  obtain ⟨F, hF⟩ := h.sound
  obtain ⟨metadata, hfits⟩ := h.records l hl
  have hheld : l.pages ∈ s.pool.held := (h.held _).mpr ⟨l, hl, rfl⟩
  have hnum : l.num.toNat ≠ 0 := fun hz => hfits.num_ne (UInt64.toNat_inj.mp hz)
  obtain ⟨b', F', hstep, hs'⟩ := hF.pfree hnum hheld
  have hothers := (hF.disjoint_erase hheld).1
  refine ⟨_, ?_, ⟨F', hs'⟩, fun c => ⟨fun hc => ?_, ?_⟩, h.apart.filter _,
    fun l' hl' => h.records l' (List.mem_of_mem_filter hl')⟩
  · unfold Arena.release
    rw [hfits.found, Outcome.done_bind, hfits.record.1, hfits.record.2]
    exact hstep
  · obtain ⟨l', hl', rfl⟩ := (h.held c).mp (List.mem_of_mem_erase hc)
    refine ⟨l', List.mem_filter.mpr ⟨hl', decide_eq_true fun hptr => ?_⟩, rfl⟩
    -- the pages that were freed are no longer among the others
    obtain rfl := h.eq_of_ptr hl' hl hptr
    exact hothers _ hc _ (Block.start_mem _) (Block.start_mem _)
  · rintro ⟨l', hl', rfl⟩
    obtain ⟨hmem, hptr⟩ := List.mem_filter.mp hl'
    have hne : l'.pages ≠ l.pages := by
      intro heq
      have hll : l' ≠ l := fun hll => (of_decide_eq_true hptr) (hll ▸ rfl)
      exact h.apart.forall hmem hl hll _ (Block.start_mem _) (heq ▸ Block.start_mem _)
    exact (List.mem_erase_of_ne hne).mpr ((h.held _).mpr ⟨l', hmem, rfl⟩)

/-- A block to be moved is among those that are out. -/
theorem old_fits (h : s.Good) {c : AllocCall} (hold : c.oldPtr ≠ 0 → ∃ l ∈ s.live, l.ptr = c.oldPtr)
    (hne : c.oldPtr ≠ 0) :
    ∃ l ∈ s.live, ∃ metadata, l.ptr = c.oldPtr ∧ l.Fits s.mem metadata := by
  obtain ⟨l, hl, hptr⟩ := hold hne
  obtain ⟨metadata, hfits⟩ := h.records l hl
  exact ⟨l, hl, metadata, hptr, hfits⟩

/-- What is freed in the course of a call is the block that was to be moved. -/
theorem frees_eq {c : AllocCall} {p ptr : UInt64} (h : c.frees p = some ptr) :
    c.oldPtr ≠ 0 ∧ ptr = c.oldPtr := by
  cases c with
  | realloc old size =>
      by_cases hcond : old ≠ 0 ∧ (size = 0 ∨ p ≠ 0)
      · exact ⟨hcond.1, (Option.some.inj ((if_pos hcond).symm.trans h)).symm⟩
      · cases (if_neg hcond).symm.trans h
  | _ => cases h

/-- The end of a call: the old block is freed if the call says so. -/
theorem finish {pool : Buddy.Pool} {c : AllocCall} {p : UInt64} {u : UserMem} {live : List Live}
    (h : Good ⟨pool, u, live⟩) (hold : c.oldPtr ≠ 0 → ∃ l ∈ live, l.ptr = c.oldPtr) :
    ∃ s', (match c.frees p with
        | none => Outcome.done (Arena.mk pool u live)
        | some ptr => (Arena.release pool u ptr).bind fun pool =>
            .done ⟨pool, u, live.filter (·.ptr ≠ ptr)⟩) = .done s' ∧ s'.Good := by
  cases hfrees : c.frees p with
  | none => exact ⟨_, rfl, h⟩
  | some ptr =>
      obtain ⟨hne, rfl⟩ := frees_eq hfrees
      obtain ⟨l, hl, hptr⟩ := hold hne
      obtain ⟨pool', hrel, hgood⟩ := h.release hl
      refine ⟨⟨pool', u, live.filter (·.ptr ≠ l.ptr)⟩, ?_, hgood⟩
      dsimp only
      rw [← hptr, hrel]
      rfl

/-- The pages of a new block, and what the page allocator answered. -/
theorem palloc (h : s.Good) {num : UInt64} (hnum : num ≠ 0) (hmax : num.toNat ≤ 2 ^ freelistSize) :
    (((answers s.pool.alloc).palloc s.mem num).1 = 0 ∧
      s.pool.step (.palloc num.toNat) = .done s.pool) ∨
    ∃ (base : UInt64) (pool : Buddy.Pool),
      ((answers s.pool.alloc).palloc s.mem num).1 = base ∧ base ≠ 0 ∧
      4096 ∣ base.toNat ∧ base.toNat + num.toNat * 4096 ≤ 2 ^ 64 ∧
      s.pool.step (.palloc num.toNat) = .done pool ∧
      pool.held = blockOf base.toNat num.toNat :: s.pool.held ∧ ∃ F, pool.Sound F := by
  obtain ⟨F, hF⟩ := h.sound
  have hn : num.toNat ≠ 0 := fun hz => hnum (UInt64.toNat_inj.mp hz)
  rcases hF.palloc hn hmax with ⟨hnone, hstep⟩ | ⟨a, b', F', hsome, hstep, hs'⟩
  · refine Or.inl ⟨?_, hstep⟩
    show (match bbuddyPalloc s.pool.alloc num.toNat with
      | .done (some a, _) => UInt64.ofNat a
      | _ => 0) = 0
    rw [hnone]
  · obtain ⟨r, hr, hlow, hhigh⟩ := hs'.inside _ List.mem_cons_self
    have hal := hs'.aligned _ List.mem_cons_self
    have huser := hs'.ok.regions.user r hr
    have hdesc := hs'.ok.regions.desc r hr
    have hbytes : num.toNat * 4096 ≤ 2 ^ (Nat.clog 2 num.toNat + 12) := by
      rw [← pages_bytes]
      exact Nat.mul_le_mul_right _ (Nat.le_pow_clog (by norm_num) _)
    have hlow' : r.firstPage ≤ a := hlow
    have hhigh' : a + 2 ^ (Nat.clog 2 num.toNat + 12) ≤ r.stop := hhigh
    have ha : (UInt64.ofNat a).toNat = a := UInt64.toNat_ofNat_of_lt' (by
      show a < 2 ^ 64
      omega)
    refine Or.inr ⟨UInt64.ofNat a, _, ?_, ?_, ?_, ?_, hstep, ?_, F', hs'⟩
    · show (match bbuddyPalloc s.pool.alloc num.toNat with
        | .done (some a, _) => UInt64.ofNat a
        | _ => 0) = _
      rw [hsome]
    · intro hz
      have hz' := congrArg UInt64.toNat hz
      rw [ha] at hz'
      have h0 : (0 : UInt64).toNat = 0 := rfl
      omega
    · rw [ha]
      exact (pageSize_dvd_pow _).trans hal
    · rw [ha]
      omega
    · rw [ha]

/-- The pages that a call asks for can be counted. -/
theorem pages_bound {c : AllocCall} (hask : c.Asks) (hwrap : c.NoWrap) :
    c.pages ≠ 0 ∧ c.pages.toNat ≤ 2 ^ freelistSize := by
  obtain ⟨-, hbytes⟩ := hask
  have hcount : ∀ {n : UInt64} {m : ℕ}, n.toNat = m → m + 4095 < 2 ^ 64 → m ≠ 0 →
      sizeToNumPages n ≠ 0 ∧ (sizeToNumPages n).toNat ≤ 2 ^ freelistSize := by
    rintro n _ rfl hlt hne
    refine ⟨sizeToNumPages_pos hlt hne, ?_⟩
    rw [sizeToNumPages_toNat hlt]
    unfold freelistSize
    omega
  have hplain : ∀ {n : UInt64} {m : ℕ}, n.toNat = m → 16 + m + 4095 < 2 ^ 64 →
      (16 + n).toNat = 16 + m := by
    rintro n _ rfl hlt
    rw [UInt64.toNat_add, show (16 : UInt64).toNat = 16 from rfl]
    exact Nat.mod_eq_of_lt (by omega)
  have haligned : ∀ {align size : UInt64}, size.toNat + (memalignPadding align).toNat +
      (memalignAlign align).toNat + 4095 < 2 ^ 64 →
      (size + memalignPadding align + memalignAlign align).toNat =
        size.toNat + (memalignPadding align).toNat + (memalignAlign align).toNat := by
    intro align size hlt
    rw [UInt64.toNat_add, UInt64.toNat_add]
    omega
  have hpos : c.bytes.toNat ≠ 0 := fun hz => hbytes (UInt64.toNat_inj.mp hz)
  cases c with
  | malloc size => exact hcount (hplain rfl hwrap) hwrap (by omega)
  | realloc ptr size => exact hcount (hplain rfl hwrap) hwrap (by omega)
  | calloc nmemb size =>
      have hmul : (nmemb * size).toNat = nmemb.toNat * size.toNat := by
        rw [UInt64.toNat_mul]
        exact Nat.mod_eq_of_lt (by unfold AllocCall.NoWrap at hwrap; omega)
      exact hcount (hplain hmul hwrap) hwrap (by omega)
  | memalign align size =>
      have hpos' : size.toNat ≠ 0 := hpos
      exact hcount (haligned hwrap) hwrap (by omega)
  | posixMemalign memptr align size =>
      have hpos' : size.toNat ≠ 0 := hpos
      exact hcount (haligned hwrap) hwrap (by omega)

theorem call (h : s.Good) {c : AllocCall} (hwrap : c.NoWrap)
    (hold : c.oldPtr ≠ 0 → ∃ l ∈ s.live, l.ptr = c.oldPtr) :
    ∃ s', s.step (.call c) = .done s' ∧ s'.Good := by
  have hquiet := answers_quiet s.pool.alloc
  -- nothing is handed out
  have hnothing : ∀ pool, (if c.Asks then s.pool.step (.palloc c.pages.toNat) else .done s.pool) =
      .done pool → c.run (answers s.pool.alloc) s.mem = .done (0, s.mem) → pool = s.pool →
      ∃ s', s.step (.call c) = .done s' ∧ s'.Good := by
    rintro pool hpool hrun rfl
    obtain ⟨s', hs', hgood⟩ := finish (c := c) (p := 0) h hold
    refine ⟨s', ?_, hgood⟩
    show Outcome.bind _ _ = _
    rw [hpool, Outcome.done_bind, hrun, Outcome.done_bind]
    exact hs'
  by_cases hask : c.Asks
  · obtain ⟨hnum, hmax⟩ := pages_bound hask hwrap
    rcases h.palloc hnum hmax with ⟨hnull, hstep⟩ | ⟨base, pool, hbase, hne, hpage, hfit, hstep,
      hheld, hsound⟩
    · refine hnothing s.pool ?_ (AllocCall.run_null hquiet hask hnull) rfl
      rw [if_pos hask, hstep]
    · obtain ⟨F', hF'⟩ := hsound
      have hnew : ∀ l ∈ s.live, Buddy.Pool.Disjoint l.pages (blockOf base.toNat c.pages.toNat) := by
        intro l hl x hx hx'
        have hpair := hF'.disjoint
        rw [hheld] at hpair
        exact (List.pairwise_cons.mp hpair).1 _ ((h.held _).mpr ⟨l, hl, rfl⟩) x hx' hx
      obtain ⟨p, u', metadata, hrun, hfits, hframe⟩ :=
        AllocCall.run_got hquiet hask hwrap hbase hne hpage hfit fun hne => by
          obtain ⟨l, hl, metadata, hptr, hfits⟩ := h.old_fits hold hne
          exact ⟨l, metadata, hptr, hfits, hnew l hl⟩
      have hhanded : s.handed c p = [⟨p, c.bytes, base, c.pages⟩] := by
        unfold handed
        rw [if_neg hfits.ptr_ne, hbase]
      have hgood : Good ⟨pool, u', ⟨p, c.bytes, base, c.pages⟩ :: s.live⟩ := by
        refine ⟨⟨F', hF'⟩, fun d => ?_,
          List.pairwise_cons.mpr ⟨fun l hl => symm (hnew l hl), h.apart⟩,
          List.forall_mem_cons.mpr ⟨⟨metadata, hfits⟩, fun l hl => ?_⟩⟩
        · show d ∈ pool.held ↔ _
          rw [hheld, List.mem_cons, h.held, List.exists_mem_cons_iff]
          exact or_congr_left eq_comm
        · obtain ⟨m, hm⟩ := h.records l hl
          exact ⟨m, hm.congr fun b hb => hframe b (hnew l hl _ hb)⟩
      obtain ⟨s', hs', hgood'⟩ := finish (c := c) (p := p) hgood fun hne => by
        obtain ⟨l, hl, hptr⟩ := hold hne
        exact ⟨l, List.mem_cons_of_mem _ hl, hptr⟩
      refine ⟨s', ?_, hgood'⟩
      show Outcome.bind _ _ = _
      rw [if_pos hask, hstep, Outcome.done_bind, hrun, Outcome.done_bind, hhanded]
      exact hs'
  · refine hnothing s.pool (if_neg hask) (AllocCall.run_of_not_asks hquiet hask fun hne => ?_) rfl
    obtain ⟨l, -, metadata, hptr, hfits⟩ := h.old_fits hold hne
    exact ⟨l, metadata, hptr, hfits⟩

theorem free (h : s.Good) {ptr : UInt64} (hout : ptr ≠ 0 → ∃ l ∈ s.live, l.ptr = ptr) :
    ∃ s', s.step (.free ptr) = .done s' ∧ s'.Good := by
  by_cases hptr : ptr = 0
  · refine ⟨s, ?_, h⟩
    show Outcome.bind _ _ = _
    unfold ukFreeIfpages
    rw [if_pos hptr, Outcome.done_bind, if_pos hptr]
  · obtain ⟨l, hl, rfl⟩ := hout hptr
    obtain ⟨metadata, hfits⟩ := h.records l hl
    obtain ⟨pool, hrel, hgood⟩ := h.release hl
    refine ⟨_, ?_, hgood⟩
    show Outcome.bind _ _ = _
    rw [ukFreeIfpages_fits (answers_quiet _) hfits, Outcome.done_bind, if_neg hptr, hrel]
    rfl

theorem write (h : s.Good) {a v : UInt64} (hl : s.Legal (.write a v)) :
    Good { s with mem := s.mem.store a v } := by
  refine ⟨h.sound, h.held, h.apart, fun l hmem => ?_⟩
  obtain ⟨metadata, hfits⟩ := h.records l hmem
  refine ⟨metadata, { hfits with record := ?_ }⟩
  have h₁ := hfits.low
  have h₂ := hfits.before
  have h₃ := hfits.inside
  have hword := hfits.base_word
  -- a word of a record is written in neither case
  have haway : a.toNat + 8 ≤ metadata.toNat ∨ metadata.toNat + 16 ≤ a.toNat := by
    rcases hl with ⟨l', hl', hlow, hhigh⟩ | hout
    · obtain ⟨metadata', hfits'⟩ := h.records l' hl'
      have h₄ := hfits'.low
      have h₅ := hfits'.before
      have h₆ := hfits'.inside
      by_cases heq : l' = l
      · subst heq
        obtain rfl : metadata = metadata' := Outcome.done.inj (hfits.found.symm.trans hfits'.found)
        omega
      · by_contra hno
        -- the pages of two blocks would meet
        exact h.apart.forall hl' hmem heq (max a.toNat metadata.toNat)
          (Live.mem_pages (by omega) (by omega)) (Live.mem_pages (by omega) (by omega))
    · have hspan : metadata.toNat ∈ l.pages.span := Live.mem_pages (by omega) (by omega)
      have hspan' : metadata.toNat + 15 ∈ l.pages.span := Live.mem_pages (by omega) (by omega)
      have := hout _ ((h.held _).mpr ⟨l, hmem, rfl⟩)
      have h₇ := hspan.1
      have h₈ := hspan'.2
      omega
  refine hfits.record.store_ne ?_ ?_ v
  · rintro rfl
    omega
  · rintro rfl
    omega

theorem step (h : s.Good) {e : ArenaEvent} (hl : s.Legal e) :
    ∃ s', s.step e = .done s' ∧ s'.Good := by
  obtain ⟨F, hF⟩ := h.sound
  cases e with
  | call c => exact h.call hl.1 hl.2
  | free ptr => exact h.free hl
  | write a v => exact ⟨_, rfl, h.write hl⟩
  | poke a next pprev level =>
      obtain ⟨d, hd, ha⟩ := hl
      obtain ⟨s', F', hstep, hs'⟩ := hF.poke hd ha
      cases hstep
      exact ⟨_, rfl, ⟨F', hs'⟩, h.held, h.apart, h.records⟩
  | addmem base len =>
      obtain ⟨pool, F', hstep, hs'⟩ := hF.addmem hl.1 hl.2
      have hheld : pool.held = s.pool.held := by
        obtain ⟨r, -, hr⟩ := Outcome.bind_eq_done.mp hstep
        cases hr
        rfl
      refine ⟨⟨pool, s.mem, s.live⟩, ?_, ⟨F', hs'⟩, fun c => ?_, h.apart, h.records⟩
      · show Outcome.bind _ _ = _
        rw [hstep]
        rfl
      · show c ∈ pool.held ↔ _
        rw [hheld]
        exact h.held c

end Arena.Good

/-- **`malloc` and the page allocator together are safe.** From a pool with
nothing out, every legal run goes through to its end: no assertion of `malloc`,
`realloc`, `memalign` or `free` or of the page allocator fails. Then the blocks
that are out are disjoint, every one lies behind its record in pages of its own,
and no other pages are out. -/
theorem arena_runs_safe {pool : Buddy.Pool} (hpool : pool.Reached) (hempty : pool.held = [])
    {mem : UserMem} {es : List ArenaEvent}
    (hlegal : Along Arena.step Arena.Legal ⟨pool, mem, []⟩ es) :
    ∃ s, runs Arena.step ⟨pool, mem, []⟩ es = .done s ∧ s.Safe := by
  have hgood : Arena.Good ⟨pool, mem, []⟩ := by
    refine ⟨hpool.sound, fun c => ?_, List.Pairwise.nil, fun l hl => by cases hl⟩
    show c ∈ pool.held ↔ _
    rw [hempty]
    simp
  obtain ⟨s, hrun, hs⟩ := runs_done (fun _ _ hs hl => hs.step hl) hgood hlegal
  exact ⟨s, hrun, hs.safe⟩

/-- A hundred bytes, moved to a larger block, and a block at a page boundary. -/
def sampleCalls : List ArenaEvent :=
  [.call (.malloc 100), .write 0x103010 7, .call (.realloc 0x103010 5000),
    .call (.posixMemalign 0 4096 100), .poke 0x104000 none (.head 3) 1, .free 0x104010,
    .call (.calloc 3 4), .free 0]

theorem arena_runs_safe_sample :
    ∃ s, runs Arena.step ⟨⟨Buddy.sampleAlloc, []⟩, fun _ => 0, []⟩ sampleCalls = .done s ∧
      s.Safe := by
  refine arena_runs_safe ⟨4096, _, _, 0x100000, 0x20000, Buddy.sampleAlloc, [], rfl, by decide,
    by decide, trivial, rfl⟩ rfl ?_
  decide +kernel

end CubicleOS
