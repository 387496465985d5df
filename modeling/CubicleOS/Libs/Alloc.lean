import CubicleOS.Calls.Wraps

/-!
# The allocator

ukalloc builds its `malloc` family on a page allocator: a block is a run of
whole pages, with a record of the pages at the start of it or, for page-aligned
blocks, on the page before. Here are the functions as they compute, and where in
its pages a block and its record lie.
-/

namespace CubicleOS

open Foundation

/-! ## §1  Memory and the page allocator -/

/-- A store of a whole word. -/
def UserMem.store (u : UserMem) (a v : UInt64) : UserMem := Function.update u a v

/-- Byte `i` of a word. -/
def byteOf (w : UInt64) (i : ℕ) : UInt64 := (w >>> UInt64.ofNat (8 * i)) &&& 0xff

/-- The word with the bytes `f 0`, ..., `f 7`. -/
def wordOf (f : ℕ → UInt64) : UInt64 :=
  (List.range 8).foldr (fun i w => (w <<< 8) ||| f i) 0

/-- `len` bytes from `p` on are written, the byte at `a` with `src a`. A word
that holds none of them is kept. -/
def UserMem.fill (u : UserMem) (p len : UInt64) (src : UInt64 → UInt64) : UserMem := fun b =>
  if p.toNat < b.toNat + 8 ∧ b.toNat < p.toNat + len.toNat then
    wordOf fun i =>
      if p.toNat ≤ b.toNat + i ∧ b.toNat + i < p.toNat + len.toNat then
        src (b + UInt64.ofNat i)
      else byteOf (u b) i
  else u b

/-- `memset(p, 0, len)`. -/
def UserMem.memset (u : UserMem) (p len : UInt64) : UserMem := u.fill p len fun _ => 0

/-- `memcpy(dst, src, len)`. -/
def UserMem.memcpy (u : UserMem) (dst src len : UInt64) : UserMem :=
  u.fill dst len fun a => byteOf (u (src + (a - dst))) 0

/-- The page allocator of a `struct uk_alloc`: `a->palloc` and `a->pfree`. What
they keep in memory, and what they answer, is up to them. -/
structure PageAlloc where
  palloc : UserMem → UInt64 → UInt64 × UserMem
  pfree : UserMem → UInt64 → UInt64 → UserMem

@[simp] theorem UserMem.store_self (u : UserMem) (a v : UInt64) : u.store a v a = v := by
  unfold UserMem.store
  rw [Function.update_self]

theorem UserMem.store_of_ne (u : UserMem) {a b : UInt64} (h : b ≠ a) (v : UInt64) :
    u.store a v b = u b := by
  unfold UserMem.store
  rw [Function.update_of_ne h]

/-- Words below the bytes that are written stay. -/
theorem UserMem.fill_below (u : UserMem) {p b : UInt64} (h : b.toNat + 8 ≤ p.toNat)
    (len : UInt64) (src : UInt64 → UInt64) : u.fill p len src b = u b :=
  if_neg fun hb => by omega

/-! ## §2  The functions of `alloc.c` -/

/-- `size_to_num_pages`. -/
def sizeToNumPages (size : UInt64) : UInt64 := alignUp size 4096 / 4096

/-- `uk_get_metadata`: the start of the page, or of the page before. -/
def ukGetMetadata (ptr : UInt64) : Outcome UInt64 :=
  if ptr ≥ 4096 + 16 then
    let metadata := alignDown ptr 4096
    .done (if metadata = ptr then metadata - 4096 else metadata)
  else .spin

/-- `uk_getmallocsize`. -/
def ukGetmallocsize (u : UserMem) (ptr : UInt64) : Outcome UInt64 :=
  (ukGetMetadata ptr).bind fun metadata =>
    .done (metaBase u metadata + numPages u metadata * 4096 - ptr)

/-- `uk_malloc_ifpages`. -/
def ukMallocIfpages (A : PageAlloc) (size : UInt64) (u : UserMem) : UInt64 × UserMem :=
  let realsize := 16 + size
  if size = 0 then (0, u)
  else
    let num := sizeToNumPages realsize
    let (intptr, u) := A.palloc u num
    if intptr = 0 then (0, u)
    else (intptr + 16, (u.store intptr num).store (intptr + 8) intptr)

/-- `uk_free_ifpages`. -/
def ukFreeIfpages (A : PageAlloc) (ptr : UInt64) (u : UserMem) : Outcome UserMem :=
  if ptr = 0 then .done u
  else
    (ukGetMetadata ptr).bind fun metadata =>
      if metaBase u metadata ≠ 0 ∧ numPages u metadata ≠ 0 then
        .done (A.pfree u (metaBase u metadata) (numPages u metadata))
      else .spin

/-- `uk_realloc_ifpages`. -/
def ukReallocIfpages (A : PageAlloc) (ptr size : UInt64) (u : UserMem) :
    Outcome (UInt64 × UserMem) :=
  if ptr = 0 then .done (ukMallocIfpages A size u)
  else if size = 0 then (ukFreeIfpages A ptr u).bind fun u => .done (0, u)
  else
    let (retptr, u) := ukMallocIfpages A size u
    if retptr = 0 then .done (0, u)
    else
      (ukGetmallocsize u ptr).bind fun mallocsize =>
        let u := if size < mallocsize then u.memcpy retptr ptr size
          else u.memcpy retptr ptr mallocsize
        (ukFreeIfpages A ptr u).bind fun u => .done (retptr, u)

/-- The memory in which `uk_realloc_ifpages` frees the old block: the new one has
its record and the bytes are copied. -/
def reallocCopied (A : PageAlloc) (ptr size : UInt64) (u : UserMem) : Outcome UserMem :=
  let (retptr, u) := ukMallocIfpages A size u
  (ukGetmallocsize u ptr).bind fun mallocsize =>
    .done (if size < mallocsize then u.memcpy retptr ptr size
      else u.memcpy retptr ptr mallocsize)

/-- `align` as `uk_posix_memalign_ifpages` goes on with it. -/
def memalignAlign (align : UInt64) : UInt64 := if align < 16 then 16 else align

/-- `padding`. -/
def memalignPadding (align : UInt64) : UInt64 :=
  if align ≥ 4096 then 4096 else if align < 16 then 0 else 16

/-- The alignments that are accepted; zero is one of them. -/
def GoodAlign (align : UInt64) : Prop := (align - 1) &&& align = 0 ∧ align % 8 = 0

instance (align : UInt64) : Decidable (GoodAlign align) := by
  unfold GoodAlign
  infer_instance

/-- `uk_posix_memalign_ifpages`: the error number, what is stored to `*memptr`
if anything is, and the memory. -/
def ukPosixMemalignIfpages (A : PageAlloc) (align size : UInt64) (u : UserMem) :
    Outcome (ℕ × Option UInt64 × UserMem) :=
  if ¬ GoodAlign align then .done (22, none, u)
  else if size = 0 then .done (22, some 0, u)
  else
    let realsize := size + memalignPadding align + memalignAlign align
    let num := sizeToNumPages realsize
    let (intptr, u) := A.palloc u num
    if intptr = 0 then .done (12, none, u)
    else
      let ptr := alignUp (intptr + 16) (memalignAlign align)
      (ukGetMetadata ptr).bind fun metadata =>
        if intptr ≤ metadata then
          .done (0, some ptr, (u.store metadata num).store (metadata + 8) intptr)
        else .spin

/-- `uk_calloc_compat`; `uk_malloc` is `uk_malloc_ifpages` here. -/
def ukCallocCompat (A : PageAlloc) (nmemb size : UInt64) (u : UserMem) :
    UInt64 × UserMem :=
  let tlen := nmemb * size
  let (ptr, u) := ukMallocIfpages A tlen u
  if ptr = 0 then (0, u) else (ptr, u.memset ptr tlen)

/-- `uk_memalign_compat`. -/
def ukMemalignCompat (A : PageAlloc) (align size : UInt64) (u : UserMem) :
    Outcome (UInt64 × UserMem) :=
  (ukPosixMemalignIfpages A align size u).bind fun (err, ptr, u) =>
    if err ≠ 0 then .done (0, u) else .done (ptr.getD 0, u)

/-- A call for a block. -/
inductive AllocCall where
  | malloc (size : UInt64)
  | calloc (nmemb size : UInt64)
  | realloc (ptr size : UInt64)
  | memalign (align size : UInt64)
  | posixMemalign (memptr align size : UInt64)
deriving DecidableEq, Repr

namespace AllocCall

/-- The exported function. -/
def name : AllocCall → String
  | malloc _ => "uk_malloc_ifpages"
  | calloc _ _ => "uk_calloc_compat"
  | realloc _ _ => "uk_realloc_ifpages"
  | memalign _ _ => "uk_memalign_compat"
  | posixMemalign _ _ _ => "uk_posix_memalign_ifpages"

/-- The pointer that the caller gets: the result or, for `posix_memalign`, what
`*memptr` holds; null if there is none. -/
def run (A : PageAlloc) (u : UserMem) : AllocCall → Outcome (UInt64 × UserMem)
  | malloc size => .done (ukMallocIfpages A size u)
  | calloc nmemb size => .done (ukCallocCompat A nmemb size u)
  | realloc ptr size => ukReallocIfpages A ptr size u
  | memalign align size => ukMemalignCompat A align size u
  | posixMemalign _ align size =>
      (ukPosixMemalignIfpages A align size u).bind fun r => .done (r.2.1.getD 0, r.2.2)

/-- The size of the block that was asked for. -/
def bytes : AllocCall → UInt64
  | malloc size => size
  | calloc nmemb size => nmemb * size
  | realloc _ size => size
  | memalign _ size => size
  | posixMemalign _ _ size => size

/-- The pages that are requested for it. -/
def pages : AllocCall → UInt64
  | malloc size => sizeToNumPages (16 + size)
  | calloc nmemb size => sizeToNumPages (16 + nmemb * size)
  | realloc _ size => sizeToNumPages (16 + size)
  | memalign align size =>
      sizeToNumPages (size + memalignPadding align + memalignAlign align)
  | posixMemalign _ align size =>
      sizeToNumPages (size + memalignPadding align + memalignAlign align)

/-- Where the block begins in pages that start at `intptr`. -/
def start (intptr : UInt64) : AllocCall → UInt64
  | malloc _ => intptr + 16
  | calloc _ _ => intptr + 16
  | realloc _ _ => intptr + 16
  | memalign align _ => alignUp (intptr + 16) (memalignAlign align)
  | posixMemalign _ align _ => alignUp (intptr + 16) (memalignAlign align)

/-- The size arithmetic does not wrap. -/
def NoWrap : AllocCall → Prop
  | malloc size => 16 + size.toNat + 4095 < 2 ^ 64
  | calloc nmemb size => 16 + nmemb.toNat * size.toNat + 4095 < 2 ^ 64
  | realloc _ size => 16 + size.toNat + 4095 < 2 ^ 64
  | memalign align size => size.toNat + (memalignPadding align).toNat +
      (memalignAlign align).toNat + 4095 < 2 ^ 64
  | posixMemalign _ align size => size.toNat + (memalignPadding align).toNat +
      (memalignAlign align).toNat + 4095 < 2 ^ 64

end AllocCall

/-! ## §3  Where blocks lie -/

theorem sizeToNumPages_toNat {size : UInt64} (h : size.toNat + 4095 < 2 ^ 64) :
    (sizeToNumPages size).toNat = (size.toNat + 4095) / 4096 := by
  have h4096 : (4096 : UInt64).toNat = 2 ^ 12 := rfl
  unfold sizeToNumPages
  rw [UInt64.toNat_div, alignUp_toNat h4096 (by rw [h4096]; omega), h4096]
  unfold pageBase
  omega

theorem memalignAlign_two_pow {align : UInt64} (h : GoodAlign align) :
    ∃ k, 4 ≤ k ∧ (memalignAlign align).toNat = 2 ^ k := by
  unfold memalignAlign
  split
  · exact ⟨4, le_refl 4, rfl⟩
  · rename_i hge
    rw [UInt64.not_lt, UInt64.le_iff_toNat_le] at hge
    have hne : align ≠ 0 := by
      rintro rfl
      exact absurd hge (by decide)
    obtain ⟨k, hk⟩ := two_pow_of_and h.1 hne
    refine ⟨k, ?_, hk⟩
    by_contra hlt
    have hpow : 2 ^ k ≤ 2 ^ 3 := Nat.pow_le_pow_right (by omega) (by omega)
    have h16 : (16 : UInt64).toNat = 16 := rfl
    omega

/-- A page that is not the last word of the address space has room above it. -/
theorem page_add {r : UInt64} (hr : 4096 ∣ r.toNat) {d : UInt64} (hd : d.toNat < 4096) :
    (r + d).toNat = r.toNat + d.toNat := by
  have hlt := r.toNat_lt
  rw [UInt64.toNat_add]
  exact Nat.mod_eq_of_lt (by omega)

/-- Up to half a page, an aligned block starts `align` bytes into its pages. -/
theorem alignUp_small {r al : UInt64} {k : ℕ} (hk : al.toNat = 2 ^ k) (hlo : 4 ≤ k)
    (hhi : k ≤ 11) (hr : 4096 ∣ r.toNat) :
    (alignUp (r + 16) al).toNat = r.toNat + al.toNat := by
  have h16 : 2 ^ 4 ≤ 2 ^ k := Nat.pow_le_pow_right (by omega) hlo
  have h2048 : 2 ^ k ≤ 2 ^ 11 := Nat.pow_le_pow_right (by omega) hhi
  have hdvd : al.toNat ∣ r.toNat :=
    Nat.dvd_trans (hk ▸ pow_dvd_pow 2 (show k ≤ 12 by omega)) hr
  have hadd : (r + 16).toNat = r.toNat + 16 := page_add hr (by decide)
  have hlt := r.toNat_lt
  obtain ⟨hle, hup, hal⟩ := alignUp_bounds (v := r + 16) hk (by omega)
  rw [hadd] at hle hup
  -- the distance is a multiple of `align` in `[16, 16 + align)`
  obtain ⟨c, hc⟩ := (Nat.dvd_sub hal hdvd)
  have hpos : 0 < c := by
    by_contra h0
    obtain rfl : c = 0 := by omega
    omega
  have hone : c < 2 := by
    by_contra hge
    have : al.toNat * 2 ≤ al.toNat * c := Nat.mul_le_mul_left _ (by omega)
    omega
  obtain rfl : c = 1 := by omega
  omega

/-- From a page on, it starts on a page boundary behind the first page. -/
theorem alignUp_large {r al : UInt64} {k : ℕ} (hk : al.toNat = 2 ^ k) (hlo : 12 ≤ k)
    (hr : 4096 ∣ r.toNat) (hwrap : r.toNat + 16 + al.toNat ≤ 2 ^ 64) :
    4096 ∣ (alignUp (r + 16) al).toNat ∧ r.toNat + 4096 ≤ (alignUp (r + 16) al).toNat ∧
      (alignUp (r + 16) al).toNat ≤ r.toNat + al.toNat := by
  have hpage : 4096 ∣ al.toNat := hk ▸ pow_dvd_pow 2 hlo
  have hadd : (r + 16).toNat = r.toNat + 16 := page_add hr (by decide)
  obtain ⟨hle, hup, hal⟩ := alignUp_bounds (v := r + 16) hk (by omega)
  rw [hadd] at hle hup
  have hdvd := Nat.dvd_trans hpage hal
  refine ⟨hdvd, ?_, ?_⟩ <;> omega

/-- The record of a pointer into the first page of its block. -/
theorem ukGetMetadata_inside {r p : UInt64} (hr : 4096 ∣ r.toNat) (hne : r ≠ 0)
    (hlo : r.toNat + 16 ≤ p.toNat) (hhi : p.toNat < r.toNat + 4096) :
    ukGetMetadata p = .done r := by
  have h4096 : (4096 : UInt64).toNat = 2 ^ 12 := rfl
  have hpos : r.toNat ≠ 0 := fun h => hne (UInt64.toNat_inj.mp h)
  have hdown : alignDown p 4096 = r := by
    rw [← UInt64.toNat_inj, alignDown_toNat h4096, h4096]
    unfold pageBase
    omega
  have hge : p ≥ 4096 + 16 := by
    rw [ge_iff_le, UInt64.le_iff_toNat_le, show (4096 + 16 : UInt64).toNat = 4112 from rfl]
    omega
  have hrp : r ≠ p := fun h => by
    rw [h] at hlo
    omega
  unfold ukGetMetadata
  rw [if_pos hge, hdown]
  exact congrArg Outcome.done (if_neg hrp)

/-- The record of a page-aligned pointer. -/
theorem ukGetMetadata_page {p : UInt64} (hp : 4096 ∣ p.toNat) (hge : 8192 ≤ p.toNat) :
    ukGetMetadata p = .done (p - 4096) := by
  have h4096 : (4096 : UInt64).toNat = 2 ^ 12 := rfl
  have hdown : alignDown p 4096 = p := by
    rw [← UInt64.toNat_inj, alignDown_toNat h4096, h4096]
    unfold pageBase
    omega
  have hle : p ≥ 4096 + 16 := by
    rw [ge_iff_le, UInt64.le_iff_toNat_le, show (4096 + 16 : UInt64).toNat = 4112 from rfl]
    omega
  unfold ukGetMetadata
  rw [if_pos hle, hdown]
  exact congrArg Outcome.done (if_pos rfl)

/-! ## §4  What a successful call does -/

theorem ukMallocIfpages_spec {A : PageAlloc} {size p : UInt64} {u u' : UserMem}
    (h : ukMallocIfpages A size u = (p, u')) (hp : p ≠ 0) :
    size ≠ 0 ∧ (A.palloc u (sizeToNumPages (16 + size))).1 ≠ 0 ∧
      p = (A.palloc u (sizeToNumPages (16 + size))).1 + 16 ∧
      u' = ((A.palloc u (sizeToNumPages (16 + size))).2.store
        (A.palloc u (sizeToNumPages (16 + size))).1 (sizeToNumPages (16 + size))).store
        ((A.palloc u (sizeToNumPages (16 + size))).1 + 8)
        (A.palloc u (sizeToNumPages (16 + size))).1 := by
  unfold ukMallocIfpages at h
  dsimp only at h
  split at h
  · cases h
    exact absurd rfl hp
  · rename_i hsize
    split at h
    · cases h
      exact absurd rfl hp
    · rename_i hr
      cases h
      exact ⟨hsize, hr, rfl, rfl⟩

/-- The record of a block: its page count and its first page. -/
def HasRecord (u : UserMem) (metadata num base : UInt64) : Prop :=
  numPages u metadata = num ∧ metaBase u metadata = base

theorem HasRecord.store {u : UserMem} {metadata num base : UInt64} :
    HasRecord ((u.store metadata num).store (metadata + 8) base) metadata num base := by
  have hne : metadata ≠ metadata + 8 := fun h => by
    have hz : (8 : UInt64) = 0 := by
      have := congrArg (· - metadata) h
      simpa using this.symm
    exact absurd hz (by decide)
  constructor
  · unfold numPages
    rw [UserMem.store_of_ne _ hne, UserMem.store_self]
  · exact UserMem.store_self _ _ _

/-- A word that is stored elsewhere leaves the record alone. -/
theorem HasRecord.store_ne {u : UserMem} {metadata num base a : UInt64}
    (h : HasRecord u metadata num base) (hnum : metadata ≠ a) (hbase : metadata + 8 ≠ a)
    (v : UInt64) : HasRecord (u.store a v) metadata num base := by
  constructor
  · unfold numPages
    rw [UserMem.store_of_ne _ hnum]
    exact h.1
  · unfold metaBase
    rw [UserMem.store_of_ne _ hbase]
    exact h.2

/-- What is written behind the record leaves it alone. -/
theorem HasRecord.fill {u : UserMem} {r num base : UInt64} (h : HasRecord u r num base)
    (hr : 4096 ∣ r.toNat) (len : UInt64) (src : UInt64 → UInt64) :
    HasRecord (u.fill (r + 16) len src) r num base := by
  have h16 : (r + 16).toNat = r.toNat + 16 := page_add hr (by decide)
  have h8 : (r + 8).toNat = r.toNat + 8 := page_add hr (by decide)
  constructor
  · unfold numPages
    rw [UserMem.fill_below u (by omega)]
    exact h.1
  · unfold metaBase
    rw [UserMem.fill_below u (by omega)]
    exact h.2

namespace AllocCall

/-- Without an alignment. -/
def Plain : AllocCall → Prop
  | memalign _ _ => False
  | posixMemalign _ _ _ => False
  | _ => True

/-- The alignment, if there is one, is accepted. -/
def Accepted : AllocCall → Prop
  | memalign align _ => GoodAlign align
  | posixMemalign _ align _ => GoodAlign align
  | _ => True

/-- In the memory in which the old block is freed, that leaves the record of the
new one, at the start of its pages, alone. -/
def FreeSpares (A : PageAlloc) (u : UserMem) : AllocCall → Prop
  | realloc ptr size => ∀ (v : UserMem) (m num base : UInt64),
      reallocCopied A ptr size u = .done v → ukGetMetadata ptr = .done m →
      HasRecord v (A.palloc u (sizeToNumPages (16 + size))).1 num base →
        HasRecord (A.pfree v (metaBase v m) (numPages v m))
          (A.palloc u (sizeToNumPages (16 + size))).1 num base
  | _ => True

end AllocCall

theorem ukFreeIfpages_spec {A : PageAlloc} {ptr : UInt64} {u u' : UserMem} (hptr : ptr ≠ 0)
    (h : ukFreeIfpages A ptr u = .done u') :
    ∃ m, ukGetMetadata ptr = .done m ∧ u' = A.pfree u (metaBase u m) (numPages u m) := by
  unfold ukFreeIfpages at h
  rw [if_neg hptr] at h
  obtain ⟨m, hm, h⟩ := Outcome.bind_eq_done.mp h
  split at h
  · cases h
    exact ⟨m, hm, rfl⟩
  · cases h

/-- A `realloc` that returns a block: a new one, into which `len` bytes are
copied before the old one is freed. -/
theorem ukReallocIfpages_spec {A : PageAlloc} {ptr size p : UInt64} {u u' : UserMem}
    (h : ukReallocIfpages A ptr size u = .done (p, u')) (hp : p ≠ 0) :
    ∃ v, ukMallocIfpages A size u = (p, v) ∧
      (u' = v ∨ ∃ m len, ukGetMetadata ptr = .done m ∧
        reallocCopied A ptr size u = .done (v.memcpy p ptr len) ∧
        u' = A.pfree (v.memcpy p ptr len) (metaBase (v.memcpy p ptr len) m)
          (numPages (v.memcpy p ptr len) m)) := by
  unfold ukReallocIfpages at h
  split at h
  · exact ⟨u', Outcome.done.inj h, Or.inl rfl⟩
  · rename_i hptr
    split at h
    · obtain ⟨v, -, hv⟩ := Outcome.bind_eq_done.mp h
      cases hv
      exact absurd rfl hp
    · rcases hmalloc : ukMallocIfpages A size u with ⟨q, v⟩
      rw [hmalloc] at h
      dsimp only at h
      split at h
      · cases h
        exact absurd rfl hp
      · obtain ⟨mallocsize, hsize, h⟩ := Outcome.bind_eq_done.mp h
        obtain ⟨w, hfree, hw⟩ := Outcome.bind_eq_done.mp h
        cases hw
        have hlen : (if size < mallocsize then v.memcpy p ptr size
            else v.memcpy p ptr mallocsize) =
            v.memcpy p ptr (if size < mallocsize then size else mallocsize) := by
          split <;> rfl
        rw [hlen] at hfree
        obtain ⟨m, hm, rfl⟩ := ukFreeIfpages_spec hptr hfree
        refine ⟨v, rfl, Or.inr ⟨m, _, hm, ?_, rfl⟩⟩
        unfold reallocCopied
        rw [hmalloc]
        dsimp only
        rw [hsize, Outcome.done_bind, hlen]

/-- A `realloc` to a positive size that returns null has done nothing but try. -/
theorem ukReallocIfpages_null {A : PageAlloc} {ptr size : UInt64} {u u' : UserMem}
    (hptr : ptr ≠ 0) (hsize : size ≠ 0)
    (h : ukReallocIfpages A ptr size u = .done (0, u')) :
    u' = (ukMallocIfpages A size u).2 := by
  unfold ukReallocIfpages at h
  rw [if_neg hptr, if_neg hsize] at h
  dsimp only at h
  split at h
  · cases h
    rfl
  · rename_i hret
    obtain ⟨mallocsize, -, h⟩ := Outcome.bind_eq_done.mp h
    obtain ⟨v, -, h⟩ := Outcome.bind_eq_done.mp h
    exact absurd (Prod.mk.inj (Outcome.done.inj h)).1 hret

theorem ukCallocCompat_spec {A : PageAlloc} {nmemb size p : UInt64} {u u' : UserMem}
    (h : ukCallocCompat A nmemb size u = (p, u')) (hp : p ≠ 0) :
    ∃ v, ukMallocIfpages A (nmemb * size) u = (p, v) ∧ u' = v.memset p (nmemb * size) := by
  unfold ukCallocCompat at h
  dsimp only at h
  split at h
  · cases h
    exact absurd rfl hp
  · cases h
    exact ⟨_, rfl, rfl⟩

theorem ukPosixMemalignIfpages_spec {A : PageAlloc} {align size : UInt64} {u u' : UserMem}
    {err : ℕ} {out : Option UInt64}
    (h : ukPosixMemalignIfpages A align size u = .done (err, out, u')) (hp : out.getD 0 ≠ 0) :
    GoodAlign align ∧ size ≠ 0 ∧
      (A.palloc u (sizeToNumPages
        (size + memalignPadding align + memalignAlign align))).1 ≠ 0 ∧
      out.getD 0 = alignUp ((A.palloc u (sizeToNumPages
        (size + memalignPadding align + memalignAlign align))).1 + 16)
        (memalignAlign align) := by
  unfold ukPosixMemalignIfpages at h
  split at h
  · cases h
    exact absurd rfl hp
  · rename_i halign
    split at h
    · cases h
      exact absurd rfl hp
    · rename_i hsize
      dsimp only at h
      split at h
      · cases h
        exact absurd rfl hp
      · rename_i hr
        obtain ⟨m, -, h⟩ := Outcome.bind_eq_done.mp h
        split at h
        · cases h
          exact ⟨not_not.mp halign, hsize, hr, rfl⟩
        · cases h

namespace AllocCall

variable {A : PageAlloc} {u u' : UserMem} {call : AllocCall} {p : UInt64}

/-- What a call that hands out a pointer has gone through. -/
theorem run_spec (hrun : call.run A u = .done (p, u')) (hp : p ≠ 0) :
    call.Accepted ∧ call.bytes ≠ 0 ∧ (A.palloc u call.pages).1 ≠ 0 ∧
      p = call.start (A.palloc u call.pages).1 := by
  cases call with
  | malloc size =>
      obtain ⟨hsize, hr, rfl, -⟩ := ukMallocIfpages_spec (Outcome.done.inj hrun) hp
      exact ⟨trivial, hsize, hr, rfl⟩
  | calloc nmemb size =>
      obtain ⟨v, hmalloc, -⟩ := ukCallocCompat_spec (Outcome.done.inj hrun) hp
      obtain ⟨hsize, hr, rfl, -⟩ := ukMallocIfpages_spec hmalloc hp
      exact ⟨trivial, hsize, hr, rfl⟩
  | realloc ptr size =>
      obtain ⟨v, hmalloc, -⟩ := ukReallocIfpages_spec hrun hp
      obtain ⟨hsize, hr, rfl, -⟩ := ukMallocIfpages_spec hmalloc hp
      exact ⟨trivial, hsize, hr, rfl⟩
  | memalign align size =>
      obtain ⟨⟨err, out, v⟩, hposix, hrun⟩ := Outcome.bind_eq_done.mp hrun
      dsimp only at hrun
      split at hrun
      · cases hrun
        exact absurd rfl hp
      · cases hrun
        exact ukPosixMemalignIfpages_spec hposix hp
  | posixMemalign memptr align size =>
      obtain ⟨⟨err, out, v⟩, hposix, hrun⟩ := Outcome.bind_eq_done.mp hrun
      cases hrun
      exact ukPosixMemalignIfpages_spec hposix hp

end AllocCall

/-- A block right behind its record lies in the pages requested for it. -/
theorem plain_inside {size r : UInt64} (hwrap : 16 + size.toNat + 4095 < 2 ^ 64)
    (hr : 4096 ∣ r.toNat) :
    r.toNat + 16 ≤ (r + 16).toNat ∧
      (r + 16).toNat + size.toNat ≤
        r.toNat + (sizeToNumPages (16 + size)).toNat * 4096 := by
  have h16 : (r + 16).toNat = r.toNat + 16 := page_add hr (by decide)
  have hreal : (16 + size).toNat = 16 + size.toNat := by
    rw [UInt64.toNat_add, show (16 : UInt64).toNat = 16 from rfl]
    exact Nat.mod_eq_of_lt (by omega)
  rw [sizeToNumPages_toNat (by omega), hreal]
  omega

theorem memalignPadding_large {align : UInt64} {k : ℕ}
    (hk : (memalignAlign align).toNat = 2 ^ k) (hge : 12 ≤ k) :
    (memalignPadding align).toNat = 4096 := by
  have hbig : 2 ^ 12 ≤ 2 ^ k := Nat.pow_le_pow_right (by omega) hge
  have h16 : (16 : UInt64).toNat = 16 := rfl
  unfold memalignAlign at hk
  unfold memalignPadding
  split at hk
  · omega
  · rw [if_pos (by rw [ge_iff_le, UInt64.le_iff_toNat_le, hk]; exact hbig)]
    rfl

/-- The pages of an aligned block, counted in bytes. -/
theorem aligned_pages {align size : UInt64}
    (hwrap : size.toNat + (memalignPadding align).toNat + (memalignAlign align).toNat +
      4095 < 2 ^ 64) :
    size.toNat + (memalignPadding align).toNat + (memalignAlign align).toNat ≤
      (sizeToNumPages (size + memalignPadding align + memalignAlign align)).toNat * 4096 := by
  have hreal : (size + memalignPadding align + memalignAlign align).toNat =
      size.toNat + (memalignPadding align).toNat + (memalignAlign align).toNat := by
    rw [UInt64.toNat_add, UInt64.toNat_add]
    omega
  rw [sizeToNumPages_toNat (by omega), hreal]
  omega

/-- So does an aligned one: either `align` divides the page, or it is a multiple
of the page and a whole page is added. -/
theorem aligned_inside {align size r : UInt64} (halign : GoodAlign align) (hsize : size ≠ 0)
    (hwrap : size.toNat + (memalignPadding align).toNat + (memalignAlign align).toNat +
      4095 < 2 ^ 64) (hr : 4096 ∣ r.toNat)
    (hfit : r.toNat + (sizeToNumPages
      (size + memalignPadding align + memalignAlign align)).toNat * 4096 < 2 ^ 64) :
    r.toNat + 16 ≤ (alignUp (r + 16) (memalignAlign align)).toNat ∧
      (alignUp (r + 16) (memalignAlign align)).toNat + size.toNat ≤ r.toNat +
        (sizeToNumPages (size + memalignPadding align + memalignAlign align)).toNat * 4096 := by
  have hpages := aligned_pages hwrap
  obtain ⟨k, hlo, hk⟩ := memalignAlign_two_pow halign
  have hpos : size.toNat ≠ 0 := fun h => hsize (UInt64.toNat_inj.mp h)
  rcases Nat.lt_or_ge k 12 with hlt | hge
  · have hstart := alignUp_small hk hlo (by omega) hr
    have h16 : 2 ^ 4 ≤ 2 ^ k := Nat.pow_le_pow_right (by omega) hlo
    omega
  · have hpad := memalignPadding_large hk hge
    obtain ⟨-, hlow, hup⟩ := alignUp_large hk hge hr (by omega)
    omega

/-- **Blocks lie in their pages.** -/
theorem AllocCall.block_inside {call : AllocCall} (hacc : call.Accepted)
    (hwrap : call.NoWrap) (hbytes : call.bytes ≠ 0) {r : UInt64} (hr : 4096 ∣ r.toNat)
    (hfit : r.toNat + call.pages.toNat * 4096 < 2 ^ 64) :
    r.toNat + 16 ≤ (call.start r).toNat ∧
      (call.start r).toNat + call.bytes.toNat ≤ r.toNat + call.pages.toNat * 4096 := by
  cases call with
  | malloc size => exact plain_inside hwrap hr
  | calloc nmemb size =>
      have hmul : (nmemb * size).toNat = nmemb.toNat * size.toNat := by
        rw [UInt64.toNat_mul]
        exact Nat.mod_eq_of_lt (by unfold NoWrap at hwrap; omega)
      refine plain_inside ?_ hr
      show 16 + (nmemb * size).toNat + 4095 < 2 ^ 64
      rw [hmul]
      exact hwrap
  | realloc ptr size => exact plain_inside hwrap hr
  | memalign align size => exact aligned_inside hacc hbytes hwrap hr hfit
  | posixMemalign memptr align size => exact aligned_inside hacc hbytes hwrap hr hfit

/-- Behind its record means: in the same page, with the record at its start. -/
theorem AllocCall.record {A : PageAlloc} {u u' : UserMem} {call : AllocCall} {p : UInt64}
    (hrun : call.run A u = .done (p, u')) (hp : p ≠ 0)
    (hplain : call.Plain)
    (hr : 4096 ∣ (A.palloc u call.pages).1.toNat)
    (hspare : call.FreeSpares A u) :
    p = (A.palloc u call.pages).1 + 16 ∧
      HasRecord u' (A.palloc u call.pages).1 call.pages (A.palloc u call.pages).1 := by
  cases call with
  | malloc size =>
      obtain ⟨-, -, rfl, rfl⟩ := ukMallocIfpages_spec (Outcome.done.inj hrun) hp
      exact ⟨rfl, .store⟩
  | calloc nmemb size =>
      obtain ⟨v, hmalloc, rfl⟩ := ukCallocCompat_spec (Outcome.done.inj hrun) hp
      obtain ⟨-, -, rfl, rfl⟩ := ukMallocIfpages_spec hmalloc hp
      exact ⟨rfl, HasRecord.store.fill hr _ _⟩
  | realloc ptr size =>
      obtain ⟨v, hmalloc, hcopy⟩ := ukReallocIfpages_spec hrun hp
      obtain ⟨-, -, rfl, rfl⟩ := ukMallocIfpages_spec hmalloc hp
      refine ⟨rfl, ?_⟩
      rcases hcopy with rfl | ⟨m, len, hm, hcopied, rfl⟩
      · exact .store
      · exact hspare _ m _ _ hcopied hm (HasRecord.store.fill hr _ _)
  | memalign align size => exact hplain.elim
  | posixMemalign memptr align size => exact hplain.elim

end CubicleOS
