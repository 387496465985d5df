import CubicleOS.Foundation.Pages
import CubicleOS.Monitor.Boot

/-!
# The page map of the fault path

`gen_memory_map` runs once and writes one byte per page: the id of the module
whose image the page belongs to or, with bit 7 set, the id of the module whose
stack it is. The fault handler then looks addresses up in this map. The byte is
a signed `char`, and the page of nobody is stored as `-1 | (1 << 7)`, which is
`-1` again.
-/

namespace CubicleOS

open Foundation

/-! ## §1  The slow lookups -/

/-- `struct stack_map_s`: a stack registered by `stack_attach`. -/
structure StackMap where
  start : UInt64
  size : UInt64
  mid : ℤ
deriving DecidableEq, Repr

/-- `mem_to_lib`: the first module whose image holds the address. -/
def memToLib (pm : Pmap) (a : UInt64) : Option String :=
  (pm.find? fun e => inBlock e.start e.size a).map ProcMap.name

/-- `stack_to_lib_id_old`: the owner of the first stack that holds the
address. -/
def stackToLibIdOld (stackTab : List StackMap) (a : UInt64) : ℤ :=
  match stackTab.find? fun s => inBlock s.start s.size a with
  | some s => s.mid
  | none => -1

/-! ## §2  The map -/

/-- `mmap_start`, `mmap_end` and `mmap_cfg`. -/
structure PageMap where
  mmapStart : UInt64
  mmapEnd : UInt64
  cfg : ℕ → Int8

/-- The byte of the page at `i`. -/
def pageByte (pm : Pmap) (stackTab : List StackMap) (i : UInt64) : Int8 :=
  let id := getModuleId pm (memToLib pm i)
  if id = -1 then (Int32.ofInt (stackToLibIdOld stackTab i) ||| 128).toInt8
  else (Int32.ofInt id).toInt8

/-- `gen_memory_map`: the loop over the pages from `mmap_start` on. -/
def genMemoryMap (pm : Pmap) (stackTab : List StackMap) (mmapStart mmapEnd : UInt64) :
    PageMap where
  mmapStart := mmapStart
  mmapEnd := mmapEnd
  cfg := (List.range (((mmapEnd - mmapStart).toNat + 4095) / 4096)).foldl
    (fun cfg k =>
      let i := mmapStart + 4096 * UInt64.ofNat k
      Function.update cfg (pageIndex mmapStart i) (pageByte pm stackTab i))
    fun _ => -1

/-- `mem_to_lib_id`. -/
def memToLibId (M : PageMap) (a : UInt64) : ℤ :=
  if longRange M.mmapStart M.mmapEnd a then
    let mid := (M.cfg (pageIndex M.mmapStart a)).toInt32
    if mid &&& 128 ≠ 0 then -1 else mid.toInt
  else -1

/-- `stack_to_lib_id`. -/
def stackToLibId (M : PageMap) (a : UInt64) : ℤ :=
  if longRange M.mmapStart M.mmapEnd a then
    let mid := (M.cfg (pageIndex M.mmapStart a)).toInt32
    if mid &&& 128 ≠ 0 then (mid &&& 0x7f).toInt else -1
  else -1

/-! ## §3  What the loop writes -/

/-- Image and stack ranges are whole pages, the map covers whole pages of the
user half of the address space, and ids fit below the tag bit, with 127 left
out. -/
structure PageAligned (pm : Pmap) (stackTab : List StackMap)
    (mmapStart mmapEnd : UInt64) : Prop where
  image : ∀ e ∈ pm, 4096 ∣ e.start.toNat ∧ 4096 ∣ e.size.toNat
  stack : ∀ s ∈ stackTab, 4096 ∣ s.start.toNat ∧ 4096 ∣ s.size.toNat
  start : 4096 ∣ mmapStart.toNat
  finish : 4096 ∣ mmapEnd.toNat
  user : mmapEnd.toNat < 2 ^ 63
  ordered : mmapStart.toNat ≤ mmapEnd.toNat
  modules : pm.length ≤ pmapSize
  owners : ∀ s ∈ stackTab, 0 ≤ s.mid ∧ s.mid < 127

/-- Whether an address is in a range of whole pages depends on its page. -/
theorem inBlock_page {start size a b : UInt64} (hs : 4096 ∣ start.toNat)
    (hz : 4096 ∣ size.toNat)
    (hab : pageBase 4096 a.toNat = pageBase 4096 b.toNat) :
    inBlock start size a = inBlock start size b := by
  have hend : 4096 ∣ (start.toNat + size.toNat) % 2 ^ 64 :=
    (Nat.dvd_mod_iff (by norm_num)).mpr (Nat.dvd_add hs hz)
  rw [Bool.eq_iff_iff, inBlock_iff, inBlock_iff,
    ← mem_aligned_iff (by norm_num) hs hend a.toNat,
    ← mem_aligned_iff (by norm_num) hs hend b.toNat, hab]

/-- A loop that writes entry `k` in its `k`-th turn. -/
theorem foldl_update_range {α : Type} {idx : ℕ → ℕ} (f : ℕ → α) (c : ℕ → α) (n : ℕ)
    (hidx : ∀ k < n, idx k = k) {p : ℕ} (hp : p < n) :
    (List.range n).foldl (fun cfg k => Function.update cfg (idx k) (f k)) c p = f p := by
  induction n with
  | zero => exact absurd hp (Nat.not_lt_zero p)
  | succ n ih =>
      rw [List.range_succ, List.foldl_append, List.foldl_cons, List.foldl_nil,
        hidx n (Nat.lt_succ_self n)]
      by_cases hpn : p = n
      · rw [hpn, Function.update_self]
      · rw [Function.update_of_ne hpn]
        exact ih (fun k hk => hidx k (hk.trans (Nat.lt_succ_self n)))
          (Nat.lt_of_le_of_ne (Nat.le_of_lt_succ hp) hpn)

section Loop

variable {pm : Pmap} {stackTab : List StackMap} {mmapStart mmapEnd : UInt64}

theorem pageByte_page (h : PageAligned pm stackTab mmapStart mmapEnd) {a b : UInt64}
    (hab : pageBase 4096 a.toNat = pageBase 4096 b.toNat) :
    pageByte pm stackTab a = pageByte pm stackTab b := by
  have himage : memToLib pm a = memToLib pm b := by
    unfold memToLib
    congr 1
    exact List.find?_congr fun e he => inBlock_page (h.image e he).1 (h.image e he).2 hab
  have hstack : stackToLibIdOld stackTab a = stackToLibIdOld stackTab b := by
    unfold stackToLibIdOld
    rw [List.find?_congr fun s hs => inBlock_page (h.stack s hs).1 (h.stack s hs).2 hab]
  unfold pageByte
  rw [himage, hstack]

/-- The map holds, for every address it covers, the byte of that address. -/
theorem genMemoryMap_cfg (h : PageAligned pm stackTab mmapStart mmapEnd) {a : UInt64}
    (ha : mmapStart.toNat ≤ a.toNat ∧ a.toNat < mmapEnd.toNat) :
    (genMemoryMap pm stackTab mmapStart mmapEnd).cfg (pageIndex mmapStart a) =
      pageByte pm stackTab a := by
  obtain ⟨q, hq⟩ := h.start
  obtain ⟨r, hr⟩ := h.finish
  have huser := h.user
  have hlen : (mmapEnd - mmapStart).toNat = mmapEnd.toNat - mmapStart.toNat :=
    UInt64.toNat_sub_of_le _ _ (UInt64.le_iff_toNat_le.mpr h.ordered)
  have hpage : ∀ k < ((mmapEnd - mmapStart).toNat + 4095) / 4096,
      (mmapStart + 4096 * UInt64.ofNat k).toNat = mmapStart.toNat + 4096 * k := by
    intro k hk
    have h4096 : (4096 : UInt64).toNat = 4096 := rfl
    rw [UInt64.toNat_add, UInt64.toNat_mul, UInt64.toNat_ofNat', h4096]
    omega
  have hidx : ∀ k < ((mmapEnd - mmapStart).toNat + 4095) / 4096,
      pageIndex mmapStart (mmapStart + 4096 * UInt64.ofNat k) = k := by
    intro k hk
    rw [pageIndex_eq (by rw [hpage k hk]; omega), hpage k hk]
    omega
  have hp : pageIndex mmapStart a = (a.toNat - mmapStart.toNat) / 4096 :=
    pageIndex_eq ha.1
  have hlt : pageIndex mmapStart a < ((mmapEnd - mmapStart).toNat + 4095) / 4096 := by
    rw [hp, hlen]
    omega
  have hcfg : (genMemoryMap pm stackTab mmapStart mmapEnd).cfg (pageIndex mmapStart a) =
      pageByte pm stackTab (mmapStart + 4096 * UInt64.ofNat (pageIndex mmapStart a)) :=
    foldl_update_range (fun k => pageByte pm stackTab (mmapStart + 4096 * UInt64.ofNat k))
      _ _ hidx hlt
  rw [hcfg]
  apply pageByte_page h
  rw [hpage _ hlt, hp]
  unfold pageBase
  omega

end Loop

/-! ## §4  What the readers make of it -/

/-- The byte of a module's page, read back. -/
theorem decode_module : ∀ i < 127,
    let mid := (Int32.ofInt (i : ℕ)).toInt8.toInt32
    mid &&& 128 = 0 ∧ mid.toInt = i := by
  decide

/-- The byte of a stack page, read back. -/
theorem decode_stack : ∀ i < 127,
    let mid := (Int32.ofInt (i : ℕ) ||| 128).toInt8.toInt32
    mid &&& 128 ≠ 0 ∧ (mid &&& 0x7f).toInt = i := by
  decide

/-- The byte of nobody's page: it has the tag bit and reads as 127. -/
theorem decode_nobody :
    let mid := (Int32.ofInt (-1) ||| 128).toInt8.toInt32
    mid &&& 128 ≠ 0 ∧ (mid &&& 0x7f).toInt = 127 := by
  decide

/-- The address lies in a stack that was registered. -/
def OnStack (stackTab : List StackMap) (a : UInt64) : Prop :=
  ∃ s ∈ stackTab, inBlock s.start s.size a = true

/-- The address lies in the image of a module. -/
def InImage (pm : Pmap) (a : UInt64) : Prop :=
  ∃ e ∈ pm, inBlock e.start e.size a = true

section Readers

variable {pm : Pmap} {stackTab : List StackMap} {mmapStart mmapEnd : UInt64}
  {a : UInt64}

theorem memToLib_eq_none : memToLib pm a = none ↔ ¬ InImage pm a := by
  unfold memToLib InImage
  rw [Option.map_eq_none_iff, List.find?_eq_none]
  simp

/-- The id of the module that an address belongs to. -/
theorem getModuleId_memToLib (h : InImage pm a) :
    ∃ i e, getModuleId pm (memToLib pm a) = (i : ℕ) ∧ pm[i]? = some e := by
  cases hm : memToLib pm a with
  | none => exact absurd h (memToLib_eq_none.mp hm)
  | some n =>
      obtain ⟨e, he, hn⟩ := Option.map_eq_some_iff.mp hm
      rcases getModuleId_cases pm n with ⟨-, hno⟩ | ⟨i, e', hid, hi, -⟩
      · exact absurd hn (hno e (List.mem_of_find?_eq_some he))
      · exact ⟨i, e', hid, hi⟩

theorem stackToLibIdOld_cases (stackTab : List StackMap) (a : UInt64) :
    (OnStack stackTab a ∧ ∃ s ∈ stackTab, inBlock s.start s.size a = true ∧
      stackToLibIdOld stackTab a = s.mid) ∨
    (¬ OnStack stackTab a ∧ stackToLibIdOld stackTab a = -1) := by
  unfold stackToLibIdOld
  cases h : stackTab.find? fun s => inBlock s.start s.size a with
  | none =>
      refine Or.inr ⟨?_, rfl⟩
      rintro ⟨s, hs, hin⟩
      exact absurd hin (List.find?_eq_none.mp h s hs)
  | some s =>
      have hs := List.mem_of_find?_eq_some h
      have hin := List.find?_some h
      exact Or.inl ⟨⟨s, hs, hin⟩, s, hs, hin, rfl⟩

/-- The fast lookups decode the byte of the address. -/
theorem lookups_eq_decode (h : PageAligned pm stackTab mmapStart mmapEnd)
    (ha : mmapStart.toNat ≤ a.toNat ∧ a.toNat < mmapEnd.toNat) :
    let M := genMemoryMap pm stackTab mmapStart mmapEnd
    let mid := (pageByte pm stackTab a).toInt32
    (memToLibId M a = if mid &&& 128 ≠ 0 then -1 else mid.toInt) ∧
      (stackToLibId M a = if mid &&& 128 ≠ 0 then (mid &&& 0x7f).toInt else -1) := by
  intro M mid
  have hrange : longRange M.mmapStart M.mmapEnd a = true :=
    (longRange_iff (h.ordered.trans_lt h.user) h.user).mpr ha
  have hcfg : M.cfg (pageIndex M.mmapStart a) = pageByte pm stackTab a :=
    genMemoryMap_cfg h ha
  constructor
  · unfold memToLibId
    rw [if_pos hrange, hcfg]
  · unfold stackToLibId
    rw [if_pos hrange, hcfg]

/-- The byte of an image page is the module's id. -/
theorem pageByte_image (stackTab : List StackMap) {i : ℕ}
    (hid : getModuleId pm (memToLib pm a) = i) :
    pageByte pm stackTab a = (Int32.ofInt (i : ℕ)).toInt8 := by
  unfold pageByte
  rw [hid, if_neg (by omega)]

/-- The byte of any other page is the id of its stack, tagged; where there is no
stack the id is `-1`. -/
theorem pageByte_no_image (stackTab : List StackMap) (himage : ¬ InImage pm a) :
    pageByte pm stackTab a =
      (Int32.ofInt (stackToLibIdOld stackTab a) ||| 128).toInt8 := by
  have hnone : getModuleId pm (memToLib pm a) = -1 := by
    rw [memToLib_eq_none.mpr himage]
    rfl
  unfold pageByte
  rw [hnone, if_pos rfl]

/-- The fast lookups on the three kinds of page. -/
theorem lookup_cases (h : PageAligned pm stackTab mmapStart mmapEnd)
    (ha : mmapStart.toNat ≤ a.toNat ∧ a.toNat < mmapEnd.toNat) :
    let M := genMemoryMap pm stackTab mmapStart mmapEnd
    (InImage pm a ∧ memToLibId M a = getModuleId pm (memToLib pm a) ∧
      stackToLibId M a = -1) ∨
    (¬ InImage pm a ∧ OnStack stackTab a ∧ memToLibId M a = -1 ∧
      stackToLibId M a = stackToLibIdOld stackTab a) ∨
    (¬ InImage pm a ∧ ¬ OnStack stackTab a ∧ memToLibId M a = -1 ∧
      stackToLibId M a = 127) := by
  intro M
  obtain ⟨hmem, hstack⟩ := lookups_eq_decode h ha
  by_cases himage : InImage pm a
  · obtain ⟨i, e, hid, hi⟩ := getModuleId_memToLib himage
    have hlt : i < 127 := by
      have := (List.getElem?_eq_some_iff.mp hi).1.trans_le h.modules
      unfold pmapSize at this
      omega
    have hbyte := pageByte_image stackTab hid
    obtain ⟨htag, hval⟩ := decode_module i hlt
    refine Or.inl ⟨himage, ?_, ?_⟩
    · rw [hmem, hbyte, if_neg (not_not.mpr htag), hval, hid]
    · rw [hstack, hbyte, if_neg (not_not.mpr htag)]
  · have hbyte := pageByte_no_image stackTab himage
    refine Or.inr ?_
    rcases stackToLibIdOld_cases stackTab a with
      ⟨hon, s, hs, -, hold⟩ | ⟨hon, hold⟩
    · obtain ⟨hpos, hlt⟩ := h.owners s hs
      obtain ⟨i, hi⟩ := Int.eq_ofNat_of_zero_le hpos
      rw [hold, hi] at hbyte
      obtain ⟨htag, hval⟩ := decode_stack i (by omega)
      refine Or.inl ⟨himage, hon, ?_, ?_⟩
      · rw [hmem, hbyte, if_pos htag]
      · rw [hstack, hbyte, if_pos htag, hval, hold, hi]
    · rw [hold] at hbyte
      obtain ⟨htag, hval⟩ := decode_nobody
      refine Or.inr ⟨himage, hon, ?_, ?_⟩
      · rw [hmem, hbyte, if_pos htag]
      · rw [hstack, hbyte, if_pos htag, hval]

end Readers

/-! ## §5  Agreement with the slow lookups -/

/-- The fast lookups of `a` say what the slow ones say. -/
def LookupsAgree (pm : Pmap) (stackTab : List StackMap) (M : PageMap)
    (a : UInt64) : Prop :=
  memToLibId M a = getModuleId pm (memToLib pm a) ∧
    (memToLib pm a = none → stackToLibId M a = stackToLibIdOld stackTab a) ∧
    (memToLib pm a ≠ none → stackToLibId M a = -1)

/-- **The page map, exactly.** On the range it covers, the map agrees with the
slow lookups at the addresses of modules and of registered stacks, and at no
others: the page of nobody is reported as a stack of module 127. -/
theorem lookups_agree_iff {pm : Pmap} {stackTab : List StackMap}
    {mmapStart mmapEnd : UInt64} (h : PageAligned pm stackTab mmapStart mmapEnd)
    {a : UInt64} (ha : mmapStart.toNat ≤ a.toNat ∧ a.toNat < mmapEnd.toNat) :
    LookupsAgree pm stackTab (genMemoryMap pm stackTab mmapStart mmapEnd) a ↔
      InImage pm a ∨ OnStack stackTab a := by
  unfold LookupsAgree
  rcases lookup_cases h ha with ⟨hin, hmem, hstack⟩ | ⟨hin, hon, hmem, hstack⟩ |
    ⟨hin, hon, hmem, hstack⟩
  · have hsome : memToLib pm a ≠ none := fun hn => memToLib_eq_none.mp hn hin
    rw [hmem, hstack]
    simp [hin, hsome]
  · rw [hmem, hstack, memToLib_eq_none.mpr hin]
    simp [hon, getModuleId]
  · have hold : stackToLibIdOld stackTab a = -1 := by
      rcases stackToLibIdOld_cases stackTab a with ⟨h, -⟩ | ⟨-, h⟩
      · exact absurd h hon
      · exact h
    rw [hmem, hstack, memToLib_eq_none.mpr hin, hold]
    simp [hin, hon]

/-- A stack of vfscore, behind the images. -/
def sampleStacks : List StackMap := [{ start := 0x138000, size := 0x1000, mid := 21 }]

theorem sample_pageAligned :
    PageAligned (samplePmap .plain sampleLayout) sampleStacks 0x100000 0x140000 := by
  constructor <;> decide +kernel

/-- A page of that stack: the map knows its owner. -/
theorem lookups_agree_on_stack :
    LookupsAgree (samplePmap .plain sampleLayout) sampleStacks
      (genMemoryMap (samplePmap .plain sampleLayout) sampleStacks 0x100000 0x140000)
      0x138010 := by
  rw [lookups_agree_iff sample_pageAligned (by decide)]
  exact Or.inr ⟨_, List.mem_singleton.mpr rfl, by decide⟩

/-- The page behind the stack is nobody's; the map calls it a stack of module
127. -/
theorem unowned_page_has_stack_id :
    let pm := samplePmap .plain sampleLayout
    let M := genMemoryMap pm sampleStacks 0x100000 0x140000
    stackToLibId M 0x139000 = 127 ∧ stackToLibIdOld sampleStacks 0x139000 = -1 ∧
      memToLib pm 0x139000 = none ∧ ¬ LookupsAgree pm sampleStacks M 0x139000 := by
  intro pm M
  have hfast : stackToLibId M 0x139000 = 127 := by decide +kernel
  have hslow : stackToLibIdOld sampleStacks 0x139000 = -1 := by decide
  have hnone : memToLib pm 0x139000 = none := by decide +kernel
  refine ⟨hfast, hslow, hnone, fun h => ?_⟩
  have hagree := h.2.1 hnone
  rw [hfast, hslow] at hagree
  cases hagree

end CubicleOS
