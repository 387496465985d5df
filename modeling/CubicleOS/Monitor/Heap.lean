import CubicleOS.Foundation.Pages
import CubicleOS.Monitor.Boot

/-!
# Page keys and heap ownership

Two maps describe who may touch a heap page: the key the hardware checks
(`Pages`) and the owner the monitor records in `heap_cfg`. `cmp_attach` writes
the first, `heap_attach` both, `setup_heap` starts the second over.
-/

namespace CubicleOS

open Foundation

/-! ## §1  Page keys -/

/-- The page table as `pkey_mprotect` sees it, by page number. -/
structure Pages where
  key : ℕ → ℤ
  mapped : ℕ → Bool

/-- Number of pages that `size` bytes from a page boundary touch. -/
def pagesOf (size : UInt64) : ℕ := (size.toNat + 4095) / 4096

/-- `n` pages from page `first` on get the key `pkey`. -/
def Pages.retag (pg : Pages) (first n : ℕ) (pkey : ℤ) : Pages :=
  { pg with key := fun p => if first ≤ p ∧ p < first + n then pkey else pg.key p }

/-- `pkey_mprotect`: fails on an unaligned start and on an unmapped page. -/
def pkeyMprotect (start size : UInt64) (pkey : ℤ) (pg : Pages) : Option Pages :=
  if start.toNat % 4096 = 0 ∧
      ∀ i < pagesOf size, pg.mapped (start.toNat / 4096 + i) = true then
    some (pg.retag (start.toNat / 4096) (pagesOf size) pkey)
  else none

/-! ## §2  The monitor's memory -/

/-- Page keys together with `heap_cfg`, `heap_start` and `heap_end`. -/
structure HeapMap where
  pages : Pages
  heapCfg : ℕ → Int8
  heapStart : UInt64
  heapEnd : UInt64

/-- `cmp_attach`: give the pages the key of cubicle `mid`. -/
def cmpAttach (pm : Pmap) (mid : ℤ) (start size : UInt64) : Proc HeapMap :=
  fun s =>
    if size = 0 then (s, .done ())
    else
      match pm.at mid with
      | .done e =>
          match pkeyMprotect start size e.pkey s.pages with
          | some pg => ({ s with pages := pg }, .done ())
          | none => (s, .spin)
      | .spin => (s, .spin)
      | .wild => (s, .wild)

/-- The loop of `heap_attach`: `n` entries of `heap_cfg` from `idx` on. -/
def HeapMap.record (s : HeapMap) (mid : ℤ) (idx n : ℕ) : HeapMap :=
  { s with
    heapCfg := fun p =>
      if idx ≤ p ∧ p < idx + n then Int8.ofInt mid else s.heapCfg p }

/-- `heap_attach`: record `mid` as owner of the pages and give them its key.
Addresses outside the heap stop the monitor. -/
def heapAttach (pm : Pmap) (mid : ℤ) (start size : UInt64) : Proc HeapMap :=
  fun s =>
    if size = 0 then (s, .done ())
    else if longRange s.heapStart s.heapEnd start then
      cmpAttach pm mid start size
        (s.record mid (pageIndex s.heapStart start) (size.toNat / 4096))
    else (s, .spin)

/-- `setup_heap`: a fresh map in which everything belongs to ukalloc. -/
def setupHeap (base len : UInt64) : Proc HeapMap := fun s =>
  ({ s with
      heapCfg := fun _ => Int8.ofInt Modules.ukalloc.id
      heapStart := base
      heapEnd := base + len }, .done ())

/-- The address lies in the heap. -/
abbrev HeapMap.inHeap (s : HeapMap) (a : UInt64) : Bool :=
  longRange s.heapStart s.heapEnd a

/-- `heap_to_lib_id`: the recorded owner of an address, `-1` outside the
heap. -/
def heapToLibId (s : HeapMap) (a : UInt64) : ℤ :=
  if s.inHeap a then (s.heapCfg (pageIndex s.heapStart a)).toInt else -1

/-- One of the three, with its arguments. -/
inductive MonitorOp where
  | cmpAttach (mid : ℤ) (start size : UInt64)
  | heapAttach (mid : ℤ) (start size : UInt64)
  | setupHeap (base len : UInt64)
deriving DecidableEq, Repr

def MonitorOp.run (pm : Pmap) : MonitorOp → Proc HeapMap
  | .cmpAttach mid start size => CubicleOS.cmpAttach pm mid start size
  | .heapAttach mid start size => CubicleOS.heapAttach pm mid start size
  | .setupHeap base len => CubicleOS.setupHeap base len

/-- Monitor code: a list of operations, abandoned at the first that spins. -/
def runOps (pm : Pmap) : List MonitorOp → Proc HeapMap
  | [] => Proc.skip
  | op :: ops => (op.run pm).seq (runOps pm ops)

/-! ## §3  Who is recorded after each of them -/

@[simp] theorem cmpAttach_cfg (pm : Pmap) (mid : ℤ) (start size : UInt64)
    (s : HeapMap) :
    (cmpAttach pm mid start size s).1.heapCfg = s.heapCfg ∧
      (cmpAttach pm mid start size s).1.heapStart = s.heapStart ∧
      (cmpAttach pm mid start size s).1.heapEnd = s.heapEnd := by
  unfold cmpAttach
  split
  · exact ⟨rfl, rfl, rfl⟩
  · split
    · split <;> exact ⟨rfl, rfl, rfl⟩
    · exact ⟨rfl, rfl, rfl⟩
    · exact ⟨rfl, rfl, rfl⟩

/-- Keys are not owners: `cmp_attach` records nothing. -/
theorem cmpAttach_owner (pm : Pmap) (mid : ℤ) (start size : UInt64)
    (s : HeapMap) (a : UInt64) :
    heapToLibId (cmpAttach pm mid start size s).1 a = heapToLibId s a := by
  obtain ⟨hcfg, hstart, hend⟩ := cmpAttach_cfg pm mid start size s
  unfold heapToLibId
  rw [HeapMap.inHeap, hcfg, hstart, hend]

/-- A call `heap_attach(_, start, size)` writes the entry of address `a`. -/
def Attaches (s : HeapMap) (start size a : UInt64) : Prop :=
  size ≠ 0 ∧ s.inHeap start = true ∧ s.inHeap a = true ∧
    pageIndex s.heapStart start ≤ pageIndex s.heapStart a ∧
    pageIndex s.heapStart a < pageIndex s.heapStart start + size.toNat / 4096

instance (s : HeapMap) (start size a : UInt64) :
    Decidable (Attaches s start size a) := by
  unfold Attaches
  infer_instance

/-- Ids fit the `char` they are stored in. -/
theorem char_id {mid : ℤ} (h : -128 ≤ mid ∧ mid < 128) :
    (Int8.ofInt mid).toInt = mid := by
  rw [Int8.toInt_ofInt]
  unfold Int.bmod
  norm_num
  split <;> omega

/-- **What `heap_attach` records.** Exactly the entries it writes change, and
they change to `mid`. -/
theorem heapAttach_owner (pm : Pmap) {mid : ℤ} (hmid : -128 ≤ mid ∧ mid < 128)
    (start size : UInt64) (s : HeapMap) (a : UInt64) :
    heapToLibId (heapAttach pm mid start size s).1 a =
      if Attaches s start size a then mid else heapToLibId s a := by
  unfold heapAttach
  by_cases hsize : size = 0
  · have hno : ¬ Attaches s start size a := fun h => h.1 hsize
    rw [if_pos hsize, if_neg hno]
  · rw [if_neg hsize]
    by_cases hin : longRange s.heapStart s.heapEnd start = true
    · rw [if_pos hin, cmpAttach_owner]
      by_cases ha : s.inHeap a = true
      · unfold heapToLibId HeapMap.record
        rw [if_pos ha, if_pos ha]
        dsimp only
        by_cases hrange : pageIndex s.heapStart start ≤ pageIndex s.heapStart a ∧
            pageIndex s.heapStart a <
              pageIndex s.heapStart start + size.toNat / 4096
        · have hyes : Attaches s start size a :=
            ⟨hsize, hin, ha, hrange.1, hrange.2⟩
          rw [if_pos hrange, if_pos hyes, char_id hmid]
        · have hno : ¬ Attaches s start size a :=
            fun h => hrange ⟨h.2.2.2.1, h.2.2.2.2⟩
          rw [if_neg hrange, if_neg hno]
      · have hno : ¬ Attaches s start size a := fun h => ha h.2.2.1
        rw [if_neg hno]
        unfold heapToLibId HeapMap.record
        rw [if_neg ha, if_neg ha]
    · have hno : ¬ Attaches s start size a := fun h => hin h.2.1
      rw [if_neg hin, if_neg hno]

/-- `n` pages from `base` on lie in the heap, and the heap lies in the user half
of the address space. -/
structure HeapMap.Encloses (s : HeapMap) (base : UInt64) (n : ℕ) : Prop where
  aligned : 4096 ∣ base.toNat
  low : s.heapStart.toNat ≤ base.toNat
  high : base.toNat + n * 4096 ≤ s.heapEnd.toNat
  user : s.heapEnd.toNat < 2 ^ 63

/-- Attaching whole pages writes the entries of these pages. -/
theorem HeapMap.Encloses.attaches_iff {s : HeapMap} {base num : UInt64}
    (h : s.Encloses base num.toNat) {a : UInt64} (ha : 4096 ∣ a.toNat)
    (hin : s.inHeap a = true) :
    Attaches s base (num * 4096) a ↔
      base.toNat ≤ a.toNat ∧ a.toNat < base.toNat + num.toNat * 4096 := by
  obtain ⟨haligned, hlow, hhigh, huser⟩ := h
  have hsize : (num * 4096).toNat = num.toNat * 4096 := by
    rw [UInt64.toNat_mul, show (4096 : UInt64).toNat = 4096 from rfl]
    exact Nat.mod_eq_of_lt (by omega)
  have hrange : ∀ {b : UInt64}, s.inHeap b = true ↔
      s.heapStart.toNat ≤ b.toNat ∧ b.toNat < s.heapEnd.toNat :=
    longRange_iff (by omega) huser
  obtain ⟨hlo, hhi⟩ := hrange.mp hin
  have hzero : num * 4096 ≠ 0 ↔ num.toNat ≠ 0 := by
    rw [Ne, ← UInt64.toNat_inj, hsize, show (0 : UInt64).toNat = 0 from rfl]
    omega
  unfold Attaches
  rw [hrange, hrange, pageIndex_eq hlow, pageIndex_eq hlo, hsize, hzero]
  omega

/-- Every entry of the map is the id of a module. -/
def HeapMap.Recorded (s : HeapMap) : Prop := ∀ p, 0 ≤ (s.heapCfg p).toInt

theorem HeapMap.Recorded.owner_ne {s : HeapMap} (h : s.Recorded) {a : UInt64}
    (ha : s.inHeap a = true) : heapToLibId s a ≠ -1 := by
  unfold heapToLibId
  rw [if_pos ha]
  have := h (pageIndex s.heapStart a)
  omega

theorem setupHeap_owner (base len : UInt64) (s : HeapMap) (a : UInt64) :
    heapToLibId (setupHeap base len s).1 a = Modules.ukalloc.id ∨
      heapToLibId (setupHeap base len s).1 a = -1 := by
  unfold heapToLibId setupHeap
  by_cases h : longRange base (base + len) a = true
  · exact Or.inl (by rw [if_pos h]; rfl)
  · exact Or.inr (if_neg h)

/-! ## §4  Which entries a piece of monitor code writes -/

/-- The operation writes the entry of `a`. A new map writes all of them. -/
def MonitorOp.Writes (s : HeapMap) (a : UInt64) : MonitorOp → Prop
  | .cmpAttach _ _ _ => False
  | .heapAttach _ start size => Attaches s start size a
  | .setupHeap _ _ => s.inHeap a = true

instance (s : HeapMap) (a : UInt64) (op : MonitorOp) : Decidable (op.Writes s a) := by
  cases op <;> unfold MonitorOp.Writes <;> infer_instance

/-- Some operation that is reached writes the entry of `a`. -/
def WritesEntry (pm : Pmap) : List MonitorOp → HeapMap → UInt64 → Prop
  | [], _, _ => False
  | op :: ops, s, a =>
      op.Writes s a ∨
        ((op.run pm s).2 = .done () ∧ WritesEntry pm ops (op.run pm s).1 a)

/-- The operation acts for `mid`. -/
def MonitorOp.For (mid : ℤ) : MonitorOp → Prop
  | .cmpAttach m _ _ => m = mid
  | .heapAttach m _ _ => m = mid
  | .setupHeap _ _ => False

/-- One operation on behalf of `mid`: what it writes becomes `mid`'s, the rest
keeps its owner. -/
theorem MonitorOp.run_owner (pm : Pmap) {mid : ℤ} (hmid : -128 ≤ mid ∧ mid < 128)
    {op : MonitorOp} (hop : op.For mid) (s : HeapMap) (a : UInt64) :
    (op.Writes s a → heapToLibId (op.run pm s).1 a = mid) ∧
      (¬ op.Writes s a → heapToLibId (op.run pm s).1 a = heapToLibId s a) := by
  cases op with
  | cmpAttach m start size =>
      exact ⟨False.elim, fun _ => cmpAttach_owner pm m start size s a⟩
  | heapAttach m start size =>
      obtain rfl : m = mid := hop
      have h := heapAttach_owner pm hmid start size s a
      constructor
      · intro hw
        exact h.trans (if_pos hw)
      · intro hw
        exact h.trans (if_neg hw)
  | setupHeap base len => exact hop.elim

/-- What a list of operations does to something observed of the map, when each
operation sets it to `v` or leaves it: `R` says that an operation which is
reached sets it. -/
theorem runOps_observe {α : Type} (pm : Pmap) (obs : HeapMap → α) {v : α}
    {W : HeapMap → MonitorOp → Prop} {R : List MonitorOp → HeapMap → Prop}
    (hnil : ∀ s, ¬ R [] s)
    (hcons : ∀ op ops s, R (op :: ops) s ↔
      W s op ∨ ((op.run pm s).2 = .done () ∧ R ops (op.run pm s).1)) :
    ∀ {ops : List MonitorOp},
      (∀ op ∈ ops, ∀ s, (W s op → obs (op.run pm s).1 = v) ∧
        (¬ W s op → obs (op.run pm s).1 = obs s)) →
      ∀ s : HeapMap, (R ops s → obs (runOps pm ops s).1 = v) ∧
        (¬ R ops s → obs (runOps pm ops s).1 = obs s) := by
  intro ops
  induction ops with
  | nil => exact fun _ s => ⟨fun h => absurd h (hnil s), fun _ => rfl⟩
  | cons op ops ih =>
      intro hops s
      obtain ⟨hop, hrest⟩ := List.forall_mem_cons.mp hops
      obtain ⟨hwrite, hkeep⟩ := hop s
      rw [hcons]
      show (_ → obs ((op.run pm).seq (runOps pm ops) s).1 = v) ∧
        (_ → obs ((op.run pm).seq (runOps pm ops) s).1 = _)
      rcases Proc.seq_cases (op.run pm) (runOps pm ops) s with
        ⟨hdone, heq⟩ | ⟨hstop, heq⟩
      · obtain ⟨ihwrite, ihkeep⟩ := ih hrest (op.run pm s).1
        rw [heq]
        constructor
        · rintro (h | ⟨-, h⟩)
          · by_cases hlater : R ops (op.run pm s).1
            · exact ihwrite hlater
            · exact (ihkeep hlater).trans (hwrite h)
          · exact ihwrite h
        · intro h
          have hlater : ¬ R ops (op.run pm s).1 := fun hw => h (Or.inr ⟨hdone, hw⟩)
          exact (ihkeep hlater).trans (hkeep fun hw => h (Or.inl hw))
      · rw [heq]
        constructor
        · rintro (h | ⟨hdone, -⟩)
          · exact hwrite h
          · exact absurd hdone hstop
        · exact fun h => hkeep fun hw => h (Or.inl hw)

/-- The same for a list of operations: one step, then the rest. -/
theorem runOps_owner (pm : Pmap) {mid : ℤ} (hmid : -128 ≤ mid ∧ mid < 128)
    {ops : List MonitorOp} (hops : ∀ op ∈ ops, op.For mid) (s : HeapMap) (a : UInt64) :
    (WritesEntry pm ops s a → heapToLibId (runOps pm ops s).1 a = mid) ∧
      (¬ WritesEntry pm ops s a →
        heapToLibId (runOps pm ops s).1 a = heapToLibId s a) :=
  runOps_observe pm (fun s => heapToLibId s a) (W := fun s op => op.Writes s a)
    (R := fun ops s => WritesEntry pm ops s a) (fun _ => id) (fun _ _ _ => Iff.rfl)
    (fun op hop s => MonitorOp.run_owner pm hmid (hops op hop) s a) s

/-- An operation for an entry of the table never leaves the table. -/
theorem MonitorOp.run_ne_wild {pm : Pmap} {mid : ℤ} {e : ProcMap}
    (hat : pm.at mid = .done e) {op : MonitorOp}
    (hop : op.For mid ∨ ∃ base len, op = .setupHeap base len) (s : HeapMap) :
    (op.run pm s).2 ≠ .wild := by
  have hattach : ∀ (start size : UInt64) (s : HeapMap),
      (CubicleOS.cmpAttach pm mid start size s).2 ≠ .wild := by
    intro start size s
    unfold CubicleOS.cmpAttach
    rw [hat]
    dsimp only
    split
    · simp
    · split <;> simp
  cases op with
  | cmpAttach m start size =>
      rcases hop with rfl | ⟨_, _, h⟩
      · exact hattach start size s
      · cases h
  | heapAttach m start size =>
      rcases hop with rfl | ⟨_, _, h⟩
      · show (CubicleOS.heapAttach pm m start size s).2 ≠ .wild
        unfold CubicleOS.heapAttach
        split
        · simp
        · split
          · exact hattach start size _
          · simp
      · cases h
  | setupHeap base len => simp [MonitorOp.run, CubicleOS.setupHeap]

theorem runOps_ne_wild {pm : Pmap} {mid : ℤ} {e : ProcMap}
    (hat : pm.at mid = .done e) : ∀ {ops : List MonitorOp},
      (∀ op ∈ ops, op.For mid ∨ ∃ base len, op = .setupHeap base len) →
        ∀ s : HeapMap, (runOps pm ops s).2 ≠ .wild := by
  intro ops
  induction ops with
  | nil => exact fun _ s => by simp [runOps]
  | cons op ops ih =>
      intro hops s
      obtain ⟨hop, hrest⟩ := List.forall_mem_cons.mp hops
      rcases Proc.seq_cases (op.run pm) (runOps pm ops) s with ⟨-, h⟩ | ⟨-, h⟩
      · rw [runOps, h]
        exact ih hrest _
      · rw [runOps, h]
        exact MonitorOp.run_ne_wild hat hop s

/-! ## §5  Which pages a piece of monitor code re-keys -/

/-- A call `cmp_attach(_, start, size)` that goes through writes the key of
page `p`. -/
def Rekeys (s : HeapMap) (start size : UInt64) (p : ℕ) : Prop :=
  size ≠ 0 ∧ start.toNat % 4096 = 0 ∧
    (∀ i < pagesOf size, s.pages.mapped (start.toNat / 4096 + i) = true) ∧
    start.toNat / 4096 ≤ p ∧ p < start.toNat / 4096 + pagesOf size

theorem cmpAttach_key {pm : Pmap} {mid : ℤ} {e : ProcMap} (hat : pm.at mid = .done e)
    (start size : UInt64) (s : HeapMap) (p : ℕ) :
    (Rekeys s start size p → (cmpAttach pm mid start size s).1.pages.key p = e.pkey) ∧
      (¬ Rekeys s start size p →
        (cmpAttach pm mid start size s).1.pages.key p = s.pages.key p) := by
  unfold cmpAttach
  rw [hat]
  dsimp only
  by_cases hsize : size = 0
  · rw [if_pos hsize]
    exact ⟨fun h => absurd hsize h.1, fun _ => rfl⟩
  · rw [if_neg hsize]
    unfold pkeyMprotect
    split
    · rename_i pg hok
      split at hok
      · rename_i hmap
        cases hok
        constructor
        · exact fun h => if_pos h.2.2.2
        · exact fun h => if_neg fun hrange => h ⟨hsize, hmap.1, hmap.2, hrange⟩
      · cases hok
    · rename_i hfail
      split at hfail
      · cases hfail
      · rename_i hmap
        exact ⟨fun h => absurd ⟨h.2.1, h.2.2.1⟩ hmap, fun _ => rfl⟩

/-- The operation writes the key of page `p`. -/
def MonitorOp.Keys (s : HeapMap) (p : ℕ) : MonitorOp → Prop
  | .cmpAttach _ start size => Rekeys s start size p
  | .heapAttach _ start size => s.inHeap start = true ∧ Rekeys s start size p
  | .setupHeap _ _ => False

/-- Some operation that is reached writes the key of page `p`. -/
def KeysPage (pm : Pmap) : List MonitorOp → HeapMap → ℕ → Prop
  | [], _, _ => False
  | op :: ops, s, p =>
      op.Keys s p ∨ ((op.run pm s).2 = .done () ∧ KeysPage pm ops (op.run pm s).1 p)

theorem MonitorOp.run_key {pm : Pmap} {mid : ℤ} {e : ProcMap} (hat : pm.at mid = .done e)
    {op : MonitorOp} (hop : op.For mid) (s : HeapMap) (p : ℕ) :
    (op.Keys s p → (op.run pm s).1.pages.key p = e.pkey) ∧
      (¬ op.Keys s p → (op.run pm s).1.pages.key p = s.pages.key p) := by
  cases op with
  | cmpAttach m start size =>
      obtain rfl : m = mid := hop
      exact cmpAttach_key hat start size s p
  | heapAttach m start size =>
      obtain rfl : m = mid := hop
      show (_ → (CubicleOS.heapAttach pm m start size s).1.pages.key p = _) ∧
        (_ → (CubicleOS.heapAttach pm m start size s).1.pages.key p = _)
      unfold CubicleOS.heapAttach
      by_cases hsize : size = 0
      · rw [if_pos hsize]
        exact ⟨fun h => absurd hsize h.2.1, fun _ => rfl⟩
      · rw [if_neg hsize]
        by_cases hin : longRange s.heapStart s.heapEnd start = true
        · rw [if_pos hin]
          have hattach := cmpAttach_key hat start size
            (s.record m (pageIndex s.heapStart start) (size.toNat / 4096)) p
          exact ⟨fun h => hattach.1 h.2, fun h => hattach.2 fun hr => h ⟨hin, hr⟩⟩
        · rw [if_neg hin]
          exact ⟨fun h => absurd h.1 hin, fun _ => rfl⟩
  | setupHeap base len => exact hop.elim

theorem runOps_key {pm : Pmap} {mid : ℤ} {e : ProcMap} (hat : pm.at mid = .done e)
    {ops : List MonitorOp} (hops : ∀ op ∈ ops, op.For mid) (s : HeapMap) (p : ℕ) :
    (KeysPage pm ops s p → (runOps pm ops s).1.pages.key p = e.pkey) ∧
      (¬ KeysPage pm ops s p → (runOps pm ops s).1.pages.key p = s.pages.key p) :=
  runOps_observe pm (fun s => s.pages.key p) (W := fun s op => op.Keys s p)
    (R := fun ops s => KeysPage pm ops s p) (fun _ => id) (fun _ _ _ => Iff.rfl)
    (fun op hop s => MonitorOp.run_key hat (hops op hop) s p) s

/-! ## §6  Code that goes through

`cmp_attach` and `heap_attach` leave the bounds of the heap and the mappings
alone, and what they write depends on nothing else. So when a piece of code goes
through, what it writes can be read off the map it starts from. -/

/-- The same heap range and the same mapped pages. -/
structure SameShape (s s' : HeapMap) : Prop where
  heapStart : s'.heapStart = s.heapStart
  heapEnd : s'.heapEnd = s.heapEnd
  mapped : s'.pages.mapped = s.pages.mapped

theorem SameShape.refl (s : HeapMap) : SameShape s s := ⟨rfl, rfl, rfl⟩

theorem SameShape.trans {s s' s'' : HeapMap} (h : SameShape s s') (h' : SameShape s' s'') :
    SameShape s s'' where
  heapStart := h'.heapStart.trans h.heapStart
  heapEnd := h'.heapEnd.trans h.heapEnd
  mapped := h'.mapped.trans h.mapped

theorem cmpAttach_shape (pm : Pmap) (mid : ℤ) (start size : UInt64) (s : HeapMap) :
    SameShape s (cmpAttach pm mid start size s).1 := by
  unfold cmpAttach
  split
  · exact .refl s
  · split
    · split
      · rename_i pg hok
        unfold pkeyMprotect at hok
        split at hok
        · cases hok
          exact ⟨rfl, rfl, rfl⟩
        · cases hok
      · exact .refl s
    · exact .refl s
    · exact .refl s

theorem heapAttach_shape (pm : Pmap) (mid : ℤ) (start size : UInt64) (s : HeapMap) :
    SameShape s (heapAttach pm mid start size s).1 := by
  unfold heapAttach
  split
  · exact .refl s
  · split
    · have hrecord : SameShape s
          (s.record mid (pageIndex s.heapStart start) (size.toNat / 4096)) := ⟨rfl, rfl, rfl⟩
      exact hrecord.trans (cmpAttach_shape pm mid start size _)
    · exact .refl s

theorem MonitorOp.run_shape (pm : Pmap) {mid : ℤ} {op : MonitorOp} (hop : op.For mid)
    (s : HeapMap) : SameShape s (op.run pm s).1 := by
  cases op with
  | cmpAttach m start size => exact cmpAttach_shape pm m start size s
  | heapAttach m start size => exact heapAttach_shape pm m start size s
  | setupHeap base len => exact hop.elim

theorem MonitorOp.writes_congr {s s' : HeapMap} (h : SameShape s s') {mid : ℤ}
    {op : MonitorOp} (hop : op.For mid) (a : UInt64) : op.Writes s' a ↔ op.Writes s a := by
  cases op with
  | cmpAttach m start size => exact Iff.rfl
  | heapAttach m start size =>
      show Attaches s' start size a ↔ Attaches s start size a
      unfold Attaches HeapMap.inHeap
      rw [h.heapStart, h.heapEnd]
  | setupHeap base len => exact hop.elim

theorem MonitorOp.keys_congr {s s' : HeapMap} (h : SameShape s s') (p : ℕ)
    (op : MonitorOp) : op.Keys s' p ↔ op.Keys s p := by
  cases op with
  | cmpAttach m start size =>
      unfold MonitorOp.Keys Rekeys
      rw [h.mapped]
  | heapAttach m start size =>
      unfold MonitorOp.Keys Rekeys HeapMap.inHeap
      rw [h.heapStart, h.heapEnd, h.mapped]
  | setupHeap base len => exact Iff.rfl

/-- Code that goes through, one operation after the other. -/
theorem runOps_cons_done {pm : Pmap} {op : MonitorOp} {ops : List MonitorOp} {s : HeapMap}
    (h : (runOps pm (op :: ops) s).2 = .done ()) :
    (op.run pm s).2 = .done () ∧ (runOps pm ops (op.run pm s).1).2 = .done () ∧
      runOps pm (op :: ops) s = runOps pm ops (op.run pm s).1 := by
  change ((op.run pm).seq (runOps pm ops) s).2 = .done () at h
  show _ ∧ _ ∧ (op.run pm).seq (runOps pm ops) s = _
  rcases Proc.seq_cases (op.run pm) (runOps pm ops) s with ⟨hdone, heq⟩ | ⟨hstop, heq⟩
  · exact ⟨hdone, heq ▸ h, heq⟩
  · rw [heq] at h
    exact absurd h hstop

theorem runOps_shape (pm : Pmap) {ops : List MonitorOp}
    (hops : ∀ op ∈ ops, ∃ mid, op.For mid) :
    ∀ s : HeapMap, SameShape s (runOps pm ops s).1 := by
  induction ops with
  | nil => exact fun s => .refl s
  | cons op ops ih =>
      intro s
      obtain ⟨⟨mid, hop⟩, hrest⟩ := List.forall_mem_cons.mp hops
      have hstep := MonitorOp.run_shape pm hop s
      show SameShape s ((op.run pm).seq (runOps pm ops) s).1
      rcases Proc.seq_cases (op.run pm) (runOps pm ops) s with ⟨-, heq⟩ | ⟨-, heq⟩
      · rw [heq]
        exact hstep.trans (ih hrest _)
      · rw [heq]
        exact hstep

/-- Code that goes through reaches each of its operations. -/
theorem reached_iff {pm : Pmap} {mid : ℤ} {W : HeapMap → MonitorOp → Prop}
    {R : List MonitorOp → HeapMap → Prop} (hnil : ∀ s, ¬ R [] s)
    (hcons : ∀ op ops s, R (op :: ops) s ↔
      W s op ∨ ((op.run pm s).2 = .done () ∧ R ops (op.run pm s).1))
    (hcongr : ∀ op s s', op.For mid → SameShape s s' → (W s' op ↔ W s op)) :
    ∀ {ops : List MonitorOp}, (∀ op ∈ ops, op.For mid) → ∀ {s : HeapMap},
      (runOps pm ops s).2 = .done () → (R ops s ↔ ∃ op ∈ ops, W s op) := by
  intro ops
  induction ops with
  | nil => exact fun _ s _ => ⟨fun h => absurd h (hnil s), by simp⟩
  | cons op ops ih =>
      intro hops s hdone
      obtain ⟨hop, hrest⟩ := List.forall_mem_cons.mp hops
      obtain ⟨hfirst, hlater, -⟩ := runOps_cons_done hdone
      have hshape := MonitorOp.run_shape pm hop s
      rw [hcons, ih hrest hlater]
      simp only [List.mem_cons, exists_eq_or_imp]
      refine or_congr Iff.rfl ⟨?_, ?_⟩
      · rintro ⟨-, x, hx, hw⟩
        exact ⟨x, hx, (hcongr x _ _ (hrest x hx) hshape).mp hw⟩
      · rintro ⟨x, hx, hw⟩
        exact ⟨hfirst, x, hx, (hcongr x _ _ (hrest x hx) hshape).mpr hw⟩

theorem writesEntry_iff {pm : Pmap} {mid : ℤ} {ops : List MonitorOp}
    (hops : ∀ op ∈ ops, op.For mid) {s : HeapMap} (hdone : (runOps pm ops s).2 = .done ())
    (a : UInt64) : WritesEntry pm ops s a ↔ ∃ op ∈ ops, op.Writes s a :=
  reached_iff (W := fun s op => op.Writes s a) (R := fun ops s => WritesEntry pm ops s a)
    (fun _ => id) (fun _ _ _ => Iff.rfl)
    (fun _ _ _ hop hshape => MonitorOp.writes_congr hshape hop a) hops hdone

theorem keysPage_iff {pm : Pmap} {mid : ℤ} {ops : List MonitorOp}
    (hops : ∀ op ∈ ops, op.For mid) {s : HeapMap} (hdone : (runOps pm ops s).2 = .done ())
    (p : ℕ) : KeysPage pm ops s p ↔ ∃ op ∈ ops, op.Keys s p :=
  reached_iff (W := fun s op => op.Keys s p) (R := fun ops s => KeysPage pm ops s p)
    (fun _ => id) (fun _ _ _ => Iff.rfl)
    (fun op _ _ _ hshape => MonitorOp.keys_congr hshape p op) hops hdone

/-- The heap lies in the user half of the address space. -/
structure HeapMap.UserHalf (s : HeapMap) : Prop where
  heapStart : s.heapStart.toNat < 2 ^ 63
  heapEnd : s.heapEnd.toNat < 2 ^ 63

theorem HeapMap.UserHalf.congr {s s' : HeapMap} (h : SameShape s s') (hs : s.UserHalf) :
    s'.UserHalf where
  heapStart := h.heapStart ▸ hs.heapStart
  heapEnd := h.heapEnd ▸ hs.heapEnd

theorem cmpAttach_done {pm : Pmap} {mid : ℤ} {start size : UInt64} {s : HeapMap}
    (h : (cmpAttach pm mid start size s).2 = .done ()) (hsize : size ≠ 0) :
    (∃ e, pm.at mid = .done e) ∧ start.toNat % 4096 = 0 ∧
      ∀ i < pagesOf size, s.pages.mapped (start.toNat / 4096 + i) = true := by
  unfold cmpAttach at h
  rw [if_neg hsize] at h
  split at h
  · rename_i e hat
    split at h
    · rename_i pg hok
      unfold pkeyMprotect at hok
      split at hok
      · rename_i hmap
        exact ⟨⟨e, hat⟩, hmap⟩
      · cases hok
    · cases h
  · cases h
  · cases h

/-- A page that is recorded by code that goes through is re-keyed as well. -/
theorem MonitorOp.keys_of_writes {pm : Pmap} {mid : ℤ} {op : MonitorOp} (hop : op.For mid)
    {s : HeapMap} (huser : s.UserHalf) (hdone : (op.run pm s).2 = .done ()) {a : UInt64}
    (ha : 4096 ∣ a.toNat) (hw : op.Writes s a) : op.Keys s (a.toNat / 4096) := by
  cases op with
  | cmpAttach m start size => exact hw.elim
  | heapAttach m start size =>
      obtain ⟨hsize, hstart, hin, hlo, hhi⟩ := hw
      change (CubicleOS.heapAttach pm m start size s).2 = .done () at hdone
      unfold CubicleOS.heapAttach at hdone
      rw [if_neg hsize, if_pos hstart] at hdone
      obtain ⟨-, haligned, hmap⟩ := cmpAttach_done hdone hsize
      refine ⟨hstart, hsize, haligned, hmap, ?_⟩
      have hrange := (longRange_iff huser.heapStart huser.heapEnd).mp hstart
      have hrange' := (longRange_iff huser.heapStart huser.heapEnd).mp hin
      rw [pageIndex_eq hrange.1, pageIndex_eq hrange'.1] at hlo hhi
      unfold pagesOf
      omega
  | setupHeap base len => exact hop.elim

theorem runOps_keys_of_writes {pm : Pmap} {mid : ℤ} {a : UInt64} (ha : 4096 ∣ a.toNat) :
    ∀ {ops : List MonitorOp}, (∀ op ∈ ops, op.For mid) → ∀ {s : HeapMap}, s.UserHalf →
      (runOps pm ops s).2 = .done () → (∃ op ∈ ops, op.Writes s a) →
        ∃ op ∈ ops, op.Keys s (a.toNat / 4096) := by
  intro ops
  induction ops with
  | nil =>
      rintro - s - - ⟨op, hop, -⟩
      cases hop
  | cons op ops ih =>
      rintro hops s huser hdone ⟨x, hx, hw⟩
      obtain ⟨hop, hrest⟩ := List.forall_mem_cons.mp hops
      obtain ⟨hfirst, hlater, -⟩ := runOps_cons_done hdone
      rcases List.mem_cons.mp hx with rfl | hx
      · exact ⟨x, hx, MonitorOp.keys_of_writes hop huser hfirst ha hw⟩
      · have hshape := MonitorOp.run_shape pm hop s
        obtain ⟨y, hy, hk⟩ := ih hrest (huser.congr hshape) hlater
          ⟨x, hx, (MonitorOp.writes_congr hshape (hrest x hx) a).mpr hw⟩
        exact ⟨y, List.mem_cons_of_mem op hy, (MonitorOp.keys_congr hshape _ y).mp hk⟩

/-! ## §7  Blocks as their records give them

A wrap takes the address and the number of pages of a block from two words in
memory. Both may be anything, so the number counts modulo `2^52`. -/

/-- `cmp_attach(_, p, 4096)` goes through: `p` is the start of a mapped page. -/
def HeapMap.PageAt (s : HeapMap) (p : UInt64) : Prop :=
  p.toNat % 4096 = 0 ∧ s.pages.mapped (p.toNat / 4096) = true

/-- `a` is in the heap, on one of the `num` pages from `base` on. -/
def HeapMap.InRun (s : HeapMap) (base num a : UInt64) : Prop :=
  s.inHeap base = true ∧ s.inHeap a = true ∧
    pageIndex s.heapStart base ≤ pageIndex s.heapStart a ∧
    pageIndex s.heapStart a < pageIndex s.heapStart base + num.toNat % 2 ^ 52

/-- `heap_attach(_, base, num * 4096)` goes through: there are no pages, or they
start in the heap and are all mapped. -/
def HeapMap.RunAt (s : HeapMap) (base num : UInt64) : Prop :=
  num.toNat % 2 ^ 52 = 0 ∨
    (s.inHeap base = true ∧ base.toNat % 4096 = 0 ∧
      ∀ i < num.toNat % 2 ^ 52, s.pages.mapped (base.toNat / 4096 + i) = true)

/-- Page number `p` is one of the `num` pages from `base` on. -/
def PageOfRun (base num : UInt64) (p : ℕ) : Prop :=
  base.toNat / 4096 ≤ p ∧ p < base.toNat / 4096 + num.toNat % 2 ^ 52

instance (s : HeapMap) (p : UInt64) : Decidable (s.PageAt p) := by
  unfold HeapMap.PageAt
  infer_instance

instance (s : HeapMap) (base num a : UInt64) : Decidable (s.InRun base num a) := by
  unfold HeapMap.InRun
  infer_instance

instance (s : HeapMap) (base num : UInt64) : Decidable (s.RunAt base num) := by
  unfold HeapMap.RunAt
  infer_instance

theorem pages_toNat (num : UInt64) : (num * 4096).toNat = num.toNat % 2 ^ 52 * 4096 := by
  rw [UInt64.toNat_mul, show (4096 : UInt64).toNat = 4096 from rfl]
  omega

theorem pages_ne_zero {num : UInt64} : num * 4096 ≠ 0 ↔ num.toNat % 2 ^ 52 ≠ 0 := by
  rw [Ne, ← UInt64.toNat_inj, pages_toNat, show (0 : UInt64).toNat = 0 from rfl]
  omega

theorem pagesOf_pages (num : UInt64) : pagesOf (num * 4096) = num.toNat % 2 ^ 52 := by
  unfold pagesOf
  rw [pages_toNat]
  omega

/-- What attaching a block writes. -/
theorem attaches_pages {s : HeapMap} {base num a : UInt64} :
    Attaches s base (num * 4096) a ↔ s.InRun base num a := by
  unfold Attaches HeapMap.InRun
  rw [pages_ne_zero, pages_toNat, Nat.mul_div_cancel _ (by decide)]
  constructor
  · exact fun h => h.2
  · exact fun h => ⟨by omega, h⟩

/-- One page, as `heap_attach(_, tmp, 4096)` has it. -/
theorem attaches_page {s : HeapMap} {p a : UInt64} :
    Attaches s p 4096 a ↔ s.InRun p 1 a :=
  @attaches_pages s p 1 a

section Goes

variable {pm : Pmap} {mid : ℤ} {e : ProcMap} (hat : pm.at mid = .done e) {s : HeapMap}

include hat

theorem cmpAttach_done_iff {start size : UInt64} (hsize : size ≠ 0) :
    (cmpAttach pm mid start size s).2 = .done () ↔
      start.toNat % 4096 = 0 ∧
        ∀ i < pagesOf size, s.pages.mapped (start.toNat / 4096 + i) = true := by
  constructor
  · exact fun h => (cmpAttach_done h hsize).2
  · intro h
    unfold cmpAttach pkeyMprotect
    rw [if_neg hsize, hat]
    dsimp only
    rw [if_pos h]

theorem cmpAttach_page_done {p : UInt64} :
    (cmpAttach pm mid p 4096 s).2 = .done () ↔ s.PageAt p := by
  rw [cmpAttach_done_iff hat (by decide), show pagesOf 4096 = 1 from by decide]
  unfold HeapMap.PageAt
  simp

theorem heapAttach_pages_done {base num : UInt64} :
    (heapAttach pm mid base (num * 4096) s).2 = .done () ↔ s.RunAt base num := by
  unfold heapAttach HeapMap.RunAt
  by_cases hnum : num.toNat % 2 ^ 52 = 0
  · have hzero : num * 4096 = 0 := not_not.mp fun h => pages_ne_zero.mp h hnum
    rw [if_pos hzero]
    exact iff_of_true rfl (Or.inl hnum)
  · have hsize := pages_ne_zero.mpr hnum
    rw [if_neg hsize]
    by_cases hin : s.inHeap base = true
    · rw [if_pos hin, cmpAttach_done_iff hat hsize, pagesOf_pages]
      exact ⟨fun h => Or.inr ⟨hin, h⟩, fun h => (h.resolve_left hnum).2⟩
    · rw [if_neg hin]
      refine iff_of_false (by simp) ?_
      rintro (h | h)
      · exact hnum h
      · exact hin h.1

theorem heapAttach_page_done {p : UInt64} :
    (heapAttach pm mid p 4096 s).2 = .done () ↔ s.RunAt p 1 :=
  @heapAttach_pages_done pm mid e hat s p 1

end Goes

/-- The page that `cmp_attach(_, p, 4096)` re-keys. -/
theorem rekeys_page {s : HeapMap} {p : UInt64} {q : ℕ} :
    Rekeys s p 4096 q ↔ s.PageAt p ∧ q = p.toNat / 4096 := by
  unfold Rekeys HeapMap.PageAt
  rw [show pagesOf 4096 = 1 from by decide]
  constructor
  · rintro ⟨-, hal, hmap, hlo, hhi⟩
    exact ⟨⟨hal, hmap 0 (by decide)⟩, by omega⟩
  · rintro ⟨⟨hal, hmap⟩, rfl⟩
    refine ⟨by decide, hal, ?_, le_refl _, by omega⟩
    intro i hi
    obtain rfl : i = 0 := by omega
    exact hmap

/-- The pages that attaching a block re-keys, if it goes through. -/
theorem keys_pages {s : HeapMap} {mid : ℤ} {base num : UInt64} {q : ℕ} :
    (MonitorOp.heapAttach mid base (num * 4096)).Keys s q ↔
      s.RunAt base num ∧ PageOfRun base num q := by
  unfold MonitorOp.Keys Rekeys HeapMap.RunAt PageOfRun
  dsimp only
  rw [pages_ne_zero, pagesOf_pages]
  constructor
  · rintro ⟨hin, -, hal, hmap, hq⟩
    exact ⟨Or.inr ⟨hin, hal, hmap⟩, hq⟩
  · rintro ⟨hrun, hq⟩
    have hnum : num.toNat % 2 ^ 52 ≠ 0 := by omega
    obtain ⟨hin, hal, hmap⟩ := hrun.resolve_left hnum
    exact ⟨hin, hnum, hal, hmap, hq⟩

theorem keys_page {s : HeapMap} {mid : ℤ} {p : UInt64} {q : ℕ} :
    (MonitorOp.heapAttach mid p 4096).Keys s q ↔ s.RunAt p 1 ∧ PageOfRun p 1 q :=
  @keys_pages s mid p 1 q

/-- What is there does not depend on owners and keys. -/
theorem SameShape.pageAt {s s' : HeapMap} (h : SameShape s s') {p : UInt64} :
    s'.PageAt p ↔ s.PageAt p := by
  unfold HeapMap.PageAt
  rw [h.mapped]

theorem SameShape.inRun {s s' : HeapMap} (h : SameShape s s') {base num a : UInt64} :
    s'.InRun base num a ↔ s.InRun base num a := by
  unfold HeapMap.InRun HeapMap.inHeap
  rw [h.heapStart, h.heapEnd]

theorem SameShape.runAt {s s' : HeapMap} (h : SameShape s s') {base num : UInt64} :
    s'.RunAt base num ↔ s.RunAt base num := by
  unfold HeapMap.RunAt HeapMap.inHeap
  rw [h.heapStart, h.heapEnd, h.mapped]

/-- The heap of the examples: page 0 is the application's, page 1 is lwip's. -/
def sampleHeap : HeapMap where
  pages := { key := fun _ => 0, mapped := fun _ => true }
  heapCfg := fun p =>
    if p = 0 then Int8.ofInt Modules.app.id
    else if p = 1 then Int8.ofInt Modules.lwip.id
    else Int8.ofInt Modules.ukalloc.id
  heapStart := 0x800000
  heapEnd := 0x900000

theorem sampleHeap_recorded : sampleHeap.Recorded := by
  intro p
  unfold sampleHeap
  dsimp only
  split
  · decide
  · split <;> decide

end CubicleOS
