import CubicleOS.Monitor.Heap

/-!
# Exported functions and their wraps

The generator writes one `hooked_<name>` for every exported function. For the
allocator's functions, and for the one that hands out the heap, it adds
monitor code before or after the call: the pre-wrap gives the block that is
freed back to ukalloc, the post-wrap gives the block that was allocated to the
caller. Which pages make up a block is read from the metadata next to it.
-/

namespace CubicleOS

open Foundation

/-! ## §1  Exported functions -/

/-- A function of a library's export list. `stack` is the address of the
mapping that `create_cubicles` makes for its coroutine. -/
structure Export where
  lib : Modules
  name : String
  stack : UInt64
deriving DecidableEq, Repr

/-- `change_enum`: the application's `main` is exported by ukboot. -/
def changeEnum (module : Modules) (name : String) : Modules :=
  if name = "main" ∧ module = .ukboot then .app else module

/-- The cubicle that the hook switches to. -/
def Export.module (f : Export) : Modules := changeEnum f.lib f.name

theorem Export.module_lib {f : Export} (h : f.lib ≠ .ukboot) : f.module = f.lib := by
  unfold Export.module changeEnum
  rw [if_neg fun hmain => h hmain.2]

theorem Export.module_ukalloc {f : Export} (h : f.lib = .ukalloc) : f.module = .ukalloc := by
  rw [f.module_lib (by rw [h]; simp), h]

/-! ## §2  The wraps -/

/-- Memory as the code of the cubicles leaves it, by address of the word. -/
abbrev UserMem : Type := UInt64 → UInt64

/-- `tmp->num_pages` of `struct metadata_ifpages`. -/
def numPages (u : UserMem) (tmp : UInt64) : UInt64 := u tmp

/-- `tmp->base`. -/
def metaBase (u : UserMem) (tmp : UInt64) : UInt64 := u (tmp + 8)

/-- `gen_pre_wrap`. -/
def genPreWrap (f : Export) (callee : ℤ) (args : ℕ → UInt64) (u : UserMem) :
    List MonitorOp :=
  if f.lib = .ukalloc ∧ f.name = "uk_free_ifpages" then
    if args 1 ≠ 0 then
      let tmp := if args 1 &&& 0xfff ≠ 0 then args 1 - 16 else args 1 - 4096
      [.cmpAttach callee tmp 4096,
        .heapAttach callee (metaBase u tmp) (numPages u tmp * 4096)]
    else []
  else if f.lib = .ukalloc ∧ f.name = "uk_realloc_ifpages" then
    if args 1 ≠ 0 then
      let tmp := args 1 - 16
      [.cmpAttach callee tmp 4096,
        .heapAttach callee (metaBase u tmp) (numPages u tmp * 4096)]
    else []
  else []

/-- `gen_post_wrap`. An `int` result is compared in 32 bits. -/
def genPostWrap (f : Export) (caller : ℤ) (args : ℕ → UInt64) (ret : UInt64)
    (u : UserMem) : List MonitorOp :=
  if f.lib = .ukalloc ∧ f.name = "uk_posix_memalign_ifpages" then
    if ret.toUInt32 = 0 then
      let tt := u (args 1)
      let pageBegin := pageStart tt
      let tmp := if pageBegin = tt then pageBegin - 4096 else pageBegin
      let fix := if pageBegin = tt then 1 else 0
      [.cmpAttach caller tmp 4096,
        .heapAttach caller (metaBase u tmp) ((numPages u tmp - fix) * 4096)]
    else []
  else if f.lib = .ukalloc ∧
      (f.name = "uk_malloc_ifpages" ∨ f.name = "uk_calloc_compat") then
    if ret ≠ 0 then
      let tmp := ret - 16
      [.cmpAttach caller tmp 4096,
        .heapAttach caller (metaBase u tmp) (numPages u tmp * 4096)]
    else []
  else if f.lib = .ukalloc ∧ f.name = "uk_realloc_ifpages" then
    if ret ≠ 0 then
      let tmp := ret - 16
      -- unlike its siblings, this one records the metadata page as well
      [.heapAttach caller tmp 4096,
        .heapAttach caller (metaBase u tmp) (numPages u tmp * 4096)]
    else []
  else if f.lib = .linuxuplat ∧ f.name = "ukplat_memregion_get" then
    if ret.toUInt32 ≠ 0xffffffff then
      let desc := args 1
      [.cmpAttach caller desc 4096, .setupHeap (u desc) (u (desc + 8))]
    else []
  else []

theorem genPreWrap_lib {f : Export} {callee : ℤ} {args : ℕ → UInt64} {u : UserMem}
    (h : f.lib ≠ .ukalloc) : genPreWrap f callee args u = [] := by
  unfold genPreWrap
  rw [if_neg fun hf => h hf.1, if_neg fun hf => h hf.1]

/-- The pre-wraps record the callee only. -/
theorem genPreWrap_for (f : Export) (callee : ℤ) (args : ℕ → UInt64)
    (u : UserMem) : ∀ op ∈ genPreWrap f callee args u, op.For callee := by
  intro op hop
  unfold genPreWrap at hop
  split at hop
  · split at hop
    · rcases List.mem_pair.mp hop with rfl | rfl
      · rfl
      · rfl
    · cases hop
  · split at hop
    · split at hop
      · rcases List.mem_pair.mp hop with rfl | rfl
        · rfl
        · rfl
      · cases hop
    · cases hop

/-- The post-wraps record the caller only, except for the one that starts the
map over. -/
theorem genPostWrap_for (f : Export) (caller : ℤ) (args : ℕ → UInt64)
    (ret : UInt64) (u : UserMem) :
    (∀ op ∈ genPostWrap f caller args ret u, op.For caller) ∨
      (f.lib = .linuxuplat ∧ ∃ desc base len, genPostWrap f caller args ret u =
        [.cmpAttach caller desc 4096, .setupHeap base len]) := by
  have hpair : ∀ {x y : MonitorOp}, x.For caller → y.For caller →
      ∀ op ∈ [x, y], op.For caller := by
    rintro x y hx hy op hop
    rcases List.mem_pair.mp hop with rfl | rfl
    · exact hx
    · exact hy
  unfold genPostWrap
  split
  · split
    · exact Or.inl (hpair rfl rfl)
    · exact Or.inl (by simp)
  · split
    · split
      · exact Or.inl (hpair rfl rfl)
      · exact Or.inl (by simp)
    · split
      · split
        · exact Or.inl (hpair rfl rfl)
        · exact Or.inl (by simp)
      · split
        · rename_i hlib
          split
          · exact Or.inr ⟨hlib.1, _, _, _, rfl⟩
          · exact Or.inl (by simp)
        · exact Or.inl (by simp)

/-! ### The functions that have one -/

/-- The wrapped functions; `uk_malloc_ifpages` and `uk_calloc_compat` share
their wrap. -/
inductive WrappedFn where
  | free
  | realloc
  | posixMemalign
  | malloc
  | memregionGet
deriving DecidableEq, Repr

def Export.wrapped (f : Export) : Option WrappedFn :=
  if f.lib = .ukalloc ∧ f.name = "uk_free_ifpages" then some .free
  else if f.lib = .ukalloc ∧ f.name = "uk_realloc_ifpages" then some .realloc
  else if f.lib = .ukalloc ∧ f.name = "uk_posix_memalign_ifpages" then some .posixMemalign
  else if f.lib = .ukalloc ∧
      (f.name = "uk_malloc_ifpages" ∨ f.name = "uk_calloc_compat") then some .malloc
  else if f.lib = .linuxuplat ∧ f.name = "ukplat_memregion_get" then some .memregionGet
  else none

theorem Export.wrapped_lib {f : Export} {fn : WrappedFn} (h : f.wrapped = some fn) :
    f.lib = if fn = .memregionGet then .linuxuplat else .ukalloc := by
  unfold Export.wrapped at h
  split at h
  · cases h
    exact And.left ‹_›
  · split at h
    · cases h
      exact And.left ‹_›
    · split at h
      · cases h
        exact And.left ‹_›
      · split at h
        · cases h
          exact And.left ‹_›
        · split at h
          · cases h
            exact And.left ‹_›
          · cases h

/-- Where the pre-wrap of `uk_free_ifpages` looks for the record. -/
def freeRecord (p : UInt64) : UInt64 := if p &&& 0xfff ≠ 0 then p - 16 else p - 4096

/-- Where the post-wrap of `uk_posix_memalign_ifpages` looks for it. -/
def memalignRecord (p : UInt64) : UInt64 :=
  if pageStart p = p then pageStart p - 4096 else pageStart p

/-- How many pages of the record that post-wrap takes. -/
def memalignPages (u : UserMem) (p : UInt64) : UInt64 :=
  numPages u (memalignRecord p) - if pageStart p = p then 1 else 0

/-- The page of the record is re-keyed and the block is attached. -/
def attachBlock (mid : ℤ) (tmp base num : UInt64) : List MonitorOp :=
  [.cmpAttach mid tmp 4096, .heapAttach mid base (num * 4096)]

/-- Only in `uk_realloc_ifpages` the page of the record is recorded as well. -/
def attachWithRecord (mid : ℤ) (tmp base num : UInt64) : List MonitorOp :=
  [.heapAttach mid tmp 4096, .heapAttach mid base (num * 4096)]

theorem genPreWrap_wrapped (f : Export) (callee : ℤ) (args : ℕ → UInt64) (u : UserMem) :
    genPreWrap f callee args u =
      match f.wrapped with
      | some .free =>
          if args 1 ≠ 0 then attachBlock callee (freeRecord (args 1))
            (metaBase u (freeRecord (args 1))) (numPages u (freeRecord (args 1)))
          else []
      | some .realloc =>
          if args 1 ≠ 0 then attachBlock callee (args 1 - 16)
            (metaBase u (args 1 - 16)) (numPages u (args 1 - 16))
          else []
      | _ => [] := by
  unfold genPreWrap Export.wrapped
  split
  · rfl
  · split
    · rfl
    · split
      · rename_i h
        split at h
        · cases h
        · split at h
          · cases h
          · split at h <;> cases h
      · rename_i h
        split at h
        · cases h
        · split at h
          · cases h
          · split at h <;> cases h
      · rfl

theorem genPostWrap_wrapped (f : Export) (caller : ℤ) (args : ℕ → UInt64) (ret : UInt64)
    (u : UserMem) :
    genPostWrap f caller args ret u =
      match f.wrapped with
      | some .posixMemalign =>
          if ret.toUInt32 = 0 then attachBlock caller (memalignRecord (u (args 1)))
            (metaBase u (memalignRecord (u (args 1)))) (memalignPages u (u (args 1)))
          else []
      | some .malloc =>
          if ret ≠ 0 then attachBlock caller (ret - 16) (metaBase u (ret - 16))
            (numPages u (ret - 16))
          else []
      | some .realloc =>
          if ret ≠ 0 then attachWithRecord caller (ret - 16) (metaBase u (ret - 16))
            (numPages u (ret - 16))
          else []
      | some .memregionGet =>
          if ret.toUInt32 ≠ 0xffffffff then
            [.cmpAttach caller (args 1) 4096, .setupHeap (u (args 1)) (u (args 1 + 8))]
          else []
      | _ => [] := by
  by_cases hlib : f.lib = .ukalloc
  · unfold genPostWrap Export.wrapped
    simp only [hlib, true_and]
    by_cases hfree : f.name = "uk_free_ifpages"
    · simp [hfree]
    by_cases hrealloc : f.name = "uk_realloc_ifpages"
    · simp [hrealloc]
      rfl
    by_cases hmemalign : f.name = "uk_posix_memalign_ifpages"
    · simp [hmemalign]
      rfl
    · simp only [hfree, hrealloc, hmemalign, if_false]
      split
      · rfl
      · simp
  · unfold genPostWrap Export.wrapped
    simp only [hlib, false_and, if_false]
    split <;> rfl

/-! ## §3  Ownership across one hooked call -/

/-- One hooked call and what cubicle code did around it: the arguments and
memory it was called with, the result and memory it returned with. Hooked
calls made by the callee are calls of their own. -/
structure HookedCall where
  caller : Modules
  fn : Export
  args : ℕ → UInt64
  memory : UserMem
  ret : UInt64
  memory' : UserMem

namespace HookedCall

variable (build : Build) (pm : Pmap) (c : HookedCall)

/-- The monitor code before the call; a call between friends has none. -/
def preOps : List MonitorOp :=
  if friends build c.caller c.fn.module then []
  else genPreWrap c.fn (remap pm c.fn.module) c.args c.memory

/-- The monitor code after the call. -/
def postOps : List MonitorOp :=
  if friends build c.caller c.fn.module then []
  else genPostWrap c.fn (remap pm c.caller) c.args c.ret c.memory'

/-- The call goes ahead with the map the pre-wrap left. -/
def called (s : HeapMap) : HeapMap := (runOps pm (c.preOps build pm) s).1

/-- The map after the post-wrap. -/
def returned (s : HeapMap) : HeapMap :=
  (runOps pm (c.postOps build pm) (c.called build pm s)).1

/-- Both wraps go through, so the hook returns. -/
def Returns (s : HeapMap) : Prop :=
  (runOps pm (c.preOps build pm) s).2 = .done () ∧
    (runOps pm (c.postOps build pm) (c.called build pm s)).2 = .done ()

/-- The pre-wrap or, once the pre-wrap is through, the post-wrap changes the
recorded owner of `a`. -/
def ChangesOwner (s : HeapMap) (a : UInt64) : Prop :=
  heapToLibId (c.called build pm s) a ≠ heapToLibId s a ∨
    ((runOps pm (c.preOps build pm) s).2 = .done () ∧
      heapToLibId (runOps pm (c.postOps build pm) (c.called build pm s)).1 a ≠
        heapToLibId (c.called build pm s) a)

/-- The wraps write the entry of `a`: it lies in a block that a pre- or
post-wrap attaches, or the map is started over. -/
def WritesOwner (s : HeapMap) (a : UInt64) : Prop :=
  WritesEntry pm (c.preOps build pm) s a ∨
    ((runOps pm (c.preOps build pm) s).2 = .done () ∧
      WritesEntry pm (c.postOps build pm) (c.called build pm s) a)

/-- The address belongs to the caller or to the allocator. -/
def Home (s : HeapMap) (a : UInt64) : Prop :=
  heapToLibId s a = c.caller.id ∨ heapToLibId s a = Modules.ukalloc.id

end HookedCall

theorem Modules.id_char (m : Modules) : -128 ≤ m.id ∧ m.id < 128 := by
  have h := m.id_range
  omega

section Ownership

variable {build : Build} (T : Cubicles build) {c : HookedCall}

/-- The pre-wraps give pages to ukalloc only. -/
theorem preOps_for (hf : Loaded T.pmap c.fn.module) :
    ∀ op ∈ c.preOps build T.pmap, op.For Modules.ukalloc.id := by
  unfold HookedCall.preOps
  split
  · simp
  · by_cases hlib : c.fn.lib = .ukalloc
    · have hid : remap T.pmap c.fn.module = Modules.ukalloc.id := by
        rw [T.remap_loaded hf, Export.module_ukalloc hlib]
      rw [hid]
      exact genPreWrap_for _ _ _ _
    · rw [genPreWrap_lib hlib]
      simp

theorem postOps_for (hC : Loaded T.pmap c.caller) :
    (∀ op ∈ c.postOps build T.pmap, op.For c.caller.id) ∨
      (c.preOps build T.pmap = [] ∧ ∃ desc base len, c.postOps build T.pmap =
        [.cmpAttach c.caller.id desc 4096, .setupHeap base len]) := by
  unfold HookedCall.postOps HookedCall.preOps
  split
  · exact Or.inl (by simp)
  · rw [T.remap_loaded hC]
    rcases genPostWrap_for c.fn c.caller.id c.args c.ret c.memory' with h | ⟨hlib, h⟩
    · exact Or.inl h
    · refine Or.inr ⟨genPreWrap_lib ?_, h⟩
      rw [hlib]
      decide

/-- What the wraps leave alone keeps its owner. -/
theorem writes_of_changes (hf : Loaded T.pmap c.fn.module)
    (hC : Loaded T.pmap c.caller) {s : HeapMap} {a : UInt64}
    (ha : s.inHeap a = true) (h : c.ChangesOwner build T.pmap s a) :
    c.WritesOwner build T.pmap s a := by
  have hpre := runOps_owner T.pmap (Modules.id_char _) (preOps_for T hf) s a
  rcases h with h | ⟨hdone, h⟩
  · by_contra hno
    exact h (hpre.2 fun hw => hno (Or.inl hw))
  · rcases postOps_for T hC with hpost | ⟨hnone, desc, base, len, hpost⟩
    · refine Or.inr ⟨hdone, ?_⟩
      by_contra hno
      exact h ((runOps_owner T.pmap (Modules.id_char _) hpost _ a).2 hno)
    · -- there was no pre-wrap, so the new map replaces the one that `a` is in
      refine Or.inr ⟨hdone, ?_⟩
      rw [hpost] at h ⊢
      have hs : c.called build T.pmap s = s := by
        unfold HookedCall.called
        rw [hnone]
        rfl
      rw [hs] at h ⊢
      by_cases hok : (cmpAttach T.pmap c.caller.id desc 4096 s).2 = .done ()
      · refine Or.inr ⟨hok, Or.inl ?_⟩
        obtain ⟨-, hstart, hend⟩ := cmpAttach_cfg T.pmap c.caller.id desc 4096 s
        show longRange _ _ a = true
        rw [show (MonitorOp.run T.pmap (.cmpAttach c.caller.id desc 4096) s).1 =
          (cmpAttach T.pmap c.caller.id desc 4096 s).1 from rfl, hstart, hend]
        exact ha
      · refine absurd ?_ h
        have hstop : runOps T.pmap [.cmpAttach c.caller.id desc 4096,
            .setupHeap base len] s = cmpAttach T.pmap c.caller.id desc 4096 s :=
          Proc.seq_of_not_done hok
        rw [hstop]
        exact cmpAttach_owner _ _ _ _ _ _

/-- What the wraps write changes hands unless it is the caller's or the
allocator's already. -/
theorem changes_of_writes (hf : Loaded T.pmap c.fn.module)
    (hC : Loaded T.pmap c.caller) {s : HeapMap} (hrec : s.Recorded) {a : UInt64}
    (ha : s.inHeap a = true) (hhome : ¬ c.Home s a)
    (h : c.WritesOwner build T.pmap s a) :
    c.ChangesOwner build T.pmap s a := by
  have hpre := runOps_owner T.pmap (Modules.id_char _) (preOps_for T hf) s a
  rcases h with h | ⟨hdone, h⟩
  · refine Or.inl fun heq => hhome (Or.inr ?_)
    exact heq.symm.trans (hpre.1 h)
  · by_cases hsame : heapToLibId (c.called build T.pmap s) a = heapToLibId s a
    · refine Or.inr ⟨hdone, fun heq => ?_⟩
      rcases postOps_for T hC with hpost | ⟨hnone, desc, base, len, hpost⟩
      · have hnew := (runOps_owner T.pmap (Modules.id_char _) hpost _ a).1 h
        exact hhome (Or.inl (hsame.symm.trans (heq.symm.trans hnew)))
      · rw [hpost] at h heq
        rcases h with h | ⟨hok, -⟩
        · exact h
        · have hrun : runOps T.pmap [.cmpAttach c.caller.id desc 4096,
              .setupHeap base len] (c.called build T.pmap s) =
              setupHeap base len (cmpAttach T.pmap c.caller.id desc 4096
                (c.called build T.pmap s)).1 := by
            exact Proc.seq_of_done (Prod.ext rfl hok)
          rw [hrun, hsame] at heq
          rcases setupHeap_owner base len _ a with hnew | hnew
          · exact hhome (Or.inr (heq.symm.trans hnew))
          · exact hrec.owner_ne ha (heq.symm.trans hnew)
    · exact Or.inl hsame

/-- The wraps write the entries of home pages only, if what they change is home. -/
theorem changes_home_iff_writes_home (hf : Loaded T.pmap c.fn.module)
    (hC : Loaded T.pmap c.caller) {s : HeapMap} (hrec : s.Recorded) :
    (∀ a, s.inHeap a = true → c.ChangesOwner build T.pmap s a → c.Home s a) ↔
      ∀ a, s.inHeap a = true → c.WritesOwner build T.pmap s a → c.Home s a := by
  constructor
  · intro h a ha hw
    by_contra hhome
    exact hhome (h a ha (changes_of_writes T hf hC hrec ha hhome hw))
  · intro h a ha hch
    exact h a ha (writes_of_changes T hf hC ha hch)

/-! ## §4  The same from the arguments and the record -/

theorem runOps_cons_done_iff {pm : Pmap} {op : MonitorOp} {ops : List MonitorOp}
    {s : HeapMap} :
    (runOps pm (op :: ops) s).2 = .done () ↔
      (op.run pm s).2 = .done () ∧ (runOps pm ops (op.run pm s).1).2 = .done () := by
  constructor
  · intro h
    obtain ⟨hfirst, hrest, -⟩ := runOps_cons_done h
    exact ⟨hfirst, hrest⟩
  · rintro ⟨hfirst, hrest⟩
    have hseq : runOps pm (op :: ops) s = runOps pm ops (op.run pm s).1 :=
      Proc.seq_of_done (Prod.ext rfl hfirst)
    rw [hseq]
    exact hrest

section Block

variable {pm : Pmap} {mid : ℤ} {e : ProcMap} (hat : pm.at mid = .done e) {s : HeapMap}

include hat

theorem attachBlock_writes {tmp base num a : UInt64} :
    WritesEntry pm (attachBlock mid tmp base num) s a ↔
      s.PageAt tmp ∧ s.InRun base num a := by
  have hshape := cmpAttach_shape pm mid tmp 4096 s
  show False ∨ ((cmpAttach pm mid tmp 4096 s).2 = .done () ∧
    (Attaches (cmpAttach pm mid tmp 4096 s).1 base (num * 4096) a ∨ (_ ∧ False))) ↔ _
  rw [cmpAttach_page_done hat, attaches_pages, hshape.inRun]
  simp

theorem attachBlock_done {tmp base num : UInt64} :
    (runOps pm (attachBlock mid tmp base num) s).2 = .done () ↔
      s.PageAt tmp ∧ s.RunAt base num := by
  have hshape := cmpAttach_shape pm mid tmp 4096 s
  unfold attachBlock
  rw [runOps_cons_done_iff, runOps_cons_done_iff]
  show (cmpAttach pm mid tmp 4096 s).2 = .done () ∧
    (heapAttach pm mid base (num * 4096) (cmpAttach pm mid tmp 4096 s).1).2 = .done () ∧
      _ ↔ _
  rw [cmpAttach_page_done hat, heapAttach_pages_done hat, hshape.runAt]
  exact and_congr_right fun _ => and_iff_left rfl

theorem attachWithRecord_writes {tmp base num a : UInt64} :
    WritesEntry pm (attachWithRecord mid tmp base num) s a ↔
      s.InRun tmp 1 a ∨ (s.RunAt tmp 1 ∧ s.InRun base num a) := by
  have hshape := heapAttach_shape pm mid tmp 4096 s
  show Attaches s tmp 4096 a ∨ ((heapAttach pm mid tmp 4096 s).2 = .done () ∧
    (Attaches (heapAttach pm mid tmp 4096 s).1 base (num * 4096) a ∨ (_ ∧ False))) ↔ _
  rw [attaches_page, heapAttach_page_done hat, attaches_pages, hshape.inRun]
  simp

theorem attachWithRecord_done {tmp base num : UInt64} :
    (runOps pm (attachWithRecord mid tmp base num) s).2 = .done () ↔
      s.RunAt tmp 1 ∧ s.RunAt base num := by
  have hshape := heapAttach_shape pm mid tmp 4096 s
  unfold attachWithRecord
  rw [runOps_cons_done_iff, runOps_cons_done_iff]
  show (heapAttach pm mid tmp 4096 s).2 = .done () ∧
    (heapAttach pm mid base (num * 4096) (heapAttach pm mid tmp 4096 s).1).2 = .done () ∧
      _ ↔ _
  rw [heapAttach_page_done hat, heapAttach_pages_done hat, hshape.runAt]
  exact and_congr_right fun _ => and_iff_left rfl

theorem newMap_writes {desc base len a : UInt64} :
    WritesEntry pm [.cmpAttach mid desc 4096, .setupHeap base len] s a ↔
      s.PageAt desc ∧ s.inHeap a = true := by
  have hshape := cmpAttach_shape pm mid desc 4096 s
  show False ∨ ((cmpAttach pm mid desc 4096 s).2 = .done () ∧
    ((cmpAttach pm mid desc 4096 s).1.inHeap a = true ∨ (_ ∧ False))) ↔ _
  rw [cmpAttach_page_done hat, HeapMap.inHeap, hshape.heapStart, hshape.heapEnd]
  simp

end Block

/-- The wrap of the function takes the page of `a` from whoever owns it. It does
if the record it looks up starts on a mapped page and puts the block there. In
`uk_realloc_ifpages` that holds of the old block, and if the old one could be
attached, of the new one and of the page in front of it. -/
def HookedCall.Takes (c : HookedCall) (s : HeapMap) (a : UInt64) : WrappedFn → Prop
  | .free =>
      let tmp := freeRecord (c.args 1)
      c.args 1 ≠ 0 ∧ s.PageAt tmp ∧ s.InRun (metaBase c.memory tmp) (numPages c.memory tmp) a
  | .realloc =>
      let old := c.args 1 - 16
      let new := c.ret - 16
      (c.args 1 ≠ 0 ∧ s.PageAt old ∧
          s.InRun (metaBase c.memory old) (numPages c.memory old) a) ∨
        ((c.args 1 ≠ 0 →
            s.PageAt old ∧ s.RunAt (metaBase c.memory old) (numPages c.memory old)) ∧
          c.ret ≠ 0 ∧
          (s.InRun new 1 a ∨
            (s.RunAt new 1 ∧ s.InRun (metaBase c.memory' new) (numPages c.memory' new) a)))
  | .posixMemalign =>
      let p := c.memory' (c.args 1)
      let tmp := memalignRecord p
      c.ret.toUInt32 = 0 ∧ s.PageAt tmp ∧
        s.InRun (metaBase c.memory' tmp) (memalignPages c.memory' p) a
  | .malloc =>
      let tmp := c.ret - 16
      c.ret ≠ 0 ∧ s.PageAt tmp ∧ s.InRun (metaBase c.memory' tmp) (numPages c.memory' tmp) a
  | .memregionGet =>
      c.ret.toUInt32 ≠ 0xffffffff ∧ s.PageAt (c.args 1) ∧ s.inHeap a = true

instance (c : HookedCall) (s : HeapMap) (a : UInt64) (fn : WrappedFn) :
    Decidable (c.Takes s a fn) := by
  cases fn <;> unfold HookedCall.Takes <;> infer_instance

theorem HookedCall.Takes.inHeap {s : HeapMap} {a : UInt64} {fn : WrappedFn}
    (h : c.Takes s a fn) : s.inHeap a = true := by
  cases fn with
  | free => exact h.2.2.2.1
  | realloc =>
      rcases h with ⟨-, -, h⟩ | ⟨-, -, h | ⟨-, h⟩⟩
      · exact h.2.1
      · exact h.2.1
      · exact h.2.1
  | posixMemalign => exact h.2.2.2.1
  | malloc => exact h.2.2.2.1
  | memregionGet => exact h.2.2

/-- The wraps write an entry exactly when the call is not between friends and its
function takes the page. -/
theorem writesOwner_iff_takes (hf : Loaded T.pmap c.fn.module)
    (hC : Loaded T.pmap c.caller) {s : HeapMap} {a : UInt64} :
    c.WritesOwner build T.pmap s a ↔
      friends build c.caller c.fn.module = false ∧
        ∃ fn, c.fn.wrapped = some fn ∧ c.Takes s a fn := by
  obtain ⟨eB, hatB, -⟩ := T.at_remap hf
  obtain ⟨eA, hatA, -⟩ := T.at_remap hC
  by_cases hfr : friends build c.caller c.fn.module = true
  · unfold HookedCall.WritesOwner HookedCall.preOps HookedCall.postOps
    rw [if_pos hfr, if_pos hfr]
    simp [WritesEntry, hfr]
  · have hno : friends build c.caller c.fn.module = false := Bool.not_eq_true _ ▸ hfr
    unfold HookedCall.WritesOwner HookedCall.called HookedCall.preOps HookedCall.postOps
    rw [if_neg hfr, if_neg hfr, genPreWrap_wrapped, genPostWrap_wrapped]
    cases hfn : c.fn.wrapped with
    | none => simp [WritesEntry]
    | some fn =>
        simp only [hno, true_and, Option.some.injEq, exists_eq_left']
        cases fn with
        | free =>
            dsimp only
            by_cases harg : c.args 1 = 0
            · simp [harg, WritesEntry, HookedCall.Takes]
            · rw [if_pos harg, attachBlock_writes hatB]
              simp [harg, WritesEntry, HookedCall.Takes]
        | realloc =>
            dsimp only
            by_cases harg : c.args 1 = 0
            · by_cases hret : c.ret = 0
              · simp [harg, hret, WritesEntry, HookedCall.Takes]
              · rw [if_neg (not_not.mpr harg), if_pos hret, attachWithRecord_writes hatA]
                simp [harg, hret, WritesEntry, HookedCall.Takes, runOps]
            · have hshape : SameShape s (runOps T.pmap (attachBlock
                  (remap T.pmap c.fn.module) (c.args 1 - 16)
                  (metaBase c.memory (c.args 1 - 16)) (numPages c.memory (c.args 1 - 16)))
                  s).1 := by
                refine runOps_shape T.pmap (fun op hop => ?_) s
                rcases List.mem_pair.mp hop with rfl | rfl
                · exact ⟨_, rfl⟩
                · exact ⟨_, rfl⟩
              rw [if_pos harg, attachBlock_writes hatB, attachBlock_done hatB]
              by_cases hret : c.ret = 0
              · simp [harg, hret, WritesEntry, HookedCall.Takes]
              · rw [if_pos hret, attachWithRecord_writes hatA, hshape.inRun, hshape.runAt,
                  hshape.inRun]
                simp [harg, hret, HookedCall.Takes]
        | posixMemalign =>
            dsimp only
            by_cases hret : c.ret.toUInt32 = 0
            · rw [if_pos hret, show (runOps T.pmap [] s).1 = s from rfl,
                attachBlock_writes hatA]
              simp [hret, WritesEntry, HookedCall.Takes, runOps]
            · simp [hret, WritesEntry, HookedCall.Takes]
        | malloc =>
            dsimp only
            by_cases hret : c.ret = 0
            · simp [hret, WritesEntry, HookedCall.Takes]
            · rw [if_pos hret, show (runOps T.pmap [] s).1 = s from rfl,
                attachBlock_writes hatA]
              simp [hret, WritesEntry, HookedCall.Takes, runOps]
        | memregionGet =>
            dsimp only
            by_cases hret : c.ret.toUInt32 = 0xffffffff
            · simp [hret, WritesEntry, HookedCall.Takes]
            · rw [if_pos hret, show (runOps T.pmap [] s).1 = s from rfl, newMap_writes hatA]
              simp [hret, WritesEntry, HookedCall.Takes, runOps]

/-- **No confused deputy, exactly.** The wraps of a call take pages from the
caller and from ukalloc only if, and only if, it is a call between friends, or
its function has no wrap, or all heap pages that the function's wrap takes are
such pages. Where these lie is said by the arguments and by the words that
stand in memory at the record, so this is a condition on what the caller wrote
there. -/
theorem wraps_take_home_pages_iff (hf : Loaded T.pmap c.fn.module)
    (hC : Loaded T.pmap c.caller) {s : HeapMap} (hrec : s.Recorded) :
    (∀ a, s.inHeap a = true → c.ChangesOwner build T.pmap s a → c.Home s a) ↔
      (friends build c.caller c.fn.module = false →
        ∀ fn, c.fn.wrapped = some fn → ∀ a, c.Takes s a fn → c.Home s a) := by
  rw [changes_home_iff_writes_home T hf hC hrec]
  constructor
  · intro h hno fn hfn a ht
    exact h a ht.inHeap ((writesOwner_iff_takes T hf hC).mpr ⟨hno, fn, hfn, ht⟩)
  · intro h a _ hw
    obtain ⟨hno, fn, hfn, ht⟩ := (writesOwner_iff_takes T hf hC).mp hw
    exact h hno fn hfn a ht

end Ownership

/-- The application frees a block of its own page 0 whose metadata it filled
in itself: `base` bytes into the heap, `num` pages. -/
def sampleFree (base num : UInt64) : HookedCall where
  caller := .app
  fn := { lib := .ukalloc, name := "uk_free_ifpages", stack := 0x10000000 }
  args := fun i => if i = 1 then 0x800010 else 0
  memory := fun a =>
    if a = 0x800000 then num else if a = 0x800008 then 0x800000 + base else 0
  ret := 0
  memory' := fun _ => 0

theorem sampleFree_wrapped (base num : UInt64) :
    (sampleFree base num).fn.wrapped = some .free := by
  simp [Export.wrapped, sampleFree]

/-- With the record that the allocator wrote only the application's page is
taken; with one that names the next page lwip's is. -/
theorem wraps_take_home_pages_sample :
    ∃ T : Cubicles .plain, T.pmap = samplePmap .plain sampleLayout ∧
      (∀ a, sampleHeap.inHeap a = true →
        (sampleFree 0 1).ChangesOwner .plain T.pmap sampleHeap a →
        (sampleFree 0 1).Home sampleHeap a) ∧
      ¬ ∀ a, sampleHeap.inHeap a = true →
        (sampleFree 0x1000 1).ChangesOwner .plain T.pmap sampleHeap a →
        (sampleFree 0x1000 1).Home sampleHeap a := by
  obtain ⟨T, hT, happ, hukalloc⟩ := sample_plain
  have hmod : ∀ base num, Loaded T.pmap (sampleFree base num).fn.module := fun _ _ => hukalloc
  refine ⟨T, hT, ?_, ?_⟩
  · refine (wraps_take_home_pages_iff T (hmod 0 1) happ sampleHeap_recorded).mpr ?_
    intro _ fn hfn a ht
    rw [sampleFree_wrapped] at hfn
    cases hfn
    -- the one page of the block is page 0
    obtain ⟨-, -, -, hin, -, hlt⟩ := ht
    have hidx : pageIndex sampleHeap.heapStart a = 0 := Nat.lt_one_iff.mp hlt
    left
    unfold heapToLibId
    rw [if_pos hin, hidx]
    decide
  · rw [wraps_take_home_pages_iff T (hmod 0x1000 1) happ sampleHeap_recorded]
    intro h
    have hhome := h (by decide) .free (sampleFree_wrapped _ _) 0x801000 (by decide +kernel)
    revert hhome
    unfold HookedCall.Home
    decide +kernel

/-- Metadata that names lwip's page makes the monitor hand that page to
ukalloc. -/
theorem free_takes_foreign_page :
    (sampleFree 0x1000 1).ChangesOwner .plain (samplePmap .plain sampleLayout)
        sampleHeap 0x801000 ∧
      heapToLibId sampleHeap 0x801000 = Modules.lwip.id ∧
      ¬ (sampleFree 0x1000 1).Home sampleHeap 0x801000 := by
  refine ⟨Or.inl ?_, by decide +kernel, ?_⟩
  · decide +kernel
  · unfold HookedCall.Home
    decide +kernel

end CubicleOS
