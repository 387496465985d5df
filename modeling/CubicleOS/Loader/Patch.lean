import CubicleOS.Generator.Hooks
import CubicleOS.Loader.ParseProc
import CubicleOS.Monitor.MemoryMap

/-!
# Interposition

`patch_plt` goes through the slots by which a module calls others and has
`install_hook` redirect those that lead into another cubicle. Which module a
slot leads into is decided by the address ranges of the table, which the same
loop extends while it runs.
-/

namespace CubicleOS

open Foundation

/-! ## §1  The code -/

/-- A `JUMP_SLOT` or `GLOB_DAT` slot: the symbol it is for, and where it is. -/
structure Slot where
  name : String
  addr : UInt64
deriving DecidableEq, Repr

/-- What `get_memory_permission` says of the page of a slot. -/
inductive Perm where
  | none | readOnly | writable
deriving DecidableEq, Repr

/-- What the loader gets from the C library, the kernel and `plthook`. -/
structure Linker where
  /-- `dli_fbase` of the object that holds an address. -/
  dladdr : UInt64 → Option UInt64
  /-- The slots of a module; none when `plthook_open` fails. -/
  slots : String → Option (List Slot)
  perm : UInt64 → Perm
  /-- `mprotect` makes the page of a slot writable. -/
  mprotect : UInt64 → Bool
  /-- `pkey_mprotect` in `prot_init` succeeds. -/
  pkeyMprotect : ℕ → Bool
  /-- Address of the `hooked_<name>` generated for a library's function. -/
  hooked : Modules → String → UInt64

/-- `struct hooks_s`. -/
structure HookEntry where
  func : String
  module : String
  hook : UInt64
deriving DecidableEq, Repr

/-- `hooks[]`. -/
def hooksTable (L : Linker) (wraps : List Wrap) : List HookEntry :=
  wraps.map fun w =>
    { func := w.name
      module := changeModule w.lib w.name
      hook := L.hooked w.lib w.name }

/-- First entry for a function of a module. -/
def findHook (table : List HookEntry) (module func : String) : Option HookEntry :=
  table.find? fun h => h.module = module ∧ h.func = func

/-- Contents of the slots. -/
abbrev SlotMem : Type := UInt64 → UInt64

/-- The result of `install_hook`, by its colours in the source. -/
inductive HookResult where
  | green | blue | red
deriving DecidableEq, Repr

/-- `install_hook`. -/
def installHook (L : Linker) (table : List HookEntry) (mem : SlotMem) (addr : UInt64)
    (module func : String) : Outcome (SlotMem × HookResult) :=
  if module ∈ shared then .done (mem, .blue)
  else
    match findHook table module func with
    | some h =>
        if h.hook = 0 then .done (mem, .red)
        else
          match L.perm addr with
          | .none => .spin
          | .writable => .done (Function.update mem addr h.hook, .green)
          | .readOnly =>
              if L.mprotect addr then .done (Function.update mem addr h.hook, .green)
              else .spin
    | none =>
        (isMust module).bind fun m => if m then .done (mem, .red) else .spin

/-- The table and the slots, which the loop of `main` changes. -/
structure Patching where
  pm : Pmap
  mem : SlotMem

/-- `pmap[id].size = size`. -/
def Pmap.setSize (pm : Pmap) (id : ℕ) (size : UInt64) : Pmap :=
  pm.set id { pm.getD id {} with size := size }

/-- The end of the page of an address. -/
def pageEnd (a : UInt64) : UInt64 := ((a >>> 12) + 1) <<< 12

/-- The body of the loop of `patch_plt`. When `dladdr` does not know the
address, what the code compares next has never been written. -/
def patchSlot (L : Linker) (table : List HookEntry) (id : ℕ) (st : Patching) (s : Slot) :
    Outcome Patching :=
  let e := st.pm.getD id {}
  match memToLib st.pm (st.mem s.addr) with
  | none =>
      match L.dladdr (st.mem s.addr) with
      | none => .wild
      | some base =>
          if base ≠ e.start then .spin
          else .done { st with
            pm := st.pm.setSize id (pageEnd (st.mem s.addr) - e.start) }
  | some lib =>
      if e.name = lib then .done st
      else
        (installHook L table st.mem s.addr lib s.name).bind fun r =>
          .done { st with mem := r.1 }

/-- `patch_plt`. -/
def patchPlt (L : Linker) (table : List HookEntry) (id : ℕ) (st : Patching) :
    Outcome Patching :=
  match L.slots (st.pm.getD id {}).name with
  | none => .done st
  | some slots => runs (patchSlot L table id) st slots

/-- One turn of the loop of `main`. -/
def patchOne (L : Linker) (table : List HookEntry) (st : Patching) (id : ℕ) :
    Outcome Patching :=
  if (st.pm.getD id {}).size ≠ 0 then
    (patchPlt L table id st).bind fun st =>
      if (st.pm.getD id {}).must ∧ ¬ L.pkeyMprotect id then .spin else .done st
  else .done st

def patchAll (L : Linker) (table : List HookEntry) (st : Patching) : Outcome Patching :=
  runs (patchOne L table) st (List.range st.pm.length)

/-! ## §2  What the loop is to do -/

/-- The slots that the loop visits at position `id` of the table. -/
def slotsAt (L : Linker) (pm : Pmap) (id : ℕ) : List Slot :=
  if (pm.getD id {}).size ≠ 0 then (L.slots (pm.getD id {}).name).getD [] else []

/-- No slot is enumerated twice. -/
def VisitsOnce (L : Linker) (pm : Pmap) : Prop :=
  ((List.range pm.length).flatMap fun id => (slotsAt L pm id).map Slot.addr).Nodup

instance (L : Linker) (pm : Pmap) : Decidable (VisitsOnce L pm) :=
  inferInstanceAs (Decidable (List.Nodup _))

/-- Slots of a module that led to a function of another module, and which
`Listed` names, hold the address of its hook; those that led into the module
itself or into a shared one are as they were. -/
def Interposed (L : Linker) (Listed : Modules → String → Prop) (pm : Pmap)
    (mem mem' : SlotMem) : Prop :=
  ∀ A ∈ pm, A.size ≠ 0 → ∀ slots, L.slots A.name = some slots → ∀ s ∈ slots,
    ∀ B ∈ pm, B.size ≠ 0 → L.dladdr (mem s.addr) = some B.start →
      (∀ lib, B.name = lib.modname → B.name ≠ A.name → Listed lib s.name →
        mem' s.addr = L.hooked lib s.name) ∧
      (B.name = A.name ∨ B.name ∈ shared → mem' s.addr = mem s.addr)

/-- A function in the export list of a must library, with a define line that
is not internal. -/
def Exported (exports : Modules → List String) (ir : List String) (lib : Modules)
    (name : String) : Prop :=
  lib ≠ .app ∧ lib.modname ∈ must ∧ name ∈ exportNames (exports lib) ∧
    ∃ line ∈ ir, ∃ head tail, DefineLine name line head tail ∧
      contains "internal" head.toList = false

/-- The functions that the generator means to hook: `main` goes with the
application, and a function with a variable number of arguments cannot be
called through a coroutine. -/
def Hookable (exports : Modules → List String) (ir : List String) (lib : Modules)
    (name : String) : Prop :=
  lib ≠ .app ∧ lib.modname ∈ must ∧ name ∈ exportNames (exports lib) ∧
    ¬ (name = "main" ∧ lib = .ukboot) ∧
    ∃ line ∈ ir, ∃ head tail, DefineLine name line head tail ∧
      contains "internal" line.toList = false ∧ contains "..." line.toList = false

/-- What the dynamic linker promises of the module files, and of nothing else
that is mapped. A module that is mapped is a file and an object, whose base is
where its first mapping is. An address of the object does not lie below the
base, and from there up to the page of the address there is no other object. -/
structure Linker.Sound (L : Linker) (dir : String) (maps : List MapLine) : Prop where
  object : ∀ {name l}, maps.find? (·.path = modulePath dir name) = some l →
    L.dladdr l.start = some l.start ∧ l.inode ≠ 0
  covers : ∀ {name l a}, maps.find? (·.path = modulePath dir name) = some l →
    L.dladdr a = some l.start →
      l.start ≤ a ∧ ∀ x b, l.start ≤ x → x >>> 12 ≤ a >>> 12 → L.dladdr x = some b →
        b = l.start
  hook_ne : ∀ lib name, L.hooked lib name ≠ 0

/-- `install_hook` writes one slot, and only for a function in the table. -/
theorem installHook_done {L : Linker} {table : List HookEntry} {mem mem' : SlotMem}
    {addr : UInt64} {module func : String} {res : HookResult}
    (h : installHook L table mem addr module func = .done (mem', res)) :
    (∀ c, c ≠ addr → mem' c = mem c) ∧ (module ∈ shared → mem' addr = mem addr) ∧
      ∀ k, module ∉ shared → findHook table module func = some k → k.hook ≠ 0 →
        mem' addr = k.hook := by
  unfold installHook at h
  split at h
  · rename_i hshared
    cases h
    exact ⟨fun _ _ => rfl, fun _ => rfl, fun k hnot => absurd hshared hnot⟩
  rename_i hshared
  cases hfind : findHook table module func with
  | none =>
      simp only [hfind] at h
      obtain ⟨m, -, h⟩ := Outcome.bind_eq_done.mp h
      cases m with
      | false => cases h
      | true =>
          cases h
          refine ⟨fun _ _ => rfl, fun _ => rfl, fun k _ hk => ?_⟩
          cases hk
  | some k =>
      simp only [hfind] at h
      split at h
      · rename_i hzero
        cases h
        refine ⟨fun _ _ => rfl, fun _ => rfl, fun k' _ hk hne => ?_⟩
        cases hk
        exact absurd hzero hne
      · have hwrite : mem' = Function.update mem addr k.hook := by
          split at h
          · cases h
          · cases h
            rfl
          · split at h
            · cases h
              rfl
            · cases h
        subst hwrite
        refine ⟨fun c hc => Function.update_of_ne hc _ _, fun hin => absurd hin hshared, ?_⟩
        rintro k' - ⟨⟩ -
        exact Function.update_self _ _ _

/-! ## §3  Ranges

Through the whole loop a range holds addresses of its own module only. -/

/-- The table before the loop: each range holds no address of another module,
modules start at different places, and an object has no other one between its
base and any of its pages. -/
structure Homes (L : Linker) (pm : Pmap) : Prop where
  home : ∀ e ∈ pm, ∀ B ∈ pm, B.size ≠ 0 → ∀ x, inBlock e.start e.size x = true →
    L.dladdr x = some B.start → B.start = e.start
  covers : ∀ B ∈ pm, B.size ≠ 0 → ∀ a, L.dladdr a = some B.start →
    B.start ≤ a ∧ ∀ x b, B.start ≤ x → x >>> 12 ≤ a >>> 12 → L.dladdr x = some b →
      b = B.start
  start_ne : ∀ e ∈ pm, e.size ≠ 0 → e.start ≠ 0
  same : ∀ e ∈ pm, ∀ e' ∈ pm, e.size ≠ 0 → e'.size ≠ 0 → e.start = e'.start →
    e.name = e'.name

/-- An entry before the loop and now, in the table `pm₀`. -/
structure Grown (L : Linker) (pm₀ : Pmap) (e₀ e : ProcMap) : Prop where
  name : e.name = e₀.name
  start : e.start = e₀.start
  size : e.size = 0 ↔ e₀.size = 0
  home : ∀ B ∈ pm₀, B.size ≠ 0 → ∀ x, inBlock e.start e.size x = true →
    L.dladdr x = some B.start → B.start = e.start

def Ranged (L : Linker) (pm₀ pm : Pmap) : Prop :=
  pm.length = pm₀.length ∧ ∀ id, Grown L pm₀ (pm₀.getD id {}) (pm.getD id {})

theorem inBlock_size_ne {start size a : UInt64} (h : inBlock start size a = true) :
    size ≠ 0 := by
  rintro rfl
  have hmem := mem_of_inBlock h
  have hzero : (0 : UInt64).toNat = 0 := rfl
  omega

/-- An entry that is not blank is in the table. -/
theorem getD_mem {pm : Pmap} {id : ℕ} (h : (pm.getD id {}).size ≠ 0) :
    pm.getD id {} ∈ pm := by
  rw [List.getD_eq_getElem?_getD] at h ⊢
  cases hid : pm[id]? with
  | none =>
      rw [hid] at h
      exact absurd rfl h
  | some e => exact List.mem_of_getElem? hid

theorem Homes.ranged {L : Linker} {pm : Pmap} (h : Homes L pm) : Ranged L pm pm := by
  refine ⟨rfl, fun id => ⟨rfl, rfl, Iff.rfl, fun B hB hsize x hx hb => ?_⟩⟩
  exact h.home _ (getD_mem (inBlock_size_ne hx)) B hB hsize x hx hb

theorem getD_setSize (pm : Pmap) (id j : ℕ) (size : UInt64) (hid : id < pm.length) :
    (pm.setSize id size).getD j {} =
      if j = id then { pm.getD id {} with size := size } else pm.getD j {} := by
  unfold Pmap.setSize
  rw [List.getD_eq_getElem?_getD, List.getElem?_set]
  by_cases hj : j = id
  · subst hj
    rw [if_pos rfl, if_pos hid, if_pos rfl]
    rfl
  · rw [if_neg (Ne.symm hj), if_neg hj, List.getD_eq_getElem?_getD]

theorem page_toNat (a : UInt64) : (a >>> 12).toNat = a.toNat / 4096 := by
  rw [UInt64.toNat_shiftRight, Nat.shiftRight_eq_div_pow]
  rfl

theorem page_mono {a b : UInt64} (h : a ≤ b) : a >>> 12 ≤ b >>> 12 := by
  rw [UInt64.le_iff_toNat_le, page_toNat, page_toNat]
  exact Nat.div_le_div_right h

theorem pageEnd_toNat (a : UInt64) :
    (pageEnd a).toNat = (a.toNat / 4096 + 1) * 4096 % 2 ^ 64 := by
  have h12 : (12 : UInt64).toNat % 64 = 12 := rfl
  have hlt := a.toNat_lt
  unfold pageEnd
  rw [UInt64.toNat_shiftLeft, UInt64.toNat_add, UInt64.toNat_shiftRight, h12,
    Nat.shiftRight_eq_div_pow, Nat.shiftLeft_eq]
  have hone : (1 : UInt64).toNat = 1 := rfl
  rw [hone, Nat.mod_eq_of_lt (by omega : a.toNat / 2 ^ 12 + 1 < 2 ^ 64)]
  norm_num

/-- One entry gets a new range that is still at home. -/
theorem ranged_setSize {L : Linker} {pm₀ pm : Pmap} {id : ℕ} {size : UInt64}
    (h : Ranged L pm₀ pm) (hid : (pm₀.getD id {}).size ≠ 0) (hsize : size ≠ 0)
    (hhome : ∀ B ∈ pm₀, B.size ≠ 0 → ∀ x,
      inBlock (pm.getD id {}).start size x = true → L.dladdr x = some B.start →
        B.start = (pm.getD id {}).start) :
    Ranged L pm₀ (pm.setSize id size) := by
  have hlt : id < pm.length := by
    rw [h.1]
    by_contra hge
    rw [List.getD_eq_default _ _ (Nat.le_of_not_lt hge)] at hid
    exact hid rfl
  refine ⟨(List.length_set).trans h.1, fun j => ?_⟩
  rw [getD_setSize pm id j size hlt]
  by_cases hj : j = id
  · subst hj
    rw [if_pos rfl]
    have hgrown := h.2 j
    exact ⟨hgrown.name, hgrown.start, iff_of_false hsize hid, hhome⟩
  · rw [if_neg hj]
    exact h.2 j

section Slots

variable {L : Linker} {table : List HookEntry} {pm₀ : Pmap}

/-- The range from the base of a module to the end of a page of it. -/
theorem extended_home (hpm : Homes L pm₀) {E : ProcMap} (hE : E ∈ pm₀) (hsize : E.size ≠ 0)
    {v : UInt64} (hv : L.dladdr v = some E.start) {x b : UInt64}
    (hx : inBlock E.start (pageEnd v - E.start) x = true) (hb : L.dladdr x = some b) :
    b = E.start := by
  obtain ⟨-, hpages⟩ := hpm.covers E hE hsize v hv
  simp only [inBlock, Bool.and_eq_true, decide_eq_true_eq] at hx
  obtain ⟨hbx, hlt⟩ := hx
  have hsum : E.start + (pageEnd v - E.start) = pageEnd v := by
    rw [UInt64.add_comm, UInt64.sub_add_cancel]
  rw [hsum, UInt64.lt_iff_toNat_lt, pageEnd_toNat] at hlt
  have hpage : x >>> 12 ≤ v >>> 12 := by
    have hmod := Nat.mod_le ((v.toNat / 4096 + 1) * 4096) (2 ^ 64)
    rw [UInt64.le_iff_toNat_le, page_toNat, page_toNat]
    omega
  exact hpages x b hbx hpage hb

theorem extended_size (hpm : Homes L pm₀) {E : ProcMap} (hE : E ∈ pm₀) (hsize : E.size ≠ 0)
    {v : UInt64} (hv : L.dladdr v = some E.start) : pageEnd v - E.start ≠ 0 := by
  intro hzero
  have heq : pageEnd v = E.start := by
    have hsum : pageEnd v - E.start + E.start = E.start := by rw [hzero, UInt64.zero_add]
    rwa [UInt64.sub_add_cancel] at hsum
  have hle : E.start.toNat ≤ v.toNat := (hpm.covers E hE hsize v hv).1
  have hnat : (pageEnd v).toNat = E.start.toNat := congrArg UInt64.toNat heq
  have hb' : E.start.toNat ≠ 0 :=
    fun h => hpm.start_ne E hE hsize (UInt64.toNat_inj.mp h)
  have hlt := v.toNat_lt
  rw [pageEnd_toNat] at hnat
  omega

theorem memToLib_home (hpm : Homes L pm₀) {pm : Pmap} (h : Ranged L pm₀ pm)
    {B : ProcMap} (hB : B ∈ pm₀) (hsize : B.size ≠ 0) {v : UInt64}
    (hv : L.dladdr v = some B.start) {lib : String} (hlib : memToLib pm v = some lib) :
    lib = B.name := by
  obtain ⟨e, hfind, rfl⟩ := Option.map_eq_some_iff.mp hlib
  have hin := List.find?_some hfind
  obtain ⟨id, hid⟩ := List.mem_iff_getElem?.mp (List.mem_of_find?_eq_some hfind)
  have hentry : pm.getD id {} = e := by
    rw [List.getD_eq_getElem?_getD, hid]
    rfl
  have hgrown := h.2 id
  rw [hentry] at hgrown
  have hstart : B.start = e.start := hgrown.home B hB hsize v hin hv
  have hsize₀ : (pm₀.getD id {}).size ≠ 0 :=
    fun hzero => inBlock_size_ne hin (hgrown.size.mpr hzero)
  have hsame := hpm.same _ (getD_mem hsize₀) B hB hsize₀ hsize
    (hgrown.start.symm.trans hstart.symm)
  exact hgrown.name.trans hsame

/-- What becomes of a slot of module `A` that held `v`. -/
def Settled (L : Linker) (table : List HookEntry) (pm₀ : Pmap) (A : ProcMap) (s : Slot)
    (v v' : UInt64) : Prop :=
  ∀ B ∈ pm₀, B.size ≠ 0 → L.dladdr v = some B.start →
    (B.name = A.name ∨ B.name ∈ shared → v' = v) ∧
    ∀ h, B.name ≠ A.name → B.name ∉ shared → findHook table B.name s.name = some h →
      h.hook ≠ 0 → v' = h.hook

theorem patchSlot_settled (hpm : Homes L pm₀) {id : ℕ}
    (hid : (pm₀.getD id {}).size ≠ 0) {st st' : Patching} {s : Slot}
    (h : Ranged L pm₀ st.pm) (hstep : patchSlot L table id st s = .done st') :
    Ranged L pm₀ st'.pm ∧ (∀ c, c ≠ s.addr → st'.mem c = st.mem c) ∧
      Settled L table pm₀ (pm₀.getD id {}) s (st.mem s.addr) (st'.mem s.addr) := by
  have hgrown := h.2 id
  unfold patchSlot at hstep
  cases hlib : memToLib st.pm (st.mem s.addr) with
  | none =>
      simp only [hlib] at hstep
      cases hv : L.dladdr (st.mem s.addr) with
      | none =>
          rw [hv] at hstep
          cases hstep
      | some base =>
          simp only [hv] at hstep
          split at hstep
          · cases hstep
          rename_i hbase
          cases hstep
          have hbase : base = (pm₀.getD id {}).start :=
            (not_not.mp hbase).trans hgrown.start
          refine ⟨?_, fun _ _ => rfl, ?_⟩
          · rw [hbase] at hv
            refine ranged_setSize h hid ?_ ?_
            · rw [hgrown.start]
              exact extended_size hpm (getD_mem hid) hid hv
            · intro B _ _ x
              rw [hgrown.start]
              exact extended_home hpm (getD_mem hid) hid hv
          · -- the slot leads into the module itself
            intro B hB hsize hBv
            refine ⟨fun _ => rfl, fun k hne => ?_⟩
            have hsame : B.start = (pm₀.getD id {}).start := by
              rw [hv] at hBv
              exact (Option.some.inj hBv).symm.trans hbase
            exact absurd (hpm.same B hB _ (getD_mem hid) hsize hid hsame) hne
  | some lib =>
      simp only [hlib] at hstep
      split at hstep
      · rename_i hown
        cases hstep
        refine ⟨h, fun _ _ => rfl, fun B hB hsize hv => ⟨fun _ => rfl, ?_⟩⟩
        intro hk hne
        have hB' := memToLib_home hpm h hB hsize hv hlib
        exact absurd (hB'.symm.trans (hown.symm.trans hgrown.name)) hne
      · rename_i hother
        obtain ⟨⟨mem, res⟩, hinstall, hst'⟩ := Outcome.bind_eq_done.mp hstep
        cases hst'
        obtain ⟨hkeep, hshared, hhook⟩ := installHook_done hinstall
        refine ⟨h, hkeep, fun B hB hsize hv => ?_⟩
        obtain rfl := memToLib_home hpm h hB hsize hv hlib
        refine ⟨?_, fun k _ => hhook k⟩
        rintro (hown | hin)
        · exact absurd (hgrown.name.trans hown.symm) hother
        · exact hshared hin

/-! ## §4  The loops -/

/-- `patch_plt` on a module: its slots are settled, all others untouched. -/
theorem patchPlt_settled (hpm : Homes L pm₀) {id : ℕ}
    (hid : (pm₀.getD id {}).size ≠ 0) (honce : ((slotsAt L pm₀ id).map Slot.addr).Nodup)
    {st st' : Patching} (h : Ranged L pm₀ st.pm)
    (hrun : patchPlt L table id st = .done st') :
    Ranged L pm₀ st'.pm ∧
      (∀ c, (∀ s ∈ slotsAt L pm₀ id, c ≠ s.addr) → st'.mem c = st.mem c) ∧
      ∀ s ∈ slotsAt L pm₀ id,
        Settled L table pm₀ (pm₀.getD id {}) s (st.mem s.addr) (st'.mem s.addr) := by
  unfold patchPlt at hrun
  rw [(h.2 id).name] at hrun
  unfold slotsAt at honce ⊢
  rw [if_pos hid] at honce ⊢
  cases hslots : L.slots (pm₀.getD id {}).name with
  | none =>
      rw [hslots] at hrun
      cases hrun
      exact ⟨h, fun _ _ => rfl, by simp⟩
  | some slots =>
      rw [hslots] at honce
      simp only [hslots, Option.getD_some] at hrun honce ⊢
      have hdisj : slots.Pairwise fun s s' => ∀ c ∈ ({s.addr} : Set UInt64),
          c ∉ ({s'.addr} : Set UInt64) := by
        refine (List.pairwise_map.mp honce).imp fun hne c hc hc' => hne ?_
        exact hc.symm.trans hc'
      obtain ⟨hranged, hkeep, hcells⟩ := runs_footprint Patching.mem
        (fun s => {s.addr})
        (fun s _ v v' => Settled L table pm₀ (pm₀.getD id {}) s v v')
        (fun st => Ranged L pm₀ st.pm)
        (fun s _ st st' h hstep => by
          obtain ⟨h1, h2, h3⟩ := patchSlot_settled hpm hid h hstep
          refine ⟨h1, h2, ?_⟩
          rintro c rfl
          exact h3)
        hdisj h hrun
      exact ⟨hranged, hkeep, fun s hs => hcells s hs s.addr rfl⟩

theorem patchOne_settled (hpm : Homes L pm₀) {id : ℕ}
    (honce : ((slotsAt L pm₀ id).map Slot.addr).Nodup) {st st' : Patching}
    (h : Ranged L pm₀ st.pm) (hstep : patchOne L table st id = .done st') :
    Ranged L pm₀ st'.pm ∧
      (∀ c, (∀ s ∈ slotsAt L pm₀ id, c ≠ s.addr) → st'.mem c = st.mem c) ∧
      ∀ s ∈ slotsAt L pm₀ id,
        Settled L table pm₀ (pm₀.getD id {}) s (st.mem s.addr) (st'.mem s.addr) := by
  unfold patchOne at hstep
  split at hstep
  · rename_i hsize
    obtain ⟨m, hm, hstep⟩ := Outcome.bind_eq_done.mp hstep
    split at hstep
    · cases hstep
    · cases hstep
      have hid : (pm₀.getD id {}).size ≠ 0 := fun hzero => hsize ((h.2 id).size.mpr hzero)
      exact patchPlt_settled hpm hid honce h hm
  · rename_i hsize
    cases hstep
    have hnone : slotsAt L pm₀ id = [] := by
      unfold slotsAt
      rw [if_neg (not_not.mpr ((h.2 id).size.mp (not_not.mp hsize)))]
    rw [hnone]
    exact ⟨h, fun _ _ => rfl, by simp⟩

theorem patchAll_settled (hpm : Homes L pm₀) (honce : VisitsOnce L pm₀) {mem : SlotMem}
    {st' : Patching}
    (hrun : patchAll L table ⟨pm₀, mem⟩ = .done st') {id : ℕ} (hid : id < pm₀.length)
    {s : Slot} (hs : s ∈ slotsAt L pm₀ id) :
    Settled L table pm₀ (pm₀.getD id {}) s (mem s.addr) (st'.mem s.addr) := by
  obtain ⟨hnodup, hapart⟩ := List.nodup_flatMap.mp honce
  have hdisj : (List.range pm₀.length).Pairwise fun i j =>
      ∀ c ∈ {c | ∃ s ∈ slotsAt L pm₀ i, c = s.addr},
        c ∉ {c | ∃ s ∈ slotsAt L pm₀ j, c = s.addr} := by
    refine hapart.imp fun hij => ?_
    rintro c ⟨s, hs, rfl⟩ ⟨s', hs', heq⟩
    refine hij (List.mem_map_of_mem hs) ?_
    rw [heq]
    exact List.mem_map_of_mem hs'
  obtain ⟨-, -, hcells⟩ := runs_footprint Patching.mem
    (fun id => {c | ∃ s ∈ slotsAt L pm₀ id, c = s.addr})
    (fun id c v v' => ∀ s ∈ slotsAt L pm₀ id, c = s.addr →
      Settled L table pm₀ (pm₀.getD id {}) s v v')
    (fun st => Ranged L pm₀ st.pm)
    (fun id hid st st' h hstep => by
      obtain ⟨h1, h2, h3⟩ := patchOne_settled hpm (hnodup id hid) h hstep
      refine ⟨h1, fun c hc => h2 c fun s hs heq => hc ⟨s, hs, heq⟩, ?_⟩
      rintro c - s hs rfl
      exact h3 s hs)
    hdisj hpm.ranged hrun
  exact hcells id (List.mem_range.mpr hid) s.addr ⟨s, hs, rfl⟩ s hs rfl

end Slots

/-! ## §5  Complete interposition -/

/-- `parse_proc` puts the modules at home. -/
theorem homes_of_parse {dir : String} {maps : List MapLine} (hmaps : Listing dir maps)
    {L : Linker} (hL : L.Sound dir maps) {pm₀ pm : Pmap} (hpm₀ : ∀ e ∈ pm₀, e.size = 0)
    (h : parseAll dir maps pm₀ = .done pm) : Homes L pm := by
  have hplaced : ∀ e ∈ pm, e.size ≠ 0 → Placed dir maps e := by
    intro e he hsize
    obtain ⟨e₀, he₀, hparse⟩ := parseAll_entry h e he
    exact (parseProc_placed hmaps (hpm₀ e₀ he₀) hparse).2.2.resolve_left hsize
  constructor
  · intro e he B hB hsizeB x hx hb
    have hP := hplaced e he (inBlock_size_ne hx)
    obtain ⟨l, hl, hstart⟩ := hP.first
    have hbase : L.dladdr e.start = some e.start := hstart ▸ (hL.object hl).1
    obtain ⟨lb, hlb, hstartB⟩ := (hplaced B hB hsizeB).first
    rw [hstartB] at hb ⊢
    obtain ⟨hbx, hpages⟩ := hL.covers hlb hb
    simp only [inBlock, Bool.and_eq_true, decide_eq_true_eq] at hx
    obtain ⟨hex, hlt⟩ := hx
    rcases UInt64.le_total e.start lb.start with hle | hle
    · by_cases hpath : lb.path = modulePath dir e.name
      · have hpathB : lb.path = modulePath dir B.name := by simpa using List.find?_some hlb
        rw [hpathB.symm.trans hpath, hl] at hlb
        rw [hstart, Option.some.inj hlb]
      · -- a module behind this one: its line is not in the range
        have hbelow := hP.avoids lb (List.mem_of_find?_eq_some hlb) (hL.object hlb).2 hpath hle
        have hlt : x.toNat < (e.start + e.size).toNat := hlt
        have hbx : lb.start.toNat ≤ x.toNat := hbx
        omega
    · -- a module that starts in front of this one would reach into it
      exact (hpages e.start e.start hle (page_mono hex) hbase).symm
  · intro B hB hsizeB a ha
    obtain ⟨l, hl, hstart⟩ := (hplaced B hB hsizeB).first
    rw [hstart] at ha ⊢
    exact hL.covers hl ha
  · intro e he hsize hzero
    obtain ⟨l, hl, hstart⟩ := (hplaced e he hsize).first
    have hhigh := hmaps.high l (List.mem_of_find?_eq_some hl) e.name
      (by simpa using List.find?_some hl)
    rw [← hstart, hzero] at hhigh
    exact absurd hhigh (by decide)
  · intro e he e' he' hsize hsize' hstart
    obtain ⟨l, hl, hl'⟩ := (hplaced e he hsize).first
    obtain ⟨k, hk, hk'⟩ := (hplaced e' he' hsize').first
    have hlk : l = k := hmaps.eq_of_start (List.mem_of_find?_eq_some hl)
      (List.mem_of_find?_eq_some hk) (hl'.symm.trans (hstart.trans hk'))
    have hpath : l.path = modulePath dir e.name := by simpa using List.find?_some hl
    have hpath' : k.path = modulePath dir e'.name := by simpa using List.find?_some hk
    exact modulePath_injective dir (hpath.symm.trans (hlk ▸ hpath'))

/-- The table has a hook for every function that is to get one, and it is the
function's own. -/
theorem findHook_hookable {L : Linker} {exports : Modules → List String}
    {ir : List String} {wraps : List Wrap} (hgen : generate exports ir = some wraps)
    (hsym : ∀ lib, ∀ name ∈ exportNames (exports lib), IsSymbol name) {lib : Modules}
    {name : String} (h : Hookable exports ir lib name) :
    ∃ k, findHook (hooksTable L wraps) lib.modname name = some k ∧
      k.hook = L.hooked lib name := by
  obtain ⟨happ, -, hname, hmain, line, hline, head, tail, hdef, hint, hdots⟩ := h
  have hmem : line ∈ hookLines ir name := by
    refine List.mem_filter.mpr ⟨hline, ?_⟩
    rw [matchesDefine_of_defineLine (hsym lib name hname) hdef, hint, hdots]
    rfl
  obtain ⟨w, hw, -, hmake⟩ := generate_hooked hgen happ hname hmem
  obtain ⟨rfl, rfl⟩ := makeWrap_spec hmake
  have hmodule : changeModule w.lib w.name = w.lib.modname := by
    rw [changeModule_eq happ, changeEnum, if_neg hmain]
  have hsome : (findHook (hooksTable L wraps) w.lib.modname w.name).isSome = true := by
    rw [findHook, List.find?_isSome]
    refine ⟨_, List.mem_map_of_mem hw, ?_⟩
    simp [hmodule]
  obtain ⟨k, hk⟩ := Option.isSome_iff_exists.mp hsome
  refine ⟨k, hk, ?_⟩
  have hfound := List.find?_some hk
  obtain ⟨w', hw', rfl⟩ := List.mem_map.mp (List.mem_of_find?_eq_some hk)
  simp only [decide_eq_true_eq] at hfound
  obtain ⟨hmod, hfunc⟩ := hfound
  rw [changeModule_eq (generate_lib hgen hw'), hfunc] at hmod
  have henum := Modules.modname_injective hmod
  unfold changeEnum at henum
  split at henum
  · exact absurd henum.symm happ
  · show L.hooked w'.lib w'.name = _
    rw [henum, hfunc]

/-- **Complete interposition.** After the loop of `main`, for whatever modules
are mapped and whatever the export lists and the IR say: a slot that led to a
function of another must library holds its hook, if the function has a define
line that the generator does not pass over; a slot that led into its own module
or into a shared one is as it was. -/
theorem exports_interposed {alloc : ℕ → ℤ} {files : List String} {st₀ : Pmap × ℕ}
    (hscan : scanModules alloc files = .done st₀) {dir : String} {maps : List MapLine}
    (hmaps : Listing dir maps) {pm : Pmap} (hparse : parseAll dir maps st₀.1 = .done pm)
    {L : Linker} (hL : L.Sound dir maps) (honce : VisitsOnce L pm)
    {exports : Modules → List String}
    (hsym : ∀ lib, ∀ name ∈ exportNames (exports lib), IsSymbol name)
    {ir : List String} {wraps : List Wrap} (hgen : generate exports ir = some wraps)
    {mem : SlotMem} {st : Patching}
    (hrun : patchAll L (hooksTable L wraps) ⟨pm, mem⟩ = .done st) :
    Interposed L (Hookable exports ir) pm mem st.mem := by
  have hhomes := homes_of_parse hmaps hL (scanModules_size hscan) hparse
  intro A hA hsizeA slots hslots s hs B hB hsizeB hv
  obtain ⟨id, hid⟩ := List.mem_iff_getElem?.mp hA
  have hentry : pm.getD id {} = A := by
    rw [List.getD_eq_getElem?_getD, hid]
    rfl
  have hmem : s ∈ slotsAt L pm id := by
    unfold slotsAt
    rw [hentry, if_pos hsizeA, hslots]
    exact hs
  have hlt : id < pm.length := (List.getElem?_eq_some_iff.mp hid).1
  have hsettled := patchAll_settled hhomes honce hrun hlt hmem
  rw [hentry] at hsettled
  obtain ⟨hkept, hhooked⟩ := hsettled B hB hsizeB hv
  refine ⟨fun lib hlib hne hlisted => ?_, hkept⟩
  obtain ⟨k, hk, hhook⟩ := findHook_hookable hgen hsym hlisted
  have hnot : B.name ∉ shared := must_not_shared B.name (hlib ▸ hlisted.2.1)
  rw [← hhook]
  exact hhooked k hne hnot (hlib ▸ hk) (hhook ▸ hL.hook_ne lib s.name)

/-! ## §6  The application and vfscore

`app.so` calls `vfs_write` and `ioctl`, and vfscore has a slot for a function
of its own. The linker also knows the vDSO, which is no file, and vfscore ends
in the middle of its last page. -/

def sampleMaps : List MapLine :=
  [⟨0x10000000, 0x10002000, 11, "/cubicles/app.so"⟩,
    ⟨0x10002000, 0x10004000, 12, "/cubicles/libvfscore.so"⟩,
    ⟨0x7ffc0000, 0x7ffe0000, 0, "[stack]"⟩,
    ⟨0x7fff0000, 0x7fff2000, 0, "[vdso]"⟩]

def sampleTable : Outcome Pmap :=
  (scanModules sampleAlloc ["app.so", "libvfscore.so"]).bind fun st =>
    parseAll "/cubicles" sampleMaps st.1

def sampleLinker : Linker where
  dladdr a :=
    if 0x10000000 ≤ a.toNat ∧ a.toNat < 0x10002000 then some 0x10000000
    else if 0x10002000 ≤ a.toNat ∧ a.toNat < 0x10003c00 then some 0x10002000
    else if 0x7fff0000 ≤ a.toNat ∧ a.toNat < 0x7fff2000 then some 0x7fff0000
    else none
  slots name :=
    if name = "app.so" then some [⟨"vfs_write", 0x10001000⟩, ⟨"ioctl", 0x10001008⟩]
    else if name = "libvfscore.so" then some [⟨"vfs_read", 0x10003000⟩]
    else none
  perm _ := .readOnly
  mprotect _ := true
  pkeyMprotect _ := true
  hooked _ name := if name = "vfs_write" then 0x401000 else 0x402000

def sampleSlots : SlotMem := fun a =>
  if a = 0x10001000 then 0x10002100
  else if a = 0x10001008 then 0x10002200
  else if a = 0x10003000 then 0x10002300
  else 0

def sampleExports (lib : Modules) : List String :=
  if lib = .vfscore then ["vfs_write", "", "# calls", "ioctl"] else []

/-- Two lines of `unikraft.ll`. -/
def sampleIr : List String :=
  ["define i32 @vfs_write(%struct.vfscore_file* nocapture %fp, %struct.uio* %uio, i32 %flags) local_unnamed_addr #0 !dbg !29966 \x7b",
    "define i32 @ioctl(i32 %fd, i64 %request, ...) local_unnamed_addr #0 !dbg !32508 \x7b"]

def sampleWraps : List Wrap :=
  [{ lib := .vfscore, name := "vfs_write", ftype := .uint32
     args := [(.uint64, 0), (.uint64, 1), (.uint32, 2)]
     args1 := [.uint64, .uint64, .uint32], args2 := [0, 1, 2], narg := 5 }]

theorem sample_generate : generate sampleExports sampleIr = some sampleWraps := by
  rw [generate_eq]
  decide +kernel

theorem sample_listing : Listing "/cubicles" sampleMaps where
  sorted := by decide
  nonempty := by decide
  high := by
    have h : ∀ l ∈ sampleMaps, 0xC00000 ≤ l.start := by decide
    exact fun l hl _ _ => h l hl

theorem sampleLinker_dladdr {a b : UInt64} (h : sampleLinker.dladdr a = some b) :
    (0x10000000 ≤ a.toNat ∧ a.toNat < 0x10002000 ∧ b = 0x10000000) ∨
      (0x10002000 ≤ a.toNat ∧ a.toNat < 0x10003c00 ∧ b = 0x10002000) ∨
      (0x7fff0000 ≤ a.toNat ∧ a.toNat < 0x7fff2000 ∧ b = 0x7fff0000) := by
  simp only [sampleLinker] at h
  split at h
  · rename_i ha
    exact Or.inl ⟨ha.1, ha.2, (Option.some.inj h).symm⟩
  · split at h
    · rename_i ha
      exact Or.inr (Or.inl ⟨ha.1, ha.2, (Option.some.inj h).symm⟩)
    · split at h
      · rename_i ha
        exact Or.inr (Or.inr ⟨ha.1, ha.2, (Option.some.inj h).symm⟩)
      · cases h

theorem sampleMaps_module {name : String} {l : MapLine}
    (h : sampleMaps.find? (·.path = modulePath "/cubicles" name) = some l) :
    (l.start = 0x10000000 ∨ l.start = 0x10002000) ∧ l.inode ≠ 0 := by
  have hmem := List.mem_of_find?_eq_some h
  have hpath : l.path = modulePath "/cubicles" name := by
    simpa using List.find?_some h
  simp only [sampleMaps, List.mem_cons, List.not_mem_nil, or_false] at hmem
  rcases hmem with rfl | rfl | rfl | rfl
  · exact ⟨Or.inl rfl, by decide⟩
  · exact ⟨Or.inr rfl, by decide⟩
  -- a bracketed name is no path
  · have hhead := congrArg (fun s : String => s.toList.head?) hpath
    simp [modulePath] at hhead
  · have hhead := congrArg (fun s : String => s.toList.head?) hpath
    simp [modulePath] at hhead

theorem sampleLinker_sound : sampleLinker.Sound "/cubicles" sampleMaps where
  object := by
    intro name l hl
    obtain ⟨hstart, hinode⟩ := sampleMaps_module hl
    rcases hstart with hstart | hstart
    · exact ⟨by rw [hstart]; rfl, hinode⟩
    · exact ⟨by rw [hstart]; rfl, hinode⟩
  covers := by
    intro name l a hl ha
    have happ : (0x10000000 : UInt64).toNat = 0x10000000 := rfl
    have hvfs : (0x10002000 : UInt64).toNat = 0x10002000 := rfl
    simp only [UInt64.le_iff_toNat_le, page_toNat]
    rcases (sampleMaps_module hl).1 with hstart | hstart
    · rw [hstart] at ha ⊢
      rcases sampleLinker_dladdr ha with ⟨hlo, hhi, -⟩ | ⟨-, -, hne⟩ | ⟨-, -, hne⟩
      · refine ⟨by omega, fun x b hbx hx hb => ?_⟩
        rcases sampleLinker_dladdr hb with ⟨-, -, rfl⟩ | ⟨hx', -, -⟩ | ⟨hx', -, -⟩
        · rfl
        · omega
        · omega
      · exact absurd hne (by decide)
      · exact absurd hne (by decide)
    · rw [hstart] at ha ⊢
      rcases sampleLinker_dladdr ha with ⟨-, -, hne⟩ | ⟨hlo, hhi, -⟩ | ⟨-, -, hne⟩
      · exact absurd hne (by decide)
      · refine ⟨by omega, fun x b hbx hx hb => ?_⟩
        rcases sampleLinker_dladdr hb with ⟨-, hx', -⟩ | ⟨-, -, rfl⟩ | ⟨hx', -, -⟩
        · omega
        · rfl
        · omega
      · exact absurd hne (by decide)
  hook_ne := by
    intro lib name
    simp only [sampleLinker]
    split <;> decide

theorem sampleExports_symbols :
    ∀ lib, ∀ name ∈ exportNames (sampleExports lib), IsSymbol name := by
  intro lib name hname
  unfold sampleExports at hname
  split at hname
  · have hnames : exportNames ["vfs_write", "", "# calls", "ioctl"] =
        ["vfs_write", "ioctl"] := by decide +kernel
    rw [hnames] at hname
    rcases List.mem_pair.mp hname with rfl | rfl
    · exact ⟨List.all_eq_true.mp (by decide +kernel), by decide, by decide⟩
    · exact ⟨List.all_eq_true.mp (by decide +kernel), by decide, by decide⟩
  · cases hname

/-- What the loop leaves in the three slots, and that it visits each once. -/
def sampleOutcome : Outcome (UInt64 × UInt64 × UInt64 × Bool) :=
  sampleTable.bind fun pm =>
    (patchAll sampleLinker (hooksTable sampleLinker sampleWraps) ⟨pm, sampleSlots⟩).bind
      fun st => .done (st.mem 0x10001000, st.mem 0x10001008, st.mem 0x10003000,
        decide (VisitsOnce sampleLinker pm))

theorem sample_outcome :
    sampleOutcome = .done (0x401000, 0x10002200, 0x10002300, true) := by
  decide +kernel

/-- The call of `vfs_write` is redirected; vfscore's own slot is not. -/
theorem exports_interposed_write :
    ∃ pm st, sampleTable = .done pm ∧
      patchAll sampleLinker (hooksTable sampleLinker sampleWraps) ⟨pm, sampleSlots⟩ =
        .done st ∧
      Interposed sampleLinker (Hookable sampleExports sampleIr) pm sampleSlots st.mem ∧
      st.mem 0x10001000 = 0x401000 ∧ st.mem 0x10003000 = 0x10002300 := by
  obtain ⟨pm, hpm, hrun⟩ := Outcome.bind_eq_done.mp sample_outcome
  obtain ⟨st, hst, hmem⟩ := Outcome.bind_eq_done.mp hrun
  obtain ⟨st₀, hscan, hparse⟩ := Outcome.bind_eq_done.mp hpm
  simp only [Outcome.done.injEq, Prod.mk.injEq, decide_eq_true_eq] at hmem
  obtain ⟨hwrite, -, hown, honce⟩ := hmem
  refine ⟨pm, st, hpm, hst, ?_, hwrite, hown⟩
  exact exports_interposed hscan sample_listing hparse sampleLinker_sound honce
    sampleExports_symbols sample_generate hst

/-- `ioctl` is exported by vfscore and defined in the IR, with a variable
number of arguments: the application's slot still leads straight into
vfscore. -/
theorem variadic_export_not_interposed :
    ∃ pm st, sampleTable = .done pm ∧ generate sampleExports sampleIr = some sampleWraps ∧
      patchAll sampleLinker (hooksTable sampleLinker sampleWraps) ⟨pm, sampleSlots⟩ =
        .done st ∧
      ¬ Interposed sampleLinker (Exported sampleExports sampleIr) pm sampleSlots
        st.mem := by
  obtain ⟨pm, hpm, hrun⟩ := Outcome.bind_eq_done.mp sample_outcome
  obtain ⟨st, hst, hmem⟩ := Outcome.bind_eq_done.mp hrun
  simp only [Outcome.done.injEq, Prod.mk.injEq, decide_eq_true_eq] at hmem
  obtain ⟨-, hioctl, -, -⟩ := hmem
  refine ⟨pm, st, hpm, sample_generate, hst, fun h => ?_⟩
  have hentries : (sampleTable.bind fun pm => .done (pm[0]?, pm[21]?)) =
      .done (some { name := "app.so", start := 0x10000000, size := 0x2000, pkey := 1,
                    must := true },
        some { name := "libvfscore.so", start := 0x10002000, size := 0x2000, pkey := 2,
               must := true }) := by decide +kernel
  rw [hpm, Outcome.done_bind, Outcome.done.injEq, Prod.mk.injEq] at hentries
  obtain ⟨happ, hvfs⟩ := hentries
  have hexported : Exported sampleExports sampleIr .vfscore "ioctl" := by
    refine ⟨by decide, by decide, by decide +kernel, _,
      List.mem_cons_of_mem _ List.mem_cons_self, "i32",
      "i32 %fd, i64 %request, ...) local_unnamed_addr #0 !dbg !32508 \x7b", rfl,
      by decide +kernel⟩
  have hhook := (h _ (List.mem_of_getElem? happ) (by decide) _ rfl ⟨"ioctl", 0x10001008⟩
    (by decide) _ (List.mem_of_getElem? hvfs) (by decide) rfl).1 .vfscore rfl (by decide)
    hexported
  rw [hioctl] at hhook
  exact absurd hhook (by decide)

end CubicleOS
