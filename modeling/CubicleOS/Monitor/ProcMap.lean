import CubicleOS.Foundation.Machine
import CubicleOS.Monitor.Modules

/-!
# The table of modules and its keys

`pmap` and the scan of the module directory that fills it. The table is a list:
its length is `pmap_max`, the entries of the C array behind it are zero and
match nothing.
-/

namespace CubicleOS

open Foundation

/-! ## §1  The data model -/

/-- `struct ipc_struct`: one window. -/
structure IpcStruct where
  begin : UInt64
  size : UInt64
  mask : UInt64
deriving DecidableEq, Repr

/-- `struct proc_map_s`. A window table is absent until its cubicle registers
one; its length is the number of records read at registration. -/
structure ProcMap where
  name : String := ""
  start : UInt64 := 0
  size : UInt64 := 0
  pkey : ℤ := 0
  must : Bool := false
  ipcTabStack : Option (List IpcStruct) := none
  ipcTabGlobals : Option (List IpcStruct) := none
  ipcTabHeap : Option (List IpcStruct) := none
deriving DecidableEq, Repr

abbrev Pmap : Type := List ProcMap

/-- Size of the C array `pmap`. -/
def pmapSize : ℕ := 100

/-- `pmap[id]`. A subscript outside the array reads other memory. -/
def Pmap.at (pm : Pmap) (id : ℤ) : Outcome ProcMap :=
  if 0 ≤ id ∧ id < pmapSize then .done (pm.getD id.toNat {}) else .wild

theorem Pmap.at_natCast {pm : Pmap} {i : ℕ} {e : ProcMap}
    (h : pm[i]? = some e) (hi : i < pmapSize) : pm.at (i : ℤ) = .done e := by
  unfold Pmap.at
  rw [if_pos (by omega), Int.toNat_natCast, List.getD_eq_getElem?_getD, h]
  rfl

/-- `get_module_id`: first entry with this name; `NULL` has no id. -/
def getModuleId (pm : Pmap) (name : Option String) : ℤ :=
  match name with
  | none => -1
  | some n =>
      match pm.findIdx? (·.name = n) with
      | some i => i
      | none => -1

theorem getModuleId_eq {pm : Pmap} {n : String} {i : ℕ} {e : ProcMap}
    (hi : pm[i]? = some e) (hn : e.name = n)
    (hfirst : ∀ j e', j < i → pm[j]? = some e' → e'.name ≠ n) :
    getModuleId pm (some n) = i := by
  obtain ⟨hlt, he⟩ := List.getElem?_eq_some_iff.mp hi
  have hfind : pm.findIdx? (·.name = n) = some i := by
    rw [List.findIdx?_eq_some_iff_getElem]
    refine ⟨hlt, by simp [he, hn], ?_⟩
    intro j hj
    have hjlt : j < pm.length := hj.trans hlt
    simpa using hfirst j _ hj (List.getElem?_eq_getElem hjlt)
  unfold getModuleId
  simp only [hfind]

/-- An id that `get_module_id` returns is the position of an entry with that
name. -/
theorem getModuleId_cases (pm : Pmap) (n : String) :
    (getModuleId pm (some n) = -1 ∧ ∀ e ∈ pm, e.name ≠ n) ∨
      ∃ i e, getModuleId pm (some n) = (i : ℕ) ∧ pm[i]? = some e ∧
        e.name = n := by
  simp only [getModuleId]
  cases h : pm.findIdx? (·.name = n) with
  | none =>
      refine Or.inl ⟨rfl, ?_⟩
      rw [List.findIdx?_eq_none_iff] at h
      intro e he
      simpa using h e he
  | some i =>
      obtain ⟨hlt, hp, _⟩ := List.findIdx?_eq_some_iff_getElem.mp h
      exact Or.inr ⟨i, pm[i], rfl, List.getElem?_eq_getElem hlt, by simpa using hp⟩

/-! ## §2  `scan_modules` -/

/-- Write the entry of `file`: at its enumerator, or behind the last entry. -/
def Pmap.place (pm : Pmap) (file : String) (e : ProcMap) : Pmap :=
  if getId file = -1 then pm ++ [e] else pm.set (getId file).toNat e

/-- The loop body of `scan_modules` for one directory entry. The second
component counts the calls of `pkey_alloc`, whose results are `alloc`. -/
def scanOne (alloc : ℕ → ℤ) (st : Pmap × ℕ) (file : String) :
    Outcome (Pmap × ℕ) :=
  if file = "." ∨ file = ".." then .done st
  else if getId file = -1 ∧ pmapSize ≤ st.1.length then .wild
  else
    (isMust file).bind fun must =>
      if must then
        if alloc st.2 = -1 then .spin
        else
          .done (st.1.place file { name := file, pkey := alloc st.2, must := true },
            st.2 + 1)
      else .done (st.1.place file { name := file }, st.2)

/-- `scan_modules` over the entries of the module directory. -/
def scanModules (alloc : ℕ → ℤ) (files : List String) : Outcome (Pmap × ℕ) :=
  runs (scanOne alloc) (List.replicate eEnd {}, 0) files

/-- What `pkey_alloc` promises: a positive key that no earlier call returned,
or `-1`. -/
structure PkeyAlloc (alloc : ℕ → ℤ) : Prop where
  positive : ∀ k, alloc k = -1 ∨ 0 < alloc k
  fresh : ∀ k l, alloc k = alloc l → alloc k ≠ -1 → k = l

theorem getId_range (name : String) :
    getId name = -1 ∨ (0 ≤ getId name ∧ getId name < eEnd) := by
  unfold getId
  cases h : modnames.findIdx? (· = name) with
  | none => exact Or.inl rfl
  | some i =>
      obtain ⟨hlt, -⟩ := List.findIdx?_eq_some_iff_getElem.mp h
      rw [modnames_length] at hlt
      exact Or.inr ⟨Int.natCast_nonneg i, Int.ofNat_lt.mpr hlt⟩

/-- An entry of the table after `place` is the new one, at the file's
position or at the end, or an old one. -/
theorem place_cases {pm : Pmap} {file : String} {e x : ProcMap}
    {i : ℕ} (h : (pm.place file e)[i]? = some x) :
    (x = e ∧ (getId file = i ∨ getId file = -1)) ∨ pm[i]? = some x := by
  unfold Pmap.place at h
  rcases getId_range file with hneg | ⟨hpos, hlt⟩
  · rw [if_pos hneg, List.getElem?_append] at h
    split at h
    · exact Or.inr h
    · rename_i hge
      have hi : i - pm.length = 0 := by
        by_contra hne
        rw [List.getElem?_eq_none (by simp; omega)] at h
        cases h
      rw [hi] at h
      exact Or.inl ⟨(Option.some.inj h).symm, Or.inr hneg⟩
  · rw [if_neg (by omega), List.getElem?_set] at h
    split at h
    · rename_i heq
      split at h
      · exact Or.inl ⟨(Option.some.inj h).symm, Or.inl (by omega)⟩
      · cases h
    · exact Or.inr h

theorem place_length {pm : Pmap} (file : String) (e : ProcMap) :
    pm.length ≤ (pm.place file e).length := by
  unfold Pmap.place
  split <;> simp

/-- The scan stops before the table is full. -/
theorem place_length_le {pm : Pmap} {file : String} (e : ProcMap)
    (hle : pm.length ≤ pmapSize) (hroom : getId file = -1 → pm.length < pmapSize) :
    (pm.place file e).length ≤ pmapSize := by
  unfold Pmap.place
  split
  · rename_i hneg
    have := hroom hneg
    simp
    omega
  · simpa using hle

theorem isMust_done {file : String} {b : Bool} (h : isMust file = .done b) :
    b = true ↔ file ∈ must := by
  unfold isMust at h
  split at h
  · cases h
    simpa
  · split at h
    · cases h
      simpa
    · cases h

/-- What one file does to the table: nothing, or a new entry, with a key of its
own exactly if the file is a cubicle's. -/
theorem scanOne_cases {alloc : ℕ → ℤ} {pm : Pmap} {n : ℕ} {file : String}
    {st' : Pmap × ℕ} (h : scanOne alloc (pm, n) file = .done st') :
    st' = (pm, n) ∨
      (getId file = -1 → pm.length < pmapSize) ∧
        (file ∈ must ∧ alloc n ≠ -1 ∧
            st' = (pm.place file { name := file, pkey := alloc n, must := true }, n + 1) ∨
          file ∉ must ∧ st' = (pm.place file { name := file }, n)) := by
  unfold scanOne at h
  split at h
  · cases h
    exact Or.inl rfl
  split at h
  · cases h
  rename_i hfull
  refine Or.inr ⟨fun hneg => ?_, ?_⟩
  · by_contra hge
    exact hfull ⟨hneg, Nat.le_of_not_lt hge⟩
  obtain ⟨b, hb, h⟩ := Outcome.bind_eq_done.mp h
  have hmust := isMust_done hb
  cases b with
  | true =>
      rw [if_pos rfl] at h
      split at h
      · cases h
      · rename_i hok
        cases h
        exact Or.inl ⟨hmust.mp rfl, hok, rfl⟩
  | false =>
      cases h
      exact Or.inr ⟨fun hm => Bool.noConfusion (hmust.mpr hm), rfl⟩

/-- What holds of the table after every step of the scan. -/
structure ScanInv (alloc : ℕ → ℤ) (st : Pmap × ℕ) : Prop where
  length_ge : eEnd ≤ st.1.length
  length_le : st.1.length ≤ pmapSize
  placed : ∀ (i : ℕ) (e : ProcMap), st.1[i]? = some e → e.name ≠ "" →
    getId e.name = i ∨ getId e.name = -1
  flag : ∀ (i : ℕ) (e : ProcMap), st.1[i]? = some e → (e.must = true ↔ e.name ∈ must)
  unkeyed : ∀ (i : ℕ) (e : ProcMap), st.1[i]? = some e → e.must = false → e.pkey = 0
  keyed : ∀ (i : ℕ) (e : ProcMap), st.1[i]? = some e → e.must = true →
    ∃ k, k < st.2 ∧ e.pkey = alloc k ∧ alloc k ≠ -1
  distinct : ∀ (i j : ℕ) (e e' : ProcMap), st.1[i]? = some e → st.1[j]? = some e' →
    e.must = true → e'.must = true → e.pkey = e'.pkey → i = j

theorem scanInv_init (alloc : ℕ → ℤ) :
    ScanInv alloc (List.replicate eEnd {}, 0) := by
  have hentry : ∀ (i : ℕ) (e : ProcMap), (List.replicate eEnd ({} : ProcMap))[i]? = some e →
      e = {} := by
    intro i e h
    obtain ⟨hlt, he⟩ := List.getElem?_eq_some_iff.mp h
    rw [← he]
    exact List.getElem_replicate hlt
  refine ⟨by simp, by simp [eEnd, pmapSize], ?_, ?_, ?_, ?_, ?_⟩
  · intro i e h hn
    rw [hentry i e h] at hn
    exact absurd rfl hn
  · intro i e h
    rw [hentry i e h]
    decide
  · intro i e h _
    rw [hentry i e h]
  · intro i e h hm
    rw [hentry i e h] at hm
    cases hm
  · intro i j e e' h _ hm _ _
    rw [hentry i e h] at hm
    cases hm

/-- Placing one entry keeps the invariant: the entry sits where its name
says, carries a key exactly when it is a cubicle, and its key is new. -/
theorem scanInv_place {alloc : ℕ → ℤ} {pm : Pmap} {n n' : ℕ}
    (hinv : ScanInv alloc (pm, n)) (hn : n ≤ n') {file : String} {e : ProcMap}
    (hname : e.name = file) (hflag : e.must = true ↔ file ∈ must)
    (hunkeyed : e.must = false → e.pkey = 0)
    (hkeyed : e.must = true → ∃ k, k < n' ∧ e.pkey = alloc k ∧ alloc k ≠ -1)
    (hnew : e.must = true → ∀ k, k < n → alloc k ≠ -1 → e.pkey ≠ alloc k)
    (hroom : getId file = -1 → pm.length < pmapSize) :
    ScanInv alloc (pm.place file e, n') := by
  have hge : eEnd ≤ pm.length := hinv.length_ge
  have hle : pm.length ≤ pmapSize := hinv.length_le
  refine ⟨hge.trans (place_length file e), place_length_le e hle hroom,
    ?_, ?_, ?_, ?_, ?_⟩
  · intro i x h hx
    rcases place_cases h with ⟨rfl, hid⟩ | h'
    · rw [hname]
      exact hid
    · exact hinv.placed i x h' hx
  · intro i x h
    rcases place_cases h with ⟨rfl, -⟩ | h'
    · rw [hname]
      exact hflag
    · exact hinv.flag i x h'
  · intro i x h hx
    rcases place_cases h with ⟨rfl, -⟩ | h'
    · exact hunkeyed hx
    · exact hinv.unkeyed i x h' hx
  · intro i x h hx
    rcases place_cases h with ⟨rfl, -⟩ | h'
    · exact hkeyed hx
    · obtain ⟨k, hk, hrest⟩ := hinv.keyed i x h' hx
      exact ⟨k, hk.trans_le hn, hrest⟩
  · have hfresh : ∀ (i : ℕ) (x : ProcMap), pm[i]? = some x → x.must = true → e.must = true →
        e.pkey ≠ x.pkey := by
      intro i x h hx he
      obtain ⟨k, hk, hkey, hok⟩ := hinv.keyed i x h hx
      rw [hkey]
      exact hnew he k hk hok
    intro i j x y hi hj hx hy hkey
    rcases place_cases hi with ⟨rfl, hidi⟩ | hi' <;>
      rcases place_cases hj with ⟨rfl, hidj⟩ | hj'
    · -- both are the new entry: a module of the enumeration has one place, and
      -- a cubicle is always in the enumeration
      have hfile : file ∈ must := hflag.mp hx
      have hid : getId file ≠ -1 := by
        rw [Ne, getId_eq_neg_one_iff, not_not]
        exact must_subset_modnames file hfile
      have h1 := hidi.resolve_right hid
      have h2 := hidj.resolve_right hid
      omega
    · exact absurd hkey (hfresh j y hj' hy hx)
    · exact absurd hkey.symm (hfresh i x hi' hx hy)
    · exact hinv.distinct i j x y hi' hj' hx hy hkey

theorem scanInv_step {alloc : ℕ → ℤ} (ha : PkeyAlloc alloc) {st st' : Pmap × ℕ}
    {file : String} (hinv : ScanInv alloc st)
    (h : scanOne alloc st file = .done st') : ScanInv alloc st' := by
  obtain ⟨pm, n⟩ := st
  rcases scanOne_cases h with rfl | ⟨hroom, ⟨hmust, hok, rfl⟩ | ⟨hmust, rfl⟩⟩
  · exact hinv
  · refine scanInv_place hinv (Nat.le_succ n) rfl (by simpa using hmust) (by simp) ?_ ?_ hroom
    · intro _
      exact ⟨n, Nat.lt_succ_self n, rfl, hok⟩
    · intro _ k hk _ heq
      exact absurd (ha.fresh n k heq hok) (by omega)
  · exact scanInv_place hinv (le_refl n) rfl (by simpa using hmust) (by simp)
      (by simp) (by simp) hroom

theorem scanModules_inv {alloc : ℕ → ℤ} (ha : PkeyAlloc alloc)
    {files : List String} {st : Pmap × ℕ}
    (h : scanModules alloc files = .done st) : ScanInv alloc st := by
  refine runs_invariant (I := ScanInv alloc) (G := fun _ _ => True) ?_
    (scanInv_init alloc) (Along.of_forall_mem fun _ _ _ => trivial) h
  intro s e s' hs _ hstep
  exact scanInv_step ha hs hstep

/-- The scan gives no entry a range. -/
theorem scanModules_size {alloc : ℕ → ℤ} {files : List String} {st : Pmap × ℕ}
    (h : scanModules alloc files = .done st) : ∀ e ∈ st.1, e.size = 0 := by
  refine runs_invariant (I := fun st : Pmap × ℕ => ∀ e ∈ st.1, e.size = 0)
    (G := fun _ _ => True) ?_ ?_ (Along.of_forall_mem fun _ _ _ => trivial) h
  · rintro ⟨pm, n⟩ file st' hpm - hstep
    have hplace : ∀ e : ProcMap, e.size = 0 → ∀ x ∈ pm.place file e, x.size = 0 := by
      intro e he x hx
      obtain ⟨i, hi⟩ := List.mem_iff_getElem?.mp hx
      rcases place_cases hi with ⟨rfl, -⟩ | hi'
      · exact he
      · exact hpm x (List.mem_of_getElem? hi')
    rcases scanOne_cases hstep with rfl | ⟨-, ⟨-, -, rfl⟩ | ⟨-, rfl⟩⟩
    · exact hpm
    · exact hplace _ rfl
    · exact hplace _ rfl
  · intro e he
    rw [List.eq_of_mem_replicate he]

end CubicleOS
