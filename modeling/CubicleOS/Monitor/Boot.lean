import CubicleOS.Monitor.ProcMap

/-!
# Keys at start-up

`cmp_lock` and `cmp_unlock` change the rights of one key. `main` lets the
friends of a build share one key, takes every cubicle's key away and gives the
platform's key back. `Cubicles` collects what is true of the table from then
on, and `boot_cubicles` derives it from the scan: in particular two cubicles
share a key exactly when they are friends.
-/

namespace CubicleOS

open Foundation

/-! ## §1  The key register -/

/-- Which keys the running code may use: the access bits of `PKRU`. -/
abbrev Rights : Type := ℤ → Bool

/-- `cmp_lock`: take the key of a cubicle away. -/
def cmpLock (pm : Pmap) (mid : ℤ) (en : Rights) : Outcome Rights :=
  (pm.at mid).bind fun e =>
    if e.pkey = 0 then .spin else .done (Function.update en e.pkey false)

/-- `cmp_unlock`: give the key of a cubicle back. -/
def cmpUnlock (pm : Pmap) (mid : ℤ) (en : Rights) : Outcome Rights :=
  (pm.at mid).bind fun e => .done (Function.update en e.pkey true)

/-! ## §2  Keys of a build -/

/-- `pmap[E_m].pkey`. -/
def keyOf (pm : Pmap) (m : Modules) : ℤ :=
  (pm[m.ctorIdx]?.map ProcMap.pkey).getD 0

/-- `pmap[E_m].pkey = k`. -/
def setKey (pm : Pmap) (m : Modules) (k : ℤ) : Pmap :=
  pm.modify m.ctorIdx fun e => { e with pkey := k }

/-- The assignments under `#if SQLITE_FINAL` and `#ifdef NGINX_FINAL`. -/
def mainKeys (build : Build) (pm : Pmap) : Pmap :=
  match build with
  | .plain => pm
  | .sqlite sqlite3 =>
      let pm := if sqlite3 then setKey pm .ramfs (keyOf pm .vfscore) else pm
      let pm := setKey pm .ukalloc (keyOf pm .vfscore)
      setKey pm .ukboot (keyOf pm .vfscore)
  | .nginx => setKey pm .ukalloc (keyOf pm .app)

/-- The friend whose key the others of its build take over. -/
def leader : Build → Modules
  | .plain => .app
  | .sqlite _ => .vfscore
  | .nginx => .app

theorem keyOf_setKey {pm : Pmap} {m m' : Modules} {k : ℤ}
    (hlen : eEnd ≤ pm.length) :
    keyOf (setKey pm m k) m' = if m' = m then k else keyOf pm m' := by
  have hlt : m'.ctorIdx < pm.length := (Modules.ctorIdx_lt m').trans_le hlen
  unfold keyOf setKey
  rw [List.getElem?_modify, List.getElem?_eq_getElem hlt]
  by_cases h : m' = m
  · subst h
    simp
  · have hne : m.ctorIdx ≠ m'.ctorIdx :=
      fun heq => h (Modules.ctorIdx_injective heq).symm
    simp [h, hne]

theorem setKey_length (pm : Pmap) (m : Modules) (k : ℤ) :
    (setKey pm m k).length = pm.length := by
  simp [setKey]

theorem mainKeys_length (build : Build) (pm : Pmap) :
    (mainKeys build pm).length = pm.length := by
  rcases build with _ | s | _
  · rfl
  · cases s <;> simp [mainKeys, setKey_length]
  · simp [mainKeys, setKey_length]

/-- After `main` the friends of a build have their leader's key and every
other module has its own. -/
theorem keyOf_mainKeys (build : Build) {pm : Pmap} (hlen : eEnd ≤ pm.length)
    (m : Modules) :
    keyOf (mainKeys build pm) m =
      if m ∈ flist build then keyOf pm (leader build) else keyOf pm m := by
  rcases build with _ | s | _
  · simp [mainKeys, flist]
  · cases s
    · simp only [mainKeys, Bool.false_eq_true, if_false, leader, setKey_length,
        keyOf_setKey, hlen]
      cases m <;> simp [flist]
    · simp only [mainKeys, if_true, leader, setKey_length, keyOf_setKey, hlen]
      cases m <;> simp [flist]
  · simp only [mainKeys, leader, keyOf_setKey, hlen]
    cases m <;> simp [flist]

/-- `main` changes keys only. -/
theorem mainKeys_entry (build : Build) {pm : Pmap} {i : ℕ} {e : ProcMap}
    (h : (mainKeys build pm)[i]? = some e) :
    ∃ e₀, pm[i]? = some e₀ ∧ e = { e₀ with pkey := e.pkey } := by
  have hset : ∀ {pm : Pmap} {m : Modules} {k : ℤ} {e : ProcMap},
      (setKey pm m k)[i]? = some e →
        ∃ e₀, pm[i]? = some e₀ ∧ e = { e₀ with pkey := e.pkey } := by
    intro pm m k e h
    unfold setKey at h
    rw [List.getElem?_modify] at h
    obtain ⟨e₀, he₀, heq⟩ := Option.map_eq_some_iff.mp h
    refine ⟨e₀, he₀, ?_⟩
    split at heq <;> subst heq <;> rfl
  have htrans : ∀ {x y z : ProcMap}, x = { y with pkey := x.pkey } →
      y = { z with pkey := y.pkey } → x = { z with pkey := x.pkey } := by
    intro x y z hx hy
    rw [hy] at hx
    exact hx
  rcases build with _ | s | _
  · exact ⟨e, h, rfl⟩
  · obtain ⟨e₁, h₁, heq₁⟩ := hset h
    obtain ⟨e₂, h₂, heq₂⟩ := hset h₁
    cases s
    · exact ⟨e₂, h₂, htrans heq₁ heq₂⟩
    · obtain ⟨e₃, h₃, heq₃⟩ := hset h₂
      exact ⟨e₃, h₃, htrans heq₁ (htrans heq₂ heq₃)⟩
  · exact hset h

/-- And those of the friends of the build only. -/
theorem mainKeys_getElem? (build : Build) (pm : Pmap) {i : ℕ}
    (h : ∀ m ∈ flist build, i ≠ m.ctorIdx) : (mainKeys build pm)[i]? = pm[i]? := by
  have hset : ∀ (pm : Pmap) (m : Modules) (k : ℤ), i ≠ m.ctorIdx →
      (setKey pm m k)[i]? = pm[i]? := by
    intro pm m k hne
    unfold setKey
    rw [List.getElem?_modify]
    simp [Ne.symm hne]
  rcases build with _ | s | _
  · rfl
  · have hboot := h .ukboot (by cases s <;> decide)
    have hukalloc := h .ukalloc (by cases s <;> decide)
    cases s
    · simp only [mainKeys, Bool.false_eq_true, if_false, hset _ _ _ hboot, hset _ _ _ hukalloc]
    · have hramfs := h .ramfs (by decide)
      simp only [mainKeys, if_true, hset _ _ _ hboot, hset _ _ _ hukalloc, hset _ _ _ hramfs]
  · exact hset _ _ _ (h .ukalloc (by decide))

/-! ## §3  From the scan to the first cubicle -/

/-- What the later phases of the loader write into an entry: its address range
(`parse_proc`) and the window tables it registers. -/
structure Placement where
  start : UInt64
  size : UInt64
  ipcTabStack : Option (List IpcStruct)
  ipcTabGlobals : Option (List IpcStruct)
  ipcTabHeap : Option (List IpcStruct)

def Pmap.layOut (pm : Pmap) (lay : ℕ → Placement) : Pmap :=
  pm.mapIdx fun i e =>
    { e with
      start := (lay i).start
      size := (lay i).size
      ipcTabStack := (lay i).ipcTabStack
      ipcTabGlobals := (lay i).ipcTabGlobals
      ipcTabHeap := (lay i).ipcTabHeap }

/-- One turn of the locking loop of `main`. -/
def lockOne (pm : Pmap) (en : Rights) (i : ℕ) : Outcome Rights :=
  match pm[i]? with
  | none => .done en
  | some e => if e.must then cmpLock pm i en else .done en

/-- `main`, from the scan to the call of the platform's entry point. -/
def boot (build : Build) (alloc : ℕ → ℤ) (files : List String)
    (lay : ℕ → Placement) (en : Rights) : Outcome (Pmap × Rights) :=
  (scanModules alloc files).bind fun st =>
    let pm := mainKeys build (st.1.layOut lay)
    (runs (lockOne pm) en (List.range pm.length)).bind fun en =>
      (cmpUnlock pm (getModuleId pm (some Modules.linuxuplat.modname)) en).bind
        fun en => .done (pm, en)

/-- `remap[m]`, as `create_cubicles` fills it. -/
def remap (pm : Pmap) (m : Modules) : ℤ := getModuleId pm (some m.modname)

/-- Module `m` is loaded and runs as a cubicle. -/
def Loaded (pm : Pmap) (m : Modules) : Prop :=
  ∃ e, pm[m.ctorIdx]? = some e ∧ e.must = true

instance (pm : Pmap) (m : Modules) : Decidable (Loaded pm m) :=
  match h : pm[m.ctorIdx]? with
  | none => isFalse (by rintro ⟨e, he, -⟩; rw [h] at he; cases he)
  | some e =>
      if hm : e.must = true then isTrue ⟨e, h, hm⟩
      else isFalse (by rintro ⟨e', he, hm'⟩; rw [h] at he; cases he; exact hm hm')

/-- The table as the running system relies on it. -/
structure Cubicles (build : Build) where
  pmap : Pmap
  length_ge : eEnd ≤ pmap.length
  length_le : pmap.length ≤ pmapSize
  named : ∀ (i : ℕ) (e : ProcMap) (m : Modules), pmap[i]? = some e →
    e.name = m.modname → i = m.ctorIdx
  must_named : ∀ (i : ℕ) (e : ProcMap), pmap[i]? = some e → e.must = true →
    ∃ m : Modules, e.name = m.modname
  key_ne_zero : ∀ m, Loaded pmap m → keyOf pmap m ≠ 0
  key_eq_iff : ∀ a b, Loaded pmap a → Loaded pmap b →
    (keyOf pmap a = keyOf pmap b ↔ friends build a b = true)
  unkeyed : ∀ (i : ℕ) (e : ProcMap), pmap[i]? = some e → e.must = false →
    (∀ m ∈ flist build, i ≠ m.ctorIdx) → e.pkey = 0
  platform : Loaded pmap .linuxuplat

namespace Cubicles

variable {build : Build} (T : Cubicles build)

/-- A cubicle sits at its enumerator. -/
theorem must_at {i : ℕ} {e : ProcMap} (h : T.pmap[i]? = some e)
    (hm : e.must = true) : ∃ m : Modules, i = m.ctorIdx ∧ Loaded T.pmap m := by
  obtain ⟨m, hname⟩ := T.must_named i e h hm
  have hi := T.named i e m h hname
  exact ⟨m, hi, e, hi ▸ h, hm⟩

theorem loaded_name {m : Modules} {e : ProcMap}
    (h : T.pmap[m.ctorIdx]? = some e) (hm : e.must = true) :
    e.name = m.modname := by
  obtain ⟨m', hname⟩ := T.must_named _ e h hm
  have hidx := T.named _ e m' h hname
  rw [Modules.ctorIdx_injective hidx]
  exact hname

/-- `remap` of a loaded cubicle is its enumerator. -/
theorem remap_loaded {m : Modules} (hm : Loaded T.pmap m) :
    remap T.pmap m = m.id := by
  obtain ⟨e, he, hmust⟩ := hm
  refine getModuleId_eq he (T.loaded_name he hmust) ?_
  intro j e' hj he' hname
  have := T.named j e' m he' hname
  omega

/-- The entry of a loaded cubicle, read through `remap`. -/
theorem at_remap {m : Modules} (hm : Loaded T.pmap m) :
    ∃ e, T.pmap.at (remap T.pmap m) = .done e ∧ e.must = true ∧
      e.pkey = keyOf T.pmap m := by
  obtain ⟨e, he, hmust⟩ := hm
  refine ⟨e, ?_, hmust, by simp [keyOf, he]⟩
  rw [T.remap_loaded ⟨e, he, hmust⟩]
  exact Pmap.at_natCast he
    ((Modules.ctorIdx_lt m).trans_le (T.length_ge.trans T.length_le))

/-- The set of keys that belong to cubicles. -/
def cubicleKey (k : ℤ) : Prop := ∃ m, Loaded T.pmap m ∧ keyOf T.pmap m = k

/-- In the default build a cubicle's key is the key of no other module. -/
theorem id_of_key {T : Cubicles .plain} {m : Modules} (hm : Loaded T.pmap m) {id : ℤ}
    {e : ProcMap} (hat : T.pmap.at id = .done e) (hkey : e.pkey = keyOf T.pmap m) :
    id = m.id := by
  have hne : e.pkey ≠ 0 := hkey ▸ T.key_ne_zero m hm
  unfold Pmap.at at hat
  split at hat
  · rename_i hid
    rw [List.getD_eq_getElem?_getD] at hat
    cases hi : T.pmap[id.toNat]? with
    | none =>
        rw [hi] at hat
        exact absurd (congrArg ProcMap.pkey (Outcome.done.inj hat)).symm hne
    | some x =>
        rw [hi] at hat
        obtain rfl : x = e := Outcome.done.inj hat
        cases hmust : x.must with
        | false => exact absurd (T.unkeyed _ x hi hmust (by simp [flist])) hne
        | true =>
            obtain ⟨m', hidx, hm'⟩ := T.must_at hi hmust
            have hkey' : keyOf T.pmap m' = keyOf T.pmap m := by
              rw [← hkey]
              simp [keyOf, ← hidx, hi]
            have hfr := (T.key_eq_iff m' m hm' hm).mp hkey'
            rcases friends_iff.mp hfr with rfl | ⟨h, -⟩
            · unfold Modules.id
              rw [← hidx]
              exact (Int.toNat_of_nonneg hid.1).symm
            · cases h
  · cases hat

/-- Locking a loaded cubicle never fails and touches its key only. -/
theorem cmpLock_loaded {m : Modules} (hm : Loaded T.pmap m) (en : Rights) :
    cmpLock T.pmap (remap T.pmap m) en =
      .done (Function.update en (keyOf T.pmap m) false) := by
  obtain ⟨e, he, -, hkey⟩ := T.at_remap hm
  have hne : e.pkey ≠ 0 := by
    rw [hkey]
    exact T.key_ne_zero m hm
  unfold cmpLock
  rw [he, Outcome.done_bind, if_neg hne, hkey]

theorem cmpUnlock_loaded {m : Modules} (hm : Loaded T.pmap m) (en : Rights) :
    cmpUnlock T.pmap (remap T.pmap m) en =
      .done (Function.update en (keyOf T.pmap m) true) := by
  obtain ⟨e, he, -, hkey⟩ := T.at_remap hm
  unfold cmpUnlock
  rw [he, Outcome.done_bind, hkey]

end Cubicles

/-! ## §4  `boot` establishes the table -/

theorem layOut_entry {pm : Pmap} {lay : ℕ → Placement} {i : ℕ} {e : ProcMap}
    (h : (pm.layOut lay)[i]? = some e) :
    ∃ e₀, pm[i]? = some e₀ ∧ e.name = e₀.name ∧ e.pkey = e₀.pkey ∧
      e.must = e₀.must := by
  unfold Pmap.layOut at h
  rw [List.getElem?_mapIdx] at h
  obtain ⟨e₀, he₀, heq⟩ := Option.map_eq_some_iff.mp h
  subst heq
  exact ⟨e₀, he₀, rfl, rfl, rfl⟩

theorem layOut_length (pm : Pmap) (lay : ℕ → Placement) :
    (pm.layOut lay).length = pm.length := by
  simp [Pmap.layOut]

/-- What one turn of the locking loop can do. -/
theorem lockOne_cases {pm : Pmap} (hlen : pm.length ≤ pmapSize) {en en' : Rights}
    {i : ℕ} (h : lockOne pm en i = .done en') :
    (en' = en ∧ ∀ e, pm[i]? = some e → e.must = false) ∨
      ∃ e, pm[i]? = some e ∧ e.must = true ∧ e.pkey ≠ 0 ∧
        en' = Function.update en e.pkey false := by
  unfold lockOne at h
  cases hi : pm[i]? with
  | none =>
      rw [hi] at h
      cases h
      exact Or.inl ⟨rfl, fun _ he => nomatch he⟩
  | some x =>
      rw [hi] at h
      have hlt : i < pmapSize := (List.getElem?_eq_some_iff.mp hi).1.trans_le hlen
      cases hx : x.must with
      | false =>
          simp only [hx, Bool.false_eq_true, if_false] at h
          cases h
          refine Or.inl ⟨rfl, fun e he => ?_⟩
          cases he
          exact hx
      | true =>
          simp only [hx, if_true, cmpLock] at h
          rw [Pmap.at_natCast hi hlt, Outcome.done_bind] at h
          -- a cubicle without a key stops the loader
          split at h
          · cases h
          · rename_i hkey
            cases h
            exact Or.inr ⟨x, rfl, hx, hkey, rfl⟩

/-- The locking loop ends only if every cubicle has a key; it takes exactly
the cubicles' keys away. -/
theorem lockLoop {pm : Pmap} (hlen : pm.length ≤ pmapSize) (n : ℕ) :
    ∀ {en en' : Rights}, runs (lockOne pm) en (List.range n) = .done en' →
      (∀ (i : ℕ) (e : ProcMap), i < n → pm[i]? = some e → e.must = true →
        e.pkey ≠ 0 ∧ en' e.pkey = false) ∧
      (∀ k, (∀ (i : ℕ) (e : ProcMap), pm[i]? = some e → e.must = true →
        e.pkey ≠ k) → en' k = en k) := by
  induction n with
  | zero =>
      intro en en' h
      cases h
      exact ⟨fun i e hi => absurd hi (Nat.not_lt_zero i), fun _ _ => rfl⟩
  | succ n ih =>
      intro en en' h
      rw [List.range_succ, runs_append_eq_done] at h
      obtain ⟨en₁, h₁, h₂⟩ := h
      obtain ⟨en₂, hstep, hend⟩ := runs_cons_eq_done.mp h₂
      cases hend
      obtain ⟨hlock, hkeep⟩ := ih h₁
      rcases lockOne_cases hlen hstep with ⟨rfl, hfree⟩ | ⟨x, hx, hxm, hkey, rfl⟩
      · refine ⟨fun i e hi he hm => ?_, hkeep⟩
        rcases Nat.lt_succ_iff_lt_or_eq.mp hi with hlt | rfl
        · exact hlock i e hlt he hm
        · exact absurd hm (by simp [hfree e he])
      · refine ⟨fun i e hi he hm => ?_, fun k hk => ?_⟩
        · rcases Nat.lt_succ_iff_lt_or_eq.mp hi with hlt | rfl
          · obtain ⟨hne, hoff⟩ := hlock i e hlt he hm
            refine ⟨hne, ?_⟩
            -- a friend met earlier may have the same key: it stays off
            by_cases heq : e.pkey = x.pkey
            · rw [heq, Function.update_self]
            · rw [Function.update_of_ne heq]
              exact hoff
          · rw [hx] at he
            cases he
            exact ⟨hkey, Function.update_self _ _ _⟩
        · rw [Function.update_of_ne (fun heq => hk n x hx hxm heq.symm)]
          exact hkeep k hk

/-- A module of the enumeration that carries a key is a loaded cubicle. -/
theorem loaded_of_key {alloc : ℕ → ℤ} {st : Pmap × ℕ} (hinv : ScanInv alloc st)
    {m : Modules} (h : keyOf st.1 m ≠ 0) : Loaded st.1 m := by
  unfold keyOf at h
  cases he : st.1[m.ctorIdx]? with
  | none =>
      rw [he] at h
      exact absurd rfl h
  | some e =>
      refine ⟨e, he, ?_⟩
      by_contra hm
      rw [he] at h
      exact h (hinv.unkeyed _ e he (by simpa using hm))

/-- Before `main` merges keys, distinct cubicles have distinct keys. -/
theorem scan_key_injective {alloc : ℕ → ℤ} {st : Pmap × ℕ}
    (hinv : ScanInv alloc st) {a b : Modules} (ha : Loaded st.1 a)
    (hb : Loaded st.1 b) (h : keyOf st.1 a = keyOf st.1 b) : a = b := by
  obtain ⟨ea, hea, hma⟩ := ha
  obtain ⟨eb, heb, hmb⟩ := hb
  have hkey : ea.pkey = eb.pkey := by
    simpa [keyOf, hea, heb] using h
  exact Modules.ctorIdx_injective (hinv.distinct _ _ ea eb hea heb hma hmb hkey)

theorem leader_mem {build : Build} {m : Modules} (h : m ∈ flist build) :
    leader build ∈ flist build := by
  rcases build with _ | s | _
  · exact absurd h List.not_mem_nil
  · cases s <;> simp [flist, leader]
  · simp [flist, leader]

section FromScan

variable {build : Build} {alloc : ℕ → ℤ} {st : Pmap × ℕ} {lay : ℕ → Placement}

/-- Layout and key assignment keep names and the cubicle flag. -/
theorem laidOut_entry {i : ℕ} {e : ProcMap}
    (h : (mainKeys build (st.1.layOut lay))[i]? = some e) :
    ∃ e₀, st.1[i]? = some e₀ ∧ e.name = e₀.name ∧ e.must = e₀.must := by
  obtain ⟨e₁, h₁, heq⟩ := mainKeys_entry build h
  obtain ⟨e₀, h₀, hname, -, hmust⟩ := layOut_entry h₁
  refine ⟨e₀, h₀, ?_, ?_⟩
  · rw [heq]
    exact hname
  · rw [heq]
    exact hmust

theorem laidOut_loaded {m : Modules} :
    Loaded (mainKeys build (st.1.layOut lay)) m ↔ Loaded st.1 m := by
  constructor
  · rintro ⟨e, he, hm⟩
    obtain ⟨e₀, he₀, -, hmust⟩ := laidOut_entry he
    exact ⟨e₀, he₀, hmust ▸ hm⟩
  · rintro ⟨e₀, he₀, hm⟩
    have hlt : m.ctorIdx < (mainKeys build (st.1.layOut lay)).length := by
      rw [mainKeys_length, layOut_length]
      exact (List.getElem?_eq_some_iff.mp he₀).1
    have he := List.getElem?_eq_getElem hlt
    obtain ⟨e₁, he₁, -, hmust⟩ := laidOut_entry he
    rw [he₀] at he₁
    cases he₁
    exact ⟨_, he, by rw [hmust]; exact hm⟩

theorem keyOf_layOut (pm : Pmap) (m : Modules) :
    keyOf (pm.layOut lay) m = keyOf pm m := by
  unfold keyOf Pmap.layOut
  rw [List.getElem?_mapIdx]
  cases pm[m.ctorIdx]? <;> rfl

theorem keyOf_laidOut (hinv : ScanInv alloc st) (m : Modules) :
    keyOf (mainKeys build (st.1.layOut lay)) m =
      if m ∈ flist build then keyOf st.1 (leader build) else keyOf st.1 m := by
  have hlen : eEnd ≤ (st.1.layOut lay).length := by
    rw [layOut_length]
    exact hinv.length_ge
  rw [keyOf_mainKeys build hlen, keyOf_layOut, keyOf_layOut]

/-- Sharing a key is being friends, provided every cubicle has a key. -/
theorem laidOut_key_eq_iff (hinv : ScanInv alloc st)
    (hkeys : ∀ m, Loaded st.1 m →
      keyOf (mainKeys build (st.1.layOut lay)) m ≠ 0)
    {a b : Modules} (ha : Loaded st.1 a) (hb : Loaded st.1 b) :
    keyOf (mainKeys build (st.1.layOut lay)) a =
        keyOf (mainKeys build (st.1.layOut lay)) b ↔
      friends build a b = true := by
  have hleader : ∀ {m}, Loaded st.1 m → m ∈ flist build →
      Loaded st.1 (leader build) := by
    intro m hm hmem
    have hne := hkeys m hm
    rw [keyOf_laidOut hinv, if_pos hmem] at hne
    exact loaded_of_key hinv hne
  rw [friends_iff, keyOf_laidOut hinv, keyOf_laidOut hinv]
  by_cases hfa : a ∈ flist build <;> by_cases hfb : b ∈ flist build
  · simp [hfa, hfb]
  · rw [if_pos hfa, if_neg hfb]
    constructor
    · intro h
      have := scan_key_injective hinv (hleader ha hfa) hb h
      exact absurd (this ▸ leader_mem hfa) hfb
    · rintro (rfl | ⟨-, h⟩)
      · exact absurd hfa hfb
      · exact absurd h hfb
  · rw [if_neg hfa, if_pos hfb]
    constructor
    · intro h
      have := scan_key_injective hinv ha (hleader hb hfb) h
      exact absurd (this ▸ leader_mem hfb) hfa
    · rintro (rfl | ⟨h, -⟩)
      · exact absurd hfb hfa
      · exact absurd h hfa
  · rw [if_neg hfa, if_neg hfb]
    constructor
    · intro h
      exact Or.inl (scan_key_injective hinv ha hb h)
    · rintro (rfl | ⟨h, -⟩)
      · rfl
      · exact absurd h hfa

/-- A module's name is found at its enumerator only. -/
theorem laidOut_named (hinv : ScanInv alloc st) {i : ℕ} {e : ProcMap}
    {m : Modules} (he : (mainKeys build (st.1.layOut lay))[i]? = some e)
    (hname : e.name = m.modname) : i = m.ctorIdx := by
  obtain ⟨e₀, he₀, hn, -⟩ := laidOut_entry he
  rw [hname] at hn
  have hne : m.modname ≠ "" := by
    cases m <;> decide
  have hplaced := hinv.placed i e₀ he₀ (hn ▸ hne)
  rw [← hn, getId_modname m] at hplaced
  unfold Modules.id at hplaced
  omega

theorem laidOut_must_named (hinv : ScanInv alloc st) {i : ℕ} {e : ProcMap}
    (he : (mainKeys build (st.1.layOut lay))[i]? = some e) (hm : e.must = true) :
    ∃ m : Modules, e.name = m.modname := by
  obtain ⟨e₀, he₀, hn, hmust⟩ := laidOut_entry he
  have hmem := must_subset_modnames _ ((hinv.flag i e₀ he₀).mp (hmust ▸ hm))
  obtain ⟨m, -, hmn⟩ := List.mem_map.mp hmem
  exact ⟨m, by rw [hn, hmn]⟩

/-- The final `cmp_unlock` goes through only if the platform is loaded, and then
it gives the platform's key back. -/
theorem laidOut_unlock_platform (hinv : ScanInv alloc st) {en en' : Rights}
    (hle : (mainKeys build (st.1.layOut lay)).length ≤ pmapSize)
    (h : cmpUnlock (mainKeys build (st.1.layOut lay))
      (getModuleId (mainKeys build (st.1.layOut lay))
        (some Modules.linuxuplat.modname)) en = .done en') :
    Loaded (mainKeys build (st.1.layOut lay)) .linuxuplat ∧
      en' = Function.update en
        (keyOf (mainKeys build (st.1.layOut lay)) .linuxuplat) true := by
  rcases getModuleId_cases (mainKeys build (st.1.layOut lay))
      Modules.linuxuplat.modname with ⟨hneg, -⟩ | ⟨i, e, hid, he, hname⟩
  · -- the platform is missing: `pmap[-1]`
    rw [hneg] at h
    cases h
  · have hi := laidOut_named hinv he hname
    have hlt := (List.getElem?_eq_some_iff.mp he).1.trans_le hle
    rw [hid, cmpUnlock, Pmap.at_natCast he hlt, Outcome.done_bind] at h
    cases h
    obtain ⟨e₀, he₀, hn, hmust⟩ := laidOut_entry he
    have hflag : e.must = true := by
      rw [hmust, hinv.flag i e₀ he₀, ← hn, hname]
      decide
    subst hi
    refine ⟨⟨e, he, hflag⟩, ?_⟩
    simp [keyOf, he]

end FromScan

/-- **Start-up.** When `main` reaches the platform's entry point, the table
satisfies `Cubicles`, and the enabled cubicle keys are the platform's alone. -/
theorem boot_cubicles {build : Build} {alloc : ℕ → ℤ} (ha : PkeyAlloc alloc)
    {files : List String} {lay : ℕ → Placement} {en en' : Rights} {pm : Pmap}
    (h : boot build alloc files lay en = .done (pm, en')) :
    ∃ T : Cubicles build, T.pmap = pm ∧
      (∀ m, Loaded pm m →
        en' (keyOf pm m) = decide (keyOf pm m = keyOf pm .linuxuplat)) ∧
      (∀ k, ¬ T.cubicleKey k → en' k = en k) := by
  obtain ⟨st, hscan, h⟩ := Outcome.bind_eq_done.mp h
  obtain ⟨en₁, hlock, h⟩ := Outcome.bind_eq_done.mp h
  obtain ⟨en₂, hunlock, h⟩ := Outcome.bind_eq_done.mp h
  cases h
  have hinv := scanModules_inv ha hscan
  set pm := mainKeys build (st.1.layOut lay) with hpm
  have hlen : pm.length = st.1.length := by
    rw [hpm, mainKeys_length, layOut_length]
  have hle : pm.length ≤ pmapSize := hlen ▸ hinv.length_le
  obtain ⟨hoff, hkeep⟩ := lockLoop hle pm.length hlock
  have hnamed : ∀ (i : ℕ) (e : ProcMap) (m : Modules), pm[i]? = some e →
      e.name = m.modname → i = m.ctorIdx :=
    fun i e m he hname => laidOut_named hinv he hname
  have hmustNamed : ∀ (i : ℕ) (e : ProcMap), pm[i]? = some e → e.must = true →
      ∃ m : Modules, e.name = m.modname :=
    fun i e he hm => laidOut_must_named hinv he hm
  have hkey : ∀ m, Loaded pm m → keyOf pm m ≠ 0 ∧ en₁ (keyOf pm m) = false := by
    rintro m ⟨e, he, hm⟩
    have hlt := (List.getElem?_eq_some_iff.mp he).1
    have hboth := hoff _ e hlt he hm
    simpa [keyOf, he] using hboth
  obtain ⟨hplat, hen'⟩ := laidOut_unlock_platform hinv hle hunlock
  refine ⟨⟨pm, hlen ▸ hinv.length_ge, hle, hnamed, hmustNamed,
    fun m hm => (hkey m hm).1, ?_, ?_, hplat⟩, rfl, ?_, ?_⟩
  · intro a b hla hlb
    exact laidOut_key_eq_iff hinv
      (fun m hm => (hkey m (laidOut_loaded.mpr hm)).1)
      (laidOut_loaded.mp hla) (laidOut_loaded.mp hlb)
  · intro i e he hm hno
    rw [hpm, mainKeys_getElem? build _ hno] at he
    obtain ⟨e₀, he₀, -, hpkey, hmust⟩ := layOut_entry he
    rw [hpkey]
    exact hinv.unkeyed i e₀ he₀ (hmust ▸ hm)
  · intro m hm
    rw [hen']
    by_cases heq : keyOf pm m = keyOf pm .linuxuplat
    · rw [heq, Function.update_self]
      simp
    · rw [Function.update_of_ne heq, (hkey m hm).2]
      simp [heq]
  · intro k hk
    have hnot : ∀ (i : ℕ) (e : ProcMap), pm[i]? = some e → e.must = true →
        e.pkey ≠ k := by
      intro i e he hm hek
      obtain ⟨m, hname⟩ := hmustNamed i e he hm
      have hi := hnamed i e m he hname
      subst hi
      exact hk ⟨m, ⟨e, he, hm⟩, by simpa [keyOf, he] using hek⟩
    have hne : k ≠ keyOf pm .linuxuplat := by
      rintro rfl
      exact hk ⟨_, hplat, rfl⟩
    rw [hen', Function.update_of_ne hne]
    exact hkeep k hnot

/-! ## §5  A small system

Five cubicles and one shared library, for the examples of the later files. -/

def sampleFiles : List String :=
  ["app.so", "liblinuxuplat.so", "libukalloc.so", "libvfscore.so", "liblwip.so",
    "libukboot.so", "libnewlibc.so"]

def sampleAlloc (k : ℕ) : ℤ := k + 1

theorem sampleAlloc_pkeyAlloc : PkeyAlloc sampleAlloc := by
  constructor
  · intro k
    right
    unfold sampleAlloc
    omega
  · intro k l h _
    unfold sampleAlloc at h
    omega

/-- The loaded modules have two pages each and no windows. -/
def sampleLayout (i : ℕ) : Placement where
  start := UInt64.ofNat (0x100000 + 0x2000 * i)
  size := if i ∈ [0, 6, 17, 19, 21, 25, 26] then 0x2000 else 0
  ipcTabStack := none
  ipcTabGlobals := none
  ipcTabHeap := none

def sampleBoot (build : Build) (lay : ℕ → Placement) : Outcome (Pmap × Rights) :=
  boot build sampleAlloc sampleFiles lay fun _ => true

def samplePmap (build : Build) (lay : ℕ → Placement) : Pmap :=
  match sampleBoot build lay with
  | .done r => r.1
  | _ => []

def sampleRights (build : Build) (lay : ℕ → Placement) : Rights :=
  match sampleBoot build lay with
  | .done r => r.2
  | _ => fun _ => true

theorem sampleBoot_eq (build : Build) (lay : ℕ → Placement)
    (h : (sampleBoot build lay).isDone = true) :
    sampleBoot build lay = .done (samplePmap build lay, sampleRights build lay) := by
  obtain ⟨r, hr⟩ := Outcome.isDone_iff.mp h
  unfold samplePmap sampleRights
  rw [hr]

theorem sample_cubicles (build : Build) (lay : ℕ → Placement)
    (h : (sampleBoot build lay).isDone = true) :
    ∃ T : Cubicles build, T.pmap = samplePmap build lay := by
  obtain ⟨T, hT, -⟩ := boot_cubicles sampleAlloc_pkeyAlloc (sampleBoot_eq build lay h)
  exact ⟨T, hT⟩

/-- Two of the builds, with the cubicles that the examples are about. -/
theorem sample_starts : ∀ build ∈ [Build.plain, .sqlite false],
    (sampleBoot build sampleLayout).isDone = true := by
  decide +kernel

theorem sample_loaded : ∀ build ∈ [Build.plain, .sqlite false],
    ∀ m ∈ [Modules.app, .ukalloc, .vfscore, .lwip], Loaded (samplePmap build sampleLayout) m := by
  decide +kernel

/-- The default build, with the application and ukalloc in it. -/
theorem sample_plain :
    ∃ T : Cubicles .plain, T.pmap = samplePmap .plain sampleLayout ∧
      Loaded T.pmap .app ∧ Loaded T.pmap .ukalloc := by
  obtain ⟨T, hT⟩ := sample_cubicles .plain sampleLayout (sample_starts _ (by simp))
  refine ⟨T, hT, ?_, ?_⟩
  · rw [hT]
    exact sample_loaded _ (by simp) _ (by simp)
  · rw [hT]
    exact sample_loaded _ (by simp) _ (by simp)

end CubicleOS
