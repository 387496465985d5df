import CubicleOS.Foundation.Pages
import CubicleOS.Monitor.Boot

/-!
# Windows

`should_map`, `should_map_stack` and `should_map_heap` decide whether a caller
may touch an address of a callee, by looking for a window that the callee has
opened for it. The three differ in their shortcuts and in one more thing: the
last two also accept an address less than 4096 bytes above the beginning of a
window, whatever its size.

Every read of `pmap` is recorded, for the properties that speak about them.
-/

namespace CubicleOS

open Foundation

/-! ## §1  The scan of a table -/

/-- `pmap[id]`, recorded. -/
def Pmap.read (pm : Pmap) (id : ℤ) : Traced ℤ ProcMap := .touch id (pm.at id)

/-- `1 << caller`, an `int` that is then converted to the type of the mask. -/
def callerBit (caller : ℤ) : UInt64 :=
  ((1 : Int32) <<< Int32.ofInt caller).toInt64.toUInt64

/-- `ipc->mask & (1 << caller)`. -/
def IpcStruct.openTo (w : IpcStruct) (caller : ℤ) : Bool :=
  decide (w.mask &&& callerBit caller ≠ 0)

/-- The address tests inside the scan: the window itself, and with `slack` the
4096 bytes from its beginning. -/
def IpcStruct.admits (slack : Bool) (w : IpcStruct) (addr : UInt64) : Bool :=
  inBlock w.begin w.size addr || (slack && inBlock w.begin 4096 addr)

/-- The common part of the three functions, from the check of the caller on.
The scan reads the callee's table with the callee's key; taking the key away
again fails for a callee that has none. -/
def scanWindows (pm : Pmap) (table : ProcMap → Option (List IpcStruct))
    (slack : Bool) (caller callee : ℤ) (addr : UInt64) : Traced ℤ Bool :=
  (pm.read caller).bind fun p =>
    if p.must = false then .spin
    else
      (pm.read callee).bind fun q =>
        match table q with
        | none => .spin
        | some ws =>
            if ws.any fun w => w.openTo caller && w.admits slack addr then
              if q.pkey = 0 then .spin else .pure true
            else .pure false

/-- `should_map`, for the image of a module. -/
def shouldMap (pm : Pmap) (caller callee : ℤ) (addr : UInt64) : Traced ℤ Bool :=
  if caller = Modules.vfscore.id ∨ callee = Modules.lwip.id then .pure true
  else scanWindows pm ProcMap.ipcTabGlobals false caller callee addr

/-- `should_map_stack`. -/
def shouldMapStack (pm : Pmap) (caller callee : ℤ) (addr : UInt64) :
    Traced ℤ Bool :=
  if caller = callee then .pure true
  else scanWindows pm ProcMap.ipcTabStack true caller callee addr

/-- `should_map_heap`. -/
def shouldMapHeap (pm : Pmap) (caller callee : ℤ) (addr : UInt64) :
    Traced ℤ Bool :=
  if callee = caller then .pure true
  else
    (pm.read callee).bind fun q =>
      (pm.read caller).bind fun p =>
        if q.pkey = p.pkey then .pure true
        else if callee = Modules.app.id ∧ caller = Modules.linuxuplat.id then
          .pure true
        else scanWindows pm ProcMap.ipcTabHeap true caller callee addr

/-! ## §2  Masks -/

theorem callerBit_eq : ∀ i < eEnd, callerBit i = 1 <<< UInt64.ofNat i := by
  decide

/-- For the id of a cubicle, the mask test looks at the bit of that id. -/
theorem openTo_iff (w : IpcStruct) {i : ℕ} (hi : i < eEnd) :
    w.openTo i = true ↔ w.mask.toNat.testBit i = true := by
  have hlt : i < 26 := hi
  have hand : (w.mask &&& (1 <<< UInt64.ofNat i)).toNat = w.mask.toNat &&& 2 ^ i := by
    have hmod : (UInt64.ofNat i).toNat % 64 = i := by
      rw [UInt64.toNat_ofNat']
      omega
    have hone : UInt64.toNat 1 = 1 := rfl
    rw [UInt64.toNat_and, UInt64.toNat_shiftLeft, hmod, hone, Nat.shiftLeft_eq,
      one_mul]
    congr 1
    apply Nat.mod_eq_of_lt
    exact Nat.pow_lt_pow_right (by omega) (by omega)
  unfold IpcStruct.openTo
  rw [decide_eq_true_eq, callerBit_eq i hi, Ne, ← UInt64.toNat_inj, hand,
    Nat.and_two_pow]
  cases w.mask.toNat.testBit i <;> simp

/-- An entry that is marked as a cubicle is an entry of the table. -/
theorem Pmap.at_must {pm : Pmap} {id : ℤ} {p : ProcMap} (h : pm.at id = .done p)
    (hm : p.must = true) : ∃ i : ℕ, id = i ∧ pm[i]? = some p := by
  unfold Pmap.at at h
  split at h
  · rename_i hid
    refine ⟨id.toNat, by omega, ?_⟩
    have hget := Outcome.done.inj h
    rw [List.getD_eq_getElem?_getD] at hget
    cases hn : pm[id.toNat]? with
    | none =>
        rw [hn] at hget
        rw [← hget] at hm
        cases hm
    | some e =>
        rw [hn] at hget
        exact congrArg some hget
  · cases h

/-- So the mask test is about the caller's bit, for every caller that gets as
far as the scan. -/
theorem Cubicles.openTo_iff {build : Build} (T : Cubicles build) {caller : ℤ}
    {p : ProcMap} (h : T.pmap.at caller = .done p) (hm : p.must = true)
    (w : IpcStruct) :
    w.openTo caller = true ↔ w.mask.toNat.testBit caller.toNat = true := by
  obtain ⟨i, rfl, hi⟩ := Pmap.at_must h hm
  obtain ⟨m, rfl, -⟩ := T.must_at hi hm
  exact CubicleOS.openTo_iff w (Modules.ctorIdx_lt m)

/-! ## §3  What a grant says -/

/-- A scan that grants has found a window. -/
theorem scanWindows_true_iff {pm : Pmap} {table : ProcMap → Option (List IpcStruct)}
    {slack : Bool} {caller callee : ℤ} {addr : UInt64} :
    (scanWindows pm table slack caller callee addr).out = .done true ↔
      ∃ p q ws, pm.at caller = .done p ∧ p.must = true ∧ pm.at callee = .done q ∧
        table q = some ws ∧ q.pkey ≠ 0 ∧
        ∃ w ∈ ws, w.openTo caller = true ∧ w.admits slack addr = true := by
  unfold scanWindows Pmap.read
  rw [Traced.bind_out, Outcome.bind_eq_done]
  constructor
  · rintro ⟨p, hp, h⟩
    split at h
    · cases h
    · rename_i hm
      rw [Traced.bind_out, Outcome.bind_eq_done] at h
      obtain ⟨q, hq, h⟩ := h
      split at h
      · cases h
      · rename_i ws hws
        split at h
        · rename_i hany
          split at h
          · cases h
          · rename_i hkey
            obtain ⟨w, hw, hopen⟩ := List.any_eq_true.mp hany
            rw [Bool.and_eq_true] at hopen
            exact ⟨p, q, ws, hp, by simpa using hm, hq, hws, hkey, w, hw, hopen⟩
        · cases h
  · rintro ⟨p, q, ws, hp, hm, hq, hws, hkey, w, hw, hopen⟩
    refine ⟨p, hp, ?_⟩
    have hany : (ws.any fun w => w.openTo caller && w.admits slack addr) = true :=
      List.any_eq_true.mpr ⟨w, hw, by simp [hopen]⟩
    rw [if_neg (by simp [hm]), Traced.bind_out, Traced.touch_out, hq,
      Outcome.done_bind, hws]
    simp only [hany, if_true, hkey, if_false, Traced.pure_out]

/-! ## §4  Isolation at page granularity -/

/-- Some byte of some window in `ws` that is open for the caller lies on the
page of `a`. -/
def WindowOnPage (ws : List IpcStruct) (caller : ℤ) (a : ℕ) : Prop :=
  ∃ w ∈ ws, w.mask.toNat.testBit caller.toNat = true ∧
    MeetsPage 4096 w.begin.toNat (w.begin.toNat + w.size.toNat) a

/-- The page that a grant of `should_map…` lets the caller have holds a byte
of a window of the callee's `table`. -/
def GrantHasWindow (pm : Pmap) (table : ProcMap → Option (List IpcStruct))
    (caller callee : ℤ) (addr : UInt64) : Prop :=
  ∃ q ws, pm.at callee = .done q ∧ table q = some ws ∧
    WindowOnPage ws caller addr.toNat

/-- Callers and callees that the heap check lets through in any case. -/
def HeapPair (caller callee : ℤ) : Prop :=
  callee = Modules.app.id ∧ caller = Modules.linuxuplat.id

/-- Callers and callees that the check for globals lets through in any
case. -/
def GlobalsPair (caller callee : ℤ) : Prop :=
  caller = Modules.vfscore.id ∨ callee = Modules.lwip.id

/-- Every grant, the two exceptions apart, is mediated by a window on the page
that changes hands. -/
def Isolated (pm : Pmap) (caller callee : ℤ) : Prop :=
  ∀ addr,
    ((shouldMapStack pm caller callee addr).out = .done true →
      GrantHasWindow pm ProcMap.ipcTabStack caller callee addr) ∧
    (¬ HeapPair caller callee →
      (shouldMapHeap pm caller callee addr).out = .done true →
        GrantHasWindow pm ProcMap.ipcTabHeap caller callee addr) ∧
    (¬ GlobalsPair caller callee →
      (shouldMap pm caller callee addr).out = .done true →
        GrantHasWindow pm ProcMap.ipcTabGlobals caller callee addr)

/-- Both pages that the 4096 bytes from the beginning of a window can touch
hold a byte of a window. -/
def SlackCovered (ws : List IpcStruct) (caller : ℤ) : Prop :=
  ∀ w ∈ ws, w.mask.toNat.testBit caller.toNat = true →
    w.begin.toNat + 4096 < 2 ^ 64 →
      WindowOnPage ws caller w.begin.toNat ∧
        WindowOnPage ws caller (w.begin.toNat + 4095)

theorem WindowOnPage.congr {ws : List IpcStruct} {caller : ℤ} {a b : ℕ}
    (hab : pageBase 4096 b = pageBase 4096 a) (h : WindowOnPage ws caller a) :
    WindowOnPage ws caller b := by
  obtain ⟨w, hw, hbit, hm⟩ := h
  exact ⟨w, hw, hbit, (meetsPage_congr hab).mpr hm⟩

/-- An address of a window lies on a page with a byte of it. -/
theorem windowOnPage_of_inBlock {ws : List IpcStruct} {caller : ℤ} {w : IpcStruct}
    {addr : UInt64} (hw : w ∈ ws) (hbit : w.mask.toNat.testBit caller.toNat = true)
    (h : inBlock w.begin w.size addr = true) : WindowOnPage ws caller addr.toNat :=
  ⟨w, hw, hbit, addr.toNat, mem_of_inBlock h, rfl⟩

/-- The slack of a window reaches its two pages and no others. -/
theorem slack_pages {begin addr : UInt64} (h : inBlock begin 4096 addr = true) :
    begin.toNat + 4096 < 2 ^ 64 ∧
      (pageBase 4096 addr.toNat = pageBase 4096 begin.toNat ∨
        pageBase 4096 addr.toNat = pageBase 4096 (begin.toNat + 4095)) := by
  rw [inBlock_iff] at h
  have hsize : (4096 : UInt64).toNat = 4096 := rfl
  have hb := begin.toNat_lt
  rw [hsize] at h
  unfold pageBase
  omega

theorem slack_ends {begin : UInt64} (h : begin.toNat + 4096 < 2 ^ 64) :
    inBlock begin 4096 begin = true ∧ inBlock begin 4096 (begin + 4095) = true ∧
      (begin + 4095).toNat = begin.toNat + 4095 := by
  have hsize : (4096 : UInt64).toNat = 4096 := rfl
  have hlast : (4095 : UInt64).toNat = 4095 := rfl
  have hend : (begin + 4095).toNat = begin.toNat + 4095 := by
    rw [UInt64.toNat_add, hlast]
    omega
  rw [inBlock_iff, inBlock_iff, hend, hsize]
  omega

/-- What the scan with slack grants is covered exactly when the slack is. -/
theorem slackCovered_iff {ws : List IpcStruct} {caller : ℤ}
    (hmask : ∀ w : IpcStruct, w.openTo caller = true ↔
      w.mask.toNat.testBit caller.toNat = true) :
    (∀ addr, (∃ w ∈ ws, w.openTo caller = true ∧ w.admits true addr = true) →
      WindowOnPage ws caller addr.toNat) ↔ SlackCovered ws caller := by
  constructor
  · intro h w hw hbit hroom
    obtain ⟨hfirst, hlast, hend⟩ := slack_ends hroom
    have hopen := (hmask w).mpr hbit
    refine ⟨h w.begin ⟨w, hw, hopen, by simp [IpcStruct.admits, hfirst]⟩, ?_⟩
    rw [← hend]
    exact h (w.begin + 4095) ⟨w, hw, hopen, by simp [IpcStruct.admits, hlast]⟩
  · rintro h addr ⟨w, hw, hopen, hadmit⟩
    have hbit := (hmask w).mp hopen
    unfold IpcStruct.admits at hadmit
    rw [Bool.true_and, Bool.or_eq_true] at hadmit
    rcases hadmit with hin | hin
    · exact windowOnPage_of_inBlock hw hbit hin
    · obtain ⟨hroom, hpage⟩ := slack_pages hin
      obtain ⟨hfirst, hlast⟩ := h w hw hbit hroom
      rcases hpage with hpage | hpage
      · exact hfirst.congr hpage
      · exact hlast.congr hpage

section Isolation

variable {build : Build} (T : Cubicles build) {caller callee : ℤ}

theorem scanWindows_isolated_iff (table : ProcMap → Option (List IpcStruct)) :
    (∀ addr, (scanWindows T.pmap table true caller callee addr).out = .done true →
      GrantHasWindow T.pmap table caller callee addr) ↔
    ∀ p q ws, T.pmap.at caller = .done p → p.must = true →
      T.pmap.at callee = .done q → q.pkey ≠ 0 → table q = some ws →
        SlackCovered ws caller := by
  constructor
  · intro h p q ws hp hm hq hkey hws
    rw [← slackCovered_iff (T.openTo_iff hp hm)]
    intro addr hgrant
    obtain ⟨q', ws', hq', hws', hwin⟩ :=
      h addr (scanWindows_true_iff.mpr ⟨p, q, ws, hp, hm, hq, hws, hkey, hgrant⟩)
    rw [hq] at hq'
    cases hq'
    rw [hws] at hws'
    cases hws'
    exact hwin
  · intro h addr hgrant
    obtain ⟨p, q, ws, hp, hm, hq, hws, hkey, hfound⟩ := scanWindows_true_iff.mp hgrant
    have hcov := h p q ws hp hm hq hkey hws
    exact ⟨q, ws, hq, hws, (slackCovered_iff (T.openTo_iff hp hm)).mpr hcov addr hfound⟩

/-- The scan without slack needs no condition. -/
theorem scanWindows_isolated (table : ProcMap → Option (List IpcStruct))
    {addr : UInt64}
    (h : (scanWindows T.pmap table false caller callee addr).out = .done true) :
    GrantHasWindow T.pmap table caller callee addr := by
  obtain ⟨p, q, ws, hp, hm, hq, hws, -, w, hw, hopen, hadmit⟩ :=
    scanWindows_true_iff.mp h
  refine ⟨q, ws, hq, hws, windowOnPage_of_inBlock hw ((T.openTo_iff hp hm w).mp hopen) ?_⟩
  simpa [IpcStruct.admits] using hadmit

/-- Between cubicles with different keys the heap check is the scan. -/
theorem shouldMapHeap_eq_scan {pm : Pmap} (hne : caller ≠ callee)
    (hkey : ∀ p q, pm.at caller = .done p → pm.at callee = .done q → p.pkey ≠ q.pkey)
    (hpair : ¬ HeapPair caller callee) (addr : UInt64) :
    (shouldMapHeap pm caller callee addr).out = .done true ↔
      (scanWindows pm ProcMap.ipcTabHeap true caller callee addr).out = .done true := by
  unfold HeapPair at hpair
  unfold shouldMapHeap
  rw [if_neg fun h => hne h.symm]
  simp only [Traced.bind_out, Pmap.read, Traced.touch_out, Outcome.bind_eq_done]
  constructor
  · rintro ⟨q, hq, p, hp, h⟩
    rwa [if_neg (hkey p q hp hq).symm, if_neg hpair] at h
  · intro h
    obtain ⟨p, q, ws, hp, -, hq, -⟩ := scanWindows_true_iff.mp h
    refine ⟨q, hq, p, hp, ?_⟩
    rwa [if_neg (hkey p q hp hq).symm, if_neg hpair]

/-- **Isolation by windows, exactly.** Between cubicles with different ids and
keys every grant is mediated by a window on the page that changes hands if,
and only if, the slack of the stack windows and of the heap windows open for
the caller stays on pages that hold a byte of such a window. -/
theorem isolated_iff_slackCovered (hne : caller ≠ callee)
    (hkey : ∀ p q, T.pmap.at caller = .done p → T.pmap.at callee = .done q →
      p.pkey ≠ q.pkey) :
    Isolated T.pmap caller callee ↔
      ∀ p q ws, T.pmap.at caller = .done p → p.must = true →
        T.pmap.at callee = .done q → q.pkey ≠ 0 →
          (q.ipcTabStack = some ws → SlackCovered ws caller) ∧
          (¬ HeapPair caller callee → q.ipcTabHeap = some ws →
            SlackCovered ws caller) := by
  have hstack : ∀ addr, shouldMapStack T.pmap caller callee addr =
      scanWindows T.pmap ProcMap.ipcTabStack true caller callee addr :=
    fun addr => if_neg hne
  constructor
  · intro h p q ws hp hm hq hk
    constructor
    · refine (scanWindows_isolated_iff T ProcMap.ipcTabStack).mp ?_ p q ws hp hm hq hk
      intro addr hgrant
      exact (h addr).1 (by rw [hstack]; exact hgrant)
    · intro hpair
      refine (scanWindows_isolated_iff T ProcMap.ipcTabHeap).mp ?_ p q ws hp hm hq hk
      intro addr hgrant
      exact (h addr).2.1 hpair ((shouldMapHeap_eq_scan hne hkey hpair addr).mpr hgrant)
  · intro h addr
    refine ⟨fun hgrant => ?_, fun hpair hgrant => ?_, fun hpair hgrant => ?_⟩
    · rw [hstack] at hgrant
      refine (scanWindows_isolated_iff T ProcMap.ipcTabStack).mpr ?_ addr hgrant
      exact fun p q ws hp hm hq hk => (h p q ws hp hm hq hk).1
    · rw [shouldMapHeap_eq_scan hne hkey hpair] at hgrant
      refine (scanWindows_isolated_iff T ProcMap.ipcTabHeap).mpr ?_ addr hgrant
      exact fun p q ws hp hm hq hk => (h p q ws hp hm hq hk).2 hpair
    · have hscan : shouldMap T.pmap caller callee addr =
          scanWindows T.pmap ProcMap.ipcTabGlobals false caller callee addr :=
        if_neg hpair
      rw [hscan] at hgrant
      exact scanWindows_isolated T ProcMap.ipcTabGlobals hgrant

end Isolation

/-- vfscore has one heap window, for lwip: `size` bytes from `begin` on. -/
def windowLayout (begin size : UInt64) (i : ℕ) : Placement :=
  { sampleLayout i with
    ipcTabHeap :=
      if i = Modules.vfscore.ctorIdx then some [{ begin, size, mask := 0x20000 }]
      else none }

/-- A window that fills its page keeps lwip and vfscore isolated. -/
theorem isolated_full_page_window :
    ∃ T : Cubicles .plain, T.pmap = samplePmap .plain (windowLayout 0x1000 4096) ∧
      Isolated T.pmap Modules.lwip.id Modules.vfscore.id := by
  obtain ⟨T, hT⟩ := sample_cubicles .plain (windowLayout 0x1000 4096) (by decide +kernel)
  refine ⟨T, hT, (isolated_iff_slackCovered T (by decide) ?_).mpr ?_⟩
  · intro p q hp hq heq
    have hkeys : ((T.pmap.at Modules.lwip.id).bind fun p =>
        (T.pmap.at Modules.vfscore.id).bind fun q =>
          .done (decide (p.pkey = q.pkey))) = .done false := by
      rw [hT]
      decide +kernel
    rw [hp, hq, Outcome.done_bind, Outcome.done_bind, heq] at hkeys
    simp at hkeys
  · intro p q ws _ _ hq _
    have htables : (T.pmap.at Modules.vfscore.id).bind
        (fun q => .done (q.ipcTabStack, q.ipcTabHeap)) =
        .done (none, some [⟨0x1000, 4096, 0x20000⟩]) := by
      rw [hT]
      decide +kernel
    rw [hq, Outcome.done_bind, Outcome.done.injEq, Prod.mk.injEq] at htables
    refine ⟨fun h => ?_, fun _ h => ?_⟩
    · rw [htables.1] at h
      cases h
    · rw [htables.2] at h
      cases h
      intro w hw hbit _
      obtain rfl := List.mem_singleton.mp hw
      exact ⟨⟨_, hw, hbit, (meetsPage_iff (by decide)).mpr (by decide)⟩,
        ⟨_, hw, hbit, (meetsPage_iff (by decide)).mpr (by decide)⟩⟩

/-- Eight bytes in the middle of page 1: the slack reaches into page 2, where
vfscore has opened nothing. -/
theorem slack_grants_page_without_window :
    let pm := samplePmap .plain (windowLayout 0x1800 8)
    (shouldMapHeap pm Modules.lwip.id Modules.vfscore.id 0x2100).out = .done true ∧
      ¬ GrantHasWindow pm ProcMap.ipcTabHeap Modules.lwip.id Modules.vfscore.id 0x2100 ∧
      ¬ Isolated pm Modules.lwip.id Modules.vfscore.id := by
  intro pm
  have hgrant : (shouldMapHeap pm Modules.lwip.id Modules.vfscore.id 0x2100).out =
      .done true := by
    decide +kernel
  have hno : ¬ GrantHasWindow pm ProcMap.ipcTabHeap Modules.lwip.id
      Modules.vfscore.id 0x2100 := by
    rintro ⟨q, ws, hq, hws, w, hw, -, hmeet⟩
    have htable : (pm.at Modules.vfscore.id).bind (fun q => .done q.ipcTabHeap) =
        .done (some [⟨0x1800, 8, 0x20000⟩]) := by
      decide +kernel
    rw [hq, Outcome.done_bind, Outcome.done.injEq, hws, Option.some.injEq] at htable
    rw [htable] at hw
    obtain rfl := List.mem_singleton.mp hw
    rw [meetsPage_iff (by decide)] at hmeet
    exact absurd hmeet (by decide)
  refine ⟨hgrant, hno, fun h => hno ((h 0x2100).2.1 ?_ hgrant)⟩
  unfold HeapPair
  decide

end CubicleOS
