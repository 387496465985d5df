import CubicleOS.Foundation.Machine
import CubicleOS.Foundation.Slots
import CubicleOS.Monitor.Windows

/-!
# Heap window tables

Each cubicle keeps the windows on its heap objects in an array of its own that
the monitor reads, `<LIB>_ipc_tab_heap`, and has a copy of two functions that
write it. The copies fall into three groups. In ramfs, uknetdev, libnginx (for
the application) and the platform both functions scan the whole array. In
vfscore and ukboot the removal scans up to a high-water mark. In lwip an
addition may also land on an entry with the same `begin`.

A ledger of the windows that were added and not removed yet is what the arrays
are for; they are compared with it after every call.
-/

namespace CubicleOS

open Foundation

/-! ## §1  Entries and calls -/

/-- The entry that an addition stores; the mask is an `int` until then. -/
def ipcEntry (begin size : UInt64) (mask : Int32) : IpcStruct :=
  { begin, size, mask := mask.toInt64.toUInt64 }

/-- A free slot: zero from the start, and again after a removal. -/
def ipcNone : IpcStruct := { begin := 0, size := 0, mask := 0 }

/-- `size != 0`. -/
def IpcStruct.inUse (w : IpcStruct) : Bool := decide (w.size ≠ 0)

/-- A call of `<lib>_ipc_add_heap` or of `<lib>_ipc_remove_heap`. -/
inductive IpcCall where
  | add (begin size : UInt64) (mask : Int32)
  | remove (begin : UInt64)
deriving DecidableEq, Repr

/-- What a call is for: the windows that are open after it. -/
def IpcCall.onLedger (ledger : List IpcStruct) : IpcCall → List IpcStruct
  | .add begin size mask =>
      ipcEntry begin size mask :: without IpcStruct.begin begin ledger
  | .remove begin => without IpcStruct.begin begin ledger

def ledgerStep (ledger : List IpcStruct) (c : IpcCall) : Outcome (List IpcStruct) :=
  .done (c.onLedger ledger)

/-- A table and, beside it, the ledger. -/
def withLedger {τ : Type} (step : τ → IpcCall → Outcome τ) (s : τ × List IpcStruct)
    (c : IpcCall) : Outcome (τ × List IpcStruct) :=
  (step s.1 c).bind fun t => .done (t, c.onLedger s.2)

/-- Callers pass objects: `begin` is not null and `size` is positive. A begin
is added once while it is open, and no more than `n` are open. -/
def Legal (n : ℕ) (ledger : List IpcStruct) : IpcCall → Prop
  | .add begin size _ =>
      begin ≠ 0 ∧ size ≠ 0 ∧ (∀ w ∈ ledger, w.begin ≠ begin) ∧ ledger.length < n
  | .remove begin => begin ≠ 0

instance (n : ℕ) (ledger : List IpcStruct) (c : IpcCall) : Decidable (Legal n ledger c) := by
  cases c <;> unfold Legal <;> infer_instance

/-- The table says what the ledger says: the entries in use are the open
windows, each once, and no other entry has a `begin`. -/
def Matches (tab ledger : List IpcStruct) : Prop :=
  Holds IpcStruct.inUse tab ledger ∧ ∀ w ∈ tab, w.begin ≠ 0 → w ∈ ledger

/-- The begin addresses that are open. -/
def openBegins (tab : List IpcStruct) : List UInt64 :=
  (tab.filter IpcStruct.inUse).map IpcStruct.begin

/-- The length of the array is fixed and its free slots are zero. -/
structure Tidy (n : ℕ) (tab : List IpcStruct) : Prop where
  length : tab.length = n
  free : ∀ w ∈ tab, w.inUse = false → w = ipcNone

@[simp] theorem ipcEntry_inUse {begin size : UInt64} {mask : Int32} (h : size ≠ 0) :
    (ipcEntry begin size mask).inUse = true :=
  decide_eq_true h

@[simp] theorem ipcNone_inUse : ipcNone.inUse = false := rfl

theorem not_inUse_eq : (fun w : IpcStruct => !w.inUse) = fun w => decide (w.size = 0) := by
  funext w
  simp [IpcStruct.inUse]

namespace Tidy

variable {n : ℕ} {tab : List IpcStruct}

theorem replicate (n : ℕ) : Tidy n (List.replicate n ipcNone) where
  length := List.length_replicate
  free := fun _ hw _ => List.eq_of_mem_replicate hw

theorem set (h : Tidy n tab) {x : IpcStruct} (hx : x.inUse = false → x = ipcNone) (i : ℕ) :
    Tidy n (tab.set i x) where
  length := List.length_set.trans h.length
  free := by
    intro w hw
    rcases List.mem_or_eq_of_mem_set hw with hw | rfl
    · exact h.free w hw
    · exact hx

/-- An entry with a `begin` is in use. -/
theorem inUse_of_begin (h : Tidy n tab) {w : IpcStruct} (hw : w ∈ tab)
    (hb : w.begin ≠ 0) : w.inUse = true := by
  by_contra hfree
  rw [h.free w hw (by simpa using hfree)] at hb
  exact hb rfl

theorem matches_iff (h : Tidy n tab) {ledger : List IpcStruct} :
    Matches tab ledger ↔ Holds IpcStruct.inUse tab ledger := by
  refine ⟨And.left, fun hholds => ⟨hholds, fun w hw hb => ?_⟩⟩
  exact hholds.mem_iff.mpr ⟨hw, h.inUse_of_begin hw hb⟩

end Tidy

/-- The ledger never has two windows of one `begin`. -/
theorem onLedger_nodup {ledger : List IpcStruct} (h : (ledger.map IpcStruct.begin).Nodup)
    (c : IpcCall) : ((c.onLedger ledger).map IpcStruct.begin).Nodup := by
  cases c with
  | add begin size mask =>
      refine List.nodup_cons.mpr ⟨fun hmem => ?_, nodup_without h⟩
      obtain ⟨w, hw, hb⟩ := List.mem_map.mp hmem
      exact (mem_without.mp hw).2 hb
  | remove begin => exact nodup_without h

theorem onLedger_add {ledger : List IpcStruct} {begin size : UInt64} {mask : Int32}
    (h : ∀ w ∈ ledger, w.begin ≠ begin) :
    (IpcCall.add begin size mask).onLedger ledger = ipcEntry begin size mask :: ledger := by
  show _ :: without IpcStruct.begin begin ledger = _
  rw [without_of_not_mem h]

theorem withLedger_eq_done {τ : Type} {step : τ → IpcCall → Outcome τ}
    {s s' : τ × List IpcStruct} {c : IpcCall} :
    withLedger step s c = .done s' ↔ step s.1 c = .done s'.1 ∧ s'.2 = c.onLedger s.2 := by
  obtain ⟨t', g'⟩ := s'
  unfold withLedger
  rw [Outcome.bind_eq_done]
  constructor
  · rintro ⟨t, ht, heq⟩
    cases heq
    exact ⟨ht, rfl⟩
  · rintro ⟨ht, rfl⟩
    exact ⟨t', ht, rfl⟩

/-! ## §2  Additions and removals on an array -/

/-- `<lib>_ipc_add_heap`: the first free slot. A full array stops the
cubicle. -/
def ipcAddHeap (tab : List IpcStruct) (begin size : UInt64) (mask : Int32) :
    Outcome (List IpcStruct) :=
  match tab.findIdx? fun w => decide (w.size = 0) with
  | some i => .done (tab.set i (ipcEntry begin size mask))
  | none => .spin

/-- `<lib>_ipc_remove_heap`: the first entry with that `begin`. The copies
differ in what they do when there is `none`. -/
def ipcRemoveHeap (missing : List IpcStruct → Outcome (List IpcStruct))
    (tab : List IpcStruct) (begin : UInt64) : Outcome (List IpcStruct) :=
  match tab.findIdx? fun w => decide (w.begin = begin) with
  | some i => .done (tab.set i ipcNone)
  | none => missing tab

section Array

variable {n : ℕ} {tab ledger : List IpcStruct}

/-- With room left, an addition finds a free slot. -/
theorem ipcAddHeap_done (ht : Tidy n tab) (hm : Holds IpcStruct.inUse tab ledger)
    (hroom : ledger.length < n) (begin : UInt64) {size : UInt64} (hsize : size ≠ 0)
    (mask : Int32) :
    ∃ tab', ipcAddHeap tab begin size mask = .done tab' ∧ Tidy n tab' ∧
      Holds IpcStruct.inUse tab' (ipcEntry begin size mask :: ledger) := by
  obtain ⟨i, hi⟩ := hm.exists_unused (ht.length ▸ hroom)
  obtain ⟨⟨w, hw, hfree⟩, -⟩ := findIdx?_eq_some_iff_getElem?.mp hi
  have hused : (ipcEntry begin size mask).inUse = true := ipcEntry_inUse hsize
  refine ⟨tab.set i (ipcEntry begin size mask), ?_, ht.set (by simp [hused]) i, ?_⟩
  · unfold ipcAddHeap
    rw [← not_inUse_eq, hi]
  · exact hm.fill hw (by simpa using hfree) hused

/-- Clearing an entry with the right `begin` closes that window. -/
theorem clear_begin (ht : Tidy n tab) (hm : Holds IpcStruct.inUse tab ledger)
    (hnd : (ledger.map IpcStruct.begin).Nodup) {i : ℕ} {w : IpcStruct}
    (hw : tab[i]? = some w) (hb : w.begin ≠ 0) :
    Tidy n (tab.set i ipcNone) ∧
      Holds IpcStruct.inUse (tab.set i ipcNone) (without IpcStruct.begin w.begin ledger) := by
  have hused := ht.inUse_of_begin (List.mem_of_getElem? hw) hb
  exact ⟨ht.set (fun _ => rfl) i, perm_without hnd (hm.clear hw hused rfl)⟩

/-- The scan of a removal finds an entry that is there. -/
theorem scan_begin {begin : UInt64} (h : ∃ w ∈ tab, w.begin = begin) :
    ∃ i w, tab.findIdx? (fun w => decide (w.begin = begin)) = some i ∧ tab[i]? = some w ∧
      w.begin = begin := by
  cases hscan : tab.findIdx? fun w => decide (w.begin = begin) with
  | none =>
      obtain ⟨w, hw, hwb⟩ := h
      have hne := List.findIdx?_eq_none_iff.mp hscan w hw
      exact absurd hwb (of_decide_eq_false hne)
  | some i =>
      obtain ⟨⟨w, hw, hwb⟩, -⟩ := findIdx?_eq_some_iff_getElem?.mp hscan
      exact ⟨i, w, rfl, hw, of_decide_eq_true hwb⟩

/-- A removal closes an open window. -/
theorem ipcRemoveHeap_open (missing : List IpcStruct → Outcome (List IpcStruct))
    (ht : Tidy n tab) (hm : Holds IpcStruct.inUse tab ledger)
    (hnd : (ledger.map IpcStruct.begin).Nodup) {begin : UInt64} (hb : begin ≠ 0)
    (hopen : ∃ w ∈ ledger, w.begin = begin) :
    ∃ tab', ipcRemoveHeap missing tab begin = .done tab' ∧ Tidy n tab' ∧
      Holds IpcStruct.inUse tab' (without IpcStruct.begin begin ledger) := by
  obtain ⟨w₀, hw₀, hwb₀⟩ := hopen
  obtain ⟨i, w, hscan, hw, rfl⟩ := scan_begin ⟨w₀, (hm.mem_iff.mp hw₀).1, hwb₀⟩
  unfold ipcRemoveHeap
  rw [hscan]
  exact ⟨_, rfl, clear_begin ht hm hnd hw hb⟩

/-- A removal of anything else finds nothing. -/
theorem ipcRemoveHeap_closed (missing : List IpcStruct → Outcome (List IpcStruct))
    (ht : Tidy n tab) (hm : Holds IpcStruct.inUse tab ledger) {begin : UInt64}
    (hb : begin ≠ 0) (hclosed : ∀ w ∈ ledger, w.begin ≠ begin) :
    ipcRemoveHeap missing tab begin = missing tab := by
  have hscan : tab.findIdx? (fun w => decide (w.begin = begin)) = none := by
    rw [List.findIdx?_eq_none_iff]
    intro w hw
    rw [decide_eq_false_iff_not]
    rintro rfl
    exact hclosed w (hm.mem_iff.mpr ⟨hw, ht.inUse_of_begin hw hb⟩) rfl
  unfold ipcRemoveHeap
  rw [hscan]

/-- With room left, an addition opens its begin. -/
theorem openBegins_add (ht : Tidy n tab) (hroom : (openBegins tab).length < n)
    (begin : UInt64) {size : UInt64} (hsize : size ≠ 0) (mask : Int32) :
    ∃ tab', ipcAddHeap tab begin size mask = .done tab' ∧ Tidy n tab' ∧
      (openBegins tab').Perm (begin :: openBegins tab) := by
  have hheld : Holds IpcStruct.inUse tab (tab.filter IpcStruct.inUse) := List.Perm.refl _
  rw [openBegins, List.length_map] at hroom
  obtain ⟨tab', hdone, ht', hm'⟩ := ipcAddHeap_done ht hheld hroom begin hsize mask
  exact ⟨tab', hdone, ht', List.Perm.map IpcStruct.begin hm'⟩

/-- A removal of an open begin closes it once. -/
theorem openBegins_remove (missing : List IpcStruct → Outcome (List IpcStruct))
    (ht : Tidy n tab) {begin : UInt64} (hb : begin ≠ 0) (hopen : begin ∈ openBegins tab) :
    ∃ tab', ipcRemoveHeap missing tab begin = .done tab' ∧ Tidy n tab' ∧
      (begin :: openBegins tab').Perm (openBegins tab) := by
  have hheld : Holds IpcStruct.inUse tab (tab.filter IpcStruct.inUse) := List.Perm.refl _
  obtain ⟨w₀, hw₀, hwb₀⟩ := List.mem_map.mp hopen
  obtain ⟨i, w, hscan, hw, rfl⟩ := scan_begin ⟨w₀, (List.mem_filter.mp hw₀).1, hwb₀⟩
  unfold ipcRemoveHeap
  rw [hscan]
  have hused := ht.inUse_of_begin (List.mem_of_getElem? hw) hb
  refine ⟨_, rfl, ht.set (fun _ => rfl) i, ?_⟩
  exact List.Perm.map IpcStruct.begin (hheld.clear hw hused rfl)

theorem Tidy.ipcAddHeap (ht : Tidy n tab) {tab' : List IpcStruct} {begin size : UInt64}
    {mask : Int32} (hsize : size ≠ 0)
    (h : CubicleOS.ipcAddHeap tab begin size mask = .done tab') : Tidy n tab' := by
  unfold CubicleOS.ipcAddHeap at h
  split at h
  · cases h
    exact ht.set (by simp [ipcEntry_inUse hsize]) _
  · cases h

theorem Tidy.ipcRemoveHeap (ht : Tidy n tab) {tab' : List IpcStruct} {begin : UInt64}
    {missing : List IpcStruct → Outcome (List IpcStruct)}
    (hmissing : missing tab = .done tab' → tab' = tab)
    (h : CubicleOS.ipcRemoveHeap missing tab begin = .done tab') : Tidy n tab' := by
  unfold CubicleOS.ipcRemoveHeap at h
  split at h
  · cases h
    exact ht.set (fun _ => rfl) _
  · rw [hmissing h]
    exact ht

end Array

/-- Legality is about the ledger alone. -/
theorem along_withLedger {τ : Type} {step : τ → IpcCall → Outcome τ}
    {P : List IpcStruct → IpcCall → Prop} :
    ∀ {cs : List IpcCall} {s : τ × List IpcStruct}, Along ledgerStep P s.2 cs →
      Along (withLedger step) (fun s c => P s.2 c) s cs
  | [], _, _ => trivial
  | c :: cs, s, h => by
      refine ⟨h.1, fun s' hs' => along_withLedger ?_⟩
      rw [(withLedger_eq_done.mp hs').2]
      exact h.2 _ rfl

/-! ## §3  Tables that are scanned whole -/

def ramfsIpcAddHeap : List IpcStruct → UInt64 → UInt64 → Int32 → Outcome (List IpcStruct) :=
  ipcAddHeap

def ramfsIpcRemoveHeap : List IpcStruct → UInt64 → Outcome (List IpcStruct) :=
  ipcRemoveHeap fun _ => .spin

def uknetdevIpcAddHeap :
    List IpcStruct → UInt64 → UInt64 → Int32 → Outcome (List IpcStruct) :=
  ipcAddHeap

def uknetdevIpcRemoveHeap : List IpcStruct → UInt64 → Outcome (List IpcStruct) :=
  ipcRemoveHeap fun _ => .spin

def appIpcAddHeap : List IpcStruct → UInt64 → UInt64 → Int32 → Outcome (List IpcStruct) :=
  ipcAddHeap

/-- The `while(1)` of the siblings is commented out here. -/
def appIpcRemoveHeap : List IpcStruct → UInt64 → Outcome (List IpcStruct) :=
  ipcRemoveHeap .done

def linuxuplatIpcAddHeap :
    List IpcStruct → UInt64 → UInt64 → Int32 → Outcome (List IpcStruct) :=
  ipcAddHeap

def linuxuplatIpcRemoveHeap : List IpcStruct → UInt64 → Outcome (List IpcStruct) :=
  ipcRemoveHeap fun _ => .spin

/-- The four copies. -/
inductive PlainTable where
  | ramfs | uknetdev | app | linuxuplat
deriving DecidableEq, Repr

namespace PlainTable

/-- `HEAP_MAX`. -/
def heapMax : PlainTable → ℕ
  | ramfs => 100
  | uknetdev => 100
  | app => 100
  | linuxuplat => 100

/-- The cubicle whose table it is. -/
def owner : PlainTable → Modules
  | ramfs => .ramfs
  | uknetdev => .uknetdev
  | app => .app
  | linuxuplat => .linuxuplat

def init (lib : PlainTable) : List IpcStruct := List.replicate lib.heapMax ipcNone

def step : PlainTable → List IpcStruct → IpcCall → Outcome (List IpcStruct)
  | ramfs, tab, .add begin size mask => ramfsIpcAddHeap tab begin size mask
  | ramfs, tab, .remove begin => ramfsIpcRemoveHeap tab begin
  | uknetdev, tab, .add begin size mask => uknetdevIpcAddHeap tab begin size mask
  | uknetdev, tab, .remove begin => uknetdevIpcRemoveHeap tab begin
  | app, tab, .add begin size mask => appIpcAddHeap tab begin size mask
  | app, tab, .remove begin => appIpcRemoveHeap tab begin
  | linuxuplat, tab, .add begin size mask => linuxuplatIpcAddHeap tab begin size mask
  | linuxuplat, tab, .remove begin => linuxuplatIpcRemoveHeap tab begin

/-- What a removal does when there is nothing to remove. -/
def missing : PlainTable → List IpcStruct → Outcome (List IpcStruct)
  | app => .done
  | _ => fun _ => .spin

/-- A removal of a window that is not open, in a copy that does not return
from it. -/
def Stuck (lib : PlainTable) (s : List IpcStruct × List IpcStruct) (c : IpcCall) : Prop :=
  lib ≠ app ∧ ∃ begin, c = .remove begin ∧ ∀ w ∈ s.2, w.begin ≠ begin

theorem step_add (lib : PlainTable) (tab : List IpcStruct) (begin size : UInt64)
    (mask : Int32) : lib.step tab (.add begin size mask) = ipcAddHeap tab begin size mask := by
  cases lib <;> rfl

theorem step_remove (lib : PlainTable) (tab : List IpcStruct) (begin : UInt64) :
    lib.step tab (.remove begin) = ipcRemoveHeap lib.missing tab begin := by
  cases lib <;> rfl

theorem missing_eq_done {lib : PlainTable} {tab tab' : List IpcStruct}
    (h : lib.missing tab = .done tab') : tab' = tab := by
  cases lib <;> cases h
  rfl

end PlainTable

/-- The heap check on the table that `owner` has registered grants an address
exactly when an open window with the caller's bit admits it: the address lies
below the end of the window or less than 4096 bytes above its beginning, with
sums that wrap as C's do. Without wrapping this is the larger of the two. -/
def MonitorAgrees (owner : Modules) (tab ledger : List IpcStruct) : Prop :=
  ∀ (build : Build) (T : Cubicles build) (caller : ℤ) (p q : ProcMap),
    T.pmap.at caller = .done p → p.must = true → T.pmap.at owner.id = .done q →
    q.must = true → q.ipcTabHeap = some tab → caller ≠ owner.id → p.pkey ≠ q.pkey →
    ¬ HeapPair caller owner.id → ∀ addr : UInt64,
      ((shouldMapHeap T.pmap caller owner.id addr).out = .done true ↔
        ∃ w ∈ ledger, w.mask.toNat.testBit caller.toNat = true ∧ w.begin ≤ addr ∧
          (addr < w.begin + w.size ∨ addr < w.begin + 4096)) ∧
      ((∀ w ∈ ledger, w.begin.toNat + max w.size.toNat 4096 < 2 ^ 64) →
        ((shouldMapHeap T.pmap caller owner.id addr).out = .done true ↔
          ∃ w ∈ ledger, w.mask.toNat.testBit caller.toNat = true ∧
            w.begin.toNat ≤ addr.toNat ∧
            addr.toNat < w.begin.toNat + max w.size.toNat 4096))

theorem admits_iff {w : IpcStruct} {addr : UInt64} :
    w.admits true addr = true ↔
      w.begin ≤ addr ∧ (addr < w.begin + w.size ∨ addr < w.begin + 4096) := by
  rw [and_or_left]
  simp [IpcStruct.admits, inBlock]

theorem admits_of_no_wrap {w : IpcStruct} {addr : UInt64}
    (h : w.begin.toNat + max w.size.toNat 4096 < 2 ^ 64) :
    w.begin ≤ addr ∧ (addr < w.begin + w.size ∨ addr < w.begin + 4096) ↔
      w.begin.toNat ≤ addr.toNat ∧ addr.toNat < w.begin.toNat + max w.size.toNat 4096 := by
  have h4096 : (4096 : UInt64).toNat = 4096 := rfl
  rw [UInt64.le_iff_toNat_le, UInt64.lt_iff_toNat_lt, UInt64.lt_iff_toNat_lt,
    UInt64.toNat_add, UInt64.toNat_add, h4096, Nat.mod_eq_of_lt (by omega),
    Nat.mod_eq_of_lt (by omega)]
  omega

/-- A window that is open for somebody is in use. -/
theorem Tidy.inUse_of_openTo {n : ℕ} {tab : List IpcStruct} (ht : Tidy n tab)
    {w : IpcStruct} (hw : w ∈ tab) {caller : ℤ} (h : w.openTo caller = true) :
    w.inUse = true := by
  by_contra hfree
  rw [ht.free w hw (by simpa using hfree)] at h
  simp [IpcStruct.openTo, ipcNone] at h

/-- The monitor reads the ledger off a table that holds it. -/
theorem monitorAgrees_of_holds {n : ℕ} {tab ledger : List IpcStruct} (ht : Tidy n tab)
    (hm : Holds IpcStruct.inUse tab ledger) (owner : Modules) :
    MonitorAgrees owner tab ledger := by
  intro build T caller p q hp hpm hq hqm htab hne hkey hpair addr
  have hscan : (shouldMapHeap T.pmap caller owner.id addr).out = .done true ↔
      ∃ w ∈ tab, w.openTo caller = true ∧ w.admits true addr = true := by
    rw [shouldMapHeap_eq_scan hne _ hpair, scanWindows_true_iff]
    · constructor
      · rintro ⟨p', q', ws, -, -, hq', hws, -, hfound⟩
        rw [hq] at hq'
        cases hq'
        rw [htab] at hws
        cases hws
        exact hfound
      · intro hfound
        refine ⟨p, q, tab, hp, hpm, hq, htab, ?_, hfound⟩
        obtain ⟨i, hi, hqi⟩ := Pmap.at_must hq hqm
        obtain ⟨m, rfl, hload⟩ := T.must_at hqi hqm
        have hk := T.key_ne_zero m hload
        simpa [keyOf, hqi] using hk
    · intro p' q' hp' hq'
      rw [hp] at hp'
      rw [hq] at hq'
      cases hp'
      cases hq'
      exact hkey
  have hledger : (shouldMapHeap T.pmap caller owner.id addr).out = .done true ↔
      ∃ w ∈ ledger, w.mask.toNat.testBit caller.toNat = true ∧ w.begin ≤ addr ∧
        (addr < w.begin + w.size ∨ addr < w.begin + 4096) := by
    rw [hscan]
    constructor
    · rintro ⟨w, hw, hopen, hadmit⟩
      exact ⟨w, hm.mem_iff.mpr ⟨hw, ht.inUse_of_openTo hw hopen⟩,
        (T.openTo_iff hp hpm w).mp hopen, admits_iff.mp hadmit⟩
    · rintro ⟨w, hw, hbit, hadmit⟩
      exact ⟨w, (hm.mem_iff.mp hw).1, (T.openTo_iff hp hpm w).mpr hbit,
        admits_iff.mpr hadmit⟩
  refine ⟨hledger, fun hwrap => hledger.trans ?_⟩
  constructor
  · rintro ⟨w, hw, hbit, h⟩
    exact ⟨w, hw, hbit, (admits_of_no_wrap (hwrap w hw)).mp h⟩
  · rintro ⟨w, hw, hbit, h⟩
    exact ⟨w, hw, hbit, (admits_of_no_wrap (hwrap w hw)).mpr h⟩

/-- What every call keeps, whatever the table says. -/
def TidyPair (n : ℕ) (s : List IpcStruct × List IpcStruct) : Prop :=
  Tidy n s.1 ∧ (s.2.map IpcStruct.begin).Nodup

/-- **Windows and monitor agree.** After every call the entries in use are the
windows that were added and not removed, and the monitor grants accordingly.
Every call returns, except the removal of a window that is not open. -/
theorem window_tables_agree (lib : PlainTable) {cs : List IpcCall}
    (hlegal : Along ledgerStep (Legal lib.heapMax) [] cs) :
    Always (withLedger lib.step) lib.Stuck
      (fun s => Matches s.1 s.2 ∧ MonitorAgrees lib.owner s.1 s.2) (lib.init, []) cs := by
  have hagree : ∀ {s : List IpcStruct × List IpcStruct}, Tidy lib.heapMax s.1 →
      Holds IpcStruct.inUse s.1 s.2 → Matches s.1 s.2 ∧ MonitorAgrees lib.owner s.1 s.2 :=
    fun ht hm => ⟨ht.matches_iff.mpr hm, monitorAgrees_of_holds ht hm lib.owner⟩
  refine (always_iff_along (J := TidyPair lib.heapMax)
    (L := fun s c => Legal lib.heapMax s.2 c) (G := fun _ _ => True) ?_ ?_ ?_ ?_ ?_).mpr
    (Along.of_forall_mem fun _ _ _ => trivial)
  · rintro ⟨tab, ledger⟩ c ⟨tab', ledger'⟩ ⟨ht, hnd⟩ hL hstep
    obtain ⟨hdone, rfl⟩ := withLedger_eq_done.mp hstep
    refine ⟨?_, onLedger_nodup hnd c⟩
    cases c with
    | add begin size mask =>
        rw [lib.step_add] at hdone
        exact ht.ipcAddHeap hL.2.1 hdone
    | remove begin =>
        rw [lib.step_remove] at hdone
        exact ht.ipcRemoveHeap PlainTable.missing_eq_done hdone
  · rintro ⟨tab, ledger⟩ c ⟨ht, hnd⟩ ⟨⟨hm, -⟩, -⟩ hL
    refine iff_true_intro ?_
    cases c with
    | add begin size mask =>
        obtain ⟨-, hsize, hnew, hroom⟩ := hL
        obtain ⟨tab', hdone, ht', hm'⟩ := ipcAddHeap_done ht hm hroom begin hsize mask
        refine Or.inr ⟨(tab', _), withLedger_eq_done.mpr ⟨?_, rfl⟩, hagree ht' ?_⟩
        · rw [lib.step_add]
          exact hdone
        · show Holds _ tab' ((IpcCall.add begin size mask).onLedger ledger)
          rw [onLedger_add hnew]
          exact hm'
    | remove begin =>
        by_cases hopen : ∃ w ∈ ledger, w.begin = begin
        · obtain ⟨tab', hdone, ht', hm'⟩ :=
            ipcRemoveHeap_open lib.missing ht hm hnd hL hopen
          refine Or.inr ⟨(tab', _), withLedger_eq_done.mpr ⟨?_, rfl⟩, hagree ht' hm'⟩
          rw [lib.step_remove]
          exact hdone
        · have hclosed : ∀ w ∈ ledger, w.begin ≠ begin := by
            intro w hw hb
            exact hopen ⟨w, hw, hb⟩
          have hrun : lib.step tab (.remove begin) = lib.missing tab := by
            rw [lib.step_remove]
            exact ipcRemoveHeap_closed lib.missing ht hm hL hclosed
          by_cases happ : lib = .app
          · subst happ
            refine Or.inr ⟨(tab, _), withLedger_eq_done.mpr ⟨hrun, rfl⟩, hagree ht ?_⟩
            show Holds _ tab (without IpcStruct.begin begin ledger)
            rw [without_of_not_mem hclosed]
            exact hm
          · refine Or.inl ⟨⟨happ, begin, rfl, hclosed⟩, ?_⟩
            have hspin : lib.missing tab = .spin := by
              cases lib <;> first | rfl | exact absurd rfl happ
            unfold withLedger
            rw [hrun, hspin]
            rfl
  · exact ⟨Tidy.replicate _, List.nodup_nil⟩
  · exact hagree (Tidy.replicate _) (Holds.replicate rfl _)
  · exact along_withLedger hlegal

/-- Two windows of the application, one of them closed again. -/
theorem app_windows_agree :
    Along ledgerStep (Legal 100) [] [.add 0x1000 8 0x20000, .add 0x3000 64 0x4,
        .remove 0x1000] ∧
      Always (withLedger PlainTable.app.step) PlainTable.app.Stuck
        (fun s => Matches s.1 s.2 ∧ MonitorAgrees .app s.1 s.2) (PlainTable.app.init, [])
        [.add 0x1000 8 0x20000, .add 0x3000 64 0x4, .remove 0x1000] := by
  have hlegal : Along ledgerStep (Legal 100) [] [.add 0x1000 8 0x20000, .add 0x3000 64 0x4,
      .remove 0x1000] := by
    decide
  exact ⟨hlegal, window_tables_agree .app hlegal⟩

/-- The sample system with `tab` as the heap table of `owner`. -/
def tableLayout (owner : Modules) (tab : List IpcStruct) (i : ℕ) : Placement :=
  { sampleLayout i with ipcTabHeap := if i = owner.ctorIdx then some tab else none }

/-- The application opens a window at the top of the address space for lwip.
The address lies in `[begin, begin + 4096)`, but `begin + 4096` wraps, and the
monitor refuses it. -/
theorem wrapping_window_refused :
    let w := ipcEntry 0xfffffffffffff800 8 0x20000
    let tab := w :: List.replicate 99 ipcNone
    let pm := samplePmap .plain (tableLayout .app tab)
    Legal 100 [] (.add 0xfffffffffffff800 8 0x20000) ∧
      appIpcAddHeap PlainTable.app.init 0xfffffffffffff800 8 0x20000 = .done tab ∧
      ((pm.at Modules.lwip.id).bind fun p => (pm.at Modules.app.id).bind fun q =>
        .done (p.must, q.must, decide (q.ipcTabHeap = some tab), decide (p.pkey = q.pkey))) =
          .done (true, true, true, false) ∧
      Modules.lwip.id ≠ Modules.app.id ∧ ¬ HeapPair Modules.lwip.id Modules.app.id ∧
      w.mask.toNat.testBit Modules.lwip.id.toNat = true ∧
      w.begin.toNat ≤ (0xfffffffffffff900 : UInt64).toNat ∧
      (0xfffffffffffff900 : UInt64).toNat < w.begin.toNat + max w.size.toNat 4096 ∧
      (shouldMapHeap pm Modules.lwip.id Modules.app.id 0xfffffffffffff900).out =
        .done false := by
  intro w tab pm
  refine ⟨by decide, by decide +kernel, by decide +kernel, by decide, ?_, by decide +kernel, by decide, by decide,
    by decide +kernel⟩
  unfold HeapPair
  decide

/-! ## §4  Tables with a mark -/

/-- `<LIB>_ipc_tab_heap` with `<LIB>_ipc_tab_heap_nr_real`, the highest slot
that was ever filled. -/
structure MarkedTable where
  tab : List IpcStruct
  nrReal : ℕ
deriving DecidableEq, Repr

/-- `ipcAddHeap`, and the mark is moved up to the slot, not past it. -/
def MarkedTable.ipcAddHeap (t : MarkedTable) (begin size : UInt64) (mask : Int32) :
    Outcome MarkedTable :=
  match t.tab.findIdx? fun w => decide (w.size = 0) with
  | some i =>
      .done
        { tab := t.tab.set i (ipcEntry begin size mask)
          nrReal := if i ≥ t.nrReal then i else t.nrReal }
  | none => .spin

/-- The removal scans the slots below the mark. When there is nothing to remove
it prints a line. -/
def MarkedTable.ipcRemoveHeap (t : MarkedTable) (begin : UInt64) : Outcome MarkedTable :=
  match (t.tab.take t.nrReal).findIdx? fun w => decide (w.begin = begin) with
  | some i => .done { t with tab := t.tab.set i ipcNone }
  | none => .done t

def vfsIpcAddHeap : MarkedTable → UInt64 → UInt64 → Int32 → Outcome MarkedTable :=
  MarkedTable.ipcAddHeap

def vfsIpcRemoveHeap : MarkedTable → UInt64 → Outcome MarkedTable :=
  MarkedTable.ipcRemoveHeap

def ukbootIpcAddHeap : MarkedTable → UInt64 → UInt64 → Int32 → Outcome MarkedTable :=
  MarkedTable.ipcAddHeap

def ukbootIpcRemoveHeap : MarkedTable → UInt64 → Outcome MarkedTable :=
  MarkedTable.ipcRemoveHeap

/-- The two copies. -/
inductive MarkedLib where
  | vfscore | ukboot
deriving DecidableEq, Repr

namespace MarkedLib

/-- `HEAP_MAX`. -/
def heapMax : MarkedLib → ℕ
  | vfscore => 101
  | ukboot => 10

def init (lib : MarkedLib) : MarkedTable where
  tab := List.replicate lib.heapMax ipcNone
  nrReal := 0

def step : MarkedLib → MarkedTable → IpcCall → Outcome MarkedTable
  | vfscore, t, .add begin size mask => vfsIpcAddHeap t begin size mask
  | vfscore, t, .remove begin => vfsIpcRemoveHeap t begin
  | ukboot, t, .add begin size mask => ukbootIpcAddHeap t begin size mask
  | ukboot, t, .remove begin => ukbootIpcRemoveHeap t begin

theorem step_add (lib : MarkedLib) (t : MarkedTable) (begin size : UInt64) (mask : Int32) :
    lib.step t (.add begin size mask) = t.ipcAddHeap begin size mask := by
  cases lib <;> rfl

theorem step_remove (lib : MarkedLib) (t : MarkedTable) (begin : UInt64) :
    lib.step t (.remove begin) = t.ipcRemoveHeap begin := by
  cases lib <;> rfl

end MarkedLib

/-- The removal does not name the window in the slot at the mark. -/
def MarkedTable.Reaches (t : MarkedTable) : IpcCall → Prop
  | .add _ _ _ => True
  | .remove begin => ∀ w, t.tab[t.nrReal]? = some w → w.begin ≠ begin

/-- What every call keeps, whatever the table says. -/
structure MarkedTidy (n : ℕ) (t : MarkedTable) (ledger : List IpcStruct) : Prop where
  tidy : Tidy n t.tab
  nodup : (ledger.map IpcStruct.begin).Nodup
  mark : ∀ (i : ℕ) (w : IpcStruct), t.tab[i]? = some w → w.inUse = true → i ≤ t.nrReal

section Marked

variable {n : ℕ} {t : MarkedTable} {ledger : List IpcStruct}

theorem MarkedTidy.add (h : MarkedTidy n t ledger) {t' : MarkedTable}
    {begin size : UInt64} {mask : Int32} (hsize : size ≠ 0)
    (hdone : t.ipcAddHeap begin size mask = .done t') :
    MarkedTidy n t' ((IpcCall.add begin size mask).onLedger ledger) := by
  unfold MarkedTable.ipcAddHeap at hdone
  split at hdone
  · rename_i k _
    cases hdone
    refine ⟨h.tidy.set (by simp [ipcEntry_inUse hsize]) k, onLedger_nodup h.nodup _, ?_⟩
    intro i w hi hw
    show i ≤ if k ≥ t.nrReal then k else t.nrReal
    by_cases hik : i = k
    · split <;> omega
    · have hold := h.mark i w (by rwa [List.getElem?_set_ne (Ne.symm hik)] at hi) hw
      split <;> omega
  · cases hdone

theorem MarkedTidy.remove (h : MarkedTidy n t ledger) {t' : MarkedTable}
    {begin : UInt64} (hdone : t.ipcRemoveHeap begin = .done t') :
    MarkedTidy n t' ((IpcCall.remove begin).onLedger ledger) := by
  unfold MarkedTable.ipcRemoveHeap at hdone
  split at hdone
  · rename_i k _
    cases hdone
    refine ⟨h.tidy.set (fun _ => rfl) k, onLedger_nodup h.nodup _, ?_⟩
    intro i w hi hw
    by_cases hik : i = k
    · subst hik
      -- a cleared slot is not in use
      have hnone : w = ipcNone := by
        rw [List.getElem?_set_self'] at hi
        obtain ⟨-, -, rfl⟩ := Option.map_eq_some_iff.mp hi
        rfl
      rw [hnone] at hw
      cases hw
    · exact h.mark i w (by rwa [List.getElem?_set_ne (Ne.symm hik)] at hi) hw
  · cases hdone
    exact ⟨h.tidy, onLedger_nodup h.nodup _, h.mark⟩

/-- The array is written as in the plain tables. -/
theorem MarkedTable.ipcAddHeap_done {tab' : List IpcStruct} {begin size : UInt64}
    {mask : Int32} (h : CubicleOS.ipcAddHeap t.tab begin size mask = .done tab') :
    ∃ k, t.ipcAddHeap begin size mask = .done ⟨tab', k⟩ := by
  unfold CubicleOS.ipcAddHeap at h
  unfold MarkedTable.ipcAddHeap
  split at h
  · cases h
    exact ⟨_, rfl⟩
  · cases h

/-- A removal below the mark, or of nothing, does what it is for. -/
theorem MarkedTable.remove_reached (h : MarkedTidy n t ledger)
    (hm : Holds IpcStruct.inUse t.tab ledger) {begin : UInt64} (hb : begin ≠ 0)
    (hreach : t.Reaches (.remove begin)) :
    ∃ t', t.ipcRemoveHeap begin = .done t' ∧
      Holds IpcStruct.inUse t'.tab (without IpcStruct.begin begin ledger) := by
  unfold MarkedTable.ipcRemoveHeap
  cases hscan : (t.tab.take t.nrReal).findIdx? fun w => decide (w.begin = begin) with
  | some i =>
      obtain ⟨-, w, hw, hwb⟩ := findIdx?_take_some hscan
      obtain rfl : w.begin = begin := by simpa using hwb
      exact ⟨_, rfl, (clear_begin h.tidy hm h.nodup hw hb).2⟩
  | none =>
      refine ⟨t, rfl, ?_⟩
      have hbelow := findIdx?_take_none.mp hscan
      rw [without_of_not_mem]
      · exact hm
      · intro w hw hwb
        obtain ⟨hmem, hused⟩ := hm.mem_iff.mp hw
        obtain ⟨i, hi⟩ := List.mem_iff_getElem?.mp hmem
        rcases (h.mark i w hi hused).lt_or_eq with hlt | heq
        · exact absurd hwb (by simpa using hbelow i hlt w hi)
        · exact hreach w (heq ▸ hi) hwb

/-- The window in the slot at the mark stays. -/
theorem MarkedTable.remove_at_mark (h : MarkedTidy n t ledger)
    (hm : Holds IpcStruct.inUse t.tab ledger) {w : IpcStruct} (hb : w.begin ≠ 0)
    (hw : t.tab[t.nrReal]? = some w) : t.ipcRemoveHeap w.begin = .done t := by
  unfold MarkedTable.ipcRemoveHeap
  have hnone : (t.tab.take t.nrReal).findIdx? (fun v => decide (v.begin = w.begin)) =
      none := by
    rw [findIdx?_take_none]
    intro i hi v hv
    rw [decide_eq_false_iff_not]
    intro heq
    have hused := h.tidy.inUse_of_begin (List.mem_of_getElem? hw) hb
    have hvused := h.tidy.inUse_of_begin (List.mem_of_getElem? hv) (heq ▸ hb)
    have hidx := hm.index_eq h.nodup ipcNone_inUse hv hvused hw hused heq.symm
    omega
  rw [hnone]

end Marked

/-- **Closing what was opened, exactly.** In vfscore and ukboot the entries in
use are the open windows after every call if, and only if, no removal names the
window in the slot at the mark. -/
theorem marked_tables_close_iff (lib : MarkedLib) {cs : List IpcCall}
    (hlegal : Along ledgerStep (Legal lib.heapMax) [] cs) :
    Always (withLedger lib.step) (fun _ _ => False) (fun s => Matches s.1.tab s.2)
        (lib.init, []) cs ↔
      Along (withLedger lib.step) (fun s c => s.1.Reaches c) (lib.init, []) cs := by
  refine always_iff_along (J := fun s => MarkedTidy lib.heapMax s.1 s.2)
    (L := fun s c => Legal lib.heapMax s.2 c) ?_ ?_ ?_ ?_ ?_
  · rintro ⟨t, ledger⟩ c ⟨t', ledger'⟩ hJ hL hstep
    obtain ⟨hdone, rfl⟩ := withLedger_eq_done.mp hstep
    cases c with
    | add begin size mask =>
        rw [lib.step_add] at hdone
        exact hJ.add hL.2.1 hdone
    | remove begin =>
        rw [lib.step_remove] at hdone
        exact hJ.remove hdone
  · rintro ⟨t, ledger⟩ c hJ ⟨hm, -⟩ hL
    simp only [false_and, false_or]
    cases c with
    | add begin size mask =>
        refine iff_of_true ?_ trivial
        obtain ⟨-, hsize, hnew, hroom⟩ := hL
        obtain ⟨tab', hadd, ht', hm'⟩ := ipcAddHeap_done hJ.tidy hm hroom begin hsize mask
        obtain ⟨k, hdone⟩ := MarkedTable.ipcAddHeap_done hadd
        refine ⟨(⟨tab', k⟩, _), withLedger_eq_done.mpr ⟨?_, rfl⟩, ht'.matches_iff.mpr ?_⟩
        · rw [lib.step_add]
          exact hdone
        · show Holds _ tab' ((IpcCall.add begin size mask).onLedger ledger)
          rw [onLedger_add hnew]
          exact hm'
    | remove begin =>
        have hb : begin ≠ 0 := hL
        by_cases hreach : t.Reaches (.remove begin)
        · refine iff_of_true ?_ hreach
          obtain ⟨t', hdone, hm'⟩ := MarkedTable.remove_reached hJ hm hb hreach
          refine ⟨(t', _), withLedger_eq_done.mpr ⟨?_, rfl⟩, ?_⟩
          · rw [lib.step_remove]
            exact hdone
          · exact (hJ.remove hdone).tidy.matches_iff.mpr hm'
        · refine iff_of_false ?_ hreach
          unfold MarkedTable.Reaches at hreach
          push Not at hreach
          obtain ⟨w, hw, rfl⟩ := hreach
          rintro ⟨⟨t', ledger'⟩, hstep, hm'⟩
          obtain ⟨hdone, rfl⟩ := withLedger_eq_done.mp hstep
          obtain rfl : t = t' := by
            rw [lib.step_remove, MarkedTable.remove_at_mark hJ hm hb hw] at hdone
            exact Outcome.done.inj hdone
          -- the entry is left although its window was closed
          have hleft := hm'.2 w (List.mem_of_getElem? hw) hb
          exact (mem_without.mp hleft).2 rfl
  · refine ⟨Tidy.replicate _, List.nodup_nil, fun i w hi hw => ?_⟩
    rw [List.eq_of_mem_replicate (List.mem_of_getElem? hi)] at hw
    cases hw
  · exact (Tidy.replicate _).matches_iff.mpr (Holds.replicate rfl _)
  · exact along_withLedger hlegal

/-- A window of vfscore that is not in the highest slot is closed. -/
theorem vfscore_closes_lower_window :
    Always (withLedger MarkedLib.vfscore.step) (fun _ _ => False)
      (fun s => Matches s.1.tab s.2) (MarkedLib.vfscore.init, [])
      [.add 0x1000 8 0x4, .add 0x3000 64 0x4, .remove 0x1000] := by
  refine (marked_tables_close_iff .vfscore (by decide)).mpr ?_
  refine .cons trivial rfl (.cons trivial rfl (.cons ?_ rfl trivial))
  intro w hw
  cases hw
  decide

/-- The first window of vfscore gets slot 0 and the mark is 0: its removal scans
nothing, and the monitor still matches the entry. -/
theorem vfscore_keeps_removed_window :
    Along ledgerStep (Legal 101) [] [.add 0x1000 8 0x4, .remove 0x1000] ∧
      (runs (withLedger MarkedLib.vfscore.step) (MarkedLib.vfscore.init, [])
        [.add 0x1000 8 0x4, .remove 0x1000]).bind (fun s => .done (s.1.tab[0]?, s.2)) =
          .done (some (ipcEntry 0x1000 8 0x4), []) ∧
      ¬ Always (withLedger MarkedLib.vfscore.step) (fun _ _ => False)
        (fun s => Matches s.1.tab s.2) (MarkedLib.vfscore.init, [])
        [.add 0x1000 8 0x4, .remove 0x1000] := by
  refine ⟨by decide, by decide +kernel, ?_⟩
  rintro ⟨-, ⟨h, -⟩ | ⟨s₁, h₁, -, ⟨h, -⟩ | ⟨s₂, h₂, h⟩⟩⟩
  · exact h
  · exact h
  · cases h₁
    cases h₂
    have hleft := h.2 (ipcEntry 0x1000 8 0x4) (by decide +kernel) (by decide)
    cases hleft

/-! ## §5  The table of lwip -/

/-- `lwip_ipc_add_heap`: the first slot that is free or has the same `begin`. -/
def lwipIpcAddHeap (tab : List IpcStruct) (begin size : UInt64) (mask : Int32) :
    Outcome (List IpcStruct) :=
  match tab.findIdx? fun w => decide (w.size = 0) || decide (w.begin = begin) with
  | some i => .done (tab.set i (ipcEntry begin size mask))
  | none => .spin

def lwipIpcRemoveHeap : List IpcStruct → UInt64 → Outcome (List IpcStruct) :=
  ipcRemoveHeap fun _ => .spin

/-- `HEAP_MAX`. -/
def lwipHeapMax : ℕ := 100

def lwipInit : List IpcStruct := List.replicate lwipHeapMax ipcNone

def lwipStep (tab : List IpcStruct) : IpcCall → Outcome (List IpcStruct)
  | .add begin size mask => lwipIpcAddHeap tab begin size mask
  | .remove begin => lwipIpcRemoveHeap tab begin

/-- As `Legal`, but an open `begin` may be added again. -/
def LegalAgain (n : ℕ) (ledger : List IpcStruct) : IpcCall → Prop
  | .add begin size _ =>
      begin ≠ 0 ∧ size ≠ 0 ∧ ((∃ w ∈ ledger, w.begin = begin) ∨ ledger.length < n)
  | .remove begin => begin ≠ 0

instance (n : ℕ) (ledger : List IpcStruct) (c : IpcCall) :
    Decidable (LegalAgain n ledger c) := by
  cases c <;> unfold LegalAgain <;> infer_instance

/-- A removal of a window that is not open. -/
def NotOpen (s : List IpcStruct × List IpcStruct) (c : IpcCall) : Prop :=
  ∃ begin, c = .remove begin ∧ ∀ w ∈ s.2, w.begin ≠ begin

/-- No free slot comes before the entry with the `begin` that is added. -/
def NoFreeBefore (tab : List IpcStruct) : IpcCall → Prop
  | .add begin _ _ => ∀ (i j : ℕ) (w v : IpcStruct), tab[i]? = some w → w.size = 0 →
      tab[j]? = some v → v.begin = begin → j ≤ i
  | .remove _ => True

section Lwip

variable {n : ℕ} {tab ledger : List IpcStruct} {begin : UInt64}

/-- The slot that an addition has landed on. -/
theorem lwipIpcAddHeap_done {tab' : List IpcStruct} {size : UInt64} {mask : Int32}
    (h : lwipIpcAddHeap tab begin size mask = .done tab') :
    ∃ i w, tab' = tab.set i (ipcEntry begin size mask) ∧ tab[i]? = some w ∧
      (w.size = 0 ∨ w.begin = begin) ∧
      ∀ j < i, ∀ v, tab[j]? = some v → v.size ≠ 0 ∧ v.begin ≠ begin := by
  unfold lwipIpcAddHeap at h
  split at h
  · rename_i i hscan
    cases h
    obtain ⟨⟨w, hw, hpass⟩, hbefore⟩ := findIdx?_eq_some_iff_getElem?.mp hscan
    refine ⟨i, w, rfl, hw, by simpa using hpass, fun j hj v hv => ?_⟩
    simpa using hbefore j hj v hv
  · cases h

theorem Tidy.lwipIpcAddHeap (ht : Tidy n tab) {size : UInt64} (hsize : size ≠ 0) {mask : Int32}
    {tab' : List IpcStruct} (h : lwipIpcAddHeap tab begin size mask = .done tab') :
    Tidy n tab' := by
  obtain ⟨i, w, rfl, -⟩ := lwipIpcAddHeap_done h
  exact ht.set (by simp [ipcEntry_inUse hsize]) i

/-- With room left, or on an open window, an addition finds a slot. -/
theorem lwipIpcAddHeap_returns (ht : Tidy n tab) (hm : Holds IpcStruct.inUse tab ledger)
    (hslot : (∃ w ∈ ledger, w.begin = begin) ∨ ledger.length < n) (size : UInt64)
    (mask : Int32) : ∃ tab', lwipIpcAddHeap tab begin size mask = .done tab' := by
  unfold lwipIpcAddHeap
  cases hscan : tab.findIdx? fun w => decide (w.size = 0) || decide (w.begin = begin) with
  | some i => exact ⟨_, rfl⟩
  | none =>
      have hall := List.findIdx?_eq_none_iff.mp hscan
      rcases hslot with ⟨w, hw, hwb⟩ | hroom
      · have hno := hall w (hm.mem_iff.mp hw).1
        simp [hwb] at hno
      · obtain ⟨i, hi⟩ := hm.exists_unused (ht.length ▸ hroom)
        obtain ⟨⟨w, hw, hfree⟩, -⟩ := findIdx?_eq_some_iff_getElem?.mp hi
        have hno := hall w (List.mem_of_getElem? hw)
        simp [IpcStruct.inUse] at hfree
        simp [hfree] at hno

/-- One addition: the table says what the ledger says exactly when the slot
that was found is not a free one before the entry. -/
theorem lwipIpcAddHeap_iff (ht : Tidy n tab) (hm : Holds IpcStruct.inUse tab ledger)
    (hnd : (ledger.map IpcStruct.begin).Nodup) (hb : begin ≠ 0) {size : UInt64}
    (hsize : size ≠ 0)
    (hslot : (∃ w ∈ ledger, w.begin = begin) ∨ ledger.length < n) (mask : Int32) :
    ∃ tab', lwipIpcAddHeap tab begin size mask = .done tab' ∧ Tidy n tab' ∧
      (Holds IpcStruct.inUse tab' ((IpcCall.add begin size mask).onLedger ledger) ↔
        NoFreeBefore tab (.add begin size mask)) := by
  obtain ⟨tab', hdone⟩ := lwipIpcAddHeap_returns ht hm hslot size mask
  refine ⟨tab', hdone, ht.lwipIpcAddHeap hsize hdone, ?_⟩
  obtain ⟨i, w, rfl, hi, hpass, hbefore⟩ := lwipIpcAddHeap_done hdone
  have hused : (ipcEntry begin size mask).inUse = true := ipcEntry_inUse hsize
  have hentry : ∀ {k : ℕ} {v : IpcStruct}, tab[k]? = some v → v.begin = begin →
      v.inUse = true := by
    rintro k v hk rfl
    exact ht.inUse_of_begin (List.mem_of_getElem? hk) hb
  by_cases hwb : w.begin = begin
  · -- the entry itself: it is closed and filled again
    refine iff_of_true ?_ ?_
    · obtain ⟨-, hclear⟩ := clear_begin ht hm hnd hi (hwb ▸ hb)
      have hlt : i < tab.length := (List.getElem?_eq_some_iff.mp hi).1
      have hfill := hclear.fill (List.getElem?_set_self hlt) ipcNone_inUse hused
      rw [List.set_set, hwb] at hfill
      exact hfill
    · intro k j v u hk hfree hj hub
      have hidx := hm.index_eq hnd ipcNone_inUse hi (hentry hi hwb) hj (hentry hj hub)
        (hub.trans hwb.symm)
      by_contra hlt
      exact (hbefore k (by omega) v hk).1 hfree
  · have hfree : w.size = 0 := hpass.resolve_right hwb
    have hwfree : w.inUse = false := by simp [IpcStruct.inUse, hfree]
    by_cases hopen : ∃ v ∈ ledger, v.begin = begin
    · obtain ⟨v, hv, hvb⟩ := hopen
      obtain ⟨j, hj⟩ := List.mem_iff_getElem?.mp (hm.mem_iff.mp hv).1
      have hij : i < j := by
        rcases lt_trichotomy i j with h | h | h
        · exact h
        · subst h
          rw [hi] at hj
          cases hj
          exact absurd hvb hwb
        · exact absurd hvb (hbefore j h v hj).2
      refine iff_of_false ?_ ?_
      · -- two entries with one `begin`
        intro hm'
        have hlt : i < tab.length := (List.getElem?_eq_some_iff.mp hi).1
        have hj' : (tab.set i (ipcEntry begin size mask))[j]? = some v := by
          rw [List.getElem?_set_ne hij.ne, hj]
        have hidx := hm'.index_eq (onLedger_nodup hnd _) ipcNone_inUse
          (List.getElem?_set_self hlt) hused hj' (hentry hj hvb) hvb
        omega
      · intro h
        have hle := h i j w v hi hfree hj hvb
        omega
    · have hnew : ∀ v ∈ ledger, v.begin ≠ begin := by
        intro v hv hvb
        exact hopen ⟨v, hv, hvb⟩
      refine iff_of_true ?_ ?_
      · rw [onLedger_add hnew]
        exact hm.fill hi hwfree hused
      · intro k j v u _ _ hj hub
        exact absurd hub
          (hnew u (hm.mem_iff.mpr ⟨List.mem_of_getElem? hj, hentry hj hub⟩))

/-- An addition on a free slot opens one more window, one on an entry of the same
`begin` none. -/
theorem openBegins_set {size : UInt64} (hsize : size ≠ 0) (mask : Int32) {i : ℕ}
    {w : IpcStruct} (hi : tab[i]? = some w) (hw : w.size = 0 ∨ w.begin = begin) :
    (openBegins (tab.set i (ipcEntry begin size mask))).Perm
      (if w.size = 0 then begin :: openBegins tab else openBegins tab) := by
  have hheld : Holds IpcStruct.inUse tab (tab.filter IpcStruct.inUse) := List.Perm.refl _
  have hused : (ipcEntry begin size mask).inUse = true := ipcEntry_inUse hsize
  by_cases hfree : w.size = 0
  · rw [if_pos hfree]
    have hwfree : w.inUse = false := by simp [IpcStruct.inUse, hfree]
    exact List.Perm.map IpcStruct.begin (hheld.fill hi hwfree hused)
  · rw [if_neg hfree]
    have hwb : w.begin = begin := hw.resolve_left hfree
    have hwused : w.inUse = true := by simp [IpcStruct.inUse, hfree]
    -- the entry is taken out and put back
    have hclear := List.Perm.map IpcStruct.begin (hheld.clear hi hwused ipcNone_inUse)
    have hlt : i < tab.length := (List.getElem?_eq_some_iff.mp hi).1
    have hheld' : Holds IpcStruct.inUse (tab.set i ipcNone)
      ((tab.set i ipcNone).filter IpcStruct.inUse) := List.Perm.refl _
    have hfill := hheld'.fill (List.getElem?_set_self hlt) ipcNone_inUse hused
    rw [List.set_set] at hfill
    have hfill' := List.Perm.map IpcStruct.begin hfill
    rw [List.map_cons, hwb] at hclear
    exact hfill'.trans hclear

theorem mem_openBegins_of_getElem? (ht : Tidy n tab) (hb : begin ≠ 0) {i : ℕ} {w : IpcStruct}
    (hi : tab[i]? = some w) (hwb : w.begin = begin) : begin ∈ openBegins tab := by
  have hmem := List.mem_of_getElem? hi
  refine List.mem_map.mpr ⟨w, List.mem_filter.mpr ⟨hmem, ?_⟩, hwb⟩
  exact ht.inUse_of_begin hmem (hwb ▸ hb)

theorem lwipIpcAddHeap_opens {size : UInt64} (hsize : size ≠ 0) {mask : Int32}
    {tab' : List IpcStruct} (h : lwipIpcAddHeap tab begin size mask = .done tab') :
    begin ∈ openBegins tab' := by
  obtain ⟨i, w, rfl, hi, -⟩ := lwipIpcAddHeap_done h
  have hlt : i < tab.length := (List.getElem?_eq_some_iff.mp hi).1
  have hentry : ipcEntry begin size mask ∈ tab.set i (ipcEntry begin size mask) :=
    List.mem_of_getElem? (List.getElem?_set_self hlt)
  exact List.mem_map.mpr ⟨_, List.mem_filter.mpr ⟨hentry, ipcEntry_inUse hsize⟩, rfl⟩

/-- Two entries with one `begin`. -/
theorem two_le_count_openBegins (ht : Tidy n tab) (hb : begin ≠ 0) {i j : ℕ}
    {w v : IpcStruct} (hi : tab[i]? = some w) (hwb : w.begin = begin) (hj : tab[j]? = some v)
    (hvb : v.begin = begin) (hne : i ≠ j) : 2 ≤ (openBegins tab).count begin := by
  have hheld : Holds IpcStruct.inUse tab (tab.filter IpcStruct.inUse) := List.Perm.refl _
  have hused := ht.inUse_of_begin (List.mem_of_getElem? hi) (hwb ▸ hb)
  have hclear := List.Perm.map IpcStruct.begin (hheld.clear hi hused ipcNone_inUse)
  rw [List.map_cons, hwb] at hclear
  have hj' : (tab.set i ipcNone)[j]? = some v := by rw [List.getElem?_set_ne hne, hj]
  have hmem : begin ∈ openBegins (tab.set i ipcNone) :=
    mem_openBegins_of_getElem? (ht.set (fun _ => rfl) i) hb hj' hvb
  have hpos : 0 < (openBegins (tab.set i ipcNone)).count begin := List.count_pos_iff.mpr hmem
  have hcount := hclear.count_eq begin
  rw [List.count_cons_self] at hcount
  change (openBegins (tab.set i ipcNone)).count begin + 1 = (openBegins tab).count begin at hcount
  omega

/-- A window that is added and then removed is closed exactly when there was no
entry for it before, or a single one with no free slot in front of it. -/
theorem lwip_add_remove_iff (ht : Tidy n tab) (hb : begin ≠ 0) {size : UInt64}
    (hsize : size ≠ 0) {mask : Int32} {tab₁ tab₂ : List IpcStruct}
    (hadd : lwipIpcAddHeap tab begin size mask = .done tab₁)
    (hremove : lwipIpcRemoveHeap tab₁ begin = .done tab₂) :
    begin ∉ openBegins tab₂ ↔
      (openBegins tab).count begin ≤ 1 ∧ NoFreeBefore tab (.add begin size mask) := by
  have ht₁ := ht.lwipIpcAddHeap hsize hadd
  have hopen := lwipIpcAddHeap_opens hsize hadd
  obtain ⟨i, w, rfl, hi, hpass, hbefore⟩ := lwipIpcAddHeap_done hadd
  have hperm := openBegins_set hsize mask hi hpass
  obtain ⟨tab', hdone, -, hclosed⟩ := openBegins_remove (fun _ => .spin) ht₁ hb hopen
  rw [lwipIpcRemoveHeap, hdone] at hremove
  cases hremove
  have hcount := hclosed.count_eq begin
  rw [List.count_cons_self, hperm.count_eq begin] at hcount
  rw [← List.count_eq_zero]
  by_cases hfree : w.size = 0
  · rw [if_pos hfree, List.count_cons_self] at hcount
    have heq : (openBegins tab₂).count begin = (openBegins tab).count begin := by omega
    rw [heq]
    constructor
    · intro hzero
      refine ⟨by omega, fun k j v u hk hvfree hj hub => ?_⟩
      have hmem := mem_openBegins_of_getElem? ht hb hj hub
      exact absurd hmem (List.count_eq_zero.mp hzero)
    · rintro ⟨-, hno⟩
      rw [List.count_eq_zero]
      intro hmem
      obtain ⟨u, hu, hub⟩ := List.mem_map.mp hmem
      obtain ⟨j, hj⟩ := List.mem_iff_getElem?.mp (List.mem_filter.mp hu).1
      have hle := hno i j w u hi hfree hj hub
      -- the slot that was found is the entry's, which is in use
      rcases Nat.lt_or_eq_of_le hle with hlt | rfl
      · exact (hbefore j hlt u hj).2 hub
      · rw [hi] at hj
        cases hj
        have hused := (List.mem_filter.mp hu).2
        simp [IpcStruct.inUse, hfree] at hused
  · have hwb : w.begin = begin := hpass.resolve_left hfree
    rw [if_neg hfree] at hcount
    constructor
    · intro hzero
      refine ⟨by omega, fun k j v u hk hvfree hj hub => ?_⟩
      by_contra hlt
      by_cases hij : i = j
      · subst hij
        exact (hbefore k (by omega) v hk).1 hvfree
      · have htwo := two_le_count_openBegins ht hb hi hwb hj hub hij
        omega
    · rintro ⟨hone, -⟩
      omega

end Lwip

/-- **One entry per begin, exactly.** In lwip the entries in use are the open
windows, each with the size and mask of its latest addition, after every call
if, and only if, no window is added again while a slot before its entry is
free. -/
theorem lwip_table_iff {cs : List IpcCall}
    (hlegal : Along ledgerStep (LegalAgain lwipHeapMax) [] cs) :
    Always (withLedger lwipStep) NotOpen (fun s => Matches s.1 s.2) (lwipInit, []) cs ↔
      Along (withLedger lwipStep) (fun s c => NoFreeBefore s.1 c) (lwipInit, []) cs := by
  refine always_iff_along (J := TidyPair lwipHeapMax)
    (L := fun s c => LegalAgain lwipHeapMax s.2 c) ?_ ?_ ?_ ?_ ?_
  · rintro ⟨tab, ledger⟩ c ⟨tab', ledger'⟩ ⟨ht, hnd⟩ hL hstep
    obtain ⟨hdone, rfl⟩ := withLedger_eq_done.mp hstep
    refine ⟨?_, onLedger_nodup hnd c⟩
    cases c with
    | add begin size mask =>
        exact ht.lwipIpcAddHeap hL.2.1 hdone
    | remove begin =>
        change ipcRemoveHeap (fun _ => .spin) tab begin = .done tab' at hdone
        exact ht.ipcRemoveHeap (fun h => by cases h) hdone
  · rintro ⟨tab, ledger⟩ c ⟨ht, hnd⟩ ⟨hm, -⟩ hL
    cases c with
    | add begin size mask =>
        obtain ⟨hb, hsize, hslot⟩ := hL
        obtain ⟨tab', hdone, ht', hiff⟩ := lwipIpcAddHeap_iff ht hm hnd hb hsize hslot mask
        refine Iff.trans ⟨?_, ?_⟩ hiff
        · rintro (⟨⟨b, hb, -⟩, -⟩ | ⟨⟨tab'', ledger'⟩, hstep, hm'⟩)
          · cases hb
          · obtain ⟨hdone', rfl⟩ := withLedger_eq_done.mp hstep
            change lwipIpcAddHeap tab begin size mask = .done tab'' at hdone'
            rw [hdone] at hdone'
            cases hdone'
            exact hm'.1
        · intro hm'
          exact Or.inr ⟨(tab', _), withLedger_eq_done.mpr ⟨hdone, rfl⟩,
            ht'.matches_iff.mpr hm'⟩
    | remove begin =>
        refine iff_of_true ?_ trivial
        by_cases hopen : ∃ w ∈ ledger, w.begin = begin
        · obtain ⟨tab', hdone, ht', hm'⟩ :=
            ipcRemoveHeap_open (fun _ => .spin) ht hm hnd hL hopen
          exact Or.inr ⟨(tab', _), withLedger_eq_done.mpr ⟨hdone, rfl⟩,
            ht'.matches_iff.mpr hm'⟩
        · have hclosed : ∀ w ∈ ledger, w.begin ≠ begin := by
            intro w hw hb
            exact hopen ⟨w, hw, hb⟩
          refine Or.inl ⟨⟨begin, rfl, hclosed⟩, ?_⟩
          have hspin : lwipStep tab (.remove begin) = .spin :=
            ipcRemoveHeap_closed (fun _ => .spin) ht hm hL hclosed
          unfold withLedger
          rw [hspin]
          rfl
  · exact ⟨Tidy.replicate _, List.nodup_nil⟩
  · exact (Tidy.replicate _).matches_iff.mpr (Holds.replicate rfl _)
  · exact along_withLedger hlegal

/-- A socket's window is added again with another mask, then removed. -/
theorem lwip_window_added_again :
    Always (withLedger lwipStep) NotOpen (fun s => Matches s.1 s.2) (lwipInit, [])
      [.add 0x1000 8 0x4, .add 0x1000 8 0x200000, .remove 0x1000] := by
  refine (lwip_table_iff (by decide)).mpr ?_
  refine .cons ?_ rfl (.cons ?_ rfl (.cons trivial rfl trivial))
  · rintro i j w v - - hj hvb
    rw [List.eq_of_mem_replicate (List.mem_of_getElem? hj)] at hvb
    exact absurd hvb (by decide)
  · rintro i j w v - - hj hvb
    -- the only entry is in slot 0
    rcases j with - | j
    · omega
    · have hnone : v = ipcNone := List.eq_of_mem_replicate (n := 99)
        (List.mem_of_getElem? hj)
      rw [hnone] at hvb
      exact absurd hvb (by decide)

/-- The window of a slot further down is added again after slot 0 was freed:
there are two entries, and the removal leaves one. -/
theorem lwip_second_entry_survives :
    Along ledgerStep (LegalAgain 100) [] [.add 0x1000 8 0x4, .add 0x3000 8 0x4,
        .remove 0x1000, .add 0x3000 8 0x4, .remove 0x3000] ∧
      (runs (withLedger lwipStep) (lwipInit, []) [.add 0x1000 8 0x4, .add 0x3000 8 0x4,
        .remove 0x1000, .add 0x3000 8 0x4]).bind (fun s => .done (s.1.filter IpcStruct.inUse)) =
          .done [ipcEntry 0x3000 8 0x4, ipcEntry 0x3000 8 0x4] ∧
      (runs (withLedger lwipStep) (lwipInit, []) [.add 0x1000 8 0x4, .add 0x3000 8 0x4,
        .remove 0x1000, .add 0x3000 8 0x4, .remove 0x3000]).bind
          (fun s => .done (s.1.filter IpcStruct.inUse, s.2)) =
          .done ([ipcEntry 0x3000 8 0x4], []) := by
  exact ⟨by decide, by decide +kernel, by decide +kernel⟩

end CubicleOS
