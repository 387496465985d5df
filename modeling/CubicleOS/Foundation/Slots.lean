import CubicleOS.Foundation.Outcome

/-!
# Tables of slots

A table is a list of slots, some of them in use. Programs write the first slot
that passes a test: one test finds a place for a new entry, another finds the
entry to clear. What the table stands for is the collection of its used
entries; `Holds` compares it with a ledger, up to order, and the rules below
say what writing one slot does to both.
-/

namespace Foundation

universe u v

variable {α : Type u} {κ : Type v}

/-! ## Scans -/

/-- A scan stops at the first slot that passes the test. -/
theorem findIdx?_eq_some_iff_getElem? {p : α → Bool} {tab : List α} {i : ℕ} :
    tab.findIdx? p = some i ↔
      (∃ e, tab[i]? = some e ∧ p e = true) ∧
        ∀ j < i, ∀ e, tab[j]? = some e → p e = false := by
  rw [List.findIdx?_eq_some_iff_getElem]
  constructor
  · rintro ⟨hi, hp, hbefore⟩
    refine ⟨⟨tab[i], List.getElem?_eq_getElem hi, hp⟩, fun j hj e he => ?_⟩
    obtain ⟨hj', rfl⟩ := List.getElem?_eq_some_iff.mp he
    exact Bool.eq_false_iff.mpr (hbefore j hj)
  · rintro ⟨⟨e, he, hp⟩, hbefore⟩
    obtain ⟨hi, rfl⟩ := List.getElem?_eq_some_iff.mp he
    refine ⟨hi, hp, fun j hj => ?_⟩
    have hfalse := hbefore j hj _ (List.getElem?_eq_getElem (hj.trans hi))
    exact Bool.eq_false_iff.mp hfalse

/-- A scan finds nothing exactly when no slot passes. -/
theorem findIdx?_eq_none_iff_getElem? {p : α → Bool} {tab : List α} :
    tab.findIdx? p = none ↔ ∀ (i : ℕ) (e : α), tab[i]? = some e → p e = false := by
  rw [List.findIdx?_eq_none_iff]
  constructor
  · intro h i e he
    exact h e (List.mem_of_getElem? he)
  · intro h e he
    obtain ⟨i, hi⟩ := List.mem_iff_getElem?.mp he
    exact h i e hi

/-- What a scan of the first `n` slots finds is among them. -/
theorem findIdx?_take_some {p : α → Bool} {tab : List α} {n i : ℕ}
    (h : (tab.take n).findIdx? p = some i) : i < n ∧ ∃ e, tab[i]? = some e ∧ p e = true := by
  obtain ⟨⟨e, he, hp⟩, -⟩ := findIdx?_eq_some_iff_getElem?.mp h
  rw [List.getElem?_take] at he
  split at he
  · exact ⟨‹i < n›, e, he, hp⟩
  · cases he

theorem findIdx?_take_none {p : α → Bool} {tab : List α} {n : ℕ} :
    (tab.take n).findIdx? p = none ↔
      ∀ i < n, ∀ e, tab[i]? = some e → p e = false := by
  rw [findIdx?_eq_none_iff_getElem?]
  constructor
  · intro h i hi e he
    exact h i e (by rw [List.getElem?_take, if_pos hi, he])
  · intro h i e he
    rw [List.getElem?_take] at he
    split at he
    · exact h i ‹i < n› e he
    · cases he

/-- Writing one slot exchanges its entry for the new one. -/
theorem cons_set_perm {tab : List α} {i : ℕ} {e : α} (hi : tab[i]? = some e) (x : α) :
    (e :: tab.set i x).Perm (x :: tab) := by
  obtain ⟨hlt, rfl⟩ := List.getElem?_eq_some_iff.mp hi
  have hset : (tab[i] :: tab.set i x).Perm (tab[i] :: x :: tab.eraseIdx i) :=
    (List.set_perm_cons_eraseIdx hlt x).cons _
  have hback : (x :: tab[i] :: tab.eraseIdx i).Perm (x :: tab) :=
    (List.getElem_cons_eraseIdx_perm hlt).cons _
  exact hset.trans ((List.Perm.swap _ _ _).trans hback)

/-! ## Exchanges -/

/-- `l'` is `l`, in some order, with `o` taken out and `o'` put in. -/
def Exchange (o o' : Option α) (l l' : List α) : Prop :=
  (o.toList ++ l').Perm (o'.toList ++ l)

namespace Exchange

variable {o o' : Option α} {l l' m m' : List α}

@[refl] theorem refl (o : Option α) (l : List α) : Exchange o o l l := List.Perm.refl _

/-- The same exchange on the same list has the same result. -/
theorem perm (h : Exchange o o' l l') (h' : Exchange o o' m m') (hlm : l.Perm m) :
    l'.Perm m' := by
  have hboth : (o'.toList ++ l).Perm (o'.toList ++ m) := hlm.append_left _
  exact (List.perm_append_left_iff _).mp ((h.trans hboth).trans h'.symm)

/-- Nothing is there twice unless what is put in was there already. -/
theorem nodup (h : Exchange o o' l l') (hl : l.Nodup)
    (hnew : o' = o ∨ ∀ b, o' = some b → b ∉ l) : l'.Nodup := by
  rcases hnew with rfl | hnew
  · exact ((List.perm_append_left_iff _).mp h).nodup_iff.mpr hl
  · have hboth : (o'.toList ++ l).Nodup := by
      cases o' with
      | none => exact hl
      | some b => exact List.nodup_cons.mpr ⟨hnew b rfl, hl⟩
    exact (h.nodup_iff.mpr hboth).of_append_right

end Exchange

/-- Writing one slot, seen through a partial function. -/
theorem filterMap_set_exchange {β : Type*} (f : α → Option β) {tab : List α} {i : ℕ} {e : α}
    (hi : tab[i]? = some e) (x : α) :
    Exchange (f e) (f x) (tab.filterMap f) ((tab.set i x).filterMap f) := by
  have hsplit : ∀ (a : α) (l : List α),
      (a :: l).filterMap f = (f a).toList ++ l.filterMap f := by
    intro a l
    cases ha : f a <;> simp [ha]
  have hperm := (cons_set_perm hi x).filterMap f
  rwa [hsplit, hsplit] at hperm

/-! ## Ledgers -/

/-- The used entries of the table are those of the ledger, in some order. -/
def Holds (used : α → Bool) (tab ledger : List α) : Prop :=
  (tab.filter used).Perm ledger

namespace Holds

variable {used : α → Bool} {tab ledger : List α} {i : ℕ} {e x : α}

theorem mem_iff (h : Holds used tab ledger) : e ∈ ledger ↔ e ∈ tab ∧ used e = true := by
  rw [← List.Perm.mem_iff h, List.mem_filter]

theorem replicate {blank : α} (hblank : used blank = false) (n : ℕ) :
    Holds used (List.replicate n blank) [] := by
  have hnone : (List.replicate n blank).filter used = [] := by
    rw [List.filter_eq_nil_iff]
    intro e he
    rw [List.eq_of_mem_replicate he, hblank]
    decide
  rw [Holds, hnone]

/-- A ledger shorter than the table leaves a slot unused. -/
theorem exists_unused (h : Holds used tab ledger) (hlt : ledger.length < tab.length) :
    ∃ i, tab.findIdx? (fun e => !used e) = some i := by
  cases hscan : tab.findIdx? (fun e => !used e) with
  | some i => exact ⟨i, rfl⟩
  | none =>
      have hall : tab.filter used = tab := by
        rw [List.filter_eq_self]
        intro e he
        simpa using List.findIdx?_eq_none_iff.mp hscan e he
      have hlen := h.length_eq
      rw [hall] at hlen
      omega

/-- Filling an unused slot adds its entry. -/
theorem fill (h : Holds used tab ledger) (hi : tab[i]? = some e) (he : used e = false)
    (hx : used x = true) : Holds used (tab.set i x) (x :: ledger) := by
  have hperm := (cons_set_perm hi x).filter used
  rw [List.filter_cons_of_neg (by simp [he]), List.filter_cons_of_pos hx] at hperm
  exact hperm.trans (h.cons x)

/-- Clearing a used slot takes its entry out. -/
theorem clear (h : Holds used tab ledger) (hi : tab[i]? = some e) (he : used e = true)
    (hx : used x = false) : (e :: (tab.set i x).filter used).Perm ledger := by
  have hperm := (cons_set_perm hi x).filter used
  rw [List.filter_cons_of_pos he, List.filter_cons_of_neg (by simp [hx])] at hperm
  exact hperm.trans h

end Holds

/-! ## Keys -/

section Keys

variable [DecidableEq κ] (key : α → κ)

/-- The ledger without the entries of key `k`. -/
def without (k : κ) (ledger : List α) : List α := ledger.filter fun e => key e ≠ k

variable {key} {ledger rest : List α} {e : α} {k : κ}

theorem mem_without : e ∈ without key k ledger ↔ e ∈ ledger ∧ key e ≠ k := by
  simp [without]

theorem without_of_not_mem (h : ∀ e ∈ ledger, key e ≠ k) : without key k ledger = ledger := by
  rw [without, List.filter_eq_self]
  intro e he
  simpa using h e he

theorem nodup_without (h : (ledger.map key).Nodup) : ((without key k ledger).map key).Nodup :=
  h.sublist (List.filter_sublist.map key)

/-- With distinct keys, what is left after taking an entry out is the ledger
without its key. -/
theorem perm_without (hnd : (ledger.map key).Nodup) (h : (e :: rest).Perm ledger) :
    rest.Perm (without key (key e) ledger) := by
  have hnd' : (key e :: rest.map key).Nodup := (h.map key).nodup_iff.mpr hnd
  have hrest : without key (key e) rest = rest := by
    apply without_of_not_mem
    intro x hx heq
    exact (List.nodup_cons.mp hnd').1 (heq ▸ List.mem_map_of_mem hx)
  have hperm := h.filter fun x => decide (key x ≠ key e)
  rw [List.filter_cons_of_neg (by simp)] at hperm
  rw [← hrest]
  exact hperm

/-- With distinct keys no two used slots have the same key. -/
theorem Holds.index_eq {used : α → Bool} {tab : List α} (h : Holds used tab ledger)
    (hnd : (ledger.map key).Nodup) {blank : α} (hblank : used blank = false)
    {i j : ℕ} {e' : α} (hi : tab[i]? = some e) (he : used e = true)
    (hj : tab[j]? = some e') (he' : used e' = true) (hkey : key e' = key e) : i = j := by
  by_contra hne
  -- with slot `i` cleared, slot `j` would be left with a key that is gone
  have hrest := perm_without hnd (h.clear hi he hblank)
  have hmem : e' ∈ (tab.set i blank).filter used := by
    rw [List.mem_filter]
    exact ⟨List.mem_of_getElem? (by rw [List.getElem?_set_ne hne, hj]), he'⟩
  exact (mem_without.mp (hrest.mem_iff.mp hmem)).2 hkey

end Keys

end Foundation
