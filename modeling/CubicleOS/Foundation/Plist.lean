import Mathlib

/-!
# Lists with back pointers to slots

Intrusive lists in which a node points to the next node and back to the *slot*
that points to it: a list head, or the `next` field of the node before. A node
is unlinked without knowing which list it is on. `Lists L stop F` says that
from each head `h` one comes along the nodes `F h` to `stop h`, the null pointer
or a sentinel.
-/

namespace Foundation

universe u v

/-- A place in which a pointer to a node is kept. -/
inductive Slot (H : Type u) (N : Type v) where
  | head (h : H)
  | next (n : N)
deriving DecidableEq, Repr

structure Links (H : Type u) (N : Type v) where
  first : H → Option N
  next : N → Option N
  pprev : N → Slot H N

namespace Links

variable {H : Type u} {N : Type v}

/-- `*slot`. -/
def load (L : Links H N) : Slot H N → Option N
  | .head h => L.first h
  | .next n => L.next n

/-! ## Chains -/

variable {L L' : Links H N} {sl sl' : Slot H N} {n : N} {stop : Option N} {ns xs ys : List N}

/-- From the slot one comes along the nodes to `stop`, and each of them points
back. -/
def Chain (L : Links H N) (stop : Option N) : Slot H N → List N → Prop
  | sl, [] => L.load sl = stop ∧ ∀ t, stop = some t → L.pprev t = sl
  | sl, n :: ns => L.load sl = some n ∧ L.pprev n = sl ∧ Chain L stop (.next n) ns

theorem Chain.congr (hload : L'.load sl = L.load sl)
    (hnext : ∀ n ∈ ns, L'.load (.next n) = L.load (.next n))
    (hback : ∀ n, n ∈ ns ∨ stop = some n → L'.pprev n = L.pprev n)
    (hc : L.Chain stop sl ns) : L'.Chain stop sl ns := by
  induction ns generalizing sl with
  | nil =>
      refine ⟨hload.trans hc.1, fun t ht => ?_⟩
      rw [hback t (Or.inr ht)]
      exact hc.2 t ht
  | cons n ns ih =>
      refine ⟨hload.trans hc.1, ?_, ?_⟩
      · rw [hback n (Or.inl List.mem_cons_self)]
        exact hc.2.1
      · refine ih (hnext n List.mem_cons_self)
          (fun m hm => hnext m (List.mem_cons_of_mem n hm)) (fun m hm => hback m ?_) hc.2.2
        exact hm.imp_left (List.mem_cons_of_mem n)

/-- What a slot points to is the first node, or the end. -/
theorem Chain.load_eq (hc : L.Chain stop sl ns) : L.load sl = ns.head?.or stop := by
  cases ns with
  | nil => exact hc.1
  | cons n ns => exact hc.1

theorem Chain.tail (hc : L.Chain stop sl (xs ++ n :: ys)) : L.Chain stop (.next n) ys := by
  induction xs generalizing sl with
  | nil => exact hc.2.2
  | cons x xs ih => exact ih hc.2.2

/-- What a walk from a slot comes to. -/
inductive Reaches (L : Links H N) (sl : Slot H N) : N → Prop
  | first {n : N} : L.load sl = some n → Reaches L sl n
  | next {n m : N} : Reaches L sl n → L.next n = some m → Reaches L sl m

/-- A walk comes to the nodes of the list and to its end. -/
theorem Chain.reaches_iff (hc : L.Chain stop sl ns) (hend : ∀ t, stop = some t → L.next t = none)
    {n : N} : L.Reaches sl n ↔ n ∈ ns ∨ stop = some n := by
  constructor
  · intro h
    induction h with
    | first h =>
        rw [hc.load_eq] at h
        cases ns with
        | nil => exact Or.inr h
        | cons m ms =>
            cases h
            exact Or.inl List.mem_cons_self
    | @next n m _ hm ih =>
        rcases ih with hn | hn
        · obtain ⟨xs, ys, rfl⟩ := List.append_of_mem hn
          have hload : L.load (.next n) = some m := hm
          rw [hc.tail.load_eq] at hload
          cases ys with
          | nil => exact Or.inr hload
          | cons y ys =>
              cases hload
              exact Or.inl (List.mem_append_right _ (List.mem_cons_of_mem _ List.mem_cons_self))
        · rw [hend n hn] at hm
          cases hm
  · intro h
    induction ns generalizing sl with
    | nil =>
        rcases h with h | h
        · cases h
        · exact .first (hc.1.trans h)
    | cons m ms ih =>
        have hlift : ∀ {k}, L.Reaches (.next m) k → L.Reaches sl k := by
          intro k hk
          induction hk with
          | first hload => exact .next (.first hc.1) hload
          | next _ hnext ih => exact .next ih hnext
        rcases h with h | h
        · rcases List.mem_cons.mp h with rfl | h
          · exact .first hc.1
          · exact hlift (ih hc.2.2 (Or.inl h))
        · exact hlift (ih hc.2.2 (Or.inr h))

/-- The slot that a node points back to is the first one or that of a node
before it. -/
theorem Chain.pprev_cases (hc : L.Chain stop sl (xs ++ n :: ys)) :
    L.pprev n = sl ∨ ∃ y ∈ xs, L.pprev n = .next y := by
  induction xs generalizing sl with
  | nil => exact Or.inl hc.2.1
  | cons x xs ih =>
      rcases ih hc.2.2 with heq | ⟨y, hy, heq⟩
      · exact Or.inr ⟨x, List.mem_cons_self, heq⟩
      · exact Or.inr ⟨y, List.mem_cons_of_mem x hy, heq⟩

/-- A whole chain is moved to a new slot. -/
theorem Chain.rehead (hnodup : ns.Nodup) (hstop : ∀ t, stop = some t → t ∉ ns)
    (hload : L'.load sl' = L.load sl)
    (hnext : ∀ n ∈ ns, L'.load (.next n) = L.load (.next n))
    (hback : ∀ n, L.load sl = some n → L'.pprev n = sl')
    (hother : ∀ n, n ∈ ns ∨ stop = some n → L.load sl ≠ some n → L'.pprev n = L.pprev n)
    (hc : L.Chain stop sl ns) : L'.Chain stop sl' ns := by
  cases ns with
  | nil => exact ⟨hload.trans hc.1, fun t ht => hback t (hc.1.trans ht)⟩
  | cons n ns =>
      have hn : ∀ m, m ∈ ns ∨ stop = some m → m ≠ n := by
        rintro m (hm | hm) rfl
        · exact (List.nodup_cons.mp hnodup).1 hm
        · exact hstop m hm List.mem_cons_self
      refine ⟨hload.trans hc.1, hback n hc.1, hc.2.2.congr (hnext n List.mem_cons_self)
        (fun m hm => hnext m (List.mem_cons_of_mem n hm)) fun m hm => ?_⟩
      refine hother m (hm.imp_left (List.mem_cons_of_mem n)) fun heq => hn m hm ?_
      exact Option.some.inj (heq.symm.trans hc.1)

theorem Chain.pprev_ne (hnodup : (xs ++ n :: ys).Nodup) (hsl : sl ≠ .next n)
    (hc : L.Chain stop sl (xs ++ n :: ys)) : L.pprev n ≠ .next n := by
  rcases hc.pprev_cases with heq | ⟨y, hy, heq⟩
  · rwa [heq]
  · rw [heq]
    intro h
    cases h
    exact List.disjoint_of_nodup_append hnodup hy List.mem_cons_self

/-! ## Several lists -/

/-- The lists of all heads, in one memory. -/
structure Lists (L : Links H N) (stop : H → Option N) (F : H → List N) : Prop where
  chain : ∀ h, L.Chain (stop h) (.head h) (F h)
  nodup : ∀ h, (F h).Nodup
  apart : ∀ h h' n, n ∈ F h → n ∈ F h' → h = h'
  ends : ∀ h h' n, stop h = some n → n ∉ F h'
  own : ∀ h h' n, stop h = some n → stop h' = some n → h = h'

namespace Lists

variable {stop : H → Option N} {F : H → List N}

theorem first_eq (hF : Lists L stop F) (h : H) : L.first h = (F h).head?.or (stop h) :=
  (hF.chain h).load_eq

/-- The node, or the sentinel, at the front of one list is on no other. -/
theorem first_apart (hF : Lists L stop F) {h h' : H} (hne : h' ≠ h) {n : N}
    (hn : n ∈ F h' ∨ stop h' = some n) : L.first h ≠ some n := by
  intro heq
  rw [hF.first_eq] at heq
  cases hFh : F h with
  | nil =>
      rw [hFh] at heq
      rcases hn with hn | hn
      · exact hF.ends h h' n heq hn
      · exact hne (hF.own h' h n hn heq)
  | cons m ms =>
      rw [hFh] at heq
      cases heq
      have hmem : n ∈ F h := hFh ▸ List.mem_cons_self
      rcases hn with hn | hn
      · exact hne (hF.apart h' h n hn hmem)
      · exact hF.ends h' h n hn hmem

/-- The slot that points to a node is a head or a node of the same list. -/
theorem pprev_slot (hF : Lists L stop F) {h : H} {n : N} (hn : n ∈ F h) :
    L.pprev n = .head h ∨ ∃ y ∈ F h, y ≠ n ∧ L.pprev n = .next y := by
  obtain ⟨xs, ys, hsplit⟩ := List.append_of_mem hn
  have hc : L.Chain (stop h) (.head h) (xs ++ n :: ys) := hsplit ▸ hF.chain h
  rcases hc.pprev_cases with heq | ⟨y, hy, heq⟩
  · exact Or.inl heq
  · refine Or.inr ⟨y, hsplit ▸ List.mem_append_left _ hy, ?_, heq⟩
    rintro rfl
    exact List.disjoint_of_nodup_append (hsplit ▸ hF.nodup h) hy List.mem_cons_self

/-- Before a sentinel, every node has a next one. -/
theorem next_ne_none (hF : Lists L stop F) {h : H} {n : N} (hn : n ∈ F h)
    (hstop : stop h ≠ none) : L.next n ≠ none := by
  obtain ⟨xs, ys, hsplit⟩ := List.append_of_mem hn
  have hc : L.Chain (stop h) (.head h) (xs ++ n :: ys) := hsplit ▸ hF.chain h
  rw [show L.next n = ys.head?.or (stop h) from hc.tail.load_eq]
  cases ys with
  | nil => exact hstop
  | cons y ys => exact Option.some_ne_none y

/-- Shorter lists are as far apart as longer ones. -/
theorem shorten (hF : Lists L stop F) {F' : H → List N} (hsub : ∀ h, (F' h).Sublist (F h))
    (hchain : ∀ h, L'.Chain (stop h) (.head h) (F' h)) : Lists L' stop F' where
  chain := hchain
  nodup := fun h => (hF.nodup h).sublist (hsub h)
  apart := fun h h' n hn hn' => hF.apart h h' n ((hsub h).subset hn) ((hsub h').subset hn')
  ends := fun h h' n hn hn' => hF.ends h h' n hn ((hsub h').subset hn')
  own := hF.own

/-- Memory that no list uses may change. -/
theorem congr (hF : Lists L stop F) (hfirst : L'.first = L.first)
    (hnext : ∀ h, ∀ n ∈ F h, L'.next n = L.next n)
    (hback : ∀ h n, n ∈ F h ∨ stop h = some n → L'.pprev n = L.pprev n) : Lists L' stop F :=
  hF.shorten (fun _ => List.Sublist.refl _) fun h =>
    (hF.chain h).congr (congrFun hfirst h) (hnext h) (hback h)

end Lists

/-! ## Operations -/

section Point

variable [DecidableEq N] {v : Option N} {m : N}

/-- `v->pprev = slot`, unless `v` is null. -/
def point (L : Links H N) (v : Option N) (sl : Slot H N) : Links H N :=
  match v with
  | none => L
  | some n => { L with pprev := Function.update L.pprev n sl }

@[simp] theorem load_point : (L.point v sl).load sl' = L.load sl' := by
  cases v <;> cases sl' <;> rfl

@[simp] theorem pprev_point_self : (L.point (some n) sl).pprev n = sl :=
  Function.update_self _ _ _

theorem pprev_point_of_ne (hne : v ≠ some m) : (L.point v sl).pprev m = L.pprev m := by
  cases v with
  | none => rfl
  | some n => exact Function.update_of_ne (fun heq => hne (congrArg some heq.symm)) _ _

end Point

variable [DecidableEq H] [DecidableEq N] {v : Option N} {m : N} {h : H}

/-- `*slot = v`. -/
def store (L : Links H N) (v : Option N) : Slot H N → Links H N
  | .head h => { L with first := Function.update L.first h v }
  | .next n => { L with next := Function.update L.next n v }

/-- Put `n` at the front of the list of `h`. -/
def push (L : Links H N) (h : H) (n : N) : Links H N :=
  let L := L.store (L.first h) (.next n)
  let L := L.point (some n) (.head h)
  let L := L.point (L.next n) (.next n)
  L.store (some n) (.head h)

/-- Take `n` off the list it is on. -/
def unlink (L : Links H N) (n : N) : Links H N :=
  let L := L.store (L.next n) (L.pprev n)
  L.point (L.next n) (L.pprev n)

/-- Take `n` off the front of the list of `h`: the head itself is written, and not
what `n` points back to. -/
def pop (L : Links H N) (h : H) (n : N) : Links H N :=
  let L := L.store (L.next n) (.head h)
  L.point (L.next n) (L.pprev n)

/-- For the first node the two are the same. -/
theorem pop_eq_unlink (hn : L.pprev n = .head h) : L.pop h n = L.unlink n := by
  unfold pop unlink
  rw [hn]

@[simp] theorem load_store_self : (L.store v sl).load sl = v := by
  cases sl <;> simp [store, load]

theorem load_store_of_ne (hne : sl' ≠ sl) : (L.store v sl).load sl' = L.load sl' := by
  cases sl with
  | head h =>
      cases sl' with
      | head h' => exact Function.update_of_ne (fun heq => hne (congrArg _ heq)) _ _
      | next n => rfl
  | next n =>
      cases sl' with
      | head h' => rfl
      | next n' => exact Function.update_of_ne (fun heq => hne (congrArg _ heq)) _ _

@[simp] theorem pprev_store : (L.store v sl).pprev = L.pprev := by
  cases sl <;> rfl

/-- The links after a node was put in front. -/
theorem push_eq : L.push h n =
    (((L.store (L.first h) (.next n)).point (some n) (.head h)).point (L.first h)
      (.next n)).store (some n) (.head h) := by
  have hreread : ((L.store (L.first h) (.next n)).point (some n) (.head h)).load (.next n) =
      L.first h := by rw [load_point, load_store_self]
  unfold push
  dsimp only
  rw [show ((L.store (L.first h) (.next n)).point (some n) (.head h)).next n = L.first h
    from hreread]

@[simp] theorem load_push_head : (L.push h n).load (.head h) = some n := by
  rw [push_eq, load_store_self]

@[simp] theorem load_push_next : (L.push h n).load (.next n) = L.first h := by
  rw [push_eq, load_store_of_ne (by simp), load_point, load_point, load_store_self]

theorem load_push_of_ne (hhead : sl ≠ .head h) (hnext : sl ≠ .next n) :
    (L.push h n).load sl = L.load sl := by
  rw [push_eq, load_store_of_ne hhead, load_point, load_point, load_store_of_ne hnext]

theorem pprev_push_of_ne (hm : m ≠ n) (hfirst : L.first h ≠ some m) :
    (L.push h n).pprev m = L.pprev m := by
  rw [push_eq, pprev_store, pprev_point_of_ne hfirst,
    pprev_point_of_ne (fun heq => hm (Option.some.inj heq).symm), pprev_store]

/-- Taking a node out writes two places, both read before. -/
theorem unlink_eq (hself : L.pprev n ≠ .next n) :
    L.unlink n = (L.store (L.next n) (L.pprev n)).point (L.next n) (L.pprev n) := by
  have hreread : (L.store (L.next n) (L.pprev n)).load (.next n) = L.next n :=
    load_store_of_ne hself.symm
  unfold Links.unlink
  dsimp only
  rw [show (L.store (L.next n) (L.pprev n)).next n = L.next n from hreread, pprev_store]

/-- A node in the middle is taken out. -/
theorem Chain.unlink (hnodup : (xs ++ n :: ys).Nodup)
    (hstop : ∀ t, stop = some t → t ∉ xs ++ n :: ys)
    (hsl : ∀ m ∈ xs ++ n :: ys, sl ≠ .next m) (hc : L.Chain stop sl (xs ++ n :: ys)) :
    (L.unlink n).Chain stop sl (xs ++ ys) := by
  rw [unlink_eq (hc.pprev_ne hnodup (hsl n (by simp)))]
  have hnext : L.next n = ys.head?.or stop := hc.tail.load_eq
  -- on the number of nodes before `n`
  induction xs generalizing sl with
  | nil =>
      obtain ⟨-, hpp, htail⟩ := hc
      rw [List.nil_append] at hnodup hstop hsl
      rw [hpp]
      refine htail.rehead (List.nodup_cons.mp hnodup).2
        (fun t ht hmem => hstop t ht (List.mem_cons_of_mem n hmem))
        (by rw [load_point, load_store_self]; rfl) (fun m hm => ?_) (fun m hm => ?_) ?_
      · rw [load_point]
        exact load_store_of_ne (hsl m (List.mem_cons_of_mem n hm)).symm
      · rw [show L.next n = some m from hm]
        exact pprev_point_self
      · intro m _ hne
        exact (pprev_point_of_ne hne).trans (by rw [pprev_store])
  | cons x xs ih =>
      obtain ⟨hload, hpp, hrest⟩ := hc
      obtain ⟨hx, hnodup'⟩ := List.nodup_cons.mp hnodup
      have hpn : L.pprev n ≠ sl := by
        rcases hrest.pprev_cases with heq | ⟨y, hy, heq⟩
        · rw [heq]
          exact (hsl x (by simp)).symm
        · rw [heq]
          exact (hsl y (by simp [hy])).symm
      refine ⟨?_, ?_, ?_⟩
      · rw [load_point, load_store_of_ne hpn.symm]
        exact hload
      · have hne : L.next n ≠ some x := by
          intro heq
          rw [hnext] at heq
          cases ys with
          | nil => exact hstop x heq (by simp)
          | cons y ys =>
              cases heq
              exact hx (by simp)
        rw [pprev_point_of_ne hne, pprev_store]
        exact hpp
      · refine ih hnodup' (fun t ht hmem => hstop t ht (List.mem_cons_of_mem x hmem)) ?_ hrest
        rintro m hm heq
        cases heq
        exact hx hm

namespace Lists

variable {stop : H → Option N} {F : H → List N}

theorem push (hF : Lists L stop F) {h : H} {n : N} (hn : ∀ h', n ∉ F h')
    (hstop : ∀ h', stop h' ≠ some n) :
    Lists (L.push h n) stop (Function.update F h (n :: F h)) := by
  have hne : ∀ {h' m}, m ∈ F h' ∨ stop h' = some m → m ≠ n := by
    rintro h' m (hm | hm) rfl
    · exact hn h' hm
    · exact hstop h' hm
  have hnext : ∀ {h' m}, m ∈ F h' → (L.push h n).load (.next m) = L.load (.next m) :=
    fun hm => load_push_of_ne (by simp) fun heq => hne (Or.inl hm) (Slot.next.inj heq)
  have hfresh : L.first h ≠ some n := by
    rw [hF.first_eq]
    cases hFh : F h with
    | nil => exact hstop h
    | cons m ms => exact fun heq => hn h (hFh ▸ Option.some.inj heq ▸ List.mem_cons_self)
  have hcases : ∀ {h' m}, m ∈ Function.update F h (n :: F h) h' →
      (h' = h ∧ m = n) ∨ m ∈ F h' := by
    intro h' m hm
    by_cases hh : h' = h
    · subst hh
      rw [Function.update_self] at hm
      exact (List.mem_cons.mp hm).imp_left fun heq => ⟨rfl, heq⟩
    · rw [Function.update_of_ne hh] at hm
      exact Or.inr hm
  refine ⟨fun h' => ?_, fun h' => ?_, fun h₁ h₂ m hm₁ hm₂ => ?_, fun h₁ h₂ m hm hmem => ?_, hF.own⟩
  · by_cases hh : h' = h
    · subst hh
      rw [Function.update_self]
      refine ⟨load_push_head, ?_, ?_⟩
      · rw [push_eq, pprev_store, pprev_point_of_ne hfresh, pprev_point_self]
      · -- the old list hangs on the new node
        refine (hF.chain h').rehead (hF.nodup h') (fun t ht => hF.ends h' h' t ht) load_push_next
          (fun m hm => hnext hm) (fun m hm => ?_) fun m hm hfirst => ?_
        · rw [push_eq, pprev_store, show L.first h' = some m from hm]
          exact pprev_point_self
        · exact pprev_push_of_ne (hne hm) hfirst
    · rw [Function.update_of_ne hh]
      refine (hF.chain h').congr ?_ (fun m hm => hnext hm) fun m hm => ?_
      · exact load_push_of_ne (fun heq => hh (Slot.head.inj heq)) (by simp)
      · exact pprev_push_of_ne (hne hm) (hF.first_apart hh hm)
  · by_cases hh : h' = h
    · subst hh
      rw [Function.update_self]
      exact List.nodup_cons.mpr ⟨hn h', hF.nodup h'⟩
    · rw [Function.update_of_ne hh]
      exact hF.nodup h'
  · rcases hcases hm₁ with ⟨rfl, rfl⟩ | hold₁
    · rcases hcases hm₂ with ⟨rfl, -⟩ | hold₂
      · rfl
      · exact absurd hold₂ (hn h₂)
    · rcases hcases hm₂ with ⟨rfl, rfl⟩ | hold₂
      · exact absurd hold₁ (hn h₁)
      · exact hF.apart h₁ h₂ m hold₁ hold₂
  · rcases hcases hmem with ⟨-, rfl⟩ | hold
    · exact hstop h₁ hm
    · exact hF.ends h₁ h₂ m hm hold

/-- A node that is on no list, such as a sentinel, keeps its `next`. -/
theorem next_unlink (hF : Lists L stop F) {h : H} {n m : N} (hn : n ∈ F h)
    (hm : ∀ h', m ∉ F h') : (L.unlink n).next m = L.next m := by
  have hslot := hF.pprev_slot hn
  have hself : L.pprev n ≠ .next n := by
    rcases hslot with heq | ⟨y, -, hne, heq⟩
    · simp [heq]
    · rw [heq]
      exact fun h => hne (Slot.next.inj h)
  have hload : (L.unlink n).load (.next m) = L.load (.next m) := by
    rw [unlink_eq hself, load_point]
    refine load_store_of_ne ?_
    rcases hslot with heq | ⟨y, hy, -, heq⟩
    · simp [heq]
    · rw [heq]
      intro h
      cases h
      exact hm _ hy
  exact hload

theorem unlink (hF : Lists L stop F) {h : H} {n : N} (hn : n ∈ F h) :
    Lists (L.unlink n) stop (Function.update F h ((F h).erase n)) := by
  obtain ⟨xs, ys, hsplit⟩ := List.append_of_mem hn
  have hnodup : (xs ++ n :: ys).Nodup := hsplit ▸ hF.nodup h
  have herase : (F h).erase n = xs ++ ys := by
    rw [hsplit, List.erase_append_right _
      (fun hmem => List.disjoint_of_nodup_append hnodup hmem List.mem_cons_self),
      List.erase_cons_head]
  have hc : L.Chain (stop h) (.head h) (xs ++ n :: ys) := hsplit ▸ hF.chain h
  have hin : ∀ y ∈ ys, y ∈ F h := fun y hy =>
    hsplit ▸ List.mem_append_right _ (List.mem_cons_of_mem n hy)
  refine hF.shorten (fun h' => ?_) fun h' => ?_
  · by_cases hh : h' = h
    · subst hh
      rw [Function.update_self]
      exact List.erase_sublist
    · rw [Function.update_of_ne hh]
  · by_cases hh : h' = h
    · subst hh
      rw [Function.update_self, herase]
      exact hc.unlink hnodup (fun t ht => hsplit ▸ hF.ends h' h' t ht) (by simp)
    · -- what is written belongs to the list of `h`
      rw [Function.update_of_ne hh, unlink_eq (hc.pprev_ne hnodup (by simp))]
      have hslot : ∀ sl, (sl = .head h' ∨ ∃ m ∈ F h', sl = .next m) → sl ≠ L.pprev n := by
        rintro sl hsl rfl
        rcases hF.pprev_slot hn with heq | ⟨y, hy, -, heq⟩
        · rcases hsl with hsl | ⟨m, hm, hsl⟩
          · exact hh (Slot.head.inj (hsl.symm.trans heq))
          · cases hsl.symm.trans heq
        · rcases hsl with hsl | ⟨m, hm, hsl⟩
          · cases hsl.symm.trans heq
          · obtain rfl : m = y := Slot.next.inj (hsl.symm.trans heq)
            exact hh (hF.apart h' h m hm hy)
      refine (hF.chain h').congr ?_ (fun m hm => ?_) fun m hm => ?_
      · exact load_point.trans (load_store_of_ne (hslot _ (Or.inl rfl)))
      · exact load_point.trans (load_store_of_ne (hslot _ (Or.inr ⟨m, hm, rfl⟩)))
      · have hne : L.next n ≠ some m := by
          rw [show L.next n = ys.head?.or (stop h) from hc.tail.load_eq]
          intro heq
          cases ys with
          | nil =>
              rcases hm with hm | hm
              · exact hF.ends h h' m heq hm
              · exact hh (hF.own h' h m hm heq)
          | cons y ys =>
              obtain rfl : y = m := Option.some.inj heq
              have hy := hin y List.mem_cons_self
              rcases hm with hm | hm
              · exact hh (hF.apart h' h y hm hy)
              · exact hF.ends h' h y hm hy
        rw [pprev_point_of_ne hne, pprev_store]

end Lists

end Links

end Foundation
