import Mathlib.Data.List.Infix
import Mathlib.Data.List.DropRight

/-!
# Text

The string operations of a line-oriented generator: substrings, splitting,
stripping and matching a literal up to a word boundary. Strings are sequences
of code points; letters and blanks are the ASCII ones.
-/

namespace Foundation

/-! ## Characters -/

/-- `\w`. -/
def isWord (c : Char) : Bool := c.isAlphanum || c = '_'

/-- What `strip` removes. -/
def isSpace (c : Char) : Bool :=
  c = ' ' || (9 ≤ c.val && c.val ≤ 13) || (28 ≤ c.val && c.val ≤ 31)

/-! ## Substrings -/

/-- `sub in s`. -/
def contains (sub : String) (s : List Char) : Bool := decide (sub.toList <:+: s)

/-- `s.strip()`. -/
def strip (s : String) : String :=
  String.ofList ((s.toList.dropWhile isSpace).rdropWhile isSpace)

/-- What stands before the first `sub`: `s.split(sub)[0]`. -/
def before (sub : List Char) : List Char → List Char
  | [] => []
  | c :: cs => if sub.isPrefixOf (c :: cs) then [] else c :: before sub cs

/-- What stands behind the first `sub`, if there is one. -/
def after (sub : List Char) : List Char → Option (List Char)
  | [] => if sub.isEmpty then some [] else none
  | c :: cs =>
      if sub.isPrefixOf (c :: cs) then some ((c :: cs).drop sub.length)
      else after sub cs

/-- What stands between the first `(` and the last `)`:
`re.findall(r'\((.*)\)', s)[0]`. -/
def inParens (s : List Char) : Option (List Char) :=
  (after ['('] s).bind fun r =>
    if ')' ∈ r then some (r.rdropWhile (· ≠ ')')).dropLast else none

/-- Between `w` and `rest` there is a word boundary. -/
def boundary (w rest : List Char) : Bool :=
  (w.getLast?.any isWord) != (rest.head?.any isWord)

/-- `re.match(r'\A' + start + '(.*)' + w + r'\b', s)` for literal texts `start`
and `w`. -/
def matchesUpTo (start w s : List Char) : Bool :=
  start.isPrefixOf s &&
    (s.drop start.length).tails.any fun t =>
      w.isPrefixOf t && boundary w (t.drop w.length)

theorem matchesUpTo_append {start x w y : List Char} {c d : Char}
    (hw : w.getLast? = some c) (hc : isWord c = true) (hd : isWord d = false) :
    matchesUpTo start w (start ++ x ++ w ++ d :: y) = true := by
  have hpre : start.isPrefixOf (start ++ x ++ w ++ d :: y) = true := by
    rw [ List.isPrefixOf_iff_prefix, List.append_assoc, List.append_assoc]
    exact List.prefix_append _ _
  unfold matchesUpTo
  rw [hpre, Bool.true_and, List.any_eq_true]
  refine ⟨w ++ d :: y, ?_, ?_⟩
  · rw [List.mem_tails]
    refine ⟨x, ?_⟩
    simp [List.append_assoc]
  · have hwpre : w.isPrefixOf (w ++ d :: y) = true := by
      rw [ List.isPrefixOf_iff_prefix]
      exact List.prefix_append _ _
    rw [hwpre, List.drop_left, boundary, hw]
    simp [hc, hd]

theorem contains_of_infix {s : String} {t u : List Char} (h : contains s t = true)
    (hu : t <:+: u) : contains s u = true := by
  unfold contains at h ⊢
  rw [decide_eq_true_eq] at h ⊢
  exact h.trans hu

/-! ## Pieces and separators -/

section Lists

variable {α : Type*}

theorem rdropWhile_append_of_forall {p : α → Bool} (xs : List α) {ys : List α}
    (h : ∀ y ∈ ys, p y = true) : (xs ++ ys).rdropWhile p = xs.rdropWhile p := by
  induction ys using List.reverseRecOn with
  | nil => rw [List.append_nil]
  | append_singleton ys y ih =>
      rw [← List.append_assoc, List.rdropWhile_concat_pos _ _ _ (h y (by simp))]
      exact ih fun z hz => h z (List.mem_append_left _ hz)

theorem rdropWhile_append_of_exists {p : α → Bool} (xs : List α) {ys : List α}
    (h : ∃ y ∈ ys, p y = false) : (xs ++ ys).rdropWhile p = xs ++ ys.rdropWhile p := by
  induction ys using List.reverseRecOn with
  | nil =>
      obtain ⟨y, hy, -⟩ := h
      cases hy
  | append_singleton ys y ih =>
      rw [← List.append_assoc]
      by_cases hy : p y = true
      · rw [List.rdropWhile_concat_pos _ _ _ hy, List.rdropWhile_concat_pos _ _ _ hy]
        apply ih
        obtain ⟨z, hz, hpz⟩ := h
        rcases List.mem_append.mp hz with hz | hz
        · exact ⟨z, hz, hpz⟩
        · rw [List.mem_singleton.mp hz, hy] at hpz
          cases hpz
      · rw [List.rdropWhile_concat_neg _ _ _ hy, List.rdropWhile_concat_neg _ _ _ hy,
          List.append_assoc]

/-- Pieces, the first with `lead` in front of it and the last with `trail` behind
it. -/
def framed (lead trail : List α) : List (List α) → List (List α)
  | [] => []
  | [t] => [lead ++ t ++ trail]
  | t :: t' :: ts => (lead ++ t) :: framed [] trail (t' :: ts)

@[simp] theorem length_framed (lead trail : List α) (ts : List (List α)) :
    (framed lead trail ts).length = ts.length := by
  fun_induction framed lead trail ts with
  | case1 => rfl
  | case2 => rfl
  | case3 lead t t' ts ih => simpa using ih

theorem framed_infix (lead trail : List α) (ts : List (List α)) :
    List.Forall₂ (· <:+: ·) ts (framed lead trail ts) := by
  fun_induction framed lead trail ts with
  | case1 => exact List.Forall₂.nil
  | case2 lead t => exact List.Forall₂.cons ⟨lead, trail, rfl⟩ List.Forall₂.nil
  | case3 lead t t' ts ih => exact List.Forall₂.cons ⟨lead, [], by simp⟩ ih

theorem intercalate_framed (sep lead trail : List α) {ts : List (List α)} (h : ts ≠ []) :
    sep.intercalate (framed lead trail ts) = lead ++ sep.intercalate ts ++ trail := by
  fun_induction framed lead trail ts with
  | case1 => exact absurd rfl h
  | case2 lead t => simp [List.intercalate]
  | case3 lead t t' ts ih =>
      have hcons : framed [] trail (t' :: ts) ≠ [] := by
        intro hnil
        have hlen := congrArg List.length hnil
        simp at hlen
      obtain ⟨u, us, hus⟩ := List.exists_cons_of_ne_nil hcons
      rw [hus] at ih ⊢
      rw [List.intercalate_cons_cons, List.intercalate_cons_cons, ih (List.cons_ne_nil _ _)]
      simp

variable [DecidableEq α]

/-- Joining pieces adds a separator between any two. -/
theorem count_intercalate (x : α) {ts : List (List α)} (h : ts ≠ []) :
    ([x].intercalate ts).count x + 1 = ts.length + ts.flatten.count x := by
  induction ts with
  | nil => exact absurd rfl h
  | cons t ts ih =>
      cases ts with
      | nil => simp [List.intercalate, Nat.add_comm]
      | cons t' ts =>
          rw [List.intercalate_cons_cons, List.count_append, List.count_append]
          have hrest := ih (List.cons_ne_nil _ _)
          rw [List.flatten_cons, List.count_append]
          simp only [List.length_cons, List.count_singleton_self] at hrest ⊢
          omega

/-- Counted by its separators a text has as many pieces as were joined exactly
when none of them has a separator of its own. -/
theorem count_intercalate_eq_length {x : α} {ts : List (List α)} (h : ts ≠ []) :
    ([x].intercalate ts).count x + 1 = ts.length ↔ ∀ t ∈ ts, x ∉ t := by
  rw [count_intercalate x h]
  have hnone : ts.flatten.count x = 0 ↔ ∀ t ∈ ts, x ∉ t := by
    simp [List.count_eq_zero]
  rw [← hnone]
  omega

end Lists

/-! ## Cutting at a character -/

theorem before_append_of_notMem {c : Char} {xs : List Char} (h : c ∉ xs) (ys : List Char) :
    before [c] (xs ++ ys) = xs ++ before [c] ys := by
  induction xs with
  | nil => rfl
  | cons x xs ih =>
      have hx : c ≠ x := fun heq => h (heq ▸ List.mem_cons_self)
      rw [List.cons_append, before, if_neg (by simp [List.isPrefixOf, hx]),
        ih fun hmem => h (List.mem_cons_of_mem _ hmem)]
      rfl

/-- What follows the first one is not looked at. -/
theorem before_cut (c : Char) (xs ys : List Char) :
    before [c] (xs ++ c :: ys) = before [c] xs := by
  induction xs with
  | nil => simp [before, List.isPrefixOf]
  | cons x xs ih => simp [before, List.isPrefixOf, ih]

theorem after_append_of_notMem {c : Char} {xs : List Char} (h : c ∉ xs) (ys : List Char) :
    after [c] (xs ++ ys) = after [c] ys := by
  induction xs with
  | nil => rfl
  | cons x xs ih =>
      have hx : c ≠ x := fun heq => h (heq ▸ List.mem_cons_self)
      rw [List.cons_append, after, if_neg (by simp [List.isPrefixOf, hx]),
        ih fun hmem => h (List.mem_cons_of_mem _ hmem)]

theorem after_cons_self (c : Char) (ys : List Char) : after [c] (c :: ys) = some ys := by
  simp [after, List.isPrefixOf]

theorem after_append_of_mem {c : Char} {xs : List Char} (h : c ∈ xs) (ys : List Char) :
    after [c] (xs ++ ys) = (after [c] xs).map (· ++ ys) := by
  induction xs with
  | nil => cases h
  | cons x xs ih =>
      by_cases hx : x = c
      · subst hx
        rw [List.cons_append, after_cons_self, after_cons_self]
        rfl
      · have hmem : c ∈ xs := (List.mem_cons.mp h).resolve_left (Ne.symm hx)
        rw [List.cons_append, after, after, if_neg (by simp [List.isPrefixOf, Ne.symm hx]),
          if_neg (by simp [List.isPrefixOf, Ne.symm hx]), ih hmem]

/-- What `inParens` takes along in front of a list in parentheses that follows
`front`: everything behind the first `(` of `front`. -/
def parenLead (front : List Char) : List Char :=
  match after ['('] front with
  | some r => r ++ ['(']
  | none => []

/-- And behind it: everything up to the last `)` of `tail`. -/
def parenTrail (tail : List Char) : List Char :=
  if ')' ∈ tail then ')' :: (tail.rdropWhile (· ≠ ')')).dropLast else []

theorem after_eq_none {c : Char} {xs : List Char} : after [c] xs = none ↔ c ∉ xs := by
  induction xs with
  | nil => simp [after]
  | cons x xs ih =>
      by_cases hx : x = c
      · subst hx
        simp [after_cons_self]
      · simp [after, List.isPrefixOf, Ne.symm hx, ih]

theorem inParens_append (front list tail : List Char) :
    inParens (front ++ '(' :: (list ++ ')' :: tail)) =
      some (parenLead front ++ list ++ parenTrail tail) := by
  have hafter : after ['('] (front ++ '(' :: (list ++ ')' :: tail)) =
      some (parenLead front ++ (list ++ ')' :: tail)) := by
    unfold parenLead
    by_cases h : '(' ∈ front
    · rw [after_append_of_mem h]
      cases hr : after ['('] front with
      | none => exact absurd h (after_eq_none.mp hr)
      | some r => simp
    · rw [after_append_of_notMem h, after_cons_self, after_eq_none.mpr h]
      rfl
  have hmem : ')' ∈ parenLead front ++ (list ++ ')' :: tail) := by simp
  have hcut : ((parenLead front ++ (list ++ ')' :: tail)).rdropWhile (· ≠ ')')).dropLast =
      parenLead front ++ list ++ parenTrail tail := by
    have happ : parenLead front ++ (list ++ ')' :: tail) =
        (parenLead front ++ list ++ [')']) ++ tail := by simp
    rw [happ]
    unfold parenTrail
    by_cases h : ')' ∈ tail
    · rw [rdropWhile_append_of_exists _ ⟨')', h, by decide⟩, if_pos h]
      have hne : tail.rdropWhile (· ≠ ')') ≠ [] := by
        intro hnil
        rw [List.rdropWhile_eq_nil_iff] at hnil
        simpa using hnil ')' h
      rw [List.dropLast_append_of_ne_nil hne]
      simp
    · rw [rdropWhile_append_of_forall _ (fun y hy => by
        rw [decide_eq_true_eq]
        exact fun heq => h (heq ▸ hy)), if_neg h, List.rdropWhile_concat_neg _ _ _ (by decide)]
      simp
  unfold inParens
  rw [hafter, Option.bind_some, if_pos hmem, hcut]

/-! ## Loops that may give up -/

theorem mapM_cons_eq_some {α : Type*} {β : Type*} {f : α → Option β} {a : α} {l : List α}
    {r : List β} :
    (a :: l).mapM f = some r ↔ ∃ b bs, f a = some b ∧ l.mapM f = some bs ∧ r = b :: bs := by
  rw [List.mapM_cons]
  constructor
  · intro h
    obtain ⟨b, hb, h⟩ := Option.bind_eq_some_iff.mp h
    obtain ⟨bs, hbs, h⟩ := Option.bind_eq_some_iff.mp h
    cases h
    exact ⟨b, bs, hb, hbs, rfl⟩
  · rintro ⟨b, bs, hb, hbs, rfl⟩
    rw [hb, hbs]
    rfl

/-- What a loop returns for each of its turns, when no turn gives up. -/
theorem mem_of_mapM {α : Type*} {β : Type*} {f : α → Option β} {l : List α} {r : List β}
    (h : l.mapM f = some r) {a : α} (ha : a ∈ l) : ∃ b ∈ r, f a = some b := by
  induction l generalizing r with
  | nil => cases ha
  | cons x l ih =>
      obtain ⟨b, r', hb, hr', rfl⟩ := mapM_cons_eq_some.mp h
      rcases List.mem_cons.mp ha with rfl | ha
      · exact ⟨b, List.mem_cons_self, hb⟩
      · obtain ⟨b', hb', hf⟩ := ih hr' ha
        exact ⟨b', List.mem_cons_of_mem b hb', hf⟩

/-- And each result comes from a turn. -/
theorem of_mem_mapM {α : Type*} {β : Type*} {f : α → Option β} {l : List α} {r : List β}
    (h : l.mapM f = some r) {b : β} (hb : b ∈ r) : ∃ a ∈ l, f a = some b := by
  induction l generalizing r with
  | nil =>
      cases h
      cases hb
  | cons x l ih =>
      obtain ⟨y, r', hy, hr', rfl⟩ := mapM_cons_eq_some.mp h
      rcases List.mem_cons.mp hb with rfl | hb
      · exact ⟨x, List.mem_cons_self, hy⟩
      · obtain ⟨a, ha, hf⟩ := ih hr' hb
        exact ⟨a, List.mem_cons_of_mem x ha, hf⟩

end Foundation
