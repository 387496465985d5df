import CubicleOS.Foundation.Outcome

/-!
# Event machines

A machine is a step function `σ → ε → Outcome σ`. This file has what every
property of a whole run needs: runs over a list of events, the invariant rule,
simulation of one machine by another, and balanced words for machines whose
state is a stack.
-/

namespace Foundation

universe u v w

variable {σ : Type u} {τ : Type w} {ε : Type v}

/-! ## Runs -/

def runs (step : σ → ε → Outcome σ) : σ → List ε → Outcome σ
  | s, [] => .done s
  | s, e :: es => (step s e).bind fun s' => runs step s' es

variable {step : σ → ε → Outcome σ}

@[simp] theorem runs_nil (s : σ) : runs step s [] = .done s := rfl

theorem runs_cons_eq_done {s t : σ} {e : ε} {es : List ε} :
    runs step s (e :: es) = .done t ↔
      ∃ s', step s e = .done s' ∧ runs step s' es = .done t :=
  Outcome.bind_eq_done

theorem runs_append (s : σ) (es fs : List ε) :
    runs step s (es ++ fs) =
      (runs step s es).bind fun s' => runs step s' fs := by
  induction es generalizing s with
  | nil => rfl
  | cons e es ih =>
      simp only [List.cons_append, runs, Outcome.bind_assoc]
      congr 1
      funext s'
      exact ih s'

theorem runs_append_eq_done {s t : σ} {es fs : List ε} :
    runs step s (es ++ fs) = .done t ↔
      ∃ s', runs step s es = .done s' ∧ runs step s' fs = .done t := by
  rw [runs_append]
  exact Outcome.bind_eq_done

/-- `G` holds of the state and the event before every step of a run. -/
def Along (step : σ → ε → Outcome σ) (G : σ → ε → Prop) : σ → List ε → Prop
  | _, [] => True
  | s, e :: es => G s e ∧ ∀ s', step s e = .done s' → Along step G s' es

theorem Along.of_forall_mem {G : σ → ε → Prop} :
    ∀ {es : List ε} {s : σ}, (∀ e ∈ es, ∀ s, G s e) → Along step G s es
  | [], _, _ => trivial
  | e :: _, s, h => ⟨h e List.mem_cons_self s, fun _ _ =>
      Along.of_forall_mem fun e' he' => h e' (List.mem_cons_of_mem e he')⟩

theorem Along.cons {G : σ → ε → Prop} {e : ε} {es : List ε} {s s' : σ}
    (hG : G s e) (hs' : step s e = .done s') (h : Along step G s' es) :
    Along step G s (e :: es) := by
  refine ⟨hG, fun t ht => ?_⟩
  rw [hs'] at ht
  cases ht
  exact h

theorem Along.mono {G H : σ → ε → Prop} (hGH : ∀ s e, G s e → H s e) :
    ∀ {es : List ε} {s : σ}, Along step G s es → Along step H s es
  | [], _, _ => trivial
  | _ :: _, _, hG => ⟨hGH _ _ hG.1, fun m hm => (hG.2 m hm).mono hGH⟩

theorem Along.and {G H : σ → ε → Prop} :
    ∀ {es : List ε} {s : σ}, Along step G s es → Along step H s es →
      Along step (fun s e => G s e ∧ H s e) s es
  | [], _, _, _ => trivial
  | _ :: _, _, hG, hH => ⟨⟨hG.1, hH.1⟩, fun m hm => (hG.2 m hm).and (hH.2 m hm)⟩

/-- Conditions that can be evaluated can be evaluated along a run. -/
instance Along.decidable {G : σ → ε → Prop} [∀ s e, Decidable (G s e)] :
    ∀ (s : σ) (es : List ε), Decidable (Along step G s es)
  | _, [] => isTrue trivial
  | s, e :: es =>
      match h : step s e with
      | .done s' =>
          have : Decidable (Along step G s' es) := Along.decidable s' es
          decidable_of_iff (G s e ∧ Along step G s' es)
            ⟨fun hboth => .cons hboth.1 h hboth.2, fun halong => ⟨halong.1, halong.2 s' h⟩⟩
      | .spin =>
          decidable_of_iff (G s e)
            ⟨fun hG => ⟨hG, fun s' hs' => by rw [h] at hs'; cases hs'⟩, And.left⟩
      | .wild =>
          decidable_of_iff (G s e)
            ⟨fun hG => ⟨hG, fun s' hs' => by rw [h] at hs'; cases hs'⟩, And.left⟩

theorem Along.append {G : σ → ε → Prop} {fs : List ε} :
    ∀ {es : List ε} {s s' : σ}, Along step G s (es ++ fs) →
      runs step s es = .done s' → Along step G s' fs
  | [], s, s', h, hrun => by
      cases hrun
      exact h
  | e :: es, s, s', h, hrun => by
      obtain ⟨m, hm, hrest⟩ := runs_cons_eq_done.mp hrun
      exact Along.append (h.2 m hm) hrest

theorem Along.of_append {G : σ → ε → Prop} {fs : List ε} :
    ∀ {es : List ε} {s : σ}, Along step G s (es ++ fs) → Along step G s es
  | [], _, _ => trivial
  | _ :: _, _, h => ⟨h.1, fun s' hs => (h.2 s' hs).of_append⟩

/-- The invariant rule. -/
theorem runs_invariant {I : σ → Prop} {G : σ → ε → Prop}
    (hstep : ∀ s e s', I s → G s e → step s e = .done s' → I s') :
    ∀ {es : List ε} {s t : σ}, I s → Along step G s es →
      runs step s es = .done t → I t
  | [], _, _, hI, _, hrun => by
      cases hrun
      exact hI
  | e :: es, s, t, hI, hG, hrun => by
      obtain ⟨m, hm, hrest⟩ := runs_cons_eq_done.mp hrun
      exact runs_invariant hstep (hstep s e m hI hG.1 hm) (hG.2 m hm) hrest

/-- The rule for runs that go through: every step does, and keeps `I`. -/
theorem runs_done {I : σ → Prop} {G : σ → ε → Prop}
    (hstep : ∀ s e, I s → G s e → ∃ s', step s e = .done s' ∧ I s') {es : List ε} {s : σ}
    (hI : I s) (hG : Along step G s es) : ∃ t, runs step s es = .done t ∧ I t := by
  induction es generalizing s with
  | nil => exact ⟨s, rfl, hI⟩
  | cons e es ih =>
      obtain ⟨m, hm, hIm⟩ := hstep s e hI hG.1
      obtain ⟨t, ht, hIt⟩ := ih hIm (hG.2 m hm)
      exact ⟨t, runs_cons_eq_done.mpr ⟨m, hm, ht⟩, hIt⟩

/-- If the steps that go through from `I` are those under the guard, then so are
the runs. -/
theorem runs_done_iff_along {I : σ → Prop} {G : σ → ε → Prop}
    (hgood : ∀ s e, I s → G s e → ∃ s', step s e = .done s' ∧ I s')
    (hbad : ∀ s e s', I s → step s e = .done s' → G s e) {es : List ε} {s : σ} (hI : I s) :
    (∃ t, runs step s es = .done t) ↔ Along step G s es := by
  constructor
  · induction es generalizing s with
    | nil => exact fun _ => trivial
    | cons e es ih =>
        rintro ⟨t, ht⟩
        obtain ⟨m, hm, hrest⟩ := runs_cons_eq_done.mp ht
        have hG := hbad s e m hI hm
        obtain ⟨m', hm', hIm⟩ := hgood s e hI hG
        cases hm.symm.trans hm'
        exact .cons hG hm (ih hIm ⟨t, hrest⟩)
  · intro hG
    obtain ⟨t, ht, -⟩ := runs_done hgood hI hG
    exact ⟨t, ht⟩

/-- `I` holds in every state of a run, and the run goes on to its end unless it
comes to an event at which it is meant to stop. -/
def Always (step : σ → ε → Outcome σ) (Stop : σ → ε → Prop) (I : σ → Prop) :
    σ → List ε → Prop
  | s, [] => I s
  | s, e :: es => I s ∧ ((Stop s e ∧ step s e = .spin) ∨
      ∃ s', step s e = .done s' ∧ Always step Stop I s' es)

variable {Stop : σ → ε → Prop}

theorem Always.head {I : σ → Prop} :
    ∀ {es : List ε} {s : σ}, Always step Stop I s es → I s
  | [], _, h => h
  | _ :: _, _, h => h.1

/-- The exact invariant rule. If a step from `I` goes well exactly when the
guard `G` holds before it, then a run is always in `I` exactly when `G` holds
all along it. `J` is what every step keeps, `L` what is known of the events. -/
theorem always_iff_along {I J : σ → Prop} {L G : σ → ε → Prop}
    (hkeep : ∀ s e s', J s → L s e → step s e = .done s' → J s')
    (hstep : ∀ s e, J s → I s → L s e →
      ((Stop s e ∧ step s e = .spin) ∨ (∃ s', step s e = .done s' ∧ I s') ↔ G s e)) :
    ∀ {es : List ε} {s : σ}, J s → I s → Along step L s es →
      (Always step Stop I s es ↔ Along step G s es)
  | [], _, _, hI, _ => by simp [Always, Along, hI]
  | e :: es, s, hJ, hI, hL => by
      have hrest : ∀ m, step s e = .done m → I m →
          (Always step Stop I m es ↔ Along step G m es) := fun m hm hIm =>
        always_iff_along hkeep hstep (hkeep s e m hJ hL.1 hm) hIm (hL.2 m hm)
      constructor
      · rintro ⟨-, ⟨hstop, hspin⟩ | ⟨m, hm, halways⟩⟩
        · refine ⟨(hstep s e hJ hI hL.1).mp (Or.inl ⟨hstop, hspin⟩), fun s' hs' => ?_⟩
          rw [hspin] at hs'
          cases hs'
        · refine ⟨(hstep s e hJ hI hL.1).mp (Or.inr ⟨m, hm, halways.head⟩), fun s' hs' => ?_⟩
          rw [hm] at hs'
          cases hs'
          exact (hrest m hm halways.head).mp halways
      · rintro ⟨hG, halong⟩
        refine ⟨hI, ?_⟩
        rcases (hstep s e hJ hI hL.1).mpr hG with hstop | ⟨m, hm, hIm⟩
        · exact Or.inl hstop
        · exact Or.inr ⟨m, hm, (hrest m hm hIm).mpr (halong m hm)⟩

/-- `I` holds in every state that the run reaches. -/
def Throughout (step : σ → ε → Outcome σ) (I : σ → Prop) (s : σ) (es : List ε) : Prop :=
  ∀ fs s', fs <+: es → runs step s fs = .done s' → I s'

theorem throughout_nil {I : σ → Prop} {s : σ} : Throughout step I s [] ↔ I s := by
  constructor
  · exact fun h => h [] s (List.prefix_refl []) rfl
  · intro h fs s' hfs hrun
    obtain rfl := List.prefix_nil.mp hfs
    cases hrun
    exact h

theorem throughout_cons {I : σ → Prop} {s : σ} {e : ε} {es : List ε} :
    Throughout step I s (e :: es) ↔
      I s ∧ ∀ m, step s e = .done m → Throughout step I m es := by
  constructor
  · intro h
    refine ⟨h [] s List.nil_prefix rfl, fun m hm fs s' hfs hrun => ?_⟩
    refine h (e :: fs) s' (List.cons_prefix_cons.mpr ⟨rfl, hfs⟩) ?_
    exact runs_cons_eq_done.mpr ⟨m, hm, hrun⟩
  · rintro ⟨hI, hrest⟩ fs s' hfs hrun
    cases fs with
    | nil =>
        cases hrun
        exact hI
    | cons f fs =>
        obtain ⟨rfl, hprefix⟩ := List.cons_prefix_cons.mp hfs
        obtain ⟨m, hm, hrun⟩ := runs_cons_eq_done.mp hrun
        exact hrest m hm fs s' hprefix hrun

/-- The invariant rule for what a run reaches. If no step spins, the run does
not either. -/
theorem throughout_of_along {I : σ → Prop} {G : σ → ε → Prop}
    (hstep : ∀ s e, I s → G s e → (step s e).Ensures I) :
    ∀ {es : List ε} {s : σ}, I s → Along step G s es →
      Throughout step I s es ∧ runs step s es ≠ .spin := by
  intro es
  induction es with
  | nil => exact fun hI _ => ⟨throughout_nil.mpr hI, by simp⟩
  | cons e es ih =>
      intro s hI hG
      have hens := hstep s e hI hG.1
      have hrest : ∀ m, step s e = .done m → Throughout step I m es ∧ runs step m es ≠ .spin :=
        fun m hm => ih (hens.of_done hm) (hG.2 m hm)
      refine ⟨throughout_cons.mpr ⟨hI, fun m hm => (hrest m hm).1⟩, fun hspin => ?_⟩
      unfold runs at hspin
      cases hm : step s e with
      | done m =>
          rw [hm] at hspin
          exact (hrest m hm).2 hspin
      | spin => exact hens.ne_spin hm
      | wild =>
          rw [hm] at hspin
          cases hspin

theorem Throughout.mono {I I' : σ → Prop} {s : σ} {es : List ε} (h : Throughout step I s es)
    (hI : ∀ s, I s → I' s) : Throughout step I' s es :=
  fun fs s' hfs hrun => hI s' (h fs s' hfs hrun)

/-- The exact rule for what a run reaches, where steps need not go through: a
step that does keeps `I` exactly when the guard holds before it. -/
theorem throughout_iff_along {I J : σ → Prop} {L G : σ → ε → Prop}
    (hkeep : ∀ s e s', J s → L s e → step s e = .done s' → I s' → J s')
    (hstep : ∀ s e s', J s → I s → L s e → step s e = .done s' → (I s' ↔ G s e)) :
    ∀ {es : List ε} {s : σ}, J s → I s → Along step L s es →
      (Throughout step I s es ↔
        Along step (fun s e => (∃ s', step s e = .done s') → G s e) s es) := by
  intro es
  induction es with
  | nil => exact fun _ hI _ => iff_of_true (throughout_nil.mpr hI) trivial
  | cons e es ih =>
      intro s hJ hI hL
      rw [throughout_cons]
      constructor
      · rintro ⟨-, hrest⟩
        refine ⟨?_, fun m hm => ?_⟩
        · rintro ⟨m, hm⟩
          have hIm := hrest m hm [] m List.nil_prefix rfl
          exact (hstep s e m hJ hI hL.1 hm).mp hIm
        · have hIm := hrest m hm [] m List.nil_prefix rfl
          exact (ih (hkeep s e m hJ hL.1 hm hIm) hIm (hL.2 m hm)).mp (hrest m hm)
      · rintro ⟨hG, halong⟩
        refine ⟨hI, fun m hm => ?_⟩
        have hIm := (hstep s e m hJ hI hL.1 hm).mpr (hG ⟨m, hm⟩)
        exact (ih (hkeep s e m hJ hL.1 hm hIm) hIm (hL.2 m hm)).mpr (halong m hm)

/-! ## Footprints

A state made of cells, and steps that each write only the cells of their
event. When no cell belongs to two events of a run, what a step does to its
cells is what the run does to them. -/

section Footprints

variable {κ : Type*} {ν : Type*} (read : σ → κ → ν) (F : ε → Set κ)
  (Q : ε → κ → ν → ν → Prop) (I : σ → Prop)

theorem runs_footprint {es : List ε} {s t : σ}
    (hstep : ∀ e ∈ es, ∀ s s', I s → step s e = .done s' →
      I s' ∧ (∀ c, c ∉ F e → read s' c = read s c) ∧
        ∀ c ∈ F e, Q e c (read s c) (read s' c))
    (hdisj : es.Pairwise fun e e' => ∀ c ∈ F e, c ∉ F e') (hI : I s)
    (hrun : runs step s es = .done t) :
    I t ∧ (∀ c, (∀ e ∈ es, c ∉ F e) → read t c = read s c) ∧
      ∀ e ∈ es, ∀ c ∈ F e, Q e c (read s c) (read t c) := by
  induction es generalizing s with
  | nil =>
      cases hrun
      exact ⟨hI, fun _ _ => rfl, by simp⟩
  | cons e es ih =>
      obtain ⟨m, hm, hrest⟩ := runs_cons_eq_done.mp hrun
      obtain ⟨hm', hkeep, hcells⟩ := hstep e List.mem_cons_self s m hI hm
      obtain ⟨hfirst, hdisj⟩ := List.pairwise_cons.mp hdisj
      obtain ⟨ht, hkeep', hcells'⟩ :=
        ih (fun e' he' => hstep e' (List.mem_cons_of_mem e he')) hdisj hm' hrest
      refine ⟨ht, fun c hc => ?_, fun e' he' c hc => ?_⟩
      · rw [hkeep' c fun e' he' => hc e' (List.mem_cons_of_mem e he'),
          hkeep c (hc e List.mem_cons_self)]
      · rcases List.mem_cons.mp he' with rfl | he'
        · -- the later steps leave the cells of the first one alone
          rw [hkeep' c fun e' he' => hfirst e' he' c hc]
          exact hcells c hc
        · have hsame : read m c = read s c :=
            hkeep c fun hce => hfirst e' he' c hce hc
          rw [← hsame]
          exact hcells' e' he' c hc

end Footprints

/-! ## Simulation

`R` relates a concrete state to an abstract one. The guard `G` speaks about
the abstract machine, so that a condition on a run can be read off the events
alone. -/

section Simulation

variable {astep : τ → ε → Outcome τ} {R : σ → τ → Prop} {G : τ → ε → Prop}

theorem runs_simulates
    (hsim : ∀ s t e s', R s t → G t e → step s e = .done s' →
      ∃ t', astep t e = .done t' ∧ R s' t') :
    ∀ {es : List ε} {s s' : σ} {t : τ}, R s t → Along astep G t es →
      runs step s es = .done s' → ∃ t', runs astep t es = .done t' ∧ R s' t'
  | [], _, _, t, hR, _, hrun => by
      cases hrun
      exact ⟨t, rfl, hR⟩
  | e :: es, s, s', t, hR, hG, hrun => by
      obtain ⟨m, hm, hrest⟩ := runs_cons_eq_done.mp hrun
      obtain ⟨t₁, ht₁, hR₁⟩ := hsim s t e m hR hG.1 hm
      obtain ⟨t', ht', hR'⟩ := runs_simulates hsim hR₁ (hG.2 t₁ ht₁) hrest
      exact ⟨t', runs_cons_eq_done.mpr ⟨t₁, ht₁, ht'⟩, hR'⟩

/-- A simulated machine whose steps are never wild has no wild run. -/
theorem runs_ne_wild
    (hsim : ∀ s t e s', R s t → G t e → step s e = .done s' →
      ∃ t', astep t e = .done t' ∧ R s' t')
    (hsafe : ∀ s t e, R s t → G t e → step s e ≠ .wild) :
    ∀ {es : List ε} {s : σ} {t : τ}, R s t → Along astep G t es →
      runs step s es ≠ .wild
  | [], _, _, _, _ => by simp
  | e :: es, s, t, hR, hG => by
      intro hwild
      rcases Outcome.bind_eq_wild.mp hwild with h | ⟨m, hm, hrest⟩
      · exact hsafe s t e hR hG.1 h
      · obtain ⟨t₁, ht₁, hR₁⟩ := hsim s t e m hR hG.1 hm
        exact runs_ne_wild hsim hsafe hR₁ (hG.2 t₁ ht₁) hrest

end Simulation

/-! ## Stack machines and balanced words -/

/-- Well-nested words: every opening event has its closing event. -/
inductive Balanced (opens closes : ε → Prop) : List ε → Prop where
  | nil : Balanced opens closes []
  | wrap {e c : ε} {es fs : List ε} : opens e → Balanced opens closes es →
      closes c → Balanced opens closes fs →
      Balanced opens closes (e :: (es ++ c :: fs))

/-- A machine on stacks: an opening event pushes one frame, a closing event
pops one. -/
structure StackLike {F : Type w} (step : List F → ε → Outcome (List F))
    (opens closes : ε → Prop) : Prop where
  push : ∀ {st st' e}, opens e → step st e = .done st' → ∃ f, st' = f :: st
  pop : ∀ {st st' e}, closes e → step st e = .done st' → ∃ f, st = f :: st'

/-- A balanced run of a stack machine ends in the stack it started from. -/
theorem StackLike.balanced_restores {F : Type w}
    {step : List F → ε → Outcome (List F)} {opens closes : ε → Prop}
    (hs : StackLike step opens closes) {es : List ε}
    (hb : Balanced opens closes es) :
    ∀ {st st' : List F}, runs step st es = .done st' → st' = st := by
  induction hb with
  | nil =>
      intro st st' h
      cases h
      rfl
  | @wrap e c es fs hopen _ hclose _ ihes ihfs =>
      intro st st' h
      obtain ⟨st₁, h₁, h⟩ := runs_cons_eq_done.mp h
      obtain ⟨st₂, h₂, h⟩ := runs_append_eq_done.mp h
      obtain ⟨st₃, h₃, h⟩ := runs_cons_eq_done.mp h
      obtain ⟨f, rfl⟩ := hs.push hopen h₁
      have h₂' := ihes h₂
      subst h₂'
      obtain ⟨f', hf'⟩ := hs.pop hclose h₃
      cases hf'
      exact ihfs h

end Foundation
