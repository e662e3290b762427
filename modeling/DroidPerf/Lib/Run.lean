import Mathlib.Data.List.Forall2

/-!
# Runs of fallible step functions

A system is a step function `σ → ε → Option (σ × ρ)`: an event takes a state to
the next state and an answer, or fails. `run` feeds it a list of events. A
specification is a step relation `τ → ε → ρ → τ → Prop` on states of its own, with
`SpecRun` its runs. `run_refines` is the simulation rule that takes one step of the
system matched by one step of the specification to whole runs, and
`run_refines_of_admitted` is the same for a system with preconditions (`Admitted`).
`SpecRun.answers` collects what the answers of a run tell about their events, and
`specRun_of_foldlM` is the simulation rule for a system of which only the runs that do not fail
are matched.

`AlwaysStep` says that every step of a run has a property, and `alwaysStep_of_invariant`
proves it from an invariant. `Always` is about the states of a run and `AlwaysBefore`
about the events it takes; `always_iff_alwaysBefore` turns a step that keeps a property
exactly under a condition into the same about whole runs.
-/

namespace Run

universe u v w x

variable {σ : Type u} {ε : Type v} {ρ : Type w} {τ : Type x}

/-- Feed the events one by one; `none` as soon as one fails. -/
def run (step : σ → ε → Option (σ × ρ)) : σ → List ε → Option (σ × List ρ)
  | s, [] => some (s, [])
  | s, e :: es =>
    match step s e with
    | none => none
    | some (s', r) => (run step s' es).map fun q => (q.1, r :: q.2)

/-- The runs of a step relation, with their events and answers. -/
inductive SpecRun (spec : τ → ε → ρ → τ → Prop) : τ → List ε → List ρ → τ → Prop
  | nil (t : τ) : SpecRun spec t [] [] t
  | cons {t t' t'' : τ} {e : ε} {es : List ε} {r : ρ} {rs : List ρ} :
      spec t e r t' → SpecRun spec t' es rs t'' → SpecRun spec t (e :: es) (r :: rs) t''

/-- What a step tells of its event and its answer, and what no step makes untrue, is true of
all events and answers in the end. -/
theorem SpecRun.answers {spec : τ → ε → ρ → τ → Prop} {I : τ → Prop} {A : τ → ε → ρ → Prop}
    (hstep : ∀ t e r t', I t → spec t e r t' →
      I t' ∧ A t' e r ∧ ∀ e' r', A t e' r' → A t' e' r')
    {t t' : τ} {es : List ε} {rs : List ρ} (ht : I t) (h : SpecRun spec t es rs t') :
    I t' ∧ (∀ e r, A t e r → A t' e r) ∧ List.Forall₂ (A t') es rs := by
  induction h with
  | nil t => exact ⟨ht, fun _ _ h => h, .nil⟩
  | cons hspec _ ih =>
      obtain ⟨ht', hnew, hkeep⟩ := hstep _ _ _ _ ht hspec
      obtain ⟨ht'', hkeep', hrest⟩ := ih ht'
      exact ⟨ht'', fun e r h => hkeep' e r (hkeep e r h), .cons (hkeep' _ _ hnew) hrest⟩

/-- A run of the system is one of its own steps. -/
theorem specRun_of_run {step : σ → ε → Option (σ × ρ)} {s s' : σ} {es : List ε} {rs : List ρ}
    (h : run step s es = some (s', rs)) :
    SpecRun (fun s e r s' => step s e = some (s', r)) s es rs s' := by
  induction es generalizing s rs with
  | nil =>
      cases h
      exact .nil _
  | cons e es ih =>
      unfold run at h
      split at h
      · cases h
      · rename_i s₁ r hs
        obtain ⟨⟨s₂, rs⟩, hrun, hq⟩ := Option.map_eq_some_iff.mp h
        cases hq
        exact .cons hs (ih hrun)

/-- The runs of a step function, as a relation, are its runs. -/
theorem run_of_specRun {step : σ → ε → Option (σ × ρ)} {s s' : σ} {es : List ε} {rs : List ρ}
    (h : SpecRun (fun s e r s' => step s e = some (s', r)) s es rs s') :
    run step s es = some (s', rs) := by
  induction h with
  | nil t => rfl
  | cons hs _ ih => simp [run, hs, ih]

/-- What the steps of a run tell, as a function of the state and the event. -/
def answers {δ : Type} (step : σ → ε → Except δ σ) (answer : σ → ε → ρ) : σ → List ε → List ρ
  | _, [] => []
  | s, e :: es => answer s e ::
    match step s e with
    | .error _ => []
    | .ok s' => answers step answer s' es

/-- If the specification can follow every step that does not fail, every run that does not
fail is one of the specification. -/
theorem specRun_of_foldlM {δ : Type} {step : σ → ε → Except δ σ} {answer : σ → ε → ρ}
    {spec : τ → ε → ρ → τ → Prop} {R : σ → τ → Prop}
    (hstep : ∀ s t e s', R s t → step s e = .ok s' → ∃ t', spec t e (answer s e) t' ∧ R s' t')
    {es : List ε} {s s' : σ} {t : τ} (hR : R s t) (h : es.foldlM step s = .ok s') :
    ∃ t', SpecRun spec t es (answers step answer s es) t' ∧ R s' t' := by
  induction es generalizing s t with
  | nil =>
      cases h
      exact ⟨t, .nil t, hR⟩
  | cons e es ih =>
      rw [List.foldlM_cons] at h
      cases hs : step s e with
      | error fault =>
          rw [hs] at h
          cases h
      | ok s₁ =>
          rw [hs] at h
          obtain ⟨t₁, hspec, hR₁⟩ := hstep s t e s₁ hR hs
          obtain ⟨t', hrest, hR'⟩ := ih hR₁ h
          refine ⟨t', ?_, hR'⟩
          rw [answers, hs]
          exact .cons hspec hrest

/-- Every event of the run is one that `C` allows in the state before it. The states are those
of the run itself, so a precondition may speak about what earlier events have done. -/
def Admitted (step : σ → ε → Option (σ × ρ)) (C : σ → ε → Prop) : σ → List ε → Prop
  | _, [] => True
  | s, e :: es => C s e ∧ ∀ s' r, step s e = some (s', r) → Admitted step C s' es

/-- A precondition that does not depend on the state. -/
theorem admitted_of_forall {step : σ → ε → Option (σ × ρ)} {C : ε → Prop} {es : List ε}
    (h : ∀ e ∈ es, C e) {s : σ} : Admitted step (fun _ => C) s es := by
  induction es generalizing s with
  | nil => trivial
  | cons e es ih =>
      obtain ⟨he, hes⟩ := List.forall_mem_cons.mp h
      exact ⟨he, fun _ _ _ => ih hes⟩

/-- The same for a system that is only asked for what `C` allows. -/
theorem run_refines_of_admitted {step : σ → ε → Option (σ × ρ)} {spec : τ → ε → ρ → τ → Prop}
    {C : σ → ε → Prop} {R : σ → τ → Prop}
    (hstep : ∀ s t e, R s t → C s e →
      ∃ s' r t', step s e = some (s', r) ∧ spec t e r t' ∧ R s' t') :
    ∀ (es : List ε) (s : σ) (t : τ), R s t → Admitted step C s es →
      ∃ s' rs t', run step s es = some (s', rs) ∧ SpecRun spec t es rs t' ∧ R s' t' := by
  intro es
  induction es with
  | nil => exact fun s t hR _ => ⟨s, [], t, rfl, .nil t, hR⟩
  | cons e es ih =>
      intro s t hR hadm
      obtain ⟨s', r, t', hs, hspec, hR'⟩ := hstep s t e hR hadm.1
      obtain ⟨s'', rs, t'', hs', hspec', hR''⟩ := ih s' t' hR' (hadm.2 s' r hs)
      exact ⟨s'', r :: rs, t'', by simp [run, hs, hs'], .cons hspec hspec', hR''⟩

/-- Every step of the run, from one state to the next, has the property `Q`. The step is a
relation, so it may be that a state has no step for an event: the run ends there. -/
def AlwaysStep (step : σ → ε → σ → Prop) (Q : σ → σ → Prop) : σ → List ε → Prop
  | _, [] => True
  | s, e :: es => ∀ s', step s e s' → Q s s' ∧ AlwaysStep step Q s' es

/-- An invariant that gives the property of each step gives it for the steps of every run. -/
theorem alwaysStep_of_invariant {step : σ → ε → σ → Prop} {Q : σ → σ → Prop} {I : σ → Prop}
    {es : List ε} (hstep : ∀ e ∈ es, ∀ s s', I s → step s e s' → I s' ∧ Q s s') {s : σ} (hs : I s) :
    AlwaysStep step Q s es := by
  induction es generalizing s with
  | nil => trivial
  | cons e es ih =>
      intro s' h
      obtain ⟨hs', hQ⟩ := hstep e List.mem_cons_self s s' hs h
      exact ⟨hQ, ih (fun e he => hstep e (List.mem_cons_of_mem _ he)) hs'⟩

/-- The property `P` holds in every state of the run, the first and the last included. -/
def Always (step : σ → ε → σ → Prop) (P : σ → Prop) : σ → List ε → Prop
  | s, [] => P s
  | s, e :: es => P s ∧ ∀ s', step s e s' → Always step P s' es

/-- Every event that the run takes meets the condition `C` in the state before it. -/
def AlwaysBefore (step : σ → ε → σ → Prop) (C : σ → ε → Prop) : σ → List ε → Prop
  | _, [] => True
  | s, e :: es => ∀ s', step s e s' → C s e ∧ AlwaysBefore step C s' es

/-- What holds in every state of a run holds in its first one. -/
theorem Always.head {step : σ → ε → σ → Prop} {P : σ → Prop} {s : σ} {es : List ε}
    (h : Always step P s es) : P s := by
  cases es with
  | nil => exact h
  | cons e es => exact h.1

/-- A property may be weakened. -/
theorem Always.imp {step : σ → ε → σ → Prop} {P Q : σ → Prop} (hPQ : ∀ s, P s → Q s) {s : σ}
    {es : List ε} (h : Always step P s es) : Always step Q s es := by
  induction es generalizing s with
  | nil => exact hPQ s h
  | cons e es ih => exact ⟨hPQ s h.1, fun s' hs' => ih (h.2 s' hs')⟩

/-- What a step keeps under the condition, a run keeps under it. -/
theorem always_of_alwaysBefore {step : σ → ε → σ → Prop} {C : σ → ε → Prop} {I : σ → Prop}
    (hstep : ∀ s e s', I s → C s e → step s e s' → I s') {s : σ} {es : List ε} (hs : I s)
    (h : AlwaysBefore step C s es) : Always step I s es := by
  induction es generalizing s with
  | nil => exact hs
  | cons e es ih =>
      refine ⟨hs, fun s' hs' => ?_⟩
      obtain ⟨hC, hrest⟩ := h s' hs'
      exact ih (hstep s e s' hs hC hs') hrest

/-- **The exact condition of a run.** If a step keeps the property exactly when its event meets
the condition, then a run does: from the first event on that does not, the property is lost. -/
theorem always_iff_alwaysBefore {step : σ → ε → σ → Prop} {P : σ → Prop} {C : σ → ε → Prop}
    (hstep : ∀ s e s', P s → step s e s' → (P s' ↔ C s e)) {s : σ} {es : List ε} (hs : P s) :
    Always step P s es ↔ AlwaysBefore step C s es := by
  constructor
  · intro h
    induction es generalizing s with
    | nil => trivial
    | cons e es ih =>
        intro s' hs'
        have hnext := (h.2 s' hs').head
        exact ⟨(hstep s e s' hs hs').mp hnext, ih hnext (h.2 s' hs')⟩
  · exact always_of_alwaysBefore (fun s e s' hP hC hs' => (hstep s e s' hP hs').mpr hC) hs

end Run
