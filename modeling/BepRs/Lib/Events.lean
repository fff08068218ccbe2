/-
  BepRs.Lib.Events — systems that take one step for each event.

  `step e s` is the state after the event, or `none` where the event cannot happen. A run is
  a list of events (`run`), and `Steps` relates the states of all runs.
  - `steps_inv`: what every step keeps, every run keeps.
  - `run_trans`, `run_concat`: two runs one after the other, the last step of a run.
  - `along_inv`: what steps that meet a condition keep, a run that meets it all along keeps.
  - `along_iff`: where the condition is exact for one step, it is for a run.
  - `along_outputs`: a condition on what a step gives out, from the list of all of it.
-/

import Mathlib.Data.List.Induction
import Mathlib.Logic.Relation

namespace BepRs.Lib.Events

variable {E S : Type} (step : E → S → Option S)

/-- The steps from one state to another, in any order the events can happen. -/
def Steps : S → S → Prop := Relation.ReflTransGen fun s s' => ∃ e, step e s = some s'

def run : List E → S → Option S
  | [], s => some s
  | e :: es, s => (step e s).bind (run es)

variable {step}

theorem steps_inv {I : S → Prop} (hI : ∀ {e s s'}, I s → step e s = some s' → I s') {s s' : S} (h : I s)
    (hs : Steps step s s') : I s' := by
  induction hs with
  | refl => exact h
  | tail _ hstep ih =>
    obtain ⟨e, he⟩ := hstep
    exact hI ih he

theorem steps_run : ∀ {es : List E} {s s' : S}, run step es s = some s' → Steps step s s' := by
  intro es
  induction es with
  | nil => intro s s' h; cases h; exact Relation.ReflTransGen.refl
  | cons e es ih =>
    intro s s' h
    obtain ⟨s₁, he, hrest⟩ := Option.bind_eq_some_iff.mp h
    exact Relation.ReflTransGen.head ⟨e, he⟩ (ih hrest)

theorem run_append {es es' : List E} {s : S} : run step (es ++ es') s = (run step es s).bind (run step es') := by
  induction es generalizing s with
  | nil => rfl
  | cons e es ih =>
    simp only [List.cons_append, run, Option.bind_assoc]
    exact congrArg (step e s).bind (funext fun _ => ih)

theorem run_trans {es es' : List E} {s s₁ s₂ : S} (h : run step es s = some s₁) (h' : run step es' s₁ = some s₂) :
    run step (es ++ es') s = some s₂ := by
  rw [run_append, h]
  exact h'

theorem run_concat {es : List E} {e : E} {s s' : S} :
    run step (es ++ [e]) s = some s' ↔ ∃ s₁, run step es s = some s₁ ∧ step e s₁ = some s' := by
  rw [run_append, Option.bind_eq_some_iff]
  simp [run]

/-- A run has its first part. -/
theorem run_prefix {es es' : List E} {s s' : S} (h : run step es s = some s') (hpre : es' <+: es) :
    ∃ s₁, run step es' s = some s₁ := by
  obtain ⟨rest, rfl⟩ := hpre
  rw [run_append] at h
  obtain ⟨s₁, hs, -⟩ := Option.bind_eq_some_iff.mp h
  exact ⟨s₁, hs⟩

/-! ## What every step of a run meets -/

variable (step) in
/-- Every event of the run meets `P` in the state it happens in. -/
def Along (P : E → S → Prop) (es : List E) (s : S) : Prop :=
  ∀ es' e s', es' ++ [e] <+: es → run step es' s = some s' → P e s'

theorem along_initial {P : E → S → Prop} {es es' : List E} {s : S} (h : Along step P es s) (hpre : es' <+: es) :
    Along step P es' s :=
  fun es₁ e s₁ hpre' hrun => h es₁ e s₁ (hpre'.trans hpre) hrun

/-- The last event of a run that meets `P` all along. -/
theorem along_last {P : E → S → Prop} {es : List E} {e : E} {s s' : S} (h : Along step P (es ++ [e]) s)
    (hrun : run step es s = some s') : P e s' := h es e s' (List.prefix_refl _) hrun

/-- The second part of a run that meets `P` all along. -/
theorem along_suffix {P : E → S → Prop} {es es' : List E} {s s₁ : S} (h : Along step P (es ++ es') s)
    (hrun : run step es s = some s₁) : Along step P es' s₁ := by
  intro es₁ e s₂ hpre hrun'
  refine h (es ++ es₁) e s₂ ?_ (run_trans hrun hrun')
  rw [List.append_assoc]
  exact (List.prefix_append_right_inj es).mpr hpre

/-- What steps that meet `P` keep, a run that meets it all along keeps. -/
theorem along_inv {P : E → S → Prop} {I : S → Prop} (hI : ∀ {e s s'}, I s → P e s → step e s = some s' → I s') :
    ∀ {es : List E} {s s' : S}, Along step P es s → I s → run step es s = some s' → I s' := by
  intro es
  induction es using List.reverseRecOn with
  | nil => intro s s' _ hs h; cases h; exact hs
  | append_singleton es e ih =>
    intro s s' hP hs h
    obtain ⟨s₁, hes, he⟩ := run_concat.mp h
    exact hI (ih (along_initial hP (List.prefix_append es [e])) hs hes) (along_last hP hes) he

/-- Where `P` is just what a step needs to keep `I`, a run keeps `I` exactly when it meets `P`
    all along; `J` is what every step keeps. -/
theorem along_iff {P : E → S → Prop} {I J : S → Prop} (hJ : ∀ {e s s'}, J s → step e s = some s' → J s')
    (hI : ∀ {e s}, J s → I s → ((∀ s', step e s = some s' → I s') ↔ P e s)) {es : List E} {s : S} (hj : J s) (hi : I s) :
    (∀ es' s', es' <+: es → run step es' s = some s' → I s') ↔ Along step P es s := by
  constructor
  · intro h es' e s' hpre hrun
    have hpre' : es' <+: es := (List.prefix_append es' [e]).trans hpre
    have hj' := steps_inv hJ hj (steps_run hrun)
    exact (hI hj' (h es' s' hpre' hrun)).mp fun s'' hs => h _ s'' hpre (run_concat.mpr ⟨s', hrun, hs⟩)
  · intro h es' s' hpre hrun
    have hboth := along_inv (I := fun s => J s ∧ I s) (fun hs hp he => ⟨hJ hs.1 he, (hI hs.1 hs.2).mpr hp _ he⟩)
      (along_initial h hpre) ⟨hj, hi⟩ hrun
    exact hboth.2

/-! ## What a run gives out -/

variable {O : Type}

variable (step) in
def outputs (out : E → S → O) : List E → S → List O
  | [], _ => []
  | e :: es, s => out e s :: ((step e s).map (outputs out es)).getD []

/-- What holds of everything a run gives out, holds all along. -/
theorem along_outputs {out : E → S → O} {Q : O → Prop} : ∀ {es : List E} {s : S}, (∀ o ∈ outputs step out es s, Q o) →
    Along step (fun e s => Q (out e s)) es s := by
  intro es
  induction es with
  | nil => intro s _ es' e s' hpre; simp at hpre
  | cons e es ih =>
    intro s hall es' e' s' hpre hrun
    cases es' with
    | nil =>
      cases hrun
      obtain rfl : e' = e := by simpa using hpre
      exact hall _ List.mem_cons_self
    | cons e₁ es' =>
      obtain ⟨rfl, hrest⟩ := List.cons_prefix_cons.mp hpre
      obtain ⟨s₁, hstep, hrun⟩ := Option.bind_eq_some_iff.mp hrun
      refine ih (fun o ho => hall o (List.mem_cons_of_mem _ ?_)) es' e' s' hrest hrun
      rw [hstep]
      exact ho

end BepRs.Lib.Events
