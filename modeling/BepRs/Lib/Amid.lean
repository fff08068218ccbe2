/-
  BepRs.Lib.Amid — one task among others, up to any moment of its run.

  `run` of `Lib.Task` takes a task to its end with nobody else at work. Here others may
  change the state between any two of its operations, as far as `E` lets them, and the run
  is looked at wherever it has got to (`Outcome`): returned, panicked or still under way.
  `Amid` keeps what the task asked for and how each operation was answered.

  - `amid_call`, `amid_bind`: what a run up to some moment is, operation by operation and for
    a sequence.
  - `amid_seq`, `amid_seq_panicked`: such a run of a sequence from those of its parts.
  - `amid_run`: a run to the end with nobody else at work is one of these runs.
-/

import BepRs.Lib.Task
import Mathlib.Logic.Relation

namespace BepRs.Lib.Task

variable {S : Sig} {W α β : Type}

/-- An operation and its answer; `none` where it panicked. -/
abbrev Event (S : Sig) := (o : S.Op) × Option (S.Ans o)

inductive Outcome (α : Type) where
  | returned (a : α)
  | panicked
  | underway

def Outcome.ofOption : Option α → Outcome α
  | some a => .returned a
  | none => .panicked

inductive Amid (M : Machine S W) (E : W → W → Prop) : Prog S α → W → List (Event S) → W → Outcome α → Prop
  | stop {p : Prog S α} {w : W} : Amid M E p w [] w .underway
  | ret {a : α} {w : W} : Amid M E (.ret a) w [] w (.returned a)
  | panic {w : W} : Amid M E .panic w [] w .panicked
  | other {p : Prog S α} {w w' w'' : W} {tr : List (Event S)} {x : Outcome α} :
      E w w' → Amid M E p w' tr w'' x → Amid M E p w tr w'' x
  | answer {o : S.Op} {k : S.Ans o → Prog S α} {w w' w'' : W} {r : S.Ans o} {tr : List (Event S)} {x : Outcome α} :
      M w o = (w', some r) → Amid M E (k r) w' tr w'' x → Amid M E (.ask o k) w (⟨o, some r⟩ :: tr) w'' x
  | crash {o : S.Op} {k : S.Ans o → Prog S α} {w w' : W} :
      M w o = (w', none) → Amid M E (.ask o k) w [⟨o, none⟩] w' .panicked

/-- Nobody else is at work. -/
def alone : W → W → Prop := fun _ _ => False

section Rules

variable {M : Machine S W} {E : W → W → Prop}

theorem amid_others {p : Prog S α} {w w' w'' : W} {tr : List (Event S)} {x : Outcome α} (h : Relation.ReflTransGen E w w')
    (hrest : Amid M E p w' tr w'' x) : Amid M E p w tr w'' x := by
  induction h using Relation.ReflTransGen.head_induction_on with
  | refl => exact hrest
  | head hE _ ih => exact .other hE ih

theorem amid_ret {a : α} {w w' : W} {tr : List (Event S)} {x : Outcome α} (h : Amid M E (.ret a) w tr w' x) :
    tr = [] ∧ Relation.ReflTransGen E w w' ∧ (x = .returned a ∨ x = .underway) := by
  generalize hp : Prog.ret a = p at h
  induction h with
  | stop => exact ⟨rfl, .refl, Or.inr rfl⟩
  | ret => cases hp; exact ⟨rfl, .refl, Or.inl rfl⟩
  | panic => cases hp
  | other hE _ ih =>
    obtain ⟨htr, hothers, hx⟩ := ih hp
    exact ⟨htr, .head hE hothers, hx⟩
  | answer _ _ => cases hp
  | crash _ => cases hp

theorem amid_panic {w w' : W} {tr : List (Event S)} {x : Outcome α} (h : Amid M E .panic w tr w' x) :
    tr = [] ∧ Relation.ReflTransGen E w w' ∧ (x = .panicked ∨ x = .underway) := by
  generalize hp : (Prog.panic : Prog S α) = p at h
  induction h with
  | stop => exact ⟨rfl, .refl, Or.inr rfl⟩
  | ret => cases hp
  | panic => exact ⟨rfl, .refl, Or.inl rfl⟩
  | other hE _ ih =>
    obtain ⟨htr, hothers, hx⟩ := ih hp
    exact ⟨htr, .head hE hothers, hx⟩
  | answer _ _ => cases hp
  | crash _ => cases hp

/-- Others act for a while; then the operation has not been asked for yet, panics, or is
    answered and the task goes on. -/
theorem amid_ask {o : S.Op} {k : S.Ans o → Prog S α} {w w' : W} {tr : List (Event S)} {x : Outcome α}
    (h : Amid M E (.ask o k) w tr w' x) : ∃ w₁, Relation.ReflTransGen E w w₁ ∧
      ((w' = w₁ ∧ tr = [] ∧ x = .underway) ∨ (M w₁ o = (w', none) ∧ tr = [⟨o, none⟩] ∧ x = .panicked) ∨
        ∃ w₂ r tr', M w₁ o = (w₂, some r) ∧ tr = ⟨o, some r⟩ :: tr' ∧ Amid M E (k r) w₂ tr' w' x) := by
  generalize hp : Prog.ask o k = p at h
  induction h with
  | stop => exact ⟨_, .refl, Or.inl ⟨rfl, rfl, rfl⟩⟩
  | ret => cases hp
  | panic => cases hp
  | other hE _ ih =>
    obtain ⟨w₁, hothers, hrest⟩ := ih hp
    exact ⟨w₁, .head hE hothers, hrest⟩
  | answer hM hrest => cases hp; exact ⟨_, .refl, Or.inr (Or.inr ⟨_, _, _, hM, rfl, hrest⟩)⟩
  | crash hM => cases hp; exact ⟨_, .refl, Or.inr (Or.inl ⟨hM, rfl, rfl⟩)⟩

theorem amid_call {o : S.Op} {f : S.Ans o → Prog S α} {w w' : W} {tr : List (Event S)} {x : Outcome α}
    (h : Amid M E (call o >>= f) w tr w' x) : ∃ w₁, Relation.ReflTransGen E w w₁ ∧
      ((w' = w₁ ∧ tr = [] ∧ x = .underway) ∨ (M w₁ o = (w', none) ∧ tr = [⟨o, none⟩] ∧ x = .panicked) ∨
        ∃ w₂ r tr', M w₁ o = (w₂, some r) ∧ tr = ⟨o, some r⟩ :: tr' ∧ Amid M E (f r) w₂ tr' w' x) := amid_ask h

/-- A sequence: its first part has not returned, or it has and the rest is under way. -/
theorem amid_bind {f : α → Prog S β} : ∀ {p : Prog S α} {w w' : W} {tr : List (Event S)} {x : Outcome β},
    Amid M E (p >>= f) w tr w' x →
      (x = .underway ∧ Amid M E p w tr w' .underway) ∨ (x = .panicked ∧ Amid M E p w tr w' .panicked) ∨
        ∃ a w₁ tr₁ tr₂, Amid M E p w tr₁ w₁ (.returned a) ∧ tr = tr₁ ++ tr₂ ∧ Amid M E (f a) w₁ tr₂ w' x := by
  intro p
  induction p with
  | ret a => intro w w' tr x h; exact Or.inr (Or.inr ⟨a, w, [], tr, .ret, rfl, h⟩)
  | panic =>
    intro w w' tr x h
    obtain ⟨htr, hothers, hx⟩ := amid_panic h
    subst htr
    rcases hx with hx | hx
    · exact Or.inr (Or.inl ⟨hx, amid_others hothers .panic⟩)
    · exact Or.inl ⟨hx, amid_others hothers .stop⟩
  | ask o k ih =>
    intro w w' tr x h
    obtain ⟨w₁, hothers, hcase⟩ := amid_ask h
    rcases hcase with ⟨hw, htr, hx⟩ | ⟨hM, htr, hx⟩ | ⟨w₂, r, tr', hM, htr, hrest⟩
    · subst hw htr hx
      exact Or.inl ⟨rfl, amid_others hothers .stop⟩
    · subst htr hx
      exact Or.inr (Or.inl ⟨rfl, amid_others hothers (.crash hM)⟩)
    · subst htr
      rcases ih r hrest with ⟨hx, hk⟩ | ⟨hx, hk⟩ | ⟨a, w₃, tr₁, tr₂, hk, htr', hf⟩
      · exact Or.inl ⟨hx, amid_others hothers (.answer hM hk)⟩
      · exact Or.inr (Or.inl ⟨hx, amid_others hothers (.answer hM hk)⟩)
      · subst htr'
        exact Or.inr (Or.inr ⟨a, w₃, _, tr₂, amid_others hothers (.answer hM hk), rfl, hf⟩)

theorem amid_seq {f : α → Prog S β} {p : Prog S α} {w w₁ w' : W} {tr₁ tr₂ : List (Event S)} {y : Outcome α} {a : α}
    {x : Outcome β} (h : Amid M E p w tr₁ w₁ y) (hy : y = .returned a) (hf : Amid M E (f a) w₁ tr₂ w' x) :
    Amid M E (p >>= f) w (tr₁ ++ tr₂) w' x := by
  induction h with
  | stop => cases hy
  | ret => cases hy; exact hf
  | panic => cases hy
  | other hE _ ih => exact .other hE (ih hy hf)
  | answer hM _ ih => exact .answer hM (ih hy hf)
  | crash _ => cases hy

theorem amid_seq_panicked {f : α → Prog S β} {p : Prog S α} {w w' : W} {tr : List (Event S)} {y : Outcome α}
    (h : Amid M E p w tr w' y) (hy : y = .panicked) : Amid M E (p >>= f) w tr w' .panicked := by
  induction h with
  | stop => cases hy
  | ret => cases hy
  | panic => exact .panic
  | other hE _ ih => exact .other hE (ih hy)
  | answer hM _ ih => exact .answer hM (ih hy)
  | crash hM => exact .crash hM

theorem eq_of_alone {w w' : W} (h : Relation.ReflTransGen alone w w') : w' = w := by
  induction h with
  | refl => rfl
  | tail _ hE _ => exact hE.elim

/-- A run to the end with nobody else at work. -/
theorem amid_run (M : Machine S W) (E : W → W → Prop) : ∀ (p : Prog S α) (w : W),
    ∃ tr, Amid M E p w tr (run M p w).1 (Outcome.ofOption (run M p w).2) := by
  intro p
  induction p with
  | ret a => intro w; exact ⟨[], .ret⟩
  | panic => intro w; exact ⟨[], .panic⟩
  | ask o k ih =>
    intro w
    rcases h : M w o with ⟨w', _ | r⟩
    · rw [run_ask_none h]
      exact ⟨_, .crash h⟩
    · rw [run_ask_some h]
      obtain ⟨tr, htr⟩ := ih r w'
      exact ⟨_, .answer h htr⟩

end Rules

end BepRs.Lib.Task
