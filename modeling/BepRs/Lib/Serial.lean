/-
  BepRs.Lib.Serial — tasks that look at a shared state, go away, and come back to write.

  A pool of tasks (`progs`) runs on a machine, one operation at a time in any order
  (`step`). States are compared up to an equivalence the machine respects (`E`), and some
  operations are neutral (`N`): they change nothing and their answers never change. A task
  is before its first look until its first operation that is not neutral; after that it is
  fresh as long as no other task has changed the state, then stale. It is inert once only
  neutral operations are left to it.

  `InTurn` is the rule under which nothing is lost: a task looks for the first time only when
  no task that has changed the state is still under way, and goes on from there only while
  it is fresh. Then at most one task that has changed the state is under way, and nothing
  else is fresh beside it, so each task could as well have run alone when it became inert:
  - `path_serial`: when all tasks have ended, the state is that of running them one after
    another in some order.
  - `path_safe`: an operation that no task asks for in a bad state when it runs alone is
    not asked for in a bad state.
-/

import BepRs.Lib.Task
import Mathlib.Data.Fintype.Basic
import Mathlib.Logic.Function.Basic

namespace BepRs.Lib.Serial

open BepRs.Lib.Task

variable {S : Sig} {W ι : Type}

/-- What a task has seen of the state. -/
inductive Phase where
  | before
  | fresh (wrote : Bool)
  | stale
  deriving DecidableEq, Repr

def Phase.looked : Phase → Phase
  | .before => .fresh false
  | p => p

def Phase.wrote : Phase → Phase
  | .stale => .stale
  | _ => .fresh true

def Phase.outdated : Phase → Phase
  | .fresh _ => .stale
  | p => p

structure Pool (S : Sig) (W ι : Type) where
  shared : W
  now : ι → Prog S Unit
  phase : ι → Phase

def Pool.start (progs : ι → Prog S Unit) (w : W) : Pool S W ι := ⟨w, progs, fun _ => .before⟩

/-! ## Steps -/

section Steps

variable (M : Machine S W) (E : W → W → Prop) [DecidableRel E] (N : S.Op → Prop) [DecidablePred N] [DecidableEq ι]

/-- A task after an answer, or a panic. -/
def resume {o : S.Op} (k : S.Ans o → Prog S Unit) : Option (S.Ans o) → Prog S Unit
  | some x => k x
  | none => .panic

/-- The next operation of a task. -/
def Pool.step (c : Pool S W ι) (i : ι) : Pool S W ι :=
  match c.now i with
  | .ask o k =>
    { shared := (M c.shared o).1
      now := Function.update c.now i (resume k (M c.shared o).2)
      phase :=
        if N o then c.phase
        else if E c.shared (M c.shared o).1 then Function.update c.phase i (c.phase i).looked
        else fun j => if j = i then (c.phase i).wrote else (c.phase j).outdated }
  | _ => c

/-- Only neutral operations are left. -/
def Inert (p : Prog S Unit) : Prop := Ok N (fun _ _ => True) (fun _ => True) p

/-- The rule for the next step of a task. -/
def InTurn (c : Pool S W ι) (i : ι) : Prop :=
  Inert N (c.now i) ∨ (∃ b, c.phase i = .fresh b) ∨
    c.phase i = .before ∧ ((∃ o k, c.now i = .ask o k ∧ N o) ∨ ∀ j, c.phase j = .fresh true → Inert N (c.now j))

/-- Runs of a pool whose steps meet `A`. -/
inductive Path (A : Pool S W ι → ι → Prop) (c₀ : Pool S W ι) : Pool S W ι → Prop
  | init : Path A c₀ c₀
  | step {c : Pool S W ι} {i : ι} : Path A c₀ c → A c i → Path A c₀ (c.step M E N i)

/-- The tasks one after another, each run to its end. -/
def serial (progs : ι → Prog S Unit) (σ : List ι) (w : W) : W := σ.foldl (fun w i => (run M (progs i) w).1) w

/-- The task, run alone, asks for no operation in a bad state. -/
def Safe (Bad : W → S.Op → Prop) : Prog S Unit → W → Prop
  | .ret _, _ => True
  | .panic, _ => True
  | .ask o k, w => ¬ Bad w o ∧ ∀ r, (M w o).2 = some r → Safe Bad (k r) (M w o).1

end Steps

/-- Every schedule is a run. -/
theorem path_schedule {M : Machine S W} {E : W → W → Prop} [DecidableRel E] {N : S.Op → Prop} [DecidablePred N]
    [DecidableEq ι] {c₀ : Pool S W ι} : ∀ (schedule : List ι) {c : Pool S W ι}, Path M E N (fun _ _ => True) c₀ c →
      Path M E N (fun _ _ => True) c₀ (schedule.foldl (Pool.step M E N) c) := by
  intro schedule
  induction schedule with
  | nil => intro c h; exact h
  | cons i rest ih => intro c h; exact ih (.step h trivial)

def ended : Prog S Unit → Bool
  | .ask _ _ => false
  | _ => true

theorem inert_of_ended {N : S.Op → Prop} {p : Prog S Unit} (h : ended p = true) : Inert N p := by
  cases p with
  | ret a => trivial
  | panic => trivial
  | ask o k => cases h

/-! ## The machine -/

/-- What the equivalence, the neutral operations and the bad states must satisfy. -/
structure Laws (M : Machine S W) (E : W → W → Prop) (N : S.Op → Prop) (Bad : W → S.Op → Prop) : Prop where
  equiv : Equivalence E
  answers : ∀ {w w'} (o), E w w' → (M w o).2 = (M w' o).2
  states : ∀ {w w'} (o), E w w' → E (M w o).1 (M w' o).1
  neutral_state : ∀ w o, N o → (M w o).1 = w
  neutral_answer : ∀ w o o', N o → (M (M w o').1 o).2 = (M w o).2
  neutral_safe : ∀ w o, N o → ¬ Bad w o
  bad : ∀ {w w'} (o), E w w' → Bad w o → Bad w' o

section Machine

variable {M : Machine S W} {E : W → W → Prop} {N : S.Op → Prop} {Bad : W → S.Op → Prop} (L : Laws M E N Bad)

theorem run_resume (w : W) (o : S.Op) (k : S.Ans o → Prog S Unit) :
    (run M (.ask o k) w).1 = (run M (resume k (M w o).2) (M w o).1).1 := by
  rcases h : M w o with ⟨w', _ | x⟩
  · rw [run_ask_none h]; rfl
  · rw [run_ask_some h]; rfl

theorem safe_resume {w : W} {o : S.Op} {k : S.Ans o → Prog S Unit} (h : Safe M Bad (.ask o k) w) :
    Safe M Bad (resume k (M w o).2) (M w o).1 := by
  cases hx : (M w o).2 with
  | none => trivial
  | some x => exact h.2 x hx

theorem serial_append (progs : ι → Prog S Unit) (σ τ : List ι) (w : W) :
    serial M progs (σ ++ τ) w = serial M progs τ (serial M progs σ w) := List.foldl_append

include L

theorem run_congr : ∀ (p : Prog S Unit) {w w' : W}, E w w' → E (run M p w).1 (run M p w').1 := by
  intro p
  induction p with
  | ret a => intro w w' h; exact h
  | panic => intro w w' h; exact h
  | ask o k ih =>
    intro w w' h
    have hstate := L.states o h
    rw [run_resume, run_resume, L.answers o h]
    cases (M w' o).2 with
    | none => exact hstate
    | some x => exact ih x hstate

theorem safe_congr : ∀ (p : Prog S Unit) {w w' : W}, E w w' → Safe M Bad p w → Safe M Bad p w' := by
  intro p
  induction p with
  | ret a => intro w w' _ _; trivial
  | panic => intro w w' _ _; trivial
  | ask o k ih =>
    intro w w' h hs
    refine ⟨fun hb => hs.1 (L.bad o (L.equiv.symm h) hb), fun x hx => ?_⟩
    rw [← L.answers o h] at hx
    exact ih x (L.states o h) (hs.2 x hx)

theorem run_inert : ∀ {p : Prog S Unit} (w : W), Inert N p → (run M p w).1 = w := by
  intro p
  induction p with
  | ret a => intro w _; rfl
  | panic => intro w _; rfl
  | ask o k ih =>
    intro w h
    rw [run_resume, L.neutral_state w o h.1]
    cases (M w o).2 with
    | none => rfl
    | some x => exact ih x w (h.2 x trivial)

end Machine

/-! ## One step -/

section Invariant

variable {M : Machine S W} {E : W → W → Prop} [DecidableRel E] {N : S.Op → Prop} [DecidablePred N]
  {Bad : W → S.Op → Prop} [DecidableEq ι] (progs : ι → Prog S Unit) (w₀ : W)

/-- The tasks that count as run, in order (`σ`), and what the others still have to do. -/
structure Inv (M : Machine S W) (E : W → W → Prop) (N : S.Op → Prop) (Bad : W → S.Op → Prop) (c : Pool S W ι) (σ : List ι) :
    Prop where
  nodup : σ.Nodup
  const : ∀ o, N o → (M c.shared o).2 = (M w₀ o).2
  mem : ∀ i, i ∈ σ ↔ c.phase i ≠ .before ∧ Inert N (c.now i)
  waiting : ∀ i, c.phase i = .before → ∀ w, (∀ o, N o → (M w o).2 = (M w₀ o).2) →
    (run M (c.now i) w).1 = (run M (progs i) w).1 ∧ Safe M Bad (c.now i) w
  fresh : ∀ i b, c.phase i = .fresh b → ¬ Inert N (c.now i) → Safe M Bad (c.now i) c.shared ∧
    E (run M (c.now i) c.shared).1 (run M (progs i) (serial M progs σ w₀)).1
  alone : ∀ i j b, c.phase i = .fresh true → ¬ Inert N (c.now i) → c.phase j = .fresh b → ¬ Inert N (c.now j) → j = i
  clean : (∀ i, c.phase i = .fresh true → Inert N (c.now i)) → E c.shared (serial M progs σ w₀)

variable {progs w₀} (L : Laws M E N Bad) {c : Pool S W ι} {σ : List ι} {i : ι} {o : S.Op} {k : S.Ans o → Prog S Unit}

theorem step_ask (hnow : c.now i = .ask o k) :
    c.step M E N i =
      { shared := (M c.shared o).1
        now := Function.update c.now i (resume k (M c.shared o).2)
        phase :=
          if N o then c.phase
          else if E c.shared (M c.shared o).1 then Function.update c.phase i (c.phase i).looked
          else fun j => if j = i then (c.phase i).wrote else (c.phase j).outdated } := by
  simp only [Pool.step, hnow]

theorem step_shared (hnow : c.now i = .ask o k) : (c.step M E N i).shared = (M c.shared o).1 := by rw [step_ask hnow]

theorem step_self (hnow : c.now i = .ask o k) : (c.step M E N i).now i = resume k (M c.shared o).2 := by
  rw [step_ask hnow]; simp

theorem step_other (hnow : c.now i = .ask o k) {j : ι} (hj : j ≠ i) : (c.step M E N i).now j = c.now j := by
  rw [step_ask hnow]; exact Function.update_of_ne hj _ _

theorem Phase.outdated_ne_fresh (p : Phase) (b : Bool) : p.outdated ≠ .fresh b := by
  cases p <;> simp [Phase.outdated]

theorem Phase.outdated_before {p : Phase} : p.outdated = .before ↔ p = .before := by
  cases p <;> simp [Phase.outdated]

/-- The next step of a task that has looked, or looks now, with no other writer under way. -/
structure Acts (progs : ι → Prog S Unit) (w₀ : W) (M : Machine S W) (E : W → W → Prop) (N : S.Op → Prop)
    (Bad : W → S.Op → Prop) (c : Pool S W ι) (σ : List ι) (i : ι) (o : S.Op) (k : S.Ans o → Prog S Unit) : Prop where
  inv : Inv progs w₀ M E N Bad c σ
  now : c.now i = .ask o k
  current : c.phase i ≠ .stale
  first : c.phase i = .before → ¬ N o
  live : ¬ Inert N (c.now i)
  safe : Safe M Bad (c.now i) c.shared
  run : E (Task.run M (c.now i) c.shared).1 (Task.run M (progs i) (serial M progs σ w₀)).1
  clear : ∀ j, j ≠ i → c.phase j = .fresh true → Inert N (c.now j)

omit [DecidableRel E] [DecidablePred N] [DecidableEq ι] in
theorem Acts.not_run (h : Acts progs w₀ M E N Bad c σ i o k) : i ∉ σ := fun hi => h.live ((h.inv.mem i).mp hi).2

omit [DecidableRel E] [DecidablePred N] in
theorem Acts.clean (h : Acts progs w₀ M E N Bad c σ i o k) (hw : c.phase i ≠ .fresh true) :
    E c.shared (serial M progs σ w₀) := by
  refine h.inv.clean fun j hj => ?_
  by_cases hji : j = i
  · subst hji; exact absurd hj hw
  · exact h.clear j hji hj

/-- The rest of the task, from the new state. -/
theorem Acts.rest (h : Acts progs w₀ M E N Bad c σ i o k) :
    Safe M Bad ((c.step M E N i).now i) (c.step M E N i).shared ∧
      E (Task.run M ((c.step M E N i).now i) (c.step M E N i).shared).1 (Task.run M (progs i) (serial M progs σ w₀)).1 := by
  have hsafe := h.safe
  rw [step_self h.now, step_shared h.now]
  refine ⟨?_, ?_⟩
  · rw [h.now] at hsafe
    exact safe_resume hsafe
  · rw [← run_resume, ← h.now]; exact h.run

include L

section Acts

variable (h : Acts progs w₀ M E N Bad c σ i o k)

include h

/-- The phases after the step: the task's own, and the others'. -/
theorem Acts.step_phase : (E c.shared (M c.shared o).1 ∧ (∀ j, j ≠ i → (c.step M E N i).phase j = c.phase j) ∧
        ∃ b, (c.step M E N i).phase i = .fresh b ∧ (b = true ↔ c.phase i = .fresh true)) ∨
      ((∀ j, j ≠ i → (c.step M E N i).phase j = (c.phase j).outdated) ∧ (c.step M E N i).phase i = .fresh true) := by
  have hfirst := h.first
  have hstale := h.current
  rw [step_ask h.now]
  by_cases hN : N o
  · refine Or.inl ⟨by rw [L.neutral_state c.shared o hN]; exact L.equiv.refl _, fun j _ => by simp only [if_pos hN], ?_⟩
    simp only [if_pos hN]
    cases hp : c.phase i with
    | before => exact absurd hN (hfirst hp)
    | fresh b => exact ⟨b, rfl, by simp⟩
    | stale => exact absurd hp hstale
  · by_cases hE : E c.shared (M c.shared o).1
    · refine Or.inl ⟨hE, fun j hj => by simp only [if_neg hN, if_pos hE, Function.update_of_ne hj], ?_⟩
      simp only [if_neg hN, if_pos hE, Function.update_self]
      cases hp : c.phase i with
      | before => exact ⟨false, rfl, by simp⟩
      | fresh b => exact ⟨b, rfl, by simp⟩
      | stale => exact absurd hp hstale
    · refine Or.inr ⟨fun j hj => by simp only [if_neg hN, if_neg hE, if_neg hj], ?_⟩
      simp only [if_neg hN, if_neg hE, if_true]
      cases hp : c.phase i with
      | before => rfl
      | fresh b => rfl
      | stale => exact absurd hp hstale

theorem Acts.fresh_self : ∃ b, (c.step M E N i).phase i = .fresh b := by
  rcases h.step_phase L with ⟨-, -, b, hb, -⟩ | ⟨-, hb⟩
  · exact ⟨b, hb⟩
  · exact ⟨true, hb⟩

theorem Acts.before_other {j : ι} (hj : j ≠ i) : (c.step M E N i).phase j = .before ↔ c.phase j = .before := by
  rcases h.step_phase L with ⟨-, hsame, -⟩ | ⟨hout, -⟩
  · rw [hsame j hj]
  · rw [hout j hj]; exact Phase.outdated_before

/-- Another task is fresh only if nothing was changed. -/
theorem Acts.fresh_other {j : ι} {b : Bool} (hj : j ≠ i) (hfr : (c.step M E N i).phase j = .fresh b) :
    c.phase j = .fresh b ∧ E c.shared (c.step M E N i).shared ∧
      ((c.step M E N i).phase i = .fresh true → c.phase i = .fresh true) := by
  rcases h.step_phase L with ⟨hE, hsame, b', hb', hiff⟩ | ⟨hout, -⟩
  · refine ⟨by rw [← hsame j hj]; exact hfr, by rw [step_shared h.now]; exact hE, fun ht => ?_⟩
    rw [hb'] at ht
    cases ht
    exact hiff.mp rfl
  · rw [hout j hj] at hfr
    exact absurd hfr (Phase.outdated_ne_fresh _ _)

/-- A task that is no writer after the step was none before, and changed nothing. -/
theorem Acts.unwritten (hb : (c.step M E N i).phase i ≠ .fresh true) :
    E c.shared (c.step M E N i).shared ∧ c.phase i ≠ .fresh true := by
  rcases h.step_phase L with ⟨hE, -, b, hb', hiff⟩ | ⟨-, hb'⟩
  · refine ⟨by rw [step_shared h.now]; exact hE, fun hw => hb ?_⟩
    rw [hb', hiff.mpr hw]
  · exact absurd hb' hb

theorem Acts.const : ∀ o', N o' → (M (c.step M E N i).shared o').2 = (M w₀ o').2 := by
  intro o' ho'
  rw [step_shared h.now, L.neutral_answer c.shared o' o ho', h.inv.const o' ho']

theorem Acts.waiting : ∀ j, (c.step M E N i).phase j = .before → ∀ w, (∀ o, N o → (M w o).2 = (M w₀ o).2) →
    (Task.run M ((c.step M E N i).now j) w).1 = (Task.run M (progs j) w).1 ∧ Safe M Bad ((c.step M E N i).now j) w := by
  intro j hj
  by_cases hji : j = i
  · subst hji
    obtain ⟨b, hb⟩ := h.fresh_self L
    rw [hb] at hj; cases hj
  · rw [step_other h.now hji]
    exact h.inv.waiting j ((h.before_other L hji).mp hj)

theorem Acts.alone : ∀ i₀ j b, (c.step M E N i).phase i₀ = .fresh true → ¬ Inert N ((c.step M E N i).now i₀) →
    (c.step M E N i).phase j = .fresh b → ¬ Inert N ((c.step M E N i).now j) → j = i₀ := by
  intro i₀ j b h1 h2 h3 h4
  by_cases hi₀ : i₀ = i
  · subst hi₀
    by_contra hji
    rw [step_other h.now hji] at h4
    obtain ⟨hj, -, hwrote⟩ := h.fresh_other L hji h3
    exact hji (h.inv.alone i₀ j b (hwrote h1) h.live hj h4)
  · rw [step_other h.now hi₀] at h2
    exact absurd (h.clear i₀ hi₀ (h.fresh_other L hi₀ h1).1) h2

/-- The task is over after the step, and counts as run now. -/
theorem inv_over (hinert : Inert N ((c.step M E N i).now i)) : Inv progs w₀ M E N Bad (c.step M E N i) (σ ++ [i]) := by
  have hend : E (c.step M E N i).shared (serial M progs (σ ++ [i]) w₀) := by
    have hrun := (h.rest).2
    rw [run_inert L _ hinert] at hrun
    rw [serial_append]
    exact hrun
  refine ⟨?_, h.const L, fun j => ?_, h.waiting L, fun j b hj hlive => ?_, h.alone L, fun _ => hend⟩
  · exact List.nodup_append.mpr ⟨h.inv.nodup, List.nodup_singleton i, fun a ha b hb hab =>
      h.not_run (by rw [← List.mem_singleton.mp hb, ← hab]; exact ha)⟩
  · by_cases hji : j = i
    · subst hji
      obtain ⟨b, hb⟩ := h.fresh_self L
      simp [hb, hinert]
    · rw [List.mem_append, List.mem_singleton, or_iff_left hji, h.inv.mem j, step_other h.now hji, ne_eq, ne_eq,
        h.before_other L hji]
  · have hji : j ≠ i := fun he => hlive (he ▸ hinert)
    rw [step_other h.now hji] at hlive ⊢
    obtain ⟨hj, hE, -⟩ := h.fresh_other L hji hj
    obtain ⟨hs, hr⟩ := h.inv.fresh j b hj hlive
    refine ⟨safe_congr L _ hE hs, ?_⟩
    -- Beside a fresh task this one has written nothing.
    have hsame : E (serial M progs σ w₀) (serial M progs (σ ++ [i]) w₀) := by
      have hnw : c.phase i ≠ .fresh true := fun hw => hji (h.inv.alone i j b hw h.live hj hlive)
      exact L.equiv.trans (L.equiv.symm (h.clean hnw)) (L.equiv.trans hE hend)
    exact L.equiv.trans (run_congr L _ (L.equiv.symm hE)) (L.equiv.trans hr (run_congr L _ hsame))

theorem inv_under_way (hlive : ¬ Inert N ((c.step M E N i).now i)) : Inv progs w₀ M E N Bad (c.step M E N i) σ := by
  refine ⟨h.inv.nodup, h.const L, fun j => ?_, h.waiting L, fun j b hj hlive' => ?_, h.alone L, fun hall => ?_⟩
  · by_cases hji : j = i
    · subst hji
      simp [hlive, h.not_run]
    · rw [h.inv.mem j, step_other h.now hji, ne_eq, ne_eq, h.before_other L hji]
  · by_cases hji : j = i
    · subst hji; exact h.rest
    · rw [step_other h.now hji] at hlive' ⊢
      obtain ⟨hj, hE, -⟩ := h.fresh_other L hji hj
      obtain ⟨hs, hr⟩ := h.inv.fresh j b hj hlive'
      exact ⟨safe_congr L _ hE hs, L.equiv.trans (run_congr L _ (L.equiv.symm hE)) hr⟩
  · obtain ⟨hE, hnw⟩ := h.unwritten L fun hb => hlive (hall i hb)
    exact L.equiv.trans (L.equiv.symm hE) (h.clean hnw)

theorem inv_active : ∃ σ', Inv progs w₀ M E N Bad (c.step M E N i) σ' := by
  by_cases hinert : Inert N ((c.step M E N i).now i)
  · exact ⟨σ ++ [i], inv_over L h hinert⟩
  · exact ⟨σ, inv_under_way L h hinert⟩

end Acts

/-- A neutral step of a task that is over, or has not looked yet. -/
theorem inv_neutral (h : Inv progs w₀ M E N Bad c σ) (hnow : c.now i = .ask o k) (hN : N o)
    (hi : Inert N (c.now i) ∨ c.phase i = .before) : Inv progs w₀ M E N Bad (c.step M E N i) σ := by
  have hshared : (c.step M E N i).shared = c.shared := by rw [step_shared hnow]; exact L.neutral_state c.shared o hN
  have hphase : (c.step M E N i).phase = c.phase := by rw [step_ask hnow]; exact if_pos hN
  have hself : (c.step M E N i).now i = resume k (M c.shared o).2 := step_self hnow
  have hother : ∀ j, j ≠ i → (c.step M E N i).now j = c.now j := fun j hj => step_other hnow hj
  have hkeeps : Inert N (c.now i) → Inert N ((c.step M E N i).now i) := by
    intro hin
    rw [hnow] at hin
    rw [hself]
    cases (M c.shared o).2 with
    | none => trivial
    | some x => exact hin.2 x trivial
  -- A task that has looked is inert before and after.
  have hinert : ∀ j, c.phase j ≠ .before → (Inert N ((c.step M E N i).now j) ↔ Inert N (c.now j)) := by
    intro j hj
    by_cases hji : j = i
    · subst hji
      rcases hi with hi | hi
      · exact ⟨fun _ => hi, fun _ => hkeeps hi⟩
      · exact absurd hi hj
    · rw [hother j hji]
  refine ⟨h.nodup, ?_, fun j => ?_, fun j hj w hw => ?_, fun j b hj hlive => ?_, fun i₀ j b h1 h2 h3 h4 => ?_, fun hall => ?_⟩
  · rw [hshared]; exact h.const
  · rw [h.mem j, hphase]
    exact and_congr_right fun hj => (hinert j hj).symm
  · rw [hphase] at hj
    by_cases hji : j = i
    · subst hji
      obtain ⟨hr, hs⟩ := h.waiting j hj w hw
      have hans : (M c.shared o).2 = (M w o).2 := (h.const o hN).trans (hw o hN).symm
      have hstate := L.neutral_state w o hN
      rw [hnow] at hs hr
      rw [hself, hans]
      rw [run_resume, hstate] at hr
      have hs' := safe_resume hs
      rw [hstate] at hs'
      exact ⟨hr, hs'⟩
    · rw [hother j hji]; exact h.waiting j hj w hw
  · rw [hphase] at hj
    have hne : c.phase j ≠ .before := by rw [hj]; simp
    rw [hinert j hne] at hlive
    have hji : j ≠ i := by
      intro he
      subst he
      rcases hi with hi | hi
      · exact hlive hi
      · exact hne hi
    rw [hother j hji, hshared]
    exact h.fresh j b hj hlive
  · rw [hphase] at h1 h3
    rw [hinert i₀ (by rw [h1]; simp)] at h2
    rw [hinert j (by rw [h3]; simp)] at h4
    exact h.alone i₀ j b h1 h2 h3 h4
  · rw [hshared]
    refine h.clean fun j hj => ?_
    rw [← hinert j (by rw [hj]; simp)]
    exact hall j (by rw [hphase]; exact hj)

/-- A step that meets the rule keeps the invariant, and its operation is not a bad one. -/
theorem inv_step (h : Inv progs w₀ M E N Bad c σ) (hturn : InTurn N c i) :
    (∃ σ', Inv progs w₀ M E N Bad (c.step M E N i) σ') ∧ ∀ o k, c.now i = .ask o k → ¬ Bad c.shared o := by
  cases hnow : c.now i with
  | ret a =>
    have hsame : c.step M E N i = c := by simp only [Pool.step, hnow]
    exact ⟨⟨σ, by rw [hsame]; exact h⟩, fun o k he => by cases he⟩
  | panic =>
    have hsame : c.step M E N i = c := by simp only [Pool.step, hnow]
    exact ⟨⟨σ, by rw [hsame]; exact h⟩, fun o k he => by cases he⟩
  | ask o k =>
    by_cases hin : Inert N (c.now i)
    · have hN : N o := by rw [hnow] at hin; exact hin.1
      refine ⟨⟨σ, inv_neutral L h hnow hN (Or.inl hin)⟩, fun o' k' he => ?_⟩
      cases he
      exact L.neutral_safe _ _ hN
    · rcases hturn with hturn | ⟨b, hb⟩ | ⟨hb, hturn⟩
      · exact absurd hturn hin
      · obtain ⟨hs, hr⟩ := h.fresh i b hb hin
        refine ⟨inv_active L ⟨h, hnow, by rw [hb]; simp, fun he => (by rw [hb] at he; cases he), hin, hs, hr,
          fun j hj hw => ?_⟩, fun o' k' he => ?_⟩
        · by_contra hlive
          exact hj (h.alone j i b hw hlive hb hin).symm
        · cases he
          rw [hnow] at hs
          exact hs.1
      · obtain ⟨hr, hs⟩ := h.waiting i hb c.shared h.const
        by_cases hN : N o
        · refine ⟨⟨σ, inv_neutral L h hnow hN (Or.inr hb)⟩, fun o' k' he => ?_⟩
          cases he
          exact L.neutral_safe _ _ hN
        · have hall : ∀ j, c.phase j = .fresh true → Inert N (c.now j) := by
            rcases hturn with ⟨o', k', he, ho'⟩ | hall
            · rw [hnow] at he
              cases he
              exact absurd ho' hN
            · exact hall
          refine ⟨inv_active L ⟨h, hnow, by rw [hb]; simp, fun _ => hN, hin, hs, ?_, fun j _ => hall j⟩, fun o' k' he => ?_⟩
          · rw [hr]; exact run_congr L _ (h.clean hall)
          · cases he
            rw [hnow] at hs
            exact hs.1

omit [DecidableRel E] [DecidablePred N] [DecidableEq ι] in
theorem inv_start (hsafe : ∀ i w, Safe M Bad (progs i) w) : Inv progs w₀ M E N Bad (Pool.start progs w₀) [] where
  nodup := List.nodup_nil
  const _ _ := rfl
  mem i := by simp [Pool.start]
  waiting i _ w _ := ⟨rfl, hsafe i w⟩
  fresh i b hb := by cases hb
  alone i j b hb := by cases hb
  clean _ := L.equiv.refl _

/-! ## Every run -/

theorem inv_path (hsafe : ∀ i w, Safe M Bad (progs i) w) (h : Path M E N (InTurn N) (Pool.start progs w₀) c) :
    ∃ σ, Inv progs w₀ M E N Bad c σ := by
  induction h with
  | init => exact ⟨[], inv_start L hsafe⟩
  | step _ hturn ih =>
    obtain ⟨σ, hσ⟩ := ih
    exact (inv_step L hσ hturn).1

/-- No operation is asked for in a bad state. -/
theorem path_safe (hsafe : ∀ i w, Safe M Bad (progs i) w) (h : Path M E N (InTurn N) (Pool.start progs w₀) c)
    (hturn : InTurn N c i) : ∀ o k, c.now i = .ask o k → ¬ Bad c.shared o := by
  obtain ⟨σ, hσ⟩ := inv_path L hsafe h
  exact (inv_step L hσ hturn).2

/-- When all tasks have ended, the state is that of some serial run. -/
theorem path_serial [Fintype ι] (hsafe : ∀ i w, Safe M Bad (progs i) w)
    (h : Path M E N (InTurn N) (Pool.start progs w₀) c) (hend : ∀ i, ended (c.now i) = true) :
    ∃ σ : List ι, σ.Nodup ∧ (∀ i, i ∈ σ) ∧ E c.shared (serial M progs σ w₀) := by
  obtain ⟨σ, hσ⟩ := inv_path L hsafe h
  have hinert : ∀ i, Inert N (c.now i) := fun i => inert_of_ended (hend i)
  -- The tasks that never looked change nothing, and go last.
  have hrest : ∀ τ : List ι, (∀ i ∈ τ, c.phase i = .before) → ∀ w, E c.shared w → E c.shared (serial M progs τ w) := by
    intro τ
    induction τ with
    | nil => intro _ w hw; exact hw
    | cons i τ ih =>
      intro hτ w hw
      refine ih (fun j hj => hτ j (List.mem_cons_of_mem _ hj)) _ ?_
      have hsame := (hσ.waiting i (hτ i List.mem_cons_self) c.shared hσ.const).1
      rw [run_inert L _ (hinert i)] at hsame
      have hcongr := run_congr L (progs i) hw
      rw [← hsame] at hcongr
      exact hcongr
  refine ⟨σ ++ Finset.univ.toList.filter (· ∉ σ), ?_, fun i => ?_, ?_⟩
  · refine List.nodup_append.mpr ⟨hσ.nodup, (Finset.nodup_toList _).filter _, fun a ha b hb hab => ?_⟩
    have hb := (List.mem_filter.mp hb).2
    rw [← hab] at hb
    simp [ha] at hb
  · by_cases hi : i ∈ σ <;> simp [hi]
  · rw [serial_append]
    refine hrest _ (fun i hi => ?_) _ (hσ.clean fun j _ => hinert j)
    by_contra hb
    have hi := (List.mem_filter.mp hi).2
    simp [(hσ.mem i).mpr ⟨hb, hinert i⟩] at hi

end Invariant

end BepRs.Lib.Serial
