/-
  BepRs.Lib.Task — tasks that share a state, one operation at a time.

  A task (`Prog`) returns, panics, or asks for one operation and goes on with its
  answer; between two of its operations any other task may run. The operations and
  the types of their answers are a signature (`Sig`), and what an operation does to
  the shared state is either a function (`Machine`: a run of one task to its end is
  `run`) or, for an open system whose outside world answers as it likes, a relation
  (`System`: `Step` and `Reach` interleave any number of tasks of any number of
  actors, started at any time).

  The rules the developments above it use:
  - `run_bind`, `events_bind`: a run of a sequence is the run of its first part, then of
    the rest, and so is what it asked for.
  - `Ok`, `ok_bind`: a task keeps a contract when every operation it asks for is one
    the contract allows, as long as the answers are ones the contract promises.
  - `run_ok`: what every allowed operation of a machine keeps, a run keeps.
  - `Wp`, `wp_bind`: the same with a state that the operations act on.
  - `wp_events`: against a machine that answers the same, what is asked for is what a run asks for.
  - `reach_ok`: when every started task keeps the contract and every allowed operation
    keeps an invariant and answers as promised, the invariant holds in every reachable
    state, whatever the interleaving and whichever tasks panic on the way.
  - `reach_mono`: a relation that every operation and every outside step respects
    relates the two ends of every run.
  - `run_reach`: where each operation of a machine is one the system may do, a run of a
    task on the machine is a path of the system.
-/

import Mathlib.Data.List.Basic

namespace BepRs.Lib.Task

/-- What a task may ask for, and the type of each answer. -/
structure Sig where
  Op : Type
  Ans : Op → Type

inductive Prog (S : Sig) (α : Type) where
  | ret (a : α)
  | panic
  | ask (o : S.Op) (k : S.Ans o → Prog S α)

variable {S : Sig} {W α β : Type}

namespace Prog

def bind : Prog S α → (α → Prog S β) → Prog S β
  | .ret a, f => f a
  | .panic, _ => .panic
  | .ask o k, f => .ask o fun r => (k r).bind f

instance : Monad (Prog S) where
  pure := .ret
  bind := Prog.bind

@[simp] theorem ret_bind (a : α) (f : α → Prog S β) : (Prog.ret a >>= f) = f a := rfl
@[simp] theorem panic_bind (f : α → Prog S β) : ((Prog.panic : Prog S α) >>= f) = .panic := rfl
@[simp] theorem ask_bind (o : S.Op) (k : S.Ans o → Prog S α) (f : α → Prog S β) :
    (Prog.ask o k >>= f) = .ask o fun r => k r >>= f := rfl

theorem bind_assoc {γ : Type} (f : α → Prog S β) (g : β → Prog S γ) : ∀ p : Prog S α,
    (p >>= f >>= g) = (p >>= fun a => f a >>= g) := by
  intro p
  induction p with
  | ret a => rfl
  | panic => rfl
  | ask o k ih =>
    simp only [ask_bind]
    congr 1
    exact funext ih

end Prog

/-- Ask for one operation. -/
def call (o : S.Op) : Prog S (S.Ans o) := .ask o .ret

/-- `Option::unwrap`. -/
def unwrap : Option α → Prog S α
  | some a => .ret a
  | none => .panic

@[simp] theorem unwrap_some (a : α) : (unwrap (some a) : Prog S α) = .ret a := rfl
@[simp] theorem unwrap_none : (unwrap none : Prog S α) = .panic := rfl

/-! ## Running one task to its end -/

/-- What each operation does to the state and answers; `none` is a panic, which may
    leave the state changed. -/
abbrev Machine (S : Sig) (W : Type) := W → (o : S.Op) → W × Option (S.Ans o)

def run (M : Machine S W) : Prog S α → W → W × Option α
  | .ret a, w => (w, some a)
  | .panic, w => (w, none)
  | .ask o k, w =>
    match M w o with
    | (w', some r) => run M (k r) w'
    | (w', none) => (w', none)

@[simp] theorem run_ret (M : Machine S W) (a : α) (w : W) : run M (.ret a) w = (w, some a) := rfl

theorem run_ask_some {M : Machine S W} {o : S.Op} {k : S.Ans o → Prog S α} {w w' : W} {r : S.Ans o}
    (h : M w o = (w', some r)) : run M (.ask o k) w = run M (k r) w' := by
  simp only [run, h]

theorem run_ask_none {M : Machine S W} {o : S.Op} {k : S.Ans o → Prog S α} {w w' : W}
    (h : M w o = (w', none)) : run M (.ask o k) w = (w', none) := by
  simp only [run, h]

theorem run_call_some {M : Machine S W} {o : S.Op} {f : S.Ans o → Prog S α} {w w' : W} {r : S.Ans o}
    (h : M w o = (w', some r)) : run M (call o >>= f) w = run M (f r) w' := run_ask_some h

theorem run_call_none {M : Machine S W} {o : S.Op} {f : S.Ans o → Prog S α} {w w' : W}
    (h : M w o = (w', none)) : run M (call o >>= f) w = (w', none) := run_ask_none h

theorem run_bind (M : Machine S W) (f : α → Prog S β) : ∀ (p : Prog S α) (w : W),
    run M (p >>= f) w = match run M p w with
      | (w', some a) => run M (f a) w'
      | (w', none) => (w', none) := by
  intro p
  induction p with
  | ret a => intro w; rfl
  | panic => intro w; rfl
  | ask o k ih =>
    intro w
    rcases h : M w o with ⟨w', _ | r⟩
    · rw [Prog.ask_bind, run_ask_none h, run_ask_none h]
    · rw [Prog.ask_bind, run_ask_some h, run_ask_some h]
      exact ih r w'

/-- What a run asked for, in order, with the answers; an operation that panics is not in it. -/
def events (M : Machine S W) : Prog S α → W → List ((o : S.Op) × S.Ans o)
  | .ret _, _ => []
  | .panic, _ => []
  | .ask o k, w =>
    match M w o with
    | (w', some r) => ⟨o, r⟩ :: events M (k r) w'
    | (_, none) => []

theorem events_call_some {M : Machine S W} {o : S.Op} {f : S.Ans o → Prog S α} {w w' : W} {r : S.Ans o}
    (h : M w o = (w', some r)) : events M (call o >>= f) w = ⟨o, r⟩ :: events M (f r) w' := by
  show events M (.ask o f) w = _
  simp only [events, h]

theorem events_call_none {M : Machine S W} {o : S.Op} {f : S.Ans o → Prog S α} {w w' : W}
    (h : M w o = (w', none)) : events M (call o >>= f) w = [] := by
  show events M (.ask o f) w = _
  simp only [events, h]

theorem events_bind (M : Machine S W) (f : α → Prog S β) : ∀ (p : Prog S α) (w : W),
    events M (p >>= f) w = events M p w ++ match run M p w with
      | (w', some a) => events M (f a) w'
      | (_, none) => [] := by
  intro p
  induction p with
  | ret a => intro w; rfl
  | panic => intro w; rfl
  | ask o k ih =>
    intro w
    rcases h : M w o with ⟨w', _ | r⟩
    · simp only [Prog.ask_bind, events, run, h, List.nil_append]
    · simp only [Prog.ask_bind, events, run, h, List.cons_append, ih r w']

/-! ## Contracts -/

/-- Every operation the task asks for satisfies `G`, as long as the answers satisfy
    `R`; what it returns satisfies `Q`. -/
def Ok (G : S.Op → Prop) (R : (o : S.Op) → S.Ans o → Prop) (Q : α → Prop) : Prog S α → Prop
  | .ret a => Q a
  | .panic => True
  | .ask o k => G o ∧ ∀ r, R o r → Ok G R Q (k r)

variable {G : S.Op → Prop} {R : (o : S.Op) → S.Ans o → Prop}

theorem ok_bind {P : α → Prop} {Q : β → Prop} {f : α → Prog S β} (hf : ∀ a, P a → Ok G R Q (f a)) :
    ∀ {p : Prog S α}, Ok G R P p → Ok G R Q (p >>= f) := by
  intro p
  induction p with
  | ret a => intro h; exact hf a h
  | panic => intro _; trivial
  | ask o k ih => intro h; exact ⟨h.1, fun r hr => ih r (h.2 r hr)⟩

theorem ok_call_bind {Q : β → Prop} {o : S.Op} {f : S.Ans o → Prog S β} (h : G o) (hf : ∀ r, R o r → Ok G R Q (f r)) :
    Ok G R Q (call o >>= f) := ⟨h, hf⟩

theorem ok_unwrap {P : α → Prop} {o : Option α} (h : ∀ a, o = some a → P a) :
    Ok G R P (unwrap o : Prog S α) := by
  cases o with
  | none => trivial
  | some a => exact h a rfl

/-- A contract that allows more. -/
theorem ok_mono {G' : S.Op → Prop} {Q : α → Prop} (hG : ∀ o, G o → G' o) : ∀ {p : Prog S α}, Ok G R Q p → Ok G' R Q p := by
  intro p
  induction p with
  | ret a => intro h; exact h
  | panic => intro _; trivial
  | ask o k ih => intro h; exact ⟨hG o h.1, fun r hr => ih r (h.2 r hr)⟩

/-- What every allowed operation of a machine keeps, a run of the task keeps. -/
theorem run_ok {M : Machine S W} {I : W → Prop} {Q : α → Prop}
    (hM : ∀ w o, I w → G o → I (M w o).1 ∧ ∀ r, (M w o).2 = some r → R o r) :
    ∀ {p : Prog S α} {w : W}, Ok G R Q p → I w → I (run M p w).1 := by
  intro p
  induction p with
  | ret a => intro w _ h; exact h
  | panic => intro w _ h; exact h
  | ask o k ih =>
    intro w hp h
    have hstep := hM w o h hp.1
    rcases hask : M w o with ⟨w', _ | r⟩ <;> rw [hask] at hstep
    · rw [run_ask_none hask]; exact hstep.1
    · rw [run_ask_some hask]
      exact ih r (hp.2 r (hstep.2 r rfl)) hstep.1

/-- The same for a task whose operations act on a state (`D`): each is one `G` allows in the
    state it is asked for in, and where the task returns `Q` holds. -/
def Wp (D : W → (o : S.Op) → W → S.Ans o → Prop) (G : W → S.Op → Prop) (Q : α → W → Prop) : Prog S α → W → Prop
  | .ret a, w => Q a w
  | .panic, _ => True
  | .ask o k, w => G w o ∧ ∀ w' r, D w o w' r → Wp D G Q (k r) w'

section State

variable {D : W → (o : S.Op) → W → S.Ans o → Prop} {GW : W → S.Op → Prop}

theorem wp_bind {P : α → W → Prop} {Q : β → W → Prop} {f : α → Prog S β} (hf : ∀ a w, P a w → Wp D GW Q (f a) w) :
    ∀ {p : Prog S α} {w : W}, Wp D GW P p w → Wp D GW Q (p >>= f) w := by
  intro p
  induction p with
  | ret a => intro w h; exact hf a w h
  | panic => intro w _; trivial
  | ask o k ih => intro w h; exact ⟨h.1, fun w' r hr => ih r (h.2 w' r hr)⟩

theorem wp_call_bind {Q : β → W → Prop} {o : S.Op} {f : S.Ans o → Prog S β} {w : W} (h : GW w o)
    (hf : ∀ w' r, D w o w' r → Wp D GW Q (f r) w') : Wp D GW Q (call o >>= f) w := ⟨h, hf⟩

theorem wp_mono {D' : W → (o : S.Op) → W → S.Ans o → Prop} {GW' : W → S.Op → Prop} {Q : α → W → Prop}
    (hD : ∀ w o w' r, D' w o w' r → D w o w' r) (hG : ∀ w o, GW w o → GW' w o) : ∀ {p : Prog S α} {w : W},
    Wp D GW Q p w → Wp D' GW' Q p w := by
  intro p
  induction p with
  | ret a => intro w h; exact h
  | panic => intro w _; trivial
  | ask o k ih => intro w h; exact ⟨hG w o h.1, fun w' r hr => ih r (h.2 w' r (hD w o w' r hr))⟩

/-- Where the answers are those a machine gives in every state it gets to, what the task asks
    for is what a run on the machine asks for. -/
theorem wp_events {V : Type} {M : Machine S V} {same : V → Prop} {A : (o : S.Op) → S.Ans o → Prop} {Q : α → W → Prop}
    (hD : ∀ w o w' r, D w o w' r → A o r)
    (hsame : ∀ v w o r, same v → GW w o → A o r → ∃ v', M v o = (v', some r) ∧ same v') : ∀ {p : Prog S α} {w : W} {v : V},
    same v → Wp D GW Q p w → Wp D (fun w o => GW w o ∧ ∀ r, A o r → ⟨o, r⟩ ∈ events M p v) Q p w := by
  intro p
  induction p with
  | ret a => intro w v _ h; exact h
  | panic => intro w v _ _; trivial
  | ask o k ih =>
    intro w v hv h
    have hnext : ∀ r, A o r → ∃ v', same v' ∧ events M (.ask o k) v = ⟨o, r⟩ :: events M (k r) v' := by
      intro r hr
      obtain ⟨v', hdo, hv'⟩ := hsame v w o r hv h.1 hr
      exact ⟨v', hv', events_call_some hdo⟩
    refine ⟨⟨h.1, fun r hr => ?_⟩, fun w' r hr => ?_⟩
    · obtain ⟨v', -, hevents⟩ := hnext r hr
      rw [hevents]
      exact List.mem_cons_self
    · obtain ⟨v', hv', hevents⟩ := hnext r (hD w o w' r hr)
      refine wp_mono (fun _ _ _ _ hd => hd) (fun w o hG => ⟨hG.1, fun r' hr' => ?_⟩) (ih r hv' (h.2 w' r hr))
      rw [hevents]
      exact List.mem_cons_of_mem _ (hG.2 r' hr')

theorem wp_unwrap {Q : α → W → Prop} {o : Option α} {w : W} (h : ∀ a, o = some a → Q a w) :
    Wp D GW Q (unwrap o : Prog S α) w := by
  cases o with
  | none => trivial
  | some a => exact h a rfl

end State

/-! ## Interleavings -/

/-- An open system: what an actor's operation may do to the state and answer (`none` is
    a panic), which tasks may start, and what the outside world may change by itself. -/
structure System (S : Sig) (A W : Type) where
  does : A → W → (o : S.Op) → W → Option (S.Ans o) → Prop
  starts : W → A → Prog S Unit → Prop
  outside : W → W → Prop

variable {A : Type} (Y : System S A W)

/-- The shared state and the tasks under way, each with its actor. -/
structure Conf (S : Sig) (A W : Type) where
  shared : W
  tasks : List (A × Prog S Unit)

inductive Step : Conf S A W → Conf S A W → Prop
  | outside {w w' : W} {ts : List (A × Prog S Unit)} : Y.outside w w' → Step ⟨w, ts⟩ ⟨w', ts⟩
  | start {w : W} {ts : List (A × Prog S Unit)} {a : A} {p : Prog S Unit} :
      Y.starts w a p → Step ⟨w, ts⟩ ⟨w, ts ++ [(a, p)]⟩
  | answer {w w' : W} {l r : List (A × Prog S Unit)} {a : A} {o : S.Op} {k : S.Ans o → Prog S Unit} {x : S.Ans o} :
      Y.does a w o w' (some x) → Step ⟨w, l ++ (a, .ask o k) :: r⟩ ⟨w', l ++ (a, k x) :: r⟩
  /-- An operation that panics ends its task; what it changed stays. -/
  | crash {w w' : W} {l r : List (A × Prog S Unit)} {a : A} {o : S.Op} {k : S.Ans o → Prog S Unit} :
      Y.does a w o w' none → Step ⟨w, l ++ (a, .ask o k) :: r⟩ ⟨w', l ++ (a, .panic) :: r⟩

inductive Reach (c₀ : Conf S A W) : Conf S A W → Prop
  | init : Reach c₀ c₀
  | step {c c' : Conf S A W} : Reach c₀ c → Step Y c c' → Reach c₀ c'

theorem reach_trans {a b c : Conf S A W} (hab : Reach Y a b) (hbc : Reach Y b c) : Reach Y a c := by
  induction hbc with
  | init => exact hab
  | step _ hs ih => exact .step ih hs

/-- The task that was started last is answered. -/
theorem reach_answer {c₀ : Conf S A W} {w w' : W} {ts : List (A × Prog S Unit)} {a : A} {p : Prog S Unit} {o : S.Op}
    {k : S.Ans o → Prog S Unit} {x : S.Ans o} (h : Reach Y c₀ ⟨w, ts ++ [(a, p)]⟩) (hp : p = .ask o k)
    (hd : Y.does a w o w' (some x)) : Reach Y c₀ ⟨w', ts ++ [(a, k x)]⟩ := by
  subst hp
  exact .step h (.answer hd)

section Contract

variable {Y} {I : W → Prop} {GA : A → S.Op → Prop} {RA : A → (o : S.Op) → S.Ans o → Prop}

def AllOk (GA : A → S.Op → Prop) (RA : A → (o : S.Op) → S.Ans o → Prop) (c : Conf S A W) : Prop :=
  ∀ t ∈ c.tasks, Ok (GA t.1) (RA t.1) (fun _ => True) t.2

theorem allOk_set {w w' : W} {l r : List (A × Prog S Unit)} {a : A} {p q : Prog S Unit}
    (h : AllOk GA RA ⟨w, l ++ (a, p) :: r⟩)
    (hq : Ok (GA a) (RA a) (fun _ => True) p → Ok (GA a) (RA a) (fun _ => True) q) :
    AllOk GA RA ⟨w', l ++ (a, q) :: r⟩ := by
  intro t ht
  have hp := h (a, p) (by simp)
  rcases List.mem_append.mp ht with ht | ht
  · exact h t (by simp [ht])
  · rcases List.mem_cons.mp ht with rfl | ht
    · exact hq hp
    · exact h t (by simp [ht])

/-- What one step keeps: the invariant, and every task's contract. -/
theorem step_ok {c c' : Conf S A W} (hs : Step Y c c')
    (hout : ∀ w w', I w → Y.outside w w' → I w')
    (hstart : ∀ w a p, I w → Y.starts w a p → Ok (GA a) (RA a) (fun _ => True) p)
    (hdo : ∀ a w o w' x, I w → GA a o → Y.does a w o w' x → I w' ∧ ∀ r, x = some r → RA a o r)
    (hI : I c.shared) (hc : AllOk GA RA c) : I c'.shared ∧ AllOk GA RA c' := by
  cases hs with
  | outside h => exact ⟨hout _ _ hI h, hc⟩
  | start h =>
    refine ⟨hI, fun t ht => ?_⟩
    rcases List.mem_append.mp ht with ht | ht
    · exact hc t ht
    · rw [List.mem_singleton.mp ht]; exact hstart _ _ _ hI h
  | @answer w w' l r a o k x h =>
    have hp : Ok (GA a) (RA a) (fun _ => True) (.ask o k) := hc (a, .ask o k) (by simp)
    obtain ⟨hI', hr⟩ := hdo a _ o _ _ hI hp.1 h
    exact ⟨hI', allOk_set hc fun hp => hp.2 x (hr x rfl)⟩
  | @crash w w' l r a o k h =>
    have hp : Ok (GA a) (RA a) (fun _ => True) (.ask o k) := hc (a, .ask o k) (by simp)
    exact ⟨(hdo a _ o _ _ hI hp.1 h).1, allOk_set hc fun _ => trivial⟩

/-- The invariant holds in every reachable state. -/
theorem reach_ok {c₀ c : Conf S A W} (h : Reach Y c₀ c)
    (hout : ∀ w w', I w → Y.outside w w' → I w')
    (hstart : ∀ w a p, I w → Y.starts w a p → Ok (GA a) (RA a) (fun _ => True) p)
    (hdo : ∀ a w o w' x, I w → GA a o → Y.does a w o w' x → I w' ∧ ∀ r, x = some r → RA a o r)
    (hI : I c₀.shared) (hc : AllOk GA RA c₀) : I c.shared ∧ AllOk GA RA c := by
  induction h with
  | init => exact ⟨hI, hc⟩
  | step _ hs ih => exact step_ok hs hout hstart hdo ih.1 ih.2

end Contract

/-- A reflexive, transitive relation that every operation and every outside step
    respects relates the two ends of every run. -/
theorem reach_mono {Y : System S A W} {T : W → W → Prop} (hrefl : ∀ w, T w w)
    (htrans : ∀ a b c, T a b → T b c → T a c) (hout : ∀ w w', Y.outside w w' → T w w')
    (hdo : ∀ a w o w' x, Y.does a w o w' x → T w w') {c c' : Conf S A W} (h : Reach Y c c') :
    T c.shared c'.shared := by
  induction h with
  | init => exact hrefl _
  | step _ hs ih =>
    refine htrans _ _ _ ih ?_
    cases hs with
    | outside h => exact hout _ _ h
    | start _ => exact hrefl _
    | answer h => exact hdo _ _ _ _ _ h
    | crash h => exact hdo _ _ _ _ _ h

/-- The run of one task on a machine, as a path of a system that allows each of its
    operations, seen through `f`. -/
theorem run_reach {V : Type} {Y : System S A W} {M : Machine S V} {f : V → W} {a : A}
    (hM : ∀ v o, Y.does a (f v) o (f (M v o).1) (M v o).2) (ts : List (A × Prog S Unit)) :
    ∀ (p : Prog S Unit) (v : V), ∃ q, Reach Y ⟨f v, ts ++ [(a, p)]⟩ ⟨f (run M p v).1, ts ++ [(a, q)]⟩ := by
  intro p
  induction p with
  | ret x => intro v; exact ⟨_, .init⟩
  | panic => intro v; exact ⟨_, .init⟩
  | ask o k ih =>
    intro v
    have hdo := hM v o
    rcases h : M v o with ⟨v', _ | x⟩
    · rw [h] at hdo
      rw [run_ask_none h]
      exact ⟨.panic, .step .init (.crash hdo)⟩
    · rw [h] at hdo
      rw [run_ask_some h]
      obtain ⟨q, hq⟩ := ih x v'
      exact ⟨q, reach_trans Y (.step .init (.answer hdo)) hq⟩

end BepRs.Lib.Task
