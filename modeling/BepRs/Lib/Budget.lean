/-
  BepRs.Lib.Budget — tasks that keep within a budget while others move the state.

  A task relies on the others moving the state along one relation and guarantees to move it
  along another (`rely`, `guar`); in each state it may ask for some operations only, and an
  operation costs something. `Within` says that the task keeps to all that, from a state on,
  with a budget for all it will ever ask for.
  - `within_mono`, `within_more`: in a later state, and with a greater budget.
  - `within_bind`: a sequence costs what its parts cost.
  - `Affords`: a budget for each of a list of tasks, and their sum.
-/

import BepRs.Lib.Task

namespace BepRs.Lib.Task

variable {S : Sig} {W α β : Type}

/-- What a task may do, and what it relies on. -/
structure Terms (S : Sig) (W : Type) where
  does : W → (o : S.Op) → W → Option (S.Ans o) → Prop
  rely : W → W → Prop
  guar : W → W → Prop
  may : W → S.Op → Prop
  cost : S.Op → Nat

variable {T : Terms S W}

def Within (T : Terms S W) (Q : α → W → Prop) : Prog S α → Nat → W → Prop
  | .ret a, _, w => Q a w
  | .panic, _, _ => True
  | .ask o k, n, w => ∀ w', T.rely w w' → T.may w' o ∧ T.cost o ≤ n ∧ (∀ w'' x, T.does w' o w'' x → T.guar w' w'') ∧
    ∀ w'' r, T.does w' o w'' (some r) → Within T Q (k r) (n - T.cost o) w''

theorem within_mono (htrans : ∀ u v w, T.rely u v → T.rely v w → T.rely u w) {Q : α → W → Prop}
    (hQ : ∀ a w w', T.rely w w' → Q a w → Q a w') {p : Prog S α} {n : Nat} {w w' : W} (hw : T.rely w w')
    (h : Within T Q p n w) : Within T Q p n w' := by
  cases p with
  | ret a => exact hQ a w w' hw h
  | panic => trivial
  | ask o k => exact fun w'' hw'' => h w'' (htrans _ _ _ hw hw'')

theorem within_more {Q : α → W → Prop} : ∀ {p : Prog S α} {n m : Nat} {w : W}, n ≤ m → Within T Q p n w →
    Within T Q p m w := by
  intro p
  induction p with
  | ret a => intro n m w _ h; exact h
  | panic => intro n m w _ _; trivial
  | ask o k ih =>
    intro n m w hnm h w' hw'
    obtain ⟨hmay, hcost, hguar, hrest⟩ := h w' hw'
    exact ⟨hmay, Nat.le_trans hcost hnm, hguar, fun w'' r hd => ih r (Nat.sub_le_sub_right hnm _) (hrest w'' r hd)⟩

theorem within_post {P Q : α → W → Prop} (hPQ : ∀ a w, P a w → Q a w) : ∀ {p : Prog S α} {n : Nat} {w : W},
    Within T P p n w → Within T Q p n w := by
  intro p
  induction p with
  | ret a => intro n w h; exact hPQ a w h
  | panic => intro n w _; trivial
  | ask o k ih =>
    intro n w h w' hw'
    obtain ⟨hmay, hcost, hguar, hrest⟩ := h w' hw'
    exact ⟨hmay, hcost, hguar, fun w'' r hd => ih r (hrest w'' r hd)⟩

theorem within_bind {P : α → W → Prop} {Q : β → W → Prop} {f : α → Prog S β} {m : Nat}
    (hf : ∀ a w, P a w → Within T Q (f a) m w) : ∀ {p : Prog S α} {n : Nat} {w : W}, Within T P p n w →
      Within T Q (p >>= f) (n + m) w := by
  intro p
  induction p with
  | ret a => intro n w h; exact within_more (Nat.le_add_left _ _) (hf a w h)
  | panic => intro n w _; trivial
  | ask o k ih =>
    intro n w h w' hw'
    obtain ⟨hmay, hcost, hguar, hrest⟩ := h w' hw'
    refine ⟨hmay, Nat.le_trans hcost (Nat.le_add_right _ _), hguar, fun w'' r hd => ?_⟩
    rw [Nat.sub_add_comm hcost]
    exact ih r (hrest w'' r hd)

theorem within_call_bind {Q : β → W → Prop} {o : S.Op} {f : S.Ans o → Prog S β} {n : Nat} {w : W}
    (h : ∀ w', T.rely w w' → T.may w' o ∧ T.cost o ≤ n ∧ (∀ w'' x, T.does w' o w'' x → T.guar w' w'') ∧
      ∀ w'' r, T.does w' o w'' (some r) → Within T Q (f r) (n - T.cost o) w'') :
    Within T Q (call o >>= f) n w := h

/-- A budget for each task, within a total. -/
def Affords (T : Terms S W) (w : W) : List (Prog S Unit) → Nat → Prop
  | [], _ => True
  | p :: ps, n => ∃ a b, a + b ≤ n ∧ Within T (fun _ _ => True) p a w ∧ Affords T w ps b

theorem affords_mono (htrans : ∀ u v w, T.rely u v → T.rely v w → T.rely u w) {w w' : W} (hw : T.rely w w') :
    ∀ {ps : List (Prog S Unit)} {n : Nat}, Affords T w ps n → Affords T w' ps n := by
  intro ps
  induction ps with
  | nil => intro n _; trivial
  | cons p ps ih =>
    intro n h
    obtain ⟨a, b, hab, hp, hps⟩ := h
    exact ⟨a, b, hab, within_mono htrans (fun _ _ _ _ h => h) hw hp, ih hps⟩

theorem affords_append {w : W} : ∀ {ps qs : List (Prog S Unit)} {n m : Nat}, Affords T w ps n → Affords T w qs m →
    Affords T w (ps ++ qs) (n + m) := by
  intro ps
  induction ps with
  | nil =>
    intro qs n m _ hq
    cases qs with
    | nil => trivial
    | cons q qs =>
      obtain ⟨a, b, hab, hp, hps⟩ := hq
      exact ⟨a, b, by omega, hp, hps⟩
  | cons p ps ih =>
    intro qs n m h hq
    obtain ⟨a, b, hab, hp, hps⟩ := h
    exact ⟨a, b + m, by omega, hp, ih hps hq⟩

/-- The budget of one task of the list, and of the others. -/
theorem affords_split {w : W} {p : Prog S Unit} {r : List (Prog S Unit)} : ∀ {l : List (Prog S Unit)} {n : Nat},
    Affords T w (l ++ p :: r) n → ∃ a b, a + b ≤ n ∧ Within T (fun _ _ => True) p a w ∧ Affords T w (l ++ r) b := by
  intro l
  induction l with
  | nil => intro n h; exact h
  | cons q l ih =>
    intro n h
    obtain ⟨a, b, hab, hq, hrest⟩ := h
    obtain ⟨a', b', hab', hp, hlr⟩ := ih hrest
    exact ⟨a', a + b', by omega, hp, a, b', Nat.le_refl _, hq, hlr⟩

theorem affords_insert {w : W} {p : Prog S Unit} {r : List (Prog S Unit)} : ∀ {l : List (Prog S Unit)} {a b : Nat},
    Within T (fun _ _ => True) p a w → Affords T w (l ++ r) b → Affords T w (l ++ p :: r) (a + b) := by
  intro l
  induction l with
  | nil => intro a b hp h; exact ⟨a, b, Nat.le_refl _, hp, h⟩
  | cons q l ih =>
    intro a b hp h
    obtain ⟨c, d, hcd, hq, hrest⟩ := h
    exact ⟨c, a + d, by omega, hq, ih hp hrest⟩

end BepRs.Lib.Task
