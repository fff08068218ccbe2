/-
  BepRs.Lib.Spread — values that spread along edges.

  Every node holds a value of a join-semilattice, and along an edge the second node joins
  the first one's value to its own. The edges come in some order, and a value gets from a
  node to another if the order has a path in it (`Carries`).
  - `isLUB_pulls`: a node that every node's value gets to holds the least upper bound.
  - `carries_rounds`: with every edge in every round, as many rounds as there are steps on a
    path carry along it.
-/

import Mathlib.Order.Bounds.Basic
import Mathlib.Order.Lattice.Nat
import Mathlib.Data.List.Basic

namespace BepRs.Lib.Spread

variable {ι α : Type} [DecidableEq ι]

/-! ## Edges in order -/

/-- The edges have a path from one node to another, in their order. -/
inductive Carries : List (ι × ι) → ι → ι → Prop
  | stay (i : ι) : Carries [] i i
  | skip {es : List (ι × ι)} (e : ι × ι) {i j : ι} : Carries es i j → Carries (e :: es) i j
  | take {es : List (ι × ι)} (i : ι) {j k : ι} : Carries es j k → Carries ((i, j) :: es) i k

omit [DecidableEq ι] in
theorem carries_self : ∀ (es : List (ι × ι)) (i : ι), Carries es i i := by
  intro es
  induction es with
  | nil => exact Carries.stay
  | cons e es ih => intro i; exact .skip e (ih i)

omit [DecidableEq ι] in
theorem carries_append {es fs : List (ι × ι)} {i j k : ι} (h : Carries es i j) (h' : Carries fs j k) :
    Carries (es ++ fs) i k := by
  induction h with
  | stay i => exact h'
  | skip e _ ih => exact .skip e (ih h')
  | take i _ ih => exact .take i (ih h')

omit [DecidableEq ι] in
/-- An edge that is there carries. -/
theorem carries_of_mem {es : List (ι × ι)} {i j : ι} (h : (i, j) ∈ es) : Carries es i j := by
  obtain ⟨before, after, rfl⟩ := List.append_of_mem h
  exact carries_append (carries_self before i) (.take i (carries_self after j))

omit [DecidableEq ι] in
/-- As many rounds, with all edges in each in any order, as the path has steps. -/
theorem carries_rounds {E : ι → ι → Prop} : ∀ {path : List ι} {rounds : List (List (ι × ι))} {i j : ι},
    (∀ es ∈ rounds, ∀ a b, E a b → (a, b) ∈ es) → (i :: path).IsChain E → (i :: path).getLast? = some j →
    path.length ≤ rounds.length → Carries rounds.flatten i j := by
  intro path
  induction path with
  | nil =>
    intro rounds i j _ _ hlast _
    cases hlast
    exact carries_self _ i
  | cons k path ih =>
    intro rounds i j hall hchain hlast hlen
    rw [List.isChain_cons_cons] at hchain
    cases rounds with
    | nil => simp at hlen
    | cons es rounds =>
      rw [List.flatten_cons]
      refine carries_append (carries_of_mem (hall es List.mem_cons_self i k hchain.1)) ?_
      refine ih (fun es' hes' => hall es' (List.mem_cons_of_mem _ hes')) hchain.2 ?_ (by simpa using hlen)
      rwa [List.getLast?_cons_cons] at hlast

/-! ## Values -/

variable [SemilatticeSup α]

def pull (v : ι → α) (e : ι × ι) : ι → α := Function.update v e.2 (v e.2 ⊔ v e.1)

def pulls (v : ι → α) (es : List (ι × ι)) : ι → α := es.foldl pull v

theorem le_pull (v : ι → α) (e : ι × ι) : v ≤ pull v e := by
  intro i
  by_cases hi : i = e.2
  · subst hi
    rw [pull, Function.update_self]
    exact le_sup_left
  · rw [pull, Function.update_of_ne hi]

theorem le_pulls : ∀ (es : List (ι × ι)) (v : ι → α), v ≤ pulls v es := by
  intro es
  induction es with
  | nil => intro v; exact le_refl v
  | cons e es ih => intro v; exact (le_pull v e).trans (ih (pull v e))

theorem pulls_le {b : α} : ∀ (es : List (ι × ι)) {v : ι → α}, (∀ i, v i ≤ b) → ∀ i, pulls v es i ≤ b := by
  intro es
  induction es with
  | nil => intro v h; exact h
  | cons e es ih =>
    intro v h
    refine ih fun i => ?_
    by_cases hi : i = e.2
    · subst hi
      rw [pull, Function.update_self]
      exact sup_le (h _) (h _)
    · rw [pull, Function.update_of_ne hi]
      exact h i

theorem carries_le {es : List (ι × ι)} {i j : ι} (h : Carries es i j) : ∀ v : ι → α, v i ≤ pulls v es j := by
  induction h with
  | stay i => intro v; exact le_refl _
  | skip e _ ih => intro v; exact (le_pull v e _).trans (ih (pull v e))
  | @take es i j k _ ih =>
    intro v
    have hstep : v i ≤ pull v (i, j) j := by
      rw [pull, Function.update_self]
      exact le_sup_right
    exact hstep.trans (ih (pull v (i, j)))

/-- A node that all values get to has their least upper bound. -/
theorem isLUB_pulls {es : List (ι × ι)} {j : ι} (h : ∀ i, Carries es i j) (v : ι → α) :
    IsLUB (Set.range v) (pulls v es j) := by
  constructor
  · intro a ha
    obtain ⟨i, rfl⟩ := ha
    exact carries_le (h i) v
  · intro b hb
    exact pulls_le es (fun i => hb ⟨i, rfl⟩) j

end BepRs.Lib.Spread
