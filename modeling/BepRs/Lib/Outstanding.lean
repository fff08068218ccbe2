/-
  BepRs.Lib.Outstanding — things that are numbered as they come and settled in any order.

  `outstanding done n l` are the things of `l`, numbered from `n` on, whose numbers are not in
  `done`.
  - `outstanding_append`: things that come later are not settled yet.
  - `countP_settle`: to settle one takes that one away and no other.
-/

import Mathlib.Data.List.Basic

namespace BepRs.Lib

variable {α : Type}

def outstanding (done : List Nat) : Nat → List α → List α
  | _, [] => []
  | n, x :: xs => if n ∈ done then outstanding done (n + 1) xs else x :: outstanding done (n + 1) xs

theorem outstanding_append {done : List Nat} : ∀ {l : List α} {n : Nat} {l' : List α},
    (∀ k ∈ done, k < n + l.length) → outstanding done n (l ++ l') = outstanding done n l ++ l' := by
  intro l
  induction l with
  | nil =>
    intro n l'
    induction l' generalizing n with
    | nil => intro _; rfl
    | cons x xs ih =>
      intro h
      have hn : n ∉ done := fun hn => by simpa using h n hn
      simp only [List.nil_append, outstanding, if_neg hn]
      exact congrArg _ (ih fun k hk => Nat.lt_succ_of_lt (h k hk))
  | cons x xs ih =>
    intro n l' h
    have hrest : outstanding done (n + 1) (xs ++ l') = outstanding done (n + 1) xs ++ l' := by
      refine ih fun k hk => ?_
      have hlt := h k hk
      rw [List.length_cons] at hlt
      omega
    simp only [List.cons_append, outstanding, hrest]
    split <;> rfl

theorem outstanding_congr {done done' : List Nat} : ∀ {l : List α} {n : Nat},
    (∀ k, n ≤ k → (k ∈ done ↔ k ∈ done')) → outstanding done n l = outstanding done' n l := by
  intro l
  induction l with
  | nil => intro n _; rfl
  | cons x xs ih =>
    intro n h
    simp only [outstanding, ih fun k hk => h k (Nat.le_of_succ_le hk), h n (Nat.le_refl n)]

theorem mem_outstanding {done : List Nat} : ∀ {l : List α} {n k : Nat} {x : α}, l[k]? = some x → n + k ∉ done →
    x ∈ outstanding done n l := by
  intro l
  induction l with
  | nil => intro n k x h; simp at h
  | cons y ys ih =>
    intro n k x h hk
    cases k with
    | zero =>
      cases h
      have hn : n ∉ done := hk
      rw [outstanding, if_neg hn]
      exact List.mem_cons_self
    | succ k =>
      have hmem := ih (n := n + 1) (k := k) h (by rwa [Nat.add_right_comm, Nat.add_assoc])
      simp only [outstanding]
      split
      · exact hmem
      · exact List.mem_cons_of_mem _ hmem

/-- What is settled is gone, once. -/
theorem countP_settle (p : α → Bool) {done : List Nat} : ∀ {l : List α} {n k : Nat} {x : α}, l[k]? = some x → n + k ∉ done →
    (outstanding done n l).countP p = (outstanding ((n + k) :: done) n l).countP p + if p x then 1 else 0 := by
  intro l
  induction l with
  | nil => intro n k x h; simp at h
  | cons y ys ih =>
    intro n k x h hk
    cases k with
    | zero =>
      cases h
      have hn : n ∉ done := hk
      have hrest : outstanding (n :: done) (n + 1) ys = outstanding done (n + 1) ys :=
        outstanding_congr fun j hj => by
          have hne : j ≠ n := by omega
          simp [hne]
      rw [Nat.add_zero, outstanding, if_neg hn, outstanding, if_pos List.mem_cons_self, hrest, List.countP_cons]
    | succ k =>
      have hstep := ih (n := n + 1) (k := k) h (by rwa [Nat.add_right_comm, Nat.add_assoc])
      have hnum : n + 1 + k = n + (k + 1) := by omega
      rw [hnum] at hstep
      have hn : n ∈ (n + (k + 1)) :: done ↔ n ∈ done := by simp
      simp only [outstanding, hn]
      split
      · exact hstep
      · rw [List.countP_cons, List.countP_cons, hstep]
        omega

end BepRs.Lib
