/-
  BepRs.Lib.Tiling — ranges that follow one another and fill an interval.

  A range is its start and its size. `Tiles n s` says of a list of ranges that the first
  starts at `s`, each next one where the one before it ends, and the last ends at `n`.
  - `tiles_cover`, `tiles_disjoint`: together they are the interval, and no two overlap.
  - `tiles_equal`: pieces of one size in front of a tiling of the rest.
-/

import Mathlib.Data.List.Basic
import Mathlib.Algebra.Order.Group.Int
import Mathlib.Tactic.Ring

namespace BepRs.Lib.Tiling

def Tiles (n : Int) : Int → List (Int × Int) → Prop
  | s, [] => s = n
  | s, r :: rest => r.1 = s ∧ 0 ≤ r.2 ∧ Tiles n (s + r.2) rest

variable {n : Int}

theorem tiles_le : ∀ {l : List (Int × Int)} {s : Int}, Tiles n s l → s ≤ n := by
  intro l
  induction l with
  | nil => intro s h; exact h.le
  | cons r rest ih =>
    intro s h
    obtain ⟨-, hsize, hrest⟩ := h
    have := ih hrest
    omega

theorem tiles_mem : ∀ {l : List (Int × Int)} {s : Int}, Tiles n s l → ∀ r ∈ l, s ≤ r.1 ∧ 0 ≤ r.2 ∧ r.1 + r.2 ≤ n := by
  intro l
  induction l with
  | nil => intro s _ r hr; cases hr
  | cons r rest ih =>
    intro s h r' hr'
    obtain ⟨hstart, hsize, hrest⟩ := h
    have hend := tiles_le hrest
    rcases List.mem_cons.mp hr' with he | hr'
    · subst he
      exact ⟨hstart.ge, hsize, by omega⟩
    · obtain ⟨h1, h2, h3⟩ := ih hrest r' hr'
      exact ⟨by omega, h2, h3⟩

/-- The last range ends where the interval does. -/
theorem tiles_last {r : Int × Int} : ∀ {l : List (Int × Int)} {s : Int}, Tiles n s (l ++ [r]) → 0 ≤ r.2 ∧ r.1 + r.2 = n := by
  intro l
  induction l with
  | nil =>
    intro s h
    obtain ⟨hstart, hsize, hend⟩ := h
    have hs : s + r.2 = n := hend
    exact ⟨hsize, by omega⟩
  | cons r' rest ih => intro s h; exact ih h.2.2

theorem tiles_cover : ∀ {l : List (Int × Int)} {s : Int}, Tiles n s l →
    ∀ x, (∃ r ∈ l, r.1 ≤ x ∧ x < r.1 + r.2) ↔ s ≤ x ∧ x < n := by
  intro l
  induction l with
  | nil =>
    intro s h x
    have hs : s = n := h
    simp only [List.not_mem_nil, false_and, exists_false, false_iff]
    omega
  | cons r rest ih =>
    intro s h x
    obtain ⟨hstart, hsize, hrest⟩ := h
    have hend := tiles_le hrest
    simp only [List.exists_mem_cons_iff, ih hrest x]
    omega

theorem tiles_disjoint : ∀ {l : List (Int × Int)} {s : Int}, Tiles n s l → l.Pairwise fun r r' => r.1 + r.2 ≤ r'.1 := by
  intro l
  induction l with
  | nil => intro s _; exact List.Pairwise.nil
  | cons r rest ih =>
    intro s h
    obtain ⟨hstart, -, hrest⟩ := h
    refine List.Pairwise.cons (fun r' hr' => ?_) (ih hrest)
    have := (tiles_mem hrest r' hr').1
    omega

theorem tiles_equal {b : Int} (hb : 0 ≤ b) {rest : List (Int × Int)} : ∀ k : Nat, Tiles n (k * b) rest →
    Tiles n 0 ((List.range k).map (fun i : Nat => ((i : Int) * b, b)) ++ rest) := by
  intro k
  induction k generalizing rest with
  | zero => intro h; simpa using h
  | succ k ih =>
    intro h
    rw [List.range_succ, List.map_append, List.append_assoc]
    refine ih ⟨rfl, hb, ?_⟩
    have hnext : (k : Int) * b + b = (k + 1 : Nat) * b := by push_cast; ring
    show Tiles n ((k : Int) * b + b) rest
    rw [hnext]; exact h

end BepRs.Lib.Tiling
