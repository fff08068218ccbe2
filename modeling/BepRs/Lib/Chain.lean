/-
  BepRs.Lib.Chain — histories as lists, and the longest of several.

  `extend a b` keeps the history `a` and appends what `b` has beyond `a`'s length. It is
  `b` itself exactly when `a` is a prefix of `b` (`extend_eq_iff`); otherwise it mixes the
  two. `longest` keeps the better of two values by a measure, the first on a tie. Folded
  over a list it gives a greatest value (`foldl_longest`), and where the measure tells the
  list's values apart the result does not depend on their order or repetition
  (`foldl_longest_congr`).
-/

import Mathlib.Data.List.Basic
import Mathlib.Order.Basic

namespace BepRs.Lib.Chain

variable {α β : Type}

def extend (a b : List α) : List α := a ++ b.drop a.length

theorem prefix_extend (a b : List α) : a <+: extend a b := List.prefix_append _ _

theorem length_extend (a b : List α) : (extend a b).length = max a.length b.length := by
  simp only [extend, List.length_append, List.length_drop]; omega

@[simp] theorem nil_extend (b : List α) : extend [] b = b := rfl

theorem extend_eq_iff {a b : List α} : extend a b = b ↔ a <+: b := by
  constructor
  · intro h; rw [← h]; exact prefix_extend a b
  · rintro ⟨c, rfl⟩; simp [extend]

theorem extend_of_length_le {a b : List α} (h : b.length ≤ a.length) : extend a b = a := by
  simp [extend, List.drop_eq_nil_of_le h]

/-- Two parts of one history. -/
theorem extend_prefix {a b l : List α} (ha : a <+: l) (hb : b <+: l) : extend a b <+: l := by
  rcases Nat.le_total b.length a.length with hle | hle
  · rwa [extend_of_length_le hle]
  · rwa [extend_eq_iff.mpr (List.prefix_of_prefix_length_le ha hb hle)]

theorem getElem?_extend (a b : List α) (i : Nat) : (extend a b)[i]? = if i < a.length then a[i]? else b[i]? := by
  unfold extend
  split
  · rename_i h; rw [List.getElem?_append_left h]
  · rename_i h
    rw [List.getElem?_append_right (by omega), List.getElem?_drop]
    congr 1; omega

theorem getLast?_extend {a b : List α} (h : a.length < b.length) : (extend a b).getLast? = b.getLast? := by
  have hlen := length_extend a b
  rw [List.getLast?_eq_getElem?, List.getLast?_eq_getElem?, getElem?_extend, if_neg (by omega)]
  congr 1; omega

/-! ## The longest -/

section Longest

variable (μ : β → Nat)

def longest (a b : β) : β := if μ a < μ b then b else a

theorem foldl_longest : ∀ (l : List β) (a : β),
    let r := l.foldl (longest μ) a
    (r = a ∨ r ∈ l ∧ μ a < μ r) ∧ ∀ x ∈ a :: l, μ x ≤ μ r := by
  intro l
  induction l with
  | nil => intro a; exact ⟨Or.inl rfl, by simp⟩
  | cons b l ih =>
    intro a
    simp only [List.foldl_cons]
    obtain ⟨h1, h2⟩ := ih (longest μ a b)
    have hb : μ a ≤ μ (longest μ a b) ∧ μ b ≤ μ (longest μ a b) := by unfold longest; split <;> omega
    have hr := h2 _ List.mem_cons_self
    refine ⟨?_, fun x hx => ?_⟩
    · rcases h1 with h1 | ⟨h1, h1'⟩
      · rw [h1]
        unfold longest
        split
        · rename_i hlt; exact Or.inr ⟨List.mem_cons_self, hlt⟩
        · exact Or.inl rfl
      · exact Or.inr ⟨List.mem_cons_of_mem _ h1, by omega⟩
    · rcases List.mem_cons.mp hx with rfl | hx
      · omega
      · rcases List.mem_cons.mp hx with rfl | hx
        · omega
        · exact h2 x (List.mem_cons_of_mem _ hx)

theorem foldl_longest_congr {l l' : List β} {a : β} (hl : ∀ x, x ∈ l ↔ x ∈ l')
    (hμ : ∀ x ∈ l, ∀ y ∈ l, μ x = μ y → x = y) : l.foldl (longest μ) a = l'.foldl (longest μ) a := by
  obtain ⟨h1, h2⟩ := foldl_longest μ l a
  obtain ⟨h1', h2'⟩ := foldl_longest μ l' a
  have hmem : ∀ x, x ∈ a :: l ↔ x ∈ a :: l' := fun x => by simp [hl]
  have hin : l.foldl (longest μ) a ∈ a :: l := by
    rcases h1 with h1 | h1
    · rw [h1]; exact List.mem_cons_self
    · exact List.mem_cons_of_mem _ h1.1
  have hin' : l'.foldl (longest μ) a ∈ a :: l' := by
    rcases h1' with h1' | h1'
    · rw [h1']; exact List.mem_cons_self
    · exact List.mem_cons_of_mem _ h1'.1
  have heq : μ (l.foldl (longest μ) a) = μ (l'.foldl (longest μ) a) :=
    Nat.le_antisymm (h2' _ ((hmem _).mp hin)) (h2 _ ((hmem _).mpr hin'))
  rcases h1 with h1 | ⟨hm, hlt⟩
  · rcases h1' with h1' | ⟨-, hlt'⟩
    · rw [h1, h1']
    · rw [h1] at heq; omega
  · rcases h1' with h1' | ⟨hm', -⟩
    · rw [h1'] at heq; omega
    · exact hμ _ hm _ ((hl _).mpr hm') heq

end Longest

end BepRs.Lib.Chain
