/-
  BepRs.Lib.Check — words with a check symbol.

  A word's symbols are weighed by place and summed modulo `n`, and a check symbol that
  tells the sums apart is put after them. `word_replace`: two words that differ in one
  symbol do not both check when the weights of each place are one-to-one. `word_swap`:
  nor do two that differ by an exchange of neighbours, unless the exchange keeps the sum.
  `flatten_differ` finds the word in which two equally long lists of words differ, so
  both facts hold of a text that is cut into words.
-/

import Mathlib.Data.List.Basic
import Mathlib.Data.Nat.ModEq

namespace BepRs.Lib.Check

variable {α : Type} (w : Nat → α → Nat)

/-- The sum of the symbols' weights, the first one at place `i`. -/
def weigh : Nat → List α → Nat
  | _, [] => 0
  | i, a :: s => w i a + weigh (i + 1) s

theorem weigh_append (i : Nat) (x y : List α) : weigh w i (x ++ y) = weigh w i x + weigh w (i + x.length) y := by
  induction x generalizing i with
  | nil => simp [weigh]
  | cons a x ih =>
    have hi : i + 1 + x.length = i + (x.length + 1) := by omega
    rw [List.cons_append, weigh, ih, weigh, List.length_cons, hi]
    omega

section Sums

variable {w} {n : Nat}

theorem weigh_replace {i : Nat} {x y : List α} {a b : α}
    (h : weigh w i (x ++ a :: y) ≡ weigh w i (x ++ b :: y) [MOD n]) :
    w (i + x.length) a ≡ w (i + x.length) b [MOD n] := by
  rw [weigh_append, weigh_append] at h
  exact Nat.ModEq.add_right_cancel' _ (Nat.ModEq.add_left_cancel' _ h)

theorem weigh_swap {i : Nat} {x y : List α} {a b : α}
    (h : weigh w i (x ++ a :: b :: y) ≡ weigh w i (x ++ b :: a :: y) [MOD n]) :
    w (i + x.length) a + w (i + x.length + 1) b ≡ w (i + x.length) b + w (i + x.length + 1) a [MOD n] := by
  rw [weigh_append, weigh_append] at h
  have hx := Nat.ModEq.add_left_cancel' _ h
  simp only [weigh, ← Nat.add_assoc] at hx
  exact Nat.ModEq.add_right_cancel' _ hx

end Sums

/-! ## Words -/

/-- A check symbol that is the same only for equal sums. -/
def Tells (Valid : α → Prop) (n : Nat) (check : List α → α) : Prop :=
  ∀ p q, (∀ a ∈ p, Valid a) → (∀ a ∈ q, Valid a) → check p = check q → weigh w 0 p ≡ weigh w 0 q [MOD n]

def word (check : List α → α) (p : List α) : List α := p ++ [check p]

@[simp] theorem length_word (check : List α → α) (p : List α) : (word check p).length = p.length + 1 := by simp [word]

section Words

variable {w} {n : Nat} {Valid : α → Prop} {check : List α → α} {p q x y : List α} {a b : α}

theorem word_replace (hc : Tells w Valid n check) (hw : ∀ i a b, Valid a → Valid b → w i a ≡ w i b [MOD n] → a = b)
    (hp : ∀ a ∈ p, Valid a) (hq : ∀ a ∈ q, Valid a)
    (h1 : word check p = x ++ a :: y) (h2 : word check q = x ++ b :: y) : a = b := by
  rcases List.eq_nil_or_concat y with rfl | ⟨y, k, rfl⟩
  · -- the check symbol itself
    obtain ⟨hpx, ha⟩ := List.append_inj' h1 rfl
    obtain ⟨hqx, hb⟩ := List.append_inj' h2 rfl
    have hpq : p = q := hpx.trans hqx.symm
    subst hpq
    exact (List.cons.inj ha).1.symm.trans (List.cons.inj hb).1
  · rw [List.concat_eq_append, ← List.cons_append, ← List.append_assoc] at h1 h2
    obtain ⟨rfl, hka⟩ := List.append_inj' h1 rfl
    obtain ⟨rfl, hkb⟩ := List.append_inj' h2 rfl
    have hk := (List.cons.inj hka).1.trans (List.cons.inj hkb).1.symm
    exact hw _ a b (hp a (by simp)) (hq b (by simp)) (weigh_replace (hc _ _ hp hq hk))

theorem word_swap (hc : Tells w Valid n check) (hp : ∀ a ∈ p, Valid a) (hq : ∀ a ∈ q, Valid a) (hy : y ≠ [])
    (h1 : word check p = x ++ a :: b :: y) (h2 : word check q = x ++ b :: a :: y) :
    w x.length a + w (x.length + 1) b ≡ w x.length b + w (x.length + 1) a [MOD n] := by
  rcases List.eq_nil_or_concat y with rfl | ⟨y, k, rfl⟩
  · exact absurd rfl hy
  · rw [List.concat_eq_append, ← List.cons_append, ← List.cons_append, ← List.append_assoc] at h1 h2
    obtain ⟨rfl, hka⟩ := List.append_inj' h1 rfl
    obtain ⟨rfl, hkb⟩ := List.append_inj' h2 rfl
    have hk := (List.cons.inj hka).1.trans (List.cons.inj hkb).1.symm
    simpa using weigh_swap (hc _ _ hp hq hk)

end Words

/-! ## Texts of words -/

theorem append_split {a r c d : List α} (h : a ++ r = c ++ d) (hl : c.length ≤ a.length) :
    ∃ e, a = c ++ e ∧ d = e ++ r := by
  rcases List.append_eq_append_iff.mp h with ⟨e, hc, hr⟩ | ⟨e, ha, hd⟩
  · have he : e = [] := by
      apply List.eq_nil_of_length_eq_zero
      rw [hc, List.length_append] at hl
      omega
    subst he
    exact ⟨[], by simpa using hc.symm, by simpa using hr.symm⟩
  · exact ⟨e, ha, hd⟩

/-- Two texts of words of length `m` that differ within one word's place. -/
theorem flatten_differ {m : Nat} {ws vs : List (List α)} {x u v y : List α} (hws : ∀ a ∈ ws, a.length = m)
    (hvs : ∀ b ∈ vs, b.length = m) (hlen : ws.length = vs.length) (huv : u.length = v.length)
    (hx : x.length % m + u.length ≤ m) (hu : u ≠ []) (h1 : ws.flatten = x ++ (u ++ y)) (h2 : vs.flatten = x ++ (v ++ y)) :
    ∃ a ∈ ws, ∃ b ∈ vs, ∃ x' y', x'.length = x.length % m ∧ a = x' ++ (u ++ y') ∧ b = x' ++ (v ++ y') := by
  induction ws generalizing vs x with
  | nil =>
    have hlen0 := congrArg List.length h1
    have hpos : 0 < u.length := List.length_pos_iff.mpr hu
    rw [List.flatten_nil, List.length_append, List.length_append, List.length_nil] at hlen0
    omega
  | cons a ws ih =>
    cases vs with
    | nil => cases hlen
    | cons b vs =>
      have ha : a.length = m := hws a List.mem_cons_self
      have hb : b.length = m := hvs b List.mem_cons_self
      rw [List.flatten_cons] at h1 h2
      rcases Nat.lt_or_ge x.length m with hlt | hge
      · -- the place lies in the first words
        rw [Nat.mod_eq_of_lt hlt] at hx ⊢
        rw [← List.append_assoc] at h1 h2
        obtain ⟨y1, hay, hy1⟩ := append_split h1 (by rw [List.length_append]; omega)
        obtain ⟨y2, hby, hy2⟩ := append_split h2 (by rw [List.length_append]; omega)
        have hyl : y1.length = y2.length := by
          rw [hay, List.length_append, List.length_append] at ha
          rw [hby, List.length_append, List.length_append] at hb
          omega
        obtain ⟨rfl, -⟩ := List.append_inj (hy1.symm.trans hy2) hyl
        exact ⟨a, List.mem_cons_self, b, List.mem_cons_self, x, y1, rfl, by simpa using hay, by simpa using hby⟩
      · obtain ⟨x1, hx1, ht1⟩ := append_split h1.symm (by omega)
        obtain ⟨x2, hx2, ht2⟩ := append_split h2.symm (by omega)
        obtain ⟨rfl, rfl⟩ := List.append_inj (hx1.symm.trans hx2) (by omega)
        have hmod : x.length % m = x1.length % m := by rw [hx1, List.length_append, ha, Nat.add_mod_left]
        rw [hmod] at hx ⊢
        obtain ⟨c, hc, d, hd, x', y', h⟩ := ih (fun c hc => hws c (List.mem_cons_of_mem _ hc))
          (fun c hc => hvs c (List.mem_cons_of_mem _ hc)) (Nat.succ.inj hlen) hx ht1 ht2
        exact ⟨c, List.mem_cons_of_mem _ hc, d, List.mem_cons_of_mem _ hd, x', y', h⟩

end BepRs.Lib.Check
