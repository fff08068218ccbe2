/-
  BepRs.Lib.Keyed — a table as the list of its rows, in insertion order, with a key.

  `upsert` is `INSERT ... ON CONFLICT (key) DO UPDATE`: it replaces the row that has the
  new row's key, where it stands, or appends the new row. `fresh` is the key SQLite gives
  a row inserted without one: one more than the largest in the table.
-/

import Mathlib.Data.List.Basic
import Mathlib.Data.List.Nodup

namespace BepRs.Lib.Keyed

variable {κ ρ σ : Type} [DecidableEq κ]

def upsert (key : ρ → κ) (x : ρ) : List ρ → List ρ
  | [] => [x]
  | y :: ys => if key y = key x then x :: ys else y :: upsert key x ys

def fresh (keys : List Nat) : Nat := keys.foldr max 0 + 1

theorem lt_fresh {keys : List Nat} {k : Nat} (h : k ∈ keys) : k < fresh keys := by
  induction keys with
  | nil => cases h
  | cons x xs ih =>
    simp only [fresh, List.foldr_cons] at ih ⊢
    rcases List.mem_cons.mp h with rfl | h
    · omega
    · have := ih h; omega

theorem fresh_not_mem (keys : List Nat) : fresh keys ∉ keys := fun h => Nat.lt_irrefl _ (lt_fresh h)

variable (key : ρ → κ)

theorem upsert_of_not_mem {x : ρ} {l : List ρ} (h : key x ∉ l.map key) : upsert key x l = l ++ [x] := by
  induction l with
  | nil => rfl
  | cons y ys ih =>
    simp only [List.map_cons, List.mem_cons, not_or] at h
    rw [upsert, if_neg (Ne.symm h.1), ih h.2, List.cons_append]

theorem map_key_upsert (x : ρ) (l : List ρ) :
    (upsert key x l).map key = if key x ∈ l.map key then l.map key else l.map key ++ [key x] := by
  induction l with
  | nil => simp [upsert]
  | cons y ys ih =>
    unfold upsert
    by_cases h : key y = key x
    · simp [h]
    · rw [if_neg h, List.map_cons, ih]
      by_cases hm : key x ∈ ys.map key <;> simp [hm, Ne.symm h]

theorem mem_key_upsert {x : ρ} {l : List ρ} {k : κ} :
    k ∈ (upsert key x l).map key ↔ k ∈ l.map key ∨ k = key x := by
  rw [map_key_upsert]
  by_cases h : key x ∈ l.map key
  · rw [if_pos h]
    exact ⟨Or.inl, fun h' => h'.elim id fun e => e ▸ h⟩
  · rw [if_neg h]; simp

theorem nodup_upsert {l : List ρ} (h : (l.map key).Nodup) (x : ρ) : ((upsert key x l).map key).Nodup := by
  rw [map_key_upsert]
  split
  · exact h
  · rename_i hx
    exact List.nodup_append.mpr ⟨h, by simp, fun a ha b hb => by simp at hb; subst hb; rintro rfl; exact hx ha⟩

/-- With one row per key, an upsert puts the new row in and keeps the rows of the other
    keys. -/
theorem mem_upsert {x z : ρ} {l : List ρ} (h : (l.map key).Nodup) :
    z ∈ upsert key x l ↔ z = x ∨ (z ∈ l ∧ key z ≠ key x) := by
  induction l with
  | nil => simp [upsert]
  | cons y ys ih =>
    simp only [List.map_cons, List.nodup_cons] at h
    unfold upsert
    by_cases hy : key y = key x
    · rw [if_pos hy]
      have hz : z ∈ ys → key z ≠ key x := fun hz e => h.1 (List.mem_map.mpr ⟨z, hz, e.trans hy.symm⟩)
      constructor
      · intro hm
        rcases List.mem_cons.mp hm with rfl | hm
        · exact Or.inl rfl
        · exact Or.inr ⟨List.mem_cons_of_mem _ hm, hz hm⟩
      · rintro (rfl | ⟨hm, hk⟩)
        · exact List.mem_cons_self
        · rcases List.mem_cons.mp hm with rfl | hm
          · exact absurd hy hk
          · exact List.mem_cons_of_mem _ hm
    · rw [if_neg hy, List.mem_cons, ih h.2, List.mem_cons]
      constructor
      · rintro (rfl | rfl | ⟨hm, hk⟩)
        · exact Or.inr ⟨Or.inl rfl, hy⟩
        · exact Or.inl rfl
        · exact Or.inr ⟨Or.inr hm, hk⟩
      · rintro (rfl | ⟨rfl | hm, hk⟩)
        · exact Or.inr (Or.inl rfl)
        · exact Or.inl rfl
        · exact Or.inr (Or.inr ⟨hm, hk⟩)

theorem upsert_eq_self_iff {x : ρ} {l : List ρ} (h : (l.map key).Nodup) : upsert key x l = l ↔ x ∈ l := by
  constructor
  · intro he
    rw [← he]
    exact (mem_upsert key h).mpr (Or.inl rfl)
  · intro hx
    induction l with
    | nil => cases hx
    | cons y ys ih =>
      simp only [List.map_cons, List.nodup_cons] at h
      unfold upsert
      rcases List.mem_cons.mp hx with rfl | hx
      · rw [if_pos rfl]
      · have hne : key y ≠ key x := fun he => h.1 (List.mem_map.mpr ⟨x, hx, he.symm⟩)
        rw [if_neg hne, ih h.2 hx]

/-- An upsert over a row that is there, row by row. -/
theorem upsert_of_mem {x : ρ} {l : List ρ} (h : (l.map key).Nodup) (hx : key x ∈ l.map key) :
    upsert key x l = l.map fun y => if key y = key x then x else y := by
  induction l with
  | nil => cases hx
  | cons y ys ih =>
    simp only [List.map_cons, List.nodup_cons] at h
    unfold upsert
    by_cases hy : key y = key x
    · rw [if_pos hy, List.map_cons, if_pos hy]
      congr 1
      refine (List.map_id ys).symm.trans (List.map_congr_left fun z hz => (if_neg fun he => h.1 ?_).symm)
      exact List.mem_map.mpr ⟨z, hz, he.trans hy.symm⟩
    · rw [if_neg hy, List.map_cons, if_neg hy]
      rw [ih h.2 ((List.mem_cons.mp hx).resolve_left (Ne.symm hy))]

/-- An upsert under a view of the rows that agrees with the old view away from the new
    row's key. -/
theorem map_upsert (key' : σ → κ) {f g : ρ → σ} {x : ρ} {l : List ρ} (hl : (l.map key).Nodup)
    (hf : ∀ y ∈ l, key' (f y) = key y) (hx : key' (g x) = key x) (hg : ∀ y ∈ l, key y ≠ key x → g y = f y) :
    (upsert key x l).map g = upsert key' (g x) (l.map f) := by
  induction l with
  | nil => rfl
  | cons y ys ih =>
    simp only [List.map_cons, List.nodup_cons] at hl
    have hfy := hf y List.mem_cons_self
    unfold upsert
    by_cases h : key y = key x
    · rw [if_pos h, List.map_cons, List.map_cons]
      simp only
      rw [if_pos (by rw [hfy, hx, h])]
      congr 1
      refine List.map_congr_left fun z hz => hg z (List.mem_cons_of_mem _ hz) fun e => ?_
      exact hl.1 (List.mem_map.mpr ⟨z, hz, e.trans h.symm⟩)
    · rw [if_neg h, List.map_cons, List.map_cons]
      simp only
      rw [if_neg (by rw [hfy, hx]; exact h), hg y List.mem_cons_self h]
      congr 1
      exact ih hl.2 (fun z hz => hf z (List.mem_cons_of_mem _ hz)) fun z hz => hg z (List.mem_cons_of_mem _ hz)

/-- Rows that a predicate leaves out, before and after, do not show in its selection. -/
theorem filter_upsert_of_neg {p : ρ → Bool} {x : ρ} {l : List ρ} (hx : p x = false)
    (hl : ∀ y ∈ l, key y = key x → p y = false) : (upsert key x l).filter p = l.filter p := by
  induction l with
  | nil => simp [upsert, hx]
  | cons y ys ih =>
    unfold upsert
    by_cases h : key y = key x
    · rw [if_pos h, List.filter_cons, List.filter_cons, hx, hl y List.mem_cons_self h]; rfl
    · rw [if_neg h, List.filter_cons, List.filter_cons, ih fun z hz => hl z (List.mem_cons_of_mem _ hz)]

/-- Finding a row after an upsert over a row that the search treats alike. -/
theorem find?_upsert_alike {p : ρ → Bool} {x y : ρ} : ∀ {l : List ρ}, (l.map key).Nodup → y ∈ l → key x = key y → p x = p y →
    (upsert key x l).find? p = (l.find? p).map fun z => if key z = key y then x else z := by
  intro l
  induction l with
  | nil => intro _ hy; cases hy
  | cons z zs ih =>
    intro hl hy hkey hp
    simp only [List.map_cons, List.nodup_cons] at hl
    unfold upsert
    by_cases hz : key z = key x
    · -- The row is the first one, and no later one has its key.
      have hzy : y = z := by
        rcases List.mem_cons.mp hy with hy | hy
        · exact hy
        · exact absurd (List.mem_map.mpr ⟨y, hy, hkey.symm.trans hz.symm⟩) hl.1
      subst hzy
      rw [if_pos hz, List.find?_cons, List.find?_cons, hp]
      cases hpy : p y with
      | true => simp
      | false =>
        have hrest : ∀ w ∈ zs, key w ≠ key y := fun w hw he => hl.1 (List.mem_map.mpr ⟨w, hw, he⟩)
        cases hfind : zs.find? p with
        | none => rfl
        | some w => simp [hrest w (List.mem_of_find?_eq_some hfind)]
    · have hy' : y ∈ zs := by
        rcases List.mem_cons.mp hy with hy | hy
        · exact absurd (hy ▸ hkey.symm) hz
        · exact hy
      rw [if_neg hz, List.find?_cons, List.find?_cons]
      cases hpz : p z with
      | true =>
        have hne : key z ≠ key y := fun he => hz (he.trans hkey.symm)
        simp [hne]
      | false => exact ih hl.2 hy' hkey hp

/-- The first row a predicate finds, written again so that the predicate still holds of it. -/
theorem find?_upsert {p : ρ → Bool} {x y : ρ} (hkey : key x = key y) (hx : p x = true) {l : List ρ} (hl : (l.map key).Nodup)
    (h : l.find? p = some y) : (upsert key x l).find? p = some x := by
  have hy : y ∈ l := List.mem_of_find?_eq_some h
  rw [find?_upsert_alike key hl hy hkey (hx.trans (List.find?_some h).symm), h]
  simp

def row (k : κ) (l : List ρ) : Option ρ := l.find? fun y => key y = k

theorem row_some {k : κ} {l : List ρ} {y : ρ} (h : row key k l = some y) : y ∈ l ∧ key y = k :=
  ⟨List.mem_of_find?_eq_some h, by simpa using List.find?_some h⟩

theorem row_none {k : κ} {l : List ρ} : row key k l = none ↔ k ∉ l.map key := by
  unfold row
  rw [List.find?_eq_none]
  constructor
  · intro h hm
    obtain ⟨y, hy, hk⟩ := List.mem_map.mp hm
    exact h y hy (by simpa using hk)
  · intro h y hy hk
    exact h (List.mem_map.mpr ⟨y, hy, by simpa using hk⟩)

/-- With one row per key, a row is its key's. -/
theorem row_of_mem {l : List ρ} (h : (l.map key).Nodup) {y : ρ} (hy : y ∈ l) : row key (key y) l = some y := by
  cases hr : row key (key y) l with
  | none => exact absurd (List.mem_map_of_mem hy) ((row_none key).mp hr)
  | some z =>
    obtain ⟨hz, hk⟩ := row_some key hr
    exact congrArg some (List.inj_on_of_nodup_map h hz hy hk)

/-! ## Joins -/

omit [DecidableEq κ] in
/-- A join on the key of one row is about that row. -/
theorem flatMap_key {l : List ρ} (h : (l.map key).Nodup) {x : ρ} (hx : x ∈ l) {g : ρ → List σ}
    (hg : ∀ y ∈ l, key y ≠ key x → g y = []) : l.flatMap g = g x := by
  induction l with
  | nil => cases hx
  | cons y ys ih =>
    simp only [List.map_cons, List.nodup_cons] at h
    rw [List.flatMap_cons]
    rcases List.mem_cons.mp hx with rfl | hx
    · have hrest : ys.flatMap g = [] := by
        refine List.flatMap_eq_nil_iff.mpr fun z hz => hg z (List.mem_cons_of_mem _ hz) fun he => ?_
        exact h.1 (List.mem_map.mpr ⟨z, hz, he⟩)
      rw [hrest, List.append_nil]
    · have hne : key y ≠ key x := fun he => h.1 (List.mem_map.mpr ⟨x, hx, he.symm⟩)
      rw [hg y List.mem_cons_self hne, List.nil_append, ih h.2 hx fun z hz => hg z (List.mem_cons_of_mem _ hz)]

theorem map_filter_key {l : List ρ} (h : (l.map key).Nodup) (k : κ) :
    (l.filter fun y => k = key y).map key = if k ∈ l.map key then [k] else [] := by
  induction l with
  | nil => simp
  | cons y ys ih =>
    simp only [List.map_cons, List.nodup_cons] at h
    by_cases hk : k = key y
    · have hnot : k ∉ ys.map key := hk ▸ h.1
      have hrest := ih h.2
      rw [if_neg hnot] at hrest
      rw [List.filter_cons_of_pos (by simpa using hk), List.map_cons, hrest, List.map_cons, if_pos (by rw [hk]; simp), hk]
    · rw [List.filter_cons_of_neg (by simpa using hk), ih h.2, List.map_cons]
      simp [hk]

/-- Rows that a join gives `n` times each, seen through a column that tells them apart. -/
theorem nodup_flatMap_replicate {τ : Type} {l : List ρ} {f : ρ → τ} (h : (l.map f).Nodup) (n : ρ → Nat) :
    (l.flatMap fun x => List.replicate (n x) (f x)).Nodup ↔ ∀ x ∈ l, n x ≤ 1 := by
  rw [List.nodup_flatMap]
  constructor
  · intro hnd x hx
    exact List.nodup_replicate.mp (hnd.1 x hx)
  · intro hn
    refine ⟨fun x hx => List.nodup_replicate.mpr (hn x hx), ?_⟩
    refine (List.pairwise_map.mp h).imp fun {a b} hab => ?_
    intro y hya hyb
    exact hab ((List.eq_of_mem_replicate hya).symm.trans (List.eq_of_mem_replicate hyb))

end BepRs.Lib.Keyed
