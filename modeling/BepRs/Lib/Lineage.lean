/-
  BepRs.Lib.Lineage — replicated histories whose entries have authors.

  Each node holds, for each key, a history (a list of entries) and the contents that go with
  it. A node writes an entry of its own at the end of its history, with any contents; it
  says what it holds; it adopts what was said when that history is longer than its own, by
  taking the tail beyond its own length, and the contents. Histories need not be prefixes of
  one another.

  An entry knows its author and its place. What a node wrote stays in its own history, so it
  writes an entry of each place at most once, and an entry at the end of a history fixes the
  contents (`Inv`): two histories of a key, held or said, that end in the same entry have the
  same contents. Writing (`inv_write`), adopting (`inv_adopt`) and saying (`inv_say`) keep it.
-/

import BepRs.Lib.Chain
import Mathlib.Logic.Function.Defs

namespace BepRs.Lib.Lineage

variable {ι κ β γ A : Type}

structure State (ι κ β γ : Type) where
  held : ι → κ → Option (List β × γ)
  said : κ → List β → γ → Prop

namespace State

variable (s : State ι κ β γ)

def history (i : ι) (k : κ) : List β := ((s.held i k).map Prod.fst).getD []

/-- The contents go with the history somewhere. -/
def Holds (k : κ) (vs : List β) (g : γ) : Prop := (∃ i, s.held i k = some (vs, g)) ∨ s.said k vs g

/-- All but one node's contents for one key are as before, and nothing more was said. -/
structure Beside (s s' : State ι κ β γ) (i : ι) (k : κ) : Prop where
  held : ∀ j k', j ≠ i ∨ k' ≠ k → s'.held j k' = s.held j k'
  said : ∀ k vs g, s'.said k vs g → s.said k vs g

end State

variable (author : β → A) (place : β → Nat) (me : ι → A)

/-- Every entry is at its place, what a node wrote is in its own history, and the last entry
    fixes the contents. -/
structure Inv (s : State ι κ β γ) : Prop where
  placed : ∀ k vs g, s.Holds k vs g → ∀ (n : Nat) e, vs[n]? = some e → place e = n
  origin : ∀ k vs g, s.Holds k vs g → ∀ (n : Nat) e i, vs[n]? = some e → author e = me i → (s.history i k)[n]? = some e
  agree : ∀ k vs g vs' g', s.Holds k vs g → s.Holds k vs' g' → vs ≠ [] → vs.getLast? = vs'.getLast? → g = g'

variable {author place me} {s s' : State ι κ β γ}

theorem history_held {i : ι} {k : κ} {vs : List β} {g : γ} (h : s.held i k = some (vs, g)) : s.history i k = vs := by
  rw [State.history, h]; rfl

theorem holds_history {i : ι} {k : κ} {n : Nat} {e : β} (h : (s.history i k)[n]? = some e) :
    ∃ g, s.Holds k (s.history i k) g := by
  cases hh : s.held i k with
  | none => rw [State.history, hh] at h; cases h
  | some x => exact ⟨x.2, Or.inl ⟨i, by rw [history_held hh, hh]⟩⟩

/-- A state's histories after one of them was replaced. -/
theorem holds_beside {i : ι} {k k' : κ} {vs : List β} {g : γ} (hb : s.Beside s' i k) (h : s'.Holds k' vs g) :
    k' = k ∧ s'.held i k = some (vs, g) ∨ s.Holds k' vs g := by
  rcases h with ⟨j, hj⟩ | h
  · by_cases hjk : j = i ∧ k' = k
    · obtain ⟨hji, hk⟩ := hjk
      subst hji hk
      exact Or.inl ⟨rfl, hj⟩
    · refine Or.inr (Or.inl ⟨j, ?_⟩)
      rw [← hb.held j k' (by tauto)]; exact hj
  · exact Or.inr (Or.inr (hb.said k' vs g h))

/-- What a replaced history keeps: its entries, in their places. -/
theorem kept_beside {i : ι} {k : κ} {new : List β} {g : γ} (hb : s.Beside s' i k) (hnew : s'.held i k = some (new, g))
    (hpre : s.history i k <+: new) {j : ι} {k' : κ} {n : Nat} {e : β} (h : (s.history j k')[n]? = some e) :
    (s'.history j k')[n]? = some e := by
  by_cases hjk : j = i ∧ k' = k
  · obtain ⟨hji, hk⟩ := hjk
    subst hji hk
    rw [history_held hnew]
    obtain ⟨t, ht⟩ := hpre
    rw [← ht]
    exact List.getElem?_append_left (List.getElem?_eq_some_iff.mp h).1 ▸ h
  · rw [State.history, hb.held j k' (by tauto)]; exact h

/-- A new last entry of a node's own is in no other history. -/
theorem inv_write (h : Inv author place me s) (hme : Function.Injective me) {i : ι} {k : κ} {e : β} {g : γ}
    (hauthor : author e = me i) (hplace : place e = (s.history i k).length)
    (hnew : s'.held i k = some (s.history i k ++ [e], g)) (hb : s.Beside s' i k) : Inv author place me s' := by
  have hkept : ∀ j k' (n : Nat) x, (s.history j k')[n]? = some x → (s'.history j k')[n]? = some x :=
    fun j k' n x hx => kept_beside hb hnew (List.prefix_append _ _) hx
  have hentry : ∀ (n : Nat) x, (s.history i k ++ [e])[n]? = some x →
      (s.history i k)[n]? = some x ∨ n = (s.history i k).length ∧ x = e := by
    intro n x hx
    rw [List.getElem?_append] at hx
    split at hx
    · exact Or.inl hx
    · rename_i hlt
      rw [List.getElem?_singleton] at hx
      split at hx
      · cases hx; exact Or.inr ⟨by omega, rfl⟩
      · cases hx
  have hfresh : ∀ vs g', s.Holds k vs g' → vs.getLast? ≠ some e := by
    intro vs g' hv hlast
    rw [List.getLast?_eq_getElem?] at hlast
    have hn := h.placed k vs g' hv _ _ hlast
    have hown := h.origin k vs g' hv _ _ i hlast hauthor
    rw [← hn, hplace, List.getElem?_eq_none (Nat.le_refl _)] at hown
    cases hown
  refine ⟨fun k' vs g' hv n x hx => ?_, fun k' vs g' hv n x j hx hj => ?_, fun k' vs g₁ vs' g₂ hv hv' hne hlast => ?_⟩
  · rcases holds_beside hb hv with ⟨hk, heq⟩ | hold
    · rw [hnew] at heq
      cases heq
      rcases hentry n x hx with hx | ⟨hn, hxe⟩
      · obtain ⟨g₀, hold⟩ := holds_history hx
        exact h.placed k _ g₀ hold n x hx
      · rw [hxe, hplace, hn]
    · exact h.placed k' vs g' hold n x hx
  · rcases holds_beside hb hv with ⟨hk, heq⟩ | hold
    · rw [hnew] at heq
      cases heq
      rw [hk]
      rcases hentry n x hx with hx' | ⟨hn, hxe⟩
      · obtain ⟨g₀, hold⟩ := holds_history hx'
        exact hkept _ _ _ _ (h.origin k _ g₀ hold n x j hx' hj)
      · have hji : j = i := hme (by rw [← hj, hxe, hauthor])
        rw [hji, history_held hnew]; exact hx
    · exact hkept _ _ _ _ (h.origin k' vs g' hold n x j hx hj)
  · rcases holds_beside hb hv with ⟨hk, heq⟩ | hold <;> rcases holds_beside hb hv' with ⟨hk', heq'⟩ | hold'
    · rw [heq] at heq'; cases heq'; rfl
    · rw [hnew] at heq
      cases heq
      subst hk
      exact absurd (hlast.symm.trans List.getLast?_concat) (hfresh vs' g₂ hold')
    · rw [hnew] at heq'
      cases heq'
      subst hk'
      exact absurd (hlast.trans List.getLast?_concat) (hfresh vs g₁ hold)
    · exact h.agree k' vs g₁ vs' g₂ hold hold' hne hlast

/-- An adopted history ends as the one that was said, with its contents. -/
theorem inv_adopt (h : Inv author place me s) {i : ι} {k : κ} {vs : List β} {g : γ} (hsaid : s.said k vs g)
    (hlen : (s.history i k).length < vs.length) (hnew : s'.held i k = some (Chain.extend (s.history i k) vs, g))
    (hb : s.Beside s' i k) : Inv author place me s' := by
  have hkept : ∀ j k' (n : Nat) x, (s.history j k')[n]? = some x → (s'.history j k')[n]? = some x :=
    fun j k' n x hx => kept_beside hb hnew (Chain.prefix_extend _ _) hx
  -- Every entry of the new history has its place in an old one.
  have hentry : ∀ (n : Nat) x, (Chain.extend (s.history i k) vs)[n]? = some x →
      ∃ us g', s.Holds k us g' ∧ us[n]? = some x := by
    intro n x hx
    rw [Chain.getElem?_extend] at hx
    split at hx
    · obtain ⟨g', hold⟩ := holds_history hx
      exact ⟨_, g', hold, hx⟩
    · exact ⟨vs, g, Or.inr hsaid, hx⟩
  have hlast := Chain.getLast?_extend hlen
  have hvs : vs ≠ [] := List.length_pos_iff.mp (by omega)
  refine ⟨fun k' us g' hu n x hx => ?_, fun k' us g' hu n x j hx hj => ?_, fun k' us g₁ us' g₂ hu hu' hne he => ?_⟩
  · rcases holds_beside hb hu with ⟨hk, heq⟩ | hold
    · rw [hnew] at heq
      cases heq
      obtain ⟨ws, g'', hold, hx'⟩ := hentry n x hx
      exact h.placed k ws g'' hold n x hx'
    · exact h.placed k' us g' hold n x hx
  · rcases holds_beside hb hu with ⟨hk, heq⟩ | hold
    · rw [hnew] at heq
      cases heq
      subst hk
      obtain ⟨ws, g'', hold, hx'⟩ := hentry n x hx
      exact hkept _ _ _ _ (h.origin k' ws g'' hold n x j hx' hj)
    · exact hkept _ _ _ _ (h.origin k' us g' hold n x j hx hj)
  · rcases holds_beside hb hu with ⟨hk, heq⟩ | hold <;> rcases holds_beside hb hu' with ⟨hk', heq'⟩ | hold'
    · rw [heq] at heq'; cases heq'; rfl
    · rw [hnew] at heq
      cases heq
      subst hk
      exact h.agree k' vs g us' g₂ (Or.inr hsaid) hold' hvs (hlast.symm.trans he)
    · rw [hnew] at heq'
      cases heq'
      subst hk'
      exact h.agree k' us g₁ vs g hold (Or.inr hsaid) hne (he.trans hlast)
    · exact h.agree k' us g₁ us' g₂ hold hold' hne he

theorem inv_say (h : Inv author place me s) (hheld : ∀ i k, s'.held i k = s.held i k)
    (hsaid : ∀ k vs g, s'.said k vs g → s.said k vs g ∨ ∃ i, s.held i k = some (vs, g)) : Inv author place me s' := by
  have hold : ∀ k vs g, s'.Holds k vs g → s.Holds k vs g := by
    intro k vs g hv
    rcases hv with ⟨i, hi⟩ | hv
    · exact Or.inl ⟨i, (hheld i k).symm.trans hi⟩
    · rcases hsaid k vs g hv with hv | ⟨i, hi⟩
      · exact Or.inr hv
      · exact Or.inl ⟨i, hi⟩
  refine ⟨fun k vs g hv => h.placed k vs g (hold _ _ _ hv), fun k vs g hv n e i hx hi => ?_,
    fun k vs g vs' g' hv hv' => h.agree k vs g vs' g' (hold _ _ _ hv) (hold _ _ _ hv')⟩
  rw [State.history, hheld i k]
  exact h.origin k vs g (hold _ _ _ hv) n e i hx hi

end BepRs.Lib.Lineage
