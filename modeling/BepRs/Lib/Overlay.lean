/-
  BepRs.Lib.Overlay — pieces written at offsets, over what was there.

  A file is the list of its entries. A write puts a piece over it at an offset; what lies
  between the end and the offset is filled with `z`, and writing nothing changes nothing.
  What the writes mean is a map from positions to what was put there last (`Sparse`): a
  write overrides it where its piece lies. A list shows a map when it ends just behind the
  last position of the map and has `z` where the map has nothing (`Shows`), so a map is
  shown by one list only.

  - `shows_putAll`: writes on the list show the writes on the map.
  - `overrideAll_apply`: at each position, the map has what the last write there put.
  - `putAll_perm`: the order of writes that lie apart does not matter.
-/

import Mathlib.Data.List.Pairwise

namespace BepRs.Lib.Overlay

variable {α : Type}

/-- A piece and where it goes. -/
structure Patch (α : Type) where
  start : Nat
  data : List α
  deriving DecidableEq, Repr

namespace Patch

/-- What the piece has for a position. -/
def item (w : Patch α) (p : Nat) : Option α := if w.start ≤ p then w.data[p - w.start]? else none

def Covers (w : Patch α) (p : Nat) : Prop := w.start ≤ p ∧ p < w.start + w.data.length

instance (w : Patch α) (p : Nat) : Decidable (w.Covers p) := inferInstanceAs (Decidable (_ ∧ _))

theorem isSome_item {w : Patch α} {p : Nat} : (w.item p).isSome = true ↔ w.Covers p := by
  unfold item Covers
  split
  · rw [isSome_getElem?]
    omega
  · simp only [Option.isSome_none, Bool.false_eq_true, false_iff]
    omega

theorem item_eq_none {w : Patch α} {p : Nat} : w.item p = none ↔ ¬ w.Covers p := by
  rw [← isSome_item, Bool.not_eq_true, Option.isSome_eq_false_iff, Option.isNone_iff_eq_none]

/-- No position lies in both. -/
def Apart (w v : Patch α) : Prop := ∀ p, w.Covers p → ¬ v.Covers p

end Patch

/-! ## On maps -/

abbrev Sparse (α : Type) := Nat → Option α

def override (m : Sparse α) (w : Patch α) : Sparse α := fun p => (w.item p).or (m p)

def overrideAll (ws : List (Patch α)) (m : Sparse α) : Sparse α := ws.foldl override m

/-- The last write that lies at a position counts. -/
theorem overrideAll_apply (ws : List (Patch α)) (m : Sparse α) (p : Nat) :
    overrideAll ws m p = (ws.reverse.findSome? fun w => w.item p).or (m p) := by
  induction ws generalizing m with
  | nil => rfl
  | cons w ws ih =>
    have hcons : overrideAll (w :: ws) m = overrideAll ws (override m w) := rfl
    rw [hcons, ih, List.reverse_cons, List.findSome?_append, override, Option.or_assoc]
    simp

theorem override_comm {w v : Patch α} (h : w.Apart v) (m : Sparse α) :
    override (override m w) v = override (override m v) w := by
  funext p
  unfold override
  by_cases hw : w.Covers p
  · rw [Patch.item_eq_none.mpr (h p hw)]
    simp
  · rw [Patch.item_eq_none.mpr hw]
    simp

theorem overrideAll_perm {ws ws' : List (Patch α)} (hperm : ws.Perm ws') (h : ws.Pairwise Patch.Apart) (m : Sparse α) :
    overrideAll ws m = overrideAll ws' m := by
  -- two writes of the list commute, also a write with itself
  have hcomm : ws.Pairwise fun w v => ∀ m, override (override m w) v = override (override m v) w :=
    h.imp fun hapart m => override_comm hapart m
  have hflip : ws.Pairwise (flip fun w v => ∀ m : Sparse α, override (override m w) v = override (override m v) w) :=
    hcomm.imp fun hwv m => (hwv m).symm
  refine hperm.foldl_eq' (fun w hw v hv m => ?_) m
  exact hcomm.forall_of_forall_of_flip (fun _ _ _ => rfl) hflip hw hv m

/-! ## On lists -/

variable (z : α)

def put (l : List α) (w : Patch α) : List α :=
  if w.data = [] then l
  else (l ++ List.replicate (w.start - l.length) z).take w.start ++ w.data ++ l.drop (w.start + w.data.length)

def putAll (ws : List (Patch α)) (l : List α) : List α := ws.foldl (put z) l

variable {z}

/-- The part before a write: what was there, and the filling. -/
theorem length_before (l : List α) (n : Nat) : ((l ++ List.replicate (n - l.length) z).take n).length = n := by
  rw [List.length_take, List.length_append, List.length_replicate]
  omega

theorem getElem?_before (l : List α) {n p : Nat} (h : p < n) :
    ((l ++ List.replicate (n - l.length) z).take n)[p]? = some (l[p]?.getD z) := by
  rw [List.getElem?_take_of_lt h]
  by_cases hp : p < l.length
  · rw [List.getElem?_append_left hp, List.getElem?_eq_getElem hp, Option.getD_some]
  · rw [List.getElem?_append_right (by omega), List.getElem?_replicate_of_lt (by omega), List.getElem?_eq_none (by omega),
      Option.getD_none]

theorem length_put (l : List α) (w : Patch α) :
    (put z l w).length = if w.data = [] then l.length else max l.length (w.start + w.data.length) := by
  unfold put
  split
  · rfl
  · rw [List.length_append, List.length_append, length_before, List.length_drop]
    omega

theorem getElem?_put {l : List α} {w : Patch α} {p : Nat} (h : p < (put z l w).length) :
    (put z l w)[p]? = some ((w.item p).getD (l[p]?.getD z)) := by
  by_cases hnil : w.data = []
  · have hsame : put z l w = l := if_pos hnil
    have hnone : w.item p = none := Patch.item_eq_none.mpr fun hc => by
      unfold Patch.Covers at hc
      rw [hnil, List.length_nil] at hc
      omega
    rw [hsame] at h ⊢
    rw [hnone, List.getElem?_eq_getElem h]
    rfl
  · rw [length_put, if_neg hnil] at h
    rw [put, if_neg hnil, List.append_assoc]
    by_cases hbefore : p < w.start
    · rw [List.getElem?_append_left (by rw [length_before]; exact hbefore), getElem?_before l hbefore, Patch.item,
        if_neg (by omega), Option.getD_none]
    · rw [List.getElem?_append_right (by rw [length_before]; omega), length_before]
      by_cases hin : p - w.start < w.data.length
      · rw [List.getElem?_append_left hin, Patch.item, if_pos (by omega), List.getElem?_eq_getElem hin, Option.getD_some]
      · have hnone : w.item p = none := Patch.item_eq_none.mpr fun hc => by unfold Patch.Covers at hc; omega
        have hold : p < l.length := by omega
        rw [List.getElem?_append_right (by omega), List.getElem?_drop, hnone, Option.getD_none,
          show w.start + w.data.length + (p - w.start - w.data.length) = p by omega, List.getElem?_eq_getElem hold]
        rfl

/-! ## What a list shows -/

/-- The list has the map's entries and `z` between them, and ends behind the last. -/
structure Shows (z : α) (l : List α) (m : Sparse α) : Prop where
  length : ∀ k, l.length ≤ k ↔ ∀ p, (m p).isSome = true → p < k
  items : ∀ p < l.length, l[p]? = some ((m p).getD z)

theorem shows_self (l : List α) : Shows z l fun p => l[p]? := by
  refine ⟨fun k => ?_, fun p hp => ?_⟩
  · simp only [isSome_getElem?]
    constructor
    · intro h p hp
      omega
    · intro h
      by_contra hk
      exact absurd (h k (by omega)) (Nat.lt_irrefl k)
  · rw [List.getElem?_eq_getElem hp]
    rfl

theorem Shows.unique {l l' : List α} {m : Sparse α} (h : Shows z l m) (h' : Shows z l' m) : l = l' := by
  have hlen : l.length = l'.length := by
    refine Nat.le_antisymm ?_ ?_
    · exact (h.length _).mpr ((h'.length _).mp (Nat.le_refl _))
    · exact (h'.length _).mpr ((h.length _).mp (Nat.le_refl _))
  refine List.ext_getElem? fun p => ?_
  rcases Nat.lt_or_ge p l.length with hp | hp
  · rw [h.items p hp, h'.items p (hlen ▸ hp)]
  · rw [List.getElem?_eq_none hp, List.getElem?_eq_none (hlen ▸ hp)]

/-- A write on the list shows the write on the map. -/
theorem shows_put {l : List α} {m : Sparse α} (h : Shows z l m) (w : Patch α) : Shows z (put z l w) (override m w) := by
  refine ⟨fun k => ?_, fun p hp => ?_⟩
  · have hends : (if w.data = [] then l.length else max l.length (w.start + w.data.length)) ≤ k ↔
        (∀ p, w.Covers p → p < k) ∧ l.length ≤ k := by
      unfold Patch.Covers
      split
      · rename_i hnil
        rw [hnil, List.length_nil]
        exact ⟨fun hk => ⟨fun p hp => by omega, hk⟩, fun hboth => hboth.2⟩
      · rename_i hne
        have hpos : 0 < w.data.length := List.length_pos_iff.mpr hne
        constructor
        · intro hk
          exact ⟨fun p hp => by omega, by omega⟩
        · rintro ⟨hcovers, hk⟩
          have hlast := hcovers (w.start + w.data.length - 1) (by omega)
          omega
    rw [length_put, hends, h.length k, ← forall_and]
    refine forall_congr' fun p => ?_
    rw [override, Option.isSome_or, Bool.or_eq_true, Patch.isSome_item, or_imp]
  · rw [getElem?_put hp, override]
    cases hw : w.item p with
    | some x => rfl
    | none =>
      simp only [Option.getD_none, Option.none_or]
      rcases Nat.lt_or_ge p l.length with hl | hl
      · rw [h.items p hl]
        rfl
      · -- behind the end the map has nothing
        have hnone : m p = none := by
          by_contra hm
          exact absurd ((h.length l.length).mp (Nat.le_refl _) p (Option.isSome_iff_ne_none.mpr hm)) (by omega)
        rw [List.getElem?_eq_none hl, hnone]

theorem shows_putAll {l : List α} {m : Sparse α} (h : Shows z l m) (ws : List (Patch α)) :
    Shows z (putAll z ws l) (overrideAll ws m) := by
  induction ws generalizing l m with
  | nil => exact h
  | cons w ws ih => exact ih (shows_put h w)

/-- What is at a position after the writes: what the last write there put, else what was
    there, else `z`. -/
def laid (z : α) (ws : List (Patch α)) (l : List α) (p : Nat) : α :=
  ((ws.reverse.findSome? fun w => w.item p).or l[p]?).getD z

theorem getElem?_putAll {ws : List (Patch α)} {l : List α} {p : Nat} (h : p < (putAll z ws l).length) :
    (putAll z ws l)[p]? = some (laid z ws l p) := by
  rw [(shows_putAll (shows_self l) ws).items p h, overrideAll_apply, laid]

/-- The writes end where the last of them ends, or where the list did. -/
theorem length_putAll_le {ws : List (Patch α)} {l : List α} {k : Nat} :
    (putAll z ws l).length ≤ k ↔ l.length ≤ k ∧ ∀ w ∈ ws, w.data = [] ∨ w.start + w.data.length ≤ k := by
  induction ws generalizing l with
  | nil => simp [putAll]
  | cons w ws ih =>
    have hcons : putAll z (w :: ws) l = putAll z ws (put z l w) := rfl
    rw [hcons, ih, length_put, List.forall_mem_cons]
    by_cases hnil : w.data = []
    · simp [hnil]
    · rw [if_neg hnil, Nat.max_le, or_iff_right hnil, and_assoc]

theorem putAll_perm {ws ws' : List (Patch α)} (hperm : ws.Perm ws') (h : ws.Pairwise Patch.Apart) (l : List α) :
    putAll z ws l = putAll z ws' l := by
  have hshows := shows_putAll (z := z) (shows_self l) ws
  rw [overrideAll_perm hperm h] at hshows
  exact hshows.unique (shows_putAll (shows_self l) ws')

end BepRs.Lib.Overlay
