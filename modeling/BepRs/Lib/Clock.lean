/-
  BepRs.Lib.Clock — lists of counters, read as version vectors.

  A list of pairs of a device and a counter is the map that gives each device its greatest
  counter in the list, and nothing to a device that is not there. Maps are ordered pointwise.
  - `clock_le_iff`: the order on the lists themselves, so it can be decided.
-/

import Mathlib.Data.List.MinMax

namespace BepRs.Lib.Clock

variable {κ α : Type} [DecidableEq κ] [LinearOrder α]

def clock (l : List (κ × α)) : κ → WithBot α := fun k => ((l.filter fun x => x.1 = k).map Prod.snd).maximum

theorem coe_le_clock_iff {l : List (κ × α)} {k : κ} {a : α} : ↑a ≤ clock l k ↔ ∃ x ∈ l, x.1 = k ∧ a ≤ x.2 := by
  rw [clock, List.coe_le_maximum_iff]
  constructor
  · rintro ⟨b, hb, hle⟩
    obtain ⟨x, hx, rfl⟩ := List.mem_map.mp hb
    obtain ⟨hx, hk⟩ := List.mem_filter.mp hx
    exact ⟨x, hx, by simpa using hk, hle⟩
  · rintro ⟨x, hx, hk, hle⟩
    exact ⟨x.2, List.mem_map_of_mem (List.mem_filter.mpr ⟨hx, by simpa using hk⟩), hle⟩

theorem clock_le_iff {l l' : List (κ × α)} : clock l ≤ clock l' ↔ ∀ x ∈ l, ∃ y ∈ l', y.1 = x.1 ∧ x.2 ≤ y.2 := by
  constructor
  · intro h x hx
    refine coe_le_clock_iff.mp (le_trans ?_ (h x.1))
    exact coe_le_clock_iff.mpr ⟨x, hx, rfl, le_refl _⟩
  · intro h k
    refine List.maximum_le_of_forall_le fun a ha => ?_
    obtain ⟨x, hx, rfl⟩ := List.mem_map.mp ha
    obtain ⟨hx, hk⟩ := List.mem_filter.mp hx
    obtain ⟨y, hy, hkey, hle⟩ := h x hx
    exact coe_le_clock_iff.mpr ⟨y, hy, hkey.trans (by simpa using hk), hle⟩

instance (l l' : List (κ × α)) : Decidable (clock l ≤ clock l') := decidable_of_iff _ clock_le_iff.symm

instance (l l' : List (κ × α)) : Decidable (clock l < clock l') := decidable_of_iff _ lt_iff_le_not_ge.symm

end BepRs.Lib.Clock
