/-
  BepRs.Lib.Base32 — base 32 of RFC 4648.

  The bits of the bytes, highest first and filled with zeros to a multiple of five, are
  read as one number; its digits to the base 32 are the symbols. Decoding takes symbols
  of the alphabet only, in a number that some bytes have, with zero bits behind the last
  byte. `decodeNopad_iff`: it accepts exactly what encoding without the padding gives.
-/

import Mathlib.Data.Nat.Digits.Defs

namespace BepRs.Lib.Base32

/-! ## Digits in a fixed number -/

/-- The `n` lowest digits of a number, the lowest first. -/
def lowDigits (b : Nat) : Nat → Nat → List Nat
  | 0, _ => []
  | n + 1, v => v % b :: lowDigits b n (v / b)

@[simp] theorem length_lowDigits (b n v : Nat) : (lowDigits b n v).length = n := by
  induction n generalizing v with
  | zero => rfl
  | succ n ih => simp [lowDigits, ih]

theorem lowDigits_lt {b : Nat} (hb : 0 < b) (n v : Nat) : ∀ d ∈ lowDigits b n v, d < b := by
  induction n generalizing v with
  | zero => intro d hd; cases hd
  | succ n ih =>
    intro d hd
    rcases List.mem_cons.mp hd with rfl | hd
    · exact Nat.mod_lt _ hb
    · exact ih _ d hd

theorem ofDigits_lowDigits (b n v : Nat) : Nat.ofDigits b (lowDigits b n v) = v % b ^ n := by
  induction n generalizing v with
  | zero => simp [lowDigits, Nat.mod_one]
  | succ n ih =>
    rw [lowDigits, Nat.ofDigits_cons, ih, Nat.pow_succ, Nat.mul_comm (b ^ n) b, Nat.mod_mul]

theorem lowDigits_ofDigits {b : Nat} (hb : 1 < b) {ds : List Nat} (h : ∀ d ∈ ds, d < b) :
    lowDigits b ds.length (Nat.ofDigits b ds) = ds := by
  have hlt : Nat.ofDigits b ds < b ^ ds.length := Nat.ofDigits_lt_base_pow_length hb h
  apply Nat.ofDigits_inj_of_len_eq hb (length_lowDigits b _ _) (lowDigits_lt (by omega) _ _) h
  rw [ofDigits_lowDigits, Nat.mod_eq_of_lt hlt]

/-! ## The alphabet -/

def alphabet : List Char := "ABCDEFGHIJKLMNOPQRSTUVWXYZ234567".toList

def letter (v : Nat) : Char := alphabet.getD v 'A'

def letterByte (v : Nat) : UInt8 := (letter v).toNat.toUInt8

def value (b : UInt8) : Option Nat :=
  if 65 ≤ b.toNat ∧ b.toNat ≤ 90 then some (b.toNat - 65)
  else if 50 ≤ b.toNat ∧ b.toNat ≤ 55 then some (b.toNat - 50 + 26)
  else none

theorem value_letterByte : ∀ v < 32, value (letterByte v) = some v := by decide +kernel

theorem value_ofNat : ∀ n < 256, ∀ v ∈ value (UInt8.ofNat n), v < 32 ∧ letterByte v = UInt8.ofNat n := by decide +kernel

theorem value_eq_some {b : UInt8} {v : Nat} (h : value b = some v) : v < 32 ∧ letterByte v = b := by
  have hb := value_ofNat b.toNat b.toNat_lt v
  rw [UInt8.ofNat_toNat] at hb
  exact hb h

/-! ## Encoding -/

/-- The number the bytes are when the first one is the highest. -/
def number (bs : List UInt8) : Nat := Nat.ofDigits 256 (bs.map UInt8.toNat).reverse

/-- The bytes of a number of `l` bytes. -/
def ofNumber (l n : Nat) : List UInt8 := (lowDigits 256 l n).reverse.map UInt8.ofNat

/-- How many symbols `l` bytes take. -/
def width (l : Nat) : Nat := (8 * l + 4) / 5

/-- The zero bits behind the last byte. -/
def spare (l : Nat) : Nat := 5 * width l - 8 * l

def symbols (bs : List UInt8) : List Nat :=
  (lowDigits 32 (width bs.length) (number bs * 2 ^ spare bs.length)).reverse

def encodeNopad (bs : List UInt8) : List Char := (symbols bs).map letter

def encode (bs : List UInt8) : List Char :=
  encodeNopad bs ++ List.replicate ((8 - width bs.length % 8) % 8) '='

def decodeNopad (x : List UInt8) : Option (List UInt8) := do
  let ds ← x.mapM value
  let l := 5 * x.length / 8
  let v := Nat.ofDigits 32 ds.reverse
  if width l = x.length ∧ v % 2 ^ spare l = 0 then
    some (ofNumber l (v / 2 ^ spare l))
  else none

theorem mapM_value {x : List UInt8} {ds : List Nat} :
    x.mapM value = some ds ↔ (∀ d ∈ ds, d < 32) ∧ x = ds.map letterByte := by
  induction x generalizing ds with
  | nil =>
    constructor
    · intro h
      cases h
      exact ⟨(fun d hd => nomatch hd), rfl⟩
    · rintro ⟨-, hx⟩
      rw [List.map_eq_nil_iff.mp hx.symm]
      rfl
  | cons b x ih =>
    rw [List.mapM_cons]
    constructor
    · intro h
      obtain ⟨v, hv, h⟩ := Option.bind_eq_some_iff.mp h
      obtain ⟨vs, hvs, h⟩ := Option.bind_eq_some_iff.mp h
      cases h
      obtain ⟨h32, rfl⟩ := ih.mp hvs
      obtain ⟨hv32, rfl⟩ := value_eq_some hv
      refine ⟨fun d hd => ?_, rfl⟩
      rcases List.mem_cons.mp hd with rfl | hd
      · exact hv32
      · exact h32 d hd
    · rintro ⟨h32, hx⟩
      cases ds with
      | nil => cases hx
      | cons d ds =>
        obtain ⟨rfl, rfl⟩ := List.cons.inj hx
        have hvs := ih.mpr ⟨fun e he => h32 e (List.mem_cons_of_mem _ he), rfl⟩
        rw [value_letterByte d (h32 d List.mem_cons_self), hvs]
        rfl

theorem bytes_lt (bs : List UInt8) : ∀ d ∈ (bs.map UInt8.toNat).reverse, d < 256 := by
  intro d hd
  obtain ⟨b, -, rfl⟩ := List.mem_map.mp (List.mem_reverse.mp hd)
  exact b.toNat_lt

theorem number_lt (bs : List UInt8) : number bs < 2 ^ (8 * bs.length) := by
  have h := Nat.ofDigits_lt_base_pow_length (by omega) (bytes_lt bs)
  rw [List.length_reverse, List.length_map] at h
  rw [Nat.pow_mul]
  exact h

theorem number_ofNumber (l n : Nat) : number (ofNumber l n) = n % 2 ^ (8 * l) := by
  have hmap : ((ofNumber l n).map UInt8.toNat).reverse = lowDigits 256 l n := by
    rw [ofNumber, List.map_map, List.map_reverse, List.reverse_reverse]
    conv_rhs => rw [← List.map_id (lowDigits 256 l n)]
    refine List.map_congr_left fun d hd => ?_
    have hlt : d < 256 := lowDigits_lt (by omega) l n d hd
    exact UInt8.toNat_ofNat_of_lt' hlt
  rw [number, hmap, ofDigits_lowDigits, Nat.pow_mul]

theorem ofNumber_number (bs : List UInt8) : ofNumber bs.length (number bs) = bs := by
  have h := lowDigits_ofDigits (by omega) (bytes_lt bs)
  rw [List.length_reverse, List.length_map] at h
  rw [ofNumber, number, h, List.reverse_reverse, List.map_map]
  simp [Function.comp_def]

theorem spare_eq (l : Nat) : 8 * l + spare l = 5 * width l := by unfold spare width; omega

theorem number_shift_lt (bs : List UInt8) : number bs * 2 ^ spare bs.length < 32 ^ width bs.length := by
  have h32 : (32 : Nat) ^ width bs.length = 2 ^ (8 * bs.length) * 2 ^ spare bs.length := by
    rw [← Nat.pow_add, spare_eq, Nat.pow_mul]
  rw [h32]
  exact Nat.mul_lt_mul_of_pos_right (number_lt bs) (Nat.two_pow_pos _)

@[simp] theorem length_symbols (bs : List UInt8) : (symbols bs).length = width bs.length := by simp [symbols]

theorem symbols_lt (bs : List UInt8) : ∀ d ∈ symbols bs, d < 32 := by
  intro d hd
  exact lowDigits_lt (by omega) _ _ d (List.mem_reverse.mp hd)

/-- Decoding accepts what encoding gives, and nothing else. -/
theorem decodeNopad_iff {x bs : List UInt8} : decodeNopad x = some bs ↔ x = (symbols bs).map letterByte := by
  unfold decodeNopad
  constructor
  · intro h
    obtain ⟨ds, hds, h⟩ := Option.bind_eq_some_iff.mp h
    obtain ⟨h32, rfl⟩ := mapM_value.mp hds
    simp only [List.length_map] at h
    split at h
    · rename_i hc
      obtain ⟨hw, hz⟩ := hc
      have hbs : ofNumber (5 * ds.length / 8) (Nat.ofDigits 32 ds.reverse / 2 ^ spare (5 * ds.length / 8)) = bs :=
        Option.some.inj h
      generalize hl : 5 * ds.length / 8 = l at *
      have hlen : bs.length = l := by rw [← hbs]; simp [ofNumber]
      have hlt : Nat.ofDigits 32 ds.reverse < 32 ^ ds.reverse.length :=
        Nat.ofDigits_lt_base_pow_length (by omega) fun d hd => h32 d (List.mem_reverse.mp hd)
      have hq : Nat.ofDigits 32 ds.reverse / 2 ^ spare l < 2 ^ (8 * l) := by
        rw [Nat.div_lt_iff_lt_mul (Nat.two_pow_pos _), ← Nat.pow_add, spare_eq, hw, Nat.pow_mul]
        simpa using hlt
      have hnum : number bs = Nat.ofDigits 32 ds.reverse / 2 ^ spare l := by
        rw [← hbs, number_ofNumber, Nat.mod_eq_of_lt hq]
      have hval : number bs * 2 ^ spare l = Nat.ofDigits 32 ds.reverse := by
        rw [hnum, Nat.div_mul_cancel (Nat.dvd_of_mod_eq_zero hz)]
      have hdig := @lowDigits_ofDigits 32 (by omega) ds.reverse fun d hd => h32 d (List.mem_reverse.mp hd)
      rw [symbols, hlen, hval, hw, ← List.length_reverse, hdig, List.reverse_reverse]
    · cases h
  · rintro rfl
    have hlen : 5 * width bs.length / 8 = bs.length := by unfold width; omega
    have hval : Nat.ofDigits 32 (symbols bs).reverse = number bs * 2 ^ spare bs.length := by
      rw [symbols, List.reverse_reverse, ofDigits_lowDigits, Nat.mod_eq_of_lt (number_shift_lt bs)]
    rw [mapM_value.mpr ⟨symbols_lt bs, rfl⟩]
    simp only [Option.bind_eq_bind, Option.bind_some, List.length_map, length_symbols, hlen, hval, Nat.mul_mod_left,
      and_self, if_true, Nat.mul_div_cancel _ (Nat.two_pow_pos _)]
    exact congrArg some (ofNumber_number bs)

end BepRs.Lib.Base32
