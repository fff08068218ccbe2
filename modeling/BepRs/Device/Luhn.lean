/-
  BepRs.Device.Luhn — the check characters and the dashes of a device id
  (`src/device_id.rs`).

  A text is its characters, `none` is a panic. The four groups of a luhnified text are
  thirteen characters and the check character of these, weighed alternately once and
  twice; a doubled value is folded back below 32.

  Proved: `luhnify` puts the check characters in and `unluhnify` takes them out again,
  but of what stands behind the fourth group it reads nothing (`unluhnify_eq_some`).
-/

import BepRs.Lib.Slice
import BepRs.Lib.Check
import BepRs.Lib.Path

namespace BepRs.Device

open BepRs.Lib BepRs.Lib.Slice BepRs.Lib.Check
open BepRs.Lib.Path (Text)

def LUHN32 : Text := "ABCDEFGHIJKLMNOPQRSTUVWXYZ234567".toList

def codepoint32 (c : Char) : Option Nat :=
  if 'A' ≤ c ∧ c ≤ 'Z' then some (c.toNat - 'A'.toNat)
  else if '2' ≤ c ∧ c ≤ '7' then some (c.toNat + 26 - '2'.toNat)
  else none

/-- The loop over the characters left. -/
def luhnSum (factor sum : Nat) : Text → Option Nat
  | [] => some sum
  | c :: cs => do
    let addend := factor * (← codepoint32 c)
    luhnSum (if factor = 2 then 1 else 2) (sum + (addend / 32 + addend % 32)) cs

def syncthingLuhn32 (s : Text) : Option Char := do
  let sum ← luhnSum 1 0 s
  let remainder := sum % 32
  LUHN32[(32 - remainder) % 32]?

/-- One turn of the loop of `luhnify`. -/
def luhnifyGroup (s out : Text) (i : Nat) : Option Text := do
  let part ← slice s (i * 13) ((i + 1) * 13)
  let l ← syncthingLuhn32 part
  some (out ++ part ++ [l])

def luhnify (s : Text) : Option Text := if size s = 52 then (List.range 4).foldlM (luhnifyGroup s) [] else none

/-- One turn of the loop of `unluhnify`. -/
def unluhnifyGroup (s out : Text) (i : Nat) : Option Text := do
  let part ← slice s (i * (13 + 1)) ((i + 1) * (13 + 1) - 1)
  let l ← syncthingLuhn32 part
  let c ← byteAt s ((i + 1) * 14 - 1)
  if l = Char.ofUInt8 c then some (out ++ part) else none

def unluhnify (s : Text) : Option Text := (List.range 4).foldlM (unluhnifyGroup s) []

/-- One turn of the loop of `chunkify`. -/
def chunk (s : Text) (numChunks : Nat) (out : Text) (i : Nat) : Option Text := do
  let part ← slice s (i * 7) ((i + 1) * 7)
  some (if i ≠ numChunks - 1 then out ++ part ++ ['-'] else out ++ part)

def chunkify (s : Text) : Option Text :=
  let numChunks := size s / 7
  (List.range numChunks).foldlM (chunk s numChunks) []

def unchunkify (s : Text) : Text := s.filter (· ≠ '-')

/-! ## Symbols -/

/-- A character of the alphabet. -/
def Symbol (c : Char) : Prop := (codepoint32 c).isSome

instance (c : Char) : Decidable (Symbol c) := inferInstanceAs (Decidable (_ = _))

def code (c : Char) : Nat := (codepoint32 c).getD 0

theorem codepoint32_of_symbol {c : Char} (h : Symbol c) : codepoint32 c = some (code c) := by
  obtain ⟨n, hn⟩ := Option.isSome_iff_exists.mp h
  rw [code, hn]
  rfl

theorem toNat_of_symbol {c : Char} (h : Symbol c) :
    65 ≤ c.toNat ∧ c.toNat ≤ 90 ∧ code c = c.toNat - 65 ∨ 50 ≤ c.toNat ∧ c.toNat ≤ 55 ∧ code c = c.toNat - 24 := by
  have hc := codepoint32_of_symbol h
  unfold codepoint32 at hc
  split at hc
  · rename_i hr
    exact Or.inl ⟨hr.1, hr.2, (Option.some.inj hc).symm⟩
  · split at hc
    · rename_i hr
      refine Or.inr ⟨hr.1, hr.2, ?_⟩
      have h2 : c.toNat + 26 - '2'.toNat = code c := Option.some.inj hc
      have h3 : '2'.toNat = 50 := rfl
      omega
    · cases hc

theorem code_lt {c : Char} (h : Symbol c) : code c < 32 := by
  rcases toNat_of_symbol h with ⟨-, h90, hc⟩ | ⟨-, h55, hc⟩ <;> omega

theorem ascii_of_symbol {c : Char} (h : Symbol c) : Ascii c := by
  rcases toNat_of_symbol h with ⟨-, h90, -⟩ | ⟨-, h55, -⟩
  · exact Nat.lt_of_le_of_lt h90 (by omega)
  · exact Nat.lt_of_le_of_lt h55 (by omega)

theorem code_inj {c d : Char} (hc : Symbol c) (hd : Symbol d) (h : code c = code d) : c = d := by
  apply Char.toNat_inj.mp
  rcases toNat_of_symbol hc with ⟨h1, h2, h3⟩ | ⟨h1, h2, h3⟩ <;>
    rcases toNat_of_symbol hd with ⟨k1, k2, k3⟩ | ⟨k1, k2, k3⟩ <;> omega

theorem dash_not_symbol : ¬ Symbol '-' := by decide

theorem luhn32_symbol : ∀ n < 32, ∃ l, LUHN32[n]? = some l ∧ Symbol l ∧ code l = n := by
  intro n hn
  have hall : ∀ m < 32, Symbol (LUHN32.getD m '-') ∧ code (LUHN32.getD m '-') = m := by decide +kernel
  have hlen : n < LUHN32.length := hn
  have hget : LUHN32[n]? = some LUHN32[n] := List.getElem?_eq_getElem hlen
  obtain ⟨hs, hc⟩ := hall n hn
  rw [List.getD_eq_getElem?_getD, hget, Option.getD_some] at hs hc
  exact ⟨LUHN32[n], hget, hs, hc⟩

/-! ## The check character -/

def factorAt (i : Nat) : Nat := if i % 2 = 0 then 1 else 2

/-- What the character at place `i` adds to the sum. -/
def weight (i : Nat) (c : Char) : Nat := factorAt i * code c / 32 + factorAt i * code c % 32

theorem factorAt_succ (i : Nat) : (if factorAt i = 2 then 1 else 2) = factorAt (i + 1) := by
  unfold factorAt
  rcases Nat.mod_two_eq_zero_or_one i with h | h
  · have h1 : (i + 1) % 2 = 1 := by omega
    rw [h, h1]
    rfl
  · have h1 : (i + 1) % 2 = 0 := by omega
    rw [h, h1]
    rfl

theorem luhnSum_eq_some {i sum t : Nat} {s : Text} :
    luhnSum (factorAt i) sum s = some t ↔ (∀ c ∈ s, Symbol c) ∧ t = sum + weigh weight i s := by
  induction s generalizing i sum with
  | nil => simp [luhnSum, weigh, eq_comm]
  | cons c s ih =>
    rw [luhnSum]
    by_cases hc : Symbol c
    · rw [codepoint32_of_symbol hc, factorAt_succ]
      simp only [Option.bind_eq_bind, Option.bind_some]
      rw [ih, weigh, List.forall_mem_cons]
      have hadd : sum + (factorAt i * code c / 32 + factorAt i * code c % 32) + weigh weight (i + 1) s
          = sum + (weight i c + weigh weight (i + 1) s) := by rw [weight]; omega
      rw [hadd]
      constructor
      · rintro ⟨hs, ht⟩
        exact ⟨⟨hc, hs⟩, ht⟩
      · rintro ⟨⟨-, hs⟩, ht⟩
        exact ⟨hs, ht⟩
    · have hn : codepoint32 c = none := by simpa [Symbol] using hc
      rw [hn]
      constructor
      · intro h
        cases h
      · rintro ⟨hs, -⟩
        exact absurd (hs c List.mem_cons_self) hc

/-- The check character of a text of the alphabet. -/
def check (s : Text) : Char := (syncthingLuhn32 s).getD 'A'

theorem syncthingLuhn32_of_symbols {s : Text} (h : ∀ c ∈ s, Symbol c) :
    syncthingLuhn32 s = some (check s) ∧ Symbol (check s) ∧ code (check s) = (32 - weigh weight 0 s % 32) % 32 := by
  have hsum : luhnSum 1 0 s = some (weigh weight 0 s) := (@luhnSum_eq_some 0 0 _ s).mpr ⟨h, (Nat.zero_add _).symm⟩
  obtain ⟨l, hl, hs, hc⟩ := luhn32_symbol ((32 - weigh weight 0 s % 32) % 32) (Nat.mod_lt _ (by omega))
  have heq : syncthingLuhn32 s = some l := by
    rw [syncthingLuhn32, hsum]
    exact hl
  have hcheck : check s = l := by rw [check, heq]; rfl
  rw [hcheck]
  exact ⟨heq, hs, hc⟩

theorem syncthingLuhn32_eq_some {s : Text} {l : Char} :
    syncthingLuhn32 s = some l ↔ (∀ c ∈ s, Symbol c) ∧ l = check s := by
  constructor
  · intro h
    obtain ⟨t, ht, -⟩ := Option.bind_eq_some_iff.mp h
    have hs : ∀ c ∈ s, Symbol c := ((luhnSum_eq_some (i := 0)).mp ht).1
    refine ⟨hs, ?_⟩
    rw [check, h]
    rfl
  · rintro ⟨hs, rfl⟩
    exact (syncthingLuhn32_of_symbols hs).1

theorem check_tells : Tells weight Symbol 32 check := by
  intro p q hp hq h
  have h1 := (syncthingLuhn32_of_symbols hp).2.2
  have h2 := (syncthingLuhn32_of_symbols hq).2.2
  rw [h] at h1
  unfold Nat.ModEq
  omega

theorem weight_even {i : Nat} {c : Char} (hi : i % 2 = 0) (h : code c < 32) : weight i c = code c := by
  rw [weight, factorAt, if_pos hi]
  omega

/-- A doubled value folded back below 32. -/
def doubled (n : Nat) : Nat := if n < 16 then 2 * n else 2 * n - 31

theorem weight_odd {i : Nat} {c : Char} (hi : i % 2 = 1) (h : code c < 32) : weight i c = doubled (code c) := by
  rw [weight, factorAt, if_neg (by omega), doubled]
  split <;> omega

/-- Doubling is a permutation of the 32 values. -/
theorem doubled_inj {a b : Nat} (ha : a < 32) (hb : b < 32) (h : doubled a % 32 = doubled b % 32) : a = b := by
  unfold doubled at h
  split at h <;> split at h <;> omega

/-- It moves no two values by the same amount, but 0 and 31. -/
theorem doubled_swap {a b : Nat} (ha : a < 32) (hb : b < 32) (h : (a + doubled b) % 32 = (b + doubled a) % 32) :
    a = b ∨ a = 0 ∧ b = 31 ∨ a = 31 ∧ b = 0 := by
  unfold doubled at h
  split at h <;> split at h <;> omega

theorem weight_inj (i : Nat) (c d : Char) (hc : Symbol c) (hd : Symbol d) (h : weight i c ≡ weight i d [MOD 32]) : c = d := by
  have h1 := code_lt hc
  have h2 := code_lt hd
  apply code_inj hc hd
  rw [Nat.ModEq] at h
  rcases Nat.mod_two_eq_zero_or_one i with hi | hi
  · rw [weight_even hi h1, weight_even hi h2] at h
    omega
  · rw [weight_odd hi h1, weight_odd hi h2] at h
    exact doubled_inj h1 h2 h

theorem weight_swap {i : Nat} {c d : Char} (hc : Symbol c) (hd : Symbol d)
    (h : weight i c + weight (i + 1) d ≡ weight i d + weight (i + 1) c [MOD 32]) :
    code c = code d ∨ code c = 0 ∧ code d = 31 ∨ code c = 31 ∧ code d = 0 := by
  have h1 := code_lt hc
  have h2 := code_lt hd
  rw [Nat.ModEq] at h
  rcases Nat.mod_two_eq_zero_or_one i with hi | hi
  · have hj : (i + 1) % 2 = 1 := by omega
    rw [weight_even hi h1, weight_odd hj h2, weight_even hi h2, weight_odd hj h1] at h
    exact doubled_swap h1 h2 h
  · have hj : (i + 1) % 2 = 0 := by omega
    rw [weight_odd hi h1, weight_even hj h2, weight_odd hi h2, weight_even hj h1] at h
    have hswap : (code c + doubled (code d)) % 32 = (code d + doubled (code c)) % 32 := by omega
    exact doubled_swap h1 h2 hswap

/-! ## Groups -/

/-- The characters one check character stands for. -/
def Group (p : Text) : Prop := p.length = 13 ∧ ∀ c ∈ p, Symbol c

theorem group_size {p : Text} (h : Group p) : size p = 13 := by
  rw [size_ascii fun c hc => ascii_of_symbol (h.2 c hc), h.1]

theorem group_of_size {p : Text} (h : size p = 13) (hs : ∀ c ∈ p, Symbol c) : Group p := by
  rw [size_ascii fun c hc => ascii_of_symbol (hs c hc)] at h
  exact ⟨h, hs⟩

theorem word_symbols {p : Text} (h : Group p) : ∀ c ∈ word check p, Symbol c := by
  intro c hc
  rcases List.mem_append.mp hc with hc | hc
  · exact h.2 c hc
  · rw [List.mem_singleton.mp hc]
    exact (syncthingLuhn32_of_symbols h.2).2.1

theorem word_size {p : Text} (h : Group p) : size (word check p) = 14 := by
  rw [size_ascii fun c hc => ascii_of_symbol (word_symbols h c hc), length_word, h.1]

/-- The text of groups with their check characters. -/
def luhnified (ps : List Text) : Text := (ps.map (word check)).flatten

theorem luhnified_symbols {ps : List Text} (h : ∀ p ∈ ps, Group p) : ∀ c ∈ luhnified ps, Symbol c := by
  intro c hc
  obtain ⟨q, hq, hcq⟩ := List.mem_flatten.mp hc
  obtain ⟨p, hp, rfl⟩ := List.mem_map.mp hq
  exact word_symbols (h p hp) c hcq

theorem length_luhnified {ps : List Text} (h : ∀ p ∈ ps, Group p) : (luhnified ps).length = 14 * ps.length := by
  induction ps with
  | nil => rfl
  | cons p ps ih =>
    have hrest := ih fun q hq => h q (List.mem_cons_of_mem _ hq)
    rw [luhnified] at *
    rw [List.map_cons, List.flatten_cons, List.length_append, hrest, length_word, (h p List.mem_cons_self).1,
      List.length_cons]
    omega

theorem luhnifyGroup_eq_some {out a r q : Text} {i : Nat} (ha : size a = i * 13) :
    luhnifyGroup (a ++ r) out i = some q ↔ ∃ p r', Group p ∧ r = p ++ r' ∧ q = out ++ word check p := by
  have hstop : (i + 1) * 13 = size a + 13 := by omega
  rw [luhnifyGroup, hstop, ← ha]
  constructor
  · intro h
    obtain ⟨p, hp, h⟩ := Option.bind_eq_some_iff.mp h
    obtain ⟨l, hl, h⟩ := Option.bind_eq_some_iff.mp h
    cases h
    obtain ⟨r', rfl, hsize⟩ := slice_after.mp hp
    obtain ⟨hs, rfl⟩ := syncthingLuhn32_eq_some.mp hl
    exact ⟨p, r', group_of_size (by omega) hs, rfl, List.append_assoc _ _ _⟩
  · rintro ⟨p, r', hp, rfl, rfl⟩
    rw [slice_after.mpr ⟨r', rfl, by rw [group_size hp]⟩]
    simp only [Option.bind_eq_bind, Option.bind_some]
    rw [syncthingLuhn32_eq_some.mpr ⟨hp.2, rfl⟩]
    exact congrArg some (List.append_assoc _ _ _)

theorem groups_size {ps : List Text} (h : ∀ p ∈ ps, Group p) : size ps.flatten = ps.length * 13 := by
  have hs := @size_blocks Text 13 id ps fun p hp => group_size (h p hp)
  rwa [List.map_id] at hs

/-- A text of the alphabet of `13 * n` characters is `n` groups. -/
theorem groups_of_symbols (n : Nat) {s : Text} (hlen : s.length = 13 * n) (hs : ∀ c ∈ s, Symbol c) :
    ∃ ps : List Text, ps.length = n ∧ (∀ p ∈ ps, Group p) ∧ s = ps.flatten := by
  induction n generalizing s with
  | zero => exact ⟨[], rfl, (fun p hp => nomatch hp), List.eq_nil_of_length_eq_zero hlen⟩
  | succ n ih =>
    obtain ⟨ps, hn, hok, hps⟩ := ih (s := s.drop 13) (by rw [List.length_drop]; omega) fun c hc => hs c (List.mem_of_mem_drop hc)
    have hg : Group (s.take 13) := ⟨by rw [List.length_take]; omega, fun c hc => hs c (List.mem_of_mem_take hc)⟩
    refine ⟨s.take 13 :: ps, by rw [List.length_cons, hn], List.forall_mem_cons.mpr ⟨hg, hok⟩, ?_⟩
    rw [List.flatten_cons, ← hps, List.take_append_drop]

/-- `luhnify` cuts its text into four groups and returns them with their check characters. -/
theorem luhnify_eq_some {s out : Text} :
    luhnify s = some out ↔ ∃ ps, ps.length = 4 ∧ (∀ p ∈ ps, Group p) ∧ s = ps.flatten ∧ out = luhnified ps := by
  have hloop := @foldlM_blocks Text s 13 (luhnifyGroup s) id (word check) Group (fun _ => group_size)
    (by intro out i a r q hs ha; subst hs; exact luhnifyGroup_eq_some ha) 4 out
  rw [luhnify]
  constructor
  · intro h
    split at h
    · rename_i hs
      obtain ⟨ps, r, h4, hok, hps, hout⟩ := hloop.mp h
      rw [List.map_id] at hps
      refine ⟨ps, h4, hok, ?_, hout⟩
      have hr : size r = 0 := by
        rw [hps, size_append, groups_size hok, h4] at hs
        omega
      rw [hps, eq_nil_of_size hr, List.append_nil]
    · cases h
  · rintro ⟨ps, h4, hok, hps, hout⟩
    have hs : size s = 52 := by rw [hps, groups_size hok, h4]
    rw [if_pos hs]
    exact hloop.mpr ⟨ps, [], h4, hok, by simpa using hps, hout⟩

theorem unluhnifyGroup_eq_some {out a r q : Text} {i : Nat} (ha : size a = i * 14) :
    unluhnifyGroup (a ++ r) out i = some q ↔ ∃ p r', Group p ∧ r = word check p ++ r' ∧ q = out ++ p := by
  have hstart : i * (13 + 1) = size a := by omega
  have hstop : (i + 1) * (13 + 1) - 1 = size a + 13 := by omega
  rw [unluhnifyGroup, hstop, hstart]
  constructor
  · intro h
    obtain ⟨p, hp, h⟩ := Option.bind_eq_some_iff.mp h
    obtain ⟨l, hl, h⟩ := Option.bind_eq_some_iff.mp h
    obtain ⟨c, hc, hif⟩ := Option.bind_eq_some_iff.mp h
    obtain ⟨r', rfl, hsize⟩ := slice_after.mp hp
    obtain ⟨hs, rfl⟩ := syncthingLuhn32_eq_some.mp hl
    split at hif
    · rename_i hlc
      cases hif
      -- the byte behind the part is the check character, and ends there
      have hsize13 : size p = 13 := by omega
      rw [byteAt_append, ← hsize13, ← Nat.add_zero (size p), byteAt_append] at hc
      obtain ⟨r, rfl⟩ := byteAt_zero_ascii hc hlc.symm (ascii_of_symbol (syncthingLuhn32_of_symbols hs).2.1)
      exact ⟨p, r, group_of_size hsize13 hs, by simp [word], rfl⟩
    · cases hif
  · rintro ⟨p, r', hp, rfl, rfl⟩
    have hl := ascii_of_symbol (syncthingLuhn32_of_symbols hp.2).2.1
    have hw : word check p ++ r' = p ++ check p :: r' := by simp [word]
    rw [hw, slice_after.mpr ⟨check p :: r', rfl, by rw [group_size hp]⟩]
    simp only [Option.bind_eq_bind, Option.bind_some]
    rw [syncthingLuhn32_eq_some.mpr ⟨hp.2, rfl⟩, byteAt_append, ← group_size hp, ← Nat.add_zero (size p), byteAt_append,
      byteAt_cons_ascii hl]
    simp only [Option.bind_some]
    rw [if_pos (ofUInt8_ascii hl).symm]

/-- `unluhnify` returns exactly when the text starts with four groups that check, and it
    returns these; what follows them is not read. -/
theorem unluhnify_eq_some {s out : Text} :
    unluhnify s = some out ↔
      ∃ ps r, ps.length = 4 ∧ (∀ p ∈ ps, Group p) ∧ s = luhnified ps ++ r ∧ out = ps.flatten := by
  have hloop := @foldlM_blocks Text s 14 (unluhnifyGroup s) (word check) id Group (fun _ => word_size)
    (by intro out i a r q hs ha; subst hs; exact unluhnifyGroup_eq_some ha) 4 out
  simp only [List.map_id] at hloop
  exact hloop

/-! ## Dashes -/

theorem unchunkify_append (a b : Text) : unchunkify (a ++ b) = unchunkify a ++ unchunkify b := List.filter_append _ _

theorem unchunkify_symbols {s : Text} (h : ∀ c ∈ s, Symbol c) : unchunkify s = s := by
  refine List.filter_eq_self.mpr fun c hc => ?_
  have hne : c ≠ '-' := fun hd => dash_not_symbol (hd ▸ h c hc)
  simpa using hne

/-- The chunks of a text, with the dashes taken out again. -/
theorem chunks_unchunkify {s : Text} (h : ∀ c ∈ s, Symbol c) (m n : Nat) (hn : n * 7 ≤ s.length) :
    ∃ out, (List.range n).foldlM (chunk s m) [] = some out ∧ unchunkify out = s.take (n * 7) := by
  induction n with
  | zero => exact ⟨[], rfl, by simp [unchunkify]⟩
  | succ n ih =>
    obtain ⟨out, hout, hun⟩ := ih (by omega)
    have hsym : ∀ k, ∀ c ∈ s.take k, Symbol c := fun k c hc => h c (List.mem_of_mem_take hc)
    have hpart : ∀ c ∈ (s.drop (n * 7)).take 7, Symbol c := fun c hc =>
      h c (List.mem_of_mem_drop (List.mem_of_mem_take hc))
    have hslice : slice s (n * 7) ((n + 1) * 7) = some ((s.drop (n * 7)).take 7) := by
      refine slice_eq_some.mpr ⟨s.take (n * 7), (s.drop (n * 7)).drop 7, ?_, ?_, ?_⟩
      · rw [List.append_assoc, List.take_append_drop, List.take_append_drop]
      · rw [size_ascii fun c hc => ascii_of_symbol (hsym _ c hc), List.length_take]
        omega
      · rw [size_ascii fun c hc => ascii_of_symbol (hpart c hc), List.length_take, List.length_drop]
        omega
    have htake : s.take ((n + 1) * 7) = s.take (n * 7) ++ (s.drop (n * 7)).take 7 := by
      rw [Nat.succ_mul, List.take_add]
    rw [List.range_succ, List.foldlM_append, hout, htake]
    have hlast : ∀ x, unchunkify (out ++ (s.drop (n * 7)).take 7 ++ x) =
        s.take (n * 7) ++ (s.drop (n * 7)).take 7 ++ unchunkify x := by
      intro x
      rw [unchunkify_append, unchunkify_append, hun, unchunkify_symbols hpart]
    by_cases hm : n ≠ m - 1
    · refine ⟨out ++ (s.drop (n * 7)).take 7 ++ ['-'], by simp [chunk, hslice, hm], ?_⟩
      rw [hlast]
      simp [unchunkify]
    · refine ⟨out ++ (s.drop (n * 7)).take 7, by simp [chunk, hslice, hm], ?_⟩
      rw [unchunkify_append, hun, unchunkify_symbols hpart]

theorem chunkify_unchunkify {s : Text} (h : ∀ c ∈ s, Symbol c) (h7 : 7 ∣ s.length) :
    ∃ out, chunkify s = some out ∧ unchunkify out = s := by
  have hsize : size s = s.length := size_ascii fun c hc => ascii_of_symbol (h c hc)
  obtain ⟨out, hout, hun⟩ := chunks_unchunkify h (size s / 7) (size s / 7) (by omega)
  refine ⟨out, hout, ?_⟩
  rw [hun, List.take_of_length_le]
  omega

end BepRs.Device
