/-
  BepRs.Device.Id — device ids as text and back (`src/device_id.rs`).

  `DataEncoding` is the two functions used of the `data_encoding` crate. What is relied on:
  `Rfc4648` (32 bytes are 52 symbols of the alphabet before the padding, and decoding
  undoes encoding) and `Canonical` (decoding accepts nothing else). `rfc4648` has both.

  Proved: printing an id and reading it back returns it (`deviceid_roundtrip`); a text
  that differs from a printed id in one character, or by an exchange of neighbours within
  a group, is rejected (`deviceid_typos_rejected`). What is read is determined by the
  four groups alone: a text that is accepted is the printed one with any characters
  behind it (`deviceid_format`).
-/

import BepRs.Device.Luhn
import BepRs.Lib.Base32
import BepRs.State.Admin
import Mathlib.Data.Bool.AllAny

namespace BepRs.Device

open BepRs.Lib BepRs.Lib.Slice BepRs.Lib.Check BepRs.State
open BepRs.Lib.Path (Text)

/-- `BASE32.encode` and `BASE32_NOPAD.decode`. -/
structure DataEncoding where
  encode : Bytes → Text
  decodeNopad : Bytes → Option Bytes

variable (data : DataEncoding)

def deviceidToBase32 (bytes : DeviceId) : Text := (data.encode bytes.1).filter (· ≠ '=')

def deviceidFromString (id : Text) : Option DeviceId := do
  let s ← unluhnify (unchunkify id)
  let bytes ← data.decodeNopad (asBytes s)
  if h : bytes.length = 32 then some ⟨bytes, h⟩ else none

def deviceidToString (bytes : DeviceId) : Option Text := do
  let l := (data.encode bytes.1).filter (· ≠ '=')
  chunkify (← luhnify l)

structure Rfc4648 : Prop where
  symbols : ∀ bs, ∀ c ∈ data.encode bs, c ∈ Base32.alphabet ∨ c = '='
  width : ∀ bs, ((data.encode bs).filter (· ≠ '=')).length = (8 * bs.length + 4) / 5
  decode_encode : ∀ bs, data.decodeNopad (asBytes ((data.encode bs).filter (· ≠ '='))) = some bs

/-- No other text decodes: not one with bits behind the last byte. -/
def Canonical : Prop := ∀ x bs, data.decodeNopad x = some bs → x = asBytes ((data.encode bs).filter (· ≠ '='))

/-! ## The crate's functions -/

def rfc4648 : DataEncoding := ⟨Base32.encode, Base32.decodeNopad⟩

theorem letter_mem (v : Nat) : Base32.letter v ∈ Base32.alphabet := by
  rw [Base32.letter, List.getD_eq_getElem?_getD]
  rcases h : Base32.alphabet[v]? with _ | c
  · exact List.mem_cons_self
  · exact List.mem_of_getElem? h

theorem letter_ne_pad (v : Nat) : Base32.letter v ≠ '=' := by
  have hall : ∀ c ∈ Base32.alphabet, c ≠ '=' := List.all_iff_forall_prop.mp (by decide)
  exact hall _ (letter_mem v)

theorem encode_filter (bs : Bytes) : (Base32.encode bs).filter (· ≠ '=') = Base32.encodeNopad bs := by
  rw [Base32.encode, List.filter_append, List.filter_replicate_of_neg (by simp), List.append_nil]
  refine List.filter_eq_self.mpr fun c hc => ?_
  obtain ⟨v, -, rfl⟩ := List.mem_map.mp hc
  simpa using letter_ne_pad v

theorem asBytes_encodeNopad (bs : Bytes) : asBytes (Base32.encodeNopad bs) = (Base32.symbols bs).map Base32.letterByte := by
  have hall : ∀ c ∈ Base32.alphabet, Ascii c := List.all_iff_forall_prop.mp (by decide)
  rw [asBytes_ascii, Base32.encodeNopad, List.map_map]
  · rfl
  · intro c hc
    obtain ⟨v, -, rfl⟩ := List.mem_map.mp hc
    exact hall _ (letter_mem v)

theorem rfc4648_holds : Rfc4648 rfc4648 where
  symbols bs c hc := by
    rcases List.mem_append.mp hc with hc | hc
    · obtain ⟨v, -, rfl⟩ := List.mem_map.mp hc
      exact Or.inl (letter_mem v)
    · exact Or.inr (List.eq_of_mem_replicate hc)
  width bs := by
    have h : (rfc4648.encode bs).filter (· ≠ '=') = Base32.encodeNopad bs := encode_filter bs
    rw [h, Base32.encodeNopad, List.length_map, Base32.length_symbols]
    rfl
  decode_encode bs := by
    have h : (rfc4648.encode bs).filter (· ≠ '=') = Base32.encodeNopad bs := encode_filter bs
    rw [h, asBytes_encodeNopad]
    exact Base32.decodeNopad_iff.mpr rfl

theorem rfc4648_canonical : Canonical rfc4648 := by
  intro x bs h
  have hf : (rfc4648.encode bs).filter (· ≠ '=') = Base32.encodeNopad bs := encode_filter bs
  rw [hf, asBytes_encodeNopad]
  exact Base32.decodeNopad_iff.mp h

/-! ## What is printed and what is read -/

section Format

variable {data}

/-- Four groups are cut into chunks. -/
theorem chunkify_luhnified {ps : List Text} (h4 : ps.length = 4) (hok : ∀ p ∈ ps, Group p) :
    ∃ out, chunkify (luhnified ps) = some out ∧ unchunkify out = luhnified ps := by
  have h7 : 7 ∣ (luhnified ps).length := by
    rw [length_luhnified hok, h4]
    exact ⟨8, rfl⟩
  exact chunkify_unchunkify (luhnified_symbols hok) h7

/-- The dashes aside, a printed id is the base 32 text of the id in four groups. -/
theorem deviceidToString_eq_some {id : DeviceId} {s : Text} (h : deviceidToString data id = some s) :
    ∃ ps, ps.length = 4 ∧ (∀ p ∈ ps, Group p) ∧ deviceidToBase32 data id = ps.flatten ∧ unchunkify s = luhnified ps := by
  obtain ⟨l, hl, hs⟩ := Option.bind_eq_some_iff.mp h
  obtain ⟨ps, h4, hok, hps, rfl⟩ := luhnify_eq_some.mp hl
  obtain ⟨out, hout, hun⟩ := chunkify_luhnified h4 hok
  obtain rfl : out = s := Option.some.inj (hout.symm.trans hs)
  exact ⟨ps, h4, hok, hps, hun⟩

theorem deviceidToString_groups {id : DeviceId} {ps : List Text} (h4 : ps.length = 4) (hok : ∀ p ∈ ps, Group p)
    (hps : deviceidToBase32 data id = ps.flatten) : ∃ s, deviceidToString data id = some s ∧ unchunkify s = luhnified ps := by
  have hl : luhnify (deviceidToBase32 data id) = some (luhnified ps) := luhnify_eq_some.mpr ⟨ps, h4, hok, hps, rfl⟩
  obtain ⟨out, hout, hun⟩ := chunkify_luhnified h4 hok
  refine ⟨out, ?_, hun⟩
  exact Option.bind_eq_some_iff.mpr ⟨_, hl, hout⟩

/-- A text is read exactly when it starts with four groups that check and decode to an id. -/
theorem deviceidFromString_eq_some {s : Text} {id : DeviceId} :
    deviceidFromString data s = some id ↔
      ∃ ps r, ps.length = 4 ∧ (∀ p ∈ ps, Group p) ∧ unchunkify s = luhnified ps ++ r ∧
        data.decodeNopad (asBytes ps.flatten) = some id.1 := by
  constructor
  · intro h
    obtain ⟨l, hl, h⟩ := Option.bind_eq_some_iff.mp h
    obtain ⟨bytes, hb, hif⟩ := Option.bind_eq_some_iff.mp h
    obtain ⟨ps, r, h4, hok, hs, rfl⟩ := unluhnify_eq_some.mp hl
    split at hif
    · cases hif
      exact ⟨ps, r, h4, hok, hs, hb⟩
    · cases hif
  · rintro ⟨ps, r, h4, hok, hs, hd⟩
    rw [deviceidFromString, unluhnify_eq_some.mpr ⟨ps, r, h4, hok, hs, rfl⟩]
    simp only [Option.bind_eq_bind, Option.bind_some, hd]
    rw [dif_pos id.2]

theorem symbol_of_alphabet : ∀ c ∈ Base32.alphabet, Symbol c := List.all_iff_forall_prop.mp (by decide)

theorem deviceidToBase32_symbols (h : Rfc4648 data) (id : DeviceId) : ∀ c ∈ deviceidToBase32 data id, Symbol c := by
  intro c hc
  obtain ⟨hmem, hne⟩ := List.mem_filter.mp hc
  rcases h.symbols id.1 c hmem with hs | rfl
  · exact symbol_of_alphabet c hs
  · simp at hne

/-- The base 32 text of an id is four groups. -/
theorem deviceidToBase32_groups (h : Rfc4648 data) (id : DeviceId) :
    ∃ ps : List Text, ps.length = 4 ∧ (∀ p ∈ ps, Group p) ∧ deviceidToBase32 data id = ps.flatten := by
  have hsym := deviceidToBase32_symbols h id
  have hlen : (deviceidToBase32 data id).length = 52 := by
    rw [deviceidToBase32, h.width, id.2]
  exact groups_of_symbols 4 hlen hsym

end Format

theorem deviceid_roundtrip (h : Rfc4648 data) (id : DeviceId) :
    ∃ s, deviceidToString data id = some s ∧ deviceidFromString data s = some id := by
  obtain ⟨ps, h4, hok, hps⟩ := deviceidToBase32_groups h id
  obtain ⟨s, hs, hun⟩ := deviceidToString_groups h4 hok hps
  refine ⟨s, hs, deviceidFromString_eq_some.mpr ⟨ps, [], h4, hok, by rw [hun, List.append_nil], ?_⟩⟩
  rw [← hps]
  exact h.decode_encode id.1

def testBytes : DeviceId :=
  ⟨[27, 166, 202, 223, 9, 72, 220, 199, 114, 19, 3, 106, 197, 142, 23, 241, 200, 161, 184, 244, 226, 116, 195, 122, 128, 52,
    96, 4, 149, 168, 196, 155], by decide⟩

def testText : Text := "DOTMVXY-JJDOMOF-4QTANVM-LDQX6HX-EKDOHU4-J2MG6UC-AGRQAJF-NIYSNQ4".toList

/-- Its characters; the literal would be decoded again wherever it is evaluated. -/
theorem testText_eq :
    testText = ['D', 'O', 'T', 'M', 'V', 'X', 'Y', '-', 'J', 'J', 'D', 'O', 'M', 'O', 'F', '-', '4', 'Q', 'T', 'A', 'N', 'V', 'M',
      '-', 'L', 'D', 'Q', 'X', '6', 'H', 'X', '-', 'E', 'K', 'D', 'O', 'H', 'U', '4', '-', 'J', '2', 'M', 'G', '6', 'U', 'C', '-',
      'A', 'G', 'R', 'Q', 'A', 'J', 'F', '-', 'N', 'I', 'Y', 'S', 'N', 'Q', '4'] := String.toList_ofList

theorem testText_printed : deviceidToString rfc4648 testBytes = some testText := by
  rw [testText_eq]
  decide +kernel

theorem deviceid_roundtrip_sample :
    ∃ s, deviceidToString rfc4648 testBytes = some s ∧ deviceidFromString rfc4648 s = some testBytes :=
  deviceid_roundtrip rfc4648 rfc4648_holds testBytes

/-! ## Typing errors -/

section Typos

variable {data} {id : DeviceId} {s : Text}

theorem unchunkify_cons {c : Char} (h : c ≠ '-') (s : Text) : unchunkify (c :: s) = c :: unchunkify s := by
  rw [unchunkify, List.filter_cons_of_pos (by simpa using h)]
  rfl

theorem unchunkify_dashes {d : Text} (h : ∀ e ∈ d, e = '-') : unchunkify d = [] :=
  List.filter_eq_nil_iff.mpr fun e he => by simp [h e he]

/-- A text as long as a printed id that is read is four groups too, and they differ from the
    printed ones where the texts do. -/
theorem groups_differ {ps qs : List Text} {x u v y r : Text} (h4 : ps.length = 4) (hok : ∀ p ∈ ps, Group p)
    (k4 : qs.length = 4) (kok : ∀ q ∈ qs, Group q) (huv : u.length = v.length) (hx : x.length % 14 + u.length ≤ 14)
    (hu : u ≠ []) (hps : luhnified ps = x ++ (u ++ y)) (hqs : x ++ (v ++ y) = luhnified qs ++ r) :
    ∃ p q x' y', Group p ∧ Group q ∧ x'.length = x.length % 14 ∧ word check p = x' ++ (u ++ y') ∧
      word check q = x' ++ (v ++ y') := by
  have hlp := length_luhnified hok
  have hlq := length_luhnified kok
  have hr : r = [] := by
    have hl := congrArg List.length hqs
    apply List.eq_nil_of_length_eq_zero
    rw [hps] at hlp
    simp only [List.length_append] at hl hlp
    omega
  subst hr
  rw [List.append_nil] at hqs
  have hwords : ∀ {gs : List Text}, (∀ g ∈ gs, Group g) → ∀ w ∈ gs.map (word check), w.length = 14 := by
    intro gs hg w hw
    obtain ⟨g, hgm, rfl⟩ := List.mem_map.mp hw
    rw [length_word, (hg g hgm).1]
  obtain ⟨a, ha, b, hb, x', y', hx', hax, hbx⟩ := flatten_differ (hwords hok) (hwords kok)
    (by rw [List.length_map, List.length_map, h4, k4]) huv hx hu hps hqs.symm
  obtain ⟨p, hp, rfl⟩ := List.mem_map.mp ha
  obtain ⟨q, hq, rfl⟩ := List.mem_map.mp hb
  exact ⟨p, q, x', y', hok p hp, kok q hq, hx', hax, hbx⟩

theorem replaced_rejected (hs : deviceidToString data id = some s) {x y : Text} {a c : Char} (hxy : s = x ++ a :: y)
    (ha : a ≠ '-') (hca : c ≠ a) : deviceidFromString data (x ++ c :: y) = none := by
  obtain ⟨ps, h4, hok, -, hun⟩ := deviceidToString_eq_some hs
  have hps : luhnified ps = unchunkify x ++ ([a] ++ unchunkify y) := by
    rw [← hun, hxy, unchunkify_append, unchunkify_cons ha]
    rfl
  by_contra hne
  obtain ⟨id', hid⟩ := Option.ne_none_iff_exists'.mp hne
  obtain ⟨qs, r, k4, kok, hqs, -⟩ := deviceidFromString_eq_some.mp hid
  by_cases hc : c = '-'
  · -- a dash leaves 55 characters
    subst hc
    have hdash : unchunkify (x ++ '-' :: y) = unchunkify x ++ unchunkify y := by
      rw [unchunkify_append]
      congr 1
    have hlp := length_luhnified hok
    have hlq := length_luhnified kok
    have hl := congrArg List.length (hdash.symm.trans hqs)
    rw [hps] at hlp
    simp only [List.length_append, List.length_singleton] at hl hlp
    omega
  · rw [unchunkify_append, unchunkify_cons hc] at hqs
    obtain ⟨p, q, x', y', hp, hq, -, hwp, hwq⟩ := groups_differ h4 hok k4 kok rfl
      (by have := Nat.mod_lt (unchunkify x).length (y := 14) (by omega); simp; omega) (List.cons_ne_nil a []) hps
      (u := [a]) (v := [c]) hqs
    exact hca (word_replace check_tells weight_inj hp.2 hq.2 hwp hwq).symm

theorem swapped_rejected (hs : deviceidToString data id = some s) {x d y : Text} {a b : Char}
    (hxy : s = x ++ a :: (d ++ b :: y)) (hd : ∀ e ∈ d, e = '-') (ha : a ≠ '-') (hb : b ≠ '-')
    (hx : (unchunkify x).length % 14 < 12) (hab : a ≠ b) (h1 : ¬ (a = 'A' ∧ b = '7')) (h2 : ¬ (a = '7' ∧ b = 'A')) :
    deviceidFromString data (x ++ b :: (d ++ a :: y)) = none := by
  obtain ⟨ps, h4, hok, -, hun⟩ := deviceidToString_eq_some hs
  have hcut : ∀ {e f : Char}, e ≠ '-' → f ≠ '-' →
      unchunkify (x ++ e :: (d ++ f :: y)) = unchunkify x ++ ([e, f] ++ unchunkify y) := by
    intro e f he hf
    rw [unchunkify_append, unchunkify_cons he, unchunkify_append, unchunkify_dashes hd, unchunkify_cons hf]
    rfl
  have hps : luhnified ps = unchunkify x ++ ([a, b] ++ unchunkify y) := by rw [← hun, hxy, hcut ha hb]
  by_contra hne
  obtain ⟨id', hid⟩ := Option.ne_none_iff_exists'.mp hne
  obtain ⟨qs, r, k4, kok, hqs, -⟩ := deviceidFromString_eq_some.mp hid
  rw [hcut hb ha] at hqs
  obtain ⟨p, q, x', y', hp, hq, hx', hwp, hwq⟩ := groups_differ h4 hok k4 kok rfl
    (by simp only [List.length_cons, List.length_nil]; omega) (List.cons_ne_nil a [b]) hps
    (u := [a, b]) (v := [b, a]) hqs
  have hy' : y' ≠ [] := by
    intro he
    have hl := congrArg List.length hwp
    rw [length_word, hp.1, he] at hl
    simp only [List.length_append, List.length_cons, List.length_nil] at hl
    omega
  have hsa : Symbol a := word_symbols hp a (by rw [hwp]; simp)
  have hsb : Symbol b := word_symbols hp b (by rw [hwp]; simp)
  have hmod := word_swap check_tells hp.2 hq.2 hy' hwp hwq
  have hA : ∀ {c}, Symbol c → code c = 0 → c = 'A' := fun hc h0 => code_inj hc (by decide) (h0.trans (by decide))
  have h7 : ∀ {c}, Symbol c → code c = 31 → c = '7' := fun hc h0 => code_inj hc (by decide) (h0.trans (by decide))
  rcases weight_swap hsa hsb hmod with he | ⟨ha0, hb31⟩ | ⟨ha31, hb0⟩
  · exact hab (code_inj hsa hsb he)
  · exact h1 ⟨hA hsa ha0, h7 hsb hb31⟩
  · exact h2 ⟨h7 hsa ha31, hA hsb hb0⟩

end Typos

/-- In a printed id, one other character, or two neighbours of a group exchanged, the
    dashes aside, unless they are `A` and `7`. -/
theorem deviceid_typos_rejected (id : DeviceId) (s : Text) (hs : deviceidToString data id = some s) :
    (∀ x a y c, s = x ++ a :: y → a ≠ '-' → c ≠ a → deviceidFromString data (x ++ c :: y) = none) ∧
      ∀ x a d b y, s = x ++ a :: (d ++ b :: y) → (∀ e ∈ d, e = '-') → a ≠ '-' → b ≠ '-' →
        (unchunkify x).length % 14 < 12 → a ≠ b → ¬ (a = 'A' ∧ b = '7') → ¬ (a = '7' ∧ b = 'A') →
        deviceidFromString data (x ++ b :: (d ++ a :: y)) = none := by
  refine ⟨?_, ?_⟩
  · intro x a y c hxy ha hca
    exact replaced_rejected hs hxy ha hca
  · intro x a d b y hxy hd ha hb hx hab h1 h2
    exact swapped_rejected hs hxy hd ha hb hx hab h1 h2

theorem deviceid_typos_rejected_sample :
    deviceidFromString rfc4648 "EOTMVXY-JJDOMOF-4QTANVM-LDQX6HX-EKDOHU4-J2MG6UC-AGRQAJF-NIYSNQ4".toList = none ∧
      deviceidFromString rfc4648 "DOTMVXJ-YJDOMOF-4QTANVM-LDQX6HX-EKDOHU4-J2MG6UC-AGRQAJF-NIYSNQ4".toList = none := by
  have h := deviceid_typos_rejected rfc4648 testBytes testText testText_printed
  rw [testText_eq] at h
  have h1 := h.1 [] 'D' _ 'E' rfl (by decide) (by decide)
  have h2 := h.2 ['D', 'O', 'T', 'M', 'V', 'X'] 'Y' ['-'] 'J' _ rfl (by simp) (by decide) (by decide) (by decide) (by decide)
    (by decide) (by decide)
  simp only [String.reduceToList]
  exact ⟨h1, h2⟩

/-! ## The format -/

/-- A text that is read is a printed one exactly when nothing stands behind its 56 characters. -/
theorem deviceid_format (h : Rfc4648 data) (hc : Canonical data) (s : Text) (id : DeviceId)
    (hs : deviceidFromString data s = some id) :
    (∃ t, deviceidToString data id = some t ∧ unchunkify s = unchunkify t) ↔ size (unchunkify s) = 56 := by
  obtain ⟨ps, r, h4, hok, hun, hd⟩ := deviceidFromString_eq_some.mp hs
  have hlen : size (luhnified ps) = 56 := by
    rw [size_ascii fun c hm => ascii_of_symbol (luhnified_symbols hok c hm), length_luhnified hok, h4]
  -- the groups are the base 32 text of the id
  have hbase : deviceidToBase32 data id = ps.flatten := by
    have hb : asBytes ps.flatten = asBytes (deviceidToBase32 data id) := hc _ _ hd
    have hp : ∀ c ∈ ps.flatten, Ascii c := by
      intro c hm
      obtain ⟨p, hpm, hcp⟩ := List.mem_flatten.mp hm
      exact ascii_of_symbol ((hok p hpm).2 c hcp)
    have hi : ∀ c ∈ deviceidToBase32 data id, Ascii c := fun c hm => ascii_of_symbol (deviceidToBase32_symbols h id c hm)
    rw [← map_ofUInt8_ascii hp, hb, map_ofUInt8_ascii hi]
  obtain ⟨t, ht, htu⟩ := deviceidToString_groups h4 hok hbase
  constructor
  · rintro ⟨t', ht', hst⟩
    obtain rfl : t = t' := Option.some.inj (ht.symm.trans ht')
    rw [hst, htu, hlen]
  · intro hsize
    refine ⟨t, ht, ?_⟩
    rw [hun, size_append, hlen] at hsize
    rw [hun, htu, eq_nil_of_size (a := r) (by omega), List.append_nil]

theorem deviceid_format_sample :
    (∃ t, deviceidToString rfc4648 testBytes = some t ∧ unchunkify testText = unchunkify t) ↔ size (unchunkify testText) = 56 :=
  deviceid_format rfc4648 rfc4648_holds rfc4648_canonical testText testBytes (by rw [testText_eq]; decide +kernel)

/-- A letter behind the last check character is not read. -/
theorem deviceid_format_trailing :
    Rfc4648 rfc4648 ∧ Canonical rfc4648 ∧ deviceidFromString rfc4648 (testText ++ ['A']) = some testBytes ∧
      ¬ ∃ t, deviceidToString rfc4648 testBytes = some t ∧ unchunkify (testText ++ ['A']) = unchunkify t := by
  refine ⟨rfc4648_holds, rfc4648_canonical, by rw [testText_eq]; decide +kernel, ?_⟩
  rintro ⟨t, ht, hun⟩
  obtain rfl : testText = t := Option.some.inj (testText_printed.symm.trans ht)
  revert hun
  rw [testText_eq]
  decide +kernel

end BepRs.Device
