/-
  BepRs.Lib.Slice — a Rust `str` cut at byte offsets.

  A string is its characters, and offsets count the bytes of its UTF-8 text. `slice` is
  `&s[from..to]`, with `none` for the panic on an offset past the end or inside a
  character; `byteAt` is `s.as_bytes()[i]`.

  Proved: a slice is a part of the string between parts of the sizes asked for
  (`slice_eq_some`), offsets past a first part are offsets of the rest (`slice_after`,
  `byteAt_append`), and a byte below 128 is a character of its own (`byteAt_zero_ascii`).
  A loop over blocks of one size returns exactly when the string starts with that many
  (`foldlM_blocks`).
-/

import Mathlib.Data.List.Basic

namespace BepRs.Lib.Slice

/-- `str::len`. -/
def size : List Char → Nat
  | [] => 0
  | c :: cs => c.utf8Size + size cs

/-- `str::as_bytes`. -/
def asBytes (s : List Char) : List UInt8 := s.flatMap String.utf8EncodeChar

def dropBytes : List Char → Nat → Option (List Char)
  | s, 0 => some s
  | [], _ + 1 => none
  | c :: cs, n + 1 => if c.utf8Size ≤ n + 1 then dropBytes cs (n + 1 - c.utf8Size) else none

def takeBytes : List Char → Nat → Option (List Char)
  | _, 0 => some []
  | [], _ + 1 => none
  | c :: cs, n + 1 => if c.utf8Size ≤ n + 1 then (takeBytes cs (n + 1 - c.utf8Size)).map (c :: ·) else none

def slice (s : List Char) (start stop : Nat) : Option (List Char) :=
  if stop < start then none else (dropBytes s start).bind fun r => takeBytes r (stop - start)

def byteAt (s : List Char) (i : Nat) : Option UInt8 := (asBytes s)[i]?

/-! ## Sizes -/

@[simp] theorem size_nil : size [] = 0 := rfl

@[simp] theorem size_cons (c : Char) (s : List Char) : size (c :: s) = c.utf8Size + size s := rfl

@[simp] theorem size_append (a b : List Char) : size (a ++ b) = size a + size b := by
  induction a with
  | nil => simp
  | cons c a ih => simp [ih, Nat.add_assoc]

@[simp] theorem length_asBytes (s : List Char) : (asBytes s).length = size s := by
  induction s with
  | nil => rfl
  | cons c s ih => rw [asBytes] at *; simp [ih]

theorem asBytes_append (a b : List Char) : asBytes (a ++ b) = asBytes a ++ asBytes b := List.flatMap_append

def Ascii (c : Char) : Prop := c.toNat < 128

instance (c : Char) : Decidable (Ascii c) := inferInstanceAs (Decidable (_ < _))

theorem utf8Size_ascii {c : Char} (h : Ascii c) : c.utf8Size = 1 := by
  rw [Char.utf8Size_eq_one_iff, UInt32.le_iff_toNat_le]
  exact Nat.le_of_lt_succ h

theorem size_ascii {s : List Char} (h : ∀ c ∈ s, Ascii c) : size s = s.length := by
  induction s with
  | nil => rfl
  | cons c s ih =>
    have hs : size s = s.length := ih fun d hd => h d (List.mem_cons_of_mem _ hd)
    rw [size_cons, utf8Size_ascii (h c List.mem_cons_self), hs, List.length_cons]
    omega

/-- Two first parts of one string that have the same size are the same. -/
theorem append_inj_size {a b r q : List Char} (h : a ++ r = b ++ q) (hs : size a = size b) : a = b ∧ r = q := by
  induction a generalizing b with
  | nil =>
    cases b with
    | nil => exact ⟨rfl, h⟩
    | cons c b => have := c.utf8Size_pos; simp at hs; omega
  | cons c a ih =>
    cases b with
    | nil => have := c.utf8Size_pos; simp at hs; omega
    | cons d b =>
      rw [List.cons_append, List.cons_append] at h
      obtain ⟨rfl, ht⟩ := List.cons.inj h
      obtain ⟨rfl, rfl⟩ := ih ht (by simpa using hs)
      exact ⟨rfl, rfl⟩

/-! ## Slices -/

theorem dropBytes_eq_some {s r : List Char} {n : Nat} :
    dropBytes s n = some r ↔ ∃ a, s = a ++ r ∧ size a = n := by
  constructor
  · intro h
    induction s, n using dropBytes.induct with
    | case1 s => rw [dropBytes] at h; cases h; exact ⟨[], rfl, rfl⟩
    | case2 n => cases h
    | case3 c s n hc ih =>
      rw [dropBytes, if_pos hc] at h
      obtain ⟨a, rfl, ha⟩ := ih h
      exact ⟨c :: a, rfl, by rw [size_cons]; omega⟩
    | case4 c s n hc => rw [dropBytes, if_neg hc] at h; cases h
  · rintro ⟨a, rfl, rfl⟩
    induction a with
    | nil => simp [dropBytes]
    | cons c a ih =>
      have hc : 0 < c.utf8Size := c.utf8Size_pos
      obtain ⟨n, hn⟩ : ∃ n, size (c :: a) = n + 1 := ⟨c.utf8Size + size a - 1, by rw [size_cons]; omega⟩
      have hle : c.utf8Size ≤ n + 1 := by rw [← hn, size_cons]; omega
      have hsub : n + 1 - c.utf8Size = size a := by rw [← hn, size_cons]; omega
      rw [hn, List.cons_append, dropBytes, if_pos hle, hsub]
      exact ih

theorem takeBytes_eq_some {s p : List Char} {n : Nat} :
    takeBytes s n = some p ↔ ∃ r, s = p ++ r ∧ size p = n := by
  constructor
  · intro h
    induction s, n using takeBytes.induct generalizing p with
    | case1 s => rw [takeBytes] at h; cases h; exact ⟨s, rfl, rfl⟩
    | case2 n => cases h
    | case3 c s n hc ih =>
      rw [takeBytes, if_pos hc] at h
      obtain ⟨p', hp, rfl⟩ := Option.map_eq_some_iff.mp h
      obtain ⟨r, rfl, hr⟩ := ih hp
      exact ⟨r, rfl, by rw [size_cons]; omega⟩
    | case4 c s n hc => rw [takeBytes, if_neg hc] at h; cases h
  · rintro ⟨r, rfl, rfl⟩
    induction p with
    | nil => simp [takeBytes]
    | cons c p ih =>
      have hc : 0 < c.utf8Size := c.utf8Size_pos
      obtain ⟨n, hn⟩ : ∃ n, size (c :: p) = n + 1 := ⟨c.utf8Size + size p - 1, by rw [size_cons]; omega⟩
      have hle : c.utf8Size ≤ n + 1 := by rw [← hn, size_cons]; omega
      have hsub : n + 1 - c.utf8Size = size p := by rw [← hn, size_cons]; omega
      rw [hn, List.cons_append, takeBytes, if_pos hle, hsub, ih]
      rfl

/-- A slice that does not panic is what stands between the two offsets. -/
theorem slice_eq_some {s p : List Char} {i j : Nat} :
    slice s i j = some p ↔ ∃ a r, s = a ++ p ++ r ∧ size a = i ∧ i + size p = j := by
  unfold slice
  constructor
  · intro h
    split at h
    · cases h
    · obtain ⟨r, hr, hp⟩ := Option.bind_eq_some_iff.mp h
      obtain ⟨a, rfl, ha⟩ := dropBytes_eq_some.mp hr
      obtain ⟨q, rfl, hq⟩ := takeBytes_eq_some.mp hp
      exact ⟨a, q, (List.append_assoc _ _ _).symm, ha, by omega⟩
  · rintro ⟨a, r, rfl, rfl, rfl⟩
    have hd : dropBytes (a ++ p ++ r) (size a) = some (p ++ r) := dropBytes_eq_some.mpr ⟨a, List.append_assoc _ _ _, rfl⟩
    rw [if_neg (by omega), hd]
    exact takeBytes_eq_some.mpr ⟨r, rfl, by omega⟩

theorem eq_nil_of_size {a : List Char} (h : size a = 0) : a = [] := (append_inj_size (b := []) (r := []) (q := a) (by simp) h).1

/-- A slice that starts where a first part ends. -/
theorem slice_after {a s p : List Char} {j : Nat} :
    slice (a ++ s) (size a) j = some p ↔ ∃ r, s = p ++ r ∧ size a + size p = j := by
  rw [slice_eq_some]
  constructor
  · rintro ⟨b, r, h, hb, hj⟩
    obtain ⟨rfl, hs⟩ := append_inj_size (by simpa using h) hb.symm
    exact ⟨r, hs, hj⟩
  · rintro ⟨r, rfl, hj⟩
    exact ⟨a, r, (List.append_assoc _ _ _).symm, rfl, hj⟩

/-! ## Bytes -/

theorem byteAt_append (a s : List Char) (i : Nat) : byteAt (a ++ s) (size a + i) = byteAt s i := by
  rw [byteAt, asBytes_append, ← length_asBytes a, List.getElem?_append_right (by omega), Nat.add_sub_cancel_left]
  rfl

theorem asBytes_ascii {s : List Char} (h : ∀ c ∈ s, Ascii c) : asBytes s = s.map fun c => c.val.toUInt8 := by
  induction s with
  | nil => rfl
  | cons c s ih =>
    have hc := String.utf8EncodeChar_eq_singleton (utf8Size_ascii (h c List.mem_cons_self))
    have hs := ih fun d hd => h d (List.mem_cons_of_mem _ hd)
    rw [asBytes] at *
    rw [List.flatMap_cons, hc, hs]
    rfl

theorem ofUInt8_ascii {c : Char} (h : Ascii c) : Char.ofUInt8 c.val.toUInt8 = c := by
  have hv : c.val.toNat < 256 := Nat.lt_trans h (by omega)
  have hto : (Char.ofUInt8 c.val.toUInt8).toNat = c.val.toUInt8.toNat := UInt8.toNat_toUInt32 _
  apply Char.toNat_inj.mp
  rw [hto, UInt32.toNat_toUInt8, Nat.mod_eq_of_lt hv]
  rfl

/-- The bytes of an ASCII text are its characters. -/
theorem map_ofUInt8_ascii {s : List Char} (h : ∀ c ∈ s, Ascii c) : (asBytes s).map Char.ofUInt8 = s := by
  rw [asBytes_ascii h, List.map_map]
  conv_rhs => rw [← List.map_id s]
  exact List.map_congr_left fun c hc => ofUInt8_ascii (h c hc)

/-- The first byte of a character is below 128 only when it is the whole character. -/
theorem utf8_ascii {c : Char} {b : UInt8} {r : List UInt8} (h : String.utf8EncodeChar c = b :: r) (hb : b.toNat < 128) :
    c.toNat = b.toNat := by
  have hv : c.toNat = c.val.toNat := rfl
  unfold String.utf8EncodeChar at h
  simp only at h
  split at h
  · rename_i hc
    obtain ⟨rfl, -⟩ := List.cons.inj h
    rw [UInt8.toNat_ofNat', hv]
    omega
  -- a longer character starts with a byte from 192 on
  · split at h
    · obtain ⟨rfl, -⟩ := List.cons.inj h
      rw [UInt8.toNat_ofNat'] at hb
      omega
    · split at h
      · obtain ⟨rfl, -⟩ := List.cons.inj h
        rw [UInt8.toNat_ofNat'] at hb
        omega
      · obtain ⟨rfl, -⟩ := List.cons.inj h
        rw [UInt8.toNat_ofNat'] at hb
        omega

/-- Where a string's byte reads as an ASCII character, that character stands there. -/
theorem byteAt_zero_ascii {s : List Char} {b : UInt8} {l : Char} (h : byteAt s 0 = some b)
    (hl : Char.ofUInt8 b = l) (ha : Ascii l) : ∃ r, s = l :: r := by
  cases s with
  | nil => cases h
  | cons c s =>
    have hb : b.toNat = l.toNat := by rw [← hl]; exact UInt8.toNat_toUInt32 b |>.symm
    obtain ⟨d, ds, hd⟩ : ∃ d ds, String.utf8EncodeChar c = d :: ds :=
      List.exists_cons_of_ne_nil String.utf8EncodeChar_ne_nil
    rw [byteAt, asBytes, List.flatMap_cons, hd] at h
    obtain rfl : d = b := by simpa using h
    have hc : c.toNat = d.toNat := utf8_ascii hd (by rw [hb]; exact ha)
    refine ⟨s, by rw [Char.toNat_inj.mp (hc.trans hb)]⟩

theorem byteAt_cons_ascii {c : Char} (h : Ascii c) (s : List Char) : byteAt (c :: s) 0 = some c.val.toUInt8 := by
  rw [byteAt, asBytes, List.flatMap_cons, String.utf8EncodeChar_eq_singleton (utf8Size_ascii h)]
  rfl

/-! ## A string cut block by block -/

theorem size_blocks {β : Type} {k : Nat} {block : β → List Char} {bs : List β} (h : ∀ b ∈ bs, size (block b) = k) :
    size (bs.map block).flatten = bs.length * k := by
  induction bs with
  | nil => simp
  | cons b bs ih =>
    rw [List.map_cons, List.flatten_cons, size_append, h b List.mem_cons_self, ih fun c hc => h c (List.mem_cons_of_mem _ hc),
      List.length_cons, Nat.succ_mul, Nat.add_comm]

/-- A loop that reads the block of size `k` at `i * k` in its turn `i` returns exactly when
    the string starts with that many blocks. -/
theorem foldlM_blocks {β : Type} {s : List Char} {k : Nat} {g : List Char → Nat → Option (List Char)}
    {block piece : β → List Char} {Ok : β → Prop} (hk : ∀ b, Ok b → size (block b) = k)
    (hg : ∀ out i a r q, s = a ++ r → size a = i * k →
      (g out i = some q ↔ ∃ b r', Ok b ∧ r = block b ++ r' ∧ q = out ++ piece b)) (n : Nat) {out : List Char} :
    (List.range n).foldlM g [] = some out ↔
      ∃ (bs : List β) (r : List Char), bs.length = n ∧ (∀ b ∈ bs, Ok b) ∧ s = (bs.map block).flatten ++ r ∧
        out = (bs.map piece).flatten := by
  induction n generalizing out with
  | zero =>
    constructor
    · intro h
      cases h
      exact ⟨[], s, rfl, (fun b hb => nomatch hb), rfl, rfl⟩
    · rintro ⟨bs, r, hn, -, -, rfl⟩
      rw [List.length_eq_zero_iff.mp hn]
      rfl
  | succ n ih =>
    rw [List.range_succ, List.foldlM_append]
    constructor
    · intro h
      obtain ⟨q, hq, h⟩ := Option.bind_eq_some_iff.mp h
      obtain ⟨bs, r, rfl, hok, hs, rfl⟩ := ih.mp hq
      rw [List.foldlM_cons] at h
      obtain ⟨q, hq, h⟩ := Option.bind_eq_some_iff.mp h
      cases h
      obtain ⟨b, r', hb, rfl, rfl⟩ := (hg _ _ _ _ _ hs (size_blocks fun c hc => hk c (hok c hc))).mp hq
      refine ⟨bs ++ [b], r', by simp, ?_, by simp [hs], by simp⟩
      intro c hc
      rcases List.mem_append.mp hc with hc | hc
      · exact hok c hc
      · rw [List.mem_singleton.mp hc]; exact hb
    · rintro ⟨bs, r, hn, hok, hs, rfl⟩
      obtain ⟨cs, b, rfl⟩ : ∃ cs b, bs = cs ++ [b] := by
        rcases List.eq_nil_or_concat bs with rfl | ⟨cs, b, rfl⟩
        · cases hn
        · exact ⟨cs, b, List.concat_eq_append⟩
      have hcs : ∀ c ∈ cs, Ok c := fun c hc => hok c (List.mem_append_left _ hc)
      have hb : Ok b := hok b (by simp)
      have hs' : s = (cs.map block).flatten ++ (block b ++ r) := by simpa using hs
      have hlen : cs.length = n := by simpa using hn
      rw [ih.mpr ⟨cs, _, hlen, hcs, hs', rfl⟩]
      have hgb := (hg (cs.map piece).flatten n _ _ _ hs' (by rw [size_blocks fun c hc => hk c (hcs c hc), hlen])).mpr
        ⟨b, r, hb, rfl, rfl⟩
      simp [hgb]

end BepRs.Lib.Slice
