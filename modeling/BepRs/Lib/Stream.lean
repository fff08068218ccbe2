/-
  BepRs.Lib.Stream — reading values from a stream that arrives piece by piece.

  A reader looks at the part of the stream that has arrived. It is done with a value and
  what is left, needs more, fails or panics (`Read`). What it came to without needing more
  does not change when more arrives (`Stable`).

  The rules the developments above it use:
  - `writes_bind`: a reader that reads back what one writer wrote, then one for the next.
  - `readAll`: a loop that reads values up to the first that ends it.
  - `readAll_writes`: the loop reads back what was written, value by value.
  - `readAll_prefix`: on a prefix of a stream the loop reads a prefix of the values.
  - `readAll_panicked`: exactly when the loop panics.

  Numbers are written with a fixed number of bytes, the greatest first (`toBe`, `fromBe`).
-/

import Mathlib.Data.List.Basic
import Mathlib.Data.List.Infix
import Mathlib.Tactic.Ring

namespace BepRs.Lib.Stream

/-- What a reader has come to. -/
inductive Read (β ε α : Type) where
  | done (a : α) (rest : List β)
  | more
  | error (e : ε)
  | panic

def Reader (β ε α : Type) := List β → Read β ε α

variable {β ε α γ : Type}

namespace Reader

def ret (a : α) : Reader β ε α := fun s => .done a s

def bind (r : Reader β ε α) (k : α → Reader β ε γ) : Reader β ε γ := fun s =>
  match r s with
  | .done a rest => k a rest
  | .more => .more
  | .error e => .error e
  | .panic => .panic

instance : Monad (Reader β ε) where
  pure := ret
  bind := bind

def fail (e : ε) : Reader β ε α := fun _ => .error e

def panics : Reader β ε α := fun _ => .panic

/-- The next `n` items. -/
def exact (n : Nat) : Reader β ε (List β) := fun s => if n ≤ s.length then .done (s.take n) (s.drop n) else .more

section

variable {r : Reader β ε α} {k : α → Reader β ε γ} {s : List β}

/-- What a sequence is done with, its last step is. -/
theorem done_of_bind {c : γ} {rest : List β} (h : (r >>= k) s = .done c rest) :
    ∃ a rest', r s = .done a rest' ∧ k a rest' = .done c rest := by
  have hbind : r.bind k s = .done c rest := h
  unfold Reader.bind at hbind
  split at hbind
  · rename_i a rest' hs
    exact ⟨a, rest', hs, hbind⟩
  · cases hbind
  · cases hbind
  · cases hbind

theorem bind_done {a : α} {rest : List β} (h : r s = .done a rest) : (r >>= k) s = k a rest := by
  show r.bind k s = _
  simp only [Reader.bind, h]

theorem bind_more (h : r s = .more) : (r >>= k) s = .more := by
  show r.bind k s = _
  simp only [Reader.bind, h]

theorem bind_error {e : ε} (h : r s = .error e) : (r >>= k) s = .error e := by
  show r.bind k s = _
  simp only [Reader.bind, h]

theorem bind_panic (h : r s = .panic) : (r >>= k) s = .panic := by
  show r.bind k s = _
  simp only [Reader.bind, h]

end

end Reader

open Reader

/-! ## What was read stays -/

structure Stable (r : Reader β ε α) : Prop where
  done : ∀ (s t : List β) (a : α) (rest : List β), r s = .done a rest → r (s ++ t) = .done a (rest ++ t)
  error : ∀ (s t : List β) (e : ε), r s = .error e → r (s ++ t) = .error e
  panic : ∀ (s t : List β), r s = .panic → r (s ++ t) = .panic

theorem stable_ret (a : α) : Stable (pure a : Reader β ε α) := by
  refine ⟨fun s t a' rest h => ?_, fun s t e h => (by cases h), fun s t h => (by cases h)⟩
  cases h
  rfl

theorem stable_fail (e : ε) : Stable (fail e : Reader β ε α) :=
  ⟨fun s t a rest h => (by cases h), fun s t e' h => h, fun s t h => (by cases h)⟩

theorem stable_panics : Stable (panics : Reader β ε α) :=
  ⟨fun s t a rest h => (by cases h), fun s t e' h => (by cases h), fun s t h => h⟩

theorem exact_cases (n : Nat) (s : List β) :
    (n ≤ s.length ∧ (exact n : Reader β ε (List β)) s = .done (s.take n) (s.drop n)) ∨
      (¬ n ≤ s.length ∧ (exact n : Reader β ε (List β)) s = .more) := by
  unfold Reader.exact
  by_cases h : n ≤ s.length
  · exact Or.inl ⟨h, if_pos h⟩
  · exact Or.inr ⟨h, if_neg h⟩

/-- What was taken and what is left are the stream. -/
theorem exact_done {n : Nat} {s bytes rest : List β} (h : (exact n : Reader β ε (List β)) s = .done bytes rest) :
    s = bytes ++ rest ∧ bytes.length = n := by
  rcases exact_cases (ε := ε) n s with ⟨hle, hdone⟩ | ⟨-, hmore⟩
  · rw [hdone] at h
    cases h
    exact ⟨(List.take_append_drop n s).symm, by rw [List.length_take]; omega⟩
  · rw [hmore] at h; cases h

theorem stable_exact (n : Nat) : Stable (exact n : Reader β ε (List β)) := by
  refine ⟨fun s t a rest h => ?_, fun s t e h => ?_, fun s t h => ?_⟩
  · rcases exact_cases (ε := ε) n s with ⟨hle, hdone⟩ | ⟨-, hmore⟩
    · rw [hdone] at h
      cases h
      have hle' : n ≤ (s ++ t).length := by simp only [List.length_append]; omega
      unfold Reader.exact
      rw [if_pos hle', List.take_append_of_le_length hle, List.drop_append_of_le_length hle]
    · rw [hmore] at h
      cases h
  · rcases exact_cases (ε := ε) n s with ⟨-, hdone⟩ | ⟨-, hmore⟩
    · rw [hdone] at h; cases h
    · rw [hmore] at h; cases h
  · rcases exact_cases (ε := ε) n s with ⟨-, hdone⟩ | ⟨-, hmore⟩
    · rw [hdone] at h; cases h
    · rw [hmore] at h; cases h

theorem stable_bind {r : Reader β ε α} {k : α → Reader β ε γ} (hr : Stable r) (hk : ∀ a, Stable (k a)) :
    Stable (r >>= k) := by
  refine ⟨fun s t c rest h => ?_, fun s t e h => ?_, fun s t h => ?_⟩
  · cases hs : r s with
    | done a rest' =>
      rw [bind_done hs] at h
      rw [bind_done (hr.done s t a rest' hs)]
      exact (hk a).done rest' t c rest h
    | more => rw [bind_more hs] at h; cases h
    | error e => rw [bind_error hs] at h; cases h
    | panic => rw [bind_panic hs] at h; cases h
  · cases hs : r s with
    | done a rest' =>
      rw [bind_done hs] at h
      rw [bind_done (hr.done s t a rest' hs)]
      exact (hk a).error rest' t e h
    | more => rw [bind_more hs] at h; cases h
    | error e' =>
      rw [bind_error hs] at h
      cases h
      exact bind_error (hr.error s t e hs)
    | panic => rw [bind_panic hs] at h; cases h
  · cases hs : r s with
    | done a rest' =>
      rw [bind_done hs] at h
      rw [bind_done (hr.done s t a rest' hs)]
      exact (hk a).panic rest' t h
    | more => rw [bind_more hs] at h; cases h
    | error e => rw [bind_error hs] at h; cases h
    | panic => exact bind_panic (hr.panic s t hs)

/-! ## Reading back what was written -/

/-- The reader reads exactly `w`, and it stands for `a`. -/
def Writes (r : Reader β ε α) (w : List β) (a : α) : Prop := ∀ t, r (w ++ t) = .done a t

theorem writes_ret (a : α) : Writes (pure a : Reader β ε α) [] a := fun _ => rfl

theorem writes_exact (w : List β) : Writes (exact w.length : Reader β ε (List β)) w w := by
  intro t
  have hle : w.length ≤ (w ++ t).length := by simp only [List.length_append]; omega
  unfold Reader.exact
  rw [if_pos hle, List.take_left, List.drop_left]

theorem writes_bind {r : Reader β ε α} {k : α → Reader β ε γ} {w w' : List β} {a : α} {c : γ} (hr : Writes r w a)
    (hk : Writes (k a) w' c) : Writes (r >>= k) (w ++ w') c := by
  intro t
  rw [List.append_assoc, bind_done (hr _)]
  exact hk t

/-! ## Reading everything -/

/-- Why a loop of reads ended. -/
inductive Ending (ε : Type) where
  /-- It read a value that ends it. -/
  | closed
  /-- It needs more of the stream. -/
  | more
  | failed (e : ε)
  | panicked
  deriving DecidableEq, Repr

/-- Read values up to the first that is the last one; the number bounds how many. -/
def readAll (r : Reader β ε α) (last : α → Bool) : Nat → List β → List α × Ending ε
  | 0, _ => ([], .more)
  | n + 1, s =>
    match r s with
    | .done a rest =>
      if last a then ([a], .closed)
      else
        let x := readAll r last n rest
        (a :: x.1, x.2)
    | .more => ([], .more)
    | .error e => ([], .failed e)
    | .panic => ([], .panicked)

/-- The values up to the first that is the last one. -/
def upTo (last : α → Bool) : List α → List α
  | [] => []
  | a :: as => if last a then [a] else a :: upTo last as

/-- Every value takes at least `k` items of the stream. -/
def Takes (k : Nat) (r : Reader β ε α) : Prop := ∀ s a rest, r s = .done a rest → rest.length + k ≤ s.length

theorem takes_ret (a : α) : Takes 0 (pure a : Reader β ε α) := by
  intro s a' rest h
  cases h
  exact Nat.le_refl _

theorem takes_fail (k : Nat) (e : ε) : Takes k (fail e : Reader β ε α) := fun s a rest h => (by cases h)

theorem takes_panics (k : Nat) : Takes k (panics : Reader β ε α) := fun s a rest h => (by cases h)

theorem takes_exact (n : Nat) : Takes n (exact n : Reader β ε (List β)) := by
  intro s a rest h
  rcases exact_cases (ε := ε) n s with ⟨hle, hdone⟩ | ⟨-, hmore⟩
  · rw [hdone] at h
    cases h
    rw [List.length_drop]
    omega
  · rw [hmore] at h; cases h

theorem Takes.mono {j k : Nat} {r : Reader β ε α} (h : Takes k r) (hjk : j ≤ k) : Takes j r := by
  intro s a rest hs
  have := h s a rest hs
  omega

theorem takes_bind {j : Nat} {r : Reader β ε α} {f : α → Reader β ε γ} (hr : Takes j r) (hf : ∀ a, Takes 0 (f a)) :
    Takes j (r >>= f) := by
  intro s c rest h
  obtain ⟨a, rest', hs, hrest⟩ := done_of_bind h
  have hfirst := hr s a rest' hs
  have hsecond := hf a rest' c rest hrest
  omega

/-- Every value was read somewhere. -/
theorem readAll_mem {r : Reader β ε α} (last : α → Bool) : ∀ {n : Nat} {s : List β} {a : α}, a ∈ (readAll r last n s).1 →
    ∃ s' rest, r s' = .done a rest := by
  intro n
  induction n with
  | zero => intro s a h; cases h
  | succ n ih =>
    intro s a h
    simp only [readAll] at h
    cases hs : r s with
    | done b rest =>
      simp only [hs] at h
      split at h
      · rw [List.mem_singleton] at h
        exact ⟨s, rest, h ▸ hs⟩
      · rcases List.mem_cons.mp h with h | h
        · exact ⟨s, rest, h ▸ hs⟩
        · exact ih h
    | more => rw [hs] at h; cases h
    | error e => rw [hs] at h; cases h
    | panic => rw [hs] at h; cases h

theorem readAll_writes {r : Reader β ε α} {enc : α → List β} (last : α → Bool) (hnil : r [] = .more) :
    ∀ {as : List α}, (∀ a ∈ as, Writes r (enc a) a) → ∀ {n : Nat}, as.length < n →
      readAll r last n (as.flatMap enc) = (upTo last as, if as.any last then .closed else .more) := by
  intro as
  induction as with
  | nil =>
    intro _ n hn
    cases n with
    | zero => cases hn
    | succ n => simp [readAll, hnil, upTo]
  | cons a as ih =>
    intro hw n hn
    cases n with
    | zero => cases hn
    | succ n =>
      have hread := hw a List.mem_cons_self (as.flatMap enc)
      rw [List.flatMap_cons, readAll, hread]
      cases hlast : last a with
      | true => simp [upTo, hlast]
      | false =>
        have hrest := ih (fun b hb => hw b (List.mem_cons_of_mem _ hb)) (Nat.lt_of_succ_lt_succ hn)
        simp [upTo, hlast, hrest]

/-- On a prefix of a stream the loop reads a prefix of the values; what ended it there,
    other than the end of the prefix, ends it on the whole stream, at the same value. -/
theorem readAll_prefix {r : Reader β ε α} (hr : Stable r) (hc : Takes 1 r) (last : α → Bool) (t : List β) :
    ∀ {n m : Nat} {s : List β}, s.length < n → (s ++ t).length < m →
      (readAll r last n s).1 <+: (readAll r last m (s ++ t)).1 ∧
        ((readAll r last n s).2 ≠ .more → readAll r last m (s ++ t) = readAll r last n s) := by
  intro n
  induction n with
  | zero => intro m s hn; cases hn
  | succ n ih =>
    intro m s hn hm
    cases m with
    | zero => cases hm
    | succ m =>
      simp only [readAll]
      cases hs : r s with
      | done a rest =>
        rw [hr.done s t a rest hs]
        have hlt := hc s a rest hs
        have hlt' := hc _ a _ (hr.done s t a rest hs)
        have hnext := ih (m := m) (s := rest) (by omega) (by omega)
        cases hlast : last a with
        | true => simp [hlast]
        | false =>
          simp only [hlast, Bool.false_eq_true, if_false, List.cons_prefix_cons, true_and]
          refine ⟨hnext.1, fun hne => ?_⟩
          rw [hnext.2 hne]
      | more => simp
      | error e => simp [hr.error s t e hs]
      | panic => simp [hr.panic s t hs]

/-- The values from one place of a stream to another are read, and none of them is the last. -/
inductive Reads (r : Reader β ε α) (last : α → Bool) : List β → List β → Prop
  | refl (s : List β) : Reads r last s s
  | step {s rest s' : List β} {a : α} : r s = .done a rest → last a = false → Reads r last rest s' → Reads r last s s'

/-- The loop panics where the reader does, at a place it gets to. -/
theorem readAll_panicked {r : Reader β ε α} (hc : Takes 1 r) (last : α → Bool) : ∀ {n : Nat} {s : List β}, s.length < n →
    ((readAll r last n s).2 = .panicked ↔ ∃ s', Reads r last s s' ∧ r s' = .panic) := by
  intro n
  induction n with
  | zero => intro s hn; cases hn
  | succ n ih =>
    intro s hn
    constructor
    · intro h
      simp only [readAll] at h
      cases hs : r s with
      | done a rest =>
        rw [hs] at h
        have hlt := hc s a rest hs
        cases hlast : last a with
        | true => simp [hlast] at h
        | false =>
          simp only [hlast, Bool.false_eq_true, if_false] at h
          obtain ⟨s', hreads, hpanic⟩ := (ih (by omega)).mp h
          exact ⟨s', .step hs hlast hreads, hpanic⟩
      | more => rw [hs] at h; cases h
      | error e => rw [hs] at h; cases h
      | panic => exact ⟨s, .refl s, hs⟩
    · intro h
      obtain ⟨s', hreads, hpanic⟩ := h
      cases hreads with
      | refl => simp only [readAll, hpanic]
      | step hs hlast hrest =>
        have hlt := hc s _ _ hs
        simp only [readAll, hs, hlast, Bool.false_eq_true, if_false]
        exact (ih (by omega)).mpr ⟨s', hrest, hpanic⟩

/-! ## Numbers -/

def toBe : Nat → Nat → List UInt8
  | 0, _ => []
  | w + 1, n => toBe w (n / 256) ++ [UInt8.ofNat n]

def fromBe (bs : List UInt8) : Nat := bs.foldl (fun acc b => acc * 256 + b.toNat) 0

@[simp] theorem length_toBe : ∀ (w n : Nat), (toBe w n).length = w := by
  intro w
  induction w with
  | zero => intro n; rfl
  | succ w ih => intro n; simp [toBe, ih]

theorem fromBe_toBe : ∀ {w n : Nat}, n < 256 ^ w → fromBe (toBe w n) = n := by
  intro w
  induction w with
  | zero => intro n h; simp only [pow_zero] at h; simp only [toBe, fromBe, List.foldl_nil]; omega
  | succ w ih =>
    intro n h
    have hdiv : n / 256 < 256 ^ w := by
      rw [Nat.div_lt_iff_lt_mul (by decide), ← pow_succ]
      exact h
    have hrec := ih hdiv
    unfold fromBe at hrec ⊢
    rw [toBe, List.foldl_append, hrec]
    simp only [List.foldl_cons, List.foldl_nil, UInt8.toNat_ofNat']
    omega

/-- A number of `w` bytes. -/
def readBe (w : Nat) : Reader UInt8 ε Nat := do
  let bytes ← exact w
  pure (fromBe bytes)

theorem stable_readBe (w : Nat) : Stable (readBe w : Reader UInt8 ε Nat) :=
  stable_bind (stable_exact w) fun _ => stable_ret _

theorem takes_readBe (w : Nat) : Takes w (readBe w : Reader UInt8 ε Nat) :=
  takes_bind (takes_exact w) fun _ => takes_ret _

theorem readBe_done {w n : Nat} {s rest : List UInt8} (h : (readBe w : Reader UInt8 ε Nat) s = .done n rest) :
    ∃ bytes, s = bytes ++ rest ∧ bytes.length = w ∧ fromBe bytes = n := by
  obtain ⟨bytes, rest', hexact, hret⟩ := done_of_bind h
  cases hret
  obtain ⟨hs, hlen⟩ := exact_done hexact
  exact ⟨bytes, hs, hlen, rfl⟩

theorem readBe_bytes (bytes rest : List UInt8) :
    (readBe bytes.length : Reader UInt8 ε Nat) (bytes ++ rest) = .done (fromBe bytes) rest :=
  bind_done (writes_exact bytes rest)

theorem writes_readBe {w n : Nat} (h : n < 256 ^ w) : Writes (readBe w : Reader UInt8 ε Nat) (toBe w n) n := by
  have hread : Writes (exact w : Reader UInt8 ε (List UInt8)) (toBe w n) (toBe w n) := by
    simpa using writes_exact (ε := ε) (toBe w n)
  have hret : Writes (pure (fromBe (toBe w n)) : Reader UInt8 ε Nat) [] n := by
    rw [fromBe_toBe h]
    exact writes_ret n
  have := writes_bind (k := fun bytes => pure (fromBe bytes)) hread hret
  rw [List.append_nil] at this
  exact this

end BepRs.Lib.Stream
