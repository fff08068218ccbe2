/-
  BepRs.Lib.Oneshot — one-shot channels, and who holds their senders.

  A channel is a cell: nothing was sent yet, a value was, or the sender was dropped. Cells
  are made one after the other and numbered. A send on a cell that is not pending fails
  (whoever waited on it is gone), and using or dropping a sender resolves its cell for good.

  `Owns` is the books a program keeps that never uses a sender twice: the senders it still
  holds, wherever they are, are different and their cells are pending.
  - `Owns.fresh`, `Owns.send`, `Owns.drop`: a new channel, a send, a drop. The send
    succeeds.
  - `Advance`: what the operations may do to the cells: a resolved one keeps what it has.
-/

import Mathlib.Data.List.Basic
import Mathlib.Data.List.Perm.Basic

namespace BepRs.Lib.Oneshot

inductive Outcome (α : Type) where
  | pending
  | sent (v : α)
  | canceled
  deriving DecidableEq, Repr

abbrev Cells (α : Type) := List (Outcome α)

variable {α : Type}

/-- Send, or fail when the cell is resolved or there is none. -/
def send (cells : Cells α) (t : Nat) (v : α) : Option (Cells α) :=
  match cells[t]? with
  | some .pending => some (cells.set t (.sent v))
  | _ => none

/-- Send and ignore whether it succeeded. -/
def trySend (cells : Cells α) (t : Nat) (v : α) : Cells α := (send cells t v).getD cells

/-- Drop the sender. -/
def drop (cells : Cells α) (t : Nat) : Cells α :=
  match cells[t]? with
  | some .pending => cells.set t .canceled
  | _ => cells

def trySendAll (v : α) (ts : List Nat) (cells : Cells α) : Cells α := ts.foldl (fun c t => trySend c t v) cells

def dropAll (ts : List Nat) (cells : Cells α) : Cells α := ts.foldl drop cells

@[simp] theorem length_trySend (cells : Cells α) (t : Nat) (v : α) : (trySend cells t v).length = cells.length := by
  unfold trySend send
  split <;> simp

@[simp] theorem length_drop (cells : Cells α) (t : Nat) : (drop cells t).length = cells.length := by
  unfold drop
  split <;> simp

@[simp] theorem length_trySendAll (v : α) : ∀ (ts : List Nat) (cells : Cells α),
    (trySendAll v ts cells).length = cells.length := by
  intro ts
  induction ts with
  | nil => intro cells; rfl
  | cons t ts ih => intro cells; exact (ih _).trans (length_trySend cells t v)

@[simp] theorem length_dropAll : ∀ (ts : List Nat) (cells : Cells α), (dropAll ts cells).length = cells.length := by
  intro ts
  induction ts with
  | nil => intro cells; rfl
  | cons t ts ih => intro cells; exact (ih _).trans (length_drop cells t)

/-! ## The order of the cells -/

/-- Cells are added and resolved, with values that satisfy `P`; a resolved one stays. -/
structure Advance (P : α → Prop) (cells cells' : Cells α) : Prop where
  length : cells.length ≤ cells'.length
  kept : ∀ (t : Nat) (o : Outcome α), cells[t]? = some o → o ≠ .pending → cells'[t]? = some o
  sent : ∀ (t : Nat) (v : α), cells'[t]? = some (.sent v) → cells[t]? = some (.sent v) ∨ P v

theorem Advance.refl {P : α → Prop} (cells : Cells α) : Advance P cells cells :=
  ⟨Nat.le_refl _, fun _ _ h _ => h, fun _ _ h => Or.inl h⟩

theorem Advance.trans {P : α → Prop} {a b c : Cells α} (hab : Advance P a b) (hbc : Advance P b c) : Advance P a c := by
  refine ⟨Nat.le_trans hab.length hbc.length, fun t o h hne => hbc.kept t o (hab.kept t o h hne) hne, fun t v h => ?_⟩
  rcases hbc.sent t v h with h | h
  · exact hab.sent t v h
  · exact Or.inr h

theorem Advance.mono {P Q : α → Prop} (hPQ : ∀ v, P v → Q v) {a b : Cells α} (h : Advance P a b) : Advance Q a b := by
  refine ⟨h.length, h.kept, fun t v hv => ?_⟩
  rcases h.sent t v hv with hv | hv
  · exact Or.inl hv
  · exact Or.inr (hPQ v hv)

theorem advance_fresh {P : α → Prop} (cells : Cells α) : Advance P cells (cells ++ [.pending]) := by
  refine ⟨by simp, fun t o h _ => ?_, fun t v h => ?_⟩
  · exact List.getElem?_append_left (List.getElem?_eq_some_iff.mp h).1 ▸ h
  · rcases Nat.lt_or_ge t cells.length with hlt | hge
    · exact Or.inl (List.getElem?_append_left hlt ▸ h)
    · rw [List.getElem?_append_right hge] at h
      have hmem := List.mem_of_getElem? h
      simp at hmem

theorem advance_set {P : α → Prop} {cells : Cells α} {t : Nat} {o : Outcome α} (h : cells[t]? = some .pending)
    (ho : ∀ v, o = .sent v → P v) : Advance P cells (cells.set t o) := by
  have hlt := (List.getElem?_eq_some_iff.mp h).1
  refine ⟨by simp, fun u o' hu hne => ?_, fun u v hu => ?_⟩
  · by_cases he : u = t
    · subst he
      rw [h] at hu
      exact absurd (Option.some.inj hu).symm hne
    · rw [List.getElem?_set_ne (Ne.symm he)]; exact hu
  · by_cases he : u = t
    · subst he
      rw [List.getElem?_set_self hlt] at hu
      exact Or.inr (ho v (Option.some.inj hu))
    · rw [List.getElem?_set_ne (Ne.symm he)] at hu; exact Or.inl hu

theorem send_some {cells cells' : Cells α} {t : Nat} {v : α} (h : send cells t v = some cells') :
    cells[t]? = some .pending ∧ cells' = cells.set t (.sent v) := by
  unfold send at h
  split at h
  · rename_i hp
    exact ⟨hp, (Option.some.inj h).symm⟩
  · cases h

theorem advance_send {P : α → Prop} {cells cells' : Cells α} {t : Nat} {v : α} (h : send cells t v = some cells') (hv : P v) :
    Advance P cells cells' := by
  obtain ⟨hp, he⟩ := send_some h
  subst he
  refine advance_set hp fun v' hv' => ?_
  cases hv'
  exact hv

theorem advance_trySend {P : α → Prop} (cells : Cells α) (t : Nat) {v : α} (hv : P v) : Advance P cells (trySend cells t v) := by
  unfold trySend
  cases h : send cells t v with
  | none => exact Advance.refl cells
  | some cells' => exact advance_send h hv

theorem advance_drop {P : α → Prop} (cells : Cells α) (t : Nat) : Advance P cells (drop cells t) := by
  unfold drop
  split
  · rename_i hp
    exact advance_set hp fun v hv => by cases hv
  · exact Advance.refl cells

theorem advance_trySendAll {P : α → Prop} {v : α} (hv : P v) : ∀ (ts : List Nat) (cells : Cells α),
    Advance P cells (trySendAll v ts cells) := by
  intro ts
  induction ts with
  | nil => intro cells; exact Advance.refl cells
  | cons t ts ih => intro cells; exact (advance_trySend cells t hv).trans (ih _)

theorem advance_dropAll {P : α → Prop} : ∀ (ts : List Nat) (cells : Cells α), Advance P cells (dropAll ts cells) := by
  intro ts
  induction ts with
  | nil => intro cells; exact Advance.refl cells
  | cons t ts ih => intro cells; exact (advance_drop cells t).trans (ih _)

/-- A cell that is pending was so before. -/
theorem Advance.pending {P : α → Prop} {cells cells' : Cells α} (h : Advance P cells cells') {t : Nat}
    (ht : cells'[t]? = some .pending) (hlt : t < cells.length) : cells[t]? = some .pending := by
  by_contra hne
  have hget := List.getElem?_eq_getElem hlt
  have hkept := h.kept t cells[t] hget fun he => hne (by rw [hget, he])
  rw [ht] at hkept
  rw [hget, ← Option.some.inj hkept] at hne
  exact hne rfl

/-! ## What the operations leave -/

theorem trySend_ne {cells : Cells α} {u t : Nat} (v : α) (hne : u ≠ t) : (trySend cells u v)[t]? = cells[t]? := by
  unfold trySend
  cases h : send cells u v with
  | none => rfl
  | some cells' => rw [(send_some h).2]; exact List.getElem?_set_ne hne

theorem drop_ne {cells : Cells α} {u t : Nat} (hne : u ≠ t) : (drop cells u)[t]? = cells[t]? := by
  unfold drop
  split
  · exact List.getElem?_set_ne hne
  · rfl

theorem trySendAll_sent {v : α} : ∀ {ts : List Nat} {cells : Cells α} {t : Nat}, t ∈ ts → cells[t]? = some .pending →
    (trySendAll v ts cells)[t]? = some (.sent v) := by
  intro ts
  induction ts with
  | nil => intro cells t ht _; cases ht
  | cons u ts ih =>
    intro cells t ht hpending
    by_cases he : u = t
    · subst he
      have hset : trySend cells u v = cells.set u (.sent v) := by simp only [trySend, send, hpending, Option.getD_some]
      refine (advance_trySendAll (P := fun _ => True) trivial ts (trySend cells u v)).kept u _ ?_ (by simp)
      rw [hset, List.getElem?_set_self (List.getElem?_eq_some_iff.mp hpending).1]
    · exact ih ((List.mem_cons.mp ht).resolve_left (Ne.symm he)) ((trySend_ne v he).trans hpending)

theorem dropAll_canceled : ∀ {ts : List Nat} {cells : Cells α} {t : Nat}, t ∈ ts → cells[t]? = some .pending →
    (dropAll ts cells)[t]? = some .canceled := by
  intro ts
  induction ts with
  | nil => intro cells t ht _; cases ht
  | cons u ts ih =>
    intro cells t ht hpending
    by_cases he : u = t
    · subst he
      have hset : drop cells u = cells.set u .canceled := by simp only [drop, hpending]
      refine (advance_dropAll (P := fun _ => True) ts (drop cells u)).kept u _ ?_ (by simp)
      rw [hset, List.getElem?_set_self (List.getElem?_eq_some_iff.mp hpending).1]
    · exact ih ((List.mem_cons.mp ht).resolve_left (Ne.symm he)) ((drop_ne he).trans hpending)

/-- A sender that is used or dropped leaves no pending cell. -/
theorem trySendAll_resolves {v : α} {ts : List Nat} {cells : Cells α} {t : Nat} (ht : t ∈ ts) :
    (trySendAll v ts cells)[t]? ≠ some .pending := by
  intro hp
  have hlt : t < cells.length := by
    rw [← length_trySendAll v ts cells]
    exact (List.getElem?_eq_some_iff.mp hp).1
  rw [trySendAll_sent ht ((advance_trySendAll (P := fun _ => True) trivial ts cells).pending hp hlt)] at hp
  cases hp

theorem dropAll_resolves {ts : List Nat} {cells : Cells α} {t : Nat} (ht : t ∈ ts ∨ cells[t]? ≠ some .pending) :
    (dropAll ts cells)[t]? ≠ some .pending := by
  intro hp
  have hlt : t < cells.length := by
    rw [← length_dropAll ts cells]
    exact (List.getElem?_eq_some_iff.mp hp).1
  have hbefore := (advance_dropAll (P := fun _ => True) ts cells).pending hp hlt
  rw [dropAll_canceled (ht.resolve_right fun hne => hne hbefore) hbefore] at hp
  cases hp

/-- Only the cells that were sent to hold something new. -/
theorem sent_trySendAll {v w : α} : ∀ {ts : List Nat} {cells : Cells α} {t : Nat},
    (trySendAll v ts cells)[t]? = some (.sent w) → cells[t]? = some (.sent w) ∨ t ∈ ts := by
  intro ts
  induction ts with
  | nil => intro cells t h; exact Or.inl h
  | cons u ts ih =>
    intro cells t h
    rcases @ih (trySend cells u v) t h with h | h
    · by_cases he : u = t
      · exact Or.inr (he ▸ List.mem_cons_self)
      · exact Or.inl ((trySend_ne v he).symm.trans h)
    · exact Or.inr (List.mem_cons_of_mem u h)

/-- A drop sends nothing. -/
theorem sent_dropAll {w : α} {ts : List Nat} {cells : Cells α} {t : Nat} (h : (dropAll ts cells)[t]? = some (.sent w)) :
    cells[t]? = some (.sent w) :=
  ((advance_dropAll (P := fun _ => False) ts cells).sent t w h).resolve_right id

/-! ## The senders that are held -/

structure Owns (cells : Cells α) (held : List Nat) : Prop where
  nodup : held.Nodup
  pending : ∀ t ∈ held, cells[t]? = some Outcome.pending

theorem Owns.perm {cells : Cells α} {held held' : List Nat} (h : Owns cells held) (hp : held.Perm held') :
    Owns cells held' := ⟨hp.nodup_iff.mp h.nodup, fun t ht => h.pending t (hp.mem_iff.mpr ht)⟩

theorem Owns.lt {cells : Cells α} {held : List Nat} (h : Owns cells held) {t : Nat} (ht : t ∈ held) : t < cells.length :=
  (List.getElem?_eq_some_iff.mp (h.pending t ht)).1

/-- A new channel, with its sender. -/
theorem Owns.fresh {cells : Cells α} {held : List Nat} (h : Owns cells held) :
    Owns (cells ++ [.pending]) (cells.length :: held) := by
  refine ⟨List.nodup_cons.mpr ⟨fun hmem => Nat.lt_irrefl _ (h.lt hmem), h.nodup⟩, fun t ht => ?_⟩
  rcases List.mem_cons.mp ht with rfl | ht
  · simp
  · rw [List.getElem?_append_left (h.lt ht)]; exact h.pending t ht

/-- A resolved cell takes its sender out of the books. -/
theorem Owns.set {cells : Cells α} {t : Nat} {held : List Nat} (h : Owns cells (t :: held)) (o : Outcome α) :
    Owns (cells.set t o) held := by
  obtain ⟨hnot, hnodup⟩ := List.nodup_cons.mp h.nodup
  refine ⟨hnodup, fun u hu => ?_⟩
  have hne : t ≠ u := fun he => hnot (he ▸ hu)
  rw [List.getElem?_set_ne hne]
  exact h.pending u (List.mem_cons_of_mem _ hu)

/-- A send with a sender that is held succeeds. -/
theorem Owns.send {cells : Cells α} {t : Nat} {held : List Nat} (h : Owns cells (t :: held)) (v : α) :
    Oneshot.send cells t v = some (cells.set t (.sent v)) ∧ Owns (cells.set t (.sent v)) held := by
  have hp := h.pending t List.mem_cons_self
  exact ⟨by simp only [Oneshot.send, hp], h.set _⟩

theorem Owns.trySend {cells : Cells α} {t : Nat} {held : List Nat} (h : Owns cells (t :: held)) (v : α) :
    Owns (Oneshot.trySend cells t v) held := by
  unfold Oneshot.trySend
  rw [(h.send v).1]
  exact (h.send v).2

theorem Owns.drop {cells : Cells α} {t : Nat} {held : List Nat} (h : Owns cells (t :: held)) : Owns (drop cells t) held := by
  have hp := h.pending t List.mem_cons_self
  have he : Oneshot.drop cells t = cells.set t .canceled := by simp only [Oneshot.drop, hp]
  rw [he]
  exact h.set _

theorem Owns.trySendAll {v : α} : ∀ {ts held : List Nat} {cells : Cells α}, Owns cells (ts ++ held) →
    Owns (trySendAll v ts cells) held := by
  intro ts
  induction ts with
  | nil => intro held cells h; exact h
  | cons t ts ih => intro held cells h; exact ih (h.trySend v)

theorem Owns.dropAll : ∀ {ts held : List Nat} {cells : Cells α}, Owns cells (ts ++ held) → Owns (dropAll ts cells) held := by
  intro ts
  induction ts with
  | nil => intro held cells h; exact h
  | cons t ts ih => intro held cells h; exact ih h.drop

end BepRs.Lib.Oneshot
