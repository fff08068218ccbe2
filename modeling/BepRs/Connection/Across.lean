/-
  BepRs.Connection.Across — what is on its way between the two ends, and why.

  A request or a response is somewhere between the call that asked and the lookup that sees
  the response: with the asking end's writer, in the stream, being served, and back. For
  every id there are at most as many of them, all places together, as calls that are still
  owed a response (`onway`, `Across.counted`), so while calls that are owed one have
  different ids, nothing on the way is for any other call than the last one under its id
  (`Latest`). What is known of a response that is served (`Terms`) is then known of what the
  call gets (`Across.answered`).
  - `across_step`: every step of either end keeps the invariant.
-/

import BepRs.Connection.Ends
import BepRs.Connection.Onward

namespace BepRs.Connection

open BepRs.Lib BepRs.Lib.Path BepRs.Lib.Task BepRs.Lib.Oneshot BepRs.State BepRs.Sync BepRs.Wire

/-! ## Where a response comes from -/

/-- The operations of `handle_request`. -/
def Reading : Op → Prop
  | .db (.getSyncDirectory _) => True
  | .db .getPeers => True
  | .db (.isDirectorySynced _ _) => True
  | .sys (.readBlock _ _ _) => True
  | .sys (.submitMessage _) => True
  | .sys (.closeReason _) => True
  | _ => False

/-- What is known of the two nodes (`keeps`), of the answers to the operations that serve a
    request (`replies`), and so of a response, from what was done for it (`backs`). -/
structure Terms where
  keeps : Bool → Node → Prop
  replies : Bool → (o : Op) → o.Ans → Prop
  backs : Bool → Request → Response → List Did → Prop

/-- What a `handle_request` may ask for, after what it did: it answers once. -/
def Allowed (q : Request) (backs : Response → List Did → Prop) (ds : List Did) : Op → Prop
  | .sys (.submitMessage m) =>
    (∀ d ∈ ds, posting d.1 = none) ∧ ∃ r : Response, m = .response r ∧ r.id = q.id ∧ backs r ds
  | o => Reading o

/-- A task's trail: what it did so far. -/
def Trail (replies : (o : Op) → o.Ans → Prop) (ds : List Did) (o : Op) (ds' : List Did) (r : o.Ans) : Prop :=
  ds' = ds ++ [⟨o, r⟩] ∧ replies o r

/-- A task that serves this request, after what it did. -/
def Serves (T : Terms) (b : Bool) (q : Request) (p : BepProg Unit) (ds : List Did) : Prop :=
  Wp (S := bep) (Trail (T.replies b)) (Allowed q (T.backs b q)) (fun _ _ => True) p ds

structure Terms.Met (T : Terms) (sha256 : Bytes → Bytes) (conn : Bool → Conn) : Prop where
  does : ∀ b n o, Reading o → T.keeps b n → T.keeps b (nodeDo n o).1 ∧ ∀ r, (nodeDo n o).2 = some r → T.replies b o r
  serves : ∀ b q, Serves T b q (handleRequest sha256 (conn b) q) []

theorem Allowed.reading {q : Request} {backs : Response → List Did → Prop} {ds : List Did} {o : Op} (h : Allowed q backs ds o) :
    Reading o := by
  cases o with
  | db o => exact h
  | sys o =>
    cases o with
    | submitMessage m => trivial
    | _ => exact h

/-- A mark of one serving that stands for an operation and its answer. -/
def Doing (b : Bool) (i : Nat) (x : Bool × Mark) (d : Did) : Prop := ∃ n, x = (b, .did i n d) ∧ (nodeDo n d.1).2 = some d.2

/-- A response of this end to call `t` of the peer: it got the request that the call asked, and
    did this for it, and the response was submitted after that. -/
def Served (T : Terms) (h : List (Bool × Mark)) (b : Bool) (t : Nat) (q : Request) (r : Response) : Prop :=
  r.id = q.id ∧ ∃ i marks ds n,
    List.Sublist ([(!b, .asked t q), (b, .began i q)] ++ marks ++ [(b, .did i n ⟨.sys (.submitMessage (.response r)), ()⟩)]) h ∧
      List.Forall₂ (Doing b i) marks ds ∧ T.backs b q r ds

/-! ## The last call under an id -/

/-- Nothing is asked under this id. -/
def Clear (l : List (Bool × Mark)) (a : Bool) (id : Int) : Prop := ∀ t q, (a, Mark.asked t q) ∈ l → q.id ≠ id

/-- The call is the last one that was made under its id. -/
def Latest (h : List (Bool × Mark)) (a : Bool) (t : Nat) (q : Request) : Prop :=
  ∃ h₁ h₂, h = h₁ ++ (a, .asked t q) :: h₂ ∧ Clear h₂ a q.id

theorem Latest.mem {h : List (Bool × Mark)} {a : Bool} {t : Nat} {q : Request} (hq : Latest h a t q) :
    (a, Mark.asked t q) ∈ h := by
  obtain ⟨h₁, h₂, rfl, -⟩ := hq
  simp

theorem Latest.mono {h l : List (Bool × Mark)} {a : Bool} {t : Nat} {q : Request} (hq : Latest h a t q) (hl : Clear l a q.id) :
    Latest (h ++ l) a t q := by
  obtain ⟨h₁, h₂, rfl, hclear⟩ := hq
  exact ⟨h₁, h₂ ++ l, by simp, fun t' q' hq' => (List.mem_append.mp hq').elim (hclear t' q') (hl t' q')⟩

theorem Latest.unique {h : List (Bool × Mark)} {a : Bool} {t t' : Nat} {q q' : Request} (hq : Latest h a t q)
    (hq' : Latest h a t' q') (hid : q.id = q'.id) : t = t' ∧ q = q' := by
  obtain ⟨h₁, h₂, rfl, hclear⟩ := hq
  obtain ⟨h₁', h₂', heq, hclear'⟩ := hq'
  rcases List.append_eq_append_iff.mp heq with ⟨m, -, hm⟩ | ⟨m, -, hm⟩
  · cases m with
    | nil =>
      cases hm
      exact ⟨rfl, rfl⟩
    | cons x m =>
      obtain ⟨rfl, rfl⟩ := List.cons.inj hm
      exact absurd hid (hclear t' q' (by simp)).symm
  · cases m with
    | nil =>
      cases hm
      exact ⟨rfl, rfl⟩
    | cons x m =>
      obtain ⟨rfl, rfl⟩ := List.cons.inj hm
      exact absurd hid (hclear' t q (by simp))

section

variable {T : Terms} {sha256 : Bytes → Bytes} {P : Prost ItemBody} {decompress : Bytes → Option Bytes} {conn : Bool → Conn}

theorem Served.mono {h : List (Bool × Mark)} {b : Bool} {t : Nat} {q : Request} {r : Response} (hr : Served T h b t q r)
    (l : List (Bool × Mark)) : Served T (h ++ l) b t q r := by
  obtain ⟨hid, i, marks, ds, n, hsub, hdoing, hbacked⟩ := hr
  exact ⟨hid, i, marks, ds, n, hsub.trans (List.sublist_append_left h l), hdoing, hbacked⟩

/-- A response of this end that is on its way. -/
def Due (T : Terms) (h : List (Bool × Mark)) (b : Bool) (r : Response) : Prop := ∃ t q, Latest h (!b) t q ∧ Served T h b t q r

theorem Due.mono {h l : List (Bool × Mark)} {b : Bool} {r : Response} (hr : Due T h b r) (hl : Clear l (!b) r.id) :
    Due T (h ++ l) b r := by
  obtain ⟨t, q, hlast, hserved⟩ := hr
  exact ⟨t, q, hlast.mono (hserved.1 ▸ hl), hserved.mono l⟩

/-! ## Messages -/

def asks (id : Int) : Item ItemBody → Bool
  | ⟨.request, q⟩ => q.id = id
  | _ => false

def answers (id : Int) : Item ItemBody → Bool
  | ⟨.response, r⟩ => r.id = id
  | _ => false

variable (P decompress) in
/-- What bytes say that are one message. -/
def told (p : Item ItemBody → Bool) (bytes : Bytes) : Bool :=
  match readMessage P decompress bytes with
  | .done m _ => p m
  | _ => false

theorem told_encode {m : Item ItemBody} (hm : Crosses P m) (p : Item ItemBody → Bool) :
    told P decompress p (encodeForBep P m) = p m := by
  have hread := writes_readMessage P decompress hm.1 hm.2 []
  rw [List.append_nil] at hread
  unfold told
  rw [hread]

theorem told_nil (p : Item ItemBody → Bool) : told P decompress p [] = false := by
  unfold told
  rw [readMessage_nil]

theorem asks_plain {m : Item ItemBody} (hplain : plain m = true) (id : Int) : asks id m = false := by
  obtain ⟨t, b⟩ := m
  cases t <;> first | rfl | cases hplain

theorem answers_plain {m : Item ItemBody} (hplain : plain m = true) (id : Int) : answers id m = false := by
  obtain ⟨t, b⟩ := m
  cases t <;> first | rfl | cases hplain

/-- A message between the ends: a request is that of a call, and a response is for one. -/
def Carried (T : Terms) (P : Prost ItemBody) (h : List (Bool × Mark)) (a : Bool) (m : Item ItemBody) : Prop :=
  Crosses P m ∧ (∀ q, m = ⟨.request, q⟩ → ∃ t, Latest h a t q) ∧ ∀ r, m = ⟨.response, r⟩ → Due T h a r

theorem Carried.mono {h l : List (Bool × Mark)} {a : Bool} {m : Item ItemBody} (hm : Carried T P h a m)
    (hasks : ∀ id, asks id m = true → Clear l a id) (hanswers : ∀ id, answers id m = true → Clear l (!a) id) :
    Carried T P (h ++ l) a m := by
  refine ⟨hm.1, fun q hq => ?_, fun r hr => (hm.2.2 r hr).mono (hanswers r.id (by rw [hr]; exact decide_eq_true rfl))⟩
  obtain ⟨t, ht⟩ := hm.2.1 q hq
  exact ⟨t, ht.mono (hasks q.id (by rw [hq]; exact decide_eq_true rfl))⟩

theorem carried_plain {h : List (Bool × Mark)} {a : Bool} {m : Item ItemBody} (hcross : Crosses P m) (hplain : plain m = true) :
    Carried T P h a m := by
  refine ⟨hcross, fun q hq => ?_, fun r hr => ?_⟩
  · rw [hq] at hplain; cases hplain
  · rw [hr] at hplain; cases hplain

/-- An empty marker, or a message. -/
def Fine (T : Terms) (P : Prost ItemBody) (h : List (Bool × Mark)) (a : Bool) (bytes : Bytes) : Prop :=
  bytes = [] ∨ ∃ m, bytes = encodeForBep P m ∧ Carried T P h a m

theorem Fine.mono {h l : List (Bool × Mark)} {a : Bool} {bytes : Bytes} (hb : Fine T P h a bytes)
    (hasks : ∀ id, told P decompress (asks id) bytes = true → Clear l a id)
    (hanswers : ∀ id, told P decompress (answers id) bytes = true → Clear l (!a) id) : Fine T P (h ++ l) a bytes := by
  rcases hb with hb | ⟨m, rfl, hm⟩
  · exact Or.inl hb
  · refine Or.inr ⟨m, rfl, hm.mono (fun id hid => hasks id ?_) fun id hid => hanswers id ?_⟩
    · rwa [told_encode hm.1]
    · rwa [told_encode hm.1]

/-! ## The streams -/

/-- A stream that an end wrote: messages, and a part of one more once its writer has ended. -/
def Flows (T : Terms) (P : Prost ItemBody) (h : List (Bool × Mark)) (a : Bool) (writer : TaskState) (stream : Bytes)
    (ms : List (Item ItemBody)) : Prop :=
  ∃ part : Bytes, stream = ms.flatMap (encodeForBep P) ++ part ∧ (∀ m ∈ ms, Carried T P h a m) ∧
    (part ≠ [] → writer = .ended ∧ ∃ m, Crosses P m ∧ part <+: encodeForBep P m ∧ part ≠ encodeForBep P m)

theorem Flows.mono {h l : List (Bool × Mark)} {a : Bool} {w w' : TaskState} {s : Bytes} {ms : List (Item ItemBody)}
    (hf : Flows T P h a w s ms) (hw : w = .ended → w' = .ended) (hasks : ∀ m ∈ ms, ∀ id, asks id m = true → Clear l a id)
    (hanswers : ∀ m ∈ ms, ∀ id, answers id m = true → Clear l (!a) id) : Flows T P (h ++ l) a w' s ms := by
  obtain ⟨part, hs, hms, hpart⟩ := hf
  exact ⟨part, hs, fun m hm => (hms m hm).mono (hasks m hm) (hanswers m hm), fun hne => (hpart hne).imp_left hw⟩

theorem Flows.whole {h : List (Bool × Mark)} {a : Bool} {s : Bytes} {ms : List (Item ItemBody)}
    (hf : Flows T P h a .running s ms) :
    s = ms.flatMap (encodeForBep P) ∧ ∀ m ∈ ms, Carried T P h a m := by
  obtain ⟨part, hs, hms, hpart⟩ := hf
  have hnil : part = [] := by
    by_contra hne
    cases (hpart hne).1
  exact ⟨by rw [hs, hnil, List.append_nil], hms⟩

variable (P decompress) in
/-- The messages of a stream after these bytes: those that were there, and the one of the bytes. -/
structure Longer (ms ms' : List (Item ItemBody)) (bytes : Bytes) : Prop where
  countP : ∀ p : Item ItemBody → Bool, ms'.countP p ≤ ms.countP p + [bytes].countP (told P decompress p)

variable (decompress) in
theorem Flows.write {h : List (Bool × Mark)} {a : Bool} {s bytes : Bytes} {ms : List (Item ItemBody)}
    (hf : Flows T P h a .running s ms) (w' : TaskState) (hb : Fine T P h a bytes) :
    ∃ ms', Flows T P h a w' (s ++ bytes) ms' ∧ Longer P decompress ms ms' bytes := by
  obtain ⟨hs, hms⟩ := hf.whole
  rcases hb with rfl | ⟨m, rfl, hm⟩
  · exact ⟨ms, ⟨[], by rw [hs], hms, fun h => absurd rfl h⟩, ⟨fun p => Nat.le_add_right _ _⟩⟩
  · refine ⟨ms ++ [m], ⟨[], by rw [hs]; simp, fun m' hm' => ?_, fun h => absurd rfl h⟩, ⟨fun p => ?_⟩⟩
    · rcases List.mem_append.mp hm' with hm' | hm'
      · exact hms m' hm'
      · rw [List.mem_singleton.mp hm']; exact hm
    · rw [List.countP_append, List.countP_singleton, List.countP_singleton, told_encode hm.1]

variable (decompress) in
theorem Flows.breaks {h : List (Bool × Mark)} {a : Bool} {s bytes : Bytes} {ms : List (Item ItemBody)}
    (hf : Flows T P h a .running s ms) (hb : Fine T P h a bytes) (n : Nat) :
    ∃ ms', Flows T P h a .ended (s ++ bytes.take n) ms' ∧ Longer P decompress ms ms' bytes := by
  by_cases hall : bytes.take n = bytes
  · rw [hall]
    exact hf.write decompress _ hb
  · obtain ⟨hs, hms⟩ := hf.whole
    refine ⟨ms, ⟨bytes.take n, by rw [hs], hms, fun _ => ⟨rfl, ?_⟩⟩, ⟨fun p => Nat.le_add_right _ _⟩⟩
    rcases hb with rfl | ⟨m, rfl, hm⟩
    · exact absurd (List.take_nil) hall
    · exact ⟨m, hm.1, List.take_prefix n _, hall⟩

/-- The next message of a stream is one that the peer sent. -/
theorem Flows.read {h : List (Bool × Mark)} {a : Bool} {w : TaskState} {s rest : Bytes} {m : Item ItemBody}
    {ms : List (Item ItemBody)} (hf : Flows T P h a w s ms) (hread : readMessage P decompress s = .done m rest) :
    ∃ ms', ms = m :: ms' ∧ Carried T P h a m ∧ Flows T P h a w rest ms' := by
  obtain ⟨part, hs, hms, hpart⟩ := hf
  cases ms with
  | cons m' ms =>
    have hm' := hms m' List.mem_cons_self
    have hwrites := writes_readMessage P decompress hm'.1.1 hm'.1.2 (ms.flatMap (encodeForBep P) ++ part)
    rw [hs, List.flatMap_cons, List.append_assoc, hwrites] at hread
    cases hread
    exact ⟨ms, rfl, hm', part, rfl, fun m hm => hms m (List.mem_cons_of_mem _ hm), hpart⟩
  | nil =>
    -- a part that is a message is all of it
    rw [List.flatMap_nil, List.nil_append] at hs
    subst hs
    have hne : s ≠ [] := by
      rintro rfl
      rw [readMessage_nil] at hread
      cases hread
    obtain ⟨-, m', hcross, ⟨t, ht⟩, hstrict⟩ := hpart hne
    have hlong := (stable_readMessage P decompress).done s t m rest hread
    have hwrites := writes_readMessage P decompress hcross.1 hcross.2 []
    rw [List.append_nil, ← ht, hlong] at hwrites
    obtain ⟨-, hnil⟩ := Stream.Read.done.inj hwrites
    obtain ⟨-, rfl⟩ := List.append_eq_nil_iff.mp hnil
    rw [List.append_nil] at ht
    exact absurd ht hstrict

end

/-! ## What is served -/

/-- What a mark says one serving did. -/
def didOf (b : Bool) (i : Nat) : Bool × Mark → Option Did
  | (b', .did i' _ d) => if b' = b ∧ i' = i then some d else none
  | _ => none

/-- A serving: the peer had asked the request when it began, and it has done what the marks
    say since. Until it has answered, the request's call is the last one under its id. -/
def Underway (T : Terms) (h : List (Bool × Mark)) (b : Bool) (i : Nat) (x : Serving) : Prop :=
  ∃ t h₁ h₂, h = h₁ ++ (b, .began i x.request) :: h₂ ∧ (!b, Mark.asked t x.request) ∈ h₁ ∧
    Serves T b x.request x.left (h₂.filterMap (didOf b i)) ∧ (x.answered = false → Latest h (!b) t x.request) ∧
    (x.answered = true → ∃ d ∈ h₂.filterMap (didOf b i), posting d.1 ≠ none)

section

variable {T : Terms} {sha256 : Bytes → Bytes} {P : Prost ItemBody} {decompress : Bytes → Option Bytes} {conn : Bool → Conn}

theorem Underway.mono {h l : List (Bool × Mark)} {b : Bool} {i : Nat} {x : Serving} (hx : Underway T h b i x)
    (hl : l.filterMap (didOf b i) = []) (hclear : x.answered = false → Clear l (!b) x.request.id) :
    Underway T (h ++ l) b i x := by
  obtain ⟨t, h₁, h₂, rfl, ht, hwp, hlast, hpost⟩ := hx
  have hsame : (h₂ ++ l).filterMap (didOf b i) = h₂.filterMap (didOf b i) := by rw [List.filterMap_append, hl, List.append_nil]
  exact ⟨t, h₁, h₂ ++ l, by simp, ht, by rwa [hsame], fun ha => (hlast ha).mono (hclear ha), by rwa [hsame]⟩

theorem doing_filterMap {h : List (Bool × Mark)} (hgenuine : ∀ b i n d, (b, Mark.did i n d) ∈ h → (nodeDo n d.1).2 = some d.2)
    (b : Bool) (i : Nat) : ∃ marks, marks.Sublist h ∧ List.Forall₂ (Doing b i) marks (h.filterMap (didOf b i)) := by
  induction h with
  | nil => exact ⟨[], .slnil, .nil⟩
  | cons x h ih =>
    obtain ⟨marks, hsub, hdoing⟩ := ih fun b i n d hd => hgenuine b i n d (List.mem_cons_of_mem _ hd)
    obtain ⟨b', m⟩ := x
    cases m with
    | asked t q => exact ⟨marks, hsub.cons _, hdoing⟩
    | began t q => exact ⟨marks, hsub.cons _, hdoing⟩
    | did i' n d =>
      by_cases hsame : b' = b ∧ i' = i
      · obtain ⟨rfl, rfl⟩ := hsame
        have hdid : didOf b' i' (b', .did i' n d) = some d := if_pos ⟨rfl, rfl⟩
        refine ⟨_, hsub.cons_cons _, ?_⟩
        rw [List.filterMap_cons_some hdid]
        exact .cons ⟨n, rfl, hgenuine _ _ n d List.mem_cons_self⟩ hdoing
      · refine ⟨marks, hsub.cons _, ?_⟩
        rwa [List.filterMap_cons_none (by simp only [didOf, if_neg hsame])]

/-- A response that a serving submits: it is its first. -/
theorem Underway.submits {h : List (Bool × Mark)} {b : Bool} {i : Nat} {q : Request} {m : Message}
    {k : Unit → BepProg Unit} {answered : Bool} (hx : Underway T h b i ⟨q, .ask (.sys (.submitMessage m)) k, answered⟩)
    (hgenuine : ∀ b i n d, (b, Mark.did i n d) ∈ h → (nodeDo n d.1).2 = some d.2) (n : Node) :
    answered = false ∧ ∃ r, m = .response r ∧ r.id = q.id ∧ Due T (h ++ [(b, .did i n ⟨.sys (.submitMessage m), ()⟩)]) b r := by
  obtain ⟨t, h₁, h₂, hhist, ht, ⟨⟨hfirst, r, rfl, hid, hbacked⟩, -⟩, hlast, hpost⟩ := hx
  have hnot : answered = false := by
    by_contra hanswered
    obtain ⟨d, hd, hsome⟩ := hpost (by simpa using hanswered)
    exact hsome (hfirst d hd)
  have hafter : ∀ b i n d, (b, Mark.did i n d) ∈ h₂ → (nodeDo n d.1).2 = some d.2 :=
    fun b i n d hd => hgenuine b i n d (by rw [hhist]; exact List.mem_append_right _ (List.mem_cons_of_mem _ hd))
  obtain ⟨marks, hsub, hdoing⟩ := doing_filterMap hafter b i
  refine ⟨hnot, r, rfl, hid, t, q, (hlast hnot).mono fun t' q' hq' => by simp at hq', hid, i, marks, _, n, ?_, hdoing, hbacked⟩
  have hmarks : List.Sublist ([(!b, Mark.asked t q)] ++ (b, .began i q) :: marks) (h₁ ++ (b, .began i q) :: h₂) :=
    List.Sublist.append (List.singleton_sublist.mpr ht) (hsub.cons_cons _)
  rw [hhist]
  exact hmarks.append (List.Sublist.refl _)

/-! ## Everything between the ends -/

def waits (id : Int) (x : Serving) : Bool := !x.answered && x.request.id = id

section

variable (P decompress) (c : Ends) (ms : Bool → List (Item ItemBody)) (a : Bool) (id : Int)

/-- How many requests and responses for calls of this end under this id are on the way. -/
def onway : Nat :=
  (c.line a).leaving.countP (told P decompress (asks id)) + (ms (!a)).countP (asks id) + (c.side (!a)).serving.countP (waits id) +
    (c.line (!a)).leaving.countP (told P decompress (answers id)) + (ms a).countP (answers id) + (c.line a).unseen id

end

section

variable {c : Ends} {ms : Bool → List (Item ItemBody)} {a : Bool} {id : Int}

theorem onway_leaving_asks {bytes : Bytes} (hb : bytes ∈ (c.line a).leaving) (h : told P decompress (asks id) bytes = true) :
    0 < onway P decompress c ms a id := by
  have hpos := List.countP_pos_iff.mpr ⟨bytes, hb, h⟩
  unfold onway
  omega

theorem onway_leaving_answers {bytes : Bytes} (hb : bytes ∈ (c.line a).leaving)
    (h : told P decompress (answers id) bytes = true) : 0 < onway P decompress c ms (!a) id := by
  have hpos := List.countP_pos_iff.mpr ⟨bytes, hb, h⟩
  unfold onway
  rw [Bool.not_not]
  omega

theorem onway_flow_asks {m : Item ItemBody} (hm : m ∈ ms (!a)) (h : asks id m = true) : 0 < onway P decompress c ms a id := by
  have hpos := List.countP_pos_iff.mpr ⟨m, hm, h⟩
  unfold onway
  omega

theorem onway_flow_answers {m : Item ItemBody} (hm : m ∈ ms a) (h : answers id m = true) : 0 < onway P decompress c ms a id := by
  have hpos := List.countP_pos_iff.mpr ⟨m, hm, h⟩
  unfold onway
  omega

theorem onway_serving {b : Bool} {x : Serving} (hx : x ∈ (c.side b).serving) (h : x.answered = false) :
    0 < onway P decompress c ms (!b) x.request.id := by
  have hpos := List.countP_pos_iff.mpr ⟨x, hx, show waits x.request.id x = true by simp [waits, h]⟩
  unfold onway
  rw [Bool.not_not]
  omega

theorem onway_unseen {r : Response} {k : Nat} (hr : (c.line a).received[k]? = some r)
    (hk : k ∉ (c.line a).lookups.map Lookup.number) : 0 < onway P decompress c ms a r.id := by
  have hmem : r ∈ outstanding ((c.line a).lookups.map Lookup.number) 0 (c.line a).received :=
    mem_outstanding hr (by rwa [Nat.zero_add])
  have hpos : 0 < (outstanding ((c.line a).lookups.map Lookup.number) 0 (c.line a).received).countP fun x => x.id = r.id :=
    List.countP_pos_iff.mpr ⟨r, hmem, by simp⟩
  unfold onway St.unseen
  omega

end

/-- `ms` are the messages in the two streams, those that an end reads under its name. -/
structure Across (T : Terms) (P : Prost ItemBody) (decompress : Bytes → Option Bytes) (ms : Bool → List (Item ItemBody))
    (c : Ends) : Prop where
  kept : ∀ b, T.keeps b (c.side b).node
  tidy : ∀ a, Tidy (c.line a)
  born : ∀ a, Born (c.line a)
  genuine : ∀ b i n d, (b, Mark.did i n d) ∈ c.history → (nodeDo n d.1).2 = some d.2
  asked : ∀ a t q, (a, Mark.asked t q) ∈ c.history → (c.line a).calls[t]? = some ⟨q.id, .whenResponse⟩
  numbered : ∀ a t q q', (a, Mark.asked t q) ∈ c.history → (a, Mark.asked t q') ∈ c.history → q = q'
  called : ∀ a (t : Nat) id, (c.line a).calls[t]? = some ⟨id, .whenResponse⟩ → ∃ q, (a, Mark.asked t q) ∈ c.history ∧ q.id = id
  recent : ∀ a t q, (a, Mark.asked t q) ∈ c.history → t ∈ (c.line a).hits ∨ Latest c.history a t q
  leaving : ∀ a, ∀ bytes ∈ (c.line a).leaving, Fine T P c.history a bytes
  flows : ∀ a, Flows T P c.history a (c.line a).writer (c.side (!a)).stream (ms (!a))
  unseen : ∀ a (k : Nat) r, (c.line a).received[k]? = some r → k ∉ (c.line a).lookups.map Lookup.number → Due T c.history (!a) r
  answered : ∀ a, ∀ lk ∈ (c.line a).lookups, ∀ t, lk.hit = some t → ∃ q, Served T c.history (!a) t q lk.response
  serving : ∀ b (i : Nat) x, (c.side b).serving[i]? = some x → Underway T c.history b i x
  counted : ∀ a id, onway P decompress c ms a id ≤ (c.line a).owed id

theorem forall_side {p : Bool → Prop} (a : Bool) (hself : p a) (hother : p (!a)) (i : Bool) : p i := by
  rcases eq_or_ne i a with hi | hi
  · exact hi ▸ hself
  · exact Bool.eq_not.mpr hi ▸ hother

/-- A new call is the one that is submitted. -/
theorem Onward.called {e : Ev} {s s' : St} (h : Onward e s s') {t : Nat} {id : Int}
    (ht : s'.calls[t]? = some ⟨id, .whenResponse⟩) : s.calls[t]? = some ⟨id, .whenResponse⟩ ∨
      t = s.calls.length ∧ ∃ msg, e = .submit id .whenResponse msg := by
  rw [h.calls, List.getElem?_append] at ht
  split at ht
  · exact Or.inl ht
  · obtain ⟨hidx, hval⟩ := List.getElem?_eq_some_iff.mp ht
    cases e with
    | submit id' responseType msg =>
      simp only [Ev.calls, List.length_singleton] at hidx
      simp only [Ev.calls, List.getElem_singleton, Call.mk.injEq] at hval
      obtain ⟨rfl, rfl⟩ := hval
      exact Or.inr ⟨by omega, msg, rfl⟩
    | waitForReady => simp [Ev.calls] at hval
    | readerFails msg => simp [Ev.calls] at hval
    | _ => simp [Ev.calls] at hidx

theorem owed_pos {s : St} {t : Nat} {id : Int} (hcall : s.calls[t]? = some ⟨id, .whenResponse⟩) (hopen : t ∉ s.hits) :
    0 < s.owed id := by
  have hmem : (⟨id, .whenResponse⟩ : Call) ∈ outstanding s.hits 0 s.calls := mem_outstanding hcall (by rwa [Nat.zero_add])
  exact List.countP_pos_iff.mpr ⟨_, hmem, by simp⟩

/-- The response that is seen is for the call it hits. -/
theorem Across.sees {c : Ends} {ms : Bool → List (Item ItemBody)} {a : Bool} {s' : St} {number t : Nat} {r : Response}
    {hit : Option Nat} (h : Across T P decompress ms c) (hsees : Sees (c.line a) s' number r hit) (ht : hit = some t) :
    ∃ q, Served T c.history (!a) t q r := by
  obtain ⟨hopen, hcall⟩ := hsees.waits t ht
  obtain ⟨t', q', hlast', hserved⟩ := h.unseen a number r hsees.got hsees.new
  rw [Bool.not_not] at hlast'
  obtain ⟨q, hq, hid⟩ := h.called a t r.id hcall
  have hlast := (h.recent a t q hq).resolve_left hopen
  obtain ⟨rfl, rfl⟩ := hlast.unique hlast' (hid.trans hserved.1)
  exact ⟨q, hserved⟩

/-- The calls after a step of one end: the marks say which one is new. -/
theorem Across.calls_move {c : Ends} {ms : Bool → List (Item ItemBody)} {a : Bool} {e : Ev} {s : St} {l : List (Bool × Mark)}
    (h : Across T P decompress ms c) (hon : Onward e (c.line a) s)
    (hasked : ∀ a' t q, (a', Mark.asked t q) ∈ l → l = [(a', .asked t q)] ∧ a' = a ∧ t = (c.line a).calls.length ∧
      s.calls[t]? = some ⟨q.id, .whenResponse⟩ ∧ Latest (c.history ++ l) a t q)
    (hcalled : ∀ id msg, e = .submit id .whenResponse msg → ∃ q, (a, Mark.asked (c.line a).calls.length q) ∈ l ∧ q.id = id) :
    (∀ t q, (a, Mark.asked t q) ∈ c.history ++ l → s.calls[t]? = some ⟨q.id, .whenResponse⟩) ∧
    (∀ i t q q', (i, Mark.asked t q) ∈ c.history ++ l → (i, Mark.asked t q') ∈ c.history ++ l → q = q') ∧
    ∀ (t : Nat) id, s.calls[t]? = some ⟨id, .whenResponse⟩ → ∃ q, (a, Mark.asked t q) ∈ c.history ++ l ∧ q.id = id := by
  -- the new call has a new number
  have hnew : ∀ i t q q', (i, Mark.asked t q) ∈ c.history → (i, Mark.asked t q') ∉ l := by
    intro i t q q' hq hq'
    obtain ⟨-, rfl, rfl, -, -⟩ := hasked i t q' hq'
    have hlt := (List.getElem?_eq_some_iff.mp (h.asked i _ q hq)).choose
    exact Nat.lt_irrefl _ hlt
  refine ⟨fun t q hq => ?_, fun i t q q' hq hq' => ?_, fun t id ht => ?_⟩
  · rcases List.mem_append.mp hq with hq | hq
    · rw [hon.calls]
      exact getElem?_prefix (List.prefix_append _ _) (h.asked a t q hq)
    · obtain ⟨-, -, -, hcall, -⟩ := hasked a t q hq
      exact hcall
  · rw [List.mem_append] at hq hq'
    rcases hq with hq | hq <;> rcases hq' with hq' | hq'
    · exact h.numbered i t q q' hq hq'
    · exact absurd hq' (hnew i t q q' hq)
    · exact absurd hq (hnew i t q' q hq')
    · rw [(hasked i t q hq).1] at hq'
      cases List.mem_singleton.mp hq'
      rfl
  · rcases hon.called ht with ht | ⟨rfl, msg, he⟩
    · obtain ⟨q, hq, hid⟩ := h.called a t id ht
      exact ⟨q, List.mem_append_left _ hq, hid⟩
    · obtain ⟨q, hq, hid⟩ := hcalled id msg he
      exact ⟨q, List.mem_append_right _ hq, hid⟩

/-- One end takes a step: what it submits, gets and calls is accounted for by the marks. -/
theorem Across.move {c c' : Ends} {ms ms' : Bool → List (Item ItemBody)} {a : Bool} {e : Ev} {l : List (Bool × Mark)}
    (h : Across T P decompress ms c) (hhist : c'.history = c.history ++ l) (hkept : ∀ b, T.keeps b (c'.side b).node)
    (htidy : Tidy (c'.line a)) (hon : Onward e (c.line a) (c'.line a)) (hother : c'.line (!a) = c.line (!a))
    (hgenuine : ∀ b i n d, (b, Mark.did i n d) ∈ l → (nodeDo n d.1).2 = some d.2)
    (hclear : ∀ b id, 0 < (c.line b).owed id → Clear l b id)
    (hasked : ∀ a' t q, (a', Mark.asked t q) ∈ l → l = [(a', .asked t q)] ∧ a' = a ∧ t = (c.line a).calls.length ∧
      (c'.line a).calls[t]? = some ⟨q.id, .whenResponse⟩ ∧ Latest c'.history a t q)
    (hcalled : ∀ id msg, e = .submit id .whenResponse msg → ∃ q, (a, Mark.asked (c.line a).calls.length q) ∈ l ∧ q.id = id)
    (hputs : ∀ b ∈ e.puts, Fine T P c'.history a b) (hgets : ∀ r ∈ e.gets, Due T c'.history (!a) r)
    (hflows : ∀ i, Flows T P c'.history i (c'.line i).writer (c'.side (!i)).stream (ms' (!i)))
    (hserving : ∀ b (i : Nat) x, (c'.side b).serving[i]? = some x → Underway T c'.history b i x)
    (hasks : ∀ id, e.puts.countP (told P decompress (asks id)) + (ms' (!a)).countP (asks id) +
        (c'.side (!a)).serving.countP (waits id) + (ms' a).countP (answers id) + e.gets.countP (fun r => r.id = id) ≤
      e.calls.countP (fun x => x = ⟨id, .whenResponse⟩) + (e.taken (c.line a)).countP (told P decompress (asks id)) +
        (ms (!a)).countP (asks id) + (c.side (!a)).serving.countP (waits id) + (ms a).countP (answers id))
    (hanswers : ∀ id, e.puts.countP (told P decompress (answers id)) + (ms' a).countP (asks id) +
        (c'.side a).serving.countP (waits id) + (ms' (!a)).countP (answers id) ≤
      (e.taken (c.line a)).countP (told P decompress (answers id)) + (ms a).countP (asks id) +
        (c.side a).serving.countP (waits id) + (ms (!a)).countP (answers id)) :
    Across T P decompress ms' c' := by
  have hside : ∀ i, i = a ∨ i ≠ a ∧ c'.line i = c.line i := by
    intro i
    rcases eq_or_ne i a with hi | hi
    · exact Or.inl hi
    · exact Or.inr ⟨hi, by rw [Bool.eq_not.mpr hi, hother]⟩
  have howed : ∀ b id, 0 < onway P decompress c ms b id → Clear l b id :=
    fun b id hpos => hclear b id (Nat.lt_of_lt_of_le hpos (h.counted b id))
  have hold : ∀ i, ∀ bytes ∈ (c.line i).leaving, Fine T P c'.history i bytes := by
    intro i bytes hb
    rw [hhist]
    exact (h.leaving i bytes hb).mono (fun id hid => howed i id (onway_leaving_asks hb hid))
      fun id hid => howed (!i) id (onway_leaving_answers hb hid)
  have hdue : ∀ i (k : Nat) r, (c.line i).received[k]? = some r → k ∉ (c.line i).lookups.map Lookup.number →
      Due T c'.history (!i) r := by
    intro i k r hr hk
    rw [hhist]
    refine (h.unseen i k r hr hk).mono ?_
    rw [Bool.not_not]
    exact howed i r.id (onway_unseen hr hk)
  have hanswered : ∀ i, ∀ lk ∈ (c.line i).lookups, ∀ t, lk.hit = some t → ∃ q, Served T c'.history (!i) t q lk.response := by
    intro i lk hlk t ht
    obtain ⟨q, hq⟩ := h.answered i lk hlk t ht
    exact ⟨q, hhist ▸ hq.mono l⟩
  have hlookups := hon.lookups_kept
  obtain ⟨hcalls, hnumbered, hback⟩ := h.calls_move hon (by rw [← hhist]; exact hasked) hcalled
  refine ⟨hkept, fun i => ?_, fun i => ?_, fun b i n d hd => ?_, fun i t q hq => ?_, by rwa [hhist], fun i t id ht => ?_,
    fun i t q hq => ?_, fun i bytes hb => ?_, hflows, fun i k r hr hk => ?_, fun i lk hlk t ht => ?_, hserving, ?_⟩
  · rcases hside i with rfl | ⟨-, hi⟩
    · exact htidy
    · rw [hi]; exact h.tidy i
  · rcases hside i with rfl | ⟨-, hi⟩
    · exact hon.born (h.born _)
    · rw [hi]; exact h.born i
  · rw [hhist] at hd
    exact (List.mem_append.mp hd).elim (h.genuine b i n d) (hgenuine b i n d)
  · rw [hhist] at hq
    rcases hside i with rfl | ⟨hne, hi⟩
    · exact hcalls t q hq
    · rw [hi]
      exact h.asked i t q ((List.mem_append.mp hq).resolve_right fun hq => hne (hasked i t q hq).2.1)
  · rw [hhist]
    rcases hside i with rfl | ⟨-, hi⟩
    · exact hback t id ht
    · rw [hi] at ht
      obtain ⟨q, hq, hid⟩ := h.called _ t id ht
      exact ⟨q, List.mem_append_left _ hq, hid⟩
  · rw [hhist] at hq
    rcases List.mem_append.mp hq with hq | hq
    · -- a call that is owed a response has no other one after it
      by_cases hhit : t ∈ (c.line i).hits
      · refine Or.inl ?_
        rcases hside i with rfl | ⟨-, hi⟩
        · exact (hlookups.filterMap Lookup.hit).subset hhit
        · rwa [hi]
      · have hlast := (h.recent i t q hq).resolve_left hhit
        rw [hhist]
        exact Or.inr (hlast.mono (hclear i q.id (owed_pos (h.asked i t q hq) hhit)))
    · obtain ⟨-, rfl, -, -, hlast⟩ := hasked i t q hq
      exact Or.inr hlast
  · rcases hside i with rfl | ⟨-, hi⟩
    · exact (hon.mem_leaving hb).elim (hold _ bytes) (hputs bytes)
    · rw [hi] at hb
      exact hold i bytes hb
  · rcases hside i with rfl | ⟨-, hi⟩
    · rw [hon.received, List.getElem?_append] at hr
      split at hr
      · exact hdue _ k r hr fun hk' => hk ((hlookups.map Lookup.number).subset hk')
      · exact hgets r (List.mem_of_getElem? hr)
    · rw [hi] at hr hk
      exact hdue i k r hr hk
  · rcases hside i with rfl | ⟨-, hi⟩
    · rcases hon.lookups with hlook | ⟨number, r, hit, -, hsees⟩
      · rw [hlook] at hlk
        exact hanswered _ lk hlk t ht
      · rw [hsees.lookups] at hlk
        rcases List.mem_append.mp hlk with hlk | hlk
        · exact hanswered _ lk hlk t ht
        · obtain rfl := List.mem_singleton.mp hlk
          obtain ⟨q, hserved⟩ := h.sees hsees ht
          exact ⟨q, hhist ▸ hserved.mono l⟩
    · rw [hi] at hlk
      exact hanswered i lk hlk t ht
  · refine forall_side a (fun id => ?_) (fun id => ?_)
    · have hcount := h.counted a id
      have hleaving := hon.leaving (told P decompress (asks id))
      have hledger := hon.ledger (h.tidy a).books id
      have hall := hasks id
      unfold onway at hcount ⊢
      rw [hother]
      omega
    · have hcount := h.counted (!a) id
      have hleaving := hon.leaving (told P decompress (answers id))
      have hall := hanswers id
      unfold onway at hcount ⊢
      rw [Bool.not_not] at hcount ⊢
      rw [hother]
      omega

/-! ## The steps -/

/-- Marks that are no calls. -/
theorem clear_of_none {l : List (Bool × Mark)} (hl : ∀ b t q, (b, Mark.asked t q) ∉ l) (b : Bool) (id : Int) : Clear l b id :=
  fun t q hq => absurd hq (hl b t q)

theorem Flows.still {h l : List (Bool × Mark)} {a : Bool} {w w' : TaskState} {s : Bytes} {ms : List (Item ItemBody)}
    (hf : Flows T P h a w s ms) (hw : w = .ended → w' = .ended) (hl : ∀ b t q, (b, Mark.asked t q) ∉ l) :
    Flows T P (h ++ l) a w' s ms :=
  hf.mono hw (fun _ _ _ _ => clear_of_none hl _ _) fun _ _ _ _ => clear_of_none hl _ _

theorem Underway.still {h l : List (Bool × Mark)} {b : Bool} {i : Nat} {x : Serving} (hx : Underway T h b i x)
    (hdid : l.filterMap (didOf b i) = []) (hl : ∀ b t q, (b, Mark.asked t q) ∉ l) : Underway T (h ++ l) b i x :=
  hx.mono hdid fun _ => clear_of_none hl _ _

/-- A step that calls nobody. -/
theorem Across.quiet {c c' : Ends} {ms ms' : Bool → List (Item ItemBody)} {a : Bool} {e : Ev} {l : List (Bool × Mark)}
    (h : Across T P decompress ms c) (hhist : c'.history = c.history ++ l) (hkept : ∀ b, T.keeps b (c'.side b).node)
    (htidy : Tidy (c'.line a)) (hon : Onward e (c.line a) (c'.line a)) (hother : c'.line (!a) = c.line (!a))
    (hgenuine : ∀ b i n d, (b, Mark.did i n d) ∈ l → (nodeDo n d.1).2 = some d.2) (hl : ∀ b t q, (b, Mark.asked t q) ∉ l)
    (hcalled : ∀ id msg, e ≠ .submit id .whenResponse msg)
    (hputs : ∀ b ∈ e.puts, Fine T P c'.history a b) (hgets : ∀ r ∈ e.gets, Due T c'.history (!a) r)
    (hflows : ∀ i, Flows T P c'.history i (c'.line i).writer (c'.side (!i)).stream (ms' (!i)))
    (hserving : ∀ b (i : Nat) x, (c'.side b).serving[i]? = some x → Underway T c'.history b i x)
    (hasks : ∀ id, e.puts.countP (told P decompress (asks id)) + (ms' (!a)).countP (asks id) +
        (c'.side (!a)).serving.countP (waits id) + (ms' a).countP (answers id) + e.gets.countP (fun r => r.id = id) ≤
      (e.taken (c.line a)).countP (told P decompress (asks id)) +
        (ms (!a)).countP (asks id) + (c.side (!a)).serving.countP (waits id) + (ms a).countP (answers id))
    (hanswers : ∀ id, e.puts.countP (told P decompress (answers id)) + (ms' a).countP (asks id) +
        (c'.side a).serving.countP (waits id) + (ms' (!a)).countP (answers id) ≤
      (e.taken (c.line a)).countP (told P decompress (answers id)) + (ms a).countP (asks id) +
        (c.side a).serving.countP (waits id) + (ms (!a)).countP (answers id)) :
    Across T P decompress ms' c' :=
  h.move hhist hkept htidy hon hother hgenuine (fun _ _ _ => clear_of_none hl _ _) (fun b t q hq => absurd hq (hl b t q))
    (fun id msg he => absurd he (hcalled id msg)) hputs hgets hflows hserving (fun id => by have hall := hasks id; omega) hanswers

theorem Across.kept_put {c : Ends} {ms : Bool → List (Item ItemBody)} {a : Bool} (h : Across T P decompress ms c) {x : End}
    (hx : x.node = (c.side a).node) (l : List Mark) : ∀ b, T.keeps b ((c.put a x l).side b).node :=
  forall_side a (by rw [Ends.put_self, hx]; exact h.kept a) (by rw [Ends.put_other]; exact h.kept _)

/-- The call of `get_file`. -/
theorem Across.ask {c : Ends} {ms : Bool → List (Item ItemBody)} {a : Bool} {q : Request} {s : St}
    (h : Across T P decompress ms c) (hcross : Crosses P ⟨.request, q⟩) (hfresh : (c.line a).owed q.id = 0)
    (hs : step (.submit q.id .whenResponse (encodeForBep P ⟨.request, q⟩)) (c.line a) = some s) :
    Across T P decompress ms (c.setLine a s [.asked (c.line a).cells.length q]) := by
  have hon := onward_step (h.tidy a) hs
  have hcount := (h.tidy a).books.count
  have hclear : ∀ b id, 0 < (c.line b).owed id → Clear [(a, Mark.asked (c.line a).cells.length q)] b id := by
    intro b id hpos t q' hq'
    cases List.mem_singleton.mp hq'
    rintro rfl
    rw [hfresh] at hpos
    exact Nat.lt_irrefl 0 hpos
  have howed : ∀ b id, 0 < onway P decompress c ms b id → Clear [(a, Mark.asked (c.line a).cells.length q)] b id :=
    fun b id hpos => hclear b id (Nat.lt_of_lt_of_le hpos (h.counted b id))
  have hlatest : Latest (c.history ++ [(a, Mark.asked (c.line a).cells.length q)]) a (c.line a).cells.length q :=
    ⟨c.history, [], rfl, fun _ _ hq => by cases hq⟩
  have hflow : ∀ i, ∀ w, ((c.line i).writer = .ended → w = .ended) →
      Flows T P (c.history ++ [(a, Mark.asked (c.line a).cells.length q)]) i w (c.side (!i)).stream (ms (!i)) := by
    intro i w hw
    refine (h.flows i).mono hw (fun m hm id hid => howed i id (onway_flow_asks hm hid)) fun m hm id hid => ?_
    exact howed (!i) id (onway_flow_answers hm hid)
  have hserve : ∀ b (i : Nat) x, (c.side b).serving[i]? = some x →
      Underway T (c.history ++ [(a, Mark.asked (c.line a).cells.length q)]) b i x := by
    intro b i x hx
    exact (h.serving b i x hx).mono rfl fun hanswered => howed (!b) _ (onway_serving (List.mem_of_getElem? hx) hanswered)
  refine h.move (a := a) (e := .submit q.id .whenResponse (encodeForBep P ⟨.request, q⟩))
    (l := [(a, Mark.asked (c.line a).cells.length q)]) rfl (h.kept_put (by rfl) _) ?_ ?_ ?_ (fun _ _ _ _ hd => by simp at hd)
    hclear ?_ ?_ ?_ (fun _ hr => by cases hr) ?_ ?_ (fun id => ?_) (fun id => ?_)
  · simpa [Ends.setLine] using tidy_step (h.tidy a) hs
  · simpa [Ends.setLine] using hon
  · simp [Ends.setLine]
  · intro a' t q' hq'
    cases List.mem_singleton.mp hq'
    refine ⟨rfl, rfl, hcount.symm, ?_, hlatest⟩
    have hcalls : s.calls = (c.line a).calls ++ [⟨q.id, .whenResponse⟩] := hon.calls
    simp [Ends.setLine, hcalls, ← hcount]
  · intro id msg he
    cases he
    exact ⟨q, by rw [hcount]; exact List.mem_cons_self, rfl⟩
  · intro b hb
    rw [List.mem_singleton.mp hb]
    refine Or.inr ⟨_, rfl, hcross, fun q' hq' => ⟨(c.line a).cells.length, ?_⟩, fun r hr => by cases hr⟩
    cases hq'
    exact hlatest
  · refine forall_side a ?_ ?_
    · simpa [Ends.setLine] using hflow a s.writer (hon.ended (h.born a))
    · simpa [Ends.setLine] using hflow (!a) _ fun hw => hw
  · refine forall_side a (fun i x hx => ?_) (fun i x hx => ?_)
    · simp only [Ends.setLine, Ends.put_self] at hx
      exact hserve a i x hx
    · simp only [Ends.setLine, Ends.put_other] at hx
      exact hserve (!a) i x hx
  · have htold : told P decompress (asks id) (encodeForBep P ⟨.request, q⟩) = decide (q.id = id) := told_encode hcross _
    simp [Ends.setLine, Ev.puts, Ev.gets, Ev.calls, htold]
  · have htold : told P decompress (answers id) (encodeForBep P ⟨.request, q⟩) = false := told_encode hcross _
    simp [Ends.setLine, Ev.puts, htold]

/-- A step of a connection that submits a message that is for no call. -/
theorem Across.setLine {c : Ends} {ms : Bool → List (Item ItemBody)} {a : Bool} {e : Ev} {s : St} (h : Across T P decompress ms c)
    (hs : step e (c.line a) = some s) (hcalled : ∀ id msg, e ≠ .submit id .whenResponse msg)
    (hputs : ∀ b ∈ e.puts, b = [] ∨ ∃ m, b = encodeForBep P m ∧ Crosses P m ∧ plain m = true) (hgets : e.gets = [])
    (htaken : e.taken (c.line a) = []) : Across T P decompress ms (c.setLine a s []) := by
  have hon := onward_step (h.tidy a) hs
  have hnone : ∀ p : Item ItemBody → Bool, (∀ m, plain m = true → p m = false) → e.puts.countP (told P decompress p) = 0 := by
    intro p hp
    rw [List.countP_eq_zero]
    intro b hb
    rcases hputs b hb with rfl | ⟨m, rfl, hcross, hplain⟩
    · rw [told_nil]; simp
    · rw [told_encode hcross, hp m hplain]; simp
  refine h.quiet (a := a) (e := e) (l := []) rfl (h.kept_put (by rfl) []) ?_ ?_ ?_ (fun _ _ _ _ hd => by cases hd)
    (fun _ _ _ hq => by cases hq) hcalled (fun b hb => ?_) (by simp [hgets]) ?_ ?_ (fun id => ?_) (fun id => ?_)
  · simpa [Ends.setLine] using tidy_step (h.tidy a) hs
  · simpa [Ends.setLine] using hon
  · simp [Ends.setLine]
  · rcases hputs b hb with rfl | ⟨m, rfl, hcross, hplain⟩
    · exact Or.inl rfl
    · exact Or.inr ⟨m, rfl, carried_plain hcross hplain⟩
  · refine forall_side a ?_ ?_
    · have hf := (h.flows a).still (l := []) (hon.ended (h.born a)) (fun _ _ _ hq => by cases hq)
      simpa [Ends.setLine] using hf
    · have hf := (h.flows (!a)).still (l := []) (fun hw => hw) (fun _ _ _ hq => by cases hq)
      simpa [Ends.setLine] using hf
  · refine forall_side a (fun i x hx => ?_) (fun i x hx => ?_)
    · simp only [Ends.setLine, Ends.put_self] at hx
      exact (h.serving a i x hx).still rfl (fun _ _ _ hq => by cases hq)
    · simp only [Ends.setLine, Ends.put_other] at hx
      exact (h.serving (!a) i x hx).still rfl (fun _ _ _ hq => by cases hq)
  · simp [Ends.setLine, hgets, htaken, hnone (asks id) fun m hm => asks_plain hm id]
  · simp [Ends.setLine, htaken, hnone (answers id) fun m hm => answers_plain hm id]

/-- A step that gets bytes to the other end. -/
theorem Across.write {c : Ends} {ms : Bool → List (Item ItemBody)} {a : Bool} {e : Ev} {s : St} {bytes : Bytes}
    {ms' : List (Item ItemBody)} (h : Across T P decompress ms c) (htidy : Tidy s)
    (hon : Onward e (c.line a) s) (hputs : e.puts = []) (hgets : e.gets = [])
    (hcalled : ∀ id msg, e ≠ .submit id .whenResponse msg)
    (hflows : Flows T P c.history a s.writer ((c.side (!a)).stream ++ bytes) ms')
    (hlonger : ∀ p : Item ItemBody → Bool, (∀ m, plain m = true → p m = false) →
      ms'.countP p ≤ (ms (!a)).countP p + (e.taken (c.line a)).countP (told P decompress p)) :
    ∃ ms, Across T P decompress ms (c.write a s bytes) := by
  have hself : Function.update ms (!a) ms' (!a) = ms' := Function.update_self _ _ _
  have hother : Function.update ms (!a) ms' a = ms a := Function.update_of_ne (Bool.not_ne_self a).symm _ _
  have hkept : ∀ b, T.keeps b ((c.write a s bytes).side b).node :=
    forall_side a (by rw [Ends.write_self]; exact h.kept a) (by rw [Ends.write_other]; exact h.kept (!a))
  refine ⟨Function.update ms (!a) ms', h.quiet (a := a) (e := e) (l := []) (by simp) hkept (by simpa using htidy)
    (by simpa using hon) (by simp) (fun _ _ _ _ hd => by cases hd) (fun _ _ _ hq => by cases hq) hcalled
    (by simp [hputs]) (by simp [hgets]) ?_ ?_ (fun id => ?_) (fun id => ?_)⟩
  · refine forall_side a (by simpa using hflows) ?_
    have hf := h.flows (!a)
    rw [Bool.not_not] at hf
    simpa [hother] using hf
  · refine forall_side a (fun i x hx => ?_) (fun i x hx => ?_)
    · rw [Ends.write_self] at hx
      exact h.serving a i x hx
    · rw [Ends.write_other] at hx
      exact h.serving (!a) i x hx
  · have hle := hlonger (asks id) fun m hm => asks_plain hm id
    simp only [hputs, hgets, hself, hother, Ends.write_other, List.countP_nil]
    omega
  · have hle := hlonger (answers id) fun m hm => answers_plain hm id
    simp only [hputs, hself, hother, Ends.write_self, List.countP_nil]
    omega

/-- The reader takes a message that is for the connection. -/
theorem Across.receive {c : Ends} {ms : Bool → List (Item ItemBody)} {a : Bool} {e : Ev} {s : St} {rest : Bytes}
    {ms' : List (Item ItemBody)} (h : Across T P decompress ms c) (htidy : Tidy s) (hon : Onward e (c.line a) s)
    (hputs : e.puts = []) (hgets : ∀ r ∈ e.gets, Due T c.history (!a) r) (hcalled : ∀ id msg, e ≠ .submit id .whenResponse msg)
    (hrest : Flows T P c.history (!a) (c.line (!a)).writer rest ms')
    (hasks : ∀ id, ms'.countP (asks id) ≤ (ms a).countP (asks id))
    (hanswers : ∀ id, ms'.countP (answers id) + e.gets.countP (fun r => r.id = id) ≤ (ms a).countP (answers id)) :
    ∃ ms, Across T P decompress ms (c.put a { c.side a with line := s, stream := rest } []) := by
  have hself : Function.update ms a ms' a = ms' := Function.update_self _ _ _
  have hother : Function.update ms a ms' (!a) = ms (!a) := Function.update_of_ne (Bool.not_ne_self a) _ _
  refine ⟨Function.update ms a ms', h.quiet (a := a) (e := e) (l := []) rfl (h.kept_put (by rfl) [])
    (by simpa using htidy) (by simpa using hon) (by simp) (fun _ _ _ _ hd => by cases hd)
    (fun _ _ _ hq => by cases hq) hcalled (by simp [hputs]) (by simpa using hgets) ?_ ?_ (fun id => ?_) (fun id => ?_)⟩
  · refine forall_side a ?_ ?_
    · have hf := (h.flows a).still (l := []) (hon.ended (h.born a)) (fun _ _ _ hq => by cases hq)
      simpa [hother] using hf
    · simpa [hself] using hrest
  · refine forall_side a (fun i x hx => ?_) (fun i x hx => ?_)
    · rw [Ends.put_self] at hx
      simpa using h.serving a i x hx
    · rw [Ends.put_other] at hx
      simpa using h.serving (!a) i x hx
  · have hle := hanswers id
    simp only [hputs, hself, hother, Ends.put_other, List.countP_nil]
    omega
  · have hle := hasks id
    simp only [hputs, hself, hother, Ends.put_self, List.countP_nil]
    omega

/-- A step that leaves the connections as they are. -/
theorem Across.beside {c c' : Ends} {ms ms' : Bool → List (Item ItemBody)} {a : Bool} {l : List (Bool × Mark)}
    (h : Across T P decompress ms c) (hhist : c'.history = c.history ++ l) (hkept : ∀ b, T.keeps b (c'.side b).node)
    (hline : ∀ i, c'.line i = c.line i) (hgenuine : ∀ b i n d, (b, Mark.did i n d) ∈ l → (nodeDo n d.1).2 = some d.2)
    (hl : ∀ b t q, (b, Mark.asked t q) ∉ l)
    (hflows : ∀ i, Flows T P c'.history i (c.line i).writer (c'.side (!i)).stream (ms' (!i)))
    (hserving : ∀ b (i : Nat) x, (c'.side b).serving[i]? = some x → Underway T c'.history b i x)
    (hasks : ∀ id, (ms' (!a)).countP (asks id) + (c'.side (!a)).serving.countP (waits id) + (ms' a).countP (answers id) ≤
      (ms (!a)).countP (asks id) + (c.side (!a)).serving.countP (waits id) + (ms a).countP (answers id))
    (hanswers : ∀ id, (ms' a).countP (asks id) + (c'.side a).serving.countP (waits id) + (ms' (!a)).countP (answers id) ≤
      (ms a).countP (asks id) + (c.side a).serving.countP (waits id) + (ms (!a)).countP (answers id)) :
    Across T P decompress ms' c' := by
  refine h.quiet (a := a) (e := .cancel) hhist hkept ?_ ?_ (hline _) hgenuine hl (fun _ _ he => by cases he)
    (fun _ hb => by cases hb) (fun _ hr => by cases hr) (fun i => ?_) hserving (fun id => ?_) (fun id => ?_)
  · rw [hline]; exact h.tidy a
  · rw [hline]; exact onward_refl _
  · rw [hline]; exact hflows i
  · have hall := hasks id
    simp only [Ev.puts, Ev.gets, Ev.taken, List.countP_nil]
    omega
  · have hall := hanswers id
    simp only [Ev.puts, Ev.taken, List.countP_nil]
    omega

theorem line_put_same (c : Ends) (a : Bool) {x : End} (l : List Mark) (hx : x.line = c.line a) (i : Bool) :
    (c.put a x l).line i = c.line i :=
  forall_side (p := fun i => (c.put a x l).line i = c.line i) a (by simpa using hx) (by simp) i

/-- The reader takes a request, which is served from now on. -/
theorem Across.begin {c : Ends} {ms : Bool → List (Item ItemBody)} {a : Bool} {q : Request} {t : Nat} {rest : Bytes}
    {p : BepProg Unit} {ms' : List (Item ItemBody)} (h : Across T P decompress ms c) (ht : Latest c.history (!a) t q)
    (hp : Serves T a q p []) (hrest : Flows T P c.history (!a) (c.line (!a)).writer rest ms')
    (hms : ms a = ⟨.request, q⟩ :: ms') :
    ∃ ms, Across T P decompress ms (c.put a
      { c.side a with stream := rest, serving := (c.side a).serving ++ [⟨q, p, false⟩] }
      [.began (c.side a).serving.length q]) := by
  have hself : Function.update ms a ms' a = ms' := Function.update_self _ _ _
  have hother : Function.update ms a ms' (!a) = ms (!a) := Function.update_of_ne (Bool.not_ne_self a) _ _
  have hl : ∀ b t q', (b, Mark.asked t q') ∉ [(a, Mark.began (c.side a).serving.length q)] := fun _ _ _ hq => by simp at hq
  refine ⟨Function.update ms a ms', h.beside (a := a) (l := [(a, .began (c.side a).serving.length q)]) rfl
    (h.kept_put (by rfl) _) (line_put_same c a _ rfl) (fun _ _ _ _ hd => by simp at hd) hl ?_ ?_ (fun id => ?_) (fun id => ?_)⟩
  · refine forall_side a ?_ ?_
    · have hf := (h.flows a).still (fun hw => hw) hl
      simpa [hother] using hf
    · have hf := hrest.still (fun hw => hw) hl
      simpa [hself] using hf
  · refine forall_side a (fun i x hx => ?_) (fun i x hx => ?_)
    · rw [Ends.put_self, List.getElem?_append] at hx
      split at hx
      · exact (h.serving a i x hx).still rfl hl
      · rename_i hlt
        obtain ⟨hidx, hval⟩ := List.getElem?_eq_some_iff.mp hx
        simp only [List.length_singleton] at hidx
        simp only [List.getElem_singleton] at hval
        have hi : i = (c.side a).serving.length := by omega
        subst hval hi
        exact ⟨t, c.history, [], rfl, ht.mem, hp, fun _ => ht.mono (clear_of_none hl _ _), fun hanswered => by cases hanswered⟩
    · rw [Ends.put_other] at hx
      exact (h.serving (!a) i x hx).still rfl hl
  · simp only [hself, hother, hms, Ends.put_other, List.countP_cons]
    omega
  · have hwaits : waits id ⟨q, p, false⟩ = asks id ⟨.request, q⟩ := rfl
    simp only [hself, hother, hms, Ends.put_self, List.countP_append, List.countP_cons, List.countP_nil, hwaits]
    omega

/-- What the reader of an end got is taken in. -/
theorem Across.handleItem {c c' : Ends} {ms : Bool → List (Item ItemBody)} {a : Bool} {rest : Bytes} {m : Item ItemBody}
    (h : Across T P decompress ms c) (hmet : T.Met sha256 conn)
    (hread : readMessage P decompress (c.side a).stream = .done m rest) (hs : handleItem sha256 conn c a rest m = some c') :
    ∃ ms, Across T P decompress ms c' := by
  have hflow := h.flows (!a)
  rw [Bool.not_not] at hflow
  obtain ⟨ms', hms, hm, hrest⟩ := hflow.read hread
  have htail : ∀ p : Item ItemBody → Bool, ms'.countP p ≤ (ms a).countP p := fun p => by rw [hms, List.countP_cons]; omega
  have hskip : ∃ ms, Across T P decompress ms (c.put a { c.side a with stream := rest } []) :=
    h.receive (h.tidy a) (onward_refl _) rfl (fun _ hr => by cases hr) (fun _ _ he => by cases he) hrest (fun id => htail _)
      fun id => htail _
  obtain ⟨t, b⟩ := m
  cases t with
  | request =>
    obtain rfl := (Option.some.inj hs).symm
    obtain ⟨t, ht⟩ := hm.2.1 b rfl
    exact h.begin ht (hmet.serves a b) hrest hms
  | response =>
    obtain ⟨s, hstep, rfl⟩ := Option.map_eq_some_iff.mp hs
    refine h.receive (tidy_step (h.tidy a) hstep) (onward_step (h.tidy a) hstep) rfl (fun r hr => ?_)
      (fun _ _ he => by cases he) hrest (fun id => htail _) fun id => ?_
    · rw [List.mem_singleton.mp hr]
      exact hm.2.2 b rfl
    · have hanswers : answers id ⟨.response, b⟩ = decide (b.id = id) := rfl
      simp only [hms, Ev.gets, List.countP_cons, hanswers, List.countP_nil]
      omega
  | close =>
    obtain ⟨s, hstep, rfl⟩ := Option.map_eq_some_iff.mp hs
    exact h.receive (tidy_step (h.tidy a) hstep) (onward_step (h.tidy a) hstep) rfl (fun _ hr => by cases hr)
      (fun _ _ he => by cases he) hrest (fun id => htail _) fun id => htail _
  | clusterConfig => cases hs; exact hskip
  | index => cases hs; exact hskip
  | indexUpdate => cases hs; exact hskip
  | downloadProgress => cases hs; exact hskip
  | ping => cases hs; exact hskip

theorem countP_set_of {α : Type} {l : List α} {i : Nat} {x : α} (hx : l[i]? = some x) (y : α) (p : α → Bool) :
    (l.set i y).countP p + (if p x then 1 else 0) = l.countP p + if p y then 1 else 0 := by
  induction l generalizing i with
  | nil => simp at hx
  | cons z zs ih =>
    cases i with
    | zero =>
      cases hx
      rw [List.set_cons_zero, List.countP_cons, List.countP_cons]
      omega
    | succ i =>
      have hrest := ih (i := i) hx
      rw [List.set_cons_succ, List.countP_cons, List.countP_cons]
      omega

/-- Operations of one serving that were answered. -/
def Deeds (i : Nat) (l : List Mark) : Prop := ∀ m ∈ l, ∃ n d, m = .did i n d ∧ (nodeDo n d.1).2 = some d.2

theorem Deeds.genuine {i : Nat} {l : List Mark} {a : Bool} (hl : Deeds i l) :
    ∀ b j n d, (b, Mark.did j n d) ∈ l.map (fun m => (a, m)) → (nodeDo n d.1).2 = some d.2 := by
  intro b j n d hd
  obtain ⟨m, hm, heq⟩ := List.mem_map.mp hd
  obtain ⟨n', d', rfl, hdo⟩ := hl m hm
  cases heq
  exact hdo

theorem Deeds.no_call {i : Nat} {l : List Mark} {a : Bool} (hl : Deeds i l) :
    ∀ b t q, (b, Mark.asked t q) ∉ l.map fun m => (a, m) := by
  intro b t q hq
  obtain ⟨m, hm, heq⟩ := List.mem_map.mp hq
  obtain ⟨n, d, rfl, -⟩ := hl m hm
  cases heq

theorem Deeds.elsewhere {i j : Nat} {l : List Mark} {a b : Bool} (hl : Deeds i l) (hne : ¬ (a = b ∧ i = j)) :
    (l.map fun m => (a, m)).filterMap (didOf b j) = [] := by
  refine List.filterMap_eq_nil_iff.mpr fun x hx => ?_
  obtain ⟨m, hm, rfl⟩ := List.mem_map.mp hx
  obtain ⟨n, d, rfl, -⟩ := hl m hm
  exact if_neg hne

/-- A serving whose operation is answered. -/
theorem Underway.does {h : List (Bool × Mark)} {b : Bool} {i : Nat} {q : Request} {o : Op} {k : o.Ans → BepProg Unit}
    {answered : Bool} {r : o.Ans} (hx : Underway T h b i ⟨q, .ask o k, answered⟩) (hr : T.replies b o r) (n : Node) :
    Underway T (h ++ [(b, .did i n ⟨o, r⟩)]) b i ⟨q, k r, answered || (posting o).isSome⟩ := by
  obtain ⟨t, h₁, h₂, hhist, ht, ⟨-, hwp⟩, hlast, hpost⟩ := hx
  have hdid : didOf b i (b, Mark.did i n ⟨o, r⟩) = some ⟨o, r⟩ := if_pos ⟨rfl, rfl⟩
  have hdone : (h₂ ++ [(b, Mark.did i n ⟨o, r⟩)]).filterMap (didOf b i) = h₂.filterMap (didOf b i) ++ [⟨o, r⟩] := by
    rw [List.filterMap_append, List.filterMap_cons_some hdid]
    rfl
  refine ⟨t, h₁, h₂ ++ [(b, .did i n ⟨o, r⟩)], by rw [hhist]; simp, ht, ?_, fun hnot => ?_, fun hsome => ?_⟩
  · rw [hdone]
    exact hwp _ r ⟨rfl, hr⟩
  · rw [Bool.or_eq_false_iff] at hnot
    exact (hlast hnot.1).mono (clear_of_none (fun _ _ _ hq => by simp at hq) _ _)
  · rw [hdone]
    rcases Bool.or_eq_true_iff.mp hsome with hsome | hsome
    · obtain ⟨d, hd, hd'⟩ := hpost hsome
      exact ⟨d, List.mem_append_left _ hd, hd'⟩
    · refine ⟨⟨o, r⟩, by simp, fun hnone => ?_⟩
      rw [show posting o = none from hnone] at hsome
      cases hsome

theorem Across.kept_does {c : Ends} {ms : Bool → List (Item ItemBody)} {a : Bool} (h : Across T P decompress ms c) {x : End}
    (hx : T.keeps a x.node) (l : List Mark) : ∀ b, T.keeps b ((c.put a x l).side b).node :=
  forall_side a (by rwa [Ends.put_self]) (by rw [Ends.put_other]; exact h.kept _)

/-- The streams, where an end leaves its own and its writer as they are. -/
theorem Across.flows_put {c : Ends} {ms : Bool → List (Item ItemBody)} {a : Bool} {x : End} {l : List Mark}
    (h : Across T P decompress ms c) (hwriter : x.line.writer = (c.line a).writer) (hstream : x.stream = (c.side a).stream)
    (hl : ∀ b t q, (b, Mark.asked t q) ∉ l.map fun m => (a, m)) :
    ∀ j, Flows T P (c.put a x l).history j ((c.put a x l).line j).writer ((c.put a x l).side (!j)).stream (ms (!j)) := by
  refine forall_side a ?_ ?_
  · have hf := (h.flows a).still (fun hw => hw) hl
    simpa [hwriter] using hf
  · have hf := (h.flows (!a)).still (fun hw => hw) hl
    simpa [hstream] using hf

/-- The servings, where one of them goes on; the others stay as they were. -/
theorem Across.serving_put {c : Ends} {ms : Bool → List (Item ItemBody)} {a : Bool} {i : Nat} {x : End} {y z : Serving}
    {l : List Mark} (h : Across T P decompress ms c) (hz : (c.side a).serving[i]? = some z)
    (hserving : x.serving = (c.side a).serving.set i y) (hl : Deeds i l) (hy : Underway T (c.put a x l).history a i y) :
    ∀ b (j : Nat) x', ((c.put a x l).side b).serving[j]? = some x' → Underway T (c.put a x l).history b j x' := by
  refine forall_side a (fun j x' hx' => ?_) (fun j x' hx' => ?_)
  · rw [Ends.put_self, hserving] at hx'
    rcases eq_or_ne j i with rfl | hj
    · rw [List.getElem?_set_self (List.getElem?_eq_some_iff.mp hz).choose] at hx'
      cases hx'
      exact hy
    · rw [List.getElem?_set_ne (Ne.symm hj)] at hx'
      exact (h.serving a j x' hx').still (hl.elsewhere fun hij => hj hij.2.symm) hl.no_call
  · rw [Ends.put_other] at hx'
    exact (h.serving (!a) j x' hx').still (hl.elsewhere fun hij => Bool.not_ne_self a hij.1.symm) hl.no_call

/-- A serving goes on, and submits nothing. -/
theorem Across.serve_silent {c : Ends} {ms : Bool → List (Item ItemBody)} {a : Bool} {i : Nat} {x y : Serving} {n : Node}
    {l : List Mark} (h : Across T P decompress ms c) (hx : (c.side a).serving[i]? = some x) (hkeeps : T.keeps a n)
    (hl : Deeds i l) (hwaits : ∀ id, waits id y = waits id x)
    (hy : Underway T (c.history ++ l.map fun m => (a, m)) a i y) :
    Across T P decompress ms (c.put a { c.side a with node := n, serving := (c.side a).serving.set i y } l) := by
  have hcount : ∀ id, ((c.side a).serving.set i y).countP (waits id) = (c.side a).serving.countP (waits id) := by
    intro id
    have hset := countP_set_of hx y (waits id)
    rw [hwaits id] at hset
    omega
  have hline := line_put_same c a (x := { c.side a with node := n, serving := (c.side a).serving.set i y }) l rfl
  refine h.beside (a := a) rfl (h.kept_does hkeeps l) hline hl.genuine hl.no_call (fun j => ?_)
    (h.serving_put hx rfl hl hy) (fun id => by rw [Ends.put_other]) (fun id => by rw [Ends.put_self, hcount])
  have hflow := h.flows_put (x := { c.side a with node := n, serving := (c.side a).serving.set i y }) rfl rfl hl.no_call j
  rwa [hline j] at hflow

/-- A serving submits its response. -/
theorem Across.serve_submits {c : Ends} {ms : Bool → List (Item ItemBody)} {a : Bool} {i : Nat} {x y : Serving} {n : Node}
    {r : Response} {l : List Mark} (h : Across T P decompress ms c) (hx : (c.side a).serving[i]? = some x) (hkeeps : T.keeps a n)
    (hl : Deeds i l) (hwaits : ∀ id, waits id x = decide (r.id = id)) (hanswered : y.answered = true)
    (hy : Underway T (c.history ++ l.map fun m => (a, m)) a i y) (hcross : Crosses P ⟨.response, r⟩)
    (hdue : Due T (c.history ++ l.map fun m => (a, m)) a r) :
    Across T P decompress ms (c.put a { c.side a with
      line := { c.line a with sending := (c.line a).sending ++ [(encodeForBep P ⟨.response, r⟩, none)] }
      node := n
      serving := (c.side a).serving.set i y } l) := by
  have hstep : step (.submitMessage (encodeForBep P ⟨.response, r⟩)) (c.line a) =
      some { c.line a with sending := (c.line a).sending ++ [(encodeForBep P ⟨.response, r⟩, none)] } := rfl
  refine h.quiet (a := a) (e := .submitMessage (encodeForBep P ⟨.response, r⟩)) rfl (h.kept_does hkeeps l) ?_ ?_ (by simp)
    hl.genuine hl.no_call (fun _ _ he => by cases he) (fun b hb => ?_) (fun _ hr => by cases hr)
    (h.flows_put rfl rfl hl.no_call) (h.serving_put hx rfl hl hy) (fun id => ?_) (fun id => ?_)
  · rw [Ends.line_put]; exact tidy_step (h.tidy a) hstep
  · rw [Ends.line_put]; exact onward_step (h.tidy a) hstep
  · rw [List.mem_singleton.mp hb]
    exact Or.inr ⟨_, rfl, hcross, fun q hq => (by cases hq), fun r' hr' => by cases hr'; exact hdue⟩
  · have htold : told P decompress (asks id) (encodeForBep P ⟨.response, r⟩) = false := told_encode hcross _
    simp only [Ev.puts, Ev.gets, Ev.taken, Ends.put_other, List.countP_singleton, htold, List.countP_nil]
    simp
  · -- what was being served is now the message
    have htold : told P decompress (answers id) (encodeForBep P ⟨.response, r⟩) = decide (r.id = id) := told_encode hcross _
    have hset := countP_set_of hx y (waits id)
    have hnew : waits id y = false := by simp [waits, hanswered]
    simp only [hwaits id, hnew, Bool.false_eq_true, if_false] at hset
    simp only [Ev.puts, Ev.taken, Ends.put_self, List.countP_singleton, htold, List.countP_nil]
    omega

/-- An operation of a `handle_request`. -/
theorem Across.serve {c : Ends} {ms : Bool → List (Item ItemBody)} {a : Bool} {i : Nat} {q : Request} {answered : Bool} {o : Op}
    {k : o.Ans → BepProg Unit} (h : Across T P decompress ms c) (hmet : T.Met sha256 conn)
    (hx : (c.side a).serving[i]? = some ⟨q, .ask o k, answered⟩) (hcross : ∀ m ∈ posting o, Crosses P m) :
    Across T P decompress ms (serveStep P c a i q answered o k) := by
  have hunder := h.serving a i _ hx
  obtain ⟨hkeeps, hreplies⟩ : T.keeps a (nodeDo (c.side a).node o).1 ∧
      ∀ r, (nodeDo (c.side a).node o).2 = some r → T.replies a o r := by
    obtain ⟨t, h₁, h₂, -, -, ⟨hallowed, -⟩, -⟩ := hunder
    exact hmet.does a _ o hallowed.reading (h.kept a)
  unfold serveStep
  simp only
  split
  · -- the operation panicked, and with it the task
    rename_i n hdo
    rw [hdo] at hkeeps
    obtain ⟨t, h₁, h₂, hhist, ht, -, hlast, hpost⟩ := hunder
    refine h.serve_silent (l := []) hx hkeeps (fun _ hm => by cases hm) (fun _ => rfl) ?_
    rw [List.map_nil, List.append_nil]
    exact ⟨t, h₁, h₂, hhist, ht, trivial, hlast, hpost⟩
  · rename_i n r hdo
    have hanswer : (nodeDo (c.side a).node o).2 = some r := congrArg Prod.snd hdo
    rw [hdo] at hkeeps
    have hdeeds : Deeds i [.did i (c.side a).node ⟨o, r⟩] := by
      intro m hm
      exact ⟨_, _, List.mem_singleton.mp hm, hanswer⟩
    have hself := hunder.does (hreplies r hanswer) (c.side a).node
    cases hpost : posting o with
    | none =>
      simp only [hpost, Option.isSome_none, Bool.or_false] at hself
      simp only [Option.toList_none, List.map_nil, List.append_nil, Option.isSome_none, Bool.or_false]
      exact h.serve_silent hx hkeeps hdeeds (fun _ => rfl) hself
    | some m =>
      -- what is submitted is the first response to the request
      obtain ⟨hnot, resp, rfl, hid, hdue⟩ : answered = false ∧ ∃ resp : Response, m = ⟨.response, resp⟩ ∧ resp.id = q.id ∧
          Due T (c.history ++ [(a, .did i (c.side a).node ⟨o, r⟩)]) a resp := by
        cases o with
        | db o => cases hpost
        | sys o =>
          cases o with
          | submitMessage msg =>
            cases hpost
            obtain ⟨hnot, resp, rfl, hid, hdue⟩ := hunder.submits h.genuine (c.side a).node
            exact ⟨hnot, resp, rfl, hid, hdue⟩
          | _ => cases hpost
      subst hnot
      simp only [hpost, Option.isSome_some, Bool.or_true] at hself
      simp only [Option.toList_some, List.map_cons, List.map_nil, Option.isSome_some, Bool.or_true]
      have hwaits : ∀ id, waits id ⟨q, .ask o k, false⟩ = decide (resp.id = id) := fun id => by rw [hid]; rfl
      exact h.serve_submits hx hkeeps hdeeds hwaits rfl hself (hcross _ (by rw [hpost]; rfl)) hdue

/-- All a connection puts into its queue by itself is a marker. -/
theorem own_frame (s : St) {e : Ev} (h : e.own = true) : (∀ b ∈ e.puts, b = []) ∧ e.gets = [] ∧ e.taken s = [] := by
  cases e with
  | waitForReady => exact ⟨fun b hb => List.mem_singleton.mp hb, rfl, rfl⟩
  | submit _ _ _ => cases h
  | submitMessage _ => cases h
  | receive _ => cases h
  | readerFails _ => cases h
  | write => cases h
  | writeFails _ => cases h
  | _ => exact ⟨fun b hb => (by cases hb), rfl, rfl⟩

theorem across_init {node : Bool → Node} (hkeeps : ∀ b, T.keeps b (node b)) :
    Across T P decompress (fun _ => []) (Ends.init node) := by
  refine ⟨hkeeps, fun _ => tidy_init, fun _ => Or.inl rfl, fun _ _ _ _ hd => (by cases hd), fun _ _ _ hq => (by cases hq),
    fun _ _ _ _ hq => (by cases hq), fun _ _ _ ht => (by cases ht), fun _ _ _ hq => (by cases hq), fun _ x hx => (by cases hx),
    fun _ => ?_,
    fun _ _ _ hr => (by cases hr), fun _ _ hlk => (by cases hlk), fun _ _ _ hx => (by cases hx), fun _ _ => Nat.le_refl _⟩
  exact ⟨[], rfl, fun _ hm => (by cases hm), fun hne => absurd rfl hne⟩

/-- Where the messages that are sent can be encoded and nothing is asked under the id of a call
    that is owed a response, every step of either end keeps the invariant. -/
theorem across_step {c c' : Ends} {ms : Bool → List (Item ItemBody)} {a : Bool} {e : EndEv} (h : Across T P decompress ms c)
    (hmet : T.Met sha256 conn) (hcross : ∀ m ∈ outgoing c a e, Crosses P m)
    (hfresh : ∀ q, e = .ask q → (c.line a).owed q.id = 0) (hworld : ∀ n, e = .world n → T.keeps a n)
    (hs : endStep sha256 P decompress conn a e c = some c') : ∃ ms, Across T P decompress ms c' := by
  cases e with
  | ask q =>
    simp only [endStep] at hs
    obtain ⟨s, hstep, rfl⟩ := Option.map_eq_some_iff.mp hs
    exact ⟨ms, h.ask (hcross _ rfl) (hfresh q rfl) hstep⟩
  | close reason =>
    simp only [endStep] at hs
    obtain ⟨s, hstep, rfl⟩ := Option.map_eq_some_iff.mp hs
    refine ⟨ms, h.setLine hstep (fun _ _ he => (by cases he)) (fun b hb => ?_) rfl rfl⟩
    exact Or.inr ⟨_, List.mem_singleton.mp hb, hcross _ rfl, rfl⟩
  | post m =>
    simp only [endStep] at hs
    split at hs
    · rename_i hplain
      obtain ⟨s, hstep, rfl⟩ := Option.map_eq_some_iff.mp hs
      refine ⟨ms, h.setLine hstep (fun _ _ he => (by cases he)) (fun b hb => ?_) rfl rfl⟩
      exact Or.inr ⟨_, List.mem_singleton.mp hb, hcross _ rfl, hplain⟩
    · cases hs
  | own e =>
    simp only [endStep] at hs
    split at hs
    · rename_i hown
      obtain ⟨s, hstep, rfl⟩ := Option.map_eq_some_iff.mp hs
      obtain ⟨hputs, hgets, htaken⟩ := own_frame (c.line a) hown
      refine ⟨ms, h.setLine hstep (fun _ _ he => (by subst he; cases hown)) (fun b hb => Or.inl (hputs b hb)) hgets htaken⟩
    · cases hs
  | write =>
    simp only [endStep] at hs
    split at hs
    · rename_i x hwriting
      obtain ⟨s, hstep, rfl⟩ := Option.map_eq_some_iff.mp hs
      have hrun : (c.line a).writer = .running := by
        cases step_happens hstep with
        | write hwriter _ => exact hwriter
      have hf := h.flows a
      rw [hrun] at hf
      obtain ⟨ms', hflow, hlonger⟩ := hf.write decompress s.writer (h.leaving a x.1 (mem_writing hwriting))
      refine h.write (tidy_step (h.tidy a) hstep) (onward_step (h.tidy a) hstep) rfl rfl (fun _ _ he => (by cases he))
        hflow fun p _ => ?_
      simpa [Ev.taken, hwriting] using hlonger.countP p
    · cases hs
  | writeFails closes part =>
    simp only [endStep] at hs
    split at hs
    · rename_i x hwriting
      obtain ⟨s, hstep, rfl⟩ := Option.map_eq_some_iff.mp hs
      obtain ⟨hrun, hended⟩ : (c.line a).writer = .running ∧ s.writer = .ended := by
        cases step_happens hstep with
        | writeFails _ hwriter => exact ⟨hwriter, rfl⟩
      have hf := h.flows a
      rw [hrun] at hf
      obtain ⟨ms', hflow, hlonger⟩ := hf.breaks decompress (h.leaving a x.1 (mem_writing hwriting)) part
      refine h.write (tidy_step (h.tidy a) hstep) (onward_step (h.tidy a) hstep) rfl rfl (fun _ _ he => (by cases he))
        (by rw [hended]; exact hflow) fun p _ => ?_
      simpa [Ev.taken, hwriting] using hlonger.countP p
    · cases hs
  | extra m =>
    simp only [endStep] at hs
    split at hs
    · rename_i hcan
      cases hs
      have hf := h.flows a
      rw [hcan.2.1] at hf
      obtain ⟨ms', hflow, hlonger⟩ := hf.write decompress (c.line a).writer
        (Or.inr ⟨m, rfl, carried_plain (hcross _ rfl) hcan.1⟩)
      refine h.write (h.tidy a) (onward_refl _) rfl rfl (fun _ _ he => (by cases he)) hflow fun p hp => ?_
      simpa [Ev.taken, told_encode (hcross _ rfl), hp m hcan.1] using hlonger.countP p
    · cases hs
  | extraFails closes m part =>
    simp only [endStep] at hs
    split at hs
    · rename_i hcan
      obtain ⟨s, hstep, rfl⟩ := Option.map_eq_some_iff.mp hs
      obtain ⟨hrun, hended⟩ : (c.line a).writer = .running ∧ s.writer = .ended := by
        cases step_happens hstep with
        | writeFails _ hwriter => exact ⟨hwriter, rfl⟩
      have hf := h.flows a
      rw [hrun] at hf
      obtain ⟨ms', hflow, hlonger⟩ := hf.breaks decompress (Or.inr ⟨m, rfl, carried_plain (hcross _ rfl) hcan.1⟩) part
      refine h.write (tidy_step (h.tidy a) hstep) (onward_step (h.tidy a) hstep) rfl rfl (fun _ _ he => (by cases he))
        (by rw [hended]; exact hflow) fun p hp => ?_
      simpa [Ev.taken, hcan.2, told_encode (hcross _ rfl), hp m hcan.1] using hlonger.countP p
    · cases hs
  | read =>
    simp only [endStep] at hs
    split at hs
    · split at hs
      · rename_i m rest hread
        exact h.handleItem hmet hread hs
      · cases hs
    · cases hs
  | readerFails reason =>
    simp only [endStep] at hs
    obtain ⟨s, hstep, rfl⟩ := Option.map_eq_some_iff.mp hs
    refine ⟨ms, h.setLine hstep (fun _ _ he => (by cases he)) (fun b hb => ?_) rfl rfl⟩
    exact Or.inr ⟨_, List.mem_singleton.mp hb, hcross _ rfl, rfl⟩
  | serve i =>
    simp only [endStep] at hs
    split at hs
    · rename_i q o k answered hx
      cases hs
      refine ⟨ms, h.serve hmet hx fun m hm => hcross m ?_⟩
      simp only [outgoing, hx]
      exact hm
    · cases hs
  | world n =>
    cases hs
    refine ⟨ms, h.beside (a := a) (l := []) rfl ?_ (line_put_same c a [] rfl) (fun _ _ _ _ hd => by cases hd)
      (fun _ _ _ hq => by cases hq) ?_ ?_ (fun id => by rw [Ends.put_other]) (fun id => by rw [Ends.put_self])⟩
    · exact forall_side a (by rw [Ends.put_self]; exact hworld n rfl) (by rw [Ends.put_other]; exact h.kept _)
    · exact forall_side a (by simpa using h.flows a) (by simpa using h.flows (!a))
    · refine forall_side a (fun i x hx => ?_) (fun i x hx => ?_)
      · rw [Ends.put_self] at hx
        simpa using h.serving a i x hx
      · rw [Ends.put_other] at hx
        simpa using h.serving (!a) i x hx

end

end BepRs.Connection
