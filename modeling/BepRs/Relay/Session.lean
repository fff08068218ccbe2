/-
  BepRs.Relay.Session — a task whose requests go over the connection.

  In `Pair` a request is answered at once. Here the task runs at one end of a connection
  (`Connection.Ends`): its request goes through the queue, the writer, the bytes and the
  peer's `handle_request`, the response comes back the same way, and anything else may happen
  at both ends in between. Where no other task changes the two nodes, and every request of
  the task is answered, that makes no difference.
  - `resumed_reply`: a call gets what `handle_request` answers at once on the peer's node.
  - `session_pair`: a task that returns has done what it does in `Pair`.
  - `session_download`: a download of a folder has everything the peer holds of it.
-/

import BepRs.Connection.Calls
import BepRs.Relay.Folder

namespace BepRs.Relay

open BepRs.Lib BepRs.Lib.Path BepRs.Lib.Task BepRs.Lib.Oneshot BepRs.State BepRs.Sync BepRs.Access BepRs.Wire BepRs.Connection

/-! ## Nodes that differ in what they said -/

/-- The second has said something else, its lock may be poisoned, and it is else as the first. -/
def Quiet (n n' : Node) : Prop :=
  ∃ (ms : List Message) (p : Bool), n' = { n with sent := ms, poisoned := p } ∧ (n.poisoned = true → p = true)

theorem Quiet.refl (n : Node) : Quiet n n := ⟨n.sent, n.poisoned, rfl, fun h => h⟩

theorem Quiet.trans {a b c : Node} (hab : Quiet a b) (hbc : Quiet b c) : Quiet a c := by
  obtain ⟨ms, p, rfl, hp⟩ := hab
  obtain ⟨ms', p', rfl, hp'⟩ := hbc
  exact ⟨ms', p', rfl, fun ha => hp' (hp ha)⟩

theorem readBlock_answer (n n' : Node) (hdisk : n'.disk = n.disk) (hcwd : n'.cwd = n.cwd) (hp : n'.poisoned = n.poisoned)
    (url : Text) (offset len : Nat) : (n'.readBlock url offset len).2 = (n.readBlock url offset len).2 := by
  unfold Node.readBlock
  rw [hdisk, hcwd, hp]
  repeat' split
  all_goals rfl

theorem readBlock_usable {n : Node} {url : Text} {offset len : Nat} {x : Option Bytes}
    (h : (n.readBlock url offset len).2 = some x) : n.poisoned = false := by
  by_contra hp
  rw [Bool.not_eq_false] at hp
  unfold Node.readBlock at h
  rw [if_pos hp] at h
  cases h

/-- The operations of `handle_request` change nothing else, and answer as they would have. -/
theorem quiet_nodeDo {n n' : Node} {o : Op} (ho : Reading o) (h : Quiet n n') :
    Quiet n (nodeDo n' o).1 ∧ ∀ r, (nodeDo n' o).2 = some r → (nodeDo n o).2 = some r := by
  obtain ⟨ms, p, rfl, hp⟩ := h
  cases o with
  | db o =>
    cases o with
    | getSyncDirectory folder => exact ⟨⟨ms, p, rfl, hp⟩, fun _ hr => hr⟩
    | getPeers => exact ⟨⟨ms, p, rfl, hp⟩, fun _ hr => hr⟩
    | isDirectorySynced directory peer => exact ⟨⟨ms, p, rfl, hp⟩, fun _ hr => hr⟩
    | _ => cases ho
  | sys o =>
    cases o with
    | submitMessage m => exact ⟨⟨ms ++ [m], p, rfl, hp⟩, fun _ hr => hr⟩
    | closeReason reason => exact ⟨⟨ms, p, rfl, hp⟩, fun _ hr => hr⟩
    | readBlock url offset len =>
      refine ⟨?_, fun r hr => ?_⟩
      · rcases Node.readBlock_frame { n with sent := ms, poisoned := p } url offset len with hsame | hpoison
        · exact ⟨ms, p, hsame, hp⟩
        · exact ⟨ms, true, hpoison, fun _ => rfl⟩
      · have husable : p = false := readBlock_usable (n := { n with sent := ms, poisoned := p }) hr
        have hn : n.poisoned = false := by
          by_contra hbad
          rw [hp (by simpa using hbad)] at husable
          cases husable
        have hsame : (({ n with sent := ms, poisoned := p } : Node).readBlock url offset len).2 =
            (n.readBlock url offset len).2 :=
          readBlock_answer n { n with sent := ms, poisoned := p } rfl rfl (husable.trans hn.symm) url offset len
        exact hsame.symm.trans hr
    | _ => cases ho

/-- Where they answer at all, they leave the node as it was but for what it said. -/
theorem says_nodeDo {n n' : Node} {o : Op} {r : o.Ans} (ho : Reading o) (h : Says n n') (hr : (nodeDo n o).2 = some r) :
    ∃ n'', nodeDo n' o = (n'', some r) ∧ Says n n'' := by
  obtain ⟨ms, rfl⟩ := h
  cases o with
  | db o =>
    cases o with
    | getSyncDirectory folder => exact ⟨_, Prod.ext rfl hr, ms, rfl⟩
    | getPeers => exact ⟨_, Prod.ext rfl hr, ms, rfl⟩
    | isDirectorySynced directory peer => exact ⟨_, Prod.ext rfl hr, ms, rfl⟩
    | _ => cases ho
  | sys o =>
    cases o with
    | submitMessage m => exact ⟨_, Prod.ext rfl hr, ms ++ [m], by rw [← List.append_assoc]⟩
    | closeReason reason => exact ⟨_, Prod.ext rfl hr, ms, rfl⟩
    | readBlock url offset len =>
      have hanswer : (({ n with sent := n.sent ++ ms } : Node).readBlock url offset len).2 = (n.readBlock url offset len).2 :=
        readBlock_answer n { n with sent := n.sent ++ ms } rfl rfl rfl url offset len
      have hsame := hanswer.trans hr
      exact ⟨_, Prod.ext (readBlock_same hsame) hsame, ms, rfl⟩
    | _ => cases ho

section Still

variable {sha256 : Bytes → Bytes} {conn : Bool → Conn} {b₀ : Bool} {n₀ : Node}

variable (sha256 conn b₀ n₀) in
/-- One of the two nodes only answers, so its responses are those to a request handled at once. -/
def stillTerms : Terms where
  keeps b n := b = b₀ → Quiet n₀ n
  replies b o r := Replies o r ∧ (b = b₀ → (nodeDo n₀ o).2 = some r)
  backs b q r _ := b = b₀ → r ∈ answer sha256 n₀ (conn b₀) q

theorem serves_still (b : Bool) (q : Request) :
    Serves (stillTerms sha256 conn b₀ n₀) b q (handleRequest sha256 (conn b) q) [] := by
  have hopen := serves_open sha256 conn b q
  unfold Serves at hopen ⊢
  by_cases hb : b = b₀
  · subst hb
    have hwp : Wp (S := bep) (Trail ((stillTerms sha256 conn b n₀).replies b)) (Allowed q ((openTerms sha256 conn).backs b q))
        (fun _ _ => True) (handleRequest sha256 (conn b) q) [] :=
      wp_mono (fun _ _ _ _ hd => ⟨hd.1, hd.2.1⟩) (fun _ _ hG => hG) hopen
    have hsame : ∀ v ds (o : Op) (r : o.Ans), Says n₀ v → Allowed q ((openTerms sha256 conn).backs b q) ds o →
        (nodeDo n₀ o).2 = some r → ∃ v', nodeDo v o = (v', some r) ∧ Says n₀ v' :=
      fun v ds o r hv hG hr => says_nodeDo hG.reading hv hr
    have hevents := wp_events (fun _ _ _ _ hd => hd.2.2 rfl) hsame (.refl n₀) hwp
    refine wp_mono (fun _ _ _ _ hd => hd) (fun ds o hG => ?_) hevents
    obtain ⟨hallowed, hasked⟩ := hG
    cases o with
    | db o => exact hallowed
    | sys o =>
      cases o with
      | submitMessage m =>
        obtain ⟨hfirst, r, rfl, hid, -⟩ := hallowed
        refine ⟨hfirst, r, rfl, hid, fun _ => ?_⟩
        rw [← responses_handleRequest]
        exact List.mem_filterMap.mpr ⟨_, hasked () rfl, rfl⟩
      | _ => exact hallowed
  · refine wp_mono (fun _ _ _ _ hd => ⟨hd.1, hd.2.1⟩) (fun ds o hG => ?_) hopen
    cases o with
    | db o => exact hG
    | sys o =>
      cases o with
      | submitMessage m =>
        obtain ⟨hfirst, r, rfl, hid, -⟩ := hG
        exact ⟨hfirst, r, rfl, hid, fun h => absurd h hb⟩
      | _ => exact hG

theorem met_still : (stillTerms sha256 conn b₀ n₀).Met sha256 conn := by
  refine ⟨fun b n o ho hkeeps => ⟨fun hb => (quiet_nodeDo ho (hkeeps hb)).1, fun r hr => ⟨replies_nodeDo hr, fun hb => ?_⟩⟩,
    serves_still⟩
  exact (quiet_nodeDo ho (hkeeps hb)).2 r hr

theorem answer_same {n n' : Node} (h : Says n n') (c : Conn) (q : Request) : answer sha256 n' c q = answer sha256 n c q := by
  obtain ⟨ms, rfl⟩ := h
  have hanswer : ∀ url offset len, (({ n with sent := n.sent ++ ms } : Node).readBlock url offset len).2 =
      (n.readBlock url offset len).2 := readBlock_answer n { n with sent := n.sent ++ ms } rfl rfl rfl
  unfold answer answerFrom
  simp only [hanswer]
  rfl

/-- A `handle_request` that answers leaves the node as it was but for its answer. -/
theorem says_handleRequest {n : Node} {c : Conn} {q : Request} {r : Response} (hr : r ∈ answer sha256 n c q) :
    Says n (run nodeDo (handleRequest sha256 c q) n).1 := by
  rw [← responses_handleRequest, (events_passed sha256 n c q).2] at hr
  rw [handleRequest_eq, run_bind, (checked_authorise n c q.folder).1]
  cases hpassed : passed n c q.folder with
  | none => exact .refl n
  | some d =>
    rw [hpassed, Option.elim_some] at hr
    have hrespond : ∀ (data : Bytes) (code : ErrorCode), Says n (run nodeDo (respond q data code) n).1 := fun _ _ => ⟨_, rfl⟩
    cases d with
    | none => exact hrespond _ _
    | some dir =>
      simp only [deliver] at hr ⊢
      cases hpath : dir.path with
      | none => exact hrespond _ _
      | some path =>
        rw [hpath] at hr
        simp only at hr ⊢
        rw [responses_serve] at hr
        have hdo : nodeDo n (.sys (.readBlock (push path q.name) (asUsize q.offset) (asUsize q.size))) =
            n.readBlock (push path q.name) (asUsize q.offset) (asUsize q.size) := rfl
        unfold serve
        cases hread : (n.readBlock (push path q.name) (asUsize q.offset) (asUsize q.size)).2 with
        | none =>
          unfold answerFrom at hr
          rw [hread] at hr
          cases hr
        | some x =>
          rw [run_call_some (hdo.trans (Prod.ext (readBlock_same hread) hread))]
          cases x with
          | none => exact hrespond _ _
          | some data =>
            simp only
            split
            · exact hrespond _ _
            · exact hrespond _ _

/-- A call that resumed with a response got what `handle_request` answers at once. -/
theorem resumed_reply {P : Prost ItemBody} {decompress : Bytes → Option Bytes} {a : Bool} {c : Ends}
    {ms : Bool → List (Item ItemBody)} (h : Across (stillTerms sha256 conn (!a) n₀) P decompress ms c) {t : Nat} {q : Request}
    {r : Response} (hasked : (a, Mark.asked t q) ∈ c.history) (hresumed : (c.line a).cells[t]? = some (.sent (.response r)))
    {n : Node} (hn : Says n₀ n) :
    reply sha256 (conn !a) n q = .response r ∧ Says n₀ (run nodeDo (handleRequest sha256 (conn !a) q) n).1 := by
  obtain ⟨q', -, i, marks, ds, m, hsub, -, hbacks⟩ := served_of_resumed h hresumed
  rw [Bool.not_not] at hsub
  have hmem : (a, Mark.asked t q') ∈ c.history := hsub.subset (by simp)
  obtain rfl := h.numbered a t q q' hasked hmem
  have hr : r ∈ answer sha256 n (conn !a) q := by
    rw [answer_same hn]
    exact hbacks rfl
  refine ⟨?_, hn.trans (says_handleRequest hr)⟩
  have hlen := length_answer sha256 n (conn !a) q
  unfold reply
  rw [responses_handleRequest]
  cases hl : answer sha256 n (conn !a) q with
  | nil => rw [hl] at hr; cases hr
  | cons x xs =>
    rw [hl] at hr hlen
    have hxs : xs = [] := List.eq_nil_of_length_eq_zero (by rw [List.length_cons] at hlen; omega)
    subst hxs
    rw [List.mem_singleton.mp hr]
    rfl

end Still

/-! ## The task -/

inductive Turn (α : Type) where
  | running (p : BepProg α)
  /-- It waits for the response to its request, in this call. -/
  | calling (t : Nat) (q : Request) (k : Except PeerCommandError PeerRequestResponse → BepProg α)
  /-- It waits for its Close to be sent. -/
  | closing (t : Nat) (k : Unit → BepProg α)

def Turn.result {α : Type} : Turn α → Option α
  | .running (.ret x) => some x
  | .running .panic => none
  | .running (.ask _ _) => none
  | .calling _ _ _ => none
  | .closing _ _ => none

theorem Turn.of_result {α : Type} {t : Turn α} {x : α} (h : t.result = some x) : t = .running (.ret x) := by
  cases t with
  | running p =>
    cases p with
    | ret y => cases h; rfl
    | panic => cases h
    | ask o k => cases h
  | calling t q k => cases h
  | closing t k => cases h

structure Session (α : Type) where
  ends : Ends
  turn : Turn α

inductive SessionEv where
  /-- The task does its next operation. -/
  | task
  /-- What it waits for has come. -/
  | resume
  /-- Anything else at the two ends. -/
  | other (b : Bool) (e : EndEv)

section

variable {α : Type}

/-- An operation of the task, and how it goes on. -/
def turn (c : Ends) (a : Bool) : (o : Op) → (o.Ans → BepProg α) → EndEv × Turn α
  | .sys (.submitRequest q), k => (.ask q, .calling (c.line a).cells.length q k)
  | .sys (.closeReason reason), k => (.close reason.toList, .closing (c.line a).cells.length k)
  | .sys (.submitMessage m), k => (.post (itemOf m), .running (k ()))
  | o, k =>
    let x := nodeDo (c.side a).node o
    (.world x.1, .running (x.2.elim .panic k))

/-- What happens at the ends. -/
def atEnds (a : Bool) (s : Session α) : SessionEv → Option (Bool × EndEv)
  | .task =>
    match s.turn with
    | .running (.ask o k) => some (a, (turn s.ends a o k).1)
    | _ => none
  | .resume => none
  | .other b e => some (b, e)

variable (sha256 : Bytes → Bytes) (P : Prost ItemBody) (decompress : Bytes → Option Bytes) (conn : Bool → Conn) (a : Bool)

def sessionStep : SessionEv → Session α → Option (Session α)
  | .task, s =>
    match s.turn with
    | .running (.ask o k) =>
      (endStep sha256 P decompress conn a (turn s.ends a o k).1 s.ends).map fun c => ⟨c, (turn s.ends a o k).2⟩
    | _ => none
  | .resume, s =>
    match s.turn with
    | .calling t _ k =>
      match (s.ends.line a).cells[t]? with
      | some (.sent v) => some ⟨s.ends, .running (k (.ok v))⟩
      | some .canceled => some ⟨s.ends, .running (k (.error .connectionClosed))⟩
      | _ => none
    | .closing t k =>
      match (s.ends.line a).cells[t]? with
      | some .pending => none
      | some _ => some ⟨s.ends, .running (k ())⟩
      | none => none
    | _ => none
  | .other b e, s => (endStep sha256 P decompress conn b e s.ends).map fun c => ⟨c, s.turn⟩

/-- The ends do their part (`Proper`), no other task changes a node, and the requests of the
    task are answered. -/
structure Calm (e : SessionEv) (s : Session α) : Prop where
  proper : ∀ x, atEnds a s e = some x → Proper P x s.ends
  alone : ∀ b n, e ≠ .other b (.world n)
  answered : e = .resume → ∀ t q k, s.turn = .calling t q k → ∃ r, (s.ends.line a).cells[t]? = some (.sent (.response r))

end

/-! ## In step with the pair -/

/-- An operation that is answered is answered alike. -/
theorem alike_nodeDo {n m : Node} {o : Op} {r : o.Ans} (h : Quiet m n) (hnot : ∀ q, o ≠ .sys (.submitRequest q))
    (hr : (nodeDo n o).2 = some r) : (nodeDo m o).2 = some r ∧ Quiet (nodeDo m o).1 (nodeDo n o).1 := by
  obtain ⟨ms, p, rfl, hp⟩ := h
  have hsound : p = false → m.poisoned = false := by
    intro hfalse
    by_contra hbad
    rw [hp (by simpa using hbad)] at hfalse
    cases hfalse
  cases o with
  | db o => exact ⟨hr, ms, p, rfl, hp⟩
  | sys o =>
    cases o with
    | submitRequest q => exact absurd rfl (hnot q)
    | readBlock url offset len =>
      have husable : p = false := readBlock_usable (n := { m with sent := ms, poisoned := p }) hr
      have hanswer : (({ m with sent := ms, poisoned := p } : Node).readBlock url offset len).2 =
          (m.readBlock url offset len).2 :=
        readBlock_answer m { m with sent := ms, poisoned := p } rfl rfl (husable.trans (hsound husable).symm) url offset len
      have hm : (m.readBlock url offset len).2 = some r := hanswer.symm.trans hr
      have hsame : ({ m with sent := ms, poisoned := p } : Node).readBlock url offset len =
          ({ m with sent := ms, poisoned := p }, some r) := Prod.ext (readBlock_same hr) hr
      simp only [nodeDo, Node.sysDo, hsame, readBlock_same hm]
      exact ⟨hm, ms, p, rfl, hp⟩
    | writeBlock url offset data =>
      cases p with
      | true => exact absurd hr (by simp [nodeDo, Node.sysDo, Node.writeBlock])
      | false =>
        have hm := hsound rfl
        have hopen : ({ m with sent := ms, poisoned := false } : Node).openWrite url = m.openWrite url := rfl
        simp only [nodeDo, Node.sysDo, Node.writeBlock, hopen, hm, Bool.false_eq_true, if_false] at hr ⊢
        cases hw : m.openWrite url with
        | none => rw [hw] at hr; cases hr
        | some x =>
          simp only [hw] at hr ⊢
          by_cases hseek : Node.seekable offset = true
          · simp only [hseek, if_true] at hr ⊢
            exact ⟨hr, ms, false, rfl, fun h => by cases h⟩
          · simp only [hseek, Bool.false_eq_true, if_false] at hr
            cases hr
    | submitMessage msg => exact ⟨hr, ms ++ [msg], p, rfl, hp⟩
    | _ => exact ⟨hr, ms, p, rfl, hp⟩

/-- What the ends do, the task and the changes from outside apart: they add to the history, and
    leave their nodes as they were but for what was said and the lock. -/
def Stays (c c' : Ends) : Prop := c.history <+: c'.history ∧ ∀ b, Quiet (c.side b).node (c'.side b).node

theorem stays_put {c : Ends} {b : Bool} {x : End} (l : List Mark) (h : Quiet (c.side b).node x.node) : Stays c (c.put b x l) := by
  refine ⟨List.prefix_append _ _, forall_side b ?_ ?_⟩
  · rwa [Ends.put_self]
  · rw [Ends.put_other]; exact .refl _

theorem stays_write (c : Ends) (b : Bool) (line : Connection.St) (bytes : Bytes) : Stays c (c.write b line bytes) := by
  refine ⟨List.prefix_refl _, forall_side b ?_ ?_⟩
  · rw [Ends.write_self]; exact .refl _
  · rw [Ends.write_other]; exact .refl _

section Frame

variable {T : Terms} {sha256 : Bytes → Bytes} {P : Prost ItemBody} {decompress : Bytes → Option Bytes} {conn : Bool → Conn}

theorem stays_handleItem {c c' : Ends} {b : Bool} {rest : Bytes} {m : Item ItemBody}
    (hs : handleItem sha256 conn c b rest m = some c') : Stays c c' := by
  obtain ⟨t, body⟩ := m
  cases t with
  | response =>
    obtain ⟨s, -, rfl⟩ := Option.map_eq_some_iff.mp hs
    exact stays_put _ (.refl _)
  | close =>
    obtain ⟨s, -, rfl⟩ := Option.map_eq_some_iff.mp hs
    exact stays_put _ (.refl _)
  | _ =>
    cases hs
    exact stays_put _ (.refl _)

theorem stays_serveStep {c : Ends} {b : Bool} {i : Nat} {q : Request} {answered : Bool} {o : Op} {k : o.Ans → BepProg Unit}
    (ho : Reading o) : Stays c (serveStep P c b i q answered o k) := by
  have hquiet := (quiet_nodeDo ho (.refl (c.side b).node)).1
  unfold serveStep
  simp only
  split
  · rename_i n hdo
    rw [hdo] at hquiet
    exact stays_put _ hquiet
  · rename_i n r hdo
    rw [hdo] at hquiet
    exact stays_put _ hquiet

theorem endStep_frame {ms : Bool → List (Item ItemBody)} {c c' : Ends} {b : Bool} {e : EndEv} (h : Across T P decompress ms c)
    (hnot : ∀ n, e ≠ .world n) (hs : endStep sha256 P decompress conn b e c = some c') : Stays c c' := by
  have hset : ∀ {o : Option Connection.St} {l : List Mark}, o.map (c.setLine b · l) = some c' → Stays c c' := by
    intro o l ho
    obtain ⟨s, -, rfl⟩ := Option.map_eq_some_iff.mp ho
    exact stays_put _ (.refl _)
  have hwrite : ∀ {o : Option Connection.St} {bytes : Bytes}, o.map (c.write b · bytes) = some c' → Stays c c' := by
    intro o bytes ho
    obtain ⟨s, -, rfl⟩ := Option.map_eq_some_iff.mp ho
    exact stays_write _ _ _ _
  cases e with
  | ask q =>
    simp only [endStep] at hs
    exact hset hs
  | close reason =>
    simp only [endStep] at hs
    exact hset hs
  | readerFails reason =>
    simp only [endStep] at hs
    exact hset hs
  | post m =>
    simp only [endStep] at hs
    split at hs
    · exact hset hs
    · cases hs
  | own e =>
    simp only [endStep] at hs
    split at hs
    · exact hset hs
    · cases hs
  | write =>
    simp only [endStep] at hs
    split at hs
    · exact hwrite hs
    · cases hs
  | writeFails closes part =>
    simp only [endStep] at hs
    split at hs
    · exact hwrite hs
    · cases hs
  | extra m =>
    simp only [endStep] at hs
    split at hs
    · cases hs
      exact stays_write _ _ _ _
    · cases hs
  | extraFails closes m part =>
    simp only [endStep] at hs
    split at hs
    · exact hwrite hs
    · cases hs
  | read =>
    simp only [endStep] at hs
    split at hs
    · split at hs
      · exact stays_handleItem hs
      · cases hs
    · cases hs
  | serve i =>
    simp only [endStep] at hs
    split at hs
    · rename_i q o k answered hx
      cases hs
      obtain ⟨t, h₁, h₂, -, -, hserves, -⟩ := h.serving b i _ hx
      exact stays_serveStep hserves.1.reading
    · cases hs
  | world n => exact absurd rfl (hnot n)

end Frame

/-! ## The run of the task -/

section Mirrors

variable {α : Type} {sha256 : Bytes → Bytes} {P : Prost ItemBody} {decompress : Bytes → Option Bytes} {conn : Bool → Conn}
  {a : Bool} {node : Bool → Node} {p : BepProg α}

/-- What is left of the task, and of its run with the pair. -/
def Turn.left (c : Ends) (a : Bool) : Turn α → BepProg α → Prop
  | .running q, q' => q' = q
  | .calling t r k, q' => (a, .asked t r) ∈ c.history ∧ q' = .ask (.sys (.submitRequest r)) k
  | .closing _ k, q' => q' = k ()

theorem Turn.left_mono {c c' : Ends} (h : Stays c c') {t : Turn α} {q : BepProg α} (ht : t.left c a q) : t.left c' a q := by
  cases t with
  | running q' => exact ht
  | calling t r k => exact ⟨h.1.subset ht.1, ht.2⟩
  | closing t k => exact ht

variable (sha256 conn a node p) in
/-- The run with the pair has got to where the task is. -/
def Level (c : Ends) (t : Turn α) : Prop :=
  ∃ (pr : Pair) (q : BepProg α), t.left c a q ∧ Quiet pr.here (c.side a).node ∧ Says (node !a) pr.there ∧
    run (pairDo sha256 (conn !a)) p ⟨node a, node !a⟩ = run (pairDo sha256 (conn !a)) q pr

variable (sha256 P decompress conn a node p) in
/-- The other node answered as it does at once, and the task is level with the pair, or an
    operation of it panicked. -/
def Mirrors (s : Session α) : Prop :=
  (∃ ms, Across (stillTerms sha256 conn (!a) (node !a)) P decompress ms s.ends) ∧
    (s.turn = .running .panic ∨ Level sha256 conn a node p s.ends s.turn)

theorem Level.stays {c c' : Ends} {t : Turn α} (h : Level sha256 conn a node p c t) (hc : Stays c c') :
    Level sha256 conn a node p c' t := by
  obtain ⟨pr, q, hleft, halike, hsays, hrun⟩ := h
  exact ⟨pr, q, Turn.left_mono hc hleft, halike.trans (hc.2 a), hsays, hrun⟩

theorem mirrors_init : Mirrors sha256 P decompress conn a node p ⟨Ends.init node, .running p⟩ := by
  refine ⟨⟨_, across_init fun b hb => ?_⟩, Or.inr ⟨⟨node a, node !a⟩, p, rfl, ?_, .refl _, rfl⟩⟩
  · subst hb
    exact .refl _
  · exact ⟨_, _, rfl, fun h => h⟩

/-- An operation that waits for nothing happens at once on the node. -/
theorem turn_world {c : Ends} {o : Op} {k : o.Ans → BepProg α} (hreq : ∀ q, o ≠ .sys (.submitRequest q))
    (hclose : ∀ reason, o ≠ .sys (.closeReason reason)) (hpost : ∀ m, o ≠ .sys (.submitMessage m)) :
    turn c a o k = (.world (nodeDo (c.side a).node o).1, .running ((nodeDo (c.side a).node o).2.elim .panic k)) := by
  cases o with
  | db o => rfl
  | sys o =>
    cases o with
    | submitRequest q => exact absurd rfl (hreq q)
    | closeReason reason => exact absurd rfl (hclose reason)
    | submitMessage m => exact absurd rfl (hpost m)
    | _ => rfl

variable (sha256) in
theorem pairDo_here {o : Op} (hreq : ∀ q, o ≠ .sys (.submitRequest q)) (c : Conn) (pr : Pair) :
    pairDo sha256 c pr o = (⟨(nodeDo pr.here o).1, pr.there⟩, (nodeDo pr.here o).2) := by
  cases o with
  | db o => rfl
  | sys o =>
    cases o with
    | submitRequest q => exact absurd rfl (hreq q)
    | _ => rfl

/-- The task does an operation. -/
theorem mirrors_task {c c' : Ends} {o : Op} {k : o.Ans → BepProg α}
    (h : Mirrors sha256 P decompress conn a node p ⟨c, .running (.ask o k)⟩)
    (hproper : Proper P (a, (turn c a o k).1) c)
    (hs : endStep sha256 P decompress conn a (turn c a o k).1 c = some c') :
    Mirrors sha256 P decompress conn a node p ⟨c', (turn c a o k).2⟩ := by
  obtain ⟨⟨ms, hacross⟩, hlevel⟩ := h
  obtain ⟨pr, q, rfl, halike, hsays, hrun⟩ := hlevel.resolve_left (by simp)
  refine ⟨across_step hacross met_still hproper.crosses hproper.fresh (fun n _ hb => absurd hb.symm (Bool.not_ne_self a)) hs, ?_⟩
  by_cases hreq : ∃ q, o = .sys (.submitRequest q)
  · -- the request is on its way
    obtain ⟨q, rfl⟩ := hreq
    have hstays := endStep_frame hacross (fun _ he => by cases he) hs
    simp only [turn, endStep] at hs
    obtain ⟨s, -, rfl⟩ := Option.map_eq_some_iff.mp hs
    exact Or.inr ⟨pr, _, ⟨by simp [Ends.setLine], rfl⟩, halike.trans (hstays.2 a), hsays, hrun⟩
  · have hpair := pairDo_here sha256 (not_exists.mp hreq) (conn !a) pr
    by_cases hwaits : (∃ reason, o = .sys (.closeReason reason)) ∨ ∃ m, o = .sys (.submitMessage m)
    · -- what is sent leaves the nodes as they are
      rcases hwaits with ⟨reason, rfl⟩ | ⟨m, rfl⟩
      · have hstays := endStep_frame hacross (fun _ he => by cases he) hs
        exact Or.inr ⟨pr, _, rfl, halike.trans (hstays.2 a), hsays, hrun.trans (run_ask_some hpair)⟩
      · have hstays := endStep_frame hacross (fun _ he => by cases he) hs
        obtain ⟨ms', poisoned, hhere, hpoison⟩ := halike.trans (hstays.2 a)
        exact Or.inr ⟨⟨{ pr.here with sent := pr.here.sent ++ [m] }, pr.there⟩, _, rfl, ⟨ms', poisoned, hhere, hpoison⟩, hsays,
          hrun.trans (run_ask_some hpair)⟩
    · obtain ⟨hclose, hpost⟩ := not_or.mp hwaits
      rw [turn_world (not_exists.mp hreq) (not_exists.mp hclose) (not_exists.mp hpost)] at hs ⊢
      cases hs
      cases hr : (nodeDo (c.side a).node o).2 with
      | none => exact Or.inl rfl
      | some r =>
        obtain ⟨hanswer, hnext⟩ := alike_nodeDo halike (not_exists.mp hreq) hr
        rw [hanswer] at hpair
        refine Or.inr ⟨⟨(nodeDo pr.here o).1, pr.there⟩, k r, rfl, ?_, hsays, hrun.trans (run_ask_some hpair)⟩
        rw [Ends.put_self]
        exact hnext

/-- The task goes on after the response to its request. -/
theorem mirrors_reply {c : Ends} {t : Nat} {q : Request} {k : Except PeerCommandError PeerRequestResponse → BepProg α}
    {r : Response}
    (h : Mirrors sha256 P decompress conn a node p ⟨c, .calling t q k⟩)
    (hcell : (c.line a).cells[t]? = some (.sent (.response r))) :
    Mirrors sha256 P decompress conn a node p ⟨c, .running (k (.ok (.response r)))⟩ := by
  obtain ⟨⟨ms, hacross⟩, hlevel⟩ := h
  obtain ⟨pr, _, ⟨hasked, rfl⟩, ⟨ms', poisoned, hhere, hpoison⟩, hsays, hrun⟩ := hlevel.resolve_left (by simp)
  obtain ⟨hreply, hspoken⟩ := resumed_reply hacross hasked hcell hsays
  obtain ⟨next, hnext⟩ : ∃ next : Pair, next = ⟨{ pr.here with sent := pr.here.sent ++ [.request q] },
    (run nodeDo (handleRequest sha256 (conn !a) q) pr.there).1⟩ := ⟨_, rfl⟩
  have hpair : pairDo sha256 (conn !a) pr (.sys (.submitRequest q)) = (next, some (.ok (.response r))) := by
    simp only [pairDo, hreply, hnext]
  have hleft : (Turn.running (k (.ok (.response r)))).left c a (k (.ok (.response r))) := rfl
  refine ⟨⟨ms, hacross⟩, Or.inr ⟨next, _, hleft, ?_, ?_, hrun.trans (run_ask_some hpair)⟩⟩
  · rw [hnext]
    exact ⟨ms', poisoned, hhere, hpoison⟩
  · rw [hnext]
    exact hspoken

theorem mirrors_step {e : SessionEv} {s s' : Session α} (h : Mirrors sha256 P decompress conn a node p s) (hcalm : Calm P a e s)
    (hs : sessionStep sha256 P decompress conn a e s = some s') : Mirrors sha256 P decompress conn a node p s' := by
  obtain ⟨c, t⟩ := s
  cases e with
  | task =>
    cases t with
    | running q =>
      cases q with
      | ask o k =>
        obtain ⟨c', hend, rfl⟩ := Option.map_eq_some_iff.mp hs
        exact mirrors_task h (hcalm.proper _ rfl) hend
      | ret x => cases hs
      | panic => cases hs
    | calling t q k => cases hs
    | closing t k => cases hs
  | resume =>
    cases t with
    | running q => cases hs
    | calling t q k =>
      obtain ⟨r, hcell⟩ := hcalm.answered rfl t q k rfl
      simp only [sessionStep, hcell] at hs
      cases hs
      exact mirrors_reply h hcell
    | closing t k =>
      obtain ⟨hacross, hlevel⟩ := h
      obtain ⟨pr, q, rfl, hpair⟩ := hlevel.resolve_left (by simp)
      have hturn : s' = ⟨c, .running (k ())⟩ := by
        simp only [sessionStep] at hs
        split at hs
        · cases hs
        · cases hs; rfl
        · cases hs
      subst hturn
      exact ⟨hacross, Or.inr ⟨pr, _, rfl, hpair⟩⟩
  | other b e =>
    obtain ⟨c', hend, rfl⟩ := Option.map_eq_some_iff.mp hs
    obtain ⟨⟨ms, hacross⟩, hlevel⟩ := h
    have hproper := hcalm.proper (b, e) rfl
    have hworld : ∀ n, e ≠ .world n := fun n he => hcalm.alone b n (by rw [he])
    have hstays := endStep_frame hacross hworld hend
    exact ⟨across_step hacross met_still hproper.crosses hproper.fresh (fun n he => absurd he (hworld n)) hend,
      hlevel.imp id fun hl => hl.stays hstays⟩

theorem mirrors_run {es : List SessionEv} {s : Session α}
    (hcalm : Events.Along (sessionStep sha256 P decompress conn a) (Calm P a) es ⟨Ends.init node, .running p⟩)
    (hrun : Events.run (sessionStep sha256 P decompress conn a) es ⟨Ends.init node, .running p⟩ = some s) :
    Mirrors sha256 P decompress conn a node p s :=
  Events.along_inv mirrors_step hcalm mirrors_init hrun

theorem Mirrors.returned {s : Session α} {x : α} (h : Mirrors sha256 P decompress conn a node p s)
    (hret : s.turn = .running (.ret x)) :
    ∃ pr, run (pairDo sha256 (conn !a)) p ⟨node a, node !a⟩ = (pr, some x) ∧ Quiet pr.here (s.ends.side a).node ∧
      Says (node !a) pr.there ∧ Quiet (node !a) (s.ends.side !a).node := by
  obtain ⟨⟨ms, hacross⟩, hlevel⟩ := h
  rw [hret] at hlevel
  obtain ⟨pr, q, rfl, halike, hsays, hpair⟩ := hlevel.resolve_left (by simp)
  exact ⟨pr, hpair, halike, hsays, hacross.kept (!a) rfl⟩

/-- A task that returned has done what it does in the pair, and the peer has only answered. -/
theorem session_pair {es : List SessionEv} {s : Session α} {x : α}
    (hrun : Events.run (sessionStep sha256 P decompress conn a) es ⟨Ends.init node, .running p⟩ = some s)
    (hcalm : Events.Along (sessionStep sha256 P decompress conn a) (Calm P a) es ⟨Ends.init node, .running p⟩)
    (hret : s.turn = .running (.ret x)) :
    ∃ pr, run (pairDo sha256 (conn !a)) p ⟨node a, node !a⟩ = (pr, some x) ∧ Quiet pr.here (s.ends.side a).node ∧
      Says (node !a) pr.there ∧ Quiet (node !a) (s.ends.side !a).node :=
  (mirrors_run hcalm hrun).returned hret

end Mirrors

/-! ## A file that is fetched -/

/-- One has the tests' file, the other a record of it and nothing on disk. -/
def heirNodes (b : Bool) : Node :=
  if b then
    { (run nodeDo (generateIndex History.fileSha History.fileDir) secretNode).1 with
      disk := ⟨[([['d']], .dir), ([['s']], .file History.fileContents2)], by simp, by simp [FileName, Plain]⟩
      ids := [5] }
  else secretNode

def heirInit : Session (Except PeerCommandError Unit) :=
  ⟨Ends.init heirNodes, .running (getDirectory History.fileSha History.fileDir)⟩

/-- The folder is downloaded: the file is looked for, asked for, served and got, and written. -/
def heirEvents : List SessionEv :=
  [.other true (.own .spawn), .other false (.own .spawn)] ++ List.replicate 4 .task ++
    (oneCall 0).tail.map (fun e => .other e.1 e.2) ++ [.resume] ++ List.replicate 3 .task

def heirStep : SessionEv → Session (Except PeerCommandError Unit) → Option (Session (Except PeerCommandError Unit)) :=
  sessionStep History.fileSha callProst (fun _ => none) (fun _ => ⟨some [1]⟩) true

/-- What a step submits (`demand`), and whether it is calm else. -/
def seen (e : SessionEv) (s : Session (Except PeerCommandError Unit)) : Option (Option (Item ItemBody) × Nat) × Bool :=
  ((atEnds true s e).map (demand · s.ends), match e, s.turn with
    | .other _ (.world _), _ => false
    | .resume, .calling t _ _ =>
      match (s.ends.line true).cells[t]? with
      | some (.sent (.response _)) => true
      | _ => false
    | _, _ => true)

theorem calm_heirEvents : Events.Along heirStep (Calm callProst true) heirEvents heirInit := by
  have hall : ∀ o ∈ Events.outputs heirStep seen heirEvents heirInit, (∀ d ∈ o.1, (d.1 = none ∨
      d.1 = some ⟨.request, Access.fileRequest⟩ ∨ d.1 = some ⟨.response, fileResponse⟩) ∧ d.2 = 0) ∧ o.2 = true := by
    decide +kernel
  intro es e s hpre hrun
  obtain ⟨hdemand, hcalm⟩ := Events.along_outputs hall es e s hpre hrun
  refine ⟨fun x hx => proper_of_demand (hdemand _ (by simp [seen, hx])), fun b n he => ?_, fun he t q k hturn => ?_⟩
  · subst he
    cases hcalm
  · subst he
    simp only [seen, hturn] at hcalm
    split at hcalm
    · rename_i r hcell
      exact ⟨r, hcell⟩
    · cases hcalm

/-- It returns `Ok`. -/
theorem run_heirEvents : ∃ s, Events.run heirStep heirEvents heirInit = some s ∧ s.turn = .running (.ret (.ok ())) := by
  have hdone : (Events.run heirStep heirEvents heirInit).bind (·.turn.result) = some (.ok ()) := by decide +kernel
  obtain ⟨s, hrun, hresult⟩ := Option.bind_eq_some_iff.mp hdone
  exact ⟨s, hrun, Turn.of_result hresult⟩

theorem session_pair_file : ∃ s pr, Events.run heirStep heirEvents heirInit = some s ∧
    run (pairDo History.fileSha ⟨some [1]⟩) (getDirectory History.fileSha History.fileDir) ⟨heirNodes true, heirNodes false⟩ =
      (pr, some (.ok ())) ∧
    Quiet pr.here (s.ends.side true).node ∧ Says (heirNodes false) pr.there ∧
    Quiet (heirNodes false) (s.ends.side false).node := by
  obtain ⟨s, hrun, hret⟩ := run_heirEvents
  obtain ⟨pr, hpair⟩ := session_pair hrun calm_heirEvents hret
  exact ⟨s, pr, hrun, hpair⟩

/-! ## A download over the connection -/

/-- Where every recorded file of a folder is there or can be had, a download that returns has
    got them all, recorded them and touched nothing else. -/
theorem session_download {sha256 : Bytes → Bytes} {P : Prost ItemBody} {decompress : Bytes → Option Bytes} {conn : Bool → Conn}
    {a : Bool} {node : Bool → Node} {dir : SyncDirectory} {path there : Text} {q : List Text} {es : List SessionEv}
    {s : Session (Except PeerCommandError Unit)} {x : Except PeerCommandError Unit}
    (hrun : Events.run (sessionStep sha256 P decompress conn a) es ⟨Ends.init node, .running (getDirectory sha256 dir)⟩ = some s)
    (hcalm : Events.Along (sessionStep sha256 P decompress conn a) (Calm P a) es
      ⟨Ends.init node, .running (getDirectory sha256 dir)⟩)
    (hret : s.turn = .running (.ret x)) (hpath : dir.path = some path) (hsingle : (node a).store.Single dir.id)
    (hrooted : Rooted (node a) path q) (husable : (node a).poisoned = false)
    (hall : ∀ r ∈ (node a).store.records, r.folder = dir.id → FileName r.name ∧
      (present (node a) q r = true ∨ Obtainable sha256 (conn !a) path there q ⟨node a, node !a⟩ r)) :
    x = .ok () ∧
    (∀ r ∈ (node a).store.records, r.folder = dir.id → entry (s.ends.side a).node q r.name =
      if present (node a) q r then entry (node a) q r.name else ((node !a).readFile (push there r.name)).map .file) ∧
    (∀ l, (∀ r ∈ (node a).store.records, r.folder = dir.id → l ≠ q ++ [r.name]) →
      (s.ends.side a).node.disk.node l = (node a).disk.node l) ∧
    (s.ends.side a).node.store.records = (node a).store.records.map fun r =>
      if r.folder = dir.id ∧ present (node a) q r = false then settled r else r := by
  obtain ⟨pr, hpair, ⟨ms, poisoned, hhere, -⟩, -⟩ := (mirrors_run hcalm hrun).returned hret
  obtain ⟨pr', hpair', hfetched⟩ := run_getDirectory_pair (p := ⟨node a, node !a⟩) hpath hsingle hrooted husable hall
  rw [hpair'] at hpair
  obtain ⟨rfl, hok⟩ := Prod.mk.inj hpair
  have hmem : ∀ r, r ∈ (node a).store.records.filter (·.folder = dir.id) ↔ r ∈ (node a).store.records ∧ r.folder = dir.id := by
    intro r
    rw [List.mem_filter, decide_eq_true_iff]
  refine ⟨(Option.some.inj hok).symm, fun r hr hf => ?_, fun l hl => ?_, ?_⟩
  · have hentry : entry (s.ends.side a).node q r.name = entry pr'.here q r.name := by rw [hhere]; rfl
    rw [hentry]
    by_cases hp : present (node a) q r = true
    · rw [if_pos hp]
      exact hfetched.kept r ((hmem r).mpr ⟨hr, hf⟩) hp
    · rw [if_neg hp]
      exact hfetched.got r ((hmem r).mpr ⟨hr, hf⟩) (by simpa using hp)
  · have hnode : (s.ends.side a).node.disk.node l = pr'.here.disk.node l := by rw [hhere]
    rw [hnode]
    exact hfetched.beside l fun r hr => hl r ((hmem r).mp hr).1 ((hmem r).mp hr).2
  · have hrecords : (s.ends.side a).node.store.records = pr'.here.store.records := by rw [hhere]
    rw [hrecords, hfetched.records]
    refine List.map_congr_left fun r hr => ?_
    simp only [hmem r, hr, true_and]

theorem session_download_file : ∃ s, Events.run heirStep heirEvents heirInit = some s ∧
    entry (s.ends.side true).node [['d']] ['f'] = some (.file History.fileContents) := by
  obtain ⟨s, hrun, hret⟩ := run_heirEvents
  refine ⟨s, hrun, ?_⟩
  have hrecord : ∀ r ∈ (heirNodes true).store.records, r.folder = ['d'] ∧ r.name = ['f'] ∧
      r.blocks = [⟨0, 11, History.fileHash⟩] ∧ present (heirNodes true) [['d']] r = false := by
    decide +kernel
  have hone : ∀ r ∈ (heirNodes true).store.records, ∀ r' ∈ (heirNodes true).store.records, r.id = r'.id := by decide +kernel
  have hsingle : (heirNodes true).store.Single ['d'] := fun r hr r' hr' _ _ _ =>
    List.inj_on_of_nodup_map (heirNodes true).store.records_nodup hr hr' (hone r hr r' hr')
  have hrooted : Rooted (heirNodes true) ['/', 'd'] [['d']] := ⟨by decide +kernel, by decide +kernel⟩
  have hnamed : FileName ['f'] := by simp [FileName, Plain]
  have hgrants : Grants secretNode ⟨some [1]⟩ ['d'] ['/', 'd'] :=
    ⟨rfl, ⟨['d'], ['d'], some ['/', 'd']⟩, ⟨1, some [1], ['p']⟩, by decide +kernel, by decide +kernel, by decide +kernel, rfl⟩
  have hcovers : Transfer.Covers History.fileSha History.fileContents [⟨0, 11, History.fileHash⟩] :=
    Transfer.covers_of_tiles ⟨rfl, by decide, rfl⟩ (by decide +kernel)
  have hall : ∀ r ∈ (heirNodes true).store.records, r.folder = ['d'] → FileName r.name ∧
      (present (heirNodes true) [['d']] r = true ∨
        Obtainable History.fileSha ⟨some [1]⟩ ['/', 'd'] ['/', 'd'] [['d']] ⟨heirNodes true, heirNodes false⟩ r) := by
    intro r hr hf
    obtain ⟨-, hname, hblocks, -⟩ := hrecord r hr
    rw [hname]
    refine ⟨hnamed, Or.inr ⟨⟨History.fileContents, ?_, ?_⟩, by rw [hblocks]; simp⟩⟩
    · rw [hf, hname, hblocks]
      exact ⟨hgrants, by decide +kernel, hcovers, by decide⟩
    · rw [hname]
      exact ⟨hrooted, hnamed, by decide +kernel, rfl, by decide +kernel⟩
  obtain ⟨-, hentry, -⟩ := session_download hrun calm_heirEvents hret rfl hsingle hrooted rfl hall
  obtain ⟨r, hr⟩ : ∃ r, r ∈ (heirNodes true).store.records := by
    have hne : (heirNodes true).store.records ≠ [] := by decide +kernel
    exact List.exists_mem_of_ne_nil _ hne
  obtain ⟨hf, hname, -, habsent⟩ := hrecord r hr
  have hgot := hentry r hr hf
  rw [habsent, hname] at hgot
  rw [hgot]
  decide +kernel

end BepRs.Relay
