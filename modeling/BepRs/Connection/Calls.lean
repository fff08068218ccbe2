/-
  BepRs.Connection.Calls — what a call across the connection got.

  Whatever the two ends do (`Connection.Ends`), as long as nothing is asked under the id of a
  call that is still owed a response: `get_file` asks for all blocks of a file under one id,
  but for the next only when it has the last. `Backed` says what `handle_request` does before
  it answers with data.
  - `served_of_resumed`: a call that resumed with a response was served by the peer.
  - `call_served`: after it was made and before it resumed; and data without an error is what
    the peer's `read_block` gave at a moment in between, of a folder that was found shared
    with the caller in between.
-/

import BepRs.Access.Absent
import BepRs.Connection.Across

namespace BepRs.Connection

open BepRs.Lib BepRs.Lib.Path BepRs.Lib.Task BepRs.Lib.Oneshot BepRs.State BepRs.Sync BepRs.Wire

section

variable {T : Terms} {sha256 : Bytes → Bytes} {P : Prost ItemBody} {decompress : Bytes → Option Bytes} {conn : Bool → Conn}

/-- What the ends have to do their part for: what is sent can be encoded, and nothing is asked
    under the id of a call that is owed a response. -/
structure Proper (P : Prost ItemBody) (e : Bool × EndEv) (c : Ends) : Prop where
  crosses : ∀ m ∈ outgoing c e.1 e.2, Crosses P m
  fresh : ∀ q, e.2 = .ask q → (c.line e.1).owed q.id = 0

theorem across_run {node : Bool → Node} {es : List (Bool × EndEv)} {c : Ends} (hmet : T.Met sha256 conn)
    (hkeeps : ∀ b, T.keeps b (node b)) (hworld : ∀ b n, (b, .world n) ∈ es → T.keeps b n)
    (hproper : Events.Along (fun e => endStep sha256 P decompress conn e.1 e.2) (Proper P) es (Ends.init node))
    (hrun : endsRun sha256 P decompress conn es (Ends.init node) = some c) : ∃ ms, Across T P decompress ms c := by
  have halong : Events.Along (fun e => endStep sha256 P decompress conn e.1 e.2)
      (fun e c => Proper P e c ∧ ∀ n, e.2 = .world n → T.keeps e.1 n) es (Ends.init node) := by
    intro es' e s' hpre hrun'
    refine ⟨hproper es' e s' hpre hrun', fun n hn => hworld e.1 n (hpre.subset ?_)⟩
    rw [← hn]
    simp
  refine Events.along_inv (I := fun c => ∃ ms, Across T P decompress ms c) ?_ halong ⟨_, across_init hkeeps⟩ hrun
  rintro e c c' ⟨ms, hc⟩ ⟨hp, hw⟩ hs
  exact across_step hc hmet hp.crosses hp.fresh hw hs

theorem served_of_resumed {c : Ends} {ms : Bool → List (Item ItemBody)} (h : Across T P decompress ms c) {a : Bool} {t : Nat}
    {r : Response} (hresumed : (c.line a).cells[t]? = some (.sent (.response r))) : ∃ q, Served T c.history (!a) t q r := by
  obtain ⟨⟨lk, hlk, rfl, hhit, -⟩, -⟩ := (h.tidy a).books.answered t r hresumed
  exact h.answered a lk hlk t hhit

end

/-! ## Data that is served -/

/-- What was done for a response that has data and no error: the folder was found, and found
    shared with the connection's peer, and the data read. -/
def Backed (sha256 : Bytes → Bytes) (conn : Conn) (q : Request) (r : Response) (ds : List Did) : Prop :=
  ∃ (dir : SyncDirectory) (peers : List Peer) (peer : Peer) (path : Text),
    dir.id = q.folder ∧ dir.path = some path ∧ peer ∈ peers ∧ conn.peerId = some (peer.deviceId.getD []) ∧
      (q.hash ≠ [] → sha256 r.data = q.hash) ∧
      List.Sublist [⟨.db (.getSyncDirectory q.folder), some dir⟩, ⟨.db .getPeers, peers⟩,
        ⟨.db (.isDirectorySynced dir.id peer.id), true⟩,
        ⟨.sys (.readBlock (push path q.name) (asUsize q.offset) (asUsize q.size)), some r.data⟩] ds

def Replies : (o : Op) → o.Ans → Prop
  | .db (.getSyncDirectory folder), x => ∀ dir : SyncDirectory, x = some dir → dir.id = folder
  | _, _ => True

theorem replies_nodeDo {n : Node} {o : Op} {r : o.Ans} (h : (nodeDo n o).2 = some r) : Replies o r := by
  cases o with
  | sys o => trivial
  | db o =>
    cases o with
    | getSyncDirectory folder =>
      intro dir hdir
      have hget : some (n.store.getSyncDirectory folder) = some r := h
      rw [hdir] at hget
      exact getSyncDirectory_id (Option.some.inj hget)
    | _ => trivial

/-- Nothing is known of the nodes. -/
def openTerms (sha256 : Bytes → Bytes) (conn : Bool → Conn) : Terms where
  keeps _ _ := True
  replies _ := Replies
  backs b q r ds := r.code = ErrorCode.noError.asI32 → Backed sha256 (conn b) q r ds

theorem wp_getPeer {conn : Conn} {ds : List Did} {G : List Did → Op → Prop} (hG : ∀ ds, G ds (.db .getPeers))
    (hclose : ∀ ds reason, G ds (.sys (.closeReason reason))) :
    Wp (S := bep) (Trail Replies) G (fun x ds' => ∀ peer, x = .ok peer → conn.peerId = some (peer.deviceId.getD []) ∧
      ∃ peers, peer ∈ peers ∧ ds' = ds ++ [⟨.db .getPeers, peers⟩]) (getPeer conn) ds := by
  unfold getPeer
  refine wp_call_bind (hG _) ?_
  rintro _ peers ⟨rfl, -⟩
  cases hid : conn.peerId with
  | none => intro peer h; cases h
  | some peerId =>
    cases hfind : peers.find? fun peer => peerId = peer.deviceId.getD [] with
    | none =>
      simp only [hfind]
      refine wp_call_bind (hclose _ _) fun _ _ _ peer h => ?_
      cases h
    | some peer =>
      simp only [hfind]
      intro peer' h
      cases h
      have heq := List.find?_some hfind
      exact ⟨by simpa using heq, peers, List.mem_of_find?_eq_some hfind, rfl⟩

/-- `handle_request` answers the request it got, and without an error only what it read. -/
theorem serves_open (sha256 : Bytes → Bytes) (conn : Bool → Conn) (b : Bool) (q : Request) :
    Serves (openTerms sha256 conn) b q (handleRequest sha256 (conn b) q) [] := by
  have hrespond : ∀ (ds : List Did) (data : Bytes) (code : ErrorCode), (∀ d ∈ ds, posting d.1 = none) →
      (code = .noError → Backed sha256 (conn b) q ⟨q.id, data, code.asI32⟩ ds) →
      Serves (openTerms sha256 conn) b q (respond q data code) ds := by
    intro ds data code hfirst hbacked
    refine ⟨⟨hfirst, _, rfl, rfl, fun hcode => ?_⟩, fun _ _ _ => trivial⟩
    exact hbacked (by cases code <;> first | rfl | cases hcode)
  unfold handleRequest
  refine wp_call_bind trivial ?_
  rintro _ x ⟨rfl, hdir⟩
  refine wp_bind (fun y ds hy => ?_) (wp_getPeer (fun _ => trivial) fun _ _ => trivial)
  cases y with
  | error e => trivial
  | ok peer =>
    obtain ⟨hid, peers, hpeer, rfl⟩ := hy peer rfl
    cases x with
    | none => exact hrespond _ _ _ (by simp [posting]) fun h => by cases h
    | some dir =>
      refine wp_call_bind trivial ?_
      rintro _ synced ⟨rfl, -⟩
      by_cases hsynced : synced = false
      · rw [if_pos hsynced]
        exact hrespond _ _ _ (by simp [posting]) fun h => by cases h
      · rw [if_neg hsynced]
        rw [Bool.not_eq_false] at hsynced
        subst hsynced
        cases hpath : dir.path with
        | none => exact hrespond _ _ _ (by simp [posting]) fun h => by cases h
        | some path =>
          refine wp_call_bind trivial ?_
          rintro _ data ⟨rfl, -⟩
          cases data with
          | none => exact hrespond _ _ _ (by simp [posting]) fun h => by cases h
          | some data =>
            simp only
            split
            · exact hrespond _ _ _ (by simp [posting]) fun h => by cases h
            · rename_i hhash
              refine hrespond _ _ _ (by simp [posting]) fun _ =>
                ⟨dir, peers, peer, path, hdir dir rfl, hpath, hpeer, hid, fun hne => ?_, ?_⟩
              · by_contra hdata
                exact hhash ⟨hne, hdata⟩
              · exact List.Sublist.refl _

theorem met_open (sha256 : Bytes → Bytes) (conn : Bool → Conn) : (openTerms sha256 conn).Met sha256 conn :=
  ⟨fun _ _ _ _ _ => ⟨trivial, fun _ => replies_nodeDo⟩, serves_open sha256 conn⟩

/-- Whatever both ends do in whatever order: a call that resumed with a response was served by
    the peer. The peer got its request after the call was made, and submitted the response
    after that; in between it did what `Backed` says if the response is data without an error. -/
theorem call_served {sha256 : Bytes → Bytes} {P : Prost ItemBody} {decompress : Bytes → Option Bytes} {conn : Bool → Conn}
    {node : Bool → Node} {es : List (Bool × EndEv)} {c : Ends}
    (hrun : endsRun sha256 P decompress conn es (Ends.init node) = some c)
    (hproper : Events.Along (fun e => endStep sha256 P decompress conn e.1 e.2) (Proper P) es (Ends.init node)) {a : Bool}
    {t : Nat} {r : Response} (hresumed : (c.line a).cells[t]? = some (.sent (.response r))) :
    ∃ q i marks ds n, r.id = q.id ∧
      List.Sublist ([(a, .asked t q), (!a, .began i q)] ++ marks ++ [(!a, .did i n ⟨.sys (.submitMessage (.response r)), ()⟩)])
        c.history ∧
      List.Forall₂ (Doing (!a) i) marks ds ∧ (r.code = ErrorCode.noError.asI32 → Backed sha256 (conn !a) q r ds) := by
  obtain ⟨ms, h⟩ := across_run (met_open sha256 conn) (fun _ => trivial) (fun _ _ _ => trivial) hproper hrun
  obtain ⟨q, hid, i, marks, ds, n, hsub, hdoing, hbacked⟩ := served_of_resumed h hresumed
  rw [Bool.not_not] at hsub
  exact ⟨q, i, marks, ds, n, hid, hsub, hdoing, hbacked⟩

instance : (t : MessageType) → DecidableEq (ItemBody t)
  | .clusterConfig => inferInstanceAs (DecidableEq ClusterConfig)
  | .index => inferInstanceAs (DecidableEq Index)
  | .indexUpdate => inferInstanceAs (DecidableEq Index)
  | .request => inferInstanceAs (DecidableEq Request)
  | .response => inferInstanceAs (DecidableEq Response)
  | .downloadProgress => inferInstanceAs (DecidableEq Unit)
  | .ping => inferInstanceAs (DecidableEq Unit)
  | .close => inferInstanceAs (DecidableEq Text)

/-- The response to the tests' request. -/
def fileResponse : Response := ⟨5, History.fileContents, ErrorCode.noError.asI32⟩

/-- Protobuf for the request and the response. -/
def callProst : Prost ItemBody where
  header := .ofTable [(plainHeader .request, [8, 3]), (plainHeader .response, [8, 4])]
  hello := .ofTable []
  body
    | .clusterConfig => .ofTable []
    | .index => .ofTable []
    | .indexUpdate => .ofTable []
    | .request => .ofTable [(Access.fileRequest, [8, 5])]
    | .response => .ofTable [(fileResponse, [8, 5, 18, 11] ++ History.fileContents)]
    | .downloadProgress => .ofTable []
    | .ping => .ofTable []
    | .close => .ofTable []

/-- The file is asked for, served and got. -/
def oneCall (i : Nat) : List (Bool × EndEv) :=
  [(true, .ask Access.fileRequest), (true, .own (.sendDone 0)), (true, .own .take), (true, .write), (false, .read)] ++
    List.replicate 5 (false, .serve i) ++
    [(false, .own (.sendDone 0)), (false, .own .take), (false, .write), (true, .read), (true, .own (.handle i))]

def callEvents : List (Bool × EndEv) := [(true, .own .spawn), (false, .own .spawn)] ++ oneCall 0 ++ oneCall 1

/-- Where they both start; each takes the other for its one peer. -/
def callInit : Ends := Ends.init fun _ => Access.secretNode

def callRun : Option Ends :=
  endsRun History.fileSha callProst (fun _ => none) (fun _ => ⟨some [1]⟩) callEvents callInit

def demand (e : Bool × EndEv) (c : Ends) : Option (Item ItemBody) × Nat :=
  (outgoing c e.1 e.2, match e.2 with
    | .ask q => (c.line e.1).owed q.id
    | _ => 0)

/-- The tests' request and its response can be encoded. -/
theorem proper_of_demand {e : Bool × EndEv} {c : Ends} (h : ((demand e c).1 = none ∨
    (demand e c).1 = some ⟨.request, Access.fileRequest⟩ ∨ (demand e c).1 = some ⟨.response, fileResponse⟩) ∧
    (demand e c).2 = 0) :
    Proper callProst e c := by
  obtain ⟨hsent, howed⟩ := h
  refine ⟨fun m hm => ?_, fun q hq => ?_⟩
  · rcases hsent with hnone | hreq | hresp
    · rw [show outgoing c e.1 e.2 = none from hnone] at hm; cases hm
    · rw [show outgoing c e.1 e.2 = _ from hreq] at hm
      cases hm
      exact ⟨rfl, ⟨by decide, by decide, by decide⟩, ⟨by decide, by decide, by decide⟩⟩
    · rw [show outgoing c e.1 e.2 = _ from hresp] at hm
      cases hm
      exact ⟨rfl, ⟨by decide, by decide, by decide⟩, ⟨by decide, by decide, by decide⟩⟩
  · unfold demand at howed
    rw [hq] at howed
    exact howed

theorem proper_callEvents :
    Events.Along (fun e => endStep History.fileSha callProst (fun _ => none) (fun _ => ⟨some [1]⟩) e.1 e.2)
      (Proper callProst) callEvents callInit := by
  have hall : ∀ o ∈ Events.outputs
      (fun e => endStep History.fileSha callProst (fun _ => none) (fun _ => ⟨some [1]⟩) e.1 e.2) demand
      callEvents callInit, (o.1 = none ∨ o.1 = some ⟨.request, Access.fileRequest⟩ ∨ o.1 = some ⟨.response, fileResponse⟩) ∧
        o.2 = 0 := by
    decide +kernel
  exact fun es e c hpre hrun => proper_of_demand (Events.along_outputs hall es e c hpre hrun)

theorem call_served_file : ∃ c, callRun = some c ∧ (c.line true).cells = List.replicate 2 (.sent (.response fileResponse)) ∧
    ∃ q i marks ds n, fileResponse.id = q.id ∧
      List.Sublist ([(true, .asked 1 q), (false, .began i q)] ++ marks ++
        [(false, .did i n ⟨.sys (.submitMessage (.response fileResponse)), ()⟩)]) c.history ∧
      List.Forall₂ (Doing false i) marks ds ∧
        (fileResponse.code = ErrorCode.noError.asI32 → Backed History.fileSha ⟨some [1]⟩ q fileResponse ds) := by
  have hcells : callRun.map (fun c => (c.line true).cells) = some (List.replicate 2 (.sent (.response fileResponse))) := by
    decide +kernel
  obtain ⟨c, hrun, hcells⟩ := Option.map_eq_some_iff.mp hcells
  refine ⟨c, hrun, hcells, ?_⟩
  exact call_served hrun proper_callEvents (by rw [hcells]; rfl)

end BepRs.Connection
