/-
  BepRs.Connection.Ends — the two ends of a connection, and the calls across it.

  Each end is a connection (`Connection.Requests`) of a node, with the bytes the peer wrote
  that its reader has not read, and the requests it is serving (`handle_request`, one
  operation at a time). What the writer of one end writes goes to the stream of the other;
  a write that fails leaves any part of the message there. The streams here are what comes
  after the Hello. Anything else may change a node at any time (`world`), and post, close,
  fail and cancel as it likes.

  Beside the ends stands what happened, in order (`Mark`): the requests that were asked, the
  requests the peer began to serve, and the operations it did for them, each with the node it
  did it on.
-/

import BepRs.Connection.Requests
import BepRs.Sync.Transfer
import BepRs.Wire.Stream

namespace BepRs.Connection

open BepRs.Lib BepRs.Lib.Path BepRs.Lib.Task BepRs.Lib.Oneshot BepRs.State BepRs.Sync BepRs.Wire

/-! ## The ends -/

/-- An operation, and its answer. -/
abbrev Did := (o : Op) × o.Ans

/-- A request with what is left of its `handle_request`. -/
structure Serving where
  request : Request
  left : BepProg Unit
  /-- A message was submitted for it. -/
  answered : Bool

structure End where
  line : St
  node : Node
  /-- What the peer wrote and the reader has not read. -/
  stream : Bytes
  serving : List Serving

inductive Mark where
  /-- `get_file` submitted this request; its call has this number. -/
  | asked (t : Nat) (q : Request)
  /-- The reader got a request and started `handle_request`. -/
  | began (i : Nat) (q : Request)
  /-- It did an operation, when the node was this one. -/
  | did (i : Nat) (n : Node) (d : Did)

structure Ends where
  side : Bool → End
  history : List (Bool × Mark)

def Ends.init (node : Bool → Node) : Ends := ⟨fun a => ⟨St.init, node a, [], []⟩, []⟩

namespace Ends

variable (c : Ends) (a : Bool)

def line : St := (c.side a).line

def put (x : End) (marks : List Mark) : Ends := ⟨Function.update c.side a x, c.history ++ marks.map (a, ·)⟩

def setLine (s : St) (marks : List Mark) : Ends := c.put a { c.side a with line := s } marks

/-- The connection of one end, and bytes for the other. -/
def write (s : St) (bytes : Bytes) : Ends where
  side i := if i = a then { c.side i with line := s } else { c.side i with stream := (c.side i).stream ++ bytes }
  history := c.history

@[simp] theorem put_self (x : End) (l : List Mark) : (c.put a x l).side a = x := Function.update_self _ _ _
@[simp] theorem put_other (x : End) (l : List Mark) : (c.put a x l).side (!a) = c.side (!a) :=
  Function.update_of_ne (Bool.not_ne_self a) _ _
@[simp] theorem line_put (x : End) (l : List Mark) : (c.put a x l).line a = x.line := congrArg End.line (c.put_self a x l)
@[simp] theorem line_put_other (x : End) (l : List Mark) : (c.put a x l).line (!a) = c.line (!a) :=
  congrArg End.line (c.put_other a x l)
@[simp] theorem history_put (x : End) (l : List Mark) : (c.put a x l).history = c.history ++ l.map (a, ·) := rfl

@[simp] theorem write_self (s : St) (bytes : Bytes) : (c.write a s bytes).side a = { c.side a with line := s } := if_pos rfl
@[simp] theorem write_other (s : St) (bytes : Bytes) :
    (c.write a s bytes).side (!a) = { c.side (!a) with stream := (c.side (!a)).stream ++ bytes } := if_neg (Bool.not_ne_self a)
@[simp] theorem line_write (s : St) (bytes : Bytes) : (c.write a s bytes).line a = s := congrArg End.line (c.write_self a s bytes)
@[simp] theorem line_write_other (s : St) (bytes : Bytes) : (c.write a s bytes).line (!a) = c.line (!a) := by
  unfold line
  rw [write_other]
@[simp] theorem history_write (s : St) (bytes : Bytes) : (c.write a s bytes).history = c.history := rfl

end Ends

/-! ## The steps -/

inductive EndEv where
  /-- `get_file` asks for a block. -/
  | ask (q : Request)
  /-- `close_reason`. -/
  | close (reason : Text)
  /-- `submit_message` of something that is neither a request nor a response. -/
  | post (m : Item ItemBody)
  /-- A step of the connection that submits, reads and writes nothing. -/
  | own (e : Ev)
  | write
  /-- The writer fails with its message, after this many bytes of it. -/
  | writeFails (closes : Bool) (part : Nat)
  /-- The ClusterConfig, and a Ping. -/
  | extra (m : Item ItemBody)
  | extraFails (closes : Bool) (m : Item ItemBody) (part : Nat)
  /-- The reader reads a message. -/
  | read
  | readerFails (reason : Text)
  /-- A `handle_request` does its next operation. -/
  | serve (i : Nat)
  /-- Everything else that changes the node. -/
  | world (n : Node)

/-- A step of `Requests` that is not one of the others above. -/
def Ev.own : Ev → Bool
  | .submit _ _ _ => false
  | .submitMessage _ => false
  | .receive _ => false
  | .readerFails _ => false
  | .write => false
  | .writeFails _ => false
  | _ => true

def plain (m : Item ItemBody) : Bool := m.1 ≠ .request ∧ m.1 ≠ .response

def itemOf : Message → Item ItemBody
  | .index m => ⟨.index, m⟩
  | .request r => ⟨.request, r⟩
  | .response r => ⟨.response, r⟩

section

variable (sha256 : Bytes → Bytes) (P : Prost ItemBody) (decompress : Bytes → Option Bytes) (conn : Bool → Conn)

/-- What the reader does with a message. -/
def handleItem (c : Ends) (a : Bool) (rest : Bytes) : Item ItemBody → Option Ends
  | ⟨.request, q⟩ =>
    let x := c.side a
    some (c.put a { x with stream := rest, serving := x.serving ++ [⟨q, handleRequest sha256 (conn a) q, false⟩] }
      [.began x.serving.length q])
  | ⟨.response, r⟩ => (step (.receive r) (c.line a)).map fun s => c.put a { c.side a with line := s, stream := rest } []
  | ⟨.close, _⟩ => (step .readerReturns (c.line a)).map fun s => c.put a { c.side a with line := s, stream := rest } []
  | _ => some (c.put a { c.side a with stream := rest } [])

/-- The message an operation of `handle_request` puts into the queue. -/
def posting : Op → Option (Item ItemBody)
  | .sys (.submitMessage m) => some (itemOf m)
  | _ => none

def serveStep (c : Ends) (a : Bool) (i : Nat) (q : Request) (answered : Bool) (o : Op) (k : o.Ans → BepProg Unit) : Ends :=
  let x := c.side a
  match nodeDo x.node o with
  | (n, none) => c.put a { x with node := n, serving := x.serving.set i ⟨q, .panic, answered⟩ } []
  | (n, some r) =>
    let line := { x.line with sending := x.line.sending ++ (posting o).toList.map fun m => (encodeForBep P m, none) }
    c.put a { x with line := line, node := n, serving := x.serving.set i ⟨q, k r, answered || (posting o).isSome⟩ }
      [.did i x.node ⟨o, r⟩]

def endStep (a : Bool) : EndEv → Ends → Option Ends
  | .ask q, c =>
    (step (.submit q.id .whenResponse (encodeForBep P ⟨.request, q⟩)) (c.line a)).map fun s =>
      c.setLine a s [.asked (c.line a).cells.length q]
  | .close reason, c => (step (.submit (-1) .whenSent (encodeForBep P ⟨.close, reason⟩)) (c.line a)).map (c.setLine a · [])
  | .post m, c => if plain m then (step (.submitMessage (encodeForBep P m)) (c.line a)).map (c.setLine a · []) else none
  | .own e, c => if e.own then (step e (c.line a)).map (c.setLine a · []) else none
  | .write, c =>
    match (c.line a).writing with
    | some e => (step .write (c.line a)).map (c.write a · e.1)
    | none => none
  | .writeFails closes part, c =>
    match (c.line a).writing with
    | some e => (step (.writeFails closes) (c.line a)).map (c.write a · (e.1.take part))
    | none => none
  | .extra m, c =>
    if plain m = true ∧ (c.line a).writer = .running ∧ (c.line a).writing = none then
      some (c.write a (c.line a) (encodeForBep P m))
    else none
  | .extraFails closes m part, c =>
    if plain m = true ∧ (c.line a).writing = none then
      (step (.writeFails closes) (c.line a)).map (c.write a · ((encodeForBep P m).take part))
    else none
  | .read, c =>
    if (c.line a).reader = .running then
      match readMessage P decompress (c.side a).stream with
      | .done m rest => handleItem sha256 conn c a rest m
      | _ => none
    else none
  | .readerFails reason, c => (step (.readerFails (encodeForBep P ⟨.close, reason⟩)) (c.line a)).map (c.setLine a · [])
  | .serve i, c =>
    match (c.side a).serving[i]? with
    | some ⟨q, .ask o k, answered⟩ => some (serveStep P c a i q answered o k)
    | _ => none
  | .world n, c => some (c.put a { c.side a with node := n } [])

/-- The states of the two ends, whatever the order of their steps. -/
abbrev endsRun : List (Bool × EndEv) → Ends → Option Ends :=
  Events.run fun e => endStep sha256 P decompress conn e.1 e.2

end

/-- The message a step submits. -/
def outgoing (c : Ends) (a : Bool) : EndEv → Option (Item ItemBody)
  | .ask q => some ⟨.request, q⟩
  | .close reason => some ⟨.close, reason⟩
  | .post m => some m
  | .extra m => some m
  | .extraFails _ m _ => some m
  | .readerFails reason => some ⟨.close, reason⟩
  | .serve i =>
    match (c.side a).serving[i]? with
    | some ⟨_, .ask o _, _⟩ => posting o
    | _ => none
  | _ => none

end BepRs.Connection
