/-
  BepRs.Connection.Requests — one connection: the calls that wait on it, and the tasks that
  answer them (`src/peer_connection/mod.rs`, `handlers.rs`).

  `submit_request` makes a one-shot channel for its answer. The sender goes into `requests`
  under the call's id, or with the message into the queue when the caller waits for the
  message to be sent. `handle_response` takes a listener out and answers it, the writer
  answers the senders of the messages it writes, `drain_requests` and `close_receiver`
  answer what is left. An id may be in use already: the new listener takes the place of the
  old one, whose sender is dropped.

  The state is one connection (`St`), a step one stretch of a task that no other task can
  interrupt (`Ev`, `step`): the locks are held within a stretch only. A call that was made
  stays until it is answered: nobody drops a pending one. Beside the state stand the calls
  that were made, the responses that were received and the lookups `handle_response` made.

  The books (`Books`) hold in every reachable state: the senders in `requests`, in the queue
  and on their way into it are different, and nobody has answered any of them.
  - `correlation`: what follows for the waiting calls.
-/

import BepRs.Lib.Events
import BepRs.Lib.Oneshot
import BepRs.Sync.Ops

namespace BepRs.Connection

open BepRs.Lib BepRs.Lib.Oneshot BepRs.State BepRs.Sync

inductive PeerRequestResponseType where
  | none
  | whenReady
  | whenSent
  | whenResponse
  | whenClosed
  deriving DecidableEq, Repr

structure PeerRequestListener where
  id : Int
  responseType : PeerRequestResponseType
  /-- The sender of its channel. -/
  sender : Nat
  deriving DecidableEq, Repr

/-- A call that waits for an answer; its number is that of its channel. -/
structure Call where
  id : Int
  responseType : PeerRequestResponseType
  deriving DecidableEq, Repr

/-- `handle_response` looked for the listener of a response: the number of the response,
    how many calls there were by then, and the channel it answered. -/
structure Lookup where
  number : Nat
  response : Response
  calls : Nat
  hit : Option Nat
  deriving DecidableEq, Repr

inductive TaskState where
  | unborn
  | running
  /-- The reader failed and waits for its Close to be sent. -/
  | closing (t : Nat)
  | ended
  deriving DecidableEq, Repr

/-- Where the connection's own task is: before it starts the reader and the writer, waiting
    for them, back from `handle_connection`, at its end. -/
inductive Phase where
  | establishing
  | waiting
  | returned
  | finished
  deriving DecidableEq, Repr

/-- A message on its way, with the sender to use once it is sent. -/
abbrev Entry := Bytes × Option Nat

structure St where
  cells : Cells PeerRequestResponse
  calls : List Call
  requests : List PeerRequestListener
  /-- The messages whose `tx.send` is not done. -/
  sending : List Entry
  queue : List Entry
  /-- The message the writer took and has not written. -/
  writing : Option Entry
  /-- The receiver of the queue is closed or gone. -/
  closed : Bool
  received : List Response
  lookups : List Lookup
  cancelled : Bool
  reader : TaskState
  writer : TaskState
  phase : Phase
  /-- The task tracker was closed. -/
  trackerClosed : Bool
  /-- An assertion failed. -/
  failed : Bool
  deriving DecidableEq, Repr

def St.init : St := ⟨[], [], [], [], [], none, false, [], [], false, .unborn, .unborn, .establishing, false, false⟩

def senders (entries : List Entry) : List Nat := entries.filterMap Prod.snd

namespace St

variable (s : St)

/-! ## The functions -/

/-- A new channel, and the call that waits on it. -/
def open_ (id : Int) (responseType : PeerRequestResponseType) : St :=
  { s with cells := s.cells ++ [.pending], calls := s.calls ++ [⟨id, responseType⟩] }

/-- `HashMap::insert`: the listener that was there is dropped with its sender. -/
def insert (l : PeerRequestListener) : St :=
  { s with
    requests := s.requests.filter (·.id ≠ l.id) ++ [l]
    cells := dropAll ((s.requests.filter (·.id = l.id)).map PeerRequestListener.sender) s.cells }

/-- `submit_request` up to its `tx.send`; `none` is its assertion. -/
def submitRequest (id : Int) (responseType : PeerRequestResponseType) (msg : Bytes) : Option St :=
  let t := s.cells.length
  if responseType = .none then none
  else if responseType = .whenSent then
    some { s.open_ id responseType with sending := s.sending ++ [(msg, some t)] }
  else some { (s.open_ id responseType).insert ⟨id, responseType, t⟩ with sending := s.sending ++ [(msg, none)] }

/-- `tx.send`: the queue holds 100 messages; without a receiver the message is dropped, and
    with it the sender. -/
def sendDone (i : Nat) : Option St :=
  match s.sending[i]? with
  | none => none
  | some e =>
    if s.closed then some { s with sending := s.sending.eraseIdx i, cells := dropAll e.2.toList s.cells }
    else if s.queue.length < 100 then some { s with sending := s.sending.eraseIdx i, queue := s.queue ++ [e] }
    else none

/-- `handle_response`; `none` is one of its assertions. -/
def handleResponse (number : Nat) (response : Response) : St × Option (Except PeerConnectionError Unit) :=
  match s.requests.find? (·.id = response.id) with
  | none =>
    ({ s with lookups := s.lookups ++ [⟨number, response, s.calls.length, none⟩] },
      some (.error (.other "Received unsolicited response")))
  | some l =>
    let s' : St :=
      { s with
        requests := s.requests.filter (·.id ≠ response.id)
        lookups := s.lookups ++ [⟨number, response, s.calls.length, some l.sender⟩] }
    if l.responseType ≠ .whenResponse then ({ s' with cells := drop s.cells l.sender }, none)
    else
      match send s.cells l.sender (.response response) with
      | some cells => ({ s' with cells := cells }, some (.ok ()))
      | none => (s', none)

/-- The loop of `drain_requests`; an assertion that fails drops the listeners that are left. -/
def drainListeners (cells : Cells PeerRequestResponse) : List PeerRequestListener → Cells PeerRequestResponse × Option Unit
  | [] => (cells, some ())
  | l :: ls =>
    match send cells l.sender .closed with
    | some cells => drainListeners cells ls
    | none => (dropAll (ls.map PeerRequestListener.sender) cells, none)

def drainRequests : St × Option Unit :=
  let r := drainListeners s.cells s.requests
  ({ s with requests := [], cells := r.1 }, r.2)

def closeReceiver : St :=
  { s with closed := true, queue := [], cells := trySendAll .closed (senders s.queue) s.cells }

/-- The receiver goes away with the messages in the queue. -/
def dropReceiver : St := { s with closed := true, queue := [], cells := dropAll (senders s.queue) s.cells }

/-- The message that was being written goes away. -/
def dropWriting : St := { s with writing := none, cells := dropAll (senders s.writing.toList) s.cells }

end St

/-! ## The steps -/

inductive Ev where
  /-- `get_file` asks for a response to its request, or `close_reason` for its Close to be
      sent: no other function calls `submit_request`. -/
  | submit (id : Int) (responseType : PeerRequestResponseType) (msg : Bytes)
  | submitMessage (msg : Bytes)
  | waitForReady
  | sendDone (i : Nat)
  | cancel
  /-- The reader got a Response and started `handle_response`. -/
  | receive (r : Response)
  | handle (number : Nat)
  /-- The reader returns after a Close, or because the token was cancelled. -/
  | readerReturns
  /-- The reader returns an error, and `close_err` is called. -/
  | readerFails (msg : Bytes)
  | readerClosed
  | readerPanics
  /-- The writer takes a message from the queue. -/
  | take
  /-- It has written the message. -/
  | write
  /-- A write fails, of this message or of another; only a failure to write and not one to
      flush closes the receiver first (`closes`). -/
  | writeFails (closes : Bool)
  | writerStops
  | writerPanics
  /-- `handle_connection` starts the reader and the writer, returns an error before that, or
      panics. -/
  | spawn
  | connectionFails
  | connectionPanics
  /-- `task_tracker.wait()` completes. -/
  | waited
  | drain
  deriving DecidableEq, Repr

def TaskState.active : TaskState → Bool
  | .running => true
  | .closing _ => true
  | _ => false

open St in
def step : Ev → St → Option St
  | .submit id responseType msg, s =>
    if responseType = .whenResponse ∨ responseType = .whenSent then s.submitRequest id responseType msg else none
  | .submitMessage msg, s => some { s with sending := s.sending ++ [(msg, none)] }
  | .waitForReady, s => some { s.open_ 0 .whenReady with sending := s.sending ++ [([], some s.cells.length)] }
  | .sendDone i, s => s.sendDone i
  | .cancel, s => some { s with cancelled := true }
  | .receive r, s => if s.reader = .running then some { s with received := s.received ++ [r] } else none
  | .handle number, s =>
    match s.received[number]? with
    | none => none
    | some r =>
      if number ∈ s.lookups.map Lookup.number then none
      else
        let x := s.handleResponse number r
        some { x.1 with failed := x.1.failed || x.2.isNone }
  | .readerReturns, s => if s.reader = .running then some { s with reader := .ended, cancelled := true } else none
  | .readerFails msg, s =>
    if s.reader = .running then
      (s.submitRequest (-1) .whenSent msg).map fun s' => { s' with reader := .closing s.cells.length }
    else none
  | .readerClosed, s =>
    match s.reader with
    | .closing t => if s.cells[t]? ≠ some .pending then some { s with reader := .ended, cancelled := true } else none
    | _ => none
  | .readerPanics, s => if s.reader.active then some { s with reader := .ended } else none
  | .take, s =>
    if s.writer = .running ∧ s.writing = none then
      match s.queue with
      | e :: rest => some { s with queue := rest, writing := some e }
      | [] => none
    else none
  | .write, s =>
    if s.writer = .running then
      match s.writing with
      | some e => some { s with writing := none, cells := trySendAll .sent e.2.toList s.cells }
      | none => none
    else none
  | .writeFails closes, s =>
    if s.writer = .running then
      let s' := if closes then s.closeReceiver else s.dropReceiver
      some { s'.dropWriting with writer := .ended, cancelled := true }
    else none
  | .writerStops, s =>
    if s.writer = .running ∧ s.writing = none ∧ s.cancelled = true then
      some { s.closeReceiver with writer := .ended, cancelled := true }
    else none
  | .writerPanics, s => if s.writer = .running then some { s.dropReceiver.dropWriting with writer := .ended } else none
  | .spawn, s =>
    if s.phase = .establishing then some { s with phase := .waiting, reader := .running, writer := .running } else none
  | .connectionFails, s => if s.phase = .establishing then some { s.dropReceiver with phase := .returned } else none
  | .connectionPanics, s => if s.phase = .establishing then some { s.dropReceiver with phase := .finished } else none
  | .waited, s =>
    if s.phase = .waiting ∧ s.trackerClosed = true ∧ s.reader.active = false ∧ s.writer.active = false then
      some { s with phase := .returned }
    else none
  | .drain, s =>
    if s.phase = .returned then
      let x := s.drainRequests
      some { x.1 with phase := .finished, failed := x.1.failed || x.2.isNone }
    else none

/-- The states one connection gets to, whatever the order of the steps. -/
abbrev Steps : St → St → Prop := Events.Steps step

abbrev run : List Ev → St → Option St := Events.run step

/-- What a step needs and what it leaves, event by event. -/
inductive Happens (s : St) : Ev → St → Prop
  | submit {id : Int} {responseType : PeerRequestResponseType} {msg : Bytes} {s' : St}
      (htype : responseType = .whenResponse ∨ responseType = .whenSent) (hs : s.submitRequest id responseType msg = some s') :
      Happens s (.submit id responseType msg) s'
  | submitMessage (msg : Bytes) : Happens s (.submitMessage msg) { s with sending := s.sending ++ [(msg, none)] }
  | waitForReady :
      Happens s .waitForReady { s.open_ 0 .whenReady with sending := s.sending ++ [([], some s.cells.length)] }
  | sendDone {i : Nat} {s' : St} (hs : s.sendDone i = some s') : Happens s (.sendDone i) s'
  | cancel : Happens s .cancel { s with cancelled := true }
  | receive (r : Response) (hreader : s.reader = .running) :
      Happens s (.receive r) { s with received := s.received ++ [r] }
  | handle {number : Nat} {r : Response} (hr : s.received[number]? = some r)
      (hnew : number ∉ s.lookups.map Lookup.number) :
      Happens s (.handle number) { (s.handleResponse number r).1 with
        failed := (s.handleResponse number r).1.failed || (s.handleResponse number r).2.isNone }
  | readerReturns (hreader : s.reader = .running) :
      Happens s .readerReturns { s with reader := .ended, cancelled := true }
  | readerFails {msg : Bytes} {s' : St} (hreader : s.reader = .running) (hs : s.submitRequest (-1) .whenSent msg = some s') :
      Happens s (.readerFails msg) { s' with reader := .closing s.cells.length }
  | readerClosed {t : Nat} (hreader : s.reader = .closing t) (hcell : s.cells[t]? ≠ some .pending) :
      Happens s .readerClosed { s with reader := .ended, cancelled := true }
  | readerPanics (hreader : s.reader.active = true) : Happens s .readerPanics { s with reader := .ended }
  | take {e : Entry} {rest : List Entry} (hwriter : s.writer = .running) (hwriting : s.writing = none)
      (hqueue : s.queue = e :: rest) :
      Happens s .take { s with queue := rest, writing := some e }
  | write {e : Entry} (hwriter : s.writer = .running) (hwriting : s.writing = some e) :
      Happens s .write { s with writing := none, cells := trySendAll .sent e.2.toList s.cells }
  | writeFails (closes : Bool) (hwriter : s.writer = .running) :
      Happens s (.writeFails closes)
        { (if closes then s.closeReceiver else s.dropReceiver).dropWriting with writer := .ended, cancelled := true }
  | writerStops (hwriter : s.writer = .running) (hwriting : s.writing = none) (hcancelled : s.cancelled = true) :
      Happens s .writerStops { s.closeReceiver with writer := .ended, cancelled := true }
  | writerPanics (hwriter : s.writer = .running) :
      Happens s .writerPanics { s.dropReceiver.dropWriting with writer := .ended }
  | spawn (hphase : s.phase = .establishing) :
      Happens s .spawn { s with phase := .waiting, reader := .running, writer := .running }
  | connectionFails (hphase : s.phase = .establishing) : Happens s .connectionFails { s.dropReceiver with phase := .returned }
  | connectionPanics (hphase : s.phase = .establishing) :
      Happens s .connectionPanics { s.dropReceiver with phase := .finished }
  | waited (hphase : s.phase = .waiting) (hclosed : s.trackerClosed = true) (hreader : s.reader.active = false)
      (hwriter : s.writer.active = false) : Happens s .waited { s with phase := .returned }
  | drain (hphase : s.phase = .returned) :
      Happens s .drain { s.drainRequests.1 with
        phase := .finished, failed := s.drainRequests.1.failed || s.drainRequests.2.isNone }

/-- A step under one condition. -/
theorem of_ite_some {p : Prop} [Decidable p] {s s' : St} (h : (if p then some s else none) = some s') : p ∧ s = s' := by
  split at h
  · rename_i hp
    exact ⟨hp, Option.some.inj h⟩
  · cases h

theorem step_happens {e : Ev} {s s' : St} (h : step e s = some s') : Happens s e s' := by
  cases e with
  | submit id responseType msg =>
    simp only [step] at h
    split at h
    · rename_i htype
      exact .submit htype h
    · cases h
  | submitMessage msg => cases h; exact .submitMessage msg
  | waitForReady => cases h; exact .waitForReady
  | sendDone i => exact .sendDone h
  | cancel => cases h; exact .cancel
  | receive r =>
    obtain ⟨hreader, rfl⟩ := of_ite_some h
    exact .receive r hreader
  | handle number =>
    simp only [step] at h
    split at h
    · cases h
    · rename_i r hr
      split at h
      · cases h
      · rename_i hnew
        cases h
        exact .handle hr hnew
  | readerReturns =>
    obtain ⟨hreader, rfl⟩ := of_ite_some h
    exact .readerReturns hreader
  | readerFails msg =>
    simp only [step] at h
    split at h
    · rename_i hreader
      obtain ⟨s₁, hs, rfl⟩ := Option.map_eq_some_iff.mp h
      exact .readerFails hreader hs
    · cases h
  | readerClosed =>
    simp only [step] at h
    split at h
    · rename_i t hreader
      obtain ⟨hcell, rfl⟩ := of_ite_some h
      exact .readerClosed hreader hcell
    · cases h
  | readerPanics =>
    obtain ⟨hreader, rfl⟩ := of_ite_some h
    exact .readerPanics hreader
  | take =>
    simp only [step] at h
    split at h
    · rename_i hidle
      split at h
      · rename_i hqueue
        cases h
        exact .take hidle.1 hidle.2 hqueue
      · cases h
    · cases h
  | write =>
    simp only [step] at h
    split at h
    · rename_i hwriter
      split at h
      · rename_i hwriting
        cases h
        exact .write hwriter hwriting
      · cases h
    · cases h
  | writeFails closes =>
    obtain ⟨hwriter, rfl⟩ := of_ite_some h
    exact .writeFails closes hwriter
  | writerStops =>
    obtain ⟨hidle, rfl⟩ := of_ite_some h
    exact .writerStops hidle.1 hidle.2.1 hidle.2.2
  | writerPanics =>
    obtain ⟨hwriter, rfl⟩ := of_ite_some h
    exact .writerPanics hwriter
  | spawn =>
    obtain ⟨hphase, rfl⟩ := of_ite_some h
    exact .spawn hphase
  | connectionFails =>
    obtain ⟨hphase, rfl⟩ := of_ite_some h
    exact .connectionFails hphase
  | connectionPanics =>
    obtain ⟨hphase, rfl⟩ := of_ite_some h
    exact .connectionPanics hphase
  | waited =>
    obtain ⟨⟨hphase, hclosed, hreader, hwriter⟩, rfl⟩ := of_ite_some h
    exact .waited hphase hclosed hreader hwriter
  | drain =>
    obtain ⟨hphase, rfl⟩ := of_ite_some h
    exact .drain hphase

/-! ## The books -/

/-- Every sender that can still be used, wherever it is. -/
def St.held (s : St) : List Nat :=
  s.requests.map PeerRequestListener.sender ++ (senders s.writing.toList ++ senders s.queue ++ senders s.sending)

/-- A channel is answered with a response by a lookup that was made after its call, which
    has the response's id. -/
def Answered (s : St) (t : Nat) (r : Response) : Prop :=
  (∃ lk ∈ s.lookups, lk.response = r ∧ lk.hit = some t ∧ t < lk.calls) ∧ s.calls[t]? = some ⟨r.id, .whenResponse⟩

structure Books (s : St) : Prop where
  owns : Owns s.cells s.held
  count : s.calls.length = s.cells.length
  keys : (s.requests.map PeerRequestListener.id).Nodup
  listed : ∀ l ∈ s.requests, l.responseType = .whenResponse ∧ s.calls[l.sender]? = some ⟨l.id, .whenResponse⟩
  answered : ∀ (t : Nat) (r : Response), s.cells[t]? = some (.sent (.response r)) → Answered s t r
  hits : ∀ lk ∈ s.lookups, ∀ t : Nat, lk.hit = some t → s.cells[t]? = some (.sent (.response lk.response))
  once : (s.lookups.filterMap Lookup.hit).Nodup
  numbers : (s.lookups.map Lookup.number).Nodup
  looked : ∀ lk ∈ s.lookups, s.received[lk.number]? = some lk.response
  passed : s.failed = false

theorem books_init : Books St.init := by
  refine ⟨⟨List.nodup_nil, ?_⟩, rfl, List.nodup_nil, ?_, ?_, ?_, List.nodup_nil, List.nodup_nil, ?_, rfl⟩
  · intro t ht; cases ht
  · intro l hl; cases hl
  · intro t r h; cases h
  · intro lk hlk; cases hlk
  · intro lk hlk; cases hlk

/-- An answer that is not a response. -/
def Silent (v : PeerRequestResponse) : Prop := ∀ r, v ≠ .response r

theorem getElem?_prefix {α : Type} {l l' : List α} (h : l <+: l') {i : Nat} {x : α} (hx : l[i]? = some x) : l'[i]? = some x := by
  obtain ⟨r, hr⟩ := h
  rw [← hr, List.getElem?_append_left (List.getElem?_eq_some_iff.mp hx).1]
  exact hx

/-- The books after a step that looks nothing up. -/
theorem Books.quiet {s s' : St} (h : Books s) (hcells : Advance Silent s.cells s'.cells) (howns : Owns s'.cells s'.held)
    (hcalls : s.calls <+: s'.calls) (hcount : s'.calls.length = s'.cells.length)
    (hkeys : (s'.requests.map PeerRequestListener.id).Nodup)
    (hlisted : ∀ l ∈ s'.requests, l ∈ s.requests ∨
      l.responseType = .whenResponse ∧ s'.calls[l.sender]? = some ⟨l.id, .whenResponse⟩)
    (hlookups : s'.lookups = s.lookups) (hreceived : s.received <+: s'.received) (hfailed : s'.failed = s.failed) :
    Books s' := by
  refine ⟨howns, hcount, hkeys, fun l hl => ?_, fun t r ht => ?_, ?_, ?_, ?_, ?_, hfailed.trans h.passed⟩
  · rcases hlisted l hl with hl | hl
    · exact ⟨(h.listed l hl).1, getElem?_prefix hcalls (h.listed l hl).2⟩
    · exact hl
  · rcases hcells.sent t _ ht with ht | ht
    · obtain ⟨hlookup, hcall⟩ := h.answered t r ht
      exact ⟨by rw [hlookups]; exact hlookup, getElem?_prefix hcalls hcall⟩
    · exact absurd rfl (ht r)
  · rw [hlookups]
    exact fun lk hlk t ht => hcells.kept t _ (h.hits lk hlk t ht) (by simp)
  · rw [hlookups]; exact h.once
  · rw [hlookups]; exact h.numbers
  · rw [hlookups]
    exact fun lk hlk => getElem?_prefix hreceived (h.looked lk hlk)

/-- The tasks and the token are not in the books. -/
theorem books_tasks {s : St} (h : Books s) (cancelled : Bool) (reader writer : TaskState) (phase : Phase) :
    Books { s with cancelled := cancelled, reader := reader, writer := writer, phase := phase } :=
  ⟨h.owns, h.count, h.keys, h.listed, h.answered, h.hits, h.once, h.numbers, h.looked, h.passed⟩

theorem books_cells {s : St} (h : Books s) {cells : Cells PeerRequestResponse} (hcells : Advance Silent s.cells cells)
    (hlength : cells.length = s.cells.length) (sending queue : List Entry) (writing : Option Entry) (closed : Bool)
    (howns : Owns cells
      (s.requests.map PeerRequestListener.sender ++ (senders writing.toList ++ senders queue ++ senders sending))) :
    Books { s with cells := cells, sending := sending, queue := queue, writing := writing, closed := closed } :=
  h.quiet hcells howns List.prefix_rfl (h.count.trans hlength.symm) h.keys (fun _ hl => Or.inl hl) rfl List.prefix_rfl rfl

theorem senders_append (a b : List Entry) : senders (a ++ b) = senders a ++ senders b := List.filterMap_append

theorem senders_cons (e : Entry) (l : List Entry) : senders (e :: l) = e.2.toList ++ senders l := by
  unfold senders
  rw [List.filterMap_cons]
  cases e.2 with
  | none => rfl
  | some t => rfl

theorem senders_single (e : Entry) : senders [e] = e.2.toList := (senders_cons e []).trans (List.append_nil _)

theorem senders_nil : senders [] = [] := by rw [senders, List.filterMap_nil]

theorem books_submitMessage {s : St} (h : Books s) (msg : Bytes) : Books { s with sending := s.sending ++ [(msg, none)] } := by
  refine books_cells h (Advance.refl _) rfl _ _ _ _ ?_
  simp only [senders_append, senders_single, Option.toList_none, List.append_nil]
  exact h.owns

/-- A call whose sender goes with its message. -/
theorem books_openSending {s : St} (h : Books s) (id : Int) (responseType : PeerRequestResponseType) (msg : Bytes) :
    Books { s.open_ id responseType with sending := s.sending ++ [(msg, some s.cells.length)] } := by
  refine h.quiet (advance_fresh _) ?_ (List.prefix_append _ _) ?_ h.keys (fun _ hl => Or.inl hl) rfl List.prefix_rfl rfl
  · refine h.owns.fresh.perm ((List.perm_append_singleton _ _).symm.trans ?_)
    simp only [St.held, St.open_, senders_append, senders_single, Option.toList_some, List.append_assoc]
    exact List.Perm.refl _
  · simp [St.open_, h.count]

/-- The listeners of one id, and the others. -/
theorem senders_split (requests : List PeerRequestListener) (id : Int) :
    (requests.map PeerRequestListener.sender).Perm
      ((requests.filter (·.id = id)).map PeerRequestListener.sender ++
        (requests.filter (·.id ≠ id)).map PeerRequestListener.sender) := by
  rw [← List.map_append]
  refine (List.Perm.map _ ?_).symm
  simpa using List.filter_append_perm (fun l : PeerRequestListener => decide (l.id = id)) requests

/-- A call that is registered; what was registered under its id is dropped. -/
theorem books_openInsert {s : St} (h : Books s) (id : Int) (msg : Bytes) :
    Books { (s.open_ id .whenResponse).insert ⟨id, .whenResponse, s.cells.length⟩ with
      sending := s.sending ++ [(msg, none)] } := by
  refine h.quiet ((advance_fresh _).trans (advance_dropAll _ _)) ?_ (List.prefix_append _ _) ?_ ?_ ?_ rfl List.prefix_rfl rfl
  · refine Owns.dropAll (h.owns.fresh.perm ?_)
    refine List.Perm.trans (List.Perm.cons _ ((senders_split s.requests id).append_right _)) ?_
    simp only [St.held, St.insert, St.open_, senders_append, senders_single, List.map_append, List.map_cons, List.map_nil,
      Option.toList_none, List.append_nil, List.append_assoc, List.cons_append, List.nil_append]
    exact List.perm_middle.symm.trans (List.perm_middle.symm.append_left _)
  · simp [St.insert, St.open_, h.count]
  · have hkept : ((s.requests.filter (·.id ≠ id)).map PeerRequestListener.id).Nodup :=
      h.keys.sublist (List.Sublist.map _ List.filter_sublist)
    show (List.map PeerRequestListener.id (s.requests.filter (·.id ≠ id) ++ [_])).Nodup
    rw [List.map_append, List.map_singleton]
    refine List.Nodup.append hkept (List.nodup_singleton _) fun i hi hi' => ?_
    obtain ⟨l, hl, rfl⟩ := List.mem_map.mp hi
    exact absurd (List.mem_singleton.mp hi') (by simpa using (List.mem_filter.mp hl).2)
  · intro l hl
    rcases List.mem_append.mp hl with hl | hl
    · exact Or.inl (List.mem_filter.mp hl).1
    · rw [List.mem_singleton] at hl
      subst hl
      refine Or.inr ⟨rfl, ?_⟩
      show (s.calls ++ [_])[s.cells.length]? = _
      rw [← h.count, List.getElem?_concat_length]

/-- What `submit_request` does up to its `tx.send`. -/
theorem submitRequest_cases {s s' : St} {id : Int} {responseType : PeerRequestResponseType} {msg : Bytes}
    (h : s.submitRequest id responseType msg = some s') :
    responseType = .whenSent ∧ s' = { s.open_ id responseType with sending := s.sending ++ [(msg, some s.cells.length)] } ∨
      responseType ≠ .whenSent ∧ s' = { (s.open_ id responseType).insert ⟨id, responseType, s.cells.length⟩ with
        sending := s.sending ++ [(msg, none)] } := by
  unfold St.submitRequest at h
  simp only at h
  split at h
  · cases h
  · split at h
    · rename_i htype
      exact Or.inl ⟨htype, (Option.some.inj h).symm⟩
    · rename_i htype
      exact Or.inr ⟨htype, (Option.some.inj h).symm⟩

/-- What a `tx.send` that is done has done. -/
theorem sendDone_cases {s s' : St} {i : Nat} (h : s.sendDone i = some s') : ∃ e, s.sending[i]? = some e ∧
    (s.closed = true ∧ s' = { s with sending := s.sending.eraseIdx i, cells := dropAll e.2.toList s.cells } ∨
      s.closed = false ∧ s' = { s with sending := s.sending.eraseIdx i, queue := s.queue ++ [e] }) := by
  unfold St.sendDone at h
  split at h
  · cases h
  · rename_i e he
    refine ⟨e, he, ?_⟩
    split at h
    · rename_i hclosed
      exact Or.inl ⟨hclosed, (Option.some.inj h).symm⟩
    · rename_i hopen
      split at h
      · exact Or.inr ⟨by simpa using hopen, (Option.some.inj h).symm⟩
      · cases h

theorem books_submitRequest {s s' : St} (h : Books s) {id : Int} {responseType : PeerRequestResponseType} {msg : Bytes}
    (htype : responseType = .whenResponse ∨ responseType = .whenSent) (hs : s.submitRequest id responseType msg = some s') :
    Books s' := by
  rcases submitRequest_cases hs with ⟨rfl, rfl⟩ | ⟨hresponse, rfl⟩
  · exact books_openSending h id .whenSent msg
  · obtain rfl := htype.resolve_right hresponse
    exact books_openInsert h id msg

theorem books_sendDone {s s' : St} (h : Books s) {i : Nat} (hs : s.sendDone i = some s') : Books s' := by
  obtain ⟨e, he, hcase⟩ := sendDone_cases hs
  have hperm : (senders s.sending).Perm (e.2.toList ++ senders (s.sending.eraseIdx i)) := by
    obtain ⟨hi, hget⟩ := List.getElem?_eq_some_iff.mp he
    rw [← senders_cons, ← hget]
    exact ((List.getElem_cons_eraseIdx_perm hi).filterMap _).symm
  rcases hcase with ⟨-, rfl⟩ | ⟨-, rfl⟩
  · refine books_cells h (advance_dropAll _ _) (length_dropAll _ _) _ _ _ _ (Owns.dropAll (h.owns.perm ?_))
    refine ((hperm.append_left _).append_left _).trans ?_
    refine ((List.perm_append_comm_assoc _ _ _).append_left _).trans ?_
    exact List.perm_append_comm_assoc _ _ _
  · refine books_cells h (Advance.refl _) rfl _ _ _ _ (h.owns.perm ?_)
    rw [senders_append, senders_single]
    refine ((hperm.append_left _).append_left _).trans ?_
    simp only [List.append_assoc]
    exact List.Perm.refl _

theorem books_take {s : St} (h : Books s) {e : Entry} {rest : List Entry} (hwriting : s.writing = none)
    (hqueue : s.queue = e :: rest) : Books { s with queue := rest, writing := some e } := by
  refine books_cells h (Advance.refl _) rfl _ _ _ _ ?_
  have howns := h.owns
  simp only [St.held, hwriting, hqueue, Option.toList_none, senders_nil, List.nil_append, senders_cons] at howns
  simpa only [Option.toList_some, senders_single] using howns

theorem books_write {s : St} (h : Books s) {e : Entry} (hwriting : s.writing = some e) :
    Books { s with writing := none, cells := trySendAll .sent e.2.toList s.cells } := by
  have hsilent : Silent .sent := fun _ => by simp
  refine books_cells h (advance_trySendAll hsilent _ _) (length_trySendAll _ _ _) _ _ _ _ (Owns.trySendAll (h.owns.perm ?_))
  simp only [St.held, hwriting, Option.toList_some, senders_single, Option.toList_none, senders_nil, List.nil_append,
    List.append_assoc]
  exact List.perm_append_comm_assoc _ _ _

/-- The senders in the queue come first. -/
theorem held_queue (s : St) :
    s.held.Perm (senders s.queue ++ ({ s with queue := [] } : St).held) := by
  simp only [St.held, senders_nil, List.append_nil, List.append_assoc]
  refine ((List.perm_append_comm_assoc _ _ _).append_left _).trans ?_
  exact List.perm_append_comm_assoc _ _ _

theorem books_closeReceiver {s : St} (h : Books s) : Books s.closeReceiver := by
  have hsilent : Silent .closed := fun _ => by simp
  exact books_cells h (advance_trySendAll hsilent _ _) (length_trySendAll _ _ _) _ _ _ _
    (Owns.trySendAll (h.owns.perm (held_queue s)))

theorem books_dropReceiver {s : St} (h : Books s) : Books s.dropReceiver :=
  books_cells h (advance_dropAll _ _) (length_dropAll _ _) _ _ _ _ (Owns.dropAll (h.owns.perm (held_queue s)))

theorem books_dropWriting {s : St} (h : Books s) : Books s.dropWriting := by
  refine books_cells h (advance_dropAll _ _) (length_dropAll _ _) _ _ _ _ (Owns.dropAll (h.owns.perm ?_))
  simp only [St.held, Option.toList_none, senders_nil, List.nil_append, List.append_assoc]
  exact List.perm_append_comm_assoc _ _ _

/-! ## Answering -/

/-- The listener of an id is the only one it has. -/
theorem filter_listener {requests : List PeerRequestListener} (hkeys : (requests.map PeerRequestListener.id).Nodup)
    {l : PeerRequestListener} (hl : l ∈ requests) : requests.filter (·.id = l.id) = [l] := by
  induction requests with
  | nil => cases hl
  | cons m rest ih =>
    obtain ⟨hnot, hrest⟩ := List.nodup_cons.mp hkeys
    rcases List.mem_cons.mp hl with rfl | hl
    · have hnone : rest.filter (·.id = l.id) = [] := by
        refine List.filter_eq_nil_iff.mpr fun m hm hid => hnot ?_
        exact List.mem_map.mpr ⟨m, hm, by simpa using hid⟩
      simp [hnone]
    · have hne : ¬ m.id = l.id := fun he => hnot (he ▸ List.mem_map.mpr ⟨l, hl, rfl⟩)
      simp only [List.filter_cons, hne, decide_false, Bool.false_eq_true, if_false]
      exact ih hrest hl

/-- What `handle_response` finds: the call that has the id of the response, and nobody
    has answered it. -/
theorem found_spec {s : St} (h : Books s) {id : Int} {l : PeerRequestListener} (hfind : s.requests.find? (·.id = id) = some l) :
    l.id = id ∧ l.responseType = .whenResponse ∧ s.calls[l.sender]? = some ⟨id, .whenResponse⟩ ∧
      Owns s.cells (l.sender :: ({ s with requests := s.requests.filter (·.id ≠ id) } : St).held) := by
  have hmem := List.mem_of_find?_eq_some hfind
  have hid : l.id = id := by simpa using List.find?_some hfind
  obtain ⟨htype, hcall⟩ := h.listed l hmem
  refine ⟨hid, htype, hid ▸ hcall, h.owns.perm ?_⟩
  refine ((senders_split s.requests id).append_right _).trans ?_
  rw [← hid, filter_listener h.keys hmem]
  exact List.Perm.refl _

theorem handleResponse_none {s : St} {r : Response} (hfind : s.requests.find? (·.id = r.id) = none) (number : Nat) :
    s.handleResponse number r =
      ({ s with lookups := s.lookups ++ [⟨number, r, s.calls.length, none⟩] },
        some (.error (.other "Received unsolicited response"))) := by
  unfold St.handleResponse
  rw [hfind]

/-- What `handle_response` may change. -/
theorem handleResponse_frame (s : St) (number : Nat) (r : Response) : ∃ requests lookups cells,
    (s.handleResponse number r).1 = { s with requests := requests, lookups := lookups, cells := cells } ∧
      Advance (fun _ => True) s.cells cells := by
  unfold St.handleResponse
  split
  · exact ⟨_, _, _, rfl, Advance.refl _⟩
  · simp only
    split
    · exact ⟨_, _, _, rfl, advance_drop _ _⟩
    · split
      · rename_i hsend
        exact ⟨_, _, _, rfl, advance_send hsend trivial⟩
      · exact ⟨_, _, _, rfl, Advance.refl _⟩

/-- An unsolicited response resumes nobody. -/
theorem handleResponse_unsolicited {s : St} {r : Response} (hid : r.id ∉ s.requests.map PeerRequestListener.id) (number : Nat) :
    s.handleResponse number r =
      ({ s with lookups := s.lookups ++ [⟨number, r, s.calls.length, none⟩] },
        some (.error (.other "Received unsolicited response"))) := by
  have hfind : s.requests.find? (·.id = r.id) = none := by
    refine List.find?_eq_none.mpr fun l hl he => hid ?_
    exact List.mem_map.mpr ⟨l, hl, by simpa using he⟩
  exact handleResponse_none hfind number

/-- The response of a call resumes it: neither assertion fails. -/
theorem handleResponse_found {s : St} (h : Books s) {r : Response} {l : PeerRequestListener}
    (hfind : s.requests.find? (·.id = r.id) = some l) (number : Nat) :
    s.handleResponse number r =
      ({ s with
        requests := s.requests.filter (·.id ≠ r.id)
        lookups := s.lookups ++ [⟨number, r, s.calls.length, some l.sender⟩]
        cells := s.cells.set l.sender (.sent (.response r)) }, some (.ok ())) := by
  obtain ⟨-, htype, -, howns⟩ := found_spec h hfind
  unfold St.handleResponse
  simp only [hfind, htype, ne_eq, not_true_eq_false, if_false, (howns.send _).1]

theorem handleResponse_passes {s : St} (h : Books s) (number : Nat) (r : Response) :
    (s.handleResponse number r).2.isNone = false := by
  cases hfind : s.requests.find? (·.id = r.id) with
  | none => rw [handleResponse_none hfind]; rfl
  | some l => rw [handleResponse_found h hfind]; rfl

/-- A new lookup of a response that was received. -/
theorem looked_append {s : St} (h : Books s) {number : Nat} {r : Response} (hr : s.received[number]? = some r)
    (hnew : number ∉ s.lookups.map Lookup.number) (calls : Nat) (hit : Option Nat) :
    ((s.lookups ++ [(⟨number, r, calls, hit⟩ : Lookup)]).map Lookup.number).Nodup ∧
      ∀ lk ∈ s.lookups ++ [(⟨number, r, calls, hit⟩ : Lookup)], s.received[lk.number]? = some lk.response := by
  constructor
  · rw [List.map_append, List.map_singleton]
    refine List.Nodup.append h.numbers (List.nodup_singleton _) fun i hi hi' => ?_
    have he : i = number := List.mem_singleton.mp hi'
    exact hnew (he ▸ hi)
  · intro lk hlk
    rcases List.mem_append.mp hlk with hlk | hlk
    · exact h.looked lk hlk
    · rw [List.mem_singleton.mp hlk]; exact hr

theorem books_miss {s : St} (h : Books s) {number : Nat} {r : Response} (hr : s.received[number]? = some r)
    (hnew : number ∉ s.lookups.map Lookup.number) :
    Books { s with lookups := s.lookups ++ [⟨number, r, s.calls.length, none⟩] } := by
  obtain ⟨hnumbers, hlooked⟩ := looked_append h hr hnew s.calls.length none
  refine ⟨h.owns, h.count, h.keys, h.listed, fun t r' ht => ?_, fun lk hlk t ht => ?_, ?_, hnumbers, hlooked, h.passed⟩
  · obtain ⟨⟨lk, hlk, hrest⟩, hcall⟩ := h.answered t r' ht
    exact ⟨⟨lk, List.mem_append_left _ hlk, hrest⟩, hcall⟩
  · rcases List.mem_append.mp hlk with hlk | hlk
    · exact h.hits lk hlk t ht
    · rw [List.mem_singleton.mp hlk] at ht
      cases ht
  · simpa [List.filterMap_append] using h.once

theorem books_hit {s : St} (h : Books s) {number : Nat} {r : Response} {l : PeerRequestListener}
    (hr : s.received[number]? = some r) (hnew : number ∉ s.lookups.map Lookup.number)
    (hfind : s.requests.find? (·.id = r.id) = some l) :
    Books { s with
      requests := s.requests.filter (·.id ≠ r.id)
      lookups := s.lookups ++ [⟨number, r, s.calls.length, some l.sender⟩]
      cells := s.cells.set l.sender (.sent (.response r)) } := by
  obtain ⟨hnumbers, hlooked⟩ := looked_append h hr hnew s.calls.length (some l.sender)
  obtain ⟨-, -, hcall, howns⟩ := found_spec h hfind
  have hpending := howns.pending l.sender List.mem_cons_self
  have hlt := (List.getElem?_eq_some_iff.mp hpending).1
  -- no lookup answered this call before: it would not be pending
  have hfresh : ∀ lk ∈ s.lookups, lk.hit ≠ some l.sender := by
    intro lk hlk hhit
    have := h.hits lk hlk l.sender hhit
    rw [hpending] at this
    cases this
  refine ⟨(howns.set _), ?_, ?_, ?_, fun t r' ht => ?_, fun lk hlk t ht => ?_, ?_, hnumbers, hlooked, h.passed⟩
  · rw [List.length_set]; exact h.count
  · exact h.keys.sublist (List.Sublist.map _ List.filter_sublist)
  · exact fun m hm => h.listed m (List.mem_filter.mp hm).1
  · by_cases he : t = l.sender
    · subst he
      rw [List.getElem?_set_self hlt] at ht
      have hr' : r = r' := by simpa using ht
      subst hr'
      exact ⟨⟨_, List.mem_append_right _ (List.mem_singleton_self _), rfl, rfl, h.count ▸ hlt⟩, hcall⟩
    · rw [List.getElem?_set_ne (Ne.symm he)] at ht
      obtain ⟨⟨lk, hlk, hrest⟩, hcall'⟩ := h.answered t r' ht
      exact ⟨⟨lk, List.mem_append_left _ hlk, hrest⟩, hcall'⟩
  · rcases List.mem_append.mp hlk with hlk | hlk
    · have hne : l.sender ≠ t := fun he => hfresh lk hlk (he ▸ ht)
      rw [List.getElem?_set_ne hne]
      exact h.hits lk hlk t ht
    · rw [List.mem_singleton.mp hlk] at ht ⊢
      cases ht
      exact List.getElem?_set_self hlt
  · rw [List.filterMap_append]
    refine List.Nodup.append h.once (by simp) fun t ht ht' => ?_
    obtain ⟨lk, hlk, hhit⟩ := List.mem_filterMap.mp ht
    simp at ht'
    exact hfresh lk hlk (ht' ▸ hhit)

theorem books_handle {s : St} (h : Books s) {number : Nat} {r : Response} (hr : s.received[number]? = some r)
    (hnew : number ∉ s.lookups.map Lookup.number) : Books (s.handleResponse number r).1 := by
  cases hfind : s.requests.find? (·.id = r.id) with
  | none => rw [handleResponse_none hfind]; exact books_miss h hr hnew
  | some l => rw [handleResponse_found h hfind]; exact books_hit h hr hnew hfind

/-! ## Draining -/

theorem drainListeners_spec : ∀ {ls : List PeerRequestListener} {cells : Cells PeerRequestResponse} {held : List Nat},
    Owns cells (ls.map PeerRequestListener.sender ++ held) →
      (St.drainListeners cells ls).2 = some () ∧ Owns (St.drainListeners cells ls).1 held ∧
        Advance Silent cells (St.drainListeners cells ls).1 ∧ (St.drainListeners cells ls).1.length = cells.length := by
  intro ls
  induction ls with
  | nil => intro cells held h; exact ⟨rfl, h, Advance.refl _, rfl⟩
  | cons l ls ih =>
    intro cells held h
    obtain ⟨hsend, howns⟩ := h.send .closed
    obtain ⟨hok, hheld, hadvance, hlength⟩ := ih howns
    have hdrain : St.drainListeners cells (l :: ls) =
        St.drainListeners (cells.set l.sender (.sent .closed)) ls := by
      rw [St.drainListeners, hsend]
    rw [hdrain]
    have hsilent : Silent .closed := fun _ => by simp
    exact ⟨hok, hheld, (advance_send hsend hsilent).trans hadvance, hlength.trans (List.length_set ..)⟩

theorem drainRequests_passes {s : St} (h : Books s) : s.drainRequests.2 = some () := (drainListeners_spec h.owns).1

theorem books_drain {s : St} (h : Books s) : Books s.drainRequests.1 := by
  obtain ⟨-, howns, hadvance, hlength⟩ := drainListeners_spec h.owns
  refine h.quiet hadvance howns List.prefix_rfl (h.count.trans hlength.symm) List.nodup_nil ?_ rfl List.prefix_rfl rfl
  intro l hl
  cases hl

/-! ## Every step -/

/-- The books hold after a step, and a channel that was resolved has kept its outcome. -/
structure Kept (s s' : St) : Prop where
  books : Books s'
  cells : Advance (fun _ => True) s.cells s'.cells

theorem kept_tasks {s s' : St} (h : Kept s s') (cancelled : Bool) (reader writer : TaskState) (phase : Phase) :
    Kept s { s' with cancelled := cancelled, reader := reader, writer := writer, phase := phase } :=
  ⟨books_tasks h.books cancelled reader writer phase, h.cells⟩

theorem kept_refl {s : St} (h : Books s) : Kept s s := ⟨h, Advance.refl _⟩

theorem kept_submitRequest {s s' : St} (h : Books s) {id : Int} {responseType : PeerRequestResponseType} {msg : Bytes}
    (htype : responseType = .whenResponse ∨ responseType = .whenSent) (hs : s.submitRequest id responseType msg = some s') :
    Kept s s' := by
  refine ⟨books_submitRequest h htype hs, ?_⟩
  rcases submitRequest_cases hs with ⟨-, rfl⟩ | ⟨-, rfl⟩
  · exact advance_fresh _
  · exact (advance_fresh _).trans (advance_dropAll _ _)

theorem kept_sendDone {s s' : St} (h : Books s) {i : Nat} (hs : s.sendDone i = some s') : Kept s s' := by
  refine ⟨books_sendDone h hs, ?_⟩
  obtain ⟨e, -, ⟨-, rfl⟩ | ⟨-, rfl⟩⟩ := sendDone_cases hs
  · exact advance_dropAll _ _
  · exact Advance.refl _

theorem kept_closeReceiver {s : St} (h : Books s) : Kept s s.closeReceiver :=
  ⟨books_closeReceiver h, advance_trySendAll trivial _ _⟩

theorem kept_dropReceiver {s : St} (h : Books s) : Kept s s.dropReceiver := ⟨books_dropReceiver h, advance_dropAll _ _⟩

theorem kept_dropWriting {s s' : St} (h : Kept s s') : Kept s s'.dropWriting :=
  ⟨books_dropWriting h.books, h.cells.trans (advance_dropAll _ _)⟩

theorem kept_handle {s : St} (h : Books s) {number : Nat} {r : Response} (hr : s.received[number]? = some r)
    (hnew : number ∉ s.lookups.map Lookup.number) : Kept s (s.handleResponse number r).1 := by
  obtain ⟨_, _, _, hframe, hcells⟩ := handleResponse_frame s number r
  refine ⟨books_handle h hr hnew, ?_⟩
  rw [hframe]
  exact hcells

theorem kept_drain {s : St} (h : Books s) : Kept s s.drainRequests.1 :=
  ⟨books_drain h, (drainListeners_spec h.owns).2.2.1.mono fun _ _ => trivial⟩

theorem kept_step {e : Ev} {s s' : St} (h : Books s) (hs : step e s = some s') : Kept s s' := by
  cases step_happens hs with
  | submit htype hsub => exact kept_submitRequest h htype hsub
  | submitMessage msg => exact ⟨books_submitMessage h msg, Advance.refl _⟩
  | waitForReady => exact ⟨books_openSending h 0 .whenReady [], advance_fresh _⟩
  | sendDone hdone => exact kept_sendDone h hdone
  | cancel => exact kept_tasks (kept_refl h) true s.reader s.writer s.phase
  | receive r _ =>
    refine ⟨?_, Advance.refl _⟩
    exact h.quiet (Advance.refl _) h.owns List.prefix_rfl h.count h.keys (fun _ hl => Or.inl hl) rfl
      (List.prefix_append _ _) rfl
  | @handle number r hr hnew =>
    rw [handleResponse_passes h number r, Bool.or_false]
    exact kept_handle h hr hnew
  | readerReturns _ => exact kept_tasks (kept_refl h) true .ended s.writer s.phase
  | @readerFails msg s₁ _ hsub =>
    exact kept_tasks (kept_submitRequest h (Or.inr rfl) hsub) s₁.cancelled _ s₁.writer s₁.phase
  | readerClosed _ _ => exact kept_tasks (kept_refl h) true .ended s.writer s.phase
  | readerPanics _ => exact kept_tasks (kept_refl h) s.cancelled .ended s.writer s.phase
  | take _ hwriting hqueue => exact ⟨books_take h hwriting hqueue, Advance.refl _⟩
  | write _ hwriting => exact ⟨books_write h hwriting, advance_trySendAll trivial _ _⟩
  | writeFails closes _ =>
    cases closes with
    | false => exact kept_tasks (kept_dropWriting (kept_dropReceiver h)) true s.reader .ended s.phase
    | true => exact kept_tasks (kept_dropWriting (kept_closeReceiver h)) true s.reader .ended s.phase
  | writerStops _ _ _ => exact kept_tasks (kept_closeReceiver h) true s.reader .ended s.phase
  | writerPanics _ => exact kept_tasks (kept_dropWriting (kept_dropReceiver h)) s.cancelled s.reader .ended s.phase
  | spawn _ => exact kept_tasks (kept_refl h) s.cancelled .running .running .waiting
  | connectionFails _ => exact kept_tasks (kept_dropReceiver h) s.cancelled s.reader s.writer .returned
  | connectionPanics _ => exact kept_tasks (kept_dropReceiver h) s.cancelled s.reader s.writer .finished
  | waited _ _ _ _ => exact kept_tasks (kept_refl h) s.cancelled s.reader s.writer .returned
  | drain _ =>
    rw [drainRequests_passes h, Option.isNone_some, Bool.or_false]
    exact kept_tasks (kept_drain h) s.cancelled s.reader s.writer .finished

theorem kept_steps {s s' : St} (h : Books s) (hs : Steps s s') : Kept s s' := by
  refine Events.steps_inv (fun hkept he => ?_) (kept_refl h) hs
  have hnext := kept_step hkept.books he
  exact ⟨hnext.books, hkept.cells.trans hnext.cells⟩

/-! ## The waiting calls -/

/-- In every state one connection can reach, whatever is submitted, received, answered and
    drained in whatever order: a call resumes with a response only if the response has its
    id and was looked up after the call was made; a response that was received resumes one
    call at most, and no call is resumed twice; an unsolicited response resumes none; an
    outcome is final; and no assertion fails. -/
theorem correlation {s : St} (hs : Steps St.init s) :
    (∀ (t : Nat) (r : Response), s.cells[t]? = some (.sent (.response r)) →
      s.calls[t]? = some ⟨r.id, .whenResponse⟩ ∧
        ∃ lk ∈ s.lookups, lk.response = r ∧ lk.hit = some t ∧ t < lk.calls) ∧
    (∀ lk ∈ s.lookups, s.received[lk.number]? = some lk.response ∧
      ∀ t, lk.hit = some t → s.cells[t]? = some (.sent (.response lk.response))) ∧
    (s.lookups.map Lookup.number).Nodup ∧ (s.lookups.filterMap Lookup.hit).Nodup ∧
    (∀ (number : Nat) (r : Response), r.id ∉ s.requests.map PeerRequestListener.id →
      (s.handleResponse number r).1.cells = s.cells ∧ (s.handleResponse number r).1.requests = s.requests ∧
        (s.handleResponse number r).2 = some (.error (.other "Received unsolicited response"))) ∧
    (∀ s', Steps s s' → ∀ (t : Nat) (o : Outcome PeerRequestResponse), s.cells[t]? = some o → o ≠ .pending →
      s'.cells[t]? = some o) ∧
    s.failed = false ∧ (∀ number r, (s.handleResponse number r).2 ≠ none) ∧ s.drainRequests.2 ≠ none := by
  have h := (kept_steps books_init hs).books
  refine ⟨fun t r ht => (h.answered t r ht).symm, fun lk hlk => ⟨h.looked lk hlk, h.hits lk hlk⟩, h.numbers, h.once,
    fun number r hid => ?_, fun s' hs' => (kept_steps h hs').cells.kept, h.passed, fun number r hnone => ?_, ?_⟩
  · rw [handleResponse_unsolicited hid number]
    exact ⟨rfl, rfl, rfl⟩
  · have hpasses := handleResponse_passes h number r
    rw [hnone] at hpasses
    cases hpasses
  · rw [drainRequests_passes h]
    simp

/-- Two calls with one id: the second takes the place of the first, and the response resumes
    it; the response that comes a second time resumes nobody. -/
theorem correlation_two_calls : ∃ s, run
    [.spawn, .submit 7 .whenResponse [1], .submit 7 .whenResponse [2], .receive ⟨7, [9], 0⟩, .receive ⟨7, [9], 0⟩, .handle 1,
      .handle 0] St.init = some s ∧ s.cells = [.canceled, .sent (.response ⟨7, [9], 0⟩)] ∧ s.failed = false :=
  ⟨_, rfl, rfl, (correlation (@Events.steps_run _ _ step [.spawn, .submit 7 .whenResponse [1], .submit 7 .whenResponse [2],
    .receive ⟨7, [9], 0⟩, .receive ⟨7, [9], 0⟩, .handle 1, .handle 0] _ _ rfl)).2.2.2.2.2.2.1⟩

end BepRs.Connection
