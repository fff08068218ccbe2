/-
  BepRs.Connection.Ready — what `wait_for_ready` waits for (`src/peer_connection/mod.rs`,
  `handlers.rs`).

  `wait_for_ready` puts an empty message with a sender into the queue and returns `Ok` as soon
  as the sender is used, whatever it is used for. `handle_writing` sends the Hello, writes the
  ClusterConfig and then the messages of the queue; it answers the sender of a message with
  `Sent` after it. When a message cannot be written, or the token is cancelled,
  `close_receiver` answers what is left in the queue with `Closed`.

  The state is that of `Connection.Startup` with what the writer has written: the Hello, the
  ClusterConfig, and how many of the messages the queue has taken so far. Any `wait_for_ready`
  comes at any point, so its marker may be ahead of the initial Indexes.

  `Flow` says what a step does to the queue and to the calls that wait on it.
  - `wait_for_ready_iff`: exactly along which runs every `wait_for_ready` that returned `Ok`
    told the truth.
-/

import BepRs.Connection.Startup

namespace BepRs.Connection

open BepRs.Lib BepRs.Lib.Oneshot BepRs.State BepRs.Sync

/-- `wait_for_ready` when its channel has an outcome: whether its `tx.send` succeeded, and the
    error that is stored by then. -/
def waitForReady (accepted : Bool) (error : Option PeerConnectionError) :
    Outcome PeerRequestResponse → Option (Except PeerConnectionError Unit)
  | .pending => none
  | .sent _ => if accepted then some (.ok ()) else some (.error (error.getD .timeoutError))
  | .canceled => some (.error (error.getD (if accepted then .other "Unknown error" else .timeoutError)))

structure Session where
  start : Startup
  hello : Bool
  config : Bool
  /-- What the queue has taken, in its order. -/
  queued : List Entry
  /-- How many initial Indexes there are. -/
  folders : Nat
  /-- Their places in `queued`. -/
  initial : List Nat
  /-- How many messages the writer is done with. -/
  written : Nat
  deriving DecidableEq, Repr

def Session.init (indexes : List Bytes) : Session := ⟨Startup.init indexes, false, false, [], indexes.length, [], 0⟩

inductive SessionEv where
  | start (e : StartEv)
  /-- `send_hello` is done. -/
  | hello
  /-- The ClusterConfig is written. -/
  | config
  deriving DecidableEq, Repr

/-- What a step of the connection gets into the queue. -/
def entering : Ev → St → List Entry
  | .sendDone i, s => if s.closed then [] else s.sending[i]?.toList
  | _, _ => []

/-- How many messages the writer is done with by a step. -/
def Ev.writes : Ev → Nat
  | .write => 1
  | _ => 0

/-- The events that answer what is left in the queue. -/
def Ev.closes : Ev → Bool
  | .writeFails true => true
  | .writerStops => true
  | _ => false

def StartEv.entering : StartEv → Startup → List Entry
  | .other e, s => Connection.entering e s.conn
  | .sent, s => if s.conn.closed then [] else (s.inflight.map fun m => (m, none)).toList
  | _, _ => []

def StartEv.writes : StartEv → Nat
  | .other e => e.writes
  | _ => 0

def StartEv.closes : StartEv → Bool
  | .other e => e.closes
  | _ => false

/-- How far `handle_writing` is when it does something: the queue comes after the
    ClusterConfig, and that after the Hello. An empty message is not written. -/
def Session.reaches (s : Session) : StartEv → Bool
  | .other .take => s.hello && s.config
  | .other .write => s.hello && s.config
  | .other .writerStops => s.hello && s.config
  | .other (.writeFails closes) => (!closes || s.hello) && s.start.conn.writing.all fun x => x.1 ≠ []
  | _ => true

/-- A step of the startup, and what it has got into the queue and out of it. -/
def Session.after (s : Session) (e : StartEv) (start : Startup) : Session :=
  { s with
    start := start
    queued := s.queued ++ e.entering s.start
    initial := s.initial ++ if e = .sent ∧ s.start.conn.closed = false then [s.queued.length] else []
    written := s.written + e.writes }

def sessionStep : SessionEv → Session → Option Session
  | .hello, s => if s.start.conn.writer = .running ∧ s.hello = false then some { s with hello := true } else none
  | .config, s =>
    if s.start.conn.writer = .running ∧ s.hello = true ∧ s.config = false then some { s with config := true } else none
  | .start e, s => if s.reaches e then (startStep e s.start).map (s.after e) else none

abbrev sessionRun : List SessionEv → Session → Option Session := Events.run sessionStep

/-! ## Telling the truth -/

/-- A call of `wait_for_ready` returned `Ok`. -/
def ReadyOk (s : Session) (t : Nat) : Prop :=
  s.start.conn.calls[t]?.map Call.responseType = some .whenReady ∧
    ∃ o error, s.start.conn.cells[t]? = some o ∧ waitForReady (t ∈ senders s.queued) error o = some (.ok ())

/-- The Hello, the ClusterConfig and every message that was queued before the marker of the
    call are written; with `indexes`, the initial Indexes as well. -/
structure Sent (indexes : Bool) (s : Session) (t : Nat) : Prop where
  hello : s.hello = true
  config : s.config = true
  before : ∀ i m, s.queued[i]? = some (m, some t) → ∀ j x, s.queued[j]? = some x → j < i → x.1 ≠ [] → j < s.written
  initial : indexes = true → s.initial.length = s.folders ∧ ∀ j ∈ s.initial, j < s.written

/-- Every `wait_for_ready` that returned `Ok` told the truth. -/
def Truthful (indexes : Bool) (s : Session) : Prop := ∀ t, ReadyOk s t → Sent indexes s t

/-- `close_receiver` answers no marker that waits behind something. -/
def CloseHonest (indexes : Bool) (s : Session) : Prop :=
  ∀ k m t, s.start.conn.queue[k]? = some (m, some t) → s.start.conn.calls[t]?.map Call.responseType = some .whenReady →
    s.hello = true ∧ s.config = true ∧ (∀ x ∈ s.start.conn.writing.toList ++ s.start.conn.queue.take k, x.1 = []) ∧
      (indexes = true → ∀ j ∈ s.initial, j < s.written)

/-- The writer answers a marker after the initial Indexes. -/
def WriteHonest (indexes : Bool) (s : Session) : Prop :=
  ∀ m t, s.start.conn.writing = some (m, some t) → s.start.conn.calls[t]?.map Call.responseType = some .whenReady →
    indexes = true → ∀ j ∈ s.initial, j ≤ s.written

/-- What has to hold before a step that can happen. -/
def Honest (indexes : Bool) (e : SessionEv) (s : Session) : Prop :=
  match e with
  | .start e => (sessionStep (.start e) s).isSome = true →
      (e.closes = true → CloseHonest indexes s) ∧ (e.writes = 1 → WriteHonest indexes s)
  | _ => True

/-! ## What a step does to the queue -/

theorem sent_submitRequest {s s' : St} {callId : Int} {responseType : PeerRequestResponseType} {msg : Bytes}
    (h : s.submitRequest callId responseType msg = some s') {t : Nat} {v : PeerRequestResponse}
    (ht : s'.cells[t]? = some (.sent v)) : s.cells[t]? = some (.sent v) := by
  have hfresh : Advance (fun _ : PeerRequestResponse => False) s.cells (s.cells ++ [.pending]) := advance_fresh _
  rcases submitRequest_cases h with ⟨-, rfl⟩ | ⟨-, rfl⟩
  · exact (hfresh.sent t v ht).resolve_right id
  · exact ((hfresh.trans (advance_dropAll _ _)).sent t v ht).resolve_right id

theorem sent_drainListeners {t : Nat} {v : PeerRequestResponse} : ∀ {ls : List PeerRequestListener}
    {cells : Cells PeerRequestResponse}, (St.drainListeners cells ls).1[t]? = some (.sent v) →
      cells[t]? = some (.sent v) ∨ t ∈ ls.map PeerRequestListener.sender := by
  intro ls
  induction ls with
  | nil => intro cells h; exact Or.inl h
  | cons l ls ih =>
    intro cells h
    unfold St.drainListeners at h
    split at h
    · rename_i cells' hsend
      rcases ih h with h | h
      · by_cases he : l.sender = t
        · exact Or.inr (he ▸ List.mem_cons_self)
        · rw [(send_some hsend).2, List.getElem?_set_ne he] at h
          exact Or.inl h
      · exact Or.inr (List.mem_cons_of_mem _ h)
    · exact Or.inl (sent_dropAll h)

/-- `handle_response` answers listeners only. -/
theorem sent_handleResponse {s : St} (h : Books s) {number : Nat} {r : Response} {t : Nat} {v : PeerRequestResponse}
    (ht : (s.handleResponse number r).1.cells[t]? = some (.sent v)) :
    s.cells[t]? = some (.sent v) ∨ t ∈ s.requests.map PeerRequestListener.sender := by
  cases hfind : s.requests.find? (·.id = r.id) with
  | none => rw [handleResponse_none hfind] at ht; exact Or.inl ht
  | some l =>
    rw [handleResponse_found h hfind] at ht
    by_cases he : l.sender = t
    · exact Or.inr (he ▸ List.mem_map_of_mem (List.mem_of_find?_eq_some hfind))
    · exact Or.inl ((List.getElem?_set_ne he).symm.trans ht)

/-- Only a writer that runs has a message in hand; the receiver is closed when it ends. -/
structure Steady (s : St) : Prop where
  tidy : Tidy s
  busy : s.writer.active = false → s.writing = none
  shut : s.closed = true → s.writer.active = false ∧ s.phase ≠ .establishing

theorem steady_init : Steady St.init := ⟨tidy_init, fun _ => rfl, fun h => by cases h⟩

/-- What a step does to the queue and the writer: what it gets into the queue, how many
    messages the writer gets done with, and whether `close_receiver` runs. -/
inductive Flow (s s' : St) (enters : List Entry) : Nat → Bool → Prop
  /-- What waits for the writer stays, and what gets into the queue comes behind it. Calls that
      are answered wait for a response. -/
  | stays (hclosed : s'.closed = s.closed) (hflow : s'.writing.toList ++ s'.queue = s.writing.toList ++ s.queue ++ enters)
      (hwriter : s'.writer = s.writer ∨ s.phase = .establishing ∧ s'.writer = .running)
      (hphase : s'.phase = .establishing → s.phase = .establishing) (htook : s'.writing = s.writing ∨ s.writer = .running)
      (hsent : ∀ (t : Nat) (v : PeerRequestResponse), s'.cells[t]? = some (.sent v) →
        s.cells[t]? = some (.sent v) ∨ t ∈ s.requests.map PeerRequestListener.sender) : Flow s s' enters 0 false
  | writes (x : Entry) (hwriter : s.writer = .running) (hwriting : s.writing = some x) (henters : enters = [])
      (hafter : s' = { s with writing := none, cells := trySendAll .sent x.2.toList s.cells }) : Flow s s' enters 1 false
  /-- The receiver goes, and every sender that waits is used or dropped. -/
  | shuts (closes : Bool) (hclosed : s'.closed = true) (hwriting : s'.writing = none) (hwriter : s'.writer.active = false)
      (hphase : s'.phase ≠ .establishing) (henters : enters = [])
      (hresolved : ∀ t ∈ senders (s.writing.toList ++ s.queue), s'.cells[t]? ≠ some .pending)
      (hsent : ∀ (t : Nat) (v : PeerRequestResponse), s'.cells[t]? = some (.sent v) →
        s.cells[t]? = some (.sent v) ∨ closes = true ∧ t ∈ senders s.queue)
      (hanswers : closes = true → ∀ t ∈ senders s.queue, s.cells[t]? = some .pending →
        s'.cells[t]? = some (.sent .closed)) : Flow s s' enters 0 closes

/-- The writer ends by an error or a panic: what it has in hand is dropped, what is left in the
    queue is answered or dropped. -/
theorem flow_writerEnds {s : St} (h : Steady s) (hwriter : s.writer = .running) (closes cancelled : Bool) :
    Flow s { (if closes then s.closeReceiver else s.dropReceiver).dropWriting with
      writer := .ended, cancelled := cancelled } [] 0 closes := by
  have hphase : s.phase ≠ .establishing := by
    rw [h.tidy.tasks (Or.inr (by rw [hwriter]; rfl))]
    simp
  have hsplit : ∀ {t : Nat}, t ∈ senders (s.writing.toList ++ s.queue) → t ∉ senders s.writing.toList →
      t ∈ senders s.queue := by
    intro t ht hnot
    rw [senders_append] at ht
    exact (List.mem_append.mp ht).resolve_left hnot
  cases closes with
  | false =>
    refine .shuts _ rfl rfl rfl hphase rfl (fun t ht => ?_) (fun t v ht => Or.inl (sent_dropAll (sent_dropAll ht)))
      (fun hcloses => by cases hcloses)
    by_cases hmem : t ∈ senders s.writing.toList
    · exact dropAll_resolves (Or.inl hmem)
    · exact dropAll_resolves (Or.inr (dropAll_resolves (Or.inl (hsplit ht hmem))))
  | true =>
    refine .shuts _ rfl rfl rfl hphase rfl (fun t ht => ?_) (fun t v ht => ?_) (fun _ t ht hpending => ?_)
    · by_cases hmem : t ∈ senders s.writing.toList
      · exact dropAll_resolves (Or.inl hmem)
      · exact dropAll_resolves (Or.inr (trySendAll_resolves (hsplit ht hmem)))
    · exact (sent_trySendAll (sent_dropAll ht)).imp_right fun hmem => ⟨rfl, hmem⟩
    · exact (advance_dropAll (P := fun _ => True) _ _).kept t _ (trySendAll_sent ht hpending) (by simp)

/-- The connection's own task gives up before the writer starts. -/
theorem flow_neverStarts {s : St} (h : Steady s) (hphase : s.phase = .establishing) {phase : Phase}
    (hphase' : phase ≠ .establishing) : Flow s { s.dropReceiver with phase := phase } [] 0 false := by
  have hidle : s.writer.active = false := (h.tidy.idle (by rw [hphase]; simp)).2
  have hwriting := h.busy hidle
  refine .shuts _ rfl hwriting hidle hphase' rfl (fun t ht => ?_) (fun t v ht => Or.inl (sent_dropAll ht))
    (fun hcloses => by cases hcloses)
  rw [hwriting] at ht
  exact dropAll_resolves (Or.inl ht)

theorem flow_sendDone {s s' : St} {i : Nat} (h : s.sendDone i = some s') : Flow s s' (entering (.sendDone i) s) 0 false := by
  obtain ⟨x, hx, ⟨hclosed, rfl⟩ | ⟨hopen, rfl⟩⟩ := sendDone_cases h
  · refine .stays rfl ?_ (Or.inl rfl) (fun hp => hp) (Or.inl rfl) fun t v ht => Or.inl (sent_dropAll ht)
    simp [entering, hclosed]
  · refine .stays rfl ?_ (Or.inl rfl) (fun hp => hp) (Or.inl rfl) fun t v ht => Or.inl ht
    simp [entering, hopen, hx]

/-- A step that has nothing to do with the queue. -/
theorem flow_quiet {s s' : St} (hclosed : s'.closed = s.closed) (hwriting : s'.writing = s.writing)
    (hqueue : s'.queue = s.queue) (hwriter : s'.writer = s.writer) (hphase : s'.phase = .establishing → s.phase = .establishing)
    (hsent : ∀ (t : Nat) (v : PeerRequestResponse), s'.cells[t]? = some (.sent v) →
      s.cells[t]? = some (.sent v) ∨ t ∈ s.requests.map PeerRequestListener.sender) : Flow s s' [] 0 false := by
  refine .stays hclosed ?_ (Or.inl hwriter) hphase (Or.inl hwriting) hsent
  rw [hwriting, hqueue, List.append_nil]

theorem flow_submitRequest {s s' : St} {callId : Int} {responseType : PeerRequestResponseType} {msg : Bytes}
    (h : s.submitRequest callId responseType msg = some s') (reader : TaskState) :
    Flow s { s' with reader := reader } [] 0 false := by
  have hsent := fun (t : Nat) (v : PeerRequestResponse) => @sent_submitRequest s s' callId responseType msg h t v
  rcases submitRequest_cases h with ⟨-, rfl⟩ | ⟨-, rfl⟩
  · exact flow_quiet rfl rfl rfl rfl (fun hp => hp) fun t v ht => Or.inl (hsent t v ht)
  · exact flow_quiet rfl rfl rfl rfl (fun hp => hp) fun t v ht => Or.inl (hsent t v ht)

theorem flow_handle {s : St} (h : Books s) (number : Nat) (r : Response) (failed : Bool) :
    Flow s { (s.handleResponse number r).1 with failed := failed } [] 0 false := by
  have hsent := fun (t : Nat) (v : PeerRequestResponse) => @sent_handleResponse s h number r t v
  obtain ⟨_, _, _, hframe, -⟩ := handleResponse_frame s number r
  rw [hframe] at hsent ⊢
  exact flow_quiet rfl rfl rfl rfl (fun hp => hp) hsent

theorem flow_step {e : Ev} {s s' : St} (h : Steady s) (hs : step e s = some s') :
    Flow s s' (entering e s) e.writes e.closes := by
  have hsame : ∀ (t : Nat) (v : PeerRequestResponse), s.cells[t]? = some (.sent v) →
      s.cells[t]? = some (.sent v) ∨ t ∈ s.requests.map PeerRequestListener.sender := fun t v ht => Or.inl ht
  cases step_happens hs with
  | submit _ hsub => exact flow_submitRequest hsub _
  | submitMessage msg => exact flow_quiet rfl rfl rfl rfl (fun hp => hp) hsame
  | waitForReady =>
    refine flow_quiet rfl rfl rfl rfl (fun hp => hp) fun t v ht => Or.inl ?_
    exact ((advance_fresh (P := fun _ => False) s.cells).sent t v ht).resolve_right id
  | sendDone hdone => exact flow_sendDone hdone
  | cancel => exact flow_quiet rfl rfl rfl rfl (fun hp => hp) hsame
  | receive r _ => exact flow_quiet rfl rfl rfl rfl (fun hp => hp) hsame
  | @handle number r _ _ => exact flow_handle h.tidy.books number r _
  | readerReturns _ => exact flow_quiet rfl rfl rfl rfl (fun hp => hp) hsame
  | readerFails _ hsub => exact flow_submitRequest hsub _
  | readerClosed _ _ => exact flow_quiet rfl rfl rfl rfl (fun hp => hp) hsame
  | readerPanics _ => exact flow_quiet rfl rfl rfl rfl (fun hp => hp) hsame
  | take hwriter hwriting hqueue =>
    refine .stays rfl ?_ (Or.inl rfl) (fun hp => hp) (Or.inr hwriter) hsame
    rw [hwriting, hqueue]
    simp [entering]
  | write hwriter hwriting => exact .writes _ hwriter hwriting rfl rfl
  | writeFails closes hwriter =>
    cases closes with
    | false => exact flow_writerEnds h hwriter false true
    | true => exact flow_writerEnds h hwriter true true
  | writerStops hwriter hwriting _ =>
    have hphase : s.phase ≠ .establishing := by
      rw [h.tidy.tasks (Or.inr (by rw [hwriter]; rfl))]
      simp
    refine .shuts _ rfl hwriting rfl hphase rfl (fun t ht => ?_) (fun t v ht => ?_)
      fun _ t ht hpending => trySendAll_sent ht hpending
    · rw [hwriting] at ht
      exact trySendAll_resolves ht
    · exact (sent_trySendAll ht).imp_right fun hmem => ⟨rfl, hmem⟩
  | writerPanics hwriter => exact flow_writerEnds h hwriter false s.cancelled
  | spawn hphase =>
    refine .stays rfl ?_ (Or.inr ⟨hphase, rfl⟩) (fun hp => by cases hp) (Or.inl rfl) hsame
    simp [entering]
  | connectionFails hphase => exact flow_neverStarts h hphase (by simp)
  | connectionPanics hphase => exact flow_neverStarts h hphase (by simp)
  | waited _ _ _ _ => exact flow_quiet rfl rfl rfl rfl (fun hp => by cases hp) hsame
  | drain _ => exact flow_quiet rfl rfl rfl rfl (fun hp => by cases hp) fun t v ht => sent_drainListeners ht

theorem steady_flow {s s' : St} {enters : List Entry} {written : Nat} {closes : Bool} (h : Steady s)
    (hflow : Flow s s' enters written closes) (htidy : Tidy s') : Steady s' := by
  cases hflow with
  | stays hclosed _ hwriter hphase htook _ =>
    refine ⟨htidy, fun hidle => ?_, fun hshut => ?_⟩
    · rcases hwriter with hwriter | ⟨-, hwriter⟩
      · rw [hwriter] at hidle
        rcases htook with htook | hrunning
        · rw [htook]; exact h.busy hidle
        · rw [hrunning] at hidle; cases hidle
      · rw [hwriter] at hidle; cases hidle
    · obtain ⟨hidle, hstarted⟩ := h.shut (hclosed ▸ hshut)
      refine ⟨?_, fun hp => hstarted (hphase hp)⟩
      rcases hwriter with hwriter | ⟨hestablishing, -⟩
      · rw [hwriter]; exact hidle
      · exact absurd hestablishing hstarted
  | writes _ hwriter _ _ hafter =>
    subst hafter
    refine ⟨htidy, fun _ => rfl, fun hshut => ?_⟩
    have hidle := (h.shut hshut).1
    rw [hwriter] at hidle
    cases hidle
  | shuts _ _ hwriting hwriter hphase => exact ⟨htidy, fun _ => hwriting, fun _ => ⟨hwriter, hphase⟩⟩

theorem steady_step {e : Ev} {s s' : St} (h : Steady s) (hs : step e s = some s') : Steady s' :=
  steady_flow h (flow_step h hs) (tidy_step h.tidy hs)

/-- A message that `send_index` gets into the queue. -/
theorem flow_sent (s : St) (m : Bytes) : Flow s { s with queue := s.queue ++ [(m, none)] } [(m, none)] 0 false :=
  .stays rfl (List.append_assoc _ _ _).symm (Or.inl rfl) (fun hp => hp) (Or.inl rfl) fun _ _ ht => Or.inl ht

theorem tidy_sent {s : St} (h : Tidy s) (m : Bytes) : Tidy { s with queue := s.queue ++ [(m, none)] } := by
  refine ⟨books_cells h.books (Advance.refl _) rfl _ _ _ _ ?_, h.tracker, h.tasks⟩
  simp only [senders_append, senders_single, Option.toList_none, List.append_nil]
  exact h.books.owns

/-! ## The startup -/

/-- `send_index` is done when the writer starts; before that, the receiver is there. -/
structure Begun (s : Startup) : Prop where
  steady : Steady s.conn
  started : s.conn.writer.active = true → s.todo = [] ∧ s.inflight = none
  waits : s.inflight.isSome = true → s.conn.phase = .establishing

theorem begun_init (indexes : List Bytes) : Begun (Startup.init indexes) :=
  ⟨steady_init, fun h => (by cases h), fun h => (by cases h)⟩

theorem Begun.isOpen {s : Startup} (h : Begun s) (hinflight : s.inflight.isSome = true) : s.conn.closed = false := by
  cases hclosed : s.conn.closed with
  | false => rfl
  | true => exact absurd (h.waits hinflight) (h.steady.shut hclosed).2

/-- A step of the startup is one of the connection, or `send_index` comes to an Index or gets it
    into the queue. -/
theorem startStep_ev {e : StartEv} {s s' : Startup} (hb : Begun s) (h : startStep e s = some s') :
    (∃ ev, e.ev = some ev ∧ step ev s.conn = some s'.conn ∧ s' = { s with conn := s'.conn } ∧
      (ev ∈ ownEv → s.inflight = none) ∧ (ev = .spawn → s.todo = [])) ∨
    (∃ m rest, e = .next ∧ s.conn.phase = .establishing ∧ s.inflight = none ∧ s.todo = m :: rest ∧
      s' = { s with todo := rest, inflight := some m }) ∨
    (∃ m, e = .sent ∧ s.inflight = some m ∧ s.conn.closed = false ∧
      s' = { s with conn := { s.conn with queue := s.conn.queue ++ [(m, none)] }, inflight := none }) := by
  obtain ⟨ev, c, hev, hc, rfl, hown, hspawn⟩ | hnext | ⟨m, -, hm, hclosed, -⟩ | hsent := startStep_cases h
  · exact .inl ⟨ev, hev, hc, rfl, hown, hspawn⟩
  · exact .inr (.inl hnext)
  · exact absurd hclosed (by rw [hb.isOpen (by rw [hm]; rfl)]; simp)
  · exact .inr (.inr hsent)

theorem flow_start {e : StartEv} {s s' : Startup} (hb : Begun s) (h : startStep e s = some s') :
    Flow s.conn s'.conn (e.entering s) e.writes e.closes := by
  obtain ⟨ev, hev, hstep, -⟩ | ⟨m, rest, rfl, -, -, -, rfl⟩ | ⟨m, rfl, hm, hopen, rfl⟩ := startStep_ev hb h
  · have hflow := flow_step hb.steady hstep
    cases e with
    | other ev' => cases hev; exact hflow
    | next | sent => cases hev
    | spawn | fails | panics => cases hev; exact hflow
  · exact flow_quiet rfl rfl rfl rfl (fun hp => hp) fun _ _ ht => Or.inl ht
  · have hentering : StartEv.sent.entering s = [(m, none)] := by simp [StartEv.entering, hopen, hm]
    rw [hentering]
    exact flow_sent s.conn m

theorem begun_step {e : StartEv} {s s' : Startup} (hb : Begun s) (h : startStep e s = some s') : Begun s' := by
  obtain ⟨ev, -, hstep, hs', hown, hspawn⟩ | ⟨m, rest, -, hphase, -, -, rfl⟩ | ⟨m, -, hm, -, rfl⟩ := startStep_ev hb h
  · refine ⟨steady_step hb.steady hstep, fun hactive => ?_, fun hinflight => ?_⟩
    · rw [hs']
      by_cases he : ev = .spawn
      · exact ⟨hspawn he, hown (he ▸ List.mem_cons_self)⟩
      · refine hb.started ?_
        cases (step_moves hstep).2 with
        | stays _ _ _ hwriter _ _ => exact hwriter ▸ hactive
        | registers _ _ _ hwriter _ _ => exact hwriter ▸ hactive
        | readerEnds _ _ _ _ hwriter _ _ => exact hwriter ▸ hactive
        | writerEnds _ _ _ _ hwriter _ _ => rw [hwriter] at hactive; cases hactive
        | spawns _ _ => exact absurd rfl he
        | fails _ _ hwriter _ => exact hwriter ▸ hactive
        | panics _ _ hwriter _ _ => exact hwriter ▸ hactive
        | waits hclosed => rw [hb.steady.tidy.tracker] at hclosed; cases hclosed
        | drains _ _ hwriter _ _ => exact hwriter ▸ hactive
    · rw [hs'] at hinflight
      have hphase := hb.waits hinflight
      have hnot : ev ∉ ownEv := fun hmem => by rw [hown hmem] at hinflight; cases hinflight
      cases (step_moves hstep).2 with
      | stays _ _ _ _ hkept _ => exact hkept.trans hphase
      | registers _ _ _ _ hkept _ => exact hkept.trans hphase
      | readerEnds _ _ _ _ _ hkept _ => exact hkept.trans hphase
      | writerEnds _ _ _ _ _ hkept _ => exact hkept.trans hphase
      | spawns _ _ => exact absurd (by simp [ownEv]) hnot
      | fails _ _ _ _ => exact absurd (by simp [ownEv]) hnot
      | panics _ _ _ _ _ => exact absurd (by simp [ownEv]) hnot
      | waits hclosed => rw [hb.steady.tidy.tracker] at hclosed; cases hclosed
      | drains hbefore _ _ _ _ => rw [hphase] at hbefore; cases hbefore
  · refine ⟨hb.steady, fun hactive => ?_, fun _ => hphase⟩
    have hwaiting := hb.steady.tidy.tasks (Or.inr hactive)
    rw [hphase] at hwaiting
    cases hwaiting
  · have hsteady := steady_flow hb.steady (flow_sent s.conn m) (tidy_sent hb.steady.tidy m)
    refine ⟨hsteady, fun hactive => ?_, fun hnone => by cases hnone⟩
    exact ⟨(hb.started hactive).1, rfl⟩

/-! ## The calls -/

theorem calls_submitRequest {s s' : St} {callId : Int} {responseType : PeerRequestResponseType} {msg : Bytes}
    (h : s.submitRequest callId responseType msg = some s') : s.calls <+: s'.calls := by
  rcases submitRequest_cases h with ⟨-, rfl⟩ | ⟨-, rfl⟩
  · exact List.prefix_append _ _
  · exact List.prefix_append _ _

/-- The calls that were made stay. -/
theorem calls_step {e : Ev} {s s' : St} (h : step e s = some s') : s.calls <+: s'.calls := by
  cases step_happens h with
  | submit _ hsub => exact calls_submitRequest hsub
  | readerFails _ hsub =>
    have hcalls := calls_submitRequest hsub
    exact hcalls
  | waitForReady => exact List.prefix_append _ _
  | sendDone hdone => obtain ⟨e, -, ⟨-, rfl⟩ | ⟨-, rfl⟩⟩ := sendDone_cases hdone <;> exact List.prefix_rfl
  | @handle number r _ _ =>
    obtain ⟨_, _, _, hframe, -⟩ := handleResponse_frame s number r
    have hcalls : (s.handleResponse number r).1.calls = s.calls := by rw [hframe]
    exact hcalls.symm ▸ List.prefix_rfl
  | writeFails closes _ => cases closes <;> exact List.prefix_rfl
  | _ => exact List.prefix_rfl

/-- What a step of the startup leaves: the calls, and the channels that are resolved. -/
theorem kept_start {e : StartEv} {s s' : Startup} (hb : Begun s) (h : startStep e s = some s') :
    s.conn.calls <+: s'.conn.calls ∧ Advance (fun _ => True) s.conn.cells s'.conn.cells := by
  obtain ⟨ev, -, hstep, -⟩ | ⟨m, rest, -, -, -, -, rfl⟩ | ⟨m, -, -, -, rfl⟩ := startStep_ev hb h
  · exact ⟨calls_step hstep, (kept_step hb.steady.tidy.books hstep).cells⟩
  · exact ⟨List.prefix_rfl, Advance.refl _⟩
  · exact ⟨List.prefix_rfl, Advance.refl _⟩

/-- What gets into the queue was on its way there. -/
theorem entering_held {e : StartEv} {s : Startup} {x : Entry} {t : Nat} (hx : x ∈ e.entering s) (ht : x.2 = some t) :
    s.conn.closed = false ∧ t ∈ s.conn.held := by
  cases hclosed : s.conn.closed with
  | true =>
    cases e with
    | other ev => cases ev <;> simp [StartEv.entering, entering, hclosed] at hx
    | sent => simp [StartEv.entering, hclosed] at hx
    | next | spawn | fails | panics => cases hx
  | false =>
    refine ⟨rfl, ?_⟩
    cases e with
    | other ev =>
      cases ev with
      | sendDone i =>
        simp only [StartEv.entering, entering, hclosed, Bool.false_eq_true, if_false, Option.mem_toList] at hx
        refine List.mem_append_right _ (List.mem_append_right _ ?_)
        exact List.mem_filterMap.mpr ⟨x, List.mem_of_getElem? hx, ht⟩
      | _ => cases hx
    | sent =>
      simp only [StartEv.entering, hclosed, Bool.false_eq_true, if_false, Option.mem_toList] at hx
      obtain ⟨m, -, rfl⟩ := Option.map_eq_some_iff.mp hx
      cases ht
    | next | spawn | fails | panics => cases hx

/-! ## The order of the queue -/

/-- Two places of a list whose senders differ, with one sender. -/
theorem senders_inj {l : List Entry} (h : (senders l).Nodup) {a b : Nat} {m m' : Bytes} {t : Nat}
    (ha : l[a]? = some (m, some t)) (hb : l[b]? = some (m', some t)) : a = b := by
  have hpairs := List.pairwise_filterMap.mp h
  have hne : ∀ {a b : Nat} {m m' : Bytes}, l[a]? = some (m, some t) → l[b]? = some (m', some t) → ¬ a < b := by
    intro a b m m' ha hb hlt
    obtain ⟨hla, ha⟩ := List.getElem?_eq_some_iff.mp ha
    obtain ⟨hlb, hb⟩ := List.getElem?_eq_some_iff.mp hb
    exact List.pairwise_iff_getElem.mp hpairs a b hla hlb hlt t (by rw [ha]) t (by rw [hb]) rfl
  have := hne ha hb
  have := hne hb ha
  omega

/-- The places from `w` on, `n` of them, as a list. -/
theorem forall_places {α : Type} {l : List α} {w n : Nat} {p : α → Prop} :
    (∀ j x, l[j]? = some x → j < w + n → ¬ p x → j < w) ↔ ∀ x ∈ (l.drop w).take n, p x := by
  constructor
  · intro h x hx
    by_contra hp
    obtain ⟨k, hk⟩ := List.mem_iff_getElem?.mp hx
    rw [List.getElem?_take, List.getElem?_drop] at hk
    split at hk
    · have := h (w + k) x hk (by omega) hp
      omega
    · cases hk
  · intro h j x hj hlt hp
    by_contra hge
    refine hp (h x (List.mem_iff_getElem?.mpr ⟨j - w, ?_⟩))
    rw [List.getElem?_take_of_lt (by omega), List.getElem?_drop, Nat.add_sub_cancel' (by omega)]
    exact hj

/-- The writer has written the messages in the order they were queued, and has in hand or still
    to come just the others. -/
structure Ordered (s : Session) : Prop where
  begun : Begun s.start
  counted : s.initial.length + s.start.todo.length + s.start.inflight.toList.length = s.folders
  waiting : s.start.conn.closed = false →
    s.written ≤ s.queued.length ∧ s.queued.drop s.written = s.start.conn.writing.toList ++ s.start.conn.queue
  /-- A sender that can still be used is not behind the writer. -/
  spent : ∀ j x t, s.queued[j]? = some x → x.2 = some t → t < s.start.conn.cells.length ∧
    (s.start.conn.cells[t]? = some .pending → s.start.conn.closed = false ∧ s.written ≤ j)

theorem ordered_init (indexes : List Bytes) : Ordered (Session.init indexes) := by
  refine ⟨begun_init indexes, ?_, fun _ => ⟨Nat.le_refl _, rfl⟩, fun j x t hx => by cases hx⟩
  simp [Session.init, Startup.init]

theorem sessionStep_start {e : StartEv} {s s' : Session} (h : sessionStep (.start e) s = some s') :
    s.reaches e = true ∧ ∃ start, startStep e s.start = some start ∧ s' = s.after e start := by
  simp only [sessionStep] at h
  split at h
  · rename_i hreaches
    obtain ⟨start, hstart, rfl⟩ := Option.map_eq_some_iff.mp h
    exact ⟨hreaches, start, hstart, rfl⟩
  · cases h

/-- The Hello and the ClusterConfig change nothing else. -/
theorem sessionStep_own {e : SessionEv} {s s' : Session} (h : sessionStep e s = some s') (he : ∀ ev, e ≠ .start ev) :
    ∃ hello config, s' = { s with hello := hello, config := config } ∧ (s.hello = true → hello = true) ∧
      (s.config = true → config = true) := by
  cases e with
  | hello =>
    simp only [sessionStep] at h
    split at h
    · exact ⟨true, s.config, (Option.some.inj h).symm, fun _ => rfl, id⟩
    · cases h
  | config =>
    simp only [sessionStep] at h
    split at h
    · exact ⟨s.hello, true, (Option.some.inj h).symm, id, fun _ => rfl⟩
    · cases h
  | start ev => exact absurd rfl (he ev)

theorem counted_start {s : Session} {e : StartEv} {start : Startup} (h : Ordered s) (hs : startStep e s.start = some start) :
    (s.after e start).initial.length + start.todo.length + start.inflight.toList.length = s.folders := by
  have hcount := h.counted
  simp only [Session.after, List.length_append]
  obtain ⟨ev, hev, -, hstart, -⟩ | ⟨m, rest, rfl, -, hidle, htodo, rfl⟩ | ⟨m, rfl, hm, hopen, rfl⟩ :=
    startStep_ev h.begun hs
  · have hne : ¬ (e = .sent ∧ s.start.conn.closed = false) := fun he => by rw [he.1] at hev; cases hev
    rw [hstart, if_neg hne]
    exact hcount
  · rw [hidle, htodo] at hcount
    simp only [Option.toList_none, Option.toList_some, List.length_nil, List.length_cons] at hcount ⊢
    simp only [reduceCtorEq, false_and, if_false, List.length_nil]
    omega
  · rw [hm] at hcount
    simp only [hopen, and_self, if_true, Option.toList_none, Option.toList_some, List.length_nil, List.length_cons] at hcount ⊢
    omega

theorem waiting_start {s : Session} {e : StartEv} {start : Startup} (h : Ordered s) (hs : startStep e s.start = some start)
    (hopen : start.conn.closed = false) : (s.after e start).written ≤ (s.after e start).queued.length ∧
      (s.after e start).queued.drop (s.after e start).written = start.conn.writing.toList ++ start.conn.queue := by
  have hflow := flow_start h.begun hs
  simp only [Session.after]
  generalize e.entering s.start = enters at hflow ⊢
  generalize e.writes = written at hflow ⊢
  generalize e.closes = closes at hflow
  cases hflow with
  | stays hclosed hqueue _ _ _ _ =>
    obtain ⟨hle, hdrop⟩ := h.waiting (hclosed ▸ hopen)
    rw [List.length_append, Nat.add_zero, List.drop_append_of_le_length hle, hdrop, hqueue]
    exact ⟨by omega, rfl⟩
  | writes x _ hwriting henters hafter =>
    rw [hafter] at hopen ⊢
    obtain ⟨hle, hdrop⟩ := h.waiting hopen
    rw [hwriting] at hdrop
    have hlt : s.written < s.queued.length := by
      by_contra hge
      rw [List.drop_eq_nil_of_le (by omega)] at hdrop
      cases hdrop
    rw [henters, List.append_nil, ← List.drop_drop, hdrop]
    exact ⟨hlt, rfl⟩
  | shuts _ hclosed => rw [hclosed] at hopen; cases hopen

theorem spent_start {s : Session} {e : StartEv} {start : Startup} (h : Ordered s) (hs : startStep e s.start = some start)
    {j : Nat} {x : Entry} {t : Nat} (hx : (s.after e start).queued[j]? = some x) (ht : x.2 = some t) :
    t < start.conn.cells.length ∧
      (start.conn.cells[t]? = some .pending → start.conn.closed = false ∧ (s.after e start).written ≤ j) := by
  have hadvance := (kept_start h.begun hs).2
  have hflow := flow_start h.begun hs
  simp only [Session.after] at hx ⊢
  by_cases hj : j < s.queued.length
  · -- an old place: the sender was there, and pending if it is now
    rw [List.getElem?_append_left hj] at hx
    obtain ⟨hlt, hspent⟩ := h.spent j x t hx ht
    refine ⟨Nat.lt_of_lt_of_le hlt hadvance.length, fun hpending => ?_⟩
    obtain ⟨hopen, hle⟩ := hspent (hadvance.pending hpending hlt)
    have hplace : (s.start.conn.writing.toList ++ s.start.conn.queue)[j - s.written]? = some x := by
      rw [← (h.waiting hopen).2, List.getElem?_drop, Nat.add_sub_cancel' hle]
      exact hx
    have hmem : t ∈ senders (s.start.conn.writing.toList ++ s.start.conn.queue) :=
      List.mem_filterMap.mpr ⟨x, List.mem_of_getElem? hplace, ht⟩
    generalize e.entering s.start = enters at hflow
    generalize e.writes = written at hflow ⊢
    generalize e.closes = closes at hflow
    cases hflow with
    | stays hclosed _ _ _ _ _ => exact ⟨hclosed.trans hopen, hle⟩
    | writes y _ hwriting _ hafter =>
      rw [hafter] at hpending ⊢
      refine ⟨hopen, ?_⟩
      by_contra hlt'
      have hfirst : j - s.written = 0 := by omega
      rw [hfirst, hwriting] at hplace
      have hxy : y = x := by simpa using hplace
      exact trySendAll_resolves (Option.mem_toList.mpr (hxy ▸ ht)) hpending
    | shuts _ _ _ _ _ _ hresolved => exact absurd hpending (hresolved t hmem)
  · -- a new one
    rw [List.getElem?_append_right (by omega)] at hx
    have hmem := List.mem_of_getElem? hx
    obtain ⟨hopen, hheld⟩ := entering_held hmem ht
    refine ⟨Nat.lt_of_lt_of_le (h.begun.steady.tidy.books.owns.lt hheld) hadvance.length, fun _ => ?_⟩
    have hle := (h.waiting hopen).1
    generalize e.entering s.start = enters at hflow hmem
    generalize e.writes = written at hflow ⊢
    generalize e.closes = closes at hflow
    cases hflow with
    | stays hclosed _ _ _ _ _ => exact ⟨hclosed.trans hopen, by omega⟩
    | writes _ _ _ henters _ => rw [henters] at hmem; cases hmem
    | shuts _ _ _ _ _ henters => rw [henters] at hmem; cases hmem

theorem ordered_step {e : SessionEv} {s s' : Session} (h : Ordered s) (hs : sessionStep e s = some s') : Ordered s' := by
  by_cases he : ∀ ev, e ≠ .start ev
  · obtain ⟨hello, config, rfl, -⟩ := sessionStep_own hs he
    exact ⟨h.begun, h.counted, h.waiting, h.spent⟩
  · obtain ⟨ev, rfl⟩ := not_forall_not.mp he
    obtain ⟨-, start, hstart, rfl⟩ := sessionStep_start hs
    exact ⟨begun_step h.begun hstart, counted_start h hstart, fun hopen => waiting_start h hstart hopen,
      fun j x t hx ht => spent_start h hstart hx ht⟩

/-! ## What a step makes of the truth -/

theorem readyOk_iff {s : Session} {t : Nat} :
    ReadyOk s t ↔ s.start.conn.calls[t]?.map Call.responseType = some .whenReady ∧ t ∈ senders s.queued ∧
      ∃ v, s.start.conn.cells[t]? = some (.sent v) := by
  constructor
  · rintro ⟨hcall, o, error, ho, hok⟩
    cases o with
    | pending => cases hok
    | canceled => cases hok
    | sent v =>
      refine ⟨hcall, ?_, v, ho⟩
      by_contra hnot
      simp [waitForReady, hnot] at hok
  · rintro ⟨hcall, hmem, v, hv⟩
    exact ⟨hcall, _, none, hv, by simp [waitForReady, hmem]⟩

theorem mem_senders {l : List Entry} {t : Nat} : t ∈ senders l ↔ ∃ (i : Nat) (m : Bytes), l[i]? = some (m, some t) := by
  constructor
  · intro h
    obtain ⟨⟨m, _⟩, hx, rfl⟩ := List.mem_filterMap.mp h
    obtain ⟨i, hi⟩ := List.mem_iff_getElem?.mp hx
    exact ⟨i, m, hi⟩
  · rintro ⟨i, m, hi⟩
    exact List.mem_filterMap.mpr ⟨_, List.mem_of_getElem? hi, rfl⟩

/-- What waits for the writer is not answered. -/
theorem Ordered.pending {s : Session} (h : Ordered s) {p : Nat} {m : Bytes} {t : Nat}
    (hp : (s.start.conn.writing.toList ++ s.start.conn.queue)[p]? = some (m, some t)) :
    s.start.conn.cells[t]? = some .pending := by
  refine h.begun.steady.tidy.books.owns.pending t (List.mem_append_right _ (List.mem_append_left _ ?_))
  rw [← senders_append]
  exact mem_senders.mpr ⟨p, m, hp⟩

/-- A sender that waits has one place in the queue's order. -/
theorem Ordered.place {s : Session} (h : Ordered s) (hopen : s.start.conn.closed = false) {p i : Nat} {m m' : Bytes} {t : Nat}
    (hp : (s.start.conn.writing.toList ++ s.start.conn.queue)[p]? = some (m, some t)) (hi : s.queued[i]? = some (m', some t)) :
    i = s.written + p := by
  have hle := ((h.spent i _ t hi rfl).2 (h.pending hp)).2
  have hnodup : (senders (s.start.conn.writing.toList ++ s.start.conn.queue)).Nodup := by
    rw [senders_append]
    exact h.begun.steady.tidy.books.owns.nodup.sublist ((List.sublist_append_left _ _).trans (List.sublist_append_right _ _))
  have hi' : (s.start.conn.writing.toList ++ s.start.conn.queue)[i - s.written]? = some (m', some t) := by
    rw [← (h.waiting hopen).2, List.getElem?_drop, Nat.add_sub_cancel' hle]
    exact hi
  have := senders_inj hnodup hp hi'
  omega

theorem Ordered.queued_place {s : Session} (h : Ordered s) (hopen : s.start.conn.closed = false) (p : Nat) :
    s.queued[s.written + p]? = (s.start.conn.writing.toList ++ s.start.conn.queue)[p]? := by
  rw [← (h.waiting hopen).2, List.getElem?_drop]

/-- When the writer runs, the initial Indexes are all in the queue. -/
theorem Ordered.indexed {s : Session} (h : Ordered s) (hwriter : s.start.conn.writer = .running) :
    s.initial.length = s.folders := by
  obtain ⟨htodo, hidle⟩ := h.begun.started (by rw [hwriter]; rfl)
  have hcount := h.counted
  rw [htodo, hidle] at hcount
  exact hcount

theorem initial_after {s : Session} {e : StartEv} {start : Startup} (he : e ≠ .sent) : (s.after e start).initial = s.initial := by
  simp [Session.after, he]

/-- A call that was told the truth has been told it for good. -/
theorem sent_after {indexes : Bool} {s : Session} {e : StartEv} {start : Startup} {t : Nat} (h : Ordered s)
    (hs : startStep e s.start = some start) (hsent : Sent indexes s t) (hnew : t ∉ senders (e.entering s.start)) :
    Sent indexes (s.after e start) t := by
  refine ⟨hsent.hello, hsent.config, fun i m hi j x hj hlt hx => ?_, fun hindexes => ?_⟩
  · have hold : i < s.queued.length := by
      by_contra hge
      refine hnew (mem_senders.mpr ⟨i - s.queued.length, m, ?_⟩)
      rw [← List.getElem?_append_right (Nat.le_of_not_lt hge)]
      exact hi
    have hi' : s.queued[i]? = some (m, some t) := (List.getElem?_append_left hold).symm.trans hi
    have hj' : s.queued[j]? = some x := (List.getElem?_append_left (by omega)).symm.trans hj
    exact Nat.lt_of_lt_of_le (hsent.before i m hi' j x hj' hlt hx) (Nat.le_add_right _ _)
  · obtain ⟨hall, hwritten⟩ := hsent.initial hindexes
    have hne : e ≠ .sent := by
      rintro rfl
      obtain ⟨_, hev, -⟩ | ⟨_, _, he, -⟩ | ⟨m, -, hm, -⟩ := startStep_ev h.begun hs
      · cases hev
      · cases he
      · have hcount := h.counted
        rw [hm] at hcount
        simp only [Option.toList_some, List.length_singleton] at hcount
        omega
    rw [initial_after hne]
    exact ⟨hall, fun j hj => Nat.lt_of_lt_of_le (hwritten j hj) (Nat.le_add_right _ _)⟩

/-- A call that was made before a step. -/
theorem call_before {e : StartEv} {s s' : Startup} (hb : Begun s) (h : startStep e s = some s') {t : Nat}
    (ht : t < s.conn.cells.length) : s'.conn.calls[t]? = s.conn.calls[t]? := by
  rw [← hb.steady.tidy.books.count] at ht
  rw [List.getElem?_eq_getElem ht]
  exact getElem?_prefix (kept_start hb h).1 (List.getElem?_eq_getElem ht)

/-- What gets into the queue is not answered by then. -/
theorem entering_pending {e : StartEv} {s s' : Startup} (hb : Begun s) (h : startStep e s = some s') {t : Nat}
    (ht : t ∈ senders (e.entering s)) (hcall : s'.conn.calls[t]?.map Call.responseType = some .whenReady)
    (v : PeerRequestResponse) : s'.conn.cells[t]? ≠ some (.sent v) := by
  intro hv
  obtain ⟨x, hx, hsender⟩ := List.mem_filterMap.mp ht
  have hpending := hb.steady.tidy.books.owns.pending t (entering_held hx hsender).2
  have hflow := flow_start hb h
  generalize e.entering s = enters at hflow hx
  generalize e.writes = written at hflow
  generalize e.closes = closes at hflow
  cases hflow with
  | stays _ _ _ _ _ hsent =>
    rcases hsent t v hv with hold | hlistens
    · rw [hpending] at hold; cases hold
    · obtain ⟨l, hl, rfl⟩ := List.mem_map.mp hlistens
      rw [call_before hb h (List.getElem?_eq_some_iff.mp hpending).1, (hb.steady.tidy.books.listed l hl).2] at hcall
      cases hcall
  | writes _ _ _ henters _ => rw [henters] at hx; cases hx
  | shuts _ _ _ _ _ henters => rw [henters] at hx; cases hx

/-- A call is answered by a step. -/
def NowAnswered (s : Session) (start : Startup) (t : Nat) : Prop :=
  s.start.conn.calls[t]?.map Call.responseType = some .whenReady ∧ t ∈ senders s.queued ∧
    (∀ v, s.start.conn.cells[t]? ≠ some (.sent v)) ∧ ∃ v, start.conn.cells[t]? = some (.sent v)

/-- Only the calls that a step answers matter. -/
theorem truthful_after {indexes : Bool} {s : Session} {e : StartEv} {start : Startup} (h : Ordered s)
    (htrue : Truthful indexes s) (hs : startStep e s.start = some start) :
    Truthful indexes (s.after e start) ↔ ∀ t, NowAnswered s start t → Sent indexes (s.after e start) t := by
  have hsplit : ∀ {t : Nat}, t ∈ senders (s.after e start).queued ↔
      t ∈ senders s.queued ∨ t ∈ senders (e.entering s.start) := by
    intro t
    rw [Session.after, senders_append, List.mem_append]
  constructor
  · rintro hafter t ⟨hcall, hmem, -, hsent⟩
    obtain ⟨i, m, hi⟩ := mem_senders.mp hmem
    refine hafter t (readyOk_iff.mpr ⟨?_, hsplit.mpr (Or.inl hmem), hsent⟩)
    show start.conn.calls[t]?.map Call.responseType = _
    rw [call_before h.begun hs (h.spent i _ t hi rfl).1]
    exact hcall
  · intro hnew t hok
    obtain ⟨hcall, hmem, v, hv⟩ := readyOk_iff.mp hok
    have hnot : t ∉ senders (e.entering s.start) := fun ht => entering_pending h.begun hs ht hcall v hv
    have hqueued := (hsplit.mp hmem).resolve_right hnot
    obtain ⟨i, m, hi⟩ := mem_senders.mp hqueued
    have hcall' : s.start.conn.calls[t]?.map Call.responseType = some .whenReady := by
      rw [← call_before h.begun hs (h.spent i _ t hi rfl).1]
      exact hcall
    by_cases hold : ∃ w, s.start.conn.cells[t]? = some (.sent w)
    · exact sent_after h hs (htrue t (readyOk_iff.mpr ⟨hcall', hqueued, hold⟩)) hnot
    · exact hnew t ⟨hcall', hqueued, not_exists.mp hold, v, hv⟩

/-- The places ahead of one in the queue, all of them written or empty. -/
theorem Ordered.ahead {s : Session} (h : Ordered s) (hopen : s.start.conn.closed = false) (k : Nat) :
    (∀ j x, s.queued[j]? = some x → j < s.written + (s.start.conn.writing.toList.length + k) → x.1 ≠ [] →
      j < s.written) ↔
      ∀ x ∈ s.start.conn.writing.toList ++ s.start.conn.queue.take k, x.1 = [] := by
  rw [@forall_places _ s.queued s.written _ fun x : Entry => x.1 = [], (h.waiting hopen).2, List.take_length_add_append]

theorem running_of_writes {e : StartEv} {s s' : Startup} (h : startStep e s = some s') (he : e.writes = 1) :
    e = .other .write ∧ s.conn.writer = .running := by
  cases e with
  | other ev =>
    cases ev with
    | write =>
      obtain ⟨c, hc, -⟩ := Option.map_eq_some_iff.mp h
      cases step_happens hc with
      | write hwriter _ => exact ⟨rfl, hwriter⟩
    | _ => cases he
  | _ => cases he

theorem running_of_closes {e : StartEv} {s s' : Startup} (h : startStep e s = some s') (he : e.closes = true) :
    e ≠ .sent ∧ s.conn.writer = .running := by
  cases e with
  | other ev =>
    refine ⟨by simp, ?_⟩
    cases ev with
    | writeFails closes =>
      obtain ⟨c, hc, -⟩ := Option.map_eq_some_iff.mp h
      cases step_happens hc with
      | writeFails _ hwriter => exact hwriter
    | writerStops =>
      obtain ⟨c, hc, -⟩ := Option.map_eq_some_iff.mp h
      cases step_happens hc with
      | writerStops hwriter _ _ => exact hwriter
    | _ => cases he
  | _ => cases he

/-- A writer that runs has its receiver. -/
theorem Ordered.isOpen {s : Session} (h : Ordered s) (hwriter : s.start.conn.writer = .running) :
    s.start.conn.closed = false := by
  by_contra hclosed
  have hidle := (h.begun.steady.shut (by simpa using hclosed)).1
  rw [hwriter] at hidle
  cases hidle

/-- The writer answers the marker it has in hand. -/
theorem truthful_write {indexes : Bool} {s : Session} {start : Startup} (h : Ordered s) (htrue : Truthful indexes s)
    (hreaches : s.reaches (.other .write) = true) (hs : startStep (.other .write) s.start = some start) :
    Truthful indexes (s.after (.other .write) start) ↔ WriteHonest indexes s := by
  rw [truthful_after h htrue hs]
  obtain ⟨hhello, hconfig⟩ : s.hello = true ∧ s.config = true := by simpa [Session.reaches] using hreaches
  have hqueued : (s.after (.other .write) start).queued = s.queued := List.append_nil _
  have hinitial : (s.after (.other .write) start).initial = s.initial := initial_after (by simp)
  obtain ⟨c, hc, rfl⟩ := Option.map_eq_some_iff.mp hs
  cases step_happens hc with
  | @write x hwriter hwriting =>
  have hopen := h.isOpen hwriter
  have hplace : (s.start.conn.writing.toList ++ s.start.conn.queue)[0]? = some x := by rw [hwriting]; rfl
  constructor
  · intro hall m t hm hcall hindexes j hj
    obtain rfl : x = (m, some t) := Option.some.inj (hwriting.symm.trans hm)
    have hpending := h.pending hplace
    have hmem : t ∈ senders s.queued := mem_senders.mpr ⟨_, m, (h.queued_place hopen 0).trans hplace⟩
    have hsent := hall t ⟨hcall, hmem, fun v hv => (by rw [hpending] at hv; cases hv),
      .sent, trySendAll_sent (List.mem_singleton_self t) hpending⟩
    exact Nat.lt_succ_iff.mp ((hsent.initial hindexes).2 j (hinitial ▸ hj))
  · rintro hhonest t ⟨hcall, -, hnot, v, hv⟩
    have hsender : x.2 = some t := Option.mem_toList.mp ((sent_trySendAll hv).resolve_left (hnot v))
    have hx : x = (x.1, some t) := Prod.ext rfl hsender
    rw [hx] at hplace hwriting
    refine ⟨hhello, hconfig, fun i m hi j y hj hlt _ => ?_, fun hindexes => ?_⟩
    · have hi' := h.place hopen hplace (hqueued ▸ hi)
      show j < s.written + 1
      omega
    · rw [hinitial]
      exact ⟨h.indexed hwriter, fun j hj => Nat.lt_succ_iff.mpr (hhonest x.1 t hwriting hcall hindexes j hj)⟩

/-- `close_receiver` answers what is left in the queue. -/
theorem truthful_close {indexes : Bool} {s : Session} {e : StartEv} {start : Startup} (h : Ordered s)
    (htrue : Truthful indexes s) (hcloses : e.closes = true) (hs : startStep e s.start = some start) :
    Truthful indexes (s.after e start) ↔ CloseHonest indexes s := by
  rw [truthful_after h htrue hs]
  obtain ⟨hne, hwriter⟩ := running_of_closes hs hcloses
  have hopen := h.isOpen hwriter
  have hinitial : (s.after e start).initial = s.initial := initial_after hne
  have hflow := flow_start h.begun hs
  have hafter : (s.after e start).queued = s.queued ++ e.entering s.start := rfl
  have hdone : (s.after e start).written = s.written + e.writes := rfl
  rw [hcloses] at hflow
  generalize e.entering s.start = enters at hflow hafter
  generalize e.writes = written at hflow hdone
  cases hflow with
  | shuts _ _ _ _ _ henters _ hsent hanswers =>
  rw [henters, List.append_nil] at hafter
  -- the place of a marker of the queue in what was queued
  have hplace : ∀ {k : Nat} {m : Bytes} {t : Nat}, s.start.conn.queue[k]? = some (m, some t) →
      (s.start.conn.writing.toList ++ s.start.conn.queue)[s.start.conn.writing.toList.length + k]? = some (m, some t) := by
    intro k m t hk
    rw [List.getElem?_append_right (Nat.le_add_right _ _), Nat.add_sub_cancel_left]
    exact hk
  constructor
  · intro hall k m t hk hcall
    have hpending := h.pending (hplace hk)
    have hqueued := (h.queued_place hopen _).trans (hplace hk)
    have hsent' := hall t ⟨hcall, mem_senders.mpr ⟨_, m, hqueued⟩, fun v hv => (by rw [hpending] at hv; cases hv),
      .closed, hanswers rfl t (mem_senders.mpr ⟨k, m, hk⟩) hpending⟩
    have hbefore := hsent'.before _ m (hafter ▸ hqueued)
    rw [hafter, hdone, Nat.add_zero] at hbefore
    refine ⟨hsent'.hello, hsent'.config, (h.ahead hopen k).mp hbefore, fun hindexes j hj => ?_⟩
    have hlt := (hsent'.initial hindexes).2 j (hinitial ▸ hj)
    rwa [hdone, Nat.add_zero] at hlt
  · rintro hhonest t ⟨hcall, -, hnot, v, hv⟩
    obtain ⟨k, m, hk⟩ := mem_senders.mp (((hsent t v hv).resolve_left (hnot v)).2)
    obtain ⟨hhello, hconfig, hempty, hindexed⟩ := hhonest k m t hk hcall
    refine ⟨hhello, hconfig, fun i m' hi => ?_, fun hindexes => ?_⟩
    · rw [hafter] at hi ⊢
      rw [hdone, Nat.add_zero, h.place hopen (hplace hk) hi]
      exact (h.ahead hopen k).mpr hempty
    · rw [hinitial, hdone, Nat.add_zero]
      exact ⟨h.indexed hwriter, hindexed hindexes⟩

/-- Every other step answers no marker. -/
theorem truthful_other {indexes : Bool} {s : Session} {e : StartEv} {start : Startup} (h : Ordered s)
    (htrue : Truthful indexes s) (hcloses : e.closes = false) (hwrites : e.writes ≠ 1) (hs : startStep e s.start = some start) :
    Truthful indexes (s.after e start) := by
  refine (truthful_after h htrue hs).mpr ?_
  rintro t ⟨hcall, hmem, hnot, v, hv⟩
  exfalso
  have hflow := flow_start h.begun hs
  rw [hcloses] at hflow
  generalize e.entering s.start = enters at hflow
  generalize e.writes = written at hflow hwrites
  cases hflow with
  | stays _ _ _ _ _ hsent =>
    obtain ⟨l, hl, rfl⟩ := List.mem_map.mp ((hsent t v hv).resolve_left (hnot v))
    rw [(h.begun.steady.tidy.books.listed l hl).2] at hcall
    cases hcall
  | writes _ _ _ _ _ => exact hwrites rfl
  | shuts _ _ _ _ _ _ _ hsent => exact absurd ((hsent t v hv).resolve_left (hnot v)).1 (by simp)

theorem truthful_step {indexes : Bool} {e : SessionEv} {s : Session} (h : Ordered s) (htrue : Truthful indexes s) :
    (∀ s', sessionStep e s = some s' → Truthful indexes s') ↔ Honest indexes e s := by
  by_cases he : ∀ ev, e ≠ .start ev
  · refine iff_of_true (fun s' hs => ?_) ?_
    · obtain ⟨hello, config, rfl, hhello, hconfig⟩ := sessionStep_own hs he
      intro t hok
      obtain ⟨hsaid, hlisted, hbefore, hinitial⟩ := htrue t hok
      exact ⟨hhello hsaid, hconfig hlisted, hbefore, hinitial⟩
    · cases e with
      | start ev => exact absurd rfl (he ev)
      | hello | config => trivial
  · obtain ⟨ev, rfl⟩ := not_forall_not.mp he
    -- with the step, and without
    have hsplit : (∀ s', sessionStep (.start ev) s = some s' → Truthful indexes s') ↔
        ((sessionStep (.start ev) s).isSome = true → ∀ s', sessionStep (.start ev) s = some s' → Truthful indexes s') :=
      ⟨fun hall _ => hall, fun hall s' hs => hall (by rw [hs]; rfl) s' hs⟩
    rw [hsplit]
    refine forall_congr' fun hsome => ?_
    obtain ⟨s', hs⟩ := Option.isSome_iff_exists.mp hsome
    obtain ⟨hreaches, start, hstart, rfl⟩ := sessionStep_start hs
    have hone : (∀ s', sessionStep (.start ev) s = some s' → Truthful indexes s') ↔ Truthful indexes (s.after ev start) :=
      ⟨fun hall => hall _ hs, fun hnext s' hs' => Option.some.inj (hs.symm.trans hs') ▸ hnext⟩
    rw [hone]
    cases hcloses : ev.closes with
    | true =>
      have hwrites : ev.writes ≠ 1 := by
        intro hw
        rw [(running_of_writes hstart hw).1] at hcloses
        cases hcloses
      rw [truthful_close h htrue hcloses hstart]
      simp [hwrites]
    | false =>
      by_cases hwrites : ev.writes = 1
      · obtain ⟨rfl, -⟩ := running_of_writes hstart hwrites
        rw [truthful_write h htrue hreaches hstart]
        simp [hwrites]
      · exact iff_of_true (truthful_other h htrue hcloses hwrites hstart)
          ⟨fun hc => (by cases hc), fun hw => absurd hw hwrites⟩

/-- **When `wait_for_ready` tells the truth.** In every run, however calls, writes, failures and
    the cancellation come, every `wait_for_ready` that returned `Ok` so far told the truth at every
    moment exactly if every step of the run is honest: whenever `close_receiver` runs, the Hello
    and the ClusterConfig are written, and nothing but empty messages is in hand or waits ahead of
    a marker; where the initial Indexes count, they are written before any marker is answered. -/
theorem wait_for_ready_iff (indexes : Bool) (messages : List Bytes) (es : List SessionEv) :
    (∀ es' s, es' <+: es → sessionRun es' (Session.init messages) = some s → Truthful indexes s) ↔
      Events.Along sessionStep (Honest indexes) es (Session.init messages) := by
  refine Events.along_iff ordered_step truthful_step (ordered_init messages) fun t hok => ?_
  cases (readyOk_iff.mp hok).1

/-- The ClusterConfig cannot be written: `wait_for_ready` returns `Ok` all the same. -/
theorem wait_for_ready_lies : ¬ ∀ (messages : List Bytes) (es : List SessionEv) (s : Session),
    sessionRun es (Session.init messages) = some s → Truthful false s := by
  intro h
  have hlies := h [] [.start (.other .waitForReady), .start (.other (.sendDone 0)), .start .spawn, .hello,
    .start (.other (.writeFails true))] _ rfl
  exact absurd (hlies 0 ⟨rfl, .sent .closed, none, rfl, rfl⟩).config (by decide)

end BepRs.Connection
