/-
  BepRs.Connection.Startup — the initial `send_index` of `handle_connection`
  (`src/peer_connection/handlers.rs`).

  `handle_connection` submits an Index for every folder it shares with the peer before it
  starts the writer, and the queue the messages wait in holds 100. What is submitted meanwhile
  by others, `wait_for_ready` among it, takes slots of the same queue. Nobody takes a message
  out before the writer is there.

  The state is that of `Connection.Requests` with what `send_index` has still to submit and
  the message whose `tx.send` is not done. The Indexes are any list: as many as there are
  shared folders.
  - `queue_step`: what a step of the others adds to the queue, as long as the writer has not
    started.
  - `startup_iff`: exactly for which numbers of folders and of other messages `send_index`
    never waits on a full queue without a writer.
-/

import BepRs.Connection.Shutdown

namespace BepRs.Connection

open BepRs.Lib BepRs.Lib.Oneshot BepRs.State BepRs.Sync

structure Startup where
  conn : St
  /-- The Indexes `send_index` has not come to. -/
  todo : List Bytes
  /-- The Index whose `tx.send` is not done. -/
  inflight : Option Bytes
  deriving DecidableEq, Repr

def Startup.init (indexes : List Bytes) : Startup := ⟨St.init, indexes, none⟩

inductive StartEv where
  /-- A step of another task. -/
  | other (e : Ev)
  /-- `send_index` submits the next Index. -/
  | next
  | sent
  /-- `send_index` returned, and the reader and the writer are started. -/
  | spawn
  /-- `send_index` returned an error. -/
  | fails
  | panics
  deriving DecidableEq, Repr

/-- The steps `handle_connection` itself takes before it waits. -/
def ownEv : List Ev := [.spawn, .connectionFails, .connectionPanics]

def startStep : StartEv → Startup → Option Startup
  | .other e, s => if e ∈ ownEv then none else (step e s.conn).map fun c => { s with conn := c }
  | .next, s =>
    if s.conn.phase = .establishing ∧ s.inflight = none then
      match s.todo with
      | m :: rest => some { s with todo := rest, inflight := some m }
      | [] => none
    else none
  | .sent, s =>
    match s.inflight with
    | none => none
    | some m =>
      if s.conn.closed then some { s with inflight := none }
      else if s.conn.queue.length < 100 then
        some { s with conn := { s.conn with queue := s.conn.queue ++ [(m, none)] }, inflight := none }
      else none
  | .spawn, s =>
    if s.todo = [] ∧ s.inflight = none then (step .spawn s.conn).map fun c => { s with conn := c } else none
  | .fails, s => if s.inflight = none then (step .connectionFails s.conn).map fun c => { s with conn := c } else none
  | .panics, s => if s.inflight = none then (step .connectionPanics s.conn).map fun c => { s with conn := c } else none

/-- The step of the connection in a step of the startup. -/
def StartEv.ev : StartEv → Option Ev
  | .other e => some e
  | .next => none
  | .sent => none
  | .spawn => some .spawn
  | .fails => some .connectionFails
  | .panics => some .connectionPanics

abbrev startRun : List StartEv → Startup → Option Startup := Events.run startStep

/-- `send_index` waits for a slot, and nobody is there to make one. -/
def Blocked (s : Startup) : Prop := s.inflight.isSome = true ∧ 100 ≤ s.conn.queue.length ∧ s.conn.writer = .unborn

instance (s : Startup) : Decidable (Blocked s) := inferInstanceAs (Decidable (_ ∧ _ ∧ _))

/-! ## What gets into the queue -/

/-- The events that submit a message. -/
def submits : Ev → Nat
  | .submit _ _ _ => 1
  | .submitMessage _ => 1
  | .waitForReady => 1
  | .readerFails _ => 1
  | _ => 0

/-- The messages others submitted. -/
def submissions : List StartEv → Nat
  | [] => 0
  | .other e :: es => submits e + submissions es
  | _ :: es => submissions es

theorem submissions_append : ∀ es es' : List StartEv, submissions (es ++ es') = submissions es + submissions es' := by
  intro es es'
  induction es with
  | nil => simp [submissions]
  | cons e es ih => cases e <;> simp only [List.cons_append, submissions, ih, Nat.add_assoc]

theorem queue_submitRequest {s s' : St} {id : Int} {responseType : PeerRequestResponseType} {msg : Bytes}
    (h : s.submitRequest id responseType msg = some s') :
    s'.writer = s.writer ∧ s'.queue = s.queue ∧ s'.sending.length = s.sending.length + 1 := by
  rcases submitRequest_cases h with ⟨-, rfl⟩ | ⟨-, rfl⟩
  · exact ⟨rfl, rfl, by simp⟩
  · exact ⟨rfl, rfl, by simp⟩

theorem queue_sendDone {s s' : St} {i : Nat} (h : s.sendDone i = some s') :
    s'.writer = s.writer ∧ s'.queue.length + s'.sending.length ≤ s.queue.length + s.sending.length := by
  obtain ⟨e, he, hcase⟩ := sendDone_cases h
  have hi : i < s.sending.length := (List.getElem?_eq_some_iff.mp he).1
  have herase := List.length_eraseIdx_of_lt hi
  rcases hcase with ⟨-, rfl⟩ | ⟨-, rfl⟩
  · refine ⟨rfl, ?_⟩
    show s.queue.length + (s.sending.eraseIdx i).length ≤ _
    omega
  · refine ⟨rfl, ?_⟩
    simp only [List.length_append, List.length_singleton]
    omega

theorem queue_handleResponse (s : St) (number : Nat) (r : Response) :
    (s.handleResponse number r).1.queue = s.queue ∧ (s.handleResponse number r).1.sending = s.sending := by
  obtain ⟨_, _, _, hframe, -⟩ := handleResponse_frame s number r
  rw [hframe]
  exact ⟨rfl, rfl⟩

/-- Before the writer starts, a step makes no more messages wait than it submits. -/
theorem queue_step {e : Ev} {s s' : St} (h : step e s = some s') (hw : s'.writer = .unborn) :
    s.writer = .unborn ∧ s'.queue.length + s'.sending.length ≤ s.queue.length + s.sending.length + submits e := by
  cases step_happens h with
  | submit _ hs =>
    obtain ⟨hwriter, hqueue, hsending⟩ := queue_submitRequest hs
    refine ⟨hwriter ▸ hw, ?_⟩
    rw [hqueue, hsending]; simp only [submits]; omega
  | submitMessage msg => exact ⟨hw, by simp [submits]; omega⟩
  | waitForReady => exact ⟨hw, by simp [submits, St.open_]; omega⟩
  | sendDone hs =>
    obtain ⟨hwriter, hle⟩ := queue_sendDone hs
    exact ⟨hwriter ▸ hw, hle⟩
  | cancel => exact ⟨hw, Nat.le_refl _⟩
  | receive r _ => exact ⟨hw, Nat.le_refl _⟩
  | @handle number r _ _ =>
    obtain ⟨hqueue, hsending⟩ := queue_handleResponse s number r
    refine ⟨(tasks_handleResponse s number r).2.1 ▸ hw, ?_⟩
    simp only [hqueue, hsending, submits]; omega
  | readerReturns _ => exact ⟨hw, Nat.le_refl _⟩
  | readerFails _ hs =>
    obtain ⟨hwriter, hqueue, hsending⟩ := queue_submitRequest hs
    refine ⟨hwriter ▸ hw, ?_⟩
    simp only [hqueue, hsending, submits]; omega
  | readerClosed _ _ => exact ⟨hw, Nat.le_refl _⟩
  | readerPanics _ => exact ⟨hw, Nat.le_refl _⟩
  | take hwriter _ _ => exact absurd (hwriter.symm.trans hw) (by simp)
  | write hwriter _ => exact absurd (hwriter.symm.trans hw) (by simp)
  | writeFails _ _ => exact absurd hw (by simp)
  | writerStops _ _ _ => exact absurd hw (by simp)
  | writerPanics _ => exact absurd hw (by simp)
  | spawn _ => exact absurd hw (by simp)
  | connectionFails _ => exact ⟨hw, by simp [St.dropReceiver]; omega⟩
  | connectionPanics _ => exact ⟨hw, by simp [St.dropReceiver]; omega⟩
  | waited _ _ _ _ => exact ⟨hw, Nat.le_refl _⟩
  | drain _ => exact ⟨hw, Nat.le_refl _⟩

theorem submits_ev {e : StartEv} {ev : Ev} (h : e.ev = some ev) : submits ev = submissions [e] := by
  cases e <;> cases h <;> rfl

/-- What a step of the startup is: one of the connection, or `send_index` comes to an Index,
    loses it or gets it into the queue. -/
theorem startStep_cases {e : StartEv} {s s' : Startup} (h : startStep e s = some s') :
    (∃ ev c, e.ev = some ev ∧ step ev s.conn = some c ∧ s' = { s with conn := c } ∧
      (ev ∈ ownEv → s.inflight = none) ∧ (ev = .spawn → s.todo = [])) ∨
    (∃ m rest, e = .next ∧ s.conn.phase = .establishing ∧ s.inflight = none ∧ s.todo = m :: rest ∧
      s' = { s with todo := rest, inflight := some m }) ∨
    (∃ m, e = .sent ∧ s.inflight = some m ∧ s.conn.closed = true ∧ s' = { s with inflight := none }) ∨
    (∃ m, e = .sent ∧ s.inflight = some m ∧ s.conn.closed = false ∧
      s' = { s with conn := { s.conn with queue := s.conn.queue ++ [(m, none)] }, inflight := none }) := by
  cases e with
  | next =>
    simp only [startStep] at h
    split at h
    · rename_i hidle
      split at h
      · rename_i m rest htodo
        exact .inr (.inl ⟨m, rest, rfl, hidle.1, hidle.2, htodo, (Option.some.inj h).symm⟩)
      · cases h
    · cases h
  | sent =>
    simp only [startStep] at h
    split at h
    · cases h
    · rename_i m hm
      split at h
      · rename_i hclosed
        exact .inr (.inr (.inl ⟨m, rfl, hm, hclosed, (Option.some.inj h).symm⟩))
      · rename_i hopen
        split at h
        · exact .inr (.inr (.inr ⟨m, rfl, hm, by simpa using hopen, (Option.some.inj h).symm⟩))
        · cases h
  | other ev =>
    simp only [startStep] at h
    split at h
    · cases h
    · rename_i hown
      obtain ⟨c, hc, rfl⟩ := Option.map_eq_some_iff.mp h
      exact .inl ⟨ev, c, rfl, hc, rfl, fun hmem => absurd hmem hown, fun he => absurd (he ▸ List.mem_cons_self) hown⟩
  | spawn =>
    simp only [startStep] at h
    split at h
    · rename_i hidle
      obtain ⟨c, hc, rfl⟩ := Option.map_eq_some_iff.mp h
      exact .inl ⟨_, c, rfl, hc, rfl, fun _ => hidle.2, fun _ => hidle.1⟩
    · cases h
  | fails | panics =>
    simp only [startStep] at h
    split at h
    · rename_i hidle
      obtain ⟨c, hc, rfl⟩ := Option.map_eq_some_iff.mp h
      exact .inl ⟨_, c, rfl, hc, rfl, fun _ => hidle, fun he => by cases he⟩
    · cases h

/-- What is queued, on its way or still to come is no more than the Indexes and the messages
    others submitted. -/
theorem counted_run {indexes : List Bytes} : ∀ {es : List StartEv} {s : Startup}, startRun es (Startup.init indexes) = some s →
    s.conn.writer = .unborn →
    s.conn.queue.length + s.conn.sending.length + s.todo.length + s.inflight.toList.length ≤
      indexes.length + submissions es := by
  intro es
  induction es using List.reverseRecOn with
  | nil => intro s h _; cases h; simp [Startup.init, St.init, submissions]
  | append_singleton es e ih =>
    intro s' h hw
    obtain ⟨s, hs, he⟩ := Events.run_concat.mp h
    rw [submissions_append]
    obtain ⟨ev, c, hev, hc, rfl, -⟩ | ⟨m, rest, -, -, hidle, htodo, rfl⟩ | ⟨m, -, hm, -, rfl⟩ | ⟨m, -, hm, -, rfl⟩ :=
      startStep_cases he
    · obtain ⟨hw', hle⟩ := queue_step hc hw
      have hbefore := ih hs hw'
      rw [← submits_ev hev]
      show c.queue.length + c.sending.length + s.todo.length + s.inflight.toList.length ≤ _
      omega
    · have hbefore := ih hs hw
      rw [hidle, htodo] at hbefore
      simp only [Option.toList_none, Option.toList_some, List.length_nil, List.length_cons] at hbefore ⊢
      omega
    · have hbefore := ih hs hw
      simp only [Option.toList_none, List.length_nil]
      omega
    · have hbefore := ih hs hw
      rw [hm] at hbefore
      simp only [Option.toList_none, Option.toList_some, List.length_nil, List.length_append, List.length_singleton] at hbefore ⊢
      omega

/-- `send_index` submits nothing it was not given. -/
theorem todo_run {indexes : List Bytes} : ∀ {es : List StartEv} {s : Startup}, startRun es (Startup.init indexes) = some s →
    s.todo.length + s.inflight.toList.length ≤ indexes.length := by
  intro es
  induction es using List.reverseRecOn with
  | nil => intro s h; cases h; simp [Startup.init]
  | append_singleton es e ih =>
    intro s' h
    obtain ⟨s, hs, he⟩ := Events.run_concat.mp h
    have hbefore := ih hs
    obtain ⟨_, _, -, -, rfl, -⟩ | ⟨m, rest, -, -, hidle, htodo, rfl⟩ | ⟨m, -, hm, -, rfl⟩ | ⟨m, -, hm, -, rfl⟩ :=
      startStep_cases he
    · exact hbefore
    · rw [hidle, htodo] at hbefore
      exact hbefore
    · exact Nat.le_trans (Nat.le_add_right _ _) hbefore
    · exact Nat.le_trans (Nat.le_add_right _ _) hbefore

theorem not_blocked_of_room {indexes : List Bytes} {es : List StartEv} {s : Startup}
    (hs : startRun es (Startup.init indexes) = some s) (h : indexes = [] ∨ indexes.length + submissions es ≤ 100) :
    ¬ Blocked s := by
  rintro ⟨hinflight, hfull, hwriter⟩
  obtain ⟨m, hm⟩ := Option.isSome_iff_exists.mp hinflight
  have htodo := todo_run hs
  have hcount := counted_run hs hwriter
  rw [hm] at htodo hcount
  simp only [Option.toList_some, List.length_singleton] at htodo hcount
  rcases h with rfl | h
  · simp at htodo
  · omega

/-! ## Filling the queue -/

/-- Nothing is on its way, `k` messages wait, and `send_index` has `todo` still to submit. -/
structure Ready (k : Nat) (todo : List Bytes) (s : Startup) : Prop where
  queue : s.conn.queue.length = k
  sending : s.conn.sending = []
  isOpen : s.conn.closed = false
  writer : s.conn.writer = .unborn
  phase : s.conn.phase = .establishing
  todo : s.todo = todo
  idle : s.inflight = none

theorem ready_other {k : Nat} {todo : List Bytes} {s : Startup} (h : Ready k todo s) (hk : k < 100) :
    ∃ s', startRun [.other (.submitMessage []), .other (.sendDone 0)] s = some s' ∧ Ready (k + 1) todo s' := by
  obtain ⟨hqueue, hsending, hopen, hwriter, hphase, htodo, hidle⟩ := h
  have hroom : s.conn.queue.length < 100 := hqueue ▸ hk
  refine ⟨{ s with conn := { s.conn with sending := [], queue := s.conn.queue ++ [([], none)] } }, ?_, ?_⟩
  · simp [Events.run, startStep, ownEv, step, St.sendDone, hsending, hopen, hroom]
  · exact ⟨by simp [hqueue], rfl, hopen, hwriter, hphase, htodo, hidle⟩

theorem ready_next {k : Nat} {m : Bytes} {todo : List Bytes} {s : Startup} (h : Ready k (m :: todo) s) (hk : k < 100) :
    ∃ s', startRun [.next, .sent] s = some s' ∧ Ready (k + 1) todo s' := by
  obtain ⟨hqueue, hsending, hopen, hwriter, hphase, htodo, hidle⟩ := h
  have hroom : s.conn.queue.length < 100 := hqueue ▸ hk
  refine ⟨{ s with conn := { s.conn with queue := s.conn.queue ++ [(m, none)] }, todo := todo, inflight := none }, ?_, ?_⟩
  · simp [Events.run, startStep, hphase, htodo, hidle, hopen, hroom]
  · exact ⟨by simp [hqueue], hsending, hopen, hwriter, hphase, rfl, rfl⟩

/-- With a full queue, the next Index finds no slot. -/
theorem blocked_next {m : Bytes} {todo : List Bytes} {s : Startup} (h : Ready 100 (m :: todo) s) :
    ∃ s', startStep .next s = some s' ∧ Blocked s' := by
  refine ⟨{ s with todo := todo, inflight := some m }, ?_, rfl, Nat.le_of_eq h.queue.symm, h.writer⟩
  simp [startStep, h.phase, h.todo, h.idle]

theorem fill_others (indexes : List Bytes) : ∀ j : Nat, j ≤ 100 →
    ∃ es s, startRun es (Startup.init indexes) = some s ∧ submissions es = j ∧ Ready j indexes s := by
  intro j
  induction j with
  | zero =>
    intro _
    exact ⟨[], Startup.init indexes, rfl, rfl, ⟨rfl, rfl, rfl, rfl, rfl, rfl, rfl⟩⟩
  | succ j ih =>
    intro hj
    obtain ⟨es, s, hs, hcount, hready⟩ := ih (by omega)
    obtain ⟨s', hs', hready'⟩ := ready_other hready (by omega)
    refine ⟨es ++ [.other (.submitMessage []), .other (.sendDone 0)], s', Events.run_trans hs hs', ?_, hready'⟩
    rw [submissions_append, hcount]
    rfl

theorem fill_indexes {indexes : List Bytes} {j : Nat} (hj : j ≤ 100) : ∀ i : Nat, i + j ≤ 100 → i ≤ indexes.length →
    ∃ es s, startRun es (Startup.init indexes) = some s ∧ submissions es = j ∧ Ready (j + i) (indexes.drop i) s := by
  intro i
  induction i with
  | zero =>
    intro _ _
    exact fill_others indexes j hj
  | succ i ih =>
    intro hroom hi
    obtain ⟨es, s, hs, hcount, hready⟩ := ih (by omega) (by omega)
    rw [List.drop_eq_getElem_cons (show i < indexes.length by omega)] at hready
    obtain ⟨s', hs', hready'⟩ := ready_next hready (by omega)
    refine ⟨es ++ [.next, .sent], s', Events.run_trans hs hs', ?_, hready'⟩
    rw [submissions_append, hcount]
    rfl

/-- With a folder to announce and more than 100 messages in all, the queue can fill before
    the last Index is in it. -/
theorem blocked_of_many {indexes : List Bytes} {m : Nat} (hne : indexes ≠ []) (hmany : 100 < indexes.length + m) :
    ∃ es s, startRun es (Startup.init indexes) = some s ∧ submissions es ≤ m ∧ Blocked s := by
  have hlength := List.length_pos_of_ne_nil hne
  -- others fill the queue as far as they may, `send_index` does the rest
  obtain ⟨es, s, hs, hcount, hready⟩ :=
    @fill_indexes indexes _ (Nat.min_le_right m 100) (100 - min m 100) (by omega) (by omega)
  have hleft : 100 - min m 100 < indexes.length := by omega
  have hfull : min m 100 + (100 - min m 100) = 100 := by omega
  rw [List.drop_eq_getElem_cons hleft, hfull] at hready
  obtain ⟨s', hs', hblocked⟩ := blocked_next hready
  refine ⟨es ++ [.next], s', Events.run_concat.mpr ⟨s, hs, hs'⟩, ?_, hblocked⟩
  rw [submissions_append, hcount]
  exact Nat.min_le_left m 100

/-- **When the initial index cannot block the connection.** Before the writer is started,
    `send_index` never waits on a full queue exactly when it has no Index to send, or when
    these and what the others submit meanwhile fit into the queue. -/
theorem startup_iff (indexes : List Bytes) (m : Nat) :
    (∀ es s, startRun es (Startup.init indexes) = some s → submissions es ≤ m → ¬ Blocked s) ↔
      indexes = [] ∨ indexes.length + m ≤ 100 := by
  constructor
  · intro h
    by_contra hmany
    obtain ⟨hne, hlarge⟩ := not_or.mp hmany
    obtain ⟨es, s, hs, hcount, hblocked⟩ := @blocked_of_many indexes m hne (by omega)
    exact h es s hs hcount hblocked
  · intro hroom es s hs hcount
    apply not_blocked_of_room hs
    apply hroom.imp_right
    omega

/-- With 101 shared folders, `send_index` fills the queue alone. -/
theorem startup_blocks :
    ¬ ∀ (indexes : List Bytes) (es : List StartEv) (s : Startup), startRun es (Startup.init indexes) = some s → ¬ Blocked s := by
  intro h
  obtain ⟨es, s, hs, _, hblocked⟩ := @blocked_of_many (List.replicate 101 []) 0 (by simp) (by simp)
  exact h _ es s hs hblocked

end BepRs.Connection
