/-
  BepRs.Connection.Shutdown — the calls that wait when a connection ends
  (`PeerConnection::new`, `handle_connection`, `drain_requests`).

  `drain_requests` runs when `handle_connection` has returned, and `handle_connection` waits
  for the tracker of the reader and the writer. `TaskTracker::wait` completes once the tracker
  is empty and was closed, and nothing closes it: after `spawn` the connection's task never
  gets to `drain_requests`. A listener that is in `requests` when the last of the two tasks
  ends stays there, and so does one that comes later.

  `step_moves` says what a step does to the tasks and to `requests`.
  - `no_stranded_iff`: no state of a run has a stranded listener exactly if `requests` is
    empty when the last of the two tasks ends (or the connection's task panics), and no
    request comes after that.
-/

import BepRs.Connection.Requests

namespace BepRs.Connection

open BepRs.Lib BepRs.Lib.Oneshot BepRs.State BepRs.Sync

/-- The steps of the connection's own task. -/
def ownSteps : List Ev := [.spawn, .connectionFails, .connectionPanics, .waited, .drain]

/-- A listener is registered and its call waits, while neither the reader nor the writer runs
    and the connection's own task can take no step. -/
def Stranded (s : St) : Prop :=
  s.reader.active = false ∧ s.writer.active = false ∧ (∀ e ∈ ownSteps, step e s = none) ∧
    ∃ l ∈ s.requests, s.cells[l.sender]? = some .pending

instance (s : St) : Decidable (Stranded s) := inferInstanceAs (Decidable (_ ∧ _ ∧ _ ∧ _))

/-- Nothing will empty `requests` any more: both tasks ended, or the connection's task is at
    its end. -/
def Down (s : St) : Prop :=
  s.reader.active = false ∧ s.writer.active = false ∧ (s.phase = .waiting ∨ s.phase = .finished)

def Safe : Ev → St → Prop
  | .submit _ .whenResponse _, s => ¬ Down s
  | .readerReturns, s => s.writer.active = true ∨ s.requests = []
  | .readerClosed, s => s.writer.active = true ∨ s.requests = []
  | .readerPanics, s => s.writer.active = true ∨ s.requests = []
  | .writeFails _, s => s.reader.active = true ∨ s.requests = []
  | .writerStops, s => s.reader.active = true ∨ s.requests = []
  | .writerPanics, s => s.reader.active = true ∨ s.requests = []
  | .connectionPanics, s => s.requests = []
  | _, _ => True

/-! ## What a step does to the tasks -/

/-- The tasks and `requests` before and after a step. -/
inductive Moves (s s' : St) : Ev → Prop
  | stays (e : Ev) (hsafe : Safe e s) (hreader : s'.reader.active = s.reader.active)
      (hwriter : s'.writer.active = s.writer.active) (hphase : s'.phase = s.phase)
      (hrequests : s.requests = [] → s'.requests = []) : Moves s s' e
  | registers (id : Int) (msg : Bytes) (hreader : s'.reader.active = s.reader.active)
      (hwriter : s'.writer.active = s.writer.active) (hphase : s'.phase = s.phase) (hrequests : s'.requests ≠ []) :
      Moves s s' (.submit id .whenResponse msg)
  | readerEnds (e : Ev) (hsafe : Safe e s ↔ s.writer.active = true ∨ s.requests = []) (hactive : s.reader.active = true)
      (hreader : s'.reader.active = false) (hwriter : s'.writer.active = s.writer.active) (hphase : s'.phase = s.phase)
      (hrequests : s'.requests = s.requests) : Moves s s' e
  | writerEnds (e : Ev) (hsafe : Safe e s ↔ s.reader.active = true ∨ s.requests = []) (hactive : s.writer.active = true)
      (hreader : s'.reader.active = s.reader.active) (hwriter : s'.writer.active = false) (hphase : s'.phase = s.phase)
      (hrequests : s'.requests = s.requests) : Moves s s' e
  | spawns (hactive : s'.reader.active = true) (hphase : s'.phase = .waiting) : Moves s s' .spawn
  | fails (hbefore : s.phase = .establishing) (hreader : s'.reader.active = s.reader.active)
      (hwriter : s'.writer.active = s.writer.active) (hphase : s'.phase = .returned) : Moves s s' .connectionFails
  | panics (hbefore : s.phase = .establishing) (hreader : s'.reader.active = s.reader.active)
      (hwriter : s'.writer.active = s.writer.active) (hphase : s'.phase = .finished)
      (hrequests : s'.requests = s.requests) : Moves s s' .connectionPanics
  | waits (hclosed : s.trackerClosed = true) : Moves s s' .waited
  | drains (hbefore : s.phase = .returned) (hreader : s'.reader.active = s.reader.active)
      (hwriter : s'.writer.active = s.writer.active) (hphase : s'.phase = .finished) (hrequests : s'.requests = []) :
      Moves s s' .drain

theorem insert_requests (s : St) (l : PeerRequestListener) : (s.insert l).requests ≠ [] := by
  simp [St.insert]

theorem requests_handleResponse (s : St) (number : Nat) (r : Response) (h : s.requests = []) :
    (s.handleResponse number r).1.requests = [] := by
  have hid : r.id ∉ s.requests.map PeerRequestListener.id := by simp [h]
  rw [handleResponse_unsolicited hid number]
  exact h

theorem tasks_handleResponse (s : St) (number : Nat) (r : Response) :
    (s.handleResponse number r).1.reader = s.reader ∧ (s.handleResponse number r).1.writer = s.writer ∧
      (s.handleResponse number r).1.phase = s.phase ∧ (s.handleResponse number r).1.trackerClosed = s.trackerClosed := by
  obtain ⟨_, _, _, hframe, -⟩ := handleResponse_frame s number r
  rw [hframe]
  exact ⟨rfl, rfl, rfl, rfl⟩

theorem tasks_sendDone {s s' : St} {i : Nat} (h : s.sendDone i = some s') :
    s'.reader = s.reader ∧ s'.writer = s.writer ∧ s'.phase = s.phase ∧ s'.requests = s.requests ∧
      s'.trackerClosed = s.trackerClosed := by
  obtain ⟨e, -, ⟨-, rfl⟩ | ⟨-, rfl⟩⟩ := sendDone_cases h
  · exact ⟨rfl, rfl, rfl, rfl, rfl⟩
  · exact ⟨rfl, rfl, rfl, rfl, rfl⟩

theorem moves_stays {e : Ev} {s s' : St} (hsafe : Safe e s) (hreader : s'.reader = s.reader) (hwriter : s'.writer = s.writer)
    (hphase : s'.phase = s.phase) (hrequests : s.requests = [] → s'.requests = []) : Moves s s' e :=
  .stays e hsafe (by rw [hreader]) (by rw [hwriter]) hphase hrequests

/-- Every step, and nothing closes the tracker. -/
theorem step_moves {e : Ev} {s s' : St} (h : step e s = some s') :
    s'.trackerClosed = s.trackerClosed ∧ Moves s s' e := by
  cases step_happens h with
  | @submit callId responseType msg _ htype hs =>
    rcases htype with rfl | rfl
    · simp only [St.submitRequest, reduceCtorEq, if_false, Option.some.injEq] at hs
      subst hs
      exact ⟨rfl, .registers callId msg rfl rfl rfl (insert_requests _ _)⟩
    · simp only [St.submitRequest, reduceCtorEq, if_false, if_true, Option.some.injEq] at hs
      subst hs
      exact ⟨rfl, moves_stays trivial rfl rfl rfl id⟩
  | submitMessage msg => exact ⟨rfl, moves_stays trivial rfl rfl rfl id⟩
  | waitForReady => exact ⟨rfl, moves_stays trivial rfl rfl rfl id⟩
  | sendDone hs =>
    obtain ⟨hreader, hwriter, hphase, hrequests, hclosed⟩ := tasks_sendDone hs
    exact ⟨hclosed, moves_stays trivial hreader hwriter hphase hrequests.trans⟩
  | cancel => exact ⟨rfl, moves_stays trivial rfl rfl rfl id⟩
  | receive r _ => exact ⟨rfl, moves_stays trivial rfl rfl rfl id⟩
  | @handle number r _ _ =>
    obtain ⟨hreader, hwriter, hphase, hclosed⟩ := tasks_handleResponse s number r
    exact ⟨hclosed, moves_stays trivial hreader hwriter hphase (requests_handleResponse s number r)⟩
  | readerReturns hreader => exact ⟨rfl, .readerEnds _ Iff.rfl (by rw [hreader]; rfl) rfl rfl rfl rfl⟩
  | readerFails hreader hs =>
    simp only [St.submitRequest, reduceCtorEq, if_false, if_true, Option.some.injEq] at hs
    subst hs
    exact ⟨rfl, .stays _ trivial (by rw [hreader]; rfl) rfl rfl id⟩
  | readerClosed hreader _ => exact ⟨rfl, .readerEnds _ Iff.rfl (by rw [hreader]; rfl) rfl rfl rfl rfl⟩
  | readerPanics hactive => exact ⟨rfl, .readerEnds _ Iff.rfl hactive rfl rfl rfl rfl⟩
  | take _ _ _ => exact ⟨rfl, moves_stays trivial rfl rfl rfl id⟩
  | write _ _ => exact ⟨rfl, moves_stays trivial rfl rfl rfl id⟩
  | writeFails closes hwriter =>
    cases closes with
    | false => exact ⟨rfl, .writerEnds _ Iff.rfl (by rw [hwriter]; rfl) rfl rfl rfl rfl⟩
    | true => exact ⟨rfl, .writerEnds _ Iff.rfl (by rw [hwriter]; rfl) rfl rfl rfl rfl⟩
  | writerStops hwriter _ _ => exact ⟨rfl, .writerEnds _ Iff.rfl (by rw [hwriter]; rfl) rfl rfl rfl rfl⟩
  | writerPanics hwriter => exact ⟨rfl, .writerEnds _ Iff.rfl (by rw [hwriter]; rfl) rfl rfl rfl rfl⟩
  | spawn _ => exact ⟨rfl, .spawns rfl rfl⟩
  | connectionFails hphase => exact ⟨rfl, .fails hphase rfl rfl rfl⟩
  | connectionPanics hphase => exact ⟨rfl, .panics hphase rfl rfl rfl rfl⟩
  | waited _ hclosed _ _ => exact ⟨rfl, .waits hclosed⟩
  | drain hphase => exact ⟨rfl, .drains hphase rfl rfl rfl rfl⟩

/-! ## Every run -/

/-- Only a connection that waits has tasks, and it waits for good. -/
structure Tidy (s : St) : Prop where
  books : Books s
  tracker : s.trackerClosed = false
  tasks : s.reader.active = true ∨ s.writer.active = true → s.phase = .waiting

theorem tidy_init : Tidy St.init := ⟨books_init, rfl, by simp [St.init, TaskState.active]⟩

theorem Tidy.idle {s : St} (h : Tidy s) (hphase : s.phase ≠ .waiting) :
    s.reader.active = false ∧ s.writer.active = false := by
  constructor
  · cases hr : s.reader.active with
    | false => rfl
    | true => exact absurd (h.tasks (Or.inl hr)) hphase
  · cases hw : s.writer.active with
    | false => rfl
    | true => exact absurd (h.tasks (Or.inr hw)) hphase

theorem tidy_step {e : Ev} {s s' : St} (h : Tidy s) (hs : step e s = some s') : Tidy s' := by
  obtain ⟨hclosed, hmoves⟩ := step_moves hs
  refine ⟨(kept_step h.books hs).books, hclosed.trans h.tracker, ?_⟩
  cases hmoves with
  | stays _ _ hreader hwriter hphase _ => rw [hreader, hwriter, hphase]; exact h.tasks
  | registers _ _ hreader hwriter hphase _ => rw [hreader, hwriter, hphase]; exact h.tasks
  | readerEnds _ _ hactive _ _ hphase _ => rw [hphase]; exact fun _ => h.tasks (Or.inl hactive)
  | writerEnds _ _ hactive _ _ hphase _ => rw [hphase]; exact fun _ => h.tasks (Or.inr hactive)
  | spawns _ hphase => exact fun _ => hphase
  | fails hbefore hreader hwriter _ =>
    obtain ⟨hr, hw⟩ := h.idle (by rw [hbefore]; simp)
    rw [hreader, hwriter, hr, hw]
    simp
  | panics hbefore hreader hwriter _ _ =>
    obtain ⟨hr, hw⟩ := h.idle (by rw [hbefore]; simp)
    rw [hreader, hwriter, hr, hw]
    simp
  | waits hclosed => rw [h.tracker] at hclosed; cases hclosed
  | drains hbefore hreader hwriter _ _ =>
    obtain ⟨hr, hw⟩ := h.idle (by rw [hbefore]; simp)
    rw [hreader, hwriter, hr, hw]
    simp

theorem tidy_run {es : List Ev} {s : St} (h : run es St.init = some s) : Tidy s :=
  Events.steps_inv tidy_step tidy_init (Events.steps_run h)

/-- The connection's own task has come to a halt. -/
theorem halted_iff {s : St} (h : Tidy s) :
    (∀ e ∈ ownSteps, step e s = none) ↔ s.phase = .waiting ∨ s.phase = .finished := by
  constructor
  · intro hnone
    cases hphase : s.phase with
    | establishing =>
      have := hnone .spawn (by simp [ownSteps])
      simp [step, hphase] at this
    | returned =>
      have := hnone .drain (by simp [ownSteps])
      simp [step, hphase] at this
    | waiting => exact Or.inl rfl
    | finished => exact Or.inr rfl
  · intro hphase e he
    have htracker := h.tracker
    rcases hphase with hphase | hphase <;>
      simp only [ownSteps, List.mem_cons, List.not_mem_nil, or_false] at he <;>
      rcases he with rfl | rfl | rfl | rfl | rfl <;> simp [step, hphase, htracker]

theorem stranded_iff {s : St} (h : Tidy s) : Stranded s ↔ Down s ∧ s.requests ≠ [] := by
  unfold Stranded Down
  rw [halted_iff h]
  constructor
  · rintro ⟨hr, hw, hphase, l, hl, -⟩
    exact ⟨⟨hr, hw, hphase⟩, List.ne_nil_of_mem hl⟩
  · rintro ⟨⟨hr, hw, hphase⟩, hne⟩
    obtain ⟨l, hl⟩ := List.exists_mem_of_ne_nil _ hne
    exact ⟨hr, hw, hphase, l, hl, h.books.owns.pending _ (List.mem_append_left _ (List.mem_map_of_mem hl))⟩

theorem down_congr {s s' : St} (hreader : s'.reader.active = s.reader.active) (hwriter : s'.writer.active = s.writer.active)
    (hphase : s'.phase = s.phase) : Down s' ↔ Down s := by
  unfold Down
  rw [hreader, hwriter, hphase]

/-- One step: a listener is stranded after it exactly if the step was not safe. -/
theorem clear_step {e : Ev} {s s' : St} (h : Tidy s) (hs : step e s = some s') (hclear : ¬ Stranded s) :
    ¬ Stranded s' ↔ Safe e s := by
  rw [stranded_iff h] at hclear
  rw [stranded_iff (tidy_step h hs)]
  cases (step_moves hs).2 with
  | stays _ hsafe hreader hwriter hphase hrequests =>
    refine ⟨fun _ => hsafe, fun _ hdown => ?_⟩
    have hempty : s.requests = [] := by
      by_contra hne
      exact hclear ⟨(down_congr hreader hwriter hphase).mp hdown.1, hne⟩
    exact hdown.2 (hrequests hempty)
  | registers id msg hreader hwriter hphase hrequests =>
    rw [down_congr hreader hwriter hphase]
    exact ⟨fun hnot hdown => hnot ⟨hdown, hrequests⟩, fun hsafe hdown => hsafe hdown.1⟩
  | readerEnds _ hsafe hactive hreader hwriter hphase hrequests =>
    have hwaiting := h.tasks (Or.inl hactive)
    rw [hsafe, hrequests]
    unfold Down
    rw [hreader, hwriter, hphase]
    cases s.writer.active <;> simp [hwaiting]
  | writerEnds _ hsafe hactive hreader hwriter hphase hrequests =>
    have hwaiting := h.tasks (Or.inr hactive)
    rw [hsafe, hrequests]
    unfold Down
    rw [hreader, hwriter, hphase]
    cases s.reader.active <;> simp [hwaiting]
  | spawns hactive _ =>
    refine ⟨fun _ => trivial, fun _ hdown => ?_⟩
    have := hdown.1.1
    rw [hactive] at this
    cases this
  | fails _ _ _ hphase =>
    refine ⟨fun _ => trivial, fun _ hdown => ?_⟩
    have := hdown.1.2.2
    rw [hphase] at this
    simp at this
  | panics hbefore hreader hwriter hphase hrequests =>
    obtain ⟨hr, hw⟩ := h.idle (by rw [hbefore]; simp)
    rw [hrequests]
    unfold Down Safe
    rw [hreader, hwriter, hphase, hr, hw]
    simp
  | waits hclosed => rw [h.tracker] at hclosed; cases hclosed
  | drains _ _ _ _ hrequests => exact ⟨fun _ => trivial, fun _ hdown => hdown.2 hrequests⟩

/-- For every run of a connection, whatever is submitted before, during and after its end: no
    state of it has a stranded listener exactly if each of its steps is safe in the state
    before it. -/
theorem no_stranded_iff (es : List Ev) :
    (∀ es' s, es' <+: es → run es' St.init = some s → ¬ Stranded s) ↔
      ∀ es' e s s', es' ++ [e] <+: es → run es' St.init = some s → step e s = some s' → Safe e s := by
  constructor
  · intro hclear es' e s s' hprefix hrun hstep
    have hbefore := hclear es' s ((List.prefix_append _ _).trans hprefix) hrun
    have hafter := hclear _ s' hprefix (Events.run_concat.mpr ⟨s, hrun, hstep⟩)
    exact (clear_step (tidy_run hrun) hstep hbefore).mp hafter
  · intro hsafe es'
    induction es' using List.reverseRecOn with
    | nil =>
      intro s _ hrun
      cases hrun
      rw [stranded_iff tidy_init]
      exact fun hdown => hdown.2 rfl
    | append_singleton es' e ih =>
      intro s' hprefix hrun
      obtain ⟨s, hes, hstep⟩ := Events.run_concat.mp hrun
      have hbefore := ih s ((List.prefix_append _ _).trans hprefix) hes
      exact (clear_step (tidy_run hes) hstep hbefore).mpr (hsafe es' e s s' hprefix hes hstep)

/-- The peer closes the connection while a request waits for its response: the reader and the
    writer end, the tracker was never closed, and the listener stays. -/
theorem close_strands : ∃ s, Steps St.init s ∧ Stranded s :=
  ⟨_, @Events.steps_run _ _ step [.spawn, .submit 7 .whenResponse [1], .sendDone 0, .readerReturns, .writerStops] _ _ rfl,
    by decide⟩

end BepRs.Connection
