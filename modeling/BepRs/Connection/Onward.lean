/-
  BepRs.Connection.Onward — what one step of a connection does to what passes through it.

  A message that is submitted is on its way out (`leaving`) until the writer has written it
  or the connection drops it. A call that waits for a response is owed one until a lookup
  hits it, and a response that was received is unseen until its lookup.
  - `onward_step`: what a step adds to each, event by event.
  - `Onward.ledger`: a step that sees a response may settle one call with its id, and no
    other; a response that is not seen yet still has its call.
-/

import BepRs.Connection.Ready
import BepRs.Lib.Outstanding

namespace BepRs.Connection

open BepRs.Lib BepRs.Lib.Task BepRs.Lib.Oneshot BepRs.State BepRs.Sync

/-- The messages the writer has or will get. -/
def St.leaving (s : St) : List Bytes := (s.sending ++ s.queue ++ s.writing.toList).map Prod.fst

/-- The calls that lookups hit. -/
def St.hits (s : St) : List Nat := s.lookups.filterMap Lookup.hit

/-- How many calls under this id still wait for a response. -/
def St.owed (s : St) (id : Int) : Nat := (outstanding s.hits 0 s.calls).countP (· = ⟨id, .whenResponse⟩)

/-- How many responses with this id were received and not looked up. -/
def St.unseen (s : St) (id : Int) : Nat := (outstanding (s.lookups.map Lookup.number) 0 s.received).countP (·.id = id)

/-- The messages a step submits. -/
def Ev.puts : Ev → List Bytes
  | .submit _ _ msg => [msg]
  | .submitMessage msg => [msg]
  | .waitForReady => [[]]
  | .readerFails msg => [msg]
  | _ => []

/-- The message the writer has done with. -/
def Ev.taken (s : St) : Ev → List Bytes
  | .write => s.writing.toList.map Prod.fst
  | .writeFails _ => s.writing.toList.map Prod.fst
  | _ => []

def Ev.gets : Ev → List Response
  | .receive r => [r]
  | _ => []

def Ev.calls : Ev → List Call
  | .submit id responseType _ => [⟨id, responseType⟩]
  | .waitForReady => [⟨0, .whenReady⟩]
  | .readerFails _ => [⟨-1, .whenSent⟩]
  | _ => []

/-- The writer starts once. -/
def Born (s : St) : Prop := s.writer = .unborn ∨ s.phase ≠ .establishing

/-- A response is looked up. -/
structure Sees (s s' : St) (number : Nat) (r : Response) (hit : Option Nat) : Prop where
  got : s.received[number]? = some r
  new : number ∉ s.lookups.map Lookup.number
  lookups : s'.lookups = s.lookups ++ [⟨number, r, s.calls.length, hit⟩]
  waits : ∀ t, hit = some t → t ∉ s.hits ∧ s.calls[t]? = some ⟨r.id, .whenResponse⟩

structure Onward (e : Ev) (s s' : St) : Prop where
  born : Born s → Born s'
  ended : Born s → s.writer = .ended → s'.writer = .ended
  leaving : ∀ p : Bytes → Bool, (e.taken s).countP p + s'.leaving.countP p ≤ s.leaving.countP p + e.puts.countP p
  received : s'.received = s.received ++ e.gets
  calls : s'.calls = s.calls ++ e.calls
  lookups : s'.lookups = s.lookups ∨ ∃ number r hit, e = .handle number ∧ Sees s s' number r hit

theorem countP_leaving (s : St) (p : Bytes → Bool) : s.leaving.countP p =
    s.sending.countP (fun x => p x.1) + s.queue.countP (fun x => p x.1) + s.writing.toList.countP (fun x => p x.1) := by
  unfold St.leaving
  rw [List.countP_map, List.countP_append, List.countP_append]
  rfl

theorem mem_writing {s : St} {x : Entry} (hx : s.writing = some x) : x.1 ∈ s.leaving := by
  unfold St.leaving
  simp [hx]

/-- What was looked up stays so. -/
theorem Onward.lookups_kept {e : Ev} {s s' : St} (h : Onward e s s') : s.lookups <+: s'.lookups := by
  rcases h.lookups with hlook | ⟨number, r, hit, -, hsees⟩
  · exact hlook ▸ List.prefix_refl _
  · rw [hsees.lookups]
    exact List.prefix_append _ _

theorem Onward.mem_leaving {e : Ev} {s s' : St} (h : Onward e s s') {b : Bytes} (hb : b ∈ s'.leaving) :
    b ∈ s.leaving ∨ b ∈ e.puts := by
  have hcount := h.leaving fun x => x = b
  have hpos : 0 < s'.leaving.countP fun x => x = b := List.countP_pos_iff.mpr ⟨b, hb, by simp⟩
  rcases Nat.eq_zero_or_pos (s.leaving.countP fun x => x = b) with hzero | hold
  · have hnew : 0 < e.puts.countP fun x => x = b := by omega
    obtain ⟨x, hx, heq⟩ := List.countP_pos_iff.mp hnew
    exact Or.inr (by simpa using (of_decide_eq_true heq) ▸ hx)
  · obtain ⟨x, hx, heq⟩ := List.countP_pos_iff.mp hold
    exact Or.inl (by simpa using (of_decide_eq_true heq) ▸ hx)

/-! ## Steps that make no call and get nothing -/

theorem onward_quiet {e : Ev} {s s' : St} (hgets : e.gets = []) (hnone : e.calls = []) (hcalls : s'.calls = s.calls)
    (hreceived : s'.received = s.received) (hlookups : s'.lookups = s.lookups)
    (hleaving : ∀ p : Bytes → Bool, (e.taken s).countP p + s'.leaving.countP p ≤ s.leaving.countP p)
    (hwriter : s'.writer = s.writer ∨ s'.writer = .ended ∨ s.phase = .establishing ∧ s'.phase ≠ .establishing ∧ s.writer ≠ .ended)
    (hphase : s'.phase = .establishing → s.phase = .establishing ∧ s'.writer = s.writer) : Onward e s s' where
  born hb := by
    by_cases hp : s'.phase = .establishing
    · obtain ⟨hold, hsame⟩ := hphase hp
      rcases hb with hb | hb
      · exact Or.inl (hsame.trans hb)
      · exact absurd hold hb
    · exact Or.inr hp
  ended _ he := by
    rcases hwriter with hw | hw | ⟨-, -, hw⟩
    · exact hw.trans he
    · exact hw
    · exact absurd he hw
  leaving p := Nat.le_add_right_of_le (hleaving p)
  received := by rw [hreceived, hgets, List.append_nil]
  calls := by rw [hcalls, hnone, List.append_nil]
  lookups := Or.inl hlookups

theorem onward_refl (s : St) : Onward .cancel s s :=
  onward_quiet rfl rfl rfl rfl rfl (fun p => by simp [Ev.taken]) (Or.inl rfl) (fun hp => ⟨hp, rfl⟩)

/-- A call that is made, with its message. -/
theorem onward_submit {e : Ev} {s s' : St} {id : Int} {responseType : PeerRequestResponseType} {msg : Bytes}
    (hputs : e.puts = [msg])
    (htaken : e.taken s = []) (hgets : e.gets = []) (hcall : e.calls = [⟨id, responseType⟩])
    (hs : s.submitRequest id responseType msg = some s') (reader : TaskState) : Onward e s { s' with reader := reader } := by
  obtain ⟨hcalls, hreceived, hlookups, hwriter, hphase, hqueue, hwriting, t, hsending⟩ :
      s'.calls = s.calls ++ [⟨id, responseType⟩] ∧ s'.received = s.received ∧ s'.lookups = s.lookups ∧ s'.writer = s.writer ∧
        s'.phase = s.phase ∧ s'.queue = s.queue ∧ s'.writing = s.writing ∧ ∃ t, s'.sending = s.sending ++ [(msg, t)] := by
    rcases submitRequest_cases hs with ⟨-, rfl⟩ | ⟨-, rfl⟩
    · exact ⟨rfl, rfl, rfl, rfl, rfl, rfl, rfl, _, rfl⟩
    · exact ⟨rfl, rfl, rfl, rfl, rfl, rfl, rfl, _, rfl⟩
  refine ⟨fun hb => ?_, fun _ he => hwriter.trans he, fun p => ?_, ?_, by rw [hcall]; exact hcalls, Or.inl hlookups⟩
  · exact hb.imp (hwriter.trans ·) (fun h => by show s'.phase ≠ _; rwa [hphase])
  · rw [htaken, hputs, countP_leaving, countP_leaving]
    simp only [hsending, hqueue, hwriting, List.countP_append, List.countP_singleton, List.countP_nil]
    omega
  · show s'.received = _
    rw [hreceived, hgets, List.append_nil]

theorem countP_eraseIdx {l : List Entry} {i : Nat} {x : Entry} (hx : l[i]? = some x) (p : Entry → Bool) :
    (l.eraseIdx i).countP p + (if p x then 1 else 0) = l.countP p := by
  obtain ⟨hi, hget⟩ := List.getElem?_eq_some_iff.mp hx
  rw [← hget, ← List.countP_cons]
  exact (List.getElem_cons_eraseIdx_perm hi).countP_eq p

/-- `handle_response` looks its response up. -/
theorem sees_handleResponse {s : St} (h : Books s) {number : Nat} {r : Response} (hr : s.received[number]? = some r)
    (hnew : number ∉ s.lookups.map Lookup.number) (failed : Bool) :
    ∃ hit, Sees s { (s.handleResponse number r).1 with failed := failed } number r hit := by
  cases hfind : s.requests.find? (·.id = r.id) with
  | none =>
    refine ⟨none, hr, hnew, ?_, fun t ht => by cases ht⟩
    rw [handleResponse_none hfind]
  | some l =>
    have hl := List.mem_of_find?_eq_some hfind
    have hid : l.id = r.id := by simpa using List.find?_some hfind
    obtain ⟨-, hcall⟩ := h.listed l hl
    refine ⟨some l.sender, hr, hnew, by rw [handleResponse_found h hfind], fun t ht => ?_⟩
    cases ht
    refine ⟨fun hhit => ?_, by rw [← hid]; exact hcall⟩
    -- the call of a listener is pending, and one that was hit has its response
    obtain ⟨lk, hlk, hlhit⟩ := List.mem_filterMap.mp hhit
    have hsent := h.hits lk hlk l.sender hlhit
    have hheld : l.sender ∈ s.held := List.mem_append_left _ (List.mem_map_of_mem hl)
    rw [h.owns.pending _ hheld] at hsent
    cases hsent

theorem onward_step {e : Ev} {s s' : St} (hs : Tidy s) (h : step e s = some s') : Onward e s s' := by
  have hrun : s.writer = .running → s.phase ≠ .establishing := by
    intro hw hp
    rw [hs.tasks (Or.inr (by rw [hw]; rfl))] at hp
    cases hp
  -- what goes away with the queue
  have hgone : ∀ {s' : St} {taken : List Bytes}, s'.sending = s.sending → s'.queue = [] →
      (s'.writing = none ∧ taken.Sublist (s.writing.toList.map Prod.fst) ∨ s'.writing = s.writing ∧ taken = []) →
      ∀ p : Bytes → Bool, taken.countP p + s'.leaving.countP p ≤ s.leaving.countP p := by
    intro s' taken h1 h2 h3 p
    rw [countP_leaving, countP_leaving, h1, h2]
    rcases h3 with ⟨h3, htaken⟩ | ⟨h3, htaken⟩
    · have hle := htaken.countP_le (p := p)
      rw [List.countP_map] at hle
      simp only [h3, Option.toList_none, List.countP_nil]
      have hcomp : (p ∘ Prod.fst : Entry → Bool) = fun x => p x.1 := rfl
      rw [hcomp] at hle
      omega
    · simp only [h3, htaken, List.countP_nil]
      omega
  have hsame : ∀ {s' : St}, s'.leaving = s.leaving → ∀ p : Bytes → Bool,
      ([] : List Bytes).countP p + s'.leaving.countP p ≤ s.leaving.countP p :=
    fun heq p => by rw [heq, List.countP_nil, Nat.zero_add]
  cases step_happens h with
  | @submit id responseType msg _ htype hsub => exact onward_submit rfl rfl rfl rfl hsub s'.reader
  | submitMessage msg =>
    refine ⟨fun hb => hb, fun _ he => he, fun p => ?_, (List.append_nil _).symm, (List.append_nil _).symm, Or.inl rfl⟩
    rw [countP_leaving, countP_leaving]
    simp only [Ev.taken, Ev.puts, List.countP_append, List.countP_singleton, List.countP_nil]
    omega
  | waitForReady =>
    refine ⟨fun hb => hb, fun _ he => he, fun p => ?_, (List.append_nil _).symm, rfl, Or.inl rfl⟩
    rw [countP_leaving, countP_leaving]
    simp only [Ev.taken, Ev.puts, St.open_, List.countP_append, List.countP_singleton, List.countP_nil]
    omega
  | @sendDone i _ hdone =>
    obtain ⟨x, hx, ⟨-, rfl⟩ | ⟨-, rfl⟩⟩ := sendDone_cases hdone
    · refine onward_quiet rfl rfl rfl rfl rfl (fun p => ?_) (Or.inl rfl) (fun hp => ⟨hp, rfl⟩)
      have herase := countP_eraseIdx hx fun x => p x.1
      rw [countP_leaving, countP_leaving]
      simp only [Ev.taken, List.countP_nil]
      omega
    · refine onward_quiet rfl rfl rfl rfl rfl (fun p => ?_) (Or.inl rfl) (fun hp => ⟨hp, rfl⟩)
      have herase := countP_eraseIdx hx fun x => p x.1
      rw [countP_leaving, countP_leaving]
      simp only [Ev.taken, List.countP_nil, List.countP_append, List.countP_singleton]
      omega
  | cancel => exact onward_quiet rfl rfl rfl rfl rfl (hsame rfl) (Or.inl rfl) (fun hp => ⟨hp, rfl⟩)
  | receive r _ =>
    exact ⟨fun hb => hb, fun _ he => he, fun p => Nat.le_add_right_of_le (hsame rfl p), rfl, (List.append_nil _).symm, Or.inl rfl⟩
  | @handle number r hr hnew =>
    obtain ⟨hit, hsees⟩ := sees_handleResponse hs.books hr hnew ((s.handleResponse number r).1.failed ||
      (s.handleResponse number r).2.isNone)
    obtain ⟨requests, lookups, cells, hframe, -⟩ := handleResponse_frame s number r
    have hquiet : Onward (.handle number) s { s with requests := requests, cells := cells } :=
      onward_quiet rfl rfl rfl rfl rfl (hsame rfl) (Or.inl rfl) (fun hp => ⟨hp, rfl⟩)
    simp only [hframe] at hsees ⊢
    exact ⟨hquiet.born, hquiet.ended, hquiet.leaving, hquiet.received, hquiet.calls, Or.inr ⟨number, r, hit, rfl, hsees⟩⟩
  | readerReturns _ => exact onward_quiet rfl rfl rfl rfl rfl (hsame rfl) (Or.inl rfl) (fun hp => ⟨hp, rfl⟩)
  | readerFails _ hsub => exact onward_submit rfl rfl rfl rfl hsub _
  | readerClosed _ _ => exact onward_quiet rfl rfl rfl rfl rfl (hsame rfl) (Or.inl rfl) (fun hp => ⟨hp, rfl⟩)
  | readerPanics _ => exact onward_quiet rfl rfl rfl rfl rfl (hsame rfl) (Or.inl rfl) (fun hp => ⟨hp, rfl⟩)
  | @take x rest hwriter hwriting hqueue =>
    refine onward_quiet rfl rfl rfl rfl rfl (fun p => ?_) (Or.inl rfl) (fun hp => ⟨hp, rfl⟩)
    rw [countP_leaving, countP_leaving]
    simp only [Ev.taken, hqueue, hwriting, List.countP_nil, List.countP_cons, Option.toList_some, Option.toList_none]
    omega
  | write hwriter hwriting =>
    refine onward_quiet rfl rfl rfl rfl rfl (fun p => ?_) (Or.inl rfl) (fun hp => ⟨hp, rfl⟩)
    rw [countP_leaving, countP_leaving]
    simp only [Ev.taken, hwriting, Option.toList_some, Option.toList_none, List.map_cons, List.map_nil, List.countP_singleton,
      List.countP_nil]
    omega
  | writeFails closes hwriter =>
    cases closes with
    | false =>
      exact onward_quiet rfl rfl rfl rfl rfl (hgone rfl rfl (Or.inl ⟨rfl, List.Sublist.refl _⟩)) (Or.inr (Or.inl rfl))
        (fun hp => absurd hp (hrun hwriter))
    | true =>
      exact onward_quiet rfl rfl rfl rfl rfl (hgone rfl rfl (Or.inl ⟨rfl, List.Sublist.refl _⟩)) (Or.inr (Or.inl rfl))
        (fun hp => absurd hp (hrun hwriter))
  | writerStops hwriter hwriting _ =>
    exact onward_quiet rfl rfl rfl rfl rfl (hgone rfl rfl (Or.inr ⟨rfl, rfl⟩)) (Or.inr (Or.inl rfl))
      (fun hp => absurd hp (hrun hwriter))
  | writerPanics hwriter =>
    exact onward_quiet rfl rfl rfl rfl rfl (hgone rfl rfl (Or.inl ⟨rfl, List.nil_sublist _⟩)) (Or.inr (Or.inl rfl))
      (fun hp => absurd hp (hrun hwriter))
  | spawn hphase =>
    refine ⟨fun _ => Or.inr (by simp), fun hb he => ?_, fun p => Nat.le_add_right_of_le (hsame rfl p), (List.append_nil _).symm,
      (List.append_nil _).symm, Or.inl rfl⟩
    rcases hb with hb | hb
    · rw [hb] at he; cases he
    · exact absurd hphase hb
  | connectionFails hphase =>
    exact onward_quiet rfl rfl rfl rfl rfl (hgone rfl rfl (Or.inr ⟨rfl, rfl⟩)) (Or.inl rfl) (fun hp => by cases hp)
  | connectionPanics hphase =>
    exact onward_quiet rfl rfl rfl rfl rfl (hgone rfl rfl (Or.inr ⟨rfl, rfl⟩)) (Or.inl rfl) (fun hp => by cases hp)
  | waited _ _ _ _ => exact onward_quiet rfl rfl rfl rfl rfl (hsame rfl) (Or.inl rfl) (fun hp => by cases hp)
  | drain _ => exact onward_quiet rfl rfl rfl rfl rfl (hsame rfl) (Or.inl rfl) (fun hp => by cases hp)

/-! ## The ledger -/

theorem hits_lt {s : St} (h : Books s) : ∀ t ∈ s.hits, t < s.calls.length := by
  intro t ht
  obtain ⟨lk, hlk, hhit⟩ := List.mem_filterMap.mp ht
  rw [h.count]
  exact (List.getElem?_eq_some_iff.mp (h.hits lk hlk t hhit)).1

theorem numbers_lt {s : St} (h : Books s) : ∀ k ∈ s.lookups.map Lookup.number, k < s.received.length := by
  intro k hk
  obtain ⟨lk, hlk, rfl⟩ := List.mem_map.mp hk
  exact (List.getElem?_eq_some_iff.mp (h.looked lk hlk)).1

/-- What a step gets is unseen, what it calls is owed, and a response that is seen settles at
    most the one call it hits. -/
theorem Onward.ledger {e : Ev} {s s' : St} (h : Onward e s s') (hs : Books s) (id : Int) :
    s'.unseen id + s.owed id + e.calls.countP (· = ⟨id, .whenResponse⟩) ≤
      s.unseen id + e.gets.countP (·.id = id) + s'.owed id := by
  have hlt : ∀ t ∈ s.hits, t < 0 + s.calls.length := fun t ht => by rw [Nat.zero_add]; exact hits_lt hs t ht
  have hlt' : ∀ k ∈ s.lookups.map Lookup.number, k < 0 + s.received.length :=
    fun k hk => by rw [Nat.zero_add]; exact numbers_lt hs k hk
  have hcalls : outstanding s.hits 0 s'.calls = outstanding s.hits 0 s.calls ++ e.calls := by
    rw [h.calls, outstanding_append hlt]
  have hreceived : outstanding (s.lookups.map Lookup.number) 0 s'.received =
      outstanding (s.lookups.map Lookup.number) 0 s.received ++ e.gets := by
    rw [h.received, outstanding_append hlt']
  unfold St.unseen St.owed
  rcases h.lookups with hlook | ⟨number, r, hit, rfl, hsees⟩
  · have hhits : s'.hits = s.hits := by unfold St.hits; rw [hlook]
    rw [hlook, hhits, hcalls, hreceived, List.countP_append, List.countP_append]
    omega
  · simp only [Ev.calls, Ev.gets, List.append_nil, List.countP_nil, Nat.add_zero] at hcalls hreceived ⊢
    have hreceived' : s'.received = s.received := by simpa [Ev.gets] using h.received
    have hcalls' : s'.calls = s.calls := by simpa [Ev.calls] using h.calls
    have hseen := countP_settle (fun x : Response => decide (x.id = id)) hsees.got (by rw [Nat.zero_add]; exact hsees.new)
    have hnumbers : outstanding (s'.lookups.map Lookup.number) 0 s.received =
        outstanding ((0 + number) :: s.lookups.map Lookup.number) 0 s.received :=
      outstanding_congr fun k _ => by rw [hsees.lookups]; simp [or_comm]
    rw [hreceived', hcalls', hnumbers]
    cases hit with
    | none =>
      have hhits : s'.hits = s.hits := by unfold St.hits; rw [hsees.lookups]; simp
      rw [hhits]
      omega
    | some t =>
      obtain ⟨hopen, hcall⟩ := hsees.waits t rfl
      have hsettle := countP_settle (fun x : Call => decide (x = ⟨id, .whenResponse⟩)) hcall (by rw [Nat.zero_add]; exact hopen)
      have hhits : outstanding s'.hits 0 s.calls = outstanding ((0 + t) :: s.hits) 0 s.calls :=
        outstanding_congr fun k _ => by unfold St.hits; rw [hsees.lookups]; simp [or_comm]
      rw [hhits]
      have hsame : (decide ((⟨r.id, .whenResponse⟩ : Call) = ⟨id, .whenResponse⟩) : Bool) = decide (r.id = id) := by simp
      rw [hsame] at hsettle
      omega

end BepRs.Connection
