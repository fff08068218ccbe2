/-
  BepRs.Wire.Stream — the two ends of a stream: `handle_writing` of one node and
  `handle_reading` of its peer (`src/peer_connection/handlers.rs`).

  Any number of tasks submit messages; the queue keeps the order in which they got in. The
  writer starts with the Hello and a ClusterConfig, then it takes what is queued, one at a
  time. An empty message only marks a place in the queue (`wait_for_ready`) and is not
  written. A Ping is written when nothing came for 90 seconds; here it may be at any time.
  The queue before `start` holds what was submitted while the connection was established.

  The reader stops at a Close. What it does with a message is `Sync.dispatch`; here is what
  it reads. A cancelled token or a timeout ends it between two messages, with the messages
  of a prefix of the stream.
  - `stream_written`: what the stream holds, after any run of the writer.
  - `wire_round_trip`: what the reader makes of it, and of each of its prefixes.
-/

import BepRs.Lib.Events
import BepRs.Sync.Link
import BepRs.Wire.Items

namespace BepRs.Wire

open BepRs.Lib BepRs.Lib.Path BepRs.Lib.Stream BepRs.State BepRs.Sync

variable {Body : MessageType → Type}

/-! ## The reader -/

def isClose (m : Item Body) : Bool := m.1 = .close

/-- What `handle_reading` got from a stream. -/
structure Received (Body : MessageType → Type) where
  hello : Option Hello
  messages : List (Item Body)
  ending : Ending PeerConnectionError

def handleReading (P : Prost Body) (decompress : Bytes → Option Bytes) (s : Bytes) : Received Body :=
  match receiveHello P s with
  | .done hello rest =>
    let x := readAll (readMessage P decompress) isClose (rest.length + 1) rest
    ⟨some hello, x.1, x.2⟩
  | .more => ⟨none, [], .more⟩
  | .error e => ⟨none, [], .failed e⟩
  | .panic => ⟨none, [], .panicked⟩

/-! ## The writer -/

/-- What a task puts in the queue. -/
inductive Submission (Body : MessageType → Type) where
  | item (m : Item Body) (encodable : m.1.encodable = true)
  | marker

structure Writer (Body : MessageType → Type) where
  /-- Everything that was submitted, in the order of the queue. -/
  submitted : List (Submission Body)
  queue : List Bytes
  started : Bool
  stream : Bytes

def Writer.init : Writer Body := ⟨[], [], false, []⟩

inductive WriterEv (Body : MessageType → Type) where
  | submit (x : Submission Body)
  | start
  | take
  | elapsed

section

variable (P : Prost Body) (hello : Hello) (config : Body .clusterConfig) (ping : Body .ping)

def Submission.bytes : Submission Body → Bytes
  | .item m _ => encodeForBep P m
  | .marker => []

def writerStep : WriterEv Body → Writer Body → Option (Writer Body)
  | .submit x, w =>
    if w.queue.length < 100 then some { w with submitted := w.submitted ++ [x], queue := w.queue ++ [x.bytes P] } else none
  | .start, w =>
    if w.started then none
    else some { w with started := true, stream := sendHello P hello ++ encodeForBep P ⟨.clusterConfig, config⟩ }
  | .take, w =>
    if w.started then
      match w.queue with
      | [] => none
      | msg :: queue => some { w with queue := queue, stream := if msg.isEmpty then w.stream else w.stream ++ msg }
    else none
  | .elapsed, w => if w.started then some { w with stream := w.stream ++ encodeForBep P ⟨.ping, ping⟩ } else none

/-- The steps of the tasks and the writer, in any order. -/
abbrev WriterSteps : Writer Body → Writer Body → Prop := Events.Steps (writerStep P hello config ping)

end

/-- The submitted messages in their order, with nothing but Pings in between. -/
inductive Between (ping : Body .ping) : List (Submission Body) → List (Item Body) → Prop
  | nil : Between ping [] []
  | item {xs : List (Submission Body)} {ms : List (Item Body)} (m : Item Body) (h : m.1.encodable = true) :
      Between ping xs ms → Between ping (xs ++ [.item m h]) (ms ++ [m])
  | marker {xs : List (Submission Body)} {ms : List (Item Body)} : Between ping xs ms → Between ping (xs ++ [.marker]) ms
  | ping {xs : List (Submission Body)} {ms : List (Item Body)} : Between ping xs ms → Between ping xs (ms ++ [⟨.ping, ping⟩])

theorem Between.mem {ping : Body .ping} {xs : List (Submission Body)} {ms : List (Item Body)} (h : Between ping xs ms)
    {m : Item Body} (hm : m ∈ ms) : m = ⟨.ping, ping⟩ ∨ ∃ henc, Submission.item m henc ∈ xs := by
  induction h with
  | nil => cases hm
  | item m' henc _ ih =>
    rcases List.mem_append.mp hm with hm | hm
    · rcases ih hm with hp | ⟨henc', hx⟩
      · exact Or.inl hp
      · exact Or.inr ⟨henc', List.mem_append_left _ hx⟩
    · rw [List.mem_singleton] at hm
      subst hm
      exact Or.inr ⟨henc, List.mem_append_right _ (List.mem_singleton_self _)⟩
  | marker _ ih =>
    rcases ih hm with hp | ⟨henc, hx⟩
    · exact Or.inl hp
    · exact Or.inr ⟨henc, List.mem_append_left _ hx⟩
  | ping _ ih =>
    rcases List.mem_append.mp hm with hm | hm
    · exact ih hm
    · exact Or.inl (List.mem_singleton.mp hm)

/-! ## What the writer writes -/

section

variable {P : Prost Body} {hello : Hello} {config : Body .clusterConfig} {ping : Body .ping}

/-- What was written, and what is still queued. -/
structure Written (P : Prost Body) (hello : Hello) (config : Body .clusterConfig) (ping : Body .ping) (w : Writer Body)
    (done : List (Submission Body)) (rest : List (Submission Body)) (ms : List (Item Body)) : Prop where
  submitted : w.submitted = done ++ rest
  queue : w.queue = rest.map (Submission.bytes P)
  between : Between ping done ms
  fresh : w.started = false → done = [] ∧ ms = []
  stream : w.started = true →
    w.stream = sendHello P hello ++ (⟨.clusterConfig, config⟩ :: ms : List (Item Body)).flatMap (encodeForBep P)

/-- A frame is never taken for a marker. -/
theorem isEmpty_encodeForBep (m : Item Body) : (encodeForBep P m).isEmpty = false := by
  have hlen : 2 ≤ (encodeForBep P m).length := by simp only [encodeForBep, List.length_append, length_toBe]; omega
  cases h : encodeForBep P m with
  | nil => rw [h] at hlen; cases hlen
  | cons b bs => rfl

theorem written_step {e : WriterEv Body} {w w' : Writer Body} {done rest : List (Submission Body)} {ms : List (Item Body)}
    (h : Written P hello config ping w done rest ms) (hs : writerStep P hello config ping e w = some w') :
    ∃ done' rest' ms', Written P hello config ping w' done' rest' ms' := by
  cases e with
  | submit x =>
    simp only [writerStep] at hs
    split at hs
    · cases hs
      refine ⟨done, rest ++ [x], ms, ?_, ?_, h.between, h.fresh, h.stream⟩
      · rw [h.submitted, List.append_assoc]
      · rw [h.queue, List.map_append, List.map_singleton]
    · cases hs
  | start =>
    simp only [writerStep] at hs
    split at hs
    · cases hs
    · rename_i hstarted
      cases hs
      obtain ⟨hdone, hms⟩ := h.fresh (by simpa using hstarted)
      subst hdone
      subst hms
      exact ⟨[], rest, [], h.submitted, h.queue, h.between, fun _ => ⟨rfl, rfl⟩, fun _ => by simp⟩
  | take =>
    simp only [writerStep] at hs
    split at hs
    · rename_i hstarted
      have hqueue := h.queue
      cases rest with
      | nil =>
        rw [List.map_nil] at hqueue
        rw [hqueue] at hs
        cases hs
      | cons x rest =>
        rw [List.map_cons] at hqueue
        rw [hqueue] at hs
        cases hs
        have hsplit : w.submitted = (done ++ [x]) ++ rest := by rw [h.submitted, List.append_assoc]; rfl
        cases x with
        | item m henc =>
          refine ⟨done ++ [.item m henc], rest, ms ++ [m], hsplit, rfl, .item m henc h.between, ?_, fun _ => ?_⟩
          · intro hno
            rw [show w.started = true from hstarted] at hno
            cases hno
          · simp only [Submission.bytes, isEmpty_encodeForBep, Bool.false_eq_true, if_false]
            rw [h.stream hstarted, ← List.cons_append, List.flatMap_append]
            simp
        | marker =>
          refine ⟨done ++ [.marker], rest, ms, hsplit, rfl, .marker h.between, ?_, fun _ => h.stream hstarted⟩
          intro hno
          rw [show w.started = true from hstarted] at hno
          cases hno
    · cases hs
  | elapsed =>
    simp only [writerStep] at hs
    split at hs
    · rename_i hstarted
      cases hs
      refine ⟨done, rest, ms ++ [⟨.ping, ping⟩], h.submitted, h.queue, .ping h.between, ?_, fun _ => ?_⟩
      · intro hno
        rw [show w.started = true from hstarted] at hno
        cases hno
      · show w.stream ++ _ = _
        rw [h.stream hstarted, ← List.cons_append, List.flatMap_append]
        simp
    · cases hs

theorem stream_written {w : Writer Body} (hs : WriterSteps P hello config ping Writer.init w) :
    ∃ done rest ms, Written P hello config ping w done rest ms := by
  refine Events.steps_inv (I := fun w => ∃ done rest ms, Written P hello config ping w done rest ms) ?_ ?_ hs
  · rintro e w w' ⟨done, rest, ms, hw⟩ he
    exact written_step hw he
  · exact ⟨[], [], [], rfl, rfl, .nil, fun _ => ⟨rfl, rfl⟩, fun h => by cases h⟩

/-! ## What the reader reads -/

/-- A message gets across when it is one that is sent, and prost and the lengths let it. -/
def Crosses (P : Prost Body) (m : Item Body) : Prop := m.1.encodable = true ∧ ItemFits P m

theorem handleReading_hello (decompress : Bytes → Option Bytes) (hhello : Fits P.hello 2 hello) (s : Bytes) :
    handleReading P decompress (sendHello P hello ++ s) =
      ⟨some hello, (readAll (readMessage P decompress) isClose (s.length + 1) s).1,
        (readAll (readMessage P decompress) isClose (s.length + 1) s).2⟩ := by
  unfold handleReading
  rw [writes_receiveHello P hhello s]

/-- Nothing is read from nothing. -/
theorem readMessage_nil (decompress : Bytes → Option Bytes) : readMessage P decompress [] = .more :=
  Reader.bind_more (Reader.bind_more rfl)

theorem length_le_flatMap (ms : List (Item Body)) : ms.length ≤ (ms.flatMap (encodeForBep P)).length := by
  induction ms with
  | nil => exact Nat.le_refl _
  | cons m ms ih =>
    have hlen : 2 ≤ (encodeForBep P m).length := by simp only [encodeForBep, List.length_append, length_toBe]; omega
    rw [List.flatMap_cons, List.length_append, List.length_cons]
    omega

theorem handleReading_stream (decompress : Bytes → Option Bytes) (hhello : Fits P.hello 2 hello) {ms : List (Item Body)}
    (hms : ∀ m ∈ ms, Crosses P m) :
    handleReading P decompress (sendHello P hello ++ ms.flatMap (encodeForBep P)) =
      ⟨some hello, upTo isClose ms, if ms.any isClose then .closed else .more⟩ := by
  have hwrites : ∀ m ∈ ms, Writes (readMessage P decompress) (encodeForBep P m) m :=
    fun m hm => writes_readMessage P decompress (hms m hm).1 (hms m hm).2
  have hfuel : ms.length < (ms.flatMap (encodeForBep P)).length + 1 := Nat.lt_succ_of_le (length_le_flatMap ms)
  rw [handleReading_hello decompress hhello, readAll_writes isClose (readMessage_nil decompress) hwrites hfuel]

/-- The reader on a prefix of a stream that begins with a Hello it can read. -/
theorem handleReading_prefix (decompress : Bytes → Option Bytes) {p t rest : Bytes}
    (hhello : receiveHello P (p ++ t) = .done hello rest) :
    ((handleReading P decompress p).hello = none ∧ (handleReading P decompress p).messages = [] ∧
        (handleReading P decompress p).ending = .more ∨
      (handleReading P decompress p).hello = some hello ∧
        (handleReading P decompress p).messages <+: (handleReading P decompress (p ++ t)).messages ∧
        ((handleReading P decompress p).ending ≠ .more →
          (handleReading P decompress p).ending = (handleReading P decompress (p ++ t)).ending)) := by
  have hstable := stable_receiveHello P
  cases hp : receiveHello P p with
  | done h rest' =>
    have hwhole := hstable.done p t h rest' hp
    rw [hwhole] at hhello
    cases hhello
    have hread := readAll_prefix (stable_readMessage P decompress) (takes_readMessage P decompress) isClose t
      (Nat.lt_succ_self rest'.length) (Nat.lt_succ_self (rest' ++ t).length)
    refine Or.inr ?_
    simp only [handleReading, hp, hwhole]
    refine ⟨trivial, hread.1, fun hne => ?_⟩
    rw [hread.2 hne]
  | more =>
    refine Or.inl ?_
    simp only [handleReading, hp, and_self]
  | error e =>
    rw [hstable.error p t e hp] at hhello
    cases hhello
  | panic =>
    rw [hstable.panic p t hp] at hhello
    cases hhello

/-- When the whole queue is written, whatever the tasks submitted and however their steps
    and the writer's were interleaved, the peer reads the Hello, the ClusterConfig and the
    submitted messages in the order of the queue, with nothing but Pings in between, up to
    the first Close. On a prefix of the stream it reads a prefix of these, and it ends no
    other way than by waiting for more or at that Close. -/
theorem wire_round_trip (decompress : Bytes → Option Bytes) {w : Writer Body}
    (hsteps : WriterSteps P hello config ping Writer.init w) (hstarted : w.started = true) (hqueue : w.queue = [])
    (hhello : Fits P.hello 2 hello) (hconfig : ItemFits P ⟨.clusterConfig, config⟩) (hping : ItemFits P ⟨.ping, ping⟩)
    (hitems : ∀ m henc, Submission.item m henc ∈ w.submitted → ItemFits P m) :
    ∃ ms, Between ping w.submitted ms ∧
      handleReading P decompress w.stream =
        ⟨some hello, upTo isClose (⟨.clusterConfig, config⟩ :: ms),
          if (⟨.clusterConfig, config⟩ :: ms : List (Item Body)).any isClose then .closed else .more⟩ ∧
      ∀ p t, w.stream = p ++ t →
        ((handleReading P decompress p).hello = none ∧ (handleReading P decompress p).messages = [] ∨
          (handleReading P decompress p).hello = some hello) ∧
        (handleReading P decompress p).messages <+: upTo isClose (⟨.clusterConfig, config⟩ :: ms) ∧
        ((handleReading P decompress p).ending = .more ∨ (handleReading P decompress p).ending = .closed) := by
  obtain ⟨done, rest, ms, hw⟩ := stream_written hsteps
  have hrest : rest = [] := by
    have := hw.queue
    rw [hqueue] at this
    exact List.map_eq_nil_iff.mp this.symm
  have hbetween : Between ping w.submitted ms := by
    rw [hw.submitted, hrest, List.append_nil]
    exact hw.between
  have hcrosses : ∀ m ∈ (⟨.clusterConfig, config⟩ :: ms : List (Item Body)), Crosses P m := by
    intro m hm
    rcases List.mem_cons.mp hm with rfl | hm
    · exact ⟨rfl, hconfig⟩
    · rcases hbetween.mem hm with rfl | ⟨henc, hx⟩
      · exact ⟨rfl, hping⟩
      · exact ⟨henc, hitems m henc hx⟩
  have hstream := hw.stream hstarted
  have hread := handleReading_stream decompress hhello hcrosses
  rw [← hstream] at hread
  refine ⟨ms, hbetween, hread, fun p t hpt => ?_⟩
  have hfirst := writes_receiveHello P hhello ((⟨.clusterConfig, config⟩ :: ms : List (Item Body)).flatMap (encodeForBep P))
  rw [← hstream, hpt] at hfirst
  rw [hpt] at hread
  rcases handleReading_prefix decompress hfirst with ⟨hh, hm, he⟩ | ⟨hh, hm, he⟩
  · rw [hh, hm, he]
    exact ⟨Or.inl ⟨rfl, rfl⟩, List.nil_prefix, Or.inl rfl⟩
  · rw [hread] at hm he
    refine ⟨Or.inr hh, hm, ?_⟩
    by_cases hmore : (handleReading P decompress p).ending = .more
    · exact Or.inl hmore
    · rw [he hmore]
      show (if _ then _ else _) = _ ∨ (if _ then _ else _) = _
      split
      · exact Or.inr rfl
      · exact Or.inl rfl

end

/-! ## The messages of the model -/

/-- The bodies, as far as the model has them. -/
@[reducible] def ItemBody : MessageType → Type
  | .clusterConfig => ClusterConfig
  | .index => Index
  | .indexUpdate => Index
  | .request => Request
  | .response => Response
  | .downloadProgress => Unit
  | .ping => Unit
  | .close => Text

/-- What `Sync.dispatch` is given for a message; the reader gives it no DownloadProgress. -/
def incoming : Item ItemBody → Option Incoming
  | ⟨.clusterConfig, m⟩ => some (.clusterConfig m)
  | ⟨.index, m⟩ => some (.index m)
  | ⟨.indexUpdate, m⟩ => some (.indexUpdate m)
  | ⟨.request, m⟩ => some (.request m)
  | ⟨.response, m⟩ => some (.response m)
  | ⟨.downloadProgress, _⟩ => none
  | ⟨.ping, _⟩ => some .ping
  | ⟨.close, m⟩ => some (.close m)

/-- Whatever arrives, what the reader reads is something `dispatch` knows. -/
theorem incoming_handleReading (P : Prost ItemBody) (decompress : Bytes → Option Bytes) (s : Bytes) :
    ∀ m ∈ (handleReading P decompress s).messages, (incoming m).isSome = true := by
  intro m hm
  have htype : m.1 ≠ .downloadProgress := by
    unfold handleReading at hm
    split at hm
    · obtain ⟨s', rest, hread⟩ := readAll_mem isClose hm
      exact type_readMessage P decompress hread
    · cases hm
    · cases hm
    · cases hm
  obtain ⟨t, b⟩ := m
  cases t with
  | downloadProgress => exact absurd rfl htype
  | clusterConfig => rfl
  | index => rfl
  | indexUpdate => rfl
  | request => rfl
  | response => rfl
  | ping => rfl
  | close => rfl

/-- A codec that knows these values and their bytes. -/
def Codec.ofTable {α : Type} [DecidableEq α] (table : List (α × Bytes)) : Codec α where
  encodeToVec a := (table.find? (·.1 = a)).elim [] Prod.snd
  encodedLen a := ((table.find? (·.1 = a)).elim [] Prod.snd).length
  decode bytes := (table.find? (·.2 = bytes)).elim (.error "failed to decode Protobuf message") fun x => .ok x.1

/-- Protobuf for the values of `wire_round_trip_close`. -/
def sampleProst : Prost ItemBody where
  header := .ofTable [(plainHeader .clusterConfig, []), (plainHeader .response, [8, 4]), (plainHeader .ping, [8, 6]),
    (plainHeader .close, [8, 7])]
  hello := .ofTable [(makeHello ['a'] 0,
    [10, 1, 97, 18, 6, 98, 101, 112, 46, 114, 115, 26, 3, 48, 46, 49, 32, 1])]
  body
    | .clusterConfig => .ofTable [(⟨[]⟩, [])]
    | .index => .ofTable []
    | .indexUpdate => .ofTable []
    | .request => .ofTable []
    | .response => .ofTable [(⟨1, [7], 0⟩, [8, 1, 18, 1, 7])]
    | .downloadProgress => .ofTable []
    | .ping => .ofTable [((), [])]
    | .close => .ofTable [(['x'], [10, 1, 120])]

/-- A response is queued before the writer starts, then a marker and a Close; a Ping goes out
    in between. -/
def sampleEvents : List (WriterEv ItemBody) :=
  [.submit (.item ⟨.response, ⟨1, [7], 0⟩⟩ rfl), .start, .take, .submit .marker, .elapsed,
    .submit (.item ⟨.close, ['x']⟩ rfl), .take, .take]

theorem wire_round_trip_close :
    ∃ w, Events.run (writerStep sampleProst (makeHello ['a'] 0) ⟨[]⟩ ()) sampleEvents Writer.init = some w ∧
      ∃ ms, Between () w.submitted ms ∧ handleReading sampleProst (fun _ => none) w.stream =
        ⟨some (makeHello ['a'] 0), upTo isClose (⟨.clusterConfig, ⟨[]⟩⟩ :: ms),
          if (⟨.clusterConfig, ⟨[]⟩⟩ :: ms : List (Item ItemBody)).any isClose then .closed else .more⟩ := by
  have hhello : Fits sampleProst.hello 2 (makeHello ['a'] 0) := ⟨rfl, rfl, by decide⟩
  have hconfig : ItemFits sampleProst ⟨.clusterConfig, ⟨[]⟩⟩ := ⟨⟨rfl, rfl, by decide⟩, ⟨rfl, rfl, by decide⟩⟩
  have hping : ItemFits sampleProst ⟨.ping, ()⟩ := ⟨⟨rfl, rfl, by decide⟩, ⟨rfl, rfl, by decide⟩⟩
  have hresponse : ItemFits sampleProst ⟨.response, ⟨1, [7], 0⟩⟩ := ⟨⟨rfl, rfl, by decide⟩, ⟨rfl, rfl, by decide⟩⟩
  have hclose : ItemFits sampleProst ⟨.close, ['x']⟩ := ⟨⟨rfl, rfl, by decide⟩, ⟨rfl, rfl, by decide⟩⟩
  refine ⟨_, rfl, ?_⟩
  refine (wire_round_trip (fun _ => none) (@Events.steps_run _ _ _ sampleEvents _ _ rfl) rfl rfl hhello hconfig hping ?_).imp
    fun ms h => ⟨h.1, h.2.1⟩
  intro m henc hm
  simp only [Writer.init, List.nil_append, List.cons_append, List.mem_cons, List.not_mem_nil, or_false] at hm
  rcases hm with hm | hm | hm
  · cases hm; exact hresponse
  · cases hm
  · cases hm; exact hclose

end BepRs.Wire
