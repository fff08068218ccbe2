/-
  BepRs.Access.Respond — what `handle_request` answers.

  `answer` says which responses a run submits, exit by exit: nobody is answered while the
  connection's peer is unknown, a folder that is unknown or not shared gets the refusal,
  and the rest is decided by the folder's path, the read and the hash.

  - `responses_handleRequest`: a run submits exactly `answer`.
  - `respond_sound_and_silent`: at most one response, with the request's id; a refusal
    tells nothing but the id; data without an error is the requested part of the file.
-/

import BepRs.Access.Confine

namespace BepRs.Access

open BepRs.Lib BepRs.Lib.Path BepRs.Lib.Task BepRs.State BepRs.Sync

/-- The folder is known and shared with the connection's peer. -/
def Shared (n : Node) (conn : Conn) (folder : Text) : Prop :=
  ∃ dir peer, n.store.getSyncDirectory folder = some dir ∧ peerOf n conn = some peer ∧
    n.store.isDirectorySynced dir.id peer.id = true

def refusal (id : Int) : Response := ⟨id, [], ErrorCode.invalidFile.asI32⟩

section Answer

variable (sha256 : Bytes → Bytes) (n : Node) (conn : Conn) (request : Request)

def servedCode (data : Bytes) : ErrorCode :=
  if request.hash ≠ [] ∧ sha256 data ≠ request.hash then .invalidFile else .noError

/-- What is answered from the folder's path; a read that panics is answered by nobody. -/
def answerFrom (path : Text) : List Response :=
  match (n.readBlock (push path request.name) (asUsize request.offset) (asUsize request.size)).2 with
  | none => []
  | some none => [⟨request.id, [], ErrorCode.noSuchFile.asI32⟩]
  | some (some data) => [⟨request.id, data, (servedCode sha256 request data).asI32⟩]

def answer : List Response :=
  match peerOf n conn with
  | none => []
  | some peer =>
    match n.store.getSyncDirectory request.folder with
    | none => [refusal request.id]
    | some dir =>
      if n.store.isDirectorySynced dir.id peer.id = false then [refusal request.id]
      else
        match dir.path with
        | none => [⟨request.id, [], ErrorCode.noSuchFile.asI32⟩]
        | some path => answerFrom sha256 n request path

theorem responses_serve (path : Text) :
    responses (events nodeDo (serve sha256 request path) n) = answerFrom sha256 n request path := by
  unfold serve answerFrom
  rcases hread : n.readBlock (push path request.name) (asUsize request.offset) (asUsize request.size) with ⟨n', x⟩
  have hdo : nodeDo n (.sys (.readBlock (push path request.name) (asUsize request.offset) (asUsize request.size))) =
      (n', x) := hread
  cases x with
  | none => rw [events_call_none hdo]; rfl
  | some x =>
    rw [events_call_some hdo]
    cases x with
    | none => rfl
    | some data =>
      simp only [servedCode]
      by_cases hhash : request.hash ≠ [] ∧ sha256 data ≠ request.hash
      · rw [if_pos hhash, if_pos hhash]; rfl
      · rw [if_neg hhash, if_neg hhash]; rfl

/-- A run submits `answer`, whatever it reads on the way. -/
theorem responses_handleRequest :
    responses (events nodeDo (handleRequest sha256 conn request) n) = answer sha256 n conn request := by
  rw [(events_passed sha256 n conn request).2, passed, answer]
  cases peerOf n conn with
  | none => rfl
  | some peer =>
    cases n.store.getSyncDirectory request.folder with
    | none => rfl
    | some dir =>
      cases hs : n.store.isDirectorySynced dir.id peer.id with
      | false =>
        simp only [Option.map_some, Option.filter, hs, Option.elim_some]
        rfl
      | true =>
        simp only [Option.map_some, Option.filter, hs, Option.elim_some, deliver, Bool.true_eq_false, if_true, if_false]
        cases dir.path with
        | none => rfl
        | some path => exact responses_serve sha256 n request path

/-! ## What an answer can be -/

theorem length_answer : (answer sha256 n conn request).length ≤ 1 := by
  unfold answer answerFrom
  repeat' split
  all_goals simp

theorem id_answer : ∀ r ∈ answer sha256 n conn request, r.id = request.id := by
  intro r hr
  unfold answer answerFrom at hr
  repeat' split at hr
  all_goals simp only [List.mem_singleton, List.not_mem_nil] at hr
  all_goals subst hr; rfl

theorem answer_of_not_shared (h : ¬ Shared n conn request.folder) :
    answer sha256 n conn request = if (peerOf n conn).isSome then [refusal request.id] else [] := by
  unfold answer
  cases hpeer : peerOf n conn with
  | none => rfl
  | some peer =>
    cases hdir : n.store.getSyncDirectory request.folder with
    | none => rfl
    | some dir =>
      have hs : n.store.isDirectorySynced dir.id peer.id = false := by
        rw [Bool.eq_false_iff]
        intro hs
        exact h ⟨dir, peer, hdir, hpeer, hs⟩
      simp only [hs, if_true]
      rfl

theorem mem_answer_served {r : Response} (hr : r ∈ answer sha256 n conn request)
    (hcode : r.code = ErrorCode.noError.asI32) : ∃ path data, Admitted n conn request path ∧
      (n.readBlock (push path request.name) (asUsize request.offset) (asUsize request.size)).2 = some (some data) ∧
      r.data = data ∧ servedCode sha256 request data = .noError := by
  unfold answer at hr
  cases hpeer : peerOf n conn with
  | none => rw [hpeer] at hr; cases hr
  | some peer =>
    rw [hpeer] at hr
    cases hdir : n.store.getSyncDirectory request.folder with
    | none =>
      rw [hdir] at hr
      rw [List.mem_singleton.mp hr] at hcode
      cases hcode
    | some dir =>
      rw [hdir] at hr
      simp only at hr
      split at hr
      · rw [List.mem_singleton.mp hr] at hcode
        cases hcode
      rename_i hs
      cases hpath : dir.path with
      | none =>
        rw [hpath] at hr
        rw [List.mem_singleton.mp hr] at hcode
        cases hcode
      | some path =>
        rw [hpath] at hr
        simp only [answerFrom] at hr
        split at hr
        · cases hr
        · rw [List.mem_singleton.mp hr] at hcode
          cases hcode
        · rename_i data hread
          rw [List.mem_singleton.mp hr] at hcode ⊢
          refine ⟨path, data, ⟨dir, peer, hdir, hpeer, by simpa using hs, hpath⟩, hread, rfl, ?_⟩
          unfold servedCode at hcode ⊢
          split at hcode
          · cases hcode
          · rename_i hhash
            exact if_neg hhash

end Answer

/-! ## The bytes of an answer -/

/-- What reading a node of the disk can give; a directory gives no byte. -/
def bytes : FNode → Bytes
  | .file data => data
  | .dir => []

/-- A read gives the bytes at the offset, all of them or none. -/
theorem readBlock_bytes {n : Node} {url : Text} {offset len : Nat} {data : Bytes}
    (h : (n.readBlock url offset len).2 = some (some data)) : ∃ f, n.disk.find n.cwd url = some f ∧
      offset < 2 ^ 63 ∧ len < 2 ^ 63 ∧ data = ((bytes f).drop offset).take len ∧ data.length = len := by
  obtain ⟨-, hoff, hlen, f, hfind, ⟨rfl, rfl⟩ | ⟨-, old, rfl, hin, rfl⟩⟩ := readBlock_eq_some.mp h
  · exact ⟨f, hfind, hoff, hlen, by rw [List.take_zero], rfl⟩
  · refine ⟨_, hfind, hoff, hlen, rfl, ?_⟩
    rw [List.length_take, List.length_drop]
    omega

/-- The fields of a request are in the ranges of their types, `i64` and `i32`. -/
structure Typed (request : Request) : Prop where
  offset_lo : -2 ^ 63 ≤ request.offset
  offset_hi : request.offset < 2 ^ 63
  size_lo : -2 ^ 31 ≤ request.size
  size_hi : request.size < 2 ^ 31

/-- A cast that stays below the sign bit is of a number that is not negative. -/
theorem asUsize_lt {x : Int} (hlo : -2 ^ 63 ≤ x) (hhi : x < 2 ^ 63) (h : asUsize x < 2 ^ 63) :
    0 ≤ x ∧ asUsize x = x.toNat := by
  unfold asUsize at h ⊢
  omega

/-- A run submits at most one response, with the id of the request. A request for a folder
    that is unknown or not shared gets the answer every such request of its id gets. A
    response without an error has exactly the bytes asked for, and they have the hash asked
    for if one was. -/
theorem respond_sound_and_silent (sha256 : Bytes → Bytes) (n : Node) (conn : Conn) (request : Request)
    (htyped : Typed request) :
    (responses (events nodeDo (handleRequest sha256 conn request) n)).length ≤ 1 ∧
    (∀ r ∈ responses (events nodeDo (handleRequest sha256 conn request) n), r.id = request.id) ∧
    (∀ (n' : Node) (conn' : Conn) (request' : Request), ¬ Shared n conn request.folder → ¬ Shared n' conn' request'.folder →
      request'.id = request.id → (peerOf n' conn').isSome = (peerOf n conn).isSome →
      responses (events nodeDo (handleRequest sha256 conn' request') n') =
        responses (events nodeDo (handleRequest sha256 conn request) n)) ∧
    (¬ Shared n conn request.folder →
      ∀ r ∈ responses (events nodeDo (handleRequest sha256 conn request) n), r = refusal request.id) ∧
    (∀ r ∈ responses (events nodeDo (handleRequest sha256 conn request) n), r.code = ErrorCode.noError.asI32 →
      Shared n conn request.folder ∧ 0 ≤ request.offset ∧ 0 ≤ request.size ∧
      ∃ path f, folderPath n request = some path ∧ n.disk.find n.cwd (push path request.name) = some f ∧
        r.data = ((bytes f).drop request.offset.toNat).take request.size.toNat ∧ r.data.length = request.size.toNat ∧
        (request.hash = [] ∨ request.hash = sha256 r.data)) := by
  rw [responses_handleRequest]
  refine ⟨length_answer sha256 n conn request, id_answer sha256 n conn request, ?_, ?_, ?_⟩
  · intro n' conn' request' hnot hnot' hid hknown
    rw [responses_handleRequest, answer_of_not_shared sha256 n conn request hnot,
      answer_of_not_shared sha256 n' conn' request' hnot', hid, hknown]
  · intro hnot r hr
    rw [answer_of_not_shared sha256 n conn request hnot] at hr
    split at hr
    · exact List.mem_singleton.mp hr
    · cases hr
  · intro r hr hcode
    obtain ⟨path, data, hadm, hread, hdata, hserved⟩ := mem_answer_served sha256 n conn request hr hcode
    obtain ⟨f, hfind, hoff, hlen, hbytes, hlength⟩ := readBlock_bytes hread
    obtain ⟨hoff0, hoffset⟩ := asUsize_lt htyped.offset_lo htyped.offset_hi hoff
    have hsize_lo : -2 ^ 63 ≤ request.size := by have := htyped.size_lo; omega
    have hsize_hi : request.size < 2 ^ 63 := by have := htyped.size_hi; omega
    obtain ⟨hsize0, hsize⟩ := asUsize_lt hsize_lo hsize_hi hlen
    have hpath := folderPath_of_admitted hadm
    obtain ⟨dir, peer, hdir, hpeer, hs, -⟩ := hadm
    refine ⟨⟨dir, peer, hdir, hpeer, hs⟩, hoff0, hsize0, path, f, hpath, hfind, ?_, ?_, ?_⟩
    · rw [hdata, hbytes, hoffset, hsize]
    · rw [hdata, hlength, hsize]
    · rw [hdata]
      unfold servedCode at hserved
      split at hserved
      · cases hserved
      · rename_i hhash
        by_cases he : request.hash = []
        · exact Or.inl he
        · exact Or.inr (by_contra fun hne => hhash ⟨he, fun hsha => hne hsha.symm⟩)

/-- The tests' file, asked for whole and by its hash. -/
def fileRequest : Request :=
  { secretRequest ['f'] 11 with hash := History.fileSha History.fileContents }

theorem respond_file : Typed fileRequest ∧
    responses (events nodeDo (handleRequest History.fileSha ⟨some [1]⟩ fileRequest) secretNode) =
      [⟨5, History.fileContents, ErrorCode.noError.asI32⟩] ∧
    ∃ path f, folderPath secretNode fileRequest = some path ∧
      secretNode.disk.find secretNode.cwd (push path fileRequest.name) = some f ∧
      History.fileContents = ((bytes f).drop 0).take 11 := by
  have htyped : Typed fileRequest := ⟨by decide, by decide, by decide, by decide⟩
  have hone : responses (events nodeDo (handleRequest History.fileSha ⟨some [1]⟩ fileRequest) secretNode) =
      [⟨5, History.fileContents, ErrorCode.noError.asI32⟩] := by decide +kernel
  obtain ⟨-, -, -, -, hserved⟩ := respond_sound_and_silent History.fileSha secretNode ⟨some [1]⟩ fileRequest htyped
  rw [hone] at hserved
  obtain ⟨-, -, -, path, f, hpath, hfind, hdata, -⟩ := hserved _ (List.mem_singleton.mpr rfl) rfl
  exact ⟨htyped, hone, path, f, hpath, hfind, hdata⟩

end BepRs.Access
