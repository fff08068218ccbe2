/-
  BepRs.Access.Confine — where the bytes of a response come from.

  `handle_request` pushes the requested name, a string of the peer's choice, on the
  folder's path and reads there. An absolute name replaces the path and `..` climbs out of
  it, so the place read may be outside the folder. A run is judged by what it asked for
  (`events`): every response with data must have the bytes of some read (`reads`) at a path
  that leads, lexically, to a place below the folder's (`Confined`).

  - `confined_iff`: exactly when a run is confined: nothing is served, or the name stays
    inside.
  - `escape_by_dots`: a request that is served a file beside the folder.
-/

import BepRs.History.Network

namespace BepRs.Access

open BepRs.Lib BepRs.Lib.Path BepRs.Lib.Task BepRs.State BepRs.Sync

abbrev Trace := List ((o : Op) × o.Ans)

/-- The reads that gave data, with where they read. -/
def reads (tr : Trace) : List (Text × Bytes) :=
  tr.filterMap fun
    | ⟨.sys (.readBlock url _ _), some data⟩ => some (url, data)
    | _ => none

/-- The responses that were submitted. -/
def responses (tr : Trace) : List Response :=
  tr.filterMap fun
    | ⟨.sys (.submitMessage (.response r)), _⟩ => some r
    | _ => none

theorem reads_append (tr tr' : Trace) : reads (tr ++ tr') = reads tr ++ reads tr' := List.filterMap_append

theorem responses_append (tr tr' : Trace) : responses (tr ++ tr') = responses tr ++ responses tr' :=
  List.filterMap_append

@[simp] theorem reads_db (o : DbOp) (r : o.Ans) (tr : Trace) : reads (⟨.db o, r⟩ :: tr) = reads tr := rfl
@[simp] theorem responses_db (o : DbOp) (r : o.Ans) (tr : Trace) : responses (⟨.db o, r⟩ :: tr) = responses tr := rfl

/-- The local path of the requested folder. -/
def folderPath (n : Node) (request : Request) : Option Text :=
  (n.store.getSyncDirectory request.folder).bind SyncDirectory.path

def Confined (n : Node) (request : Request) (tr : Trace) : Prop :=
  ∀ r ∈ responses tr, r.data ≠ [] → ∃ x ∈ reads tr, x.2 = r.data ∧ ∃ path ∈ folderPath n request, Inside n.cwd path x.1

instance (n : Node) (request : Request) (tr : Trace) : Decidable (Confined n request tr) :=
  inferInstanceAs (Decidable (∀ r ∈ responses tr, _))

/-! ## The peer -/

/-- The peer of a connection, as the node's table has it. -/
def peerOf (n : Node) (conn : Conn) : Option Peer :=
  conn.peerId.bind fun peerId => n.store.peers.find? fun peer => peerId = peer.deviceId.getD []

theorem run_getPeer (n : Node) (conn : Conn) : ∃ r, run nodeDo (getPeer conn) n = (n, some r) ∧
    (∀ peer, r = .ok peer ↔ peerOf n conn = some peer) := by
  unfold getPeer
  rw [run_call_some (nodeDo_getPeers n)]
  cases hid : conn.peerId with
  | none => exact ⟨_, rfl, fun peer => by simp [peerOf, hid]⟩
  | some peerId =>
    simp only
    cases hfind : n.store.peers.find? fun peer => peerId = peer.deviceId.getD [] with
    | none => exact ⟨_, rfl, fun peer => by simp [peerOf, hid, hfind]⟩
    | some p => exact ⟨_, rfl, fun peer => by simp [peerOf, hid, hfind]⟩

theorem events_getPeer (n : Node) (conn : Conn) :
    reads (events nodeDo (getPeer conn) n) = [] ∧ responses (events nodeDo (getPeer conn) n) = [] := by
  unfold getPeer
  rw [events_call_some (nodeDo_getPeers n)]
  cases conn.peerId with
  | none => exact ⟨rfl, rfl⟩
  | some peerId =>
    simp only
    cases n.store.peers.find? fun peer => peerId = peer.deviceId.getD [] with
    | none => exact ⟨rfl, rfl⟩
    | some p => exact ⟨rfl, rfl⟩

/-! ## The read -/

/-- A read of nothing succeeds on whatever there is, another one within a file. -/
theorem readBlock_eq_some {n : Node} {url : Text} {offset len : Nat} {data : Bytes} :
    (n.readBlock url offset len).2 = some (some data) ↔ n.poisoned = false ∧ offset < 2 ^ 63 ∧ len < 2 ^ 63 ∧
      ∃ f, n.disk.find n.cwd url = some f ∧
        (len = 0 ∧ data = [] ∨
          0 < len ∧ ∃ old, f = .file old ∧ offset + len ≤ old.length ∧ data = (old.drop offset).take len) := by
  constructor
  · intro h
    unfold Node.readBlock at h
    split at h
    · cases h
    rename_i hpoison
    split at h
    · cases h
    rename_i f hfind
    split at h
    · cases h
    rename_i hoff
    split at h
    · cases h
    rename_i hlen
    refine ⟨by simpa using hpoison, by simpa [Node.seekable] using hoff, by omega, f, hfind, ?_⟩
    split at h
    · rename_i hzero
      cases h
      exact Or.inl ⟨hzero, rfl⟩
    rename_i hzero
    split at h
    · rename_i old
      split at h
      · rename_i hin
        cases h
        exact Or.inr ⟨by omega, old, rfl, hin, rfl⟩
      · cases h
    · cases h
  · rintro ⟨hpoison, hoff, hlen, f, hfind, hread⟩
    have hseek : (!Node.seekable offset) = false := by simpa [Node.seekable] using hoff
    rw [Node.readBlock, hpoison, hfind]
    simp only [hseek, Bool.false_eq_true, if_false]
    rw [if_neg (by omega)]
    obtain ⟨hzero, rfl⟩ | ⟨hpos, old, rfl, hin, rfl⟩ := hread
    · rw [if_pos hzero]
    · rw [if_neg (by omega)]
      simp only [hin, if_true]

/-- There are bytes to read: a file long enough, and some of it asked for. -/
def Served (n : Node) (url : Text) (offset len : Nat) : Prop :=
  n.poisoned = false ∧ ∃ data, n.disk.find n.cwd url = some (.file data) ∧ offset < 2 ^ 63 ∧ 0 < len ∧ len < 2 ^ 63 ∧
    offset + len ≤ data.length

theorem served_of_readBlock {n : Node} {url : Text} {offset len : Nat} {data : Bytes}
    (h : (n.readBlock url offset len).2 = some (some data)) (hne : data ≠ []) : Served n url offset len := by
  obtain ⟨hpoison, hoff, hlen, f, hfind, ⟨-, hnil⟩ | ⟨hpos, old, rfl, hin, -⟩⟩ := readBlock_eq_some.mp h
  · exact absurd hnil hne
  · exact ⟨hpoison, old, hfind, hoff, hpos, hlen, hin⟩

theorem readBlock_of_served {n : Node} {url : Text} {offset len : Nat} (h : Served n url offset len) :
    ∃ data, (n.readBlock url offset len).2 = some (some data) ∧ data ≠ [] := by
  obtain ⟨hpoison, data, hfind, hoff, hpos, hlen, hin⟩ := h
  refine ⟨(data.drop offset).take len, ?_, ?_⟩
  · exact readBlock_eq_some.mpr ⟨hpoison, hoff, hlen, _, hfind, Or.inr ⟨hpos, data, rfl, hin, rfl⟩⟩
  · rw [← List.length_pos_iff, List.length_take, List.length_drop]
    omega

/-! ## The request -/

theorem events_respond (n : Node) (request : Request) (data : Bytes) (code : ErrorCode) :
    reads (events nodeDo (respond request data code) n) = [] ∧
      responses (events nodeDo (respond request data code) n) = [⟨request.id, data, code.asI32⟩] := ⟨rfl, rfl⟩

/-- The task once the folder is found, shared and here. -/
def serve (sha256 : Bytes → Bytes) (request : Request) (path : Text) : BepProg Unit := do
  let data ← sys (.readBlock (push path request.name) (asUsize request.offset) (asUsize request.size))
  match data with
  | none => respond request [] .noSuchFile
  | some data =>
    if request.hash ≠ [] ∧ sha256 data ≠ request.hash then respond request data .invalidFile
    else respond request data .noError

/-- The bytes served are the bytes read, or there are none. -/
theorem events_serve (sha256 : Bytes → Bytes) (n : Node) (request : Request) (path : Text) :
    (∃ data, (n.readBlock (push path request.name) (asUsize request.offset) (asUsize request.size)).2 = some (some data) ∧
        reads (events nodeDo (serve sha256 request path) n) = [(push path request.name, data)] ∧
        ∃ code, responses (events nodeDo (serve sha256 request path) n) = [⟨request.id, data, code⟩]) ∨
      (∀ data, (n.readBlock (push path request.name) (asUsize request.offset) (asUsize request.size)).2 ≠
          some (some data)) ∧
        ∀ r ∈ responses (events nodeDo (serve sha256 request path) n), r.data = [] := by
  unfold serve
  rcases hread : n.readBlock (push path request.name) (asUsize request.offset) (asUsize request.size) with ⟨n', x⟩
  have hdo : nodeDo n (.sys (.readBlock (push path request.name) (asUsize request.offset) (asUsize request.size))) =
      (n', x) := hread
  cases x with
  | none =>
    rw [events_call_none hdo]
    exact Or.inr ⟨fun data => by simp, fun r hr => by cases hr⟩
  | some x =>
    rw [events_call_some hdo]
    cases x with
    | none =>
      refine Or.inr ⟨fun data => by simp, fun r hr => ?_⟩
      have hone : r ∈ [(⟨request.id, [], ErrorCode.noSuchFile.asI32⟩ : Response)] := hr
      rw [List.mem_singleton.mp hone]
    | some data =>
      refine Or.inl ⟨data, rfl, ?_⟩
      by_cases hhash : request.hash ≠ [] ∧ sha256 data ≠ request.hash
      · simp only [if_pos hhash]
        exact ⟨rfl, _, rfl⟩
      · simp only [if_neg hhash]
        exact ⟨rfl, _, rfl⟩

/-! ## The check -/

/-- The first part of `handle_request`: the folder, if the peer may read it. -/
def authorise (conn : Conn) (folder : Text) : BepProg (Option SyncDirectory) := do
  let dir ← db (.getSyncDirectory folder)
  let peer ← unwrapOk (← getPeer conn)
  match dir with
  | none => .ret none
  | some dir => do
    let synced : Bool ← db (.isDirectorySynced dir.id peer.id)
    if synced = false then .ret none else .ret (some dir)

/-- The second part. -/
def deliver (sha256 : Bytes → Bytes) (request : Request) : Option SyncDirectory → BepProg Unit
  | none => respond request [] .invalidFile
  | some dir =>
    match dir.path with
    | none => respond request [] .noSuchFile
    | some path => serve sha256 request path

theorem handleRequest_eq (sha256 : Bytes → Bytes) (conn : Conn) (request : Request) :
    handleRequest sha256 conn request = authorise conn request.folder >>= deliver sha256 request := by
  unfold handleRequest authorise getPeer db call
  simp only [Prog.ask_bind, Prog.ret_bind]
  congr 1
  funext dir
  congr 1
  funext peers
  cases conn.peerId with
  | none => rfl
  | some peerId =>
    simp only
    cases peers.find? fun peer => peerId = peer.deviceId.getD [] with
    | none => rfl
    | some peer =>
      simp only [Prog.ret_bind, unwrapOk]
      cases dir with
      | none => rfl
      | some dir =>
        simp only [Prog.ask_bind]
        congr 1
        funext synced
        cases synced with
        | false => rfl
        | true => rfl

/-- What the check comes to: nothing when the connection's peer is not known, and else the
    folder, if it is known and shared. -/
def passed (n : Node) (conn : Conn) (folder : Text) : Option (Option SyncDirectory) :=
  (peerOf n conn).map fun peer => (n.store.getSyncDirectory folder).filter fun dir => n.store.isDirectorySynced dir.id peer.id

/-- The check reads and answers nothing. -/
theorem checked_authorise (n : Node) (conn : Conn) (folder : Text) :
    run nodeDo (authorise conn folder) n = (n, passed n conn folder) ∧
      reads (events nodeDo (authorise conn folder) n) = [] ∧ responses (events nodeDo (authorise conn folder) n) = [] := by
  have hget : nodeDo n (.db (.getSyncDirectory folder)) = (n, some (n.store.getSyncDirectory folder)) := rfl
  obtain ⟨x, hrun, hpeer⟩ := run_getPeer n conn
  obtain ⟨hreads, hresponses⟩ := events_getPeer n conn
  unfold authorise passed
  rw [run_call_some hget, events_call_some hget, reads_db, responses_db, run_bind, events_bind, hrun, reads_append,
    responses_append, hreads, hresponses]
  simp only [List.nil_append]
  cases x with
  | error e =>
    have hnone : peerOf n conn = none := by
      cases hp : peerOf n conn with
      | none => rfl
      | some peer => cases (hpeer peer).mpr hp
    rw [hnone]
    exact ⟨rfl, rfl, rfl⟩
  | ok peer =>
    rw [(hpeer peer).mp rfl]
    simp only [unwrapOk, Prog.ret_bind]
    cases n.store.getSyncDirectory folder with
    | none => exact ⟨rfl, rfl, rfl⟩
    | some dir =>
      have hsync : nodeDo n (.db (.isDirectorySynced dir.id peer.id)) =
          (n, some (n.store.isDirectorySynced dir.id peer.id)) := rfl
      simp only
      rw [run_call_some hsync, events_call_some hsync, reads_db, responses_db]
      cases hs : n.store.isDirectorySynced dir.id peer.id with
      | false => exact ⟨by simp [Option.filter, hs], rfl, rfl⟩
      | true => exact ⟨by simp [Option.filter, hs], rfl, rfl⟩

/-- A run reads and answers what is done for the folder the check came to. -/
theorem events_passed (sha256 : Bytes → Bytes) (n : Node) (conn : Conn) (request : Request) :
    reads (events nodeDo (handleRequest sha256 conn request) n) =
        (passed n conn request.folder).elim [] (fun d => reads (events nodeDo (deliver sha256 request d) n)) ∧
      responses (events nodeDo (handleRequest sha256 conn request) n) =
        (passed n conn request.folder).elim [] fun d => responses (events nodeDo (deliver sha256 request d) n) := by
  obtain ⟨hrun, hreads, hresponses⟩ := checked_authorise n conn request.folder
  rw [handleRequest_eq, events_bind, hrun, reads_append, responses_append, hreads, hresponses]
  cases passed n conn request.folder with
  | none => exact ⟨rfl, rfl⟩
  | some d => exact ⟨rfl, rfl⟩

/-- The peer is known, the folder is shared with it and has a local path. -/
def Admitted (n : Node) (conn : Conn) (request : Request) (path : Text) : Prop :=
  ∃ dir peer, n.store.getSyncDirectory request.folder = some dir ∧ peerOf n conn = some peer ∧
    n.store.isDirectorySynced dir.id peer.id = true ∧ dir.path = some path

theorem admitted_iff {n : Node} {conn : Conn} {request : Request} {path : Text} :
    Admitted n conn request path ↔ ∃ dir, passed n conn request.folder = some (some dir) ∧ dir.path = some path := by
  unfold Admitted passed
  constructor
  · intro h
    obtain ⟨dir, peer, hdir, hpeer, hs, hpath⟩ := h
    exact ⟨dir, by simp [hpeer, hdir, hs], hpath⟩
  · intro h
    obtain ⟨dir, hpassed, hpath⟩ := h
    obtain ⟨peer, hpeer, hfilter⟩ := Option.map_eq_some_iff.mp hpassed
    obtain ⟨hdir, hs⟩ := Option.filter_eq_some_iff.mp hfilter
    exact ⟨dir, peer, hdir, hpeer, hs, hpath⟩

/-- A run serves from the folder's path when the request is admitted, and else answers, if
    at all, without data. -/
theorem events_handleRequest (sha256 : Bytes → Bytes) (n : Node) (conn : Conn) (request : Request) :
    (∃ path, Admitted n conn request path ∧
        reads (events nodeDo (handleRequest sha256 conn request) n) = reads (events nodeDo (serve sha256 request path) n) ∧
        responses (events nodeDo (handleRequest sha256 conn request) n) =
          responses (events nodeDo (serve sha256 request path) n)) ∨
      (∀ path, ¬ Admitted n conn request path) ∧
        ∀ r ∈ responses (events nodeDo (handleRequest sha256 conn request) n), r.data = [] := by
  have hempty : ∀ code, ∀ r ∈ responses (events nodeDo (respond request [] code) n), r.data = [] := by
    intro code r hr
    rw [(events_respond n request [] code).2] at hr
    rw [List.mem_singleton.mp hr]
  obtain ⟨hreads, hresponses⟩ := events_passed sha256 n conn request
  rw [hreads, hresponses]
  simp only [admitted_iff]
  cases hpassed : passed n conn request.folder with
  | none => exact Or.inr ⟨by simp, fun r hr => by cases hr⟩
  | some d =>
    cases d with
    | none => exact Or.inr ⟨by simp, hempty .invalidFile⟩
    | some dir =>
      cases hpath : dir.path with
      | none =>
        refine Or.inr ⟨by simp [hpath], ?_⟩
        simp only [Option.elim_some, deliver, hpath]
        exact hempty .noSuchFile
      | some path =>
        refine Or.inl ⟨path, ⟨dir, rfl, hpath⟩, ?_⟩
        simp only [Option.elim_some, deliver, hpath, and_self]

theorem folderPath_of_admitted {n : Node} {conn : Conn} {request : Request} {path : Text}
    (h : Admitted n conn request path) : folderPath n request = some path := by
  obtain ⟨dir, peer, hdir, -, -, hpath⟩ := h
  rw [folderPath, hdir]; exact hpath

/-- Every byte a run of `handle_request` submits was read inside the folder, exactly when
    nothing is served or the requested name stays inside the folder. -/
theorem confined_iff (sha256 : Bytes → Bytes) (n : Node) (conn : Conn) (request : Request) :
    Confined n request (events nodeDo (handleRequest sha256 conn request) n) ↔
      ∀ path, Admitted n conn request path →
        Served n (push path request.name) (asUsize request.offset) (asUsize request.size) →
        Inside n.cwd path (push path request.name) := by
  rcases events_handleRequest sha256 n conn request with ⟨path, hadm, hreads, hresp⟩ | ⟨hnot, hempty⟩
  · have hfolder := folderPath_of_admitted hadm
    unfold Confined
    rw [hreads, hresp, hfolder]
    rcases events_serve sha256 n request path with ⟨data, hread, hreads', code, hresp'⟩ | ⟨hread, hempty⟩
    · rw [hreads', hresp']
      constructor
      · intro h path' hadm' hserved
        have hpath : path' = path := Option.some.inj ((folderPath_of_admitted hadm').symm.trans hfolder)
        subst hpath
        obtain ⟨data', hread', hne⟩ := readBlock_of_served hserved
        rw [hread] at hread'
        cases hread'
        obtain ⟨x, hx, -, path'', hp, hin⟩ := h _ (List.mem_singleton.mpr rfl) hne
        cases hp
        cases List.mem_singleton.mp hx
        exact hin
      · intro h r hr hne
        cases List.mem_singleton.mp hr
        exact ⟨_, List.mem_singleton.mpr rfl, rfl, path, rfl, h path hadm (served_of_readBlock hread hne)⟩
    · constructor
      · intro _ path' hadm' hserved
        have hpath : path' = path := Option.some.inj ((folderPath_of_admitted hadm').symm.trans hfolder)
        subst hpath
        obtain ⟨data, hdata, -⟩ := readBlock_of_served hserved
        exact absurd hdata (hread data)
      · intro _ r hr hne
        exact absurd (hempty r hr) hne
  · constructor
    · intro _ path hadm _
      exact absurd hadm (hnot path)
    · intro _ r hr hne
      exact absurd (hempty r hr) hne

/-! ## A request beside the folder -/

/-- The tests' file in the shared folder, and the second contents in a file beside it. -/
def secretNode : Node :=
  { History.fileNode History.fileContents with
    store := Store.empty [⟨['d'], ['d'], some ['/', 'd']⟩] [⟨1, some [1], ['p']⟩] [⟨['d'], 1⟩] 7
    disk :=
      { entries := [([['d']], .dir), ([['d'], ['f']], .file History.fileContents), ([['s']], .file History.fileContents2)]
        nodup := by simp
        named := by simp [FileName, Plain] } }

/-- The peer the folder is shared with asks for all of a file of a given length. -/
def secretRequest (name : Text) (size : Int) : Request := ⟨5, ['d'], name, 0, size, [], 0⟩

theorem confined_file :
    Confined secretNode (secretRequest ['f'] 11)
      (events nodeDo (handleRequest History.fileSha ⟨some [1]⟩ (secretRequest ['f'] 11)) secretNode) := by
  refine (confined_iff History.fileSha secretNode ⟨some [1]⟩ (secretRequest ['f'] 11)).mpr fun path hadm _ => ?_
  have hpath := folderPath_of_admitted hadm
  have hd : folderPath secretNode (secretRequest ['f'] 11) = some ['/', 'd'] := by decide +kernel
  rw [hd] at hpath
  cases hpath
  decide +kernel

/-- The name `../s` is served from beside the folder, and so is `/s`. -/
theorem escape_by_dots :
    (responses (events nodeDo (handleRequest History.fileSha ⟨some [1]⟩ (secretRequest ['.', '.', '/', 's'] 17))
      secretNode) = [⟨5, History.fileContents2, 0⟩] ∧
      ¬ Confined secretNode (secretRequest ['.', '.', '/', 's'] 17)
        (events nodeDo (handleRequest History.fileSha ⟨some [1]⟩ (secretRequest ['.', '.', '/', 's'] 17)) secretNode)) ∧
    ¬ Confined secretNode (secretRequest ['/', 's'] 17)
      (events nodeDo (handleRequest History.fileSha ⟨some [1]⟩ (secretRequest ['/', 's'] 17)) secretNode) := by
  decide +kernel

end BepRs.Access
