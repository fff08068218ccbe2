/-
  BepRs.Access.Absent — folders and files that are not on disk.

  A peer's ClusterConfig adds folders without a path, and its Index records files that are
  not there yet. `send_index` reads every recorded file again, and the first that it cannot
  read ends it with an error, which ends `handle_connection`; `get_size` panics where the
  recorded block sizes do not add up. The watcher's loop unwraps the path of every folder.

  - `run_announceFolders`: exactly when `send_index` gets through, and what it posts.
  - `absent_harmless_iff`: exactly when what is not on disk does no harm.
-/

import BepRs.Access.Disclose
import BepRs.History.Integrity
import BepRs.History.Watch

namespace BepRs.Access

open BepRs.Lib BepRs.Lib.Path BepRs.Lib.Task BepRs.State BepRs.Sync BepRs.History

variable {sha256 : Bytes → Bytes}

/-! ## `send_index` -/

/-- `send_index` gets over a recorded file. -/
def Announceable (n : Node) (dir : SyncDirectory) (x : SyncFile) : Prop := getSize x ≠ none ∧ Cut n dir x.path

theorem genBlocks_ok_iff (n : Node) (dir : SyncDirectory) (filePath : Text) :
    (∃ blocks, (run nodeDo (genBlocks sha256 filePath dir) n).2 = some (.ok blocks)) ↔ Cut n dir filePath := by
  rw [← blocksAt_isSome sha256]
  unfold genBlocks blocksAt
  cases dir.path with
  | none => simp
  | some path =>
    have hread : nodeDo n (.sys (.readFile (push path filePath))) = (n, some (n.readFile (push path filePath))) := rfl
    rw [run_call_some hread]
    simp only [Option.bind_eq_bind, Option.bind_some]
    cases n.readFile (push path filePath) with
    | none => simp
    | some data =>
      simp only [Option.bind_some]
      cases blocksOf sha256 data with
      | none => simp [run]
      | some blocks => simp

theorem fileInfos_ok_iff (n : Node) (dir : SyncDirectory) : ∀ xs : List SyncFile,
    (∃ infos, (run nodeDo (fileInfos sha256 dir xs) n).2 = some (.ok infos)) ↔ ∀ x ∈ xs, Announceable n dir x := by
  intro xs
  induction xs with
  | nil => simp [fileInfos]
  | cons x xs ih =>
    obtain ⟨out', hrun', -⟩ := run_fileInfos sha256 n dir xs
    rw [hrun'] at ih
    rw [List.forall_mem_cons, ← ih, Announceable, ← @genBlocks_ok_iff sha256]
    unfold fileInfos
    cases getSize x with
    | none => simp [run]
    | some size =>
      simp only [unwrap_some, Prog.ret_bind]
      obtain ⟨out, hrun, -⟩ := run_genBlocks_result sha256 n dir x.path
      rw [run_bind, hrun]
      rcases out with _ | e | blocks
      · simp
      · simp
      · simp only
        rw [run_bind, hrun']
        rcases out' with _ | e | infos <;> simp

/-- The loop gets through exactly when every file of its folders can be announced, and then
    it has posted one Index for each folder, in order. -/
theorem run_announceFolders : ∀ (dirs : List SyncDirectory) (n : Node),
    ((run nodeDo (announceFolders sha256 dirs) n).2 = some (.ok ()) ↔
      ∀ dir ∈ dirs, ∀ x ∈ n.store.index dir.id, Announceable n dir x) ∧
    ((run nodeDo (announceFolders sha256 dirs) n).2 = some (.ok ()) → ∃ msgs : List Index,
      (run nodeDo (announceFolders sha256 dirs) n).1.sent = n.sent ++ msgs.map .index ∧
        msgs.map Index.folder = dirs.map SyncDirectory.id) := by
  intro dirs
  induction dirs with
  | nil => intro n; exact ⟨by simp [announceFolders], fun _ => ⟨[], by simp [announceFolders], rfl⟩⟩
  | cons dir dirs ih =>
    intro n
    have hok := @fileInfos_ok_iff sha256 n dir (n.store.index dir.id)
    unfold announceFolders
    rw [List.forall_mem_cons, ← hok, run_call_some (nodeDo_getSyncFiles n dir.id), run_bind]
    obtain ⟨out, hrun, -⟩ := run_fileInfos sha256 n dir (n.store.index dir.id)
    rw [hrun]
    rcases out with _ | e | infos
    · simp
    · simp
    · simp only
      rw [run_call_some (nodeDo_submitMessage n _)]
      obtain ⟨hiff, hmsgs⟩ := ih { n with sent := n.sent ++ [.index ⟨dir.id, infos⟩] }
      refine ⟨hiff.trans ⟨fun h => ⟨⟨infos, rfl⟩, h⟩, fun h => h.2⟩, fun h => ?_⟩
      obtain ⟨msgs, hsent, hfolders⟩ := hmsgs h
      exact ⟨⟨dir.id, infos⟩ :: msgs, by rw [hsent]; simp, by simp [hfolders]⟩

/-- A run for a known peer is the loop over the folders shared with it. -/
theorem run_sendIndex_selected {n : Node} {conn : Conn} {peer : Peer} (hpeer : peerOf n conn = some peer) :
    run nodeDo (sendIndex sha256 conn) n = run nodeDo (announceFolders sha256 (selected n.store peer)) n := by
  obtain ⟨x, hrun, hx⟩ := run_getPeer n conn
  have hok := (hx peer).mpr hpeer
  subst hok
  unfold sendIndex
  rw [run_bind, hrun]
  simp only
  rw [run_call_some (nodeDo_getSyncDirectories n)]
  exact run_sendFolders_selected sha256 peer n.store.getSyncDirectories n

/-! ## What is not on disk -/

/-- The folder has a path, and its recorded files are there. -/
def OnDisk (n : Node) (dir : SyncDirectory) : Prop :=
  ∃ path, dir.path = some path ∧ ∀ x ∈ n.store.index dir.id, (n.readFile (push path x.path)).isSome = true

/-- `send_index` returns `Ok` and has posted an Index for every shared folder that is on
    disk, and a round of the watcher goes on and has indexed every folder with a path. -/
structure Harmless (sha256 : Bytes → Bytes) (n : Node) (conn : Conn) (peer : Peer) : Prop where
  returns : (run nodeDo (sendIndex sha256 conn) n).2 = some (.ok ())
  announced : ∀ dir ∈ selected n.store peer, OnDisk n dir →
    ∃ files, Message.index ⟨dir.id, files⟩ ∈ (run nodeDo (sendIndex sha256 conn) n).1.sent.drop n.sent.length
  watches : (run nodeDo (watchEvent sha256 .changed) n).2 = some none
  indexed : ∀ dir ∈ n.store.getSyncDirectories,
    Reindexed sha256 n dir (run nodeDo (watchEvent sha256 .changed) n).1.store

/-- In every reachable store and with any disk, what is missing does no harm exactly when
    every file recorded for a folder the peer shares can be announced and every folder can
    be scanned. -/
theorem absent_harmless_iff (shortId : UInt64) (cs : List State.Call) (n : Node)
    (hstore : n.store = State.Call.acts (newStore shortId) cs) (conn : Conn) (peer : Peer) (hpeer : peerOf n conn = some peer) :
    Harmless sha256 n conn peer ↔
      (∀ dir ∈ selected n.store peer, ∀ x ∈ n.store.index dir.id, Announceable n dir x) ∧
        ∀ dir ∈ n.store.getSyncDirectories, Scans sha256 n dir := by
  have hnd : (n.store.getSyncDirectories.map SyncDirectory.id).Nodup := by
    rw [map_id_getSyncDirectories, hstore]
    exact folderIds_nodup shortId cs
  obtain ⟨hsend, hmsgs⟩ := @run_announceFolders sha256 (selected n.store peer) n
  obtain ⟨hwatch, hindexed⟩ := run_watchEvent sha256 hnd
  rw [← run_sendIndex_selected hpeer] at hsend hmsgs
  constructor
  · intro h
    exact ⟨hsend.mp h.returns, hwatch.mp h.watches⟩
  · intro h
    have hreturns := hsend.mpr h.1
    have hwatches := hwatch.mpr h.2
    refine ⟨hreturns, fun dir hdir _ => ?_, hwatches, hindexed hwatches⟩
    obtain ⟨msgs, hsent, hfolders⟩ := hmsgs hreturns
    have hmem : dir.id ∈ msgs.map Index.folder := by
      rw [hfolders]
      exact List.mem_map_of_mem hdir
    obtain ⟨m, hm, he⟩ := List.mem_map.mp hmem
    refine ⟨m.files, ?_⟩
    rw [hsent, List.drop_left, ← he]
    exact List.mem_map_of_mem hm

/-! ## A peer that announces -/

def peerDevice (b : UInt8) : DeviceId := ⟨List.replicate 32 b, List.length_replicate⟩

/-- The tests' folder, shared with a peer. -/
def sharedCalls : List State.Call :=
  [.addPeer ['p'] (peerDevice 1),
    .addSyncDirectory (fun _ => true) [] (some ['/', 'd']) ['d'] (some ['d']),
    .syncDirectoryWithPeer fileDir ⟨1, some (List.replicate 32 1), ['p']⟩]

def sharedConn : Conn := ⟨some (List.replicate 32 1)⟩

def sharedPeer : Peer := ⟨1, some (List.replicate 32 1), ['p']⟩

def quietHost : Host :=
  { sharedHost none with node := { fileNode fileContents with store := State.Call.acts (newStore 7) sharedCalls } }

theorem absent_harmless_quiet : peerOf quietHost.node sharedConn = some sharedPeer ∧
    Harmless fileSha quietHost.node sharedConn sharedPeer := by
  have hpeer : peerOf quietHost.node sharedConn = some sharedPeer := by decide +kernel
  refine ⟨hpeer, (absent_harmless_iff 7 sharedCalls quietHost.node rfl sharedConn sharedPeer hpeer).mpr ⟨?_, ?_⟩⟩
  · have hempty : ∀ dir ∈ selected quietHost.node.store sharedPeer, quietHost.node.store.index dir.id = [] := by
      decide +kernel
    intro dir hdir x hx
    rw [hempty dir hdir] at hx
    cases hx
  · have hdirs : quietHost.node.store.getSyncDirectories = [fileDir] := by decide +kernel
    have hread : quietHost.node.readFile (push ['/', 'd'] ['f']) = some fileContents := by decide +kernel
    intro dir hdir
    rw [hdirs, List.mem_singleton] at hdir
    subst hdir
    refine ⟨['/', 'd'], [['f']], rfl, by decide +kernel, fun file hfile => ?_⟩
    rw [List.mem_singleton] at hfile
    subst hfile
    have hnew : quietHost.node.store.lookup fileDir.id ['f'] = none := by decide +kernel
    refine ⟨fileContents, hread, ?_⟩
    rw [hnew]
    exact ⟨['/', 'd'], fileContents, rfl, hread, by decide⟩

/-- The host after messages of the peer, each handled to its end. -/
def told (h : Host) (ms : List Incoming) : Host :=
  ms.foldl (fun h m => (run (hostDo fileSha) (dispatch fileSha sharedConn m) h).1) h

/-- A folder the node does not know, and a file in it; a file that is not there yet in a
    folder that is. -/
def newFolder : Incoming := .clusterConfig ⟨[⟨['e'], ['e'], []⟩]⟩

def newFile (folder : Text) : Incoming := .index ⟨folder, [peerInfo ['g']]⟩

/-- The announced folder makes the watcher panic, its file and the missing one each make
    `send_index` fail. -/
theorem absent_harms :
    (run nodeDo (watchEvent fileSha .changed) (told quietHost [newFolder]).node).2 = none ∧
    (run nodeDo (sendIndex fileSha sharedConn) (told quietHost [newFolder, newFile ['e']]).node).2 =
      some (.error (.other "Non-synced directory")) ∧
    (run nodeDo (sendIndex fileSha sharedConn) (told quietHost [newFile ['d']]).node).2 = some (.error .system) ∧
    ¬ Harmless fileSha (told quietHost [newFolder]).node sharedConn sharedPeer ∧
    ¬ Harmless fileSha (told quietHost [newFile ['d']]).node sharedConn sharedPeer := by
  have hwatch : (run nodeDo (watchEvent fileSha .changed) (told quietHost [newFolder]).node).2 = none := by decide +kernel
  have hfolder : (run nodeDo (sendIndex fileSha sharedConn) (told quietHost [newFolder, newFile ['e']]).node).2 =
      some (.error (.other "Non-synced directory")) := by decide +kernel
  have hfile : (run nodeDo (sendIndex fileSha sharedConn) (told quietHost [newFile ['d']]).node).2 =
      some (.error .system) := by decide +kernel
  refine ⟨hwatch, hfolder, hfile, fun h => ?_, fun h => ?_⟩
  · have := h.watches
    rw [hwatch] at this
    cases this
  · have := h.returns
    rw [hfile] at this
    cases this

end BepRs.Access
