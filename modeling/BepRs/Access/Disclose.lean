/-
  BepRs.Access.Disclose — which folders a peer gets to know.

  Three paths tell a peer about folders, each with its own check: `generate_cluster_config`
  takes them from a join of three tables, `send_index` filters all folders by
  `is_directory_synced`, and `handle_request` looks the requested folder up and asks the
  same. What the last two do is brought out of their tasks: `send_index` runs the body of its
  loop for the `selected` folders (`run_sendFolders_selected`), and `handle_request` is
  `authorise` followed by what is done for the folder it lets through (`handleRequest_eq`).

  `generate_cluster_config` names every peer of a folder and unwraps its device id, which
  the table may not have; the paths that compare device ids take a default there.
  - `disclosure_agrees_iff`: the message exists and the three sets are one, exactly when
    every peer of a disclosed folder has a device id.
  - `disclosure_fails`: a peer without a device id.
-/

import BepRs.Access.Respond
import BepRs.History.Agreement
import BepRs.Sync.Link

namespace BepRs.Access

open BepRs.Lib BepRs.Lib.Path BepRs.Lib.Task BepRs.State BepRs.Sync

/-! ## `send_index` -/

def selected (s : Store) (peer : Peer) : List SyncDirectory :=
  s.getSyncDirectories.filter fun dir => s.isDirectorySynced dir.id peer.id

/-- The body of the loop once a folder is selected. -/
def announceFolders (sha256 : Bytes → Bytes) : List SyncDirectory → BepProg (Except IoError Unit)
  | [] => .ret (.ok ())
  | dir :: dirs => do
    let index ← db (.getSyncFiles dir.id)
    match ← fileInfos sha256 dir index with
    | .error e => .ret (.error e)
    | .ok files => do
      sys (.submitMessage (.index ⟨dir.id, files⟩))
      announceFolders sha256 dirs

/-- The loop runs its body for the folders that pass the filter, and for no other. -/
theorem run_sendFolders_selected (sha256 : Bytes → Bytes) (peer : Peer) : ∀ (dirs : List SyncDirectory) (n : Node),
    run nodeDo (sendFolders sha256 peer dirs) n =
      run nodeDo (announceFolders sha256 (dirs.filter fun dir => n.store.isDirectorySynced dir.id peer.id)) n := by
  intro dirs
  induction dirs with
  | nil => intro n; rfl
  | cons dir dirs ih =>
    intro n
    have hsynced : nodeDo n (.db (.isDirectorySynced dir.id peer.id)) =
        (n, some (n.store.isDirectorySynced dir.id peer.id)) := rfl
    unfold sendFolders
    rw [run_call_some hsynced, List.filter_cons]
    cases n.store.isDirectorySynced dir.id peer.id with
    | false => exact ih n
    | true =>
      simp only [if_true, announceFolders]
      rw [run_call_some (nodeDo_getSyncFiles n dir.id), run_call_some (nodeDo_getSyncFiles n dir.id), run_bind, run_bind]
      obtain ⟨out, hinfos, -⟩ := History.run_fileInfos sha256 n dir (n.store.index dir.id)
      rw [hinfos]
      rcases out with _ | e | infos
      · rfl
      · rfl
      · -- Posting the message leaves the store, so the filter is the same for the rest.
        simp only
        rw [run_call_some (nodeDo_submitMessage n _), run_call_some (nodeDo_submitMessage n _)]
        exact ih _

theorem mem_selected {s : Store} {peer : Peer} {folder : Text} :
    folder ∈ (selected s peer).map SyncDirectory.id ↔
      folder ∈ s.folders.map FolderRow.id ∧ s.isDirectorySynced folder peer.id = true := by
  unfold selected Tables.getSyncDirectories
  simp only [List.mem_map, List.mem_filter]
  constructor
  · intro h
    obtain ⟨dir, ⟨⟨row, hrow, he⟩, hs⟩, hid⟩ := h
    subst he
    subst hid
    exact ⟨⟨row, hrow, rfl⟩, hs⟩
  · intro h
    obtain ⟨⟨row, hrow, hid⟩, hs⟩ := h
    subst hid
    exact ⟨modelToSyncDir row, ⟨⟨row, hrow, rfl⟩, hs⟩, rfl⟩

/-! ## `handle_request` -/

theorem run_authorise {n : Node} {conn : Conn} {peer : Peer} (hpeer : peerOf n conn = some peer) (folder : Text) :
    (∃ dir, (run nodeDo (authorise conn folder) n).2 = some (some dir)) ↔
      folder ∈ n.store.folders.map FolderRow.id ∧ n.store.isDirectorySynced folder peer.id = true := by
  rw [(checked_authorise n conn folder).1, passed, hpeer, Option.map_some]
  cases hdir : n.store.getSyncDirectory folder with
  | none =>
    have hunknown : folder ∉ n.store.folders.map FolderRow.id := by
      intro hmem
      obtain ⟨row, hrow, hid⟩ := List.mem_map.mp hmem
      have := List.find?_eq_none.mp hdir (modelToSyncDir row) (List.mem_map_of_mem hrow)
      exact this (decide_eq_true hid)
    constructor
    · intro h
      obtain ⟨dir, h⟩ := h
      cases h
    · intro h
      exact absurd h.1 hunknown
  | some dir =>
    have hid := getSyncDirectory_id hdir
    subst hid
    have hknown : dir.id ∈ n.store.folders.map FolderRow.id := by
      obtain ⟨row, hrow, he⟩ := List.mem_map.mp (List.mem_of_find?_eq_some hdir)
      rw [← he]
      exact List.mem_map_of_mem (f := FolderRow.id) hrow
    cases hs : n.store.isDirectorySynced dir.id peer.id with
    | false => simp [Option.filter, hs]
    | true => simpa [Option.filter, hs] using hknown

/-! ## `generate_cluster_config` -/

theorem run_clusterDevices (sha256 : Bytes → Bytes) (h : Host) : ∀ peers : List Peer,
    ((∀ q ∈ peers, q.deviceId ≠ none) ∧ ∃ devices, run (hostDo sha256) (clusterDevices peers) h = (h, some devices)) ∨
      (∃ q ∈ peers, q.deviceId = none) ∧ run (hostDo sha256) (clusterDevices peers) h = (h, none) := by
  intro peers
  induction peers with
  | nil => exact Or.inl ⟨(fun q hq => by cases hq), [], rfl⟩
  | cons peer peers ih =>
    cases hid : peer.deviceId with
    | none =>
      refine Or.inr ⟨⟨peer, List.mem_cons_self, hid⟩, ?_⟩
      simp only [clusterDevices, hid, unwrap_none, Prog.panic_bind]
      rfl
    | some id =>
      simp only [clusterDevices, hid, unwrap_some, Prog.ret_bind]
      rw [run_bind]
      rcases ih with ⟨hall, devices, hrun⟩ | ⟨⟨q, hq, hnone⟩, hrun⟩
      · rw [hrun]
        refine Or.inl ⟨fun q hq => ?_, _, rfl⟩
        rcases List.mem_cons.mp hq with rfl | hq
        · rw [hid]; exact Option.some_ne_none id
        · exact hall q hq
      · rw [hrun]
        exact Or.inr ⟨⟨q, List.mem_cons_of_mem _ hq, hnone⟩, rfl⟩

theorem run_clusterFolders (sha256 : Bytes → Bytes) (h : Host) (myself : Device) : ∀ dirs : List (SyncDirectory × List Peer),
    ((∀ x ∈ dirs, ∀ q ∈ x.2, q.deviceId ≠ none) ∧ ∃ folders,
        run (hostDo sha256) (clusterFolders myself dirs) h = (h, some folders) ∧
        folders.map Folder.id = dirs.map fun x => x.1.id) ∨
      (∃ x ∈ dirs, ∃ q ∈ x.2, q.deviceId = none) ∧
        run (hostDo sha256) (clusterFolders myself dirs) h = (h, none) := by
  intro dirs
  induction dirs with
  | nil => exact Or.inl ⟨(fun x hx => by cases hx), [], rfl, rfl⟩
  | cons x dirs ih =>
    obtain ⟨dir, peers⟩ := x
    simp only [clusterFolders]
    rw [run_bind]
    rcases run_clusterDevices sha256 h peers with ⟨hpeers, devices, hrun⟩ | ⟨⟨q, hq, hnone⟩, hrun⟩
    · rw [hrun]
      simp only
      rw [run_bind]
      rcases ih with ⟨hall, folders, hrest, hids⟩ | ⟨⟨y, hy, q, hq, hnone⟩, hrest⟩
      · rw [hrest]
        refine Or.inl ⟨fun y hy => ?_, _, rfl, ?_⟩
        · rcases List.mem_cons.mp hy with rfl | hy
          · exact hpeers
          · exact hall y hy
        · simp only [List.map_cons, hids]
      · rw [hrest]
        exact Or.inr ⟨⟨y, List.mem_cons_of_mem _ hy, q, hq, hnone⟩, rfl⟩
    · rw [hrun]
      exact Or.inr ⟨⟨_, List.mem_cons_self, q, hq, hnone⟩, rfl⟩

/-- A run for a known peer is the loop over what the join gives. -/
theorem run_generateClusterConfig (sha256 : Bytes → Bytes) {h : Host} {conn : Conn} {peer : Peer}
    (hpeer : peerOf h.node conn = some peer) :
    (run (hostDo sha256) (generateClusterConfig conn) h).2 =
      (run (hostDo sha256) (clusterFolders ⟨sha256 h.getOptions.cert, h.getOptions.deviceName⟩
        (h.node.store.getSyncedDirectories peer.id)) h).2.map ClusterConfig.mk := by
  have hgetId : hostDo sha256 h .getId = (h, some (sha256 h.getOptions.cert)) := rfl
  have hgetName : hostDo sha256 h .getName = (h, some h.getOptions.deviceName) := rfl
  have hdirs : hostDo sha256 h (.getSyncedDirectories peer.id) = (h, some (h.node.store.getSyncedDirectories peer.id)) := rfl
  obtain ⟨x, hrun, hx⟩ := run_getPeer h.node conn
  have hok := (hx peer).mpr hpeer
  subst hok
  unfold generateClusterConfig
  rw [run_bind, run_lift, hrun]
  simp only [unwrapLink, Prog.ret_bind]
  rw [run_call_some hgetId, run_call_some hgetName, run_call_some hdirs, run_bind]
  rcases run (hostDo sha256) (clusterFolders ⟨sha256 h.getOptions.cert, h.getOptions.deviceName⟩
    (h.node.store.getSyncedDirectories peer.id)) h with ⟨h', _ | folders⟩
  · rfl
  · rfl

/-! ## The three sets -/

/-- The config for the peer is produced, and its folders, those `send_index` selects and
    those `handle_request` lets through are the same. -/
def Agrees (sha256 : Bytes → Bytes) (h : Host) (conn : Conn) (peer : Peer) : Prop :=
  ∃ config, (run (hostDo sha256) (generateClusterConfig conn) h).2 = some config ∧
    ∀ folder : Text,
      (folder ∈ config.folders.map Folder.id ↔ folder ∈ (selected h.node.store peer).map SyncDirectory.id) ∧
      (folder ∈ config.folders.map Folder.id ↔ ∃ dir, (run nodeDo (authorise conn folder) h.node).2 = some (some dir))

theorem mem_peers_of_peerOf {n : Node} {conn : Conn} {peer : Peer} (h : peerOf n conn = some peer) :
    peer ∈ n.store.peers := by
  unfold peerOf at h
  obtain ⟨peerId, -, hfind⟩ := Option.bind_eq_some_iff.mp h
  exact List.mem_of_find?_eq_some hfind

theorem map_id_getSyncDirectories (s : Store) : s.getSyncDirectories.map SyncDirectory.id = s.folders.map FolderRow.id := by
  rw [Tables.getSyncDirectories, List.map_map]; rfl

/-- The three disclosure paths agree for a connected peer, exactly when every peer that
    has one of its folders has a device id. -/
theorem disclosure_agrees_iff (sha256 : Bytes → Bytes) (h : Host) (conn : Conn) (peer : Peer)
    (hpeer : peerOf h.node conn = some peer) :
    Agrees sha256 h conn peer ↔
      ∀ folder ∈ h.node.store.folders, h.node.store.isDirectorySynced folder.id peer.id = true →
        ∀ q ∈ h.node.store.peers, h.node.store.isDirectorySynced folder.id q.id = true → q.deviceId ≠ none := by
  have hmem := mem_peers_of_peerOf hpeer
  unfold Agrees
  rw [run_generateClusterConfig sha256 hpeer]
  rcases run_clusterFolders sha256 h ⟨sha256 h.getOptions.cert, h.getOptions.deviceName⟩
    (h.node.store.getSyncedDirectories peer.id) with ⟨hall, folders, hrun, hids⟩ | ⟨⟨⟨dir, ps⟩, hx, q, hq, hnone⟩, hrun⟩
  · rw [hrun]
    constructor
    · intro _ folder hfolder hs q hq hqs
      refine hall (modelToSyncDir folder, h.node.store.getDirectoryPeers folder.id) ?_ q ?_
      · exact (h.node.store.mem_getSyncedDirectories hmem).mpr ⟨List.mem_map_of_mem hfolder, hs, rfl⟩
      · exact h.node.store.mem_getDirectoryPeers.mpr ⟨hq, List.mem_map_of_mem hfolder, hqs⟩
    · intro _
      -- All three are the known folders with a share.
      have hconfig : ∀ folder, folder ∈ folders.map Folder.id ↔
          folder ∈ h.node.store.folders.map FolderRow.id ∧ h.node.store.isDirectorySynced folder peer.id = true := by
        intro folder
        rw [hids]
        constructor
        · intro hf
          obtain ⟨⟨dir, ps⟩, hx, he⟩ := List.mem_map.mp hf
          obtain ⟨hdir, hs, -⟩ := (h.node.store.mem_getSyncedDirectories hmem).mp hx
          subst he
          refine ⟨?_, hs⟩
          rw [← map_id_getSyncDirectories]
          exact List.mem_map_of_mem hdir
        · intro hf
          rw [← map_id_getSyncDirectories] at hf
          obtain ⟨⟨dir, hdir, he⟩, hs⟩ := And.imp_left List.mem_map.mp hf
          subst he
          exact List.mem_map.mpr ⟨(dir, _), (h.node.store.mem_getSyncedDirectories hmem).mpr ⟨hdir, hs, rfl⟩, rfl⟩
      refine ⟨⟨folders⟩, rfl, fun folder => ⟨?_, ?_⟩⟩
      · rw [mem_selected]; exact hconfig folder
      · rw [run_authorise hpeer]; exact hconfig folder
  · rw [hrun]
    constructor
    · intro hagree
      obtain ⟨config, hconfig, -⟩ := hagree
      cases hconfig
    · intro hdev
      obtain ⟨hdir, hs, hps⟩ := (h.node.store.mem_getSyncedDirectories hmem).mp hx
      obtain ⟨row, hrow, he⟩ := List.mem_map.mp hdir
      subst he
      subst hps
      obtain ⟨hqmem, -, hqs⟩ := h.node.store.mem_getDirectoryPeers.mp hq
      exact absurd hnone (hdev row hrow hs q hqmem hqs)

/-- The tests' folder shared with the peer of the connection twice over, a share of a folder
    that is gone, and a second peer of the folder. -/
def sharedHost (deviceId : Option Bytes) : Host where
  node :=
    { History.fileNode History.fileContents with
      store := Store.empty [⟨['d'], ['d'], some ['/', 'd']⟩, ⟨['e'], ['e'], none⟩]
        [⟨1, some [1], ['p']⟩, ⟨2, deviceId, ['q']⟩] [⟨['d'], 1⟩, ⟨['d'], 1⟩, ⟨['x'], 1⟩, ⟨['d'], 2⟩] 7 }
  addresses := []
  options := [⟨['m'], []⟩]
  initialized := List.cons_ne_nil _ _

theorem disclosure_agrees_shared :
    peerOf (sharedHost (some [2])).node ⟨some [1]⟩ = some ⟨1, some [1], ['p']⟩ ∧
      Agrees History.fileSha (sharedHost (some [2])) ⟨some [1]⟩ ⟨1, some [1], ['p']⟩ := by
  have hpeer : peerOf (sharedHost (some [2])).node ⟨some [1]⟩ = some ⟨1, some [1], ['p']⟩ := by decide +kernel
  refine ⟨hpeer, (disclosure_agrees_iff History.fileSha (sharedHost (some [2])) ⟨some [1]⟩ _ hpeer).mpr ?_⟩
  decide +kernel

/-- The second peer has no device id: no config is produced, and the other two paths
    disclose the folder. -/
theorem disclosure_fails :
    peerOf (sharedHost none).node ⟨some [1]⟩ = some ⟨1, some [1], ['p']⟩ ∧
      (run (hostDo History.fileSha) (generateClusterConfig ⟨some [1]⟩) (sharedHost none)).2 = none ∧
      ['d'] ∈ (selected (sharedHost none).node.store ⟨1, some [1], ['p']⟩).map SyncDirectory.id ∧
      ¬ Agrees History.fileSha (sharedHost none) ⟨some [1]⟩ ⟨1, some [1], ['p']⟩ := by
  have hnone : (run (hostDo History.fileSha) (generateClusterConfig ⟨some [1]⟩) (sharedHost none)).2 = none := by
    decide +kernel
  refine ⟨by decide +kernel, hnone, by decide +kernel, fun h => ?_⟩
  obtain ⟨config, hconfig, -⟩ := h
  rw [hnone] at hconfig
  cases hconfig

end BepRs.Access
