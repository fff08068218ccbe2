/-
  BepRs.Access.Listing — how often a ClusterConfig names a folder and a device.

  `sync_directory_with_peer` inserts a row whether or not the share is there, and the
  queries behind `generate_cluster_config` give one result for each row: a share made `n`
  times puts its folder into the message `n` times, and the peer `n` times among the
  folder's devices. The node itself is put behind these whoever they are.

  - `shares_acts`: the rows are the shares the calls have made, with repetitions.
  - `clusterConfig_once_iff`: in every reachable store, the message for a peer lists nothing
    twice exactly when each folder of the peer was shared once with each of its peers,
    none of them the node itself.
-/

import BepRs.Access.Absent

namespace BepRs.State

open BepRs.Lib BepRs.Lib.Path

/-! ## The joins -/

namespace Tables

variable {t : Tables}

/-- A folder's peers, each as often as it has the share. -/
theorem getDirectoryPeers_eq (hf : (t.folders.map FolderRow.id).Nodup) {directory : Text}
    (hknown : directory ∈ t.folders.map FolderRow.id) :
    t.getDirectoryPeers directory = t.peers.flatMap fun q => List.replicate (t.shares.count ⟨directory, q.id⟩) q := by
  have hfolder : ∀ (share : FolderShare) (q : Peer),
      ((t.folders.filter fun folder => share.syncFolderId = folder.id ∧ folder.id = directory).map fun _ => q) =
        if share.syncFolderId = directory then [q] else [] := by
    intro share q
    split
    · rename_i he
      have hsame : (t.folders.filter fun folder => share.syncFolderId = folder.id ∧ folder.id = directory) =
          t.folders.filter fun folder => directory = folder.id :=
        List.filter_congr fun folder _ => by
          rw [he]
          exact decide_eq_decide.mpr ⟨fun h => h.1, fun h => ⟨h, h.symm⟩⟩
      have hlen := congrArg List.length (Keyed.map_filter_key FolderRow.id hf directory)
      rw [if_pos hknown, List.length_map, List.length_singleton] at hlen
      rw [hsame, List.map_const', hlen]
      rfl
    · rename_i hne
      have hnil : (t.folders.filter fun folder => share.syncFolderId = folder.id ∧ folder.id = directory) = [] :=
        List.filter_eq_nil_iff.mpr fun folder _ => by
          rw [decide_eq_true_eq]
          exact fun h => hne (h.1.trans h.2)
      rw [hnil]
      rfl
  unfold getDirectoryPeers
  refine List.flatMap_congr fun q _ => ?_
  simp only [hfolder]
  induction t.shares with
  | nil => rfl
  | cons share shares ih =>
    obtain ⟨folder, peer⟩ := share
    rw [List.count_cons, List.filter_cons]
    by_cases hp : peer = q.id
    · by_cases hd : folder = directory
      · simp [hp, hd, ih, List.replicate_succ]
      · simp [hp, hd, ih]
    · simp [hp, ih]

/-- A peer's folders are those of its shares that are known, each as often as it has the
    share. -/
theorem map_id_getSyncedDirectories (hf : (t.folders.map FolderRow.id).Nodup) (hp : (t.peers.map Peer.id).Nodup) {peer : Peer}
    (hpeer : peer ∈ t.peers) :
    (t.getSyncedDirectories peer.id).map (fun x => x.1.id) =
      ((t.shares.filter (·.peerId = peer.id)).map FolderShare.syncFolderId).filter (· ∈ t.folders.map FolderRow.id) := by
  have hrows : (t.peers.flatMap fun p =>
      (t.shares.filter fun share => share.peerId = p.id ∧ p.id = peer.id).flatMap fun share =>
        t.folders.filter fun folder => share.syncFolderId = folder.id) =
      (t.shares.filter (·.peerId = peer.id)).flatMap fun share =>
        t.folders.filter fun folder => share.syncFolderId = folder.id := by
    rw [Keyed.flatMap_key Peer.id hp hpeer]
    · simp
    · intro p _ hne
      have hnil : (t.shares.filter fun share => share.peerId = p.id ∧ p.id = peer.id) = [] :=
        List.filter_eq_nil_iff.mpr fun share _ => by
          rw [decide_eq_true_eq]
          exact fun h => hne h.2
      rw [hnil]
      rfl
  rw [getSyncedDirectories, List.map_map]
  simp only [hrows]
  have hid : ((fun x : SyncDirectory × List Peer => x.1.id) ∘ fun folder => (modelToSyncDir folder,
      t.getDirectoryPeers (modelToSyncDir folder).id)) = FolderRow.id := rfl
  rw [hid, List.map_flatMap]
  simp only [Keyed.map_filter_key FolderRow.id hf]
  induction t.shares.filter (·.peerId = peer.id) with
  | nil => rfl
  | cons share shares ih =>
    rw [List.flatMap_cons, ih, List.map_cons, List.filter_cons]
    by_cases hk : share.syncFolderId ∈ t.folders.map FolderRow.id <;> simp [hk]

theorem count_getSyncedDirectories (hf : (t.folders.map FolderRow.id).Nodup) (hp : (t.peers.map Peer.id).Nodup) {peer : Peer}
    (hpeer : peer ∈ t.peers) (folder : Text) :
    ((t.getSyncedDirectories peer.id).map fun x => x.1.id).count folder =
      if folder ∈ t.folders.map FolderRow.id then t.shares.count ⟨folder, peer.id⟩ else 0 := by
  rw [map_id_getSyncedDirectories hf hp hpeer]
  split
  · rename_i hk
    rw [List.count_filter (by simpa using hk)]
    induction t.shares with
    | nil => rfl
    | cons share shares ih =>
      obtain ⟨f, p⟩ := share
      rw [List.count_cons, List.filter_cons, ← ih]
      by_cases hpid : p = peer.id
      · simp [hpid, List.count_cons]
      · simp [hpid]
  · rename_i hk
    refine List.count_eq_zero.mpr fun hmem => hk ?_
    exact of_decide_eq_true (List.mem_filter.mp hmem).2

end Tables

/-! ## The shares of a run -/

/-- The share a call inserts. -/
def Call.share (s : Store) : Call → List FolderShare
  | .syncDirectoryWithPeer directory peer =>
    if s.folders.any (·.id = directory.id) then [⟨directory.id, peer.id⟩] else []
  | _ => []

/-- The shares a sequence of calls inserts, in order. -/
def Call.shared (s : Store) : List Call → List FolderShare
  | [] => []
  | c :: cs => Call.share s c ++ Call.shared (Call.act s c) cs

theorem addSyncDirectory_frame (s : Store) (present : Text → Bool) (sample : Text) (path : Option Text) (label : Text)
    (id : Option Text) :
    (s.addSyncDirectory present sample path label id).1.shares = s.shares ∧
      (s.addSyncDirectory present sample path label id).1.peers = s.peers := by
  unfold Store.addSyncDirectory
  split
  · exact ⟨rfl, rfl⟩
  · split
    · exact ⟨rfl, rfl⟩
    · simp only
      split <;> exact ⟨rfl, rfl⟩

theorem setSyncDirectoryPath_frame (s : Store) (dir : SyncDirectory) (path : Option Text) :
    (s.setSyncDirectoryPath dir path).1.shares = s.shares ∧ (s.setSyncDirectoryPath dir path).1.peers = s.peers := by
  unfold Store.setSyncDirectoryPath
  split <;> exact ⟨rfl, rfl⟩

theorem addPeer_shares (s : Store) (peerName : Text) (peerId : DeviceId) : (s.addPeer peerName peerId).1.shares = s.shares := by
  unfold Store.addPeer
  split <;> rfl

theorem shares_act (s : Store) (c : Call) : (Call.act s c).shares = s.shares ++ Call.share s c := by
  cases c with
  | syncDirectoryWithPeer directory peer =>
    show (s.syncDirectoryWithPeer directory peer).1.shares = s.shares ++ if _ then _ else _
    unfold Store.syncDirectoryWithPeer
    split
    · rfl
    · exact (List.append_nil _).symm
  | updateSyncFile dir file => exact (s.updateSyncFile_frame dir file).2.2.1.trans (List.append_nil _).symm
  | addSyncDirectory present sample path label id =>
    exact (addSyncDirectory_frame s present sample path label id).1.trans (List.append_nil _).symm
  | removeSyncDirectory toRemove => exact (List.append_nil s.shares).symm
  | setSyncDirectoryPath dir path => exact (setSyncDirectoryPath_frame s dir path).1.trans (List.append_nil _).symm
  | addPeer peerName peerId => exact (addPeer_shares s peerName peerId).trans (List.append_nil _).symm
  | addPeerVecId peerName peerId =>
    show (s.addPeerVecId peerName peerId).1.shares = s.shares ++ []
    rw [List.append_nil]
    unfold Store.addPeerVecId
    split
    · exact addPeer_shares s peerName _
    · rfl

/-- No call deletes a share. -/
theorem shares_acts (s : Store) (cs : List Call) : (Call.acts s cs).shares = s.shares ++ Call.shared s cs := by
  induction cs generalizing s with
  | nil => exact (List.append_nil _).symm
  | cons c cs ih =>
    have hcons : Call.acts s (c :: cs) = Call.acts (Call.act s c) cs := rfl
    rw [hcons, ih, shares_act, List.append_assoc]
    rfl

/-! ## The peers of a run -/

/-- Every peer has its own row id, and a device id. -/
def PeersSound (s : Store) : Prop := (s.peers.map Peer.id).Nodup ∧ ∀ q ∈ s.peers, q.deviceId ≠ none

theorem peersSound_addPeer {s : Store} (h : PeersSound s) (peerName : Text) (peerId : DeviceId) :
    PeersSound (s.addPeer peerName peerId).1 := by
  unfold Store.addPeer
  split
  · exact h
  · refine ⟨?_, fun q hq => ?_⟩
    · show ((s.peers ++ [_]).map Peer.id).Nodup
      rw [List.map_append]
      exact h.1.append (List.nodup_singleton _) (List.disjoint_singleton.mpr (Keyed.fresh_not_mem _))
    · rcases List.mem_append.mp hq with hq | hq
      · exact h.2 q hq
      · rw [List.mem_singleton.mp hq]
        exact Option.some_ne_none _

theorem peersSound_same {s s' : Store} (h : PeersSound s) (hp : s'.peers = s.peers) : PeersSound s' := by
  rw [PeersSound, hp]
  exact h

theorem peersSound_act {s : Store} (h : PeersSound s) (c : Call) : PeersSound (Call.act s c) := by
  cases c with
  | updateSyncFile dir file => exact peersSound_same h (s.updateSyncFile_frame dir file).2.1
  | addSyncDirectory present sample path label id =>
    exact peersSound_same h (addSyncDirectory_frame s present sample path label id).2
  | removeSyncDirectory toRemove => exact peersSound_same h rfl
  | setSyncDirectoryPath dir path => exact peersSound_same h (setSyncDirectoryPath_frame s dir path).2
  | syncDirectoryWithPeer directory peer =>
    show PeersSound (s.syncDirectoryWithPeer directory peer).1
    unfold Store.syncDirectoryWithPeer
    split <;> exact peersSound_same h rfl
  | addPeer peerName peerId => exact peersSound_addPeer h peerName peerId
  | addPeerVecId peerName peerId =>
    show PeersSound (s.addPeerVecId peerName peerId).1
    unfold Store.addPeerVecId
    split
    · exact peersSound_addPeer h peerName _
    · exact h

theorem peersSound_acts {s : Store} (h : PeersSound s) (cs : List Call) : PeersSound (Call.acts s cs) := by
  induction cs generalizing s with
  | nil => exact h
  | cons c cs ih => exact ih (peersSound_act h c)

end BepRs.State

namespace BepRs.Access

open BepRs.Lib BepRs.Lib.Path BepRs.Lib.Task BepRs.State BepRs.Sync BepRs.History

/-! ## The message -/

/-- A folder of the message. -/
def folderOf (myself : Device) (x : SyncDirectory × List Peer) : Folder :=
  ⟨x.1.id, x.1.label, (x.2.map fun q => ⟨q.deviceId.getD [], q.name⟩) ++ [myself]⟩

theorem run_clusterDevices_all (sha256 : Bytes → Bytes) (h : Host) {peers : List Peer} (hids : ∀ q ∈ peers, q.deviceId ≠ none) :
    run (hostDo sha256) (clusterDevices peers) h = (h, some (peers.map fun q => ⟨q.deviceId.getD [], q.name⟩)) := by
  induction peers with
  | nil => rfl
  | cons q peers ih =>
    obtain ⟨id, hid⟩ := Option.ne_none_iff_exists'.mp (hids q List.mem_cons_self)
    have hrest := ih fun p hp => hids p (List.mem_cons_of_mem _ hp)
    simp only [clusterDevices, hid, unwrap_some, Prog.ret_bind]
    rw [run_bind, hrest]
    simp [hid, run]

theorem run_clusterFolders_all (sha256 : Bytes → Bytes) (h : Host) (myself : Device) {dirs : List (SyncDirectory × List Peer)}
    (hids : ∀ x ∈ dirs, ∀ q ∈ x.2, q.deviceId ≠ none) :
    run (hostDo sha256) (clusterFolders myself dirs) h = (h, some (dirs.map (folderOf myself))) := by
  induction dirs with
  | nil => rfl
  | cons x dirs ih =>
    obtain ⟨dir, peers⟩ := x
    have hrest := ih fun y hy => hids y (List.mem_cons_of_mem _ hy)
    simp only [clusterFolders]
    rw [run_bind, run_clusterDevices_all sha256 h (hids (dir, peers) List.mem_cons_self)]
    simp only
    rw [run_bind, hrest]
    rfl

/-- The message has every folder shared with the peer, and each folder its peers and the
    node itself, and none of them twice. -/
structure ListsOnce (s : Store) (peer : Peer) (own : Bytes) (config : ClusterConfig) : Prop where
  folders : (config.folders.map Folder.id).Nodup
  shared : ∀ folder ∈ folderIds s, s.isDirectorySynced folder peer.id = true → folder ∈ config.folders.map Folder.id
  devices : ∀ f ∈ config.folders, (f.devices.map Device.id).Nodup
  members : ∀ f ∈ config.folders, own ∈ f.devices.map Device.id ∧
    ∀ q ∈ s.peers, s.isDirectorySynced f.id q.id = true → q.deviceId.getD [] ∈ f.devices.map Device.id

section Message

variable {s : Store} {peer : Peer} {myself : Device}

theorem synced_iff_count {folder : Text} {id : Nat} :
    s.isDirectorySynced folder id = true ↔ 0 < s.shares.count ⟨folder, id⟩ := by
  rw [Tables.isDirectorySynced_iff, List.count_pos_iff]

/-- The message of a peer. -/
def configOf (s : Store) (peer : Peer) (myself : Device) : ClusterConfig :=
  ⟨(s.getSyncedDirectories peer.id).map (folderOf myself)⟩

theorem map_id_configOf : (configOf s peer myself).folders.map Folder.id =
    (s.getSyncedDirectories peer.id).map fun x => x.1.id := by
  rw [configOf, List.map_map]
  rfl

theorem configOf_folders_nodup (hf : (folderIds s).Nodup) (hp : PeersSound s) (hpeer : peer ∈ s.peers) :
    ((configOf s peer myself).folders.map Folder.id).Nodup ↔
      ∀ folder ∈ folderIds s, s.shares.count ⟨folder, peer.id⟩ ≤ 1 := by
  rw [map_id_configOf, List.nodup_iff_count_le_one]
  constructor
  · intro h folder hfolder
    have hknown : folder ∈ s.folders.map FolderRow.id := hfolder
    have hcount := h folder
    rw [Tables.count_getSyncedDirectories hf hp.1 hpeer, if_pos hknown] at hcount
    exact hcount
  · intro h folder
    rw [Tables.count_getSyncedDirectories hf hp.1 hpeer]
    split
    · rename_i hfolder
      exact h folder hfolder
    · exact Nat.zero_le _

theorem configOf_devices_nodup (hf : (folderIds s).Nodup) (hp : PeersSound s) (hdistinct : (s.peers.map Peer.deviceId).Nodup)
    {dir : SyncDirectory} (hdir : dir.id ∈ folderIds s) :
    ((folderOf myself (dir, s.getDirectoryPeers dir.id)).devices.map Device.id).Nodup ↔
      ∀ q ∈ s.peers, s.shares.count ⟨dir.id, q.id⟩ ≤ 1 ∧
        (s.isDirectorySynced dir.id q.id = true → q.deviceId ≠ some myself.id) := by
  have hgetD : (s.peers.map fun q => q.deviceId.getD []).Nodup := by
    refine List.Nodup.map_on (fun q hq r hr he => ?_) (List.Nodup.of_map _ hp.1)
    obtain ⟨a, ha⟩ := Option.ne_none_iff_exists'.mp (hp.2 q hq)
    obtain ⟨b, hb⟩ := Option.ne_none_iff_exists'.mp (hp.2 r hr)
    rw [ha, hb] at he
    exact List.inj_on_of_nodup_map hdistinct hq hr (by rw [ha, hb]; exact congrArg some he)
  have hids : (folderOf myself (dir, s.getDirectoryPeers dir.id)).devices.map Device.id =
      (s.peers.flatMap fun q => List.replicate (s.shares.count ⟨dir.id, q.id⟩) (q.deviceId.getD [])) ++ [myself.id] := by
    rw [folderOf, Tables.getDirectoryPeers_eq hf hdir]
    simp [List.map_flatMap]
  rw [hids, List.nodup_append_comm, List.singleton_append, List.nodup_cons, Keyed.nodup_flatMap_replicate hgetD]
  have hmem : myself.id ∉ (s.peers.flatMap fun q => List.replicate (s.shares.count ⟨dir.id, q.id⟩) (q.deviceId.getD [])) ↔
      ∀ q ∈ s.peers, s.isDirectorySynced dir.id q.id = true → q.deviceId ≠ some myself.id := by
    simp only [List.mem_flatMap, List.mem_replicate, synced_iff_count]
    constructor
    · intro h q hq hpos he
      exact h ⟨q, hq, Nat.ne_of_gt hpos, by rw [he]; rfl⟩
    · rintro h ⟨q, hq, hne, he⟩
      obtain ⟨a, ha⟩ := Option.ne_none_iff_exists'.mp (hp.2 q hq)
      rw [ha] at he
      exact h q hq (Nat.pos_of_ne_zero hne) (by rw [ha]; exact congrArg some he.symm)
  rw [hmem]
  constructor
  · rintro ⟨h1, h2⟩ q hq
    exact ⟨h2 q hq, h1 q hq⟩
  · intro h
    exact ⟨fun q hq => (h q hq).2, fun q hq => (h q hq).1⟩

theorem mem_folders_configOf (hpeer : peer ∈ s.peers) {f : Folder} :
    f ∈ (configOf s peer myself).folders ↔ ∃ dir ∈ s.getSyncDirectories, s.isDirectorySynced dir.id peer.id = true ∧
      f = folderOf myself (dir, s.getDirectoryPeers dir.id) := by
  rw [configOf, List.mem_map]
  constructor
  · rintro ⟨⟨dir, ps⟩, hx, rfl⟩
    obtain ⟨hdir, hs, rfl⟩ := (s.mem_getSyncedDirectories hpeer).mp hx
    exact ⟨dir, hdir, hs, rfl⟩
  · rintro ⟨dir, hdir, hs, rfl⟩
    exact ⟨_, (s.mem_getSyncedDirectories hpeer).mpr ⟨hdir, hs, rfl⟩, rfl⟩

/-- What the message lists, duplicates aside. -/
theorem configOf_members (hpeer : peer ∈ s.peers) {f : Folder} (hf : f ∈ (configOf s peer myself).folders) :
    myself.id ∈ f.devices.map Device.id ∧
      ∀ q ∈ s.peers, s.isDirectorySynced f.id q.id = true → q.deviceId.getD [] ∈ f.devices.map Device.id := by
  obtain ⟨dir, hdir, -, rfl⟩ := (mem_folders_configOf hpeer).mp hf
  refine ⟨by simp [folderOf], fun q hq hs => ?_⟩
  have hknown : dir.id ∈ s.folders.map FolderRow.id := by
    rw [← map_id_getSyncDirectories]
    exact List.mem_map_of_mem hdir
  have hmem : q ∈ s.getDirectoryPeers dir.id := s.mem_getDirectoryPeers.mpr ⟨hq, hknown, hs⟩
  rw [folderOf, List.map_append, List.map_map]
  exact List.mem_append_left _ (List.mem_map.mpr ⟨q, hmem, rfl⟩)

theorem listsOnce_configOf (hf : (folderIds s).Nodup) (hp : PeersSound s) (hdistinct : (s.peers.map Peer.deviceId).Nodup)
    (hpeer : peer ∈ s.peers) :
    ListsOnce s peer myself.id (configOf s peer myself) ↔
      ∀ folder ∈ folderIds s, s.isDirectorySynced folder peer.id = true → ∀ q ∈ s.peers,
        s.shares.count ⟨folder, q.id⟩ ≤ 1 ∧ (s.isDirectorySynced folder q.id = true → q.deviceId ≠ some myself.id) := by
  have hdirs : ∀ {folder}, folder ∈ folderIds s ↔ ∃ dir ∈ s.getSyncDirectories, dir.id = folder := by
    intro folder
    rw [folderIds, ← map_id_getSyncDirectories, List.mem_map]
  constructor
  · intro h folder hfolder hs
    obtain ⟨dir, hdir, rfl⟩ := hdirs.mp hfolder
    exact (configOf_devices_nodup hf hp hdistinct hfolder).mp
      (h.devices _ ((mem_folders_configOf hpeer).mpr ⟨dir, hdir, hs, rfl⟩))
  · intro h
    refine ⟨(configOf_folders_nodup hf hp hpeer).mpr fun folder hfolder => ?_, fun folder hfolder hs => ?_, fun f hmem => ?_,
      fun f hmem => configOf_members hpeer hmem⟩
    · by_cases hs : s.isDirectorySynced folder peer.id = true
      · exact (h folder hfolder hs peer hpeer).1
      · have hzero : ¬ 0 < s.shares.count ⟨folder, peer.id⟩ := fun hpos => hs (synced_iff_count.mpr hpos)
        omega
    · obtain ⟨dir, hdir, rfl⟩ := hdirs.mp hfolder
      exact List.mem_map.mpr ⟨_, (mem_folders_configOf hpeer).mpr ⟨dir, hdir, hs, rfl⟩, rfl⟩
    · obtain ⟨dir, hdir, hs, rfl⟩ := (mem_folders_configOf hpeer).mp hmem
      have hfolder := hdirs.mpr ⟨dir, hdir, rfl⟩
      exact (configOf_devices_nodup hf hp hdistinct hfolder).mpr (h dir.id hfolder hs)

end Message

/-- In every reachable store whose peers have distinct device ids, the message for a peer
    lists nothing twice exactly when no share of one of its folders was made twice with a
    peer, and none of the folder's peers is the node itself. -/
theorem clusterConfig_once_iff (sha256 : Bytes → Bytes) (shortId : UInt64) (cs : List State.Call) (h : Host)
    (hstore : h.node.store = State.Call.acts (newStore shortId) cs) (hdistinct : (h.node.store.peers.map Peer.deviceId).Nodup)
    (conn : Conn) (peer : Peer) (hpeer : peerOf h.node conn = some peer) :
    (∃ config, (run (hostDo sha256) (generateClusterConfig conn) h).2 = some config ∧
      ListsOnce h.node.store peer (sha256 h.getOptions.cert) config) ↔
    ∀ folder ∈ folderIds h.node.store, h.node.store.isDirectorySynced folder peer.id = true → ∀ q ∈ h.node.store.peers,
      (State.Call.shared (newStore shortId) cs).count ⟨folder, q.id⟩ ≤ 1 ∧
        (h.node.store.isDirectorySynced folder q.id = true → q.deviceId ≠ some (sha256 h.getOptions.cert)) := by
  have hf : (folderIds h.node.store).Nodup := by
    rw [hstore]
    exact folderIds_nodup shortId cs
  have hnew : PeersSound (newStore shortId) := ⟨List.nodup_nil, fun q hq => by cases hq⟩
  have hp : PeersSound h.node.store := by
    rw [hstore]
    exact peersSound_acts hnew cs
  have hshares : h.node.store.shares = State.Call.shared (newStore shortId) cs := by
    rw [hstore, shares_acts]
    rfl
  have hmem := mem_peers_of_peerOf hpeer
  have hids : ∀ x ∈ h.node.store.getSyncedDirectories peer.id, ∀ q ∈ x.2, q.deviceId ≠ none := by
    rintro ⟨dir, ps⟩ hx q hq
    obtain ⟨-, -, rfl⟩ := (h.node.store.mem_getSyncedDirectories hmem).mp hx
    exact hp.2 q (h.node.store.mem_getDirectoryPeers.mp hq).1
  have hlists := @listsOnce_configOf h.node.store peer ⟨sha256 h.getOptions.cert, h.getOptions.deviceName⟩ hf hp hdistinct hmem
  rw [run_generateClusterConfig sha256 hpeer, run_clusterFolders_all sha256 h _ hids, ← hshares, ← hlists]
  constructor
  · rintro ⟨config, hconfig, honce⟩
    cases hconfig
    exact honce
  · intro honce
    exact ⟨_, rfl, honce⟩

theorem clusterConfig_once_quiet :
    peerOf quietHost.node sharedConn = some sharedPeer ∧
      ∃ config, (run (hostDo fileSha) (generateClusterConfig sharedConn) quietHost).2 = some config ∧
        ListsOnce quietHost.node.store sharedPeer (fileSha quietHost.getOptions.cert) config := by
  have hpeer : peerOf quietHost.node sharedConn = some sharedPeer := by decide +kernel
  have hdistinct : (quietHost.node.store.peers.map Peer.deviceId).Nodup := by decide +kernel
  refine ⟨hpeer, (clusterConfig_once_iff fileSha 7 sharedCalls quietHost rfl hdistinct sharedConn sharedPeer hpeer).mpr ?_⟩
  decide +kernel

/-- The same share made again, as the tests do. -/
def sharedAgain : List State.Call := sharedCalls ++ [.syncDirectoryWithPeer fileDir sharedPeer]

def againHost : Host :=
  { quietHost with node := { fileNode fileContents with store := State.Call.acts (newStore 7) sharedAgain } }

theorem clusterConfig_twice :
    peerOf againHost.node sharedConn = some sharedPeer ∧ (againHost.node.store.peers.map Peer.deviceId).Nodup ∧
      (run (hostDo fileSha) (generateClusterConfig sharedConn) againHost).2.map (fun c => c.folders.map Folder.id) =
        some [['d'], ['d']] ∧
      ¬ ∃ config, (run (hostDo fileSha) (generateClusterConfig sharedConn) againHost).2 = some config ∧
        ListsOnce againHost.node.store sharedPeer (fileSha againHost.getOptions.cert) config := by
  have hfolders : (run (hostDo fileSha) (generateClusterConfig sharedConn) againHost).2.map (fun c => c.folders.map Folder.id) =
      some [['d'], ['d']] := by decide +kernel
  refine ⟨by decide +kernel, by decide +kernel, hfolders, ?_⟩
  rintro ⟨config, hconfig, honce⟩
  rw [hconfig] at hfolders
  have hids : config.folders.map Folder.id = [['d'], ['d']] := Option.some.inj hfolders
  have hnodup := honce.folders
  rw [hids] at hnodup
  revert hnodup
  decide

end BepRs.Access
