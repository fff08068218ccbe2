/-
  BepRs.State.Folders — the calls of `BepState` on the tables of folders, peers and shares
  (`src/bep_state.rs`), and the tables the files' calls leave alone.

  The queries that join `peers`, `folder_shares` and `sync_folders` are taken as SQL
  defines them: one result for each combination of rows whose keys agree, so a share row
  written twice gives its folder twice, and one whose folder or peer is gone gives nothing.
  Foreign keys are not enforced.

  - `mem_getSyncedDirectories`: the folders of the join are the known ones with a share.
-/

import BepRs.State.Update

namespace BepRs.State

open BepRs.Lib BepRs.Lib.Path

structure PeerAddress where
  address : Text
  peerId : Option Nat
  deriving DecidableEq, Repr

structure DeviceOption where
  deviceName : Text
  cert : Bytes
  deriving DecidableEq, Repr

namespace Tables

variable (t : Tables)

def getDirectoryPeers (directory : Text) : List Peer :=
  t.peers.flatMap fun peer =>
    (t.shares.filter (·.peerId = peer.id)).flatMap fun share =>
      (t.folders.filter fun folder => share.syncFolderId = folder.id ∧ folder.id = directory).map fun _ => peer

def getSyncedDirectories (peerId : Nat) : List (SyncDirectory × List Peer) :=
  let rows := t.peers.flatMap fun peer =>
    (t.shares.filter fun share => share.peerId = peer.id ∧ peer.id = peerId).flatMap fun share =>
      t.folders.filter fun folder => share.syncFolderId = folder.id
  rows.map fun folder => (modelToSyncDir folder, t.getDirectoryPeers (modelToSyncDir folder).id)

theorem isDirectorySynced_iff {directory : Text} {peer : Nat} :
    t.isDirectorySynced directory peer = true ↔ (⟨directory, peer⟩ : FolderShare) ∈ t.shares := by
  unfold isDirectorySynced
  rw [List.any_eq_true]
  constructor
  · intro h
    obtain ⟨x, hx, he⟩ := h
    obtain ⟨hf, hp⟩ := of_decide_eq_true he
    cases x
    cases hf
    cases hp
    exact hx
  · intro h
    exact ⟨_, h, by simp⟩

/-- The folders of a peer that is in the table, duplicates and stale shares or not. -/
theorem mem_getSyncedDirectories {peer : Peer} (hpeer : peer ∈ t.peers) {dir : SyncDirectory} {ps : List Peer} :
    (dir, ps) ∈ t.getSyncedDirectories peer.id ↔ dir ∈ t.getSyncDirectories ∧
      t.isDirectorySynced dir.id peer.id = true ∧ ps = t.getDirectoryPeers dir.id := by
  rw [isDirectorySynced_iff]
  unfold getSyncedDirectories getSyncDirectories
  simp only [List.mem_map, List.mem_flatMap, List.mem_filter, decide_eq_true_eq, Prod.mk.injEq]
  constructor
  · intro h
    obtain ⟨folder, ⟨p, -, share, ⟨hshare, hp, hid⟩, hfolder, hkey⟩, hdir, hps⟩ := h
    subst hdir
    refine ⟨⟨folder, hfolder, rfl⟩, ?_, hps.symm⟩
    cases share
    simp only at hp hkey
    rw [hp, hid, hkey] at hshare
    exact hshare
  · intro h
    obtain ⟨⟨folder, hfolder, hdir⟩, hshare, hps⟩ := h
    subst hdir
    exact ⟨folder, ⟨peer, hpeer, _, ⟨hshare, rfl, rfl⟩, hfolder, rfl⟩, rfl, hps.symm⟩

/-- The peers a folder is shared with, as far as both are in their tables. -/
theorem mem_getDirectoryPeers {directory : Text} {peer : Peer} :
    peer ∈ t.getDirectoryPeers directory ↔ peer ∈ t.peers ∧ directory ∈ t.folders.map FolderRow.id ∧
      t.isDirectorySynced directory peer.id = true := by
  rw [isDirectorySynced_iff]
  unfold getDirectoryPeers
  simp only [List.mem_map, List.mem_flatMap, List.mem_filter, decide_eq_true_eq]
  constructor
  · intro h
    obtain ⟨p, hp, share, ⟨hshare, hpid⟩, folder, ⟨hfolder, hkey, hid⟩, he⟩ := h
    subst he
    refine ⟨hp, ⟨folder, hfolder, hid⟩, ?_⟩
    cases share
    simp only at hpid hkey
    rw [hpid, hkey, hid] at hshare
    exact hshare
  · intro h
    obtain ⟨hp, ⟨folder, hfolder, hid⟩, hshare⟩ := h
    exact ⟨peer, hp, _, ⟨hshare, rfl⟩, folder, ⟨hfolder, hid.symm, hid⟩, rfl⟩

end Tables

/-! ## Adding rows -/

namespace Store

variable (s : Store)

/-- The store with other folders and shares; the files' tables are as they were. -/
def withFolders (folders : List FolderRow) (shares : List FolderShare) : Store where
  toTables := { s.toTables with folders := folders, shares := shares }
  sound := ⟨s.sound.ids_nodup, s.sound.named, s.sound.hashed, s.sound.versioned, s.sound.versions_ref, s.sound.blocks_ref⟩

@[simp] theorem withFolders_folders (folders : List FolderRow) (shares : List FolderShare) :
    (s.withFolders folders shares).folders = folders := rfl
@[simp] theorem withFolders_shares (folders : List FolderRow) (shares : List FolderShare) :
    (s.withFolders folders shares).shares = shares := rfl
@[simp] theorem withFolders_peers (folders : List FolderRow) (shares : List FolderShare) :
    (s.withFolders folders shares).peers = s.peers := rfl

/-- `present` says which paths exist, `sample` is the id drawn when none is given. The
    insert panics on an id or a path that is taken. -/
def addSyncDirectory (present : Text → Bool) (sample : Text) (path : Option Text) (label : Text) (id : Option Text) :
    Store × Option SyncDirectory :=
  if path = none ∧ id = none then (s, none)
  else if path.any fun p => !present p then (s, none)
  else
    let folderId := id.getD sample
    if s.folders.any fun x => x.id = folderId ∨ (path ≠ none ∧ x.dirPath = path) then (s, none)
    else
      let s' := s.withFolders (s.folders ++ [⟨folderId, label, path⟩]) s.shares
      (s', s'.getSyncDirectory folderId)

/-- It asserts that the directory is in the table; the share may be there already. -/
def syncDirectoryWithPeer (directory : SyncDirectory) (peer : Peer) : Store × Option Unit :=
  if s.folders.any (·.id = directory.id) then
    (s.withFolders s.folders (s.shares ++ [⟨directory.id, peer.id⟩]), some ())
  else (s, none)

/-- What a call on an announced folder leaves, and returns when it does. -/
theorem addSyncDirectory_cases (present : Text → Bool) (sample label folderId : Text) :
    (folderId ∈ s.folders.map FolderRow.id ∧ s.addSyncDirectory present sample none label (some folderId) = (s, none)) ∨
      folderId ∉ s.folders.map FolderRow.id ∧
        s.addSyncDirectory present sample none label (some folderId) =
          (s.withFolders (s.folders ++ [⟨folderId, label, none⟩]) s.shares, some ⟨folderId, label, none⟩) := by
  unfold addSyncDirectory
  simp only [reduceCtorEq, and_false, if_false, Option.any_none, Bool.false_eq_true, Option.getD_some, ne_eq, not_true,
    false_and, or_false]
  split
  · rename_i hany
    obtain ⟨x, hx, he⟩ := List.any_eq_true.mp hany
    exact Or.inl ⟨List.mem_map.mpr ⟨x, hx, of_decide_eq_true he⟩, rfl⟩
  · rename_i hnot
    have hnone : folderId ∉ s.folders.map FolderRow.id := by
      intro hmem
      obtain ⟨x, hx, he⟩ := List.mem_map.mp hmem
      exact hnot (List.any_eq_true.mpr ⟨x, hx, by simpa using he⟩)
    refine Or.inr ⟨hnone, ?_⟩
    congr 1
    have hold : (s.folders.map modelToSyncDir).find? (fun d => d.id = folderId) = none := by
      rw [List.find?_eq_none]
      intro d hd
      obtain ⟨x, hx, rfl⟩ := List.mem_map.mp hd
      simp only [decide_eq_true_eq]
      exact fun he => hnone (List.mem_map.mpr ⟨x, hx, he⟩)
    show ((s.folders ++ [(⟨folderId, label, none⟩ : FolderRow)]).map modelToSyncDir).find? (fun d => d.id = folderId) = _
    rw [List.map_append, List.find?_append, hold]
    simp [modelToSyncDir]

end Store

end BepRs.State
