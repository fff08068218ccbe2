/-
  BepRs.State.Admin — the calls of `BepState` the user makes, and all calls that write the
  tables of folders, peers, shares and files (`src/bep_state.rs`).

  `Call` has every method of `BepState` that writes one of these tables; `set_name`,
  `add_address` and the first run of `new` write others only. A call that panics keeps what it had written:
  the lock around `BepState` does not poison, so the next call works on that. Deleting a
  folder deletes its row and nothing else. Foreign keys are not enforced.
-/

import BepRs.State.Folders

namespace BepRs.State

open BepRs.Lib BepRs.Lib.Path

abbrev DeviceId := { id : Bytes // id.length = 32 }

namespace Store

variable (s : Store)

/-- The store with other peers. -/
def withPeers (peers : List Peer) : Store where
  toTables := { s.toTables with peers := peers }
  sound := ⟨s.sound.ids_nodup, s.sound.named, s.sound.hashed, s.sound.versioned, s.sound.versions_ref, s.sound.blocks_ref⟩

def removeSyncDirectory (toRemove : Text) : Store :=
  s.withFolders (s.folders.filter fun x => x.id ≠ toRemove) s.shares

/-- The update panics when another folder has the path. -/
def setSyncDirectoryPath (dir : SyncDirectory) (path : Option Text) : Store × Option Unit :=
  if (s.folders.any fun x => x.id = dir.id) && s.folders.any fun x => x.id ≠ dir.id ∧ path ≠ none ∧ x.dirPath = path then
    (s, none)
  else (s.withFolders (s.folders.map fun x => if x.id = dir.id then { x with dirPath := path } else x) s.shares, some ())

/-- The first peer of the name. -/
def getPeer (peerName : Text) : Option Peer := s.peers.find? (·.name = peerName)

/-- The insert panics on a name that is taken. -/
def addPeer (peerName : Text) (peerId : DeviceId) : Store × Option Peer :=
  if s.peers.any (·.name = peerName) then (s, none)
  else
    let s' := s.withPeers (s.peers ++ [⟨Keyed.fresh (s.peers.map Peer.id), some peerId.1, peerName⟩])
    (s', s'.getPeer peerName)

def addPeerVecId (peerName : Text) (peerId : Bytes) : Store × Option Peer :=
  if h : peerId.length = 32 then s.addPeer peerName ⟨peerId, h⟩ else (s, none)

end Store

inductive Call where
  | updateSyncFile (dir : SyncDirectory) (file : SyncFile)
  /-- With the paths that exist then and the id that is drawn. -/
  | addSyncDirectory (present : Text → Bool) (sample : Text) (path : Option Text) (label : Text) (id : Option Text)
  | removeSyncDirectory (toRemove : Text)
  | setSyncDirectoryPath (dir : SyncDirectory) (path : Option Text)
  | syncDirectoryWithPeer (directory : SyncDirectory) (peer : Peer)
  | addPeer (peerName : Text) (peerId : DeviceId)
  | addPeerVecId (peerName : Text) (peerId : Bytes)

/-- The store after a call, whether it returned or panicked. -/
def Call.act (s : Store) : Call → Store
  | .updateSyncFile dir file => (s.updateSyncFile dir file).1
  | .addSyncDirectory present sample path label id => (s.addSyncDirectory present sample path label id).1
  | .removeSyncDirectory toRemove => s.removeSyncDirectory toRemove
  | .setSyncDirectoryPath dir path => (s.setSyncDirectoryPath dir path).1
  | .syncDirectoryWithPeer directory peer => (s.syncDirectoryWithPeer directory peer).1
  | .addPeer peerName peerId => (s.addPeer peerName peerId).1
  | .addPeerVecId peerName peerId => (s.addPeerVecId peerName peerId).1

/-- The store after a sequence of calls. -/
def Call.acts (s : Store) (cs : List Call) : Store := cs.foldl Call.act s

@[simp] theorem Call.acts_concat (s : Store) (cs : List Call) (c : Call) :
    Call.acts s (cs ++ [c]) = Call.act (Call.acts s cs) c := by
  simp [Call.acts]

end BepRs.State
