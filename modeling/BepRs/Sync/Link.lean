/-
  BepRs.Sync.Link — the tasks of a connection that are about folders and shares:
  `generate_cluster_config`, what `handle_reading` does with the messages it receives, a
  ClusterConfig among them (`src/peer_connection/handlers.rs`), and `directory_updated`
  (`src/peer_connection/mod.rs`).

  They ask for calls on `BepStateRef` the tasks on files have no use for, so the
  operations are those of `bep` and these (`LinkOp`); a task of `bep` is one of `link`
  (`lift`). `hostDo` is a whole host: a node, and the tables of addresses and device
  options, of which there is at least one row since `BepState::new` makes it.
-/

import BepRs.State.Folders
import BepRs.Sync.Transfer

namespace BepRs.Sync

open BepRs.Lib BepRs.Lib.Path BepRs.Lib.Task BepRs.State

/-! ## Messages -/

structure Device where
  id : Bytes
  name : Text
  deriving DecidableEq, Repr

structure Folder where
  id : Text
  label : Text
  devices : List Device
  deriving DecidableEq, Repr

structure ClusterConfig where
  folders : List Folder
  deriving DecidableEq, Repr

/-- What `handle_reading` dispatches on. -/
inductive Incoming where
  | request (r : Request)
  | index (m : Index)
  | indexUpdate (m : Index)
  | response (r : Response)
  | close (reason : Text)
  | ping
  | clusterConfig (config : ClusterConfig)
  deriving DecidableEq, Repr

/-! ## Operations -/

inductive LinkOp where
  | op (o : Op)
  | getSyncedDirectories (peerId : Nat)
  | addSyncDirectory (path : Option Text) (label : Text) (id : Option Text)
  | syncDirectoryWithPeer (directory : SyncDirectory) (peer : Peer)
  /-- Starts the new-folder handler, when one is set. -/
  | newFolder (directory : SyncDirectory)
  | getId
  | getName

@[reducible] def LinkOp.Ans : LinkOp → Type
  | .op o => o.Ans
  | .getSyncedDirectories _ => List (SyncDirectory × List Peer)
  | .addSyncDirectory _ _ _ => SyncDirectory
  | .syncDirectoryWithPeer _ _ => Unit
  | .newFolder _ => Unit
  | .getId => Bytes
  | .getName => Text

@[reducible] def link : Sig := ⟨LinkOp, LinkOp.Ans⟩

abbrev LinkProg := Prog link

/-- A task on files, among the tasks of a connection. -/
def lift {α : Type} : BepProg α → LinkProg α
  | .ret a => .ret a
  | .panic => .panic
  | .ask o k => .ask (.op o) fun r => lift (k r)

/-! ## `generate_cluster_config` -/

/-- The devices of one folder; a peer without a device id is a panic. -/
def clusterDevices : List Peer → LinkProg (List Device)
  | [] => .ret []
  | peer :: peers => do
    let id ← unwrap peer.deviceId
    let rest ← clusterDevices peers
    .ret (⟨id, peer.name⟩ :: rest)

def clusterFolders (myself : Device) : List (SyncDirectory × List Peer) → LinkProg (List Folder)
  | [] => .ret []
  | (dir, peers) :: dirs => do
    let devices ← clusterDevices peers
    let rest ← clusterFolders myself dirs
    .ret (⟨dir.id, dir.label, devices ++ [myself]⟩ :: rest)

/-- `Result::unwrap`. -/
def unwrapLink {ε α : Type} : Except ε α → LinkProg α
  | .ok a => .ret a
  | .error _ => .panic

def generateClusterConfig (conn : Conn) : LinkProg ClusterConfig := do
  let peer ← unwrapLink (← lift (getPeer conn))
  let id ← call (S := link) .getId
  let name ← call (S := link) .getName
  let dirs ← call (S := link) (.getSyncedDirectories peer.id)
  let folders ← clusterFolders ⟨id, name⟩ dirs
  .ret ⟨folders⟩

/-! ## `handle_reading` on a ClusterConfig -/

/-- The loop over the announced folders: one that is not known is added without a path and
    shared with the peer that announced it. -/
def handleFolders (conn : Conn) : List Folder → LinkProg Unit
  | [] => .ret ()
  | folder :: folders => do
    let known ← call (S := link) (.op (.db (.getSyncDirectory folder.id)))
    match known with
    | some _ => handleFolders conn folders
    | none => do
      let sd ← call (S := link) (.addSyncDirectory none folder.label (some folder.id))
      let peer ← unwrapLink (← lift (getPeer conn))
      call (S := link) (.syncDirectoryWithPeer sd peer)
      call (S := link) (.newFolder sd)
      handleFolders conn folders

def handleClusterConfig (conn : Conn) (config : ClusterConfig) : LinkProg Unit := handleFolders conn config.folders

/-- What a received message starts, as far as the tables go: `handle_response` is about the
    pending requests, and a Close ends the reader. The handlers are tasks of their own; the
    ClusterConfig is handled by the reader itself. -/
def dispatch (sha256 : Bytes → Bytes) (conn : Conn) : Incoming → LinkProg Unit
  | .request r => lift (handleRequest sha256 conn r)
  | .index m => lift (handleIndex m.folder m.files)
  | .indexUpdate m => lift (handleIndex m.folder m.files)
  | .response _ => .ret ()
  | .close _ => .ret ()
  | .ping => .ret ()
  | .clusterConfig config => handleClusterConfig conn config

/-! ## `directory_updated` -/

def directoryUpdated (sha256 : Bytes → Bytes) (conn : Conn) (directory : SyncDirectory) :
    BepProg (Except PeerCommandError Unit) := do
  let syncedIndexUpdated : Bool ← do
    match ← getPeer conn with
    | .error _ => .ret false
    | .ok peer => do
      match ← db (.getSyncDirectory directory.id) with
      | none => .ret false
      | some directory => db (.isDirectorySynced directory.id peer.id)
  if syncedIndexUpdated then do
    match ← sendIndex sha256 conn with
    | .error e => .ret (.error (.ioError e))
    | .ok () => .ret (.ok ())
  else .ret (.ok ())

/-! ## A host -/

structure Host where
  node : Node
  addresses : List PeerAddress
  options : List DeviceOption
  initialized : options ≠ []

namespace Host

variable (h : Host)

def getOptions : DeviceOption := h.options.getLast h.initialized

/-- The host with another store. -/
def withStore (s : Store) : Host := { h with node := { h.node with store := s } }

end Host

/-- No new-folder handler is set here. -/
def hostDo (sha256 : Bytes → Bytes) : Machine link Host
  | h, .op o => let r := nodeDo h.node o; ({ h with node := r.1 }, r.2)
  | h, .getSyncedDirectories peerId => (h, some (h.node.store.getSyncedDirectories peerId))
  | h, .addSyncDirectory path label id =>
    let r := h.node.store.addSyncDirectory (fun p => (h.node.disk.find h.node.cwd p).isSome) [] path label id
    (h.withStore r.1, r.2)
  | h, .syncDirectoryWithPeer directory peer =>
    let r := h.node.store.syncDirectoryWithPeer directory peer
    (h.withStore r.1, r.2)
  | h, .newFolder _ => (h, some ())
  | h, .getId => (h, some (sha256 h.getOptions.cert))
  | h, .getName => (h, some h.getOptions.deviceName)

/-- A task on files does to a host what it does to its node. -/
theorem run_lift {α : Type} (sha256 : Bytes → Bytes) : ∀ (p : BepProg α) (h : Host),
    run (hostDo sha256) (lift p) h = ({ h with node := (run nodeDo p h.node).1 }, (run nodeDo p h.node).2) := by
  intro p
  induction p with
  | ret a => intro h; rfl
  | panic => intro h; rfl
  | ask o k ih =>
    intro h
    rcases hdo : nodeDo h.node o with ⟨n', _ | r⟩
    · have hlink : hostDo sha256 h (.op o) = ({ h with node := n' }, none) := by simp only [hostDo, hdo]
      rw [lift, run_ask_none hlink, run_ask_none hdo]
    · have hlink : hostDo sha256 h (.op o) = ({ h with node := n' }, some r) := by simp only [hostDo, hdo]
      rw [lift, run_ask_some hlink, run_ask_some hdo]
      exact ih r _

end BepRs.Sync
