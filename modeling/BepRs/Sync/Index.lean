/-
  BepRs.Sync.Index — the tasks that read and write a folder's index:
  `SyncDirectory::generate_index` and `SyncFile::gen_blocks`
  (`src/sync_directory.rs`), `PeerConnection::send_index` and `get_peer`
  (`src/peer_connection/mod.rs`), `handle_index` (`src/peer_connection/handlers.rs`).

  Each loop of the source is a function of its own, with what the loop body changes as
  arguments. A local copy of the index is a list read once at the start; `iter_mut().find`
  changes the first element that matches, in that copy only (`setFirst`).

  SHA-256 is the parameter `sha256`. Arithmetic is checked, as in the profile the tests
  run in: an overflow panics.
-/

import BepRs.Sync.Ops

namespace BepRs.Sync

open BepRs.Lib BepRs.Lib.Path BepRs.Lib.Task BepRs.State

/-- Replace the first element that satisfies `p`. -/
def setFirst {α : Type} (p : α → Bool) (x : α) : List α → List α
  | [] => []
  | y :: ys => if p y then x :: ys else y :: setFirst p x ys

/-- `x + 1` on `u64`. -/
def checkedSucc (x : UInt64) : Option UInt64 := if x.toNat + 1 < 2 ^ 64 then some (x + 1) else none

theorem toNat_checkedSucc {x v : UInt64} (h : checkedSucc x = some v) : v.toNat = x.toNat + 1 := by
  unfold checkedSucc at h
  split at h
  · rename_i hlt
    cases h
    rw [UInt64.toNat_add, UInt64.toNat_one, Nat.mod_eq_of_lt hlt]
  · cases h

variable (sha256 : Bytes → Bytes)

/-! ## Blocks -/

def getBlocksize (fileSize : Nat) : Nat :=
  if fileSize < 250 * 1024 ^ 2 then 128 * 1024
  else if fileSize < 500 * 1024 ^ 2 then 256 * 1024
  else if fileSize < 1024 ^ 3 then 512 * 1024
  else if fileSize < 2 * 1024 ^ 3 then 1024 ^ 2
  else if fileSize < 4 * 1024 ^ 3 then 2 * 1024 ^ 2
  else if fileSize < 8 * 1024 ^ 3 then 4 * 1024 ^ 2
  else if fileSize < 16 * 1024 ^ 3 then 8 * 1024 ^ 2
  else 16 * 1024 ^ 2

/-- A `u32` cast to `i32`. -/
def asI32 (x : Nat) : Int := if x < 2 ^ 31 then x else (x : Int) - 2 ^ 32

def divCeil (a b : Nat) : Nat := (a + b - 1) / b

/-- `gen_blocks` on the contents of the file: the length is cut to 32 bits, every block
    but the last is read whole, and the last is the rest of the file. `none` is the
    overflow of `num_blocks - 1` when there is no block. -/
def blocksOf (data : Bytes) : Option (List SyncBlock) :=
  let len := data.length % 2 ^ 32
  let blockLen := getBlocksize len
  let numBlocks := divCeil len blockLen
  if numBlocks = 0 then none
  else
    let whole : List SyncBlock := (List.range (numBlocks - 1)).map fun i =>
      ⟨(i * blockLen : Nat), blockLen, sha256 ((data.drop (i * blockLen)).take blockLen)⟩
    let last : SyncBlock :=
      ⟨(blockLen * (numBlocks - 1) : Nat), (asI32 len).tmod blockLen, sha256 (data.drop (blockLen * (numBlocks - 1)))⟩
    some (whole ++ [last])

def genBlocks (filePath : Text) (dir : SyncDirectory) : BepProg (Except IoError (List SyncBlock)) :=
  match dir.path with
  | none => .ret (.error (.other "Non-synced directory"))
  | some path => do
    match ← sys (.readFile (push path filePath)) with
    | none => .ret (.error .system)
    | some data => do
      let blocks ← unwrap (blocksOf sha256 data)
      .ret (.ok blocks)

/-- `Result::unwrap`. -/
def unwrapOk {ε α : Type} : Except ε α → BepProg α
  | .ok a => .ret a
  | .error _ => .panic

/-! ## `generate_index` -/

/-- The loop over the entries of the directory: `syncFiles` is the index read before it,
    with the changes of the loop. -/
def generateEntries (dir : SyncDirectory) (path : Text) (shortId : UInt64) :
    List Text → List SyncFile → List SyncFile → Bool → BepProg (List SyncFile × Bool)
  | [], _, outFiles, changed => .ret (outFiles, changed)
  | file :: files, syncFiles, outFiles, changed => do
    let data ← unwrap (← sys (.readFile (push path file)))
    let hash := sha256 data
    match syncFiles.find? fun x => PathEq x.path file with
    | some indexFile => do
      let last ← unwrap indexFile.versions.getLast?
      -- "If we do not have the latest version of a file, we ignore any changes made locally"
      if last.2 > indexFile.syncedVersion then
        generateEntries dir path shortId files syncFiles (outFiles ++ [indexFile]) changed
      else if hash ≠ indexFile.hash then do
        let vnumber ← unwrap (checkedSucc last.2)
        let blocks ← unwrapOk (← genBlocks sha256 (push path file) dir)
        let newFile : SyncFile :=
          { indexFile with
            syncedVersion := vnumber
            versions := indexFile.versions ++ [(shortId, vnumber)]
            hash := hash
            blocks := blocks }
        db (.updateSyncFile dir newFile)
        generateEntries dir path shortId files (setFirst (fun x => PathEq x.path file) newFile syncFiles)
          (outFiles ++ [newFile]) true
      else generateEntries dir path shortId files syncFiles (outFiles ++ [indexFile]) changed
    | none => do
      let blocks ← unwrapOk (← genBlocks sha256 file dir)
      let newFile : SyncFile :=
        { id := none, path := file, hash := hash, modifiedBy := shortId, syncedVersion := 0,
          versions := [(shortId, 0)], blocks := blocks }
      db (.updateSyncFile dir newFile)
      generateEntries dir path shortId files syncFiles (outFiles ++ [newFile]) true

def generateIndex (dir : SyncDirectory) : BepProg (List SyncFile) := do
  let shortId ← db .getShortId
  let syncFiles ← db (.getSyncFiles dir.id)
  let path ← unwrap dir.path
  let entries ← unwrap (← sys (.readDir path))
  let out ← generateEntries sha256 dir path shortId entries syncFiles [] false
  if out.2 then
    db (.directoryChanged dir)
    .ret out.1
  else .ret out.1

/-! ## `handle_index` -/

def Counter.version (c : Counter) : Version := (c.id, c.value)

def BlockInfo.syncBlock (b : BlockInfo) : SyncBlock := ⟨b.offset, b.size, b.hash⟩

/-- The loop over the received files: `localindex` is the index read before it, with the
    changes of the loop. A new file is not added to it. -/
def handleFiles (syncdir : SyncDirectory) : List FileInfo → List SyncFile → Bool → BepProg Bool
  | [], _, changed => .ret changed
  | file :: files, localindex, changed =>
    match localindex.find? fun x => x.getName = file.name with
    | some localfile => do
      let counters ← unwrap file.version
      if localfile.versions.length ≥ counters.length then handleFiles syncdir files localindex changed
      else do
        let first ← unwrap file.blocks.head?
        let newFile : SyncFile :=
          { localfile with
            versions := counters.map Counter.version
            hash := first.hash
            blocks := file.blocks.map BlockInfo.syncBlock
            modifiedBy := file.modifiedBy }
        db (.updateSyncFile syncdir newFile)
        handleFiles syncdir files (setFirst (fun x => x.getName = file.name) newFile localindex) true
    | none => do
      let first ← unwrap file.blocks.head?
      let counters ← unwrap file.version
      let newFile : SyncFile :=
        { id := none, path := file.name, hash := first.hash, modifiedBy := file.modifiedBy, syncedVersion := 0,
          versions := counters.map Counter.version, blocks := file.blocks.map BlockInfo.syncBlock }
      db (.updateSyncFile syncdir newFile)
      handleFiles syncdir files localindex true

def handleIndex (folderId : Text) (files : List FileInfo) : BepProg Unit := do
  let syncdir ← unwrap (← db (.getSyncDirectory folderId))
  let localindex ← db (.getSyncFiles syncdir.id)
  let changed ← handleFiles syncdir files localindex false
  if changed then sys (.spawnGetDirectory syncdir) else .ret ()

/-! ## `send_index` -/

/-- A connection: the certificate hash of the peer, once it is known. -/
structure Conn where
  peerId : Option Bytes
  deriving DecidableEq, Repr

def getPeer (conn : Conn) : BepProg (Except PeerCommandError Peer) := do
  let peers ← db .getPeers
  match conn.peerId with
  | none => .ret (.error .uninitializedError)
  | some peerId =>
    match peers.find? fun peer => peerId = peer.deviceId.getD [] with
    | none => do
      sys (.closeReason "Unknown peer")
      .ret (.error (.connectionError .unknownPeer))
    | some peer => .ret (.ok peer)

/-- `i32 as u64`. -/
def asU64 (x : Int) : Nat := (x % 2 ^ 64).toNat

/-- The sum of the block sizes; it panics when it leaves 64 bits. -/
def getSize (f : SyncFile) : Option Nat :=
  f.blocks.foldl (fun acc b => acc.bind fun n => if n + asU64 b.size < 2 ^ 64 then some (n + asU64 b.size) else none)
    (some 0)

def fileInfos (dir : SyncDirectory) : List SyncFile → BepProg (Except IoError (List FileInfo))
  | [] => .ret (.ok [])
  | x :: xs => do
    let _ ← unwrap (getSize x)
    match ← genBlocks sha256 x.path dir with
    | .error e => .ret (.error e)
    | .ok blocks => do
      let info : FileInfo :=
        { name := x.getName
          modifiedBy := 0
          version := some (x.versions.map fun v => ⟨v.1, v.2⟩)
          blocks := blocks.map fun y => ⟨y.offset, y.size, y.hash⟩ }
      match ← fileInfos dir xs with
      | .error e => .ret (.error e)
      | .ok infos => .ret (.ok (info :: infos))

def sendFolders (peer : Peer) : List SyncDirectory → BepProg (Except IoError Unit)
  | [] => .ret (.ok ())
  | dir :: dirs => do
    let synced : Bool ← db (.isDirectorySynced dir.id peer.id)
    if synced then do
      let index ← db (.getSyncFiles dir.id)
      match ← fileInfos sha256 dir index with
      | .error e => .ret (.error e)
      | .ok files => do
        sys (.submitMessage (.index ⟨dir.id, files⟩))
        sendFolders peer dirs
    else sendFolders peer dirs

def sendIndex (conn : Conn) : BepProg (Except IoError Unit) := do
  match ← getPeer conn with
  | .ok peer => do
    let directories ← db .getSyncDirectories
    sendFolders sha256 peer directories
  | .error _ => .ret (.error (.other "Peer not yet received"))

end BepRs.Sync
