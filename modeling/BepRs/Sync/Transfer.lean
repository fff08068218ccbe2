/-
  BepRs.Sync.Transfer — the tasks that move file contents: `PeerConnection::get_file`
  and `get_directory` (`src/peer_connection/mod.rs`) on the side that asks,
  `handle_request` (`src/peer_connection/handlers.rs`) on the side that answers.
-/

import BepRs.Sync.Index

namespace BepRs.Sync

open BepRs.Lib BepRs.Lib.Path BepRs.Lib.Task BepRs.State

variable (sha256 : Bytes → Bytes)

/-- `i64 as usize` and `i32 as usize`. -/
def asUsize (x : Int) : Nat := (x % 2 ^ 64).toNat

/-! ## `get_file` -/

/-- The loop over the blocks, from the `i`-th on. Every block whose response verifies is
    written and then recorded, with the file's latest version as the synced one. -/
def getBlocksFrom (directory : SyncDirectory) (syncFile : SyncFile) (messageId : Int) :
    Nat → List SyncBlock → BepProg (Except PeerCommandError Unit)
  | _, [] => .ret (.ok ())
  | i, block :: rest => do
    let message ← sys (.submitRequest
      { id := messageId, folder := directory.id, name := syncFile.getName, offset := block.offset, size := block.size,
        hash := block.hash, blockNo := i })
    match message with
    | .error e => .ret (.error e)
    | .ok (.response response) =>
      match ErrorCode.fromI32 response.code with
      | some .noError =>
        if sha256 response.data ≠ block.hash then .ret (.error .invalidFile)
        else
          match directory.path with
          | none => .ret (.error (.other "Requesting file from non-synced directory"))
          | some path => do
            sys (.writeBlock (push path syncFile.getName) (asUsize block.offset) response.data)
            db (.updateSyncFile directory { syncFile with syncedVersion := syncFile.getIndexVersion })
            getBlocksFrom directory syncFile messageId (i + 1) rest
      | some .noSuchFile => .ret (.error .noSuchFile)
      | some .invalidFile => .ret (.error .invalidFile)
      | some .generic => .ret (.error (.other "Generic Error"))
      | none => .ret (.error (.other ("Invalid error code received: " ++ toString response.code)))
    | .ok (.error e) => .ret (.error (.other ("Received an error while getting file: " ++ e.text)))
    | .ok .closed => .ret (.error .connectionClosed)
    | .ok .sent =>
      .ret (.error (.other "Got error on file request, and I don't know how to handle errors."))

def getFile (directory : SyncDirectory) (syncFile : SyncFile) : BepProg (Except PeerCommandError Unit) := do
  let messageId ← sys .sampleId
  if syncFile.blocks = [] then .ret (.error (.other "File object has no blocks"))
  else getBlocksFrom sha256 directory syncFile messageId 0 syncFile.blocks

/-! ## `get_directory` -/

def getFiles (directory : SyncDirectory) : List SyncFile → BepProg (Except PeerCommandError Unit)
  | [] => .ret (.ok ())
  | file :: files =>
    match directory.path with
    | none => .ret (.error (.other "Requested get of non-synced directory"))
    | some path => do
      let present : Bool ← sys (.pathExists (push path file.path))
      if present = false ∨ file.syncedVersion < file.getIndexVersion then do
        match ← getFile sha256 directory file with
        | .error e => .ret (.error e)
        | .ok () => getFiles directory files
      else getFiles directory files

def getDirectory (directory : SyncDirectory) : BepProg (Except PeerCommandError Unit) := do
  let index ← db (.getSyncFiles directory.id)
  match ← getFiles sha256 directory index with
  | .error e => .ret (.error e)
  | .ok () => do
    db (.directoryChanged directory)
    .ret (.ok ())

/-! ## `handle_request` -/

def respond (request : Request) (data : Bytes) (code : ErrorCode) : BepProg Unit :=
  sys (.submitMessage (.response ⟨request.id, data, code.asI32⟩))

def handleRequest (conn : Conn) (request : Request) : BepProg Unit := do
  let dir ← db (.getSyncDirectory request.folder)
  let peer ← unwrapOk (← getPeer conn)
  match dir with
  | none => respond request [] .invalidFile
  | some dir => do
    let synced : Bool ← db (.isDirectorySynced dir.id peer.id)
    if synced = false then respond request [] .invalidFile
    else
      match dir.path with
      | none => respond request [] .noSuchFile
      | some path => do
        let data ← sys (.readBlock (push path request.name) (asUsize request.offset) (asUsize request.size))
        match data with
        | none => respond request [] .noSuchFile
        | some data =>
          if request.hash ≠ [] ∧ sha256 data ≠ request.hash then respond request data .invalidFile
          else respond request data .noError

end BepRs.Sync
