/-
  BepRs.Sync.Ops — what a task of a node may do, one atomic operation at a time.

  A `db` operation is one call on `BepStateRef`: it takes the lock, runs the `BepState`
  method and releases it, so it is one step whatever the other tasks do. A `sys`
  operation touches the disk, the storage backend or a connection. Reading a name for a
  log line is left out, and so are the fields of messages nothing here reads.

  `dbDo` is what a `db` operation does to the store. `nodeDo` is a whole node: its store,
  its disk, the answers its peers will give to its requests (`wire`; when they run out
  the connection is closed), the messages it queued and the downloads it started.

  The disk holds regular files and directories, by absolute path. The kernel follows a
  path's components one by one and wants a directory before each (`locate`); where it
  gets somewhere it is where the text leads lexically (`locate_resolve`). The storage
  backend sits behind a `std::sync::Mutex`, so a panic while it is locked poisons it, and
  a poisoned lock makes every later use panic.
-/

import BepRs.Lib.Task
import BepRs.State.Update
import Mathlib.Algebra.Group.Int.Defs
import Mathlib.Algebra.Group.Nat.Defs

namespace BepRs.Sync

open BepRs.Lib BepRs.Lib.Path BepRs.Lib.Task BepRs.State

/-! ## Messages -/

structure Counter where
  id : UInt64
  value : UInt64
  deriving DecidableEq, Repr

structure BlockInfo where
  offset : Int
  size : Int
  hash : Bytes
  deriving DecidableEq, Repr

structure FileInfo where
  name : Text
  modifiedBy : UInt64
  /-- The counters of the version vector, when the message has one. -/
  version : Option (List Counter)
  blocks : List BlockInfo
  deriving DecidableEq, Repr

structure Index where
  folder : Text
  files : List FileInfo
  deriving DecidableEq, Repr

structure Request where
  id : Int
  folder : Text
  name : Text
  offset : Int
  size : Int
  hash : Bytes
  blockNo : Int
  deriving DecidableEq, Repr

inductive ErrorCode where
  | noError
  | generic
  | noSuchFile
  | invalidFile
  deriving DecidableEq, Repr

def ErrorCode.asI32 : ErrorCode → Int
  | .noError => 0
  | .generic => 1
  | .noSuchFile => 2
  | .invalidFile => 3

def ErrorCode.fromI32 (i : Int) : Option ErrorCode :=
  if i = 0 then some .noError else if i = 1 then some .generic else if i = 2 then some .noSuchFile
  else if i = 3 then some .invalidFile else none

structure Response where
  id : Int
  data : Bytes
  code : Int
  deriving DecidableEq, Repr

inductive Message where
  | index (m : Index)
  | request (r : Request)
  | response (r : Response)
  deriving DecidableEq, Repr

inductive PeerConnectionError where
  | unknownPeer
  | invalidMagicBytes
  | decodeError (text : String)
  | timeoutError
  | other (text : String)
  deriving DecidableEq, Repr

def PeerConnectionError.text : PeerConnectionError → String
  | .unknownPeer => "Unknown Peer"
  | .invalidMagicBytes => "Received invalid magic bytes"
  | .decodeError e => "Decode error: " ++ e
  | .timeoutError => "Connection timeout"
  | .other e => "Unknown error: " ++ e

/-- `io::Error`: one made by the program, or one of the system's. -/
inductive IoError where
  | other (text : String)
  | system
  deriving DecidableEq, Repr

def IoError.text : IoError → String
  | .other e => e
  | .system => "system error"

inductive PeerCommandError where
  | connectionClosed
  | invalidFile
  | noSuchFile
  | connectionError (e : PeerConnectionError)
  | ioError (e : IoError)
  | uninitializedError
  | other (text : String)
  deriving DecidableEq, Repr

def PeerCommandError.text : PeerCommandError → String
  | .connectionClosed => "Connection closed unexpectedly."
  | .invalidFile => "Invalid file requested"
  | .noSuchFile => "Inexistent File Requested"
  | .connectionError e => "Error establishing connection: " ++ e.text
  | .ioError e => "I/O Error: " ++ e.text
  | .uninitializedError => "Connection not yet initialized"
  | .other e => "Unknown error type: " ++ e

inductive PeerRequestResponse where
  | response (r : Response)
  | error (e : PeerCommandError)
  | sent
  | closed
  deriving DecidableEq, Repr

/-! ## Operations -/

inductive DbOp where
  | getSyncDirectories
  | getSyncDirectory (folderId : Text)
  | getSyncFiles (dirId : Text)
  | updateSyncFile (dir : SyncDirectory) (file : SyncFile)
  | isDirectorySynced (directory : Text) (peer : Nat)
  | getPeers
  | getShortId
  /-- Starts a `directory_updated` on every connection. -/
  | directoryChanged (dir : SyncDirectory)

@[reducible] def DbOp.Ans : DbOp → Type
  | .getSyncDirectories => List SyncDirectory
  | .getSyncDirectory _ => Option SyncDirectory
  | .getSyncFiles _ => List SyncFile
  | .updateSyncFile _ _ => Unit
  | .isDirectorySynced _ _ => Bool
  | .getPeers => List Peer
  | .getShortId => UInt64
  | .directoryChanged _ => Unit

inductive SysOp where
  /-- `read_dir`: the names of the entries. -/
  | readDir (path : Text)
  /-- `File::open` and `read_to_end`. -/
  | readFile (path : Text)
  | pathExists (path : Text)
  /-- `storage_backend.lock().unwrap().write_block(..).unwrap()`. -/
  | writeBlock (url : Text) (offset : Nat) (data : Bytes)
  /-- `storage_backend.lock().unwrap().read_block(..)`. -/
  | readBlock (url : Text) (offset len : Nat)
  | submitMessage (m : Message)
  /-- `submit_request` with `WhenResponse`: queued, and the peer's response awaited. -/
  | submitRequest (r : Request)
  | closeReason (reason : String)
  | sampleId
  | spawnGetDirectory (dir : SyncDirectory)

@[reducible] def SysOp.Ans : SysOp → Type
  | .readDir _ => Option (List Text)
  | .readFile _ => Option Bytes
  | .pathExists _ => Bool
  | .writeBlock _ _ _ => Unit
  | .readBlock _ _ _ => Option Bytes
  | .submitMessage _ => Unit
  | .submitRequest _ => Except PeerCommandError PeerRequestResponse
  | .closeReason _ => Unit
  | .sampleId => Int
  | .spawnGetDirectory _ => Unit

inductive Op where
  | db (o : DbOp)
  | sys (o : SysOp)

@[reducible] def Op.Ans : Op → Type
  | .db o => o.Ans
  | .sys o => o.Ans

@[reducible] def bep : Sig := ⟨Op, Op.Ans⟩

abbrev BepProg := Prog bep

abbrev db (o : DbOp) : BepProg o.Ans := call (S := bep) (.db o)

abbrev sys (o : SysOp) : BepProg o.Ans := call (S := bep) (.sys o)

/-! ## The store under an operation -/

def dbDo (s : Store) : (o : DbOp) → Store × Option o.Ans
  | .getSyncDirectories => (s, some s.getSyncDirectories)
  | .getSyncDirectory folderId => (s, some (s.getSyncDirectory folderId))
  | .getSyncFiles dirId => (s, s.getSyncFiles dirId)
  | .updateSyncFile dir file => s.updateSyncFile dir file
  | .isDirectorySynced directory peer => (s, some (s.isDirectorySynced directory peer))
  | .getPeers => (s, some s.peers)
  | .getShortId => (s, some s.shortId)
  | .directoryChanged _ => (s, some ())

@[simp] theorem dbDo_getSyncFiles (s : Store) (dirId : Text) :
    dbDo s (.getSyncFiles dirId) = (s, some (s.index dirId)) :=
  Prod.ext rfl (s.getSyncFiles_eq dirId)

/-! ## The disk -/

inductive FNode where
  | file (data : Bytes)
  | dir
  deriving DecidableEq, Repr

structure Disk where
  entries : List (List Text × FNode)
  nodup : (entries.map Prod.fst).Nodup
  named : ∀ e ∈ entries, ∀ s ∈ e.1, FileName s

namespace Disk

variable (d : Disk)

def node (p : List Text) : Option FNode := if p = [] then some .dir else (Keyed.row Prod.fst p d.entries).map Prod.snd

/-- Follow a path's components; each is looked up in a directory. -/
def walk (at_ : List Text) : List Component → Option (List Text)
  | [] => some at_
  | c :: cs => if c = .rootDir ∨ d.node at_ = some .dir then walk (follow at_ c) cs else none

/-- A path that ends in a slash, `.` or `..` names a directory. -/
def wantsDir (p : Text) : Bool := (parts p).getLast?.any fun s => s == [] || s == ['.'] || s == ['.', '.']

def locate (cwd : List Text) (p : Text) : Option (List Text) :=
  match d.walk cwd (components p) with
  | some q => if p = [] ∨ (wantsDir p = true ∧ d.node q ≠ some .dir) then none else some q
  | none => none

def find (cwd : List Text) (p : Text) : Option FNode := (d.locate cwd p).bind d.node

theorem walk_follow : ∀ (cs : List Component) {at_ q : List Text}, d.walk at_ cs = some q → q = cs.foldl follow at_ := by
  intro cs
  induction cs with
  | nil => intro at_ q h; cases h; rfl
  | cons c cs ih =>
    intro at_ q h
    simp only [walk] at h
    split at h
    · exact ih h
    · cases h

/-- Where the kernel gets, the text leads. -/
theorem locate_resolve {cwd q : List Text} {p : Text} (h : d.locate cwd p = some q) : q = resolve cwd p := by
  unfold locate at h
  split at h
  · rename_i q' hw
    split at h
    · cases h
    · cases h; exact d.walk_follow _ hw
  · cases h

/-- Every place the kernel gets to is named as files are. -/
theorem locate_named {cwd q : List Text} {p : Text} (hcwd : ∀ s ∈ cwd, FileName s) (h : d.locate cwd p = some q) :
    ∀ s ∈ q, FileName s := by
  rw [d.locate_resolve h]; exact resolve_fileName hcwd p

def setFile (p : List Text) (data : Bytes) : Disk :=
  if h : ∀ s ∈ p, FileName s then
    { entries := Keyed.upsert Prod.fst (p, .file data) d.entries
      nodup := Keyed.nodup_upsert _ d.nodup _
      named := by
        intro e he
        rcases (Keyed.mem_upsert _ d.nodup).mp he with he | he
        · rw [he]; exact h
        · exact d.named e he.1 }
  else d

/-- The names in a directory. -/
def children (p : List Text) : List Text :=
  d.entries.filterMap fun e => if e.1 ≠ [] ∧ e.1.dropLast = p then e.1.getLast? else none

theorem mem_children {p : List Text} {s : Text} (h : s ∈ d.children p) : FileName s := by
  obtain ⟨e, he, hs⟩ := List.mem_filterMap.mp h
  split at hs
  · exact d.named e he s (List.mem_of_getLast? hs)
  · cases hs

/-- A directory has one entry of each name. -/
theorem nodup_children (p : List Text) : (d.children p).Nodup := by
  have hall : ∀ l : List (List Text × FNode), (l.map Prod.fst).Nodup →
      (l.filterMap fun e => if e.1 ≠ [] ∧ e.1.dropLast = p then e.1.getLast? else none).Nodup := by
    intro l
    induction l with
    | nil => intro _; exact List.nodup_nil
    | cons e l ih =>
      intro hl
      simp only [List.map_cons, List.nodup_cons] at hl
      rw [List.filterMap_cons]
      split
      · exact ih hl.2
      · rename_i s hs
        refine List.nodup_cons.mpr ⟨fun hmem => hl.1 ?_, ih hl.2⟩
        obtain ⟨e', he', hs'⟩ := List.mem_filterMap.mp hmem
        split at hs
        · rename_i he
          split at hs'
          · rename_i hee'
            have h1 := List.dropLast_append_getLast? s hs
            have h2 := List.dropLast_append_getLast? s hs'
            rw [← h1, he.2, ← hee'.2, h2]
            exact List.mem_map_of_mem he'
          · cases hs'
        · cases hs
  exact hall d.entries d.nodup

end Disk

/-- A write at an offset: a hole before it reads as zeros; writing nothing changes
    nothing. -/
def overlay (old : Bytes) (offset : Nat) (data : Bytes) : Bytes :=
  if data = [] then old
  else (old ++ List.replicate (offset - old.length) 0).take offset ++ data ++ old.drop (offset + data.length)

/-! ## A node -/

structure Node where
  store : Store
  disk : Disk
  cwd : List Text
  cwd_named : ∀ s ∈ cwd, FileName s
  poisoned : Bool
  /-- What the peers will answer to the requests still to come. -/
  wire : List (Except PeerCommandError PeerRequestResponse)
  /-- The random ids of the requests still to come. -/
  ids : List Int
  sent : List Message
  spawned : List SyncDirectory

namespace Node

variable (n : Node)

def readDir (path : Text) : Option (List Text) :=
  match n.disk.locate n.cwd path with
  | some q => if n.disk.node q = some .dir then some (n.disk.children q) else none
  | none => none

def readFile (path : Text) : Option Bytes :=
  match n.disk.find n.cwd path with
  | some (.file data) => some data
  | _ => none

/-- `seek` takes a signed offset. -/
def seekable (offset : Nat) : Bool := offset < 2 ^ 63

def poison : Node := { n with poisoned := true }

/-- `OpenOptions::new().write(true).create(true).open(url)`: the file's place and data. -/
def openWrite (url : Text) : Option (List Text × Bytes) :=
  match n.disk.locate n.cwd url with
  | some q =>
    match n.disk.node q with
    | some (.file data) => some (q, data)
    | some .dir => none
    | none => if n.disk.node q.dropLast = some .dir then some (q, []) else none
  | none => none

def writeBlock (url : Text) (offset : Nat) (data : Bytes) : Node × Option Unit :=
  if n.poisoned then (n, none)
  else
    match n.openWrite url with
    | some (q, old) =>
      if seekable offset then ({ n with disk := n.disk.setFile q (overlay old offset data) }, some ())
      else ({ n with disk := n.disk.setFile q old }.poison, none)
    | none => (n.poison, none)

/-- `LocalStorageBackend::read_block`; the buffer of `len` zeros cannot be larger than
    `isize::MAX`. -/
def readBlock (url : Text) (offset len : Nat) : Node × Option (Option Bytes) :=
  if n.poisoned then (n, none)
  else
    match n.disk.find n.cwd url with
    | none => (n, some none)
    | some f =>
      if !seekable offset then (n, some none)
      else if 2 ^ 63 ≤ len then (n.poison, none)
      else if len = 0 then (n, some (some []))
      else
        match f with
        | .file data => if offset + len ≤ data.length then (n, some (some ((data.drop offset).take len))) else (n, some none)
        | .dir => (n, some none)

def sysDo : (o : SysOp) → Node × Option o.Ans
  | .readDir path => (n, some (n.readDir path))
  | .readFile path => (n, some (n.readFile path))
  | .pathExists path => (n, some (n.disk.find n.cwd path).isSome)
  | .writeBlock url offset data => n.writeBlock url offset data
  | .readBlock url offset len => n.readBlock url offset len
  | .submitMessage m => ({ n with sent := n.sent ++ [m] }, some ())
  | .submitRequest r =>
    let n' := { n with sent := n.sent ++ [.request r] }
    match n.wire with
    | a :: rest => ({ n' with wire := rest }, some a)
    | [] => (n', some (.ok .closed))
  | .closeReason _ => (n, some ())
  | .sampleId => ({ n with ids := n.ids.tail }, some (n.ids.headD (0 : Int)))
  | .spawnGetDirectory dir => ({ n with spawned := n.spawned ++ [dir] }, some ())

/-- What a write leaves alone. -/
theorem writeBlock_frame (url : Text) (offset : Nat) (data : Bytes) :
    (n.writeBlock url offset data).1.store = n.store ∧ (n.writeBlock url offset data).1.wire = n.wire ∧
      (n.writeBlock url offset data).1.sent = n.sent := by
  unfold writeBlock
  split
  · exact ⟨rfl, rfl, rfl⟩
  split
  · split <;> exact ⟨rfl, rfl, rfl⟩
  · exact ⟨rfl, rfl, rfl⟩

/-- A read may poison the lock, and changes nothing else. -/
theorem readBlock_frame (url : Text) (offset len : Nat) :
    (n.readBlock url offset len).1 = n ∨ (n.readBlock url offset len).1 = n.poison := by
  unfold readBlock
  split
  · exact Or.inl rfl
  split
  · exact Or.inl rfl
  split
  · exact Or.inl rfl
  split
  · exact Or.inr rfl
  split
  · exact Or.inl rfl
  split
  · split <;> exact Or.inl rfl
  · exact Or.inl rfl

/-- The disk and the connections leave the store alone. -/
theorem store_sysDo (o : SysOp) : (n.sysDo o).1.store = n.store := by
  cases o with
  | writeBlock url offset data => exact (n.writeBlock_frame url offset data).1
  | readBlock url offset len =>
    show (n.readBlock url offset len).1.store = n.store
    rcases n.readBlock_frame url offset len with h | h
    · rw [h]
    · rw [h]; rfl
  | submitRequest r =>
    unfold sysDo
    simp only
    split <;> rfl
  | _ => rfl

end Node

def nodeDo : Machine bep Node
  | n, .db o => let r := dbDo n.store o; ({ n with store := r.1 }, r.2)
  | n, .sys o => n.sysDo o

/-! ## What the operations answer -/

theorem nodeDo_getSyncDirectories (n : Node) :
    nodeDo n (.db .getSyncDirectories) = (n, some n.store.getSyncDirectories) := rfl

theorem nodeDo_getSyncFiles (n : Node) (dirId : Text) :
    nodeDo n (.db (.getSyncFiles dirId)) = (n, some (n.store.index dirId)) := by
  simp only [nodeDo, dbDo_getSyncFiles]

theorem nodeDo_getPeers (n : Node) : nodeDo n (.db .getPeers) = (n, some n.store.peers) := rfl

theorem nodeDo_sampleId (n : Node) :
    nodeDo n (.sys .sampleId) = ({ n with ids := n.ids.tail }, some (n.ids.headD (0 : Int))) := rfl

theorem nodeDo_submitMessage (n : Node) (m : Message) :
    nodeDo n (.sys (.submitMessage m)) = ({ n with sent := n.sent ++ [m] }, some ()) := rfl

end BepRs.Sync
