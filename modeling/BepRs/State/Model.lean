/-
  BepRs.State.Model — the tables of `BepState` and the calls on them
  (`src/bep_state.rs`, `src/models.rs`, `migrations/`), with the values of
  `src/sync_directory.rs` they take and return.

  A table is the list of its rows in insertion order; SQLite is taken to return rows in
  that order, and a block query sorts by offset. Left out: the columns no call reads
  (`sequence`, `weak_hash`, the ids of version and block rows) and, of the device options,
  all but the short id they determine. The peers' addresses and the name and certificate of
  the device options are in `BepRs.State.Folders`; their private key is nowhere.

  `updateSyncFile` is not a transaction: its assertion on the number of stored versions
  comes after the row of `sync_files` was written, so a call that panics there leaves the
  new row behind (`none` beside the changed tables).
-/

import BepRs.Lib.Keyed
import BepRs.Lib.Path
import Mathlib.Data.List.Sort

namespace BepRs.State

open BepRs.Lib BepRs.Lib.Path

abbrev Bytes := List UInt8

/-- The short id of a version's author, and its counter. -/
abbrev Version := UInt64 × UInt64

structure SyncBlock where
  offset : Int
  size : Int
  hash : Bytes
  deriving DecidableEq, Repr

structure SyncFile where
  id : Option Nat
  /-- Relative to the directory. -/
  path : Text
  hash : Bytes
  modifiedBy : UInt64
  syncedVersion : UInt64
  versions : List Version
  blocks : List SyncBlock
  deriving DecidableEq, Repr

structure SyncDirectory where
  id : Text
  label : Text
  path : Option Text
  deriving DecidableEq, Repr

namespace SyncFile

def getIndexVersion (f : SyncFile) : UInt64 :=
  match f.versions.getLast? with
  | some v => v.2
  | none => 1

/-- The path's components, separated by `/` whatever the OS. -/
def getName (f : SyncFile) : Text :=
  trimSlashes ((components f.path).foldl (fun acc x => acc ++ '/' :: x.asOsStr) [])

end SyncFile

/-- The normal form of a name: what `getName` gives for a file whose path it is. -/
def normal (name : Text) : Text := join (names name)

theorem getName_eq (f : SyncFile) : f.getName = normal f.path := trim_fold_components f.path

@[simp] theorem normal_normal (name : Text) : normal (normal name) = normal name := normal_idem name

/-! ## The tables -/

structure FolderRow where
  id : Text
  label : Text
  dirPath : Option Text
  deriving DecidableEq, Repr

structure Peer where
  id : Nat
  deviceId : Option Bytes
  name : Text
  deriving DecidableEq, Repr

structure FolderShare where
  syncFolderId : Text
  peerId : Nat
  deriving DecidableEq, Repr

structure FileRow where
  id : Nat
  name : Text
  modifiedBy : Int64
  syncedVersionId : Int64
  hash : Option Bytes
  folderId : Text
  deriving DecidableEq, Repr

structure VersionRow where
  versionId : Int64
  userId : Int64
  syncFileId : Nat
  deriving DecidableEq, Repr

structure BlockRow where
  syncFileId : Nat
  offset : Int
  size : Int
  hash : Bytes
  deriving DecidableEq, Repr

structure Tables where
  folders : List FolderRow
  peers : List Peer
  shares : List FolderShare
  files : List FileRow
  versions : List VersionRow
  blocks : List BlockRow
  shortId : UInt64
  deriving DecidableEq, Repr

/-- The bits of a 64-bit column read as unsigned, and back. -/
def fromI64 (i : Int64) : UInt64 := i.toUInt64

def fromU64 (i : UInt64) : Int64 := i.toInt64

@[simp] theorem fromI64_fromU64 (i : UInt64) : fromI64 (fromU64 i) = i := UInt64.toUInt64_toInt64 i

def modelToSyncDir (folder : FolderRow) : SyncDirectory := ⟨folder.id, folder.label, folder.dirPath⟩

namespace Tables

variable (t : Tables)

def getSyncDirectories : List SyncDirectory := t.folders.map modelToSyncDir

def getSyncDirectory (folderId : Text) : Option SyncDirectory := t.getSyncDirectories.find? (·.id = folderId)

def isDirectorySynced (directory : Text) (peer : Nat) : Bool :=
  t.shares.any fun x => x.syncFolderId = directory ∧ x.peerId = peer

def getVersions (id : Nat) : List Version :=
  (t.versions.filter (·.syncFileId = id)).map fun x => (fromI64 x.userId, fromI64 x.versionId)

def getBlocks (fileId : Nat) : List SyncBlock :=
  ((t.blocks.filter (·.syncFileId = fileId)).insertionSort (·.offset ≤ ·.offset)).map fun b => ⟨b.offset, b.size, b.hash⟩

/-- One row of `sync_files` as a `SyncFile`; it panics without a hash or a version. -/
def readFile (x : FileRow) : Option SyncFile := do
  let hash ← x.hash
  let file : SyncFile :=
    ⟨some x.id, x.name, hash, fromI64 x.modifiedBy, fromI64 x.syncedVersionId, t.getVersions x.id, t.getBlocks x.id⟩
  if file.versions = [] then none else some file

def getSyncFiles (dirId : Text) : Option (List SyncFile) := (t.files.filter (·.folderId = dirId)).mapM t.readFile

/-- The id an insert of `file` writes to. -/
def target (file : SyncFile) : Nat := file.id.getD (Keyed.fresh (t.files.map FileRow.id))

def upsertFile (dir : SyncDirectory) (file : SyncFile) : Tables :=
  let row : FileRow :=
    { id := t.target file
      name := file.getName
      modifiedBy := fromU64 file.modifiedBy
      syncedVersionId := fromU64 file.syncedVersion
      hash := some file.hash
      folderId := dir.id }
  { t with files := Keyed.upsert FileRow.id row t.files }

def storedVersions (id : Nat) : Nat := (t.versions.filter (·.syncFileId = id)).length

def insertVersions (id : Nat) (vs : List Version) : Tables :=
  { t with versions := t.versions ++ vs.map fun x => ⟨fromU64 x.2, fromU64 x.1, id⟩ }

def replaceBlocks (id : Nat) (bs : List SyncBlock) : Tables :=
  { t with blocks := t.blocks.filter (·.syncFileId ≠ id) ++ bs.map fun b => ⟨id, b.offset, b.size, b.hash⟩ }

def updateSyncFile (dir : SyncDirectory) (file : SyncFile) : Tables × Option Unit :=
  if file.versions = [] then (t, none)
  else
    let inserted := t.target file
    let t1 := t.upsertFile dir file
    let versions := t1.storedVersions inserted
    -- "We shouldn't have more versions than the file being requested"
    if file.versions.length < versions then (t1, none)
    else
      let t2 := if versions < file.versions.length then t1.insertVersions inserted (file.versions.drop versions) else t1
      let t3 := if file.blocks = [] then t2 else t2.replaceBlocks inserted file.blocks
      if t3.getVersions inserted = [] then (t3, none) else (t3, some ())

end Tables

end BepRs.State
