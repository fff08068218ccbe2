/-
  BepRs.Sync.Contract — the files a task writes come from those it read.

  A property of files that the tasks hand on (`Rules`): what they read has it, what they make
  of a scanned entry, of a received file and of a downloaded one has it, and so has what they
  record. Then every operation they ask for is one that such files allow, in whatever order
  the calls of other tasks come between.
-/

import BepRs.Sync.Merge

namespace BepRs.Sync

open BepRs.Lib BepRs.Lib.Path BepRs.Lib.Task BepRs.State

/-- Operations that record, write and send nothing. -/
def Quiet : Op → Prop
  | .db (.updateSyncFile _ _) => False
  | .sys (.writeBlock _ _ _) => False
  | .sys (.submitMessage _) => False
  | _ => True

/-- What may be asked for (`G`) and what is answered (`R`), for files with a property, names
    of directory entries with one and received files with one. -/
structure Rules (G : Op → Prop) (R : (o : Op) → o.Ans → Prop) (File : SyncFile → Prop) (Entry : Text → Prop)
    (Info : FileInfo → Prop) : Prop where
  quiet : ∀ o, Quiet o → G o
  read : ∀ (folder : Text) (files : List SyncFile), R (.db (.getSyncFiles folder)) files → ∀ f ∈ files, File f
  listed : ∀ (path : Text) (entries : List Text), R (.sys (.readDir path)) (some entries) → ∀ x ∈ entries, Entry x
  record : ∀ (dir : SyncDirectory) (f : SyncFile), File f → G (.db (.updateSyncFile dir f))
  scanned : ∀ (file : Text) (hash : Bytes) (shortId : UInt64) (blocks : List SyncBlock), Entry file →
    File ⟨none, file, hash, shortId, 0, [(shortId, 0)], blocks⟩
  rescanned : ∀ (f : SyncFile) (last : Version) (v shortId : UInt64) (hash : Bytes) (blocks : List SyncBlock), File f →
    f.versions.getLast? = some last → checkedSucc last.2 = some v →
    File { f with syncedVersion := v, versions := f.versions ++ [(shortId, v)], hash := hash, blocks := blocks }
  received : ∀ (l : List SyncFile) (info : FileInfo) (f : SyncFile), (∀ x ∈ l, File x) → Info info →
    incoming l info = some (some f) → File f
  fetched : ∀ f, File f → File { f with syncedVersion := f.getIndexVersion }

variable {G : Op → Prop} {R : (o : Op) → o.Ans → Prop} {File : SyncFile → Prop} {Entry : Text → Prop} {Info : FileInfo → Prop}
  {α β : Type}

theorem ok_unwrapOk {ε : Type} (x : Except ε α) : Ok (S := bep) G R (fun _ => True) (unwrapOk x) := by
  cases x <;> trivial

theorem all_setFirst {p : SyncFile → Bool} {x : SyncFile} {l : List SyncFile} (hx : File x) (hl : ∀ f ∈ l, File f) :
    ∀ f ∈ setFirst p x l, File f := by
  intro f hf
  rcases mem_setFirst hf with rfl | hf
  · exact hx
  · exact hl f hf

namespace Rules

variable (H : Rules G R File Entry Info)

include H

theorem ask {o : Op} {f : o.Ans → BepProg β} {Q : β → Prop} (ho : Quiet o) (hf : ∀ r, R o r → Ok (S := bep) G R Q (f r)) :
    Ok (S := bep) G R Q (call (S := bep) o >>= f) := ok_call_bind (H.quiet o ho) hf

variable (sha256 : Bytes → Bytes)

/-! ## Scanning -/

theorem ok_genBlocks (filePath : Text) (dir : SyncDirectory) :
    Ok (S := bep) G R (fun _ => True) (genBlocks sha256 filePath dir) := by
  unfold genBlocks
  split
  · trivial
  · refine H.ask trivial fun r _ => ?_
    split
    · trivial
    · refine ok_bind (fun _ _ => ?_) (ok_unwrap fun _ h => h)
      trivial

theorem ok_generateEntries (dir : SyncDirectory) (path : Text) (shortId : UInt64) :
    ∀ (files : List Text) (syncFiles out : List SyncFile) (changed : Bool), (∀ x ∈ files, Entry x) →
      (∀ f ∈ syncFiles, File f) →
      Ok (S := bep) G R (fun _ => True) (generateEntries sha256 dir path shortId files syncFiles out changed) := by
  intro files
  induction files with
  | nil => intro _ _ _ _ _; trivial
  | cons file files ih =>
    intro syncFiles out changed hnames hs
    have hrest : ∀ x ∈ files, Entry x := fun x hx => hnames x (List.mem_cons_of_mem _ hx)
    refine H.ask trivial fun r _ => ok_bind (fun data _ => ?_) (ok_unwrap fun _ h => h)
    cases hfind : syncFiles.find? fun x => PathEq x.path file with
    | none =>
      refine ok_bind (fun r _ => ok_bind (fun blocks _ => ?_) (ok_unwrapOk r)) (H.ok_genBlocks sha256 _ _)
      exact ⟨H.record _ _ (H.scanned _ _ _ _ (hnames file List.mem_cons_self)), fun _ _ => ih _ _ _ hrest hs⟩
    | some f =>
      have hf := hs f (List.mem_of_find?_eq_some hfind)
      refine ok_bind (fun last hlast => ?_) (ok_unwrap fun _ h => h)
      split
      · exact ih _ _ _ hrest hs
      split
      · refine ok_bind (fun v hv => ?_) (ok_unwrap fun _ h => h)
        refine ok_bind (fun r _ => ok_bind (fun blocks _ => ?_) (ok_unwrapOk r)) (H.ok_genBlocks sha256 _ _)
        have hnew := H.rescanned f last v shortId (sha256 data) blocks hf hlast hv
        exact ⟨H.record _ _ hnew, fun _ _ => ih _ _ _ hrest (all_setFirst hnew hs)⟩
      · exact ih _ _ _ hrest hs

theorem ok_generateIndex (dir : SyncDirectory) : Ok (S := bep) G R (fun _ => True) (generateIndex sha256 dir) := by
  refine H.ask trivial fun shortId _ => H.ask trivial fun syncFiles hs => ok_bind (fun path _ => ?_) (ok_unwrap fun _ h => h)
  refine H.ask trivial fun r hr => ok_bind (fun entries he => ?_) (ok_unwrap fun _ h => h)
  have hentries : ∀ x ∈ entries, Entry x := H.listed path entries (he ▸ hr)
  refine ok_bind (fun out _ => ?_)
    (H.ok_generateEntries sha256 dir path shortId entries syncFiles [] false hentries (H.read _ _ hs))
  split
  · exact H.ask trivial fun _ _ => trivial
  · trivial

/-! ## Merging -/

theorem ok_handleFiles (dir : SyncDirectory) : ∀ (files : List FileInfo) (l : List SyncFile) (changed : Bool),
    (∀ info ∈ files, Info info) → (∀ f ∈ l, File f) → Ok (S := bep) G R (fun _ => True) (handleFiles dir files l changed) := by
  intro files
  induction files with
  | nil => intro _ _ _ _; trivial
  | cons info files ih =>
    intro l changed hfiles hl
    have hrest : ∀ i ∈ files, Info i := fun i hi => hfiles i (List.mem_cons_of_mem _ hi)
    rw [handleFiles_cons]
    refine ok_bind (fun w hw => ?_) (ok_unwrap fun _ h => h)
    cases w with
    | none => exact ih _ _ hrest hl
    | some f =>
      have hf := H.received l info f hl (hfiles info List.mem_cons_self) hw
      exact ⟨H.record _ _ hf, fun _ _ => ih _ _ hrest (all_setFirst hf hl)⟩

theorem ok_handleIndex {m : Index} (hm : ∀ info ∈ m.files, Info info) :
    Ok (S := bep) G R (fun _ => True) (handleIndex m.folder m.files) := by
  refine H.ask trivial fun r _ => ok_bind (fun dir _ => ?_) (ok_unwrap fun _ h => h)
  refine H.ask trivial fun l hl => ?_
  refine ok_bind (fun changed _ => ?_) (H.ok_handleFiles dir m.files l false hm (H.read _ _ hl))
  cases changed with
  | false => trivial
  | true => exact H.ask (f := .ret) trivial fun _ _ => trivial

/-! ## Sending -/

theorem ok_getPeer (conn : Conn) : Ok (S := bep) G R (fun _ => True) (getPeer conn) := by
  refine H.ask trivial fun peers _ => ?_
  split
  · trivial
  · split
    · exact H.ask trivial fun _ _ => trivial
    · trivial

/-! ## Downloading -/

variable {dir : SyncDirectory}
  (hwrite : ∀ path f offset data, dir.path = some path → File f → G (.sys (.writeBlock (push path f.getName) offset data)))

include hwrite

theorem ok_getBlocksFrom {f : SyncFile} (hf : File f) (messageId : Int) : ∀ (blocks : List SyncBlock) (i : Nat),
    Ok (S := bep) G R (fun _ => True) (getBlocksFrom sha256 dir f messageId i blocks) := by
  intro blocks
  induction blocks with
  | nil => intro i; trivial
  | cons block rest ih =>
    intro i
    refine H.ask trivial fun message _ => ?_
    split <;> try trivial
    split <;> try trivial
    split
    · trivial
    split
    · trivial
    rename_i path hpath
    exact ⟨hwrite path f _ _ hpath hf, fun _ _ => ⟨H.record _ _ (H.fetched f hf), fun _ _ => ih _⟩⟩

theorem ok_getFile {f : SyncFile} (hf : File f) : Ok (S := bep) G R (fun _ => True) (getFile sha256 dir f) := by
  refine H.ask trivial fun messageId _ => ?_
  split
  · trivial
  · exact H.ok_getBlocksFrom sha256 hwrite hf messageId _ _

theorem ok_getFiles : ∀ files : List SyncFile, (∀ f ∈ files, File f) →
    Ok (S := bep) G R (fun _ => True) (getFiles sha256 dir files) := by
  intro files
  induction files with
  | nil => intro _; trivial
  | cons file files ih =>
    intro hx
    have hrest := ih fun f hf => hx f (List.mem_cons_of_mem _ hf)
    unfold getFiles
    split
    · trivial
    refine H.ask trivial fun present _ => ?_
    split
    · refine ok_bind (fun r _ => ?_) (H.ok_getFile sha256 hwrite (hx file List.mem_cons_self))
      cases r with
      | error e => trivial
      | ok _ => exact hrest
    · exact hrest

theorem ok_getDirectory : Ok (S := bep) G R (fun _ => True) (getDirectory sha256 dir) := by
  refine H.ask trivial fun index hindex => ?_
  refine ok_bind (fun r _ => ?_) (H.ok_getFiles sha256 hwrite index (H.read _ _ hindex))
  cases r with
  | error e => trivial
  | ok _ => exact H.ask trivial fun _ _ => trivial

end Rules

end BepRs.Sync
