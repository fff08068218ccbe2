/-
  BepRs.State.Update — what a call of `update_sync_file` does, as one record replaced.

  A `Store` is tables that only the program wrote (`Tables.Sound`): one row of
  `sync_files` per id (its primary key), every row with a hash, a name in `get_name`'s
  form and at least one version, and no version or block of a row that does not exist.
  Every call keeps this, also one that panics midway (`sound_updateSyncFile`).

  The three tables together are a list of records (`Rec`, one per row of `sync_files`),
  and `get_sync_files` returns a folder's records (`getSyncFiles_eq`). On records the
  call is an upsert of one record (`records_updateSyncFile`): its versions are the stored
  ones with the tail of the new ones beyond their number, its blocks the new ones unless
  there are none or the call panicked, everything else the new file's.
-/

import BepRs.Lib.Chain
import BepRs.State.Model

namespace BepRs.State

open BepRs.Lib BepRs.Lib.Path

/-! ## The tables after a call -/

namespace Tables

variable (t : Tables)

/-- The call stops at its assertion: more versions are stored than the file has. -/
def Refuses (file : SyncFile) : Prop := file.versions.length < t.storedVersions (t.target file)

instance (file : SyncFile) : Decidable (t.Refuses file) := inferInstanceAs (Decidable (_ < _))

/-- The tables with the row written and the versions appended. -/
def withVersions (dir : SyncDirectory) (file : SyncFile) : Tables :=
  (t.upsertFile dir file).insertVersions (t.target file) (file.versions.drop (t.storedVersions (t.target file)))

@[simp] theorem length_getVersions (id : Nat) : (t.getVersions id).length = t.storedVersions id := by
  simp [getVersions, storedVersions]

theorem getVersions_insertVersions (id j : Nat) (vs : List Version) :
    (t.insertVersions id vs).getVersions j = t.getVersions j ++ if j = id then vs else [] := by
  by_cases h : j = id
  · subst h
    simp [getVersions, insertVersions, List.filter_append, List.filter_map, Function.comp_def]
  · simp [getVersions, insertVersions, List.filter_append, List.filter_map, Function.comp_def, h, Ne.symm h]

theorem getVersions_withVersions (dir : SyncDirectory) (file : SyncFile) (j : Nat) :
    (t.withVersions dir file).getVersions j = t.getVersions j ++
      if j = t.target file then file.versions.drop (t.getVersions (t.target file)).length else [] := by
  rw [withVersions, getVersions_insertVersions, length_getVersions]
  rfl

theorem getVersions_target_ne_nil (dir : SyncDirectory) {file : SyncFile} (hv : file.versions ≠ []) :
    (t.withVersions dir file).getVersions (t.target file) ≠ [] := by
  intro he
  rw [getVersions_withVersions, if_pos rfl] at he
  have hlen := congrArg List.length he
  have hpos := List.length_pos_iff.mpr hv
  simp at hlen
  omega

def sortBlocks (bs : List SyncBlock) : List SyncBlock := bs.insertionSort (·.offset ≤ ·.offset)

theorem getBlocks_replaceBlocks (id j : Nat) (bs : List SyncBlock) :
    (t.replaceBlocks id bs).getBlocks j = if j = id then sortBlocks bs else t.getBlocks j := by
  unfold getBlocks replaceBlocks sortBlocks
  by_cases h : j = id
  · subst h
    have hold : ((t.blocks.filter (·.syncFileId ≠ j)).filter fun b => decide (b.syncFileId = j)) = [] :=
      List.filter_eq_nil_iff.mpr fun b hb => by simpa using (List.mem_filter.mp hb).2
    rw [if_pos rfl, List.filter_append, hold, List.nil_append, List.filter_map]
    simp only [Function.comp_def, decide_true, List.filter_true]
    rw [List.map_insertionSort (fun a b : BlockRow => a.offset ≤ b.offset) (fun a b : SyncBlock => a.offset ≤ b.offset)]
    · simp [Function.comp_def]
    · intro a _ b _; exact Iff.rfl
  · rw [if_neg h, List.filter_append, List.filter_filter, List.filter_map]
    have hnew : (bs.filter fun _ => decide (id = j)) = [] := by simp [Ne.symm h]
    have hkeep : (t.blocks.filter fun b => decide (b.syncFileId = j) && decide (b.syncFileId ≠ id)) =
        t.blocks.filter fun b => decide (b.syncFileId = j) :=
      List.filter_congr fun b _ => by by_cases hb : b.syncFileId = j <;> simp [hb, h]
    simp only [Function.comp_def, hnew, List.map_nil, List.append_nil]
    rw [hkeep]

/-- Everything a call on a file with versions leaves. -/
theorem updateSyncFile_eq (dir : SyncDirectory) {file : SyncFile} (hv : file.versions ≠ []) :
    t.updateSyncFile dir file =
      (if t.Refuses file ∨ file.blocks = [] then t.withVersions dir file
        else (t.withVersions dir file).replaceBlocks (t.target file) file.blocks,
        if t.Refuses file then none else some ()) := by
  have hstored : (t.upsertFile dir file).storedVersions (t.target file) = t.storedVersions (t.target file) := rfl
  have hins : ∀ u : Tables, u.insertVersions (t.target file) [] = u := fun u => by simp [insertVersions]
  unfold updateSyncFile
  simp only [hv, if_false, hstored]
  by_cases hr : t.Refuses file
  · have hdrop : file.versions.drop (t.storedVersions (t.target file)) = [] :=
      List.drop_eq_nil_of_le (Nat.le_of_lt hr)
    have hr' : file.versions.length < t.storedVersions (t.target file) := hr
    simp [hr, hr', withVersions, hdrop, hins]
  · have hr' : ¬ file.versions.length < t.storedVersions (t.target file) := hr
    have happ : (if t.storedVersions (t.target file) < file.versions.length then
        (t.upsertFile dir file).insertVersions (t.target file) (file.versions.drop (t.storedVersions (t.target file)))
        else t.upsertFile dir file) = t.withVersions dir file := by
      split
      · rfl
      · rw [withVersions, List.drop_eq_nil_of_le (by omega), hins]
    have hne := t.getVersions_target_ne_nil dir hv
    have hne' : ((t.withVersions dir file).replaceBlocks (t.target file) file.blocks).getVersions (t.target file) ≠ [] :=
      hne
    by_cases hb : file.blocks = []
    · simp only [hr, hr', happ, hb, hne, if_false, if_true, or_true]
    · simp only [hr, hr', happ, hb, hne', if_false, or_false]

theorem updateSyncFile_nil (dir : SyncDirectory) {file : SyncFile} (hv : file.versions = []) :
    t.updateSyncFile dir file = (t, none) := by
  simp [updateSyncFile, hv]

/-! ## Stores -/

structure Sound : Prop where
  ids_nodup : (t.files.map FileRow.id).Nodup
  named : ∀ r ∈ t.files, normal r.name = r.name
  hashed : ∀ r ∈ t.files, r.hash.isSome = true
  versioned : ∀ r ∈ t.files, t.getVersions r.id ≠ []
  versions_ref : ∀ v ∈ t.versions, v.syncFileId ∈ t.files.map FileRow.id
  blocks_ref : ∀ b ∈ t.blocks, b.syncFileId ∈ t.files.map FileRow.id

variable {t}

theorem sound_withVersions (h : t.Sound) (dir : SyncDirectory) {file : SyncFile} (hv : file.versions ≠ []) :
    (t.withVersions dir file).Sound := by
  have hmem : ∀ r ∈ (t.withVersions dir file).files, r.id = t.target file ∧ r.hash.isSome = true ∧
      normal r.name = r.name ∨ r ∈ t.files := by
    intro r hr
    rcases (Keyed.mem_upsert _ h.ids_nodup).mp hr with rfl | ⟨hr, -⟩
    · exact Or.inl ⟨rfl, rfl, by simp only [getName_eq, normal_normal]⟩
    · exact Or.inr hr
  have hids : ∀ k, k ∈ (t.withVersions dir file).files.map FileRow.id ↔ k ∈ t.files.map FileRow.id ∨ k = t.target file :=
    fun k => Keyed.mem_key_upsert _
  refine ⟨Keyed.nodup_upsert _ h.ids_nodup _, fun r hr => ?_, fun r hr => ?_, fun r hr => ?_, fun v hv' => ?_,
    fun b hb => (hids _).mpr (Or.inl (h.blocks_ref b hb))⟩
  · rcases hmem r hr with ⟨-, -, hn⟩ | hr
    · exact hn
    · exact h.named r hr
  · rcases hmem r hr with ⟨-, hh, -⟩ | hr
    · exact hh
    · exact h.hashed r hr
  · rcases hmem r hr with ⟨hid, -⟩ | hr
    · rw [hid]; exact t.getVersions_target_ne_nil dir hv
    · rw [getVersions_withVersions]
      exact fun he => h.versioned r hr (List.append_eq_nil_iff.mp he).1
  · rcases List.mem_append.mp hv' with hv' | hv'
    · exact (hids _).mpr (Or.inl (h.versions_ref v hv'))
    · obtain ⟨x, -, rfl⟩ := List.mem_map.mp hv'
      exact (hids _).mpr (Or.inr rfl)

/-- A call leaves sound tables, whether it returns or panics. -/
theorem sound_updateSyncFile (h : t.Sound) (dir : SyncDirectory) (file : SyncFile) :
    (t.updateSyncFile dir file).1.Sound := by
  by_cases hv : file.versions = []
  · rw [updateSyncFile_nil _ _ hv]; exact h
  rw [updateSyncFile_eq _ _ hv]
  have h1 := sound_withVersions h dir hv
  simp only
  split
  · exact h1
  · refine ⟨h1.ids_nodup, h1.named, h1.hashed, h1.versioned, h1.versions_ref, fun b hb => ?_⟩
    rcases List.mem_append.mp hb with hb | hb
    · exact h1.blocks_ref b (List.mem_filter.mp hb).1
    · obtain ⟨x, -, rfl⟩ := List.mem_map.mp hb
      exact (Keyed.mem_key_upsert _).mpr (Or.inr rfl)

end Tables

structure Store extends Tables where
  sound : toTables.Sound

namespace Store

theorem ext_tables {s s' : Store} (h : s.toTables = s'.toTables) : s = s' := by
  cases s; cases s'; cases h; rfl

/-- A node's tables before anything was indexed. -/
def empty (folders : List FolderRow) (peers : List Peer) (shares : List FolderShare) (shortId : UInt64) : Store where
  toTables := ⟨folders, peers, shares, [], [], [], shortId⟩
  sound := ⟨List.nodup_nil, by simp, by simp, by simp, by simp, by simp⟩

def updateSyncFile (s : Store) (dir : SyncDirectory) (file : SyncFile) : Store × Option Unit :=
  let r := s.toTables.updateSyncFile dir file
  (⟨r.1, Tables.sound_updateSyncFile s.sound dir file⟩, r.2)

end Store

/-! ## Records -/

/-- What the three tables hold for one row of `sync_files`. -/
structure Rec where
  id : Nat
  folder : Text
  name : Text
  hash : Bytes
  modifiedBy : UInt64
  synced : UInt64
  versions : List Version
  blocks : List SyncBlock
  deriving DecidableEq, Repr

def Rec.file (r : Rec) : SyncFile := ⟨some r.id, r.name, r.hash, r.modifiedBy, r.synced, r.versions, r.blocks⟩

/-- The record of a file written over what was stored under its id. -/
def Rec.write (old : Option Rec) (id : Nat) (dir : SyncDirectory) (f : SyncFile) : Rec :=
  let stored := (old.map Rec.versions).getD []
  { id := id
    folder := dir.id
    name := f.getName
    hash := f.hash
    modifiedBy := f.modifiedBy
    synced := f.syncedVersion
    versions := Chain.extend stored f.versions
    blocks := if f.versions.length < stored.length ∨ f.blocks = [] then (old.map Rec.blocks).getD []
      else Tables.sortBlocks f.blocks }

def Tables.recordOf (t : Tables) (x : FileRow) : Rec :=
  ⟨x.id, x.folderId, x.name, x.hash.getD [], fromI64 x.modifiedBy, fromI64 x.syncedVersionId, t.getVersions x.id,
    t.getBlocks x.id⟩

namespace Store

variable (s : Store)

def records : List Rec := s.files.map s.recordOf

/-- The records of a folder, as `get_sync_files` returns them. -/
def index (dirId : Text) : List SyncFile := (s.records.filter (·.folder = dirId)).map Rec.file

theorem map_id_records : s.records.map Rec.id = s.files.map FileRow.id := by
  rw [records, List.map_map]; rfl

theorem records_nodup : (s.records.map Rec.id).Nodup := by rw [map_id_records]; exact s.sound.ids_nodup

theorem getSyncFiles_eq (dirId : Text) : s.getSyncFiles dirId = some (s.index dirId) := by
  have hread : ∀ x ∈ s.files, s.readFile x = some (s.recordOf x).file := by
    intro x hx
    obtain ⟨h, hh⟩ := Option.isSome_iff_exists.mp (s.sound.hashed x hx)
    have hv := s.sound.versioned x hx
    simp [Tables.readFile, hh, hv, Tables.recordOf, Rec.file]
  have hall : ∀ l : List FileRow, (∀ x ∈ l, x ∈ s.files) →
      l.mapM s.readFile = some (l.map fun x => (s.recordOf x).file) := by
    intro l
    induction l with
    | nil => intro _; rfl
    | cons x l ih =>
      intro hl
      rw [List.mapM_cons, hread x (hl x List.mem_cons_self), ih fun y hy => hl y (List.mem_cons_of_mem _ hy)]
      rfl
  rw [Tables.getSyncFiles, hall _ fun x hx => (List.mem_filter.mp hx).1, index, records, List.filter_map, List.map_map]
  rfl

/-- What is stored under the id a file is written to. -/
def stored (f : SyncFile) : Option Rec := Keyed.row Rec.id (s.target f) s.records

theorem getVersions_of_not_mem {k : Nat} (h : k ∉ s.files.map FileRow.id) : s.getVersions k = [] := by
  rw [Tables.getVersions, List.filter_eq_nil_iff.mpr, List.map_nil]
  intro v hv
  have := s.sound.versions_ref v hv
  rintro he
  exact h (by simpa [of_decide_eq_true he] using this)

theorem getBlocks_of_not_mem {k : Nat} (h : k ∉ s.files.map FileRow.id) : s.getBlocks k = [] := by
  rw [Tables.getBlocks, List.filter_eq_nil_iff.mpr]
  · rfl
  intro b hb
  have := s.sound.blocks_ref b hb
  rintro he
  exact h (by simpa [of_decide_eq_true he] using this)

theorem stored_versions (f : SyncFile) : ((s.stored f).map Rec.versions).getD [] = s.getVersions (s.target f) := by
  cases h : s.stored f with
  | none =>
    have := (Keyed.row_none _).mp h
    rw [map_id_records] at this
    rw [s.getVersions_of_not_mem this]; rfl
  | some r =>
    obtain ⟨hr, hid⟩ := Keyed.row_some _ h
    obtain ⟨x, -, rfl⟩ := List.mem_map.mp hr
    rw [← hid]; rfl

theorem stored_blocks (f : SyncFile) : ((s.stored f).map Rec.blocks).getD [] = s.getBlocks (s.target f) := by
  cases h : s.stored f with
  | none =>
    have := (Keyed.row_none _).mp h
    rw [map_id_records] at this
    rw [s.getBlocks_of_not_mem this]; rfl
  | some r =>
    obtain ⟨hr, hid⟩ := Keyed.row_some _ h
    obtain ⟨x, -, rfl⟩ := List.mem_map.mp hr
    rw [← hid]; rfl

/-- The number of versions stored where a file is written to. -/
def storedCount (f : SyncFile) : Nat := (((s.stored f).map Rec.versions).getD []).length

theorem refuses_iff (f : SyncFile) : s.Refuses f ↔ f.versions.length < s.storedCount f := by
  rw [storedCount, stored_versions, Tables.length_getVersions]; rfl

/-- On records, a call is the upsert of one record. -/
theorem records_updateSyncFile (dir : SyncDirectory) {f : SyncFile} (hv : f.versions ≠ []) :
    (s.updateSyncFile dir f).1.records =
      Keyed.upsert Rec.id (Rec.write (s.stored f) (s.target f) dir f) s.records := by
  obtain ⟨t', ht', hfiles, hversions, hblocks⟩ : ∃ t', (s.updateSyncFile dir f).1.toTables = t' ∧
      t'.files = (s.upsertFile dir f).files ∧
      (∀ j, t'.getVersions j = s.getVersions j ++
        if j = s.target f then f.versions.drop (s.getVersions (s.target f)).length else []) ∧
      (∀ j, t'.getBlocks j = if j = s.target f ∧ ¬ (s.Refuses f ∨ f.blocks = []) then Tables.sortBlocks f.blocks
        else s.getBlocks j) := by
    refine ⟨_, rfl, ?_⟩
    show (s.toTables.updateSyncFile dir f).1.files = _ ∧ (∀ j, (s.toTables.updateSyncFile dir f).1.getVersions j = _) ∧
      ∀ j, (s.toTables.updateSyncFile dir f).1.getBlocks j = _
    rw [Tables.updateSyncFile_eq _ _ hv]
    simp only
    by_cases hr : s.Refuses f ∨ f.blocks = []
    · rw [if_pos hr]
      exact ⟨rfl, fun j => s.getVersions_withVersions dir f j, fun j => by simp only [hr, not_true, and_false, if_false]; rfl⟩
    · rw [if_neg hr]
      refine ⟨rfl, fun j => s.getVersions_withVersions dir f j, fun j => ?_⟩
      rw [Tables.getBlocks_replaceBlocks]
      simp only [hr, not_false_iff, and_true]; rfl
  have hrec : (s.updateSyncFile dir f).1.records = t'.files.map t'.recordOf := by rw [← ht']; rfl
  rw [hrec, hfiles, records]
  have hkey := Keyed.map_upsert FileRow.id Rec.id (f := s.recordOf) (g := t'.recordOf) (l := s.files)
    (x := ⟨s.target f, f.getName, fromU64 f.modifiedBy, fromU64 f.syncedVersion, some f.hash, dir.id⟩)
    s.sound.ids_nodup (fun _ _ => rfl) rfl fun y _ hy => by
      simp only [Tables.recordOf, hversions, hblocks, show ¬ y.id = s.target f from hy, if_false, List.append_nil,
        false_and]
  refine hkey.trans ?_
  congr 1
  simp only [Tables.recordOf, Rec.write, Chain.extend, hversions, hblocks, stored_versions, stored_blocks, fromI64_fromU64,
    Option.getD_some, if_true, true_and, Tables.Refuses, Tables.length_getVersions]
  congr 1
  by_cases hr : f.versions.length < s.storedVersions (s.target f) ∨ f.blocks = [] <;> simp [hr]

theorem records_updateSyncFile_nil (dir : SyncDirectory) {f : SyncFile} (hv : f.versions = []) :
    s.updateSyncFile dir f = (s, none) := by
  refine Prod.ext (ext_tables ?_) ?_
  · show (s.toTables.updateSyncFile dir f).1 = _
    rw [Tables.updateSyncFile_nil _ _ hv]
  · show (s.toTables.updateSyncFile dir f).2 = _
    rw [Tables.updateSyncFile_nil _ _ hv]

/-- A call on a file with versions returns unless more versions are stored already. -/
theorem updateSyncFile_returns (dir : SyncDirectory) {f : SyncFile} (hv : f.versions ≠ []) :
    (s.updateSyncFile dir f).2 = if f.versions.length < s.storedCount f then none else some () := by
  show (s.toTables.updateSyncFile dir f).2 = _
  rw [Tables.updateSyncFile_eq _ _ hv]
  simp only [refuses_iff]

/-- A call touches the files' three tables only. -/
theorem updateSyncFile_frame (dir : SyncDirectory) (f : SyncFile) :
    (s.updateSyncFile dir f).1.folders = s.folders ∧ (s.updateSyncFile dir f).1.peers = s.peers ∧
      (s.updateSyncFile dir f).1.shares = s.shares ∧ (s.updateSyncFile dir f).1.shortId = s.shortId := by
  by_cases hv : f.versions = []
  · rw [s.records_updateSyncFile_nil dir hv]; exact ⟨rfl, rfl, rfl, rfl⟩
  · show (s.toTables.updateSyncFile dir f).1.folders = _ ∧ (s.toTables.updateSyncFile dir f).1.peers = _ ∧
      (s.toTables.updateSyncFile dir f).1.shares = _ ∧ (s.toTables.updateSyncFile dir f).1.shortId = _
    rw [Tables.updateSyncFile_eq _ _ hv]
    simp only
    split <;> exact ⟨rfl, rfl, rfl, rfl⟩

/-- The records of the other rows are the ones that were there. -/
theorem mem_updateSyncFile_of_ne (dir : SyncDirectory) {f : SyncFile} {r : Rec} (hne : r.id ≠ s.target f) :
    r ∈ (s.updateSyncFile dir f).1.records ↔ r ∈ s.records := by
  by_cases hv : f.versions = []
  · rw [s.records_updateSyncFile_nil dir hv]
  · rw [s.records_updateSyncFile dir hv, Keyed.mem_upsert _ s.records_nodup]
    constructor
    · intro h
      rcases h with h | h
      · exact absurd (congrArg Rec.id h) hne
      · exact h.1
    · intro h
      exact Or.inr ⟨h, hne⟩

theorem mem_updateSyncFile_cases (dir : SyncDirectory) {f : SyncFile} {r : Rec}
    (h : r ∈ (s.updateSyncFile dir f).1.records) : r ∈ s.records ∨ r = Rec.write (s.stored f) (s.target f) dir f := by
  by_cases hv : f.versions = []
  · rw [s.records_updateSyncFile_nil dir hv] at h; exact Or.inl h
  · rw [s.records_updateSyncFile dir hv, Keyed.mem_upsert _ s.records_nodup] at h
    rcases h with h | h
    · exact Or.inr h
    · exact Or.inl h.1

/-- The written row's record. -/
theorem mem_updateSyncFile_target (dir : SyncDirectory) {f : SyncFile} (hv : f.versions ≠ []) {r : Rec}
    (hid : r.id = s.target f) :
    r ∈ (s.updateSyncFile dir f).1.records ↔ r = Rec.write (s.stored f) (s.target f) dir f := by
  rw [s.records_updateSyncFile dir hv, Keyed.mem_upsert _ s.records_nodup]
  constructor
  · intro h
    rcases h with h | h
    · exact h
    · exact absurd hid h.2
  · exact Or.inl

/-! ## Looking a record up -/

theorem name_normal {r : Rec} (hr : r ∈ s.records) : normal r.name = r.name := by
  obtain ⟨x, hx, rfl⟩ := List.mem_map.mp hr
  exact s.sound.named x hx

theorem versions_ne_nil {r : Rec} (hr : r ∈ s.records) : r.versions ≠ [] := by
  obtain ⟨x, hx, rfl⟩ := List.mem_map.mp hr
  exact s.sound.versioned x hx

/-- The blocks of a record are ordered by offset. -/
theorem sortBlocks_blocks {r : Rec} (hr : r ∈ s.records) : Tables.sortBlocks r.blocks = r.blocks := by
  obtain ⟨x, -, hx⟩ := List.mem_map.mp hr
  subst hx
  refine List.Pairwise.insertionSort_eq (List.pairwise_map.mpr ?_)
  have : IsTrans BlockRow (·.offset ≤ ·.offset) := ⟨fun _ _ _ => Int.le_trans⟩
  have : Std.Total (α := BlockRow) (·.offset ≤ ·.offset) := ⟨fun _ _ => Int.le_total _ _⟩
  exact List.pairwise_insertionSort _ _

theorem getName_file {r : Rec} (hr : r ∈ s.records) : r.file.getName = r.name := by
  rw [getName_eq]; exact s.name_normal hr

theorem stored_of_mem {r : Rec} (hr : r ∈ s.records) {f : SyncFile} (hf : f.id = some r.id) :
    s.target f = r.id ∧ s.stored f = some r := by
  have ht : s.target f = r.id := by rw [Tables.target, hf]; rfl
  exact ⟨ht, by rw [stored, ht]; exact Keyed.row_of_mem _ s.records_nodup hr⟩

theorem target_new {f : SyncFile} (hf : f.id = none) : s.target f ∉ s.records.map Rec.id := by
  rw [Tables.target, hf, map_id_records]; exact Keyed.fresh_not_mem _

/-- A write to a new row leaves every record. -/
theorem mem_updateSyncFile_new (dir : SyncDirectory) {f : SyncFile} (hf : f.id = none) {r : Rec} (hr : r ∈ s.records) :
    r ∈ (s.updateSyncFile dir f).1.records := by
  refine (s.mem_updateSyncFile_of_ne dir fun he => s.target_new hf ?_).mpr hr
  rw [← he]; exact List.mem_map_of_mem hr

theorem stored_new {f : SyncFile} (hf : f.id = none) : s.stored f = none := (Keyed.row_none _).mpr (s.target_new hf)

/-- The first record of a name in a folder. -/
def lookup (dirId name : Text) : Option Rec := s.records.find? fun r => r.folder = dirId ∧ r.name = name

theorem lookup_some {dirId name : Text} {r : Rec} (h : s.lookup dirId name = some r) :
    r ∈ s.records ∧ r.folder = dirId ∧ r.name = name :=
  ⟨List.mem_of_find?_eq_some h, by simpa using List.find?_some h⟩

theorem lookup_none {dirId name : Text} (h : s.lookup dirId name = none) :
    ∀ r ∈ s.records, r.folder = dirId → r.name ≠ name := by
  intro r hr hf hn
  exact List.find?_eq_none.mp h r hr (by simp [hf, hn])

/-- A write over the record of a name, under the name. -/
theorem lookup_over {dir : SyncDirectory} {f : SyncFile} {name : Text} {r : Rec} (hl : s.lookup dir.id name = some r)
    (hid : f.id = some r.id) (hname : f.getName = name) (hv : f.versions ≠ []) :
    (s.updateSyncFile dir f).1.lookup dir.id name = some (Rec.write (some r) r.id dir f) := by
  obtain ⟨htarget, hstored⟩ := s.stored_of_mem (s.lookup_some hl).1 hid
  rw [lookup, s.records_updateSyncFile dir hv, hstored, htarget]
  have hkey : (Rec.write (some r) r.id dir f).id = r.id := rfl
  exact Keyed.find?_upsert Rec.id hkey (by simp [Rec.write, hname]) s.records_nodup hl

/-- A write to a new row, under a name without one. -/
theorem lookup_added {dir : SyncDirectory} {f : SyncFile} {name : Text} (hl : s.lookup dir.id name = none)
    (hid : f.id = none) (hname : f.getName = name) (hv : f.versions ≠ []) :
    (s.updateSyncFile dir f).1.lookup dir.id name = some (Rec.write none (s.target f) dir f) := by
  have hnew : (Rec.write none (s.target f) dir f).id ∉ s.records.map Rec.id := s.target_new hid
  rw [lookup] at hl ⊢
  rw [s.records_updateSyncFile dir hv, s.stored_new hid, Keyed.upsert_of_not_mem _ hnew, List.find?_append, hl]
  simp [Rec.write, hname]

/-- A write over a record of another name or folder, or to such a new row. -/
theorem lookup_beside {dir : SyncDirectory} {f : SyncFile} {dirId name : Text} (hnew : ¬ (dir.id = dirId ∧ f.getName = name))
    (hold : ∀ r, s.stored f = some r → ¬ (r.folder = dirId ∧ r.name = name)) :
    (s.updateSyncFile dir f).1.lookup dirId name = s.lookup dirId name := by
  by_cases hv : f.versions = []
  · rw [s.records_updateSyncFile_nil dir hv]
  · rw [lookup, lookup, ← List.head?_filter, ← List.head?_filter, s.records_updateSyncFile dir hv,
      Keyed.filter_upsert_of_neg]
    · rw [decide_eq_false_iff_not]; exact hnew
    · intro y hy hyid
      have hrow : s.stored f = some y := by
        rw [stored, ← show y.id = s.target f from hyid]; exact Keyed.row_of_mem _ s.records_nodup hy
      rw [decide_eq_false_iff_not]; exact hold y hrow

/-- Finding a name in the index `get_sync_files` returns. -/
theorem find?_index (dirId name : Text) :
    (s.index dirId).find? (fun x => x.getName = name) = (s.lookup dirId name).map Rec.file := by
  have hall : ∀ l : List Rec, (∀ r ∈ l, r ∈ s.records) →
      ((l.filter (·.folder = dirId)).map Rec.file).find? (fun x => x.getName = name) =
        (l.find? fun r => r.folder = dirId ∧ r.name = name).map Rec.file := by
    intro l
    induction l with
    | nil => intro _; rfl
    | cons r l ih =>
      intro hl
      have hrest := ih fun x hx => hl x (List.mem_cons_of_mem _ hx)
      have hname := s.getName_file (hl r List.mem_cons_self)
      by_cases hf : r.folder = dirId
      · by_cases hn : r.name = name
        · simp [hf, hname, hn]
        · simp [hf, hname, hn, hrest]
      · simp [hf, hrest]
  exact hall s.records fun _ h => h

/-- At most one record of each name in a folder. -/
def Single (dirId : Text) : Prop :=
  ∀ r ∈ s.records, ∀ r' ∈ s.records, r.folder = dirId → r'.folder = dirId → r.name = r'.name → r = r'

variable {s} in
theorem Single.lookup {dirId : Text} (h : s.Single dirId) {r : Rec} (hr : r ∈ s.records) (hf : r.folder = dirId) :
    s.lookup dirId r.name = some r := by
  cases hl : s.lookup dirId r.name with
  | none => exact absurd rfl (s.lookup_none hl r hr hf)
  | some r' =>
    obtain ⟨hr', hf', hn'⟩ := s.lookup_some hl
    rw [h r' hr' r hr hf' hf hn']

variable {s} in
/-- A write to the row that all rows of the name are. -/
theorem Single.update {dirId : Text} (h : s.Single dirId) (dir : SyncDirectory) {f : SyncFile}
    (hown : ∀ r ∈ s.records, r.folder = dir.id → r.name = f.getName → r.id = s.target f) :
    (s.updateSyncFile dir f).1.Single dirId := by
  by_cases hv : f.versions = []
  · rw [s.records_updateSyncFile_nil dir hv]; exact h
  · intro r hr r' hr' hf hf' hn
    rw [s.records_updateSyncFile dir hv, Keyed.mem_upsert _ s.records_nodup] at hr hr'
    rcases hr with hr | ⟨hr, hid⟩ <;> rcases hr' with hr' | ⟨hr', hid'⟩
    · rw [hr, hr']
    · subst hr
      exact absurd (hown r' hr' (hf'.trans hf.symm) hn.symm) hid'
    · subst hr'
      exact absurd (hown r hr (hf.trans hf'.symm) hn) hid
    · exact h r hr r' hr' hf hf' hn

variable {s} in
theorem Single.nodup_names {dirId : Text} (h : s.Single dirId) : ((s.index dirId).map SyncFile.getName).Nodup := by
  rw [index, List.map_map]
  refine List.Nodup.map_on (fun r hr r' hr' hn => ?_) ((List.Nodup.of_map Rec.id s.records_nodup).filter _)
  obtain ⟨hr, hf⟩ := List.mem_filter.mp hr
  obtain ⟨hr', hf'⟩ := List.mem_filter.mp hr'
  refine h r hr r' hr' (by simpa using hf) (by simpa using hf') ?_
  rw [← s.getName_file hr, ← s.getName_file hr']; exact hn

end Store

end BepRs.State
