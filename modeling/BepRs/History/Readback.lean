/-
  BepRs.History.Readback — what `get_sync_files` returns after `update_sync_file`.

  The call writes one record and leaves the others (`records_updateSyncFile`). The record
  it leaves has the written file's hash, author, synced version and, sorted by offset,
  blocks, through the casts to signed columns and back. Its history is the stored one with
  the tail of the file's beyond it, so it is the file's own exactly when the stored one is
  a prefix of it:
  - `readback_iff`: exactly when the written file is read back.
  - `readback_mixed`: the store a merge leaves when it is not.
-/

import BepRs.History.Merge

namespace BepRs.History

open BepRs.Lib BepRs.Lib.Path BepRs.Lib.Task BepRs.State BepRs.Sync

/-- A file read back shows what was written, its blocks ordered by offset. -/
def Shows (g f : SyncFile) : Prop :=
  g.getName = f.getName ∧ g.hash = f.hash ∧ g.modifiedBy = f.modifiedBy ∧ g.syncedVersion = f.syncedVersion ∧
    g.versions = f.versions ∧ g.blocks = Tables.sortBlocks f.blocks

instance (g f : SyncFile) : Decidable (Shows g f) := inferInstanceAs (Decidable (_ ∧ _))

/-- What is stored where the file is written goes on to be the file: its history is a
    prefix of the file's, and without new blocks there are no old ones. -/
def Extends (s : Store) (f : SyncFile) : Prop :=
  ((s.stored f).map Rec.versions).getD [] <+: f.versions ∧
    (f.blocks = [] → ((s.stored f).map Rec.blocks).getD [] = [])

theorem shows_write_iff {old : Option Rec} {id : Nat} {dir : SyncDirectory} {f : SyncFile}
    (hlen : ¬ f.versions.length < ((old.map Rec.versions).getD []).length) :
    Shows (Rec.write old id dir f).file f ↔
      (old.map Rec.versions).getD [] <+: f.versions ∧ (f.blocks = [] → (old.map Rec.blocks).getD [] = []) := by
  have hname : (Rec.write old id dir f).file.getName = f.getName := by
    rw [getName_eq]; show normal f.getName = _; rw [getName_eq, normal_normal]
  have hvs : (Rec.write old id dir f).file.versions = f.versions ↔ (old.map Rec.versions).getD [] <+: f.versions :=
    Chain.extend_eq_iff
  have hblocks : (Rec.write old id dir f).file.blocks = Tables.sortBlocks f.blocks ↔
      (f.blocks = [] → (old.map Rec.blocks).getD [] = []) := by
    show (if _ then _ else _) = _ ↔ _
    by_cases hb : f.blocks = []
    · simp [hb, Tables.sortBlocks]
    · simp [hlen, hb]
  constructor
  · rintro ⟨-, -, -, -, hv, hb⟩
    exact ⟨hvs.mp hv, hblocks.mp hb⟩
  · rintro ⟨hv, hb⟩
    exact ⟨hname, rfl, rfl, rfl, hvs.mpr hv, hblocks.mpr hb⟩

/-- After a call that returns, the folder's index has the written file, and every record of
    another row is as it was, exactly when what was stored goes on to be the file (or some
    other row of the folder shows it already). -/
theorem readback_iff (s : Store) (dir : SyncDirectory) (f : SyncFile)
    (hret : (s.updateSyncFile dir f).2 = some ()) :
    ((∃ files, (s.updateSyncFile dir f).1.getSyncFiles dir.id = some files ∧ ∃ g ∈ files, Shows g f) ∧
      ∀ r : Rec, r.id ≠ s.target f → (r ∈ (s.updateSyncFile dir f).1.records ↔ r ∈ s.records)) ↔
    Extends s f ∨ ∃ r ∈ s.records, r.folder = dir.id ∧ r.id ≠ s.target f ∧ Shows r.file f := by
  have hv : f.versions ≠ [] := by
    intro hv; rw [s.records_updateSyncFile_nil dir hv] at hret; cases hret
  have hlen : ¬ f.versions.length < (((s.stored f).map Rec.versions).getD []).length := by
    intro hlt
    rw [s.updateSyncFile_returns dir hv, if_pos (show f.versions.length < s.storedCount f from hlt)] at hret
    cases hret
  have hmem : ∀ r, r ∈ (s.updateSyncFile dir f).1.records ↔
      r = Rec.write (s.stored f) (s.target f) dir f ∨ (r ∈ s.records ∧ r.id ≠ s.target f) := by
    intro r; rw [s.records_updateSyncFile dir hv, Keyed.mem_upsert _ s.records_nodup]; rfl
  have hothers : ∀ r : Rec, r.id ≠ s.target f → (r ∈ (s.updateSyncFile dir f).1.records ↔ r ∈ s.records) := by
    intro r hr
    rw [hmem]
    constructor
    · rintro (rfl | h)
      · exact absurd rfl hr
      · exact h.1
    · exact fun h => Or.inr ⟨h, hr⟩
  have hindex : ∀ g, g ∈ (s.updateSyncFile dir f).1.index dir.id ↔
      ∃ r ∈ (s.updateSyncFile dir f).1.records, r.folder = dir.id ∧ r.file = g := by
    intro g; simp [Store.index, and_assoc]
  simp only [Store.getSyncFiles_eq, Option.some.injEq, exists_eq_left', hindex]
  constructor
  · rintro ⟨⟨g, ⟨r, hr, hfolder, rfl⟩, hshow⟩, -⟩
    rcases (hmem r).mp hr with rfl | ⟨hr, hid⟩
    · exact Or.inl ((shows_write_iff hlen).mp hshow)
    · exact Or.inr ⟨r, hr, hfolder, hid, hshow⟩
  · intro h
    refine ⟨?_, hothers⟩
    rcases h with h | ⟨r, hr, hfolder, hid, hshow⟩
    · exact ⟨_, ⟨_, (hmem _).mpr (Or.inl rfl), rfl, rfl⟩, (shows_write_iff hlen).mpr h⟩
    · exact ⟨_, ⟨r, (hmem r).mpr (Or.inr ⟨hr, hid⟩), hfolder, rfl⟩, hshow⟩

def nextFile : SyncFile := ⟨some 1, ['f'], fileHash2, 7, 1, [(7, 0), (7, 1)], [⟨0, 17, fileHash2⟩]⟩

theorem readback_next : (fileIndexed.store.updateSyncFile fileDir nextFile).2 = some () ∧
    ∃ files, (fileIndexed.store.updateSyncFile fileDir nextFile).1.getSyncFiles ['d'] = some files ∧
      ∃ g ∈ files, Shows g nextFile := by
  have hret : (fileIndexed.store.updateSyncFile fileDir nextFile).2 = some () := by decide +kernel
  have hsys : Extends fileIndexed.store nextFile := ⟨by decide +kernel, fun h => by cases h⟩
  exact ⟨hret, ((readback_iff fileIndexed.store fileDir nextFile hret).mpr (Or.inl hsys)).1⟩

/-- What `handle_index` writes for a history another node wrote on its own. -/
def divergentFile : SyncFile := ⟨some 1, ['f'], fileHash2, 0, 0, [(9, 0), (9, 1)], [⟨0, 11, fileHash2⟩]⟩

/-- The merge makes that one call, it returns, and nothing that is read back shows it: the
    history has the node's own first version before the peer's second. -/
theorem readback_mixed :
    (run nodeDo (handleIndex ['d'] [divergentInfo]) fileIndexed).1.store.toTables =
      (fileIndexed.store.updateSyncFile fileDir divergentFile).1.toTables ∧
    (fileIndexed.store.updateSyncFile fileDir divergentFile).2 = some () ∧
    (¬ ∃ files, (fileIndexed.store.updateSyncFile fileDir divergentFile).1.getSyncFiles ['d'] = some files ∧
      ∃ g ∈ files, Shows g divergentFile) ∧
    (fileIndexed.store.updateSyncFile fileDir divergentFile).1.records.map Rec.versions = [[(7, 0), (9, 1)]] := by
  refine ⟨by decide +kernel, by decide +kernel, ?_, by decide +kernel⟩
  rw [Store.getSyncFiles_eq]
  rintro ⟨files, hfiles, hshow⟩
  obtain rfl := Option.some.inj hfiles
  revert hshow
  decide +kernel

end BepRs.History
