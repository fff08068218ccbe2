/-
  BepRs.State.Atomic — what a call of `update_sync_file` that panics leaves.

  The call checks twice before it inserts versions: that the file has one, before it
  writes anything, and that no more are stored already, after the file's row was written.
  A call that stops at the second check keeps the new row over the old versions and
  blocks, so it is all or nothing exactly when that row was there before
  (`updateSyncFile_atomic_iff`).
-/

import BepRs.State.Update

namespace BepRs.State

open BepRs.Lib BepRs.Lib.Path

namespace Tables

variable (t : Tables)

/-- The row of `sync_files` a call writes. -/
def writtenRow (dir : SyncDirectory) (file : SyncFile) : FileRow where
  id := t.target file
  name := file.getName
  modifiedBy := fromU64 file.modifiedBy
  syncedVersionId := fromU64 file.syncedVersion
  hash := some file.hash
  folderId := dir.id

/-- The three tables of the files are those of the other tables. -/
def SameFiles (t u : Tables) : Prop := t.files = u.files ∧ t.versions = u.versions ∧ t.blocks = u.blocks

instance (t u : Tables) : Decidable (SameFiles t u) := inferInstanceAs (Decidable (_ ∧ _ ∧ _))

/-- A call that refuses writes the row and nothing else. -/
theorem updateSyncFile_refused (dir : SyncDirectory) {file : SyncFile} (hv : file.versions ≠ []) (hr : t.Refuses file) :
    t.updateSyncFile dir file = (t.upsertFile dir file, none) := by
  have hlt : file.versions.length < (t.upsertFile dir file).storedVersions (t.target file) := hr
  unfold updateSyncFile
  rw [if_neg hv]
  simp only
  rw [if_pos hlt]

end Tables

theorem updateSyncFile_atomic_iff (s : Store) (dir : SyncDirectory) (f : SyncFile) :
    ((s.updateSyncFile dir f).2 = none → Tables.SameFiles (s.updateSyncFile dir f).1.toTables s.toTables) ↔
      f.versions = [] ∨ ¬ s.Refuses f ∨ s.writtenRow dir f ∈ s.files := by
  by_cases hv : f.versions = []
  · rw [s.records_updateSyncFile_nil dir hv]
    exact ⟨fun _ => Or.inl hv, fun _ _ => ⟨rfl, rfl, rfl⟩⟩
  by_cases hr : s.Refuses f
  · have hcall := s.toTables.updateSyncFile_refused dir hv hr
    have htables : (s.updateSyncFile dir f).1.toTables = s.upsertFile dir f := congrArg Prod.fst hcall
    have hret : (s.updateSyncFile dir f).2 = none := congrArg Prod.snd hcall
    have hrow : Keyed.upsert FileRow.id (s.writtenRow dir f) s.files = s.files ↔ s.writtenRow dir f ∈ s.files :=
      Keyed.upsert_eq_self_iff FileRow.id s.sound.ids_nodup
    rw [htables]
    constructor
    · intro h
      exact Or.inr (Or.inr (hrow.mp (h hret).1))
    · rintro (h | h | h)
      · exact absurd h hv
      · exact absurd hr h
      · exact fun _ => ⟨hrow.mpr h, rfl, rfl⟩
  · have hret : (s.updateSyncFile dir f).2 = some () := by
      rw [s.updateSyncFile_returns dir hv, if_neg fun hlt => hr ((s.refuses_iff f).mpr hlt)]
    constructor
    · intro _
      exact Or.inr (Or.inl hr)
    · intro _ hnone
      rw [hret] at hnone
      cases hnone

/-- A file with two versions, and the same one as it was read when it had the first. -/
def storedTwice : SyncFile := ⟨some 1, ['f'], [2], 7, 1, [(7, 0), (7, 1)], [⟨0, 1, [2]⟩]⟩

def readBefore : SyncFile := ⟨some 1, ['f'], [1], 7, 0, [(7, 0)], [⟨0, 1, [1]⟩]⟩

theorem updateSyncFile_not_atomic :
    let dir : SyncDirectory := ⟨['d'], ['d'], none⟩
    let s := ((Store.empty [⟨['d'], ['d'], none⟩] [] [] 7).updateSyncFile dir storedTwice).1
    (s.updateSyncFile dir readBefore).2 = none ∧ ¬ Tables.SameFiles (s.updateSyncFile dir readBefore).1.toTables s.toTables := by
  decide +kernel

end BepRs.State
