/-
  BepRs.History.Names — a file's name from the path it is stored under to the message it is
  sent in.

  `get_name` of the path that is a name returns the name, so every record keeps its name
  when it is read, compared with the name of an announced file, and sent. Nothing is asked
  of the path: `.`, `..` and slashes too many only change which name it has.
-/

import BepRs.History.Agreement

namespace BepRs.History

open BepRs.Lib BepRs.Lib.Path BepRs.Lib.Task BepRs.State BepRs.Sync

variable (sha256 : Bytes → Bytes)

theorem getName_getName (f : SyncFile) : SyncFile.getName { f with path := f.getName } = f.getName := by
  rw [getName_eq, getName_eq, normal_normal]

theorem getName_shape (f : SyncFile) :
    f.getName.head? ≠ some '/' ∧ f.getName.getLast? ≠ some '/' ∧ ¬ ['/', '/'] <:+: f.getName := by
  rw [getName_eq]
  exact join_shape (names_nameList f.path)

/-- A call that returns has stored the file under its name. -/
theorem updateSyncFile_named (s : Store) (dir : SyncDirectory) (f : SyncFile) (hret : (s.updateSyncFile dir f).2 = some ()) :
    ∃ r ∈ (s.updateSyncFile dir f).1.records, r.folder = dir.id ∧ r.name = f.getName := by
  have hv : f.versions ≠ [] := by
    intro hv
    rw [s.records_updateSyncFile_nil dir hv] at hret
    cases hret
  refine ⟨Rec.write (s.stored f) (s.target f) dir f, ?_, rfl, rfl⟩
  exact (s.mem_updateSyncFile_target dir hv rfl).mpr rfl

/-- The comparison of `handle_index` finds every stored name. -/
theorem stored_found (s : Store) {r : Rec} (hr : r ∈ s.records) :
    ∃ x, (s.index r.folder).find? (fun x => x.getName = r.name) = some x ∧ x.path = r.name := by
  rw [s.find?_index]
  cases hl : s.lookup r.folder r.name with
  | none => exact absurd rfl (s.lookup_none hl r hr rfl)
  | some r' => exact ⟨r'.file, rfl, (s.lookup_some hl).2.2⟩

theorem index_getName (s : Store) (dirId : Text) : ∀ x ∈ s.index dirId, x.getName = x.path := by
  intro x hx
  obtain ⟨r, hr, rfl⟩ := List.mem_map.mp hx
  exact s.getName_file (List.mem_filter.mp hr).1

/-- The names of the Index message are the stored ones. -/
theorem fileInfos_names (n : Node) (dir : SyncDirectory) (infos : List FileInfo)
    (h : (run nodeDo (fileInfos sha256 dir (n.store.index dir.id)) n).2 = some (.ok infos)) :
    infos.map FileInfo.name = (n.store.index dir.id).map SyncFile.path := by
  obtain ⟨out, hrun, hann⟩ := run_fileInfos sha256 n dir (n.store.index dir.id)
  rw [hrun] at h
  rw [(announces_all sha256 (hann infos h)).1]
  exact List.map_congr_left (index_getName n.store dir.id)

/-- A name is stable: taken of itself it is itself, it has the form of a relative path
    without empty parts, a stored file has it, is found by it and is sent under it. -/
theorem names_stable :
    (∀ f : SyncFile, SyncFile.getName { f with path := f.getName } = f.getName ∧
      f.getName.head? ≠ some '/' ∧ f.getName.getLast? ≠ some '/' ∧ ¬ ['/', '/'] <:+: f.getName) ∧
    (∀ (s : Store) (dir : SyncDirectory) (f : SyncFile), (s.updateSyncFile dir f).2 = some () →
      ∃ r ∈ (s.updateSyncFile dir f).1.records, r.folder = dir.id ∧ r.name = f.getName) ∧
    (∀ s : Store, ∀ r ∈ s.records,
      ∃ x, (s.index r.folder).find? (fun x => x.getName = r.name) = some x ∧ x.path = r.name) ∧
    ∀ (n : Node) (dir : SyncDirectory) (infos : List FileInfo),
      (run nodeDo (fileInfos sha256 dir (n.store.index dir.id)) n).2 = some (.ok infos) →
      infos.map FileInfo.name = (n.store.index dir.id).map SyncFile.path := by
  refine ⟨fun f => ⟨getName_getName f, getName_shape f⟩, ?_, ?_, ?_⟩
  · intro s dir f hret
    exact updateSyncFile_named s dir f hret
  · intro s r hr
    exact stored_found s hr
  · intro n dir infos h
    exact fileInfos_names sha256 n dir infos h

end BepRs.History
