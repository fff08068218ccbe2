/-
  BepRs.Relay.Records — a folder's records written, everything else left.

  The calls that write files leave the tables of folders, peers and shares (`SameFolders`).
  A task on one folder leaves the records of the others (`Elsewhere`). What it makes of its own
  is each record changed under its name, and new ones under names that had none (`Revised`).
-/

import BepRs.Sync.Fetch

namespace BepRs.Relay

open BepRs.Lib BepRs.Lib.Path BepRs.State BepRs.Sync

/-- The tables that no file call writes. -/
structure SameFolders (s s' : Store) : Prop where
  folders : s'.folders = s.folders
  peers : s'.peers = s.peers
  shares : s'.shares = s.shares
  shortId : s'.shortId = s.shortId

theorem SameFolders.refl (s : Store) : SameFolders s s := ⟨rfl, rfl, rfl, rfl⟩

theorem SameFolders.trans {s s' s'' : Store} (h : SameFolders s s') (h' : SameFolders s' s'') : SameFolders s s'' :=
  ⟨h'.folders.trans h.folders, h'.peers.trans h.peers, h'.shares.trans h.shares, h'.shortId.trans h.shortId⟩

theorem sameFolders_updateSyncFile (s : Store) (dir : SyncDirectory) (f : SyncFile) :
    SameFolders s (s.updateSyncFile dir f).1 := by
  obtain ⟨hfolders, hpeers, hshares, hid⟩ := s.updateSyncFile_frame dir f
  exact ⟨hfolders, hpeers, hshares, hid⟩

theorem sameFolders_stampTimes (dir : SyncDirectory) (f : SyncFile) : ∀ (k : Nat) (s : Store),
    SameFolders s (stampTimes dir f k s) := by
  intro k
  induction k with
  | zero => intro s; exact .refl s
  | succ k ih =>
    intro s
    rw [stampTimes]
    exact (sameFolders_updateSyncFile s dir _).trans (ih _)

/-- The records of the other folders are the ones that were there. -/
def Elsewhere (folder : Text) (s s' : Store) : Prop :=
  s'.records.filter (·.folder ≠ folder) = s.records.filter (·.folder ≠ folder)

theorem Elsewhere.trans {folder : Text} {s s' s'' : Store} (h : Elsewhere folder s s') (h' : Elsewhere folder s' s'') :
    Elsewhere folder s s'' := Eq.trans h' h

theorem Elsewhere.mem {folder : Text} {s s' : Store} (h : Elsewhere folder s s') {r : Rec} (hr : r.folder ≠ folder) :
    r ∈ s'.records ↔ r ∈ s.records := by
  have hmem : r ∈ s'.records.filter (·.folder ≠ folder) ↔ r ∈ s.records.filter (·.folder ≠ folder) := by rw [h]
  simpa [List.mem_filter, hr] using hmem

theorem Elsewhere.single {folder other : Text} {s s' : Store} (h : Elsewhere folder s s') (hne : other ≠ folder)
    (hs : s.Single other) : s'.Single other := by
  intro r hr r' hr' hf hf' hn
  exact hs r ((h.mem (by rw [hf]; exact hne)).mp hr) r' ((h.mem (by rw [hf']; exact hne)).mp hr') hf hf' hn

theorem Elsewhere.lookup {folder other : Text} {s s' : Store} (h : Elsewhere folder s s') (hne : other ≠ folder) (name : Text) :
    s'.lookup other name = s.lookup other name := by
  have hfilter : ∀ l : List Rec, (l.filter (·.folder ≠ folder)).find? (fun r => r.folder = other ∧ r.name = name) =
      l.find? fun r => r.folder = other ∧ r.name = name := by
    intro l
    rw [List.find?_filter]
    congr 1
    funext r
    by_cases hr : r.folder = other
    · simp [hr, hne]
    · simp [hr]
  rw [Store.lookup, Store.lookup, ← hfilter, ← hfilter s.records, h]

/-- The folder's records changed one by one, and new ones. -/
structure Revised (folder : Text) (s s' : Store) (upd : Rec → Rec) (new : List Rec) : Prop where
  records : s'.records = s.records.map upd ++ new
  keeps : ∀ x, (upd x).folder = x.folder ∧ (upd x).name = x.name
  outside : ∀ x, x.folder ≠ folder → upd x = x
  fresh : ∀ r ∈ new, r.folder = folder ∧ s.lookup folder r.name = none
  distinct : (new.map Rec.name).Nodup

section

variable {folder : Text} {s s' : Store} {upd : Rec → Rec} {new : List Rec}

theorem Revised.lookup_eq (h : Revised folder s s' upd new) (name : Text) :
    s'.lookup folder name = ((s.lookup folder name).map upd).or (new.find? fun r => r.folder = folder ∧ r.name = name) := by
  rw [Store.lookup, h.records, List.find?_append, List.find?_map]
  congr 3
  funext x
  simp only [Function.comp_apply, (h.keeps x).1, (h.keeps x).2]

theorem Revised.lookup_old (h : Revised folder s s' upd new) {name : Text} {r : Rec} (hr : s.lookup folder name = some r) :
    s'.lookup folder name = some (upd r) := by
  rw [h.lookup_eq, hr]; rfl

theorem Revised.lookup_new (h : Revised folder s s' upd new) {r : Rec} (hr : r ∈ new) : s'.lookup folder r.name = some r := by
  obtain ⟨hfolder, hnone⟩ := h.fresh r hr
  rw [h.lookup_eq, hnone]
  show new.find? _ = some r
  cases hfind : new.find? fun x => x.folder = folder ∧ x.name = r.name with
  | none => exact absurd (List.find?_eq_none.mp hfind r hr) (by simp [hfolder])
  | some x =>
    have hx : x.folder = folder ∧ x.name = r.name := by simpa using List.find?_some hfind
    rw [List.inj_on_of_nodup_map h.distinct (List.mem_of_find?_eq_some hfind) hr hx.2]

theorem Revised.lookup_none (h : Revised folder s s' upd new) {name : Text} (hnone : s.lookup folder name = none)
    (hnew : name ∉ new.map Rec.name) : s'.lookup folder name = none := by
  rw [h.lookup_eq, hnone]
  show new.find? _ = none
  refine List.find?_eq_none.mpr fun x hx => ?_
  have hne : x.name ≠ name := fun he => hnew (List.mem_map.mpr ⟨x, hx, he⟩)
  simp [hne]

theorem Revised.single (h : Revised folder s s' upd new) (hs : s.Single folder) : s'.Single folder := by
  -- an old and a new record have different names
  have hcross : ∀ x ∈ s.records, x.folder = folder → ∀ r ∈ new, x.name ≠ r.name := by
    intro x hx hf r hr
    exact s.lookup_none (h.fresh r hr).2 x hx hf
  intro r hr r' hr' hf hf' hn
  rw [h.records] at hr hr'
  rcases List.mem_append.mp hr with hr | hr
  · obtain ⟨x, hx, rfl⟩ := List.mem_map.mp hr
    rw [(h.keeps x).1] at hf
    rw [(h.keeps x).2] at hn
    rcases List.mem_append.mp hr' with hr' | hr'
    · obtain ⟨x', hx', rfl⟩ := List.mem_map.mp hr'
      rw [(h.keeps x').1] at hf'
      rw [(h.keeps x').2] at hn
      rw [hs x hx x' hx' hf hf' hn]
    · exact absurd hn (hcross x hx hf r' hr')
  · rcases List.mem_append.mp hr' with hr' | hr'
    · obtain ⟨x', hx', rfl⟩ := List.mem_map.mp hr'
      rw [(h.keeps x').1] at hf'
      rw [(h.keeps x').2] at hn
      exact absurd hn.symm (hcross x' hx' hf' r hr)
    · exact List.inj_on_of_nodup_map h.distinct hr hr' hn

theorem Revised.elsewhere (h : Revised folder s s' upd new) : Elsewhere folder s s' := by
  have hnew : new.filter (·.folder ≠ folder) = [] :=
    List.filter_eq_nil_iff.mpr fun r hr => by simp [(h.fresh r hr).1]
  have hpred : (fun x : Rec => decide (x.folder ≠ folder)) ∘ upd = fun x => decide (x.folder ≠ folder) := by
    funext x
    simp only [Function.comp_apply, (h.keeps x).1]
  rw [Elsewhere, h.records, List.filter_append, hnew, List.append_nil, List.filter_map, hpred]
  refine (List.map_congr_left fun x hx => h.outside x ?_).trans (List.map_id _)
  simpa using (List.mem_filter.mp hx).2

end

end BepRs.Relay
