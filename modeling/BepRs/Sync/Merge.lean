/-
  BepRs.Sync.Merge — `handle_index` run on a node, as a fold over the received files.

  The loop asks for nothing but `update_sync_file`, so a whole run is a function of the
  store: `mergeFile` is one pass of its body on the store and the local copy of the index
  (`Merging`), `mergeFiles` the loop. `run_handleFiles` and `run_handleIndex` say that
  these are what a run of the task computes.

  - `local_stored`: throughout the loop, an entry of the local copy is the record with its
    id, except that the history stored for it may be another one of the same length.
-/

import BepRs.Sync.Transfer

namespace BepRs.Sync

open BepRs.Lib BepRs.Lib.Path BepRs.Lib.Task BepRs.State

structure Merging where
  store : Store
  localindex : List SyncFile
  changed : Bool

/-- What the loop writes for a received file: nothing (`some none`) when the local history
    is at least as long; `none` is a panic. -/
def incoming (localindex : List SyncFile) (file : FileInfo) : Option (Option SyncFile) :=
  match localindex.find? fun x => x.getName = file.name with
  | some localfile => do
    let counters ← file.version
    if localfile.versions.length ≥ counters.length then some none
    else do
      let first ← file.blocks.head?
      some (some
        { localfile with
          versions := counters.map Counter.version
          hash := first.hash
          blocks := file.blocks.map BlockInfo.syncBlock
          modifiedBy := file.modifiedBy })
  | none => do
    let first ← file.blocks.head?
    let counters ← file.version
    some (some
      { id := none, path := file.name, hash := first.hash, modifiedBy := file.modifiedBy, syncedVersion := 0,
        versions := counters.map Counter.version, blocks := file.blocks.map BlockInfo.syncBlock })

def mergeFile (dir : SyncDirectory) (file : FileInfo) (m : Merging) : Merging × Option Unit :=
  match incoming m.localindex file with
  | none => (m, none)
  | some none => (m, some ())
  | some (some f) =>
    let r := m.store.updateSyncFile dir f
    match r.2 with
    | none => ({ m with store := r.1 }, none)
    | some () => (⟨r.1, setFirst (fun x => x.getName = file.name) f m.localindex, true⟩, some ())

def mergeFiles (dir : SyncDirectory) : List FileInfo → Merging → Merging × Option Unit
  | [], m => (m, some ())
  | file :: files, m =>
    match mergeFile dir file m with
    | (m', some ()) => mergeFiles dir files m'
    | (m', none) => (m', none)

/-- The loop's state when an index for the directory arrives. -/
def Merging.start (s : Store) (dir : SyncDirectory) : Merging := ⟨s, s.index dir.id, false⟩

theorem mergeFiles_append (dir : SyncDirectory) : ∀ (fs gs : List FileInfo) (m : Merging),
    mergeFiles dir (fs ++ gs) m = match mergeFiles dir fs m with
      | (m', some ()) => mergeFiles dir gs m'
      | (m', none) => (m', none) := by
  intro fs
  induction fs with
  | nil => intro gs m; rfl
  | cons f fs ih =>
    intro gs m
    simp only [List.cons_append, mergeFiles]
    rcases mergeFile dir f m with ⟨m', _ | ⟨⟩⟩
    · rfl
    · exact ih gs m'

/-- The loop leaves the folders, peers and shares alone. -/
theorem mergeFiles_folders (dir : SyncDirectory) : ∀ (files : List FileInfo) (m : Merging),
    (mergeFiles dir files m).1.store.folders = m.store.folders := by
  intro files
  induction files with
  | nil => intro m; rfl
  | cons file files ih =>
    intro m
    have hone : (mergeFile dir file m).1.store.folders = m.store.folders := by
      unfold mergeFile
      split
      · rfl
      · rfl
      · have hframe := (m.store.updateSyncFile_frame dir ‹SyncFile›).1
        simp only
        split <;> exact hframe
    rw [mergeFiles]
    rcases hm : mergeFile dir file m with ⟨m', _ | u⟩ <;> rw [hm] at hone
    · exact hone
    · exact (ih m').trans hone

/-! ## The local copy -/

theorem setFirst_of_find?_none {α : Type} {p : α → Bool} {x : α} : ∀ {l : List α}, l.find? p = none → setFirst p x l = l := by
  intro l
  induction l with
  | nil => intro _; rfl
  | cons y ys ih =>
    intro h
    rw [List.find?_cons] at h
    unfold setFirst
    cases hy : p y with
    | true => rw [hy] at h; cases h
    | false =>
      rw [hy] at h
      simp only [Bool.false_eq_true, if_false]
      rw [ih h]

theorem find?_setFirst {α : Type} {p q : α → Bool} {x : α} (hx : q x = false) (hpq : ∀ y, p y = true → q y = false) :
    ∀ l : List α, (setFirst p x l).find? q = l.find? q := by
  intro l
  induction l with
  | nil => rfl
  | cons y ys ih =>
    unfold setFirst
    cases hy : p y with
    | true => simp [hx, hpq y hy]
    | false => simp [List.find?_cons, ih]

/-- An entry replaced by one of its name is not the one of another name. -/
theorem find?_name_setFirst {f : SyncFile} {name a : Text} (hname : f.getName = name) (ha : name ≠ a) (l : List SyncFile) :
    (setFirst (fun x => x.getName = name) f l).find? (fun x => x.getName = a) = l.find? fun x => x.getName = a := by
  refine find?_setFirst (by simp [hname, ha]) (fun y hy => ?_) l
  simp [of_decide_eq_true hy, ha]

theorem find?_setFirst_eq {α : Type} {p : α → Bool} {x y : α} (hx : p x = true) :
    ∀ {l : List α}, l.find? p = some y → (setFirst p x l).find? p = some x := by
  intro l
  induction l with
  | nil => intro h; cases h
  | cons z zs ih =>
    intro h
    rw [List.find?_cons] at h
    unfold setFirst
    cases hz : p z with
    | true => simp [hx]
    | false =>
      rw [hz] at h
      simpa [List.find?_cons, hz] using ih h

theorem map_setFirst {α β : Type} {p : α → Bool} {g : α → β} {x y : α} :
    ∀ {l : List α}, l.find? p = some y → g x = g y → (setFirst p x l).map g = l.map g := by
  intro l
  induction l with
  | nil => intro h; cases h
  | cons z zs ih =>
    intro h hg
    rw [List.find?_cons] at h
    unfold setFirst
    cases hz : p z with
    | true => rw [hz] at h; cases h; simp [hg]
    | false => rw [hz] at h; simpa using ih h hg

theorem mem_setFirst {α : Type} {p : α → Bool} {x y : α} : ∀ {l : List α}, y ∈ setFirst p x l → y = x ∨ y ∈ l := by
  intro l
  induction l with
  | nil => intro h; cases h
  | cons z zs ih =>
    intro h
    unfold setFirst at h
    split at h
    · rcases List.mem_cons.mp h with h | h
      · exact Or.inl h
      · exact Or.inr (List.mem_cons_of_mem _ h)
    · rcases List.mem_cons.mp h with h | h
      · exact Or.inr (h ▸ List.mem_cons_self)
      · exact (ih h).imp id (List.mem_cons_of_mem _)

theorem mem_setFirst_self {α : Type} {p : α → Bool} {x y : α} : ∀ {l : List α}, l.find? p = some y → x ∈ setFirst p x l := by
  intro l
  induction l with
  | nil => intro h; cases h
  | cons z zs ih =>
    intro h
    rw [List.find?_cons] at h
    unfold setFirst
    cases hz : p z with
    | true => simp
    | false => rw [hz] at h; simpa using Or.inr (ih h)

/-- What the loop writes, case by case. -/
theorem incoming_cases {l : List SyncFile} {file : FileInfo} {f : SyncFile} (h : incoming l file = some (some f)) :
    ∃ first cs, file.blocks.head? = some first ∧ file.version = some cs ∧
      f.versions = cs.map Counter.version ∧ f.hash = first.hash ∧ f.blocks = file.blocks.map BlockInfo.syncBlock ∧
      f.modifiedBy = file.modifiedBy ∧
      ((∃ x, l.find? (fun x => x.getName = file.name) = some x ∧ x.versions.length < cs.length ∧ f.id = x.id ∧
          f.path = x.path ∧ f.syncedVersion = x.syncedVersion) ∨
        l.find? (fun x => x.getName = file.name) = none ∧ f.id = none ∧ f.path = file.name ∧ f.syncedVersion = 0) := by
  unfold incoming at h
  split at h
  · rename_i x hx
    obtain ⟨cs, hcs, h⟩ := Option.bind_eq_some_iff.mp h
    split at h
    · cases h
    · rename_i hlen
      obtain ⟨first, hfirst, h⟩ := Option.bind_eq_some_iff.mp h
      cases h
      exact ⟨first, cs, hfirst, hcs, rfl, rfl, rfl, rfl, Or.inl ⟨x, hx, by omega, rfl, rfl, rfl⟩⟩
  · rename_i hx
    obtain ⟨first, hfirst, h⟩ := Option.bind_eq_some_iff.mp h
    obtain ⟨cs, hcs, h⟩ := Option.bind_eq_some_iff.mp h
    cases h
    exact ⟨first, cs, hfirst, hcs, rfl, rfl, rfl, rfl, Or.inr ⟨hx, rfl, rfl, rfl⟩⟩

/-- What the loop writes for a file it knows. -/
theorem incoming_found {l : List SyncFile} {file : FileInfo} {f x : SyncFile} (h : incoming l file = some (some f))
    (hx : l.find? (fun x => x.getName = file.name) = some x) :
    ∃ first cs, file.blocks.head? = some first ∧ file.version = some cs ∧ x.versions.length < cs.length ∧
      f.versions = cs.map Counter.version ∧ f.hash = first.hash ∧ f.id = x.id ∧ f.path = x.path ∧
      f.syncedVersion = x.syncedVersion := by
  obtain ⟨first, cs, hfirst, hcs, hvs, hhash, -, -, hcase⟩ := incoming_cases h
  rcases hcase with ⟨x', hx', hlen, hid, hpath, hsynced⟩ | ⟨hnone, -⟩
  · rw [hx] at hx'
    cases hx'
    exact ⟨first, cs, hfirst, hcs, hlen, hvs, hhash, hid, hpath, hsynced⟩
  · rw [hx] at hnone; cases hnone

/-- What the loop writes for a file it does not know. -/
theorem incoming_new {l : List SyncFile} {file : FileInfo} {f : SyncFile} (h : incoming l file = some (some f))
    (hx : l.find? (fun x => x.getName = file.name) = none) : f.path = file.name ∧ f.syncedVersion = 0 := by
  obtain ⟨first, cs, -, -, -, -, -, -, hcase⟩ := incoming_cases h
  rcases hcase with ⟨x, hx', -⟩ | ⟨-, -, hpath, hsynced⟩
  · rw [hx] at hx'; cases hx'
  · exact ⟨hpath, hsynced⟩

/-- An entry of the local copy and the record with its id. -/
structure Mirrors (dir : SyncDirectory) (x : SyncFile) (r : Rec) : Prop where
  id : x.id = some r.id
  folder : r.folder = dir.id
  path : x.path = r.name
  synced : x.syncedVersion = r.synced
  length : x.versions.length = r.versions.length

structure Merging.Aligned (dir : SyncDirectory) (m : Merging) : Prop where
  ids : (m.localindex.map SyncFile.id).Nodup
  mirrors : ∀ x ∈ m.localindex, ∃ r ∈ m.store.records, Mirrors dir x r

theorem aligned_start (s : Store) (dir : SyncDirectory) : (Merging.start s dir).Aligned dir := by
  refine ⟨?_, fun x hx => ?_⟩
  · show ((s.index dir.id).map SyncFile.id).Nodup
    rw [Store.index, List.map_map]
    have hnd : ((s.records.filter (·.folder = dir.id)).map Rec.id).Nodup :=
      s.records_nodup.sublist (List.filter_sublist.map _)
    have hmap := hnd.map (f := some) (Option.some_injective _)
    rwa [List.map_map] at hmap
  · obtain ⟨r, hr, rfl⟩ := List.mem_map.mp hx
    obtain ⟨hr, hf⟩ := List.mem_filter.mp hr
    exact ⟨r, hr, rfl, by simpa using hf, rfl, rfl, rfl⟩

/-- The record a pass writes over the one it found. -/
theorem mergeFile_found {dir : SyncDirectory} {m : Merging} (hm : m.Aligned dir) {file : FileInfo} {f x : SyncFile}
    (hin : incoming m.localindex file = some (some f))
    (hx : m.localindex.find? (fun x => x.getName = file.name) = some x) :
    ∃ r ∈ m.store.records, Mirrors dir x r ∧ f.getName = r.name ∧
      mergeFile dir file m = (⟨(m.store.updateSyncFile dir f).1,
        setFirst (fun x => x.getName = file.name) f m.localindex, true⟩, some ()) ∧
      (m.store.updateSyncFile dir f).1.records =
        Keyed.upsert Rec.id (Rec.write (some r) r.id dir f) m.store.records := by
  obtain ⟨r, hr, hmir⟩ := hm.mirrors x (List.mem_of_find?_eq_some hx)
  obtain ⟨first, cs, -, -, hlen, hvs, -, hid, hpath, -⟩ := incoming_found hin hx
  have hv : f.versions ≠ [] := by
    rw [hvs, ← List.length_pos_iff, List.length_map]; omega
  obtain ⟨htarget, hstored⟩ := m.store.stored_of_mem hr (hid.trans hmir.id)
  have hret : (m.store.updateSyncFile dir f).2 = some () := by
    rw [m.store.updateSyncFile_returns dir hv, Store.storedCount, hstored, if_neg]
    have := hmir.length
    simp only [hvs, List.length_map, Option.map_some, Option.getD_some]; omega
  refine ⟨r, hr, hmir, ?_, by simp only [mergeFile, hin, hret], ?_⟩
  · rw [getName_eq, hpath, hmir.path, m.store.name_normal hr]
  · rw [m.store.records_updateSyncFile dir hv, hstored, htarget]

/-- Throughout the loop, an entry of the local copy is the record with its id, but for the
    history: that may be another one of the same length. -/
theorem local_stored {dir : SyncDirectory} {m m' : Merging} (hm : m.Aligned dir) {file : FileInfo}
    (h : mergeFile dir file m = (m', some ())) : m'.Aligned dir := by
  cases hin : incoming m.localindex file with
  | none => simp only [mergeFile, hin, Prod.mk.injEq] at h; cases h.2
  | some w =>
    cases w with
    | none => simp only [mergeFile, hin, Prod.mk.injEq] at h; rw [← h.1]; exact hm
    | some f =>
      obtain ⟨first, cs, -, -, hvs, -, -, -, hcase⟩ := incoming_cases hin
      rcases hcase with ⟨x, hx, hlen, hid, hpath, hsynced⟩ | ⟨hnone, hid, -⟩
      · obtain ⟨r, hr, hmir, hname, heq, hrecs⟩ := mergeFile_found hm hin hx
        rw [heq] at h
        cases h
        refine ⟨by rw [map_setFirst hx hid]; exact hm.ids, fun y hy => ?_⟩
        simp only [hrecs, Keyed.mem_upsert _ m.store.records_nodup]
        by_cases hyf : y.id = f.id
        · -- The ids are still distinct, so the entry with the file's id is the file.
          have hnd : ((setFirst (fun x => x.getName = file.name) f m.localindex).map SyncFile.id).Nodup := by
            rw [map_setFirst hx hid]; exact hm.ids
          cases List.inj_on_of_nodup_map hnd hy (mem_setFirst_self hx) hyf
          refine ⟨_, Or.inl rfl, hid.trans hmir.id, rfl, ?_, rfl, ?_⟩
          · rw [hpath, hmir.path]; exact hname.symm
          · have := hmir.length
            simp only [Rec.write, Option.map_some, Option.getD_some, Chain.length_extend, hvs, List.length_map]
            omega
        · rcases mem_setFirst hy with rfl | hy
          · exact absurd rfl hyf
          · obtain ⟨r', hr', hmir'⟩ := hm.mirrors y hy
            refine ⟨r', Or.inr ⟨hr', fun he => hyf ?_⟩, hmir'⟩
            rw [hmir'.id, hid, hmir.id]; exact congrArg some he
      · by_cases hv : f.versions = []
        · simp only [mergeFile, hin, m.store.records_updateSyncFile_nil dir hv, Prod.mk.injEq] at h
          cases h.2
        · have hret : (m.store.updateSyncFile dir f).2 = some () := by
            rw [m.store.updateSyncFile_returns dir hv, Store.storedCount, m.store.stored_new hid]; simp
          simp only [mergeFile, hin, hret, setFirst_of_find?_none hnone, Prod.mk.injEq, and_true] at h
          subst h
          refine ⟨hm.ids, fun y hy => ?_⟩
          obtain ⟨r, hr, hmir⟩ := hm.mirrors y hy
          exact ⟨r, m.store.mem_updateSyncFile_new dir hid hr, hmir⟩

/-- A pass finds for every name the id it found before. -/
theorem find?_id_mergeFile {dir : SyncDirectory} {m m' : Merging} {file : FileInfo}
    (h : mergeFile dir file m = (m', some ())) (a : Text) :
    (m'.localindex.find? fun x => x.getName = a).map SyncFile.id =
      (m.localindex.find? fun x => x.getName = a).map SyncFile.id := by
  cases hin : incoming m.localindex file with
  | none => simp only [mergeFile, hin, Prod.mk.injEq] at h; cases h.2
  | some w =>
    cases w with
    | none => simp only [mergeFile, hin, Prod.mk.injEq] at h; rw [← h.1]
    | some f =>
      cases hret : (m.store.updateSyncFile dir f).2 with
      | none => simp only [mergeFile, hin, hret, Prod.mk.injEq] at h; cases h.2
      | some u =>
        simp only [mergeFile, hin, hret, Prod.mk.injEq, and_true] at h
        subst h
        obtain ⟨first, cs, -, -, -, -, -, -, hcase⟩ := incoming_cases hin
        rcases hcase with ⟨x, hx, -, hid, hpath, -⟩ | ⟨hnone, -⟩
        · have hname : f.getName = file.name := by
            rw [getName_eq, hpath, ← getName_eq]
            simpa using List.find?_some hx
          by_cases ha : file.name = a
          · subst ha
            simp only [find?_setFirst_eq (p := fun x => decide (x.getName = file.name)) (x := f) (by simpa using hname) hx, hx,
              Option.map_some, hid]
          · simp only [find?_name_setFirst hname ha]
        · simp only [setFirst_of_find?_none hnone]

/-- What a pass does to the store: nothing, or one record is written, over one the copy has
    or in a new row. -/
inductive MergePass (dir : SyncDirectory) (file : FileInfo) (m : Merging) : Merging × Option Unit → Prop
  | skip (u : Option Unit) : MergePass dir file m (m, u)
  | found (f x : SyncFile) (r : Rec) : m.localindex.find? (fun x => x.getName = file.name) = some x → Mirrors dir x r →
      r ∈ m.store.records → incoming m.localindex file = some (some f) → m.store.target f = r.id →
      m.store.stored f = some r → f.getName = r.name →
      MergePass dir file m (⟨(m.store.updateSyncFile dir f).1,
        setFirst (fun x => x.getName = file.name) f m.localindex, true⟩, some ())
  | new (f : SyncFile) : m.localindex.find? (fun x => x.getName = file.name) = none →
      incoming m.localindex file = some (some f) → f.id = none → f.versions ≠ [] →
      MergePass dir file m (⟨(m.store.updateSyncFile dir f).1, m.localindex, true⟩, some ())

theorem pass_mergeFile {dir : SyncDirectory} {m : Merging} (hm : m.Aligned dir) (file : FileInfo) :
    MergePass dir file m (mergeFile dir file m) := by
  cases hin : incoming m.localindex file with
  | none => simp only [mergeFile, hin]; exact .skip none
  | some w =>
    cases w with
    | none => simp only [mergeFile, hin]; exact .skip (some ())
    | some f =>
      obtain ⟨first, cs, -, -, -, -, -, -, hcase⟩ := incoming_cases hin
      rcases hcase with ⟨x, hx, -, hid, -⟩ | ⟨hnone, hid, -⟩
      · obtain ⟨r, hr, hmir, hname, heq, -⟩ := mergeFile_found hm hin hx
        obtain ⟨htarget, hstored⟩ := m.store.stored_of_mem hr (hid.trans hmir.id)
        rw [heq]
        exact .found f x r hx hmir hr hin htarget hstored hname
      · by_cases hv : f.versions = []
        · simp only [mergeFile, hin, m.store.records_updateSyncFile_nil dir hv]
          exact .skip none
        · have hret : (m.store.updateSyncFile dir f).2 = some () := by
            rw [m.store.updateSyncFile_returns dir hv, Store.storedCount, m.store.stored_new hid]; simp
          simp only [mergeFile, hin, hret, setFirst_of_find?_none hnone]
          exact .new f hnone hin hid hv

/-- What every pass keeps holds where the loop ends, of the files that are left there. -/
theorem mergeFiles_inv {dir : SyncDirectory} {P : List FileInfo → Merging → Prop}
    (hpass : ∀ file files m m' u, m.Aligned dir → P (file :: files) m → mergeFile dir file m = (m', u) →
      MergePass dir file m (m', u) → P files m') :
    ∀ (files : List FileInfo) (m : Merging), m.Aligned dir → P files m → ∃ rest, P rest (mergeFiles dir files m).1 := by
  intro files
  induction files with
  | nil => intro m _ h; exact ⟨[], h⟩
  | cons file files ih =>
    intro m hm h
    have hone := pass_mergeFile hm file
    rw [mergeFiles]
    rcases hmerge : mergeFile dir file m with ⟨m', _ | u⟩ <;> rw [hmerge] at hone
    · exact ⟨files, hpass file files m m' none hm h hmerge hone⟩
    · exact ih m' (local_stored hm hmerge) (hpass file files m m' (some u) hm h hmerge hone)

/-- What holds of the local copy after any number of passes. -/
theorem mergeFiles_local {dir : SyncDirectory} : ∀ {files : List FileInfo} {m m' : Merging}, m.Aligned dir →
    mergeFiles dir files m = (m', some ()) → m'.Aligned dir ∧
      ∀ a, (m'.localindex.find? fun x => x.getName = a).map SyncFile.id =
        (m.localindex.find? fun x => x.getName = a).map SyncFile.id := by
  intro files
  induction files with
  | nil => intro m m' hm h; cases h; exact ⟨hm, fun _ => rfl⟩
  | cons file files ih =>
    intro m m' hm h
    rw [mergeFiles] at h
    rcases hone : mergeFile dir file m with ⟨m₁, _ | u⟩
    · rw [hone] at h; cases h
    · rw [hone] at h
      obtain ⟨h1, h2⟩ := ih (local_stored hm hone) h
      exact ⟨h1, fun a => (h2 a).trans (find?_id_mergeFile hone a)⟩

/-- The name of the record a pass finds is the received one. -/
theorem name_found {dir : SyncDirectory} {s : Store} {l : List SyncFile} {name : Text} {x : SyncFile} {r : Rec}
    (hx : l.find? (fun x => x.getName = name) = some x) (hmir : Mirrors dir x r) (hr : r ∈ s.records) : r.name = name := by
  have hname : x.getName = name := by simpa using List.find?_some hx
  rw [← hname, getName_eq, hmir.path, s.name_normal hr]

/-- A file of another name leaves a name's record, in the store and in the copy. -/
theorem mergeFile_beside {dir : SyncDirectory} {m m' : Merging} (hm : m.Aligned dir) {file : FileInfo} {a : Text}
    (ha : normal file.name ≠ a) (h : mergeFile dir file m = (m', some ())) :
    m'.store.lookup dir.id a = m.store.lookup dir.id a ∧
      m'.localindex.find? (fun x => x.getName = a) = m.localindex.find? fun x => x.getName = a := by
  have hpass := pass_mergeFile hm file
  rw [h] at hpass
  cases hpass with
  | skip u => exact ⟨rfl, rfl⟩
  | found f x r hx hmir hr hin htarget hstored hname =>
    have hrn : r.name = file.name := name_found hx hmir hr
    have hne : file.name ≠ a := by rw [← hrn, ← m.store.name_normal hr, hrn]; exact ha
    refine ⟨m.store.lookup_beside (fun h => hne (by rw [← hrn, ← hname]; exact h.2)) fun r' hr' h => ?_, ?_⟩
    · rw [hstored] at hr'
      cases hr'
      exact hne (hrn.symm.trans h.2)
    · exact find?_name_setFirst (hname.trans hrn) hne _
  | new f hx hin hid hv =>
    have hpath := (incoming_new hin hx).1
    refine ⟨m.store.lookup_beside (fun h => ha (by rw [← hpath, ← getName_eq]; exact h.2)) fun r hr => ?_, rfl⟩
    rw [m.store.stored_new hid] at hr; cases hr

theorem mergeFiles_beside {dir : SyncDirectory} {a : Text} : ∀ {files : List FileInfo} {m m' : Merging}, m.Aligned dir →
    (∀ file ∈ files, normal file.name ≠ a) → mergeFiles dir files m = (m', some ()) →
    m'.Aligned dir ∧ m'.store.lookup dir.id a = m.store.lookup dir.id a ∧
      m'.localindex.find? (fun x => x.getName = a) = m.localindex.find? fun x => x.getName = a := by
  intro files
  induction files with
  | nil => intro m m' hm _ h; cases h; exact ⟨hm, rfl, rfl⟩
  | cons file files ih =>
    intro m m' hm ha h
    rw [mergeFiles] at h
    rcases hone : mergeFile dir file m with ⟨m₁, _ | u⟩
    · rw [hone] at h; cases h
    · rw [hone] at h
      obtain ⟨h1, h2⟩ := mergeFile_beside hm (ha file List.mem_cons_self) hone
      obtain ⟨h3, h4, h5⟩ := ih (local_stored hm hone) (fun g hg => ha g (List.mem_cons_of_mem _ hg)) h
      exact ⟨h3, h4.trans h1, h5.trans h2⟩

/-- A file with a longer history than its name's record is written over the record, or to a
    new row where there is none. -/
theorem mergeFile_taken {dir : SyncDirectory} {m m' : Merging} {file : FileInfo} {cs : List Counter} {first : BlockInfo}
    (hname : normal file.name = file.name) (hcs : file.version = some cs) (hfirst : file.blocks.head? = some first)
    (hcopy : m.localindex.find? (fun x => x.getName = file.name) = (m.store.lookup dir.id file.name).map Rec.file)
    (hlen : ((m.store.lookup dir.id file.name).map fun r => r.versions.length).getD 0 < cs.length)
    (h : mergeFile dir file m = (m', some ())) :
    ∃ r', m'.store.lookup dir.id file.name = some r' ∧ r'.hash = first.hash := by
  obtain ⟨f, hin⟩ : ∃ f, incoming m.localindex file = some (some f) := by
    unfold incoming
    rw [hcopy, hcs, hfirst]
    cases hl : m.store.lookup dir.id file.name with
    | none => exact ⟨_, rfl⟩
    | some r =>
      rw [hl, Option.map_some, Option.getD_some] at hlen
      have hlt : ¬ r.file.versions.length ≥ cs.length := by simp only [Rec.file]; omega
      simp only [Option.map_some, Option.bind_eq_bind, Option.bind_some, if_neg hlt]
      exact ⟨_, rfl⟩
  have hm' : m'.store = (m.store.updateSyncFile dir f).1 := by
    simp only [mergeFile, hin] at h
    split at h
    · cases h
    · cases h; rfl
  obtain ⟨first', cs', hfirst', hcs', hvs, hhash, -, -, hcase⟩ := incoming_cases hin
  rw [hfirst] at hfirst'
  rw [hcs] at hcs'
  cases hfirst'
  cases hcs'
  have hv : f.versions ≠ [] := by
    rw [hvs, ← List.length_pos_iff, List.length_map]; omega
  rw [hm']
  rcases hcase with ⟨x, hx, -, hid, hpath, -⟩ | ⟨hx, hid, hpath, -⟩
  · rw [hcopy] at hx
    obtain ⟨r, hl, hrx⟩ := Option.map_eq_some_iff.mp hx
    subst hrx
    obtain ⟨hr, -, hrn⟩ := m.store.lookup_some hl
    refine ⟨_, m.store.lookup_over hl hid ?_ hv, hhash⟩
    rw [getName_eq, hpath]
    show normal r.name = _
    rw [m.store.name_normal hr, hrn]
  · rw [hcopy] at hx
    refine ⟨_, m.store.lookup_added (Option.map_eq_none_iff.mp hx) hid ?_ hv, hhash⟩
    rw [getName_eq, hpath, hname]

/-! ## The loop, run -/

/-- One pass of the loop's body. -/
theorem handleFiles_cons (dir : SyncDirectory) (file : FileInfo) (files : List FileInfo) (l : List SyncFile) (ch : Bool) :
    handleFiles dir (file :: files) l ch = (do
      match ← unwrap (incoming l file) with
      | none => handleFiles dir files l ch
      | some f => do
        db (.updateSyncFile dir f)
        handleFiles dir files (setFirst (fun x => x.getName = file.name) f l) true) := by
  unfold incoming
  rw [handleFiles]
  cases hfind : l.find? fun x => x.getName = file.name with
  | none =>
    cases file.blocks.head? with
    | none => rfl
    | some first =>
      cases file.version with
      | none => rfl
      | some counters => simp [setFirst_of_find?_none hfind]
  | some localfile =>
    cases file.version with
    | none => rfl
    | some counters =>
      by_cases hlen : localfile.versions.length ≥ counters.length
      · simp [hlen]
      · cases file.blocks.head? with
        | none => simp [hlen]
        | some first => simp [hlen]

theorem run_handleFiles (dir : SyncDirectory) : ∀ (files : List FileInfo) (n : Node) (l : List SyncFile) (ch : Bool),
    run nodeDo (handleFiles dir files l ch) n =
      ({ n with store := (mergeFiles dir files ⟨n.store, l, ch⟩).1.store },
        (mergeFiles dir files ⟨n.store, l, ch⟩).2.map fun _ => (mergeFiles dir files ⟨n.store, l, ch⟩).1.changed) := by
  intro files
  induction files with
  | nil => intro n l ch; rfl
  | cons file files ih =>
    intro n l ch
    rw [handleFiles_cons]
    simp only [mergeFiles, mergeFile]
    cases hin : incoming l file with
    | none => rfl
    | some w =>
      cases w with
      | none => simp only [unwrap_some, Prog.ret_bind]; exact ih n l ch
      | some f =>
        simp only [unwrap_some, Prog.ret_bind]
        have hdo : nodeDo n (.db (.updateSyncFile dir f)) =
            ({ n with store := (n.store.updateSyncFile dir f).1 }, (n.store.updateSyncFile dir f).2) := rfl
        cases hr : (n.store.updateSyncFile dir f).2 with
        | none => rw [hr] at hdo; exact run_call_none hdo
        | some u => rw [hr] at hdo; exact (run_call_some hdo).trans (ih _ _ _)

/-- What a run of `handle_index` does to the node. -/
theorem run_handleIndex (folderId : Text) (files : List FileInfo) (n : Node) :
    run nodeDo (handleIndex folderId files) n =
      match n.store.getSyncDirectory folderId with
      | none => (n, none)
      | some dir =>
        let m := mergeFiles dir files (.start n.store dir)
        match m.2 with
        | none => ({ n with store := m.1.store }, none)
        | some () =>
          ({ n with store := m.1.store, spawned := if m.1.changed then n.spawned ++ [dir] else n.spawned }, some ()) := by
  have hdir : nodeDo n (.db (.getSyncDirectory folderId)) = (n, some (n.store.getSyncDirectory folderId)) := rfl
  unfold handleIndex
  refine (run_call_some hdir).trans ?_
  cases hget : n.store.getSyncDirectory folderId with
  | none => rfl
  | some dir =>
    refine (run_call_some (nodeDo_getSyncFiles n dir.id)).trans ?_
    have hrun := run_handleFiles dir files n (n.store.index dir.id) false
    rcases hm : mergeFiles dir files (.start n.store dir) with ⟨m, _ | u⟩ <;>
      rw [show mergeFiles dir files ⟨n.store, n.store.index dir.id, false⟩ = _ from hm] at hrun <;>
      rw [run_bind, hrun] <;> simp only [hm]
    · rfl
    · cases hch : m.changed with
      | false => rfl
      | true => rfl

/-- The store after a run, and whether it returned. -/
theorem run_handleIndex_store {folderId : Text} {n : Node} {dir : SyncDirectory}
    (h : n.store.getSyncDirectory folderId = some dir) (files : List FileInfo) :
    (run nodeDo (handleIndex folderId files) n).1.store = (mergeFiles dir files (.start n.store dir)).1.store ∧
      (run nodeDo (handleIndex folderId files) n).2 = (mergeFiles dir files (.start n.store dir)).2 := by
  rw [run_handleIndex, h]
  simp only
  cases (mergeFiles dir files (.start n.store dir)).2 <;> exact ⟨rfl, rfl⟩

theorem run_handleIndex_unknown {folderId : Text} {n : Node} (h : n.store.getSyncDirectory folderId = none)
    (files : List FileInfo) : run nodeDo (handleIndex folderId files) n = (n, none) := by
  rw [run_handleIndex, h]

theorem getSyncDirectory_id {s : Store} {folder : Text} {dir : SyncDirectory}
    (h : s.getSyncDirectory folder = some dir) : dir.id = folder := by
  simpa using List.find?_some h

end BepRs.Sync
