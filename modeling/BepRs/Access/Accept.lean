/-
  BepRs.Access.Accept — whose Index messages change a folder's records.

  `handle_request` serves a folder only to the peers it is shared with; `handle_index` and
  the branch of `handle_reading` that starts it (for Index and IndexUpdate alike) do not
  ask. So any peer that got past verification may rewrite the records of any folder whose
  id it knows, and all that stands in the way is whether its message has news.

  - `index_changes_iff`: exactly when a call changes the folder's records.
  - `index_authorised_iff`: exactly when a change is one by a peer the folder is shared
    with.
  - `unshared_index_accepted`: a folder rewritten by a peer it is not shared with.
-/

import BepRs.Access.Confine

namespace BepRs.Access

open BepRs.Lib BepRs.Lib.Path BepRs.Lib.Task BepRs.State BepRs.Sync

/-! ## News -/

/-- The index has a file of the name, with at least as many versions. -/
def Known (index : List SyncFile) (file : FileInfo) : Prop :=
  ∃ x counters, index.find? (fun x => x.getName = file.name) = some x ∧ file.version = some counters ∧
    counters.length ≤ x.versions.length

/-- The file has versions and blocks, and more versions than the index has for the name. -/
def Newer (index : List SyncFile) (file : FileInfo) : Prop :=
  ∃ counters, file.version = some counters ∧ counters ≠ [] ∧ file.blocks ≠ [] ∧
    ∀ x, index.find? (fun x => x.getName = file.name) = some x → x.versions.length < counters.length

def Brings (index : List SyncFile) (files : List FileInfo) : Prop :=
  ∃ known file rest, files = known ++ file :: rest ∧ (∀ b ∈ known, Known index b) ∧ Newer index file

theorem brings_cons {index : List SyncFile} {file : FileInfo} {files : List FileInfo} :
    Brings index (file :: files) ↔ Newer index file ∨ Known index file ∧ Brings index files := by
  constructor
  · intro h
    obtain ⟨known, f, rest, he, hknown, hnewer⟩ := h
    cases known with
    | nil =>
      cases he
      exact Or.inl hnewer
    | cons b known =>
      cases he
      exact Or.inr ⟨hknown _ List.mem_cons_self, known, f, rest, rfl,
        fun c hc => hknown c (List.mem_cons_of_mem _ hc), hnewer⟩
  · intro h
    rcases h with h | ⟨hk, known, f, rest, he, hknown, hnewer⟩
    · exact ⟨[], file, files, rfl, (fun b hb => by cases hb), h⟩
    · refine ⟨file :: known, f, rest, by rw [he]; rfl, fun b hb => ?_, hnewer⟩
      rcases List.mem_cons.mp hb with rfl | hb
      · exact hk
      · exact hknown b hb

theorem incoming_of_known {index : List SyncFile} {file : FileInfo} (h : Known index file) :
    incoming index file = some none := by
  obtain ⟨x, counters, hx, hv, hlen⟩ := h
  simp only [incoming, hx, hv]
  exact if_pos hlen

theorem incoming_of_newer {index : List SyncFile} {file : FileInfo} (h : Newer index file) :
    ∃ f, incoming index file = some (some f) ∧ f.versions ≠ [] := by
  obtain ⟨counters, hv, hne, hblocks, hlonger⟩ := h
  obtain ⟨first, hfirst⟩ := Option.ne_none_iff_exists'.mp (fun hnone => hblocks (List.head?_eq_none_iff.mp hnone))
  have hmap : counters.map Counter.version ≠ [] := fun he => hne (List.map_eq_nil_iff.mp he)
  unfold incoming
  cases hx : index.find? fun x => x.getName = file.name with
  | none =>
    simp only [hv, hfirst]
    exact ⟨_, rfl, hmap⟩
  | some x =>
    have hlen := hlonger x hx
    simp only [hv, hfirst]
    refine ⟨_, if_neg (by omega), hmap⟩

/-- A file that is neither stops the loop with nothing written. -/
theorem mergeFile_of_neither {dir : SyncDirectory} {m : Merging} {file : FileInfo} (hknown : ¬ Known m.localindex file)
    (hnewer : ¬ Newer m.localindex file) : mergeFile dir file m = (m, none) := by
  cases hin : incoming m.localindex file with
  | none => simp only [mergeFile, hin]
  | some w =>
    cases w with
    | none =>
      exfalso
      unfold incoming at hin
      split at hin
      · rename_i x hx
        obtain ⟨counters, hv, hin⟩ := Option.bind_eq_some_iff.mp hin
        split at hin
        · rename_i hlen
          exact hknown ⟨x, counters, hx, hv, hlen⟩
        · obtain ⟨first, -, hin⟩ := Option.bind_eq_some_iff.mp hin
          cases hin
      · obtain ⟨first, -, hin⟩ := Option.bind_eq_some_iff.mp hin
        obtain ⟨counters, -, hin⟩ := Option.bind_eq_some_iff.mp hin
        cases hin
    | some f =>
      obtain ⟨first, counters, hfirst, hv, hvs, -, -, -, hcase⟩ := incoming_cases hin
      -- Only a file without versions is left, and its write panics before it starts.
      have hnil : f.versions = [] := by
        by_contra hne
        refine hnewer ⟨counters, hv, ?_, ?_, ?_⟩
        · intro he
          rw [hvs, he] at hne
          exact hne rfl
        · intro he
          rw [he] at hfirst
          cases hfirst
        · intro x hx
          rcases hcase with ⟨x', hx', hlen, -⟩ | ⟨hnone, -⟩
          · rw [hx] at hx'
            cases hx'
            exact hlen
          · rw [hx] at hnone; cases hnone
      simp only [mergeFile, hin, m.store.records_updateSyncFile_nil dir hnil]

theorem mergeFiles_of_not_brings {dir : SyncDirectory} {m : Merging} : ∀ {files : List FileInfo},
    ¬ Brings m.localindex files → (mergeFiles dir files m).1 = m := by
  intro files
  induction files with
  | nil => intro _; rfl
  | cons file files ih =>
    intro h
    rw [brings_cons, not_or, not_and] at h
    rw [mergeFiles]
    by_cases hknown : Known m.localindex file
    · have hskip : mergeFile dir file m = (m, some ()) := by simp only [mergeFile, incoming_of_known hknown]
      rw [hskip]
      exact ih (h.2 hknown)
    · rw [mergeFile_of_neither hknown h.1]

/-! ## What is written stays -/

def Grown (folder : Text) (s s' : Store) : Prop :=
  ∀ r ∈ s.records, r.folder = folder → ∃ r' ∈ s'.records, r'.folder = folder ∧ r'.id = r.id ∧
    r.versions.length ≤ r'.versions.length

theorem grown_refl (folder : Text) (s : Store) : Grown folder s s :=
  fun r hr hf => ⟨r, hr, hf, rfl, Nat.le_refl _⟩

theorem grown_trans {folder : Text} {a b c : Store} (hab : Grown folder a b) (hbc : Grown folder b c) :
    Grown folder a c := by
  intro r hr hf
  obtain ⟨r', hr', hf', hid', hlen'⟩ := hab r hr hf
  obtain ⟨r'', hr'', hf'', hid'', hlen''⟩ := hbc r' hr' hf'
  exact ⟨r'', hr'', hf'', hid''.trans hid', Nat.le_trans hlen' hlen''⟩

theorem grown_updateSyncFile (s : Store) (dir : SyncDirectory) (f : SyncFile) :
    Grown dir.id s (s.updateSyncFile dir f).1 := by
  intro r hr hf
  by_cases hv : f.versions = []
  · rw [s.records_updateSyncFile_nil dir hv]
    exact ⟨r, hr, hf, rfl, Nat.le_refl _⟩
  by_cases hid : r.id = s.target f
  · have hstored : s.stored f = some r := by
      rw [Store.stored, ← hid]; exact Keyed.row_of_mem _ s.records_nodup hr
    refine ⟨Rec.write (s.stored f) (s.target f) dir f, ?_, rfl, hid.symm, ?_⟩
    · exact (s.mem_updateSyncFile_target dir hv rfl).mpr rfl
    · rw [hstored]
      simp [Rec.write, Chain.extend]
  · exact ⟨r, (s.mem_updateSyncFile_of_ne dir hid).mpr hr, hf, rfl, Nat.le_refl _⟩

theorem grown_mergeFiles {dir : SyncDirectory} {m : Merging} (hm : m.Aligned dir) (files : List FileInfo) :
    Grown dir.id m.store (mergeFiles dir files m).1.store := by
  obtain ⟨-, h⟩ := mergeFiles_inv (P := fun _ m' => Grown dir.id m.store m'.store) (fun file files m₁ m₂ u _ h _ hpass => by
    cases hpass with
    | skip u => exact h
    | found f x r _ _ _ _ _ _ _ => exact grown_trans h (grown_updateSyncFile _ dir f)
    | new f _ _ _ _ => exact grown_trans h (grown_updateSyncFile _ dir f)) files m hm (grown_refl _ _)
  exact h

/-- A newer file leaves a record that was not there, or was there with fewer versions. -/
theorem mergeFile_of_newer {dir : SyncDirectory} {m : Merging} (hm : m.Aligned dir) {file : FileInfo}
    (h : Newer m.localindex file) : ∃ m', mergeFile dir file m = (m', some ()) ∧ ∃ r ∈ m'.store.records,
      r.folder = dir.id ∧ ∀ r₀ ∈ m.store.records, r₀.id = r.id → r₀.versions.length < r.versions.length := by
  obtain ⟨f, hin, hv⟩ := incoming_of_newer h
  obtain ⟨first, cs, -, -, hvs, -, -, -, hcase⟩ := incoming_cases hin
  rcases hcase with ⟨x, hx, hlen, hid, -⟩ | ⟨hnone, hid, -⟩
  · obtain ⟨r, hr, hmir, hname, heq, -⟩ := mergeFile_found hm hin hx
    obtain ⟨htarget, hstored⟩ := m.store.stored_of_mem hr (hid.trans hmir.id)
    refine ⟨_, heq, Rec.write (some r) r.id dir f, ?_, rfl, ?_⟩
    · rw [← hstored, ← htarget]
      exact (m.store.mem_updateSyncFile_target dir hv rfl).mpr rfl
    · intro r₀ hr₀ hid₀
      have heq₀ : r₀ = r := by
        have hrow := (m.store.stored_of_mem hr₀ (f := f) (hid.trans (hmir.id.trans (congrArg some hid₀.symm)))).2
        exact Option.some.inj (hrow.symm.trans hstored)
      have hlong := hmir.length
      rw [heq₀]
      simp only [Rec.write, Chain.extend, Option.map_some, Option.getD_some, List.length_append, List.length_drop, hvs,
        List.length_map]
      omega
  · have hret : (m.store.updateSyncFile dir f).2 = some () := by
      rw [m.store.updateSyncFile_returns dir hv, Store.storedCount, m.store.stored_new hid]; simp
    have hmerge : mergeFile dir file m = (⟨(m.store.updateSyncFile dir f).1,
        setFirst (fun x => x.getName = file.name) f m.localindex, true⟩, some ()) := by simp only [mergeFile, hin, hret]
    refine ⟨_, hmerge, Rec.write (m.store.stored f) (m.store.target f) dir f, ?_, rfl, ?_⟩
    · exact (m.store.mem_updateSyncFile_target dir hv rfl).mpr rfl
    · intro r₀ hr₀ hid₀
      have hmem : m.store.target f ∈ m.store.records.map Rec.id := by
        rw [← show r₀.id = m.store.target f from hid₀]
        exact List.mem_map_of_mem hr₀
      exact absurd hmem (m.store.target_new hid)

theorem mergeFiles_of_brings {dir : SyncDirectory} {m : Merging} (hm : m.Aligned dir) : ∀ {files : List FileInfo},
    Brings m.localindex files → ∃ r ∈ (mergeFiles dir files m).1.store.records, r.folder = dir.id ∧
      ∀ r₀ ∈ m.store.records, r₀.id = r.id → r₀.versions.length < r.versions.length := by
  intro files
  induction files with
  | nil =>
    intro h
    obtain ⟨known, f, rest, he, -⟩ := h
    cases known <;> cases he
  | cons file files ih =>
    intro h
    rw [mergeFiles]
    rcases brings_cons.mp h with hnewer | ⟨hknown, hrest⟩
    · obtain ⟨m', hmerge, r, hr, hf, hold⟩ := mergeFile_of_newer hm hnewer
      obtain ⟨r', hr', hf', hid', hlen'⟩ := grown_mergeFiles (local_stored hm hmerge) files r hr hf
      rw [hmerge]
      refine ⟨r', hr', hf', fun r₀ hr₀ hid₀ => ?_⟩
      exact Nat.lt_of_lt_of_le (hold r₀ hr₀ (hid₀.trans hid')) hlen'
    · have hskip : mergeFile dir file m = (m, some ()) := by simp only [mergeFile, incoming_of_known hknown]
      rw [hskip]
      exact ih hrest

/-! ## One message -/

/-- A call changes the records of the folder exactly when the folder is known and the
    message has news. -/
theorem index_changes_iff (n : Node) (folder : Text) (files : List FileInfo) :
    (run nodeDo (handleIndex folder files) n).1.store.index folder ≠ n.store.index folder ↔
      (n.store.getSyncDirectory folder).isSome = true ∧ Brings (n.store.index folder) files := by
  cases hdir : n.store.getSyncDirectory folder with
  | none =>
    rw [run_handleIndex_unknown hdir]
    simp
  | some dir =>
    have hid := getSyncDirectory_id hdir
    subst hid
    have hm := aligned_start n.store dir
    rw [(run_handleIndex_store hdir files).1]
    constructor
    · intro hne
      refine ⟨rfl, by_contra fun hnot => hne ?_⟩
      rw [mergeFiles_of_not_brings (m := .start n.store dir) hnot]
      rfl
    · intro h he
      obtain ⟨r, hr, hf, hold⟩ := mergeFiles_of_brings hm h.2
      -- The record is in both, and by its id it is an old one.
      have hmem : r.file ∈ n.store.index dir.id := by
        rw [← he]
        exact List.mem_map_of_mem (List.mem_filter.mpr ⟨hr, by simpa using hf⟩)
      obtain ⟨r₀, hr₀, hfile⟩ := List.mem_map.mp hmem
      have hid₀ : r₀.id = r.id := by
        have := congrArg SyncFile.id hfile
        exact Option.some.inj this
      have hvs : r₀.versions = r.versions := congrArg SyncFile.versions hfile
      have hlt := hold r₀ (List.mem_filter.mp hr₀).1 hid₀
      rw [hvs] at hlt
      exact Nat.lt_irrefl _ hlt

/-- The records of a folder change only when it is shared with the sender: exactly when it
    is, or nothing changes because the folder is unknown or the message has no news. -/
theorem index_authorised_iff (n : Node) (peer : Peer) (folder : Text) (files : List FileInfo) :
    ((run nodeDo (handleIndex folder files) n).1.store.index folder ≠ n.store.index folder →
        n.store.isDirectorySynced folder peer.id = true) ↔
      n.store.isDirectorySynced folder peer.id = true ∨ n.store.getSyncDirectory folder = none ∨
        ¬ Brings (n.store.index folder) files := by
  rw [index_changes_iff]
  constructor
  · intro h
    by_cases hdir : n.store.getSyncDirectory folder = none
    · exact Or.inr (Or.inl hdir)
    · by_cases hnews : Brings (n.store.index folder) files
      · exact Or.inl (h ⟨Option.isSome_iff_ne_none.mpr hdir, hnews⟩)
      · exact Or.inr (Or.inr hnews)
  · intro h hchange
    rcases h with h | h | h
    · exact h
    · rw [h] at hchange; cases hchange.1
    · exact absurd hchange.2 h

/-- The tests' folder, shared with the first of two known peers only. -/
def guardedNode : Node :=
  { History.fileNode History.fileContents with
    store := Store.empty [⟨['d'], ['d'], some ['/', 'd']⟩] [⟨1, some [1], ['p']⟩, ⟨2, some [2], ['q']⟩] [⟨['d'], 1⟩] 7 }

def foreignFile : FileInfo := ⟨['f'], 9, some [⟨9, 0⟩], [⟨0, 11, History.fileHash⟩]⟩

/-- The second peer, with which nothing is shared, adds a record to the folder. -/
theorem unshared_index_accepted :
    peerOf guardedNode ⟨some [2]⟩ = some ⟨2, some [2], ['q']⟩ ∧
    guardedNode.store.isDirectorySynced ['d'] 2 = false ∧
    ¬ ((run nodeDo (handleIndex ['d'] [foreignFile]) guardedNode).1.store.index ['d'] ≠ guardedNode.store.index ['d'] →
      guardedNode.store.isDirectorySynced ['d'] 2 = true) := by
  decide +kernel

end BepRs.Access
