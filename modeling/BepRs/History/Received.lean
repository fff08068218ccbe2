/-
  BepRs.History.Received — the entries of a message, one by one (`handle_index` in
  `src/peer_connection/handlers.rs`).

  An entry has a version and blocks only where the peer says so: a deleted file and a
  directory come without blocks. `handle_index` unwraps the version of every entry, takes the
  first block of every entry it writes, and `update_sync_file` asserts that there is a
  version. An entry of a file it knows is passed over when its counters are no more than the
  local copy has.
  - `tolerates_iff`: exactly which messages it gets through.

  What it does with an entry depends on the numbers of counters. Read as version vectors
  (`clock`), the counters have an order of their own.
  - `adopted_iff`: exactly which entries with a dominating version it takes over.
-/

import BepRs.History.Unique
import BepRs.Lib.Clock

namespace BepRs.History

open BepRs.Lib BepRs.Lib.Clock BepRs.Lib.Path BepRs.Lib.Task BepRs.State BepRs.Sync

/-! ## Entries that are not well formed -/

def WellFormed (file : FileInfo) : Prop := file.version.getD [] ≠ [] ∧ file.blocks ≠ []

instance (file : FileInfo) : Decidable (WellFormed file) := inferInstanceAs (Decidable (_ ∧ _))

/-- The message is handled without a panic, and its well-formed entries do to the store what
    they do without the others. -/
def Tolerates (n : Node) (folderId : Text) (files : List FileInfo) : Prop :=
  (run nodeDo (handleIndex folderId files) n).2.isSome = true ∧
    (run nodeDo (handleIndex folderId files) n).1.store =
      (run nodeDo (handleIndex folderId (files.filter WellFormed)) n).1.store

/-- The name has a record when the message comes, and the record or an earlier entry of the
    name has `k` counters at least. -/
def Reaches (s : Store) (dirId : Text) (earlier : List FileInfo) (name : Text) (k : Nat) : Prop :=
  ∃ r, s.lookup dirId name = some r ∧
    (k ≤ r.versions.length ∨ ∃ g ∈ earlier, g.name = name ∧ ∃ cs, g.version = some cs ∧ k ≤ cs.length)

/-- The loop gets over an entry: it is well formed, or it has a version that is passed over. -/
def Acceptable (s : Store) (dirId : Text) (earlier : List FileInfo) (file : FileInfo) : Prop :=
  WellFormed file ∨ ∃ cs, file.version = some cs ∧ Reaches s dirId earlier file.name cs.length

theorem wellFormed_iff {file : FileInfo} :
    WellFormed file ↔ ∃ cs first, file.version = some cs ∧ cs ≠ [] ∧ file.blocks.head? = some first := by
  unfold WellFormed
  constructor
  · rintro ⟨hversion, hblocks⟩
    cases hv : file.version with
    | none => rw [hv] at hversion; exact absurd rfl hversion
    | some cs =>
      rw [hv] at hversion
      obtain ⟨first, rest, he⟩ := List.exists_cons_of_ne_nil hblocks
      exact ⟨cs, first, rfl, hversion, by rw [he]; rfl⟩
  · rintro ⟨cs, first, hv, hne, hfirst⟩
    exact ⟨by rw [hv]; exact hne, fun hnil => by rw [hnil] at hfirst; cases hfirst⟩

def PassedOver (l : List SyncFile) (file : FileInfo) : Prop :=
  ∃ cs, file.version = some cs ∧
    ∃ x, l.find? (fun x => x.getName = file.name) = some x ∧ cs.length ≤ x.versions.length

theorem incoming_passedOver {l : List SyncFile} {file : FileInfo} : incoming l file = some none ↔ PassedOver l file := by
  unfold incoming PassedOver
  cases l.find? fun x => x.getName = file.name with
  | none => cases file.blocks.head? <;> cases file.version <;> simp
  | some x =>
    cases file.version with
    | none => simp
    | some cs => by_cases hlen : x.versions.length ≥ cs.length <;> cases file.blocks.head? <;> simp [hlen]

theorem mergeFile_written {dir : SyncDirectory} {m : Merging} (hm : m.Aligned dir) {file : FileInfo} {f : SyncFile}
    (hin : incoming m.localindex file = some (some f)) : (mergeFile dir file m).2.isSome = true ↔ f.versions ≠ [] := by
  by_cases hv : f.versions = []
  · simp [mergeFile, hin, m.store.records_updateSyncFile_nil dir hv, hv]
  · refine iff_of_true ?_ hv
    obtain ⟨first, cs, -, -, -, -, -, -, hcase⟩ := incoming_cases hin
    rcases hcase with ⟨x, hx, -⟩ | ⟨-, hid, -⟩
    · obtain ⟨r, -, -, -, heq, -⟩ := mergeFile_found hm hin hx
      rw [heq]; rfl
    · have hret : (m.store.updateSyncFile dir f).2 = some () := by
        rw [m.store.updateSyncFile_returns dir hv, Store.storedCount, m.store.stored_new hid]; simp
      simp only [mergeFile, hin, hret, Option.isSome_some]

/-- A pass gets over an entry that is well formed, or passed over. -/
theorem mergeFile_isSome {dir : SyncDirectory} {m : Merging} (hm : m.Aligned dir) (file : FileInfo) :
    (mergeFile dir file m).2.isSome = true ↔ WellFormed file ∨ PassedOver m.localindex file := by
  rw [wellFormed_iff, ← incoming_passedOver]
  cases hin : incoming m.localindex file with
  | none =>
    simp only [mergeFile, hin, Option.isSome_none, Bool.false_eq_true, reduceCtorEq, or_false, false_iff]
    rintro ⟨cs, first, hv, -, hfirst⟩
    unfold incoming at hin
    rw [hv, hfirst] at hin
    split at hin
    · simp only [Option.bind_eq_bind, Option.bind_some] at hin
      split at hin <;> cases hin
    · cases hin
  | some w =>
    cases w with
    | none => simp [mergeFile, hin]
    | some f =>
      obtain ⟨first, cs, hfirst, hv, hvs, -⟩ := incoming_cases hin
      rw [mergeFile_written hm hin, hvs]
      constructor
      · intro hne
        exact Or.inl ⟨cs, first, hv, fun hnil => hne (by rw [hnil]; rfl), hfirst⟩
      · rintro (⟨cs', first', hv', hne, -⟩ | hskip)
        · rw [hv] at hv'
          cases hv'
          exact fun hnil => hne (List.map_eq_nil_iff.mp hnil)
        · cases hskip

theorem mergeFile_malformed {dir : SyncDirectory} {m m' : Merging} (hm : m.Aligned dir) {file : FileInfo}
    (hmal : ¬ WellFormed file) (h : mergeFile dir file m = (m', some ())) : m' = m := by
  have hskip := ((mergeFile_isSome hm file).mp (by rw [h]; rfl)).resolve_left hmal
  rw [← incoming_passedOver] at hskip
  simp only [mergeFile, hskip, Prod.mk.injEq] at h
  exact h.1.symm

theorem mergeFiles_filter {dir : SyncDirectory} : ∀ {files : List FileInfo} {m m' : Merging}, m.Aligned dir →
    mergeFiles dir files m = (m', some ()) → mergeFiles dir (files.filter WellFormed) m = (m', some ()) := by
  intro files
  induction files with
  | nil => intro m m' _ h; exact h
  | cons file files ih =>
    intro m m' hm h
    rw [mergeFiles] at h
    rcases hone : mergeFile dir file m with ⟨m₁, _ | ⟨⟩⟩ <;> rw [hone] at h
    · cases h
    have hrest := ih (local_stored hm hone) h
    by_cases hwell : WellFormed file
    · rw [List.filter_cons_of_pos (by simpa using hwell), mergeFiles, hone]
      exact hrest
    · rw [List.filter_cons_of_neg (by simpa using hwell)]
      obtain rfl := mergeFile_malformed hm hwell hone
      exact hrest

/-! ## How many counters the local copy has -/

/-- A name has an entry with `k` counters at least in the local copy. -/
def Counts (l : List SyncFile) (name : Text) (k : Nat) : Prop :=
  ∃ x, l.find? (fun x => x.getName = name) = some x ∧ k ≤ x.versions.length

theorem counts_mergeFile {dir : SyncDirectory} {m m' : Merging} {file : FileInfo}
    (h : mergeFile dir file m = (m', some ())) (name : Text) (k : Nat) :
    Counts m'.localindex name k ↔ Counts m.localindex name k ∨
      (∃ x, m.localindex.find? (fun x => x.getName = name) = some x) ∧ file.name = name ∧
        ∃ cs, file.version = some cs ∧ k ≤ cs.length := by
  unfold Counts
  cases hin : incoming m.localindex file with
  | none => simp only [mergeFile, hin, Prod.mk.injEq] at h; cases h.2
  | some w =>
    cases w with
    | none =>
      simp only [mergeFile, hin, Prod.mk.injEq] at h
      rw [← h.1]
      refine ⟨Or.inl, ?_⟩
      rintro (hold | ⟨-, rfl, cs, hcs, hk⟩)
      · exact hold
      · obtain ⟨cs', hcs', x, hx, hle⟩ := incoming_passedOver.mp hin
        rw [hcs] at hcs'
        cases hcs'
        exact ⟨x, hx, Nat.le_trans hk hle⟩
    | some f =>
      have hlocal : m'.localindex = setFirst (fun x => x.getName = file.name) f m.localindex := by
        simp only [mergeFile, hin] at h
        split at h
        · cases h
        · cases h; rfl
      rw [hlocal]
      obtain ⟨first, cs, -, hcs, hvs, -, -, -, hcase⟩ := incoming_cases hin
      have hlen : f.versions.length = cs.length := by rw [hvs, List.length_map]
      rcases hcase with ⟨x, hx, hlt, -, hpath, -⟩ | ⟨hnone, -⟩
      · have hname : f.getName = file.name := by
          rw [getName_eq, hpath, ← getName_eq]
          simpa using List.find?_some hx
        by_cases hsame : file.name = name
        · subst hsame
          rw [find?_setFirst_eq (p := fun x : SyncFile => decide (x.getName = file.name)) (by simpa using hname) hx, hx]
          simp only [Option.some.injEq, exists_eq_left', hcs, exists_eq', true_and, hlen]
          omega
        · rw [find?_name_setFirst hname hsame]
          simp [hsame]
      · rw [setFirst_of_find?_none hnone]
        refine ⟨Or.inl, ?_⟩
        rintro (hold | ⟨⟨x, hx⟩, rfl, -⟩)
        · exact hold
        · rw [hnone] at hx; cases hx

theorem counts_start {s : Store} {dir : SyncDirectory} {name : Text} {k : Nat} :
    Counts (Merging.start s dir).localindex name k ↔ ∃ r, s.lookup dir.id name = some r ∧ k ≤ r.versions.length := by
  show (∃ x, (s.index dir.id).find? (fun x => x.getName = name) = some x ∧ k ≤ x.versions.length) ↔ _
  rw [s.find?_index]
  cases s.lookup dir.id name with
  | none => simp
  | some r => simp [Rec.file]

theorem counts_mergeFiles {s : Store} {dir : SyncDirectory} {name : Text} : ∀ {earlier : List FileInfo} {m : Merging} {k : Nat},
    mergeFiles dir earlier (.start s dir) = (m, some ()) →
      (Counts m.localindex name k ↔ Reaches s dir.id earlier name k) := by
  intro earlier
  induction earlier using List.reverseRecOn with
  | nil =>
    intro m k h
    cases h
    rw [counts_start]
    simp [Reaches]
  | append_singleton earlier g ih =>
    intro m k h
    rw [mergeFiles_append] at h
    rcases hbefore : mergeFiles dir earlier (.start s dir) with ⟨m₀, _ | ⟨⟩⟩ <;> rw [hbefore] at h
    · cases h
    simp only [mergeFiles] at h
    rcases hone : mergeFile dir g m₀ with ⟨m₁, _ | ⟨⟩⟩ <;> rw [hone] at h
    · cases h
    cases h
    -- a name is in the copy when it has a record
    have hfound : (∃ x, m₀.localindex.find? (fun x => x.getName = name) = some x) ↔ ∃ r, s.lookup dir.id name = some r := by
      have hzero := @ih m₀ 0 hbefore
      simp only [Counts, Reaches, Nat.zero_le, true_or, and_true] at hzero
      exact hzero
    rw [counts_mergeFile hone name k, ih hbefore, hfound]
    unfold Reaches
    constructor
    · rintro (⟨r, hl, hk | ⟨x, hx, hrest⟩⟩ | ⟨⟨r, hl⟩, hname, hcs⟩)
      · exact ⟨r, hl, Or.inl hk⟩
      · exact ⟨r, hl, Or.inr ⟨x, List.mem_append_left _ hx, hrest⟩⟩
      · exact ⟨r, hl, Or.inr ⟨g, List.mem_append_right _ (List.mem_singleton_self g), hname, hcs⟩⟩
    · rintro ⟨r, hl, hk | ⟨x, hx, hname, hcs⟩⟩
      · exact Or.inl ⟨r, hl, Or.inl hk⟩
      · rcases List.mem_append.mp hx with hx | hx
        · exact Or.inl ⟨r, hl, Or.inr ⟨x, hx, hname, hcs⟩⟩
        · rw [List.mem_singleton.mp hx] at hname hcs
          exact Or.inr ⟨⟨r, hl⟩, hname, hcs⟩

theorem mergeFiles_isSome {s : Store} {dir : SyncDirectory} : ∀ {files : List FileInfo},
    (mergeFiles dir files (.start s dir)).2.isSome = true ↔
      ∀ i file, files[i]? = some file → Acceptable s dir.id (files.take i) file := by
  intro files
  induction files using List.reverseRecOn with
  | nil => simp [mergeFiles]
  | append_singleton files file ih =>
    -- the entries before the last, and the last
    have hsplit : (∀ i g, (files ++ [file])[i]? = some g → Acceptable s dir.id ((files ++ [file]).take i) g) ↔
        (∀ i g, files[i]? = some g → Acceptable s dir.id (files.take i) g) ∧ Acceptable s dir.id files file := by
      constructor
      · intro h
        refine ⟨fun i g hg => ?_, ?_⟩
        · have hi := (List.getElem?_eq_some_iff.mp hg).1
          have hone := h i g (by rw [List.getElem?_append_left hi]; exact hg)
          rwa [List.take_append_of_le_length (Nat.le_of_lt hi)] at hone
        · have hone := h files.length file List.getElem?_concat_length
          rwa [List.take_left] at hone
      · rintro ⟨hbefore, hlast⟩ i g hg
        rcases Nat.lt_or_ge i files.length with hi | hi
        · rw [List.getElem?_append_left hi] at hg
          rw [List.take_append_of_le_length (Nat.le_of_lt hi)]
          exact hbefore i g hg
        · have hlt := (List.getElem?_eq_some_iff.mp hg).1
          rw [List.length_append, List.length_singleton] at hlt
          obtain rfl : i = files.length := by omega
          rw [List.getElem?_concat_length] at hg
          rw [List.take_left, ← Option.some.inj hg]
          exact hlast
    rw [hsplit, ← ih, mergeFiles_append]
    rcases hbefore : mergeFiles dir files (.start s dir) with ⟨m, _ | ⟨⟩⟩
    · simp
    · obtain ⟨hm, -⟩ := mergeFiles_local (aligned_start s dir) hbefore
      have hone := mergeFile_isSome hm file
      have hpassed : PassedOver m.localindex file ↔ ∃ cs, file.version = some cs ∧
          Reaches s dir.id files file.name cs.length := by
        refine exists_congr fun cs => and_congr_right fun _ => ?_
        exact counts_mergeFiles hbefore
      rw [hpassed] at hone
      simp only [mergeFiles]
      rcases hlast : mergeFile dir file m with ⟨m', _ | ⟨⟩⟩ <;> rw [hlast] at hone
      · simpa [Acceptable] using hone
      · simpa [Acceptable] using hone

/-- **Which messages `handle_index` tolerates.** It gets through a message, whose well-formed
    entries then do what they do without the others, exactly if the folder is known and every
    entry is well formed, or has a version with no more counters than the record its name has
    when the message comes or than an earlier entry of that name. -/
theorem tolerates_iff (n : Node) (folderId : Text) (files : List FileInfo) :
    Tolerates n folderId files ↔ ∃ dir, n.store.getSyncDirectory folderId = some dir ∧
      ∀ i file, files[i]? = some file → Acceptable n.store dir.id (files.take i) file := by
  unfold Tolerates
  cases hdir : n.store.getSyncDirectory folderId with
  | none =>
    rw [run_handleIndex_unknown hdir]
    simp
  | some dir =>
    rw [(run_handleIndex_store hdir files).1, (run_handleIndex_store hdir files).2, (run_handleIndex_store hdir _).1]
    simp only [Option.some.injEq, exists_eq_left', ← mergeFiles_isSome, and_iff_left_iff_imp]
    intro hsome
    rcases hmerge : mergeFiles dir files (.start n.store dir) with ⟨m, _ | ⟨⟩⟩
    · rw [hmerge] at hsome; cases hsome
    · rw [mergeFiles_filter (aligned_start n.store dir) hmerge]

/-- A deleted file comes without blocks. -/
def deletedInfo : FileInfo := ⟨['g'], 0, some [⟨9, 0⟩, ⟨9, 1⟩], []⟩

/-- The peer's new file is not recorded, as a deleted one comes before it. -/
theorem deleted_panics : ¬ ∀ (n : Node) (folderId : Text) (files : List FileInfo), Tolerates n folderId files := by
  intro h
  have hreturns := (h (fileNode fileContents) ['d'] [deletedInfo, peerInfo ['f']]).1
  exact absurd hreturns (by decide +kernel)

/-! ## Dominating versions -/

/-- The counters of a history as numbers. -/
def ticks (vs : List Version) : List (UInt64 × Nat) := vs.map fun v => (v.1, v.2.toNat)

/-- A history dominates another: no device's greatest counter is less, and one is greater or
    new. -/
def Dominates (received stored : List Version) : Prop := clock (ticks stored) < clock (ticks received)

instance (received stored : List Version) : Decidable (Dominates received stored) :=
  inferInstanceAs (Decidable (clock _ < clock _))

theorem Dominates.ne {received stored : List Version} (h : Dominates received stored) : stored ≠ received := by
  rintro rfl
  exact lt_irrefl _ h

/-- After the pass, the record of the id has the received versions and the entry's blocks. -/
def Takes (dir : SyncDirectory) (file : FileInfo) (m : Merging) (id : Nat) (received : List Version) : Prop :=
  (mergeFile dir file m).2.isSome = true ∧ ∃ r ∈ (mergeFile dir file m).1.store.records,
    r.id = id ∧ r.versions = received ∧ r.blocks = Tables.sortBlocks (file.blocks.map BlockInfo.syncBlock)

theorem mergeFile_keeps {dir : SyncDirectory} {m : Merging} (hm : m.Aligned dir) {file : FileInfo} {r : Rec}
    (hr : r ∈ m.store.records)
    (hother : (m.localindex.find? fun x => x.getName = file.name).map SyncFile.id ≠ some (some r.id)) :
    r ∈ (mergeFile dir file m).1.store.records := by
  have hpass := pass_mergeFile hm file
  rcases hmerge : mergeFile dir file m with ⟨m', u⟩
  rw [hmerge] at hpass
  cases hpass with
  | skip u => exact hr
  | found f x r' hx hmir hr' hin htarget hstored hname =>
    refine (m.store.mem_updateSyncFile_of_ne dir fun he => hother ?_).mpr hr
    rw [hx, Option.map_some, hmir.id, he, htarget]
  | new f hx hin hid hv => exact m.store.mem_updateSyncFile_new dir hid hr

theorem takes_other {dir : SyncDirectory} {m : Merging} (hm : m.Aligned dir) {file : FileInfo} {r : Rec}
    {received : List Version} (hr : r ∈ m.store.records)
    (hother : (m.localindex.find? fun x => x.getName = file.name).map SyncFile.id ≠ some (some r.id))
    (hne : r.versions ≠ received) : ¬ Takes dir file m r.id received := by
  rintro ⟨-, r', hr', hid, hversions, -⟩
  have hkept := mergeFile_keeps hm hr hother
  obtain rfl := List.inj_on_of_nodup_map (Store.records_nodup _) hr' hkept hid
  exact hne hversions

/-- A pass over the record it finds: the history it writes begins with the one that was there. -/
theorem takes_first {dir : SyncDirectory} {m : Merging} (hm : m.Aligned dir) {file : FileInfo} {cs : List Counter}
    (hcs : file.version = some cs) (hblocks : file.blocks ≠ []) {y : SyncFile}
    (hy : m.localindex.find? (fun x => x.getName = file.name) = some y) {r : Rec} (hr : r ∈ m.store.records)
    (hid : y.id = some r.id) (hne : r.versions ≠ cs.map Counter.version) :
    Takes dir file m r.id (cs.map Counter.version) ↔ r.versions <+: cs.map Counter.version := by
  have hlen : y.versions.length = r.versions.length := by
    obtain ⟨r', hr', hmir⟩ := hm.mirrors y (List.mem_of_find?_eq_some hy)
    obtain rfl := List.inj_on_of_nodup_map m.store.records_nodup hr' hr (Option.some.inj (hmir.id.symm.trans hid))
    exact hmir.length
  by_cases hshort : cs.length ≤ y.versions.length
  · -- passed over: the record keeps its history, which is not the received one
    have hskip := incoming_passedOver.mpr ⟨cs, hcs, y, hy, hshort⟩
    have hsame : mergeFile dir file m = (m, some ()) := by simp only [mergeFile, hskip]
    refine iff_of_false ?_ fun hpre => hne (hpre.eq_of_length_le (by rw [List.length_map]; omega))
    rintro ⟨-, r', hr', hid', hversions, -⟩
    rw [hsame] at hr'
    obtain rfl := List.inj_on_of_nodup_map m.store.records_nodup hr' hr hid'
    exact hne hversions
  · obtain ⟨first, rest, hhead⟩ := List.exists_cons_of_ne_nil hblocks
    obtain ⟨f, hin⟩ : ∃ f, incoming m.localindex file = some (some f) := by
      unfold incoming
      simp [hy, hcs, hhead, show ¬ y.versions.length ≥ cs.length by omega]
    obtain ⟨r', hr', hmir, -, heq, hrecords⟩ := mergeFile_found hm hin hy
    obtain rfl := List.inj_on_of_nodup_map m.store.records_nodup hr' hr (Option.some.inj (hmir.id.symm.trans hid))
    obtain ⟨-, cs', -, hcs', hversions, -, hfblocks, -⟩ := incoming_cases hin
    rw [hcs] at hcs'
    cases hcs'
    have hwritten : (Rec.write (some r') r'.id dir f).blocks = Tables.sortBlocks (file.blocks.map BlockInfo.syncBlock) := by
      have hnonempty : f.blocks ≠ [] := by rw [hfblocks]; simpa using hblocks
      show (if _ then _ else _) = _
      rw [if_neg, hfblocks]
      rw [hversions, List.length_map, Option.map_some, Option.getD_some]
      exact not_or.mpr ⟨by omega, hnonempty⟩
    rw [← Chain.extend_eq_iff, ← hversions]
    unfold Takes
    simp only [heq, hrecords, Keyed.mem_upsert _ m.store.records_nodup]
    constructor
    · rintro ⟨-, r'', hr'' | ⟨-, hother⟩, hid'', hv, -⟩
      · rw [hr''] at hv; exact hv
      · exact absurd hid'' hother
    · intro hv
      exact ⟨rfl, _, Or.inl rfl, rfl, hv, hwritten⟩

/-- An entry with a version and blocks that `handle_index` comes to, and a record of its name at
    that moment. The message may go on after the entry. -/
structure Arrival where
  node : Node
  folderId : Text
  dir : SyncDirectory
  configured : node.store.getSyncDirectory folderId = some dir
  /-- The entries before it. -/
  earlier : List FileInfo
  merged : (run nodeDo (handleIndex folderId earlier) node).2.isSome = true
  file : FileInfo
  counters : List Counter
  version : file.version = some counters
  blocks : file.blocks ≠ []
  record : Rec
  stored : record ∈ (run nodeDo (handleIndex folderId earlier) node).1.store.records
  folder : record.folder = dir.id
  name : record.name = file.name

namespace Arrival

variable (x : Arrival)

def received : List Version := x.counters.map Counter.version

def Adopted : Prop :=
  (run nodeDo (handleIndex x.folderId (x.earlier ++ [x.file])) x.node).2.isSome = true ∧
    ∃ r ∈ (run nodeDo (handleIndex x.folderId (x.earlier ++ [x.file])) x.node).1.store.records, r.id = x.record.id ∧
      r.versions = x.received ∧ r.blocks = Tables.sortBlocks (x.file.blocks.map BlockInfo.syncBlock)

instance : Decidable x.Adopted := inferInstanceAs (Decidable (_ ∧ ∃ r ∈ _, _))

def First : Prop := (x.node.store.lookup x.dir.id x.file.name).map Rec.id = some x.record.id

theorem merging : ∃ m, mergeFiles x.dir x.earlier (.start x.node.store x.dir) = (m, some ()) ∧ m.Aligned x.dir ∧
    x.record ∈ m.store.records ∧
    (m.localindex.find? fun f => f.getName = x.file.name).map SyncFile.id =
      (x.node.store.lookup x.dir.id x.file.name).map fun r => some r.id := by
  have hmerged := x.merged
  have hstored := x.stored
  rw [(run_handleIndex_store x.configured _).2] at hmerged
  rw [(run_handleIndex_store x.configured _).1] at hstored
  rcases hm : mergeFiles x.dir x.earlier (.start x.node.store x.dir) with ⟨m, _ | ⟨⟩⟩ <;> rw [hm] at hmerged hstored
  · cases hmerged
  · obtain ⟨haligned, hids⟩ := mergeFiles_local (aligned_start x.node.store x.dir) hm
    refine ⟨m, rfl, haligned, hstored, ?_⟩
    rw [hids]
    show (((x.node.store.index x.dir.id).find? _).map SyncFile.id) = _
    rw [x.node.store.find?_index, Option.map_map]
    rfl

theorem run_entry {m : Merging} (hm : mergeFiles x.dir x.earlier (.start x.node.store x.dir) = (m, some ())) :
    x.Adopted ↔ Takes x.dir x.file m x.record.id x.received := by
  unfold Adopted Takes
  rw [(run_handleIndex_store x.configured _).1, (run_handleIndex_store x.configured _).2, mergeFiles_append, hm]
  simp only [mergeFiles]
  rcases mergeFile x.dir x.file m with ⟨m', _ | ⟨⟩⟩ <;> rfl

end Arrival

/-- **Which dominating versions are adopted.** Of an entry whose version dominates the record's,
    `handle_index` takes over the versions and the blocks exactly if the record is the first of
    its name in the folder when the message comes, and its history is a prefix of the entry's:
    the order of the counters plays no part. -/
theorem adopted_iff (x : Arrival) (h : Dominates x.received x.record.versions) :
    x.Adopted ↔ x.First ∧ x.record.versions <+: x.received := by
  obtain ⟨m, hm, haligned, hstored, hids⟩ := x.merging
  rw [x.run_entry hm]
  by_cases hfirst : x.First
  · -- the copy's entry of the name has the record's id
    have hfound : (m.localindex.find? fun f => f.getName = x.file.name).map SyncFile.id = some (some x.record.id) := by
      obtain ⟨r, hr, hid⟩ := Option.map_eq_some_iff.mp hfirst
      rw [hids, hr, Option.map_some, hid]
    obtain ⟨y, hy, hid⟩ := Option.map_eq_some_iff.mp hfound
    rw [and_iff_right hfirst]
    exact takes_first haligned x.version x.blocks hy hstored hid h.ne
  · refine iff_of_false (takes_other haligned hstored (fun hfound => hfirst ?_) h.ne) fun hboth => hfirst hboth.1
    rw [hids] at hfound
    obtain ⟨r, hr, hid⟩ := Option.map_eq_some_iff.mp hfound
    rw [Arrival.First, hr, Option.map_some, Option.some.inj hid]

/-- The record of the tests' file, indexed by the node. -/
def arrivedOver : Rec := ⟨1, ['d'], ['f'], fileHash, 7, 0, [(7, 0)], [⟨0, 11, fileHash⟩]⟩

theorem arrival_configured : fileIndexed.store.getSyncDirectory ['d'] = some fileDir := by decide +kernel

theorem arrival_merged : (run nodeDo (handleIndex ['d'] []) fileIndexed).2.isSome = true := by decide +kernel

theorem arrival_stored : arrivedOver ∈ (run nodeDo (handleIndex ['d'] []) fileIndexed).1.store.records := by
  decide +kernel

/-- Another history of the file comes, with other contents. -/
def arrival (cs : List Counter) : Arrival where
  node := fileIndexed
  folderId := ['d']
  dir := fileDir
  configured := arrival_configured
  earlier := []
  merged := arrival_merged
  file := ⟨['f'], 0, some cs, [⟨0, 17, fileHash2⟩]⟩
  counters := cs
  version := rfl
  blocks := List.cons_ne_nil _ _
  record := arrivedOver
  stored := arrival_stored
  folder := rfl
  name := rfl

theorem adopted_extending : (arrival [⟨7, 0⟩, ⟨9, 1⟩]).Adopted :=
  (adopted_iff (arrival [⟨7, 0⟩, ⟨9, 1⟩]) (by decide +kernel)).mpr ⟨rfl, by decide +kernel⟩

/-- The device raised its counter: the version dominates the node's, and is not adopted. -/
theorem raised_not_adopted : ¬ ∀ x : Arrival, Dominates x.received x.record.versions → x.Adopted := by
  intro h
  exact absurd (h (arrival [⟨7, 1⟩]) (by decide +kernel)) (by decide +kernel)

end BepRs.History
