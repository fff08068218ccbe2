/-
  BepRs.History.Unique — how many rows a folder has for one name.

  No constraint of the tables keeps a second row of a name out. A call of
  `update_sync_file` does when the name's rows are all the row it writes to
  (`single_updateSyncFile`). `generate_index` looks the names of a directory up in the
  index, and a directory has each name once, so it adds no second row
  (`single_generateIndex`); nor does `get_file` on the records of the index
  (`single_getDirectory`). `handle_index` looks up the received name as it is, in an index
  it read before the loop and does not add to, and stores the name's normal form.

  - `one_row_per_name`: in every run whose calls do not name a new file twice (`Meets`),
    every folder has at most one row of each name.
  - `two_rows_of_a_name`: runs that end with two.
-/

import BepRs.History.Network
import BepRs.Sync.Fetch

namespace BepRs.History

open BepRs.Lib BepRs.Lib.Path BepRs.Lib.Task BepRs.State BepRs.Sync

/-! ## The calls -/

inductive Call where
  | handleIndex (folder : Text) (files : List FileInfo)
  | generateIndex (dir : SyncDirectory)
  | getFile (dir : SyncDirectory) (file : SyncFile)
  | getDirectory (dir : SyncDirectory)

variable (sha256 : Bytes → Bytes)

def Call.task : Call → BepProg Unit
  | .handleIndex folder files => Sync.handleIndex folder files
  | .generateIndex dir => do let _ ← Sync.generateIndex sha256 dir
  | .getFile dir file => do let _ ← Sync.getFile sha256 dir file
  | .getDirectory dir => do let _ ← Sync.getDirectory sha256 dir

/-- The node after a call was run to its end. -/
def Call.done (c : Call) (n : Node) : Node := (run nodeDo (c.task sha256) n).1

/-- The states a node reaches from an empty store by calls that satisfy `C`, each run to its
    end; between two calls anything but the records may change. -/
inductive Calls (C : Node → Call → Prop) : Node → Prop
  | init {n : Node} : n.store.records = [] → Calls C n
  | outside {n n' : Node} : Calls C n → n'.store.records = n.store.records → Calls C n'
  | call {n : Node} {c : Call} : Calls C n → C n c → Calls C (c.done sha256 n)

theorem run_drop {α : Type} (p : BepProg α) (n : Node) :
    (run nodeDo (do let _ ← p : BepProg Unit) n).1 = (run nodeDo p n).1 := by
  rw [run_bind]
  rcases run nodeDo p n with ⟨n', _ | a⟩ <;> rfl

/-! ## One write -/

def Singles (s : Store) : Prop := ∀ folder, s.Single folder

theorem singles_congr {s s' : Store} (h : s'.records = s.records) (hs : Singles s) : Singles s' := by
  intro folder
  rw [Store.Single, h]; exact hs folder

/-- A write to the row that all rows of the name are. -/
theorem single_updateSyncFile {s : Store} (hs : Singles s) (dir : SyncDirectory) {f : SyncFile}
    (hown : ∀ r ∈ s.records, r.folder = dir.id → r.name = f.getName → r.id = s.target f) :
    Singles (s.updateSyncFile dir f).1 := fun folder => (hs folder).update dir hown

/-- A write over a record of the folder, under its name. -/
theorem single_over {s : Store} (hs : Singles s) {dir : SyncDirectory} {f : SyncFile} {r : Rec} (hr : r ∈ s.records)
    (hfolder : r.folder = dir.id) (htarget : s.target f = r.id) (hname : f.getName = r.name) :
    Singles (s.updateSyncFile dir f).1 := by
  refine single_updateSyncFile hs dir fun r' hr' hf' hn' => ?_
  rw [hs dir.id r' hr' r hr hf' hfolder (hn'.trans hname), htarget]

/-! ## Whole calls -/

theorem find?_path_setFirst {file g : Text} {f x : SyncFile} {l : List SyncFile}
    (hx : l.find? (fun x => PathEq x.path file) = some x) (hpath : f.path = x.path)
    (h : (setFirst (fun x => PathEq x.path file) f l).find? (fun x => PathEq x.path g) = none) :
    l.find? (fun x => PathEq x.path g) = none := by
  rw [List.find?_eq_none] at h ⊢
  intro y hy
  have hmem : y.path ∈ (setFirst (fun x => PathEq x.path file) f l).map SyncFile.path := by
    rw [map_setFirst hx hpath]; exact List.mem_map_of_mem hy
  obtain ⟨z, hz, hzy⟩ := List.mem_map.mp hmem
  rw [← hzy]; exact h z hz

theorem readDir_nodup {n : Node} {path : Text} {files : List Text} (h : n.readDir path = some files) : files.Nodup := by
  unfold Node.readDir at h
  split at h
  · split at h
    · cases h; exact n.disk.nodup_children _
    · cases h
  · cases h

theorem readDir_named {n : Node} {path : Text} {files : List Text} (h : n.readDir path = some files) {file : Text}
    (hf : file ∈ files) : FileName file := by
  unfold Node.readDir at h
  split at h
  · split at h
    · cases h; exact n.disk.mem_children hf
    · cases h
  · cases h

/-- One row of a name, and none yet for the entries that are left and not in the copy. -/
structure Unscanned (dir : SyncDirectory) (files : List Text) (m : Scanning) : Prop where
  single : Singles m.store
  nodup : files.Nodup
  named : ∀ file ∈ files, FileName file
  free : ∀ file ∈ files, m.syncFiles.find? (fun x => PathEq x.path file) = none →
    ∀ r ∈ m.store.records, r.folder = dir.id → r.name ≠ file

theorem unscanned_start {n : Node} (hs : Singles n.store) (dir : SyncDirectory) {path : Text} {files : List Text}
    (hfiles : n.readDir path = some files) : Unscanned dir files (.start n.store dir) := by
  refine ⟨hs, readDir_nodup hfiles, fun file hf => readDir_named hfiles hf, fun file hf hnone r hr hfolder hn => ?_⟩
  have hmem : r.file ∈ n.store.index dir.id :=
    List.mem_map_of_mem (List.mem_filter.mpr ⟨hr, by simpa using hfolder⟩)
  refine List.find?_eq_none.mp hnone r.file hmem ?_
  have : r.file.path = file := hn
  simp [PathEq, this]

theorem unscanned_pass {n : Node} {dir : SyncDirectory} {path : Text} {shortId : UInt64} {file : Text} {files : List Text}
    {m m' : Scanning} {u : Option Unit} (h : Unscanned dir (file :: files) m)
    (hpass : Pass sha256 n dir path shortId file m (m', u)) : Unscanned dir files m' := by
  obtain ⟨hs, hnd, hnames, hfree⟩ := h
  obtain ⟨hnot, hnd⟩ := List.nodup_cons.mp hnd
  have hnames' : ∀ g ∈ files, FileName g := fun g hg => hnames g (List.mem_cons_of_mem _ hg)
  have hfree' := fun g hg => hfree g (List.mem_cons_of_mem _ hg)
  cases hpass with
  | skip out u => exact ⟨hs, hnd, hnames', hfree'⟩
  | next f x r hx hcopy hr hscan htarget hstored hname =>
    refine ⟨single_over hs hr hcopy.folder htarget hname, hnd, hnames', fun g hg hnone r' hr' hf' => ?_⟩
    obtain ⟨last, v, -, -, -, -, hpath, -⟩ := scanned_next sha256 hscan hx
    have hfreeg := hfree' g hg (find?_path_setFirst hx hpath hnone)
    rcases m.store.mem_updateSyncFile_cases dir hr' with hr' | hr'
    · exact hfreeg r' hr' hf'
    · rw [hr']
      show f.getName ≠ g
      rw [hname]; exact hfreeg r hr hcopy.folder
  | new f hx hscan hid =>
    have hname : f.getName = file := by
      rw [getName_eq, (scanned_new sha256 hscan hx).2.1]
      exact join_names_fileName (hnames file List.mem_cons_self)
    refine ⟨single_updateSyncFile hs dir fun r hr hf hn => ?_, hnd, hnames', fun g hg hnone r' hr' hf' => ?_⟩
    · exact absurd (hn.trans hname) (hfree file List.mem_cons_self hx r hr hf)
    · rcases m.store.mem_updateSyncFile_cases dir hr' with hr' | hr'
      · exact hfree' g hg hnone r' hr' hf'
      · rw [hr']
        show f.getName ≠ g
        rw [hname]; exact fun he => hnot (he ▸ hg)

theorem single_generateIndex {n : Node} (hs : Singles n.store) (dir : SyncDirectory) :
    Singles (run nodeDo (generateIndex sha256 dir) n).1.store := by
  rcases run_generateIndex_store sha256 dir n with h | ⟨path, files, -, hfiles, h⟩
  · rw [h]; exact hs
  · rw [h]
    suffices hend : ∃ rest, Unscanned dir rest (scanFiles sha256 n dir path n.store.shortId files (.start n.store dir)).1 by
      obtain ⟨rest, hend⟩ := hend
      exact hend.single
    exact scanFiles_inv (P := Unscanned dir) sha256 (fun _ _ _ _ _ _ h hpass => unscanned_pass sha256 h hpass) files _
      (scan_start n.store dir) (unscanned_start hs dir hfiles)

theorem single_stampTimes {dir : SyncDirectory} {f : SyncFile} {id : Nat} (hf : f.id = some id) :
    ∀ (k : Nat) (s : Store), Singles s → (∀ r ∈ s.records, r.folder = dir.id → r.name = f.getName → r.id = id) →
      Singles (stampTimes dir f k s) := by
  intro k
  induction k with
  | zero => intro s hs _; exact hs
  | succ k ih =>
    intro s hs hown
    have htarget : s.target (stamp f) = id := by rw [Tables.target, stamp, hf]; rfl
    refine ih _ (single_updateSyncFile hs dir fun r hr hfolder hn => ?_) fun r hr hfolder hn => ?_
    · rw [htarget]; exact hown r hr hfolder hn
    · rcases s.mem_updateSyncFile_cases dir hr with hr | hr
      · exact hown r hr hfolder hn
      · rw [hr]; exact htarget

/-- The rows of the name are the one the file names; without an id there is none, and at
    most one block to record it for. -/
def Owns (s : Store) (dir : SyncDirectory) (file : SyncFile) : Prop :=
  (∀ r ∈ s.records, r.folder = dir.id → r.name = file.getName → file.id = some r.id) ∧
    (file.id = none → file.blocks.length ≤ 1)

theorem single_getFile {n : Node} (hs : Singles n.store) {dir : SyncDirectory} {file : SyncFile}
    (hown : Owns n.store dir file) : Singles (run nodeDo (getFile sha256 dir file) n).1.store := by
  obtain ⟨k, hk, hstore, -⟩ := fetched_getFile sha256 dir file n
  rw [hstore]
  cases hid : file.id with
  | some id =>
    refine single_stampTimes hid k n.store hs fun r hr hf hn => ?_
    have := hown.1 r hr hf hn
    rw [hid] at this
    exact (Option.some.inj this).symm
  | none =>
    have hone := hown.2 hid
    match k, hk with
    | 0, _ => exact hs
    | 1, _ =>
      refine single_updateSyncFile hs dir fun r hr hf hn => ?_
      have := hown.1 r hr hf hn
      rw [hid] at this; cases this
    | k + 2, hk => omega

theorem single_getDirectory {n : Node} (hs : Singles n.store) (dir : SyncDirectory) :
    Singles (run nodeDo (getDirectory sha256 dir) n).1.store := by
  have hall : ∀ m, Fetches sha256 dir n m → Singles m.store := by
    intro m h
    induction h with
    | init => exact hs
    | @file m r _ hr hfolder ih =>
      refine single_getFile sha256 ih ⟨fun r' hr' hf' hn' => ?_, fun h => by cases h⟩
      rw [m.store.getName_file hr] at hn'
      rw [ih dir.id r' hr' r hr hf' hfolder hn']; rfl
  exact hall _ (fetches_getDirectory sha256 dir n)

/-- The files of a message that are not in the folder's index, by the name as it is. -/
def newFiles (s : Store) (folder : Text) (files : List FileInfo) : List FileInfo :=
  files.filter fun file => (s.lookup folder file.name).isNone

/-- The new files have different normal names, and none is recorded. -/
def Apart (s : Store) (folder : Text) (files : List FileInfo) : Prop :=
  ((newFiles s folder files).map fun file => normal file.name).Nodup ∧
    ∀ file ∈ newFiles s folder files, s.lookup folder (normal file.name) = none

/-- The files of a message that are not in the local copy. -/
def unlisted (m : Merging) (files : List FileInfo) : List FileInfo :=
  files.filter fun file => (m.localindex.find? fun x => x.getName = file.name).isNone

/-- A pass does not change which names are in the local copy. -/
theorem unlisted_mergeFile {dir : SyncDirectory} {file : FileInfo} {m m' : Merging}
    (h : mergeFile dir file m = (m', some ())) (files : List FileInfo) : unlisted m' files = unlisted m files := by
  refine List.filter_congr fun g _ => ?_
  have hid := find?_id_mergeFile h g.name
  rw [← Option.isNone_map (f := SyncFile.id), hid, Option.isNone_map]

/-- One row of a name, and none yet for the files that are left and not in the copy; these
    have different names. -/
structure Unreceived (dir : SyncDirectory) (files : List FileInfo) (m : Merging) : Prop where
  single : Singles m.store
  nodup : ((unlisted m files).map fun file => normal file.name).Nodup
  free : ∀ file ∈ unlisted m files, ∀ r ∈ m.store.records, r.folder = dir.id → r.name ≠ normal file.name

theorem unreceived_start {n : Node} (hs : Singles n.store) {dir : SyncDirectory} {files : List FileInfo}
    (h : Apart n.store dir.id files) : Unreceived dir files (.start n.store dir) := by
  have hstart : unlisted (.start n.store dir) files = newFiles n.store dir.id files := by
    refine List.filter_congr fun file _ => ?_
    show ((n.store.index dir.id).find? fun x => x.getName = file.name).isNone = _
    rw [n.store.find?_index, Option.isNone_map]
  refine ⟨hs, by rw [hstart]; exact h.1, ?_⟩
  rw [hstart]
  exact fun file hf r hr hfolder => n.store.lookup_none (h.2 file hf) r hr hfolder

theorem unreceived_pass {dir : SyncDirectory} {file : FileInfo} {files : List FileInfo} {m m' : Merging} {u : Option Unit}
    (h : Unreceived dir (file :: files) m) (hmerge : mergeFile dir file m = (m', u)) (hpass : MergePass dir file m (m', u)) :
    Unreceived dir files m' := by
  obtain ⟨hs, hnd, hfree⟩ := h
  have hsub : (unlisted m files).Sublist (unlisted m (file :: files)) :=
    (List.sublist_cons_self file files).filter _
  have hnd' : ((unlisted m files).map fun file => normal file.name).Nodup := hnd.sublist (hsub.map _)
  have hfree' := fun g hg => hfree g (hsub.subset hg)
  cases hpass with
  | skip u => exact ⟨hs, hnd', hfree'⟩
  | found f x r hx hmir hr hin htarget hstored hname =>
    have hsame := unlisted_mergeFile hmerge files
    refine ⟨single_over hs hr hmir.folder htarget hname, by rw [hsame]; exact hnd', ?_⟩
    rw [hsame]
    intro g hg r' hr' hf'
    rcases m.store.mem_updateSyncFile_cases dir hr' with hr' | hr'
    · exact hfree' g hg r' hr' hf'
    · rw [hr']
      show f.getName ≠ _
      rw [hname]; exact hfree' g hg r hr hmir.folder
  | new f hx hin hid hv =>
    have hsame := unlisted_mergeFile hmerge files
    have hhead : unlisted m (file :: files) = file :: unlisted m files := by
      simp only [unlisted, List.filter_cons, hx, Option.isNone_none, if_true]
    have hname : f.getName = normal file.name := by
      rw [getName_eq, (incoming_new hin hx).1]
    refine ⟨single_updateSyncFile hs dir fun r hr hf hn => ?_, by rw [hsame]; exact hnd', ?_⟩
    · refine absurd (hn.trans hname) (hfree file ?_ r hr hf)
      rw [hhead]; exact List.mem_cons_self
    · rw [hsame]
      intro g hg r' hr' hf'
      rcases m.store.mem_updateSyncFile_cases dir hr' with hr' | hr'
      · exact hfree' g hg r' hr' hf'
      · rw [hr']
        show f.getName ≠ _
        rw [hname]
        rw [hhead, List.map_cons, List.nodup_cons] at hnd
        exact fun he => hnd.1 (List.mem_map.mpr ⟨g, hg, he.symm⟩)

theorem single_handleIndex {n : Node} (hs : Singles n.store) {folder : Text} {files : List FileInfo}
    (h : Apart n.store folder files) : Singles (run nodeDo (handleIndex folder files) n).1.store := by
  cases hdir : n.store.getSyncDirectory folder with
  | none => rw [run_handleIndex_unknown hdir]; exact hs
  | some dir =>
    have hid := getSyncDirectory_id hdir
    subst hid
    rw [(run_handleIndex_store hdir files).1]
    obtain ⟨rest, hend⟩ := mergeFiles_inv (P := Unreceived dir)
      (fun _ _ _ _ _ _ h hmerge hpass => unreceived_pass h hmerge hpass) files _ (aligned_start n.store dir)
      (unreceived_start hs h)
    exact hend.single

/-! ## Every run -/

/-- What a call must not do: name a new file twice. -/
def Meets (n : Node) : Call → Prop
  | .handleIndex folder files => Apart n.store folder files
  | .generateIndex _ => True
  | .getFile dir file => Owns n.store dir file
  | .getDirectory _ => True

theorem single_done {n : Node} (hs : Singles n.store) {c : Call} (h : Meets n c) : Singles (c.done sha256 n).store := by
  cases c with
  | handleIndex folder files => exact single_handleIndex hs h
  | generateIndex dir => rw [Call.done, Call.task, run_drop]; exact single_generateIndex sha256 hs dir
  | getFile dir file => rw [Call.done, Call.task, run_drop]; exact single_getFile sha256 hs h
  | getDirectory dir => rw [Call.done, Call.task, run_drop]; exact single_getDirectory sha256 hs dir

/-- In every run whose calls meet the condition, every state has at most one row of each
    name in each folder. -/
theorem one_row_per_name {n : Node} (h : Calls sha256 Meets n) (folder : Text) :
    ∀ r ∈ n.store.records, ∀ r' ∈ n.store.records, r.folder = folder → r'.folder = folder → r.name = r'.name → r = r' := by
  suffices hs : Singles n.store from hs folder
  induction h with
  | init hempty =>
    intro folder r hr
    rw [hempty] at hr; cases hr
  | outside _ hrecs ih => exact singles_congr hrecs ih
  | call _ hmeets ih => exact single_done sha256 ih hmeets

/-- A peer's file of one version, under a name of its choice. -/
def peerInfo (name : Text) : FileInfo := ⟨name, 0, some [⟨9, 0⟩], [⟨0, 11, fileHash⟩]⟩

/-- The node indexes its directory, then merges two new files and its own. -/
theorem one_row_per_name_merged :
    Calls fileSha Meets ((Call.handleIndex ['d'] [peerInfo ['a'], peerInfo ['b'], peerInfo ['f']]).done fileSha
      ((Call.generateIndex fileDir).done fileSha (fileNode fileContents))) ∧
    ∀ r ∈ ((Call.handleIndex ['d'] [peerInfo ['a'], peerInfo ['b'], peerInfo ['f']]).done fileSha
        ((Call.generateIndex fileDir).done fileSha (fileNode fileContents))).store.records,
      ∀ r' ∈ ((Call.handleIndex ['d'] [peerInfo ['a'], peerInfo ['b'], peerInfo ['f']]).done fileSha
        ((Call.generateIndex fileDir).done fileSha (fileNode fileContents))).store.records,
      r.folder = ['d'] → r'.folder = ['d'] → r.name = r'.name → r = r' := by
  have hrun : Calls fileSha Meets ((Call.handleIndex ['d'] [peerInfo ['a'], peerInfo ['b'], peerInfo ['f']]).done fileSha
      ((Call.generateIndex fileDir).done fileSha (fileNode fileContents))) := by
    refine .call (.call (.init rfl) trivial) ⟨?_, ?_⟩
    · decide +kernel
    · decide +kernel
  exact ⟨hrun, one_row_per_name fileSha hrun ['d']⟩

/-- A new file named twice in one message, and a new file named in two spellings in two
    messages, give two rows of one name. -/
theorem two_rows_of_a_name :
    (∃ n, Calls fileSha (fun _ _ => True) n ∧ ∃ r ∈ n.store.records, ∃ r' ∈ n.store.records,
      r.folder = ['d'] ∧ r'.folder = ['d'] ∧ r.name = r'.name ∧ r ≠ r') ∧
    ∃ n, Calls fileSha (fun _ _ => True) n ∧ ∃ r ∈ n.store.records, ∃ r' ∈ n.store.records,
      r.folder = ['d'] ∧ r'.folder = ['d'] ∧ r.name = r'.name ∧ r ≠ r' := by
  refine ⟨⟨(Call.handleIndex ['d'] [peerInfo ['a'], peerInfo ['a']]).done fileSha (fileNode fileContents),
    .call (.init rfl) trivial, ?_⟩,
    ⟨(Call.handleIndex ['d'] [peerInfo ['a', '/']]).done fileSha
      ((Call.handleIndex ['d'] [peerInfo ['a']]).done fileSha (fileNode fileContents)),
    .call (.call (.init rfl) trivial) trivial, ?_⟩⟩
  · decide +kernel
  · decide +kernel

end BepRs.History
