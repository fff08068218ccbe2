/-
  BepRs.History.Watch — the watcher's event loop (`src/peer_connection/watcher.rs`).

  On a change of the file system the watcher calls `generate_index` for every folder of the
  table, one after the other. A folder without a path, a directory that cannot be listed, an
  entry that is no readable file and a file that cannot be cut into blocks each make
  `generate_index` panic, and the folders after it are not looked at.

  - `generateIndex_returns_iff`: exactly when `generate_index` returns.
  - `generateIndex_reindexes`: where it does, every entry has a record, of its contents
    unless a newer version is awaited.
  - `run_watchEvent`: the same for one round of the watcher.
-/

import BepRs.History.Rehash

namespace BepRs.History

open BepRs.Lib BepRs.Lib.Path BepRs.Lib.Task BepRs.State BepRs.Sync

variable (sha256 : Bytes → Bytes)

/-! ## `watch` -/

/-- What the watcher's channel brings: a change that creates, modifies or removes, another
    event, an error, or the end of the channel or of the connection. -/
inductive WatchEvent where
  | changed
  | other
  | failed (text : String)
  | ended
  deriving DecidableEq, Repr

def reindexFolders : List SyncDirectory → BepProg Unit
  | [] => .ret ()
  | dir :: dirs => do
    let _ ← generateIndex sha256 dir
    reindexFolders dirs

/-- One round of the loop: `none` goes on, `some` is what `watch` returns. -/
def watchEvent : WatchEvent → BepProg (Option (Except PeerCommandError Unit))
  | .changed => do
    let dirs ← db .getSyncDirectories
    reindexFolders sha256 dirs
    .ret none
  | .other => .ret none
  | .failed text => .ret (some (.error (.other text)))
  | .ended => .ret (some (.ok ()))

/-! ## What can be cut into blocks -/

/-- The file is on disk, and `num_blocks - 1` does not overflow. -/
def Cut (n : Node) (dir : SyncDirectory) (filePath : Text) : Prop :=
  ∃ path data, dir.path = some path ∧ n.readFile (push path filePath) = some data ∧ data.length % 2 ^ 32 ≠ 0

theorem blocksOf_isSome {data : Bytes} : (blocksOf sha256 data).isSome = true ↔ data.length % 2 ^ 32 ≠ 0 := by
  unfold blocksOf
  simp only
  generalize data.length % 2 ^ 32 = len
  by_cases hlen : len = 0
  · subst hlen
    simp [divCeil, getBlocksize]
  · have hnum : divCeil len (getBlocksize len) ≠ 0 := by
      have hpos : 0 < getBlocksize len := by
        unfold getBlocksize
        split_ifs <;> decide
      unfold divCeil
      have := Nat.div_pos (show getBlocksize len ≤ len + getBlocksize len - 1 by omega) hpos
      omega
    simp [hnum, hlen]

theorem blocksAt_isSome {n : Node} {dir : SyncDirectory} {filePath : Text} :
    (blocksAt sha256 n dir filePath).isSome = true ↔ Cut n dir filePath := by
  unfold blocksAt Cut
  cases hpath : dir.path with
  | none => simp
  | some path =>
    cases hread : n.readFile (push path filePath) with
    | none => simp [hread]
    | some data => simp [hread, blocksOf_isSome]

/-! ## One entry -/

/-- `generate_index` gets over an entry: it can be read, and where it is new or has changed
    it can be cut into blocks and has a next version. A changed file is looked for under
    the directory's path twice over. -/
def Indexable (n : Node) (dir : SyncDirectory) (path file : Text) : Prop :=
  ∃ data, n.readFile (push path file) = some data ∧
    match n.store.lookup dir.id file with
    | none => Cut n dir file
    | some r => latest r.versions ≤ r.synced → sha256 data ≠ r.hash →
        (latest r.versions).toNat + 1 < 2 ^ 64 ∧ Cut n dir (push path file)

theorem checkedSucc_isSome {x : UInt64} : (checkedSucc x).isSome = true ↔ x.toNat + 1 < 2 ^ 64 := by
  unfold checkedSucc
  split
  · simpa using ‹x.toNat + 1 < 2 ^ 64›
  · simpa using ‹¬ x.toNat + 1 < 2 ^ 64›

theorem scanned_isSome {n : Node} {dir : SyncDirectory} {path : Text} {shortId : UInt64} {l : List SyncFile} {file : Text}
    (hfind : l.find? (fun x => PathEq x.path file) = (n.store.lookup dir.id file).map Rec.file) :
    (scanned sha256 n dir path shortId l file).isSome = true ↔ Indexable sha256 n dir path file := by
  unfold scanned Indexable
  rw [hfind]
  cases n.readFile (push path file) with
  | none => simp
  | some data =>
    simp only [Option.bind_eq_bind, Option.bind_some, Option.some.injEq, exists_eq_left']
    cases hl : n.store.lookup dir.id file with
    | none =>
      simp only [Option.map_none]
      rw [← blocksAt_isSome sha256]
      cases blocksAt sha256 n dir file <;> simp
    | some r =>
      simp only [Option.map_some]
      have hne := n.store.versions_ne_nil (n.store.lookup_some hl).1
      obtain ⟨last, hlast⟩ : ∃ last, r.versions.getLast? = some last := ⟨_, List.getLast?_eq_some_getLast hne⟩
      have hlatest : latest r.versions = last.2 := by rw [latest, hlast]
      rw [show r.file.versions = r.versions from rfl, hlast, hlatest]
      simp only [Option.bind_some]
      by_cases hnewer : last.2 > r.synced
      · rw [if_pos (show last.2 > r.file.syncedVersion from hnewer)]
        simp [UInt64.not_le.mpr hnewer]
      · rw [if_neg (show ¬ last.2 > r.file.syncedVersion from hnewer)]
        by_cases hhash : sha256 data ≠ r.hash
        · rw [if_pos (show sha256 data ≠ r.file.hash from hhash), ← checkedSucc_isSome, ← blocksAt_isSome sha256]
          simp only [UInt64.not_lt.mp hnewer, hhash, ne_eq, not_false_eq_true, forall_const]
          cases checkedSucc last.2 with
          | none => simp
          | some v => cases blocksAt sha256 n dir (push path file) <;> simp
        · rw [if_neg (show ¬ sha256 data ≠ r.file.hash from hhash)]
          simp [not_not.mp hhash]

/-! ## One pass, seen from another name -/

variable {sha256} {n : Node} {dir : SyncDirectory} {path : Text} {shortId : UInt64} {file : Text} {m m' : Scanning}
  {u : Option Unit}

theorem lookup_pass (h : Pass sha256 n dir path shortId file m (m', u)) (hfile : FileName file) {dirId name : Text}
    (hother : ¬ (dir.id = dirId ∧ file = name)) : m'.store.lookup dirId name = m.store.lookup dirId name := by
  cases h with
  | skip out u => rfl
  | next f x r hx hcopy hr hscan htarget hstored hname =>
    have hrn : r.name = file := name_copied hfile hx hcopy hr
    refine m.store.lookup_beside (by rw [hname, hrn]; exact hother) fun r' hr' => ?_
    rw [hstored] at hr'
    cases hr'
    rw [hcopy.folder, hrn]
    exact hother
  | new f hx hscan hid =>
    have hname : f.getName = file := by
      rw [getName_eq, (scanned_new sha256 hscan hx).2.1]
      exact join_names_fileName hfile
    refine m.store.lookup_beside (by rw [hname]; exact hother) fun r' hr' => ?_
    rw [m.store.stored_new hid] at hr'
    cases hr'

/-- A pass panics only before it writes. -/
theorem scanFile_isSome (hm : m.Aligned dir) :
    (scanFile sha256 n dir path shortId file m).2.isSome = (scanned sha256 n dir path shortId m.syncFiles file).isSome := by
  unfold scanFile
  cases hscan : scanned sha256 n dir path shortId m.syncFiles file with
  | none => rfl
  | some w =>
    obtain ⟨f, b⟩ := w
    cases b with
    | false => rfl
    | true =>
      have hret : (m.store.updateSyncFile dir f).2 = some () := by
        obtain ⟨data, -, -, hcase⟩ := scanned_written sha256 hscan
        rcases hcase with ⟨x, last, v, hx, -, -, -, -, hid, hpath, -, -, hvs, -⟩ | ⟨hx, hid, -, -, -, hvs, -⟩
        · exact (hm.next hx hid hpath hvs).1
        · rw [m.store.updateSyncFile_returns dir (by rw [hvs]; simp), Store.storedCount, m.store.stored_new hid]
          simp
      simp only [hret, Option.isSome_some]

/-! ## The loop -/

/-- The entries that are left have in the copy and in the store the record they had. -/
structure Pending (dir : SyncDirectory) (s : Store) (files : List Text) (m : Scanning) : Prop where
  aligned : m.Aligned dir
  nodup : files.Nodup
  named : ∀ file ∈ files, FileName file
  stored : ∀ file ∈ files, m.store.lookup dir.id file = s.lookup dir.id file
  found : ∀ file ∈ files, m.syncFiles.find? (fun x => PathEq x.path file) = (s.lookup dir.id file).map Rec.file

theorem pending_start {files : List Text} (hfiles : n.readDir path = some files) :
    Pending dir n.store files (.start n.store dir) :=
  ⟨scan_start n.store dir, readDir_nodup hfiles, fun _ hf => readDir_named hfiles hf, fun _ _ => rfl,
    fun _ hf => find?_path_index n.store dir.id (readDir_named hfiles hf)⟩

theorem pending_pass {s : Store} {files : List Text} (h : Pending dir s (file :: files) m)
    (hpass : Pass sha256 n dir path shortId file m (m', u)) : Pending dir s files m' := by
  obtain ⟨hm, hnd, hnamed, hstored, hfound⟩ := h
  obtain ⟨hnot, hnd⟩ := List.nodup_cons.mp hnd
  have hfile := hnamed file List.mem_cons_self
  have hne : ∀ g ∈ files, file ≠ g := fun g hg he => hnot (he ▸ hg)
  refine ⟨copy_stored sha256 hm hpass, hnd, fun g hg => hnamed g (List.mem_cons_of_mem _ hg), fun g hg => ?_, fun g hg => ?_⟩
  · rw [lookup_pass hpass hfile fun he => hne g hg he.2]
    exact hstored g (List.mem_cons_of_mem _ hg)
  · rw [find?_pass hpass hfile (hnamed g (List.mem_cons_of_mem _ hg)) (hne g hg)]
    exact hfound g (List.mem_cons_of_mem _ hg)

/-- The loop ends without a panic exactly when each entry can be indexed as it is at the
    start. -/
theorem scanFiles_isSome : ∀ {files : List Text} {m : Scanning}, Pending dir n.store files m →
    ((scanFiles sha256 n dir path shortId files m).2.isSome = true ↔ ∀ file ∈ files, Indexable sha256 n dir path file) := by
  intro files
  induction files with
  | nil => intro m _; simp [scanFiles]
  | cons file files ih =>
    intro m h
    have hpass := pass_scanFile sha256 h.aligned n path shortId file
    have hone : (scanFile sha256 n dir path shortId file m).2.isSome = true ↔ Indexable sha256 n dir path file := by
      rw [scanFile_isSome h.aligned]
      exact scanned_isSome sha256 (h.found file List.mem_cons_self)
    rw [List.forall_mem_cons, scanFiles]
    rcases hscan : scanFile sha256 n dir path shortId file m with ⟨m', _ | u⟩ <;> rw [hscan] at hpass hone
    · rw [← hone]; simp
    · rw [← hone, ← ih (pending_pass h hpass)]; simp

theorem lookup_scanFiles {files : List Text} {dirId name : Text} (hm : m.Aligned dir) (hnamed : ∀ g ∈ files, FileName g)
    (hother : ∀ g ∈ files, ¬ (dir.id = dirId ∧ g = name)) :
    (scanFiles sha256 n dir path shortId files m).1.store.lookup dirId name = m.store.lookup dirId name := by
  let P : List Text → Scanning → Prop := fun rest m₁ =>
    (∀ g ∈ rest, FileName g ∧ ¬ (dir.id = dirId ∧ g = name)) ∧ m₁.store.lookup dirId name = m.store.lookup dirId name
  suffices hend : ∃ rest, P rest (scanFiles sha256 n dir path shortId files m).1 by
    obtain ⟨rest, hend⟩ := hend
    exact hend.2
  refine scanFiles_inv sha256 ?_ files m hm ⟨fun g hg => ⟨hnamed g hg, hother g hg⟩, rfl⟩
  intro g rest m₁ m₂ u _ hP hpass
  obtain ⟨hrest, hsame⟩ := hP
  obtain ⟨hfile, hne⟩ := hrest g List.mem_cons_self
  exact ⟨fun x hx => hrest x (List.mem_cons_of_mem _ hx), (lookup_pass hpass hfile hne).trans hsame⟩

/-- The entry has a record, of its contents unless a newer version is awaited. -/
def Renewed (sha256 : Bytes → Bytes) (n : Node) (dir : SyncDirectory) (path file : Text) (s : Store) : Prop :=
  ∃ data r, n.readFile (push path file) = some data ∧ s.lookup dir.id file = some r ∧
    (r.hash = sha256 data ∨ r.synced < latest r.versions)

/-- A pass that returns leaves the record of its entry. -/
theorem renewed_scanFile {s : Store} {files : List Text} (h : Pending dir s (file :: files) m)
    (hscan : scanFile sha256 n dir path shortId file m = (m', some ())) : Renewed sha256 n dir path file m'.store := by
  have hfile := h.named file List.mem_cons_self
  have hstored := h.stored file List.mem_cons_self
  have hfound := h.found file List.mem_cons_self
  rw [← hstored] at hfound
  unfold scanFile at hscan
  cases hs : scanned sha256 n dir path shortId m.syncFiles file with
  | none => rw [hs] at hscan; cases hscan
  | some w =>
    obtain ⟨f, b⟩ := w
    rw [hs] at hscan
    cases b with
    | false =>
      -- listed only: the record is newer, or of these contents
      cases hscan
      unfold scanned at hs
      obtain ⟨data, hdata, hs⟩ := Option.bind_eq_some_iff.mp hs
      refine ⟨data, ?_⟩
      cases hl : m.store.lookup dir.id file with
      | none =>
        rw [hfound, hl] at hs
        obtain ⟨blocks, -, hs⟩ := Option.bind_eq_some_iff.mp hs
        cases hs
      | some r =>
        refine ⟨r, hdata, rfl, ?_⟩
        rw [hfound, hl] at hs
        obtain ⟨last, hlast, hs⟩ := Option.bind_eq_some_iff.mp hs
        split at hs
        · rename_i hnewer
          refine Or.inr ?_
          rw [latest, show r.versions.getLast? = some last from hlast]
          exact hnewer
        · split at hs
          · obtain ⟨v, -, hs⟩ := Option.bind_eq_some_iff.mp hs
            obtain ⟨blocks, -, hs⟩ := Option.bind_eq_some_iff.mp hs
            cases hs
          · rename_i hhash
            exact Or.inl (not_not.mp hhash).symm
    | true =>
      have hstore : m'.store = (m.store.updateSyncFile dir f).1 := by
        simp only at hscan
        split at hscan
        · cases hscan
        · cases hscan; rfl
      rw [hstore]
      obtain ⟨data, hdata, hhash, hcase⟩ := scanned_written sha256 hs
      rcases hcase with ⟨x, last, v, hx, -, -, -, -, hid, hpath, -, -, hvs, -⟩ | ⟨hx, hid, hpath, -, -, hvs, -⟩
      · rw [hfound] at hx
        obtain ⟨r, hl, he⟩ := Option.map_eq_some_iff.mp hx
        subst he
        have hname : f.getName = file := by
          rw [getName_eq, hpath]
          exact (m.store.name_normal (m.store.lookup_some hl).1).trans (m.store.lookup_some hl).2.2
        exact ⟨data, _, hdata, m.store.lookup_over hl hid hname (by rw [hvs]; simp), Or.inl hhash⟩
      · rw [hfound] at hx
        have hname : f.getName = file := by
          rw [getName_eq, hpath]
          exact join_names_fileName hfile
        exact ⟨data, _, hdata, m.store.lookup_added (Option.map_eq_none_iff.mp hx) hid hname (by rw [hvs]; simp),
          Or.inl hhash⟩

theorem renewed_scanFiles {s : Store} : ∀ {files : List Text} {m m' : Scanning}, Pending dir s files m →
    scanFiles sha256 n dir path shortId files m = (m', some ()) →
    ∀ file ∈ files, Renewed sha256 n dir path file m'.store := by
  intro files
  induction files with
  | nil => intro m m' _ _ file hfile; cases hfile
  | cons file files ih =>
    intro m m' h hscan
    have hpass := pass_scanFile sha256 h.aligned n path shortId file
    rw [scanFiles] at hscan
    rcases hone : scanFile sha256 n dir path shortId file m with ⟨m₁, _ | u⟩ <;> rw [hone] at hscan hpass
    · cases hscan
    · have hrest := pending_pass h hpass
      obtain ⟨data, r, hdata, hl, hr⟩ := renewed_scanFile h hone
      intro g hg
      rcases List.mem_cons.mp hg with rfl | hg
      · -- the later entries have other names
        have hkept : (scanFiles sha256 n dir path shortId files m₁).1.store.lookup dir.id g = m₁.store.lookup dir.id g :=
          lookup_scanFiles hrest.aligned hrest.named fun x hx he => (List.nodup_cons.mp h.nodup).1 (he.2 ▸ hx)
        rw [show scanFiles sha256 n dir path shortId files m₁ = (m', some ()) from hscan] at hkept
        exact ⟨data, r, hdata, hkept.trans hl, hr⟩
      · exact ih hrest hscan g hg

/-! ## `generate_index` -/

/-- The folder has a path that can be listed, and each entry can be indexed. -/
def Scans (sha256 : Bytes → Bytes) (n : Node) (dir : SyncDirectory) : Prop :=
  ∃ path files, dir.path = some path ∧ n.readDir path = some files ∧ ∀ file ∈ files, Indexable sha256 n dir path file

theorem generateIndex_returns_iff (n : Node) (dir : SyncDirectory) :
    (run nodeDo (generateIndex sha256 dir) n).2.isSome = true ↔ Scans sha256 n dir := by
  rw [run_generateIndex]
  unfold Scans
  cases dir.path with
  | none => simp
  | some path =>
    simp only [Option.some.injEq, exists_and_left, exists_eq_left']
    cases hfiles : n.readDir path with
    | none => simp
    | some files =>
      simp only [Option.isSome_map, Option.some.injEq, exists_eq_left']
      exact scanFiles_isSome (pending_start hfiles)

/-- Each entry of the folder's directory has a record; nothing is asked of a folder without
    a path. -/
def Reindexed (sha256 : Bytes → Bytes) (n : Node) (dir : SyncDirectory) (s : Store) : Prop :=
  ∀ path, dir.path = some path → ∃ files, n.readDir path = some files ∧ ∀ file ∈ files, Renewed sha256 n dir path file s

theorem generateIndex_reindexes {n : Node} {dir : SyncDirectory}
    (h : (run nodeDo (generateIndex sha256 dir) n).2.isSome = true) :
    Reindexed sha256 n dir (run nodeDo (generateIndex sha256 dir) n).1.store := by
  intro path hpath
  rw [run_generateIndex, hpath] at h ⊢
  simp only at h ⊢
  cases hfiles : n.readDir path with
  | none => rw [hfiles] at h; cases h
  | some files =>
    rw [hfiles] at h
    simp only at h ⊢
    refine ⟨files, rfl, ?_⟩
    rcases hscan : scanFiles sha256 n dir path n.store.shortId files (.start n.store dir) with ⟨m, _ | u⟩
    · rw [hscan] at h; cases h
    · exact renewed_scanFiles (pending_start hfiles) hscan

/-- What `generate_index` leaves alone, whether it returns or panics. -/
theorem generateIndex_frame (sha256 : Bytes → Bytes) (n : Node) (dir : SyncDirectory) :
    (run nodeDo (generateIndex sha256 dir) n).1.disk = n.disk ∧ (run nodeDo (generateIndex sha256 dir) n).1.cwd = n.cwd ∧
      ∀ dirId name, dirId ≠ dir.id →
        (run nodeDo (generateIndex sha256 dir) n).1.store.lookup dirId name = n.store.lookup dirId name := by
  rw [run_generateIndex]
  cases dir.path with
  | none => exact ⟨rfl, rfl, fun _ _ _ => rfl⟩
  | some path =>
    simp only
    cases hfiles : n.readDir path with
    | none => exact ⟨rfl, rfl, fun _ _ _ => rfl⟩
    | some files =>
      refine ⟨rfl, rfl, fun dirId name hne => ?_⟩
      exact lookup_scanFiles (scan_start n.store dir) (fun _ hg => readDir_named hfiles hg) fun _ _ he => hne he.1.symm

/-! ## A round of the watcher -/

theorem readFile_congr {n n' : Node} (hdisk : n'.disk = n.disk) (hcwd : n'.cwd = n.cwd) (p : Text) :
    n'.readFile p = n.readFile p := by
  rw [Node.readFile, Node.readFile, hdisk, hcwd]

theorem readDir_congr {n n' : Node} (hdisk : n'.disk = n.disk) (hcwd : n'.cwd = n.cwd) (p : Text) :
    n'.readDir p = n.readDir p := by
  rw [Node.readDir, Node.readDir, hdisk, hcwd]

/-- Whether a folder can be scanned depends on the disk and on the folder's own records. -/
theorem scans_congr {n n' : Node} {dir : SyncDirectory} (hdisk : n'.disk = n.disk) (hcwd : n'.cwd = n.cwd)
    (hl : ∀ name, n'.store.lookup dir.id name = n.store.lookup dir.id name) : Scans sha256 n' dir ↔ Scans sha256 n dir := by
  simp only [Scans, Indexable, Cut, readFile_congr hdisk hcwd, readDir_congr hdisk hcwd, hl]

theorem reindexed_congr {n n' : Node} {dir : SyncDirectory} {s s' : Store} (hdisk : n'.disk = n.disk) (hcwd : n'.cwd = n.cwd)
    (hl : ∀ name, s'.lookup dir.id name = s.lookup dir.id name) : Reindexed sha256 n' dir s' ↔ Reindexed sha256 n dir s := by
  simp only [Reindexed, Renewed, readFile_congr hdisk hcwd, readDir_congr hdisk hcwd, hl]

theorem run_reindexFolders : ∀ {dirs : List SyncDirectory} {n : Node}, (dirs.map SyncDirectory.id).Nodup →
    ((run nodeDo (reindexFolders sha256 dirs) n).2.isSome = true ↔ ∀ dir ∈ dirs, Scans sha256 n dir) ∧
    ((run nodeDo (reindexFolders sha256 dirs) n).2.isSome = true →
      ∀ dir ∈ dirs, Reindexed sha256 n dir (run nodeDo (reindexFolders sha256 dirs) n).1.store) ∧
    ∀ dirId name, dirId ∉ dirs.map SyncDirectory.id →
      (run nodeDo (reindexFolders sha256 dirs) n).1.store.lookup dirId name = n.store.lookup dirId name := by
  intro dirs
  induction dirs with
  | nil => intro n _; simp [reindexFolders]
  | cons dir dirs ih =>
    intro n hnd
    obtain ⟨hnot, hnd⟩ := List.nodup_cons.mp hnd
    obtain ⟨hdisk, hcwd, hlookup⟩ := generateIndex_frame sha256 n dir
    have hreturns := @generateIndex_returns_iff sha256 n dir
    have hreindexes := @generateIndex_reindexes sha256 n dir
    rw [List.forall_mem_cons, reindexFolders, run_bind]
    rcases hrun : run nodeDo (generateIndex sha256 dir) n with ⟨n', _ | out⟩ <;>
      rw [hrun] at hdisk hcwd hlookup hreturns hreindexes
    · rw [← hreturns]
      refine ⟨by simp, by simp, fun dirId name hd => hlookup dirId name fun he => ?_⟩
      rw [he] at hd
      exact hd List.mem_cons_self
    · obtain ⟨hiff, hall, hkept⟩ := @ih n' hnd
      have hne : ∀ d ∈ dirs, d.id ≠ dir.id := fun d hd he => hnot (he ▸ List.mem_map_of_mem hd)
      have hrest : (∀ d ∈ dirs, Scans sha256 n' d) ↔ ∀ d ∈ dirs, Scans sha256 n d :=
        forall₂_congr fun d hd => scans_congr hdisk hcwd fun name => hlookup d.id name (hne d hd)
      rw [← hreturns, ← hrest, ← hiff]
      refine ⟨by simp, fun h => List.forall_mem_cons.mpr ⟨?_, fun d hd => ?_⟩, fun dirId name hd => ?_⟩
      · refine (reindexed_congr rfl rfl fun name => ?_).mpr (hreindexes rfl)
        exact hkept dir.id name hnot
      · exact (reindexed_congr hdisk hcwd fun _ => rfl).mp (hall h d hd)
      · rw [List.map_cons, List.mem_cons, not_or] at hd
        exact (hkept dirId name hd.2).trans (hlookup dirId name hd.1)

/-- A round on a change goes on exactly when every folder can be scanned as it is at the
    start, and then every folder with a path is indexed anew. -/
theorem run_watchEvent (sha256 : Bytes → Bytes) {n : Node} (hnd : (n.store.getSyncDirectories.map SyncDirectory.id).Nodup) :
    ((run nodeDo (watchEvent sha256 .changed) n).2 = some none ↔ ∀ dir ∈ n.store.getSyncDirectories, Scans sha256 n dir) ∧
    ((run nodeDo (watchEvent sha256 .changed) n).2 = some none →
      ∀ dir ∈ n.store.getSyncDirectories, Reindexed sha256 n dir (run nodeDo (watchEvent sha256 .changed) n).1.store) := by
  obtain ⟨hiff, hall, -⟩ := @run_reindexFolders sha256 _ n hnd
  unfold watchEvent
  rw [run_call_some (nodeDo_getSyncDirectories n), run_bind]
  rcases hrun : run nodeDo (reindexFolders sha256 n.store.getSyncDirectories) n with ⟨n', _ | u⟩ <;> rw [hrun] at hiff hall
  · refine ⟨?_, fun h => by cases h⟩
    rw [← hiff]
    simp
  · refine ⟨?_, fun _ => hall rfl⟩
    rw [← hiff]
    simp

end BepRs.History
