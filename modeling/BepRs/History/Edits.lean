/-
  BepRs.History.Edits — what `generate_index` records of the edits on disk
  (`src/sync_directory.rs`).

  The directory's path is absolute and its entries are regular files from 1 byte to below
  4 GiB. Of the records that were there, a run changes the first one of each file whose digest
  is another and that awaits no newer version (`Touched`, `edited`); a file without a record
  gets one (`created`). The new records come after the old ones, in the order of the listing.

  `records_scanFile` is one pass on the list of records, `records_scanFiles` the loop.
  - `generateIndex_edits`: the records after a run, and that a second run changes nothing.
-/

import BepRs.History.Watch

namespace BepRs.History

open BepRs.Lib BepRs.Lib.Path BepRs.Lib.Task BepRs.State BepRs.Sync

variable (sha256 : Bytes → Bytes)

/-! ## The edits -/

/-- The contents are not those of the record, and no newer version is awaited. -/
def Touched (data : Bytes) (r : Rec) : Prop := latest r.versions ≤ r.synced ∧ sha256 data ≠ r.hash

instance (data : Bytes) (r : Rec) : Decidable (Touched sha256 data r) := inferInstanceAs (Decidable (_ ∧ _))

def edited (shortId : UInt64) (data : Bytes) (r : Rec) : Rec :=
  { r with
    hash := sha256 data
    synced := latest r.versions + 1
    versions := r.versions ++ [(shortId, latest r.versions + 1)]
    blocks := (blocksOf sha256 data).getD [] }

def created (shortId : UInt64) (dirId name : Text) (data : Bytes) (id : Nat) : Rec :=
  ⟨id, dirId, name, sha256 data, shortId, 0, [(shortId, 0)], (blocksOf sha256 data).getD []⟩

def contents (n : Node) (path name : Text) : Bytes := (n.readFile (push path name)).getD []

/-- What a run over the entries makes of a record. -/
def rescanned (n : Node) (s : Store) (dirId path : Text) (shortId : UInt64) (files : List Text) (r : Rec) : Rec :=
  if r.name ∈ files ∧ s.lookup dirId r.name = some r ∧ Touched sha256 (contents n path r.name) r then
    edited sha256 shortId (contents n path r.name) r
  else r

def untracked (s : Store) (dirId : Text) (files : List Text) : List Text := files.filter fun file => (s.lookup dirId file).isNone

/-! ## The blocks -/

theorem push_push {base s : Text} (h : isAbsolute base = true) : push base (push base s) = push base s := by
  have hhead : base.head? = some '/' := by simpa [isAbsolute] using h
  obtain ⟨rest, rfl⟩ : ∃ rest, base = '/' :: rest := by
    cases base with
    | nil => cases hhead
    | cons c rest => cases hhead; exact ⟨rest, rfl⟩
  have habs : isAbsolute (push ('/' :: rest) s) = true := by
    by_cases hs : isAbsolute s = true
    · rw [push, if_pos hs]; exact hs
    · rw [push, if_neg hs]
      split <;> rfl
  rw [push, if_pos habs]

/-- The blocks of an entry, looked for under its name or under its path. -/
theorem blocksAt_entry {n : Node} {dir : SyncDirectory} {path file : Text} (hpath : dir.path = some path)
    (habs : isAbsolute path = true) {data : Bytes} (hread : n.readFile (push path file) = some data) :
    blocksAt sha256 n dir file = blocksOf sha256 data ∧ blocksAt sha256 n dir (push path file) = blocksOf sha256 data := by
  simp only [blocksAt, hpath, Option.bind_eq_bind, Option.bind_some, push_push habs, hread, and_self]

theorem sortBlocks_blocksOf {data : Bytes} {blocks : List SyncBlock} (h : blocksOf sha256 data = some blocks) :
    Tables.sortBlocks blocks = blocks := by
  unfold blocksOf at h
  simp only at h
  split at h
  · cases h
  · cases h
    generalize divCeil (data.length % 2 ^ 32) (getBlocksize (data.length % 2 ^ 32)) - 1 = k
    refine List.Pairwise.insertionSort_eq (List.pairwise_append.mpr ⟨?_, List.pairwise_singleton _ _, ?_⟩)
    · refine List.pairwise_map.mpr (List.pairwise_lt_range.imp fun {a b} hab => ?_)
      exact Int.ofNat_le.mpr (Nat.mul_le_mul_right _ (Nat.le_of_lt hab))
    · intro x hx y hy
      obtain ⟨i, hi, rfl⟩ := List.mem_map.mp hx
      rw [List.mem_singleton.mp hy]
      refine Int.ofNat_le.mpr ?_
      rw [Nat.mul_comm]
      exact Nat.mul_le_mul_left _ (Nat.le_of_lt (List.mem_range.mp hi))

theorem write_blocks {old : Option Rec} {id : Nat} {dir : SyncDirectory} {f : SyncFile} {data : Bytes}
    (h : blocksOf sha256 data = some f.blocks) (hlen : ((old.map Rec.versions).getD []).length ≤ f.versions.length) :
    (Rec.write old id dir f).blocks = f.blocks := by
  have hne : f.blocks ≠ [] := by
    obtain ⟨b, hb, -⟩ := blocksOf_head sha256 h
    intro hnil
    rw [hnil] at hb
    cases hb
  have hnot : ¬ (f.versions.length < ((old.map Rec.versions).getD []).length ∨ f.blocks = []) := by
    rw [not_or]
    exact ⟨Nat.not_lt.mpr hlen, hne⟩
  exact (if_neg hnot).trans (sortBlocks_blocksOf sha256 h)

/-! ## One pass -/

variable {sha256} {n : Node} {dir : SyncDirectory} {path : Text} {shortId : UInt64} {file : Text} {m m' : Scanning}
  {data : Bytes}

/-- A pass that returns has written what it scanned, or nothing. -/
theorem store_scanFile (h : scanFile sha256 n dir path shortId file m = (m', some ())) :
    ∃ f b, scanned sha256 n dir path shortId m.syncFiles file = some (f, b) ∧
      m'.store = if b then (m.store.updateSyncFile dir f).1 else m.store := by
  unfold scanFile at h
  cases hscan : scanned sha256 n dir path shortId m.syncFiles file with
  | none => rw [hscan] at h; cases h
  | some w =>
    obtain ⟨f, b⟩ := w
    rw [hscan] at h
    refine ⟨f, b, rfl, ?_⟩
    cases b with
    | false => cases h; rfl
    | true =>
      simp only at h
      split at h
      · cases h
      · cases h; rfl

theorem records_created {s : Store} {files : List Text} (h : Pending dir s (file :: files) m) (hpath : dir.path = some path)
    (habs : isAbsolute path = true) (hread : n.readFile (push path file) = some data) (hl : m.store.lookup dir.id file = none)
    (hscan : scanFile sha256 n dir path shortId file m = (m', some ())) :
    ∃ id, m'.store.records = m.store.records ++ [created sha256 shortId dir.id file data id] := by
  obtain ⟨f, b, hs, hstore⟩ := store_scanFile hscan
  have hfind : m.syncFiles.find? (fun x => PathEq x.path file) = none := by
    rw [h.found file List.mem_cons_self, ← h.stored file List.mem_cons_self, hl]; rfl
  unfold scanned at hs
  simp only [hread, hfind, Option.bind_eq_bind, Option.bind_some, (blocksAt_entry sha256 hpath habs hread).1] at hs
  obtain ⟨blocks, hblocks, hs⟩ := Option.bind_eq_some_iff.mp hs
  cases hs
  have hname : normal file = file := join_names_fileName (h.named file List.mem_cons_self)
  refine ⟨Keyed.fresh (m.store.files.map FileRow.id), ?_⟩
  generalize hf : (⟨none, file, sha256 data, shortId, 0, [(shortId, 0)], blocks⟩ : SyncFile) = f at hstore
  have hid : f.id = none := by rw [← hf]
  have hnew : (Rec.write none (m.store.target f) dir f).id ∉ m.store.records.map Rec.id := m.store.target_new hid
  rw [hstore, if_pos rfl, m.store.records_updateSyncFile dir (by rw [← hf]; simp), m.store.stored_new hid,
    Keyed.upsert_of_not_mem _ hnew, ← hf]
  have hkept := @write_blocks sha256 none (Keyed.fresh (m.store.files.map FileRow.id)) dir
    ⟨none, file, sha256 data, shortId, 0, [(shortId, 0)], blocks⟩ data hblocks (Nat.zero_le _)
  unfold created
  rw [hblocks, Option.getD_some]
  congr 2
  refine (Rec.mk.injEq ..).mpr ⟨rfl, rfl, ?_, rfl, rfl, rfl, rfl, hkept⟩
  rw [getName_eq]
  exact hname

theorem records_edited {s : Store} {files : List Text} {r : Rec} (h : Pending dir s (file :: files) m)
    (hpath : dir.path = some path) (habs : isAbsolute path = true) (hread : n.readFile (push path file) = some data)
    (hl : m.store.lookup dir.id file = some r) (hscan : scanFile sha256 n dir path shortId file m = (m', some ())) :
    m'.store.records = if Touched sha256 data r then Keyed.upsert Rec.id (edited sha256 shortId data r) m.store.records
      else m.store.records := by
  obtain ⟨f, b, hs, hstore⟩ := store_scanFile hscan
  obtain ⟨hr, hfolder, hname⟩ := m.store.lookup_some hl
  have hfind : m.syncFiles.find? (fun x => PathEq x.path file) = some r.file := by
    rw [h.found file List.mem_cons_self, ← h.stored file List.mem_cons_self, hl]; rfl
  obtain ⟨last, hlast⟩ : ∃ last, r.versions.getLast? = some last :=
    ⟨_, List.getLast?_eq_some_getLast (m.store.versions_ne_nil hr)⟩
  have hlatest : latest r.versions = last.2 := by rw [latest, hlast]
  unfold scanned at hs
  simp only [hread, hfind, Option.bind_eq_bind, Option.bind_some, (blocksAt_entry sha256 hpath habs hread).2,
    show r.file.versions.getLast? = some last from hlast] at hs
  have htouched : Touched sha256 data r ↔ last.2 ≤ r.synced ∧ sha256 data ≠ r.hash := by rw [Touched, hlatest]
  by_cases hnewer : last.2 > r.synced
  · rw [if_pos (show last.2 > r.file.syncedVersion from hnewer)] at hs
    cases hs
    rw [hstore, if_neg fun hboth => UInt64.not_le.mpr hnewer (htouched.mp hboth).1]
    rfl
  · rw [if_neg (show ¬ last.2 > r.file.syncedVersion from hnewer)] at hs
    by_cases hhash : sha256 data ≠ r.hash
    · rw [if_pos (show sha256 data ≠ r.file.hash from hhash)] at hs
      obtain ⟨v, hv, hs⟩ := Option.bind_eq_some_iff.mp hs
      obtain ⟨blocks, hblocks, hs⟩ := Option.bind_eq_some_iff.mp hs
      cases hs
      have hnext : v = last.2 + 1 := by
        unfold checkedSucc at hv
        split at hv
        · exact (Option.some.inj hv).symm
        · cases hv
      rw [if_pos (htouched.mpr ⟨UInt64.not_lt.mp hnewer, hhash⟩), hstore, if_pos rfl,
        m.store.records_updateSyncFile dir (by simp)]
      generalize hf : ({ r.file with
        hash := sha256 data, syncedVersion := v, versions := r.file.versions ++ [(shortId, v)], blocks := blocks } :
          SyncFile) = f
      have hid : f.id = some r.id := by rw [← hf]; rfl
      have hvs : f.versions = r.versions ++ [(shortId, v)] := by rw [← hf]; rfl
      obtain ⟨htarget, hstored⟩ := m.store.stored_of_mem hr hid
      have hkept := @write_blocks sha256 (some r) r.id dir f data (by rw [← hf]; exact hblocks)
        (by rw [hvs]; simp)
      rw [htarget, hstored]
      congr 1
      unfold edited
      rw [hblocks, Option.getD_some, hlatest, ← hnext]
      refine (Rec.mk.injEq ..).mpr ⟨rfl, hfolder.symm, ?_, ?_, ?_, ?_, ?_, ?_⟩
      · rw [getName_eq, ← hf]; exact m.store.name_normal hr
      · rw [← hf]
      · rw [← hf]; rfl
      · rw [← hf]
      · show Chain.extend r.versions f.versions = _
        rw [hvs, Chain.extend_eq_iff.mpr (List.prefix_append _ _)]
      · exact hkept.trans (by rw [← hf])
    · rw [if_neg (show ¬ sha256 data ≠ r.file.hash from hhash)] at hs
      cases hs
      rw [hstore, if_neg fun hboth => hhash (htouched.mp hboth).2]
      rfl

/-! ## The loop -/

theorem Pending.rebase {s : Store} {files : List Text} (h : Pending dir s files m) : Pending dir m.store files m :=
  ⟨h.aligned, h.nodup, h.named, fun _ _ => rfl, fun file hfile => by rw [h.stored file hfile]; exact h.found file hfile⟩

theorem rescanned_beside {s : Store} {dirId : Text} {files : List Text} {r : Rec} (h : r.name ∉ files) :
    rescanned sha256 n s dirId path shortId files r = r := if_neg fun hboth => h hboth.1

theorem rescanned_first {s : Store} {dirId : Text} {files : List Text} {r : Rec} (hl : s.lookup dirId file = some r)
    (htouched : Touched sha256 (contents n path file) r) :
    rescanned sha256 n s dirId path shortId (file :: files) r = edited sha256 shortId (contents n path file) r := by
  have hname := (s.lookup_some hl).2.2
  have hin : r.name ∈ file :: files ∧ s.lookup dirId r.name = some r ∧ Touched sha256 (contents n path r.name) r := by
    rw [hname]
    exact ⟨List.mem_cons_self, hl, htouched⟩
  rw [rescanned, if_pos hin, hname]

/-- For a record that the first entry leaves, the run goes on with the others. -/
theorem rescanned_rest {s s' : Store} {dirId : Text} {files : List Text} {r : Rec} (hnot : file ∉ files)
    (hl : ∀ name, name ≠ file → s'.lookup dirId name = s.lookup dirId name)
    (hleft : s.lookup dirId file = some r → ¬ Touched sha256 (contents n path file) r) :
    rescanned sha256 n s' dirId path shortId files r = rescanned sha256 n s dirId path shortId (file :: files) r := by
  by_cases hname : r.name = file
  · rw [rescanned_beside (hname ▸ hnot)]
    refine (if_neg fun hboth => ?_).symm
    rw [hname] at hboth
    exact hleft hboth.2.1 hboth.2.2
  · unfold rescanned
    rw [hl r.name hname]
    simp only [List.mem_cons, hname, false_or]

/-- The records after the loop: the old ones, and those of the entries that had none. -/
theorem records_scanFiles (hpath : dir.path = some path) (habs : isAbsolute path = true) :
    ∀ {files : List Text} {m m' : Scanning}, Pending dir m.store files m →
      (∀ file ∈ files, (n.readFile (push path file)).isSome = true) →
      scanFiles sha256 n dir path shortId files m = (m', some ()) →
      ∃ new, m'.store.records = m.store.records.map (rescanned sha256 n m.store dir.id path shortId files) ++ new ∧
        new.map Rec.name = untracked m.store dir.id files ∧
        ∀ r ∈ new, r = created sha256 shortId dir.id r.name (contents n path r.name) r.id := by
  intro files
  induction files with
  | nil =>
    intro m m' _ _ hscan
    cases hscan
    refine ⟨[], ?_, rfl, by simp⟩
    rw [List.append_nil]
    exact (List.map_id _).symm.trans (List.map_congr_left fun r _ => (rescanned_beside List.not_mem_nil).symm)
  | cons file files ih =>
    intro m m' h hread hscan
    obtain ⟨hnot, -⟩ := List.nodup_cons.mp h.nodup
    obtain ⟨data, hdata⟩ := Option.isSome_iff_exists.mp (hread file List.mem_cons_self)
    have hcontents : contents n path file = data := by rw [contents, hdata]; rfl
    have hfile := h.named file List.mem_cons_self
    have hpass := pass_scanFile sha256 h.aligned n path shortId file
    rw [scanFiles] at hscan
    rcases hone : scanFile sha256 n dir path shortId file m with ⟨m₁, _ | ⟨⟩⟩ <;> rw [hone] at hscan hpass
    · cases hscan
    obtain ⟨new, hrecords, hnames, hnew⟩ :=
      ih (pending_pass h hpass).rebase (fun g hg => hread g (List.mem_cons_of_mem _ hg)) hscan
    -- the pass leaves what the other names find
    have hlookup : ∀ name, name ≠ file → m₁.store.lookup dir.id name = m.store.lookup dir.id name :=
      fun name hne => lookup_pass hpass hfile fun he => hne he.2.symm
    have hrest : untracked m₁.store dir.id files = untracked m.store dir.id files := by
      refine List.filter_congr fun g hg => ?_
      rw [hlookup g fun he => hnot (he ▸ hg)]
    cases hl : m.store.lookup dir.id file with
    | none =>
      obtain ⟨id, hadded⟩ := records_created h hpath habs hdata hl hone
      refine ⟨created sha256 shortId dir.id file data id :: new, ?_, ?_, ?_⟩
      · rw [hrecords, hadded, List.map_append, List.append_assoc]
        congr 1
        · refine List.map_congr_left fun r _ => rescanned_rest hnot hlookup fun hfound => ?_
          rw [hl] at hfound
          cases hfound
        · rw [List.map_singleton, rescanned_beside hnot, List.singleton_append]
      · rw [List.map_cons, hnames, hrest]
        simp [untracked, created, hl]
      · refine List.forall_mem_cons.mpr ⟨?_, hnew⟩
        show _ = created sha256 shortId dir.id file (contents n path file) id
        rw [hcontents]
    | some r =>
      obtain ⟨hr, -, hname⟩ := m.store.lookup_some hl
      have hedited := records_edited h hpath habs hdata hl hone
      refine ⟨new, ?_, ?_, hnew⟩
      · rw [hrecords, hedited]
        congr 1
        by_cases htouched : Touched sha256 data r
        · have hkey : (edited sha256 shortId data r).id ∈ m.store.records.map Rec.id :=
            show r.id ∈ _ from List.mem_map_of_mem hr
          rw [if_pos htouched, Keyed.upsert_of_mem _ m.store.records_nodup hkey, List.map_map]
          refine List.map_congr_left fun x hx => ?_
          by_cases hid : x.id = r.id
          · obtain rfl := List.inj_on_of_nodup_map m.store.records_nodup hx hr hid
            rw [Function.comp_apply, if_pos (show x.id = (edited sha256 shortId data x).id from rfl),
              rescanned_beside (show (edited sha256 shortId data x).name ∉ files from hname ▸ hnot),
              rescanned_first hl (hcontents.symm ▸ htouched), hcontents]
          · rw [Function.comp_apply, if_neg (show ¬ x.id = (edited sha256 shortId data r).id from hid)]
            refine rescanned_rest hnot hlookup fun hfound => absurd ?_ hid
            rw [Option.some.inj (hl.symm.trans hfound)]
        · rw [if_neg htouched]
          refine List.map_congr_left fun x _ => rescanned_rest hnot hlookup fun hfound => ?_
          rw [hcontents, ← Option.some.inj (hl.symm.trans hfound)]
          exact htouched
      · rw [hnames, hrest]
        simp [untracked, hl]

theorem scanFile_renewed {s : Store} {files : List Text} (h : Pending dir s (file :: files) m)
    (hrenewed : Renewed sha256 n dir path file s) (hscan : scanFile sha256 n dir path shortId file m = (m', some ())) :
    m'.store = m.store := by
  obtain ⟨data, r, hread, hl, hr⟩ := hrenewed
  obtain ⟨f, b, hs, hstore⟩ := store_scanFile hscan
  cases b with
  | false => exact hstore
  | true =>
    obtain ⟨data', hread', -, hcase⟩ := scanned_written sha256 hs
    rw [hread] at hread'
    cases hread'
    have hfind := h.found file List.mem_cons_self
    rw [hl] at hfind
    rcases hcase with ⟨x, last, v, hx, hlast, hle, hhash, -⟩ | ⟨hx, -⟩
    · rw [hfind] at hx
      cases hx
      rcases hr with hr | hr
      · exact absurd hr.symm hhash
      · rw [latest, show r.versions.getLast? = some last from hlast] at hr
        exact absurd hr (UInt64.not_lt.mpr hle)
    · rw [hfind] at hx
      cases hx

theorem scanFiles_renewed {s : Store} : ∀ {files : List Text} {m m' : Scanning}, Pending dir s files m →
    (∀ file ∈ files, Renewed sha256 n dir path file s) → scanFiles sha256 n dir path shortId files m = (m', some ()) →
    m'.store = m.store := by
  intro files
  induction files with
  | nil => intro m m' _ _ hscan; cases hscan; rfl
  | cons file files ih =>
    intro m m' h hrenewed hscan
    have hpass := pass_scanFile sha256 h.aligned n path shortId file
    rw [scanFiles] at hscan
    rcases hone : scanFile sha256 n dir path shortId file m with ⟨m₁, _ | ⟨⟩⟩ <;> rw [hone] at hscan hpass
    · cases hscan
    · have hsame := scanFile_renewed h (hrenewed file List.mem_cons_self) hone
      exact (ih (pending_pass h hpass) (fun g hg => hrenewed g (List.mem_cons_of_mem _ hg)) hscan).trans hsame

theorem scanFiles_frame (n : Node) (dir : SyncDirectory) (path : Text) (shortId : UInt64) :
    ∀ (files : List Text) (m : Scanning),
    (scanFiles sha256 n dir path shortId files m).1.store.folders = m.store.folders ∧
      (scanFiles sha256 n dir path shortId files m).1.store.peers = m.store.peers ∧
      (scanFiles sha256 n dir path shortId files m).1.store.shares = m.store.shares ∧
      (scanFiles sha256 n dir path shortId files m).1.store.shortId = m.store.shortId := by
  intro files
  induction files with
  | nil => intro m; exact ⟨rfl, rfl, rfl, rfl⟩
  | cons file files ih =>
    intro m
    have hone : ∀ m' u, scanFile sha256 n dir path shortId file m = (m', u) → m'.store.folders = m.store.folders ∧
        m'.store.peers = m.store.peers ∧ m'.store.shares = m.store.shares ∧ m'.store.shortId = m.store.shortId := by
      intro m' u h
      unfold scanFile at h
      split at h
      · cases h; exact ⟨rfl, rfl, rfl, rfl⟩
      · cases h; exact ⟨rfl, rfl, rfl, rfl⟩
      · have hframe := m.store.updateSyncFile_frame dir ‹SyncFile›
        simp only at h
        split at h <;> cases h <;> exact hframe
    rw [scanFiles]
    rcases hscan : scanFile sha256 n dir path shortId file m with ⟨m', _ | ⟨⟩⟩
    · exact hone m' none hscan
    · obtain ⟨hfolders, hpeers, hshares, hshort⟩ := hone m' _ hscan
      obtain ⟨hfolders', hpeers', hshares', hshort'⟩ := ih m'
      exact ⟨hfolders'.trans hfolders, hpeers'.trans hpeers, hshares'.trans hshares, hshort'.trans hshort⟩

/-! ## `generate_index` -/

/-- The edits in the directory are recorded, and nothing else changed. -/
structure EditsRecorded (sha256 : Bytes → Bytes) (n : Node) (dir : SyncDirectory) (path : Text) (files : List Text)
    (s : Store) : Prop where
  records : ∃ new, s.records = n.store.records.map (rescanned sha256 n n.store dir.id path n.store.shortId files) ++ new ∧
    new.map Rec.name = untracked n.store dir.id files ∧
    ∀ r ∈ new, r = created sha256 n.store.shortId dir.id r.name (contents n path r.name) r.id
  folders : s.folders = n.store.folders
  peers : s.peers = n.store.peers
  shares : s.shares = n.store.shares
  shortId : s.shortId = n.store.shortId

theorem cut_entry {n : Node} {dir : SyncDirectory} {path file : Text} {data : Bytes} (hpath : dir.path = some path)
    (habs : isAbsolute path = true) (hread : n.readFile (push path file) = some data) (hlen : data.length % 2 ^ 32 ≠ 0) :
    Cut n dir file ∧ Cut n dir (push path file) :=
  ⟨⟨path, data, hpath, hread, hlen⟩, ⟨path, data, hpath, by rw [push_push habs]; exact hread, hlen⟩⟩

theorem run_generateIndex_returns {n : Node} {dir : SyncDirectory} {path : Text} {files : List Text}
    (hpath : dir.path = some path) (hfiles : n.readDir path = some files)
    (hret : (run nodeDo (generateIndex sha256 dir) n).2.isSome = true) :
    ∃ m, scanFiles sha256 n dir path n.store.shortId files (.start n.store dir) = (m, some ()) ∧
      (run nodeDo (generateIndex sha256 dir) n).1 = { n with store := m.store } := by
  rw [run_generateIndex, hpath] at hret ⊢
  simp only [hfiles] at hret ⊢
  rcases hscan : scanFiles sha256 n dir path n.store.shortId files (.start n.store dir) with ⟨m, _ | ⟨⟩⟩
  · rw [hscan] at hret; cases hret
  · exact ⟨m, rfl, rfl⟩

/-- A second run on the same disk returns and changes nothing. -/
theorem generateIndex_again {n : Node} {dir : SyncDirectory} {path : Text} {files : List Text} (hpath : dir.path = some path)
    (hfiles : n.readDir path = some files) (hrenewed : ∀ file ∈ files, Renewed sha256 n dir path file n.store) :
    (run nodeDo (generateIndex sha256 dir) n).2.isSome = true ∧ (run nodeDo (generateIndex sha256 dir) n).1 = n := by
  have hret : (run nodeDo (generateIndex sha256 dir) n).2.isSome = true := by
    refine (generateIndex_returns_iff n dir).mpr ⟨path, files, hpath, hfiles, fun file hfile => ?_⟩
    obtain ⟨data, r, hread, hl, hr⟩ := hrenewed file hfile
    refine ⟨data, hread, ?_⟩
    rw [hl]
    intro hle hhash
    rcases hr with hr | hr
    · exact absurd hr.symm hhash
    · exact absurd hle (UInt64.not_le.mpr hr)
  obtain ⟨m, hscan, hrun⟩ := run_generateIndex_returns hpath hfiles hret
  refine ⟨hret, ?_⟩
  rw [hrun, scanFiles_renewed (pending_start hfiles) hrenewed hscan]
  rfl

/-- **What `generate_index` records.** Over a directory with an absolute path whose entries are
    regular files from 1 byte to below 4 GiB, and with no last counter at its limit, a run
    returns and records just the local edits; a second one on the same disk changes nothing. -/
theorem generateIndex_edits (sha256 : Bytes → Bytes) {n : Node} {dir : SyncDirectory} {path : Text} {files : List Text}
    (hpath : dir.path = some path) (habs : isAbsolute path = true) (hfiles : n.readDir path = some files)
    (hregular : ∀ file ∈ files, ∃ data, n.readFile (push path file) = some data ∧ 0 < data.length ∧ data.length < 2 ^ 32)
    (hcounters : ∀ file ∈ files, ∀ r, n.store.lookup dir.id file = some r → (latest r.versions).toNat < 2 ^ 64 - 1) :
    (run nodeDo (generateIndex sha256 dir) n).2.isSome = true ∧
      (run nodeDo (generateIndex sha256 dir) n).1 = { n with store := (run nodeDo (generateIndex sha256 dir) n).1.store } ∧
      EditsRecorded sha256 n dir path files (run nodeDo (generateIndex sha256 dir) n).1.store ∧
      (run nodeDo (generateIndex sha256 dir) (run nodeDo (generateIndex sha256 dir) n).1).2.isSome = true ∧
      (run nodeDo (generateIndex sha256 dir) (run nodeDo (generateIndex sha256 dir) n).1).1 =
        (run nodeDo (generateIndex sha256 dir) n).1 := by
  have hread : ∀ file ∈ files, (n.readFile (push path file)).isSome = true := by
    intro file hfile
    obtain ⟨data, hdata, -⟩ := hregular file hfile
    rw [hdata]; rfl
  have hret : (run nodeDo (generateIndex sha256 dir) n).2.isSome = true := by
    refine (generateIndex_returns_iff n dir).mpr ⟨path, files, hpath, hfiles, fun file hfile => ?_⟩
    obtain ⟨data, hdata, hpos, hlt⟩ := hregular file hfile
    obtain ⟨hcut, hcut'⟩ := cut_entry hpath habs hdata (show data.length % 2 ^ 32 ≠ 0 by omega)
    refine ⟨data, hdata, ?_⟩
    cases hl : n.store.lookup dir.id file with
    | none => exact hcut
    | some r =>
      have hcounter := hcounters file hfile r hl
      exact fun _ _ => ⟨by omega, hcut'⟩
  have hreindexed := generateIndex_reindexes hret
  obtain ⟨m, hscan, hrun⟩ := run_generateIndex_returns hpath hfiles hret
  rw [hrun] at hreindexed ⊢
  have hrenewed : ∀ file ∈ files, Renewed sha256 { n with store := m.store } dir path file m.store := by
    obtain ⟨files', hfiles', hall⟩ := hreindexed path hpath
    rw [hfiles] at hfiles'
    cases hfiles'
    exact hall
  have hframe := @scanFiles_frame sha256 n dir path n.store.shortId files (.start n.store dir)
  rw [hscan] at hframe
  obtain ⟨hfolders, hpeers, hshares, hshort⟩ := hframe
  have hrecords := records_scanFiles hpath habs (pending_start hfiles) hread hscan
  exact ⟨rfl.trans hret, rfl, ⟨hrecords, hfolders, hpeers, hshares, hshort⟩,
    generateIndex_again hpath hfiles hrenewed⟩

/-- The tests' file, indexed and then changed. -/
theorem generateIndex_edits_file :
    EditsRecorded fileSha { fileIndexed with disk := fileDisk fileContents2 } fileDir ['/', 'd'] [['f']] fileEdited.store ∧
      fileEdited.store.records = [⟨1, ['d'], ['f'], fileHash2, 7, 1, [(7, 0), (7, 1)], [⟨0, 17, fileHash2⟩]⟩] ∧
      (run nodeDo (generateIndex fileSha fileDir) fileEdited).1 = fileEdited := by
  obtain ⟨-, -, hrecorded, -, hagain⟩ := @generateIndex_edits fileSha { fileIndexed with disk := fileDisk fileContents2 }
    fileDir ['/', 'd'] [['f']] rfl rfl (by decide +kernel)
    (fun file hfile => ⟨fileContents2, by rw [List.mem_singleton.mp hfile]; rfl, by decide, by decide⟩)
    (fun file hfile r hr => by
      rw [List.mem_singleton.mp hfile] at hr
      have hrecord : fileIndexed.store.lookup fileDir.id ['f'] =
          some ⟨1, ['d'], ['f'], fileHash, 7, 0, [(7, 0)], [⟨0, 11, fileHash⟩]⟩ := by decide +kernel
      obtain rfl := Option.some.inj (hrecord.symm.trans hr)
      decide)
  exact ⟨hrecorded, by decide +kernel, hagain⟩

end BepRs.History
