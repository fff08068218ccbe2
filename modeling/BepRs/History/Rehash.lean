/-
  BepRs.History.Rehash — a file indexed again after it was synced.

  Two functions compute a record's hash. `generate_index` takes the digest of the whole
  file; `handle_index` takes the first block's, since a message has no other. When a file
  was merged and fetched (`Exchange`), `generate_index` finds the synced version equal to
  the latest and compares the two.

  - `resync_iff`: it appends no version exactly when the contents are one block.
  - `resync_versioned`: it does for contents of two.
-/

import BepRs.History.Merge
import BepRs.History.Unique
import Mathlib.Data.List.Find

namespace BepRs.History

open BepRs.Lib BepRs.Lib.Path BepRs.Lib.Task BepRs.State BepRs.Sync

variable (sha256 : Bytes → Bytes)

/-! ## The two hashes -/

/-- The first block's hash, for contents of one block and of more. -/
theorem blocksOf_head {data : Bytes} {blocks : List SyncBlock} (h : blocksOf sha256 data = some blocks) :
    ∃ b, blocks.head? = some b ∧ (blocks.length = 1 → b.hash = sha256 data) ∧
      (blocks.length ≠ 1 → b.hash = sha256 (data.take (getBlocksize (data.length % 2 ^ 32))) ∧
        getBlocksize (data.length % 2 ^ 32) < data.length) := by
  unfold blocksOf at h
  simp only at h
  generalize hlen : data.length % 2 ^ 32 = len at h ⊢
  generalize hsize : getBlocksize len = size at h ⊢
  split at h
  · cases h
  · rename_i hnum
    cases h
    obtain ⟨k, hk⟩ : ∃ k, divCeil len size = k + 1 := ⟨_, (Nat.succ_pred_eq_of_ne_zero hnum).symm⟩
    rw [hk, Nat.add_sub_cancel]
    cases k with
    | zero => exact ⟨_, rfl, fun _ => by simp, fun hne => absurd rfl hne⟩
    | succ k =>
      refine ⟨_, by rw [List.range_succ_eq_map]; rfl, fun hone => ?_, fun _ => ⟨by simp, ?_⟩⟩
      · simp at hone
      · -- Two blocks or more: the length is above the block size.
        have hlarge : size < len := by
          by_contra hle
          have hone : divCeil len size ≤ 1 := by
            unfold divCeil
            rcases Nat.eq_zero_or_pos size with hz | hpos
            · rw [hz]; simp
            · have : (len + size - 1) / size < 2 := (Nat.div_lt_iff_lt_mul hpos).mpr (by omega)
              omega
          omega
        have := Nat.mod_le data.length (2 ^ 32)
        omega

/-! ## `generate_index` at one file -/

/-- A file on disk directly in a directory is one of its entries. -/
theorem mem_readDir {n : Node} {path name : Text} {files : List Text} {data : Bytes} (hname : FileName name)
    (hfiles : n.readDir path = some files) (hread : n.readFile (push path name) = some data) : name ∈ files := by
  unfold Node.readDir at hfiles
  cases hp : n.disk.locate n.cwd path with
  | none => rw [hp] at hfiles; cases hfiles
  | some p =>
    rw [hp] at hfiles
    simp only at hfiles
    split at hfiles
    · cases hfiles
      unfold Node.readFile Disk.find at hread
      cases hq : n.disk.locate n.cwd (push path name) with
      | none => rw [hq] at hread; cases hread
      | some q =>
        rw [hq, Option.bind_some] at hread
        have hplace : q = p ++ [name] := by
          rw [n.disk.locate_resolve hq, n.disk.locate_resolve hp, resolve_push hname]
        subst hplace
        cases hnode : n.disk.node (p ++ [name]) with
        | none => rw [hnode] at hread; cases hread
        | some x =>
          rw [Disk.node, if_neg (by simp)] at hnode
          obtain ⟨e, he, -⟩ := Option.map_eq_some_iff.mp hnode
          obtain ⟨hmem, hkey⟩ := Keyed.row_some _ he
          refine List.mem_filterMap.mpr ⟨e, hmem, ?_⟩
          simp [hkey]
    · cases hfiles

/-- An entry whose digest is the record's hash: the record stays. -/
theorem generateIndex_same {n : Node} {dir : SyncDirectory} {path name : Text} {r : Rec} {data : Bytes}
    (hpath : dir.path = some path) (hr : r ∈ n.store.records) (hname : r.name = name)
    (hread : n.readFile (push path name) = some data) (hhash : sha256 data = r.hash) :
    r ∈ (run nodeDo (generateIndex sha256 dir) n).1.store.records := by
  rcases run_generateIndex_store sha256 dir n with h | ⟨path', files, hpath', hfiles, h⟩
  · rw [h]; exact hr
  · rw [h]
    rw [hpath] at hpath'
    cases hpath'
    let P : List Text → Scanning → Prop := fun rest m => (∀ file ∈ rest, FileName file) ∧ r ∈ m.store.records
    suffices hend : ∃ rest, P rest (scanFiles sha256 n dir path n.store.shortId files (.start n.store dir)).1 by
      obtain ⟨rest, hend⟩ := hend
      exact hend.2
    refine scanFiles_inv sha256 ?_ files _ (scan_start n.store dir) ⟨fun file hf => readDir_named hfiles hf, hr⟩
    intro file files m m' u hm hP hpass
    obtain ⟨hnames, hr⟩ := hP
    refine ⟨fun g hg => hnames g (List.mem_cons_of_mem _ hg), ?_⟩
    cases hpass with
    | skip out u => exact hr
    | next f x r₁ hx hcopy hr₁ hscan htarget hstored hfname =>
      refine (m.store.mem_updateSyncFile_of_ne dir fun he => ?_).mpr hr
      -- The entry is the record's, and its digest is not another one.
      have hrr : r = r₁ := List.inj_on_of_nodup_map m.store.records_nodup hr hr₁ (he.trans htarget)
      subst hrr
      have hfile : file = name := (name_copied (hnames file List.mem_cons_self) hx hcopy hr).symm.trans hname
      subst hfile
      obtain ⟨data', hread', -, hcase⟩ := scanned_written sha256 hscan
      rw [hread] at hread'
      cases hread'
      rcases hcase with ⟨x', last, v, hx', -, -, hne, -⟩ | ⟨hnone, -⟩
      · rw [hx] at hx'
        cases hx'
        exact hne (by rw [hcopy.hash]; exact hhash)
      · rw [hx] at hnone; cases hnone
    | new f hx hscan hid =>
      exact m.store.mem_updateSyncFile_new dir hid hr

theorem grows_scanFiles (n : Node) (dir : SyncDirectory) (path : Text) (shortId : UInt64) : ∀ (files : List Text) (m : Scanning),
    Grows m.store (scanFiles sha256 n dir path shortId files m).1.store := by
  intro files
  induction files with
  | nil => intro m; exact Grows.refl _
  | cons file files ih =>
    intro m
    have hone : Grows m.store (scanFile sha256 n dir path shortId file m).1.store := by
      unfold scanFile
      split
      · exact Grows.refl _
      · exact Grows.refl _
      · have hgrows := grows_updateSyncFile m.store dir ‹SyncFile›
        simp only
        split <;> exact hgrows
    rw [scanFiles]
    rcases hscan : scanFile sha256 n dir path shortId file m with ⟨m', _ | u⟩ <;> rw [hscan] at hone
    · exact hone
    · exact hone.trans (ih m')

/-- The index's first entry of a path that is a file's name is the name's first record. -/
theorem find?_path_index (s : Store) (dirId : Text) {name : Text} (hname : FileName name) :
    (s.index dirId).find? (fun x => PathEq x.path name) = (s.lookup dirId name).map Rec.file := by
  rw [← s.find?_index]
  refine List.find?_congr fun x hx => ?_
  obtain ⟨r, hr, hx⟩ := List.mem_map.mp hx
  subst hx
  have hr := (List.mem_filter.mp hr).1
  rw [s.getName_file hr, decide_eq_decide]
  constructor
  · intro h
    rw [← join_names_fileName hname, ← h.names]
    exact (s.name_normal hr).symm
  · intro h
    show PathEq r.name name
    rw [h]; rfl

/-- A pass leaves the copy's entry of another name. -/
theorem find?_pass {sha256 : Bytes → Bytes} {n : Node} {dir : SyncDirectory} {path : Text} {shortId : UInt64} {file : Text}
    {m m' : Scanning} {u : Option Unit} (h : Pass sha256 n dir path shortId file m (m', u)) (hfile : FileName file)
    {g : Text} (hg : FileName g) (hne : file ≠ g) :
    m'.syncFiles.find? (fun x => PathEq x.path g) = m.syncFiles.find? (fun x => PathEq x.path g) := by
  cases h with
  | skip out u => rfl
  | next f x r hx hcopy hr hscan htarget hstored hname =>
    have hother : ¬ PathEq file g := by
      intro he
      apply hne
      rw [← join_names_fileName hfile, he.names, join_names_fileName hg]
    have hpatheq : PathEq x.path file := by simpa using List.find?_some hx
    obtain ⟨last, v, -, -, -, -, hpath, -⟩ := scanned_next sha256 hscan hx
    refine find?_setFirst ?_ (fun y hy => ?_) _
    · rw [hpath, decide_eq_false_iff_not]
      exact fun he => hother (hpatheq.symm.trans he)
    · rw [decide_eq_false_iff_not]
      exact fun he => hother ((of_decide_eq_true hy).symm.trans he)
  | new f hx hscan hid => rfl

/-- The entries of other names leave a name's record, in the store and in the copy. -/
theorem scanFiles_beside (n : Node) {dir : SyncDirectory} (path : Text) (shortId : UInt64) {name : Text}
    (hname : FileName name) {r : Rec} {x : SyncFile} (hrn : r.name = name) {files : List Text}
    (hfiles : ∀ file ∈ files, FileName file ∧ file ≠ name)
    {m : Scanning} (hm : m.Aligned dir) (hr : r ∈ m.store.records)
    (hx : m.syncFiles.find? (fun x => PathEq x.path name) = some x) :
    r ∈ (scanFiles sha256 n dir path shortId files m).1.store.records ∧
      (scanFiles sha256 n dir path shortId files m).1.syncFiles.find? (fun x => PathEq x.path name) = some x := by
  let P : List Text → Scanning → Prop := fun rest m => (∀ file ∈ rest, FileName file ∧ file ≠ name) ∧
    r ∈ m.store.records ∧ m.syncFiles.find? (fun x => PathEq x.path name) = some x
  suffices hend : ∃ rest, P rest (scanFiles sha256 n dir path shortId files m).1 by
    obtain ⟨rest, hend⟩ := hend
    exact hend.2
  refine scanFiles_inv sha256 ?_ files m hm ⟨hfiles, hr, hx⟩
  intro file rest m m' u hm hP hpass
  obtain ⟨hrest, hr, hfind⟩ := hP
  obtain ⟨hfile, hne⟩ := hrest file List.mem_cons_self
  refine ⟨fun g hg => hrest g (List.mem_cons_of_mem _ hg), ?_, (find?_pass hpass hfile hname hne).trans hfind⟩
  cases hpass with
  | skip out u => exact hr
  | next f y r₁ hy hcopy hr₁ hscan htarget hstored hfname =>
    have hr₁n : r₁.name = file := name_copied hfile hy hcopy hr₁
    refine (m.store.mem_updateSyncFile_of_ne dir fun he => hne ?_).mpr hr
    rw [← hr₁n, ← List.inj_on_of_nodup_map m.store.records_nodup hr hr₁ (he.trans htarget), hrn]
  | new f hy hscan hid => exact m.store.mem_updateSyncFile_new dir hid hr

/-- At an entry whose digest is another than the hash of its record, which is synced, a pass
    that returns writes the next version. -/
theorem scanFile_next {n : Node} {dir : SyncDirectory} {path name : Text} {shortId : UInt64} {r : Rec} {data : Bytes}
    {m m' : Scanning} (hr : r ∈ m.store.records) (hfind : m.syncFiles.find? (fun x => PathEq x.path name) = some r.file)
    (hread : n.readFile (push path name) = some data) (hhash : sha256 data ≠ r.hash) (hsynced : r.synced = latest r.versions)
    (h : scanFile sha256 n dir path shortId name m = (m', some ())) :
    ∃ r' ∈ m'.store.records, r'.id = r.id ∧ r.versions.length < r'.versions.length := by
  obtain ⟨last, hlast⟩ : ∃ last, r.versions.getLast? = some last :=
    ⟨_, List.getLast?_eq_some_getLast (m.store.versions_ne_nil hr)⟩
  have hnot : ¬ last.2 > r.file.syncedVersion := by
    show ¬ last.2 > r.synced
    rw [hsynced, latest, hlast]; exact UInt64.lt_irrefl _
  cases hscan : scanned sha256 n dir path shortId m.syncFiles name with
  | none => simp only [scanFile, hscan, Prod.mk.injEq] at h; cases h.2
  | some w =>
    obtain ⟨f, b⟩ := w
    have hwritten : b = true ∧ f.id = some r.id ∧ ∃ v, f.versions = r.versions ++ [(shortId, v)] := by
      have hw := hscan
      unfold scanned at hw
      rw [hread, hfind] at hw
      simp only [Option.bind_eq_bind, Option.bind_some, show r.file.versions = r.versions from rfl, hlast, if_neg hnot,
        if_pos (show sha256 data ≠ r.file.hash from hhash)] at hw
      obtain ⟨v, -, hw⟩ := Option.bind_eq_some_iff.mp hw
      obtain ⟨blocks, -, hw⟩ := Option.bind_eq_some_iff.mp hw
      cases hw
      exact ⟨rfl, rfl, v, rfl⟩
    obtain ⟨hb, hid, v, hvs⟩ := hwritten
    subst hb
    have hstore : m'.store = (m.store.updateSyncFile dir f).1 := by
      simp only [scanFile, hscan] at h
      split at h
      · cases h
      · cases h; rfl
    obtain ⟨htarget, hstored⟩ := m.store.stored_of_mem hr hid
    refine ⟨_, hstore ▸ (m.store.mem_updateSyncFile_target dir (by rw [hvs]; simp) rfl).mpr rfl, htarget, ?_⟩
    simp only [Rec.write, hstored, Option.map_some, Option.getD_some, Chain.length_extend, hvs, List.length_append,
      List.length_singleton]
    omega

/-- An entry whose digest is another than the hash of its name's record, which is synced:
    the record has a version more. -/
theorem generateIndex_next {n : Node} {dir : SyncDirectory} {path name : Text} {r : Rec} {data : Bytes}
    (hname : FileName name) (hpath : dir.path = some path) (hl : n.store.lookup dir.id name = some r)
    (hread : n.readFile (push path name) = some data) (hhash : sha256 data ≠ r.hash)
    (hsynced : r.synced = latest r.versions) (hret : (run nodeDo (generateIndex sha256 dir) n).2.isSome = true) :
    ∃ r' ∈ (run nodeDo (generateIndex sha256 dir) n).1.store.records, r'.id = r.id ∧
      r.versions.length < r'.versions.length := by
  obtain ⟨hr, -, hrn⟩ := n.store.lookup_some hl
  rw [run_generateIndex, hpath] at hret ⊢
  simp only at hret ⊢
  cases hfiles : n.readDir path with
  | none => rw [hfiles] at hret; cases hret
  | some files =>
    rw [hfiles] at hret
    simp only [Option.isSome_map] at hret ⊢
    obtain ⟨before, after, hsplit⟩ := List.append_of_mem (mem_readDir hname hfiles hread)
    have hothers : ∀ file ∈ before, FileName file ∧ file ≠ name := by
      intro file hf
      have hnd := readDir_nodup hfiles
      rw [hsplit] at hnd
      exact ⟨readDir_named hfiles (by rw [hsplit]; exact List.mem_append_left _ hf),
        (List.nodup_append.mp hnd).2.2 file hf name List.mem_cons_self⟩
    have hstart : (Scanning.start n.store dir).syncFiles.find? (fun x => PathEq x.path name) = some r.file := by
      show (n.store.index dir.id).find? _ = _
      rw [find?_path_index n.store dir.id hname, hl]; rfl
    obtain ⟨hkept, hfind⟩ := scanFiles_beside sha256 n path n.store.shortId hname hrn hothers (scan_start n.store dir)
      hr hstart
    subst hsplit
    rw [scanFiles_append] at hret ⊢
    rcases hbefore : scanFiles sha256 n dir path n.store.shortId before (.start n.store dir) with ⟨m, _ | u⟩
    · rw [hbefore] at hret; cases hret
    · rw [hbefore] at hret hkept hfind
      simp only [scanFiles] at hret ⊢
      rcases hone : scanFile sha256 n dir path n.store.shortId name m with ⟨m', _ | u'⟩
      · rw [hone] at hret; cases hret
      · obtain ⟨r', hr', hid', hlt⟩ := scanFile_next sha256 hkept hfind hread hhash hsynced hone
        obtain ⟨r'', hr'', hid'', hpre⟩ := grows_scanFiles sha256 n dir path n.store.shortId after m' r' hr'
        have := hpre.length_le
        exact ⟨r'', hr'', hid''.trans hid', by omega⟩

/-! ## An exchange -/

/-- A file that went from one node to another: the receiver merged the sender's message,
    fetched the file with an `Ok`, and has the sender's contents on its disk. Between these
    anything but the records may change. -/
structure Exchange where
  /-- What the sender has, and its blocks. -/
  data : Bytes
  blocks : List SyncBlock
  blocks_of : blocksOf sha256 data = some blocks
  info : FileInfo
  counters : List Counter
  info_name : FileName info.name
  info_version : info.version = some counters
  info_blocks : info.blocks = blocks.map fun y => ⟨y.offset, y.size, y.hash⟩
  /-- The receiver when the message comes; the message has no other file of the name. -/
  receiving : Node
  dir : SyncDirectory
  path : Text
  configured : receiving.store.getSyncDirectory dir.id = some dir
  dir_path : dir.path = some path
  earlier : List FileInfo
  later : List FileInfo
  earlier_names : ∀ file ∈ earlier, normal file.name ≠ info.name
  later_names : ∀ file ∈ later, normal file.name ≠ info.name
  newer : depth (receiving.store.lookup dir.id info.name) < counters.length
  merged : (run nodeDo (handleIndex dir.id (earlier ++ info :: later)) receiving).2 = some ()
  /-- The receiver when it fetches the file, as it is recorded then. -/
  fetching : Node
  fetching_store : fetching.store = (run nodeDo (handleIndex dir.id (earlier ++ info :: later)) receiving).1.store
  record : Rec
  recorded : fetching.store.lookup dir.id info.name = some record
  fetched : (run nodeDo (getFile sha256 dir record.file) fetching).2 = some (.ok ())
  /-- The receiver when it generates its index. -/
  holding : Node
  holding_store : holding.store = (run nodeDo (getFile sha256 dir record.file) fetching).1.store
  holds : holding.readFile (push path info.name) = some data

namespace Exchange

variable {sha256} (x : Exchange sha256)

/-- `generate_index` appends no version to the file. -/
def Quiet : Prop :=
  ∀ r ∈ (run nodeDo (generateIndex sha256 x.dir) x.holding).1.store.records, r.id = x.record.id →
    r.versions = x.record.versions

/-- The message leaves a record with the first block's hash. -/
theorem record_hash {b : SyncBlock} (hb : x.blocks.head? = some b) : x.record.hash = b.hash := by
  have hname : normal x.info.name = x.info.name := join_names_fileName x.info_name
  have hfirst : x.info.blocks.head? = some ⟨b.offset, b.size, b.hash⟩ := by rw [x.info_blocks, List.head?_map, hb]; rfl
  have hrec := x.recorded
  have hmerged := x.merged
  rw [x.fetching_store, (run_handleIndex_store x.configured _).1] at hrec
  rw [(run_handleIndex_store x.configured _).2, mergeFiles_append] at hmerged
  rw [mergeFiles_append] at hrec
  rcases hearlier : mergeFiles x.dir x.earlier (.start x.receiving.store x.dir) with ⟨m, _ | u⟩
  · rw [hearlier] at hmerged; cases hmerged
  · rw [hearlier] at hmerged hrec
    simp only [mergeFiles] at hmerged hrec
    obtain ⟨hm, hl, hcopy⟩ := mergeFiles_beside (aligned_start x.receiving.store x.dir) x.earlier_names hearlier
    rcases hone : mergeFile x.dir x.info m with ⟨m', _ | u'⟩
    · rw [hone] at hmerged; cases hmerged
    · rw [hone] at hmerged hrec
      simp only at hmerged hrec
      obtain ⟨r', hr', hhash⟩ := mergeFile_taken hname x.info_version hfirst
        (by rw [hcopy, hl]; exact x.receiving.store.find?_index x.dir.id x.info.name) (by rw [hl]; exact x.newer) hone
      obtain ⟨-, hl', -⟩ := mergeFiles_beside (local_stored hm hone) x.later_names (Prod.ext rfl hmerged)
      rw [hl', hr'] at hrec
      cases hrec
      exact hhash

/-- The download leaves the record with its latest version as the synced one. -/
theorem held : ∃ r, x.holding.store.lookup x.dir.id x.info.name = some r ∧ r.id = x.record.id ∧ r.hash = x.record.hash ∧
    r.versions = x.record.versions ∧ r.synced = latest r.versions := by
  obtain ⟨k, -, hstore, hres⟩ := fetched_getFile sha256 x.dir x.record.file x.fetching
  obtain ⟨hr, -, hrn⟩ := x.fetching.store.lookup_some x.recorded
  obtain ⟨r, h1, h2, h3, h4, h5⟩ := lookup_stampTimes x.dir ((x.fetching.store.name_normal hr).trans hrn)
    (x.fetching.store.versions_ne_nil hr) k x.fetching.store x.record x.recorded rfl rfl rfl
  refine ⟨r, by rw [x.holding_store, hstore]; exact h1, h2, h3, h4, ?_⟩
  rw [h5 (hres x.fetched).2, h4]; rfl

theorem quiet_of_one (hone : x.blocks.length = 1) : x.Quiet := by
  obtain ⟨b, hb, hhash, -⟩ := blocksOf_head sha256 x.blocks_of
  obtain ⟨r, hl, hid, hrh, hvs, -⟩ := x.held
  obtain ⟨hr, -, hrn⟩ := x.holding.store.lookup_some hl
  have hkept := generateIndex_same sha256 x.dir_path hr hrn x.holds (by rw [hrh, x.record_hash hb, hhash hone])
  intro r' hr' hid'
  rw [List.inj_on_of_nodup_map (Store.records_nodup _) hr' hkept (hid'.trans hid.symm), hvs]

theorem versioned_of_more (hmore : x.blocks.length ≠ 1)
    (hsha : sha256 (x.data.take (getBlocksize (x.data.length % 2 ^ 32))) = sha256 x.data →
      x.data.take (getBlocksize (x.data.length % 2 ^ 32)) = x.data)
    (hret : (run nodeDo (generateIndex sha256 x.dir) x.holding).2.isSome = true) :
    ∃ r ∈ (run nodeDo (generateIndex sha256 x.dir) x.holding).1.store.records, r.id = x.record.id ∧
      x.record.versions.length < r.versions.length := by
  obtain ⟨b, hb, -, hfirst⟩ := blocksOf_head sha256 x.blocks_of
  obtain ⟨hhash, hlt⟩ := hfirst hmore
  obtain ⟨r, hl, hid, hrh, hvs, hsynced⟩ := x.held
  have hne : sha256 x.data ≠ r.hash := by
    rw [hrh, x.record_hash hb, hhash]
    intro he
    have := congrArg List.length (hsha he.symm)
    rw [List.length_take] at this
    omega
  obtain ⟨r', hr', hid', hlen⟩ := generateIndex_next sha256 x.info_name x.dir_path hl x.holds hne hsynced hret
  exact ⟨r', hr', hid'.trans hid, by rw [← hvs]; exact hlen⟩

end Exchange

variable {sha256} in
/-- After an exchange, `generate_index` appends no version to the file when its contents are
    one block, and where it returns only then, unless the digest of the first block is that
    of the whole. -/
theorem resync_iff (x : Exchange sha256)
    (hsha : sha256 (x.data.take (getBlocksize (x.data.length % 2 ^ 32))) = sha256 x.data →
      x.data.take (getBlocksize (x.data.length % 2 ^ 32)) = x.data) :
    (x.blocks.length = 1 → x.Quiet) ∧
      ((run nodeDo (generateIndex sha256 x.dir) x.holding).2.isSome = true → (x.Quiet ↔ x.blocks.length = 1)) := by
  refine ⟨x.quiet_of_one, fun hret => ⟨fun hquiet => by_contra fun hmore => ?_, x.quiet_of_one⟩⟩
  obtain ⟨r, hr, hid, hlt⟩ := x.versioned_of_more hmore hsha hret
  rw [hquiet r hr hid] at hlt
  omega

/-! ## One block, and two -/

/-- The node with a peer's file announced, and the peer's answers to come. -/
def announcedNode (file : FileInfo) (wire : List (Except PeerCommandError PeerRequestResponse)) : Node :=
  { (run nodeDo (handleIndex ['d'] [file]) (fileNode [])).1 with wire := wire }

def fileRecord : Rec := ⟨1, ['d'], ['f'], fileHash, 0, 0, [(9, 0)], [⟨0, 11, fileHash⟩]⟩

/-- The tests' file, exchanged. -/
def fileExchange : Exchange fileSha where
  data := fileContents
  blocks := [⟨0, 11, fileHash⟩]
  blocks_of := by decide +kernel
  info := peerInfo ['f']
  counters := [⟨9, 0⟩]
  info_name := by decide
  info_version := rfl
  info_blocks := rfl
  receiving := fileNode []
  dir := fileDir
  path := ['/', 'd']
  configured := by decide +kernel
  dir_path := rfl
  earlier := []
  later := []
  earlier_names := by simp
  later_names := by simp
  newer := by decide +kernel
  merged := by decide +kernel
  fetching := announcedNode (peerInfo ['f']) [.ok (.response ⟨0, fileContents, 0⟩)]
  fetching_store := rfl
  record := fileRecord
  recorded := by decide +kernel
  fetched := by decide +kernel
  holding := (run nodeDo (getFile fileSha fileDir fileRecord.file)
    (announcedNode (peerInfo ['f']) [.ok (.response ⟨0, fileContents, 0⟩)])).1
  holding_store := rfl
  holds := by decide +kernel

theorem resync_file : fileExchange.blocks.length = 1 ∧ fileExchange.record.versions = [(9, 0)] ∧ fileExchange.Quiet ∧
    (run nodeDo (generateIndex fileSha fileDir) fileExchange.holding).2.isSome = true := by
  refine ⟨rfl, rfl, (resync_iff fileExchange fun _ => ?_).1 rfl, by decide +kernel⟩
  decide +kernel

/-- The smallest contents of two blocks, all zeros, with the digests of the whole and of the
    two blocks. -/
def zeroContents : Bytes := List.replicate 131073 0

def zeroHash : Bytes :=
  [0xd2, 0x81, 0x20, 0x9c, 0xc7, 0x2d, 0x47, 0xb0, 0x90, 0x17, 0x5b, 0x22, 0x62, 0x18, 0x40, 0xd9,
   0xeb, 0x82, 0x67, 0xd0, 0x9c, 0xc0, 0x5d, 0xc1, 0x22, 0xbf, 0xaa, 0x75, 0x9a, 0x82, 0x83, 0x0f]

def zeroHash1 : Bytes :=
  [0xfa, 0x43, 0x23, 0x9b, 0xce, 0xe7, 0xb9, 0x7c, 0xa6, 0x2f, 0x00, 0x7c, 0xc6, 0x84, 0x87, 0x56,
   0x0a, 0x39, 0xe1, 0x9f, 0x74, 0xf3, 0xdd, 0xe7, 0x48, 0x6d, 0xb3, 0xf9, 0x8d, 0xf8, 0xe4, 0x71]

def zeroHash2 : Bytes :=
  [0x6e, 0x34, 0x0b, 0x9c, 0xff, 0xb3, 0x7a, 0x98, 0x9c, 0xa5, 0x44, 0xe6, 0xbb, 0x78, 0x0a, 0x2c,
   0x78, 0x90, 0x1d, 0x3f, 0xb3, 0x37, 0x38, 0x76, 0x85, 0x11, 0xa3, 0x06, 0x17, 0xaf, 0xa0, 0x1d]

/-- SHA-256 on the three. -/
def zeroSha (data : Bytes) : Bytes :=
  if data = zeroContents then zeroHash else if data = List.replicate 131072 0 then zeroHash1
  else if data = [0] then zeroHash2 else []

theorem zeroSha_first : zeroSha (List.replicate 131072 0) = zeroHash1 := by
  have hne : List.replicate 131072 (0 : UInt8) ≠ zeroContents := by
    intro h
    have hlen := congrArg List.length h
    rw [zeroContents, List.length_replicate, List.length_replicate] at hlen
    omega
  rw [zeroSha, if_neg hne, if_pos rfl]

theorem zeroSha_second : zeroSha [0] = zeroHash2 := by
  have hne : ∀ k, [(0 : UInt8)] ≠ List.replicate (k + 2) 0 := by
    intro k h
    have hlen := congrArg List.length h
    rw [List.length_replicate, List.length_singleton] at hlen
    omega
  rw [zeroSha, zeroContents, if_neg (hne 131071), if_neg (hne 131070), if_pos rfl]

def zeroBlocks : List SyncBlock := [⟨0, 131072, zeroHash1⟩, ⟨131072, 1, zeroHash2⟩]

theorem blocksOf_zero : blocksOf zeroSha zeroContents = some zeroBlocks := by
  have hsize : getBlocksize 131073 = 131072 := by decide
  have hnum : divCeil 131073 131072 = 2 := by decide
  have hlen : zeroContents.length % 2 ^ 32 = 131073 := by
    rw [zeroContents, List.length_replicate]; rfl
  have hfirst : (zeroContents.drop (0 * 131072)).take 131072 = List.replicate 131072 0 := by
    rw [zeroContents, List.drop_replicate, List.take_replicate]; rfl
  have hlast : zeroContents.drop (131072 * (2 - 1)) = [0] := by
    rw [zeroContents, List.drop_replicate]; rfl
  unfold blocksOf
  simp only [hlen, hsize, hnum, hlast, zeroSha_second]
  simp only [List.range_succ, List.range_zero, List.nil_append, List.map_cons, List.map_nil, hfirst, zeroSha_first]
  decide

def zeroInfo : FileInfo := ⟨['f'], 0, some [⟨9, 0⟩], [⟨0, 131072, zeroHash1⟩, ⟨131072, 1, zeroHash2⟩]⟩

def zeroRecord : Rec := ⟨1, ['d'], ['f'], zeroHash1, 0, 0, [(9, 0)], zeroBlocks⟩

/-! The exchange of contents whose blocks have these digests. The contents stay variables
here, so that nothing evaluates them. -/

section Halves

/-- Contents, and the two blocks of them. -/
structure Halves (sha : Bytes → Bytes) (whole first second : Bytes) : Prop where
  blocks : blocksOf sha whole = some zeroBlocks
  first : sha first = zeroHash1
  second : sha second = zeroHash2
  whole : sha whole ≠ zeroHash1

variable {sha : Bytes → Bytes} {whole first second : Bytes} (h : Halves sha whole first second)

/-- The node with the file announced and both answers to come. -/
def halvesNode (first second : Bytes) : Node :=
  announcedNode zeroInfo [.ok (.response ⟨0, first, 0⟩), .ok (.response ⟨0, second, 0⟩)]

theorem halves_recorded (first second : Bytes) : (halvesNode first second).store.lookup ['d'] ['f'] = some zeroRecord := by
  have hstore : (halvesNode first second).store = (announcedNode zeroInfo []).store := rfl
  rw [hstore]
  decide +kernel

include h in
theorem halves_fetched : (run nodeDo (getFile sha fileDir zeroRecord.file) (halvesNode first second)).2 = some (.ok ()) := by
  refine getFile_arrives sha rfl (by decide) ?_ ?_ ?_
  · exact ⟨⟨_, _, rfl, rfl, h.first, rfl⟩, by decide, ⟨_, _, rfl, rfl, h.second, rfl⟩, by decide, trivial⟩
  · exact ⟨rfl, [['d'], ['f']], [], rfl⟩
  · exact current_file (Store.lookup_some _ (halves_recorded first second)).1

/-- The node with the download recorded and the contents on its disk. -/
def halvesHolding (sha : Bytes → Bytes) (whole first second : Bytes) : Node :=
  { fileNode whole with store := (run nodeDo (getFile sha fileDir zeroRecord.file) (halvesNode first second)).1.store }

/-- The file, exchanged. -/
def halvesExchange : Exchange sha where
  data := whole
  blocks := zeroBlocks
  blocks_of := h.blocks
  info := zeroInfo
  counters := [⟨9, 0⟩]
  info_name := by decide
  info_version := rfl
  info_blocks := rfl
  receiving := fileNode []
  dir := fileDir
  path := ['/', 'd']
  configured := by decide +kernel
  dir_path := rfl
  earlier := []
  later := []
  earlier_names := by simp
  later_names := by simp
  newer := by decide +kernel
  merged := by decide +kernel
  fetching := halvesNode first second
  fetching_store := rfl
  record := zeroRecord
  recorded := halves_recorded first second
  fetched := halves_fetched h
  holding := halvesHolding sha whole first second
  holding_store := rfl
  holds := rfl

include h in
/-- `generate_index` returns there: the one entry of the directory is written. -/
theorem halves_returns :
    (run nodeDo (generateIndex sha fileDir) (halvesHolding sha whole first second)).2.isSome = true := by
  obtain ⟨r, hl, -, hhash, hvs, hsynced⟩ := (halvesExchange h).held
  generalize hn : halvesHolding sha whole first second = n
  have hl : n.store.lookup ['d'] ['f'] = some r := by rw [← hn]; exact hl
  have hvs : r.versions = [(9, 0)] := hvs
  have hread : n.readFile ['/', 'd', '/', 'f'] = some whole := by rw [← hn]; rfl
  have hdir : n.readDir ['/', 'd'] = some [['f']] := by rw [← hn]; rfl
  have hfind : (Scanning.start n.store fileDir).syncFiles.find? (fun x => PathEq x.path ['f']) = some r.file := by
    show (n.store.index ['d']).find? _ = _
    rw [find?_path_index _ ['d'] (by decide), hl]; rfl
  have hblocks : blocksAt sha n fileDir (push ['/', 'd'] ['f']) = some zeroBlocks := by
    show (n.readFile ['/', 'd', '/', 'f']).bind (blocksOf sha) = _
    rw [hread]; exact h.blocks
  have hscan : ∃ f, scanned sha n fileDir ['/', 'd'] n.store.shortId (Scanning.start n.store fileDir).syncFiles ['f'] =
      some (f, true) ∧ f.id = some r.id ∧ f.versions = r.versions ++ [(n.store.shortId, 1)] := by
    have hlast : r.file.versions.getLast? = some (9, 0) := by
      show r.versions.getLast? = _
      rw [hvs]; rfl
    have hnot : ¬ (0 : UInt64) > r.file.syncedVersion := by
      show ¬ (0 : UInt64) > r.synced
      rw [hsynced, hvs]; decide
    have hne : sha whole ≠ r.file.hash := by
      show sha whole ≠ r.hash
      rw [hhash]; exact h.whole
    unfold scanned
    rw [show n.readFile (push ['/', 'd'] ['f']) = some whole from hread, hfind]
    simp only [Option.bind_eq_bind, Option.bind_some, hlast, if_neg hnot, if_pos hne, hblocks,
      show checkedSucc 0 = some 1 from rfl]
    exact ⟨_, rfl, rfl, rfl⟩
  obtain ⟨f, hscan, hid, hfvs⟩ := hscan
  have hret : (n.store.updateSyncFile fileDir f).2 = some () := by
    rw [n.store.updateSyncFile_returns fileDir (by rw [hfvs]; simp), Store.storedCount,
      (n.store.stored_of_mem (n.store.lookup_some hl).1 hid).2, if_neg]
    rw [hfvs]; simp
  have hpath : fileDir.path = some ['/', 'd'] := rfl
  rw [run_generateIndex]
  simp only [hpath, hdir, scanFiles, scanFile, hscan]
  rw [show (Scanning.start n.store fileDir).store.updateSyncFile fileDir f = (_, some ()) from Prod.ext rfl hret]
  rfl

include h in
theorem halves_versioned : ¬ (halvesExchange h).Quiet := by
  intro hquiet
  obtain ⟨r, hl, hid, hhash, hvs, hsynced⟩ := (halvesExchange h).held
  have hne : sha whole ≠ r.hash := by rw [hhash]; exact h.whole
  obtain ⟨r', hr', hid', hlt⟩ := generateIndex_next sha (halvesExchange h).info_name (halvesExchange h).dir_path hl
    (halvesExchange h).holds hne hsynced (halves_returns h)
  rw [hquiet r' hr' (hid'.trans hid), hvs] at hlt
  omega

end Halves

theorem zero_halves : Halves zeroSha zeroContents (List.replicate 131072 0) [0] := by
  refine ⟨blocksOf_zero, zeroSha_first, zeroSha_second, ?_⟩
  rw [zeroSha, if_pos rfl]
  decide

/-- The contents of two blocks: the record's hash is the first's, `generate_index` finds
    another for the whole and appends a version. -/
theorem resync_versioned : ∃ x : Exchange zeroSha, x.data = zeroContents ∧ x.blocks = zeroBlocks ∧
    x.record.versions = [(9, 0)] ∧ (run nodeDo (generateIndex zeroSha x.dir) x.holding).2.isSome = true ∧ ¬ x.Quiet :=
  ⟨halvesExchange zero_halves, rfl, rfl, rfl, halves_returns zero_halves, halves_versioned zero_halves⟩

end BepRs.History
