/-
  BepRs.History.Held — versions a node knows of and does not hold.

  `generate_index` takes the file on disk for the latest version unless the record's
  synced version is below it. A run of calls, one after another, carries the rows that
  await a download (`Runs`, with `P`): their latest version came in a message and no
  `get_file` for it has returned `Ok`. The rule is that `generate_index` leaves those rows
  alone, whatever is on disk; it does as long as every such row's synced version is below
  its latest (`Behind`).

  `handle_index` keeps the synced version of a record it replaces and gives a new one 0, so
  a message must announce later versions than that (`Newer`). `get_file` records a file as
  synced at its first block, so a file must come whole or not at all (`Whole`).
  - `awaited_not_versioned`: in every run that meets these, `generate_index` appends no
    version to a row that awaits its download.
  - `awaited_versioned`: without them it does, for a new file with one version, and for a
    download that stopped after its first block.
-/

import BepRs.History.Merge
import BepRs.History.Unique

namespace BepRs.History

open BepRs.Lib BepRs.Lib.Path BepRs.Lib.Task BepRs.State BepRs.Sync

variable (sha256 : Bytes → Bytes)

/-! ## Runs -/

def Changed (s s' : Store) (id : Nat) : Prop :=
  ∃ r' ∈ s'.records, r'.id = id ∧ ∀ r ∈ s.records, r.id = id → r.versions ≠ r'.versions

/-- Every file of the message that is longer than the folder's record of its name ends
    after the record's synced version. -/
def Newer (s : Store) (folder : Text) (files : List FileInfo) : Prop :=
  ∀ file ∈ files, ∀ cs, file.version = some cs → depth (s.lookup folder file.name) < cs.length →
    syncedOf (s.lookup folder file.name) < latest (cs.map Counter.version)

/-- The states of a node and the rows that await a download in them; `guarded` asks of every
    message and every download what the rule needs. -/
inductive Runs (guarded : Bool) : Node → (Nat → Prop) → Prop
  | init {n : Node} : n.store.records = [] → Runs guarded n fun _ => False
  /-- The disk is edited, the peers answer, folders and shares change. -/
  | outside {n n' : Node} {P : Nat → Prop} : Runs guarded n P → n'.store.records = n.store.records → Runs guarded n' P
  | merge {n : Node} {P : Nat → Prop} (folder : Text) (files : List FileInfo) : Runs guarded n P →
      (guarded = true → Newer n.store folder files) →
      Runs guarded (run nodeDo (handleIndex folder files) n).1
        fun id => P id ∨ Changed n.store (run nodeDo (handleIndex folder files) n).1.store id
  | fetch {n : Node} {P : Nat → Prop} (dir : SyncDirectory) (file : SyncFile) : Runs guarded n P →
      (guarded = true → (∃ r ∈ n.store.records, r.folder = dir.id ∧ r.file = file) ∧ Whole sha256 n file) →
      Runs guarded (run nodeDo (getFile sha256 dir file) n).1
        fun id => P id ∧ ¬ ((run nodeDo (getFile sha256 dir file) n).2 = some (.ok ()) ∧
          ∃ r ∈ n.store.records, r.id = id ∧ file.id = some id ∧ r.versions = file.versions)
  | scan {n : Node} {P : Nat → Prop} (dir : SyncDirectory) : Runs guarded n P →
      Runs guarded (run nodeDo (generateIndex sha256 dir) n).1
        fun id => P id ∧ ¬ Changed n.store (run nodeDo (generateIndex sha256 dir) n).1.store id

def Behind (s : Store) (P : Nat → Prop) : Prop := ∀ r ∈ s.records, P r.id → r.synced < latest r.versions

/-! ## A message -/

theorem latest_extend {a b : List Version} (h : a.length < b.length) : latest (Chain.extend a b) = latest b := by
  rw [latest, latest, Chain.getLast?_extend h]

def Kept (s : Store) (r' : Rec) : Prop :=
  (∃ r ∈ s.records, r.id = r'.id ∧ r.versions = r'.versions ∧ r.synced = r'.synced) ∨ r'.synced < latest r'.versions

/-- The files of a message that are left, the records so far, and the local copy: its entries
    have the synced versions of the records they were read from, and their versions at least. -/
structure Receiving (s : Store) (dir : SyncDirectory) (files : List FileInfo) (rest : List FileInfo) (m : Merging) : Prop where
  sub : ∀ file ∈ rest, file ∈ files
  kept : ∀ r' ∈ m.store.records, Kept s r'
  absent : ∀ a, m.localindex.find? (fun x => x.getName = a) = none → s.lookup dir.id a = none
  copy : ∀ a x, m.localindex.find? (fun x => x.getName = a) = some x →
    x.syncedVersion = syncedOf (s.lookup dir.id a) ∧ depth (s.lookup dir.id a) ≤ x.versions.length

theorem receiving_start (s : Store) (dir : SyncDirectory) (files : List FileInfo) :
    Receiving s dir files files (.start s dir) := by
  have hfind : ∀ a, (Merging.start s dir).localindex.find? (fun x => x.getName = a) = (s.lookup dir.id a).map Rec.file :=
    fun a => s.find?_index dir.id a
  refine ⟨fun _ hf => hf, fun r hr => Or.inl ⟨r, hr, rfl, rfl, rfl⟩, fun a he => ?_, fun a x hx => ?_⟩
  · rw [hfind] at he
    exact Option.map_eq_none_iff.mp he
  · rw [hfind] at hx
    obtain ⟨r, hr, hx⟩ := Option.map_eq_some_iff.mp hx
    subst hx
    rw [hr]
    exact ⟨rfl, Nat.le_refl _⟩

theorem receiving_pass {s : Store} {dir : SyncDirectory} {files rest : List FileInfo} (hnewer : Newer s dir.id files)
    {file : FileInfo} {m m' : Merging} {u : Option Unit} (h : Receiving s dir files (file :: rest) m)
    (hpass : MergePass dir file m (m', u)) : Receiving s dir files rest m' := by
  obtain ⟨hsub, hkept, habsent, hcopy⟩ := h
  have hsub' : ∀ g ∈ rest, g ∈ files := fun g hg => hsub g (List.mem_cons_of_mem _ hg)
  cases hpass with
  | skip u => exact ⟨hsub', hkept, habsent, hcopy⟩
  | found f x r hx hmir hr hin htarget hstored hname =>
    obtain ⟨first, cs, -, hcs, hlen, hvs, -, hid, hpath, hsynced⟩ := incoming_found hin hx
    obtain ⟨hxs, hxd⟩ := hcopy file.name x hx
    have hnew := hnewer file (hsub file List.mem_cons_self) cs hcs (by omega)
    have hfname : f.getName = file.name := by
      rw [getName_eq, hpath, ← getName_eq]
      simpa using List.find?_some hx
    have hself : (setFirst (fun x => x.getName = file.name) f m.localindex).find? (fun x => x.getName = file.name) = some f :=
      find?_setFirst_eq (by simpa using hfname) hx
    refine ⟨hsub', fun r' hr' => ?_, fun a he => ?_, fun a y hy => ?_⟩
    · rcases m.store.mem_updateSyncFile_cases dir hr' with hr' | hr'
      · exact hkept r' hr'
      · refine Or.inr ?_
        rw [hr', hstored]
        have hlt : r.versions.length < f.versions.length := by
          rw [hvs, List.length_map, ← hmir.length]; exact hlen
        simp only [Rec.write, Option.map_some, Option.getD_some, latest_extend hlt]
        rw [hsynced, hxs, hvs]; exact hnew
    · by_cases ha : file.name = a
      · subst ha
        rw [hself] at he; cases he
      · rw [find?_name_setFirst hfname ha] at he
        exact habsent a he
    · by_cases ha : file.name = a
      · subst ha
        rw [hself] at hy
        cases hy
        refine ⟨hsynced.trans hxs, ?_⟩
        rw [hvs, List.length_map]; omega
      · rw [find?_name_setFirst hfname ha] at hy
        exact hcopy a y hy
  | new f hx hin hid hv =>
    obtain ⟨first, cs, -, hcs, hvs, -⟩ := incoming_cases hin
    have hsynced := (incoming_new hin hx).2
    have hnone := habsent file.name hx
    have hpos : 0 < cs.length := by
      rw [hvs] at hv
      exact List.length_pos_iff.mpr (by simpa using hv)
    have hnew := hnewer file (hsub file List.mem_cons_self) cs hcs (by rw [hnone]; exact hpos)
    refine ⟨hsub', fun r' hr' => ?_, habsent, hcopy⟩
    rcases m.store.mem_updateSyncFile_cases dir hr' with hr' | hr'
    · exact hkept r' hr'
    · refine Or.inr ?_
      rw [hr', m.store.stored_new hid]
      simp only [Rec.write, Option.map_none, Option.getD_none, Chain.nil_extend]
      rw [hsynced, hvs]
      rw [hnone] at hnew; exact hnew

/-- After a message every record is as it was, but for what a longer history brings, or is
    behind. -/
theorem handleIndex_behind {n : Node} {folder : Text} {files : List FileInfo} (h : Newer n.store folder files) :
    ∀ r' ∈ (run nodeDo (handleIndex folder files) n).1.store.records, Kept n.store r' := by
  cases hdir : n.store.getSyncDirectory folder with
  | none =>
    rw [run_handleIndex_unknown hdir]
    exact fun r hr => Or.inl ⟨r, hr, rfl, rfl, rfl⟩
  | some dir =>
    have hid := getSyncDirectory_id hdir
    subst hid
    rw [(run_handleIndex_store hdir files).1]
    obtain ⟨rest, hend⟩ := mergeFiles_inv (P := Receiving n.store dir files)
      (fun _ _ _ _ _ _ hP _ hpass => receiving_pass h hP hpass) files _ (aligned_start n.store dir)
      (receiving_start n.store dir files)
    exact hend.kept

/-! ## The directory -/

theorem generateIndex_awaited {n : Node} {P : Nat → Prop} (hb : Behind n.store P) (dir : SyncDirectory) :
    ∀ r ∈ n.store.records, P r.id → r ∈ (run nodeDo (generateIndex sha256 dir) n).1.store.records := by
  rcases run_generateIndex_store sha256 dir n with h | ⟨path, files, -, -, h⟩
  · rw [h]; exact fun r hr _ => hr
  · rw [h]
    let Q : List Text → Scanning → Prop := fun _ m => ∀ r ∈ n.store.records, P r.id → r ∈ m.store.records
    suffices hend : ∃ rest, Q rest (scanFiles sha256 n dir path n.store.shortId files (.start n.store dir)).1 by
      obtain ⟨rest, hend⟩ := hend
      exact hend
    refine scanFiles_inv sha256 ?_ files _ (scan_start n.store dir) fun r hr _ => hr
    intro file files m m' u hm hQ hpass
    cases hpass with
    | skip out u => exact hQ
    | next f x r₁ hx hcopy hr₁ hscan htarget hstored hname =>
      intro r hr hP
      refine (m.store.mem_updateSyncFile_of_ne dir fun he => ?_).mpr (hQ r hr hP)
      -- The row written is not behind: the pass has compared.
      have hrr : r = r₁ := List.inj_on_of_nodup_map m.store.records_nodup (hQ r hr hP) hr₁ (he.trans htarget)
      subst hrr
      obtain ⟨last, v, hlast, hle, -⟩ := scanned_next sha256 hscan hx
      have hlt := hb r hr hP
      rw [latest, ← hcopy.versions, hlast, ← hcopy.synced] at hlt
      exact absurd hlt (UInt64.not_lt.mpr hle)
    | new f hx hscan hid =>
      intro r hr hP
      exact m.store.mem_updateSyncFile_new dir hid (hQ r hr hP)

/-! ## Every run -/

theorem behind_runs {n : Node} {P : Nat → Prop} (h : Runs sha256 true n P) : Behind n.store P := by
  induction h with
  | init hempty =>
    intro r hr
    rw [hempty] at hr; cases hr
  | outside _ hrecs ih =>
    intro r hr hP
    rw [hrecs] at hr; exact ih r hr hP
  | @merge n P folder files _ hguard ih =>
    intro r' hr' hP
    rcases handleIndex_behind (hguard rfl) r' hr' with ⟨r, hr, hid, hvs, hsynced⟩ | hlt
    · rcases hP with hP | ⟨r'', hr'', hid'', hne⟩
      · rw [← hvs, ← hsynced]
        exact ih r hr (by rw [hid]; exact hP)
      · rw [List.inj_on_of_nodup_map (Store.records_nodup _) hr'' hr' hid''] at hne
        exact absurd hvs (hne r hr hid)
    · exact hlt
  | @fetch n P dir file _ hguard ih =>
    obtain ⟨⟨r, hr, -, hfile⟩, hwhole⟩ := hguard rfl
    subst hfile
    intro r' hr' hP
    by_cases hid : r'.id = r.id
    · rcases getFile_whole sha256 dir (current_file hr) hwhole with hok | hstore
      · exact absurd ⟨hok, r, hr, hid.symm, by rw [hid]; rfl, rfl⟩ hP.2
      · rw [hstore] at hr'; exact ih r' hr' hP.1
    · obtain ⟨k, -, hstore, -⟩ := fetched_getFile sha256 dir r.file n
      rw [hstore, mem_stampTimes_of_ne dir rfl hid] at hr'
      exact ih r' hr' hP.1
  | @scan n P dir _ ih =>
    intro r' hr' hP
    -- The row was there with the same history, and if it awaits its download it is untouched.
    obtain ⟨r, hr, hid, hvs⟩ : ∃ r ∈ n.store.records, r.id = r'.id ∧ r.versions = r'.versions := by
      refine by_contra fun hno => hP.2 ⟨r', hr', rfl, fun r hr hid hvs => hno ⟨r, hr, hid, hvs⟩⟩
    have hkept := generateIndex_awaited sha256 ih dir r hr (by rw [hid]; exact hP.1)
    rw [← List.inj_on_of_nodup_map (Store.records_nodup _) hkept hr' hid]
    exact ih r hr (by rw [hid]; exact hP.1)

/-- In every run in which messages announce later versions than are synced and files come
    whole or not at all, `generate_index` appends nothing to a record whose latest version
    came from a peer and was not downloaded, whatever the disk has. -/
theorem awaited_not_versioned {n : Node} {P : Nat → Prop} (h : Runs sha256 true n P) (dir : SyncDirectory) :
    ∀ r ∈ n.store.records, P r.id → ∀ r' ∈ (run nodeDo (generateIndex sha256 dir) n).1.store.records,
      r'.id = r.id → r'.versions = r.versions := by
  intro r hr hP r' hr' hid
  have hkept := generateIndex_awaited sha256 (behind_runs sha256 h) dir r hr hP
  rw [List.inj_on_of_nodup_map (Store.records_nodup _) hr' hkept hid]

/-! ## A file announced and not fetched -/

def heldIndexed : Node := (run nodeDo (generateIndex fileSha fileDir) (fileNode fileContents)).1

def heldAnnounced (n : Node) (file : FileInfo) : Node := (run nodeDo (handleIndex ['d'] [file]) n).1

theorem awaited_not_versioned_file : ∃ P, Runs fileSha true (heldAnnounced heldIndexed fileInfo2) P ∧
    (∃ r ∈ (heldAnnounced heldIndexed fileInfo2).store.records, P r.id ∧ r.versions = [(7, 0), (9, 1)] ∧
      (heldAnnounced heldIndexed fileInfo2).readFile ['/', 'd', '/', 'f'] = some fileContents ∧ r.hash ≠ fileSha fileContents) ∧
    ∀ r ∈ (heldAnnounced heldIndexed fileInfo2).store.records, P r.id →
      ∀ r' ∈ (run nodeDo (generateIndex fileSha fileDir) (heldAnnounced heldIndexed fileInfo2)).1.store.records,
        r'.id = r.id → r'.versions = r.versions := by
  have hnewer : Newer heldIndexed.store ['d'] [fileInfo2] := by
    intro file hfile cs hcs _
    rw [List.mem_singleton.mp hfile] at hcs ⊢
    cases hcs
    show syncedOf (heldIndexed.store.lookup ['d'] ['f']) < _
    decide +kernel
  have hscan : Runs fileSha true heldIndexed _ := .scan fileDir (.init (n := fileNode fileContents) rfl)
  have hrun : Runs fileSha true (heldAnnounced heldIndexed fileInfo2) _ := .merge ['d'] [fileInfo2] hscan fun _ => hnewer
  refine ⟨_, hrun, ?_, awaited_not_versioned fileSha hrun fileDir⟩
  have hrow : ∃ r ∈ (heldAnnounced heldIndexed fileInfo2).store.records, r.id = 1 ∧ r.versions = [(7, 0), (9, 1)] ∧
      (heldAnnounced heldIndexed fileInfo2).readFile ['/', 'd', '/', 'f'] = some fileContents ∧
      r.hash ≠ fileSha fileContents := by decide +kernel
  have hchanged : ∃ r' ∈ (heldAnnounced heldIndexed fileInfo2).store.records, r'.id = 1 ∧
      ∀ r ∈ heldIndexed.store.records, r.id = 1 → r.versions ≠ r'.versions := by decide +kernel
  obtain ⟨r, hr, hid, hrest⟩ := hrow
  exact ⟨r, hr, Or.inr (by rw [hid]; exact hchanged), hrest⟩

def twoBlocks : FileInfo := ⟨['f'], 0, some [⟨7, 0⟩, ⟨9, 1⟩], [⟨0, 11, fileHash⟩, ⟨11, 17, fileHash2⟩]⟩

def twoBlocksFile : SyncFile := ⟨some 1, ['f'], fileHash, 0, 0, [(7, 0), (9, 1)], [⟨0, 11, fileHash⟩, ⟨11, 17, fileHash2⟩]⟩

def heldAsking : Node :=
  { heldAnnounced heldIndexed twoBlocks with wire := [.ok (.response ⟨0, fileContents, 0⟩)] }

/-- The node after that download, with the file edited. -/
def heldCut : Node :=
  { (run nodeDo (getFile fileSha fileDir twoBlocksFile) heldAsking).1 with disk := fileDisk fileContents2 }

/-- A new file with one version is taken for held as soon as it is announced; so is a file
    whose download stopped after its first block. -/
theorem awaited_versioned :
    (∃ P, Runs fileSha false (heldAnnounced (fileNode fileContents2) (peerInfo ['f'])) P ∧
      ∃ r ∈ (heldAnnounced (fileNode fileContents2) (peerInfo ['f'])).store.records, P r.id ∧ r.versions = [(9, 0)] ∧
        ∃ r' ∈ (run nodeDo (generateIndex fileSha fileDir)
            (heldAnnounced (fileNode fileContents2) (peerInfo ['f']))).1.store.records,
          r'.id = r.id ∧ r'.versions = [(9, 0), (7, 1)]) ∧
    ∃ P, Runs fileSha false heldCut P ∧ ∃ r ∈ heldCut.store.records, P r.id ∧ r.versions = [(7, 0), (9, 1)] ∧
      ∃ r' ∈ (run nodeDo (generateIndex fileSha fileDir) heldCut).1.store.records,
        r'.id = r.id ∧ r'.versions = [(7, 0), (9, 1), (7, 2)] := by
  constructor
  · refine ⟨_, Runs.merge ['d'] [peerInfo ['f']] (.init (n := fileNode fileContents2) rfl) (fun h => by cases h), ?_⟩
    have hchanged : ∃ r' ∈ (heldAnnounced (fileNode fileContents2) (peerInfo ['f'])).store.records, r'.id = 1 ∧
        ∀ r ∈ (fileNode fileContents2).store.records, r.id = 1 → r.versions ≠ r'.versions := by decide +kernel
    have hrow : ∃ r ∈ (heldAnnounced (fileNode fileContents2) (peerInfo ['f'])).store.records, r.id = 1 ∧
        r.versions = [(9, 0)] ∧ ∃ r' ∈ (run nodeDo (generateIndex fileSha fileDir)
            (heldAnnounced (fileNode fileContents2) (peerInfo ['f']))).1.store.records,
          r'.id = r.id ∧ r'.versions = [(9, 0), (7, 1)] := by decide +kernel
    obtain ⟨r, hr, hid, hrest⟩ := hrow
    exact ⟨r, hr, Or.inr (by rw [hid]; exact hchanged), hrest⟩
  · have hscan : Runs fileSha false heldIndexed _ := .scan fileDir (.init (n := fileNode fileContents) rfl)
    have hmerged : Runs fileSha false (heldAnnounced heldIndexed twoBlocks) _ :=
      .merge ['d'] [twoBlocks] hscan (fun h => by cases h)
    have hasking : Runs fileSha false heldAsking _ := .outside hmerged rfl
    have hcut : Runs fileSha false heldCut _ := .outside (.fetch fileDir twoBlocksFile hasking (fun h => by cases h)) rfl
    refine ⟨_, hcut, ?_⟩
    have hchanged : ∃ r' ∈ (heldAnnounced heldIndexed twoBlocks).store.records, r'.id = 1 ∧
        ∀ r ∈ heldIndexed.store.records, r.id = 1 → r.versions ≠ r'.versions := by decide +kernel
    have hfails : (run nodeDo (getFile fileSha fileDir twoBlocksFile) heldAsking).2.any (·.isOk) = false := by
      decide +kernel
    have hrow : ∃ r ∈ heldCut.store.records, r.id = 1 ∧ r.versions = [(7, 0), (9, 1)] ∧
        ∃ r' ∈ (run nodeDo (generateIndex fileSha fileDir) heldCut).1.store.records,
          r'.id = r.id ∧ r'.versions = [(7, 0), (9, 1), (7, 2)] := by decide +kernel
    obtain ⟨r, hr, hid, hrest⟩ := hrow
    refine ⟨r, hr, ⟨Or.inr (by rw [hid]; exact hchanged), fun h => ?_⟩, hrest⟩
    rw [h.1] at hfails; cases hfails

end BepRs.History
