/-
  BepRs.Sync.Generate — `generate_index` run on a node, as a fold over the directory.

  The loop reads the disk and asks for `update_sync_file`, so a whole run is a function of
  the store: `scanned` is what a pass writes, or only lists, for one entry of the
  directory, `scanFile` the pass on the store and the local copy of the index
  (`Scanning`), `scanFiles` the loop. `run_generateEntries` and `run_generateIndex` say
  that these are what a run of the task computes.
-/

import BepRs.Sync.Merge

namespace BepRs.Sync

open BepRs.Lib BepRs.Lib.Path BepRs.Lib.Task BepRs.State

variable (sha256 : Bytes → Bytes)

/-- The blocks `gen_blocks` finds for a path; `none` is an error or a panic. -/
def blocksAt (n : Node) (dir : SyncDirectory) (filePath : Text) : Option (List SyncBlock) := do
  let path ← dir.path
  let data ← n.readFile (push path filePath)
  blocksOf sha256 data

structure Scanning where
  store : Store
  syncFiles : List SyncFile
  outFiles : List SyncFile
  changed : Bool

/-- What the loop lists for an entry of the directory, and whether it writes it; `none` is
    a panic. -/
def scanned (n : Node) (dir : SyncDirectory) (path : Text) (shortId : UInt64) (syncFiles : List SyncFile) (file : Text) :
    Option (SyncFile × Bool) := do
  let data ← n.readFile (push path file)
  match syncFiles.find? fun x => PathEq x.path file with
  | some indexFile => do
    let last ← indexFile.versions.getLast?
    if last.2 > indexFile.syncedVersion then some (indexFile, false)
    else if sha256 data ≠ indexFile.hash then do
      let vnumber ← checkedSucc last.2
      let blocks ← blocksAt sha256 n dir (push path file)
      some
        ({ indexFile with
           syncedVersion := vnumber
           versions := indexFile.versions ++ [(shortId, vnumber)]
           hash := sha256 data
           blocks := blocks }, true)
    else some (indexFile, false)
  | none => do
    let blocks ← blocksAt sha256 n dir file
    some
      ({ id := none, path := file, hash := sha256 data, modifiedBy := shortId, syncedVersion := 0,
         versions := [(shortId, 0)], blocks := blocks }, true)

def scanFile (n : Node) (dir : SyncDirectory) (path : Text) (shortId : UInt64) (file : Text) (m : Scanning) :
    Scanning × Option Unit :=
  match scanned sha256 n dir path shortId m.syncFiles file with
  | none => (m, none)
  | some (f, false) => ({ m with outFiles := m.outFiles ++ [f] }, some ())
  | some (f, true) =>
    let r := m.store.updateSyncFile dir f
    match r.2 with
    | none => ({ m with store := r.1 }, none)
    | some () => (⟨r.1, setFirst (fun x => PathEq x.path file) f m.syncFiles, m.outFiles ++ [f], true⟩, some ())

def scanFiles (n : Node) (dir : SyncDirectory) (path : Text) (shortId : UInt64) :
    List Text → Scanning → Scanning × Option Unit
  | [], m => (m, some ())
  | file :: files, m =>
    match scanFile sha256 n dir path shortId file m with
    | (m', some ()) => scanFiles n dir path shortId files m'
    | (m', none) => (m', none)

theorem scanFiles_append (n : Node) (dir : SyncDirectory) (path : Text) (shortId : UInt64) :
    ∀ (fs gs : List Text) (m : Scanning), scanFiles sha256 n dir path shortId (fs ++ gs) m =
      match scanFiles sha256 n dir path shortId fs m with
      | (m', some ()) => scanFiles sha256 n dir path shortId gs m'
      | (m', none) => (m', none) := by
  intro fs
  induction fs with
  | nil => intro gs m; rfl
  | cons f fs ih =>
    intro gs m
    simp only [List.cons_append, scanFiles]
    rcases scanFile sha256 n dir path shortId f m with ⟨m', _ | ⟨⟩⟩
    · rfl
    · exact ih gs m'

/-! ## One pass -/

/-- What a pass writes, case by case: the next version of a file it knows, or a new file. -/
theorem scanned_written {n : Node} {dir : SyncDirectory} {path : Text} {shortId : UInt64} {l : List SyncFile} {file : Text}
    {f : SyncFile} (h : scanned sha256 n dir path shortId l file = some (f, true)) :
    ∃ data, n.readFile (push path file) = some data ∧ f.hash = sha256 data ∧
      ((∃ x last v, l.find? (fun x => PathEq x.path file) = some x ∧ x.versions.getLast? = some last ∧
          last.2 ≤ x.syncedVersion ∧ sha256 data ≠ x.hash ∧ checkedSucc last.2 = some v ∧ f.id = x.id ∧ f.path = x.path ∧
          f.modifiedBy = x.modifiedBy ∧ f.syncedVersion = v ∧ f.versions = x.versions ++ [(shortId, v)] ∧
          blocksAt sha256 n dir (push path file) = some f.blocks) ∨
        (l.find? (fun x => PathEq x.path file) = none ∧ f.id = none ∧ f.path = file ∧ f.modifiedBy = shortId ∧
          f.syncedVersion = 0 ∧ f.versions = [(shortId, 0)] ∧ blocksAt sha256 n dir file = some f.blocks)) := by
  unfold scanned at h
  obtain ⟨data, hdata, h⟩ := Option.bind_eq_some_iff.mp h
  refine ⟨data, hdata, ?_⟩
  split at h
  · rename_i x hx
    obtain ⟨last, hlast, h⟩ := Option.bind_eq_some_iff.mp h
    split at h
    · cases h
    · rename_i hle
      split at h
      · rename_i hhash
        obtain ⟨v, hv, h⟩ := Option.bind_eq_some_iff.mp h
        obtain ⟨blocks, hblocks, h⟩ := Option.bind_eq_some_iff.mp h
        cases h
        exact ⟨rfl, Or.inl ⟨x, last, v, hx, hlast, UInt64.not_lt.mp hle, hhash, hv, rfl, rfl, rfl, rfl, rfl, hblocks⟩⟩
      · cases h
  · rename_i hx
    obtain ⟨blocks, hblocks, h⟩ := Option.bind_eq_some_iff.mp h
    cases h
    exact ⟨rfl, Or.inr ⟨hx, rfl, rfl, rfl, rfl, rfl, hblocks⟩⟩

theorem scanned_next {n : Node} {dir : SyncDirectory} {path : Text} {shortId : UInt64} {l : List SyncFile} {file : Text}
    {f x : SyncFile} (h : scanned sha256 n dir path shortId l file = some (f, true))
    (hx : l.find? (fun x => PathEq x.path file) = some x) :
    ∃ last v, x.versions.getLast? = some last ∧ last.2 ≤ x.syncedVersion ∧ checkedSucc last.2 = some v ∧ f.id = x.id ∧
      f.path = x.path ∧ f.versions = x.versions ++ [(shortId, v)] := by
  obtain ⟨data, -, -, hcase⟩ := scanned_written sha256 h
  rcases hcase with ⟨x', last, v, hx', hlast, hle, -, hv, hid, hpath, -, -, hvs, -⟩ | ⟨hnone, -⟩
  · rw [hx] at hx'
    cases hx'
    exact ⟨last, v, hlast, hle, hv, hid, hpath, hvs⟩
  · rw [hx] at hnone; cases hnone

theorem scanned_new {n : Node} {dir : SyncDirectory} {path : Text} {shortId : UInt64} {l : List SyncFile} {file : Text}
    {f : SyncFile} (h : scanned sha256 n dir path shortId l file = some (f, true))
    (hx : l.find? (fun x => PathEq x.path file) = none) :
    f.id = none ∧ f.path = file ∧ f.versions = [(shortId, 0)] := by
  obtain ⟨data, -, -, hcase⟩ := scanned_written sha256 h
  rcases hcase with ⟨x, _, _, hx', -⟩ | ⟨-, hid, hpath, -, -, hvs, -⟩
  · rw [hx] at hx'; cases hx'
  · exact ⟨hid, hpath, hvs⟩

/-- An entry of the local copy is the record with its id. -/
structure Copies (dir : SyncDirectory) (x : SyncFile) (r : Rec) : Prop where
  id : x.id = some r.id
  folder : r.folder = dir.id
  path : x.path = r.name
  hash : x.hash = r.hash
  synced : x.syncedVersion = r.synced
  versions : x.versions = r.versions

structure Scanning.Aligned (dir : SyncDirectory) (m : Scanning) : Prop where
  ids : (m.syncFiles.map SyncFile.id).Nodup
  copies : ∀ x ∈ m.syncFiles, ∃ r ∈ m.store.records, Copies dir x r

/-- The loop's state when the index of the directory is generated. -/
def Scanning.start (s : Store) (dir : SyncDirectory) : Scanning := ⟨s, s.index dir.id, [], false⟩

theorem scan_start (s : Store) (dir : SyncDirectory) : (Scanning.start s dir).Aligned dir := by
  refine ⟨(aligned_start s dir).ids, fun x hx => ?_⟩
  obtain ⟨r, hr, hx⟩ := List.mem_map.mp hx
  obtain ⟨hr, hf⟩ := List.mem_filter.mp hr
  subst hx
  exact ⟨r, hr, rfl, by simpa using hf, rfl, rfl, rfl, rfl⟩

/-- The record of the entry found for a name of a directory has the name. -/
theorem name_copied {dir : SyncDirectory} {s : Store} {l : List SyncFile} {file : Text} {x : SyncFile} {r : Rec}
    (hfile : FileName file) (hx : l.find? (fun x => PathEq x.path file) = some x) (hcopy : Copies dir x r)
    (hr : r ∈ s.records) : r.name = file := by
  have hpath : PathEq x.path file := by simpa using List.find?_some hx
  rw [← join_names_fileName hfile, ← hpath.names, hcopy.path]
  exact (s.name_normal hr).symm

theorem Scanning.Aligned.next {dir : SyncDirectory} {m : Scanning} (hm : m.Aligned dir) {p : SyncFile → Bool}
    {f x : SyncFile} {v : Version} (hx : m.syncFiles.find? p = some x) (hid : f.id = x.id) (hpath : f.path = x.path)
    (hvs : f.versions = x.versions ++ [v]) :
    (m.store.updateSyncFile dir f).2 = some () ∧ ∀ out ch,
      Scanning.Aligned dir ⟨(m.store.updateSyncFile dir f).1, setFirst p f m.syncFiles, out, ch⟩ := by
  obtain ⟨r, hr, hcopy⟩ := hm.copies x (List.mem_of_find?_eq_some hx)
  obtain ⟨htarget, hstored⟩ := m.store.stored_of_mem hr (hid.trans hcopy.id)
  have hv : f.versions ≠ [] := by rw [hvs]; simp
  have hids : ((setFirst p f m.syncFiles).map SyncFile.id).Nodup := by
    rw [map_setFirst hx hid]; exact hm.ids
  refine ⟨?_, fun out ch => ⟨hids, fun y hy => ?_⟩⟩
  · rw [m.store.updateSyncFile_returns dir hv, Store.storedCount, hstored, if_neg]
    rw [hvs, hcopy.versions]; simp
  · by_cases hyf : y.id = f.id
    · cases List.inj_on_of_nodup_map hids hy (mem_setFirst_self hx) hyf
      refine ⟨_, (m.store.mem_updateSyncFile_target dir hv rfl).mpr rfl, ?_, rfl, ?_, rfl, rfl, ?_⟩
      · rw [hid, hcopy.id, ← htarget]; rfl
      · show f.path = f.getName
        rw [getName_eq, hpath, hcopy.path, m.store.name_normal hr]
      · simp only [Rec.write, hstored, Option.map_some, Option.getD_some]
        rw [Chain.extend_eq_iff.mpr]
        rw [hvs, hcopy.versions]; exact List.prefix_append _ _
    · rcases mem_setFirst hy with hy | hy
      · exact absurd (congrArg SyncFile.id hy) hyf
      · obtain ⟨r', hr', hcopy'⟩ := hm.copies y hy
        refine ⟨r', (m.store.mem_updateSyncFile_of_ne dir fun he => hyf ?_).mpr hr', hcopy'⟩
        rw [hcopy'.id, hid, hcopy.id]
        exact congrArg some (he.trans htarget)

/-- A file in a new row leaves the copy as it is. -/
theorem Scanning.Aligned.new {dir : SyncDirectory} {m : Scanning} (hm : m.Aligned dir) {f : SyncFile} (hid : f.id = none)
    (out : List SyncFile) (ch : Bool) : Scanning.Aligned dir ⟨(m.store.updateSyncFile dir f).1, m.syncFiles, out, ch⟩ := by
  refine ⟨hm.ids, fun y hy => ?_⟩
  obtain ⟨r, hr, hcopy⟩ := hm.copies y hy
  exact ⟨r, m.store.mem_updateSyncFile_new dir hid hr, hcopy⟩

/-- What a pass does to the store: nothing, or one record is written, which is the next
    version of one the copy has, or of a new row. -/
inductive Pass (n : Node) (dir : SyncDirectory) (path : Text) (shortId : UInt64) (file : Text) (m : Scanning) :
    Scanning × Option Unit → Prop
  | skip (out : List SyncFile) (u : Option Unit) : Pass n dir path shortId file m (⟨m.store, m.syncFiles, out, m.changed⟩, u)
  | next (f x : SyncFile) (r : Rec) : m.syncFiles.find? (fun x => PathEq x.path file) = some x → Copies dir x r →
      r ∈ m.store.records → scanned sha256 n dir path shortId m.syncFiles file = some (f, true) →
      m.store.target f = r.id → m.store.stored f = some r → f.getName = r.name →
      Pass n dir path shortId file m (⟨(m.store.updateSyncFile dir f).1,
        setFirst (fun x => PathEq x.path file) f m.syncFiles, m.outFiles ++ [f], true⟩, some ())
  | new (f : SyncFile) : m.syncFiles.find? (fun x => PathEq x.path file) = none →
      scanned sha256 n dir path shortId m.syncFiles file = some (f, true) → f.id = none →
      Pass n dir path shortId file m
        (⟨(m.store.updateSyncFile dir f).1, m.syncFiles, m.outFiles ++ [f], true⟩, some ())

theorem pass_scanFile {dir : SyncDirectory} {m : Scanning} (hm : m.Aligned dir) (n : Node) (path : Text) (shortId : UInt64)
    (file : Text) : Pass sha256 n dir path shortId file m (scanFile sha256 n dir path shortId file m) := by
  unfold scanFile
  cases hscan : scanned sha256 n dir path shortId m.syncFiles file with
  | none => exact .skip m.outFiles none
  | some w =>
    obtain ⟨f, b⟩ := w
    cases b with
    | false => exact .skip (m.outFiles ++ [f]) (some ())
    | true =>
      obtain ⟨data, -, -, hcase⟩ := scanned_written sha256 hscan
      rcases hcase with ⟨x, last, v, hx, -, -, -, -, hid, hpath, -, -, hvs, -⟩ | ⟨hx, hid, -, -, -, hvs, -⟩
      · obtain ⟨r, hr, hcopy⟩ := hm.copies x (List.mem_of_find?_eq_some hx)
        obtain ⟨htarget, hstored⟩ := m.store.stored_of_mem hr (hid.trans hcopy.id)
        simp only [(hm.next hx hid hpath hvs).1]
        refine .next f x r hx hcopy hr hscan htarget hstored ?_
        rw [getName_eq, hpath, hcopy.path, m.store.name_normal hr]
      · have hret : (m.store.updateSyncFile dir f).2 = some () := by
          rw [m.store.updateSyncFile_returns dir (by rw [hvs]; simp), Store.storedCount, m.store.stored_new hid]; simp
        simp only [hret, setFirst_of_find?_none hx]
        exact .new f hx hscan hid

/-- Throughout the loop, an entry of the local copy is the record with its id. -/
theorem copy_stored {dir : SyncDirectory} {m m' : Scanning} (hm : m.Aligned dir) {n : Node} {path : Text} {shortId : UInt64}
    {file : Text} {u : Option Unit} (h : Pass sha256 n dir path shortId file m (m', u)) : m'.Aligned dir := by
  cases h with
  | skip out u => exact ⟨hm.ids, hm.copies⟩
  | next f x r hx hcopy hr hscan htarget hstored hname =>
    obtain ⟨last, v, -, -, -, hid, hpath, hvs⟩ := scanned_next sha256 hscan hx
    exact (hm.next hx hid hpath hvs).2 _ _
  | new f hx hscan hid => exact hm.new hid _ _

/-- What every pass keeps holds where the loop ends, of the entries that are left there. -/
theorem scanFiles_inv {dir : SyncDirectory} {n : Node} {path : Text} {shortId : UInt64} {P : List Text → Scanning → Prop}
    (hpass : ∀ file files m m' u, m.Aligned dir → P (file :: files) m → Pass sha256 n dir path shortId file m (m', u) →
      P files m') :
    ∀ (files : List Text) (m : Scanning), m.Aligned dir → P files m →
      ∃ rest, P rest (scanFiles sha256 n dir path shortId files m).1 := by
  intro files
  induction files with
  | nil => intro m _ h; exact ⟨[], h⟩
  | cons file files ih =>
    intro m hm h
    have hone := pass_scanFile sha256 hm n path shortId file
    rw [scanFiles]
    rcases hscan : scanFile sha256 n dir path shortId file m with ⟨m', _ | u⟩ <;> rw [hscan] at hone
    · exact ⟨files, hpass file files m m' none hm h hone⟩
    · exact ih m' (copy_stored sha256 hm hone) (hpass file files m m' (some u) hm h hone)

/-! ## The loop, run -/

theorem run_genBlocks (n : Node) (dir : SyncDirectory) (filePath : Text) {α : Type} (f : List SyncBlock → BepProg α) :
    run nodeDo (do f (← unwrapOk (← genBlocks sha256 filePath dir))) n =
      match blocksAt sha256 n dir filePath with
      | some blocks => run nodeDo (f blocks) n
      | none => (n, none) := by
  unfold genBlocks blocksAt
  cases dir.path with
  | none => rfl
  | some path =>
    have hread : nodeDo n (.sys (.readFile (push path filePath))) = (n, some (n.readFile (push path filePath))) := rfl
    simp only [Option.bind_eq_bind, Option.bind_some]
    rw [run_bind, run_call_some hread]
    cases n.readFile (push path filePath) with
    | none => rfl
    | some data =>
      simp only [Option.bind_some]
      cases blocksOf sha256 data with
      | none => rfl
      | some blocks => rfl

/-- The disk a pass reads does not depend on the store. -/
theorem scanned_congr {n n' : Node} (hdisk : n'.disk = n.disk) (hcwd : n'.cwd = n.cwd) (dir : SyncDirectory) (path : Text)
    (shortId : UInt64) (syncFiles : List SyncFile) (file : Text) :
    scanned sha256 n' dir path shortId syncFiles file = scanned sha256 n dir path shortId syncFiles file := by
  have hread : ∀ p, n'.readFile p = n.readFile p := by
    intro p; rw [Node.readFile, Node.readFile, hdisk, hcwd]
  simp only [scanned, blocksAt, hread]

theorem run_generateEntries (dir : SyncDirectory) (path : Text) (shortId : UInt64) (n₀ : Node) :
    ∀ (files : List Text) (n : Node) (l out : List SyncFile) (ch : Bool), n.disk = n₀.disk → n.cwd = n₀.cwd →
      run nodeDo (generateEntries sha256 dir path shortId files l out ch) n =
        ({ n with store := (scanFiles sha256 n₀ dir path shortId files ⟨n.store, l, out, ch⟩).1.store },
          (scanFiles sha256 n₀ dir path shortId files ⟨n.store, l, out, ch⟩).2.map fun _ =>
            ((scanFiles sha256 n₀ dir path shortId files ⟨n.store, l, out, ch⟩).1.outFiles,
              (scanFiles sha256 n₀ dir path shortId files ⟨n.store, l, out, ch⟩).1.changed)) := by
  intro files
  induction files with
  | nil => intro n l out ch _ _; rfl
  | cons file files ih =>
    intro n l out ch hdisk hcwd
    have hread : nodeDo n (.sys (.readFile (push path file))) = (n, some (n.readFile (push path file))) := rfl
    -- The loop after a write, in either branch.
    have hwrite : ∀ f, run nodeDo (do
          db (.updateSyncFile dir f)
          generateEntries sha256 dir path shortId files (setFirst (fun x => PathEq x.path file) f l) (out ++ [f]) true) n =
        let m := match (match (n.store.updateSyncFile dir f).2 with
            | none => (⟨(n.store.updateSyncFile dir f).1, l, out, ch⟩, none)
            | some () => (⟨(n.store.updateSyncFile dir f).1, setFirst (fun x => PathEq x.path file) f l, out ++ [f], true⟩,
                some ()) : Scanning × Option Unit) with
          | (m', some ()) => scanFiles sha256 n₀ dir path shortId files m'
          | (m', none) => (m', none)
        ({ n with store := m.1.store }, m.2.map fun _ => (m.1.outFiles, m.1.changed)) := by
      intro f
      have hdo : nodeDo n (.db (.updateSyncFile dir f)) =
          ({ n with store := (n.store.updateSyncFile dir f).1 }, (n.store.updateSyncFile dir f).2) := rfl
      cases hr : (n.store.updateSyncFile dir f).2 with
      | none => rw [hr] at hdo; exact run_call_none hdo
      | some u =>
        rw [hr] at hdo
        exact (run_call_some hdo).trans (ih { n with store := (n.store.updateSyncFile dir f).1 } _ _ _ hdisk hcwd)
    simp only [scanFiles, scanFile]
    rw [← scanned_congr sha256 hdisk hcwd]
    unfold scanned generateEntries
    rw [run_call_some hread]
    cases n.readFile (push path file) with
    | none => rfl
    | some data =>
      simp only [unwrap_some, Prog.ret_bind, Option.bind_eq_bind, Option.bind_some]
      cases hfind : l.find? fun x => PathEq x.path file with
      | none =>
        simp only
        rw [run_genBlocks]
        cases blocksAt sha256 n dir file with
        | none => rfl
        | some blocks =>
          refine Eq.trans ?_ (hwrite _)
          rw [setFirst_of_find?_none hfind]
      | some x =>
        simp only
        cases hlast : x.versions.getLast? with
        | none => rfl
        | some last =>
          simp only [unwrap_some, Prog.ret_bind, Option.bind_some]
          by_cases hnewer : last.2 > x.syncedVersion
          · rw [if_pos hnewer, if_pos hnewer]
            exact ih n l _ ch hdisk hcwd
          · rw [if_neg hnewer, if_neg hnewer]
            by_cases hhash : sha256 data ≠ x.hash
            · rw [if_pos hhash, if_pos hhash]
              cases checkedSucc last.2 with
              | none => rfl
              | some v =>
                simp only [unwrap_some, Prog.ret_bind, Option.bind_some]
                rw [run_genBlocks]
                cases blocksAt sha256 n dir (push path file) with
                | none => rfl
                | some blocks => exact hwrite _
            · rw [if_neg hhash, if_neg hhash]
              exact ih n l _ ch hdisk hcwd

/-- What a run of `generate_index` does to the store: it ends at a panic, or the whole
    directory was scanned. -/
theorem run_generateIndex (dir : SyncDirectory) (n : Node) :
    run nodeDo (generateIndex sha256 dir) n =
      match dir.path with
      | none => (n, none)
      | some path =>
        match n.readDir path with
        | none => (n, none)
        | some files =>
          let m := scanFiles sha256 n dir path n.store.shortId files (.start n.store dir)
          ({ n with store := m.1.store }, m.2.map fun _ => m.1.outFiles) := by
  have hshort : nodeDo n (.db .getShortId) = (n, some n.store.shortId) := rfl
  unfold generateIndex
  rw [run_call_some hshort, run_call_some (nodeDo_getSyncFiles n dir.id)]
  cases dir.path with
  | none => rfl
  | some path =>
    have hdir : nodeDo n (.sys (.readDir path)) = (n, some (n.readDir path)) := rfl
    simp only [unwrap_some, Prog.ret_bind]
    rw [run_call_some hdir]
    cases n.readDir path with
    | none => rfl
    | some files =>
      simp only [unwrap_some, Prog.ret_bind]
      have hrun := run_generateEntries sha256 dir path n.store.shortId n files n (n.store.index dir.id) [] false rfl rfl
      rw [run_bind, hrun]
      simp only [Scanning.start]
      cases hm : (scanFiles sha256 n dir path n.store.shortId files ⟨n.store, n.store.index dir.id, [], false⟩).2 with
      | none => rfl
      | some u =>
        simp only [Option.map_some]
        split <;> rfl

theorem run_generateIndex_store (dir : SyncDirectory) (n : Node) :
    (run nodeDo (generateIndex sha256 dir) n).1.store = n.store ∨
      ∃ path files, dir.path = some path ∧ n.readDir path = some files ∧
        (run nodeDo (generateIndex sha256 dir) n).1.store =
          (scanFiles sha256 n dir path n.store.shortId files (.start n.store dir)).1.store := by
  rw [run_generateIndex]
  cases hpath : dir.path with
  | none => exact Or.inl rfl
  | some path =>
    simp only
    cases hdir : n.readDir path with
    | none => exact Or.inl rfl
    | some files => exact Or.inr ⟨path, files, rfl, hdir, rfl⟩

end BepRs.Sync
