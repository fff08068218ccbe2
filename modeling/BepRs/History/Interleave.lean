/-
  BepRs.History.Interleave — tasks that share one `BepState`.

  `handle_index`, `generate_index` and `get_file` read the index of a folder, wait for a disk
  or a peer, and write whole records back, one call of `BepStateRef` at a time. What a task
  asks of the disk and of its peers is answered by a script of its own (`Script`), the same
  whether it runs alone or among others; what is left is a task on the store (`answered`), and
  a run of it alone is a run on a node (`run_answered`). Alone, no task writes a file with
  fewer versions than are stored for it (`fits_job`).

  - `updates_serialise`: in every interleaving in which a task reads the index only when no
    task that has changed a record is still under way, and goes on only while no other task
    has changed one since, the assertion of `update_sync_file` holds at every call and, when
    all have ended, the records are those of the tasks run one after another in some order.
  - `updates_collide`: an interleaving of two `handle_index` where neither holds.
-/

import BepRs.History.Merge
import BepRs.Lib.Serial
import BepRs.Sync.Fetch

namespace BepRs.History

open BepRs.Lib BepRs.Lib.Path BepRs.Lib.Task BepRs.Lib.Serial BepRs.State BepRs.Sync

/-! ## The store as a machine -/

@[reducible] def dbSig : Sig := ⟨DbOp, DbOp.Ans⟩

def store : Machine dbSig Store := dbDo

/-- The same records and the same configuration; the order of the version and block rows may
    be another. -/
def Same (s s' : Store) : Prop :=
  s.records = s'.records ∧ s.folders = s'.folders ∧ s.peers = s'.peers ∧ s.shares = s'.shares ∧ s.shortId = s'.shortId

instance (s s' : Store) : Decidable (Same s s') := inferInstanceAs (Decidable (_ ∧ _))

/-- The calls that neither read nor write a record. -/
def Neutral : DbOp → Prop
  | .getSyncFiles _ => False
  | .updateSyncFile _ _ => False
  | _ => True

instance : DecidablePred Neutral
  | .getSyncFiles _ => isFalse id
  | .updateSyncFile _ _ => isFalse id
  | .getSyncDirectories => isTrue trivial
  | .getSyncDirectory _ => isTrue trivial
  | .isDirectorySynced _ _ => isTrue trivial
  | .getPeers => isTrue trivial
  | .getShortId => isTrue trivial
  | .directoryChanged _ => isTrue trivial

/-- "We shouldn't have more versions than the file being requested": the assertion fails. -/
def Overrun (s : Store) : DbOp → Prop
  | .updateSyncFile _ f => f.versions.length < s.storedCount f
  | _ => False

instance (s : Store) : DecidablePred (Overrun s)
  | .updateSyncFile _ f => inferInstanceAs (Decidable (f.versions.length < s.storedCount f))
  | .getSyncFiles _ => isFalse id
  | .getSyncDirectories => isFalse id
  | .getSyncDirectory _ => isFalse id
  | .isDirectorySynced _ _ => isFalse id
  | .getPeers => isFalse id
  | .getShortId => isFalse id
  | .directoryChanged _ => isFalse id

theorem Same.stored {s s' : Store} (h : Same s s') (f : SyncFile) : s.target f = s'.target f ∧ s.stored f = s'.stored f := by
  have htarget : s.target f = s'.target f := by
    rw [Tables.target, Tables.target, ← s.map_id_records, ← s'.map_id_records, h.1]
  exact ⟨htarget, by rw [Store.stored, Store.stored, htarget, h.1]⟩

theorem Same.storedCount {s s' : Store} (h : Same s s') (f : SyncFile) : s.storedCount f = s'.storedCount f := by
  rw [Store.storedCount, Store.storedCount, (h.stored f).2]

/-- What a call does depends on the records and the configuration only. -/
theorem same_update {s s' : Store} (h : Same s s') (dir : SyncDirectory) (f : SyncFile) :
    (s.updateSyncFile dir f).2 = (s'.updateSyncFile dir f).2 ∧
      Same (s.updateSyncFile dir f).1 (s'.updateSyncFile dir f).1 := by
  by_cases hv : f.versions = []
  · rw [s.records_updateSyncFile_nil dir hv, s'.records_updateSyncFile_nil dir hv]
    exact ⟨rfl, h⟩
  · obtain ⟨htarget, hstored⟩ := h.stored f
    obtain ⟨h1, h2, h3, h4⟩ := s.updateSyncFile_frame dir f
    obtain ⟨h1', h2', h3', h4'⟩ := s'.updateSyncFile_frame dir f
    refine ⟨?_, ?_, by rw [h1, h1', h.2.1], by rw [h2, h2', h.2.2.1], by rw [h3, h3', h.2.2.2.1], by rw [h4, h4', h.2.2.2.2]⟩
    · rw [s.updateSyncFile_returns dir hv, s'.updateSyncFile_returns dir hv, h.storedCount f]
    · rw [s.records_updateSyncFile dir hv, s'.records_updateSyncFile dir hv, htarget, hstored, h.1]

theorem same_dbDo {s s' : Store} (h : Same s s') (o : DbOp) :
    (store s o).2 = (store s' o).2 ∧ Same (store s o).1 (store s' o).1 := by
  have ⟨hrecs, hfolders, hpeers, hshares, hid⟩ := h
  have hdirs : s.getSyncDirectories = s'.getSyncDirectories := by
    rw [Tables.getSyncDirectories, Tables.getSyncDirectories, hfolders]
  cases o with
  | getSyncDirectories => exact ⟨congrArg some hdirs, h⟩
  | getSyncDirectory folderId =>
    refine ⟨congrArg some ?_, h⟩
    rw [Tables.getSyncDirectory, Tables.getSyncDirectory, hdirs]
  | getSyncFiles dirId =>
    rw [show store s (.getSyncFiles dirId) = (s, some (s.index dirId)) from dbDo_getSyncFiles s dirId,
      show store s' (.getSyncFiles dirId) = (s', some (s'.index dirId)) from dbDo_getSyncFiles s' dirId]
    exact ⟨congrArg some (by rw [Store.index, Store.index, hrecs]), h⟩
  | updateSyncFile dir f => exact same_update h dir f
  | isDirectorySynced directory peer =>
    refine ⟨congrArg some ?_, h⟩
    rw [Tables.isDirectorySynced, Tables.isDirectorySynced, hshares]
  | getPeers => exact ⟨congrArg some hpeers, h⟩
  | getShortId => exact ⟨congrArg some hid, h⟩
  | directoryChanged dir => exact ⟨rfl, h⟩

/-- No call changes the configuration. -/
theorem dbDo_frame (s : Store) (o : DbOp) : (store s o).1.folders = s.folders ∧ (store s o).1.peers = s.peers ∧
    (store s o).1.shares = s.shares ∧ (store s o).1.shortId = s.shortId := by
  cases o with
  | updateSyncFile dir f => exact s.updateSyncFile_frame dir f
  | _ => exact ⟨rfl, rfl, rfl, rfl⟩

theorem store_laws : Laws store Same Neutral Overrun where
  equiv :=
    { refl := fun s => ⟨rfl, rfl, rfl, rfl, rfl⟩
      symm := fun h => ⟨h.1.symm, h.2.1.symm, h.2.2.1.symm, h.2.2.2.1.symm, h.2.2.2.2.symm⟩
      trans := fun h h' => ⟨h.1.trans h'.1, h.2.1.trans h'.2.1, h.2.2.1.trans h'.2.2.1, h.2.2.2.1.trans h'.2.2.2.1,
        h.2.2.2.2.trans h'.2.2.2.2⟩ }
  answers o h := (same_dbDo h o).1
  states o h := (same_dbDo h o).2
  neutral_state s o h := by
    cases o with
    | updateSyncFile dir f => exact absurd h id
    | _ => rfl
  neutral_answer s o o' h := by
    obtain ⟨h1, h2, h3, h4⟩ := dbDo_frame s o'
    have hdirs : (store s o').1.getSyncDirectories = s.getSyncDirectories := by
      rw [Tables.getSyncDirectories, Tables.getSyncDirectories, h1]
    cases o with
    | getSyncDirectories => exact congrArg some hdirs
    | getSyncDirectory folderId =>
      show some _ = some _
      rw [Tables.getSyncDirectory, Tables.getSyncDirectory, hdirs]
    | getSyncFiles dirId => exact absurd h id
    | updateSyncFile dir f => exact absurd h id
    | isDirectorySynced directory peer =>
      show some _ = some _
      rw [Tables.isDirectorySynced, Tables.isDirectorySynced, h3]
    | getPeers => exact congrArg some h2
    | getShortId => exact congrArg some h4
    | directoryChanged dir => rfl
  neutral_safe s o h := by
    cases o with
    | updateSyncFile dir f => exact absurd h id
    | _ => exact id
  bad o h hb := by
    cases o with
    | updateSyncFile dir f =>
      show f.versions.length < _
      rw [← h.storedCount f]; exact hb
    | _ => exact hb

/-! ## The tasks -/

/-- The answers of the outside to what a task asks there, one after another; `none` is a
    panic. -/
abbrev Script := Nat → (o : SysOp) → Option o.Ans

/-- A task whose outside answers are settled, from the `n`-th on. -/
def answered {α : Type} (a : Script) : Nat → BepProg α → Prog dbSig α
  | _, .ret x => .ret x
  | _, .panic => .panic
  | n, .ask (.db o) k => .ask o fun r => answered a n (k r)
  | n, .ask (.sys o) k =>
    match a n o with
    | some r => answered a (n + 1) (k r)
    | none => .panic

variable (sha256 : Bytes → Bytes)

/-- `get_file` is called on a file of the index its caller has read, the `k`-th. -/
inductive Job where
  | handleIndex (folder : Text) (files : List FileInfo)
  | generateIndex (dir : SyncDirectory)
  | getFile (dir : SyncDirectory) (k : Nat)
  | getDirectory (dir : SyncDirectory)

def Job.task : Job → BepProg Unit
  | .handleIndex folder files => Sync.handleIndex folder files
  | .generateIndex dir => do let _ ← Sync.generateIndex sha256 dir
  | .getFile dir k => do
    let index ← db (.getSyncFiles dir.id)
    match index[k]? with
    | none => .ret ()
    | some file => do let _ ← Sync.getFile sha256 dir file
  | .getDirectory dir => do let _ ← Sync.getDirectory sha256 dir

/-- The tasks of a pool. -/
def pool {ι : Type} (job : ι → Job) (script : ι → Script) : ι → Prog dbSig Unit :=
  fun i => answered (script i) 0 ((job i).task sha256)

theorem answered_congr {α : Type} {a a' : Script} : ∀ (p : BepProg α) (n : Nat), (∀ k, n ≤ k → a k = a' k) →
    answered a n p = answered a' n p := by
  intro p
  induction p with
  | ret x => intro n _; rfl
  | panic => intro n _; rfl
  | ask o k ih =>
    intro n h
    cases o with
    | db o => exact congrArg (Prog.ask (S := dbSig) o) (funext fun r => ih r n h)
    | sys o =>
      unfold answered
      rw [h n (Nat.le_refl n)]
      cases a' n o with
      | none => rfl
      | some r => exact ih r (n + 1) fun k hk => h k (by omega)

/-- A task run on a node is, on its store, the task with the node's own answers. -/
theorem run_answered {α : Type} : ∀ (p : BepProg α) (n : Node) (m : Nat), ∃ a : Script,
    run store (answered a m p) n.store = ((run nodeDo p n).1.store, (run nodeDo p n).2) := by
  intro p
  induction p with
  | ret x => intro n m; exact ⟨fun _ _ => none, rfl⟩
  | panic => intro n m; exact ⟨fun _ _ => none, rfl⟩
  | ask o k ih =>
    intro n m
    cases o with
    | db o =>
      have hdo : nodeDo n (.db o) = ({ n with store := (dbDo n.store o).1 }, (dbDo n.store o).2) := rfl
      rcases hd : dbDo n.store o with ⟨s', _ | r⟩
      · rw [hd] at hdo
        refine ⟨fun _ _ => none, ?_⟩
        rw [run_ask_none hdo]
        exact run_ask_none (M := store) hd
      · rw [hd] at hdo
        obtain ⟨a, ha⟩ := ih r { n with store := s' } m
        refine ⟨a, ?_⟩
        rw [run_ask_some hdo, ← ha]
        exact run_ask_some (M := store) hd
    | sys o =>
      have hstore := n.store_sysDo o
      rcases hd : n.sysDo o with ⟨n', _ | r⟩
      · rw [hd] at hstore
        refine ⟨fun _ _ => none, ?_⟩
        rw [run_ask_none (show nodeDo n (.sys o) = (n', none) from hd), ← show n'.store = n.store from hstore]
        rfl
      · rw [hd] at hstore
        obtain ⟨a, ha⟩ := ih r n' (m + 1)
        classical
        -- The node's answer first, then those of the rest.
        let a' : Script := fun j o' => if j = m then (if h : o' = o then some (h ▸ r) else none) else a j o'
        refine ⟨a', ?_⟩
        have hfirst : a' m o = some r := by simp [a']
        have hrest : answered a' (m + 1) (k r) = answered a (m + 1) (k r) := by
          refine answered_congr _ _ fun j hj => funext fun o' => ?_
          simp [a', show j ≠ m by omega]
        have hans : answered a' m (.ask (.sys o) k) = answered a (m + 1) (k r) := by
          rw [answered, hfirst, ← hrest]
        rw [hans, run_ask_some (show nodeDo n (.sys o) = (n', some r) from hd), ← show n'.store = n.store from hstore]
        exact ha

/-! ## A task alone -/

/-- What an operation does to the store, whatever the outside answers. -/
inductive StoreDoes (s : Store) : (o : Op) → Store → o.Ans → Prop
  | db {o : DbOp} {s' : Store} {r : o.Ans} : dbDo s o = (s', some r) → StoreDoes s (.db o) s' r
  | sys (o : SysOp) (r : o.Ans) : StoreDoes s (.sys o) s r

def Within (s : Store) : Op → Prop
  | .db o => ¬ Overrun s o
  | .sys _ => True

/-- The task never overruns, and returns in a store that satisfies `Q`. -/
abbrev Fits {α : Type} (Q : α → Store → Prop) (p : BepProg α) (s : Store) : Prop := Wp (S := bep) StoreDoes Within Q p s

theorem safe_answered (a : Script) : ∀ (p : BepProg Unit) (n : Nat) (s : Store), Fits (fun _ _ => True) p s →
    Safe store Overrun (answered a n p) s := by
  intro p
  induction p with
  | ret x => intro n s _; trivial
  | panic => intro n s _; trivial
  | ask o k ih =>
    intro n s h
    cases o with
    | db o =>
      refine ⟨h.1, fun r hr => ih r n _ (h.2 _ r (.db ?_))⟩
      exact Prod.ext rfl hr
    | sys o =>
      unfold answered
      cases a n o with
      | none => trivial
      | some r => exact ih r (n + 1) s (h.2 s r (.sys o r))

section Rules

variable {α β : Type} {Q : α → Store → Prop} {s : Store}

theorem fits_db {o : DbOp} {f : o.Ans → BepProg α} (ho : ¬ Overrun s o)
    (h : ∀ s' r, dbDo s o = (s', some r) → Fits Q (f r) s') : Fits Q (db o >>= f) s := by
  refine ⟨ho, fun s' r hd => ?_⟩
  cases hd with
  | db hd => exact h s' r hd

theorem fits_sys {o : SysOp} {f : o.Ans → BepProg α} (h : ∀ r, Fits Q (f r) s) : Fits Q (sys o >>= f) s := by
  refine ⟨trivial, fun s' r hd => ?_⟩
  cases hd with
  | sys => exact h r

/-- A file whose row has at most as many versions is recorded. -/
theorem fits_update {dir : SyncDirectory} {g : SyncFile} {f : Unit → BepProg α} (hle : s.storedCount g ≤ g.versions.length)
    (h : (s.updateSyncFile dir g).2 = some () → Fits Q (f ()) (s.updateSyncFile dir g).1) :
    Fits Q (db (.updateSyncFile dir g) >>= f) s := by
  refine fits_db (Nat.not_lt.mpr hle) fun s' r hd => ?_
  have hd : s.updateSyncFile dir g = (s', some r) := hd
  rw [hd] at h
  exact h rfl

theorem fits_drop {p : BepProg β} (h : Fits (fun _ _ => True) p s) : Fits (fun _ _ => True) (do let _ ← p : BepProg Unit) s := by
  refine wp_bind (P := fun _ _ => True) (fun _ _ _ => ?_) h
  trivial

end Rules

theorem storedCount_of_returns {s : Store} {dir : SyncDirectory} {f : SyncFile} (hv : f.versions ≠ [])
    (h : (s.updateSyncFile dir f).2 = some ()) : s.storedCount f ≤ f.versions.length := by
  rw [s.updateSyncFile_returns dir hv] at h
  by_contra hlt
  rw [if_pos (by omega)] at h
  cases h

theorem storedCount_new {s : Store} {f : SyncFile} (h : f.id = none) : s.storedCount f = 0 := by
  rw [Store.storedCount, s.stored_new h]; rfl

theorem fits_handleFiles (dir : SyncDirectory) : ∀ (files : List FileInfo) (l : List SyncFile) (ch : Bool) (s : Store),
    Merging.Aligned dir ⟨s, l, ch⟩ → Fits (fun _ _ => True) (handleFiles dir files l ch) s := by
  intro files
  induction files with
  | nil => intro l ch s _; trivial
  | cons file files ih =>
    intro l ch s hm
    rw [handleFiles_cons]
    refine wp_bind (P := fun w s' => s' = s ∧ incoming l file = some w) (fun w s' hw => ?_) (wp_unwrap fun w hw => ⟨rfl, hw⟩)
    obtain ⟨hs', hin⟩ := hw
    subst hs'
    cases w with
    | none => exact ih l ch s' hm
    | some f =>
      have hle : s'.storedCount f ≤ f.versions.length := by
        obtain ⟨first, cs, -, -, hvs, -, -, -, hcase⟩ := incoming_cases hin
        rcases hcase with ⟨x, hx, hlen, -⟩ | ⟨-, hid, -⟩
        · obtain ⟨r, -, -, -, heq, -⟩ := mergeFile_found hm hin hx
          have hret : (s'.updateSyncFile dir f).2 = some () := by
            cases hu : (s'.updateSyncFile dir f).2 with
            | none => simp only [mergeFile, hin, hu, Prod.mk.injEq] at heq; cases heq.2
            | some u => rfl
          refine storedCount_of_returns ?_ hret
          rw [hvs, ← List.length_pos_iff, List.length_map]; omega
        · rw [storedCount_new hid]; exact Nat.zero_le _
      refine fits_update hle fun hret => ih _ true _ ?_
      have hmerge : mergeFile dir file ⟨s', l, ch⟩ =
          (⟨(s'.updateSyncFile dir f).1, setFirst (fun x => x.getName = file.name) f l, true⟩, some ()) := by
        simp only [mergeFile, hin, hret]
      exact local_stored hm hmerge

theorem fits_handleIndex (folder : Text) (files : List FileInfo) (s : Store) :
    Fits (fun _ _ => True) (handleIndex folder files) s := by
  refine fits_db id fun s' d hd => ?_
  cases hd
  refine wp_bind (P := fun _ s' => s' = s) (fun dir s' hs' => ?_) (wp_unwrap fun _ _ => rfl)
  subst hs'
  refine fits_db id fun s'' l hl => ?_
  rw [dbDo_getSyncFiles] at hl
  cases hl
  refine wp_bind (fun changed s' _ => ?_) (fits_handleFiles dir files _ false s' (aligned_start s' dir))
  split
  · exact fits_sys (f := Prog.ret) fun _ => trivial
  · trivial

theorem fits_genBlocks (filePath : Text) (dir : SyncDirectory) (s : Store) :
    Fits (fun _ s' => s' = s) (genBlocks sha256 filePath dir) s := by
  unfold genBlocks
  cases dir.path with
  | none => rfl
  | some path =>
    refine fits_sys fun data => ?_
    cases data with
    | none => rfl
    | some data =>
      refine wp_bind (P := fun _ s' => s' = s) (fun blocks s' hs' => ?_) (wp_unwrap fun _ _ => rfl)
      exact hs'

/-- The blocks of a file, and then what is done with them, in the same store. -/
theorem fits_blocks {α : Type} {Q : α → Store → Prop} {s : Store} (filePath : Text) (dir : SyncDirectory)
    {f : List SyncBlock → BepProg α} (h : ∀ blocks, Fits Q (f blocks) s) :
    Fits Q (do f (← unwrapOk (← genBlocks sha256 filePath dir))) s := by
  refine wp_bind (fun x s' hs' => ?_) (fits_genBlocks sha256 filePath dir s)
  subst hs'
  cases x with
  | error e => trivial
  | ok blocks => exact h blocks

theorem fits_generateEntries (dir : SyncDirectory) (path : Text) (shortId : UInt64) :
    ∀ (files : List Text) (l out : List SyncFile) (ch : Bool) (s : Store), Scanning.Aligned dir ⟨s, l, out, ch⟩ →
      Fits (fun _ _ => True) (generateEntries sha256 dir path shortId files l out ch) s := by
  intro files
  induction files with
  | nil => intro l out ch s _; trivial
  | cons file files ih =>
    intro l out ch s hm
    have hskip : ∀ out', Fits (fun _ _ => True) (generateEntries sha256 dir path shortId files l out' ch) s :=
      fun out' => ih l out' ch s ⟨hm.ids, hm.copies⟩
    unfold generateEntries
    refine fits_sys fun data => wp_bind (P := fun _ s' => s' = s) (fun data s' hs' => ?_) (wp_unwrap fun _ _ => rfl)
    subst hs'
    cases hx : l.find? fun x => PathEq x.path file with
    | none =>
      refine fits_blocks sha256 file dir fun blocks => ?_
      refine fits_update ?_ fun _ => ih l _ true _ (hm.new rfl _ _)
      rw [storedCount_new rfl]; exact Nat.zero_le _
    | some x =>
      refine wp_bind (P := fun _ s'' => s'' = s') (fun last s'' hs'' => ?_) (wp_unwrap fun _ _ => rfl)
      subst hs''
      split
      · exact hskip _
      split
      · refine wp_bind (P := fun _ s' => s' = s'') (fun v s' hs' => ?_) (wp_unwrap fun _ _ => rfl)
        subst hs'
        refine fits_blocks sha256 (push path file) dir fun blocks => ?_
        obtain ⟨hret, hnext⟩ := hm.next (v := (shortId, v)) hx
          (f := { x with syncedVersion := v, versions := x.versions ++ [(shortId, v)], hash := sha256 data, blocks := blocks })
          rfl rfl rfl
        refine fits_update (storedCount_of_returns (by simp) hret) fun _ => ih _ _ true _ (hnext _ _)
      · exact hskip _

theorem fits_generateIndex (dir : SyncDirectory) (s : Store) : Fits (fun _ _ => True) (generateIndex sha256 dir) s := by
  refine fits_db id fun s' shortId hd => ?_
  cases hd
  refine fits_db id fun s' l hl => ?_
  rw [dbDo_getSyncFiles] at hl
  cases hl
  refine wp_bind (P := fun _ s' => s' = s) (fun path s' hs' => ?_) (wp_unwrap fun _ _ => rfl)
  subst hs'
  refine fits_sys fun entries => wp_bind (P := fun _ s => s = s') (fun entries s hs => ?_) (wp_unwrap fun _ _ => rfl)
  subst hs
  refine wp_bind (fun out s' _ => ?_)
    (fits_generateEntries sha256 dir path s.shortId entries (s.index dir.id) [] false s (scan_start s dir))
  split
  · exact fits_db id fun _ _ _ => trivial
  · trivial

/-- Recording one current file leaves the others current. -/
theorem current_beside {s : Store} {f g : SyncFile} (hf : Current s f) (hg : Current s g) (dir : SyncDirectory) :
    Current (s.updateSyncFile dir (stamp f)).1 g := by
  obtain ⟨r, hr, hid, hvs⟩ := hf
  obtain ⟨r', hr', hid', hvs'⟩ := hg
  obtain ⟨htarget, hstored⟩ := s.stored_of_mem hr (f := stamp f) hid
  by_cases he : r'.id = s.target (stamp f)
  · have hrr : r' = r := List.inj_on_of_nodup_map s.records_nodup hr' hr (he.trans htarget)
    subst hrr
    have hv : (stamp f).versions ≠ [] := by show f.versions ≠ []; rw [← hvs]; exact s.versions_ne_nil hr
    refine ⟨_, (s.mem_updateSyncFile_target dir hv rfl).mpr rfl, by rw [hid', ← htarget]; rfl, ?_⟩
    simp only [Rec.write, hstored, Option.map_some, Option.getD_some]
    rw [← hvs']
    refine Chain.extend_of_length_le ?_
    rw [hvs]; exact Nat.le_refl _
  · exact ⟨r', (s.mem_updateSyncFile_of_ne dir he).mpr hr', hid', hvs'⟩

/-- The files a caller holds are current. -/
def AllCurrent (files : List SyncFile) (s : Store) : Prop := ∀ g ∈ files, Current s g

theorem allCurrent_index (s : Store) (dirId : Text) : AllCurrent (s.index dirId) s := by
  intro g hg
  obtain ⟨r, hr, hrg⟩ := List.mem_map.mp hg
  subst hrg
  exact current_file (List.mem_filter.mp hr).1

theorem fits_getBlocksFrom (dir : SyncDirectory) {files : List SyncFile} {f : SyncFile} (hf : f ∈ files) (messageId : Int) :
    ∀ (blocks : List SyncBlock) (i : Nat) (s : Store), AllCurrent files s →
      Fits (fun _ s' => AllCurrent files s') (getBlocksFrom sha256 dir f messageId i blocks) s := by
  intro blocks
  induction blocks with
  | nil => intro i s h; exact h
  | cons block rest ih =>
    intro i s h
    unfold getBlocksFrom
    refine fits_sys fun message => ?_
    split
    · exact h
    · split
      · split
        · exact h
        · split
          · exact h
          · refine fits_sys fun _ => fits_update ?_ fun _ => ih (i + 1) _ fun g hg => current_beside (h f hf) (h g hg) dir
            refine storedCount_of_returns ?_ (current_stamp (h f hf) dir).1
            obtain ⟨r, hr, -, hvs⟩ := h f hf
            show f.versions ≠ []
            rw [← hvs]; exact s.versions_ne_nil hr
      · exact h
      · exact h
      · exact h
      · exact h
    · exact h
    · exact h
    · exact h

theorem fits_getFile (dir : SyncDirectory) {files : List SyncFile} {f : SyncFile} (hf : f ∈ files) {s : Store}
    (h : AllCurrent files s) : Fits (fun _ s' => AllCurrent files s') (getFile sha256 dir f) s := by
  unfold getFile
  refine fits_sys fun messageId => ?_
  split
  · exact h
  · exact fits_getBlocksFrom sha256 dir hf messageId _ _ s h

theorem fits_getFiles (dir : SyncDirectory) {all : List SyncFile} : ∀ (files : List SyncFile) (s : Store),
    (∀ f ∈ files, f ∈ all) → AllCurrent all s → Fits (fun _ _ => True) (getFiles sha256 dir files) s := by
  intro files
  induction files with
  | nil => intro s _ _; trivial
  | cons f files ih =>
    intro s hsub h
    have hrest : ∀ g ∈ files, g ∈ all := fun g hg => hsub g (List.mem_cons_of_mem _ hg)
    unfold getFiles
    split
    · trivial
    · refine fits_sys fun present => ?_
      split
      · refine wp_bind (fun x s' hs' => ?_) (fits_getFile sha256 dir (hsub f List.mem_cons_self) h)
        cases x with
        | error e => trivial
        | ok u => exact ih s' hrest hs'
      · exact ih s hrest h

theorem fits_getDirectory (dir : SyncDirectory) (s : Store) : Fits (fun _ _ => True) (getDirectory sha256 dir) s := by
  refine fits_db id fun s' l hl => ?_
  rw [dbDo_getSyncFiles] at hl
  cases hl
  refine wp_bind (fun x s' _ => ?_) (fits_getFiles sha256 dir _ s (fun _ hf => hf) (allCurrent_index s dir.id))
  cases x with
  | error e => trivial
  | ok u => exact fits_db id fun _ _ _ => trivial

/-- No task overruns when it runs alone. -/
theorem fits_job (j : Job) (s : Store) : Fits (fun _ _ => True) (j.task sha256) s := by
  cases j with
  | handleIndex folder files => exact fits_handleIndex folder files s
  | generateIndex dir => exact fits_drop (fits_generateIndex sha256 dir s)
  | getDirectory dir => exact fits_drop (fits_getDirectory sha256 dir s)
  | getFile dir k =>
    refine fits_db id fun s' l hl => ?_
    rw [dbDo_getSyncFiles] at hl
    cases hl
    cases hf : (s.index dir.id)[k]? with
    | none => trivial
    | some f =>
      refine wp_bind (fun _ _ _ => ?_) (fits_getFile sha256 dir (List.mem_of_getElem? hf) (allCurrent_index s dir.id))
      trivial

/-! ## Every interleaving -/

/-- In every interleaving whose steps meet the rule: no call of `update_sync_file` finds more
    versions stored than the file has, and when every task has ended the records are those
    of running the tasks one after another in some order. -/
theorem updates_serialise {ι : Type} [Fintype ι] [DecidableEq ι] (job : ι → Job) (script : ι → Script) (s : Store)
    {c : Pool dbSig Store ι} (h : Path store Same Neutral (InTurn Neutral) (.start (pool sha256 job script) s) c) :
    (∀ i, InTurn Neutral c i → ∀ o k, c.now i = .ask o k → ¬ Overrun c.shared o) ∧
    ((∀ i, ended (c.now i) = true) → ∃ σ : List ι, σ.Nodup ∧ (∀ i, i ∈ σ) ∧
      c.shared.records = (serial store (pool sha256 job script) σ s).records) := by
  have hsafe : ∀ i s, Safe store Overrun (pool sha256 job script i) s :=
    fun i s => safe_answered (script i) _ 0 s (fits_job sha256 (job i) s)
  refine ⟨fun i hi => path_safe store_laws hsafe h hi, fun hend => ?_⟩
  obtain ⟨σ, hnd, hall, hsame⟩ := path_serial store_laws hsafe h hend
  exact ⟨σ, hnd, hall, hsame.1⟩

/-! ## Two messages for one file -/

/-- The outside of a `handle_index`: it takes the download it starts. -/
def quietScript : Script
  | _, .spawnGetDirectory _ => some ()
  | _, _ => none

/-- One message has the file's second version, the other its third. -/
def twoMessages : Bool → Job
  | false => .handleIndex ['d'] [fileInfo2]
  | true => .handleIndex ['d'] [fileInfo3]

def twoPool : Bool → Prog dbSig Unit := pool fileSha twoMessages fun _ => quietScript

def twoAfter (schedule : List Bool) : Pool dbSig Store Bool :=
  schedule.foldl (Pool.step store Same Neutral) (.start twoPool fileIndexed.store)

/-- One after the other: both messages are looked up, the second version is merged, then the
    third. -/
theorem updates_serialise_messages : ∃ c, Path store Same Neutral (InTurn Neutral) (.start twoPool fileIndexed.store) c ∧
    (∀ i, ended (c.now i) = true) ∧ c.shared.records.map Rec.versions = [[(7, 0), (9, 1), (9, 2)]] ∧
    ∃ σ : List Bool, σ.Nodup ∧ (∀ i, i ∈ σ) ∧ c.shared.records = (serial store twoPool σ fileIndexed.store).records := by
  have h0 : Path store Same Neutral (InTurn Neutral) (.start twoPool fileIndexed.store) (twoAfter []) := .init
  have h1 : Path store Same Neutral (InTurn Neutral) (.start twoPool fileIndexed.store) (twoAfter [false]) :=
    .step (i := false) h0 (Or.inr (Or.inr ⟨rfl, Or.inl ⟨.getSyncDirectory ['d'], _, rfl, trivial⟩⟩))
  have h2 : Path store Same Neutral (InTurn Neutral) (.start twoPool fileIndexed.store) (twoAfter [false, true]) :=
    .step (i := true) h1 (Or.inr (Or.inr ⟨rfl, Or.inl ⟨.getSyncDirectory ['d'], _, rfl, trivial⟩⟩))
  have h3 : Path store Same Neutral (InTurn Neutral) (.start twoPool fileIndexed.store) (twoAfter [false, true, false]) :=
    .step (i := false) h2 (Or.inr (Or.inr ⟨rfl, Or.inr fun j hj => by cases j <;> cases hj⟩))
  have h4 : Path store Same Neutral (InTurn Neutral) (.start twoPool fileIndexed.store) (twoAfter [false, true, false, false]) :=
    .step (i := false) h3 (Or.inr (Or.inl ⟨false, by decide +kernel⟩))
  have h5 : Path store Same Neutral (InTurn Neutral) (.start twoPool fileIndexed.store)
      (twoAfter [false, true, false, false, true]) := by
    refine .step (i := true) h4 (Or.inr (Or.inr ⟨by decide +kernel, Or.inr fun j hj => inert_of_ended ?_⟩))
    revert j
    decide +kernel
  have h6 : Path store Same Neutral (InTurn Neutral) (.start twoPool fileIndexed.store)
      (twoAfter [false, true, false, false, true, true]) := .step (i := true) h5 (Or.inr (Or.inl ⟨false, by decide +kernel⟩))
  have hend : ∀ i, ended ((twoAfter [false, true, false, false, true, true]).now i) = true := by decide +kernel
  exact ⟨_, h6, hend, by decide +kernel,
    (updates_serialise fileSha twoMessages (fun _ => quietScript) fileIndexed.store h6).2 hend⟩

/-- A task's next call overruns. -/
def overruns (c : Pool dbSig Store Bool) (i : Bool) : Bool :=
  match c.now i with
  | .ask o _ => decide (Overrun c.shared o)
  | _ => false

theorem overrun_of {c : Pool dbSig Store Bool} {i : Bool} (h : overruns c i = true) :
    ∃ o k, c.now i = .ask o k ∧ Overrun c.shared o := by
  unfold overruns at h
  split at h
  · exact ⟨_, _, ‹_›, of_decide_eq_true h⟩
  · cases h

/-- Both read the index, the third version is merged, then the second: the assertion fails
    after the row was written, and the third version's history and blocks are left with the
    second one's hash, which no order of the two leaves. -/
theorem updates_collide :
    (∃ c, Path store Same Neutral (fun _ _ => True) (.start twoPool fileIndexed.store) c ∧
      ∃ i o k, c.now i = .ask o k ∧ Overrun c.shared o) ∧
    ∃ c, Path store Same Neutral (fun _ _ => True) (.start twoPool fileIndexed.store) c ∧
      (∀ i, ended (c.now i) = true) ∧
      c.shared.records.map (fun r => (r.versions, r.hash)) = [([(7, 0), (9, 1), (9, 2)], fileHash2)] ∧
      ∀ σ : List Bool, σ.Nodup → (∀ i, i ∈ σ) → c.shared.records ≠ (serial store twoPool σ fileIndexed.store).records := by
  refine ⟨⟨_, path_schedule [false, true, false, true, true] .init, false, overrun_of (by decide +kernel)⟩,
    _, path_schedule [false, true, false, true, true, false] .init, by decide +kernel, by decide +kernel, ?_⟩
  intro σ hnd hall
  have hσ : σ = [false, true] ∨ σ = [true, false] := by
    match σ with
    | [] => exact absurd (hall true) (by simp)
    | [a] => exact absurd (hall !a) (by simp)
    | [a, b] => cases a <;> cases b <;> simp at hnd ⊢
    | a :: b :: d :: rest => cases a <;> cases b <;> cases d <;> simp at hnd
  rcases hσ with hσ | hσ
  · subst hσ; decide +kernel
  · subst hσ; decide +kernel

end BepRs.History
