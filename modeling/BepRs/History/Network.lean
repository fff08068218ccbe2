/-
  BepRs.History.Network — the version histories of a network of nodes.

  Any number of nodes run the tasks of `BepRs.Sync`, interleaved call by call. Only the
  stores and the posted Index messages are state: the disks, the answers of the peers and
  the clients are the outside world, so an operation on them answers anything or panics
  (`Does`), and a node's folders, peers and shares may change at any time (`Outside`). A
  task that merges an index starts on a message some node posted (`Starts`); a message
  may be merged any number of times, by any node, or never.

  A history is `Counted`: its `i`-th version has counter `i`. Every record a task writes
  is `Good`: counted, not empty, its synced version at most its last. The tasks keep that
  contract as long as what they read keeps it (`keeps_rules`, `ok_sendIndex`), and an
  `update_sync_file` of a good file keeps every record good, also when it stops at its
  assertion (`good_updateSyncFile`), and the history it had (`grows_updateSyncFile`).

  - `version_history`: what holds of every record in every reachable state.
  - `node_run_reach`: a task run on a node (`nodeDo`) is a path of the network.
-/

import BepRs.Sync.Contract
import Mathlib.Logic.Function.Basic

namespace BepRs.History

open BepRs.Lib BepRs.Lib.Path BepRs.Lib.Task BepRs.State BepRs.Sync

/-! ## Histories -/

def Counted (vs : List Version) : Prop := ∀ (i : Nat) (v : Version), vs[i]? = some v → v.2.toNat = i

/-- The counter of the last version, as `get_index_version` gives it. -/
def latest (vs : List Version) : UInt64 :=
  match vs.getLast? with
  | some v => v.2
  | none => 1

theorem getIndexVersion_eq (f : SyncFile) : f.getIndexVersion = latest f.versions := rfl

theorem latest_of_counted {vs : List Version} (h : Counted vs) (hne : vs ≠ []) :
    (latest vs).toNat = vs.length - 1 := by
  have hlast := List.getLast?_eq_getElem? (l := vs)
  have hlt : vs.length - 1 < vs.length := by have := List.length_pos_iff.mpr hne; omega
  rw [List.getElem?_eq_getElem hlt] at hlast
  rw [latest, hlast]
  exact h _ _ (List.getElem?_eq_getElem hlt)

/-- On counted histories the length and the last counter order alike. -/
theorem length_lt_iff_latest {a b : List Version} (ha : Counted a) (ha' : a ≠ []) (hb : Counted b) (hb' : b ≠ []) :
    a.length < b.length ↔ latest a < latest b := by
  rw [UInt64.lt_iff_toNat_lt, latest_of_counted ha ha', latest_of_counted hb hb']
  have := List.length_pos_iff.mpr ha'
  have := List.length_pos_iff.mpr hb'
  omega

theorem counted_extend {a b : List Version} (ha : Counted a) (hb : Counted b) : Counted (Chain.extend a b) := by
  intro i v hi
  rw [Chain.getElem?_extend] at hi
  split at hi
  · exact ha i v hi
  · exact hb i v hi

theorem counted_concat {vs : List Version} {v : Version} (h : Counted vs) (hv : v.2.toNat = vs.length) :
    Counted (vs ++ [v]) := by
  intro i w hi
  rw [List.getElem?_append] at hi
  split at hi
  · exact h i w hi
  · rename_i hlt
    rw [List.getElem?_singleton] at hi
    split at hi
    · cases hi; omega
    · cases hi

structure Good (f : SyncFile) : Prop where
  counted : Counted f.versions
  ne_nil : f.versions ≠ []
  synced_le : f.syncedVersion ≤ f.getIndexVersion

theorem Good.index_version {f : SyncFile} (h : Good f) : f.getIndexVersion.toNat = f.versions.length - 1 :=
  latest_of_counted h.counted h.ne_nil

/-- A file with a longer counted history whose synced version is the same is good too. -/
theorem Good.longer {f g : SyncFile} (h : Good f) (hg : Counted g.versions) (hlen : f.versions.length ≤ g.versions.length)
    (hs : g.syncedVersion = f.syncedVersion) : Good g := by
  have hpos := List.length_pos_iff.mpr h.ne_nil
  have hne : g.versions ≠ [] := List.length_pos_iff.mp (by omega)
  refine ⟨hg, hne, ?_⟩
  have hle := UInt64.le_iff_toNat_le.mp h.synced_le
  rw [h.index_version] at hle
  rw [hs, UInt64.le_iff_toNat_le, getIndexVersion_eq, latest_of_counted hg hne]
  omega

/-! ## One call of `update_sync_file` -/

theorem good_write {old : Option Rec} (hold : ∀ r, old = some r → Good r.file) (id : Nat) (dir : SyncDirectory)
    {f : SyncFile} (hf : Good f) : Good (Rec.write old id dir f).file := by
  have hstored : Counted ((old.map Rec.versions).getD []) := by
    cases old with
    | none => intro i v hi; cases hi
    | some r => exact (hold r rfl).counted
  refine hf.longer (counted_extend hstored hf.counted) ?_ rfl
  show _ ≤ (Chain.extend _ f.versions).length
  rw [Chain.length_extend]
  omega

/-- Every record stays good, whether the call returns or panics. -/
theorem good_updateSyncFile {s : Store} (hs : ∀ r ∈ s.records, Good r.file) (dir : SyncDirectory) {f : SyncFile}
    (hf : Good f) : ∀ r ∈ (s.updateSyncFile dir f).1.records, Good r.file := by
  intro r hr
  rw [s.records_updateSyncFile dir hf.ne_nil] at hr
  rcases (Keyed.mem_upsert _ s.records_nodup).mp hr with rfl | ⟨hr, -⟩
  · exact good_write (fun r' h => hs r' (Keyed.row_some _ h).1) _ dir hf
  · exact hs r hr

/-- Every record of the first store is in the second, with a history that extends it. -/
def Grows (s s' : Store) : Prop := ∀ r ∈ s.records, ∃ r' ∈ s'.records, r'.id = r.id ∧ r.versions <+: r'.versions

theorem Grows.refl (s : Store) : Grows s s := fun r hr => ⟨r, hr, rfl, List.prefix_rfl⟩

theorem Grows.trans {a b c : Store} (hab : Grows a b) (hbc : Grows b c) : Grows a c := by
  intro r hr
  obtain ⟨r', hr', hid, hp⟩ := hab r hr
  obtain ⟨r'', hr'', hid', hp'⟩ := hbc r' hr'
  exact ⟨r'', hr'', hid'.trans hid, hp.trans hp'⟩

theorem grows_updateSyncFile (s : Store) (dir : SyncDirectory) (f : SyncFile) : Grows s (s.updateSyncFile dir f).1 := by
  intro r hr
  by_cases hv : f.versions = []
  · rw [s.records_updateSyncFile_nil dir hv]; exact ⟨r, hr, rfl, List.prefix_rfl⟩
  · rw [s.records_updateSyncFile dir hv]
    by_cases hid : r.id = s.target f
    · refine ⟨_, (Keyed.mem_upsert _ s.records_nodup).mpr (Or.inl rfl), hid.symm, ?_⟩
      have hrow : s.stored f = some r := by rw [Store.stored, ← hid]; exact Keyed.row_of_mem _ s.records_nodup hr
      simp only [Rec.write, hrow, Option.map_some, Option.getD_some]
      exact Chain.prefix_extend _ _
    · exact ⟨r, (Keyed.mem_upsert _ s.records_nodup).mpr (Or.inr ⟨hr, hid⟩), rfl, List.prefix_rfl⟩

theorem grows_dbDo (s : Store) (o : DbOp) : Grows s (dbDo s o).1 := by
  cases o with
  | updateSyncFile dir f => exact grows_updateSyncFile s dir f
  | _ => exact Grows.refl s

/-! ## What the tasks ask for -/

/-- An announced file has a version vector, and it is a counted history. -/
def GoodInfo (info : FileInfo) : Prop :=
  ∃ cs, info.version = some cs ∧ cs ≠ [] ∧ Counted (cs.map Counter.version)

def Asks : Op → Prop
  | .db (.updateSyncFile _ f) => Good f
  | .sys (.submitMessage (.index m)) => ∀ info ∈ m.files, GoodInfo info
  | _ => True

def Gets : (o : Op) → o.Ans → Prop
  | .db (.getSyncFiles _), fs => ∀ f ∈ (show List SyncFile from fs), Good f
  | _, _ => True

abbrev Keeps {α : Type} (Q : α → Prop) (p : BepProg α) : Prop := Ok (S := bep) Asks Gets Q p

theorem keeps_any {α β : Type} {P : α → Prop} {Q : β → Prop} {p : BepProg α} {f : α → BepProg β} (hp : Keeps P p)
    (hf : ∀ a, Keeps Q (f a)) : Keeps Q (p >>= f) := ok_bind (fun a _ => hf a) hp

/-- The version `generate_index` appends is the next one. -/
theorem good_next {f : SyncFile} (h : Good f) {last : Version} (hlast : f.versions.getLast? = some last) {v : UInt64}
    (hv : checkedSucc last.2 = some v) (shortId : UInt64) (hash : Bytes) (blocks : List SyncBlock) :
    Good { f with syncedVersion := v, versions := f.versions ++ [(shortId, v)], hash := hash, blocks := blocks } := by
  have hpos := List.length_pos_iff.mpr h.ne_nil
  have hl : last.2.toNat = f.versions.length - 1 := by
    have := h.index_version
    rwa [getIndexVersion_eq, latest, hlast] at this
  have hvn : v.toNat = f.versions.length := by
    have := toNat_checkedSucc hv
    omega
  refine ⟨counted_concat h.counted hvn, by simp, ?_⟩
  simp [getIndexVersion_eq, latest]

/-- Counted histories are handed on. -/
theorem keeps_rules : Rules Asks Gets Good (fun _ => True) GoodInfo where
  quiet o ho := by
    cases o with
    | db o => cases o <;> trivial
    | sys o => cases o <;> trivial
  read _ _ h := h
  listed _ _ _ _ _ := trivial
  record _ _ h := h
  scanned _ _ _ _ _ :=
    ⟨@counted_concat [] _ (fun _ _ hi => (by cases hi)) rfl, by simp, by simp [getIndexVersion_eq, latest]⟩
  rescanned _ _ _ shortId hash blocks hf hlast hv := good_next hf hlast hv shortId hash blocks
  received l info f hl hinfo hin := by
    obtain ⟨cs, hcs, hne, hcounted⟩ := hinfo
    obtain ⟨first, cs', -, hcs', hvs, -, -, -, hcase⟩ := incoming_cases hin
    cases hcs.symm.trans hcs'
    rcases hcase with ⟨x, hx, hlen, -, -, hsynced⟩ | ⟨-, -, -, hsynced⟩
    · refine (hl x (List.mem_of_find?_eq_some hx)).longer (hvs ▸ hcounted) ?_ hsynced
      rw [hvs, List.length_map]
      omega
    · refine ⟨hvs ▸ hcounted, by simpa [hvs] using hne, ?_⟩
      rw [hsynced]
      exact UInt64.le_iff_toNat_le.mpr (Nat.zero_le _)
  fetched f h := ⟨h.counted, h.ne_nil, UInt64.le_iff_toNat_le.mpr (Nat.le_refl _)⟩

variable (sha256 : Bytes → Bytes)

theorem ok_fileInfos (dir : SyncDirectory) : ∀ files : List SyncFile, (∀ f ∈ files, Good f) →
    Keeps (fun r => ∀ infos, r = .ok infos → ∀ info ∈ infos, GoodInfo info) (fileInfos sha256 dir files) := by
  intro files
  induction files with
  | nil => rintro _ infos ⟨⟩ info hi; cases hi
  | cons x xs ih =>
    intro hx
    have hg := hx x List.mem_cons_self
    refine ok_bind (fun _ _ => ok_bind (fun r _ => ?_) (keeps_rules.ok_genBlocks sha256 _ _)) (ok_unwrap fun _ h => h)
    cases r with
    | error e => rintro infos ⟨⟩
    | ok blocks =>
      refine ok_bind (fun r hr => ?_) (ih fun f hf => hx f (List.mem_cons_of_mem _ hf))
      cases r with
      | error e => rintro infos ⟨⟩
      | ok rest =>
        rintro infos ⟨⟩ info hi
        rcases List.mem_cons.mp hi with rfl | hi
        · refine ⟨_, rfl, by simpa using hg.ne_nil, ?_⟩
          have hid : (x.versions.map fun v => (⟨v.1, v.2⟩ : Counter)).map Counter.version = x.versions := by
            rw [List.map_map]; exact List.map_id _
          rw [hid]; exact hg.counted
        · exact hr _ rfl info hi

theorem ok_sendFolders (peer : Peer) : ∀ dirs : List SyncDirectory,
    Keeps (fun _ => True) (sendFolders sha256 peer dirs) := by
  intro dirs
  induction dirs with
  | nil => trivial
  | cons dir dirs ih =>
    refine keeps_rules.ask trivial fun synced _ => ?_
    split
    · refine keeps_rules.ask trivial fun index hindex => ok_bind (fun r hr => ?_) (ok_fileInfos sha256 dir index hindex)
      cases r with
      | error e => trivial
      | ok files => exact ⟨hr files rfl, fun _ _ => ih⟩
    · exact ih

theorem ok_sendIndex (conn : Conn) : Keeps (fun _ => True) (sendIndex sha256 conn) := by
  refine keeps_any (keeps_rules.ok_getPeer conn) fun r => ?_
  cases r with
  | error e => trivial
  | ok peer => exact keeps_rules.ask trivial fun dirs _ => ok_sendFolders sha256 peer dirs

/-! ## The network -/

structure Net (ι : Type) where
  stores : ι → Store
  /-- The Index messages that were posted. -/
  sent : List Index

variable {ι : Type}

inductive Does [DecidableEq ι] (i : ι) (w : Net ι) : (o : Op) → Net ι → Option o.Ans → Prop
  | db (o : DbOp) :
      Does i w (.db o) { w with stores := Function.update w.stores i (dbDo (w.stores i) o).1 } (dbDo (w.stores i) o).2
  | post (m : Index) : Does i w (.sys (.submitMessage (.index m))) { w with sent := w.sent ++ [m] } (some ())
  | sys (o : SysOp) (x : Option o.Ans) : Does i w (.sys o) w x

/-- The tasks of a node, with their results dropped. -/
inductive Starts (w : Net ι) : BepProg Unit → Prop
  | generateIndex (dir : SyncDirectory) : Starts w (do let _ ← generateIndex sha256 dir)
  | handleIndex (m : Index) : m ∈ w.sent → Starts w (handleIndex m.folder m.files)
  | sendIndex (conn : Conn) : Starts w (do let _ ← sendIndex sha256 conn)
  | getDirectory (directory : SyncDirectory) : Starts w (do let _ ← getDirectory sha256 directory)

/-- The folders, peers and shares of a node change; its records do not. -/
inductive Outside [DecidableEq ι] (w : Net ι) : Net ι → Prop
  | configure (i : ι) (s : Store) : s.records = (w.stores i).records →
      Outside w { w with stores := Function.update w.stores i s }

def network [DecidableEq ι] : System bep ι (Net ι) where
  does := Does
  starts w _ p := Starts sha256 w p
  outside := Outside

/-- No node has indexed anything. -/
def Fresh (w : Net ι) : Prop := (∀ i, (w.stores i).records = []) ∧ w.sent = []

structure Inv (w : Net ι) : Prop where
  good : ∀ i, ∀ r ∈ (w.stores i).records, Good r.file
  sent : ∀ m ∈ w.sent, ∀ info ∈ m.files, GoodInfo info

theorem inv_fresh {w : Net ι} (h : Fresh w) : Inv w := by
  refine ⟨fun i r hr => ?_, fun m hm => ?_⟩
  · rw [h.1 i] at hr; cases hr
  · rw [h.2] at hm; cases hm

theorem keeps_starts {w : Net ι} (h : Inv w) {p : BepProg Unit} (hp : Starts sha256 w p) : Keeps (fun _ => True) p := by
  cases hp with
  | generateIndex dir => exact keeps_any (keeps_rules.ok_generateIndex sha256 dir) fun _ => trivial
  | handleIndex m hm => exact keeps_rules.ok_handleIndex (h.sent m hm)
  | sendIndex conn => exact keeps_any (ok_sendIndex sha256 conn) fun _ => trivial
  | getDirectory directory =>
    exact keeps_any (keeps_rules.ok_getDirectory sha256 fun _ _ _ _ _ _ => trivial) fun _ => trivial

/-- A history some node stores, or some message announces. -/
def Net.Known (w : Net ι) (vs : List Version) : Prop :=
  (∃ i, ∃ r ∈ (w.stores i).records, r.versions = vs) ∨
    ∃ m ∈ w.sent, ∃ info ∈ m.files, ∃ cs, info.version = some cs ∧ cs.map Counter.version = vs

theorem known_counted {w : Net ι} (h : Inv w) {vs : List Version} (hv : w.Known vs) : Counted vs ∧ vs ≠ [] := by
  rcases hv with ⟨i, r, hr, rfl⟩ | ⟨m, hm, info, hi, cs, hcs, rfl⟩
  · exact ⟨(h.good i r hr).counted, (h.good i r hr).ne_nil⟩
  · obtain ⟨cs', hcs', hne, hc⟩ := h.sent m hm info hi
    rw [hcs] at hcs'
    cases hcs'
    exact ⟨hc, by simpa using hne⟩

variable [DecidableEq ι]

theorem good_update {w : Net ι} (h : Inv w) {i : ι} {s : Store} (hs : ∀ r ∈ s.records, Good r.file) :
    Inv { w with stores := Function.update w.stores i s } := by
  refine ⟨fun j r hr => ?_, h.sent⟩
  by_cases hj : j = i
  · subst hj; exact hs r (by simpa using hr)
  · exact h.good j r (by simpa [Function.update_of_ne hj] using hr)

theorem good_index {s : Store} (hs : ∀ r ∈ s.records, Good r.file) (dirId : Text) : ∀ f ∈ s.index dirId, Good f := by
  intro f hf
  obtain ⟨r, hr, rfl⟩ := List.mem_map.mp hf
  exact hs r (List.mem_filter.mp hr).1

/-- What an allowed operation keeps, and what it answers. -/
theorem inv_does {i : ι} {w w' : Net ι} {o : Op} {x : Option o.Ans} (h : Inv w) (ho : Asks o) (hd : Does i w o w' x) :
    Inv w' ∧ ∀ r, x = some r → Gets o r := by
  cases hd with
  | sys o x => exact ⟨h, fun r _ => trivial⟩
  | post m =>
    refine ⟨⟨h.good, fun m' hm' => ?_⟩, fun r _ => trivial⟩
    rcases List.mem_append.mp hm' with hm' | hm'
    · exact h.sent m' hm'
    · rw [List.mem_singleton.mp hm']; exact ho
  | db o =>
    refine ⟨good_update h ?_, fun r hr => ?_⟩
    · cases o with
      | updateSyncFile dir f => exact good_updateSyncFile (h.good i) dir ho
      | _ => exact h.good i
    · cases o with
      | getSyncFiles dirId =>
        rw [dbDo_getSyncFiles] at hr
        cases hr
        exact good_index (h.good i) dirId
      | _ => trivial

/-- The invariant holds in every state the network reaches. -/
theorem inv_reach {c₀ c : Conf bep ι (Net ι)} (h0 : Fresh c₀.shared) (ht : c₀.tasks = [])
    (h : Reach (network sha256) c₀ c) : Inv c.shared := by
  suffices hok : Inv c.shared ∧ AllOk (fun _ => Asks) (fun _ => Gets) c from hok.1
  refine reach_ok h ?_ ?_ ?_ (inv_fresh h0) ?_
  · rintro w w' hw ⟨i, s, hs⟩
    exact good_update hw fun r hr => hw.good i r (hs ▸ hr)
  · intro w i p hw hp
    exact keeps_starts sha256 hw hp
  · intro i w o w' x hw ho hd
    exact inv_does hw ho hd
  · intro t ht'
    rw [ht] at ht'; cases ht'

theorem grows_reach {c c' : Conf bep ι (Net ι)} (h : Reach (network sha256) c c') (i : ι) :
    Grows (c.shared.stores i) (c'.shared.stores i) := by
  refine reach_mono (T := fun w w' => Grows (w.stores i) (w'.stores i)) (fun w => Grows.refl _)
    (fun _ _ _ => Grows.trans) ?_ ?_ h
  · rintro w w' ⟨j, s, hs⟩
    by_cases hj : i = j
    · subst hj
      intro r hr
      exact ⟨r, by simpa [hs] using hr, rfl, List.prefix_rfl⟩
    · simp only [Function.update_of_ne hj]; exact Grows.refl _
  · intro j w o w' x hd
    cases hd with
    | db o =>
      by_cases hj : i = j
      · subst hj; simp only [Function.update_self]; exact grows_dbDo _ o
      · simp only [Function.update_of_ne hj]; exact Grows.refl _
    | post m => exact Grows.refl _
    | sys o x => exact Grows.refl _

/-- In every state reached from a fresh network, by any interleaving and whichever tasks
    panic: every record's history is counted and only grows at its end, its synced version
    is at most its last, and any two histories known now or later compare alike by length
    (`handle_index`) and by last counter (`get_directory`), so that a record an announced
    history would replace is one whose synced version is below that history's last. -/
theorem version_history {c₀ c c' : Conf bep ι (Net ι)} (h0 : Fresh c₀.shared) (ht : c₀.tasks = [])
    (h : Reach (network sha256) c₀ c) (h' : Reach (network sha256) c c') :
    (∀ i, ∀ r ∈ (c.shared.stores i).records,
      (∀ (k : Nat) (v : Version), r.versions[k]? = some v → v.2.toNat = k) ∧
      r.versions ≠ [] ∧ r.file.getIndexVersion.toNat = r.versions.length - 1 ∧
      r.synced ≤ r.file.getIndexVersion ∧
      (∃ r' ∈ (c'.shared.stores i).records, r'.id = r.id ∧ r.versions <+: r'.versions) ∧
      ∀ vs, c'.shared.Known vs → r.versions.length < vs.length → r.synced < latest vs) ∧
    ∀ vs vs', c.shared.Known vs → c'.shared.Known vs' →
      ((vs.length < vs'.length ↔ latest vs < latest vs') ∧ (vs'.length < vs.length ↔ latest vs' < latest vs)) := by
  have hinv := inv_reach sha256 h0 ht h
  have hinv' := inv_reach sha256 h0 ht (reach_trans _ h h')
  refine ⟨fun i r hr => ?_, fun vs vs' hv hv' => ?_⟩
  · have hg := hinv.good i r hr
    refine ⟨hg.counted, hg.ne_nil, hg.index_version, hg.synced_le, grows_reach sha256 h' i r hr, fun vs hv hlt => ?_⟩
    obtain ⟨hc, hne⟩ := known_counted hinv' hv
    have hlatest := UInt64.lt_iff_toNat_lt.mp ((length_lt_iff_latest hg.counted hg.ne_nil hc hne).mp hlt)
    have hle := UInt64.le_iff_toNat_le.mp hg.synced_le
    exact UInt64.lt_iff_toNat_lt.mpr (Nat.lt_of_le_of_lt hle hlatest)
  · obtain ⟨hc, hne⟩ := known_counted hinv hv
    obtain ⟨hc', hne'⟩ := known_counted hinv' hv'
    exact ⟨length_lt_iff_latest hc hne hc' hne', length_lt_iff_latest hc' hne' hc hne⟩

/-! ## A node of the network -/

def indexOf : Message → Option Index
  | .index m => some m
  | _ => none

/-- The network with a node in the place of the `i`-th store. -/
def Net.putNode (w : Net ι) (i : ι) (n : Node) : Net ι :=
  ⟨Function.update w.stores i n.store, w.sent ++ n.sent.filterMap indexOf⟩

theorem node_does (w : Net ι) (i : ι) (n : Node) (o : Op) :
    Does i (w.putNode i n) o (w.putNode i (nodeDo n o).1) (nodeDo n o).2 := by
  -- An operation that leaves the store and the posted messages is one of the outside world's.
  have hsys : ∀ (o : SysOp) (n' : Node) (x : Option o.Ans), n'.store = n.store →
      n'.sent.filterMap indexOf = n.sent.filterMap indexOf → Does i (w.putNode i n) (.sys o) (w.putNode i n') x := by
    intro o n' x hstore hsent
    have : w.putNode i n' = w.putNode i n := by rw [Net.putNode, Net.putNode, hstore, hsent]
    rw [this]; exact .sys o x
  cases o with
  | db o =>
    have hdb := Does.db (i := i) (w := w.putNode i n) o
    simpa [Net.putNode, nodeDo] using hdb
  | sys o =>
    cases o with
    | submitMessage m =>
      cases m with
      | index m =>
        have hput : w.putNode i { n with sent := n.sent ++ [.index m] } =
            { w.putNode i n with sent := (w.putNode i n).sent ++ [m] } := by simp [Net.putNode, indexOf]
        show Does i _ _ (w.putNode i { n with sent := n.sent ++ [.index m] }) _
        rw [hput]; exact .post m
      | request r => exact hsys _ _ _ rfl (by simp [nodeDo, Node.sysDo, indexOf])
      | response r => exact hsys _ _ _ rfl (by simp [nodeDo, Node.sysDo, indexOf])
    | submitRequest r =>
      cases hw : n.wire with
      | nil => exact hsys _ _ _ (by simp [nodeDo, Node.sysDo, hw]) (by simp [nodeDo, Node.sysDo, hw, indexOf])
      | cons a rest => exact hsys _ _ _ (by simp [nodeDo, Node.sysDo, hw]) (by simp [nodeDo, Node.sysDo, hw, indexOf])
    | writeBlock url offset data =>
      obtain ⟨hstore, -, hsent⟩ := n.writeBlock_frame url offset data
      exact hsys _ _ _ hstore (congrArg _ hsent)
    | readBlock url offset len =>
      have hsent : (n.readBlock url offset len).1.sent = n.sent := by
        rcases n.readBlock_frame url offset len with h | h
        · rw [h]
        · rw [h]; rfl
      exact hsys _ _ _ (n.store_sysDo (.readBlock url offset len)) (congrArg _ hsent)
    | _ => exact hsys _ _ _ rfl rfl

/-- A task that a node may start, run there to its end with nothing in between. -/
theorem node_run_reach (w : Net ι) (i : ι) (n : Node) {p : BepProg Unit} (hp : Starts sha256 (w.putNode i n) p)
    (ts : List (ι × BepProg Unit)) :
    ∃ ts', Reach (network sha256) ⟨w.putNode i n, ts⟩ ⟨w.putNode i (run nodeDo p n).1, ts'⟩ := by
  obtain ⟨q, hq⟩ := run_reach (Y := network sha256) (M := nodeDo) (f := w.putNode i) (node_does w i) ts p n
  exact ⟨_, reach_trans _ (.step .init (.start (a := i) hp)) hq⟩

/-! ## A file indexed, edited and indexed again -/

/-- The contents and the digest of the tests' file (`tests/peer_connection.rs`). -/
def fileContents : Bytes := [104, 101, 108, 108, 111, 32, 119, 111, 114, 108, 100]

def fileHash : Bytes :=
  [0xb9, 0x4d, 0x27, 0xb9, 0x93, 0x4d, 0x3e, 0x08, 0xa5, 0x2e, 0x52, 0xd7, 0xda, 0x7d, 0xab, 0xfa,
   0xc4, 0x84, 0xef, 0xe3, 0x7a, 0x53, 0x80, 0xee, 0x90, 0x88, 0xf7, 0xac, 0xe2, 0xef, 0xcd, 0xe9]

/-- The tests' second contents, and their digest. -/
def fileContents2 : Bytes := [104, 101, 108, 108, 111, 32, 111, 116, 104, 101, 114, 32, 119, 111, 114, 108, 100]

def fileHash2 : Bytes :=
  [0xe8, 0x22, 0x20, 0x3d, 0xac, 0x2b, 0x3a, 0x3e, 0xa6, 0x75, 0x3e, 0x53, 0x0f, 0x56, 0xd0, 0xa6,
   0x3c, 0x20, 0x83, 0x88, 0x33, 0x84, 0x2b, 0xd6, 0x8d, 0x6e, 0x2d, 0x52, 0xab, 0xfa, 0x1f, 0x38]

/-- SHA-256 on the two. -/
def fileSha (data : Bytes) : Bytes :=
  if data = fileContents then fileHash else if data = fileContents2 then fileHash2 else []

def fileDir : SyncDirectory := ⟨['d'], ['d'], some ['/', 'd']⟩

def fileDisk (data : Bytes) : Disk where
  entries := [([['d']], .dir), ([['d'], ['f']], .file data)]
  nodup := by simp
  named := by simp [FileName, Plain]

/-- A node that shares the directory of the file, and has not indexed it. -/
def fileNode (data : Bytes) : Node where
  store := Store.empty [⟨['d'], ['d'], some ['/', 'd']⟩] [] [] 7
  disk := fileDisk data
  cwd := []
  cwd_named := by simp
  poisoned := false
  wire := []
  ids := []
  sent := []
  spawned := []

def fileTask : BepProg Unit := do let _ ← generateIndex fileSha fileDir

def fileIndexed : Node := (run nodeDo fileTask (fileNode fileContents)).1

def fileEdited : Node := (run nodeDo fileTask { fileIndexed with disk := fileDisk fileContents2 }).1

/-! ## A file that two nodes edit in turn -/

/-- The certificate hash of a peer. -/
def peerHash : Bytes := 9 :: List.replicate 31 0

/-- Two nodes that share the directory of the file. -/
def fileNet : Net Bool where
  stores b := Store.empty [⟨['d'], ['d'], some ['/', 'd']⟩] [⟨1, some peerHash, ['p']⟩] [⟨['d'], 1⟩] (if b then 7 else 9)
  sent := []

/-- A task run to its end on the `i`-th store, over the given disk. -/
def Net.runAt (w : Net ι) (i : ι) (disk : Disk) (p : BepProg Unit) : Net ι :=
  w.putNode i (run nodeDo p { fileNode [] with store := w.stores i, disk := disk }).1

theorem Net.reach_runAt {w : Net ι} {p : BepProg Unit} (hp : Starts sha256 w p) (i : ι) (disk : Disk)
    (ts : List (ι × BepProg Unit)) : ∃ ts', Reach (network sha256) ⟨w, ts⟩ ⟨w.runAt i disk p, ts'⟩ := by
  have hput : w.putNode i { fileNode [] with store := w.stores i, disk := disk } = w := by
    simp [Net.putNode, fileNode]
  obtain ⟨ts', h⟩ := node_run_reach sha256 w i { fileNode [] with store := w.stores i, disk := disk } (hput.symm ▸ hp) ts
  rw [hput] at h
  exact ⟨ts', h⟩

/-- A node indexes its disk and sends its Index. -/
def Net.announced (w : Net Bool) (b : Bool) (disk : Disk) : Net Bool :=
  (w.runAt b disk fileTask).runAt b disk (do let _ ← sendIndex fileSha ⟨some peerHash⟩)

/-- The other node merges an Index. -/
def Net.merged (w : Net Bool) (b : Bool) (disk : Disk) (m : Index) : Net Bool :=
  (w.announced b disk).runAt (!b) disk (handleIndex m.folder m.files)

theorem Net.reach_merged (w : Net Bool) (b : Bool) (disk : Disk) (m : Index) (hm : m ∈ (w.announced b disk).sent)
    (ts : List (Bool × BepProg Unit)) : ∃ ts', Reach (network fileSha) ⟨w, ts⟩ ⟨w.merged b disk m, ts'⟩ := by
  obtain ⟨ts₁, h₁⟩ := Net.reach_runAt fileSha (.generateIndex fileDir) b disk ts
  obtain ⟨ts₂, h₂⟩ := Net.reach_runAt fileSha (.sendIndex ⟨some peerHash⟩) b disk ts₁
  obtain ⟨ts₃, h₃⟩ := Net.reach_runAt fileSha (.handleIndex m hm) (!b) disk ts₂
  exact ⟨ts₃, reach_trans _ h₁ (reach_trans _ h₂ h₃)⟩

def fileIndex (counters : List Counter) (data : Bytes) : Index :=
  ⟨['d'], [⟨['f'], 0, some counters, [⟨0, data.length, fileSha data⟩]⟩]⟩

/-- The second node has the first node's file. -/
def fileMerged : Net Bool := fileNet.merged true (fileDisk fileContents) (fileIndex [⟨7, 0⟩] fileContents)

/-- The second node edits it, and the first has the edit. -/
def fileReturned : Net Bool :=
  fileMerged.merged false (fileDisk fileContents2) (fileIndex [⟨7, 0⟩, ⟨9, 1⟩] fileContents2)

theorem version_history_edited : ∃ ts ts', Reach (network fileSha) ⟨fileNet, []⟩ ⟨fileMerged, ts⟩ ∧
    Reach (network fileSha) ⟨fileMerged, ts⟩ ⟨fileReturned, ts'⟩ ∧
    (∀ b, (fileMerged.stores b).records.map Rec.versions = [[(7, 0)]]) ∧
    (∀ b, (fileReturned.stores b).records.map Rec.versions = [[(7, 0), (9, 1)]]) ∧
    ∀ b, ∀ r ∈ (fileMerged.stores b).records, r.synced ≤ r.file.getIndexVersion ∧
      (∃ r' ∈ (fileReturned.stores b).records, r'.id = r.id ∧ r.versions <+: r'.versions) ∧
      r.synced < latest [(7, 0), (9, 1)] := by
  obtain ⟨ts, h⟩ := Net.reach_merged fileNet true (fileDisk fileContents) (fileIndex [⟨7, 0⟩] fileContents)
    (by decide +kernel) []
  obtain ⟨ts', h'⟩ := Net.reach_merged fileMerged false (fileDisk fileContents2)
    (fileIndex [⟨7, 0⟩, ⟨9, 1⟩] fileContents2) (by decide +kernel) ts
  have hrows : ∀ b, (fileMerged.stores b).records.map Rec.versions = [[(7, 0)]] := by decide +kernel
  have hrows' : ∀ b, (fileReturned.stores b).records.map Rec.versions = [[(7, 0), (9, 1)]] := by decide +kernel
  refine ⟨ts, ts', h, h', hrows, hrows', fun b r hr => ?_⟩
  obtain ⟨-, -, -, hsynced, hgrows, hnewer⟩ := (version_history fileSha ⟨fun _ => rfl, rfl⟩ rfl h h').1 b r hr
  -- The history of the edit is known, and longer than the record's.
  have hknown : fileReturned.Known [(7, 0), (9, 1)] := by
    have hmem : [(7, 0), (9, 1)] ∈ (fileReturned.stores false).records.map Rec.versions := by rw [hrows']; simp
    obtain ⟨r', hr', hvs⟩ := List.mem_map.mp hmem
    exact Or.inl ⟨false, r', hr', hvs⟩
  have hversions : r.versions ∈ [[((7 : UInt64), (0 : UInt64))]] := hrows b ▸ List.mem_map_of_mem hr
  rw [List.mem_singleton] at hversions
  exact ⟨hsynced, hgrows, hnewer _ hknown (by rw [hversions]; simp)⟩

end BepRs.History
