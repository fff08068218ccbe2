/-
  BepRs.History.Agreement — which blocks go with a history, across nodes.

  Nodes edit files, index them, announce what they have, merge announcements and fetch files,
  one call at a time (`Steps`). On the records this is a lineage (`lineage`): `generate_index`
  writes an entry of the node's own at the end of a history (`coherent_write`),
  `handle_index` adopts a longer one with its blocks (`coherent_adopt`), `send_index` says
  what is recorded (`coherent_post`). So a history's last version fixes the blocks, as long
  as no two nodes have the same short id and a message has the blocks that are recorded.

  `send_index` takes the history from the record and makes the blocks again from the file as
  it is then; `Settled` says that they are the recorded ones.
  - `agreement`: in every run in which files are announced only while they are on disk as
    recorded, nodes that store the same history for a name store the same blocks.
  - `disagreement`: a file edited between `generate_index` and `send_index`.
-/

import BepRs.History.Merge
import BepRs.History.Unique
import BepRs.Lib.Lineage

namespace BepRs.History

open BepRs.Lib BepRs.Lib.Path BepRs.Lib.Task BepRs.State BepRs.Sync

variable (sha256 : Bytes → Bytes)

/-! ## What `send_index` announces -/

/-- A received file as the file of a record: its name, its history and its blocks on disk. -/
def Announces (n : Node) (dir : SyncDirectory) (x : SyncFile) (info : FileInfo) : Prop :=
  info.name = x.getName ∧ info.version = some (x.versions.map fun v => ⟨v.1, v.2⟩) ∧
    ∃ blocks, blocksAt sha256 n dir x.path = some blocks ∧ info.blocks = blocks.map fun y => ⟨y.offset, y.size, y.hash⟩

theorem run_genBlocks_result (n : Node) (dir : SyncDirectory) (filePath : Text) :
    ∃ out, run nodeDo (genBlocks sha256 filePath dir) n = (n, out) ∧
      ∀ blocks, out = some (.ok blocks) → blocksAt sha256 n dir filePath = some blocks := by
  unfold genBlocks blocksAt
  cases dir.path with
  | none => exact ⟨_, rfl, fun blocks h => by simp at h⟩
  | some path =>
    have hread : nodeDo n (.sys (.readFile (push path filePath))) = (n, some (n.readFile (push path filePath))) := rfl
    rw [run_call_some hread]
    simp only [Option.bind_eq_bind, Option.bind_some]
    cases n.readFile (push path filePath) with
    | none => exact ⟨_, rfl, fun blocks h => by simp at h⟩
    | some data =>
      simp only [Option.bind_some]
      cases blocksOf sha256 data with
      | none => exact ⟨_, rfl, fun blocks h => by simp at h⟩
      | some bs =>
        refine ⟨_, rfl, fun blocks h => ?_⟩
        cases h
        rfl

theorem run_fileInfos (n : Node) (dir : SyncDirectory) : ∀ xs : List SyncFile,
    ∃ out, run nodeDo (fileInfos sha256 dir xs) n = (n, out) ∧
      ∀ infos, out = some (.ok infos) → List.Forall₂ (Announces sha256 n dir) xs infos := by
  intro xs
  induction xs with
  | nil =>
    refine ⟨_, rfl, fun infos h => ?_⟩
    cases h
    exact .nil
  | cons x xs ih =>
    unfold fileInfos
    cases getSize x with
    | none => exact ⟨_, rfl, fun infos h => by cases h⟩
    | some size =>
      simp only [unwrap_some, Prog.ret_bind]
      obtain ⟨out, hrun, hblocks⟩ := run_genBlocks_result sha256 n dir x.path
      rw [run_bind, hrun]
      rcases out with _ | e | blocks
      · exact ⟨_, rfl, fun infos h => by cases h⟩
      · exact ⟨_, rfl, fun infos h => by simp at h⟩
      · obtain ⟨out', hrun', hinfos⟩ := ih
        simp only
        rw [run_bind, hrun']
        rcases out' with _ | e | infos
        · exact ⟨_, rfl, fun infos h => by cases h⟩
        · exact ⟨_, rfl, fun infos h => by simp at h⟩
        · refine ⟨_, rfl, fun infos' h => ?_⟩
          cases h
          exact .cons ⟨rfl, rfl, blocks, hblocks blocks rfl, rfl⟩ (hinfos infos rfl)

theorem announces_all {n : Node} {dir : SyncDirectory} {xs : List SyncFile} {infos : List FileInfo}
    (h : List.Forall₂ (Announces sha256 n dir) xs infos) :
    infos.map FileInfo.name = xs.map SyncFile.getName ∧ ∀ info ∈ infos, ∃ x ∈ xs, Announces sha256 n dir x info := by
  induction h with
  | nil => exact ⟨rfl, fun info hi => by cases hi⟩
  | @cons x info xs infos hx _ ih =>
    obtain ⟨hnames, hall⟩ := ih
    refine ⟨by rw [List.map_cons, List.map_cons, hnames, hx.1], fun info' hi => ?_⟩
    rcases List.mem_cons.mp hi with hi | hi
    · exact ⟨x, List.mem_cons_self, hi ▸ hx⟩
    · obtain ⟨y, hy, hann⟩ := hall info' hi
      exact ⟨y, List.mem_cons_of_mem _ hy, hann⟩

/-- The messages a run posts: one for a shared folder, with the folder's files. -/
def Posted (n : Node) (peer : Peer) (dirs : List SyncDirectory) (m : Index) : Prop :=
  ∃ dir ∈ dirs, n.store.isDirectorySynced dir.id peer.id = true ∧ m.folder = dir.id ∧
    List.Forall₂ (Announces sha256 n dir) (n.store.index dir.id) m.files

theorem run_sendFolders (peer : Peer) : ∀ (dirs : List SyncDirectory) (n : Node), ∃ msgs : List Index,
    (run nodeDo (sendFolders sha256 peer dirs) n).1 = { n with sent := n.sent ++ msgs.map .index } ∧
      ∀ m ∈ msgs, Posted sha256 n peer dirs m := by
  intro dirs
  induction dirs with
  | nil => intro n; exact ⟨[], by simp [sendFolders], fun m hm => by cases hm⟩
  | cons dir dirs ih =>
    intro n
    have hsynced : nodeDo n (.db (.isDirectorySynced dir.id peer.id)) =
        (n, some (n.store.isDirectorySynced dir.id peer.id)) := rfl
    have hlater : ∀ l m, Posted sha256 { n with sent := l } peer dirs m → Posted sha256 n peer (dir :: dirs) m := by
      intro l m h
      obtain ⟨d, hd, hrest⟩ := h
      exact ⟨d, List.mem_cons_of_mem _ hd, hrest⟩
    unfold sendFolders
    rw [run_call_some hsynced]
    cases hs : n.store.isDirectorySynced dir.id peer.id with
    | false =>
      simp only [Bool.false_eq_true, if_false]
      obtain ⟨msgs, hrun, hposted⟩ := ih n
      exact ⟨msgs, hrun, fun m hm => hlater n.sent m (hposted m hm)⟩
    | true =>
      simp only [if_true]
      rw [run_call_some (nodeDo_getSyncFiles n dir.id), run_bind]
      obtain ⟨out, hinfos, hann⟩ := run_fileInfos sha256 n dir (n.store.index dir.id)
      rw [hinfos]
      rcases out with _ | e | infos
      · exact ⟨[], by simp, fun m hm => by cases hm⟩
      · exact ⟨[], by simp, fun m hm => by cases hm⟩
      · simp only
        rw [run_call_some (nodeDo_submitMessage n _)]
        obtain ⟨msgs, hrun, hposted⟩ := ih { n with sent := n.sent ++ [.index ⟨dir.id, infos⟩] }
        refine ⟨⟨dir.id, infos⟩ :: msgs, ?_, fun m hm => ?_⟩
        · rw [hrun]; simp
        · rcases List.mem_cons.mp hm with hm | hm
          · subst hm
            exact ⟨dir, List.mem_cons_self, hs, rfl, hann infos rfl⟩
          · exact hlater _ m (hposted m hm)

/-- A run of `send_index` posts messages and does nothing else. -/
theorem run_sendIndex (conn : Conn) (n : Node) : ∃ msgs : List Index,
    (run nodeDo (sendIndex sha256 conn) n).1 = { n with sent := n.sent ++ msgs.map .index } ∧
      ∀ m ∈ msgs, ∃ peer ∈ n.store.peers, conn.peerId = some (peer.deviceId.getD []) ∧
        Posted sha256 n peer n.store.getSyncDirectories m := by
  have hnone : ∃ msgs : List Index, n = { n with sent := n.sent ++ msgs.map .index } ∧
      ∀ m ∈ msgs, ∃ peer ∈ n.store.peers, conn.peerId = some (peer.deviceId.getD []) ∧
        Posted sha256 n peer n.store.getSyncDirectories m := ⟨[], by simp, fun m hm => by cases hm⟩
  unfold sendIndex getPeer
  rw [run_bind, run_call_some (nodeDo_getPeers n)]
  cases hid : conn.peerId with
  | none => rw [hid] at hnone; exact hnone
  | some peerId =>
    simp only
    cases hfind : n.store.peers.find? fun peer => peerId = peer.deviceId.getD [] with
    | none =>
      have hclose : nodeDo n (.sys (.closeReason "Unknown peer")) = (n, some ()) := rfl
      simp only
      rw [run_call_some hclose]
      rw [hid] at hnone; exact hnone
    | some peer =>
      simp only [run_ret]
      rw [run_call_some (nodeDo_getSyncDirectories n)]
      obtain ⟨msgs, hrun, hposted⟩ := run_sendFolders sha256 peer n.store.getSyncDirectories n
      refine ⟨msgs, hrun, fun m hm => ⟨peer, List.mem_of_find?_eq_some hfind, ?_, hposted m hm⟩⟩
      have hpeer : peerId = peer.deviceId.getD [] := by simpa using List.find?_some hfind
      rw [hpeer]

/-- What the records of the folders the connection's peer is sent say, the files on disk
    give: `gen_blocks` finds the stored blocks. -/
def Settled (n : Node) (conn : Conn) : Prop :=
  ∀ peer ∈ n.store.peers, conn.peerId = some (peer.deviceId.getD []) →
    ∀ dir ∈ n.store.getSyncDirectories, n.store.isDirectorySynced dir.id peer.id = true →
      ∀ r ∈ n.store.records, r.folder = dir.id → ∀ blocks, blocksAt sha256 n dir r.name = some blocks → blocks = r.blocks

/-! ## The lineage of the records -/

section Lineage

variable {ι : Type} [DecidableEq ι] {me : ι → UInt64} {stores : ι → Store} {sent : Index → Prop} {i : ι} {s s' : Store}

/-- For a folder and a name: the history and blocks each node records, and those of the
    messages. -/
def lineage (stores : ι → Store) (sent : Index → Prop) : Lineage.State ι (Text × Text) Version (List SyncBlock) where
  held i k := ((stores i).lookup k.1 k.2).map fun r => (r.versions, r.blocks)
  said k vs g := ∃ m, sent m ∧ m.folder = k.1 ∧ ∃ info ∈ m.files, info.name = k.2 ∧ ∃ cs, info.version = some cs ∧
    cs.map Counter.version = vs ∧ Tables.sortBlocks (info.blocks.map BlockInfo.syncBlock) = g

/-- One row of a name everywhere, messages that name each file once, by its normal name, and
    a lineage whose entries fix the blocks. -/
structure Coherent (me : ι → UInt64) (stores : ι → Store) (sent : Index → Prop) : Prop where
  shortIds : ∀ i, (stores i).shortId = me i
  single : ∀ i, Singles (stores i)
  named : ∀ m, sent m → (m.files.map FileInfo.name).Nodup ∧ ∀ info ∈ m.files, normal info.name = info.name
  inv : Lineage.Inv Prod.fst (fun v => v.2.toNat) me (lineage stores sent)

/-- What holds of the store of one node. -/
theorem Coherent.here (h : Coherent me (Function.update stores i s) sent) : Singles s ∧ s.shortId = me i := by
  have hs := h.single i
  have hid := h.shortIds i
  rw [Function.update_self] at hs hid
  exact ⟨hs, hid⟩

/-- One node's store replaced. -/
theorem Coherent.put (h : Coherent me (Function.update stores i s) sent) (hid : s'.shortId = s.shortId) (hs : Singles s')
    (hinv : Lineage.Inv Prod.fst (fun v => v.2.toNat) me (lineage (Function.update stores i s') sent)) :
    Coherent me (Function.update stores i s') sent := by
  refine ⟨fun j => ?_, fun j => ?_, h.named, hinv⟩
  · have hj := h.shortIds j
    by_cases hji : j = i
    · subst hji
      rw [Function.update_self] at hj ⊢
      exact hid.trans hj
    · rw [Function.update_of_ne hji] at hj ⊢
      exact hj
  · by_cases hji : j = i
    · subst hji
      rw [Function.update_self]
      exact hs
    · have hj := h.single j
      rw [Function.update_of_ne hji] at hj ⊢
      exact hj

theorem held_put (k : Text × Text) : (lineage (Function.update stores i s) sent).held i k =
    (s.lookup k.1 k.2).map fun r => (r.versions, r.blocks) := by
  simp only [lineage, Function.update_self]

theorem history_put {k : Text × Text} : (lineage (Function.update stores i s) sent).history i k =
    ((s.lookup k.1 k.2).map Rec.versions).getD [] := by
  rw [Lineage.State.history, held_put, Option.map_map]; rfl

/-- A write to the row of a name, or to a new one, changes one history. -/
theorem beside_put {dir : SyncDirectory} {f : SyncFile}
    (hold : ∀ r, s.stored f = some r → r.folder = dir.id ∧ r.name = f.getName) :
    (lineage (Function.update stores i s) sent).Beside
      (lineage (Function.update stores i (s.updateSyncFile dir f).1) sent) i (dir.id, f.getName) := by
  refine ⟨fun j k hjk => ?_, fun _ _ _ h => h⟩
  by_cases hji : j = i
  · subst hji
    have hk : k ≠ (dir.id, f.getName) := by tauto
    have hkey : ¬ (dir.id = k.1 ∧ f.getName = k.2) := fun h => hk (Prod.ext h.1.symm h.2.symm)
    rw [held_put, held_put, s.lookup_beside hkey fun r hr h => ?_]
    obtain ⟨hfolder, hname⟩ := hold r hr
    exact hkey ⟨hfolder.symm.trans h.1, hname.symm.trans h.2⟩
  · simp only [lineage, Function.update_of_ne hji]

/-- An entry of the node's own after the last. -/
theorem coherent_write {dir : SyncDirectory} {f : SyncFile} {v : Version} (h : Coherent me (Function.update stores i s) sent)
    (hme : Function.Injective me) (hs : Singles (s.updateSyncFile dir f).1)
    (hold : ∀ r, s.stored f = some r → r.folder = dir.id ∧ r.name = f.getName)
    (hauthor : v.1 = me i) (hplace : v.2.toNat = (((s.lookup dir.id f.getName).map Rec.versions).getD []).length)
    (hnew : ∃ r, (s.updateSyncFile dir f).1.lookup dir.id f.getName = some r ∧
      r.versions = ((s.lookup dir.id f.getName).map Rec.versions).getD [] ++ [v]) :
    Coherent me (Function.update stores i (s.updateSyncFile dir f).1) sent := by
  obtain ⟨r, hl, hvs⟩ := hnew
  refine h.put (s.updateSyncFile_frame dir f).2.2.2 hs ?_
  refine Lineage.inv_write (k := (dir.id, f.getName)) (e := v) (g := r.blocks) h.inv hme hauthor ?_ ?_ (beside_put hold)
  · rw [history_put]; exact hplace
  · rw [held_put, history_put, hl, ← hvs]; rfl

/-- A longer history that was said, with its blocks. -/
theorem coherent_adopt {dir : SyncDirectory} {f : SyncFile} (h : Coherent me (Function.update stores i s) sent)
    (hs : Singles (s.updateSyncFile dir f).1)
    (hold : ∀ r, s.stored f = some r → r.folder = dir.id ∧ r.name = f.getName)
    (hsaid : (lineage (Function.update stores i s) sent).said (dir.id, f.getName) f.versions (Tables.sortBlocks f.blocks))
    (hlen : (((s.lookup dir.id f.getName).map Rec.versions).getD []).length < f.versions.length)
    (hnew : ∃ r, (s.updateSyncFile dir f).1.lookup dir.id f.getName = some r ∧
      r.versions = Chain.extend (((s.lookup dir.id f.getName).map Rec.versions).getD []) f.versions ∧
      r.blocks = Tables.sortBlocks f.blocks) :
    Coherent me (Function.update stores i (s.updateSyncFile dir f).1) sent := by
  obtain ⟨r, hl, hvs, hblocks⟩ := hnew
  refine h.put (s.updateSyncFile_frame dir f).2.2.2 hs ?_
  refine Lineage.inv_adopt (k := (dir.id, f.getName)) h.inv hsaid ?_ ?_ (beside_put hold)
  · rw [history_put]; exact hlen
  · rw [held_put, history_put, hl, ← hvs, ← hblocks]; rfl

/-- A write that keeps the histories and the blocks. -/
theorem coherent_same (h : Coherent me (Function.update stores i s) sent) (hid : s'.shortId = s.shortId) (hs : Singles s')
    (hsame : ∀ folder name, (s'.lookup folder name).map (fun r => (r.versions, r.blocks)) =
      (s.lookup folder name).map fun r => (r.versions, r.blocks)) :
    Coherent me (Function.update stores i s') sent := by
  refine h.put hid hs (Lineage.inv_say h.inv (fun j k => ?_) fun _ _ _ hsaid => Or.inl hsaid)
  by_cases hji : j = i
  · subst hji
    rw [held_put, held_put, hsame]
  · simp only [lineage, Function.update_of_ne hji]

/-! ## Whole calls -/

theorem coherent_pass {n : Node} {dir : SyncDirectory} {path : Text} {file : Text} {files : List Text} {m m' : Scanning}
    {u : Option Unit} (hme : Function.Injective me) (hun : Unscanned dir (file :: files) m)
    (h : Coherent me (Function.update stores i m.store) sent)
    (hpass : Pass sha256 n dir path (me i) file m (m', u)) :
    Coherent me (Function.update stores i m'.store) sent := by
  have hs := (unscanned_pass sha256 hun hpass).single
  cases hpass with
  | skip out u => exact h
  | next f x r hx hcopy hr hscan htarget hstored hname =>
    obtain ⟨last, v, hlast, -, hv, hid, -, hvs⟩ := scanned_next sha256 hscan hx
    have hl : m.store.lookup dir.id f.getName = some r := by
      rw [hname]; exact (hun.single dir.id).lookup hr hcopy.folder
    have hv' := toNat_checkedSucc hv
    refine coherent_write (v := (me i, v)) h hme hs (fun r' hr' => ?_) rfl ?_
      ⟨_, m.store.lookup_over hl (hid.trans hcopy.id) rfl ?_, ?_⟩
    · rw [hstored] at hr'
      cases hr'
      exact ⟨hcopy.folder, hname.symm⟩
    · -- The last counter is the last place.
      have hheld : (lineage (Function.update stores i m.store) sent).Holds (dir.id, f.getName) r.versions r.blocks :=
        Or.inl ⟨i, by rw [held_put, hl]; rfl⟩
      rw [hcopy.versions, List.getLast?_eq_getElem?] at hlast
      have hplace : last.2.toNat = r.versions.length - 1 := h.inv.placed _ _ _ hheld _ _ hlast
      have hpos := List.length_pos_iff.mpr (m.store.versions_ne_nil hr)
      rw [hl]
      show v.toNat = r.versions.length
      omega
    · rw [hvs]; simp
    · rw [hl]
      show Chain.extend r.versions f.versions = r.versions ++ _
      rw [hvs, hcopy.versions]
      exact Chain.extend_eq_iff.mpr (List.prefix_append _ _)
  | new f hx hscan hid =>
    obtain ⟨-, hpath, hvs⟩ := scanned_new sha256 hscan hx
    have hname : f.getName = file := by
      rw [getName_eq, hpath]; exact join_names_fileName (hun.named file List.mem_cons_self)
    have hl : m.store.lookup dir.id f.getName = none := by
      cases hl : m.store.lookup dir.id f.getName with
      | none => rfl
      | some r =>
        obtain ⟨hr, hfolder, hrn⟩ := m.store.lookup_some hl
        exact absurd (hrn.trans hname) (hun.free file List.mem_cons_self hx r hr hfolder)
    refine coherent_write (v := (me i, 0)) h hme hs (fun r hr => ?_) rfl ?_ ⟨_, m.store.lookup_added hl hid rfl ?_, ?_⟩
    · rw [m.store.stored_new hid] at hr; cases hr
    · rw [hl]; rfl
    · rw [hvs]; simp
    · rw [hl]
      show Chain.extend [] f.versions = _
      rw [hvs]; rfl

theorem coherent_generateIndex {n : Node} (hme : Function.Injective me)
    (h : Coherent me (Function.update stores i n.store) sent) (dir : SyncDirectory) :
    Coherent me (Function.update stores i (run nodeDo (generateIndex sha256 dir) n).1.store) sent := by
  rcases run_generateIndex_store sha256 dir n with hstore | ⟨path, files, -, hfiles, hstore⟩
  · rw [hstore]; exact h
  · obtain ⟨hs, hid⟩ := h.here
    rw [hstore, hid]
    let P : List Text → Scanning → Prop := fun files m =>
      Unscanned dir files m ∧ Coherent me (Function.update stores i m.store) sent
    suffices hend : ∃ rest, P rest (scanFiles sha256 n dir path (me i) files (.start n.store dir)).1 by
      obtain ⟨rest, -, hend⟩ := hend
      exact hend
    refine scanFiles_inv sha256 (fun file files m m' u _ hP hpass => ?_) files _ (scan_start n.store dir)
      ⟨unscanned_start hs dir hfiles, h⟩
    exact ⟨unscanned_pass sha256 hP.1 hpass, coherent_pass sha256 hme hP.1 hP.2 hpass⟩

/-- The files of a message that are left to merge, and the local copy's entries for them. -/
structure Unmerged (dir : SyncDirectory) (msg : Index) (files : List FileInfo) (m : Merging) : Prop where
  nodup : (files.map FileInfo.name).Nodup
  sub : ∀ info ∈ files, info ∈ msg.files
  copy : ∀ info ∈ files, m.localindex.find? (fun x => x.getName = info.name) =
    (m.store.lookup dir.id info.name).map Rec.file

theorem coherent_mergePass {dir : SyncDirectory} {msg : Index} {file : FileInfo} {files : List FileInfo} {m m' : Merging}
    {u : Option Unit} (hsent : sent msg) (hfolder : msg.folder = dir.id) (hun : Unmerged dir msg (file :: files) m)
    (h : Coherent me (Function.update stores i m.store) sent) (hpass : MergePass dir file m (m', u)) :
    Coherent me (Function.update stores i m'.store) sent := by
  have hs : Singles m.store := h.here.1
  have hcopy := hun.copy file List.mem_cons_self
  have hmem := hun.sub file List.mem_cons_self
  have hnormal := (h.named msg hsent).2 file hmem
  -- What the pass writes was said, and is not empty.
  have hwritten : ∀ f, incoming m.localindex file = some (some f) → f.getName = file.name →
      (lineage (Function.update stores i m.store) sent).said (dir.id, f.getName) f.versions (Tables.sortBlocks f.blocks) ∧
        f.blocks ≠ [] := by
    intro f hin hname
    obtain ⟨first, cs, hfirst, hcs, hvs, -, hblocks, -⟩ := incoming_cases hin
    refine ⟨⟨msg, hsent, hfolder, file, hmem, hname.symm, cs, hcs, hvs.symm, by rw [hblocks]⟩, ?_⟩
    rw [hblocks]
    intro hnil
    rw [List.map_eq_nil_iff.mp hnil] at hfirst
    cases hfirst
  cases hpass with
  | skip u => exact h
  | found f x r hx hmir hr hin htarget hstored hname =>
    have hrn : r.name = file.name := name_found hx hmir hr
    have hl : m.store.lookup dir.id f.getName = some r := by
      rw [hname]; exact (hs dir.id).lookup hr hmir.folder
    have hxr : x = r.file := by
      rw [hx, ← hrn, ← hname, hl] at hcopy
      exact Option.some.inj hcopy
    obtain ⟨hsaid, hblocks⟩ := hwritten f hin (hname.trans hrn)
    obtain ⟨first, cs, -, -, hlen, hvs, -, hid, -⟩ := incoming_found hin hx
    subst hxr
    have hlt : r.versions.length < f.versions.length := by
      rw [hvs, List.length_map]; exact hlen
    refine coherent_adopt h (single_over hs hr hmir.folder htarget hname) (fun r' hr' => ?_) hsaid ?_
      ⟨_, m.store.lookup_over hl hid rfl ?_, ?_, ?_⟩
    · rw [hstored] at hr'
      cases hr'
      exact ⟨hmir.folder, hname.symm⟩
    · rw [hl]; exact hlt
    · exact List.length_pos_iff.mp (by omega)
    · rw [hl]; rfl
    · simp only [Rec.write, Option.map_some, Option.getD_some]
      rw [if_neg]
      intro hor
      rcases hor with hor | hor
      · omega
      · exact hblocks hor
  | new f hx hin hid hv =>
    have hname : f.getName = file.name := by
      rw [getName_eq, (incoming_new hin hx).1, hnormal]
    have hl : m.store.lookup dir.id f.getName = none := by
      rw [hx] at hcopy
      rw [hname]; exact Option.map_eq_none_iff.mp hcopy.symm
    obtain ⟨hsaid, hblocks⟩ := hwritten f hin hname
    refine coherent_adopt h (single_updateSyncFile hs dir fun r hr hf hn => ?_) (fun r hr => ?_) hsaid ?_
      ⟨_, m.store.lookup_added hl hid rfl hv, ?_, ?_⟩
    · exact absurd hn (m.store.lookup_none hl r hr hf)
    · rw [m.store.stored_new hid] at hr; cases hr
    · rw [hl]; exact List.length_pos_iff.mpr hv
    · rw [hl]; rfl
    · simp only [Rec.write, Option.map_none, Option.getD_none, List.length_nil, Nat.not_lt_zero, false_or]
      rw [if_neg hblocks]

theorem unmerged_pass {dir : SyncDirectory} {msg : Index} {file : FileInfo} {files : List FileInfo} {m m' : Merging}
    {u : Option Unit} (hm : m.Aligned dir) (hnormal : ∀ info ∈ msg.files, normal info.name = info.name)
    (hun : Unmerged dir msg (file :: files) m) (hmerge : mergeFile dir file m = (m', u)) (hpass : MergePass dir file m (m', u)) :
    Unmerged dir msg files m' := by
  obtain ⟨hnd, hsub, hcopy⟩ := hun
  rw [List.map_cons, List.nodup_cons] at hnd
  refine ⟨hnd.2, fun info hi => hsub info (List.mem_cons_of_mem _ hi), fun info hi => ?_⟩
  have hrest := hcopy info (List.mem_cons_of_mem _ hi)
  have hne : normal file.name ≠ info.name := by
    rw [hnormal file (hsub file List.mem_cons_self)]
    exact fun he => hnd.1 (he ▸ List.mem_map_of_mem hi)
  have hbeside : u = some () → m'.store.lookup dir.id info.name = m.store.lookup dir.id info.name ∧
      m'.localindex.find? (fun x => x.getName = info.name) = m.localindex.find? fun x => x.getName = info.name := by
    intro hu
    rw [hu] at hmerge
    exact mergeFile_beside hm hne hmerge
  cases hpass with
  | skip u => exact hrest
  | found f x r hx hmir hr hin htarget hstored hname =>
    obtain ⟨h1, h2⟩ := hbeside rfl
    rw [h1, h2]; exact hrest
  | new f hx hin hid hv =>
    obtain ⟨h1, h2⟩ := hbeside rfl
    rw [h1, h2]; exact hrest

theorem coherent_handleIndex {n : Node} {msg : Index} (hsent : sent msg)
    (h : Coherent me (Function.update stores i n.store) sent) :
    Coherent me (Function.update stores i (run nodeDo (handleIndex msg.folder msg.files) n).1.store) sent := by
  cases hdir : n.store.getSyncDirectory msg.folder with
  | none => rw [run_handleIndex_unknown hdir]; exact h
  | some dir =>
    have hfolder : msg.folder = dir.id := (getSyncDirectory_id hdir).symm
    obtain ⟨hnd, hnormal⟩ := h.named msg hsent
    rw [(run_handleIndex_store hdir msg.files).1]
    let P : List FileInfo → Merging → Prop := fun files m =>
      Unmerged dir msg files m ∧ Coherent me (Function.update stores i m.store) sent
    suffices hend : ∃ rest, P rest (mergeFiles dir msg.files (.start n.store dir)).1 by
      obtain ⟨rest, -, hend⟩ := hend
      exact hend
    refine mergeFiles_inv (fun file files m m' u hm hP hmerge hpass => ?_) msg.files _ (aligned_start n.store dir)
      ⟨⟨hnd, fun _ hi => hi, fun info _ => n.store.find?_index dir.id info.name⟩, h⟩
    exact ⟨unmerged_pass hm hnormal hP.1 hmerge hpass, coherent_mergePass hsent hfolder hP.1 hP.2 hpass⟩

/-- The file is one of the folder's, as it is recorded or as it was with fewer versions. -/
def Recorded (s : Store) (dir : SyncDirectory) (file : SyncFile) : Prop :=
  ∃ r ∈ s.records, r.folder = dir.id ∧ file.id = some r.id ∧ file.getName = r.name ∧
    file.versions.length ≤ r.versions.length ∧
    (file.versions.length = r.versions.length → Tables.sortBlocks file.blocks = r.blocks)

/-- Recording such a file changes no history and no blocks. -/
theorem coherent_stamp {dir : SyncDirectory} {file : SyncFile} (h : Coherent me (Function.update stores i s) sent)
    (hrec : Recorded s dir file) :
    Coherent me (Function.update stores i (s.updateSyncFile dir (stamp file)).1) sent ∧
      Recorded (s.updateSyncFile dir (stamp file)).1 dir file := by
  by_cases hv : (stamp file).versions = []
  · rw [s.records_updateSyncFile_nil dir hv]; exact ⟨h, hrec⟩
  · obtain ⟨r, hr, hfolder, hid, hname, hlen, hblocks⟩ := hrec
    have hs : Singles s := h.here.1
    obtain ⟨htarget, hstored⟩ := s.stored_of_mem hr (f := stamp file) hid
    have hversions : (Rec.write (some r) r.id dir (stamp file)).versions = r.versions :=
      Chain.extend_of_length_le hlen
    have hsame : (Rec.write (some r) r.id dir (stamp file)).blocks = r.blocks := by
      simp only [Rec.write, Option.map_some, Option.getD_some]
      split
      · rfl
      · rename_i hlt
        refine hblocks ?_
        have : ¬ file.versions.length < r.versions.length := fun hlt' => hlt (Or.inl hlt')
        omega
    have hl : s.lookup dir.id r.name = some r := (hs dir.id).lookup hr hfolder
    refine ⟨coherent_same h (s.updateSyncFile_frame dir _).2.2.2 (single_over hs hr hfolder htarget hname)
      fun folder name => ?_, ?_⟩
    · by_cases hkey : dir.id = folder ∧ r.name = name
      · obtain ⟨hf, hn⟩ := hkey
        subst hf hn
        rw [s.lookup_over (f := stamp file) hl hid hname hv, hl, Option.map_some, Option.map_some, hversions, hsame]
      · rw [s.lookup_beside (f := stamp file) (fun hk => hkey ⟨hk.1, hname.symm.trans hk.2⟩) fun r' hr' hk => ?_]
        rw [hstored] at hr'
        cases hr'
        exact hkey ⟨hfolder.symm.trans hk.1, hk.2⟩
    · refine ⟨_, (s.mem_updateSyncFile_target dir hv rfl).mpr rfl, rfl, ?_, rfl, ?_⟩
      · rw [hid, ← htarget]; rfl
      · rw [hstored, htarget, hversions, hsame]; exact ⟨hlen, hblocks⟩

theorem coherent_getFile {n : Node} (h : Coherent me (Function.update stores i n.store) sent) {dir : SyncDirectory}
    {file : SyncFile} (hrec : Recorded n.store dir file) :
    Coherent me (Function.update stores i (run nodeDo (getFile sha256 dir file) n).1.store) sent := by
  obtain ⟨k, -, hstore, -⟩ := fetched_getFile sha256 dir file n
  have hall : ∀ (k : Nat) (s : Store), Coherent me (Function.update stores i s) sent → Recorded s dir file →
      Coherent me (Function.update stores i (stampTimes dir file k s)) sent := by
    intro k
    induction k with
    | zero => intro s h _; exact h
    | succ k ih =>
      intro s h hrec
      obtain ⟨h', hrec'⟩ := coherent_stamp h hrec
      exact ih _ h' hrec'
  rw [hstore]
  exact hall k n.store h hrec

omit [DecidableEq ι] in
/-- Messages that say what is recorded. -/
theorem coherent_post {n : Node} {conn : Conn} {msgs : List Index} (h : Coherent me stores sent) (hn : stores i = n.store)
    (hset : Settled sha256 n conn)
    (hposted : ∀ m ∈ msgs, ∃ peer ∈ n.store.peers, conn.peerId = some (peer.deviceId.getD []) ∧
      Posted sha256 n peer n.store.getSyncDirectories m) :
    Coherent me stores fun m => sent m ∨ m ∈ msgs := by
  have hs := h.single i
  rw [hn] at hs
  refine ⟨h.shortIds, h.single, fun m hm => ?_, Lineage.inv_say h.inv (fun _ _ => rfl) fun k vs g hsaid => ?_⟩
  · rcases hm with hm | hm
    · exact h.named m hm
    · obtain ⟨peer, -, -, dir, -, -, -, hall⟩ := hposted m hm
      obtain ⟨hnames, hall⟩ := announces_all sha256 hall
      refine ⟨by rw [hnames]; exact (hs dir.id).nodup_names, fun info hi => ?_⟩
      obtain ⟨x, -, hname, -⟩ := hall info hi
      rw [hname, getName_eq]; exact normal_normal _
  · obtain ⟨m, hm, hfolder, info, hi, hname, cs, hcs, hvs, hg⟩ := hsaid
    rcases hm with hm | hm
    · exact Or.inl ⟨m, hm, hfolder, info, hi, hname, cs, hcs, hvs, hg⟩
    · obtain ⟨peer, hpeer, hconn, dir, hdir, hsynced, hdirId, hall⟩ := hposted m hm
      obtain ⟨x, hx, hxname, hxvs, blocks, hblocks, hinfo⟩ := (announces_all sha256 hall).2 info hi
      obtain ⟨r, hr, hrx⟩ := List.mem_map.mp hx
      obtain ⟨hr, hrf⟩ := List.mem_filter.mp hr
      have hrf : r.folder = dir.id := by simpa using hrf
      subst hrx
      -- The file is the record, and so are its blocks.
      have hrb : blocks = r.blocks := hset peer hpeer hconn dir hdir hsynced r hr hrf blocks hblocks
      refine Or.inr ⟨i, ?_⟩
      rw [n.store.getName_file hr] at hxname
      have hl : (stores i).lookup k.1 k.2 = some r := by
        rw [hn, ← hfolder, hdirId, ← hname, hxname]; exact (hs dir.id).lookup hr hrf
      have hvs' : vs = r.versions := by
        rw [hcs] at hxvs
        cases hxvs
        rw [← hvs, List.map_map]
        exact List.map_id' r.versions
      have hg' : g = r.blocks := by
        rw [← hg, hinfo, List.map_map, hrb]
        refine Eq.trans (congrArg Tables.sortBlocks ?_) (n.store.sortBlocks_blocks hr)
        exact List.map_id' r.blocks
      simp only [lineage, hl, Option.map_some, hvs', hg']

end Lineage

/-! ## Every run -/

/-- Posts no index. -/
def Silent : Op → Prop
  | .sys (.submitMessage (.index _)) => False
  | _ => True

theorem silent_rules : Rules Silent (fun _ _ => True) (fun _ => True) (fun _ => True) fun _ => True where
  quiet o ho := by
    cases o with
    | db o => trivial
    | sys o => cases o <;> trivial
  read _ _ _ _ _ := trivial
  listed _ _ _ _ _ := trivial
  record _ _ _ := trivial
  scanned _ _ _ _ _ := trivial
  rescanned _ _ _ _ _ _ _ _ _ := trivial
  received _ _ _ _ _ _ := trivial
  fetched _ _ := trivial

theorem silent_nodeDo {m : Index} (n : Node) {o : Op} (ho : Silent o) (hm : Message.index m ∉ n.sent) :
    Message.index m ∉ (nodeDo n o).1.sent := by
  cases o with
  | db o => exact hm
  | sys o =>
    have hadd : ∀ x : Message, x ≠ .index m → Message.index m ∉ n.sent ++ [x] := by
      intro x hx hmem
      rcases List.mem_append.mp hmem with hmem | hmem
      · exact hm hmem
      · exact hx (List.mem_singleton.mp hmem).symm
    cases o with
    | writeBlock url offset data => exact (n.writeBlock_frame url offset data).2.2.symm ▸ hm
    | readBlock url offset len =>
      show Message.index m ∉ (n.readBlock url offset len).1.sent
      rcases n.readBlock_frame url offset len with h | h
      · rw [h]; exact hm
      · rw [h]; exact hm
    | submitMessage x =>
      cases x with
      | index m' => exact absurd ho id
      | request r => exact hadd _ (by simp)
      | response r => exact hadd _ (by simp)
    | submitRequest r =>
      rw [nodeDo_submitRequest]
      exact hadd _ (by simp)
    | _ => exact hm

theorem sent_getFile (n : Node) (directory : SyncDirectory) (file : SyncFile) {m : Index}
    (h : Message.index m ∈ (run nodeDo (getFile sha256 directory file) n).1.sent) : Message.index m ∈ n.sent := by
  by_contra hm
  refine absurd h (run_ok (fun n' o hn' ho => ⟨silent_nodeDo n' ho hn', fun _ _ => trivial⟩)
    (silent_rules.ok_getFile sha256 (fun _ _ _ _ _ _ => trivial) trivial) hm)

theorem sent_generateIndex (n : Node) (dir : SyncDirectory) :
    (run nodeDo (generateIndex sha256 dir) n).1.sent = n.sent := by
  rw [run_generateIndex]
  cases dir.path with
  | none => rfl
  | some path =>
    simp only
    cases n.readDir path <;> rfl

theorem sent_handleIndex (n : Node) (folder : Text) (files : List FileInfo) :
    (run nodeDo (handleIndex folder files) n).1.sent = n.sent := by
  rw [run_handleIndex]
  cases n.store.getSyncDirectory folder with
  | none => rfl
  | some dir =>
    simp only
    cases (mergeFiles dir files (.start n.store dir)).2 <;> rfl

variable {ι : Type} [DecidableEq ι]

/-- The states nodes reach from empty stores by calls, each run to its end. Between two calls
    anything but the records, the short ids and the messages may change. A guarded run has
    nodes of different short ids; it announces files while they are as recorded, and fetches
    files of the index. -/
inductive Steps (guarded : Bool) : (ι → Node) → Prop
  | init {ns : ι → Node} : (∀ i, (ns i).store.records = [] ∧ (ns i).sent = []) →
      (guarded = true → Function.Injective fun i => (ns i).store.shortId) → Steps guarded ns
  | outside {ns : ι → Node} (i : ι) (n : Node) : Steps guarded ns → n.store.records = (ns i).store.records →
      n.store.shortId = (ns i).store.shortId → n.sent = (ns i).sent → Steps guarded (Function.update ns i n)
  | generateIndex {ns : ι → Node} (i : ι) (dir : SyncDirectory) : Steps guarded ns →
      Steps guarded (Function.update ns i (run nodeDo (generateIndex sha256 dir) (ns i)).1)
  | sendIndex {ns : ι → Node} (i : ι) (conn : Conn) : Steps guarded ns →
      (guarded = true → Settled sha256 (ns i) conn) →
      Steps guarded (Function.update ns i (run nodeDo (sendIndex sha256 conn) (ns i)).1)
  | handleIndex {ns : ι → Node} (i j : ι) (m : Index) : Steps guarded ns → Message.index m ∈ (ns j).sent →
      Steps guarded (Function.update ns i (run nodeDo (handleIndex m.folder m.files) (ns i)).1)
  | getFile {ns : ι → Node} (i : ι) (dir : SyncDirectory) (file : SyncFile) : Steps guarded ns →
      (guarded = true → Recorded (ns i).store dir file) →
      Steps guarded (Function.update ns i (run nodeDo (getFile sha256 dir file) (ns i)).1)

/-- The nodes' records and messages are coherent. -/
def NodesCoherent (me : ι → UInt64) (ns : ι → Node) : Prop :=
  Coherent me (fun i => (ns i).store) fun m => ∃ i, Message.index m ∈ (ns i).sent

/-- One node replaced. -/
theorem coherent_node (sent : Index → Prop) {me : ι → UInt64} {ns : ι → Node} {i : ι} {n : Node}
    (h : Coherent me (Function.update (fun i => (ns i).store) i n.store) sent)
    (hold : ∀ m j, Message.index m ∈ (ns j).sent → sent m) (hnew : ∀ m, Message.index m ∈ n.sent → sent m) :
    NodesCoherent me (Function.update ns i n) := by
  have hstores : (fun j => (Function.update ns i n j).store) = Function.update (fun i => (ns i).store) i n.store :=
    funext fun j => Function.apply_update (fun _ n => n.store) ns i n j
  have hsent : ∀ m, (∃ j, Message.index m ∈ (Function.update ns i n j).sent) → sent m := by
    intro m hm
    obtain ⟨j, hj⟩ := hm
    by_cases hji : j = i
    · subst hji
      rw [Function.update_self] at hj
      exact hnew m hj
    · rw [Function.update_of_ne hji] at hj
      exact hold m j hj
  rw [NodesCoherent, hstores]
  refine ⟨h.shortIds, h.single, fun m hm => h.named m (hsent m hm), Lineage.inv_say h.inv (fun _ _ => rfl) ?_⟩
  intro k vs g hsaid
  obtain ⟨m, hm, hrest⟩ := hsaid
  exact Or.inl ⟨m, hsent m hm, hrest⟩

/-- One node replaced, by one that has posted nothing more. -/
theorem coherent_quiet {me : ι → UInt64} {ns : ι → Node} {i : ι} {n : Node}
    (h : Coherent me (Function.update (fun i => (ns i).store) i n.store) fun m => ∃ i, Message.index m ∈ (ns i).sent)
    (hsent : ∀ m, Message.index m ∈ n.sent → Message.index m ∈ (ns i).sent) :
    NodesCoherent me (Function.update ns i n) :=
  coherent_node _ h (fun _ j hm => ⟨j, hm⟩) fun m hm => ⟨i, hsent m hm⟩

theorem NodesCoherent.at {me : ι → UInt64} {ns : ι → Node} (h : NodesCoherent me ns) (i : ι) :
    Coherent me (Function.update (fun i => (ns i).store) i (ns i).store) fun m => ∃ i, Message.index m ∈ (ns i).sent := by
  rw [Function.update_eq_self]; exact h

omit [DecidableEq ι] in
/-- Nothing is recorded or said yet. -/
theorem coherent_init {ns : ι → Node} (h : ∀ i, (ns i).store.records = [] ∧ (ns i).sent = []) :
    NodesCoherent (fun i => (ns i).store.shortId) ns := by
  have hnone : ∀ k vs g, ¬ (lineage (fun i => (ns i).store) fun m => ∃ i, Message.index m ∈ (ns i).sent).Holds k vs g := by
    intro k vs g hv
    rcases hv with ⟨i, hi⟩ | ⟨m, ⟨i, hm⟩, -⟩
    · simp [lineage, Store.lookup, (h i).1] at hi
    · rw [(h i).2] at hm; cases hm
  refine ⟨fun _ => rfl, fun i folder r hr => ?_, fun m hm => ?_, fun k vs g hv => absurd hv (hnone k vs g),
    fun k vs g hv => absurd hv (hnone k vs g), fun k vs g _ _ hv => absurd hv (hnone k vs g)⟩
  · rw [(h i).1] at hr; cases hr
  · obtain ⟨i, hm⟩ := hm
    rw [(h i).2] at hm; cases hm

theorem coherent_steps {ns : ι → Node} (h : Steps sha256 true ns) : ∃ me, Function.Injective me ∧ NodesCoherent me ns := by
  induction h with
  | init hempty hids => exact ⟨_, hids rfl, coherent_init hempty⟩
  | @outside ns i n _ hrecords hid hsent ih =>
    obtain ⟨me, hme, h⟩ := ih
    refine ⟨me, hme, coherent_quiet (coherent_same (h.at i) hid (singles_congr hrecords (h.single i)) ?_) ?_⟩
    · intro folder name
      rw [Store.lookup, hrecords]; rfl
    · intro m hm
      rw [← hsent]; exact hm
  | @generateIndex ns i dir _ ih =>
    obtain ⟨me, hme, h⟩ := ih
    refine ⟨me, hme, coherent_quiet (coherent_generateIndex sha256 hme (h.at i) dir) fun m hm => ?_⟩
    rw [sent_generateIndex] at hm; exact hm
  | @sendIndex ns i conn _ hset ih =>
    obtain ⟨me, hme, h⟩ := ih
    obtain ⟨msgs, hrun, hposted⟩ := run_sendIndex sha256 conn (ns i)
    refine ⟨me, hme, coherent_node (fun m => (∃ i, Message.index m ∈ (ns i).sent) ∨ m ∈ msgs) ?_
      (fun m j hm => Or.inl ⟨j, hm⟩) fun m hm => ?_⟩
    · rw [hrun, Function.update_eq_self]
      exact coherent_post sha256 h rfl (hset rfl) hposted
    · rw [hrun] at hm
      rcases List.mem_append.mp hm with hm | hm
      · exact Or.inl ⟨i, hm⟩
      · obtain ⟨m', hm', heq⟩ := List.mem_map.mp hm
        cases heq
        exact Or.inr hm'
  | @handleIndex ns i j m _ hm ih =>
    obtain ⟨me, hme, h⟩ := ih
    refine ⟨me, hme, coherent_quiet (coherent_handleIndex ⟨j, hm⟩ (h.at i)) fun m' hm' => ?_⟩
    rw [sent_handleIndex] at hm'; exact hm'
  | @getFile ns i dir file _ hrec ih =>
    obtain ⟨me, hme, h⟩ := ih
    exact ⟨me, hme, coherent_quiet (coherent_getFile sha256 (h.at i) (hrec rfl)) fun m hm =>
      sent_getFile sha256 (ns i) dir file hm⟩

/-- In every guarded run, nodes that store one history for a name of a folder store the same
    blocks for it. -/
theorem agreement {ns : ι → Node} (h : Steps sha256 true ns) (i j : ι) :
    ∀ r ∈ (ns i).store.records, ∀ r' ∈ (ns j).store.records, r.folder = r'.folder → r.name = r'.name →
      r.versions = r'.versions → r.blocks = r'.blocks := by
  intro r hr r' hr' hfolder hname hvs
  obtain ⟨me, -, hc⟩ := coherent_steps sha256 h
  have hheld : ∀ i, ∀ r ∈ (ns i).store.records,
      (lineage (fun i => (ns i).store) fun m => ∃ i, Message.index m ∈ (ns i).sent).Holds (r.folder, r.name) r.versions
        r.blocks := by
    intro i r hr
    refine Or.inl ⟨i, ?_⟩
    simp only [lineage, (hc.single i r.folder).lookup hr rfl, Option.map_some]
  have h1 := hheld i r hr
  have h2 := hheld j r' hr'
  rw [← hfolder, ← hname] at h2
  exact hc.inv.agree _ _ _ _ _ h1 h2 ((ns i).store.versions_ne_nil hr) (by rw [hvs])

/-- A node that shares the directory of the file with the peer. -/
def shareNode (shortId : UInt64) (data : Bytes) : Node :=
  { fileNode data with
    store := Store.empty [⟨['d'], ['d'], some ['/', 'd']⟩] [⟨1, some peerHash, ['p']⟩] [⟨['d'], 1⟩] shortId }

/-- Two nodes; the first has indexed its file. -/
def shareIndexed : Bool → Node :=
  Function.update (fun b => shareNode (if b then 7 else 9) fileContents) true
    (run nodeDo (generateIndex fileSha fileDir) (shareNode 7 fileContents)).1

/-- The first announces the file and the second merges it. -/
def shareMerged (ns : Bool → Node) (m : Index) : Bool → Node :=
  let sent := Function.update ns true (run nodeDo (sendIndex fileSha ⟨some peerHash⟩) (ns true)).1
  Function.update sent false (run nodeDo (handleIndex m.folder m.files) (sent false)).1

theorem steps_shareIndexed (guarded : Bool) : Steps fileSha guarded shareIndexed := by
  refine .generateIndex true fileDir (.init (fun b => ?_) fun _ => ?_)
  · cases b <;> exact ⟨rfl, rfl⟩
  · intro b b' h
    cases b <;> cases b'
    · rfl
    · exact absurd h (by decide +kernel)
    · exact absurd h (by decide +kernel)
    · rfl

def fileAnnounced (data : Bytes) : Index :=
  ⟨['d'], [⟨['f'], 0, some [⟨7, 0⟩], [⟨0, data.length, fileSha data⟩]⟩]⟩

theorem agreement_merged : Steps fileSha true (shareMerged shareIndexed (fileAnnounced fileContents)) ∧
    ∃ r ∈ (shareMerged shareIndexed (fileAnnounced fileContents) true).store.records,
      ∃ r' ∈ (shareMerged shareIndexed (fileAnnounced fileContents) false).store.records,
      r.folder = r'.folder ∧ r.name = r'.name ∧ r.versions = [(7, 0)] ∧ r'.versions = [(7, 0)] ∧ r.blocks = r'.blocks := by
  have hsteps : Steps fileSha true (shareMerged shareIndexed (fileAnnounced fileContents)) := by
    refine .handleIndex false true _ (.sendIndex true ⟨some peerHash⟩ (steps_shareIndexed true) fun _ => ?_) (by decide +kernel)
    have hall : ∀ r ∈ (shareIndexed true).store.records, ∀ dir ∈ (shareIndexed true).store.getSyncDirectories,
        blocksAt fileSha (shareIndexed true) dir r.name = some r.blocks := by decide +kernel
    intro peer _ _ dir hdir _ r hr _ blocks hblocks
    rw [hall r hr dir hdir] at hblocks
    exact (Option.some.inj hblocks).symm
  refine ⟨hsteps, ⟨1, ['d'], ['f'], fileHash, 7, 0, [(7, 0)], [⟨0, 11, fileHash⟩]⟩, by decide +kernel,
    ⟨1, ['d'], ['f'], fileHash, 0, 0, [(7, 0)], [⟨0, 11, fileHash⟩]⟩, by decide +kernel, rfl, rfl, rfl, rfl, ?_⟩
  exact agreement fileSha hsteps true false _ (by decide +kernel) _ (by decide +kernel) rfl rfl rfl

/-- The first node's file, edited after it was indexed. -/
def shareEdited : Bool → Node :=
  Function.update shareIndexed true { shareIndexed true with disk := fileDisk fileContents2 }

/-- A file edited between `generate_index` and `send_index`: its history goes out with the
    blocks of the edited file. -/
theorem disagreement : ∃ ns : Bool → Node, Steps fileSha false ns ∧ (ns true).store.shortId ≠ (ns false).store.shortId ∧
    ∃ r ∈ (ns true).store.records, ∃ r' ∈ (ns false).store.records, r.folder = r'.folder ∧ r.name = r'.name ∧
      r.versions = r'.versions ∧ r.blocks ≠ r'.blocks := by
  refine ⟨shareMerged shareEdited (fileAnnounced fileContents2), ?_, by decide +kernel, by decide +kernel⟩
  refine .handleIndex false true _ (.sendIndex true ⟨some peerHash⟩ (.outside true _ (steps_shareIndexed false) rfl rfl rfl) ?_)
    (by decide +kernel)
  intro h; cases h

end BepRs.History
