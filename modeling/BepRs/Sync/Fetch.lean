/-
  BepRs.Sync.Fetch — `get_file` and `get_directory` run on a node.

  `get_file` asks for one block after another (`fetchBlock`). A block that arrives and
  verifies is written and the file recorded, stamped with its latest version as the synced
  one (`stamp`); anything else ends the loop. `fetchBlock_cases` says what one block does
  to the store, `fetchBlock_ok` when it is recorded: that depends on the answer and on the
  disk only, and once one block of a file is on the disk only on the answers
  (`writable_of_writeBlock`).

  - `fetched_getFile`: the store after a run is that of some number of such recordings.
  - `fetches_getDirectory`: a run of `get_directory` is a sequence of runs of `get_file`,
    each on a file of the directory as it is stored at that moment.
-/

import BepRs.Sync.Generate

namespace BepRs.Sync

open BepRs.Lib BepRs.Lib.Path BepRs.Lib.Task BepRs.State

variable (sha256 : Bytes → Bytes)

/-- The file as `get_file` records it. -/
def stamp (f : SyncFile) : SyncFile := { f with syncedVersion := f.getIndexVersion }

/-! ## One block -/

/-- One pass of the loop over the blocks. -/
def fetchBlock (directory : SyncDirectory) (syncFile : SyncFile) (messageId : Int) (i : Nat) (block : SyncBlock) :
    BepProg (Except PeerCommandError Unit) := do
  let message ← sys (.submitRequest
    { id := messageId, folder := directory.id, name := syncFile.getName, offset := block.offset, size := block.size,
      hash := block.hash, blockNo := i })
  match message with
  | .error e => .ret (.error e)
  | .ok (.response response) =>
    match ErrorCode.fromI32 response.code with
    | some .noError =>
      if sha256 response.data ≠ block.hash then .ret (.error .invalidFile)
      else
        match directory.path with
        | none => .ret (.error (.other "Requesting file from non-synced directory"))
        | some path => do
          sys (.writeBlock (push path syncFile.getName) (asUsize block.offset) response.data)
          db (.updateSyncFile directory (stamp syncFile))
          .ret (.ok ())
    | some .noSuchFile => .ret (.error .noSuchFile)
    | some .invalidFile => .ret (.error .invalidFile)
    | some .generic => .ret (.error (.other "Generic Error"))
    | none => .ret (.error (.other ("Invalid error code received: " ++ toString response.code)))
  | .ok (.error e) => .ret (.error (.other ("Received an error while getting file: " ++ e.text)))
  | .ok .closed => .ret (.error .connectionClosed)
  | .ok .sent =>
    .ret (.error (.other "Got error on file request, and I don't know how to handle errors."))

theorem getBlocksFrom_cons (dir : SyncDirectory) (f : SyncFile) (messageId : Int) (i : Nat) (block : SyncBlock)
    (rest : List SyncBlock) :
    getBlocksFrom sha256 dir f messageId i (block :: rest) = (do
      match ← fetchBlock sha256 dir f messageId i block with
      | .error e => .ret (.error e)
      | .ok () => getBlocksFrom sha256 dir f messageId (i + 1) rest) := by
  rw [getBlocksFrom, fetchBlock]
  refine congrArg (Prog.ask (S := bep) _) (funext fun message => ?_)
  cases message with
  | error e => rfl
  | ok m =>
    cases m with
    | error e => rfl
    | sent => rfl
    | closed => rfl
    | response r =>
      simp only [Prog.bind]
      cases ErrorCode.fromI32 r.code with
      | none => rfl
      | some c =>
        cases c with
        | noError =>
          simp only
          split
          · rfl
          · cases dir.path with
            | none => rfl
            | some path => rfl
        | generic => rfl
        | noSuchFile => rfl
        | invalidFile => rfl

/-- The node after a request was queued and answered. -/
def Node.asked (n : Node) (r : Request) : Node := { n with sent := n.sent ++ [.request r], wire := n.wire.tail }

def Node.answer (n : Node) : Except PeerCommandError PeerRequestResponse := n.wire.headD (.ok .closed)

theorem nodeDo_submitRequest (n : Node) (r : Request) :
    nodeDo n (.sys (.submitRequest r)) = (n.asked r, some n.answer) := by
  cases hw : n.wire with
  | nil => simp [nodeDo, Node.sysDo, Node.asked, Node.answer, hw]
  | cons a rest => simp [nodeDo, Node.sysDo, Node.asked, Node.answer, hw]

/-- The answer has the block: no error, and data with the block's hash. -/
def Brings (a : Except PeerCommandError PeerRequestResponse) (block : SyncBlock) (data : Bytes) : Prop :=
  ∃ r : Response, a = .ok (.response r) ∧ ErrorCode.fromI32 r.code = some .noError ∧ sha256 r.data = block.hash ∧
    r.data = data

theorem fetchBlock_ok {dir : SyncDirectory} {f : SyncFile} {messageId : Int} {i : Nat} {block : SyncBlock} {n n' : Node}
    {data : Bytes} {path : Text} {r : Request}
    (hr : r = ⟨messageId, dir.id, f.getName, block.offset, block.size, block.hash, i⟩)
    (hb : Brings sha256 n.answer block data) (hpath : dir.path = some path)
    (hw : (n.asked r).writeBlock (push path f.getName) (asUsize block.offset) data = (n', some ())) :
    run nodeDo (fetchBlock sha256 dir f messageId i block) n =
      ({ n' with store := (n.store.updateSyncFile dir (stamp f)).1 },
        (n.store.updateSyncFile dir (stamp f)).2.map fun _ => .ok ()) := by
  obtain ⟨resp, ha, hcode, hhash, hdata⟩ := hb
  subst hdata
  have hstore : n'.store = n.store := by
    have := (Node.writeBlock_frame (n.asked r) (push path f.getName) (asUsize block.offset) resp.data).1
    rw [hw] at this; exact this
  have hask := nodeDo_submitRequest n r
  rw [ha] at hask
  have hwrite : nodeDo (n.asked r) (.sys (.writeBlock (push path f.getName) (asUsize block.offset) resp.data)) =
      (n', some ()) := hw
  have hupdate : nodeDo n' (.db (.updateSyncFile dir (stamp f))) =
      ({ n' with store := (n.store.updateSyncFile dir (stamp f)).1 }, (n.store.updateSyncFile dir (stamp f)).2) := by
    rw [← hstore]; rfl
  subst hr
  unfold fetchBlock
  rw [run_call_some hask]
  simp only [hcode, hhash, hpath, ne_eq, not_true_eq_false, if_false]
  refine (run_call_some hwrite).trans ?_
  cases hu : (n.store.updateSyncFile dir (stamp f)).2 with
  | none => rw [hu] at hupdate; exact run_call_none hupdate
  | some u => rw [hu] at hupdate; exact run_call_some hupdate

/-- What one block does: it fails and the store stays, or it is written and recorded. -/
theorem fetchBlock_cases (dir : SyncDirectory) (f : SyncFile) (messageId : Int) (i : Nat) (block : SyncBlock) (n : Node) :
    ((run nodeDo (fetchBlock sha256 dir f messageId i block) n).1.store = n.store ∧
        (run nodeDo (fetchBlock sha256 dir f messageId i block) n).2 ≠ some (.ok ())) ∨
      ∃ n' data path, dir.path = some path ∧ Brings sha256 n.answer block data ∧
        (n.asked ⟨messageId, dir.id, f.getName, block.offset, block.size, block.hash, i⟩).writeBlock
          (push path f.getName) (asUsize block.offset) data = (n', some ()) ∧
        run nodeDo (fetchBlock sha256 dir f messageId i block) n =
          ({ n' with store := (n.store.updateSyncFile dir (stamp f)).1 },
            (n.store.updateSyncFile dir (stamp f)).2.map fun _ => .ok ()) := by
  by_cases hgood : ∃ data path n', dir.path = some path ∧ Brings sha256 n.answer block data ∧
      (n.asked ⟨messageId, dir.id, f.getName, block.offset, block.size, block.hash, i⟩).writeBlock
        (push path f.getName) (asUsize block.offset) data = (n', some ())
  · obtain ⟨data, path, n', hpath, hb, hw⟩ := hgood
    exact Or.inr ⟨n', data, path, hpath, hb, hw, fetchBlock_ok sha256 rfl hb hpath hw⟩
  · refine Or.inl ?_
    have hask := nodeDo_submitRequest n ⟨messageId, dir.id, f.getName, block.offset, block.size, block.hash, i⟩
    unfold fetchBlock
    rw [run_call_some hask]
    split <;> try exact ⟨rfl, by simp⟩
    rename_i resp hresp
    split <;> try exact ⟨rfl, by simp⟩
    rename_i hcode
    split
    · exact ⟨rfl, by simp⟩
    rename_i hhash
    have hb : Brings sha256 n.answer block resp.data := ⟨resp, hresp, hcode, by simpa using hhash, rfl⟩
    cases hpath : dir.path with
    | none => exact ⟨rfl, by simp⟩
    | some path =>
      simp only
      rcases hw : (n.asked ⟨messageId, dir.id, f.getName, block.offset, block.size, block.hash, i⟩).writeBlock
        (push path f.getName) (asUsize block.offset) resp.data with ⟨n', _ | u⟩
      · have hwrite : nodeDo (n.asked ⟨messageId, dir.id, f.getName, block.offset, block.size, block.hash, i⟩)
            (.sys (.writeBlock (push path f.getName) (asUsize block.offset) resp.data)) = (n', none) := hw
        rw [run_call_none hwrite]
        refine ⟨?_, by simp⟩
        have := (Node.writeBlock_frame (n.asked ⟨messageId, dir.id, f.getName, block.offset, block.size, block.hash, i⟩)
          (push path f.getName) (asUsize block.offset) resp.data).1
        rw [hw] at this; exact this
      · exact absurd ⟨resp.data, path, n', hpath, hb, hw⟩ hgood

/-! ## Writing again -/

theorem node_setFile_of_ne (d : Disk) {p q : List Text} (h : p ≠ q) (data : Bytes) : (d.setFile q data).node p = d.node p := by
  unfold Disk.setFile
  split
  · unfold Disk.node
    split
    · rfl
    · congr 1
      unfold Keyed.row
      rw [← List.head?_filter, ← List.head?_filter, Keyed.filter_upsert_of_neg]
      · simpa using Ne.symm h
      · intro y _ hy
        have : y.1 = q := hy
        simpa [this] using Ne.symm h
  · rfl

theorem node_setFile_self (d : Disk) {q : List Text} (hq : q ≠ []) (hnamed : ∀ s ∈ q, FileName s) (data : Bytes) :
    (d.setFile q data).node q = some (.file data) := by
  have hmem : (q, FNode.file data) ∈ (d.setFile q data).entries := by
    unfold Disk.setFile
    rw [dif_pos hnamed]
    exact (Keyed.mem_upsert _ d.nodup).mpr (Or.inl rfl)
  rw [Disk.node, if_neg hq, Keyed.row_of_mem Prod.fst (d.setFile q data).nodup hmem]; rfl

/-- A file is on the way to no place, written or not. -/
theorem walk_setFile (d : Disk) {q : List Text} (hq : q ≠ []) (hnamed : ∀ s ∈ q, FileName s) (hdir : d.node q ≠ some .dir)
    (data : Bytes) : ∀ (cs : List Component) (l : List Text), (d.setFile q data).walk l cs = d.walk l cs := by
  intro cs
  induction cs with
  | nil => intro l; rfl
  | cons c cs ih =>
    intro l
    have hnode : (d.setFile q data).node l = some .dir ↔ d.node l = some .dir := by
      by_cases hl : l = q
      · subst hl
        rw [node_setFile_self d hq hnamed]
        exact ⟨fun h => (by cases h), fun h => absurd h hdir⟩
      · rw [node_setFile_of_ne d hl]
    simp only [Disk.walk, hnode, ih]

/-- Where a block was written, the next one can be. -/
theorem openWrite_setFile {n : Node} {url : Text} {q : List Text} {old : Bytes} (h : n.openWrite url = some (q, old))
    (data : Bytes) : { n with disk := n.disk.setFile q data }.openWrite url = some (q, data) := by
  unfold Node.openWrite at h
  cases hloc : n.disk.locate n.cwd url with
  | none => rw [hloc] at h; cases h
  | some q' =>
    rw [hloc] at h
    simp only at h
    have hq' : q' = q ∧ n.disk.node q ≠ some .dir := by
      cases hnode : n.disk.node q' with
      | none =>
        rw [hnode] at h
        simp only at h
        split at h
        · cases h; exact ⟨rfl, by rw [hnode]; simp⟩
        · cases h
      | some x =>
        rw [hnode] at h
        cases x with
        | file d => cases h; exact ⟨rfl, by rw [hnode]; simp⟩
        | dir => cases h
    obtain ⟨rfl, hdir⟩ := hq'
    have hne : q' ≠ [] := by
      intro he
      rw [he] at hdir
      exact hdir (by simp [Disk.node])
    have hnamed := n.disk.locate_named n.cwd_named hloc
    have hself := node_setFile_self n.disk hne hnamed data
    have hloc' : (n.disk.setFile q' data).locate n.cwd url = some q' := by
      unfold Disk.locate at hloc ⊢
      rw [walk_setFile n.disk hne hnamed hdir]
      cases hw : n.disk.walk n.cwd (components url) with
      | none => rw [hw] at hloc; cases hloc
      | some q₁ =>
        rw [hw] at hloc
        simp only at hloc ⊢
        split at hloc
        · cases hloc
        · rename_i hok
          cases hloc
          rw [if_neg]
          intro hbad
          refine hok ?_
          rcases hbad with hbad | hbad
          · exact Or.inl hbad
          · exact Or.inr ⟨hbad.1, hdir⟩
    simp only [Node.openWrite, hloc', hself]

def Writable (n : Node) (url : Text) : Prop := n.poisoned = false ∧ ∃ q old, n.openWrite url = some (q, old)

/-- What a write that succeeds found and left. -/
theorem writeBlock_eq_some {n n' : Node} {url : Text} {offset : Nat} {data : Bytes} :
    n.writeBlock url offset data = (n', some ()) ↔ n.poisoned = false ∧ Node.seekable offset = true ∧
      ∃ q old, n.openWrite url = some (q, old) ∧ n' = { n with disk := n.disk.setFile q (overlay old offset data) } := by
  constructor
  · intro h
    unfold Node.writeBlock at h
    split at h
    · cases h
    rename_i hpoison
    split at h
    · rename_i q old hopen
      split at h
      · rename_i hseek
        cases h
        exact ⟨by simpa using hpoison, hseek, q, old, hopen, rfl⟩
      · cases h
    · cases h
  · rintro ⟨hpoison, hseek, q, old, hopen, rfl⟩
    rw [Node.writeBlock, hpoison, hopen]
    simp only [hseek, Bool.false_eq_true, if_false, if_true]

theorem writable_of_returns {n n' : Node} {url : Text} {offset : Nat} {data : Bytes}
    (h : n.writeBlock url offset data = (n', some ())) : Writable n url ∧ Node.seekable offset = true := by
  obtain ⟨hpoison, hseek, q, old, hopen, -⟩ := writeBlock_eq_some.mp h
  exact ⟨⟨hpoison, q, old, hopen⟩, hseek⟩

theorem writable_of_writeBlock {n n' : Node} {url : Text} {offset : Nat} {data : Bytes}
    (h : n.writeBlock url offset data = (n', some ())) : Writable n' url := by
  obtain ⟨hpoison, -, q, old, hopen, rfl⟩ := writeBlock_eq_some.mp h
  exact ⟨hpoison, q, _, openWrite_setFile hopen _⟩

theorem writeBlock_of_writable {n : Node} {url : Text} (h : Writable n url) {offset : Nat}
    (hseek : Node.seekable offset = true) (data : Bytes) : ∃ n', n.writeBlock url offset data = (n', some ()) := by
  obtain ⟨hpoison, q, old, hopen⟩ := h
  exact ⟨_, writeBlock_eq_some.mpr ⟨hpoison, hseek, q, old, hopen, rfl⟩⟩

/-! ## A file -/

/-- The store after the file was recorded a number of times. -/
def stampTimes (dir : SyncDirectory) (f : SyncFile) : Nat → Store → Store
  | 0, s => s
  | k + 1, s => stampTimes dir f k (s.updateSyncFile dir (stamp f)).1

theorem getBlocksFrom_stops {dir : SyncDirectory} {f : SyncFile} {messageId : Int} {i : Nat} {block : SyncBlock} {n : Node}
    (h : (run nodeDo (fetchBlock sha256 dir f messageId i block) n).2 ≠ some (.ok ())) (rest : List SyncBlock) :
    (run nodeDo (getBlocksFrom sha256 dir f messageId i (block :: rest)) n).1 =
        (run nodeDo (fetchBlock sha256 dir f messageId i block) n).1 ∧
      (run nodeDo (getBlocksFrom sha256 dir f messageId i (block :: rest)) n).2 ≠ some (.ok ()) := by
  rw [getBlocksFrom_cons, run_bind]
  rcases hrun : run nodeDo (fetchBlock sha256 dir f messageId i block) n with ⟨n', _ | x⟩
  · exact ⟨rfl, by simp⟩
  · cases x with
    | error e => exact ⟨rfl, by simp⟩
    | ok u =>
      rw [hrun] at h
      exact absurd rfl h

theorem fetched_getBlocksFrom (dir : SyncDirectory) (f : SyncFile) (messageId : Int) :
    ∀ (blocks : List SyncBlock) (i : Nat) (n : Node), ∃ k ≤ blocks.length,
      (run nodeDo (getBlocksFrom sha256 dir f messageId i blocks) n).1.store = stampTimes dir f k n.store ∧
      ((run nodeDo (getBlocksFrom sha256 dir f messageId i blocks) n).2 = some (.ok ()) → k = blocks.length) := by
  intro blocks
  induction blocks with
  | nil => intro i n; exact ⟨0, Nat.le_refl _, rfl, fun _ => rfl⟩
  | cons block rest ih =>
    intro i n
    rcases fetchBlock_cases sha256 dir f messageId i block n with ⟨hstore, hres⟩ | ⟨n', data, path, -, -, -, hrun⟩
    · obtain ⟨hsame, hnot⟩ := getBlocksFrom_stops sha256 hres rest
      exact ⟨0, Nat.zero_le _, by rw [hsame]; exact hstore, fun h => absurd h hnot⟩
    · rw [getBlocksFrom_cons, run_bind, hrun]
      cases hu : (n.store.updateSyncFile dir (stamp f)).2 with
      | none => exact ⟨1, by simp, rfl, fun h => by cases h⟩
      | some u =>
        obtain ⟨k, hk, hstore, hres⟩ := ih (i + 1) { n' with store := (n.store.updateSyncFile dir (stamp f)).1 }
        refine ⟨k + 1, by simpa using hk, hstore, fun h => ?_⟩
        rw [hres h]; rfl

/-- The store after a run of `get_file`, and how often the file was recorded. -/
theorem fetched_getFile (dir : SyncDirectory) (f : SyncFile) (n : Node) : ∃ k ≤ f.blocks.length,
    (run nodeDo (getFile sha256 dir f) n).1.store = stampTimes dir f k n.store ∧
    ((run nodeDo (getFile sha256 dir f) n).2 = some (.ok ()) → k = f.blocks.length ∧ 0 < k) := by
  unfold getFile
  rw [run_call_some (nodeDo_sampleId n)]
  split
  · exact ⟨0, Nat.zero_le _, rfl, fun h => by simp at h⟩
  · rename_i hne
    obtain ⟨k, hk, hstore, hres⟩ := fetched_getBlocksFrom sha256 dir f (n.ids.headD (0 : Int)) f.blocks 0
      { n with ids := n.ids.tail }
    have hpos := List.length_pos_iff.mpr hne
    refine ⟨k, hk, hstore, fun h => ?_⟩
    have hall := hres h
    exact ⟨hall, by omega⟩

theorem mem_stampTimes_of_ne (dir : SyncDirectory) {f : SyncFile} {id : Nat} (hf : f.id = some id) {r : Rec}
    (hne : r.id ≠ id) : ∀ (k : Nat) (s : Store), r ∈ (stampTimes dir f k s).records ↔ r ∈ s.records := by
  intro k
  induction k with
  | zero => intro s; exact Iff.rfl
  | succ k ih =>
    intro s
    have htarget : s.target (stamp f) = id := by rw [Tables.target, stamp, hf]; rfl
    rw [stampTimes, ih, s.mem_updateSyncFile_of_ne dir (by rw [htarget]; exact hne)]

/-- Recording a stored file changes nothing of its record but the synced version. -/
theorem lookup_stampTimes (dir : SyncDirectory) {name : Text} {r : Rec} (hname : normal r.name = name) (hv : r.versions ≠ []) :
    ∀ (k : Nat) (s : Store) (r₁ : Rec), s.lookup dir.id name = some r₁ → r₁.id = r.id → r₁.hash = r.hash →
      r₁.versions = r.versions → ∃ r₂, (stampTimes dir r.file k s).lookup dir.id name = some r₂ ∧ r₂.id = r.id ∧
        r₂.hash = r.hash ∧ r₂.versions = r.versions ∧ (0 < k → r₂.synced = r.file.getIndexVersion) := by
  intro k
  induction k with
  | zero => intro s r₁ hl hid hhash hvs; exact ⟨r₁, hl, hid, hhash, hvs, fun h => absurd h (Nat.lt_irrefl 0)⟩
  | succ k ih =>
    intro s r₁ hl hid hhash hvs
    have hl' := s.lookup_over hl (f := stamp r.file) (by rw [hid]; rfl) ((getName_eq _).trans hname) hv
    have hvs' : (Rec.write (some r₁) r₁.id dir (stamp r.file)).versions = r.versions := by
      show Chain.extend r₁.versions r.versions = _
      rw [hvs]; exact Chain.extend_of_length_le (Nat.le_refl _)
    obtain ⟨r₂, h1, h2, h3, h4, h5⟩ := ih _ _ hl' hid rfl hvs'
    refine ⟨r₂, h1, h2, h3, h4, fun _ => ?_⟩
    cases k with
    | zero =>
      rw [stampTimes, hl'] at h1
      cases h1; rfl
    | succ k => exact h5 (Nat.succ_pos k)

/-- The file is one of the store's, as it is there. -/
def Current (s : Store) (f : SyncFile) : Prop := ∃ r ∈ s.records, f.id = some r.id ∧ r.versions = f.versions

theorem current_file {s : Store} {r : Rec} (hr : r ∈ s.records) : Current s r.file := ⟨r, hr, rfl, rfl⟩

theorem current_stamp {s : Store} {f : SyncFile} (h : Current s f) (dir : SyncDirectory) :
    (s.updateSyncFile dir (stamp f)).2 = some () ∧ Current (s.updateSyncFile dir (stamp f)).1 f := by
  obtain ⟨r, hr, hid, hvs⟩ := h
  have hv : (stamp f).versions ≠ [] := by show f.versions ≠ []; rw [← hvs]; exact s.versions_ne_nil hr
  obtain ⟨htarget, hstored⟩ := s.stored_of_mem hr (f := stamp f) hid
  refine ⟨?_, _, (s.mem_updateSyncFile_target dir hv rfl).mpr rfl, ?_, ?_⟩
  · rw [s.updateSyncFile_returns dir hv, Store.storedCount, hstored, if_neg]
    simp [hvs, stamp]
  · rw [hid, ← htarget]; rfl
  · simp only [Rec.write, hstored, Option.map_some, Option.getD_some, hvs]
    exact Chain.extend_of_length_le (Nat.le_refl _)

/-- The answers to come bring the blocks, each to a place that can be sought. -/
def Arrives : List (Except PeerCommandError PeerRequestResponse) → List SyncBlock → Prop
  | _, [] => True
  | wire, b :: bs =>
    (∃ data, Brings sha256 (wire.headD (.ok .closed)) b data) ∧ Node.seekable (asUsize b.offset) = true ∧
      Arrives wire.tail bs

theorem getBlocksFrom_arrives {dir : SyncDirectory} {f : SyncFile} {path : Text} (hpath : dir.path = some path)
    (messageId : Int) : ∀ (blocks : List SyncBlock) (i : Nat) (n : Node), Arrives sha256 n.wire blocks →
      Writable n (push path f.getName) → Current n.store f →
      (run nodeDo (getBlocksFrom sha256 dir f messageId i blocks) n).2 = some (.ok ()) := by
  intro blocks
  induction blocks with
  | nil => intro i n _ _ _; rfl
  | cons block rest ih =>
    intro i n harr hw hcur
    obtain ⟨⟨data, hb⟩, hseek, hrest⟩ := harr
    obtain ⟨n', hn'⟩ := writeBlock_of_writable
      (n := n.asked ⟨messageId, dir.id, f.getName, block.offset, block.size, block.hash, i⟩) hw hseek data
    obtain ⟨hret, hcur'⟩ := current_stamp hcur dir
    have hone := fetchBlock_ok sha256 rfl hb hpath hn'
    have hagain : Writable n' (push path f.getName) := writable_of_writeBlock hn'
    have hframe := (Node.writeBlock_frame (n.asked ⟨messageId, dir.id, f.getName, block.offset, block.size, block.hash, i⟩)
      (push path f.getName) (asUsize block.offset) data).2.1
    rw [hn'] at hframe
    rw [getBlocksFrom_cons, run_bind, hone, hret]
    refine ih (i + 1) { n' with store := (n.store.updateSyncFile dir (stamp f)).1 } ?_ hagain hcur'
    rw [show n'.wire = n.wire.tail from hframe]; exact hrest

theorem getFile_arrives {n : Node} {dir : SyncDirectory} {f : SyncFile} {path : Text} (hpath : dir.path = some path)
    (hne : f.blocks ≠ []) (harr : Arrives sha256 n.wire f.blocks) (hw : Writable n (push path f.getName))
    (hcur : Current n.store f) : (run nodeDo (getFile sha256 dir f) n).2 = some (.ok ()) := by
  unfold getFile
  rw [run_call_some (nodeDo_sampleId n), if_neg hne]
  exact getBlocksFrom_arrives sha256 hpath _ f.blocks 0 { n with ids := n.ids.tail } harr hw hcur

/-- The first block does not come, or all the others do. -/
def Whole (n : Node) (f : SyncFile) : Prop :=
  (∀ b data, f.blocks.head? = some b → ¬ Brings sha256 n.answer b data) ∨ Arrives sha256 n.wire.tail f.blocks.tail

theorem getFile_whole {n : Node} (dir : SyncDirectory) {f : SyncFile} (hcur : Current n.store f) (hw : Whole sha256 n f) :
    (run nodeDo (getFile sha256 dir f) n).2 = some (.ok ()) ∨ (run nodeDo (getFile sha256 dir f) n).1.store = n.store := by
  unfold getFile
  rw [run_call_some (nodeDo_sampleId n)]
  cases hblocks : f.blocks with
  | nil => exact Or.inr rfl
  | cons block rest =>
    simp only [reduceCtorEq, if_false]
    rcases fetchBlock_cases sha256 dir f (n.ids.headD (0 : Int)) 0 block { n with ids := n.ids.tail } with
      ⟨hstore, hres⟩ | ⟨n', data, path, hpath, hb, hn', hrun⟩
    · refine Or.inr ?_
      rw [(getBlocksFrom_stops sha256 hres rest).1]
      exact hstore
    · obtain ⟨hret, hcur'⟩ := current_stamp hcur dir
      have hframe := (Node.writeBlock_frame ({ n with ids := n.ids.tail }.asked
        ⟨n.ids.headD (0 : Int), dir.id, f.getName, block.offset, block.size, block.hash, ((0 : Nat) : Int)⟩)
        (push path f.getName) (asUsize block.offset) data).2.1
      rw [hn'] at hframe
      refine Or.inl ?_
      rw [getBlocksFrom_cons, run_bind, hrun, hret]
      rcases hw with hw | hw
      · exact absurd hb (hw block data (by rw [hblocks]; rfl))
      · have hagain : Writable n' (push path f.getName) := writable_of_writeBlock hn'
        rw [hblocks] at hw
        refine getBlocksFrom_arrives sha256 hpath _ rest 1
          { n' with store := (n.store.updateSyncFile dir (stamp f)).1 } ?_ hagain hcur'
        rw [show n'.wire = n.wire.tail from hframe]; exact hw

/-! ## A directory -/

/-- Runs of `get_file` one after another, each on a file of the directory as stored then. -/
inductive Fetches (dir : SyncDirectory) (n : Node) : Node → Prop
  | init : Fetches dir n n
  | file {m : Node} {r : Rec} : Fetches dir n m → r ∈ m.store.records → r.folder = dir.id →
      Fetches dir n (run nodeDo (getFile sha256 dir r.file) m).1

theorem fetches_getFiles (dir : SyncDirectory) (n : Node) : ∀ (files : List SyncFile) (m : Node),
    Fetches sha256 dir n m → (files.map SyncFile.id).Nodup →
    (∀ f ∈ files, ∃ r ∈ m.store.records, r.folder = dir.id ∧ r.file = f) →
    Fetches sha256 dir n (run nodeDo (getFiles sha256 dir files) m).1 := by
  intro files
  induction files with
  | nil => intro m hm _ _; exact hm
  | cons f files ih =>
    intro m hm hnd hstored
    simp only [List.map_cons, List.nodup_cons] at hnd
    obtain ⟨r, hr, hfolder, hf⟩ := hstored f List.mem_cons_self
    have hrest : ∀ g ∈ files, ∃ r ∈ m.store.records, r.folder = dir.id ∧ r.file = g :=
      fun g hg => hstored g (List.mem_cons_of_mem _ hg)
    unfold getFiles
    cases hpath : dir.path with
    | none => exact hm
    | some path =>
      have hexists : nodeDo m (.sys (.pathExists (push path f.path))) =
          (m, some (m.disk.find m.cwd (push path f.path)).isSome) := rfl
      simp only
      rw [run_call_some hexists]
      split
      · rw [run_bind]
        have hm' : Fetches sha256 dir n (run nodeDo (getFile sha256 dir f) m).1 := by
          rw [← hf]; exact .file hm hr hfolder
        obtain ⟨k, -, hstore, -⟩ := fetched_getFile sha256 dir f m
        rcases hrun : run nodeDo (getFile sha256 dir f) m with ⟨m', _ | x⟩ <;> rw [hrun] at hm' hstore
        · exact hm'
        · cases x with
          | error e => exact hm'
          | ok u =>
            refine ih m' hm' hnd.2 fun g hg => ?_
            obtain ⟨r', hr', hfolder', hg'⟩ := hrest g hg
            refine ⟨r', ?_, hfolder', hg'⟩
            have hne : r'.id ≠ r.id := by
              intro he
              refine hnd.1 (List.mem_map.mpr ⟨g, hg, ?_⟩)
              rw [← hg', ← hf]; exact congrArg some he
            rw [hstore, mem_stampTimes_of_ne dir (by rw [← hf]; rfl) hne]
            exact hr'
      · exact ih m hm hnd.2 hrest

/-- A run of `get_directory` is a sequence of runs of `get_file`. -/
theorem fetches_getDirectory (dir : SyncDirectory) (n : Node) :
    Fetches sha256 dir n (run nodeDo (getDirectory sha256 dir) n).1 := by
  have hstart := aligned_start n.store dir
  have hchain := fetches_getFiles sha256 dir n (n.store.index dir.id) n .init hstart.ids (fun f hf => by
    obtain ⟨r, hr, hrf⟩ := List.mem_map.mp hf
    obtain ⟨hr, hfolder⟩ := List.mem_filter.mp hr
    exact ⟨r, hr, by simpa using hfolder, hrf⟩)
  unfold getDirectory
  rw [run_call_some (nodeDo_getSyncFiles n dir.id), run_bind]
  rcases hrun : run nodeDo (getFiles sha256 dir (n.store.index dir.id)) n with ⟨m, _ | x⟩ <;> rw [hrun] at hchain
  · exact hchain
  · cases x with
    | error e => exact hchain
    | ok u => exact hchain

end BepRs.Sync
