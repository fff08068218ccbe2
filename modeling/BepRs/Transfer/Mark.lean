/-
  BepRs.Transfer.Mark — when does `get_file` mark a file as synced?

  The update that stores the file with its latest version as the synced one is inside the
  loop over the blocks, so it is made after each of them. From the first block on the store
  says that the latest version is there, whatever becomes of the other blocks.

  - `fetching_alone`: what one pass leaves in the store, at any moment.
  - `getFile_marks_iff`: an `Err` leaves the stored synced version, and it changes only when
    all blocks are written, exactly for files of at most one block, when the first block is
    not written, or when recording the file would not change it.
-/

import BepRs.Transfer.Verify

namespace BepRs.Transfer

open BepRs.Lib BepRs.Lib.Path BepRs.Lib.Task BepRs.State BepRs.Sync

def synced (s : Store) (id : Nat) : Option UInt64 := (Keyed.row Rec.id id s.records).map Rec.synced

theorem synced_update (s : Store) (dir : SyncDirectory) {f : SyncFile} (hv : f.versions ≠ []) :
    synced (s.updateSyncFile dir f).1 (s.target f) = some f.syncedVersion := by
  have hmem := (s.mem_updateSyncFile_target dir hv (r := Rec.write (s.stored f) (s.target f) dir f) rfl).mpr rfl
  have hrow : Keyed.row Rec.id (s.target f) (s.updateSyncFile dir f).1.records = _ :=
    Keyed.row_of_mem Rec.id (s.updateSyncFile dir f).1.records_nodup hmem
  rw [synced, hrow]; rfl

variable (sha256 : Bytes → Bytes)

/-- The first block of the file comes and can be written. -/
def FirstComes (n : Node) (dir : SyncDirectory) (f : SyncFile) : Prop :=
  ∃ b data path, f.blocks.head? = some b ∧ dir.path = some path ∧ Brings sha256 n.answer b data ∧
    Writable n (push path f.getName) ∧ Node.seekable (asUsize b.offset) = true

section Alone

variable {dir : SyncDirectory} {f : SyncFile} {messageId : Int} {i : Nat} {b : SyncBlock}

/-- One pass with nobody else at work: it leaves the store, or its block came and was
    written and the file recorded. -/
theorem fetching_alone {n n' : Node} {tr : List (Event bep)} {x : Outcome (Except PeerCommandError Unit)}
    (h : Fetching sha256 nodeDo alone dir f messageId i b n tr n' x) :
    (n'.store = n.store ∧ x ≠ .returned (.ok ())) ∨
      (∃ data path, dir.path = some path ∧ Brings sha256 n.answer b data ∧ Writable n (push path f.getName) ∧
          Node.seekable (asUsize b.offset) = true) ∧
        n'.store = (n.store.updateSyncFile dir (stamp f)).1 ∧ (writes tr).length = 1 ∧ ∀ e, x ≠ .returned (.error e) := by
  have hasked : ∀ {v a data path}, Brought sha256 nodeDo alone dir f messageId i b n v a data path →
      v = n.asked (blockRequest dir f messageId i b) ∧ Brings sha256 n.answer b data := by
    intro v a data path hb
    obtain ⟨w₁, w₂, h₁, hM, h₂⟩ := hb.asked
    rw [eq_of_alone h₁, nodeDo_submitRequest] at hM
    cases hM
    exact ⟨eq_of_alone h₂, hb.brings⟩
  have hwritten : ∀ {v a data path}, Written sha256 nodeDo alone dir f messageId i b n v a data path →
      v.store = n.store ∧ dir.path = some path ∧ Brings sha256 n.answer b data ∧ Writable n (push path f.getName) ∧
        Node.seekable (asUsize b.offset) = true := by
    intro v a data path hw
    obtain ⟨w₁, w₂, hb, hM, h₂⟩ := hw
    obtain ⟨hw₁, hbrings⟩ := hasked hb
    subst hw₁
    have hwrite : (n.asked (blockRequest dir f messageId i b)).writeBlock (push path f.getName) (asUsize b.offset) data =
        (w₂, some ()) := hM
    have hframe := (Node.writeBlock_frame (n.asked (blockRequest dir f messageId i b)) (push path f.getName)
      (asUsize b.offset) data).1
    rw [hwrite] at hframe
    obtain ⟨hopen, hseek⟩ := writable_of_returns hwrite
    rw [eq_of_alone h₂]
    exact ⟨hframe, hb.path, hbrings, hopen, hseek⟩
  cases h with
  | waiting h₁ => rw [eq_of_alone h₁]; exact Or.inl ⟨rfl, by simp⟩
  | askPanicked h₁ hM => rw [eq_of_alone h₁, nodeDo_submitRequest] at hM; cases hM
  | asked h₁ hM h₂ hx =>
    rw [eq_of_alone h₁, nodeDo_submitRequest] at hM
    cases hM
    rw [eq_of_alone h₂]
    refine Or.inl ⟨rfl, ?_⟩
    rcases hx with hx | ⟨e, hx⟩ <;> subst hx <;> simp
  | @writePanicked w₁ _ a data path hb hM =>
    obtain ⟨hw₁, -⟩ := hasked hb
    subst hw₁
    have hframe := (Node.writeBlock_frame (n.asked (blockRequest dir f messageId i b)) (push path f.getName)
      (asUsize b.offset) data).1
    have hwrite : (n.asked (blockRequest dir f messageId i b)).writeBlock (push path f.getName) (asUsize b.offset) data =
        (n', none) := hM
    rw [hwrite] at hframe
    exact Or.inl ⟨hframe, by simp⟩
  | written hw => exact Or.inl ⟨(hwritten hw).1, by simp⟩
  | updatePanicked hw hM =>
    obtain ⟨hstore, hpath, hbrings, hopen, hseek⟩ := hwritten hw
    refine Or.inr ⟨⟨_, _, hpath, hbrings, hopen, hseek⟩, ?_, rfl, by simp⟩
    rw [← hstore]; exact (congrArg (fun p => p.1.store) hM).symm
  | recorded hw hM h₂ hx =>
    obtain ⟨hstore, hpath, hbrings, hopen, hseek⟩ := hwritten hw
    refine Or.inr ⟨⟨_, _, hpath, hbrings, hopen, hseek⟩, ?_, rfl, ?_⟩
    · rw [eq_of_alone h₂, ← hstore]; exact (congrArg (fun p => p.1.store) hM).symm
    · rcases hx with hx | hx <;> subst hx <;> simp

theorem getBlocksFrom_keeps {P : Store → Prop} (hP : ∀ s, P s → P (s.updateSyncFile dir (stamp f)).1) :
    ∀ (blocks : List SyncBlock) (i : Nat) {n n' : Node} {tr : List (Event bep)}
      {x : Outcome (Except PeerCommandError Unit)},
      Amid nodeDo alone (getBlocksFrom sha256 dir f messageId i blocks) n tr n' x → P n.store → P n'.store := by
  intro blocks
  induction blocks with
  | nil =>
    intro i n n' tr x h hn
    obtain ⟨-, hsame, -⟩ := amid_ret h
    rw [eq_of_alone hsame]; exact hn
  | cons b rest ih =>
    intro i n n' tr x h hn
    have hpass : ∀ {m tr y}, Fetching sha256 nodeDo alone dir f messageId i b n tr m y → P m.store := by
      intro m tr y hf
      rcases fetching_alone sha256 hf with ⟨hstore, -⟩ | ⟨-, hstore, -⟩
      · rw [hstore]; exact hn
      · rw [hstore]; exact hP _ hn
    rcases loop_cases sha256 h with ⟨m, y, hf, -, hsame, -⟩ | ⟨m, tr₁, tr₂, hf, -, hrest⟩
    · rw [eq_of_alone hsame]; exact hpass hf
    · exact ih (i + 1) hrest (hpass hf)

theorem getFile_alone {n n' : Node} {tr : List (Event bep)} {x : Outcome (Except PeerCommandError Unit)}
    (h : Amid nodeDo alone (getFile sha256 dir f) n tr n' x) :
    n'.store = n.store ∨ ∃ tr', f.blocks ≠ [] ∧ writes tr = writes tr' ∧
      Amid nodeDo alone (getBlocksFrom sha256 dir f (n.ids.headD (0 : Int)) 0 f.blocks)
        { n with ids := n.ids.tail } tr' n' x := by
  obtain ⟨w₁, hothers, hcase⟩ := amid_call h
  rw [eq_of_alone hothers] at hcase
  rcases hcase with ⟨hn', -, -⟩ | ⟨hM, -, -⟩ | ⟨w₂, m, tr', hM, htr, hrest⟩
  · exact Or.inl (by rw [hn'])
  · cases hM
  · cases hM
    split at hrest
    · obtain ⟨-, hsame, -⟩ := amid_ret hrest
      exact Or.inl (by rw [eq_of_alone hsame])
    · rename_i hne
      exact Or.inr ⟨tr', hne, by rw [htr]; rfl, hrest⟩

theorem synced_again {s : Store} {id : Nat} (hid : f.id = some id) (h : synced s id = some f.getIndexVersion) :
    synced (s.updateSyncFile dir (stamp f)).1 id = some f.getIndexVersion := by
  by_cases hv : f.versions = []
  · rw [s.records_updateSyncFile_nil dir (show (stamp f).versions = [] from hv)]; exact h
  · have htarget : s.target (stamp f) = id := by rw [Tables.target, stamp, hid]; rfl
    rw [← htarget]
    exact synced_update s dir (f := stamp f) hv

theorem getFile_marks_late {n n' : Node} {tr : List (Event bep)} {x : Outcome (Except PeerCommandError Unit)}
    (hcond : f.blocks.length ≤ 1 ∨ ¬ FirstComes sha256 n dir f ∨ f.versions = [] ∨
      synced n.store (n.store.target f) = some f.getIndexVersion)
    (h : Amid nodeDo alone (getFile sha256 dir f) n tr n' x) :
    synced n'.store (n.store.target f) = synced n.store (n.store.target f) ∨
      (writes tr).length = f.blocks.length ∧ ∀ e, x ≠ .returned (.error e) := by
  rcases getFile_alone sha256 h with hstore | ⟨tr', hne, hwrites, hloop⟩
  · exact Or.inl (by rw [hstore])
  obtain ⟨b, rest, hblocks⟩ := List.exists_cons_of_ne_nil hne
  rw [hblocks] at hloop
  rcases hcond with hone | hnot | hv | hsame
  · have hrest : rest = [] := by
      rw [hblocks] at hone
      exact List.eq_nil_of_length_eq_zero (by simpa using hone)
    subst hrest
    rw [hblocks, hwrites]
    rcases loop_cases sha256 hloop with ⟨m, y, hf, -, hsame, hx⟩ | ⟨m, tr₁, tr₂, hf, htr, hrest⟩
    · rw [eq_of_alone hsame]
      rcases fetching_alone sha256 hf with ⟨hstore, -⟩ | ⟨-, -, hw, herr⟩
      · exact Or.inl (by rw [hstore])
      · refine Or.inr ⟨hw, fun e he => ?_⟩
        rcases hx with hx | hx
        · exact herr e (hx.symm.trans he)
        · rw [hx] at he; cases he
    · obtain ⟨htr₂, -, hx⟩ := amid_ret hrest
      rcases fetching_alone sha256 hf with ⟨-, hnot⟩ | ⟨-, -, hw, -⟩
      · exact absurd rfl hnot
      · refine Or.inr ⟨?_, fun e he => ?_⟩
        · rw [htr, htr₂, List.append_nil]; exact hw
        · rcases hx with hx | hx <;> rw [hx] at he <;> cases he
  · -- the first pass records nothing, and nothing follows it
    refine Or.inl ?_
    have hpass : ∀ {m tr y}, Fetching sha256 nodeDo alone dir f (n.ids.headD (0 : Int)) 0 b { n with ids := n.ids.tail } tr m y →
        m.store = n.store ∧ y ≠ .returned (.ok ()) := by
      intro m tr y hf
      rcases fetching_alone sha256 hf with hstore | ⟨hcomes, -⟩
      · exact hstore
      · obtain ⟨data, path, hpath, hbrings, hopen, hseek⟩ := hcomes
        exact absurd ⟨b, data, path, by rw [hblocks]; rfl, hpath, hbrings, hopen, hseek⟩ hnot
    rcases loop_cases sha256 hloop with ⟨m, y, hf, -, hsame, -⟩ | ⟨m, tr₁, tr₂, hf, -, -⟩
    · rw [eq_of_alone hsame, (hpass hf).1]
    · exact absurd rfl (hpass hf).2
  · refine Or.inl (congrArg (synced · _) ?_)
    refine getBlocksFrom_keeps sha256 (P := fun s => s = n.store) (fun s hs => ?_) _ 0 hloop rfl
    rw [hs, n.store.records_updateSyncFile_nil dir (show (stamp f).versions = [] from hv)]
  · refine Or.inl ?_
    have hid : f.id = some (n.store.target f) := by
      cases hid : f.id with
      | none =>
        have hnone := (Keyed.row_none Rec.id).mpr (n.store.target_new hid)
        rw [synced, hnone] at hsame
        cases hsame
      | some id => rw [Tables.target, hid]; rfl
    rw [hsame]
    exact getBlocksFrom_keeps sha256 (P := fun s => synced s (n.store.target f) = some f.getIndexVersion)
      (fun s hs => synced_again hid hs) _ 0 hloop hsame

/-- A file of several blocks is marked when the first of them is written. -/
theorem getFile_marks_early {n : Node} {b₀ b₁ : SyncBlock} {rest : List SyncBlock} (hblocks : f.blocks = b₀ :: b₁ :: rest)
    (hcomes : FirstComes sha256 n dir f) (hv : f.versions ≠ []) :
    ∃ tr n' x, Amid nodeDo alone (getFile sha256 dir f) n tr n' x ∧ (writes tr).length ≤ 1 ∧
      synced n'.store (n.store.target f) = some f.getIndexVersion := by
  obtain ⟨b, data, path, hb, hpath, hbrings, hopen, hseek⟩ := hcomes
  rw [hblocks] at hb
  cases hb
  obtain ⟨m, hwrite⟩ := writeBlock_of_writable (n := { n with ids := n.ids.tail }.asked
    (blockRequest dir f (n.ids.headD (0 : Int)) 0 b₀)) hopen hseek data
  have hone : run nodeDo (fetchBlock sha256 dir f (n.ids.headD (0 : Int)) 0 b₀) { n with ids := n.ids.tail } =
      ({ m with store := (n.store.updateSyncFile dir (stamp f)).1 },
        (n.store.updateSyncFile dir (stamp f)).2.map fun _ => .ok ()) := fetchBlock_ok sha256 rfl hbrings hpath hwrite
  obtain ⟨tr, htr⟩ := amid_run nodeDo alone (fetchBlock sha256 dir f (n.ids.headD (0 : Int)) 0 b₀)
    { n with ids := n.ids.tail }
  have hlen : (writes tr).length ≤ 1 := by
    obtain ⟨-, -, hw⟩ := fetching_trace sha256 (fetching_amid sha256 dir f _ 0 b₀ htr)
    rcases hw with ⟨hw, -⟩ | ⟨_, _, -, -, hw, -⟩ <;> simp [hw]
  rw [hone] at htr
  have hmarked : synced (n.store.updateSyncFile dir (stamp f)).1 (n.store.target f) = some f.getIndexVersion :=
    synced_update n.store dir (f := stamp f) hv
  have hstart : ∀ {tr' n' x}, Amid nodeDo alone (getBlocksFrom sha256 dir f (n.ids.headD (0 : Int)) 0 f.blocks)
      { n with ids := n.ids.tail } tr' n' x → Amid nodeDo alone (getFile sha256 dir f) n
        (⟨.sys .sampleId, some (n.ids.headD (0 : Int))⟩ :: tr') n' x := by
    intro tr' n' x hloop
    refine Amid.answer rfl ?_
    show Amid nodeDo alone (if f.blocks = [] then _ else getBlocksFrom sha256 dir f (n.ids.headD (0 : Int)) 0 f.blocks)
      { n with ids := n.ids.tail } tr' n' x
    rw [if_neg (by rw [hblocks]; simp)]
    exact hloop
  rw [hblocks, getBlocksFrom_cons] at hstart
  cases hu : (n.store.updateSyncFile dir (stamp f)).2 with
  | none =>
    rw [hu] at htr
    exact ⟨_, _, _, hstart (amid_seq_panicked htr rfl), hlen, hmarked⟩
  | some u =>
    rw [hu] at htr
    refine ⟨_, _, _, hstart (amid_seq htr rfl .stop), ?_, hmarked⟩
    rw [List.append_nil]; exact hlen

end Alone

/-- After an `Err` the file's stored synced version is what it was, and at no moment has it
    changed before all blocks are written, exactly when the file has at most one block, or
    its first block does not come or cannot be written, or recording the file does not
    change its synced version. -/
theorem getFile_marks_iff (n : Node) (dir : SyncDirectory) (f : SyncFile) :
    ((∀ tr n' e, Amid nodeDo alone (getFile sha256 dir f) n tr n' (.returned (.error e)) →
        synced n'.store (n.store.target f) = synced n.store (n.store.target f)) ∧
      ∀ tr n' x, Amid nodeDo alone (getFile sha256 dir f) n tr n' x →
        synced n'.store (n.store.target f) ≠ synced n.store (n.store.target f) →
        (writes tr).length = f.blocks.length) ↔
    f.blocks.length ≤ 1 ∨ ¬ FirstComes sha256 n dir f ∨ f.versions = [] ∨
      synced n.store (n.store.target f) = some f.getIndexVersion := by
  constructor
  · intro h
    by_contra hcond
    simp only [not_or, not_not, Nat.not_le] at hcond
    obtain ⟨hlen, hcomes, hv, hsynced⟩ := hcond
    obtain ⟨b₀, b₁, rest, hblocks⟩ : ∃ b₀ b₁ rest, f.blocks = b₀ :: b₁ :: rest := by
      cases hf : f.blocks with
      | nil => rw [hf] at hlen; simp at hlen
      | cons b₀ l =>
        cases l with
        | nil => rw [hf] at hlen; simp at hlen
        | cons b₁ rest => exact ⟨b₀, b₁, rest, rfl⟩
    obtain ⟨tr, n', x, hrun, hwrites, hmarked⟩ := getFile_marks_early sha256 hblocks hcomes hv
    have hall := h.2 tr n' x hrun (by rw [hmarked]; exact fun he => hsynced he.symm)
    omega
  · intro hcond
    refine ⟨fun tr n' e h => ?_, fun tr n' x h hne => ?_⟩
    · rcases getFile_marks_late sha256 hcond h with hsame | ⟨-, hnot⟩
      · exact hsame
      · exact absurd rfl (hnot e)
    · rcases getFile_marks_late sha256 hcond h with hsame | ⟨hall, -⟩
      · exact absurd hsame hne
      · exact hall

/-- The first of two blocks comes, then the connection closes: `Err`, and the file is marked
    as synced at its latest version. -/
theorem getFile_marks_partial :
    (run nodeDo (getFile History.fileSha History.fileDir pairFile) (pairNode [] [brought History.fileContents])).2 =
        some (.error .connectionClosed) ∧
      synced (pairNode [] [brought History.fileContents]).store 1 = some 0 ∧
      synced (run nodeDo (getFile History.fileSha History.fileDir pairFile)
        (pairNode [] [brought History.fileContents])).1.store 1 = some 1 := by
  decide +kernel

end BepRs.Transfer
