/-
  BepRs.History.Integrity — do the rows of shares and files refer to folders that exist?

  `remove_sync_directory` deletes the folder's row and leaves its shares and files behind,
  and `update_sync_file` writes a file's row for whatever folder it is given. No other call
  breaks the reference. When an id comes back, the rows that were left are its rows again:
  the folder is shared with the peers it was shared with.

  - `hostDo_call`: whatever a task asks for, the store changes by one call or not at all, so
    the messages of the peers act on it by sequences of calls.
  - `integrity_act_iff`: exactly which calls keep the references.
  - `integrity_iff`: a sequence of calls keeps them in every state, and every folder it adds
    starts without shares and files, exactly when each of its calls does.
-/

import BepRs.State.Admin
import BepRs.Sync.Link

namespace BepRs.History

open BepRs.Lib BepRs.Lib.Path BepRs.Lib.Task BepRs.State BepRs.Sync

/-! ## Calls and tasks -/

/-- One operation of a task is at most one call. -/
theorem hostDo_call (sha256 : Bytes → Bytes) (h : Host) (o : LinkOp) :
    (hostDo sha256 h o).1.node.store = h.node.store ∨ ∃ c, (hostDo sha256 h o).1.node.store = State.Call.act h.node.store c := by
  cases o with
  | op o =>
    cases o with
    | sys o => exact Or.inl (h.node.store_sysDo o)
    | db o =>
      cases o with
      | updateSyncFile dir file => exact Or.inr ⟨.updateSyncFile dir file, rfl⟩
      | _ => exact Or.inl rfl
  | addSyncDirectory path label id => exact Or.inr ⟨.addSyncDirectory _ _ path label id, rfl⟩
  | syncDirectoryWithPeer directory peer => exact Or.inr ⟨.syncDirectoryWithPeer directory peer, rfl⟩
  | _ => exact Or.inl rfl

/-- A run of a task does to the store what some sequence of calls does. -/
theorem run_calls {α : Type} (sha256 : Bytes → Bytes) : ∀ (p : LinkProg α) (h : Host),
    ∃ cs, (run (hostDo sha256) p h).1.node.store = State.Call.acts h.node.store cs := by
  intro p
  induction p with
  | ret a => intro h; exact ⟨[], rfl⟩
  | panic => intro h; exact ⟨[], rfl⟩
  | ask o k ih =>
    intro h
    obtain ⟨cs, hcs⟩ : ∃ cs, (hostDo sha256 h o).1.node.store = State.Call.acts h.node.store cs := by
      rcases hostDo_call sha256 h o with hsame | ⟨c, hc⟩
      · exact ⟨[], hsame⟩
      · exact ⟨[c], hc⟩
    rcases hdo : hostDo sha256 h o with ⟨h', _ | r⟩ <;> rw [hdo] at hcs
    · rw [run_ask_none hdo]; exact ⟨cs, hcs⟩
    · rw [run_ask_some hdo]
      obtain ⟨cs', hcs'⟩ := ih r h'
      refine ⟨cs ++ cs', ?_⟩
      have hboth : State.Call.acts h.node.store (cs ++ cs') = State.Call.acts (State.Call.acts h.node.store cs) cs' :=
        List.foldl_append
      rw [hboth, ← hcs]; exact hcs'

/-! ## References -/

def folderIds (s : Store) : List Text := s.folders.map FolderRow.id

structure Integrity (s : Store) : Prop where
  shares : ∀ x ∈ s.shares, x.syncFolderId ∈ folderIds s
  files : ∀ r ∈ s.files, r.folderId ∈ folderIds s

structure Bare (s : Store) (folder : Text) : Prop where
  shares : ∀ x ∈ s.shares, x.syncFolderId ≠ folder
  files : ∀ r ∈ s.files, r.folderId ≠ folder

theorem bare_of_not_mem {s : Store} (h : Integrity s) {folder : Text} (hf : folder ∉ folderIds s) : Bare s folder :=
  ⟨fun x hx he => hf (he ▸ h.shares x hx), fun r hr he => hf (he ▸ h.files r hr)⟩

/-- The call leaves no row behind and writes none for a folder that is not there. -/
def Spares (s : Store) : State.Call → Prop
  | .removeSyncDirectory toRemove => Bare s toRemove
  | .updateSyncFile dir file => file.versions = [] ∨ dir.id ∈ folderIds s
  | _ => True

/-! ## One call -/

theorem forall_files {s : Store} {P : Text → Prop} : (∀ r ∈ s.files, P r.folderId) ↔ ∀ r ∈ s.records, P r.folder := by
  rw [Store.records, List.forall_mem_map]; rfl

theorem integrity_update_iff {s : Store} (h : Integrity s) (dir : SyncDirectory) {file : SyncFile} (hv : file.versions ≠ []) :
    Integrity (s.updateSyncFile dir file).1 ↔ dir.id ∈ folderIds s := by
  obtain ⟨hfolders, -, hshares, -⟩ := s.updateSyncFile_frame dir file
  have hids : folderIds (s.updateSyncFile dir file).1 = folderIds s := by rw [folderIds, hfolders]; rfl
  have hold := (@forall_files s (· ∈ folderIds s)).mp h.files
  constructor
  · intro h'
    have hfiles := (@forall_files (s.updateSyncFile dir file).1 (· ∈ folderIds (s.updateSyncFile dir file).1)).mp h'.files
    have hwritten := (s.mem_updateSyncFile_target dir hv (r := Rec.write (s.stored file) (s.target file) dir file) rfl).mpr rfl
    rw [hids] at hfiles
    exact hfiles _ hwritten
  · intro hdir
    refine ⟨by rw [hids, hshares]; exact h.shares, ?_⟩
    refine (@forall_files (s.updateSyncFile dir file).1 (· ∈ folderIds (s.updateSyncFile dir file).1)).mpr fun r hr => ?_
    rw [hids]
    rcases s.mem_updateSyncFile_cases dir hr with hr | hr
    · exact hold r hr
    · rw [hr]; exact hdir

/-- Deleting a folder keeps the references exactly when nothing refers to it. -/
theorem integrity_remove_iff {s : Store} (h : Integrity s) (toRemove : Text) :
    Integrity (s.removeSyncDirectory toRemove) ↔ Bare s toRemove := by
  have hids : ∀ k, k ∈ folderIds (s.removeSyncDirectory toRemove) ↔ k ∈ folderIds s ∧ k ≠ toRemove := by
    intro k
    simp only [folderIds, Store.removeSyncDirectory, Store.withFolders_folders, List.mem_map, List.mem_filter,
      decide_eq_true_eq]
    constructor
    · intro hk
      obtain ⟨x, ⟨hx, hne⟩, he⟩ := hk
      exact ⟨⟨x, hx, he⟩, fun hk => hne (he.trans hk)⟩
    · intro hk
      obtain ⟨⟨x, hx, he⟩, hne⟩ := hk
      exact ⟨x, ⟨hx, fun hx' => hne (he.symm.trans hx')⟩, he⟩
  constructor
  · intro h'
    exact ⟨fun x hx => ((hids _).mp (h'.shares x hx)).2, fun r hr => ((hids _).mp (h'.files r hr)).2⟩
  · intro hbare
    exact ⟨fun x hx => (hids _).mpr ⟨h.shares x hx, hbare.shares x hx⟩,
      fun r hr => (hids _).mpr ⟨h.files r hr, hbare.files r hr⟩⟩

/-- What a call that adds a folder leaves and returns. -/
theorem addSyncDirectory_added (s : Store) (present : Text → Bool) (sample : Text) (path : Option Text) (label : Text)
    (id : Option Text) :
    s.addSyncDirectory present sample path label id = (s, none) ∨ ∃ row : FolderRow, row.id ∉ folderIds s ∧
      (s.addSyncDirectory present sample path label id).1 = s.withFolders (s.folders ++ [row]) s.shares ∧
      ∀ dir, (s.addSyncDirectory present sample path label id).2 = some dir → dir.id = row.id := by
  unfold Store.addSyncDirectory
  split
  · exact Or.inl rfl
  split
  · exact Or.inl rfl
  simp only
  split
  · exact Or.inl rfl
  · rename_i hfree
    refine Or.inr ⟨⟨id.getD sample, label, path⟩, fun hmem => ?_, rfl, fun dir hdir => ?_⟩
    · obtain ⟨x, hx, he⟩ := List.mem_map.mp hmem
      exact hfree (List.any_eq_true.mpr ⟨x, hx, decide_eq_true (Or.inl he)⟩)
    · simpa using List.find?_some hdir

theorem integrity_grown {s s' : Store} (h : Integrity s) (hids : ∀ k ∈ folderIds s, k ∈ folderIds s')
    (hshares : s'.shares = s.shares) (hfiles : s'.files = s.files) : Integrity s' := by
  refine ⟨fun x hx => hids _ (h.shares x ?_), fun r hr => hids _ (h.files r ?_)⟩
  · rw [← hshares]; exact hx
  · rw [← hfiles]; exact hr

theorem integrity_addPeer {s : Store} (h : Integrity s) (peerName : Text) (peerId : DeviceId) :
    Integrity (s.addPeer peerName peerId).1 := by
  unfold Store.addPeer
  split
  · exact h
  · exact integrity_grown h (fun _ hk => hk) rfl rfl

theorem integrity_act_iff {s : Store} (h : Integrity s) (c : State.Call) : Integrity (State.Call.act s c) ↔ Spares s c := by
  cases c with
  | updateSyncFile dir file =>
    show Integrity (s.updateSyncFile dir file).1 ↔ file.versions = [] ∨ dir.id ∈ folderIds s
    by_cases hv : file.versions = []
    · rw [s.records_updateSyncFile_nil dir hv]
      exact ⟨fun _ => Or.inl hv, fun _ => h⟩
    · rw [integrity_update_iff h dir hv]
      exact ⟨Or.inr, fun hc => hc.resolve_left hv⟩
  | removeSyncDirectory toRemove => exact integrity_remove_iff h toRemove
  | addSyncDirectory present sample path label id =>
    refine ⟨fun _ => trivial, fun _ => ?_⟩
    show Integrity (s.addSyncDirectory present sample path label id).1
    rcases addSyncDirectory_added s present sample path label id with he | ⟨row, -, he, -⟩
    · rw [he]; exact h
    · rw [he]
      refine integrity_grown h (fun k hk => ?_) rfl rfl
      rw [folderIds, Store.withFolders_folders, List.map_append]
      exact List.mem_append_left _ hk
  | setSyncDirectoryPath dir path =>
    refine ⟨fun _ => trivial, fun _ => ?_⟩
    show Integrity (s.setSyncDirectoryPath dir path).1
    unfold Store.setSyncDirectoryPath
    split
    · exact h
    · refine integrity_grown h (fun k hk => ?_) rfl rfl
      obtain ⟨x, hx, hk⟩ := List.mem_map.mp hk
      rw [folderIds, Store.withFolders_folders, List.map_map]
      refine List.mem_map.mpr ⟨x, hx, ?_⟩
      simp only [Function.comp_apply]
      split <;> exact hk
  | syncDirectoryWithPeer directory peer =>
    refine ⟨fun _ => trivial, fun _ => ?_⟩
    show Integrity (s.syncDirectoryWithPeer directory peer).1
    unfold Store.syncDirectoryWithPeer
    split
    · rename_i hknown
      refine ⟨fun x hx => ?_, h.files⟩
      rcases List.mem_append.mp hx with hx | hx
      · exact h.shares x hx
      · rw [List.mem_singleton.mp hx]
        obtain ⟨y, hy, he⟩ := List.any_eq_true.mp hknown
        exact List.mem_map.mpr ⟨y, hy, of_decide_eq_true he⟩
    · exact h
  | addPeer peerName peerId => exact ⟨fun _ => trivial, fun _ => integrity_addPeer h peerName peerId⟩
  | addPeerVecId peerName peerId =>
    refine ⟨fun _ => trivial, fun _ => ?_⟩
    show Integrity (s.addPeerVecId peerName peerId).1
    unfold Store.addPeerVecId
    split
    · exact integrity_addPeer h peerName _
    · exact h

theorem bare_added {s : Store} (h : Integrity s) {present : Text → Bool} {sample : Text} {path : Option Text} {label : Text}
    {id : Option Text} {dir : SyncDirectory} (hdir : (s.addSyncDirectory present sample path label id).2 = some dir) :
    Bare (s.addSyncDirectory present sample path label id).1 dir.id := by
  rcases addSyncDirectory_added s present sample path label id with he | ⟨row, hnew, he, hid⟩
  · rw [he] at hdir; cases hdir
  · have hbare := bare_of_not_mem h hnew
    rw [he, hid dir hdir]
    exact ⟨hbare.shares, hbare.files⟩

/-! ## Sequences of calls -/

/-- The tables of a new database. -/
def newStore (shortId : UInt64) : Store := Store.empty [] [] [] shortId

theorem integrity_newStore (shortId : UInt64) : Integrity (newStore shortId) :=
  ⟨fun _ h => (by cases h), fun _ h => (by cases h)⟩

/-- The id of a folder is its key, whatever calls are made. -/
theorem folderIds_nodup_act {s : Store} (h : (folderIds s).Nodup) (c : State.Call) : (folderIds (State.Call.act s c)).Nodup := by
  cases c with
  | updateSyncFile dir file =>
    show (folderIds (s.updateSyncFile dir file).1).Nodup
    rw [folderIds, (s.updateSyncFile_frame dir file).1]
    exact h
  | removeSyncDirectory toRemove => exact h.sublist (List.filter_sublist.map FolderRow.id)
  | addSyncDirectory present sample path label id =>
    show (folderIds (s.addSyncDirectory present sample path label id).1).Nodup
    rcases addSyncDirectory_added s present sample path label id with he | ⟨row, hnew, he, -⟩
    · rw [he]; exact h
    · rw [he, folderIds, Store.withFolders_folders, List.map_append]
      exact h.append (List.nodup_singleton _) (by simpa using hnew)
  | setSyncDirectoryPath dir path =>
    show (folderIds (s.setSyncDirectoryPath dir path).1).Nodup
    unfold Store.setSyncDirectoryPath
    split
    · exact h
    · have hsame : FolderRow.id ∘ (fun x : FolderRow => if x.id = dir.id then { x with dirPath := path } else x) =
          FolderRow.id := by
        funext x
        simp only [Function.comp_apply]
        split <;> rfl
      rw [folderIds, Store.withFolders_folders, List.map_map, hsame]
      exact h
  | syncDirectoryWithPeer directory peer =>
    show (folderIds (s.syncDirectoryWithPeer directory peer).1).Nodup
    unfold Store.syncDirectoryWithPeer
    split <;> exact h
  | addPeer peerName peerId =>
    show (folderIds (s.addPeer peerName peerId).1).Nodup
    unfold Store.addPeer
    split <;> exact h
  | addPeerVecId peerName peerId =>
    show (folderIds (s.addPeerVecId peerName peerId).1).Nodup
    unfold Store.addPeerVecId Store.addPeer
    split
    · split <;> exact h
    · exact h

theorem folderIds_nodup (shortId : UInt64) (cs : List State.Call) :
    (folderIds (State.Call.acts (newStore shortId) cs)).Nodup := by
  induction cs using List.reverseRecOn with
  | nil => exact List.nodup_nil
  | append_singleton cs c ih =>
    rw [State.Call.acts_concat]
    exact folderIds_nodup_act ih c

theorem integrity_acts {s : Store} (h : Integrity s) {cs : List State.Call}
    (hspares : ∀ pre c, pre ++ [c] <+: cs → Spares (State.Call.acts s pre) c) :
    ∀ pre, pre <+: cs → Integrity (State.Call.acts s pre) := by
  intro pre
  induction pre using List.reverseRecOn with
  | nil => intro _; exact h
  | append_singleton pre c ih =>
    intro hpre
    have hbefore := ih ((List.prefix_append pre [c]).trans hpre)
    rw [State.Call.acts_concat]
    exact (integrity_act_iff hbefore c).mpr (hspares pre c hpre)

/-- Whatever calls are made on a new database, in whatever order and with whatever arguments:
    every share and file refers to a folder after each of them, and every folder one of them
    adds starts without shares and files, exactly when no call deletes a folder that shares
    or files refer to or writes a file of a folder that is not there. -/
theorem integrity_iff (shortId : UInt64) (cs : List State.Call) :
    (∀ pre c, pre ++ [c] <+: cs → Integrity (State.Call.acts (newStore shortId) (pre ++ [c])) ∧
      ∀ present sample path label id dir, c = .addSyncDirectory present sample path label id →
        ((State.Call.acts (newStore shortId) pre).addSyncDirectory present sample path label id).2 = some dir →
        Bare (State.Call.acts (newStore shortId) (pre ++ [c])) dir.id) ↔
    ∀ pre c, pre ++ [c] <+: cs → Spares (State.Call.acts (newStore shortId) pre) c := by
  constructor
  · intro h pre c hpre
    have hbefore : Integrity (State.Call.acts (newStore shortId) pre) := by
      rcases List.eq_nil_or_concat pre with hnil | ⟨pre', c', hcons⟩
      · rw [hnil]; exact integrity_newStore shortId
      · rw [List.concat_eq_append] at hcons
        rw [hcons]
        refine (h pre' c' ?_).1
        rw [← hcons]; exact (List.prefix_append pre [c]).trans hpre
    have hafter := (h pre c hpre).1
    rw [State.Call.acts_concat] at hafter
    exact (integrity_act_iff hbefore c).mp hafter
  · intro hspares pre c hpre
    have hbefore := integrity_acts (integrity_newStore shortId) hspares pre ((List.prefix_append pre [c]).trans hpre)
    refine ⟨integrity_acts (integrity_newStore shortId) hspares _ hpre, ?_⟩
    intro present sample path label id dir hc hdir
    rw [State.Call.acts_concat, hc]
    exact bare_added hbefore hdir

/-- A folder is shared and gets a file, is removed, and comes back by an announcement. -/
def readded : List State.Call :=
  [.addPeer ['p'] ⟨List.replicate 32 0, by decide⟩,
    .addSyncDirectory (fun _ => true) [] (some ['/', 'd']) ['d'] (some ['d']),
    .syncDirectoryWithPeer ⟨['d'], ['d'], some ['/', 'd']⟩ ⟨1, some (List.replicate 32 0), ['p']⟩,
    .updateSyncFile ⟨['d'], ['d'], some ['/', 'd']⟩ ⟨none, ['f'], [0], 7, 0, [(7, 0)], [⟨0, 11, [0]⟩]⟩,
    .removeSyncDirectory ['d'],
    .addSyncDirectory (fun _ => true) [] none ['e'] (some ['d'])]

/-- It is removed and its rows stay; when it is back, the peer has access and its file is
    recorded. -/
theorem integrity_fails :
    ¬ Integrity (State.Call.acts (newStore 7) (readded.take 5)) ∧
      (State.Call.acts (newStore 7) readded).isDirectorySynced ['d'] 1 = true ∧
      (State.Call.acts (newStore 7) readded).index ['d'] ≠ [] := by
  refine ⟨fun h => ?_, by decide +kernel, by decide +kernel⟩
  have hno : folderIds (State.Call.acts (newStore 7) (readded.take 5)) = [] := by decide +kernel
  have hshare : (⟨['d'], 1⟩ : FolderShare) ∈ (State.Call.acts (newStore 7) (readded.take 5)).shares := by decide +kernel
  have := h.shares _ hshare
  rw [hno] at this
  cases this

end BepRs.History
