/-
  BepRs.Gossip.Duty — what the tasks of a node do and what they are going to do.

  The downloads and the announcements leave every history alone and tell of the recorded ones
  only, whatever the other tasks do between their calls (`duties`).

  Unless they fail, a `directory_updated` reads the index of every folder it shares and sends it
  (`leads_directoryUpdated`), a `get_directory` ends with the news of its folder
  (`leads_getDirectory`), and a `handle_index` that changed something starts a `get_directory`
  (`leads_handleFiles`). The folders, the peers and the shares stay what they are.
-/

import BepRs.Gossip.Tasks
import BepRs.Gossip.Wires
import BepRs.Lib.Promise

namespace BepRs.Gossip

open BepRs.Lib BepRs.Lib.Path BepRs.Lib.Task BepRs.State BepRs.Sync BepRs.Relay

variable {L : Text × Text → List Version} {α β : Type}

/-! ## What they do -/

def duties (L : Text × Text → List Version) : Terms bep Store where
  does := Acts
  rely := Kept L
  guar := Steady L
  may _ o := ∀ m ∈ posts o, Told L m
  cost _ := 0

/-- A task keeps to that, from a state on. -/
def Dutiful (L : Text × Text → List Version) (Q : α → Store → Prop) (p : BepProg α) (s : Store) : Prop :=
  Within (duties L) Q p 0 s

theorem dutiful_bind {P : α → Store → Prop} {Q : β → Store → Prop} {p : BepProg α} {f : α → BepProg β} {s : Store}
    (hp : Dutiful L P p s) (hf : ∀ a s', P a s' → Dutiful L Q (f a) s') : Dutiful L Q (p >>= f) s := within_bind hf hp

theorem dutiful_post {P Q : α → Store → Prop} {p : BepProg α} {s : Store} (h : Dutiful L P p s) (hPQ : ∀ a s, P a s → Q a s) :
    Dutiful L Q p s := within_post hPQ h

/-- The disk and the connections leave the store alone. -/
theorem dutiful_sys {Q : β → Store → Prop} {o : SysOp} {f : o.Ans → BepProg β} {s : Store}
    (hmay : ∀ m ∈ posts (.sys o), Told L m) (h : ∀ s', Kept L s s' → ∀ r, Dutiful L Q (f r) s') :
    Dutiful L Q (sys o >>= f) s := by
  refine within_call_bind fun s' hs' => ⟨hmay, Nat.le_refl 0, fun s'' x hd => ?_, fun s'' r hd => ?_⟩
  · cases hd
    exact steady_refl hs'.along
  · cases hd
    exact h s' hs' r

theorem dutiful_read {Q : β → Store → Prop} {o : DbOp} {f : o.Ans → BepProg β} {s : Store} (hstore : ∀ s, (dbDo s o).1 = s)
    (h : ∀ s', Kept L s s' → ∀ r, (dbDo s' o).2 = some r → Dutiful L Q (f r) s') : Dutiful L Q (db o >>= f) s := by
  refine within_call_bind fun s' hs' => ⟨fun m hm => (by cases hm), Nat.le_refl 0, fun s'' x hd => ?_, fun s'' r hd => ?_⟩
  · cases hd
    rw [hstore]
    exact steady_refl hs'.along
  · generalize hx : some r = x at hd
    cases hd
    rw [hstore]
    exact h s' hs' r hx.symm

/-- A file written over the record it is a copy of. -/
theorem dutiful_stamp {Q : β → Store → Prop} {dir : SyncDirectory} {file : SyncFile} {f : Unit → BepProg β} {s : Store}
    (hfile : Drawn s dir.id file) (h : ∀ s', Kept L s s' → Dutiful L Q (f ()) s') :
    Dutiful L Q (db (.updateSyncFile dir file) >>= f) s := by
  refine within_call_bind fun s' hs' => ⟨fun m hm => (by cases hm), Nat.le_refl 0, fun s'' x hd => ?_, fun s'' r hd => ?_⟩
  · cases hd
    exact steady_stamp hs'.along (hfile.kept hs')
  · generalize some r = x at hd
    cases hd
    exact h _ (hs'.trans (steady_stamp hs'.along (hfile.kept hs')).kept)

section

variable (sha256 : Bytes → Bytes)

theorem dutiful_genBlocks {path : Text} {dir : SyncDirectory} {s : Store} (hs : Along L s) :
    Dutiful L (fun _ s' => Kept L s s') (genBlocks sha256 path dir) s := by
  unfold genBlocks
  cases dir.path with
  | none => exact kept_refl hs
  | some p =>
    refine dutiful_sys (fun m hm => (by cases hm)) fun s' hs' r => ?_
    cases r with
    | none => exact hs'
    | some data =>
      simp only
      cases blocksOf sha256 data with
      | none => trivial
      | some blocks => exact hs'

/-- The infos of an index that is sent are those of the files. -/
theorem dutiful_fileInfos {dir : SyncDirectory} : ∀ {xs : List SyncFile} {s : Store}, Along L s →
    (∀ x ∈ xs, x.versions <+: L (dir.id, x.getName)) →
    Dutiful L (fun r s' => Kept L s s' ∧ ∀ infos, r = .ok infos → Told L ⟨dir.id, infos⟩) (fileInfos sha256 dir xs) s := by
  intro xs
  induction xs with
  | nil =>
    intro s hs _
    refine ⟨kept_refl hs, fun infos h info hinfo => ?_⟩
    cases h
    cases hinfo
  | cons x xs ih =>
    intro s hs hxs
    unfold fileInfos
    cases getSize x with
    | none => trivial
    | some size =>
      rw [unwrap_some, Prog.ret_bind]
      refine dutiful_bind (dutiful_genBlocks sha256 hs) fun r s' hs' => ?_
      cases r with
      | error e => exact ⟨hs', fun infos h => (by cases h)⟩
      | ok blocks =>
        refine dutiful_bind (ih hs'.along fun y hy => hxs y (List.mem_cons_of_mem _ hy)) fun r s'' hs'' => ?_
        obtain ⟨hkept, htold⟩ := hs''
        cases r with
        | error e => exact ⟨hs'.trans hkept, fun infos h => (by cases h)⟩
        | ok infos =>
          refine ⟨hs'.trans hkept, fun infos' h info hinfo => ?_⟩
          cases h
          rcases List.mem_cons.mp hinfo with rfl | hinfo
          · refine ⟨by rw [getName_eq, normal_normal], fun cs hcs => ?_⟩
            cases hcs
            rw [List.map_map]
            exact (List.map_id x.versions).symm ▸ hxs x List.mem_cons_self
          · exact htold infos rfl info hinfo

theorem along_index {s : Store} (hs : Along L s) (folder : Text) :
    ∀ x ∈ s.index folder, x.versions <+: L (folder, x.getName) := by
  intro x hx
  obtain ⟨r, hr, rfl⟩ := List.mem_map.mp hx
  obtain ⟨hr, hfolder⟩ := List.mem_filter.mp hr
  have hlist := hs r hr
  rw [show r.folder = folder by simpa using hfolder] at hlist
  rw [s.getName_file hr]
  exact hlist

theorem dutiful_sendFolders {peer : Peer} : ∀ {dirs : List SyncDirectory} {s : Store},
    Dutiful L (fun _ _ => True) (sendFolders sha256 peer dirs) s := by
  intro dirs
  induction dirs with
  | nil => intro s; trivial
  | cons dir dirs ih =>
    intro s
    unfold sendFolders
    refine dutiful_read (fun _ => rfl) fun s' hs' synced _ => ?_
    cases synced with
    | false => exact ih
    | true =>
      refine dutiful_read (fun _ => rfl) fun s'' hs'' index hindex => ?_
      rw [dbDo_getSyncFiles] at hindex
      cases hindex
      refine dutiful_bind (dutiful_fileInfos sha256 hs''.along (along_index hs''.along dir.id)) fun r s₃ hr => ?_
      cases r with
      | error e => trivial
      | ok files =>
        refine dutiful_sys (fun m hm => ?_) fun s₄ _ _ => ih
        cases List.mem_singleton.mp hm
        exact hr.2 files rfl

theorem dutiful_getPeer {conn : Conn} {s : Store} : Dutiful L (fun _ s' => Kept L s s') (getPeer conn) s := by
  unfold getPeer
  refine dutiful_read (fun _ => rfl) fun s' hs' peers _ => ?_
  cases conn.peerId with
  | none => exact hs'
  | some peerId =>
    simp only
    cases peers.find? fun peer => peerId = peer.deviceId.getD [] with
    | none => exact dutiful_sys (fun m hm => (by cases hm)) fun s'' hs'' _ => hs'.trans hs''
    | some peer => exact hs'

theorem dutiful_sendIndex {conn : Conn} {s : Store} : Dutiful L (fun _ _ => True) (sendIndex sha256 conn) s := by
  unfold sendIndex
  refine dutiful_bind dutiful_getPeer fun r s' hs' => ?_
  cases r with
  | error e => trivial
  | ok peer => exact dutiful_read (fun _ => rfl) fun s'' hs'' dirs _ => dutiful_sendFolders sha256

theorem dutiful_opening {conn : Conn} {s : Store} : Dutiful L (fun _ _ => True) (opening sha256 conn) s := by
  unfold opening
  refine dutiful_bind (dutiful_sendIndex sha256) fun r s' _ => ?_
  cases r <;> trivial

theorem dutiful_directoryUpdated {conn : Conn} {dir : SyncDirectory} {s : Store} :
    Dutiful L (fun _ _ => True) (directoryUpdated sha256 conn dir) s := by
  unfold directoryUpdated
  refine dutiful_bind dutiful_getPeer fun r s' hs' => ?_
  cases r with
  | error e => trivial
  | ok peer =>
    refine dutiful_read (fun _ => rfl) fun s'' hs'' found _ => ?_
    cases found with
    | none => trivial
    | some directory =>
      refine dutiful_read (fun _ => rfl) fun s₃ hs₃ synced _ => ?_
      cases synced with
      | false => trivial
      | true =>
        refine dutiful_bind (dutiful_sendIndex sha256) fun r s₄ _ => ?_
        cases r <;> trivial

theorem dutiful_getBlocksFrom {dir : SyncDirectory} {file : SyncFile} {messageId : Int} : ∀ {blocks : List SyncBlock} {i : Nat}
    {s : Store}, Along L s → Drawn s dir.id file →
    Dutiful L (fun _ s' => Kept L s s') (getBlocksFrom sha256 dir file messageId i blocks) s := by
  intro blocks
  induction blocks with
  | nil => intro i s hs _; exact kept_refl hs
  | cons block blocks ih =>
    intro i s hs hfile
    rw [getBlocksFrom_cons]
    have hfetch : Dutiful L (fun _ s' => Kept L s s') (fetchBlock sha256 dir file messageId i block) s := by
      unfold fetchBlock
      refine dutiful_sys (fun m hm => (by cases hm)) fun s' hs' message => ?_
      split <;> try exact hs'
      split <;> try exact hs'
      split
      · exact hs'
      cases dir.path with
      | none => exact hs'
      | some path =>
        refine dutiful_sys (fun m hm => (by cases hm)) fun s'' hs'' _ => ?_
        have hstamp : Drawn s'' dir.id (stamp file) := (hfile.kept hs').kept hs''
        exact dutiful_stamp hstamp fun s₃ hs₃ => (hs'.trans hs'').trans hs₃
    refine dutiful_bind hfetch fun r s' hs' => ?_
    cases r with
    | error e => exact hs'
    | ok u => exact dutiful_post (ih hs'.along (hfile.kept hs')) fun _ s'' hs'' => hs'.trans hs''

theorem dutiful_getFile {dir : SyncDirectory} {file : SyncFile} {s : Store} (hfile : Drawn s dir.id file) :
    Dutiful L (fun _ s' => Kept L s s') (getFile sha256 dir file) s := by
  unfold getFile
  refine dutiful_sys (fun m hm => (by cases hm)) fun s' hs' messageId => ?_
  split
  · exact hs'
  · exact dutiful_post (dutiful_getBlocksFrom sha256 hs'.along (hfile.kept hs')) fun _ s'' hs'' => hs'.trans hs''

theorem dutiful_getFiles {dir : SyncDirectory} : ∀ {files : List SyncFile} {s : Store}, Along L s →
    (∀ file ∈ files, Drawn s dir.id file) → Dutiful L (fun _ s' => Kept L s s') (getFiles sha256 dir files) s := by
  intro files
  induction files with
  | nil => intro s hs _; exact kept_refl hs
  | cons file files ih =>
    intro s hs hfiles
    have hrest : ∀ {s' : Store}, Kept L s s' → Dutiful L (fun _ s'' => Kept L s s'') (getFiles sha256 dir files) s' := by
      intro s' hs'
      refine dutiful_post (ih hs'.along fun f hf => ?_) fun _ s'' hs'' => hs'.trans hs''
      exact (hfiles f (List.mem_cons_of_mem _ hf)).kept hs'
    unfold getFiles
    cases dir.path with
    | none => exact kept_refl hs
    | some path =>
      refine dutiful_sys (fun m hm => (by cases hm)) fun s' hs' present => ?_
      split
      · refine dutiful_bind (dutiful_getFile sha256 ((hfiles file List.mem_cons_self).kept hs')) fun r s'' hs'' => ?_
        cases r with
        | error e => exact hs'.trans hs''
        | ok u => exact hrest (hs'.trans hs'')
      · exact hrest hs'

theorem dutiful_getDirectory {dir : SyncDirectory} {s : Store} :
    Dutiful L (fun _ _ => True) (getDirectory sha256 dir) s := by
  unfold getDirectory
  refine dutiful_read (fun _ => rfl) fun s' hs' index hindex => ?_
  rw [dbDo_getSyncFiles] at hindex
  cases hindex
  refine dutiful_bind (dutiful_getFiles sha256 hs'.along fun _ hf => drawn_index hf) fun r s'' hs'' => ?_
  cases r with
  | error e => trivial
  | ok u => exact dutiful_read (fun _ => rfl) fun _ _ _ _ => trivial

/-- The tasks an operation starts. -/
theorem dutiful_started {ι κ : Type} (w : Wires ι κ) (i : ι) (e : κ) (o : Op) (s : Store) :
    ∀ t ∈ started sha256 w i e o, Dutiful L (fun _ _ => True) t.2 s := by
  intro t ht
  cases o with
  | db o =>
    cases o with
    | directoryChanged dir =>
      obtain ⟨e', -, rfl⟩ := List.mem_map.mp ht
      exact dutiful_directoryUpdated sha256
    | _ => cases ht
  | sys o =>
    cases o with
    | spawnGetDirectory dir =>
      cases List.mem_singleton.mp ht
      exact dutiful_getDirectory sha256
    | _ => cases ht

end

/-! ## What they are going to do -/

/-- The answers there are while the folders, the peers and the shares stay those of a store. -/
def Answers (s₀ : Store) (o : Op) (r : o.Ans) : Prop := ∃ s s', SameFolders s₀ s ∧ Acts s o s' (some r)

theorem acts_db {s s' : Store} {o : DbOp} {x : Option o.Ans} (h : Acts s (.db o) s' x) :
    (dbDo s o).1 = s' ∧ (dbDo s o).2 = x := by
  cases h
  exact ⟨rfl, rfl⟩

theorem answers_db {s₀ : Store} {o : DbOp} {r : o.Ans} (h : Answers s₀ (.db o) r) :
    ∃ s, SameFolders s₀ s ∧ (dbDo s o).2 = some r := by
  obtain ⟨s, s', hs, hd⟩ := h
  exact ⟨s, hs, (acts_db hd).2⟩

def Failed {ε : Type} (r : Except ε Unit) : Prop := r ≠ .ok ()

theorem failed_error {ε : Type} {r : Except ε Unit} (h : Failed r) : ∃ e, r = .error e := by
  cases r with
  | error e => exact ⟨e, rfl⟩
  | ok u => exact absurd rfl h

/-- The folder is shared with the peer of the connection. -/
def Shares (s₀ : Store) (conn : Conn) (folder : Text) : Prop :=
  ∃ id peer, conn.peerId = some id ∧ s₀.peers.find? (fun peer => id = peer.deviceId.getD []) = some peer ∧
    folder ∈ s₀.folders.map FolderRow.id ∧ s₀.isDirectorySynced folder peer.id = true

/-- It sends the index of the folder, with the files it read. -/
def Sends {ε : Type} (folder : Text) (files : List SyncFile) (p : BepProg (Except ε Unit)) : Prop :=
  ∃ infos k, p = .ask (.sys (.submitMessage (.index ⟨folder, infos⟩))) k ∧
    infos.map (fun info => (info.name, info.version)) =
      files.map fun x => (x.getName, some (x.versions.map fun v => ⟨v.1, v.2⟩))

/-- It reads the index of the folder, and is going to send it. -/
def Reads {ε : Type} (s₀ : Store) (folder : Text) (p : BepProg (Except ε Unit)) : Prop :=
  ∃ k, p = .ask (.db (.getSyncFiles folder)) k ∧ ∀ files, Leads (Answers s₀) Failed (Sends folder files) (k files)

/-- It tells all connections of the news of the folder. -/
def Spreads (folder : Text) (p : Work) : Prop := ∃ dir k, dir.id = folder ∧ p = .ask (.db (.directoryChanged dir)) k

/-- It starts a download of the folder. -/
def Spawns (folder : Text) (p : BepProg Unit) : Prop := ∃ dir k, dir.id = folder ∧ p = .ask (.sys (.spawnGetDirectory dir)) k

theorem Sends.bind {ε ε' : Type} {folder : Text} {files : List SyncFile} {p : BepProg (Except ε Unit)}
    (h : Sends folder files p) (f : Except ε Unit → BepProg (Except ε' Unit)) : Sends folder files (p >>= f) := by
  obtain ⟨infos, k, rfl, hinfos⟩ := h
  exact ⟨infos, _, rfl, hinfos⟩

theorem Reads.bind {ε ε' : Type} {s₀ : Store} {folder : Text} {p : BepProg (Except ε Unit)} (h : Reads s₀ folder p)
    {f : Except ε Unit → BepProg (Except ε' Unit)} (hf : ∀ r Goal, Failed r → Leads (Answers s₀) Failed Goal (f r)) :
    Reads s₀ folder (p >>= f) := by
  obtain ⟨k, rfl, hk⟩ := h
  exact ⟨_, rfl, fun files => leads_bind (fun _ h => h.bind f) (fun r hr => hf r _ hr) (hk files)⟩

section

variable (sha256 : Bytes → Bytes) {s₀ : Store}

theorem ok_fileInfos (R : (o : Op) → o.Ans → Prop) (dir : SyncDirectory) : ∀ xs : List SyncFile,
    Ok (S := bep) (fun _ => True) R
      (fun r => ∀ infos, r = .ok infos → infos.map (fun info => (info.name, info.version)) =
        xs.map fun x => (x.getName, some (x.versions.map fun v => ⟨v.1, v.2⟩)))
      (fileInfos sha256 dir xs) := by
  intro xs
  induction xs with
  | nil =>
    intro infos h
    cases h
    rfl
  | cons x xs ih =>
    unfold fileInfos
    refine ok_bind (fun _ _ => ?_) (ok_unwrap fun _ h => h)
    refine ok_bind (fun r _ => ?_) (ok_any R (genBlocks sha256 x.path dir))
    cases r with
    | error e => exact fun infos h => (by cases h)
    | ok blocks =>
      refine ok_bind (fun r hr => ?_) ih
      cases r with
      | error e => exact fun infos h => (by cases h)
      | ok infos =>
        intro infos' h
        cases h
        rw [List.map_cons, List.map_cons, hr infos rfl]

theorem ok_getPeer {conn : Conn} {id : Bytes} {peer : Peer} (hid : conn.peerId = some id)
    (hpeer : s₀.peers.find? (fun peer => id = peer.deviceId.getD []) = some peer) :
    Ok (S := bep) (fun _ => True) (Answers s₀) (fun r => r = .ok peer) (getPeer conn) := by
  unfold getPeer
  refine ok_call_bind trivial fun peers hpeers => ?_
  obtain ⟨s, hs, hread⟩ := answers_db hpeers
  cases hread
  rw [hid]
  simp only [hs.peers, hpeer]
  exact rfl

theorem leads_sendFolders {peer : Peer} {folder : Text} (hsynced : s₀.isDirectorySynced folder peer.id = true) :
    ∀ {dirs : List SyncDirectory}, folder ∈ dirs.map SyncDirectory.id →
      Leads (Answers s₀) Failed (Reads s₀ folder) (sendFolders sha256 peer dirs) := by
  intro dirs
  induction dirs with
  | nil => intro h; cases h
  | cons dir dirs ih =>
    intro hmem
    unfold sendFolders
    refine leads_call fun synced hanswer => ?_
    obtain ⟨s, hs, hread⟩ := answers_db hanswer
    have hsame : s.isDirectorySynced dir.id peer.id = s₀.isDirectorySynced dir.id peer.id := by
      unfold Tables.isDirectorySynced
      rw [hs.shares]
    cases hread
    rw [hsame]
    by_cases hdir : dir.id = folder
    · subst hdir
      rw [if_pos hsynced]
      refine .there ⟨_, rfl, fun files => ?_⟩
      refine leads_after (p := fileInfos sha256 dir files) (fun r hr => ?_) (ok_fileInfos sha256 (Answers s₀) dir files)
      cases r with
      | error e => exact .failed (fun h => by cases h)
      | ok infos => exact .there ⟨infos, _, rfl, hr infos rfl⟩
    · have hrest : folder ∈ dirs.map SyncDirectory.id := by
        rcases List.mem_cons.mp hmem with h | h
        · exact absurd h.symm hdir
        · exact h
      split
      · refine leads_call fun files _ => leads_after (fun r _ => ?_) (ok_any _ (fileInfos sha256 dir files))
        cases r with
        | error e => exact .failed (fun h => by cases h)
        | ok infos => exact leads_call fun _ _ => ih hrest
      · exact ih hrest

theorem leads_sendIndex {conn : Conn} {folder : Text} (h : Shares s₀ conn folder) :
    Leads (Answers s₀) Failed (Reads s₀ folder) (sendIndex sha256 conn) := by
  obtain ⟨id, peer, hid, hpeer, hfolder, hsynced⟩ := h
  unfold sendIndex
  refine leads_after (fun r hr => ?_) (ok_getPeer hid hpeer)
  subst hr
  refine leads_call fun dirs hanswer => leads_sendFolders sha256 hsynced ?_
  obtain ⟨s, hs, hread⟩ := answers_db hanswer
  cases hread
  unfold Tables.getSyncDirectories
  rw [hs.folders, List.map_map]
  exact hfolder

/-- The first `send_index` of a connection sends every folder shared on it. -/
theorem leads_opening {conn : Conn} {folder : Text} (h : Shares s₀ conn folder) :
    Leads (Answers s₀) Failed (Reads s₀ folder) (opening sha256 conn) := by
  unfold opening
  refine leads_bind (fun p hp => ?_) (fun r hr => ?_) (leads_sendIndex sha256 h)
  · refine hp.bind fun r Goal hr => ?_
    obtain ⟨e, rfl⟩ := failed_error hr
    exact .failed (fun h => by cases h)
  · obtain ⟨e, rfl⟩ := failed_error hr
    exact .failed (fun h => by cases h)

/-- A `directory_updated` of a shared folder sends every folder that is. -/
theorem leads_directoryUpdated {conn : Conn} {folder : Text} (h : Shares s₀ conn folder) {dir : SyncDirectory}
    (hdir : dir.id = folder) :
    Leads (Answers s₀) Failed (Reads s₀ folder) (directoryUpdated sha256 conn dir) := by
  obtain ⟨id, peer, hid, hpeer, hfolder, hsynced⟩ := h
  have hknown : ∃ found, s₀.getSyncDirectory dir.id = some found := by
    obtain ⟨row, hrow, hid⟩ := List.mem_map.mp hfolder
    refine Option.isSome_iff_exists.mp (List.find?_isSome.mpr ⟨modelToSyncDir row, List.mem_map_of_mem hrow, ?_⟩)
    exact decide_eq_true (hid.trans hdir.symm)
  unfold directoryUpdated
  refine leads_after (fun r hr => ?_) (ok_getPeer hid hpeer)
  subst hr
  refine leads_call fun found hanswer => ?_
  obtain ⟨s, hs, hread⟩ := answers_db hanswer
  obtain ⟨directory, hdirectory⟩ := hknown
  have hfound : found = some directory := by
    have hsame : s.getSyncDirectory dir.id = s₀.getSyncDirectory dir.id := by
      unfold Tables.getSyncDirectory Tables.getSyncDirectories
      rw [hs.folders]
    exact (Option.some.inj hread).symm.trans (hsame.trans hdirectory)
  subst hfound
  refine leads_call fun synced hanswer' => ?_
  obtain ⟨s', hs', hread'⟩ := answers_db hanswer'
  have hyes : synced = true := by
    have hsame : s'.isDirectorySynced directory.id peer.id = s₀.isDirectorySynced folder peer.id := by
      unfold Tables.isDirectorySynced
      rw [hs'.shares, getSyncDirectory_id hdirectory, hdir]
    exact (Option.some.inj hread').symm.trans (hsame.trans hsynced)
  subst hyes
  refine leads_bind (fun p hp => ?_) (fun r hr => ?_) (leads_sendIndex sha256 ⟨id, peer, hid, hpeer, hfolder, hsynced⟩)
  · refine hp.bind fun r Goal hr => ?_
    obtain ⟨e, rfl⟩ := failed_error hr
    exact .failed (fun h => by cases h)
  · obtain ⟨e, rfl⟩ := failed_error hr
    exact .failed (fun h => by cases h)

/-- A `get_directory` ends with the news of its folder. -/
theorem leads_getDirectory {R : (o : Op) → o.Ans → Prop} (dir : SyncDirectory) :
    Leads (S := bep) R Failed (Spreads dir.id) (getDirectory sha256 dir) := by
  unfold getDirectory
  refine leads_call fun index _ => leads_after (fun r _ => ?_) (ok_any R (getFiles sha256 dir index))
  cases r with
  | error e => exact .failed (fun h => by cases h)
  | ok u => exact .there ⟨dir, _, rfl, rfl⟩

end

/-- A `handle_index` that changed something starts a download. -/
theorem leads_handleFiles {R : (o : Op) → o.Ans → Prop} (dir : SyncDirectory) : ∀ (files : List FileInfo) (l : List SyncFile),
    Leads (S := bep) R (fun _ => False) (Spawns dir.id) (handleFiles dir files l true >>= finish dir) := by
  intro files
  induction files with
  | nil => intro l; exact .there ⟨dir, _, rfl, rfl⟩
  | cons info files ih =>
    intro l
    rw [handleFiles_cons]
    cases incoming l info with
    | none => exact .panicked
    | some f =>
      cases f with
      | none => exact ih l
      | some f => exact .on fun _ _ => ih _

end BepRs.Gossip
