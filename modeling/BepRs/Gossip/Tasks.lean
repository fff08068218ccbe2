/-
  BepRs.Gossip.Tasks — what the tasks of a node send at most, and what they do to its store.

  Everything is counted in Index messages (`price`): an index sent is one, and the start of a
  task costs what the task can send. A `directory_updated` sends one message for each folder
  at most, a `get_directory` ends with one of these on every connection (`room`), and that is
  what a `handle_index` that changed something starts.

  The tasks but `handle_index` leave the measure alone, whatever runs between their calls
  (`terms`), and what they send stays within the bounds.
-/

import BepRs.Gossip.Measure
import BepRs.Sync.Fetch

namespace BepRs.Gossip

open BepRs.Lib BepRs.Lib.Path BepRs.Lib.Task BepRs.State BepRs.Sync

/-- An index that keeps within the bounds. -/
def SaneIndex (B : Bounds) (m : Index) : Prop := ∀ info ∈ m.files, SaneInfo B m.folder info

/-- How many messages come of an operation; `room` is for one `directory_updated` on every
    connection. -/
def price (room : Nat) : Op → Nat
  | .sys (.submitMessage (.index _)) => 1
  | .db (.directoryChanged _) => room
  | .sys (.spawnGetDirectory _) => room
  | _ => 0

def terms (B : Bounds) (room : Nat) : Terms bep Store where
  does := Acts
  rely := Later B
  guar := Calm B
  may _ o := ∀ m ∈ posts o, SaneIndex B m
  cost := price room

variable {B : Bounds} {room : Nat} {α β : Type}

/-! ## One operation -/

theorem within_free {P : α → Store → Prop} {Q : β → Store → Prop} {p : BepProg α} {f : α → BepProg β} {n : Nat} {s : Store}
    (hp : Within (terms B room) P p 0 s) (hf : ∀ a s', P a s' → Within (terms B room) Q (f a) n s') :
    Within (terms B room) Q (p >>= f) n s := by
  have h := within_bind hf hp
  rwa [Nat.zero_add] at h

/-- The disk and the connections leave the store alone. -/
theorem within_sys {Q : β → Store → Prop} {o : SysOp} {f : o.Ans → BepProg β} {n : Nat} {s : Store}
    (hmay : ∀ m ∈ posts (.sys o), SaneIndex B m) (hcost : price room (.sys o) ≤ n)
    (h : ∀ s', Later B s s' → ∀ r, Within (terms B room) Q (f r) (n - price room (.sys o)) s') :
    Within (terms B room) Q (sys o >>= f) n s := by
  refine within_call_bind fun s' hs' => ⟨hmay, hcost, fun s'' x hd => ?_, fun s'' r hd => ?_⟩
  · cases hd
    exact calm_refl hs'.bounded
  · cases hd
    exact h s' hs' r

theorem within_read {Q : β → Store → Prop} {o : DbOp} {f : o.Ans → BepProg β} {n : Nat} {s : Store}
    (hstore : ∀ s, (dbDo s o).1 = s) (hcost : price room (.db o) ≤ n)
    (h : ∀ s', Later B s s' → ∀ r, (dbDo s' o).2 = some r → Within (terms B room) Q (f r) (n - price room (.db o)) s') :
    Within (terms B room) Q (db o >>= f) n s := by
  refine within_call_bind fun s' hs' => ⟨fun m hm => (by cases hm), hcost, fun s'' x hd => ?_, fun s'' r hd => ?_⟩
  · cases hd
    rw [hstore]
    exact calm_refl hs'.bounded
  · generalize hx : some r = x at hd
    cases hd
    rw [hstore]
    exact h s' hs' r hx.symm

/-- A file written over the record it is a copy of. -/
theorem within_stamp {Q : β → Store → Prop} {dir : SyncDirectory} {file : SyncFile} {f : Unit → BepProg β} {n : Nat} {s : Store}
    (hfile : Copied s dir.id file) (h : ∀ s', Later B s s' → Within (terms B room) Q (f ()) n s') :
    Within (terms B room) Q (db (.updateSyncFile dir file) >>= f) n s := by
  refine within_call_bind fun s' hs' => ⟨fun m hm => (by cases hm), Nat.zero_le _, fun s'' x hd => ?_, fun s'' r hd => ?_⟩
  · cases hd
    exact calm_stamp hs'.bounded (hfile.later hs')
  · generalize some r = x at hd
    cases hd
    exact h _ (hs'.trans (calm_stamp hs'.bounded (hfile.later hs')).later)

/-! ## Sending an index -/

/-- A file of the folder, within the bounds. -/
def Small (B : Bounds) (folder : Text) (x : SyncFile) : Prop :=
  (folder, x.getName) ∈ B.known ∧ x.versions.length ≤ B.longest (folder, x.getName)

theorem Copied.small {s : Store} (hs : Bounded B s) {folder : Text} {x : SyncFile} (h : Copied s folder x) :
    Small B folder x := by
  obtain ⟨r, hr, -, hfolder, hpath, hlen⟩ := h
  have hname : x.getName = r.name := by rw [getName_eq, hpath, s.name_normal hr]
  obtain ⟨hknown, hshort⟩ := hs r hr
  rw [hfolder] at hknown hshort
  rw [Small, hname]
  exact ⟨hknown, Nat.le_trans hlen hshort⟩

section

variable (sha256 : Bytes → Bytes)

theorem within_genBlocks {path : Text} {dir : SyncDirectory} {s : Store} (hs : Bounded B s) :
    Within (terms B room) (fun _ s' => Later B s s') (genBlocks sha256 path dir) 0 s := by
  unfold genBlocks
  cases dir.path with
  | none => exact later_refl hs
  | some p =>
    refine within_sys (fun m hm => (by cases hm)) (Nat.le_refl _) fun s' hs' r => ?_
    cases r with
    | none => exact hs'
    | some data =>
      simp only
      cases blocksOf sha256 data with
      | none => trivial
      | some blocks => exact hs'

/-- The names and the version lists in an index that is sent are those of the files. -/
theorem within_fileInfos {dir : SyncDirectory} : ∀ {xs : List SyncFile} {s : Store}, Bounded B s →
    (∀ x ∈ xs, Small B dir.id x) →
    Within (terms B room)
      (fun r s' => Later B s s' ∧ ∀ infos, r = .ok infos → ∀ info ∈ infos, SaneInfo B dir.id info)
      (fileInfos sha256 dir xs) 0 s := by
  intro xs
  induction xs with
  | nil =>
    intro s hs _
    refine ⟨later_refl hs, fun infos h info hinfo => ?_⟩
    cases h
    cases hinfo
  | cons x xs ih =>
    intro s hs hsmall
    unfold fileInfos
    cases getSize x with
    | none => trivial
    | some size =>
      rw [unwrap_some, Prog.ret_bind]
      refine within_free (within_genBlocks sha256 hs) fun r s' hs' => ?_
      cases r with
      | error e => exact ⟨hs', fun infos h => (by cases h)⟩
      | ok blocks =>
        refine within_free (ih hs'.bounded fun y hy => hsmall y (List.mem_cons_of_mem _ hy)) fun r s'' hs'' => ?_
        obtain ⟨hlater, hsane⟩ := hs''
        cases r with
        | error e => exact ⟨hs'.trans hlater, fun infos h => (by cases h)⟩
        | ok infos =>
          refine ⟨hs'.trans hlater, fun infos' h info hinfo => ?_⟩
          cases h
          rcases List.mem_cons.mp hinfo with rfl | hinfo
          · obtain ⟨hknown, hlen⟩ := hsmall x List.mem_cons_self
            refine ⟨by rw [getName_eq, normal_normal], hknown, fun cs hcs => ?_⟩
            cases hcs
            rw [List.length_map]
            exact hlen
          · exact hsane infos rfl info hinfo

theorem within_sendFolders {peer : Peer} : ∀ {dirs : List SyncDirectory} {s : Store},
    Within (terms B room) (fun _ _ => True) (sendFolders sha256 peer dirs) dirs.length s := by
  intro dirs
  induction dirs with
  | nil => intro s; trivial
  | cons dir dirs ih =>
    intro s
    unfold sendFolders
    refine within_read (fun _ => rfl) (Nat.zero_le _) fun s' hs' synced _ => ?_
    cases synced with
    | false => exact within_more (Nat.le_succ _) ih
    | true =>
      refine within_read (fun _ => rfl) (Nat.zero_le _) fun s'' hs'' index hindex => ?_
      rw [dbDo_getSyncFiles] at hindex
      cases hindex
      have hsmall : ∀ x ∈ s''.index dir.id, Small B dir.id x := fun x hx => (copied_index hx).small hs''.bounded
      refine within_free (within_fileInfos sha256 hs''.bounded hsmall) fun r s₃ hr => ?_
      cases r with
      | error e => trivial
      | ok files =>
        refine within_sys (fun m hm => ?_) (Nat.le_add_left _ _) fun s₄ _ _ => ih
        cases List.mem_singleton.mp hm
        exact hr.2 files rfl

theorem within_getPeer {conn : Conn} {s : Store} :
    Within (terms B room) (fun _ s' => Later B s s') (getPeer conn) 0 s := by
  unfold getPeer
  refine within_read (fun _ => rfl) (Nat.zero_le _) fun s' hs' peers _ => ?_
  cases conn.peerId with
  | none => exact hs'
  | some peerId =>
    simp only
    cases peers.find? fun peer => peerId = peer.deviceId.getD [] with
    | none => exact within_sys (fun m hm => (by cases hm)) (Nat.le_refl _) fun s'' hs'' _ => hs'.trans hs''
    | some peer => exact hs'

theorem within_sendIndex {conn : Conn} {s : Store} :
    Within (terms B room) (fun _ _ => True) (sendIndex sha256 conn) s.folders.length s := by
  unfold sendIndex
  refine within_free within_getPeer fun r s' hs' => ?_
  cases r with
  | error e => trivial
  | ok peer =>
    refine within_read (fun _ => rfl) (Nat.zero_le _) fun s'' hs'' dirs hdirs => ?_
    cases hdirs
    have hlen : s''.getSyncDirectories.length = s.folders.length := by
      rw [← hs'.folders, ← hs''.folders]
      exact List.length_map _
    rw [← hlen]
    exact within_sendFolders sha256

theorem within_directoryUpdated {conn : Conn} {dir : SyncDirectory} {s : Store} :
    Within (terms B room) (fun _ _ => True) (directoryUpdated sha256 conn dir) s.folders.length s := by
  unfold directoryUpdated
  refine within_free within_getPeer fun r s' hs' => ?_
  cases r with
  | error e => trivial
  | ok peer =>
    refine within_read (fun _ => rfl) (Nat.zero_le _) fun s'' hs'' found _ => ?_
    cases found with
    | none => trivial
    | some directory =>
      refine within_read (fun _ => rfl) (Nat.zero_le _) fun s₃ hs₃ synced _ => ?_
      cases synced with
      | false => trivial
      | true =>
        rw [← hs'.folders, ← hs''.folders, ← hs₃.folders]
        refine within_bind (m := 0) (fun r s₄ _ => ?_) (within_sendIndex sha256)
        cases r <;> trivial

/-! ## Downloading -/

theorem within_getBlocksFrom {dir : SyncDirectory} {file : SyncFile} {messageId : Int} : ∀ {blocks : List SyncBlock} {i : Nat}
    {s : Store}, Bounded B s → Copied s dir.id file →
    Within (terms B room) (fun _ s' => Later B s s') (getBlocksFrom sha256 dir file messageId i blocks) 0 s := by
  intro blocks
  induction blocks with
  | nil => intro i s hs _; exact later_refl hs
  | cons block blocks ih =>
    intro i s hs hfile
    rw [getBlocksFrom_cons]
    have hfetch : Within (terms B room) (fun _ s' => Later B s s') (fetchBlock sha256 dir file messageId i block) 0 s := by
      unfold fetchBlock
      refine within_sys (fun m hm => (by cases hm)) (Nat.le_refl _) fun s' hs' message => ?_
      split <;> try exact hs'
      split <;> try exact hs'
      split
      · exact hs'
      cases dir.path with
      | none => exact hs'
      | some path =>
        refine within_sys (fun m hm => (by cases hm)) (Nat.le_refl _) fun s'' hs'' _ => ?_
        have hstamp : Copied s'' dir.id (stamp file) := (hfile.later hs').later hs''
        exact within_stamp hstamp fun s₃ hs₃ => (hs'.trans hs'').trans hs₃
    refine within_free hfetch fun r s' hs' => ?_
    cases r with
    | error e => exact hs'
    | ok u =>
      exact within_post (fun _ s'' hs'' => hs'.trans hs'') (ih hs'.bounded (hfile.later hs'))

theorem within_getFile {dir : SyncDirectory} {file : SyncFile} {s : Store} (hfile : Copied s dir.id file) :
    Within (terms B room) (fun _ s' => Later B s s') (getFile sha256 dir file) 0 s := by
  unfold getFile
  refine within_sys (fun m hm => (by cases hm)) (Nat.le_refl _) fun s' hs' messageId => ?_
  split
  · exact hs'
  · exact within_post (fun _ s'' hs'' => hs'.trans hs'') (within_getBlocksFrom sha256 hs'.bounded (hfile.later hs'))

theorem within_getFiles {dir : SyncDirectory} : ∀ {files : List SyncFile} {s : Store}, Bounded B s →
    (∀ file ∈ files, Copied s dir.id file) →
    Within (terms B room) (fun _ s' => Later B s s') (getFiles sha256 dir files) 0 s := by
  intro files
  induction files with
  | nil => intro s hs _; exact later_refl hs
  | cons file files ih =>
    intro s hs hfiles
    have hrest : ∀ {s' : Store}, Later B s s' →
        Within (terms B room) (fun _ s'' => Later B s s'') (getFiles sha256 dir files) 0 s' := by
      intro s' hs'
      refine within_post (fun _ s'' hs'' => hs'.trans hs'') (ih hs'.bounded fun f hf => ?_)
      exact (hfiles f (List.mem_cons_of_mem _ hf)).later hs'
    unfold getFiles
    cases dir.path with
    | none => exact later_refl hs
    | some path =>
      refine within_sys (fun m hm => (by cases hm)) (Nat.le_refl _) fun s' hs' present => ?_
      split
      · refine within_free (within_getFile sha256 ((hfiles file List.mem_cons_self).later hs')) fun r s'' hs'' => ?_
        cases r with
        | error e => exact hs'.trans hs''
        | ok u => exact hrest (hs'.trans hs'')
      · exact hrest hs'

theorem within_getDirectory {dir : SyncDirectory} {s : Store} :
    Within (terms B room) (fun _ _ => True) (getDirectory sha256 dir) room s := by
  unfold getDirectory
  refine within_read (fun _ => rfl) (Nat.zero_le _) fun s' hs' index hindex => ?_
  rw [dbDo_getSyncFiles] at hindex
  cases hindex
  refine within_free (within_getFiles sha256 hs'.bounded fun _ hf => copied_index hf) fun r s'' hs'' => ?_
  cases r with
  | error e => trivial
  | ok u => exact within_read (fun _ => rfl) (Nat.le_refl _) fun _ _ _ _ => trivial

/-! ## The tasks an operation starts -/

/-- The result of a spawned task is dropped. -/
theorem within_drop {P : α → Store → Prop} {p : BepProg α} {n : Nat} {s : Store} (h : Within (terms B room) P p n s) :
    Within (terms B room) (fun _ _ => True) (do let _ ← p) n s := by
  refine within_bind (m := 0) (fun _ _ _ => ?_) h
  trivial

theorem within_announce {conn : Conn} {dir : SyncDirectory} {s : Store} :
    Within (terms B room) (fun _ _ => True) (announce sha256 conn dir) s.folders.length s :=
  within_drop (within_directoryUpdated sha256)

theorem within_download {dir : SyncDirectory} {s : Store} :
    Within (terms B room) (fun _ _ => True) (download sha256 dir) room s :=
  within_drop (within_getDirectory sha256)

theorem affords_announces {dir : SyncDirectory} {s : Store} : ∀ conns : List Conn,
    Affords (terms B room) s (conns.map fun conn => announce sha256 conn dir) (conns.length * s.folders.length) := by
  intro conns
  induction conns with
  | nil => trivial
  | cons conn conns ih =>
    refine ⟨s.folders.length, conns.length * s.folders.length, ?_, within_announce sha256, ih⟩
    rw [List.length_cons, Nat.add_mul, Nat.one_mul, Nat.add_comm]

/-- The price of an operation pays for what it sends and for what it starts. -/
theorem affords_startedBy {conns : List Conn} {s : Store} (hroom : room = conns.length * s.folders.length) (o : Op) :
    ∃ n, (posts o).length + n ≤ price room o ∧ Affords (terms B room) s (startedBy sha256 conns o) n := by
  cases o with
  | db o =>
    cases o with
    | directoryChanged dir => exact ⟨room, by simp [posts, price], hroom ▸ affords_announces sha256 conns⟩
    | _ => exact ⟨0, Nat.zero_le _, trivial⟩
  | sys o =>
    cases o with
    | spawnGetDirectory dir =>
      exact ⟨room, by simp [posts, price], room, 0, Nat.le_refl _, within_download sha256, trivial⟩
    | submitMessage m =>
      cases m with
      | index m => exact ⟨0, Nat.le_refl _, trivial⟩
      | _ => exact ⟨0, Nat.zero_le _, trivial⟩
    | _ => exact ⟨0, Nat.zero_le _, trivial⟩

theorem affords_waiting {conns : List Conn} {s : Store} : ∀ {tasks : List (BepProg Unit)},
    (∀ p ∈ tasks, Waiting sha256 conns p) → ∃ n, Affords (terms B room) s tasks n := by
  intro tasks
  induction tasks with
  | nil => intro _; exact ⟨0, trivial⟩
  | cons p tasks ih =>
    intro h
    obtain ⟨b, hb⟩ := ih fun q hq => h q (List.mem_cons_of_mem _ hq)
    obtain ⟨a, ha⟩ : ∃ a, Within (terms B room) (fun _ _ => True) p a s := by
      cases h p List.mem_cons_self with
      | download dir => exact ⟨room, within_download sha256⟩
      | announce conn dir _ => exact ⟨s.folders.length, within_announce sha256⟩
      | sendIndex conn _ => exact ⟨s.folders.length, within_drop (within_sendIndex sha256)⟩
    exact ⟨a + b, a, b, Nat.le_refl _, ha, hb⟩

end

/-! ## `handle_index` -/

/-- A `handle_index` on its way, with what it has to spend. The other tasks of the node do not
    move the measure between its calls; it moves it down only, and with its first change by one
    at least, which pays for the download it starts. -/
def Handles (B : Bounds) (room : Nat) : BepProg Unit → Bool → Nat → Store → Prop
  | .ret _, _, _, _ => True
  | .panic, _, _, _ => True
  | .ask o k, changed, n, s => ∀ s', Calm B s s' → ∀ s'' x, Acts s' o s'' x →
      posts o = [] ∧ price room o ≤ n ∧ Later B s' s'' ∧ gap B s'' + news changed s' s'' ≤ gap B s' ∧
        ∀ r, x = some r → Handles B room (k r) (changed || decide (s''.records ≠ s'.records))
          (n - price room o + room * news changed s' s'') s''

theorem Handles.calm {p : BepProg Unit} {changed : Bool} {n : Nat} {s s' : Store} (h : Handles B room p changed n s)
    (hs : Calm B s s') : Handles B room p changed n s' := by
  cases p with
  | ret u => trivial
  | panic => trivial
  | ask o k => exact fun s'' hs'' => h s'' (hs.trans hs'')

@[simp] theorem news_self (changed : Bool) (s : Store) : news changed s s = 0 := by simp [news]

theorem handles_read {o : DbOp} {f : o.Ans → BepProg Unit} {changed : Bool} {n : Nat} {s : Store}
    (hstore : ∀ s, (dbDo s o).1 = s) (hcost : price room (.db o) = 0)
    (h : ∀ s', Calm B s s' → ∀ r, (dbDo s' o).2 = some r → Handles B room (f r) changed n s') :
    Handles B room (db o >>= f) changed n s := by
  intro s' hs' s'' x hd
  cases hd
  rw [hstore]
  refine ⟨rfl, by omega, later_refl hs'.later.bounded, by rw [news_self]; exact Nat.le_refl _, fun r hr => ?_⟩
  have hbudget : n - price room (.db o) + room * news changed s' s' = n := by rw [hcost, news_self]; rfl
  have hflag : (changed || decide (s'.records ≠ s'.records)) = changed := by simp
  rw [hbudget, hflag]
  exact h s' hs' r hr

/-- The end of `handle_index`. -/
def finish (dir : SyncDirectory) (changed : Bool) : BepProg Unit :=
  if changed then sys (.spawnGetDirectory dir) else .ret ()

theorem handles_finish {dir : SyncDirectory} {changed : Bool} {n : Nat} {s : Store} (hn : changed = true → room ≤ n) :
    Handles B room (finish dir changed) changed n s := by
  cases changed with
  | false => trivial
  | true =>
    intro s' hs' s'' x hd
    cases hd
    exact ⟨rfl, hn rfl, later_refl hs'.later.bounded, by rw [news_self]; exact Nat.le_refl _, fun _ _ => trivial⟩

theorem records_ne_of_gap_lt {s s' : Store} (h : gap B s' < gap B s) : s'.records ≠ s.records := by
  intro he
  have hsame : gap B s' = gap B s := by
    unfold gap depthAt Store.lookup
    rw [he]
  omega

theorem handles_files {dir : SyncDirectory} : ∀ {files : List FileInfo} {l : List SyncFile} {changed : Bool} {n : Nat}
    {s : Store}, Aligns dir l changed s → (∀ info ∈ files, SaneInfo B dir.id info) → (changed = true → room ≤ n) →
    Handles B room (handleFiles dir files l changed >>= finish dir) changed n s := by
  intro files
  induction files with
  | nil => intro l changed n s _ _ hn; exact handles_finish hn
  | cons info files ih =>
    intro l changed n s ha hsane hn
    have hrest : ∀ i ∈ files, SaneInfo B dir.id i := fun i hi => hsane i (List.mem_cons_of_mem _ hi)
    rw [handleFiles_cons]
    cases hin : incoming l info with
    | none => trivial
    | some w =>
      cases w with
      | none => exact ih ha hrest hn
      | some f =>
        intro s' hs' s'' x hd
        cases hd
        rcases merged_write hs'.later.bounded (ha.calm hs') (hsane info List.mem_cons_self) hin with hsame | ⟨hret, hmerged⟩
        · -- The file has no version: a panic, and nothing is written.
          have hdo : dbDo s' (.updateSyncFile dir f) = (s', none) := hsame
          rw [hdo]
          refine ⟨rfl, Nat.zero_le _, later_refl hs'.later.bounded, by rw [news_self]; exact Nat.le_refl _, fun r hr => ?_⟩
          cases hr
        · have hflag : (changed || decide ((s'.updateSyncFile dir f).1.records ≠ s'.records)) = true := by
            cases changed with
            | true => rfl
            | false => simpa using records_ne_of_gap_lt (hmerged.news rfl)
          have hnews : changed = false → news changed s' (s'.updateSyncFile dir f).1 = 1 := by
            intro hch
            rw [news, if_pos ⟨hch, records_ne_of_gap_lt (hmerged.news hch)⟩]
          refine ⟨rfl, Nat.zero_le _, hmerged.later, ?_, fun r _ => ?_⟩
          · cases hch : changed with
            | true => exact hmerged.down
            | false =>
              have hlt := hmerged.news hch
              rw [hch] at hnews
              rw [show dbDo s' (.updateSyncFile dir f) = s'.updateSyncFile dir f from rfl, hnews rfl]
              exact hlt
          · rw [show dbDo s' (.updateSyncFile dir f) = s'.updateSyncFile dir f from rfl, hflag]
            refine ih hmerged.aligns hrest fun _ => ?_
            cases hch : changed with
            | true => exact Nat.le_trans (hn hch) (Nat.le_add_right _ _)
            | false =>
              rw [hch] at hnews
              rw [hnews rfl, Nat.mul_one]
              exact Nat.le_add_left _ _

/-- A `handle_index` has nothing to spend at first. -/
theorem handles_handleIndex {m : Index} (hm : SaneIndex B m) (s : Store) :
    Handles B room (handleIndex m.folder m.files) false 0 s := by
  unfold handleIndex
  refine handles_read (fun _ => rfl) rfl fun s' _ found hfound => ?_
  cases found with
  | none => trivial
  | some dir =>
    have hid : dir.id = m.folder := getSyncDirectory_id (Option.some.inj hfound)
    refine handles_read (fun _ => rfl) rfl fun s'' _ index hindex => ?_
    rw [dbDo_getSyncFiles] at hindex
    cases hindex
    refine handles_files (aligns_index s'' dir) (fun info hinfo => ?_) (fun h => by cases h)
    rw [hid]
    exact hm info hinfo

end BepRs.Gossip
