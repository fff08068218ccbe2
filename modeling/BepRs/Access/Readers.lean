/-
  BepRs.Access.Readers — the readers of several connections, announcing folders to one
  state (`handle_reading` in `src/peer_connection/handlers.rs`).

  A reader asks `get_sync_directory` for an announced folder, calls `add_sync_directory`
  where there was none, and shares the folder with its peer. These are calls of their own,
  each under the state's lock, and the readers' calls come in any order (`readerStep`, one
  call of one reader). The insert panics on an id that is there.

  The readers are clients of `Lib.Insert` whose items are the announced folders
  (`readers_simulate`).
  - `announcements_safe`: no insert fails and every folder gets its row, in every run in
    which no reader finds a folder missing while another is about to add it; and where no
    insert fails until all have ended, the run is one of these.
  - `checksAlone_of_disjoint`: readers that announce no unknown folder in common never do.
  - `announcements_race`: two readers that both find a folder missing.
-/

import BepRs.Access.Absent
import BepRs.Access.Confine
import BepRs.Lib.Insert

namespace BepRs.Access

open BepRs.Lib BepRs.Lib.Path BepRs.Lib.Task BepRs.Lib.Insert BepRs.State BepRs.Sync BepRs.History

variable {ι : Type} [DecidableEq ι] (sha256 : Bytes → Bytes)

/-! ## The readers -/

/-- The ClusterConfigs a connection receives are handled one after the other. -/
def readConfigs (conn : Conn) : List ClusterConfig → LinkProg Unit
  | [] => .ret ()
  | config :: configs => do
    handleClusterConfig conn config
    readConfigs conn configs

structure Readers (ι : Type) where
  host : Host
  now : ι → LinkProg Unit

def Readers.start (host : Host) (conn : ι → Conn) (configs : ι → List ClusterConfig) : Readers ι :=
  ⟨host, fun i => readConfigs (conn i) (configs i)⟩

/-- One call of one reader; a call that panics ends it. -/
def readerStep (i : ι) (c : Readers ι) : Option (Readers ι) :=
  match c.now i with
  | .ask o k =>
    match hostDo sha256 c.host o with
    | (host, some r) => some ⟨host, Function.update c.now i (k r)⟩
    | (host, none) => some ⟨host, Function.update c.now i .panic⟩
  | _ => none

abbrev readersRun : List ι → Readers ι → Option (Readers ι) := Events.run (readerStep sha256)

/-- The folder a reader's next call is to add. -/
def nextAdd : LinkProg Unit → Option Text
  | .ask (.addSyncDirectory none _ (some folder)) _ => some folder
  | _ => none

/-- The folder a reader's next call is to look up. -/
def nextCheck : LinkProg Unit → Option Text
  | .ask (.op (.db (.getSyncDirectory folder))) _ => some folder
  | _ => none

/-- The reader's next call is to add a folder that is there. -/
def AddFails (c : Readers ι) (i : ι) : Prop := ∃ folder ∈ folderIds c.host.node.store, nextAdd (c.now i) = some folder

/-- If the reader's next call finds a folder missing, no reader is about to add it. -/
def ChecksAlone (c : Readers ι) (i : ι) : Prop :=
  ∀ folder, nextCheck (c.now i) = some folder → folder ∉ folderIds c.host.node.store → ∀ j, nextAdd (c.now j) ≠ some folder

/-- A reader has no call left: it returned or panicked. -/
def stopped : LinkProg Unit → Bool
  | .ask _ _ => false
  | _ => true

def AllEnded (c : Readers ι) : Prop := ∀ i, stopped (c.now i) = true

/-! ## The readers as clients -/

/-- What a reader does of its own after it has added a folder. -/
inductive Own where
  | peer
  | share
  | tell
  deriving DecidableEq, Repr

def Own.next : Own → Option Own
  | .peer => some .share
  | .share => some .tell
  | .tell => none

def tellFolder (conn : Conn) (sd : SyncDirectory) (folders : List Folder) : LinkProg Unit := do
  call (S := link) (.newFolder sd)
  handleFolders conn folders

def shareFolder (conn : Conn) (sd : SyncDirectory) (peer : Peer) (folders : List Folder) : LinkProg Unit := do
  call (S := link) (.syncDirectoryWithPeer sd peer)
  tellFolder conn sd folders

def askPeer (conn : Conn) (sd : SyncDirectory) (folders : List Folder) : LinkProg Unit := do
  let peer ← unwrapLink (← lift (getPeer conn))
  shareFolder conn sd peer folders

def addFolder (conn : Conn) (folder : Folder) (folders : List Folder) : LinkProg Unit := do
  let sd ← call (S := link) (.addSyncDirectory none folder.label (some folder.id))
  askPeer conn sd folders

/-- The row of an announced folder. -/
def announcedDir (folder : Folder) : SyncDirectory := ⟨folder.id, folder.label, none⟩

/-- The rest of a reader at a stage. -/
def rest (conn : Conn) (peer : Peer) : Stage Folder Own → LinkProg Unit
  | .check folders => handleFolders conn folders
  | .insert folder folders => addFolder conn folder folders
  | .after .peer folder folders => askPeer conn (announcedDir folder) folders
  | .after .share folder folders => shareFolder conn (announcedDir folder) peer folders
  | .after .tell folder folders => tellFolder conn (announcedDir folder) folders
  | .failed => .panic

theorem handleFolders_cons (conn : Conn) (folder : Folder) (folders : List Folder) :
    handleFolders conn (folder :: folders) = (do
      let known ← call (S := link) (.op (.db (.getSyncDirectory folder.id)))
      match known with
      | some _ => handleFolders conn folders
      | none => addFolder conn folder folders) := rfl

/-- The table and the stages say where the readers are. -/
structure Sim (conn : ι → Conn) (peer : ι → Peer) (c : Readers ι) (t : Table Folder Own Text ι) : Prop where
  keys : folderIds c.host.node.store = t.keys
  now : ∀ i, c.now i = rest (conn i) (peer i) (t.now i)
  peers : ∀ i, peerOf c.host.node (conn i) = some (peer i)

abbrev clients (i : ι) (t : Table Folder Own Text ι) : Option (Table Folder Own Text ι) :=
  Insert.step Folder.id Own.peer Own.next i t

omit [DecidableEq ι] in
theorem getSyncDirectory_none_iff {s : Store} {folder : Text} : s.getSyncDirectory folder = none ↔ folder ∉ folderIds s := by
  unfold Tables.getSyncDirectory Tables.getSyncDirectories folderIds
  rw [List.find?_eq_none]
  simp [modelToSyncDir]

variable {sha256} {conn : ι → Conn} {peer : ι → Peer} {c c' : Readers ι} {t : Table Folder Own Text ι} {i : ι}

theorem readerStep_some {o : LinkOp} {k : o.Ans → LinkProg Unit} {host : Host} {r : o.Ans} (hnow : c.now i = .ask o k)
    (hdo : hostDo sha256 c.host o = (host, some r)) :
    readerStep sha256 i c = some ⟨host, Function.update c.now i (k r)⟩ := by
  simp only [readerStep, hnow, hdo]

theorem readerStep_none {o : LinkOp} {k : o.Ans → LinkProg Unit} {host : Host} (hnow : c.now i = .ask o k)
    (hdo : hostDo sha256 c.host o = (host, none)) :
    readerStep sha256 i c = some ⟨host, Function.update c.now i .panic⟩ := by
  simp only [readerStep, hnow, hdo]

/-- A reader gets to another stage, and the table may grow. -/
theorem Sim.set (h : Sim conn peer c t) {host : Host} {keys : List Text} {p : LinkProg Unit} {stage : Stage Folder Own}
    (hkeys : folderIds host.node.store = keys) (hpeers : host.node.store.peers = c.host.node.store.peers)
    (hp : p = rest (conn i) (peer i) stage) :
    Sim conn peer ⟨host, Function.update c.now i p⟩ (Table.set { t with keys := keys } i stage) := by
  refine ⟨hkeys, fun j => ?_, fun j => ?_⟩
  · by_cases hj : j = i
    · subst hj
      rw [Table.set_self]
      simp [hp]
    · rw [Table.set_other _ _ hj]
      simp [hj, h.now j]
  · have hpeer := h.peers j
    unfold peerOf at hpeer ⊢
    rw [hpeers]
    exact hpeer

/-- What a reader asks for first at `askPeer`, and how it goes on when its peer is known. -/
theorem askPeer_eq {n : Node} {conn : Conn} {peer : Peer} (hpeer : peerOf n conn = some peer) (sd : SyncDirectory)
    (folders : List Folder) : ∃ k, askPeer conn sd folders = .ask (.op (.db .getPeers)) k ∧
      k n.store.peers = shareFolder conn sd peer folders := by
  unfold peerOf at hpeer
  obtain ⟨peerId, hid, hfind⟩ := Option.bind_eq_some_iff.mp hpeer
  refine ⟨_, rfl, ?_⟩
  simp only [hid, Prog.bind, hfind]
  rfl

/-- A call of a reader is a step of its client. -/
theorem sim_step (h : Sim conn peer c t) (hheld : ∀ j a x todo, t.now j = .after a x todo → x.id ∈ t.keys)
    (hs : readerStep sha256 i c = some c') : ∃ t', clients i t = some t' ∧ Sim conn peer c' t' := by
  have hnow := h.now i
  cases hstage : t.now i with
  | check folders =>
    rw [hstage] at hnow
    cases folders with
    | nil =>
      have : readerStep sha256 i c = none := by simp only [readerStep, hnow, rest, handleFolders]
      rw [this] at hs
      cases hs
    | cons folder folders =>
      have hdo : hostDo sha256 c.host (.op (.db (.getSyncDirectory folder.id))) =
          (c.host, some (c.host.node.store.getSyncDirectory folder.id)) := rfl
      rw [readerStep_some hnow hdo] at hs
      cases hs
      by_cases hknown : folder.id ∈ t.keys
      · refine ⟨t.set i (.check folders), by simp only [clients, Insert.step, hstage, if_pos hknown], h.set h.keys rfl ?_⟩
        cases hdir : c.host.node.store.getSyncDirectory folder.id with
        | none => rw [← h.keys] at hknown; exact absurd hknown (getSyncDirectory_none_iff.mp hdir)
        | some dir => rfl
      · refine ⟨t.set i (.insert folder folders), by simp only [clients, Insert.step, hstage, if_neg hknown],
          h.set h.keys rfl ?_⟩
        rw [← h.keys] at hknown
        rw [getSyncDirectory_none_iff.mpr hknown]
        rfl
  | insert folder folders =>
    rw [hstage] at hnow
    rcases c.host.node.store.addSyncDirectory_cases (fun p => (c.host.node.disk.find c.host.node.cwd p).isSome) [] folder.label
      folder.id with ⟨hmem, hadd⟩ | ⟨hmem, hadd⟩
    · have hdo : hostDo sha256 c.host (.addSyncDirectory none folder.label (some folder.id)) = (c.host, none) := by
        simp only [hostDo, hadd]; rfl
      rw [readerStep_none hnow hdo] at hs
      cases hs
      have hkey : folder.id ∈ t.keys := by rw [← h.keys]; exact hmem
      exact ⟨t.set i .failed, by simp only [clients, Insert.step, hstage, if_pos hkey], h.set h.keys rfl rfl⟩
    · have hdo : hostDo sha256 c.host (.addSyncDirectory none folder.label (some folder.id)) =
          (c.host.withStore (c.host.node.store.withFolders
            (c.host.node.store.folders ++ [⟨folder.id, folder.label, none⟩]) c.host.node.store.shares),
            some (announcedDir folder)) := by
        simp only [hostDo, hadd]; rfl
      rw [readerStep_some hnow hdo] at hs
      cases hs
      have hkey : folder.id ∉ t.keys := by rw [← h.keys]; exact hmem
      refine ⟨Table.set { t with keys := t.keys ++ [folder.id] } i (.after .peer folder folders),
        by simp only [clients, Insert.step, hstage, if_neg hkey], h.set ?_ rfl rfl⟩
      rw [← h.keys]
      exact List.map_append
  | after a folder folders =>
    rw [hstage] at hnow
    have hknown : folder.id ∈ folderIds c.host.node.store := by
      rw [h.keys]
      exact hheld i a folder folders hstage
    cases a with
    | peer =>
      obtain ⟨k, hk, hgo⟩ := askPeer_eq (h.peers i) (announcedDir folder) folders
      have hdo : hostDo sha256 c.host (.op (.db .getPeers)) = (c.host, some c.host.node.store.peers) := rfl
      rw [readerStep_some (hnow.trans hk) hdo] at hs
      cases hs
      exact ⟨t.set i (.after .share folder folders), by simp only [clients, Insert.step, hstage, Own.next],
        h.set h.keys rfl hgo⟩
    | share =>
      have hdo : hostDo sha256 c.host (.syncDirectoryWithPeer (announcedDir folder) (peer i)) =
          (c.host.withStore (c.host.node.store.withFolders c.host.node.store.folders
            (c.host.node.store.shares ++ [⟨folder.id, (peer i).id⟩])), some ()) := by
        have hany : c.host.node.store.folders.any (·.id = (announcedDir folder).id) = true := by
          obtain ⟨x, hx, he⟩ := List.mem_map.mp hknown
          exact List.any_eq_true.mpr ⟨x, hx, decide_eq_true he⟩
        simp only [hostDo, Store.syncDirectoryWithPeer, hany, if_true]
        rfl
      rw [readerStep_some hnow hdo] at hs
      cases hs
      exact ⟨t.set i (.after .tell folder folders), by simp only [clients, Insert.step, hstage, Own.next],
        h.set h.keys rfl rfl⟩
    | tell =>
      have hdo : hostDo sha256 c.host (.newFolder (announcedDir folder)) = (c.host, some ()) := rfl
      rw [readerStep_some hnow hdo] at hs
      cases hs
      exact ⟨t.set i (.check folders), by simp only [clients, Insert.step, hstage, Own.next], h.set h.keys rfl rfl⟩
  | failed =>
    rw [hstage] at hnow
    have : readerStep sha256 i c = none := by simp only [readerStep, hnow, rest]
    rw [this] at hs
    cases hs

/-! ## What a stage shows -/

section Stages

omit [DecidableEq ι]

/-- A reader that has added a folder has a call of its own next. -/
theorem rest_after (conn : Conn) (peer : Peer) (a : Own) (x : Folder) (todo : List Folder) :
    ∃ o k, rest conn peer (.after a x todo) = .ask o k ∧ nextAdd (.ask o k) = none ∧ nextCheck (.ask o k) = none := by
  cases a <;> exact ⟨_, _, rfl, rfl, rfl⟩

theorem adding_iff (h : Sim conn peer c t) {folder : Text} :
    nextAdd (c.now i) = some folder ↔ Inserting Folder.id t i folder := by
  rw [h.now i]
  unfold Inserting
  cases hstage : t.now i with
  | check folders => cases folders <;> simp [rest, handleFolders, nextAdd, call]
  | insert x todo => simp [rest, addFolder, nextAdd, call]
  | after a x todo =>
    obtain ⟨o, k, hrest, hadd, -⟩ := rest_after (conn i) (peer i) a x todo
    rw [hrest, hadd]
    simp
  | failed => simp [rest, nextAdd]

theorem checking_iff (h : Sim conn peer c t) {folder : Text} :
    nextCheck (c.now i) = some folder ↔ ∃ x todo, t.now i = .check (x :: todo) ∧ x.id = folder := by
  rw [h.now i]
  cases hstage : t.now i with
  | check folders => cases folders <;> simp [rest, handleFolders, nextCheck, call]
  | insert x todo => simp [rest, addFolder, nextCheck, call]
  | after a x todo =>
    obtain ⟨o, k, hrest, -, hcheck⟩ := rest_after (conn i) (peer i) a x todo
    rw [hrest, hcheck]
    simp
  | failed => simp [rest, nextCheck]

theorem addFails_iff (h : Sim conn peer c t) (i : ι) : AddFails c i ↔ Fails Folder.id t i := by
  unfold AddFails Fails
  rw [h.keys]
  exact exists_congr fun folder => and_congr_right fun _ => adding_iff h

theorem checksAlone_iff (h : Sim conn peer c t) (i : ι) : ChecksAlone c i ↔ InTurn Folder.id t i := by
  unfold ChecksAlone InTurn
  rw [h.keys]
  constructor
  · intro halone x todo hnow hkey j hins
    exact halone x.id ((checking_iff h).mpr ⟨x, todo, hnow, rfl⟩) hkey j ((adding_iff h).mpr hins)
  · intro hturn folder hcheck hkey j hadd
    obtain ⟨x, todo, hnow, rfl⟩ := (checking_iff h).mp hcheck
    exact hturn x todo hnow hkey j ((adding_iff h).mp hadd)

theorem panicked_iff (h : Sim conn peer c t) : c.now i = .panic ↔ t.now i = .failed := by
  rw [h.now i]
  cases hstage : t.now i with
  | check folders => cases folders <;> simp [rest, handleFolders, call]
  | insert x todo => simp [rest, addFolder, call]
  | after a x todo =>
    obtain ⟨o, k, hrest, -⟩ := rest_after (conn i) (peer i) a x todo
    simp [hrest]
  | failed => simp [rest]

theorem stopped_iff (h : Sim conn peer c t) : stopped (c.now i) = true ↔ t.now i = .check [] ∨ t.now i = .failed := by
  rw [h.now i]
  cases hstage : t.now i with
  | check folders => cases folders <;> simp [rest, handleFolders, call, stopped]
  | insert x todo => simp [rest, addFolder, call, stopped]
  | after a x todo =>
    obtain ⟨o, k, hrest, -⟩ := rest_after (conn i) (peer i) a x todo
    simp [hrest, stopped]
  | failed => simp [rest, stopped]

end Stages

/-! ## Runs -/

theorem handleFolders_append (conn : Conn) (folders' : List Folder) : ∀ folders : List Folder,
    handleFolders conn (folders ++ folders') = (do handleFolders conn folders; handleFolders conn folders') := by
  intro folders
  induction folders with
  | nil => rfl
  | cons folder folders ih =>
    rw [List.cons_append, handleFolders_cons, handleFolders_cons, Prog.bind_assoc]
    congr 1
    funext known
    cases known with
    | some dir => exact ih
    | none => simp only [addFolder, askPeer, shareFolder, tellFolder, Prog.bind_assoc, ih]

/-- Several ClusterConfigs are one list of folders. -/
theorem readConfigs_eq (conn : Conn) : ∀ configs : List ClusterConfig,
    readConfigs conn configs = handleFolders conn (configs.flatMap ClusterConfig.folders) := by
  intro configs
  induction configs with
  | nil => rfl
  | cons config configs ih =>
    rw [List.flatMap_cons, handleFolders_append, ← ih]
    rfl

omit [DecidableEq ι] in
theorem sim_start {host : Host} (hpeers : ∀ i, peerOf host.node (conn i) = some (peer i)) (configs : ι → List ClusterConfig) :
    Sim conn peer (Readers.start host conn configs)
      (Table.start (folderIds host.node.store) fun i => (configs i).flatMap ClusterConfig.folders) :=
  ⟨rfl, fun i => readConfigs_eq (conn i) (configs i), hpeers⟩

/-- A run of the readers is one of the clients. -/
theorem readers_simulate {c₀ : Readers ι} {keys : List Text} {items : ι → List Folder}
    (h₀ : Sim conn peer c₀ (Table.start keys items)) (hnd : keys.Nodup) : ∀ {es : List ι} {c : Readers ι},
    readersRun sha256 es c₀ = some c → ∃ t, Events.run clients es (Table.start keys items) = some t ∧ Sim conn peer c t := by
  intro es
  induction es using List.reverseRecOn with
  | nil => intro c h; cases h; exact ⟨_, rfl, h₀⟩
  | append_singleton es i ih =>
    intro c h
    obtain ⟨c₁, hrun, hstep⟩ := Events.run_concat.mp h
    obtain ⟨t, ht, hsim⟩ := ih hrun
    obtain ⟨t', ht', hsim'⟩ := sim_step hsim (progress_run hnd ht).held hstep
    exact ⟨t', Events.run_concat.mpr ⟨t, ht, ht'⟩, hsim'⟩

/-- What the readers meet all along a run, their clients do. -/
theorem sim_along {c₀ : Readers ι} {keys : List Text} {items : ι → List Folder} {P : ι → Readers ι → Prop}
    {Q : ι → Table Folder Own Text ι → Prop} (hPQ : ∀ i c t, Sim conn peer c t → (P i c ↔ Q i t))
    (h₀ : Sim conn peer c₀ (Table.start keys items)) (hnd : keys.Nodup) {es : List ι} (h : readersRun sha256 es c₀ = some c) :
    Events.Along (readerStep sha256) P es c₀ ↔ Events.Along clients Q es (Table.start keys items) := by
  constructor
  · intro hP es' i t' hpre ht
    obtain ⟨c', hc⟩ := Events.run_prefix h ((List.prefix_append es' [i]).trans hpre)
    obtain ⟨t'', ht', hsim⟩ := readers_simulate h₀ hnd hc
    rw [ht] at ht'
    cases ht'
    exact (hPQ _ _ _ hsim).mp (hP es' i c' hpre hc)
  · intro hQ es' i c' hpre hc
    obtain ⟨t', ht, hsim⟩ := readers_simulate h₀ hnd hc
    exact (hPQ _ _ _ hsim).mpr (hQ es' i t' hpre ht)

/-- **Concurrent announcements.** In every run of the readers in which no reader finds a
    folder missing while another is about to add it, no insert fails, no reader panics, and
    when all have ended every announced folder has one row. In a run in which no insert
    fails until all have ended, no reader did. -/
theorem announcements_safe (sha256 : Bytes → Bytes) (shortId : UInt64) (cs : List State.Call) (host : Host)
    (hstore : host.node.store = State.Call.acts (newStore shortId) cs) (conn : ι → Conn) (configs : ι → List ClusterConfig)
    (hpeers : ∀ i, ∃ peer, peerOf host.node (conn i) = some peer) {es : List ι} {c : Readers ι}
    (h : readersRun sha256 es (Readers.start host conn configs) = some c) :
    (Events.Along (readerStep sha256) (fun i c => ChecksAlone c i) es (Readers.start host conn configs) →
      Events.Along (readerStep sha256) (fun i c => ¬ AddFails c i) es (Readers.start host conn configs) ∧
      (∀ i, c.now i ≠ .panic) ∧
      (AllEnded c → ∀ i, ∀ config ∈ configs i, ∀ folder ∈ config.folders,
        (folderIds c.host.node.store).count folder.id = 1)) ∧
    (AllEnded c → Events.Along (readerStep sha256) (fun i c => ¬ AddFails c i) es (Readers.start host conn configs) →
      Events.Along (readerStep sha256) (fun i c => ChecksAlone c i) es (Readers.start host conn configs)) := by
  have hnd : (folderIds host.node.store).Nodup := by
    rw [hstore]
    exact folderIds_nodup shortId cs
  obtain ⟨peer, hpeer⟩ := Classical.axiom_of_choice hpeers
  have h₀ := sim_start hpeer configs
  obtain ⟨t, ht, hsim⟩ := readers_simulate h₀ hnd h
  have hended : AllEnded c ↔ Ended t := forall_congr' fun i => stopped_iff hsim
  have hturns : Events.Along (readerStep sha256) (fun i c => ChecksAlone c i) es (Readers.start host conn configs) ↔
      AllInTurn Folder.id Own.peer Own.next es
        (Table.start (folderIds host.node.store) fun i => (configs i).flatMap ClusterConfig.folders) :=
    sim_along (fun i _ _ hs => checksAlone_iff hs i) h₀ hnd h
  have hfails : Events.Along (readerStep sha256) (fun i c => ¬ AddFails c i) es (Readers.start host conn configs) ↔
      NeverFails Folder.id Own.peer Own.next es
        (Table.start (folderIds host.node.store) fun i => (configs i).flatMap ClusterConfig.folders) :=
    sim_along (fun i _ _ hs => not_congr (addFails_iff hs i)) h₀ hnd h
  rw [hturns, hfails, hended]
  refine ⟨fun hturn => ?_, fun hend hnever => insert_in_turn hnever ht hend⟩
  obtain ⟨hnever, hsound, honce, hmem⟩ := insert_safe hnd hturn ht
  refine ⟨hnever, fun i hi => hsound i ((panicked_iff hsim).mp hi), fun hend i config hconfig folder hfolder => ?_⟩
  rw [hsim.keys]
  exact List.count_eq_one_of_mem honce (hmem hend i folder (List.mem_flatMap.mpr ⟨config, hconfig, hfolder⟩))

/-- Connections that announce no unknown folder in common never check at the wrong time. -/
theorem checksAlone_of_disjoint {host : Host} (hnd : (folderIds host.node.store).Nodup)
    (hpeers : ∀ i, peerOf host.node (conn i) = some (peer i)) {configs : ι → List ClusterConfig}
    (hdisjoint : ∀ i j, i ≠ j → ∀ x ∈ (configs i).flatMap ClusterConfig.folders,
      ∀ y ∈ (configs j).flatMap ClusterConfig.folders, x.id = y.id → x.id ∈ folderIds host.node.store) {es : List ι}
    (h : readersRun sha256 es (Readers.start host conn configs) = some c) :
    Events.Along (readerStep sha256) (fun i c => ChecksAlone c i) es (Readers.start host conn configs) :=
  (sim_along (fun i _ _ hs => checksAlone_iff hs i) (sim_start hpeers configs) hnd h).mpr (in_turn_of_disjoint hnd hdisjoint es)

/-! ## Two readers -/

/-- Two peers and no folders. -/
def pairCalls : List State.Call :=
  [.addPeer ['p'] (peerDevice 1), .addPeer ['q'] (peerDevice 2)]

def pairHost : Host := { quietHost with node := { quietHost.node with store := State.Call.acts (newStore 7) pairCalls } }

def pairConn (b : Bool) : Conn := ⟨some (List.replicate 32 (if b then 1 else 2))⟩

def pairPeer (b : Bool) : Peer := if b then ⟨1, some (List.replicate 32 1), ['p']⟩ else ⟨2, some (List.replicate 32 2), ['q']⟩

/-- The connections announce one folder each. -/
def announces (folder : Bool → Text) (b : Bool) : List ClusterConfig := [⟨[⟨folder b, folder b, []⟩]⟩]

/-- What a call is to look up, what is there, and what the readers are about to add. -/
def beforeCall (b : Bool) (c : Readers Bool) : Option Text × List Text × List (Option Text) :=
  (nextCheck (c.now b), folderIds c.host.node.store, [nextAdd (c.now true), nextAdd (c.now false)])

/-- One finds the folder missing and adds it; the other looks it up after that, while the first
    has not shared it yet. -/
def pairEvents : List Bool := [true, true, false, true, true, true]

theorem pair_checks_alone : Events.Along (readerStep fileSha) (fun b c => ChecksAlone c b) pairEvents
    (Readers.start pairHost pairConn (announces fun _ => ['e'])) := by
  have hall : ∀ o ∈ Events.outputs (readerStep fileSha) beforeCall pairEvents
      (Readers.start pairHost pairConn (announces fun _ => ['e'])),
      ∀ folder ∈ o.1, folder ∉ o.2.1 → some folder ∉ o.2.2 := by decide +kernel
  intro es b c hpre hrun folder hcheck hmissing j hadd
  refine Events.along_outputs hall es b c hpre hrun folder hcheck hmissing ?_
  cases j
  · exact List.mem_cons_of_mem _ (List.mem_singleton.mpr hadd.symm)
  · exact List.mem_cons.mpr (Or.inl hadd.symm)

theorem pair_stops : ∃ c, readersRun fileSha pairEvents (Readers.start pairHost pairConn (announces fun _ => ['e'])) = some c ∧
    ∀ b, stopped (c.now b) = true := by
  have hended : (readersRun fileSha pairEvents (Readers.start pairHost pairConn (announces fun _ => ['e']))).any
      (fun c => stopped (c.now true) && stopped (c.now false)) = true := by decide +kernel
  obtain ⟨c, hc, hboth⟩ := (Option.any_eq_true _ _).mp hended
  rw [Bool.and_eq_true] at hboth
  refine ⟨c, hc, fun b => ?_⟩
  cases b
  · exact hboth.2
  · exact hboth.1

/-- Both announce one new folder, one after the other. -/
theorem announcements_safe_pair : ∃ c : Readers Bool,
    readersRun fileSha pairEvents (Readers.start pairHost pairConn (announces fun _ => ['e'])) = some c ∧
    (∀ b, c.now b ≠ .panic) ∧ (folderIds c.host.node.store).count ['e'] = 1 := by
  obtain ⟨c, hc, hstopped⟩ := pair_stops
  have hpeers : ∀ b, peerOf pairHost.node (pairConn b) = some (pairPeer b) := by decide +kernel
  obtain ⟨-, hsound, hrows⟩ :=
    (announcements_safe fileSha 7 pairCalls pairHost rfl pairConn _ (fun b => ⟨_, hpeers b⟩) hc).1 pair_checks_alone
  exact ⟨c, hc, hsound, hrows hstopped true _ List.mem_cons_self _ List.mem_cons_self⟩

def panicked : LinkProg Unit → Bool
  | .panic => true
  | _ => false

/-- Both announce one new folder: both find it missing, one adds it, and the other's insert
    fails and panics. -/
theorem announcements_race :
    (¬ ∀ (es : List Bool) (c : Readers Bool),
      readersRun fileSha es (Readers.start pairHost pairConn (announces fun _ => ['e'])) = some c →
      Events.Along (readerStep fileSha) (fun b c => ¬ AddFails c b) es
        (Readers.start pairHost pairConn (announces fun _ => ['e']))) ∧
    (readersRun fileSha [true, false, true, false]
      (Readers.start pairHost pairConn (announces fun _ => ['e']))).any (fun c => panicked (c.now false)) = true := by
  refine ⟨fun h => ?_, by decide +kernel⟩
  obtain ⟨c, hc⟩ : ∃ c, readersRun fileSha [true, false, true, false]
      (Readers.start pairHost pairConn (announces fun _ => ['e'])) = some c :=
    Option.isSome_iff_exists.mp (by decide +kernel)
  obtain ⟨c₁, hc₁⟩ := Events.run_prefix hc (List.prefix_append [true, false, true] [false])
  have hfails : (readersRun fileSha [true, false, true] (Readers.start pairHost pairConn (announces fun _ => ['e']))).all
      (fun c => decide (['e'] ∈ folderIds c.host.node.store ∧ nextAdd (c.now false) = some ['e'])) = true := by decide +kernel
  have hrun₁ : readersRun fileSha [true, false, true] (Readers.start pairHost pairConn (announces fun _ => ['e'])) =
      some c₁ := hc₁
  rw [hrun₁, Option.all_some, decide_eq_true_eq] at hfails
  exact h [true, false, true, false] c hc [true, false, true] false c₁ (List.prefix_refl _) hc₁ ⟨['e'], hfails⟩

end BepRs.Access
