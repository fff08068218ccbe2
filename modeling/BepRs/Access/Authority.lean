/-
  BepRs.Access.Authority — what remote messages can change of who may do what.

  Any number of connections receive messages, and the tasks these start run interleaved
  call by call (`remote`), together with the tasks that follow from them: downloads,
  announcements, scans. There is no new-folder handler and nobody calls an administrative
  function. Two logs stand beside the tables: what was received, and each check of an
  announced folder by the reader of a connection, with the rows of `sync_folders` it saw.

  What such a run may do to the tables is one relation (`Kept`), which every task
  guarantees: one on files because it touches the files' tables only (`guar_lift`), the
  reader of a ClusterConfig because it adds a folder without a path and shares it with its
  own peer after its own check (`guar_handleFolders`).
  - `authority_kept`: what holds in every reachable state.
-/

import BepRs.Access.Confine
import BepRs.Lib.Rely
import BepRs.Sync.Link

namespace BepRs.Access

open BepRs.Lib BepRs.Lib.Path BepRs.Lib.Task BepRs.State BepRs.Sync

/-! ## The system -/

/-- The check of one announced folder: who announced it, and the folders there were. -/
structure Check where
  conn : Conn
  folder : Text
  rows : List FolderRow

structure World where
  store : Store
  addresses : List PeerAddress
  options : List DeviceOption
  received : List (Conn × Incoming)
  checks : List Check

def World.init (store : Store) (addresses : List PeerAddress) (options : List DeviceOption) : World :=
  ⟨store, addresses, options, [], []⟩

/-- The reader of a connection, or any other task. -/
inductive Actor where
  | reader (conn : Conn)
  | worker

/-- The checks after a call. -/
def World.checked (w : World) : Actor → DbOp → List Check
  | .reader conn, .getSyncDirectory folder => w.checks ++ [⟨conn, folder, w.store.folders⟩]
  | _, _ => w.checks

variable (sha256 : Bytes → Bytes)

inductive RemoteDoes (a : Actor) (w : World) : (o : LinkOp) → World → Option o.Ans → Prop
  | db (o : DbOp) :
      RemoteDoes a w (.op (.db o)) { w with store := (dbDo w.store o).1, checks := w.checked a o } (dbDo w.store o).2
  | sys (o : SysOp) (x : Option o.Ans) : RemoteDoes a w (.op (.sys o)) w x
  | getSyncedDirectories (peerId : Nat) :
      RemoteDoes a w (.getSyncedDirectories peerId) w (some (w.store.getSyncedDirectories peerId))
  | addSyncDirectory (present : Text → Bool) (sample : Text) (path : Option Text) (label : Text) (id : Option Text) :
      RemoteDoes a w (.addSyncDirectory path label id)
        { w with store := (w.store.addSyncDirectory present sample path label id).1 }
        (w.store.addSyncDirectory present sample path label id).2
  | syncDirectoryWithPeer (directory : SyncDirectory) (peer : Peer) :
      RemoteDoes a w (.syncDirectoryWithPeer directory peer)
        { w with store := (w.store.syncDirectoryWithPeer directory peer).1 }
        (w.store.syncDirectoryWithPeer directory peer).2
  | newFolder (directory : SyncDirectory) : RemoteDoes a w (.newFolder directory) w (some ())
  | getId : RemoteDoes a w .getId w (w.options.getLast?.map fun x => sha256 x.cert)
  | getName : RemoteDoes a w .getName w (some ((w.options.getLast?.map DeviceOption.deviceName).getD "Device".toList))

/-- A message that was received starts its handler, any number of times and at any time
    after. The other tasks of a node may start whenever they like, on anything. -/
inductive RemoteStarts (w : World) : Actor → LinkProg Unit → Prop
  | announced (conn : Conn) (config : ClusterConfig) : (conn, .clusterConfig config) ∈ w.received →
      RemoteStarts w (.reader conn) (dispatch sha256 conn (.clusterConfig config))
  | message (conn : Conn) (m : Incoming) : (conn, m) ∈ w.received → (∀ config, m ≠ .clusterConfig config) →
      RemoteStarts w .worker (dispatch sha256 conn m)
  | clusterConfig (conn : Conn) : RemoteStarts w .worker (do let _ ← generateClusterConfig conn)
  | sendIndex (conn : Conn) : RemoteStarts w .worker (lift (do let _ ← sendIndex sha256 conn))
  | directoryUpdated (conn : Conn) (dir : SyncDirectory) :
      RemoteStarts w .worker (lift (do let _ ← directoryUpdated sha256 conn dir))
  | getDirectory (dir : SyncDirectory) : RemoteStarts w .worker (lift (do let _ ← getDirectory sha256 dir))
  | getFile (dir : SyncDirectory) (f : SyncFile) : RemoteStarts w .worker (lift (do let _ ← getFile sha256 dir f))
  | generateIndex (dir : SyncDirectory) : RemoteStarts w .worker (lift (do let _ ← generateIndex sha256 dir))

/-- A message arrives on a connection. -/
inductive Arrives (w : World) : World → Prop
  | receive (conn : Conn) (m : Incoming) : Arrives w { w with received := w.received ++ [(conn, m)] }

def remote : System link Actor World where
  does := RemoteDoes sha256
  starts := RemoteStarts sha256
  outside := Arrives

/-! ## What a run keeps -/

/-- The peer of a connection, by the table of peers. -/
def connPeer (peers : List Peer) (conn : Conn) : Option Peer :=
  conn.peerId.bind fun peerId => peers.find? fun peer => peerId = peer.deviceId.getD []

/-- The connection's peer announced the folder in a ClusterConfig. -/
def Announced (w : World) (conn : Conn) (folder : Text) : Prop :=
  ∃ config, (conn, .clusterConfig config) ∈ w.received ∧ folder ∈ config.folders.map Folder.id

/-- The reader of the connection checked the folder when it had no row. -/
def FoundNone (w : World) (conn : Conn) (folder : Text) : Prop :=
  ∃ check ∈ w.checks, check.conn = conn ∧ check.folder = folder ∧ folder ∉ check.rows.map FolderRow.id

/-- A share row that a ClusterConfig accounts for. -/
def Accounted (w : World) (x : FolderShare) : Prop :=
  ∃ conn peer, connPeer w.store.peers conn = some peer ∧ peer.id = x.peerId ∧ Announced w conn x.syncFolderId ∧
    FoundNone w conn x.syncFolderId

/-- What may happen between two states. -/
structure Kept (w w' : World) : Prop where
  peers : w'.store.peers = w.store.peers
  addresses : w'.addresses = w.addresses
  options : w'.options = w.options
  folders : ∃ new, w'.store.folders = w.store.folders ++ new ∧ ∀ row ∈ new, row.dirPath = none
  shares : ∃ new, w'.store.shares = w.store.shares ++ new ∧ ∀ x ∈ new, Accounted w' x
  received : w.received <+: w'.received
  checks : w.checks <+: w'.checks
  /-- A check sees all the folders there were. -/
  seen : ∀ check ∈ w'.checks, check ∈ w.checks ∨ w.store.folders <+: check.rows

theorem kept_refl (w : World) : Kept w w :=
  ⟨rfl, rfl, rfl, ⟨[], by simp, by simp⟩, ⟨[], by simp, by simp⟩, List.prefix_rfl, List.prefix_rfl, fun _ h => Or.inl h⟩

theorem Announced.mono {w w' : World} (h : Kept w w') {conn : Conn} {folder : Text} (ha : Announced w conn folder) :
    Announced w' conn folder := by
  obtain ⟨config, hconfig, hfolder⟩ := ha
  exact ⟨config, h.received.subset hconfig, hfolder⟩

theorem FoundNone.mono {w w' : World} (h : Kept w w') {conn : Conn} {folder : Text} (hf : FoundNone w conn folder) :
    FoundNone w' conn folder := by
  obtain ⟨check, hcheck, hrest⟩ := hf
  exact ⟨check, h.checks.subset hcheck, hrest⟩

theorem Accounted.mono {w w' : World} (h : Kept w w') {x : FolderShare} (hx : Accounted w x) : Accounted w' x := by
  obtain ⟨conn, peer, hpeer, hid, ha, hf⟩ := hx
  exact ⟨conn, peer, by rw [h.peers]; exact hpeer, hid, ha.mono h, hf.mono h⟩

theorem kept_trans (u v w : World) (huv : Kept u v) (hvw : Kept v w) : Kept u w := by
  obtain ⟨fs, hfs, hfs'⟩ := huv.folders
  obtain ⟨gs, hgs, hgs'⟩ := hvw.folders
  obtain ⟨xs, hxs, hxs'⟩ := huv.shares
  obtain ⟨ys, hys, hys'⟩ := hvw.shares
  refine ⟨hvw.peers.trans huv.peers, hvw.addresses.trans huv.addresses, hvw.options.trans huv.options,
    ⟨fs ++ gs, ?_, fun row hrow => ?_⟩, ⟨xs ++ ys, ?_, fun x hx => ?_⟩, huv.received.trans hvw.received,
    huv.checks.trans hvw.checks, fun check hcheck => ?_⟩
  · rw [hgs, hfs, List.append_assoc]
  · rcases List.mem_append.mp hrow with hrow | hrow
    · exact hfs' row hrow
    · exact hgs' row hrow
  · rw [hys, hxs, List.append_assoc]
  · rcases List.mem_append.mp hx with hx | hx
    · exact (hxs' x hx).mono hvw
    · exact hys' x hx
  · rcases hvw.seen check hcheck with hcheck | hseen
    · exact huv.seen check hcheck
    · refine Or.inr (List.IsPrefix.trans ?_ hseen)
      rw [hfs]
      exact List.prefix_append _ _

/-! ## What an operation may do -/

/-- A call on files leaves the tables of folders, peers and shares; a reader's check is in
    the log. -/
theorem kept_db (a : Actor) (w : World) (o : DbOp) :
    Kept w { w with store := (dbDo w.store o).1, checks := w.checked a o } := by
  have hframe : (dbDo w.store o).1.folders = w.store.folders ∧ (dbDo w.store o).1.peers = w.store.peers ∧
      (dbDo w.store o).1.shares = w.store.shares := by
    cases o with
    | updateSyncFile dir f =>
      obtain ⟨hf, hp, hs, -⟩ := w.store.updateSyncFile_frame dir f
      exact ⟨hf, hp, hs⟩
    | _ => exact ⟨rfl, rfl, rfl⟩
  have hchecks : w.checked a o = w.checks ∨ ∃ conn folder, w.checked a o = w.checks ++ [⟨conn, folder, w.store.folders⟩] := by
    unfold World.checked
    split
    · exact Or.inr ⟨_, _, rfl⟩
    · exact Or.inl rfl
  refine ⟨hframe.2.1, rfl, rfl, ⟨[], by simp [hframe.1], by simp⟩, ⟨[], by simp [hframe.2.2], by simp⟩,
    List.prefix_rfl, ?_, fun check hcheck => ?_⟩
  · show w.checks <+: w.checked a o
    rcases hchecks with h | ⟨conn, folder, h⟩
    · exact ⟨[], by rw [List.append_nil, h]⟩
    · rw [h]; exact List.prefix_append _ _
  · rcases hchecks with h | ⟨conn, folder, h⟩
    · exact Or.inl (h ▸ hcheck)
    · have hmem : check ∈ w.checks ++ [⟨conn, folder, w.store.folders⟩] := h ▸ hcheck
      rcases List.mem_append.mp hmem with hmem | hmem
      · exact Or.inl hmem
      · rw [List.mem_singleton.mp hmem]
        exact Or.inr List.prefix_rfl

/-- An announced folder is added without a path, or not at all. -/
theorem kept_addSyncDirectory (w : World) (present : Text → Bool) (sample label folder : Text) :
    Kept w { w with store := (w.store.addSyncDirectory present sample none label (some folder)).1 } := by
  rcases w.store.addSyncDirectory_cases present sample label folder with ⟨-, h⟩ | ⟨-, h⟩
  · rw [h]; exact kept_refl w
  · rw [h]
    refine ⟨rfl, rfl, rfl, ⟨_, rfl, fun row hrow => ?_⟩, ⟨[], by simp, by simp⟩, List.prefix_rfl, List.prefix_rfl,
      fun _ h => Or.inl h⟩
    rw [List.mem_singleton.mp hrow]

/-- A share that is accounted for may be added. -/
theorem kept_syncDirectoryWithPeer {w : World} {directory : SyncDirectory} {peer : Peer}
    (h : Accounted w ⟨directory.id, peer.id⟩) :
    Kept w { w with store := (w.store.syncDirectoryWithPeer directory peer).1 } := by
  unfold Store.syncDirectoryWithPeer
  split
  · refine ⟨rfl, rfl, rfl, ⟨[], by simp, by simp⟩, ⟨[⟨directory.id, peer.id⟩], rfl, fun x hx => ?_⟩, List.prefix_rfl,
      List.prefix_rfl, fun _ h => Or.inl h⟩
    rw [List.mem_singleton.mp hx]
    exact h
  · exact kept_refl w

/-! ## What the tasks guarantee -/

/-- Every task on files, whatever it is. -/
theorem guar_lift {α : Type} (a : Actor) : ∀ (p : BepProg α) (w : World),
    Guar (remote sha256) Kept a (fun _ _ => True) (lift p) w := by
  intro p
  induction p with
  | ret x => intro w; trivial
  | panic => intro w; trivial
  | ask o k ih =>
    intro w w' _
    refine ⟨fun w'' x hd => ?_, fun w'' r _ => ih r w''⟩
    cases hd with
    | db o => exact kept_db a w' o
    | sys o x => exact kept_refl w'

theorem guar_clusterDevices (a : Actor) : ∀ (peers : List Peer) (w : World),
    Guar (remote sha256) Kept a (fun _ _ => True) (clusterDevices peers) w := by
  intro peers
  induction peers with
  | nil => intro w; trivial
  | cons peer peers ih =>
    intro w
    unfold clusterDevices
    cases peer.deviceId with
    | none => trivial
    | some id =>
      rw [unwrap_some, Prog.ret_bind]
      refine guar_bind (fun _ _ _ => ?_) (ih w)
      trivial

theorem guar_clusterFolders (a : Actor) (myself : Device) : ∀ (dirs : List (SyncDirectory × List Peer)) (w : World),
    Guar (remote sha256) Kept a (fun _ _ => True) (clusterFolders myself dirs) w := by
  intro dirs
  induction dirs with
  | nil => intro w; trivial
  | cons x dirs ih =>
    intro w
    obtain ⟨dir, peers⟩ := x
    refine guar_bind (fun _ w' _ => ?_) (guar_clusterDevices sha256 a peers w)
    refine guar_bind (fun _ _ _ => ?_) (ih w')
    trivial

theorem guar_generateClusterConfig (a : Actor) (conn : Conn) (w : World) :
    Guar (remote sha256) Kept a (fun _ _ => True) (generateClusterConfig conn) w := by
  refine guar_bind (fun r w₁ _ => ?_) (guar_lift sha256 a (getPeer conn) w)
  cases r with
  | error e => trivial
  | ok peer =>
    refine guar_call_bind fun w₂ _ => ⟨fun w₃ x hd => ?_, fun w₃ id hd => ?_⟩
    · cases hd; exact kept_refl w₂
    refine guar_call_bind fun w₄ _ => ⟨fun w₅ x hd => ?_, fun w₅ name hd => ?_⟩
    · cases hd; exact kept_refl w₄
    refine guar_call_bind fun w₆ _ => ⟨fun w₇ x hd => ?_, fun w₇ dirs hd => ?_⟩
    · cases hd; exact kept_refl w₆
    refine guar_bind (fun _ _ _ => ?_) (guar_clusterFolders sha256 a ⟨id, name⟩ dirs w₇)
    trivial

/-- The peer `get_peer` returns is the connection's, in every later state too. -/
theorem guar_getPeer (a : Actor) (conn : Conn) (w : World) :
    Guar (remote sha256) Kept a (fun r w' => Kept w w' ∧ ∀ peer, r = .ok peer → connPeer w.store.peers conn = some peer)
      (lift (getPeer conn)) w := by
  refine guar_call_bind (S := link) (o := .op (.db .getPeers)) fun w₁ h₁ => ⟨fun w₂ x hd => ?_, fun w₂ peers hd => ?_⟩
  · cases hd with
    | db o => exact kept_db a w₁ _
  cases hd with
  | db o =>
    have hkept : Kept w { w₁ with store := w₁.store, checks := w₁.checked a .getPeers } :=
      kept_trans _ _ _ h₁ (kept_db a w₁ .getPeers)
    cases hid : conn.peerId with
    | none => exact ⟨hkept, fun peer he => by cases he⟩
    | some peerId =>
      simp only [Prog.bind]
      cases hfind : w₁.store.peers.find? fun peer => peerId = peer.deviceId.getD [] with
      | some peer =>
        refine ⟨hkept, fun p he => ?_⟩
        cases he
        rw [connPeer, hid, ← h₁.peers]
        exact hfind
      | none =>
        intro w₃ h₃
        refine ⟨fun w₄ x hd => ?_, fun w₄ u hd => ?_⟩
        · cases hd; exact kept_refl w₃
        · cases hd
          exact ⟨kept_trans _ _ _ hkept h₃, fun peer he => by cases he⟩

/-- The reader of a ClusterConfig: a folder is shared with the announcing peer after its
    check found no row of it. -/
theorem guar_handleFolders (conn : Conn) : ∀ (folders : List Folder) (w : World), (∀ f ∈ folders, Announced w conn f.id) →
    Guar (remote sha256) Kept (.reader conn) (fun _ _ => True) (handleFolders conn folders) w := by
  intro folders
  induction folders with
  | nil => intro w _; trivial
  | cons folder folders ih =>
    intro w hann
    have hrest : ∀ w', Kept w w' → Guar (remote sha256) Kept (.reader conn) (fun _ _ => True) (handleFolders conn folders) w' :=
      fun w' hw' => ih w' fun f hf => (hann f (List.mem_cons_of_mem _ hf)).mono hw'
    refine guar_call_bind fun w₁ h₁ => ⟨fun w₂ x hd => ?_, fun w₂ known hd => ?_⟩
    · cases hd; exact kept_db _ w₁ _
    cases hd
    have h₂ := kept_trans _ _ _ h₁ (kept_db (.reader conn) w₁ (.getSyncDirectory folder.id))
    cases hdir : w₁.store.getSyncDirectory folder.id with
    | some dir => exact hrest _ h₂
    | none =>
      -- The check is in the log, and it found no row of the folder.
      have hnone : folder.id ∉ w₁.store.folders.map FolderRow.id := by
        intro hmem
        obtain ⟨row, hrow, hid⟩ := List.mem_map.mp hmem
        exact List.find?_eq_none.mp hdir (modelToSyncDir row) (List.mem_map_of_mem hrow) (decide_eq_true hid)
      have hfound : FoundNone { w₁ with checks := w₁.checks ++ [⟨conn, folder.id, w₁.store.folders⟩] } conn folder.id :=
        ⟨_, List.mem_append_right _ (List.mem_singleton.mpr rfl), rfl, rfl, hnone⟩
      refine guar_call_bind fun w₃ h₃ => ⟨fun w₄ x hd => ?_, fun w₄ sd hd => ?_⟩
      · cases hd; exact kept_addSyncDirectory w₃ _ _ _ _
      have hadd : Kept w₃ w₄ ∧ sd.id = folder.id := by
        generalize hx : some sd = x at hd
        cases hd with
        | addSyncDirectory present sample path label id =>
          refine ⟨kept_addSyncDirectory w₃ present sample _ _, ?_⟩
          rcases w₃.store.addSyncDirectory_cases present sample folder.label folder.id with ⟨-, h⟩ | ⟨-, h⟩
          · rw [h] at hx; cases hx
          · rw [h] at hx; cases hx; rfl
      have h₄ := kept_trans _ _ _ h₂ (kept_trans _ _ _ h₃ hadd.1)
      refine guar_bind (fun r w₅ hr => ?_) (guar_getPeer sha256 (.reader conn) conn w₄)
      cases r with
      | error e => trivial
      | ok peer =>
        have hpeer := hr.2 peer rfl
        refine guar_call_bind fun w₆ h₆ => ?_
        have h₄₆ := kept_trans _ _ _ hr.1 h₆
        have haccount : Accounted w₆ ⟨sd.id, peer.id⟩ := by
          refine ⟨conn, peer, by rw [h₄₆.peers]; exact hpeer, rfl, ?_, ?_⟩
          · rw [hadd.2]
            exact (hann folder List.mem_cons_self).mono (kept_trans _ _ _ h₄ h₄₆)
          · rw [hadd.2]
            exact hfound.mono (kept_trans _ _ _ h₃ (kept_trans _ _ _ hadd.1 h₄₆))
        refine ⟨fun w₇ x hd => ?_, fun w₇ u hd => ?_⟩
        · cases hd; exact kept_syncDirectoryWithPeer haccount
        have h₇ : Kept w₆ w₇ := by
          generalize some u = x at hd
          cases hd
          exact kept_syncDirectoryWithPeer haccount
        refine guar_call_bind fun w₈ h₈ => ⟨fun w₉ x hd => ?_, fun w₉ u hd => ?_⟩
        · cases hd; exact kept_refl w₈
        · cases hd
          exact hrest _ (kept_trans _ _ _ h₄ (kept_trans _ _ _ h₄₆ (kept_trans _ _ _ h₇ h₈)))

theorem guar_starts {w : World} {a : Actor} {p : LinkProg Unit} (h : RemoteStarts sha256 w a p) :
    Guar (remote sha256) Kept a (fun _ _ => True) p w := by
  cases h with
  | announced conn config hrec =>
    exact guar_handleFolders sha256 conn config.folders w fun f hf => ⟨config, hrec, List.mem_map_of_mem hf⟩
  | message conn m hrec hm =>
    cases m with
    | request r => exact guar_lift sha256 _ _ w
    | index m => exact guar_lift sha256 _ _ w
    | indexUpdate m => exact guar_lift sha256 _ _ w
    | response r => trivial
    | close reason => trivial
    | ping => trivial
    | clusterConfig config => exact absurd rfl (hm config)
  | clusterConfig conn =>
    refine guar_bind (fun _ _ _ => ?_) (guar_generateClusterConfig sha256 _ conn w)
    trivial
  | sendIndex conn => exact guar_lift sha256 _ _ w
  | directoryUpdated conn dir => exact guar_lift sha256 _ _ w
  | getDirectory dir => exact guar_lift sha256 _ _ w
  | getFile dir f => exact guar_lift sha256 _ _ w
  | generateIndex dir => exact guar_lift sha256 _ _ w

theorem kept_arrives {w w' : World} (h : Arrives w w') : Kept w w' := by
  cases h with
  | receive conn m =>
    exact ⟨rfl, rfl, rfl, ⟨[], by simp, by simp⟩, ⟨[], by simp, by simp⟩, List.prefix_append _ _, List.prefix_rfl,
      fun _ h => Or.inl h⟩

/-! ## Every run -/

/-- From any state that messages can lead to, on to any later one: peers, addresses and
    options are as they were; the folders are as they were, with rows without a path added;
    and a share is added only of a folder that the peer itself announced and that had no row
    when its announcement was checked, so of none that was there at first. -/
theorem authority_kept (store : Store) (addresses : List PeerAddress) (options : List DeviceOption)
    (c c' : Conf link Actor World) (h : Reach (remote sha256) ⟨World.init store addresses options, []⟩ c)
    (h' : Reach (remote sha256) c c') :
    (c'.shared.store.peers = store.peers ∧ c'.shared.addresses = addresses ∧ c'.shared.options = options) ∧
    (∃ new, c'.shared.store.folders = c.shared.store.folders ++ new ∧ ∀ row ∈ new, row.dirPath = none) ∧
    ∃ new, c'.shared.store.shares = c.shared.store.shares ++ new ∧ ∀ x ∈ new,
      (∃ conn peer, connPeer store.peers conn = some peer ∧ peer.id = x.peerId ∧
        Announced c'.shared conn x.syncFolderId ∧ FoundNone c'.shared conn x.syncFolderId) ∧
      x.syncFolderId ∉ store.folders.map FolderRow.id := by
  have hstart : ∀ w a p, RemoteStarts sha256 w a p → Guar (remote sha256) Kept a (fun _ _ => True) p w :=
    fun w a p => guar_starts sha256
  obtain ⟨hkept, hall⟩ := reach_guar kept_refl kept_trans (fun w w' => kept_arrives) hstart h fun t ht => by cases ht
  obtain ⟨hkept', -⟩ := reach_guar kept_refl kept_trans (fun w w' => kept_arrives) hstart h' hall
  have htotal := kept_trans _ _ _ hkept hkept'
  refine ⟨⟨htotal.peers, htotal.addresses, htotal.options⟩, hkept'.folders, ?_⟩
  obtain ⟨new, hnew, haccount⟩ := hkept'.shares
  refine ⟨new, hnew, fun x hx => ?_⟩
  obtain ⟨conn, peer, hpeer, hid, hann, hfound⟩ := haccount x hx
  rw [htotal.peers] at hpeer
  refine ⟨⟨conn, peer, hpeer, hid, hann, hfound⟩, fun hold => ?_⟩
  -- The check saw every folder there was at first.
  obtain ⟨check, hcheck, -, -, hnone⟩ := hfound
  rcases htotal.seen check hcheck with hcheck | hseen
  · cases hcheck
  · exact hnone ((hseen.map FolderRow.id).subset hold)

/-- The tests' node learns of a folder from the peer it shares its own with. -/
def announcedWorld : World := World.init secretNode.store [⟨['a'], some 1⟩] [⟨['m'], []⟩]

def announcedConfig : ClusterConfig := ⟨[⟨['d'], ['n'], []⟩, ⟨['x'], ['l'], []⟩]⟩

/-- The reader of the connection goes through the whole message. -/
theorem announced_reach : ∃ c, Reach (remote History.fileSha) ⟨announcedWorld, []⟩ c ∧
    c.shared.store.folders.map FolderRow.id = [['d'], ['x']] ∧ c.shared.store.shares = [⟨['d'], 1⟩, ⟨['x'], 1⟩] := by
  have hstart : RemoteStarts History.fileSha
      { announcedWorld with received := [(⟨some [1]⟩, .clusterConfig announcedConfig)] } (.reader ⟨some [1]⟩)
      (dispatch History.fileSha ⟨some [1]⟩ (.clusterConfig announcedConfig)) :=
    .announced ⟨some [1]⟩ announcedConfig (List.mem_singleton.mpr rfl)
  have h0 : Reach (remote History.fileSha) ⟨announcedWorld, []⟩ ⟨_, [] ++ [(_, _)]⟩ :=
    .step (.step .init (.outside (.receive ⟨some [1]⟩ (.clusterConfig announcedConfig)))) (.start hstart)
  have h1 := reach_answer _ h0 rfl (.db (.getSyncDirectory ['d']))
  have h2 := reach_answer _ h1 rfl (.db (.getSyncDirectory ['x']))
  have h3 := reach_answer _ h2 rfl (.addSyncDirectory (fun _ => false) [] none ['l'] (some ['x']))
  have h4 := reach_answer _ h3 rfl (.db .getPeers)
  have h5 := reach_answer _ h4 rfl (.syncDirectoryWithPeer ⟨['x'], ['l'], none⟩ ⟨1, some [1], ['p']⟩)
  exact ⟨_, h5, rfl, rfl⟩

theorem authority_kept_announced : ∃ c, Reach (remote History.fileSha) ⟨announcedWorld, []⟩ c ∧
    c.shared.store.shares = [⟨['d'], 1⟩, ⟨['x'], 1⟩] ∧
    ∃ new, [⟨['d'], 1⟩, ⟨['x'], 1⟩] = secretNode.store.shares ++ new ∧
      ∀ x ∈ new, x.syncFolderId ∉ secretNode.store.folders.map FolderRow.id := by
  obtain ⟨c, h, -, hshares⟩ := announced_reach
  obtain ⟨-, -, new, hnew, hall⟩ := authority_kept History.fileSha secretNode.store [⟨['a'], some 1⟩] [⟨['m'], []⟩] _ c
    .init h
  rw [hshares] at hnew
  exact ⟨c, h, hshares, new, hnew, fun x hx => (hall x hx).2⟩

end BepRs.Access
