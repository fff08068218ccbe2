/-
  BepRs.Relay.Fleet — folders spread over any number of nodes.

  The nodes of a fleet show the logs of their folders, each to depths of its own (`Hosts`),
  and exchange along connections in any order (`exchanges`). An exchange joins depths
  (`hop_hosts`), so the depths spread along the edges that share the folder:
  - `exchanges_hosts`: whatever the order, every node shows the depths that reached it.
  - `exchanges_converge`: nodes that every node's exchanges reach show the least upper bound.
-/

import BepRs.Lib.Spread
import BepRs.Relay.Hop

namespace BepRs.Relay

open BepRs.Lib BepRs.Lib.Path BepRs.Lib.Task BepRs.Lib.Spread BepRs.State BepRs.Sync BepRs.Access BepRs.History

variable {sha256 : Bytes → Bytes}

/-! ## The folders of a node -/

/-- Where a node has a folder: its local path, and the directory that leads to. -/
structure Site where
  path : Text
  place : List Text

structure Hosts (sha256 : Bytes → Bytes) (site : Text → Option Site) (log : Text → Log) (d : Text → Text → Nat) (n : Node) :
    Prop where
  usable : n.poisoned = false
  ids : (n.store.folders.map FolderRow.id).Nodup
  known : ∀ folder x, site folder = some x → ∃ dir, n.store.getSyncDirectory folder = some dir ∧ dir.path = some x.path
  rooted : ∀ folder x, site folder = some x → Rooted n x.path x.place
  shows : ∀ folder x, site folder = some x → Shows sha256 n folder x.place (log folder) (d folder)
  apart : ∀ folder other x y, site folder = some x → site other = some y → x.place = y.place → folder = other

section

variable {site : Text → Option Site} {log : Text → Log} {d : Text → Text → Nat}

theorem Hosts.spoken {n n' : Node} (h : Hosts sha256 site log d n) (hs : Says n n') : Hosts sha256 site log d n' := by
  obtain ⟨ms, rfl⟩ := hs
  refine ⟨h.usable, h.ids, h.known, fun folder x hx => ?_, fun folder x hx => ?_, h.apart⟩
  · have hr := h.rooted folder x hx
    exact ⟨hr.leads, hr.dir⟩
  · have hshows := h.shows folder x hx
    exact ⟨hshows.single, hshows.without, hshows.upTo⟩

/-- The folders a node shares with the peer of a connection. -/
def shared (n : Node) (conn : Conn) : List Text :=
  match peerOf n conn with
  | some peer => (selected n.store peer).map SyncDirectory.id
  | none => []

theorem getSyncDirectory_of_mem {s : Store} (hids : (s.folders.map FolderRow.id).Nodup) {dir : SyncDirectory}
    (h : dir ∈ s.getSyncDirectories) : s.getSyncDirectory dir.id = some dir := by
  cases hfind : s.getSyncDirectory dir.id with
  | none => exact absurd (List.find?_eq_none.mp hfind dir h) (by simp)
  | some dir' =>
    rw [← map_id_getSyncDirectories] at hids
    rw [List.inj_on_of_nodup_map hids (List.mem_of_find?_eq_some hfind) h (getSyncDirectory_id hfind)]

theorem Hosts.grants {n : Node} {conn : Conn} (h : Hosts sha256 site log d n) {folder : Text} {x : Site}
    (hx : site folder = some x) (hs : folder ∈ shared n conn) : Grants n conn folder x.path := by
  obtain ⟨dir, hdir, hpath⟩ := h.known folder x hx
  cases hpeer : peerOf n conn with
  | none => rw [shared, hpeer] at hs; cases hs
  | some peer =>
    rw [shared, hpeer] at hs
    obtain ⟨-, hsynced⟩ := mem_selected.mp hs
    exact ⟨h.usable, dir, peer, hdir, hpeer, by rw [getSyncDirectory_id hdir]; exact hsynced, hpath⟩

end

/-! ## One hop -/

/-- The node there tells what it has, the node here gets it. -/
def hop (sha256 : Bytes → Bytes) (conn : Conn) (p : Pair) : Pair :=
  let there := (run nodeDo (sendIndex sha256 conn) p.there).1
  ((there.sent.drop p.there.sent.length).filterMap indexOf).foldl (receive sha256 conn) ⟨p.here, there⟩

/-- The depths after those of some folders were joined. -/
def joined {α β : Type} [DecidableEq α] [Max β] (folders : List α) (dA dB : α → β) (folder : α) : β :=
  if folder ∈ folders then dB folder ⊔ dA folder else dB folder

section

variable {siteA siteB : Text → Option Site} {log : Text → Log} {dA dB : Text → Text → Nat} {conn : Conn}

/-- An Index of one folder, among the others. -/
theorem receive_hosts {p : Pair} {m : Index} {x y : Site} (hvalid : ∀ folder, Valid (log folder))
    (ha : Hosts sha256 siteA log dA p.there) (hb : Hosts sha256 siteB log dB p.here) (hx : siteA m.folder = some x)
    (hy : siteB m.folder = some y) (hshared : m.folder ∈ shared p.there conn)
    (htells : Tells sha256 (log m.folder) (dA m.folder) m.files) :
    Hosts sha256 siteB log (joined [m.folder] dA dB) (receive sha256 conn p m).here ∧
      SameFolders p.here.store (receive sha256 conn p m).here.store ∧ Says p.there (receive sha256 conn p m).there := by
  obtain ⟨dir, hdir, hpath⟩ := hb.known m.folder y hy
  have hid := getSyncDirectory_id hdir
  have hshows := hb.shows m.folder y hy
  have hshows' := ha.shows m.folder x hx
  have hgrants := ha.grants hx hshared
  rw [← hid] at hshows hshows' hgrants htells
  have h := receive_shows (hvalid dir.id) hdir hpath (hb.rooted _ y hy) hb.usable hshows hgrants (ha.rooted _ x hx) hshows' htells
  refine ⟨⟨h.usable, by rw [h.same.folders]; exact hb.ids, fun folder z hz => ?_, fun folder z hz => ?_, fun folder z hz => ?_,
    hb.apart⟩, h.same, h.spoken⟩
  · obtain ⟨dir', hdir', hpath'⟩ := hb.known folder z hz
    refine ⟨dir', ?_, hpath'⟩
    rw [← hdir']
    unfold Tables.getSyncDirectory Tables.getSyncDirectories
    rw [h.same.folders]
  · exact h.rooted _ _ (hb.rooted folder z hz)
  · by_cases hf : folder = m.folder
    · subst hf
      rw [hy] at hz
      cases hz
      rw [joined, if_pos (by simp)]
      have hres := h.shows
      rw [hid] at hres
      exact hres
    · -- the other folders have their own records and their own directories
      have hjoin : joined [m.folder] dA dB folder = dB folder := if_neg (by simpa using hf)
      have hne : folder ≠ dir.id := by rw [hid]; exact hf
      have hplace : ∀ name, entry (receive sha256 conn p m).here z.place name = entry p.here z.place name := by
        intro name
        refine h.beside _ fun name' he => hf ?_
        exact hb.apart folder m.folder z y hz hy (by simpa using congrArg List.dropLast he)
      rw [hjoin]
      exact (hb.shows folder z hz).elsewhere h.elsewhere hne hplace

theorem shared_tells {n n' : Node} (h : Says n n') (conn : Conn) : shared n' conn = shared n conn := by
  obtain ⟨ms, rfl⟩ := h
  rfl

theorem joined_cons (folder : Text) (folders : List Text) (dA dB : Text → Text → Nat) :
    joined folders dA (joined [folder] dA dB) = joined (folder :: folders) dA dB := by
  funext g
  unfold joined
  by_cases hg : g = folder
  · subst hg
    by_cases hin : g ∈ folders
    · rw [if_pos hin, if_pos (List.mem_singleton_self g), if_pos List.mem_cons_self, sup_assoc, sup_idem]
    · rw [if_neg hin, if_pos (List.mem_singleton_self g), if_pos List.mem_cons_self]
  · simp only [List.mem_cons, hg, false_or, if_false, List.not_mem_nil, or_false]

theorem receives_hosts (hvalid : ∀ folder, Valid (log folder)) : ∀ (ms : List Index) (p : Pair) (dB : Text → Text → Nat),
    Hosts sha256 siteA log dA p.there → Hosts sha256 siteB log dB p.here →
    (∀ m ∈ ms, (siteA m.folder).isSome = true ∧ (siteB m.folder).isSome = true ∧ m.folder ∈ shared p.there conn ∧
      Tells sha256 (log m.folder) (dA m.folder) m.files) →
    Hosts sha256 siteB log (joined (ms.map Index.folder) dA dB) (ms.foldl (receive sha256 conn) p).here ∧
      SameFolders p.here.store (ms.foldl (receive sha256 conn) p).here.store ∧
      Says p.there (ms.foldl (receive sha256 conn) p).there := by
  intro ms
  induction ms with
  | nil => intro p dB _ hb _; exact ⟨hb, .refl _, .refl _⟩
  | cons m ms ih =>
    intro p dB ha hb hall
    obtain ⟨hx, hy, hs, htells⟩ := hall m List.mem_cons_self
    obtain ⟨x, hx⟩ := Option.isSome_iff_exists.mp hx
    obtain ⟨y, hy⟩ := Option.isSome_iff_exists.mp hy
    obtain ⟨hone, hsame, htells⟩ := receive_hosts hvalid ha hb hx hy hs htells
    obtain ⟨hrest, hsame', htells'⟩ := ih (receive sha256 conn p m) _ (ha.spoken htells) hone fun m' hm' => by
      obtain ⟨h1, h2, h3, h4⟩ := hall m' (List.mem_cons_of_mem _ hm')
      exact ⟨h1, h2, by rw [shared_tells htells]; exact h3, h4⟩
    rw [joined_cons] at hrest
    exact ⟨hrest, hsame.trans hsame', htells.trans htells'⟩

theorem filterMap_indexOf (msgs : List Index) : (msgs.map Message.index).filterMap indexOf = msgs := by
  rw [List.filterMap_map]
  exact List.filterMap_some

theorem hop_hosts {p : Pair} {peer : Peer} (hvalid : ∀ folder, Valid (log folder)) (ha : Hosts sha256 siteA log dA p.there)
    (hb : Hosts sha256 siteB log dB p.here) (hpeer : peerOf p.there conn = some peer)
    (hplaced : ∀ folder ∈ shared p.there conn, (siteA folder).isSome = true ∧ (siteB folder).isSome = true) :
    Hosts sha256 siteB log (joined (shared p.there conn) dA dB) (hop sha256 conn p).here ∧
      SameFolders p.here.store (hop sha256 conn p).here.store ∧ Says p.there (hop sha256 conn p).there := by
  have hids : shared p.there conn = (selected p.there.store peer).map SyncDirectory.id := by rw [shared, hpeer]
  -- a folder of the peer is placed, and its record is the one of its id
  have hdirs : ∀ dir ∈ p.there.store.getSyncDirectories, dir.id ∈ shared p.there conn → ∃ x, siteA dir.id = some x ∧
      dir.path = some x.path := by
    intro dir hdir hs
    obtain ⟨x, hx⟩ := Option.isSome_iff_exists.mp (hplaced dir.id hs).1
    obtain ⟨dir', hdir', hpath⟩ := ha.known dir.id x hx
    rw [getSyncDirectory_of_mem ha.ids hdir] at hdir'
    cases hdir'
    exact ⟨x, hx, hpath⟩
  have hselected : ∀ dir ∈ selected p.there.store peer, dir ∈ p.there.store.getSyncDirectories ∧
      dir.id ∈ shared p.there conn := by
    intro dir hdir
    exact ⟨(List.mem_filter.mp hdir).1, by rw [hids]; exact List.mem_map_of_mem hdir⟩
  obtain ⟨msgs, hrun, hfolders, hann⟩ := run_sendIndex_posts sha256 hpeer fun dir hdir => by
    obtain ⟨hmem, hs⟩ := hselected dir hdir
    obtain ⟨x, hx, hpath⟩ := hdirs dir hmem hs
    exact (ha.shows dir.id x hx).announceable (hvalid dir.id) hpath (ha.rooted dir.id x hx)
  have htells : Says p.there { p.there with sent := p.there.sent ++ msgs.map .index } := ⟨_, rfl⟩
  have hhop : hop sha256 conn p = msgs.foldl (receive sha256 conn)
      ⟨p.here, { p.there with sent := p.there.sent ++ msgs.map .index }⟩ := by
    simp only [hop, hrun, List.drop_left, filterMap_indexOf]
  rw [hhop]
  obtain ⟨h1, h2, h3⟩ := receives_hosts hvalid msgs
    ⟨p.here, { p.there with sent := p.there.sent ++ msgs.map .index }⟩ dB (ha.spoken htells) hb fun m hm => by
      obtain ⟨dir, hdir, hfolder, hforall⟩ := hann m hm
      have hs : m.folder ∈ shared p.there conn := by
        rw [hids, ← hfolders]
        exact List.mem_map_of_mem hm
      rw [hfolder] at hs
      obtain ⟨x, hx, hpath⟩ := hdirs dir hdir hs
      rw [hfolder]
      exact ⟨(hplaced _ hs).1, (hplaced _ hs).2, hs,
        (ha.shows dir.id x hx).tells (hvalid dir.id) hpath (ha.rooted dir.id x hx) hforall⟩
  rw [hfolders, ← hids] at h1
  exact ⟨h1, h2, htells.trans h3⟩

end

/-! ## Any number of hops, in any order -/

section

variable {ι : Type} [DecidableEq ι]

/-- The first node of the edge tells the second; `conn` has the ends of the connections. -/
def exchange (sha256 : Bytes → Bytes) (conn : ι → ι → Conn) (w : ι → Node) (e : ι × ι) : ι → Node :=
  let p := hop sha256 (conn e.1 e.2) ⟨w e.2, w e.1⟩
  Function.update (Function.update w e.1 p.there) e.2 p.here

def exchanges (sha256 : Bytes → Bytes) (conn : ι → ι → Conn) (w : ι → Node) (es : List (ι × ι)) : ι → Node :=
  es.foldl (exchange sha256 conn) w

/-- Two nodes with a connection, and a place on both for every folder of it. -/
structure Linked (conn : ι → ι → Conn) (site : ι → Text → Option Site) (w : ι → Node) (e : ι × ι) : Prop where
  apart : e.1 ≠ e.2
  peer : (peerOf (w e.1) (conn e.1 e.2)).isSome = true
  placed : ∀ folder ∈ shared (w e.1) (conn e.1 e.2), (site e.1 folder).isSome = true ∧ (site e.2 folder).isSome = true

def edgesWith {α β : Type} [DecidableEq α] (folders : β → List α) (folder : α) (es : List β) : List β :=
  es.filter fun e => folder ∈ folders e

/-- The edges along which a folder is shared. -/
def carrying (conn : ι → ι → Conn) (w : ι → Node) (folder : Text) (es : List (ι × ι)) : List (ι × ι) :=
  edgesWith (fun e => shared (w e.1) (conn e.1 e.2)) folder es

variable {conn : ι → ι → Conn} {site : ι → Text → Option Site} {log : Text → Log}

omit [DecidableEq ι] in
theorem peerOf_same {n n' : Node} (h : SameFolders n.store n'.store) (conn : Conn) : peerOf n' conn = peerOf n conn := by
  unfold peerOf
  rw [h.peers]

theorem shared_same {n n' : Node} (h : SameFolders n.store n'.store) (conn : Conn) : shared n' conn = shared n conn := by
  unfold shared selected Tables.getSyncDirectories Tables.isDirectorySynced
  rw [peerOf_same h, h.folders, h.shares]

theorem Says.same {n n' : Node} (h : Says n n') : SameFolders n.store n'.store := by
  obtain ⟨ms, rfl⟩ := h
  exact .refl _

/-- One exchange is a pull of every folder that the edge shares. -/
theorem exchange_hosts (hvalid : ∀ folder, Valid (log folder)) {w : ι → Node} {d : ι → Text → Text → Nat} {e : ι × ι}
    (h : ∀ i, Hosts sha256 (site i) log (d i) (w i)) (he : Linked conn site w e) :
    (∀ i, Hosts sha256 (site i) log (fun folder => pulls (fun i => d i folder) (carrying conn w folder [e]) i)
        (exchange sha256 conn w e i)) ∧
      ∀ i, SameFolders (w i).store (exchange sha256 conn w e i).store := by
  obtain ⟨peer, hpeer⟩ := Option.isSome_iff_exists.mp he.peer
  obtain ⟨hhere, hsame, htells⟩ := hop_hosts (p := ⟨w e.2, w e.1⟩) hvalid (h e.1) (h e.2) hpeer he.placed
  -- what the pull does to a node that is not the edge's second one, and to that one
  have hother : ∀ i, i ≠ e.2 → (fun folder => pulls (fun i => d i folder) (carrying conn w folder [e]) i) = d i := by
    intro i hi
    funext folder
    unfold carrying edgesWith
    rw [List.filter_cons]
    split
    · show pull (fun i => d i folder) e i = d i folder
      rw [pull, Function.update_of_ne hi]
    · rfl
  have hself : (fun folder => pulls (fun i => d i folder) (carrying conn w folder [e]) e.2) =
      joined (shared (w e.1) (conn e.1 e.2)) (d e.1) (d e.2) := by
    funext folder
    unfold carrying edgesWith joined
    rw [List.filter_cons]
    by_cases hs : folder ∈ shared (w e.1) (conn e.1 e.2)
    · simp only [hs, decide_true, if_true, List.filter_nil]
      show pull (fun i => d i folder) e e.2 = _
      rw [pull, Function.update_self]
    · simp only [hs, decide_false, Bool.false_eq_true, if_false, List.filter_nil]
      rfl
  have hnode : ∀ i, exchange sha256 conn w e i = if i = e.2 then (hop sha256 (conn e.1 e.2) ⟨w e.2, w e.1⟩).here
      else if i = e.1 then (hop sha256 (conn e.1 e.2) ⟨w e.2, w e.1⟩).there else w i := by
    intro i
    simp only [exchange, Function.update_apply]
  constructor
  · intro i
    rw [hnode]
    by_cases hi : i = e.2
    · subst hi
      rw [if_pos rfl, hself]
      exact hhere
    · rw [if_neg hi, hother i hi]
      split
      · rename_i hi1
        subst hi1
        exact (h e.1).spoken htells
      · exact h i
  · intro i
    rw [hnode]
    by_cases hi : i = e.2
    · subst hi
      rw [if_pos rfl]
      exact hsame
    · rw [if_neg hi]
      split
      · rename_i hi1
        subst hi1
        exact htells.same
      · exact .refl _

/-- Whatever the order of the exchanges, every node shows the depths that reached it. -/
theorem exchanges_hosts (hvalid : ∀ folder, Valid (log folder)) :
    ∀ (es : List (ι × ι)) (w : ι → Node) (d : ι → Text → Text → Nat),
    (∀ i, Hosts sha256 (site i) log (d i) (w i)) → (∀ e ∈ es, Linked conn site w e) → ∀ i,
      Hosts sha256 (site i) log (fun folder => pulls (fun i => d i folder) (carrying conn w folder es) i)
        (exchanges sha256 conn w es i) := by
  intro es
  induction es with
  | nil => intro w d h _ i; exact h i
  | cons e es ih =>
    intro w d h hlinked
    obtain ⟨hone, hsame⟩ := exchange_hosts hvalid h (hlinked e List.mem_cons_self)
    have hshared : ∀ e' : ι × ι, shared (exchange sha256 conn w e e'.1) (conn e'.1 e'.2) = shared (w e'.1) (conn e'.1 e'.2) :=
      fun e' => shared_same (hsame e'.1) _
    have hrest := ih (exchange sha256 conn w e) _ hone fun e' he' => by
      have hl := hlinked e' (List.mem_cons_of_mem _ he')
      exact ⟨hl.apart, by rw [peerOf_same (hsame e'.1)]; exact hl.peer, by rw [hshared]; exact hl.placed⟩
    have hcarry : ∀ folder, carrying conn (exchange sha256 conn w e) folder es = carrying conn w folder es := by
      intro folder
      unfold carrying
      simp only [hshared]
    have hpulls : ∀ (folder : Text) (v : ι → Text → Nat),
        pulls (pulls v (carrying conn w folder [e])) (carrying conn w folder es) =
        pulls v (carrying conn w folder (e :: es)) := by
      intro folder v
      have happ : carrying conn w folder (e :: es) = carrying conn w folder [e] ++ carrying conn w folder es := by
        unfold carrying edgesWith
        rw [← List.filter_append, List.singleton_append]
      rw [happ, pulls, pulls, pulls, List.foldl_append]
    intro i
    have hi := hrest i
    simp only [hcarry, hpulls] at hi
    exact hi

/-- A node that the exchanges reach from every node shows the least upper bound of all. -/
theorem exchanges_converge (hvalid : ∀ folder, Valid (log folder)) {w : ι → Node} {d : ι → Text → Text → Nat}
    (h : ∀ i, Hosts sha256 (site i) log (d i) (w i)) {es : List (ι × ι)} (hlinked : ∀ e ∈ es, Linked conn site w e)
    {folder : Text} {j : ι} {x : Site} (hx : site j folder = some x) (hreach : ∀ i, Carries (carrying conn w folder es) i j) :
    ∃ D : Text → Nat, IsLUB (Set.range fun i => d i folder) D ∧
      Shows sha256 (exchanges sha256 conn w es j) folder x.place (log folder) D :=
  ⟨_, isLUB_pulls hreach fun i => d i folder, (exchanges_hosts hvalid es w d h hlinked j).shows folder x hx⟩

/-- Rounds of exchanges, each with all edges of a connected graph in any order: after as many
    rounds as its longest path has steps, all nodes show the same, the deepest there was. -/
theorem rounds_converge (hvalid : ∀ folder, Valid (log folder)) {w : ι → Node} {d : ι → Text → Text → Nat}
    (h : ∀ i, Hosts sha256 (site i) log (d i) (w i)) {rounds : List (List (ι × ι))}
    (hlinked : ∀ es ∈ rounds, ∀ e ∈ es, Linked conn site w e) {folder : Text} {E : ι → ι → Prop}
    (hall : ∀ es ∈ rounds, ∀ a b, E a b → (a, b) ∈ es) (hshared : ∀ a b, E a b → folder ∈ shared (w a) (conn a b))
    (hpaths : ∀ i j, ∃ path : List ι, (i :: path).IsChain E ∧ (i :: path).getLast? = some j ∧ path.length ≤ rounds.length) :
    ∃ D : Text → Nat, IsLUB (Set.range fun i => d i folder) D ∧ ∀ j x, site j folder = some x →
      Shows sha256 (exchanges sha256 conn w rounds.flatten j) folder x.place (log folder) D := by
  have hreach : ∀ i j, Carries (carrying conn w folder rounds.flatten) i j := by
    intro i j
    obtain ⟨path, hchain, hlast, hlen⟩ := hpaths i j
    have hflat : carrying conn w folder rounds.flatten = (rounds.map (carrying conn w folder)).flatten := List.filter_flatten
    rw [hflat]
    refine carries_rounds (fun es hes a b hab => ?_) hchain hlast (by rwa [List.length_map])
    obtain ⟨round, hround, rfl⟩ := List.mem_map.mp hes
    exact List.mem_filter.mpr ⟨hall round hround a b hab, by simpa using hshared a b hab⟩
  have hsome : ∀ j x, site j folder = some x → ∃ D : Text → Nat, IsLUB (Set.range fun i => d i folder) D ∧
      Shows sha256 (exchanges sha256 conn w rounds.flatten j) folder x.place (log folder) D := by
    intro j x hx
    refine exchanges_converge hvalid h (fun e he => ?_) hx fun i => hreach i j
    obtain ⟨es, hes, hmem⟩ := List.mem_flatten.mp he
    exact hlinked es hes e hmem
  obtain ⟨D, hD⟩ : ∃ D : Text → Nat, IsLUB (Set.range fun i => d i folder) D := by
    rcases isEmpty_or_nonempty ι with hempty | ⟨⟨j⟩⟩
    · exact ⟨⊥, by rw [Set.range_eq_empty]; exact isLUB_empty⟩
    · exact ⟨_, isLUB_pulls (fun i => hreach i j) fun i => d i folder⟩
  refine ⟨D, hD, fun j x hx => ?_⟩
  obtain ⟨D', hD', hshows⟩ := hsome j x hx
  rw [hD.unique hD']
  exact hshows

end

end BepRs.Relay
