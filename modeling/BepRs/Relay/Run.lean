/-
  BepRs.Relay.Run — runs of saves and exchanges.

  Any number of nodes share folders. Users save files, each over the newest version of the
  file there is anywhere, and nodes exchange along their connections, in any order. Throughout
  there is one log of each folder that all nodes show to some depth (`Whole`).

  - `done_whole`: one action; a save adds to the log, an exchange to a depth.
  - `runs_agree`: in every state of a run two nodes' histories of a file are prefixes of one
    another, and where they are the same so are the bytes on disk.
  - `runs_settle`: rounds of exchanges after a run leave every node with the newest of all.
-/

import BepRs.Relay.Edit

namespace BepRs.Relay

open BepRs.Lib BepRs.Lib.Path BepRs.Lib.Task BepRs.Lib.Spread BepRs.State BepRs.Sync BepRs.Access BepRs.History

variable {sha256 : Bytes → Bytes}

/-! ## A save, among the other folders -/

/-- The logs with one version more in a folder. -/
def adds (logs : Text → Log) (folder name : Text) (e : Version × Bytes) : Text → Log :=
  Function.update logs folder ((logs folder).add name e)

theorem prefix_adds (logs : Text → Log) (folder name : Text) (e : Version × Bytes) (other name' : Text) :
    logs other name' <+: adds logs folder name e other name' := by
  by_cases hf : other = folder
  · subst hf
    rw [adds, Function.update_self]
    exact add_prefix _ _ _ _
  · have hsame : adds logs folder name e other = logs other := Function.update_of_ne hf _ _
    exact hsame ▸ List.prefix_refl _

theorem le_deeper {log : Log} {d : Text → Text → Nat} {folder name : Text} (h : d folder name = (log name).length)
    (other name' : Text) : d other name' ≤ Function.update d folder (deeper log (d folder) name) other name' := by
  by_cases hf : other = folder
  · subst hf
    rw [Function.update_self, deeper]
    by_cases hn : name' = name
    · subst hn
      rw [Function.update_self, h]
      exact Nat.le_succ _
    · rw [Function.update_of_ne hn]
  · rw [Function.update_of_ne hf]

section

variable {site : Text → Option Site} {logs : Text → Log} {d : Text → Text → Nat}

/-- A node that did not save shows the longer logs to the same depths. -/
theorem Hosts.adds {n : Node} (h : Hosts sha256 site logs d n) (folder name : Text) (e : Version × Bytes) :
    Hosts sha256 site (adds logs folder name e) d n := by
  refine ⟨h.usable, h.ids, h.known, h.rooted, fun other x hx => ?_, h.apart⟩
  by_cases hf : other = folder
  · subst hf
    rw [Relay.adds, Function.update_self]
    exact (h.shows other x hx).add name e
  · rw [Relay.adds, Function.update_of_ne hf]
    exact h.shows other x hx

theorem save_hosts {n : Node} {folder name : Text} {x : Site} {c : Bytes} (hvalid : Valid (logs folder))
    (hsmall : ∀ name, ∀ e ∈ logs folder name, e.2.length < 128 * 1024) (h : Hosts sha256 site logs d n)
    (hx : site folder = some x) (habs : isAbsolute x.path = true) (hsave : Saves sha256 n x.place name c)
    (hnewest : d folder name = (logs folder name).length) (hcount : (logs folder name).length < 2 ^ 64 - 1) :
    Hosts sha256 site (adds logs folder name (next n (logs folder) name c))
        (Function.update d folder (deeper (logs folder) (d folder) name)) (save sha256 folder x.place name c n) ∧
      SameFolders n.store (save sha256 folder x.place name c n).store := by
  obtain ⟨dir, hdir, hpath⟩ := h.known folder x hx
  obtain rfl := getSyncDirectory_id hdir
  obtain ⟨s, hrun, hwrote, helse, hsame, hnoDir, hshows⟩ := save_shows hvalid hsmall hdir hpath habs (h.rooted _ x hx)
    (h.shows _ x hx) hsave hnewest hcount
  rw [hrun]
  refine ⟨⟨h.usable, by rw [hsame.folders]; exact h.ids, fun other y hy => ?_, fun other y hy => ?_, fun other y hy => ?_,
    h.apart⟩,
    hsame⟩
  · obtain ⟨dir', hdir', hpath'⟩ := h.known other y hy
    refine ⟨dir', ?_, hpath'⟩
    rw [← hdir']
    unfold Tables.getSyncDirectory Tables.getSyncDirectories
    rw [hsame.folders]
  · have hr := hwrote.rooted hnoDir (h.rooted other y hy)
    exact ⟨hr.leads, hr.dir⟩
  · by_cases hf : other = dir.id
    · subst hf
      rw [hx] at hy
      cases hy
      rw [Relay.adds, Function.update_self, Function.update_self]
      exact hshows
    · rw [Relay.adds, Function.update_of_ne hf, Function.update_of_ne hf]
      refine (h.shows other y hy).elsewhere helse hf fun name' => ?_
      refine hwrote.beside _ fun he => hf ?_
      exact h.apart other dir.id y x hy hx (by simpa using congrArg List.dropLast he)

end

/-! ## Actions -/

section

variable {ι : Type} [DecidableEq ι]

inductive Act (ι : Type) where
  | exchange (e : ι × ι)
  /-- A user of the node saves a file of a folder. -/
  | save (i : ι) (folder name : Text) (c : Bytes)

def Act.done (sha256 : Bytes → Bytes) (conn : ι → ι → Conn) (site : ι → Text → Option Site) (w : ι → Node) : Act ι → ι → Node
  | .exchange e => Relay.exchange sha256 conn w e
  | .save i folder name c =>
    match site i folder with
    | some x => Function.update w i (Relay.save sha256 folder x.place name c (w i))
    | none => w

/-- How many versions of a file a node has recorded. -/
def known (w : ι → Node) (i : ι) (folder name : Text) : Nat := depth ((w i).store.lookup folder name)

/-- The action can be done: the nodes are linked; the user's file is small, no shorter than
    the one on disk, another one, and no node knows of more versions of it. -/
def Act.Allowed (sha256 : Bytes → Bytes) (conn : ι → ι → Conn) (site : ι → Text → Option Site) (w : ι → Node) : Act ι → Prop
  | .exchange e => Linked conn site w e
  | .save i folder name c => ∃ x, site i folder = some x ∧ isAbsolute x.path = true ∧ Saves sha256 (w i) x.place name c ∧
      c.length < 128 * 1024 ∧ known w i folder name < 2 ^ 64 - 1 ∧
      ∀ j, (site j folder).isSome = true → known w j folder name ≤ known w i folder name

inductive Runs (sha256 : Bytes → Bytes) (conn : ι → ι → Conn) (site : ι → Text → Option Site) (w₀ : ι → Node) : (ι → Node) → Prop
  | start : Runs sha256 conn site w₀ w₀
  | act {w : ι → Node} (a : Act ι) : Runs sha256 conn site w₀ w → a.Allowed sha256 conn site w →
      Runs sha256 conn site w₀ (a.done sha256 conn site w)

/-- One log of each folder, and the depths the nodes show it to. -/
structure Whole (sha256 : Bytes → Bytes) (site : ι → Text → Option Site) (logs : Text → Log) (d : ι → Text → Text → Nat)
    (w : ι → Node) : Prop where
  valid : ∀ folder, Valid (logs folder)
  small : ∀ folder name, ∀ e ∈ logs folder name, e.2.length < 128 * 1024
  hosts : ∀ i, Hosts sha256 (site i) logs (d i) (w i)
  /-- Some node has the newest version. -/
  tip : ∀ folder name, logs folder name ≠ [] → ∃ i, (site i folder).isSome = true ∧ d i folder name = (logs folder name).length

variable {conn : ι → ι → Conn} {site : ι → Text → Option Site} {logs : Text → Log} {d : ι → Text → Text → Nat} {w : ι → Node}

omit [DecidableEq ι] in
theorem Whole.known_eq (h : Whole sha256 site logs d w) {i : ι} {folder : Text} (hs : (site i folder).isSome = true)
    (name : Text) :
    known w i folder name = d i folder name := by
  obtain ⟨x, hx⟩ := Option.isSome_iff_exists.mp hs
  exact depth_shows ((h.hosts i).shows folder x hx) name

/-- No node shows more than there is. -/
theorem Shows.le {n : Node} {folder : Text} {q : List Text} {log : Log} {d : Text → Nat} (h : Shows sha256 n folder q log d)
    (name : Text) : d name ≤ (log name).length := by
  rcases hd : d name with _ | k
  · exact Nat.zero_le _
  · obtain ⟨e, -, he, -⟩ := h.upTo name k hd
    exact (List.getElem?_eq_some_iff.mp he).choose

omit [DecidableEq ι] in
theorem Whole.le (h : Whole sha256 site logs d w) {i : ι} {folder : Text} (hs : (site i folder).isSome = true) (name : Text) :
    d i folder name ≤ (logs folder name).length := by
  obtain ⟨x, hx⟩ := Option.isSome_iff_exists.mp hs
  exact ((h.hosts i).shows folder x hx).le name

omit [DecidableEq ι] in
/-- A node than which none knows more has the newest version. -/
theorem Whole.newest (h : Whole sha256 site logs d w) {i : ι} {folder name : Text} (hs : (site i folder).isSome = true)
    (hmost : ∀ j, (site j folder).isSome = true → known w j folder name ≤ known w i folder name) :
    d i folder name = (logs folder name).length := by
  refine le_antisymm (h.le hs name) ?_
  by_cases hnil : logs folder name = []
  · rw [hnil]
    exact Nat.zero_le _
  · obtain ⟨j, hj, hlen⟩ := h.tip folder name hnil
    have hle := hmost j hj
    rw [h.known_eq hj, h.known_eq hs, hlen] at hle
    exact hle

/-! ## One action -/

/-- What an action, or a run, leaves of the logs and the depths: it only adds to them. -/
structure Grown (logs logs' : Text → Log) (d d' : ι → Text → Text → Nat) (w w' : ι → Node) : Prop where
  logs : ∀ folder name, logs folder name <+: logs' folder name
  depths : ∀ i folder name, d i folder name ≤ d' i folder name
  same : ∀ i, SameFolders (w i).store (w' i).store

omit [DecidableEq ι] in
theorem Grown.refl (logs : Text → Log) (d : ι → Text → Text → Nat) (w : ι → Node) : Grown logs logs d d w w :=
  ⟨fun _ _ => List.prefix_refl _, fun _ _ _ => le_refl _, fun _ => .refl _⟩

omit [DecidableEq ι] in
theorem Grown.trans {logs₁ logs₂ logs₃ : Text → Log} {d₁ d₂ d₃ : ι → Text → Text → Nat} {w₁ w₂ w₃ : ι → Node}
    (h : Grown logs₁ logs₂ d₁ d₂ w₁ w₂) (h' : Grown logs₂ logs₃ d₂ d₃ w₂ w₃) : Grown logs₁ logs₃ d₁ d₃ w₁ w₃ :=
  ⟨fun folder name => (h.logs folder name).trans (h'.logs folder name),
    fun i folder name => (h.depths i folder name).trans (h'.depths i folder name), fun i => (h.same i).trans (h'.same i)⟩

/-- An exchange joins depths, and the logs stay. -/
theorem exchange_whole (h : Whole sha256 site logs d w) {e : ι × ι} (he : Linked conn site w e) :
    ∃ d', Whole sha256 site logs d' (exchange sha256 conn w e) ∧ Grown logs logs d d' w (exchange sha256 conn w e) := by
  obtain ⟨hhosts, hsame⟩ := exchange_hosts h.valid h.hosts he
  obtain ⟨d', hd'⟩ : ∃ d' : ι → Text → Text → Nat,
      d' = fun i folder => pulls (fun i => d i folder) (carrying conn w folder [e]) i := ⟨_, rfl⟩
  have hle : ∀ i folder name, d i folder name ≤ d' i folder name := by
    intro i folder name
    rw [hd']
    exact le_pulls (carrying conn w folder [e]) (fun i => d i folder) i name
  have hnew : ∀ i, Hosts sha256 (site i) logs (d' i) (exchange sha256 conn w e i) := by
    intro i
    rw [hd']
    exact hhosts i
  refine ⟨d', ⟨h.valid, h.small, hnew, fun folder name hne => ?_⟩, ⟨fun _ _ => List.prefix_refl _, hle, hsame⟩⟩
  obtain ⟨i, hi, hlen⟩ := h.tip folder name hne
  obtain ⟨x, hx⟩ := Option.isSome_iff_exists.mp hi
  exact ⟨i, hi, le_antisymm (((hnew i).shows folder x hx).le name) (hlen ▸ hle i folder name)⟩

/-- A save adds a version to the log, and its node shows it. -/
theorem save_whole (h : Whole sha256 site logs d w) {i : ι} {folder name : Text} {c : Bytes} {x : Site}
    (hx : site i folder = some x)
    (habs : isAbsolute x.path = true) (hsave : Saves sha256 (w i) x.place name c) (hc : c.length < 128 * 1024)
    (hcount : known w i folder name < 2 ^ 64 - 1)
    (hmost : ∀ j, (site j folder).isSome = true → known w j folder name ≤ known w i folder name) :
    ∃ logs' d', Whole sha256 site logs' d' (Function.update w i (save sha256 folder x.place name c (w i))) ∧
      Grown logs logs' d d' w (Function.update w i (save sha256 folder x.place name c (w i))) := by
  have hi : (site i folder).isSome = true := by rw [hx]; rfl
  have hnewest := h.newest hi hmost
  rw [h.known_eq hi, hnewest] at hcount
  obtain ⟨e, he⟩ : ∃ e, e = next (w i) (logs folder) name c := ⟨_, rfl⟩
  have hbytes : e.2 = c := by rw [he]; rfl
  have hnumber : e.1.2.toNat = (logs folder name).length := by
    rw [he]
    exact toNat_next (by omega)
  obtain ⟨hnode, hsame⟩ := save_hosts (h.valid folder) (h.small folder) (h.hosts i) hx habs hsave hnewest hcount
  rw [← he] at hnode
  -- the newest contents there were are on the disk of the node
  have hgrows : ∀ e', (logs folder name).getLast? = some e' → e'.2.length ≤ e.2.length := by
    intro e' hlast
    have hpos : 0 < (logs folder name).length := List.length_pos_of_mem (List.mem_of_getLast? hlast)
    obtain ⟨k, hk⟩ := Nat.exists_eq_succ_of_ne_zero (by omega : (logs folder name).length ≠ 0)
    obtain ⟨e'', -, he'', -, -, -, hentry⟩ := ((h.hosts i).shows folder x hx).upTo name k (by omega)
    rw [List.getLast?_eq_getElem?, hk, Nat.succ_sub_one, he''] at hlast
    cases hlast
    have hgrow := hsave.grows
    rw [entryBytes_file hentry] at hgrow
    rwa [hbytes]
  have hvalid : ∀ other, Valid (adds logs folder name e other) := by
    intro other
    by_cases hf : other = folder
    · subst hf
      rw [adds, Function.update_self]
      exact valid_add (h.valid other) hsave.named hnumber (by rw [hbytes]; exact hsave.sized) hgrows
    · rw [adds, Function.update_of_ne hf]
      exact h.valid other
  have hsmall : ∀ other name', ∀ e' ∈ adds logs folder name e other name', e'.2.length < 128 * 1024 := by
    intro other name' e' he'
    by_cases hf : other = folder
    · subst hf
      rw [adds, Function.update_self] at he'
      obtain ⟨k, hk⟩ := List.getElem?_of_mem he'
      rcases add_cases hk with hold | ⟨-, -, rfl⟩
      · exact h.small other name' e' (List.mem_of_getElem? hold)
      · rwa [hbytes]
    · rw [adds, Function.update_of_ne hf] at he'
      exact h.small other name' e' he'
  refine ⟨adds logs folder name e,
    Function.update d i (Function.update (d i) folder (deeper (logs folder) (d i folder) name)),
    ⟨hvalid, hsmall, fun j => ?_, fun other name' hne => ?_⟩,
    ⟨prefix_adds logs folder name e, fun j other name' => ?_, fun j => ?_⟩⟩
  · by_cases hj : j = i
    · subst hj
      rw [Function.update_self, Function.update_self]
      exact hnode
    · rw [Function.update_of_ne hj, Function.update_of_ne hj]
      exact (h.hosts j).adds folder name e
  · by_cases hboth : other = folder ∧ name' = name
    · obtain ⟨rfl, rfl⟩ := hboth
      refine ⟨i, hi, ?_⟩
      rw [Function.update_self, Function.update_self, deeper, Function.update_self, adds, Function.update_self, Log.add,
        Function.update_self, List.length_append, List.length_singleton]
    · have hlog : adds logs folder name e other name' = logs other name' := by
        by_cases hf : other = folder
        · subst hf
          rw [adds, Function.update_self, Log.add, Function.update_of_ne fun hn => hboth ⟨rfl, hn⟩]
        · rw [adds, Function.update_of_ne hf]
      rw [hlog] at hne ⊢
      obtain ⟨j, hj, hlen⟩ := h.tip other name' hne
      refine ⟨j, hj, ?_⟩
      by_cases hji : j = i
      · subst hji
        rw [Function.update_self]
        by_cases hf : other = folder
        · subst hf
          rw [Function.update_self, deeper, Function.update_of_ne fun hn => hboth ⟨rfl, hn⟩]
          exact hlen
        · rw [Function.update_of_ne hf]
          exact hlen
      · rw [Function.update_of_ne hji]
        exact hlen
  · by_cases hj : j = i
    · subst hj
      rw [Function.update_self]
      exact le_deeper hnewest other name'
    · rw [Function.update_of_ne hj]
  · by_cases hj : j = i
    · subst hj
      rw [Function.update_self]
      exact hsame
    · rw [Function.update_of_ne hj]
      exact .refl _

/-- An action adds to the logs, or to the depths they are shown to. -/
theorem done_whole (h : Whole sha256 site logs d w) {a : Act ι} (ha : a.Allowed sha256 conn site w) :
    ∃ logs' d', Whole sha256 site logs' d' (a.done sha256 conn site w) ∧ Grown logs logs' d d' w (a.done sha256 conn site w) := by
  cases a with
  | exchange e =>
    obtain ⟨d', hwhole, hgrown⟩ := exchange_whole h ha
    exact ⟨logs, d', hwhole, hgrown⟩
  | save i folder name c =>
    obtain ⟨x, hx, habs, hsave, hc, hcount, hmost⟩ := ha
    simp only [Act.done, hx]
    exact save_whole h hx habs hsave hc hcount hmost

/-- So does a run. -/
theorem runs_whole {w' : ι → Node} (h : Whole sha256 site logs d w) (hrun : Runs sha256 conn site w w') :
    ∃ logs' d', Whole sha256 site logs' d' w' ∧ Grown logs logs' d d' w w' := by
  induction hrun with
  | start => exact ⟨logs, d, h, .refl _ _ _⟩
  | act a _ ha ih =>
    obtain ⟨logs', d', hwhole, hgrown⟩ := ih
    obtain ⟨logs'', d'', hwhole', hgrown'⟩ := done_whole hwhole ha
    exact ⟨logs'', d'', hwhole', hgrown.trans hgrown'⟩

omit [DecidableEq ι] in
theorem Linked.same {w' : ι → Node} {e : ι × ι} (h : Linked conn site w e) (hs : SameFolders (w e.1).store (w' e.1).store) :
    Linked conn site w' e :=
  ⟨h.apart, by rw [peerOf_same hs]; exact h.peer, by rw [shared_same hs]; exact h.placed⟩

/-! ## What the users see -/

/-- The versions a node has recorded of a file, and the file. -/
def shown (n : Node) (folder : Text) (x : Site) (name : Text) : Option (List Version × Bytes) :=
  (n.store.lookup folder name).bind fun r => (n.readFile (push x.path name)).map fun c => (r.versions, c)

/-- A log up to a depth. -/
def Log.upTo (log : Log) (name : Text) : Nat → Option (List Version × Bytes)
  | 0 => none
  | k + 1 => (log name)[k]?.map fun e => (log.versions name (k + 1), e.2)

theorem upTo_some {log : Log} {name : Text} {m : Nat} {s : List Version × Bytes} (h : log.upTo name m = some s) :
    ∃ k e, m = k + 1 ∧ (log name)[k]? = some e ∧ s = (log.versions name (k + 1), e.2) := by
  rcases m with _ | k
  · cases h
  · obtain ⟨e, he, rfl⟩ := Option.map_eq_some_iff.mp h
    exact ⟨k, e, rfl, he, rfl⟩

theorem upTo_grown {log log' : Log} {name : Text} {m : Nat} {s : List Version × Bytes} (hlog : log name <+: log' name)
    (h : log.upTo name m = some s) : log'.upTo name m = some s := by
  obtain ⟨k, e, rfl, he, rfl⟩ := upTo_some h
  obtain ⟨t, ht⟩ := hlog
  have hlt := (List.getElem?_eq_some_iff.mp he).choose
  rw [Log.upTo, ← ht, List.getElem?_append_left hlt, he, Option.map_some, Log.versions, Log.versions, ← ht,
    List.take_append_of_le_length hlt]

theorem prefix_upTo {log : Log} {name : Text} {m m' : Nat} {s s' : List Version × Bytes} (h : log.upTo name m = some s)
    (h' : log.upTo name m' = some s') (hm : m ≤ m') : s.1 <+: s'.1 ∧ (s.1 = s'.1 → s = s') := by
  obtain ⟨k, e, rfl, he, rfl⟩ := upTo_some h
  obtain ⟨k', e', rfl, he', rfl⟩ := upTo_some h'
  refine ⟨prefix_versions log name hm, fun heq => ?_⟩
  have hlen := congrArg List.length heq
  simp only [length_versions he, length_versions he'] at hlen
  have hkk : k = k' := by omega
  subst hkk
  rw [he] at he'
  cases he'
  rfl

theorem upTo_length {log : Log} {name : Text} {m : Nat} (hpos : m ≠ 0) (hle : m ≤ (log name).length) :
    ∃ s, log.upTo name m = some s := by
  obtain ⟨k, rfl⟩ := Nat.exists_eq_succ_of_ne_zero hpos
  exact ⟨_, by rw [Log.upTo, List.getElem?_eq_getElem (by omega : k < (log name).length), Option.map_some]⟩

omit [DecidableEq ι] in
theorem shown_shows {n : Node} {folder : Text} {x : Site} {log : Log} {d : Text → Nat} (hvalid : Valid log)
    (hrooted : Rooted n x.path x.place) (h : Shows sha256 n folder x.place log d) (name : Text) :
    shown n folder x name = log.upTo name (d name) := by
  rcases hd : d name with _ | k
  · rw [shown, (h.without name hd).1]
    rfl
  · obtain ⟨e, r, he, hlook, hholds, -, hentry⟩ := h.upTo name k hd
    have hname := hvalid.named name (List.ne_nil_of_mem (List.mem_of_getElem? he))
    rw [shown, hlook, Option.bind_some, (readFile_entry hrooted hname).mpr hentry, Log.upTo, he, Option.map_some,
      Option.map_some, hholds.versions]

theorem Hosts.shown {n : Node} {site : Text → Option Site} {logs : Text → Log} {d : Text → Text → Nat} {folder : Text} {x : Site}
    (h : Hosts sha256 site logs d n) (hvalid : Valid (logs folder)) (hx : site folder = some x) (name : Text) :
    Relay.shown n folder x name = (logs folder).upTo name (d folder name) :=
  shown_shows hvalid (h.rooted folder x hx) (h.shows folder x hx) name

end

/-! ## Three nodes in a line -/

def lineDevice (i : Fin 3) : Bytes := List.replicate 32 (UInt8.ofNat i.val)

/-- All three know one another, and share the tests' folder with all. -/
def lineCalls : List State.Call :=
  [.addPeer ['a'] (peerDevice 0), .addPeer ['b'] (peerDevice 1), .addPeer ['c'] (peerDevice 2),
    .addSyncDirectory (fun _ => true) [] (some ['/', 'd']) ['d'] (some ['d']),
    .syncDirectoryWithPeer fileDir ⟨1, some (lineDevice 0), ['a']⟩,
    .syncDirectoryWithPeer fileDir ⟨2, some (lineDevice 1), ['b']⟩,
    .syncDirectoryWithPeer fileDir ⟨3, some (lineDevice 2), ['c']⟩]

theorem root_named : ∀ s ∈ ([] : List Text), FileName s := fun _ h => absurd h List.not_mem_nil

def lineNodes (i : Fin 3) : Node where
  store := State.Call.acts (newStore (UInt64.ofNat (i.val + 1))) lineCalls
  disk := ⟨[([['d']], .dir)], by simp, by simp [FileName, Plain]⟩
  cwd := []
  cwd_named := root_named
  poisoned := false
  wire := []
  ids := []
  sent := []
  spawned := []

def lineConn (_ j : Fin 3) : Conn := ⟨some (lineDevice j)⟩

def lineSite (_ : Fin 3) (folder : Text) : Option Site := if folder = ['d'] then some ⟨['/', 'd'], [['d']]⟩ else none

def lineRound : List (Fin 3 × Fin 3) := [(0, 1), (1, 2), (2, 1), (1, 0)]

theorem line_whole : Whole fileSha lineSite (fun _ _ => []) (fun _ _ _ => 0) lineNodes := by
  have hrecords : ∀ i, (lineNodes i).store.records = [] := by decide +kernel
  have hknown : ∀ i, (lineNodes i).store.getSyncDirectory ['d'] = some fileDir := by decide +kernel
  have hroot : ∀ i, (lineNodes i).disk.locate (lineNodes i).cwd ['/', 'd'] = some [['d']] ∧
      (lineNodes i).disk.node [['d']] = some .dir := by decide +kernel
  have hsite : ∀ {i folder x}, lineSite i folder = some x → folder = ['d'] ∧ x = ⟨['/', 'd'], [['d']]⟩ := by
    intro i folder x hx
    unfold lineSite at hx
    split at hx
    · rename_i hf
      exact ⟨hf, (Option.some.inj hx).symm⟩
    · cases hx
  refine ⟨fun _ => valid_nil, fun folder name e he => (by cases he), fun i => ⟨rfl, ?_, fun folder x hx => ?_,
    fun folder x hx => ?_, fun folder x hx => ?_, fun folder other x y hx hy _ => ?_⟩, fun folder name h => absurd rfl h⟩
  · revert i
    decide +kernel
  · obtain ⟨rfl, rfl⟩ := hsite hx
    exact ⟨fileDir, hknown i, rfl⟩
  · obtain ⟨rfl, rfl⟩ := hsite hx
    exact ⟨(hroot i).1, (hroot i).2⟩
  · obtain ⟨rfl, rfl⟩ := hsite hx
    have hlook : ∀ name, (lineNodes i).store.lookup ['d'] name = none := by
      intro name
      rw [Store.lookup, hrecords]
      rfl
    refine ⟨fun r hr => ?_, fun name _ => ⟨hlook name, ?_⟩, fun _ _ h => by cases h⟩
    · rw [hrecords] at hr
      cases hr
    · rw [entry, Disk.node, if_neg (by simp)]
      rfl
  · rw [(hsite hx).1, (hsite hy).1]

theorem line_linked : ∀ es ∈ [lineRound, lineRound], ∀ e ∈ es, Linked lineConn lineSite lineNodes e := by
  have hshared : ∀ i j, shared (lineNodes i) (lineConn i j) = [['d']] := by decide +kernel
  have hpeer : ∀ i j, (peerOf (lineNodes i) (lineConn i j)).isSome = true := by decide +kernel
  have hapart : ∀ es ∈ [lineRound, lineRound], ∀ e ∈ es, e.1 ≠ e.2 := by decide
  intro es hes e he
  refine ⟨hapart es hes e he, hpeer _ _, fun folder hf => ?_⟩
  rw [hshared, List.mem_singleton] at hf
  subst hf
  exact ⟨rfl, rfl⟩

/-- The first node's user saves the tests' file. -/
def lineSaved : Fin 3 → Node := (Act.save 0 ['d'] ['f'] fileContents).done fileSha lineConn lineSite lineNodes

theorem line_saved : Runs fileSha lineConn lineSite lineNodes lineSaved := by
  refine .act (.save 0 ['d'] ['f'] fileContents) .start ⟨⟨['/', 'd'], [['d']]⟩, rfl, by decide, ⟨?_, by decide, ?_, ?_⟩,
    by decide, ?_, ?_⟩
  · simp [FileName, Plain]
  · rw [show entryBytes (lineNodes 0) [['d']] ['f'] = [] by decide +kernel]
    exact Nat.zero_le _
  · rw [show entry (lineNodes 0) [['d']] ['f'] = none by decide +kernel]
    simp
  · rw [show known lineNodes 0 ['d'] ['f'] = 0 by decide +kernel]
    decide
  · have hzero : ∀ j, known lineNodes j ['d'] ['f'] = 0 := by decide +kernel
    intro j _
    rw [hzero]
    exact Nat.zero_le _

/-! ## Runs -/

section

variable {ι : Type} [DecidableEq ι] {conn : ι → ι → Conn} {site : ι → Text → Option Site} {logs : Text → Log}
  {d : ι → Text → Text → Nat} {w : ι → Node}

/-- In a run, whatever was saved and exchanged: what a node shows of a file it goes on to
    show, or a longer history; of two nodes' histories, at any two times, one is a prefix of
    the other; and equal histories are of equal contents. -/
theorem runs_agree {w₀ w' : ι → Node} (h : Whole sha256 site logs d w₀) (hrun : Runs sha256 conn site w₀ w)
    (hlater : Runs sha256 conn site w w') {folder name : Text} {i : ι} {x : Site} (hx : site i folder = some x)
    {s : List Version × Bytes} (hs : shown (w i) folder x name = some s) :
    (∃ s', shown (w' i) folder x name = some s' ∧ s.1 <+: s'.1) ∧
      ∀ j y s', site j folder = some y → shown (w' j) folder y name = some s' →
        (s.1 <+: s'.1 ∨ s'.1 <+: s.1) ∧ (s.1 = s'.1 → s.2 = s'.2) := by
  obtain ⟨logs₁, d₁, hwhole, -⟩ := runs_whole h hrun
  obtain ⟨logs₂, d₂, hwhole', hgrown⟩ := runs_whole hwhole hlater
  rw [(hwhole.hosts i).shown (hwhole.valid folder) hx] at hs
  have hpos : d₁ i folder name ≠ 0 := by
    obtain ⟨k, -, hk, -⟩ := upTo_some hs
    omega
  -- the earlier history is in the later log
  have hs₂ := upTo_grown (hgrown.logs folder name) hs
  refine ⟨?_, fun j y s' hy hs' => ?_⟩
  · have hdepth := hgrown.depths i folder name
    obtain ⟨s', hs'⟩ := upTo_length (by omega : d₂ i folder name ≠ 0) (hwhole'.le (by rw [hx]; rfl) name)
    refine ⟨s', ?_, (prefix_upTo hs₂ hs' hdepth).1⟩
    rw [(hwhole'.hosts i).shown (hwhole'.valid folder) hx]
    exact hs'
  · rw [(hwhole'.hosts j).shown (hwhole'.valid folder) hy] at hs'
    rcases Nat.le_total (d₁ i folder name) (d₂ j folder name) with hle | hle
    · obtain ⟨hpre, heq⟩ := prefix_upTo hs₂ hs' hle
      exact ⟨.inl hpre, fun h => congrArg Prod.snd (heq h)⟩
    · obtain ⟨hpre, heq⟩ := prefix_upTo hs' hs₂ hle
      exact ⟨.inr hpre, fun h => (congrArg Prod.snd (heq h.symm)).symm⟩

end

/-- The second node has what the first one saved. -/
theorem runs_agree_line : ∃ s s', shown (lineSaved 0) ['d'] ⟨['/', 'd'], [['d']]⟩ ['f'] = some s ∧
    shown (exchange fileSha lineConn lineSaved (0, 1) 1) ['d'] ⟨['/', 'd'], [['d']]⟩ ['f'] = some s' ∧
    s = ([(1, 0)], fileContents) ∧
      (s.1 <+: s'.1 ∨ s'.1 <+: s.1) ∧ (s.1 = s'.1 → s.2 = s'.2) := by
  obtain ⟨logs, d, -, hgrown⟩ := runs_whole line_whole line_saved
  have hlinked : Linked lineConn lineSite lineSaved (0, 1) :=
    (line_linked lineRound (by simp) (0, 1) (by decide)).same (hgrown.same 0)
  have hlater : Runs fileSha lineConn lineSite lineSaved (exchange fileSha lineConn lineSaved (0, 1)) :=
    .act (.exchange (0, 1)) .start hlinked
  have hfirst : shown (lineSaved 0) ['d'] ⟨['/', 'd'], [['d']]⟩ ['f'] = some ([(1, 0)], fileContents) := by decide +kernel
  have hsecond : shown (exchange fileSha lineConn lineSaved (0, 1) 1) ['d'] ⟨['/', 'd'], [['d']]⟩ ['f'] =
      some ([(1, 0)], fileContents) := by decide +kernel
  have hagree := (runs_agree line_whole line_saved hlater (i := 0) rfl hfirst).2 1 _ _ rfl hsecond
  exact ⟨_, _, hfirst, hsecond, rfl, hagree⟩

section

variable {ι : Type} [DecidableEq ι] {conn : ι → ι → Conn} {site : ι → Text → Option Site} {logs : Text → Log}
  {d : ι → Text → Text → Nat} {w : ι → Node}

/-- Rounds of exchanges after a run, each with all edges of a graph that connects the nodes,
    in any order: in as many rounds as its longest path has steps, every node that has the
    folder shows the same, which is the newest that was saved of each file. -/
theorem runs_settle {w₀ : ι → Node} (h : Whole sha256 site logs d w₀) (hrun : Runs sha256 conn site w₀ w)
    {rounds : List (List (ι × ι))} (hlinked : ∀ es ∈ rounds, ∀ e ∈ es, Linked conn site w₀ e) {folder : Text} {E : ι → ι → Prop}
    (hall : ∀ es ∈ rounds, ∀ a b, E a b → (a, b) ∈ es) (hshared : ∀ a b, E a b → folder ∈ shared (w₀ a) (conn a b))
    (hpaths : ∀ i j, ∃ path : List ι, (i :: path).IsChain E ∧ (i :: path).getLast? = some j ∧ path.length ≤ rounds.length) :
    ∃ newest : Text → Option (List Version × Bytes),
      (∀ j y, site j folder = some y → ∀ name, shown (exchanges sha256 conn w rounds.flatten j) folder y name = newest name) ∧
      (∀ name s, newest name = some s → ∃ i x, site i folder = some x ∧ shown (w i) folder x name = some s) ∧
      ∀ i x name s, site i folder = some x → shown (w i) folder x name = some s → ∃ s', newest name = some s' ∧ s.1 <+: s'.1 := by
  obtain ⟨logs₁, d₁, hwhole, hgrown⟩ := runs_whole h hrun
  have hnow : ∀ es ∈ rounds, ∀ e ∈ es, Linked conn site w e := fun es hes e he => (hlinked es hes e he).same (hgrown.same e.1)
  obtain ⟨D, hD, hshows⟩ := rounds_converge hwhole.valid hwhole.hosts hnow hall
    (fun a b hab => by rw [shared_same (hgrown.same a)]; exact hshared a b hab) hpaths
  have hhosts := exchanges_hosts hwhole.valid rounds.flatten w d₁ hwhole.hosts fun e he => by
    obtain ⟨es, hes, hmem⟩ := List.mem_flatten.mp he
    exact hnow es hes e hmem
  have hat : ∀ i x, site i folder = some x → ∀ name, shown (w i) folder x name = (logs₁ folder).upTo name (d₁ i folder name) :=
    fun i x hx => (hwhole.hosts i).shown (hwhole.valid folder) hx
  refine ⟨fun name => (logs₁ folder).upTo name (logs₁ folder name).length, fun j y hy name => ?_, fun name s hs => ?_,
    fun i x name s hx hs => ?_⟩
  · rw [shown_shows (hwhole.valid folder) ((hhosts j).rooted folder y hy) (hshows j y hy)]
    congr 1
    refine le_antisymm ((hshows j y hy).le name) ?_
    by_cases hnil : logs₁ folder name = []
    · rw [hnil]
      exact Nat.zero_le _
    · obtain ⟨i, -, hlen⟩ := hwhole.tip folder name hnil
      rw [← hlen]
      exact hD.1 ⟨i, rfl⟩ name
  · have hnil : logs₁ folder name ≠ [] := by
      intro hnil
      simp only [hnil, List.length_nil, Log.upTo] at hs
      cases hs
    obtain ⟨i, hi, hlen⟩ := hwhole.tip folder name hnil
    obtain ⟨x, hx⟩ := Option.isSome_iff_exists.mp hi
    exact ⟨i, x, hx, by rw [hat i x hx, hlen]; exact hs⟩
  · rw [hat i x hx] at hs
    have hsite : (site i folder).isSome = true := by rw [hx]; rfl
    have hle := hwhole.le hsite name
    obtain ⟨k, -, hk, -⟩ := upTo_some hs
    obtain ⟨s', hs'⟩ := upTo_length (by omega : (logs₁ folder name).length ≠ 0) (le_refl _)
    exact ⟨s', hs', (prefix_upTo hs hs' hle).1⟩

end

theorem runs_settle_line : ∃ newest : Text → Option (List Version × Bytes),
    (∀ j y, lineSite j ['d'] = some y → ∀ name, shown (exchanges fileSha lineConn lineSaved [lineRound, lineRound].flatten j)
      ['d'] y name = newest name) ∧
    newest ['f'] = some ([(1, 0)], fileContents) := by
  have hedges : ∀ a b, (a, b) ∈ lineRound → ['d'] ∈ shared (lineNodes a) (lineConn a b) := by decide +kernel
  have hpaths : ∀ i j : Fin 3, ∃ path : List (Fin 3), (i :: path).IsChain (fun a b => (a, b) ∈ lineRound) ∧
      (i :: path).getLast? = some j ∧ path.length ≤ [lineRound, lineRound].length := by
    have hcases : ∀ i j : Fin 3, i = j ∨ (i, j) ∈ lineRound ∨ (i, 1) ∈ lineRound ∧ (1, j) ∈ lineRound := by decide
    intro i j
    rcases hcases i j with rfl | hone | ⟨htwo, htwo'⟩
    · exact ⟨[], List.isChain_singleton i, rfl, by decide⟩
    · exact ⟨[j], List.isChain_cons_cons.mpr ⟨hone, List.isChain_singleton j⟩, rfl, by simp⟩
    · exact ⟨[1, j], List.isChain_cons_cons.mpr ⟨htwo, List.isChain_cons_cons.mpr ⟨htwo', List.isChain_singleton j⟩⟩, rfl,
        by simp⟩
  have hrounds : ∀ es ∈ [lineRound, lineRound], ∀ a b, (a, b) ∈ lineRound → (a, b) ∈ es := by
    intro es hes a b hab
    rw [show es = lineRound by simpa using hes]
    exact hab
  obtain ⟨newest, hsame, hfrom, hall⟩ := runs_settle line_whole line_saved line_linked hrounds hedges hpaths
  -- the saved version is the only one there is
  have hfirst : shown (lineSaved 0) ['d'] ⟨['/', 'd'], [['d']]⟩ ['f'] = some ([(1, 0)], fileContents) := by decide +kernel
  obtain ⟨s, hs, -⟩ := hall 0 ⟨['/', 'd'], [['d']]⟩ ['f'] _ rfl hfirst
  obtain ⟨i, x, hx, hi⟩ := hfrom ['f'] s hs
  have hothers : ∀ i, i ≠ 0 → shown (lineSaved i) ['d'] ⟨['/', 'd'], [['d']]⟩ ['f'] = none := by decide +kernel
  refine ⟨newest, hsame, ?_⟩
  rw [show x = ⟨['/', 'd'], [['d']]⟩ from (Option.some.inj hx).symm] at hi
  by_cases h0 : i = 0
  · subst h0
    rw [hs, ← hi]
    exact hfirst
  · have hnone := hothers i h0
    rw [hi] at hnone
    cases hnone

end BepRs.Relay
