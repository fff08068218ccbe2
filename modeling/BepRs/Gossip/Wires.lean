/-
  BepRs.Gossip.Wires — a network with its connections, and what is on them.

  Each connection has two ends (`Wires`), each end at a node. What a task sends goes to the node
  at the far end of the task's connection and stays under way until it is taken, in any order.
  The source then starts a `handle_index` for each message; the runs here are those in which a
  node takes the next message when its last `handle_index` is over (`Unbusy`). What ended stays
  on record, so that a task that failed can be told from one that did its work.

  The stores are compared by their histories. Nobody invents a version, so all that is recorded
  of a file is part of one list (`Along`); in time the records only get longer (`Kept`), and
  while a node merges nothing they stay as they are (`Steady`).
-/

import BepRs.Gossip.Measure
import BepRs.Relay.Records

namespace BepRs.Gossip

open BepRs.Lib BepRs.Lib.Path BepRs.Lib.Task BepRs.State BepRs.Sync BepRs.Relay

/-! ## The network -/

structure Wires (ι κ : Type) where
  /-- A node's `peer_connections`, each by its end there. -/
  conns : ι → List κ
  conn : κ → Conn
  far : κ → κ
  owner : κ → ι
  far_far : ∀ e, far (far e) = e
  mem_conns : ∀ i e, e ∈ conns i ↔ owner e = i

abbrev Work := BepProg (Except PeerCommandError Unit)

structure Member (κ : Type) where
  store : Store
  /-- The `handle_index` calls, the latest first. -/
  merges : List (κ × Index × BepProg Unit)
  /-- The downloads and announcements, each with its connection. -/
  tasks : List (κ × Work)

structure Wired (ι κ : Type) where
  member : ι → Member κ
  /-- The Index messages under way, each with the end it was sent from. -/
  mail : List (κ × Index)

def resume {α : Type} {o : Op} (k : o.Ans → BepProg α) : Option o.Ans → BepProg α
  | some r => k r
  | none => .panic

def Unbusy {κ : Type} (merges : List (κ × Index × BepProg Unit)) : Prop :=
  ∀ e m o k rest, merges ≠ (e, m, .ask o k) :: rest

section

variable (sha256 : Bytes → Bytes)

def opening (conn : Conn) : Work := do
  match ← sendIndex sha256 conn with
  | .error e => .ret (.error (.ioError e))
  | .ok () => .ret (.ok ())

variable {ι κ : Type} (w : Wires ι κ)

/-- The tasks an operation starts at a node, asked for by a task of a connection. -/
def started (i : ι) (e : κ) : Op → List (κ × Work)
  | .db (.directoryChanged dir) => (w.conns i).map fun e' => (e', directoryUpdated sha256 (w.conn e') dir)
  | .sys (.spawnGetDirectory dir) => [(e, getDirectory sha256 dir)]
  | _ => []

def mailed (e : κ) (o : Op) : List (κ × Index) := (posts o).map fun m => (e, m)

variable [DecidableEq ι]

def Wired.put (c : Wired ι κ) (i : ι) (p : Member κ) (mail : List (κ × Index)) : Wired ι κ :=
  ⟨Function.update c.member i p, mail⟩

inductive Moves (c : Wired ι κ) : Wired ι κ → Prop
  /-- The node at the far end takes up a message. -/
  | take (l r : List (κ × Index)) (e : κ) (m : Index) (i : ι) : c.mail = l ++ (e, m) :: r → i = w.owner (w.far e) →
      Unbusy (c.member i).merges →
      Moves c (c.put i
        { c.member i with merges := (w.far e, m, handleIndex m.folder m.files) :: (c.member i).merges } (l ++ r))
  /-- The `handle_index` under way goes on. -/
  | merge (i : ι) (e : κ) (m : Index) (o : Op) (k : o.Ans → BepProg Unit) (rest : List (κ × Index × BepProg Unit)) (s : Store)
      (x : Option o.Ans) : (c.member i).merges = (e, m, .ask o k) :: rest → Acts (c.member i).store o s x →
      Moves c (c.put i
        { store := s
          merges := (e, m, resume k x) :: rest
          tasks := (c.member i).tasks ++ started sha256 w i e o } (c.mail ++ mailed e o))
  /-- One of the other tasks goes on. -/
  | work (i : ι) (l r : List (κ × Work)) (e : κ) (o : Op) (k : o.Ans → Work) (s : Store) (x : Option o.Ans) :
      (c.member i).tasks = l ++ (e, .ask o k) :: r → Acts (c.member i).store o s x →
      Moves c (c.put i
        { store := s
          merges := (c.member i).merges
          tasks := (l ++ (e, resume k x) :: r) ++ started sha256 w i e o } (c.mail ++ mailed e o))

def Wanders : Wired ι κ → Wired ι κ → Prop := Relation.ReflTransGen (Moves sha256 w)

/-- The connections are open, and nothing has been sent. -/
structure Opened (c : Wired ι κ) : Prop where
  mail : c.mail = []
  merges : ∀ i, (c.member i).merges = []
  tasks : ∀ i, (c.member i).tasks = (w.conns i).map fun e => (e, opening sha256 (w.conn e))

omit [DecidableEq ι] in
/-- Nothing is under way any more, and nothing failed. -/
structure Settled (c : Wired ι κ) : Prop where
  mail : c.mail = []
  merges : ∀ i, ∀ e ∈ (c.member i).merges, e.2.2 = .ret ()
  tasks : ∀ i, ∀ t ∈ (c.member i).tasks, t.2 = .ret (.ok ())

end

/-! ## Histories -/

def listAt (s : Store) (folder name : Text) : List Version := ((s.lookup folder name).map Rec.versions).getD []

variable (L : Text × Text → List Version)

/-- All that is recorded is part of one list for each file. -/
def Along (s : Store) : Prop := ∀ r ∈ s.records, r.versions <+: L (r.folder, r.name)

/-- Every record is there later, under its name, with no less of its history. -/
structure Kept (s s' : Store) : Prop where
  same : SameFolders s s'
  along : Along L s'
  kept : ∀ r ∈ s.records, ∃ r' ∈ s'.records, r'.id = r.id ∧ r'.folder = r.folder ∧ r'.name = r.name ∧
    r.versions <+: r'.versions

/-- And every name has the record and the history it had. -/
structure Steady (s s' : Store) : Prop where
  kept : Kept L s s'
  first : ∀ folder name, (s'.lookup folder name).map (fun r => (r.id, r.versions)) =
    (s.lookup folder name).map fun r => (r.id, r.versions)

variable {L}

theorem kept_refl {s : Store} (h : Along L s) : Kept L s s :=
  ⟨.refl s, h, fun r hr => ⟨r, hr, rfl, rfl, rfl, List.prefix_refl _⟩⟩

theorem Kept.trans {a b c : Store} (hab : Kept L a b) (hbc : Kept L b c) : Kept L a c := by
  refine ⟨hab.same.trans hbc.same, hbc.along, fun r hr => ?_⟩
  obtain ⟨r', hr', hid', hf', hn', hlist'⟩ := hab.kept r hr
  obtain ⟨r'', hr'', hid'', hf'', hn'', hlist''⟩ := hbc.kept r' hr'
  exact ⟨r'', hr'', hid''.trans hid', hf''.trans hf', hn''.trans hn', hlist'.trans hlist''⟩

theorem steady_refl {s : Store} (h : Along L s) : Steady L s s := ⟨kept_refl h, fun _ _ => rfl⟩

theorem Steady.trans {a b c : Store} (hab : Steady L a b) (hbc : Steady L b c) : Steady L a c :=
  ⟨hab.kept.trans hbc.kept, fun folder name => (hbc.first folder name).trans (hab.first folder name)⟩

theorem Steady.listAt {s s' : Store} (h : Steady L s s') (folder name : Text) :
    Gossip.listAt s' folder name = Gossip.listAt s folder name := by
  have hfirst := congrArg (Option.map Prod.snd) (h.first folder name)
  rw [Option.map_map, Option.map_map] at hfirst
  exact congrArg (fun x => Option.getD x []) hfirst

/-! ## Writing over a record -/

/-- A file that was read from the folder, now or before. -/
def Drawn (s : Store) (folder : Text) (f : SyncFile) : Prop :=
  ∃ r ∈ s.records, f.id = some r.id ∧ r.folder = folder ∧ f.path = r.name ∧ f.versions <+: r.versions

theorem Drawn.kept {s s' : Store} (h : Kept L s s') {folder : Text} {f : SyncFile} (hf : Drawn s folder f) :
    Drawn s' folder f := by
  obtain ⟨r, hr, hid, hfolder, hpath, hlist⟩ := hf
  obtain ⟨r', hr', hid', hf', hn', hlist'⟩ := h.kept r hr
  exact ⟨r', hr', by rw [hid, hid'], hf'.trans hfolder, hpath.trans hn'.symm, hlist.trans hlist'⟩

theorem drawn_index {s : Store} {folder : Text} {f : SyncFile} (hf : f ∈ s.index folder) : Drawn s folder f := by
  obtain ⟨r, hr, rfl⟩ := List.mem_map.mp hf
  obtain ⟨hr, hfolder⟩ := List.mem_filter.mp hr
  exact ⟨r, hr, rfl, by simpa using hfolder, rfl, List.prefix_refl _⟩

theorem kept_rewrite {s : Store} (hs : Along L s) {dir : SyncDirectory} {f : SyncFile} {r : Rec} (hr : r ∈ s.records)
    (hid : f.id = some r.id) (hfolder : r.folder = dir.id) (hname : f.getName = r.name)
    (hlist : f.versions <+: L (r.folder, r.name)) : Kept L s (s.updateSyncFile dir f).1 := by
  by_cases hv : f.versions = []
  · rw [s.records_updateSyncFile_nil dir hv]
    exact kept_refl hs
  obtain ⟨htarget, hstored⟩ := s.stored_of_mem hr hid
  have hnew : Rec.write (some r) r.id dir f ∈ (s.updateSyncFile dir f).1.records := by
    rw [← hstored, ← htarget]
    exact (s.mem_updateSyncFile_target dir hv rfl).mpr rfl
  refine ⟨sameFolders_updateSyncFile s dir f, fun x hx => ?_, fun x hx => ?_⟩
  · rcases s.mem_updateSyncFile_cases dir hx with hx | hx
    · exact hs x hx
    · rw [hstored, htarget] at hx
      rw [hx]
      show Chain.extend r.versions f.versions <+: L (dir.id, f.getName)
      rw [← hfolder, hname]
      exact Chain.extend_prefix (hs r hr) hlist
  · by_cases he : x.id = r.id
    · have hxr : x = r := List.inj_on_of_nodup_map s.records_nodup hx hr he
      subst hxr
      exact ⟨_, hnew, rfl, hfolder.symm, hname, Chain.prefix_extend _ _⟩
    · refine ⟨x, (s.mem_updateSyncFile_of_ne dir ?_).mpr hx, rfl, rfl, rfl, List.prefix_refl _⟩
      rw [htarget]
      exact he

/-- A download records what it fetched, over the record it copied, and leaves all histories. -/
theorem steady_stamp {s : Store} (hs : Along L s) {dir : SyncDirectory} {f : SyncFile} (hf : Drawn s dir.id f) :
    Steady L s (s.updateSyncFile dir f).1 := by
  by_cases hv : f.versions = []
  · rw [s.records_updateSyncFile_nil dir hv]
    exact steady_refl hs
  obtain ⟨r, hr, hid, hfolder, hpath, hlist⟩ := hf
  have hname : f.getName = r.name := by rw [getName_eq, hpath, s.name_normal hr]
  refine ⟨kept_rewrite hs hr hid hfolder hname (hlist.trans (hs r hr)), fun folder name => ?_⟩
  rw [lookup_rewrite hr hid hfolder hname hv, Option.map_map]
  cases hl : s.lookup folder name with
  | none => rfl
  | some z =>
    by_cases he : z.id = r.id
    · have hzr : z = r := List.inj_on_of_nodup_map s.records_nodup (s.lookup_some hl).1 hr he
      subst hzr
      have hsame : (Rec.write (some z) z.id dir f).versions = z.versions := Chain.extend_of_length_le hlist.length_le
      have hwid : (Rec.write (some z) z.id dir f).id = z.id := rfl
      simp only [Option.map_some, Function.comp_apply, if_true, hsame, hwid]
    · simp [he]

/-! ## Messages -/

/-- A message of normal names, with parts of the files' lists. -/
def Told (L : Text × Text → List Version) (m : Index) : Prop :=
  ∀ info ∈ m.files, normal info.name = info.name ∧ ∀ cs, info.version = some cs →
    cs.map Counter.version <+: L (m.folder, info.name)

/-- What the message says of a file, first of all. -/
def Reports (m : Index) (name : Text) (len : Nat) : Prop :=
  ∃ info cs, m.files.find? (fun info => info.name = name) = some info ∧ info.version = some cs ∧ cs.length = len

def Heard (s : Store) (m : Index) : Prop := ∀ name len, Reports m name len → len ≤ (listAt s m.folder name).length

end BepRs.Gossip
