/-
  BepRs.Access.Write — where `get_file` writes.

  The name a peer announces is stored in `get_name`'s form, which drops the root but keeps
  every `..`, and `get_file` pushes it on the directory's path as it is. So a name that
  takes back more names than it has gives leads out of the directory.

  One node runs its tasks interleaved call by call (`writing`); its records are the state,
  the disk and the peers answer anything. A task has the directory it syncs for its actor.
  Which Index messages may arrive is a parameter of the system.
  - `writes_inside`: in every run on messages whose names stay (`Stays`), every path passed
    to `write_block` leads below the local path of the task's directory.
  - `write_escapes`: a run on the name `../s`.
-/

import BepRs.Access.Confine

namespace BepRs.Access

open BepRs.Lib BepRs.Lib.Path BepRs.Lib.Task BepRs.State BepRs.Sync

/-! ## The system -/

/-- A directory's entries are named as files are. -/
def Listed : (o : SysOp) → o.Ans → Prop
  | .readDir _, r => ∀ entries, r = some entries → ∀ s ∈ entries, FileName s
  | _, _ => True

inductive WriteDoes (s : Store) : (o : Op) → Store → Option o.Ans → Prop
  | db (o : DbOp) : WriteDoes s (.db o) (dbDo s o).1 (dbDo s o).2
  | sys (o : SysOp) (x : Option o.Ans) : (∀ r, x = some r → Listed o r) → WriteDoes s (.sys o) s x

variable (sha256 : Bytes → Bytes)

/-- The tasks of the node: an Index whose files are all `Received` is handled, a directory
    or one of its files is fetched, a directory is scanned. -/
inductive WriteStarts (Received : FileInfo → Prop) (s : Store) (dir : SyncDirectory) : BepProg Unit → Prop
  | handleIndex (m : Index) : (∀ file ∈ m.files, Received file) →
      WriteStarts Received s dir (handleIndex m.folder m.files)
  | getDirectory : WriteStarts Received s dir (do let _ ← getDirectory sha256 dir)
  | getFile (f : SyncFile) : f ∈ s.index dir.id → WriteStarts Received s dir (do let _ ← getFile sha256 dir f)
  | generateIndex : WriteStarts Received s dir (do let _ ← generateIndex sha256 dir)

/-- Folders, peers and shares may change at any time. -/
def writing (Received : FileInfo → Prop) : System bep SyncDirectory Store where
  does _ := WriteDoes
  starts := WriteStarts sha256 Received
  outside s s' := s'.records = s.records

/-- Every write a task is about to make leads below its directory's path. -/
def WritesInside (cwd : List Text) (c : Conf bep SyncDirectory Store) : Prop :=
  ∀ t ∈ c.tasks, ∀ url offset data k, t.2 = .ask (.sys (.writeBlock url offset data)) k →
    ∃ path, t.1.path = some path ∧ Inside cwd path url

/-! ## What the tasks ask for -/

def WriteAsks (cwd : List Text) (dir : SyncDirectory) : Op → Prop
  | .db (.updateSyncFile _ f) => Stays f.path
  | .sys (.writeBlock url _ _) => ∃ path, dir.path = some path ∧ Inside cwd path url
  | _ => True

def WriteGets : (o : Op) → o.Ans → Prop
  | .db (.getSyncFiles _), fs => ∀ f ∈ (show List SyncFile from fs), Stays f.path
  | .sys o, r => Listed o r
  | _, _ => True

abbrev Stay (cwd : List Text) (dir : SyncDirectory) {α : Type} (Q : α → Prop) (p : BepProg α) : Prop :=
  Ok (S := bep) (WriteAsks cwd dir) WriteGets Q p

/-- Paths that stay are handed on. -/
theorem stay_rules (cwd : List Text) (dir : SyncDirectory) :
    Rules (WriteAsks cwd dir) WriteGets (fun f => Stays f.path) FileName fun file => Stays file.name where
  quiet o ho := by
    cases o with
    | db o => cases o <;> trivial
    | sys o => cases o <;> trivial
  read _ _ h := h
  listed _ entries h := h entries rfl
  record _ _ h := h
  scanned _ _ _ _ h := stays_fileName h
  rescanned _ _ _ _ _ _ h _ _ := h
  received l info f hl hinfo hin := by
    obtain ⟨first, cs, -, -, -, -, -, -, hcase⟩ := incoming_cases hin
    rcases hcase with ⟨x, hx, -, -, hpath, -⟩ | ⟨-, -, hpath, -⟩
    · rw [hpath]
      exact hl x (List.mem_of_find?_eq_some hx)
    · rw [hpath]
      exact hinfo
  fetched _ h := h

/-- The one place that writes: the path is the directory's with the file's name pushed. -/
theorem stay_write {cwd : List Text} {dir : SyncDirectory} (path : Text) (f : SyncFile) (offset : Nat) (data : Bytes)
    (hpath : dir.path = some path) (hf : Stays f.path) :
    WriteAsks cwd dir (.sys (.writeBlock (push path f.getName) offset data)) := by
  refine ⟨path, hpath, ?_⟩
  rw [getName_eq]
  exact inside_push_normal hf cwd path

theorem stay_drop {α : Type} {P : α → Prop} {cwd : List Text} {dir : SyncDirectory} {p : BepProg α} (hp : Stay cwd dir P p) :
    Stay cwd dir (fun _ => True) (do let _ ← p) := by
  refine ok_bind (fun _ _ => ?_) hp
  trivial

/-! ## The runs -/

def AllStay (s : Store) : Prop := ∀ r ∈ s.records, Stays r.name

theorem allStay_index {s : Store} (h : AllStay s) (dirId : Text) : ∀ f ∈ s.index dirId, Stays f.path := by
  intro f hf
  obtain ⟨r, hr, rfl⟩ := List.mem_map.mp hf
  exact h r (List.mem_filter.mp hr).1

/-- The written record's name is the file's, in normal form. -/
theorem allStay_updateSyncFile {s : Store} (h : AllStay s) (dir : SyncDirectory) {f : SyncFile} (hf : Stays f.path) :
    AllStay (s.updateSyncFile dir f).1 := by
  intro r hr
  rcases s.mem_updateSyncFile_cases dir hr with hr | hr
  · exact h r hr
  · rw [hr]
    show Stays f.getName
    rw [getName_eq]
    exact stays_normal.mpr hf

theorem allStay_does {cwd : List Text} {dir : SyncDirectory} {s s' : Store} {o : Op} {x : Option o.Ans} (h : AllStay s)
    (ho : WriteAsks cwd dir o) (hd : WriteDoes s o s' x) : AllStay s' ∧ ∀ r, x = some r → WriteGets o r := by
  cases hd with
  | sys o x hx => exact ⟨h, fun r hr => hx r hr⟩
  | db o =>
    cases o with
    | updateSyncFile d f => exact ⟨allStay_updateSyncFile h d ho, fun _ _ => trivial⟩
    | getSyncFiles dirId =>
      rw [dbDo_getSyncFiles]
      refine ⟨h, fun r hr => ?_⟩
      cases hr
      exact allStay_index h dirId
    | _ => exact ⟨h, fun _ _ => trivial⟩

theorem stay_starts {cwd : List Text} {s : Store} (h : AllStay s) {dir : SyncDirectory} {p : BepProg Unit}
    (hp : WriteStarts sha256 (fun file => Stays file.name) s dir p) : Stay cwd dir (fun _ => True) p := by
  cases hp with
  | handleIndex m hm => exact (stay_rules cwd dir).ok_handleIndex hm
  | getDirectory => exact stay_drop ((stay_rules cwd dir).ok_getDirectory sha256 stay_write)
  | getFile f hf => exact stay_drop ((stay_rules cwd dir).ok_getFile sha256 stay_write (allStay_index h dir.id f hf))
  | generateIndex => exact stay_drop ((stay_rules cwd dir).ok_generateIndex sha256 dir)

/-- In every run on Index messages whose names stay, from records whose names do, in every
    order of steps and whatever the peers respond: every path about to be passed to
    `write_block` is inside the directory the task syncs. -/
theorem writes_inside (cwd : List Text) (s : Store) (hs : ∀ r ∈ s.records, Stays r.name)
    (c : Conf bep SyncDirectory Store) (h : Reach (writing sha256 fun file => Stays file.name) ⟨s, []⟩ c) :
    WritesInside cwd c := by
  have hok : AllStay c.shared ∧ AllOk (WriteAsks cwd) (fun _ => WriteGets) c := by
    refine reach_ok h ?_ ?_ ?_ hs ?_
    · intro w w' hw hout r hr
      exact hw r (hout ▸ hr)
    · intro w dir p hw hp
      exact stay_starts sha256 hw hp
    · intro dir w o w' x hw ho hd
      exact allStay_does hw ho hd
    · intro t ht
      cases ht
  intro t ht url offset data k hask
  have hcontract := hok.2 t ht
  rw [hask] at hcontract
  exact hcontract.1

/-! ## A node -/

/-- A node does what the system allows. -/
theorem node_writes (n : Node) (o : Op) : WriteDoes n.store o (nodeDo n o).1.store (nodeDo n o).2 := by
  cases o with
  | db o => exact .db o
  | sys o =>
    have hstore : (nodeDo n (.sys o)).1.store = n.store := n.store_sysDo o
    rw [hstore]
    refine .sys o _ fun r hr => ?_
    cases o with
    | readDir path =>
      intro entries he s hs
      have hread : n.readDir path = some entries := (Option.some.inj hr).trans he
      unfold Node.readDir at hread
      split at hread
      · split at hread
        · cases hread
          exact n.disk.mem_children hs
        · cases hread
      · cases hread
    | _ => trivial

/-- One file of the given name, new to the tests' node. -/
def fetchInfo (name : Text) : FileInfo := ⟨name, 9, some [⟨9, 0⟩], [⟨0, 11, History.fileHash⟩]⟩

/-- The store once it was announced, and its record there. -/
def fetchStore (name : Text) : Store :=
  (run nodeDo (handleIndex ['d'] [fetchInfo name]) (History.fileNode History.fileContents)).1.store

def fetchFile (name : Text) : SyncFile :=
  ⟨some 1, name, History.fileHash, 9, 0, [(9, 0)], [⟨0, 11, History.fileHash⟩]⟩

def fetchResponse : Response := ⟨0, History.fileContents, 0⟩

/-- The file is announced, requested and sent, and its contents are about to be written. -/
theorem fetch_reach (Received : FileInfo → Prop) (name : Text) (hreceived : Received (fetchInfo name))
    (hstored : fetchFile name ∈ (fetchStore name).index ['d']) :
    ∃ ts k, Reach (writing History.fileSha Received) ⟨(History.fileNode History.fileContents).store, []⟩
      ⟨fetchStore name, ts ++ [(History.fileDir,
        .ask (.sys (.writeBlock (push ['/', 'd'] (fetchFile name).getName) 0 History.fileContents)) k)]⟩ := by
  have hstart : WriteStarts History.fileSha Received (History.fileNode History.fileContents).store History.fileDir
      (handleIndex ['d'] [fetchInfo name]) := by
    refine .handleIndex ⟨['d'], [fetchInfo name]⟩ fun file hfile => ?_
    rw [List.mem_singleton.mp hfile]
    exact hreceived
  obtain ⟨q, hmerged⟩ := run_reach (Y := writing History.fileSha Received) (M := nodeDo) (f := Node.store)
    (a := History.fileDir) node_writes [] (handleIndex ['d'] [fetchInfo name]) (History.fileNode History.fileContents)
  have hstored' : Reach (writing History.fileSha Received) ⟨(History.fileNode History.fileContents).store, []⟩
      ⟨fetchStore name, [(History.fileDir, q)]⟩ := reach_trans _ (.step .init (.start hstart)) hmerged
  have hget : WriteStarts History.fileSha Received (fetchStore name) History.fileDir
      (do let _ ← getFile History.fileSha History.fileDir (fetchFile name)) := .getFile (fetchFile name) hstored
  have hfetch := Reach.step hstored' (.start hget)
  have hid := reach_answer _ (x := (0 : Int)) hfetch rfl (.sys .sampleId _ fun _ _ => trivial)
  have hsent := reach_answer _ (x := (.ok (.response fetchResponse) : Except PeerCommandError PeerRequestResponse)) hid rfl
    (.sys _ _ fun _ _ => trivial)
  exact ⟨_, _, hsent⟩

theorem writes_inside_file : ∃ ts k,
    Reach (writing History.fileSha fun file => Stays file.name) ⟨(History.fileNode History.fileContents).store, []⟩
      ⟨fetchStore ['f'], ts ++ [(History.fileDir, .ask (.sys (.writeBlock ['/', 'd', '/', 'f'] 0 History.fileContents)) k)]⟩ ∧
    WritesInside [] ⟨fetchStore ['f'], ts ++ [(History.fileDir,
      .ask (.sys (.writeBlock ['/', 'd', '/', 'f'] 0 History.fileContents)) k)]⟩ := by
  obtain ⟨ts, k, h⟩ := fetch_reach (fun file => Stays file.name) ['f'] (by decide +kernel)
    (by decide +kernel)
  have hnone : ∀ r ∈ (History.fileNode History.fileContents).store.records, Stays r.name := fun r hr => by cases hr
  exact ⟨ts, k, h, writes_inside History.fileSha [] _ hnone _ h⟩

/-- The name `../s` is written beside the directory. -/
theorem write_escapes : ¬ ∀ c, Reach (writing History.fileSha fun _ => True)
    ⟨(History.fileNode History.fileContents).store, []⟩ c → WritesInside [] c := by
  intro hall
  obtain ⟨ts, k, h⟩ := fetch_reach (fun _ => True) ['.', '.', '/', 's'] trivial (by decide +kernel)
  obtain ⟨path, hpath, hin⟩ := hall _ h _ (List.mem_append_right _ (List.mem_singleton.mpr rfl)) _ _ _ _ rfl
  cases hpath
  exact absurd hin (by decide +kernel)

end BepRs.Access
