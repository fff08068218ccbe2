/-
  BepRs.Transfer.Backend — the storage backend that all connections share
  (`src/storage_backend.rs`), behind one `std::sync::Mutex`.

  `handle_request` and `get_file` lock it for one call of `read_block` or `write_block`. A
  panic in that call, or in the `unwrap` of its result, which is in the same statement, comes
  before the guard is dropped: the mutex is poisoned, and whoever locks it later panics too.
  (`to_str` cannot fail, a path is made of texts.)
  How the calls to the system go is open, each may fail at any time (`Course`); the tasks
  run interleaved, one operation at a time (`backendStep`).

  - `backend_usable_iff`: the mutex stays usable all along a run exactly when no write fails
    and no request that gets as far as its buffer has a negative size.
  - `backend_poisoned`: a request of size -1, and a write that fails.
-/

import BepRs.Access.Absent
import BepRs.Lib.Events

namespace BepRs.Transfer

open BepRs.Lib BepRs.Lib.Path BepRs.Lib.Task BepRs.State BepRs.Sync BepRs.History BepRs.Access

variable (sha256 : Bytes → Bytes)

/-! ## The backend -/

/-- How one operation goes outside the program: what the disk or a connection answers, and
    how the backend's calls to the system go. -/
structure Course where
  answer : (o : SysOp) → o.Ans
  opens : Bool
  seeks : Bool
  transfers : Bool
  /-- What the file holds from the offset on. -/
  stored : Bytes

/-- The file is open and at the offset. -/
def Course.positions (out : Course) (offset : Nat) : Bool := out.opens && out.seeks && Node.seekable offset

/-- `LocalStorageBackend::write_block` returns `Ok`. -/
def Course.writeBlock (out : Course) (offset : Nat) : Bool := out.positions offset && out.transfers

/-- `LocalStorageBackend::read_block`; `none` is the panic of `vec![0; len]` for a buffer
    larger than `isize::MAX`. -/
def Course.readBlock (out : Course) (offset len : Nat) : Option (Option Bytes) :=
  if !out.positions offset then some none
  else if 2 ^ 63 ≤ len then none
  else if out.transfers && decide (len ≤ out.stored.length) then some (some (out.stored.take len))
  else some none

/-! ## The tasks -/

structure Shared where
  store : Store
  poisoned : Bool

def Shared.poison (w : Shared) : Shared := { w with poisoned := true }

def perform (out : Course) : Machine bep Shared
  | w, .db o => let r := dbDo w.store o; ({ w with store := r.1 }, r.2)
  | w, .sys (.writeBlock _ offset _) =>
    if w.poisoned then (w, none)
    else if out.writeBlock offset then (w, some ())
    else (w.poison, none)
  | w, .sys (.readBlock _ offset len) =>
    if w.poisoned then (w, none)
    else
      match out.readBlock offset len with
      | some data => (w, some data)
      | none => (w.poison, none)
  | w, .sys o => (w, some (out.answer o))

/-- What starts a task that may use the backend: a peer's message, or a download. -/
inductive Job where
  | request (conn : Conn) (r : Request)
  | index (message : Index)
  | getDirectory (dir : SyncDirectory)
  | getFile (dir : SyncDirectory) (file : SyncFile)

def Job.task : Job → BepProg Unit
  | .request conn r => handleRequest sha256 conn r
  | .index message => handleIndex message.folder message.files
  | .getDirectory dir => do let _ ← Sync.getDirectory sha256 dir
  | .getFile dir file => do let _ ← Sync.getFile sha256 dir file

abbrev BackendConf := Conf bep Job Shared

inductive BackendEvent where
  | start (job : Job)
  | act (i : Nat) (out : Course)

/-- A task starts, or one does its next operation. A peer's Response is the answer of a
    `submitRequest`. -/
def backendStep : BackendEvent → BackendConf → Option BackendConf
  | .start job, c => some ⟨c.shared, c.tasks ++ [(job, job.task sha256)]⟩
  | .act i out, c =>
    match c.tasks[i]? with
    | some (job, .ask o k) =>
      match perform out c.shared o with
      | (w, some r) => some ⟨w, c.tasks.set i (job, k r)⟩
      | (w, none) => some ⟨w, c.tasks.set i (job, .panic)⟩
    | _ => none

abbrev backendRun : List BackendEvent → BackendConf → Option BackendConf := Events.run (backendStep sha256)

def BackendConf.init (store : Store) : BackendConf := ⟨⟨store, false⟩, []⟩

/-- A write that is done succeeds, and a request that gets to its buffer has no negative size
    (as `usize`, 2^63 and more). -/
def Spares : BackendEvent → BackendConf → Prop
  | .start _, _ => True
  | .act i out, c =>
    match c.tasks[i]? with
    | some (_, .ask (.sys (.writeBlock _ offset _)) _) => out.writeBlock offset = true
    | some (.request _ r, .ask (.sys (.readBlock _ _ _)) _) =>
      out.positions (asUsize r.offset) = true → asUsize r.size < 2 ^ 63
    | _ => True

/-! ## What the tasks ask of it -/

/-- A request reads the block it names, nobody else reads one. -/
def ReadsOwn : Job → Op → Prop
  | .request _ r, .sys (.readBlock _ offset len) => offset = asUsize r.offset ∧ len = asUsize r.size
  | _, .sys (.readBlock _ _ _) => False
  | _, _ => True

/-- Operations other than `read_block`. -/
def NoRead : Op → Prop
  | .sys (.readBlock _ _ _) => False
  | _ => True

/-- The task never reads a block. -/
abbrev ReadsNone {α : Type} : BepProg α → Prop := Ok (S := bep) NoRead (fun _ _ => True) (fun _ => True)

theorem readsNone_unwrap {α : Type} (o : Option α) : ReadsNone (unwrap o : BepProg α) := ok_unwrap fun _ _ => trivial

theorem readsNone_handleFiles (dir : SyncDirectory) : ∀ (files : List FileInfo) (l : List SyncFile) (changed : Bool),
    ReadsNone (handleFiles dir files l changed) := by
  intro files
  induction files with
  | nil => intro _ _; trivial
  | cons info files ih =>
    intro l changed
    rw [handleFiles_cons]
    refine ok_bind (fun w _ => ?_) (readsNone_unwrap _)
    cases w with
    | none => exact ih _ _
    | some f => exact ⟨trivial, fun _ _ => ih _ _⟩

theorem readsNone_handleIndex (folder : Text) (files : List FileInfo) : ReadsNone (handleIndex folder files) := by
  refine ok_call_bind trivial fun r _ => ok_bind (fun dir _ => ?_) (readsNone_unwrap _)
  refine ok_call_bind trivial fun l _ => ?_
  refine ok_bind (fun changed _ => ?_) (readsNone_handleFiles dir files l false)
  cases changed with
  | false => trivial
  | true => exact ⟨trivial, fun _ _ => trivial⟩

theorem readsNone_getBlocksFrom (dir : SyncDirectory) (f : SyncFile) (messageId : Int) :
    ∀ (blocks : List SyncBlock) (i : Nat), ReadsNone (getBlocksFrom sha256 dir f messageId i blocks) := by
  intro blocks
  induction blocks with
  | nil => intro i; trivial
  | cons block rest ih =>
    intro i
    refine ok_call_bind trivial fun message _ => ?_
    split <;> try trivial
    split <;> try trivial
    split
    · trivial
    split
    · trivial
    exact ⟨trivial, fun _ _ => ⟨trivial, fun _ _ => ih _⟩⟩

theorem readsNone_getFile (dir : SyncDirectory) (f : SyncFile) : ReadsNone (getFile sha256 dir f) := by
  refine ok_call_bind trivial fun messageId _ => ?_
  split
  · trivial
  · exact readsNone_getBlocksFrom sha256 dir f messageId _ _

theorem readsNone_getFiles (dir : SyncDirectory) : ∀ files : List SyncFile, ReadsNone (getFiles sha256 dir files) := by
  intro files
  induction files with
  | nil => trivial
  | cons file files ih =>
    unfold getFiles
    split
    · trivial
    refine ok_call_bind trivial fun present _ => ?_
    split
    · refine ok_bind (fun r _ => ?_) (readsNone_getFile sha256 dir file)
      cases r with
      | error e => trivial
      | ok _ => exact ih
    · exact ih

theorem readsNone_getDirectory (dir : SyncDirectory) : ReadsNone (getDirectory sha256 dir) := by
  refine ok_call_bind trivial fun index _ => ?_
  refine ok_bind (fun r _ => ?_) (readsNone_getFiles sha256 dir index)
  cases r with
  | error e => trivial
  | ok _ => exact ⟨trivial, fun _ _ => trivial⟩

theorem readsNone_getPeer (conn : Conn) : ReadsNone (getPeer conn) := by
  refine ok_call_bind trivial fun peers _ => ?_
  split
  · trivial
  · split
    · exact ⟨trivial, fun _ _ => trivial⟩
    · trivial

theorem readsOwn_of_noRead (job : Job) : ∀ o : Op, NoRead o → ReadsOwn job o := by
  intro o ho
  unfold NoRead at ho
  unfold ReadsOwn
  split at ho
  · exact ho.elim
  · rename_i hno
    split
    · exact (hno _ _ _ rfl).elim
    · exact (hno _ _ _ rfl).elim
    · trivial

theorem readsOwn_handleRequest (conn : Conn) (r : Request) :
    Ok (S := bep) (ReadsOwn (.request conn r)) (fun _ _ => True) (fun _ => True) (handleRequest sha256 conn r) := by
  have hrespond : ∀ (data : Bytes) (code : ErrorCode),
      Ok (S := bep) (ReadsOwn (.request conn r)) (fun _ _ => True) (fun _ => True) (respond r data code) :=
    fun _ _ => ⟨trivial, fun _ _ => trivial⟩
  refine ok_call_bind trivial fun dir _ => ?_
  refine ok_bind (fun x _ => ok_bind (fun peer _ => ?_) (ok_unwrapOk x))
    (ok_mono (readsOwn_of_noRead _) (readsNone_getPeer conn))
  cases dir with
  | none => exact hrespond _ _
  | some dir =>
    refine ok_call_bind trivial fun synced _ => ?_
    split
    · exact hrespond _ _
    split
    · exact hrespond _ _
    refine ok_call_bind ⟨rfl, rfl⟩ fun data _ => ?_
    split
    · exact hrespond _ _
    split
    · exact hrespond _ _
    · exact hrespond _ _

theorem readsOwn_task (job : Job) : Ok (S := bep) (ReadsOwn job) (fun _ _ => True) (fun _ => True) (job.task sha256) := by
  cases job with
  | request conn r => exact readsOwn_handleRequest sha256 conn r
  | index m => exact ok_mono (readsOwn_of_noRead _) (readsNone_handleIndex m.folder m.files)
  | getDirectory dir =>
    exact ok_bind (P := fun _ => True) (fun _ _ => by trivial)
      (ok_mono (readsOwn_of_noRead _) (readsNone_getDirectory sha256 dir))
  | getFile dir file =>
    exact ok_bind (P := fun _ => True) (fun _ _ => by trivial)
      (ok_mono (readsOwn_of_noRead _) (readsNone_getFile sha256 dir file))

/-! ## A step -/

/-- The tasks as an open system: each operation may go any way. -/
def backendSystem : System bep Job Shared where
  does _ w o w' x := ∃ out, perform out w o = (w', x)
  starts _ job p := p = job.task sha256
  outside _ _ := False

theorem backendStep_step {e : BackendEvent} {c c' : BackendConf} (h : backendStep sha256 e c = some c') :
    Step (backendSystem sha256) c c' := by
  obtain ⟨w, ts⟩ := c
  cases e with
  | start job => cases h; exact .start rfl
  | act i out =>
    simp only [backendStep] at h
    split at h
    · rename_i job o k hi
      obtain ⟨l, r, rfl, rfl⟩ : ∃ l r, ts = l ++ (job, .ask o k) :: r ∧ i = l.length := by
        obtain ⟨hlt, hi⟩ := List.getElem?_eq_some_iff.mp hi
        refine ⟨ts.take i, ts.drop (i + 1), ?_, (List.length_take_of_le hlt.le).symm⟩
        rw [← hi, ← List.drop_eq_getElem_cons, List.take_append_drop]
      split at h
      · rename_i w' x hp
        cases h
        rw [List.set_append_right l.length _ le_rfl, Nat.sub_self, List.set_cons_zero]
        exact .answer ⟨out, hp⟩
      · rename_i w' hp
        cases h
        rw [List.set_append_right l.length _ le_rfl, Nat.sub_self, List.set_cons_zero]
        exact .crash ⟨out, hp⟩
    · cases h

/-- Every task under way reads at most its own block. -/
abbrev AllReadOwn : BackendConf → Prop := AllOk ReadsOwn fun _ _ _ => True

theorem allReadOwn_step {e : BackendEvent} {c c' : BackendConf} (hc : AllReadOwn c)
    (h : backendStep sha256 e c = some c') : AllReadOwn c' := by
  refine (step_ok (I := fun _ => True) (backendStep_step sha256 h) (fun _ _ _ _ => trivial) ?_
    (fun _ _ _ _ _ _ _ _ => ⟨trivial, fun _ _ => trivial⟩) trivial hc).2
  intro w job p _ hp
  subst hp
  exact readsOwn_task sha256 job

/-- The operations that poison the mutex. -/
def poisons (out : Course) : Op → Bool
  | .sys (.writeBlock _ offset _) => !out.writeBlock offset
  | .sys (.readBlock _ offset len) => (out.readBlock offset len).isNone
  | _ => false

theorem poisoned_perform (out : Course) {w : Shared} (hw : w.poisoned = false) (o : Op) :
    (perform out w o).1.poisoned = poisons out o := by
  cases o with
  | db o => exact hw
  | sys o =>
    cases o with
    | writeBlock url offset data =>
      simp only [perform, poisons, hw]
      cases out.writeBlock offset with
      | false => rfl
      | true => exact hw
    | readBlock url offset len =>
      simp only [perform, poisons, hw]
      cases out.readBlock offset len with
      | none => rfl
      | some data => exact hw
    | _ => exact hw

/-- The buffer is all that can panic. -/
theorem isNone_readBlock (out : Course) (offset len : Nat) :
    (out.readBlock offset len).isNone = false ↔ (out.positions offset = true → len < 2 ^ 63) := by
  unfold Course.readBlock
  split
  · rename_i hpos
    rw [Bool.not_eq_true'] at hpos
    rw [hpos]
    exact iff_of_true rfl fun h => by cases h
  · rename_i hpos
    have hpos : out.positions offset = true := by simpa using hpos
    split
    · rename_i hlen
      exact iff_of_false (fun h => by cases h) fun h => absurd (h hpos) (by omega)
    · rename_i hlen
      have hlt : len < 2 ^ 63 := by omega
      refine iff_of_true ?_ fun _ => hlt
      split <;> rfl

/-- What a step needs to leave the mutex usable. -/
theorem spares_iff {e : BackendEvent} {c : BackendConf} (hc : AllReadOwn c) (hw : c.shared.poisoned = false) :
    (∀ c', backendStep sha256 e c = some c' → c'.shared.poisoned = false) ↔ Spares e c := by
  cases e with
  | start job =>
    refine iff_of_true (fun c' h => ?_) trivial
    cases h
    exact hw
  | act i out =>
    simp only [backendStep, Spares]
    cases hi : c.tasks[i]? with
    | none => simp
    | some t =>
      obtain ⟨job, p⟩ := t
      cases p with
      | ret a => simp
      | panic => simp
      | ask o k =>
        have hown : ReadsOwn job o := (hc _ (List.mem_of_getElem? hi)).1
        have hstep : (∀ c', (match perform out c.shared o with
            | (w, some r) => some (⟨w, c.tasks.set i (job, k r)⟩ : BackendConf)
            | (w, none) => some ⟨w, c.tasks.set i (job, .panic)⟩) = some c' → c'.shared.poisoned = false) ↔
            poisons out o = false := by
          rw [← poisoned_perform out hw o]
          split
          · rename_i w x hp
            rw [hp]
            exact ⟨fun h => h _ rfl, fun h c' hc' => by cases hc'; exact h⟩
          · rename_i w hp
            rw [hp]
            exact ⟨fun h => h _ rfl, fun h c' hc' => by cases hc'; exact h⟩
        simp only
        refine hstep.trans ?_
        cases o with
        | db o => exact iff_of_true rfl trivial
        | sys o =>
          cases o with
          | writeBlock url offset data => exact iff_of_eq (Bool.not_eq_false' _)
          | readBlock url offset len =>
            cases job with
            | request conn r =>
              obtain ⟨rfl, rfl⟩ := hown
              exact isNone_readBlock out _ _
            | _ => exact hown.elim
          | _ => exact iff_of_true rfl trivial

/-- On every run, whatever the messages, the storage and the order of the tasks, the mutex is
    usable in every state exactly when every step meets the condition. -/
theorem backend_usable_iff (store : Store) (es : List BackendEvent) :
    (∀ es' c, es' <+: es → backendRun sha256 es' (BackendConf.init store) = some c → c.shared.poisoned = false) ↔
      Events.Along (backendStep sha256) Spares es (BackendConf.init store) :=
  Events.along_iff (J := AllReadOwn) (I := fun c => c.shared.poisoned = false) (allReadOwn_step sha256)
    (spares_iff sha256) (fun _ h => by cases h) rfl

/-! ## A size below zero, and a full disk -/

def storedFile : SyncFile := ⟨none, ['f'], fileHash, 7, 0, [(7, 0)], [⟨0, 11, fileHash⟩]⟩

/-- Everything succeeds, or nothing can be opened for writing. -/
def course (opens : Bool) : Course where
  answer
    | .readDir _ => none
    | .readFile _ => none
    | .pathExists _ => false
    | .writeBlock _ _ _ => ()
    | .readBlock _ _ _ => none
    | .submitMessage _ => ()
    | .submitRequest r => .ok (.response ⟨r.id, fileContents, 0⟩)
    | .closeReason _ => ()
    | .sampleId => 1
    | .spawnGetDirectory _ => ()
  opens := opens
  seeks := true
  transfers := true
  stored := fileContents

def sizedRequest (size : Int) : Request := ⟨1, ['d'], ['f'], 0, size, fileHash, 0⟩

def sharedStore : Store := State.Call.acts (newStore 7) sharedCalls

/-- The peer of a shared folder asks for -1 bytes of a file that is there. The next request
    of any connection panics at the lock. -/
def negativeRequest : List BackendEvent :=
  .start (.request sharedConn (sizedRequest (-1))) :: List.replicate 4 (.act 0 (course true)) ++
    .start (.request sharedConn (sizedRequest 11)) :: List.replicate 4 (.act 1 (course true))

/-- A block arrives, and the file cannot be opened. -/
def failedWrite : List BackendEvent :=
  .start (.getFile fileDir storedFile) :: List.replicate 2 (.act 0 (course true)) ++ [.act 0 (course false)]

def taskPanicked : BepProg Unit → Bool
  | .panic => true
  | _ => false

theorem backend_poisoned :
    (¬ ∀ (store : Store) (es : List BackendEvent) (c : BackendConf),
      backendRun fileSha es (BackendConf.init store) = some c → c.shared.poisoned = false) ∧
    (backendRun fileSha negativeRequest (BackendConf.init sharedStore)).any
      (fun c => c.shared.poisoned && c.tasks.all fun t => taskPanicked t.2) = true ∧
    (backendRun fileSha failedWrite (BackendConf.init sharedStore)).any (fun c => c.shared.poisoned) = true := by
  have hnegative : (backendRun fileSha negativeRequest (BackendConf.init sharedStore)).any
      (fun c => c.shared.poisoned && c.tasks.all fun t => taskPanicked t.2) = true := by decide +kernel
  have hwrite : (backendRun fileSha failedWrite (BackendConf.init sharedStore)).any (fun c => c.shared.poisoned) = true := by
    decide +kernel
  refine ⟨fun h => ?_, hnegative, hwrite⟩
  obtain ⟨c, hc, hpoisoned⟩ := (Option.any_eq_true _ _).mp hwrite
  rw [h sharedStore failedWrite c hc] at hpoisoned
  cases hpoisoned

end BepRs.Transfer
