/-
  BepRs.Gossip.Model — a network of nodes that tell each other about their files.

  Each node (`Party`) has its store, the `handle_index` it is in (one at a time) and the
  downloads and announcements it has under way, all interleaved call by call. An operation
  may start tasks: a `handle_index` that changed something starts a `get_directory`, and the
  `directory_changed` at the end of that one starts a `directory_updated` on every connection
  of the node, from which it got the change too. No connection is opened, and nobody scans a
  directory; the peers and the shares of a node may change.

  A message that was sent may be handled by any node, any number of times. Beside the state
  stands the number of `handle_index` calls that changed a store (`changes`).
-/

import BepRs.Lib.Budget
import BepRs.Sync.Link
import BepRs.Sync.Merge

namespace BepRs.Gossip

open BepRs.Lib BepRs.Lib.Task BepRs.State BepRs.Sync

structure Party where
  store : Store
  /-- The `handle_index` under way, and whether it has changed the store. -/
  handler : Option (BepProg Unit × Bool)
  tasks : List (BepProg Unit)

structure Net (ι : Type) where
  party : ι → Party
  /-- The Index messages that were sent. -/
  sent : List Index
  changes : Nat

/-- What an operation does to the store; the disk and the connections answer anything. -/
inductive Acts (s : Store) : (o : Op) → Store → Option o.Ans → Prop
  | db (o : DbOp) : Acts s (.db o) (dbDo s o).1 (dbDo s o).2
  | sys (o : SysOp) (x : Option o.Ans) : Acts s (.sys o) s x

/-- What a task is after an answer, or a panic. -/
def next {o : Op} (k : o.Ans → BepProg Unit) : Option o.Ans → BepProg Unit
  | some r => k r
  | none => .panic

/-- The messages an operation sends. -/
def posts : Op → List Index
  | .sys (.submitMessage (.index m)) => [m]
  | _ => []

/-- Nothing is under way: there was no call, or it ended. -/
def Idle (handler : Option (BepProg Unit × Bool)) : Prop := ∀ o k changed, handler ≠ some (.ask o k, changed)

/-- Whether a call is the first of its `handle_index` to change the records. -/
def news (changed : Bool) (s s' : Store) : Nat := if changed = false ∧ s'.records ≠ s.records then 1 else 0

section

variable (sha256 : Bytes → Bytes)

def download (directory : SyncDirectory) : BepProg Unit := do let _ ← getDirectory sha256 directory

def announce (conn : Conn) (directory : SyncDirectory) : BepProg Unit := do
  let _ ← directoryUpdated sha256 conn directory

/-- The tasks an operation starts. -/
def startedBy (conns : List Conn) : Op → List (BepProg Unit)
  | .db (.directoryChanged directory) => conns.map fun conn => announce sha256 conn directory
  | .sys (.spawnGetDirectory directory) => [download sha256 directory]
  | _ => []

variable {ι : Type} [DecidableEq ι] (conns : ι → List Conn)

/-- One node goes on. -/
def Net.put (c : Net ι) (i : ι) (p : Party) (sent : List Index) (changes : Nat) : Net ι :=
  ⟨Function.update c.party i p, c.sent ++ sent, c.changes + changes⟩

inductive Step (c : Net ι) : Net ι → Prop
  /-- The node takes up a message. -/
  | handle (i : ι) (m : Index) : m ∈ c.sent → Idle (c.party i).handler →
      Step c (c.put i { c.party i with handler := some (handleIndex m.folder m.files, false) } [] 0)
  /-- The `handle_index` under way goes on. -/
  | merge (i : ι) (o : Op) (k : o.Ans → BepProg Unit) (changed : Bool) (s : Store) (x : Option o.Ans) :
      (c.party i).handler = some (.ask o k, changed) → Acts (c.party i).store o s x →
      Step c (c.put i
        { store := s
          handler := some (next k x, changed || decide (s.records ≠ (c.party i).store.records))
          tasks := (c.party i).tasks ++ startedBy sha256 (conns i) o }
        (posts o) (news changed (c.party i).store s))
  /-- One of the other tasks goes on. -/
  | work (i : ι) (l r : List (BepProg Unit)) (o : Op) (k : o.Ans → BepProg Unit) (s : Store) (x : Option o.Ans) :
      (c.party i).tasks = l ++ .ask o k :: r → Acts (c.party i).store o s x →
      Step c (c.put i
        { store := s
          handler := (c.party i).handler
          tasks := (l ++ next k x :: r) ++ startedBy sha256 (conns i) o }
        (posts o) 0)
  /-- The peers and the shares change. -/
  | configure (i : ι) (s : Store) : s.records = (c.party i).store.records → s.folders = (c.party i).store.folders →
      Step c (c.put i { c.party i with store := s } [] 0)

def Steps : Net ι → Net ι → Prop := Relation.ReflTransGen (Step sha256 conns)

/-- A task that has not begun. -/
inductive Waiting (conns : List Conn) : BepProg Unit → Prop
  | download (directory : SyncDirectory) : Waiting conns (download sha256 directory)
  | announce (conn : Conn) (directory : SyncDirectory) : conn ∈ conns → Waiting conns (announce sha256 conn directory)
  | sendIndex (conn : Conn) : conn ∈ conns → Waiting conns (do let _ ← sendIndex sha256 conn)

end

end BepRs.Gossip
