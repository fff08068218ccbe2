/-
  BepRs.Relay.Entry — the files of a folder on disk.

  A folder's local path leads to a directory (`Rooted`), and a file of the folder is the
  entry of its name there. What the tasks do by paths is what happens to the entries: a
  block that is written changes its own entry and no other node of the disk.

  - `write_entry`: a write, and what it leaves.
-/

import BepRs.Transfer.Reproduce

namespace BepRs.Relay

open BepRs.Lib BepRs.Lib.Path BepRs.Lib.Task BepRs.State BepRs.Sync BepRs.History

/-- The path leads to the directory `q`. -/
structure Rooted (n : Node) (path : Text) (q : List Text) : Prop where
  leads : n.disk.locate n.cwd path = some q
  dir : n.disk.node q = some .dir

/-- What the name is in the directory. -/
def entry (n : Node) (q : List Text) (name : Text) : Option FNode := n.disk.node (q ++ [name])

/-- The bytes of a name; a directory or no file has none. -/
def entryBytes (n : Node) (q : List Text) (name : Text) : Bytes :=
  match entry n q name with
  | some (.file data) => data
  | _ => []

theorem entryBytes_file {n : Node} {q : List Text} {name : Text} {data : Bytes} (h : entry n q name = some (.file data)) :
    entryBytes n q name = data := by
  rw [entryBytes, h]

theorem walk_append (d : Disk) : ∀ (cs cs' : List Component) (l : List Text),
    d.walk l (cs ++ cs') = (d.walk l cs).bind fun q => d.walk q cs' := by
  intro cs cs'
  induction cs with
  | nil => intro l; rfl
  | cons c cs ih =>
    intro l
    simp only [List.cons_append, Disk.walk]
    split
    · exact ih _
    · rfl

/-- A name pushed on a path asks for no directory. -/
theorem wantsDir_push {base name : Text} (h : FileName name) : Disk.wantsDir (push base name) = false := by
  have hlast : (parts (push base name)).getLast? = some name := by
    unfold push
    rw [relative_fileName h]
    simp only [Bool.false_eq_true, if_false]
    split
    · rename_i hbase
      rcases hbase with hbase | hbase
      · rw [hbase, List.nil_append, parts_fileName h]; rfl
      · obtain ⟨b, rfl⟩ := List.getLast?_eq_some_iff.mp hbase
        rw [List.append_assoc, List.singleton_append]
        have hparts : parts (b ++ '/' :: name) = parts b ++ parts name := List.splitOn_append_cons_self b name
        rw [hparts, parts_fileName h, List.getLast?_concat]
    · have hparts : parts (base ++ '/' :: name) = parts base ++ parts name := List.splitOn_append_cons_self base name
      rw [hparts, parts_fileName h, List.getLast?_concat]
  obtain ⟨⟨-, hempty, hdot⟩, hdots⟩ := h
  simp [Disk.wantsDir, hlast, hempty, hdot, hdots]

theorem push_ne_nil {base name : Text} (h : FileName name) : push base name ≠ [] := by
  intro he
  have hparts := h.1.2.1
  unfold push at he
  rw [relative_fileName h] at he
  simp only [Bool.false_eq_true, if_false] at he
  split at he
  · exact hparts (List.append_eq_nil_iff.mp he).2
  · simp at he

section

variable {n : Node} {path : Text} {q : List Text} {name : Text}

/-- A name leads to its entry. -/
theorem locate_entry (h : Rooted n path q) (hname : FileName name) :
    n.disk.locate n.cwd (push path name) = some (q ++ [name]) := by
  have hwalk : n.disk.walk n.cwd (components path) = some q := by
    have hleads := h.leads
    unfold Disk.locate at hleads
    split at hleads
    · rename_i q' hq'
      split at hleads
      · cases hleads
      · cases hleads; exact hq'
    · cases hleads
  unfold Disk.locate
  rw [components_push hname, walk_append, hwalk, Option.bind_some]
  simp only [Disk.walk, h.dir, or_true, if_true, follow]
  rw [if_neg]
  rintro (hnil | ⟨hwants, -⟩)
  · exact push_ne_nil hname hnil
  · rw [wantsDir_push hname] at hwants; cases hwants

theorem find_entry (h : Rooted n path q) (hname : FileName name) :
    n.disk.find n.cwd (push path name) = entry n q name := by
  rw [Disk.find, locate_entry h hname]; rfl

theorem readFile_entry (h : Rooted n path q) (hname : FileName name) {data : Bytes} :
    n.readFile (push path name) = some data ↔ entry n q name = some (.file data) := by
  rw [Node.readFile, find_entry h hname]
  cases entry n q name with
  | none => simp
  | some x => cases x <;> simp

/-- A name that is no directory can be written. -/
theorem openWrite_entry (h : Rooted n path q) (hname : FileName name) (hdir : entry n q name ≠ some .dir) :
    n.openWrite (push path name) = some (q ++ [name], entryBytes n q name) := by
  have hparent : (q ++ [name]).dropLast = q := List.dropLast_concat
  unfold Node.openWrite entryBytes
  rw [locate_entry h hname]
  simp only
  cases hentry : entry n q name with
  | none =>
    have hnode : n.disk.node (q ++ [name]) = none := hentry
    simp only [hnode, hparent, h.dir, if_true]
  | some x =>
    have hnode : n.disk.node (q ++ [name]) = some x := hentry
    cases x with
    | dir => exact absurd hentry hdir
    | file data => simp only [hnode]

theorem named_entry (h : Rooted n path q) (hname : FileName name) : ∀ s ∈ q ++ [name], FileName s := by
  intro s hs
  rcases List.mem_append.mp hs with hs | hs
  · exact n.disk.locate_named n.cwd_named h.leads s hs
  · rw [List.mem_singleton.mp hs]; exact hname

theorem entry_ne_nil : q ++ [name] ≠ [] := by simp

end

/-- A write to an entry: the disk has the new bytes there, and is as it was everywhere else. -/
structure Wrote (n n' : Node) (q : List Text) (name : Text) (data : Bytes) : Prop where
  self : entry n' q name = some (.file data)
  beside : ∀ p, p ≠ q ++ [name] → n'.disk.node p = n.disk.node p
  walks : ∀ cs l, n'.disk.walk l cs = n.disk.walk l cs
  cwd : n'.cwd = n.cwd

theorem wrote_setFile {n : Node} {path : Text} {q : List Text} {name : Text} (h : Rooted n path q) (hname : FileName name)
    (hdir : entry n q name ≠ some .dir) (data : Bytes) :
    Wrote n { n with disk := n.disk.setFile (q ++ [name]) data } q name data where
  self := node_setFile_self n.disk entry_ne_nil (named_entry h hname) data
  beside _ hp := node_setFile_of_ne n.disk hp data
  walks := walk_setFile n.disk entry_ne_nil (named_entry h hname) hdir data
  cwd := rfl

/-- A path that led to a directory leads there still. -/
theorem Wrote.rooted {n n' : Node} {q q' : List Text} {name path : Text} {data : Bytes} (hw : Wrote n n' q name data)
    (hdir : entry n q name ≠ some .dir) (h : Rooted n path q') : Rooted n' path q' := by
  have hself : q' ≠ q ++ [name] := by
    intro he
    exact hdir (by rw [entry, ← he]; exact h.dir)
  refine ⟨?_, (hw.beside q' hself).trans h.dir⟩
  have hleads := h.leads
  unfold Disk.locate at hleads ⊢
  rw [hw.walks, hw.cwd]
  cases hq : n.disk.walk n.cwd (components path) with
  | none => rw [hq] at hleads; cases hleads
  | some p =>
    rw [hq] at hleads
    simp only at hleads ⊢
    have hp : p = q' := by
      split at hleads
      · cases hleads
      · exact Option.some.inj hleads
    subst hp
    rw [hw.beside p hself]
    exact hleads

/-- A block goes over the bytes of its entry. -/
theorem write_entry {n : Node} {path : Text} {q : List Text} {name : Text} (h : Rooted n path q) (hname : FileName name)
    (hdir : entry n q name ≠ some .dir) (hpoison : n.poisoned = false) {offset : Nat} (hoff : offset < 2 ^ 63) (data : Bytes) :
    n.writeBlock (push path name) offset data =
      ({ n with disk := n.disk.setFile (q ++ [name]) (overlay (entryBytes n q name) offset data) }, some ()) :=
  writeBlock_eq_some.mpr
    ⟨hpoison, by simpa [Node.seekable] using hoff, _, _, openWrite_entry h hname hdir, rfl⟩

end BepRs.Relay
