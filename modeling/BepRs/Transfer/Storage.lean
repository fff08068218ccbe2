/-
  BepRs.Transfer.Storage — what the blocks written to a file make of it
  (`src/storage_backend.rs`).

  `write_block` opens the file without truncating it, creates it if it is not there, and
  writes at an offset; `read_block` reads a range, all of it or nothing. A file ends at an
  offset of the system's, below 2^63, and so does every write that succeeds.

  - `held_writeBlocks`: a run of writes on the node is one of `Lib.Overlay` on the bytes.
  - `storage_overlay`: which reads succeed after any run of writes, what they return, and
    that writes to disjoint ranges may come in any order.
-/

import BepRs.Lib.Overlay
import BepRs.Transfer.Reproduce

namespace BepRs.Transfer

open BepRs.Lib BepRs.Lib.Overlay BepRs.Lib.Path BepRs.Access BepRs.History BepRs.State BepRs.Sync

/-- The bytes of a file; one that is not there has none. -/
def held (n : Node) (url : Text) : Bytes := (n.readFile url).getD []

/-- Calls of `write_block`, one after the other, when each of them succeeds. -/
def writeBlocks (url : Text) : List (Patch UInt8) → Node → Option Node
  | [], n => some n
  | w :: ws, n =>
    match n.writeBlock url w.start w.data with
    | (n', some ()) => writeBlocks url ws n'
    | (_, none) => none

def InRange (old : Bytes) (ws : List (Patch UInt8)) : Prop :=
  Node.seekable old.length = true ∧ ∀ w ∈ ws, Node.seekable (w.start + w.data.length) = true

/-- The file that `n` has under the name, with the writes laid over it, is what `n'` has. -/
structure OverlayOf (n n' : Node) (url : Text) (ws : List (Patch UInt8)) : Prop where
  /-- A read of some bytes succeeds just within the file. -/
  succeeds : ∀ offset len, 0 < len →
    ((∃ bytes, (n'.readBlock url offset len).2 = some (some bytes)) ↔ offset + len ≤ (held n' url).length)
  /-- It returns what the last write at each position put there, else the old byte, else zero. -/
  returns : ∀ offset len bytes, (n'.readBlock url offset len).2 = some (some bytes) →
    bytes.length = len ∧ ∀ i < len, bytes[i]? = some (laid 0 ws (held n url) (offset + i))
  /-- The file ends where it did, or where the last of the writes ends. -/
  ends : ∀ k, (held n' url).length ≤ k ↔
    (held n url).length ≤ k ∧ ∀ w ∈ ws, w.data = [] ∨ w.start + w.data.length ≤ k
  /-- Disjoint writes give the same file in every order. -/
  reorders : ∀ ws', ws.Perm ws' → ws.Pairwise Patch.Apart →
    ∃ n'', writeBlocks url ws' n = some n'' ∧ n''.readFile url = n'.readFile url

/-! ## Writing -/

theorem writeBlocks_cons {n n' : Node} {url : Text} {w : Patch UInt8} {ws : List (Patch UInt8)} :
    writeBlocks url (w :: ws) n = some n' ↔
      ∃ n₁, n.writeBlock url w.start w.data = (n₁, some ()) ∧ writeBlocks url ws n₁ = some n' := by
  rw [writeBlocks]
  rcases n.writeBlock url w.start w.data with ⟨n₁, _ | ⟨⟩⟩
  · simp
  · simp

theorem readFile_writeBlocks {n n' : Node} {url : Text} {ws : List (Patch UInt8)} (h : writeBlocks url ws n = some n')
    (hne : ws ≠ []) : n'.readFile url = some (putAll 0 ws (held n url)) := by
  induction ws generalizing n with
  | nil => exact absurd rfl hne
  | cons w ws ih =>
    obtain ⟨n₁, hfirst, hrest⟩ := writeBlocks_cons.mp h
    have hput : n₁.readFile url = some (put 0 (held n url) w) := readFile_writeBlock hfirst
    cases ws with
    | nil =>
      cases hrest
      exact hput
    | cons v ws =>
      rw [ih hrest (List.cons_ne_nil _ _), held, hput, Option.getD_some]
      rfl

theorem held_writeBlocks {n n' : Node} {url : Text} {ws : List (Patch UInt8)} (h : writeBlocks url ws n = some n') :
    held n' url = putAll 0 ws (held n url) := by
  cases ws with
  | nil => cases h; rfl
  | cons w ws =>
    rw [held, readFile_writeBlocks h (List.cons_ne_nil _ _)]
    rfl

theorem poisoned_writeBlocks {n n' : Node} {url : Text} {ws : List (Patch UInt8)} (h : writeBlocks url ws n = some n')
    (hpoison : n.poisoned = false) : n'.poisoned = false := by
  induction ws generalizing n with
  | nil => cases h; exact hpoison
  | cons w ws ih =>
    obtain ⟨n₁, hfirst, hrest⟩ := writeBlocks_cons.mp h
    exact ih hrest (writable_of_writeBlock hfirst).1

theorem seekable_of_writeBlocks {n n' : Node} {url : Text} {ws : List (Patch UInt8)} (h : writeBlocks url ws n = some n') :
    ∀ w ∈ ws, Node.seekable w.start = true := by
  induction ws generalizing n with
  | nil => intro w hw; cases hw
  | cons w ws ih =>
    obtain ⟨n₁, hfirst, hrest⟩ := writeBlocks_cons.mp h
    exact List.forall_mem_cons.mpr ⟨(writable_of_returns hfirst).2, ih hrest⟩

theorem writeBlocks_of_writable {n : Node} {url : Text} (h : Writable n url) {ws : List (Patch UInt8)}
    (hseek : ∀ w ∈ ws, Node.seekable w.start = true) : ∃ n', writeBlocks url ws n = some n' := by
  induction ws generalizing n with
  | nil => exact ⟨n, rfl⟩
  | cons w ws ih =>
    obtain ⟨hw, hws⟩ := List.forall_mem_cons.mp hseek
    obtain ⟨n₁, hfirst⟩ := writeBlock_of_writable h hw w.data
    obtain ⟨n', hrest⟩ := ih (writable_of_writeBlock hfirst) hws
    exact ⟨n', writeBlocks_cons.mpr ⟨n₁, hfirst, hrest⟩⟩

/-- Disjoint writes that succeed in one order succeed in every order, with the same file. -/
theorem writeBlocks_perm {n n' : Node} {url : Text} {ws ws' : List (Patch UInt8)} (h : writeBlocks url ws n = some n')
    (hperm : ws.Perm ws') (hapart : ws.Pairwise Patch.Apart) :
    ∃ n'', writeBlocks url ws' n = some n'' ∧ n''.readFile url = n'.readFile url := by
  cases ws with
  | nil =>
    obtain rfl := hperm.nil_eq
    exact ⟨n', h, rfl⟩
  | cons w ws =>
    obtain ⟨n₁, hfirst, -⟩ := writeBlocks_cons.mp h
    have hseek : ∀ v ∈ ws', Node.seekable v.start = true := fun v hv => seekable_of_writeBlocks h v (hperm.mem_iff.mpr hv)
    obtain ⟨n'', h''⟩ := writeBlocks_of_writable (writable_of_returns hfirst).1 hseek
    have hne : ws' ≠ [] := fun hnil => List.cons_ne_nil w ws (List.perm_nil.mp (hnil ▸ hperm))
    refine ⟨n'', h'', ?_⟩
    rw [readFile_writeBlocks h'' hne, readFile_writeBlocks h (List.cons_ne_nil _ _), putAll_perm hperm hapart]

/-! ## Reading -/

theorem readBlock_held {n : Node} {url : Text} {offset len : Nat} {data : Bytes}
    (h : (n.readBlock url offset len).2 = some (some data)) :
    data = ((held n url).drop offset).take len ∧ data.length = len := by
  obtain ⟨f, hfind, -, -, hdata, hlen⟩ := readBlock_bytes h
  have hheld : held n url = bytes f := by
    rw [held, Node.readFile, hfind]
    cases f <;> rfl
  rw [hheld]
  exact ⟨hdata, hlen⟩

theorem readBlock_succeeds_iff {n : Node} {url : Text} {offset len : Nat} (hpoison : n.poisoned = false)
    (hsize : Node.seekable (held n url).length = true) (hpos : 0 < len) :
    (∃ data, (n.readBlock url offset len).2 = some (some data)) ↔ offset + len ≤ (held n url).length := by
  constructor
  · rintro ⟨data, h⟩
    obtain ⟨hdata, hlen⟩ := readBlock_held h
    rw [hdata, List.length_take, List.length_drop] at hlen
    omega
  · intro hin
    have hlt : (held n url).length < 2 ^ 63 := by simpa [Node.seekable] using hsize
    have hread : n.readFile url = some (held n url) := by
      unfold held at hin ⊢
      cases hfile : n.readFile url with
      | none => rw [hfile, Option.getD_none, List.length_nil] at hin; omega
      | some data => rfl
    exact ⟨_, readBlock_of_range hpoison hread (by omega) (by omega) hin⟩

/-- **Block storage is an overlay.** After any run of writes that succeed, on a file that was
    there or not, a read of some bytes succeeds exactly within the file, and returns at each
    position the byte of the last write that lies there, else the old one, else zero. Writes
    to disjoint ranges give the same file in every order. -/
theorem storage_overlay {n n' : Node} {url : Text} {ws : List (Patch UInt8)} (hpoison : n.poisoned = false)
    (hrange : InRange (held n url) ws) (h : writeBlocks url ws n = some n') : OverlayOf n n' url ws := by
  have hheld := held_writeBlocks h
  have hends : ∀ k, (held n' url).length ≤ k ↔
      (held n url).length ≤ k ∧ ∀ w ∈ ws, w.data = [] ∨ w.start + w.data.length ≤ k := by
    intro k
    rw [hheld]
    exact length_putAll_le
  -- so the file still ends at an offset of the system's
  have hsize : Node.seekable (held n' url).length = true := by
    have hle : (held n' url).length ≤ 2 ^ 63 - 1 := by
      refine (hends _).mpr ⟨?_, fun w hw => Or.inr ?_⟩
      · exact Nat.le_pred_of_lt (by simpa [Node.seekable] using hrange.1)
      · exact Nat.le_pred_of_lt (by simpa [Node.seekable] using hrange.2 w hw)
    simp only [Node.seekable, decide_eq_true_eq]
    omega
  refine ⟨fun offset len hpos => ?_, fun offset len data hread => ?_, hends, fun ws' hperm hapart => ?_⟩
  · exact readBlock_succeeds_iff (poisoned_writeBlocks h hpoison) hsize hpos
  · obtain ⟨hdata, hlen⟩ := readBlock_held hread
    refine ⟨hlen, fun i hi => ?_⟩
    have hlt : offset + i < (putAll 0 ws (held n url)).length := by
      rw [hdata, List.length_take, List.length_drop, hheld] at hlen
      omega
    rw [hdata, hheld, List.getElem?_take_of_lt hi, List.getElem?_drop, getElem?_putAll hlt]
  · exact writeBlocks_perm h hperm hapart

/-- The two writes of the tests, the second part of the text first. -/
def testWrites : List (Patch UInt8) := [⟨6, [119, 111, 114, 108, 100]⟩, ⟨0, [104, 101, 108, 108, 111, 32]⟩]

theorem storage_overlay_test :
    ∃ n', writeBlocks ['/', 'd', '/', 'g'] testWrites (fileNode fileContents) = some n' ∧
      OverlayOf (fileNode fileContents) n' ['/', 'd', '/', 'g'] testWrites ∧
      (n'.readBlock ['/', 'd', '/', 'g'] 0 11).2 = some (some [104, 101, 108, 108, 111, 32, 119, 111, 114, 108, 100]) := by
  have hread : (writeBlocks ['/', 'd', '/', 'g'] testWrites (fileNode fileContents)).map
      (fun n => (n.readBlock ['/', 'd', '/', 'g'] 0 11).2) =
        some (some (some [104, 101, 108, 108, 111, 32, 119, 111, 114, 108, 100])) := by decide +kernel
  obtain ⟨n', h, hread⟩ := Option.map_eq_some_iff.mp hread
  refine ⟨n', h, storage_overlay rfl ⟨by decide +kernel, by decide +kernel⟩ h, hread⟩

end BepRs.Transfer
