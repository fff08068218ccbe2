/-
  BepRs.Relay.Replica — the folder on a node, as a point in the folder's history.

  `Log` is the abstract state of a folder: for each name the versions there were, with what
  the file held at each. A node shows a log up to a depth for each name (`Shows`): its record
  of the name has the versions up to the depth, its blocks are those of the contents at the
  last of them, these contents are on disk, and the record says so. Depths are compared name
  by name; that is all the order there is between two nodes.

  - `run_sendIndex_shows`: what a node that shows a log announces.
-/

import BepRs.Access.Absent
import BepRs.Relay.Folder

namespace BepRs.Relay

open BepRs.Lib BepRs.Lib.Path BepRs.Lib.Task BepRs.Lib.Tiling BepRs.State BepRs.Sync BepRs.Access BepRs.History BepRs.Transfer

/-! ## The history of a folder -/

abbrev Log := Text → List (Version × Bytes)

/-- `gen_blocks` tiles contents of this length. -/
def Sized (c : Bytes) : Prop := c.length < 2 ^ 31 ∧ ¬ getBlocksize c.length ∣ c.length

instance (c : Bytes) : Decidable (Sized c) := inferInstanceAs (Decidable (_ ∧ _))

/-- The versions are counted from zero, no version is shorter than the one before, and all
    contents are cut into blocks as they should be. -/
structure Valid (log : Log) : Prop where
  named : ∀ name, log name ≠ [] → FileName name
  counted : ∀ (name : Text) (i : Nat) (e : Version × Bytes), (log name)[i]? = some e → e.1.2.toNat = i
  sized : ∀ (name : Text) (i : Nat) (e : Version × Bytes), (log name)[i]? = some e → Sized e.2
  grows : ∀ (name : Text) (i j : Nat) (e e' : Version × Bytes), (log name)[i]? = some e → (log name)[j]? = some e' → i ≤ j →
    e.2.length ≤ e'.2.length

theorem valid_nil : Valid fun _ => [] := by
  refine ⟨fun name h => absurd rfl h, fun name i e he => ?_, fun name i e he => ?_, fun name i j e e' he => ?_⟩
  all_goals cases he

/-- The versions of a name up to a depth. -/
def Log.versions (log : Log) (name : Text) (k : Nat) : List Version := ((log name).take k).map Prod.fst

theorem length_versions {log : Log} {name : Text} {k : Nat} {e : Version × Bytes} (h : (log name)[k]? = some e) :
    (log.versions name (k + 1)).length = k + 1 := by
  have hlt := (List.getElem?_eq_some_iff.mp h).choose
  rw [Log.versions, List.length_map, List.length_take]
  omega

theorem prefix_versions (log : Log) (name : Text) {j k : Nat} (h : j ≤ k) : log.versions name j <+: log.versions name k := by
  have htake : (log name).take j = ((log name).take k).take j := by rw [List.take_take, Nat.min_eq_left h]
  unfold Log.versions
  rw [htake]
  exact (List.take_prefix _ _).map Prod.fst

theorem getLast?_versions {log : Log} {name : Text} {k : Nat} {e : Version × Bytes} (h : (log name)[k]? = some e) :
    (log.versions name (k + 1)).getLast? = some e.1 := by
  rw [Log.versions, List.take_add_one, h, Option.toList_some, List.map_append, List.map_singleton, List.getLast?_concat]

/-! ## A node that shows it -/

variable {sha256 : Bytes → Bytes}

/-- The record of a name whose last version is `e`. -/
structure Holds (sha256 : Bytes → Bytes) (log : Log) (name : Text) (k : Nat) (e : Version × Bytes) (r : Rec) : Prop where
  versions : r.versions = log.versions name (k + 1)
  blocks : blocksOf sha256 e.2 = some r.blocks
  /-- Contents of more than one block have two hashes. -/
  hash : e.2.length < 128 * 1024 → r.hash = sha256 e.2

structure Shows (sha256 : Bytes → Bytes) (n : Node) (folder : Text) (q : List Text) (log : Log) (d : Text → Nat) : Prop where
  single : n.store.Single folder
  without : ∀ name, d name = 0 → n.store.lookup folder name = none ∧ entry n q name = none
  upTo : ∀ name k, d name = k + 1 → ∃ e r, (log name)[k]? = some e ∧ n.store.lookup folder name = some r ∧
    Holds sha256 log name k e r ∧ r.synced = e.1.2 ∧ entry n q name = some (.file e.2)

/-- What a node shows of a folder does not depend on the other folders. -/
theorem Shows.elsewhere {n n' : Node} {folder other : Text} {q : List Text} {log : Log} {d : Text → Nat}
    (h : Shows sha256 n other q log d) (he : Elsewhere folder n.store n'.store) (hne : other ≠ folder)
    (hentry : ∀ name, entry n' q name = entry n q name) : Shows sha256 n' other q log d := by
  refine ⟨he.single hne h.single, fun name h0 => ?_, fun name k hk => ?_⟩
  · rw [he.lookup hne, hentry]
    exact h.without name h0
  · rw [he.lookup hne, hentry]
    exact h.upTo name k hk

/-- The latest version of a record is its last. -/
theorem Holds.latest {log : Log} {name : Text} {k : Nat} {e : Version × Bytes} {r : Rec} (h : Holds sha256 log name k e r)
    (he : (log name)[k]? = some e) : r.file.getIndexVersion = e.1.2 := by
  have hlast := getLast?_versions he
  rw [← h.versions] at hlast
  simp only [SyncFile.getIndexVersion, Rec.file, hlast]

theorem covers_sized {c : Bytes} {blocks : List SyncBlock} (hc : Sized c) (h : blocksOf sha256 c = some blocks) :
    Covers sha256 c blocks ∧ blocks ≠ [] := by
  obtain ⟨blocks', h', hcovers⟩ := covers_blocksOf sha256 hc.1 hc.2
  rw [h] at h'
  cases h'
  obtain ⟨b, hb, -⟩ := blocksOf_head sha256 h
  exact ⟨hcovers, fun he => by rw [he] at hb; cases hb⟩

/-- The first block of a small file is the file. -/
theorem hash_head {c : Bytes} {blocks : List SyncBlock} {b : SyncBlock} (hsmall : c.length < 128 * 1024)
    (h : blocksOf sha256 c = some blocks) (hb : blocks.head? = some b) : b.hash = sha256 c := by
  obtain ⟨b', hb', hone, hmore⟩ := blocksOf_head sha256 h
  rw [hb] at hb'
  cases hb'
  by_cases hlen : blocks.length = 1
  · exact hone hlen
  · have hsize : 128 * 1024 ≤ getBlocksize (c.length % 2 ^ 32) := by
      unfold getBlocksize
      split_ifs <;> decide
    have := (hmore hlen).2
    omega

/-- The sizes of blocks that tile a file add up to its length. -/
theorem getSize_covers {f : SyncFile} {c : Bytes} (hlen : c.length < 2 ^ 31) (h : Tiles c.length 0 (f.blocks.map range)) :
    getSize f = some c.length := by
  have hall : ∀ (l : List SyncBlock) (s : Nat), Tiles c.length s (l.map range) →
      l.foldl (fun acc b => acc.bind fun n => if n + asU64 b.size < 2 ^ 64 then some (n + asU64 b.size) else none) (some s) =
        some c.length := by
    intro l
    induction l with
    | nil =>
      intro s hs
      have hsc : (s : Int) = c.length := hs
      exact congrArg some (by omega)
    | cons b l ih =>
      intro s hs
      obtain ⟨-, hsize, hrest⟩ := hs
      simp only [range] at hsize hrest
      have hend := tiles_le hrest
      have hcast : asU64 b.size = b.size.toNat := by unfold asU64; omega
      rw [List.foldl_cons, Option.bind_some, hcast, if_pos (by omega)]
      refine ih _ ?_
      push_cast
      rwa [Int.toNat_of_nonneg hsize]
  exact hall f.blocks 0 h

/-! ## What it announces -/

/-- The files of an Index say what the log has up to a depth. -/
structure Tells (sha256 : Bytes → Bytes) (log : Log) (d : Text → Nat) (files : List FileInfo) : Prop where
  names : (files.map FileInfo.name).Nodup
  only : ∀ file ∈ files, d file.name ≠ 0
  told : ∀ name k, d name = k + 1 → ∃ file ∈ files, file.name = name
  what : ∀ file ∈ files, ∀ k, d file.name = k + 1 → ∃ e blocks, (log file.name)[k]? = some e ∧
    file.version = some ((log.versions file.name (k + 1)).map fun v => ⟨v.1, v.2⟩) ∧ blocksOf sha256 e.2 = some blocks ∧
    file.blocks = blocks.map fun b => ⟨b.offset, b.size, b.hash⟩

section

variable {n : Node} {dir : SyncDirectory} {path : Text} {q : List Text} {log : Log} {d : Text → Nat}

/-- A file of the index has a place in the log. -/
theorem Shows.indexed (h : Shows sha256 n dir.id q log d) {x : SyncFile} (hx : x ∈ n.store.index dir.id) :
    ∃ r k e, x = r.file ∧ r ∈ n.store.records ∧ d r.name = k + 1 ∧ (log r.name)[k]? = some e ∧
      n.store.lookup dir.id r.name = some r ∧ Holds sha256 log r.name k e r ∧ entry n q r.name = some (.file e.2) := by
  obtain ⟨r, hr, hxr⟩ := List.mem_map.mp hx
  obtain ⟨hr, hfolder⟩ := List.mem_filter.mp hr
  have hlook := h.single.lookup hr (by simpa using hfolder)
  obtain ⟨k, hk⟩ : ∃ k, d r.name = k + 1 := by
    refine Nat.exists_eq_succ_of_ne_zero fun h0 => ?_
    rw [(h.without r.name h0).1] at hlook
    cases hlook
  obtain ⟨e, r', he, hlook', hholds, -, hentry⟩ := h.upTo r.name k hk
  rw [hlook] at hlook'
  cases hlook'
  exact ⟨r, k, e, hxr.symm, hr, hk, he, hlook, hholds, hentry⟩

/-- Every record can be announced. -/
theorem Shows.announceable (hvalid : Valid log) (h : Shows sha256 n dir.id q log d) (hpath : dir.path = some path)
    (hrooted : Rooted n path q) : ∀ x ∈ n.store.index dir.id, Announceable n dir x := by
  intro x hx
  obtain ⟨r, k, e, hxr, hr, -, he, -, hholds, hentry⟩ := h.indexed hx
  subst hxr
  have hname := hvalid.named r.name (List.ne_nil_of_mem (List.mem_of_getElem? he))
  have hsized := hvalid.sized _ _ _ he
  obtain ⟨hcovers, -⟩ := covers_sized hsized hholds.blocks
  refine ⟨?_, path, e.2, hpath, (readFile_entry hrooted hname).mpr hentry, ?_⟩
  · rw [getSize_covers (f := r.file) hsized.1 hcovers.consecutive]; simp
  · have hpos : e.2.length ≠ 0 := fun h0 => hsized.2 (by rw [h0]; exact Nat.dvd_zero _)
    rwa [Nat.mod_eq_of_lt (by have := hsized.1; omega)]

theorem Shows.tells (hvalid : Valid log) (h : Shows sha256 n dir.id q log d) (hpath : dir.path = some path)
    (hrooted : Rooted n path q) {files : List FileInfo}
    (hann : List.Forall₂ (Announces sha256 n dir) (n.store.index dir.id) files) : Tells sha256 log d files := by
  obtain ⟨hnames, hall⟩ := announces_all sha256 hann
  have hfile : ∀ file ∈ files, ∃ (r : Rec) (k : Nat) (e : Version × Bytes) (blocks : List SyncBlock),
      file.name = r.name ∧ d r.name = k + 1 ∧ (log r.name)[k]? = some e ∧
      file.version = some ((log.versions r.name (k + 1)).map fun v => ⟨v.1, v.2⟩) ∧ blocksOf sha256 e.2 = some blocks ∧
      file.blocks = blocks.map fun b => ⟨b.offset, b.size, b.hash⟩ := by
    intro file hf
    obtain ⟨x, hx, hname, hversion, blocks, hblocks, hfb⟩ := hall file hf
    obtain ⟨r, k, e, hxr, hr, hk, he, -, hholds, hentry⟩ := h.indexed hx
    subst hxr
    have hgood := hvalid.named r.name (List.ne_nil_of_mem (List.mem_of_getElem? he))
    have hread : n.readFile (push path r.file.path) = some e.2 := (readFile_entry hrooted hgood).mpr hentry
    refine ⟨r, k, e, blocks, hname.trans (n.store.getName_file hr), hk, he, ?_, ?_, hfb⟩
    · rw [hversion, ← hholds.versions]; rfl
    · simpa only [blocksAt, hpath, hread, Option.bind_eq_bind, Option.bind_some] using hblocks
  refine ⟨?_, fun file hf => ?_, fun name k hk => ?_, fun file hf k hk => ?_⟩
  · rw [hnames]; exact h.single.nodup_names
  · obtain ⟨r, k, -, -, hn, hk, -⟩ := hfile file hf
    rw [hn, hk]; exact Nat.succ_ne_zero k
  · obtain ⟨e, r, he, hlook, -⟩ := h.upTo name k hk
    obtain ⟨hr, hfolder, hn⟩ := n.store.lookup_some hlook
    have hmem : r.file.getName ∈ files.map FileInfo.name := by
      rw [hnames]
      exact List.mem_map_of_mem (List.mem_map_of_mem (List.mem_filter.mpr ⟨hr, by simpa using hfolder⟩))
    obtain ⟨file, hf, hfn⟩ := List.mem_map.mp hmem
    exact ⟨file, hf, by rw [hfn, n.store.getName_file hr, hn]⟩
  · obtain ⟨r, j, e, blocks, hn, hj, he, hversion, hblocks, hfb⟩ := hfile file hf
    rw [hn, hj] at hk
    have hkj : k = j := by omega
    subst hkj
    rw [hn]
    exact ⟨e, blocks, he, hversion, hblocks, hfb⟩

end

end BepRs.Relay
