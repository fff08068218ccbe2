/-
  BepRs.Relay.Edit — the user saves a file, and the folder is indexed.

  `generate_index` compares every file of the directory with its record. Where the node shows
  its folder and the files are small (one block: the two ways to hash them agree), that finds
  the saved file and no other. If the node had the newest version, the save is the next one of
  the folder's log.

  - `generateIndex_revised`: what a run makes of the records.
  - `save_shows`: a save, on what the node shows.
-/

import BepRs.Relay.Fleet

namespace BepRs.Relay

open BepRs.Lib BepRs.Lib.Path BepRs.Lib.Task BepRs.State BepRs.Sync BepRs.Access BepRs.History

variable {sha256 : Bytes → Bytes}

/-! ## A run of `generate_index` -/

/-- What a run leaves: the edited records, and new ones of the files that had none. -/
structure Indexed (sha256 : Bytes → Bytes) (n : Node) (dir : SyncDirectory) (path : Text) (files : List Text) (s : Store)
    (new : List Rec) : Prop where
  revised : Revised dir.id n.store s (rescanned sha256 n n.store dir.id path n.store.shortId files) new
  names : new.map Rec.name = untracked n.store dir.id files
  created : ∀ r ∈ new, r = created sha256 n.store.shortId dir.id r.name (contents n path r.name) r.id
  same : SameFolders n.store s

theorem rescanned_keeps (n : Node) (s : Store) (dirId path : Text) (shortId : UInt64) (files : List Text) (r : Rec) :
    (rescanned sha256 n s dirId path shortId files r).folder = r.folder ∧
      (rescanned sha256 n s dirId path shortId files r).name = r.name := by
  unfold rescanned
  split <;> exact ⟨rfl, rfl⟩

/-- Over a directory of small regular files a run returns. -/
theorem generateIndex_revised {n : Node} {dir : SyncDirectory} {path : Text} {files : List Text} (hpath : dir.path = some path)
    (habs : isAbsolute path = true) (hfiles : n.readDir path = some files)
    (hregular : ∀ file ∈ files, ∃ data, n.readFile (push path file) = some data ∧ 0 < data.length ∧ data.length < 2 ^ 32)
    (hcounters : ∀ file ∈ files, ∀ r, n.store.lookup dir.id file = some r → sha256 (contents n path file) ≠ r.hash →
      (latest r.versions).toNat < 2 ^ 64 - 1) :
    ∃ s new, (run nodeDo (generateIndex sha256 dir) n).1 = { n with store := s } ∧
      (run nodeDo (generateIndex sha256 dir) n).2.isSome = true ∧ Indexed sha256 n dir path files s new := by
  have hread : ∀ file ∈ files, (n.readFile (push path file)).isSome = true := by
    intro file hfile
    obtain ⟨data, hdata, -⟩ := hregular file hfile
    rw [hdata]; rfl
  have hret : (run nodeDo (generateIndex sha256 dir) n).2.isSome = true := by
    refine (generateIndex_returns_iff n dir).mpr ⟨path, files, hpath, hfiles, fun file hfile => ?_⟩
    obtain ⟨data, hdata, hpos, hlt⟩ := hregular file hfile
    obtain ⟨hcut, hcut'⟩ := cut_entry hpath habs hdata (show data.length % 2 ^ 32 ≠ 0 by omega)
    refine ⟨data, hdata, ?_⟩
    cases hl : n.store.lookup dir.id file with
    | none => exact hcut
    | some r =>
      refine fun _ hhash => ⟨?_, hcut'⟩
      have hcounter := hcounters file hfile r hl (by rw [contents, hdata]; exact hhash)
      omega
  obtain ⟨m, hscan, hrun⟩ := run_generateIndex_returns hpath hfiles hret
  have hstart : (Scanning.start n.store dir).store = n.store := rfl
  obtain ⟨new, hrecords, hnames, hnew⟩ := records_scanFiles hpath habs (pending_start hfiles) hread hscan
  rw [hstart] at hrecords hnames
  have hframe := @scanFiles_frame sha256 n dir path n.store.shortId files (.start n.store dir)
  rw [hscan] at hframe
  obtain ⟨hfolders, hpeers, hshares, hshort⟩ := hframe
  refine ⟨m.store, new, hrun, hret, ⟨hrecords, rescanned_keeps n _ _ _ _ _, fun r hr => ?_, fun r hr => ?_, ?_⟩, hnames, hnew,
    hfolders, hpeers, hshares, hshort⟩
  · refine if_neg fun hboth => hr ?_
    exact (n.store.lookup_some hboth.2.1).2.1
  · have hmem : r.name ∈ untracked n.store dir.id files := by
      rw [← hnames]
      exact List.mem_map_of_mem hr
    refine ⟨by rw [hnew r hr]; rfl, ?_⟩
    simpa using (List.mem_filter.mp hmem).2
  · rw [hnames]
    exact (readDir_nodup hfiles).filter _

/-! ## The entries of a directory -/

theorem mem_children_iff {n : Node} {q : List Text} {name : Text} :
    name ∈ n.disk.children q ↔ (entry n q name).isSome = true := by
  have hnode : entry n q name = (Keyed.row Prod.fst (q ++ [name]) n.disk.entries).map Prod.snd := if_neg (by simp)
  rw [hnode, Option.isSome_map]
  constructor
  · intro h
    obtain ⟨e, he, hname⟩ := List.mem_filterMap.mp h
    split at hname
    · rename_i hboth
      have hkey : e.1 = q ++ [name] := by
        rw [← List.dropLast_append_getLast? name hname, hboth.2]
      rw [← hkey, Keyed.row_of_mem Prod.fst n.disk.nodup he]
      rfl
    · cases hname
  · intro h
    obtain ⟨e, he⟩ := Option.isSome_iff_exists.mp h
    obtain ⟨hmem, hkey⟩ := Keyed.row_some _ he
    exact List.mem_filterMap.mpr ⟨e, hmem, by simp [hkey]⟩

theorem readDir_rooted {n : Node} {path : Text} {q : List Text} (h : Rooted n path q) :
    n.readDir path = some (n.disk.children q) := by
  rw [Node.readDir, h.leads]
  simp only [h.dir, if_true]

/-! ## The log with one version more -/

def Log.add (log : Log) (name : Text) (e : Version × Bytes) : Log := Function.update log name (log name ++ [e])

theorem add_prefix (log : Log) (name : Text) (e : Version × Bytes) (name' : Text) : log name' <+: log.add name e name' := by
  by_cases h : name' = name
  · subst h
    rw [Log.add, Function.update_self]
    exact List.prefix_append _ _
  · have hsame : log.add name e name' = log name' := Function.update_of_ne h _ _
    exact hsame ▸ List.prefix_refl _

theorem add_cases {log : Log} {name name' : Text} {e e' : Version × Bytes} {i : Nat} (h : (log.add name e name')[i]? = some e') :
    (log name')[i]? = some e' ∨ name' = name ∧ i = (log name).length ∧ e' = e := by
  by_cases hn : name' = name
  · subst hn
    rw [Log.add, Function.update_self, List.getElem?_append] at h
    split at h
    · exact Or.inl h
    · refine Or.inr ⟨rfl, ?_⟩
      rename_i hlt
      rw [List.getElem?_singleton] at h
      split at h
      · rename_i hzero
        exact ⟨by omega, (Option.some.inj h).symm⟩
      · cases h
  · rw [Log.add, Function.update_of_ne hn] at h
    exact Or.inl h

theorem valid_add {log : Log} (h : Valid log) {name : Text} {e : Version × Bytes} (hname : FileName name)
    (hcount : e.1.2.toNat = (log name).length) (hsized : Sized e.2)
    (hgrows : ∀ e', (log name).getLast? = some e' → e'.2.length ≤ e.2.length) : Valid (log.add name e) := by
  -- no earlier version is longer than the new one
  have hbefore : ∀ (i : Nat) (e' : Version × Bytes), (log name)[i]? = some e' → e'.2.length ≤ e.2.length := by
    intro i e' he'
    obtain ⟨hi, -⟩ := List.getElem?_eq_some_iff.mp he'
    have hne : log name ≠ [] := List.ne_nil_of_length_pos (by omega)
    obtain ⟨l, hl⟩ := Option.isSome_iff_exists.mp (List.getLast?_isSome.mpr hne)
    have hlast : (log name)[(log name).length - 1]? = some l := by rw [← List.getLast?_eq_getElem?]; exact hl
    exact (h.grows name i _ e' l he' hlast (by omega)).trans (hgrows l hl)
  refine ⟨fun name' hne => ?_, fun name' i e' he' => ?_, fun name' i e' he' => ?_, fun name' i j e' e'' he' he'' hij => ?_⟩
  · by_cases hn : name' = name
    · rw [hn]; exact hname
    · rw [Log.add, Function.update_of_ne hn] at hne
      exact h.named name' hne
  · rcases add_cases he' with hold | ⟨-, rfl, rfl⟩
    · exact h.counted name' i e' hold
    · exact hcount
  · rcases add_cases he' with hold | ⟨-, -, rfl⟩
    · exact h.sized name' i e' hold
    · exact hsized
  · rcases add_cases he' with hold | ⟨rfl, rfl, rfl⟩
    · rcases add_cases he'' with hold' | ⟨rfl, -, rfl⟩
      · exact h.grows name' i j e' e'' hold hold' hij
      · exact hbefore i e' hold
    · rcases add_cases he'' with hold' | ⟨-, -, rfl⟩
      · have := (List.getElem?_eq_some_iff.mp hold').choose
        omega
      · exact le_refl _

theorem add_versions {log : Log} {name name' : Text} {e : Version × Bytes} {k : Nat} (h : k ≤ (log name').length) :
    (log.add name e).versions name' k = log.versions name' k := by
  obtain ⟨t, ht⟩ := add_prefix log name e name'
  rw [Log.versions, Log.versions, ← ht, List.take_append_of_le_length h]

theorem Holds.add {log : Log} {name' : Text} {e' : Version × Bytes} {k : Nat} {r : Rec}
    (h : Holds sha256 log name' k e' r) (name : Text) (e : Version × Bytes) (he' : (log name')[k]? = some e') :
    Holds sha256 (log.add name e) name' k e' r ∧ (log.add name e name')[k]? = some e' := by
  have hlt := (List.getElem?_eq_some_iff.mp he').choose
  refine ⟨⟨by rw [add_versions hlt]; exact h.versions, h.blocks, h.hash⟩, ?_⟩
  obtain ⟨t, ht⟩ := add_prefix log name e name'
  rw [← ht, List.getElem?_append_left hlt]
  exact he'

/-- A node that shows the log to some depth shows the longer one to the same. -/
theorem Shows.add {n : Node} {folder : Text} {q : List Text} {log : Log} {d : Text → Nat} (h : Shows sha256 n folder q log d)
    (name : Text) (e : Version × Bytes) : Shows sha256 n folder q (log.add name e) d := by
  refine ⟨h.single, h.without, fun name' k hk => ?_⟩
  obtain ⟨e', r, he', hlook, hholds, hsynced, hentry⟩ := h.upTo name' k hk
  obtain ⟨hholds', hadd⟩ := hholds.add name e he'
  exact ⟨e', r, hadd, hlook, hholds', hsynced, hentry⟩

/-! ## A save -/

/-- The user writes a file of the folder, and the folder is indexed. -/
def save (sha256 : Bytes → Bytes) (folder : Text) (place : List Text) (name : Text) (c : Bytes) (n : Node) : Node :=
  let n' := { n with disk := n.disk.setFile (place ++ [name]) c }
  match n.store.getSyncDirectory folder with
  | some dir => (run nodeDo (generateIndex sha256 dir) n').1
  | none => n'

/-- The contents the user saves, over the newest version or as a first one. -/
structure Saves (sha256 : Bytes → Bytes) (n : Node) (place : List Text) (name : Text) (c : Bytes) : Prop where
  named : FileName name
  sized : Sized c
  grows : (entryBytes n place name).length ≤ c.length
  differs : (entry n place name).isSome = true → sha256 c ≠ sha256 (entryBytes n place name)

/-- The next version of a file. -/
def next (n : Node) (log : Log) (name : Text) (c : Bytes) : Version × Bytes :=
  ((n.store.shortId, UInt64.ofNat (log name).length), c)

def deeper (log : Log) (d : Text → Nat) (name : Text) : Text → Nat := Function.update d name ((log name).length + 1)

section

variable {n : Node} {dir : SyncDirectory} {path : Text} {q : List Text} {log : Log} {d : Text → Nat} {name : Text} {c : Bytes}

theorem toNat_next (hcount : (log name).length < 2 ^ 64) : (next n log name c).1.2.toNat = (log name).length := by
  show (UInt64.ofNat _).toNat = _
  rw [UInt64.toNat_ofNat', Nat.mod_eq_of_lt hcount]

theorem versions_next (e : Version × Bytes) :
    (log.add name e).versions name ((log name).length + 1) = log.versions name (log name).length ++ [e.1] := by
  rw [Log.versions, Log.versions, Log.add, Function.update_self, List.take_length,
    List.take_of_length_le (by rw [List.length_append, List.length_singleton]), List.map_append, List.map_singleton]

theorem sized_bounds (hc : Sized c) : 0 < c.length ∧ c.length < 2 ^ 32 := by
  have hlt := hc.1
  refine ⟨Nat.pos_of_ne_zero fun h0 => hc.2 (by rw [h0]; exact Nat.dvd_zero _), by omega⟩

theorem Shows.noDir (h : Shows sha256 n dir.id q log d) (name : Text) : entry n q name ≠ some .dir := by
  rcases hd : d name with _ | k
  · rw [(h.without name hd).2]; simp
  · obtain ⟨e, -, -, -, -, -, hentry⟩ := h.upTo name k hd
    rw [hentry]; simp

/-- The user wrote the file, and the folder is not indexed yet. -/
structure Written (n n₀ : Node) (path : Text) (q : List Text) (name : Text) (c : Bytes) : Prop where
  rooted : Rooted n₀ path q
  store : n₀.store = n.store
  self : entry n₀ q name = some (.file c)
  beside : ∀ name', name' ≠ name → entry n₀ q name' = entry n q name'

section Written

variable {n₀ : Node}

theorem Written.contents_eq (h : Written n n₀ path q name c) {file : Text} {data : Bytes} (hfile : FileName file)
    (hentry : entry n₀ q file = some (.file data)) : contents n₀ path file = data := by
  rw [contents, (readFile_entry h.rooted hfile).mpr hentry]
  rfl

/-- A file of the directory is the one that was written, or one that is shown. -/
theorem Written.file_cases (h : Written n n₀ path q name c) (hshows : Shows sha256 n dir.id q log d) {file : Text}
    (hfile : file ∈ n₀.disk.children q) : file = name ∨ ∃ k e r, (log file)[k]? = some e ∧
      n.store.lookup dir.id file = some r ∧ Holds sha256 log file k e r ∧ entry n₀ q file = some (.file e.2) := by
  by_cases hne : file = name
  · exact Or.inl hne
  · refine Or.inr ?_
    have hsome := mem_children_iff.mp hfile
    rw [h.beside file hne] at hsome
    obtain ⟨k, hk⟩ : ∃ k, d file = k + 1 := by
      refine Nat.exists_eq_succ_of_ne_zero fun h0 => ?_
      rw [(hshows.without file h0).2] at hsome
      cases hsome
    obtain ⟨e, r, he, hlook, hholds, -, hentry⟩ := hshows.upTo file k hk
    exact ⟨k, e, r, he, hlook, hholds, (h.beside file hne).trans hentry⟩

theorem Written.regular (h : Written n n₀ path q name c) (hvalid : Valid log) (hshows : Shows sha256 n dir.id q log d)
    (hsave : Saves sha256 n q name c) : ∀ file ∈ n₀.disk.children q,
      ∃ data, n₀.readFile (push path file) = some data ∧ 0 < data.length ∧ data.length < 2 ^ 32 := by
  intro file hfile
  have hnamed := readDir_named (readDir_rooted h.rooted) hfile
  rcases h.file_cases hshows hfile with rfl | ⟨k, e, -, he, -, -, hentry⟩
  · exact ⟨c, (readFile_entry h.rooted hnamed).mpr h.self, sized_bounds hsave.sized⟩
  · exact ⟨e.2, (readFile_entry h.rooted hnamed).mpr hentry, sized_bounds (hvalid.sized _ _ _ he)⟩

/-- Only the written file has a changed record, and its counter has room. -/
theorem Written.counters (h : Written n n₀ path q name c) (hvalid : Valid log)
    (hsmall : ∀ name, ∀ e ∈ log name, e.2.length < 128 * 1024) (hshows : Shows sha256 n dir.id q log d)
    (hnewest : d name = (log name).length) (hcount : (log name).length < 2 ^ 64 - 1) : ∀ file ∈ n₀.disk.children q, ∀ r,
      n₀.store.lookup dir.id file = some r → sha256 (contents n₀ path file) ≠ r.hash →
      (latest r.versions).toNat < 2 ^ 64 - 1 := by
  intro file hfile r hlook hhash
  rw [h.store] at hlook
  rcases h.file_cases hshows hfile with rfl | ⟨k, e, r', he, hlook', hholds, hentry⟩
  · rcases hd : d file with _ | k
    · rw [(hshows.without file hd).1] at hlook; cases hlook
    · obtain ⟨e, r', he, hlook', hholds, -⟩ := hshows.upTo file k hd
      rw [hlook] at hlook'
      cases hlook'
      have hlatest : latest r.versions = e.1.2 := hholds.latest he
      rw [hlatest, hvalid.counted _ _ _ he]
      omega
  · rw [hlook] at hlook'
    cases hlook'
    rw [h.contents_eq (readDir_named (readDir_rooted h.rooted) hfile) hentry] at hhash
    exact absurd (hholds.hash (hsmall file e (List.mem_of_getElem? he))).symm hhash

/-! ## The records after the run -/

variable {s : Store} {new : List Rec}

/-- The files that get a new record. -/
theorem Indexed.mem_new {files : List Text} (hi : Indexed sha256 n₀ dir path files s new) (file : Text) :
    file ∈ new.map Rec.name ↔ file ∈ files ∧ n₀.store.lookup dir.id file = none := by
  rw [hi.names, untracked, List.mem_filter]
  simp

/-- Another file's record is as it was. -/
theorem Indexed.lookup_beside (h : Written n n₀ path q name c) (hi : Indexed sha256 n₀ dir path (n₀.disk.children q) s new)
    (hvalid : Valid log) (hsmall : ∀ name, ∀ e ∈ log name, e.2.length < 128 * 1024) (hshows : Shows sha256 n dir.id q log d)
    {name' : Text} (hne : name' ≠ name) : s.lookup dir.id name' = n.store.lookup dir.id name' := by
  have hrevised := hi.revised
  rw [h.store] at hrevised
  rcases hd : d name' with _ | k
  · obtain ⟨hlook, hentry⟩ := hshows.without name' hd
    refine (hrevised.lookup_none hlook fun hmem => ?_).trans hlook.symm
    have hsome := mem_children_iff.mp ((hi.mem_new name').mp hmem).1
    rw [h.beside name' hne, hentry] at hsome
    cases hsome
  · obtain ⟨e, r, he, hlook, hholds, -, hentry⟩ := hshows.upTo name' k hd
    have hname : r.name = name' := (n.store.lookup_some hlook).2.2
    have hnamed := hvalid.named _ (List.ne_nil_of_mem (List.mem_of_getElem? he))
    have hup : rescanned sha256 n₀ n.store dir.id path n.store.shortId (n₀.disk.children q) r = r := by
      refine if_neg fun hboth => hboth.2.2.2 ?_
      rw [hname, h.contents_eq hnamed ((h.beside name' hne).trans hentry)]
      exact (hholds.hash (hsmall name' e (List.mem_of_getElem? he))).symm
    have hlook' := hrevised.lookup_old hlook
    rw [hup] at hlook'
    rw [hlook', hlook]

/-- The written file has one version more. -/
theorem saved_record (h : Written n n₀ path q name c) (hi : Indexed sha256 n₀ dir path (n₀.disk.children q) s new)
    (hvalid : Valid log) (hsmall : ∀ name, ∀ e ∈ log name, e.2.length < 128 * 1024) (hshows : Shows sha256 n dir.id q log d)
    (hsave : Saves sha256 n q name c) (hnewest : d name = (log name).length) (hcount : (log name).length < 2 ^ 64 - 1) :
    ∃ r, s.lookup dir.id name = some r ∧
      Holds sha256 (log.add name (next n log name c)) name (log name).length (next n log name c) r ∧
      r.synced = (next n log name c).1.2 := by
  have hrevised := hi.revised
  rw [h.store] at hrevised
  obtain ⟨bs, hbs, -⟩ := Transfer.covers_blocksOf sha256 hsave.sized.1 hsave.sized.2
  have hgetD : (blocksOf sha256 c).getD [] = bs := by rw [hbs]; rfl
  have hversions := @versions_next log name (next n log name c)
  have hcontents := h.contents_eq hsave.named h.self
  have hin : name ∈ n₀.disk.children q := mem_children_iff.mpr (by rw [h.self]; rfl)
  rcases hd : d name with _ | j
  · -- the first version
    have hzero : (log name).length = 0 := by omega
    have hnone : n₀.store.lookup dir.id name = none := by rw [h.store]; exact (hshows.without name hd).1
    obtain ⟨r, hr, hname⟩ := List.mem_map.mp ((hi.mem_new name).mpr ⟨hin, hnone⟩)
    have hcreated := hi.created r hr
    rw [hname, hcontents, h.store] at hcreated
    have hlook := hrevised.lookup_new hr
    rw [hname] at hlook
    have hnil : log.versions name 0 = [] := rfl
    refine ⟨r, hlook, ⟨?_, ?_, fun _ => by rw [hcreated]; rfl⟩, ?_⟩
    · rw [hversions, hcreated, hzero, hnil, List.nil_append]
      simp only [created, next, hzero]
      rfl
    · rw [hcreated]
      simp only [created, hgetD]
      exact hbs
    · rw [hcreated]
      simp only [created, next, hzero]
      rfl
  · -- the next version of the record
    obtain ⟨e, r, he, hlook, hholds, hsynced, hentry⟩ := hshows.upTo name j hd
    have hname : r.name = name := (n.store.lookup_some hlook).2.2
    have hold : r.hash = sha256 e.2 := hholds.hash (hsmall name e (List.mem_of_getElem? he))
    have hlatest : latest r.versions = e.1.2 := hholds.latest he
    have hdiff := hsave.differs (by rw [hentry]; rfl)
    rw [entryBytes_file hentry, ← hold] at hdiff
    have hup : rescanned sha256 n₀ n.store dir.id path n.store.shortId (n₀.disk.children q) r =
        edited sha256 n.store.shortId c r := by
      rw [rescanned, hname, hcontents]
      exact if_pos ⟨hin, hlook, by rw [hlatest, hsynced]; exact UInt64.le_refl _, hdiff⟩
    have hlook' := hrevised.lookup_old hlook
    rw [hup] at hlook'
    have hversion : latest r.versions + 1 = (next n log name c).1.2 := by
      rw [← UInt64.toNat_inj, toNat_next (by omega), hlatest, UInt64.toNat_add, hvalid.counted _ _ _ he,
        UInt64.toNat_one, Nat.mod_eq_of_lt (by omega)]
      omega
    refine ⟨_, hlook', ⟨?_, ?_, fun _ => rfl⟩, hversion⟩
    · rw [hversions, show (log name).length = j + 1 by omega, ← hholds.versions]
      simp only [edited, hversion]
      rfl
    · simp only [edited, hgetD]
      exact hbs

end Written

/-- The saved file is the only one that `generate_index` finds changed. -/
theorem save_shows (hvalid : Valid log) (hsmall : ∀ name, ∀ e ∈ log name, e.2.length < 128 * 1024)
    (hdir : n.store.getSyncDirectory dir.id = some dir) (hpath : dir.path = some path) (habs : isAbsolute path = true)
    (hrooted : Rooted n path q) (h : Shows sha256 n dir.id q log d) (hsave : Saves sha256 n q name c)
    (hnewest : d name = (log name).length) (hcount : (log name).length < 2 ^ 64 - 1) :
    ∃ s, save sha256 dir.id q name c n = { n with store := s, disk := n.disk.setFile (q ++ [name]) c } ∧
      Wrote n { n with disk := n.disk.setFile (q ++ [name]) c } q name c ∧ Elsewhere dir.id n.store s ∧
      SameFolders n.store s ∧ entry n q name ≠ some .dir ∧
      Shows sha256 { n with store := s, disk := n.disk.setFile (q ++ [name]) c } dir.id q (log.add name (next n log name c))
        (deeper log d name) := by
  have hnoDir := h.noDir name
  have hwrote := wrote_setFile hrooted hsave.named hnoDir c
  obtain ⟨n₀, hn₀⟩ : ∃ n₀ : Node, n₀ = { n with disk := n.disk.setFile (q ++ [name]) c } := ⟨_, rfl⟩
  rw [← hn₀] at hwrote
  have hw : Written n n₀ path q name c := ⟨hwrote.rooted hnoDir hrooted, by rw [hn₀], hwrote.self, fun name' hne =>
    hwrote.beside _ fun he => hne (by simpa using he)⟩
  obtain ⟨s, new, hrun, -, hi⟩ := generateIndex_revised hpath habs (readDir_rooted hw.rooted) (hw.regular hvalid h hsave)
    (hw.counters hvalid hsmall h hnewest hcount)
  have hrevised := hi.revised
  rw [hw.store] at hrevised
  have hsame := hi.same
  rw [hw.store] at hsame
  have hentries : ∀ name', entry { n with store := s, disk := n.disk.setFile (q ++ [name]) c } q name' = entry n₀ q name' := by
    rw [hn₀]
    exact fun _ => rfl
  have hbeside : ∀ {name'}, name' ≠ name →
      deeper log d name name' = d name' ∧ s.lookup dir.id name' = n.store.lookup dir.id name' :=
    fun hne => ⟨Function.update_of_ne hne _ _, hi.lookup_beside hw hvalid hsmall h hne⟩
  refine ⟨s, ?_, by rw [← hn₀]; exact hwrote, hrevised.elsewhere, hsame, hnoDir, hrevised.single h.single,
    fun name' h0 => ?_, fun name' k hk => ?_⟩
  · simp only [save, hdir, ← hn₀, hrun]
    rw [hn₀]
  · have hne : name' ≠ name := by
      rintro rfl
      rw [deeper, Function.update_self] at h0
      cases h0
    obtain ⟨hdeep, hlook⟩ := hbeside hne
    rw [hdeep] at h0
    rw [hentries, hw.beside name' hne]
    exact ⟨hlook.trans (h.without name' h0).1, (h.without name' h0).2⟩
  · rw [hentries]
    by_cases hne : name' = name
    · subst hne
      rw [deeper, Function.update_self] at hk
      obtain rfl : k = (log name').length := by omega
      obtain ⟨r, hlook, hholds, hsynced⟩ := saved_record hw hi hvalid hsmall h hsave hnewest hcount
      refine ⟨_, r, ?_, hlook, hholds, hsynced, hw.self⟩
      rw [Log.add, Function.update_self, List.getElem?_concat_length]
    · -- another file of the folder is as it was
      obtain ⟨hdeep, hlook⟩ := hbeside hne
      rw [hdeep] at hk
      rw [hlook, hw.beside name' hne]
      exact (h.add name (next n log name c)).upTo name' k hk

end

end BepRs.Relay
