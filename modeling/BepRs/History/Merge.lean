/-
  BepRs.History.Merge — what `handle_index` does to a folder's records.

  A received file of a name is a candidate for the name's record (`received`): its blocks'
  first hash as the file's, its counters as the history, the synced version kept. On
  histories that are prefixes of one another a pass of the loop keeps the longer of the
  stored record and the candidate (`mergeFile_longest`); so does a message, for each of
  its names (`mergeFiles_longest`), and a sequence of messages keeps the longest of all
  (`handleAll_longest`), which depends on neither their order nor their repetition:
  - `merge_join`.

  Histories that are not prefixes of one another are compared by length all the same:
  - `replaced_iff`: exactly when a pass replaces a record's contents only by those of a
    history that extends the stored one; it does not in `replaced_by_divergent`.
-/

import BepRs.History.Network
import BepRs.Sync.Merge

namespace BepRs.History

open BepRs.Lib BepRs.Lib.Path BepRs.Lib.Task BepRs.State BepRs.Sync

def anon (r : Rec) : Rec := { r with id := 0 }

/-- The record of a received file. -/
def received (dirId : Text) (synced : UInt64) (file : FileInfo) : Option Rec := do
  let first ← file.blocks.head?
  let counters ← file.version
  some
    { id := 0, folder := dirId, name := file.name, hash := first.hash, modifiedBy := file.modifiedBy, synced := synced,
      versions := counters.map Counter.version,
      blocks := Tables.sortBlocks (file.blocks.map BlockInfo.syncBlock) }

def depth (r : Option Rec) : Nat := (r.map fun r => r.versions.length).getD 0

@[simp] theorem depth_none : depth none = 0 := rfl
@[simp] theorem depth_some (r : Rec) : depth (some r) = r.versions.length := rfl

/-! ## One pass of the loop -/

/-- A file as the messages here carry it: a normal name, blocks and counters. -/
structure Filled (file : FileInfo) : Prop where
  name : normal file.name = file.name
  blocks : file.blocks ≠ []
  version : ∃ cs, file.version = some cs ∧ cs ≠ []

def syncedOf (r : Option Rec) : UInt64 := (r.map Rec.synced).getD 0

section Pass

variable {s : Store} {dir : SyncDirectory}

structure Wrote (s s' : Store) (dirId name : Text) (x : Rec) : Prop where
  single : s'.Single dirId
  lookup : (s'.lookup dirId name).map anon = some x
  others : ∀ b, b ≠ name → s'.lookup dirId b = s.lookup dirId b
  elsewhere : s'.records.filter (·.folder ≠ dirId) = s.records.filter (·.folder ≠ dirId)

/-- An update of a name's own record, or of a new one for a name without one. -/
theorem wrote_updateSyncFile (hs : s.Single dir.id) {f : SyncFile} {name : Text} (hname : f.getName = name)
    (hv : f.versions ≠ [])
    (hrow : f.id = none ∧ s.lookup dir.id name = none ∨ ∃ r, s.lookup dir.id name = some r ∧ f.id = some r.id) :
    Wrote s (s.updateSyncFile dir f).1 dir.id name (anon (Rec.write (s.lookup dir.id name) (s.target f) dir f)) := by
  -- Either way the row written is the name's, and it is what was looked up.
  have hstored : s.stored f = s.lookup dir.id name := by
    rcases hrow with ⟨hid, hl⟩ | ⟨r, hl, hid⟩
    · rw [hl]; exact s.stored_new hid
    · rw [hl]; exact (s.stored_of_mem (s.lookup_some hl).1 hid).2
  have howner : ∀ r, s.stored f = some r → r.folder = dir.id ∧ r.name = name := by
    intro r hr
    rw [hstored] at hr
    exact (s.lookup_some hr).2
  refine ⟨hs.update dir fun r hr hf hn => ?_, ?_, fun b hb => ?_, ?_⟩
  · have hl : s.lookup dir.id name = some r := by rw [← hname, ← hn]; exact hs.lookup hr hf
    rw [← hstored] at hl
    exact (Keyed.row_some _ hl).2
  · rcases hrow with ⟨hid, hl⟩ | ⟨r, hl, hid⟩
    · rw [s.lookup_added hl hid hname hv, hl]; rfl
    · rw [s.lookup_over hl hid hname hv, hl]; rfl
  · refine s.lookup_beside (fun h => hb ?_) fun r hr h => hb ?_
    · rw [← h.2, hname]
    · rw [← h.2, (howner r hr).2]
  · rw [s.records_updateSyncFile dir hv, Keyed.filter_upsert_of_neg]
    · simp [Rec.write]
    · intro y hy hyid
      have hrow : s.stored f = some y := by
        rw [Store.stored, ← show y.id = s.target f from hyid]; exact Keyed.row_of_mem _ s.records_nodup hy
      simp [(howner y hrow).1]

theorem mergeFile_wrote (hs : s.Single dir.id) {l : List SyncFile} {c : Bool} {file : FileInfo} {f : SyncFile}
    (hin : incoming l file = some (some f)) (hname : f.getName = file.name) (hv : f.versions ≠ [])
    (hret : (s.updateSyncFile dir f).2 = some ())
    (hrow : f.id = none ∧ s.lookup dir.id file.name = none ∨ ∃ r, s.lookup dir.id file.name = some r ∧ f.id = some r.id) :
    ∃ m, mergeFile dir file ⟨s, l, c⟩ = (m, some ()) ∧
      Wrote s m.store dir.id file.name (anon (Rec.write (s.lookup dir.id file.name) (s.target f) dir f)) ∧
      ∀ b, b ≠ file.name → m.localindex.find? (fun x => x.getName = b) = l.find? fun x => x.getName = b := by
  refine ⟨⟨(s.updateSyncFile dir f).1, setFirst (fun x => x.getName = file.name) f l, true⟩, ?_,
    wrote_updateSyncFile hs hname hv hrow, fun b hb => ?_⟩
  · simp only [mergeFile, hin, hret]
  · exact find?_name_setFirst hname (Ne.symm hb) l

/-- A pass on a filled file whose history is a prefix of the stored one, or the other way
    round: the name's record becomes the longer of the stored one and the candidate. -/
theorem mergeFile_longest (hs : s.Single dir.id) {l : List SyncFile} {c : Bool} {file : FileInfo} (hfile : Filled file)
    (hl : l.find? (fun x => x.getName = file.name) = (s.lookup dir.id file.name).map Rec.file)
    (hchain : ∀ r cs, s.lookup dir.id file.name = some r → file.version = some cs →
      r.versions <+: cs.map Counter.version ∨ cs.map Counter.version <+: r.versions) :
    ∃ m, mergeFile dir file ⟨s, l, c⟩ = (m, some ()) ∧ m.store.Single dir.id ∧
      (m.store.lookup dir.id file.name).map anon =
        Chain.longest depth ((s.lookup dir.id file.name).map anon)
          (received dir.id (syncedOf (s.lookup dir.id file.name)) file) ∧
      (∀ b, b ≠ file.name → m.store.lookup dir.id b = s.lookup dir.id b ∧
        m.localindex.find? (fun x => x.getName = b) = l.find? fun x => x.getName = b) ∧
      m.store.records.filter (·.folder ≠ dir.id) = s.records.filter (·.folder ≠ dir.id) := by
  obtain ⟨cs, hcs, hne⟩ := hfile.version
  obtain ⟨first, hfirst⟩ : ∃ b, file.blocks.head? = some b := ⟨_, List.head?_eq_some_head hfile.blocks⟩
  cases hlook : s.lookup dir.id file.name with
  | none =>
    let f : SyncFile :=
      { id := none, path := file.name, hash := first.hash, modifiedBy := file.modifiedBy, syncedVersion := 0,
        versions := cs.map Counter.version, blocks := file.blocks.map BlockInfo.syncBlock }
    have hin : incoming l file = some (some f) := by simp [incoming, hl, hlook, hfirst, hcs, f]
    have hname : f.getName = file.name := (getName_eq f).trans hfile.name
    have hv : f.versions ≠ [] := by simpa [f] using hne
    have hret : (s.updateSyncFile dir f).2 = some () := by
      rw [s.updateSyncFile_returns dir hv, Store.storedCount, s.stored_new rfl]; simp
    obtain ⟨m, hm, hw, hlocal⟩ := mergeFile_wrote (c := c) hs hin hname hv hret (Or.inl ⟨rfl, hlook⟩)
    refine ⟨m, hm, hw.single, ?_, fun b hb => ⟨hw.others b hb, hlocal b hb⟩, hw.elsewhere⟩
    have hlen : 0 < cs.length := List.length_pos_iff.mpr hne
    have hrec : anon (Rec.write none (s.target f) dir f) =
        { id := 0, folder := dir.id, name := file.name, hash := first.hash, modifiedBy := file.modifiedBy, synced := 0,
          versions := cs.map Counter.version, blocks := Tables.sortBlocks (file.blocks.map BlockInfo.syncBlock) } := by
      simp [anon, Rec.write, hname, f, hfile.blocks]
    rw [hw.lookup, hlook, hrec]
    simp [Chain.longest, depth, received, hfirst, hcs, syncedOf, hlen]
  | some r =>
    obtain ⟨hr, hrf, hrn⟩ := s.lookup_some hlook
    by_cases hlen : r.versions.length ≥ cs.length
    · have hin : incoming l file = some none := by simp [incoming, hl, hlook, hcs, Rec.file, hlen]
      refine ⟨⟨s, l, c⟩, by simp only [mergeFile, hin], hs, ?_, fun b _ => ⟨rfl, rfl⟩, rfl⟩
      rw [hlook, Option.map_some, Chain.longest, if_neg]
      simp [depth, anon, received, hfirst, hcs, hlen]
    · let f : SyncFile :=
        { r.file with
          versions := cs.map Counter.version, hash := first.hash
          blocks := file.blocks.map BlockInfo.syncBlock, modifiedBy := file.modifiedBy }
      have hin : incoming l file = some (some f) := by
        simp only [incoming, hl, hlook, Option.map_some, hcs, Option.bind_eq_bind, Option.bind_some, hfirst]
        rw [if_neg (by simpa [Rec.file] using hlen)]
      have hname : f.getName = file.name := by
        rw [getName_eq]; show normal r.name = _; rw [s.name_normal hr, hrn]
      have hv : f.versions ≠ [] := by simpa [f] using hne
      have hst := (s.stored_of_mem hr (f := f) rfl).2
      have hret : (s.updateSyncFile dir f).2 = some () := by
        rw [s.updateSyncFile_returns dir hv, Store.storedCount, hst, if_neg]
        simp [f]; omega
      obtain ⟨m, hm, hw, hlocal⟩ := mergeFile_wrote (c := c) hs hin hname hv hret (Or.inr ⟨r, hlook, rfl⟩)
      refine ⟨m, hm, hw.single, ?_, fun b hb => ⟨hw.others b hb, hlocal b hb⟩, hw.elsewhere⟩
      have hpre : r.versions <+: cs.map Counter.version := by
        rcases hchain r cs hlook hcs with h | h
        · exact h
        · have := h.length_le; rw [List.length_map] at this; omega
      have hrec : anon (Rec.write (some r) (s.target f) dir f) =
          { id := 0, folder := dir.id, name := file.name, hash := first.hash, modifiedBy := file.modifiedBy,
            synced := r.synced, versions := cs.map Counter.version,
            blocks := Tables.sortBlocks (file.blocks.map BlockInfo.syncBlock) } := by
        have hlt : ¬ cs.length < r.versions.length := by omega
        simpa [anon, Rec.write, f, hfile.blocks, Chain.extend_eq_iff.mpr hpre, hlt, Rec.file] using hname
      rw [hw.lookup, hlook, hrec]
      have hlonger : r.versions.length < cs.length := by omega
      simp [Chain.longest, depth, received, hfirst, hcs, syncedOf, anon, hlonger]

/-! ## A message, and a sequence of messages -/

/-- The candidate a message has for a name, if it has one. -/
def announced (dirId : Text) (synced : UInt64) (files : List FileInfo) (name : Text) : Option Rec :=
  (files.find? (·.name = name)).bind (received dirId synced)

@[simp] theorem longest_depth_none (a : Option Rec) : Chain.longest depth a none = a := by
  simp [Chain.longest, depth]

theorem mergeFiles_longest : ∀ {files : List FileInfo} {s : Store} {l : List SyncFile} {c : Bool},
    s.Single dir.id → (∀ file ∈ files, Filled file) → (files.map FileInfo.name).Nodup →
    (∀ file ∈ files, l.find? (fun x => x.getName = file.name) = (s.lookup dir.id file.name).map Rec.file) →
    (∀ file ∈ files, ∀ r cs, s.lookup dir.id file.name = some r → file.version = some cs →
      r.versions <+: cs.map Counter.version ∨ cs.map Counter.version <+: r.versions) →
    ∃ m, mergeFiles dir files ⟨s, l, c⟩ = (m, some ()) ∧ m.store.Single dir.id ∧
      (∀ name, (m.store.lookup dir.id name).map anon = Chain.longest depth ((s.lookup dir.id name).map anon)
        (announced dir.id (syncedOf (s.lookup dir.id name)) files name)) ∧
      m.store.records.filter (·.folder ≠ dir.id) = s.records.filter (·.folder ≠ dir.id) := by
  intro files
  induction files with
  | nil =>
    intro s l c hs _ _ _ _
    exact ⟨⟨s, l, c⟩, rfl, hs, fun name => (longest_depth_none _).symm, rfl⟩
  | cons file files ih =>
    intro s l c hs hfilled hnd hl hchain
    simp only [List.map_cons, List.nodup_cons] at hnd
    obtain ⟨m, hm, hsm, hself, hothers, helse⟩ := mergeFile_longest (c := c) hs (hfilled file List.mem_cons_self)
      (hl file List.mem_cons_self) (hchain file List.mem_cons_self)
    have hne : ∀ g ∈ files, g.name ≠ file.name := fun g hg h => hnd.1 (h ▸ List.mem_map_of_mem hg)
    obtain ⟨m', hm', hsm', hall, helse'⟩ := ih (s := m.store) (l := m.localindex) (c := m.changed) hsm
      (fun g hg => hfilled g (List.mem_cons_of_mem _ hg)) hnd.2
      (fun g hg => by
        rw [(hothers g.name (hne g hg)).1, (hothers g.name (hne g hg)).2]
        exact hl g (List.mem_cons_of_mem _ hg))
      (fun g hg => by
        rw [(hothers g.name (hne g hg)).1]
        exact hchain g (List.mem_cons_of_mem _ hg))
    refine ⟨m', by rw [mergeFiles, hm]; exact hm', hsm', fun name => ?_, helse'.trans helse⟩
    rw [hall name]
    by_cases hn : file.name = name
    · subst hn
      have hrest : files.find? (·.name = file.name) = none := by
        rw [List.find?_eq_none]; intro g hg; simpa using hne g hg
      have hnone : ∀ u, announced dir.id u files file.name = none := fun u => by simp [announced, hrest]
      rw [hnone, longest_depth_none, hself]
      simp [announced]
    · rw [(hothers name (Ne.symm hn)).1]
      simp [announced, hn]

end Pass

def handleAll (folder : Text) (msgs : List (List FileInfo)) (n : Node) : Node :=
  msgs.foldl (fun n files => (run nodeDo (handleIndex folder files) n).1) n

theorem received_some {dirId : Text} {u : UInt64} {file : FileInfo} {x : Rec} (h : received dirId u file = some x) :
    ∃ b cs, file.blocks.head? = some b ∧ file.version = some cs ∧
      x = ⟨0, dirId, file.name, b.hash, file.modifiedBy, u, cs.map Counter.version,
        Tables.sortBlocks (file.blocks.map BlockInfo.syncBlock)⟩ := by
  unfold received at h
  cases hb : file.blocks.head? with
  | none => rw [hb] at h; cases h
  | some b =>
    cases hv : file.version with
    | none => rw [hb, hv] at h; cases h
    | some cs => rw [hb, hv] at h; exact ⟨b, cs, rfl, rfl, (Option.some.inj h).symm⟩

theorem announced_some {dirId : Text} {u : UInt64} {files : List FileInfo} {name : Text} {x : Rec}
    (h : announced dirId u files name = some x) : ∃ file ∈ files, file.name = name ∧ received dirId u file = some x := by
  obtain ⟨file, hfind, hx⟩ := Option.bind_eq_some_iff.mp h
  exact ⟨file, List.mem_of_find?_eq_some hfind, by simpa using List.find?_some hfind, hx⟩

/-- What a message leaves for a name is what was there or a file of the message. -/
theorem longest_cases {a b x : Option Rec} (h : x = Chain.longest depth a b) : x = a ∨ x = b ∧ b ≠ none := by
  unfold Chain.longest at h
  split at h
  · refine Or.inr ⟨h, ?_⟩
    rintro rfl
    simp [depth] at *
  · exact Or.inl h

theorem syncedOf_longest {dirId : Text} {a x : Option Rec} {files : List FileInfo} {name : Text}
    (h : x.map anon = Chain.longest depth (a.map anon) (announced dirId (syncedOf a) files name)) :
    syncedOf x = syncedOf a := by
  have hanon : ∀ y : Option Rec, syncedOf (y.map anon) = syncedOf y := fun y => by cases y <;> rfl
  rcases longest_cases h with h | ⟨h, hne⟩
  · rw [← hanon x, h, hanon a]
  · obtain ⟨y, hy⟩ := Option.ne_none_iff_exists'.mp hne
    obtain ⟨file, -, -, hrec⟩ := announced_some hy
    obtain ⟨b, cs, -, -, rfl⟩ := received_some hrec
    rw [← hanon x, h, hy]; rfl

/-- A sequence of messages whose histories of a name, with the stored one, are prefixes of
    one another (`H`) leaves for each name the longest. -/
theorem handleAll_longest {H : Text → List Version → Prop}
    (hchain : ∀ name vs vs', H name vs → H name vs' → vs <+: vs' ∨ vs' <+: vs) {folder : Text} {dir : SyncDirectory} :
    ∀ (msgs : List (List FileInfo)) (n : Node), n.store.getSyncDirectory folder = some dir → n.store.Single dir.id →
      (∀ name r, n.store.lookup dir.id name = some r → H name r.versions) →
      (∀ files ∈ msgs, (files.map FileInfo.name).Nodup ∧ ∀ file ∈ files, Filled file ∧
        ∀ cs, file.version = some cs → H file.name (cs.map Counter.version)) →
      (handleAll folder msgs n).store.Single dir.id ∧
      (∀ name, ((handleAll folder msgs n).store.lookup dir.id name).map anon =
        (msgs.map fun files => announced dir.id (syncedOf (n.store.lookup dir.id name)) files name).foldl
          (Chain.longest depth) ((n.store.lookup dir.id name).map anon)) ∧
      (handleAll folder msgs n).store.records.filter (·.folder ≠ dir.id) =
        n.store.records.filter (·.folder ≠ dir.id) := by
  intro msgs
  induction msgs with
  | nil => intro n _ hs _ _; exact ⟨hs, fun _ => rfl, rfl⟩
  | cons files msgs ih =>
    intro n hdir hs hH hmsgs
    obtain ⟨hnd, hfiles⟩ := hmsgs files List.mem_cons_self
    obtain ⟨m, hm, hsm, hlook, helse⟩ := mergeFiles_longest (c := false) hs (fun file hf => (hfiles file hf).1) hnd
      (fun file _ => n.store.find?_index dir.id file.name)
      (fun file hf r cs hr hcs => hchain file.name _ _ (hH _ r hr) ((hfiles file hf).2 cs hcs))
    have hstore : (run nodeDo (handleIndex folder files) n).1.store = m.store := by
      rw [(run_handleIndex_store hdir files).1, Merging.start, hm]
    have hfolders : m.store.folders = n.store.folders := by
      have := mergeFiles_folders dir files ⟨n.store, n.store.index dir.id, false⟩
      rwa [hm] at this
    have hH' : ∀ name r, m.store.lookup dir.id name = some r → H name r.versions := by
      intro name r hr
      have hlong := hlook name
      rw [hr, Option.map_some] at hlong
      rcases longest_cases hlong with h | ⟨h, -⟩
      · obtain ⟨r', hr', he⟩ := Option.map_eq_some_iff.mp h.symm
        show H name (anon r).versions
        rw [← he]; exact hH name r' hr'
      · obtain ⟨file, hf, hn, hrec⟩ := announced_some h.symm
        obtain ⟨b, cs, -, hcs, he⟩ := received_some hrec
        show H name (anon r).versions
        rw [he, ← hn]; exact (hfiles file hf).2 cs hcs
    obtain ⟨h1, h2, h3⟩ := ih (run nodeDo (handleIndex folder files) n).1
      (by rw [hstore, Tables.getSyncDirectory, Tables.getSyncDirectories, hfolders]; exact hdir) (by rw [hstore]; exact hsm)
      (by rw [hstore]; exact hH') (fun f hf => hmsgs f (List.mem_cons_of_mem _ hf))
    refine ⟨h1, fun name => ?_, by rw [hstore] at h3; exact h3.trans helse⟩
    rw [hstore] at h2
    rw [List.map_cons, List.foldl_cons, ← hlook name, ← syncedOf_longest (hlook name)]
    exact h2 name

/-! ## The join -/

/-- The histories of a name: the stored one and those of the messages. -/
def Heard (s : Store) (folder : Text) (msgs : List (List FileInfo)) (name : Text) (vs : List Version) : Prop :=
  (∃ r ∈ s.records, r.folder = folder ∧ r.name = name ∧ r.versions = vs) ∨
    ∃ files ∈ msgs, ∃ file ∈ files, file.name = name ∧ ∃ cs, file.version = some cs ∧ cs.map Counter.version = vs

structure Mergeable (s : Store) (folder : Text) (msgs : List (List FileInfo)) : Prop where
  single : s.Single folder
  names : ∀ files ∈ msgs, (files.map FileInfo.name).Nodup
  filled : ∀ files ∈ msgs, ∀ file ∈ files, Filled file
  chain : ∀ name vs vs', Heard s folder msgs name vs → Heard s folder msgs name vs' → vs <+: vs' ∨ vs' <+: vs
  same : ∀ files ∈ msgs, ∀ file ∈ files, ∀ files' ∈ msgs, ∀ file' ∈ files', file.name = file'.name →
    file.version = file'.version → file.blocks = file'.blocks ∧ file.modifiedBy = file'.modifiedBy

/-- What may become the record of a name: the stored one, or a file of a message with the
    stored synced version. -/
def Candidate (s : Store) (folder : Text) (msgs : List (List FileInfo)) (name : Text) (x : Rec) : Prop :=
  (s.lookup folder name).map anon = some x ∨
    ∃ files ∈ msgs, ∃ file ∈ files, file.name = name ∧ received folder (syncedOf (s.lookup folder name)) file = some x

theorem prefix_or_eq_of_length {α : Type} {a b : List α} (h : a <+: b ∨ b <+: a) (hlen : a.length = b.length) : a = b := by
  rcases h with h | h
  · exact h.eq_of_length hlen
  · exact (h.eq_of_length hlen.symm).symm

theorem map_version_inj {cs cs' : List Counter} (h : cs.map Counter.version = cs'.map Counter.version) : cs = cs' := by
  refine List.map_injective_iff.mpr ?_ h
  rintro ⟨a, b⟩ ⟨c, d⟩ h
  simpa [Counter.version] using h

/-- The length of the history tells the messages' files of a name apart. -/
theorem Mergeable.depth_inj {s : Store} {folder : Text} {msgs : List (List FileInfo)} (h : Mergeable s folder msgs)
    {u : UInt64} {name : Text} {x y : Option Rec}
    (hx : x ∈ msgs.map fun files => announced folder u files name)
    (hy : y ∈ msgs.map fun files => announced folder u files name) (hd : depth x = depth y) : x = y := by
  obtain ⟨files, hfs, rfl⟩ := List.mem_map.mp hx
  obtain ⟨files', hfs', rfl⟩ := List.mem_map.mp hy
  -- A file of the message has at least one counter, so no candidate is as deep as none.
  have hpos : ∀ files ∈ msgs, ∀ z, announced folder u files name = some z → 0 < depth (some z) := by
    intro files hfs z hz
    obtain ⟨file, hf, -, hrec⟩ := announced_some hz
    obtain ⟨b, cs, -, hcs, rfl⟩ := received_some hrec
    obtain ⟨cs', hcs', hne⟩ := (h.filled files hfs file hf).version
    rw [hcs] at hcs'
    cases hcs'
    simpa [depth] using List.length_pos_iff.mpr hne
  cases hx' : announced folder u files name with
  | none =>
    cases hy' : announced folder u files' name with
    | none => rfl
    | some y => rw [hx', hy', depth_none] at hd; have := hpos files' hfs' y hy'; omega
  | some x =>
    cases hy' : announced folder u files' name with
    | none => rw [hx', hy', depth_none] at hd; have := hpos files hfs x hx'; omega
    | some y =>
      rw [hx', hy'] at hd
      obtain ⟨file, hf, hn, hrec⟩ := announced_some hx'
      obtain ⟨file', hf', hn', hrec'⟩ := announced_some hy'
      obtain ⟨b, cs, hb, hcs, rfl⟩ := received_some hrec
      obtain ⟨b', cs', hb', hcs', rfl⟩ := received_some hrec'
      have hvs : cs.map Counter.version = cs'.map Counter.version :=
        prefix_or_eq_of_length (h.chain name _ _ (Or.inr ⟨files, hfs, file, hf, hn, cs, hcs, rfl⟩)
          (Or.inr ⟨files', hfs', file', hf', hn', cs', hcs', rfl⟩)) (by simpa [depth] using hd)
      have hv : file.version = file'.version := by rw [hcs, hcs', map_version_inj hvs]
      obtain ⟨hblocks, hmod⟩ := h.same files hfs file hf files' hfs' file' hf' (hn.trans hn'.symm) hv
      rw [hblocks, hb'] at hb
      cases hb
      rw [hvs, hblocks, hmod, hn, hn']

theorem Mergeable.congr {s : Store} {folder : Text} {msgs msgs' : List (List FileInfo)} (h : Mergeable s folder msgs)
    (hset : ∀ files, files ∈ msgs ↔ files ∈ msgs') : Mergeable s folder msgs' := by
  refine ⟨h.single, fun files hf => h.names files ((hset files).mpr hf), fun files hf => h.filled files ((hset files).mpr hf),
    fun name vs vs' hv hv' => h.chain name vs vs' ?_ ?_,
    fun f hf x hx f' hf' => h.same f ((hset f).mpr hf) x hx f' ((hset f').mpr hf')⟩
  · simpa only [Heard, hset] using hv
  · simpa only [Heard, hset] using hv'

theorem handleAll_unknown {folder : Text} {n : Node} (h : n.store.getSyncDirectory folder = none) :
    ∀ msgs : List (List FileInfo), handleAll folder msgs n = n := by
  intro msgs
  induction msgs with
  | nil => rfl
  | cons files msgs ih =>
    have hone : (run nodeDo (handleIndex folder files) n).1 = n := by rw [run_handleIndex_unknown h]
    simp only [handleAll, List.foldl_cons, hone] at ih ⊢
    exact ih

theorem mem_map_anon {s : Store} {folder : Text} (hs : s.Single folder) (x : Rec) :
    x ∈ s.records.map anon ↔
      (s.lookup folder x.name).map anon = some x ∧ x.folder = folder ∨
        x ∈ (s.records.filter (·.folder ≠ folder)).map anon := by
  constructor
  · intro hx
    obtain ⟨r, hr, rfl⟩ := List.mem_map.mp hx
    by_cases hf : r.folder = folder
    · refine Or.inl ⟨?_, hf⟩
      show (s.lookup folder r.name).map anon = _
      rw [hs.lookup hr hf]; rfl
    · exact Or.inr (List.mem_map_of_mem (List.mem_filter.mpr ⟨hr, by simpa using hf⟩))
  · rintro (⟨hx, -⟩ | hx)
    · obtain ⟨r, hr, rfl⟩ := Option.map_eq_some_iff.mp hx
      exact List.mem_map_of_mem (s.lookup_some hr).1
    · obtain ⟨r, hr, rfl⟩ := List.mem_map.mp hx
      exact List.mem_map_of_mem (List.mem_filter.mp hr).1

theorem Candidate.heard {s : Store} {folder : Text} {msgs : List (List FileInfo)} {name : Text} {x : Rec}
    (h : Candidate s folder msgs name x) : Heard s folder msgs name x.versions := by
  rcases h with h | ⟨files, hfs, file, hf, hn, h⟩
  · obtain ⟨r, hr, rfl⟩ := Option.map_eq_some_iff.mp h
    obtain ⟨hr, hrf, hrn⟩ := s.lookup_some hr
    exact Or.inl ⟨r, hr, hrf, hrn, rfl⟩
  · obtain ⟨b, cs, -, hcs, rfl⟩ := received_some h
    exact Or.inr ⟨files, hfs, file, hf, hn, cs, hcs, rfl⟩

/-- The longest of the stored record and the messages' candidates is one of them, and
    every one of them is a prefix of it. -/
theorem Mergeable.longest {s : Store} {folder : Text} {msgs : List (List FileInfo)} (h : Mergeable s folder msgs)
    (name : Text) {o : Option Rec}
    (ho : o = (msgs.map fun files => announced folder (syncedOf (s.lookup folder name)) files name).foldl
      (Chain.longest depth) ((s.lookup folder name).map anon)) :
    (∀ x, o = some x → Candidate s folder msgs name x) ∧
      ∀ x, Candidate s folder msgs name x → ∃ y, o = some y ∧ x.versions <+: y.versions := by
  obtain ⟨hfrom, hmax⟩ := Chain.foldl_longest depth
    (msgs.map fun files => announced folder (syncedOf (s.lookup folder name)) files name) ((s.lookup folder name).map anon)
  rw [← ho] at hfrom hmax
  have hcand : ∀ x, o = some x → Candidate s folder msgs name x := by
    rintro x rfl
    rcases hfrom with hx | ⟨hx, -⟩
    · exact Or.inl hx.symm
    · obtain ⟨files, hfs, hx⟩ := List.mem_map.mp hx
      obtain ⟨file, hf, hn, hrec⟩ := announced_some hx
      exact Or.inr ⟨files, hfs, file, hf, hn, hrec⟩
  refine ⟨hcand, fun x hx => ?_⟩
  have hin : some x ∈ (s.lookup folder name).map anon ::
      msgs.map fun files => announced folder (syncedOf (s.lookup folder name)) files name := by
    rcases hx with hx | ⟨files, hfs, file, hf, hn, hrec⟩
    · rw [hx]; exact List.mem_cons_self
    · refine List.mem_cons_of_mem _ (List.mem_map.mpr ⟨files, hfs, ?_⟩)
      obtain ⟨file', hfind⟩ : ∃ file', files.find? (·.name = name) = some file' := by
        cases hfind : files.find? (·.name = name) with
        | none => exact absurd hn (by simpa using List.find?_eq_none.mp hfind file hf)
        | some file' => exact ⟨file', rfl⟩
      have hn' : file'.name = name := by simpa using List.find?_some hfind
      have heq := List.inj_on_of_nodup_map (h.names files hfs) (List.mem_of_find?_eq_some hfind) hf (hn'.trans hn.symm)
      rw [announced, hfind, heq]; exact hrec
  have hle := hmax _ hin
  have hpos : 0 < x.versions.length := by
    refine List.length_pos_iff.mpr ?_
    rcases hx with hx | ⟨files, hfs, file, hf, -, hrec⟩
    · obtain ⟨r, hr, rfl⟩ := Option.map_eq_some_iff.mp hx
      exact (s.versions_ne_nil (s.lookup_some hr).1 : r.versions ≠ [])
    · obtain ⟨b, cs, -, hcs, rfl⟩ := received_some hrec
      obtain ⟨cs', hcs', hne⟩ := (h.filled files hfs file hf).version
      rw [hcs] at hcs'; cases hcs'
      simpa using hne
  cases o with
  | none => rw [depth_none, depth_some] at hle; omega
  | some y =>
    refine ⟨y, rfl, ?_⟩
    rcases h.chain name _ _ hx.heard (hcand y rfl).heard with hp | hp
    · exact hp
    · have heq := hp.eq_of_length_le hle
      exact heq ▸ List.prefix_rfl

/-- Handling the same messages in any order and with any repetition leaves the same
    records, and for each name one: the longest of the stored one and the messages'. -/
theorem merge_join (folder : Text) (n : Node) (msgs msgs' : List (List FileInfo))
    (h : Mergeable n.store folder msgs) (hset : ∀ files, files ∈ msgs ↔ files ∈ msgs') :
    (∀ x, x ∈ (handleAll folder msgs n).store.records.map anon ↔ x ∈ (handleAll folder msgs' n).store.records.map anon) ∧
    ((n.store.getSyncDirectory folder).isSome = true →
      (handleAll folder msgs n).store.Single folder ∧
      ∀ name,
        (∀ r ∈ (handleAll folder msgs n).store.records, r.folder = folder → r.name = name →
          Candidate n.store folder msgs name (anon r) ∧
          ∀ x, Candidate n.store folder msgs name x → x.versions <+: r.versions) ∧
        ((∃ x, Candidate n.store folder msgs name x) →
          ∃ r ∈ (handleAll folder msgs n).store.records, r.folder = folder ∧ r.name = name)) := by
  cases hdir : n.store.getSyncDirectory folder with
  | none =>
    rw [handleAll_unknown hdir, handleAll_unknown hdir]
    exact ⟨fun x => Iff.rfl, fun h => by cases h⟩
  | some dir =>
    have hid := getSyncDirectory_id hdir
    subst hid
    have hmem : ∀ msgs, Mergeable n.store dir.id msgs → _ := fun msgs h =>
      handleAll_longest (H := Heard n.store dir.id msgs) h.chain msgs n hdir h.single
        (fun name r hr => Or.inl ⟨r, (n.store.lookup_some hr).1, (n.store.lookup_some hr).2.1, (n.store.lookup_some hr).2.2, rfl⟩)
        (fun files hfs => ⟨h.names files hfs, fun file hf => ⟨h.filled files hfs file hf,
          fun cs hcs => Or.inr ⟨files, hfs, file, hf, rfl, cs, hcs, rfl⟩⟩⟩)
    obtain ⟨hsingle, hlook, helse⟩ := hmem msgs h
    obtain ⟨hsingle', hlook', helse'⟩ := hmem msgs' (h.congr hset)
    refine ⟨fun x => ?_, fun _ => ⟨hsingle, fun name => ⟨fun r hr hf hn => ?_, fun ⟨x, hx⟩ => ?_⟩⟩⟩
    · -- Both ends hold, name by name, the longest of the same candidates.
      have hsame : ∀ name, ((handleAll dir.id msgs n).store.lookup dir.id name).map anon =
          ((handleAll dir.id msgs' n).store.lookup dir.id name).map anon := by
        intro name
        rw [hlook, hlook']
        refine Chain.foldl_longest_congr depth (fun x => ?_) fun x hx y hy => h.depth_inj hx hy
        simp only [List.mem_map, hset]
      rw [mem_map_anon hsingle, mem_map_anon hsingle', hsame, helse, helse']
    · subst hn
      have hr' := hsingle.lookup hr hf
      obtain ⟨hc, hmax⟩ := h.longest r.name (hlook r.name)
      rw [hr'] at hc hmax
      refine ⟨hc _ rfl, fun x hx => ?_⟩
      obtain ⟨y, hy, hp⟩ := hmax x hx
      cases hy
      exact hp
    · obtain ⟨y, hy, -⟩ := (h.longest name (hlook name)).2 x hx
      obtain ⟨r, hr, -⟩ := Option.map_eq_some_iff.mp hy
      exact ⟨r, Store.lookup_some _ hr⟩

/-- A message of one file, the tests' with a given history. -/
def fileInfo (cs : List Counter) (hash : Bytes) : FileInfo := ⟨['f'], 0, some cs, [⟨0, 11, hash⟩]⟩

def fileInfo2 : FileInfo := fileInfo [⟨7, 0⟩, ⟨9, 1⟩] fileHash2

def fileInfo3 : FileInfo := fileInfo [⟨7, 0⟩, ⟨9, 1⟩, ⟨9, 2⟩] fileHash

theorem mergeable_files : Mergeable fileIndexed.store ['d'] [[fileInfo2], [fileInfo3]] := by
  have hrecs : ∀ r ∈ fileIndexed.store.records, r.versions = [(7, 0)] := by decide +kernel
  have hlen : fileIndexed.store.records.length = 1 := by decide +kernel
  have hfiles : ∀ files ∈ [[fileInfo2], [fileInfo3]], ∀ file ∈ files, file = fileInfo2 ∨ file = fileInfo3 := by decide
  have hheard : ∀ name vs, Heard fileIndexed.store ['d'] [[fileInfo2], [fileInfo3]] name vs →
      vs = [(7, 0)] ∨ vs = [(7, 0), (9, 1)] ∨ vs = [(7, 0), (9, 1), (9, 2)] := by
    rintro name vs (⟨r, hr, -, -, rfl⟩ | ⟨files, hfs, file, hf, -, cs, hcs, rfl⟩)
    · exact Or.inl (hrecs r hr)
    · rcases hfiles files hfs file hf with rfl | rfl <;> cases hcs
      · exact Or.inr (Or.inl rfl)
      · exact Or.inr (Or.inr rfl)
  refine ⟨?_, by decide, fun files hfs file hf => ?_, fun name vs vs' h h' => ?_, ?_⟩
  · obtain ⟨r, hr⟩ := List.length_eq_one_iff.mp hlen
    rw [Store.Single, hr]
    simp
  · rcases hfiles files hfs file hf with rfl | rfl
    · exact ⟨by decide, by decide, _, rfl, by decide⟩
    · exact ⟨by decide, by decide, _, rfl, by decide⟩
  · rcases hheard name vs h with rfl | rfl | rfl <;> rcases hheard name vs' h' with rfl | rfl | rfl <;> decide
  · intro files hfs file hf files' hfs' file' hf' _ hv
    rcases hfiles files hfs file hf with rfl | rfl <;> rcases hfiles files' hfs' file' hf' with rfl | rfl
    · exact ⟨rfl, rfl⟩
    · exact absurd hv (by decide)
    · exact absurd hv (by decide)
    · exact ⟨rfl, rfl⟩

theorem merge_join_files :
    (∀ x, x ∈ (handleAll ['d'] [[fileInfo2], [fileInfo3]] fileIndexed).store.records.map anon ↔
      x ∈ (handleAll ['d'] [[fileInfo3], [fileInfo2], [fileInfo2], [fileInfo3]] fileIndexed).store.records.map anon) ∧
    (handleAll ['d'] [[fileInfo3], [fileInfo2], [fileInfo2], [fileInfo3]] fileIndexed).store.records.map Rec.versions =
      [[(7, 0), (9, 1), (9, 2)]] :=
  ⟨(merge_join ['d'] fileIndexed [[fileInfo2], [fileInfo3]] [[fileInfo3], [fileInfo2], [fileInfo2], [fileInfo3]]
    mergeable_files (fun files => by simp; tauto)).1, by decide +kernel⟩

/-! ## Divergent histories -/

/-- A received file does no harm to a record: it is not taken, or its history extends the
    record's, or it has the contents the record has. -/
def Harmless (r : Rec) (file : FileInfo) : Prop :=
  ∀ cs first, file.version = some cs → file.blocks.head? = some first → r.versions.length < cs.length →
    r.versions <+: cs.map Counter.version ∨
      (first.hash = r.hash ∧ Tables.sortBlocks (file.blocks.map BlockInfo.syncBlock) = r.blocks)

/-- One pass: the record found is as it was, or has the received file's contents. -/
theorem mergeFile_record {dir : SyncDirectory} {m : Merging} (hm : m.Aligned dir) {file : FileInfo} {r : Rec}
    (hr : r ∈ m.store.records)
    (hfind : (m.localindex.find? fun x => x.getName = file.name).map SyncFile.id = some (some r.id)) :
    ((∀ cs first, file.version = some cs → file.blocks.head? = some first → cs.length ≤ r.versions.length) ∧
        (mergeFile dir file m).1.store = m.store) ∨
      ∃ cs first, file.version = some cs ∧ file.blocks.head? = some first ∧ r.versions.length < cs.length ∧
        ∃ r', r'.id = r.id ∧ r'.hash = first.hash ∧
          r'.blocks = Tables.sortBlocks (file.blocks.map BlockInfo.syncBlock) ∧
          (mergeFile dir file m).1.store.records = Keyed.upsert Rec.id r' m.store.records := by
  obtain ⟨x, hx, hxid⟩ := Option.map_eq_some_iff.mp hfind
  obtain ⟨r₁, hr₁, hmir⟩ := hm.mirrors x (List.mem_of_find?_eq_some hx)
  have hr₁r : r₁ = r := List.inj_on_of_nodup_map m.store.records_nodup hr₁ hr (Option.some.inj (hmir.id.symm.trans hxid))
  subst hr₁r
  cases hin : incoming m.localindex file with
  | none =>
    refine Or.inl ⟨fun cs first hcs hfirst => ?_, by simp only [mergeFile, hin]⟩
    simp only [incoming, hx, hcs, hfirst, Option.bind_eq_bind, Option.bind_some] at hin
    split at hin <;> cases hin
  | some w =>
    cases w with
    | none =>
      refine Or.inl ⟨fun cs first hcs hfirst => ?_, by simp only [mergeFile, hin]⟩
      simp only [incoming, hx, hcs, hfirst, Option.bind_eq_bind, Option.bind_some] at hin
      split at hin
      · rename_i hlen; rw [← hmir.length]; exact hlen
      · cases hin
    | some f =>
      obtain ⟨r₂, hr₂, hmir₂, hname, heq, hrecs⟩ := mergeFile_found hm hin hx
      have hr₂r : r₂ = r₁ :=
        List.inj_on_of_nodup_map m.store.records_nodup hr₂ hr (Option.some.inj (hmir₂.id.symm.trans hmir.id))
      subst hr₂r
      obtain ⟨-, -, -, -, -, -, hblocks, -⟩ := incoming_cases hin
      obtain ⟨first, cs, hfirst, hcs, hlen, hvs, hhash, -⟩ := incoming_found hin hx
      rw [hmir.length] at hlen
      refine Or.inr ⟨cs, first, hcs, hfirst, hlen, Rec.write (some r₂) r₂.id dir f, rfl, hhash, ?_, by rw [heq]; exact hrecs⟩
      have hne : file.blocks ≠ [] := by intro h; rw [h] at hfirst; cases hfirst
      have hlt : ¬ cs.length < r₂.versions.length := by omega
      simp [Rec.write, hvs, hblocks, hne, hlt]

/-- The record a message's file is for, as it is when the loop comes to the file: whatever
    came before in the message, the pass replaces its hash or its blocks only by those of a
    history that extends the record's exactly when the file does no harm. -/
theorem replaced_iff (folder : Text) (n : Node) (before : List FileInfo) (file : FileInfo) {r₀ r : Rec}
    (hfind : n.store.lookup folder file.name = some r₀)
    (hbefore : (run nodeDo (handleIndex folder before) n).2 = some ())
    (hr : r ∈ (run nodeDo (handleIndex folder before) n).1.store.records) (hid : r.id = r₀.id) :
    (∀ r' ∈ (run nodeDo (handleIndex folder (before ++ [file])) n).1.store.records, r'.id = r.id →
      r'.hash ≠ r.hash ∨ r'.blocks ≠ r.blocks →
      ∃ cs, file.version = some cs ∧ r.versions <+: cs.map Counter.version) ↔ Harmless r file := by
  cases hdir : n.store.getSyncDirectory folder with
  | none => rw [run_handleIndex_unknown hdir] at hbefore; cases hbefore
  | some dir =>
    have hdirid := getSyncDirectory_id hdir
    subst hdirid
    rw [(run_handleIndex_store hdir before).2] at hbefore
    rw [(run_handleIndex_store hdir before).1] at hr
    rw [(run_handleIndex_store hdir _).1]
    obtain ⟨m, hm⟩ : ∃ m, mergeFiles dir before (.start n.store dir) = (m, some ()) := ⟨_, Prod.ext rfl hbefore⟩
    rw [hm] at hr
    obtain ⟨haligned, hfound⟩ := mergeFiles_local (aligned_start n.store dir) hm
    have hrid : (m.localindex.find? fun x => x.getName = file.name).map SyncFile.id = some (some r.id) := by
      rw [hfound, Merging.start, n.store.find?_index dir.id file.name, hfind, hid]; rfl
    have hrun : mergeFiles dir (before ++ [file]) (.start n.store dir) = mergeFile dir file m := by
      rw [mergeFiles_append, hm]
      simp only [mergeFiles]
      rcases mergeFile dir file m with ⟨m', _ | u⟩ <;> rfl
    rw [hrun]
    rcases mergeFile_record haligned hr hrid with ⟨hshort, hsame⟩ |
        ⟨cs, first, hcs, hfirst, hlen, r', hid', hhash, hblocks, hrecs⟩
    · rw [hsame]
      constructor
      · intro _ cs first hcs hfirst hlen
        have := hshort cs first hcs hfirst; omega
      · intro _ r' hr' hrr hne
        rw [List.inj_on_of_nodup_map m.store.records_nodup hr' hr hrr] at hne
        simp at hne
    · have hmem : r' ∈ (mergeFile dir file m).1.store.records := by
        rw [hrecs]; exact (Keyed.mem_upsert _ m.store.records_nodup).mpr (Or.inl rfl)
      constructor
      · intro hprop cs' first' hcs' hfirst' _
        rw [hcs] at hcs'
        rw [hfirst] at hfirst'
        cases hcs'
        cases hfirst'
        by_cases hp : r.versions <+: cs.map Counter.version
        · exact Or.inl hp
        · refine Or.inr (by_contra fun hdiff => hp ?_)
          obtain ⟨cs'', hcs'', hp'⟩ := hprop r' hmem hid' (by rw [hhash, hblocks]; tauto)
          rw [hcs] at hcs''
          cases hcs''
          exact hp'
      · intro hharm y hy hyid hne
        have hyr : y = r' := by
          rw [hrecs] at hy
          rcases (Keyed.mem_upsert _ m.store.records_nodup).mp hy with h | ⟨-, h⟩
          · exact h
          · exact absurd (hyid.trans hid'.symm) h
        rw [hyr, hhash, hblocks] at hne
        rcases hharm cs first hcs hfirst hlen with hp | ⟨h1, h2⟩
        · exact ⟨cs, hcs, hp⟩
        · rw [h1, h2] at hne
          simp at hne

/-- A history another node wrote on its own: the file was never this node's. -/
def divergentInfo : FileInfo := fileInfo [⟨9, 0⟩, ⟨9, 1⟩] fileHash2

/-- The node has indexed its own file; a peer's longer history of another file of that name
    replaces the contents, though the node's version is not in it. -/
theorem replaced_by_divergent :
    ∃ r ∈ fileIndexed.store.records, r.name = divergentInfo.name ∧ r.versions = [(7, 0)] ∧
      ∃ r' ∈ (run nodeDo (handleIndex ['d'] [divergentInfo]) fileIndexed).1.store.records,
        r'.id = r.id ∧ r'.hash ≠ r.hash ∧ r'.blocks ≠ r.blocks ∧
        divergentInfo.version = some [⟨9, 0⟩, ⟨9, 1⟩] ∧ ¬ r.versions <+: [(9, 0), (9, 1)] := by
  decide +kernel

theorem replaced_iff_files :
    ∃ r, fileIndexed.store.lookup ['d'] ['f'] = some r ∧ Harmless r fileInfo2 ∧
      ∀ r' ∈ (run nodeDo (handleIndex ['d'] [fileInfo2]) fileIndexed).1.store.records, r'.id = r.id →
        r'.hash ≠ r.hash ∨ r'.blocks ≠ r.blocks →
        ∃ cs, fileInfo2.version = some cs ∧ r.versions <+: cs.map Counter.version := by
  obtain ⟨r, hr, hvs⟩ : ∃ r, fileIndexed.store.lookup ['d'] ['f'] = some r ∧ r.versions = [(7, 0)] :=
    ⟨(fileIndexed.store.lookup ['d'] ['f']).get (by decide +kernel), by simp, by decide +kernel⟩
  have hharm : Harmless r fileInfo2 := by
    rintro cs first ⟨⟩ - -
    rw [hvs]; exact Or.inl (by decide)
  exact ⟨r, hr, hharm, (replaced_iff ['d'] fileIndexed [] fileInfo2 hr rfl (Store.lookup_some _ hr).1 rfl).mpr hharm⟩

end BepRs.History
