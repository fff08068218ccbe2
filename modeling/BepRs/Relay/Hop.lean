/-
  BepRs.Relay.Hop — a node tells another what it has, and the other gets it.

  One hop is a `send_index` for a connection, every Index of it handled by the peer, and the
  downloads these start run to their end, over the same connection. Where both nodes show
  the same logs, the receiver then shows of every shared folder, name by name, the deeper of
  the two, and the sender is as it was.

  - `merge_tells`: what the Index does to the records.
  - `receive_shows`: one Index with its download.
-/

import BepRs.History.Edits
import BepRs.Relay.Replica

namespace BepRs.Relay

open BepRs.Lib BepRs.Lib.Path BepRs.Lib.Task BepRs.Lib.Tiling BepRs.State BepRs.Sync BepRs.Access BepRs.History BepRs.Transfer

variable {sha256 : Bytes → Bytes}

/-! ## What is posted -/

variable (sha256) in
/-- A `send_index` that gets through posts one Index for each folder of the peer, with the
    folder's files. -/
theorem run_sendIndex_posts {n : Node} {conn : Conn} {peer : Peer} (hpeer : peerOf n conn = some peer)
    (hall : ∀ dir ∈ selected n.store peer, ∀ x ∈ n.store.index dir.id, Announceable n dir x) :
    ∃ msgs : List Index, run nodeDo (sendIndex sha256 conn) n = ({ n with sent := n.sent ++ msgs.map .index }, some (.ok ())) ∧
      msgs.map Index.folder = (selected n.store peer).map SyncDirectory.id ∧
      ∀ m ∈ msgs, ∃ dir ∈ n.store.getSyncDirectories, m.folder = dir.id ∧
        List.Forall₂ (Announces sha256 n dir) (n.store.index dir.id) m.files := by
  obtain ⟨hiff, hmsgs⟩ := @run_announceFolders sha256 (selected n.store peer) n
  rw [← run_sendIndex_selected hpeer] at hiff hmsgs
  have hok := hiff.mpr hall
  obtain ⟨msgs, hsent, hfolders⟩ := hmsgs hok
  obtain ⟨msgs', hrun, hposted⟩ := run_sendIndex sha256 conn n
  have hsame : msgs' = msgs := by
    have heq := hsent
    rw [hrun] at heq
    exact List.map_injective_iff.mpr (fun _ _ h => Message.index.inj h) (List.append_cancel_left heq)
  subst hsame
  refine ⟨msgs', Prod.ext hrun hok, hfolders, fun m hm => ?_⟩
  obtain ⟨-, -, -, dir, hdir, -, hfolder, hann⟩ := hposted m hm
  exact ⟨dir, hdir, hfolder, hann⟩

/-! ## What an Index does to the records -/

theorem mergeFiles_unchanged {dir : SyncDirectory} : ∀ {files : List FileInfo} {m m' : Merging},
    mergeFiles dir files m = (m', some ()) → m'.changed = false → m'.store = m.store ∧ m.changed = false := by
  intro files
  induction files with
  | nil => intro m m' h hc; cases h; exact ⟨rfl, hc⟩
  | cons file files ih =>
    intro m m' h hc
    rw [mergeFiles] at h
    rcases hone : mergeFile dir file m with ⟨m₁, _ | u⟩
    · rw [hone] at h; cases h
    · rw [hone] at h
      obtain ⟨hstore, hch⟩ := ih h hc
      unfold mergeFile at hone
      split at hone
      · cases hone
      · cases hone; exact ⟨hstore, hch⟩
      · simp only at hone
        split at hone
        · cases hone
        · cases hone; cases hch

theorem Holds.of_anon {log : Log} {name : Text} {k : Nat} {e : Version × Bytes} {r r' : Rec} (h : Holds sha256 log name k e r')
    (heq : anon r = anon r') : Holds sha256 log name k e r ∧ r.synced = r'.synced := by
  rw [anon, anon, Rec.mk.injEq] at heq
  obtain ⟨-, -, -, hhash, -, hs, hversions, hblocks⟩ := heq
  exact ⟨⟨hversions.trans h.versions, by rw [hblocks]; exact h.blocks, fun hsmall => hhash.trans (h.hash hsmall)⟩, hs⟩

/-- The records after an Index that tells of another depth. -/
structure Merged (sha256 : Bytes → Bytes) (log : Log) (folder : Text) (dA dB : Text → Nat) (s s' : Store) : Prop where
  single : s'.Single folder
  behind : ∀ name, dA name ≤ dB name → (s'.lookup folder name).map anon = (s.lookup folder name).map anon
  ahead : ∀ name k e, dA name = k + 1 → dB name ≤ k → (log name)[k]? = some e → ∃ r, s'.lookup folder name = some r ∧
    Holds sha256 log name k e r ∧ r.synced = syncedOf (s.lookup folder name)
  elsewhere : Elsewhere folder s s'

/-- A name's record is as deep as the node shows it. -/
theorem depth_shows {n : Node} {folder : Text} {q : List Text} {log : Log} {d : Text → Nat}
    (h : Shows sha256 n folder q log d) (name : Text) : depth (n.store.lookup folder name) = d name := by
  rcases hd : d name with _ | k
  · rw [(h.without name hd).1]; rfl
  · obtain ⟨e, r, he, hlook, hholds, -⟩ := h.upTo name k hd
    rw [hlook, depth_some, hholds.versions, length_versions he]

theorem version_counters (vs : List Version) :
    (vs.map fun v => (⟨v.1, v.2⟩ : Counter)).map Counter.version = vs := by
  rw [List.map_map]
  exact List.map_id vs

theorem syncBlock_infos (bs : List SyncBlock) :
    (bs.map fun b => (⟨b.offset, b.size, b.hash⟩ : BlockInfo)).map BlockInfo.syncBlock = bs := by
  rw [List.map_map]
  exact List.map_id bs

theorem received_tells {log : Log} {d : Text → Nat} {files : List FileInfo} (h : Tells sha256 log d files)
    {file : FileInfo} (hf : file ∈ files) (folder : Text) (u : UInt64) : ∃ k e x, d file.name = k + 1 ∧
      (log file.name)[k]? = some e ∧ received folder u file = some x ∧ Holds sha256 log file.name k e x ∧ x.synced = u := by
  obtain ⟨k, hk⟩ := Nat.exists_eq_succ_of_ne_zero (h.only file hf)
  obtain ⟨e, blocks, he, hversion, hblocks, hfb⟩ := h.what file hf k hk
  obtain ⟨b, hb, -⟩ := blocksOf_head sha256 hblocks
  have hfirst : file.blocks.head? = some ⟨b.offset, b.size, b.hash⟩ := by rw [hfb, List.head?_map, hb]; rfl
  refine ⟨k, e, _, hk, he, by rw [received, hfirst, hversion]; rfl, ⟨version_counters _, ?_, fun hsmall => ?_⟩, rfl⟩
  · simp only [hfb, syncBlock_infos, sortBlocks_blocksOf sha256 hblocks]
    exact hblocks
  · exact hash_head hsmall hblocks hb

theorem merge_tells {n : Node} {dir : SyncDirectory} {q : List Text} {log : Log} {dA dB : Text → Nat} {files : List FileInfo}
    (hvalid : Valid log) (hshows : Shows sha256 n dir.id q log dB) (htells : Tells sha256 log dA files) :
    ∃ m, mergeFiles dir files (.start n.store dir) = (m, some ()) ∧ Merged sha256 log dir.id dA dB n.store m.store := by
  have hfilled : ∀ file ∈ files, Filled file := by
    intro file hf
    obtain ⟨k, hk⟩ := Nat.exists_eq_succ_of_ne_zero (htells.only file hf)
    obtain ⟨e, blocks, he, hversion, hblocks, hfb⟩ := htells.what file hf k hk
    obtain ⟨b, hb, -⟩ := blocksOf_head sha256 hblocks
    have hname := hvalid.named file.name (List.ne_nil_of_mem (List.mem_of_getElem? he))
    refine ⟨join_names_fileName hname, fun h0 => ?_, _, hversion, fun h0 => ?_⟩
    · rw [hfb, List.map_eq_nil_iff] at h0
      rw [h0] at hb; cases hb
    · have hlen := length_versions he
      rw [List.map_eq_nil_iff] at h0
      rw [h0] at hlen; cases hlen
  have hchain : ∀ file ∈ files, ∀ r cs, n.store.lookup dir.id file.name = some r → file.version = some cs →
      r.versions <+: cs.map Counter.version ∨ cs.map Counter.version <+: r.versions := by
    intro file hf r cs hlook hcs
    obtain ⟨k, hk⟩ := Nat.exists_eq_succ_of_ne_zero (htells.only file hf)
    obtain ⟨-, -, -, hversion, -⟩ := htells.what file hf k hk
    rw [hversion] at hcs
    cases hcs
    rw [version_counters]
    obtain ⟨j, hj⟩ : ∃ j, dB file.name = j + 1 := by
      refine Nat.exists_eq_succ_of_ne_zero fun h0 => ?_
      rw [(hshows.without file.name h0).1] at hlook
      cases hlook
    obtain ⟨e, r', he, hlook', hholds, -⟩ := hshows.upTo file.name j hj
    rw [hlook] at hlook'
    cases hlook'
    rw [hholds.versions]
    exact (Nat.le_total (j + 1) (k + 1)).imp (prefix_versions log _) (prefix_versions log _)
  obtain ⟨m, hm, hsingle, hlook, helse⟩ := mergeFiles_longest (c := false) hshows.single hfilled htells.names
    (fun file _ => n.store.find?_index dir.id file.name) hchain
  refine ⟨m, hm, hsingle, fun name hle => ?_, fun name k e hk hlt he => ?_, helse⟩
  · rw [hlook name, Chain.longest, if_neg]
    have hdepth : depth ((n.store.lookup dir.id name).map anon) = dB name := by
      rw [← depth_shows hshows name]
      cases n.store.lookup dir.id name <;> rfl
    rw [hdepth]
    have hcand : depth (announced dir.id (syncedOf (n.store.lookup dir.id name)) files name) ≤ dA name := by
      cases hann : announced dir.id (syncedOf (n.store.lookup dir.id name)) files name with
      | none => exact Nat.zero_le _
      | some x =>
        obtain ⟨file, hf, hfn, hrec⟩ := announced_some hann
        obtain ⟨j, e, x', hj, he, hrec', hholds, -⟩ := received_tells htells hf dir.id (syncedOf (n.store.lookup dir.id name))
        rw [hrec] at hrec'
        cases hrec'
        rw [depth_some, hholds.versions, length_versions he, ← hfn, hj]
    omega
  · -- The Index has a file of the name, with the longer history.
    obtain ⟨file, hf, hfn⟩ := htells.told name k hk
    obtain ⟨j, e', x, hj, he', hrec, hholds, hsynced⟩ :=
      received_tells htells hf dir.id (syncedOf (n.store.lookup dir.id name))
    rw [hfn] at hj he' hholds
    have hjk : j = k := by omega
    subst hjk
    rw [he] at he'
    cases he'
    have hann : announced dir.id (syncedOf (n.store.lookup dir.id name)) files name = some x := by
      have hfind : files.find? (·.name = name) = some file := by
        cases hfind : files.find? (·.name = name) with
        | none => exact absurd hfn (by simpa using List.find?_eq_none.mp hfind file hf)
        | some file' =>
          have hfn' : file'.name = name := by simpa using List.find?_some hfind
          rw [List.inj_on_of_nodup_map htells.names (List.mem_of_find?_eq_some hfind) hf (hfn'.trans hfn.symm)]
      rw [announced, hfind]; exact hrec
    have hl := hlook name
    rw [hann, Chain.longest, if_pos] at hl
    · obtain ⟨r, hr, hanon⟩ := Option.map_eq_some_iff.mp hl
      obtain ⟨hholds', hs⟩ := hholds.of_anon (r := r) (by rw [← hanon]; rfl)
      exact ⟨r, hr, hholds', hs.trans hsynced⟩
    · have hdepth : depth ((n.store.lookup dir.id name).map anon) = dB name := by
        rw [← depth_shows hshows name]
        cases n.store.lookup dir.id name <;> rfl
      rw [hdepth, depth_some, hholds.versions, length_versions he]
      omega

/-! ## An Index and its download -/

/-- A node handles an Index of the other, and runs the downloads it started. -/
def receive (sha256 : Bytes → Bytes) (conn : Conn) (p : Pair) (m : Index) : Pair :=
  let here := (run nodeDo (handleIndex m.folder m.files) p.here).1
  (here.spawned.drop p.here.spawned.length).foldl (fun p dir => (run (pairDo sha256 conn) (getDirectory sha256 dir) p).1)
    ⟨here, p.there⟩

theorem sameFolders_mergeFiles (dir : SyncDirectory) : ∀ (files : List FileInfo) (m : Merging),
    SameFolders m.store (mergeFiles dir files m).1.store := by
  intro files
  induction files with
  | nil => intro m; exact .refl _
  | cons file files ih =>
    intro m
    have hone : SameFolders m.store (mergeFile dir file m).1.store := by
      unfold mergeFile
      split
      · exact .refl _
      · exact .refl _
      · simp only
        split <;> exact sameFolders_updateSyncFile m.store dir _
    rw [mergeFiles]
    rcases hm : mergeFile dir file m with ⟨m', _ | u⟩ <;> rw [hm] at hone
    · exact hone
    · exact hone.trans (ih m')

structure Received (sha256 : Bytes → Bytes) (folder : Text) (q : List Text) (log : Log) (d : Text → Nat) (p p' : Pair) :
    Prop where
  shows : Shows sha256 p'.here folder q log d
  beside : ∀ l, (∀ name, l ≠ q ++ [name]) → p'.here.disk.node l = p.here.disk.node l
  elsewhere : Elsewhere folder p.here.store p'.here.store
  rooted : ∀ path q', Rooted p.here path q' → Rooted p'.here path q'
  same : SameFolders p.here.store p'.here.store
  usable : p'.here.poisoned = false
  spoken : Says p.there p'.there

section

variable {conn : Conn} {dir : SyncDirectory} {path there : Text} {q qA : List Text} {log : Log} {dA dB : Text → Nat}

/-- A record after the Index: one the node had the contents of, or one the other node has. -/
theorem merged_cases {n : Node} {s : Store} (hb : Shows sha256 n dir.id q log dB) {a : Node}
    (ha : Shows sha256 a dir.id qA log dA) (hm : Merged sha256 log dir.id dA dB n.store s) {r : Rec}
    (hlook : s.lookup dir.id r.name = some r) :
    (∃ k e, dA r.name ≤ k + 1 ∧ dB r.name = k + 1 ∧ (log r.name)[k]? = some e ∧ Holds sha256 log r.name k e r ∧
        r.synced = e.1.2 ∧ entry n q r.name = some (.file e.2)) ∨
      ∃ k e, dA r.name = k + 1 ∧ dB r.name ≤ k ∧ (log r.name)[k]? = some e ∧ Holds sha256 log r.name k e r ∧
        r.synced = syncedOf (n.store.lookup dir.id r.name) ∧ entry a qA r.name = some (.file e.2) := by
  by_cases hle : dA r.name ≤ dB r.name
  · refine Or.inl ?_
    have hanon := hm.behind r.name hle
    rw [hlook] at hanon
    obtain ⟨k, hk⟩ : ∃ k, dB r.name = k + 1 := by
      refine Nat.exists_eq_succ_of_ne_zero fun h0 => ?_
      rw [(hb.without r.name h0).1] at hanon
      cases hanon
    obtain ⟨e, r₀, he, hlook₀, hholds, hsynced, hentry⟩ := hb.upTo r.name k hk
    rw [hlook₀] at hanon
    obtain ⟨hholds', hs⟩ := hholds.of_anon (Option.some.inj hanon)
    exact ⟨k, e, by omega, hk, he, hholds', hs.trans hsynced, hentry⟩
  · refine Or.inr ?_
    obtain ⟨k, hk⟩ := Nat.exists_eq_succ_of_ne_zero (show dA r.name ≠ 0 by omega)
    obtain ⟨e, -, he, -, -, -, hentry⟩ := ha.upTo r.name k hk
    obtain ⟨r', hlook', hholds, hsynced⟩ := hm.ahead r.name k e hk (by omega) he
    rw [hlook] at hlook'
    cases hlook'
    exact ⟨k, e, hk, by omega, he, hholds, hsynced, hentry⟩

theorem behind_absent {n b : Node} (hvalid : Valid log) (hb : Shows sha256 n dir.id q log dB)
    (hsame : ∀ name, entry b q name = entry n q name) {r : Rec} {k : Nat} {e : Version × Bytes} (hk : dB r.name ≤ k)
    (he : (log r.name)[k]? = some e) (hholds : Holds sha256 log r.name k e r)
    (hsynced : r.synced = syncedOf (n.store.lookup dir.id r.name)) : present b q r = false := by
  rcases hd : dB r.name with _ | j
  · simp only [present, hsame, (hb.without r.name hd).2, Option.isSome_none, Bool.false_and]
  · obtain ⟨e', r₀, he', hlook, -, hsynced', -⟩ := hb.upTo r.name j hd
    rw [hlook, syncedOf, Option.map_some, Option.getD_some, hsynced'] at hsynced
    have hlt : r.synced < r.file.getIndexVersion := by
      rw [hsynced, hholds.latest he, UInt64.lt_iff_toNat_lt, hvalid.counted _ _ _ he', hvalid.counted _ _ _ he]
      omega
    simp only [present, hlt, decide_true, Bool.not_true, Bool.and_false]

theorem latest_present {b : Node} {r : Rec} {k : Nat} {e : Version × Bytes} {data : FNode} (he : (log r.name)[k]? = some e)
    (hholds : Holds sha256 log r.name k e r) (hsynced : r.synced = e.1.2) (hentry : entry b q r.name = some data) :
    present b q r = true := by
  have hnot : ¬ r.synced < r.file.getIndexVersion := by
    rw [hsynced, hholds.latest he, UInt64.lt_iff_toNat_lt]
    exact Nat.lt_irrefl _
  simp only [present, hentry, Option.isSome_some, hnot, decide_false, Bool.not_false, Bool.and_self]

theorem le_of_unchanged {n a : Node} (hb : Shows sha256 n dir.id q log dB) (ha : Shows sha256 a dir.id qA log dA)
    (hm : Merged sha256 log dir.id dA dB n.store n.store) : dA ≤ dB := by
  intro name
  show dA name ≤ dB name
  by_contra hlt
  obtain ⟨k, hk⟩ := Nat.exists_eq_succ_of_ne_zero (show dA name ≠ 0 by omega)
  obtain ⟨e, -, he, -⟩ := ha.upTo name k hk
  obtain ⟨r, hlook, hholds, -⟩ := hm.ahead name k e hk (by omega) he
  have hdepth := depth_shows hb name
  rw [hlook, depth_some, hholds.versions, length_versions he] at hdepth
  omega

/-- What is shown has contents that go on growing. -/
theorem Shows.fits {n b : Node} (hvalid : Valid log) (hb : Shows sha256 n dir.id q log dB)
    (hentries : ∀ name, entry b q name = entry n q name) (hrooted : Rooted b path q) (husable : b.poisoned = false)
    {name : Text} {k : Nat} {e : Version × Bytes} (hk : dB name ≤ k) (he : (log name)[k]? = some e) :
    Fits b path q name e.2 := by
  have hname := hvalid.named _ (List.ne_nil_of_mem (List.mem_of_getElem? he))
  rcases hd : dB name with _ | j
  · have hnone : entry b q name = none := (hentries name).trans (hb.without name hd).2
    exact ⟨hrooted, hname, by rw [hnone]; simp, husable, by simp only [entryBytes, hnone, List.length_nil, Nat.zero_le]⟩
  · obtain ⟨e', -, he', -, -, -, hold⟩ := hb.upTo name j hd
    have hfile : entry b q name = some (.file e'.2) := (hentries name).trans hold
    refine ⟨hrooted, hname, by rw [hfile]; simp, husable, ?_⟩
    rw [entryBytes_file hfile]
    exact hvalid.grows name j k e' e he' he (by omega)

theorem merged_obtainable {n a b : Node} (hvalid : Valid log) (hb : Shows sha256 n dir.id q log dB)
    (ha : Shows sha256 a dir.id qA log dA) (hm : Merged sha256 log dir.id dA dB n.store b.store)
    (hentries : ∀ name, entry b q name = entry n q name) (hrooted : Rooted b path q) (husable : b.poisoned = false)
    (hgrants : Grants a conn dir.id there) (hthere : Rooted a there qA) :
    ∀ r ∈ b.store.records, r.folder = dir.id → FileName r.name ∧
      (present b q r = true ∨ Obtainable sha256 conn path there q ⟨b, a⟩ r) := by
  intro r hr hf
  rcases merged_cases hb ha hm (hm.single.lookup hr hf) with ⟨k, e, -, -, he, hholds, hsynced, hentry⟩ |
    ⟨k, e, -, hle, he, hholds, -, hentry⟩
  · refine ⟨hvalid.named _ (List.ne_nil_of_mem (List.mem_of_getElem? he)), Or.inl ?_⟩
    exact latest_present he hholds hsynced ((hentries r.name).trans hentry)
  · have hname := hvalid.named _ (List.ne_nil_of_mem (List.mem_of_getElem? he))
    have hsized := hvalid.sized _ _ _ he
    obtain ⟨hcovers, hne⟩ := covers_sized hsized hholds.blocks
    have hoffers : Offers sha256 a conn r.folder there r.name e.2 r.blocks :=
      ⟨by rw [hf]; exact hgrants, (readFile_entry hthere hname).mpr hentry, hcovers, hsized.1⟩
    exact ⟨hname, Or.inr ⟨⟨e.2, hoffers, hb.fits hvalid hentries hrooted husable hle he⟩, hne⟩⟩

/-- What the download makes of the records: it fetches those that are not there. -/
theorem Fetched.revised {b a : Node} {p' : Pair} (h : Fetched there q (b.store.records.filter (·.folder = dir.id)) ⟨b, a⟩ p') :
    Revised dir.id b.store p'.here.store (fun x =>
      if x ∈ b.store.records.filter (·.folder = dir.id) ∧ present b q x = false then settled x else x) [] := by
  refine ⟨by rw [List.append_nil]; exact h.records, fun x => ?_, fun x hx => ?_, by simp, List.nodup_nil⟩
  · split <;> exact ⟨rfl, rfl⟩
  · exact if_neg fun hbad => hx (by simpa using (List.mem_filter.mp hbad.1).2)

/-- After the Index and its download a node shows each name as deep as the deeper of the two. -/
theorem fetched_shows {n a b : Node} {p' : Pair} (hvalid : Valid log) (hb : Shows sha256 n dir.id q log dB)
    (ha : Shows sha256 a dir.id qA log dA) (hm : Merged sha256 log dir.id dA dB n.store b.store)
    (hentries : ∀ name, entry b q name = entry n q name) (hthere : Rooted a there qA)
    (h : Fetched there q (b.store.records.filter (·.folder = dir.id)) ⟨b, a⟩ p') :
    Shows sha256 p'.here dir.id q log (dB ⊔ dA) := by
  have hrevised := h.revised
  refine ⟨hrevised.single hm.single, fun name h0 => ?_, fun name k hk => ?_⟩
  · have hA : dA name = 0 := by have : max (dB name) (dA name) = 0 := h0; omega
    have hB : dB name = 0 := by have : max (dB name) (dA name) = 0 := h0; omega
    have hbehind := hm.behind name (by omega)
    rw [(hb.without name hB).1] at hbehind
    have hnone : b.store.lookup dir.id name = none := Option.map_eq_none_iff.mp hbehind
    refine ⟨hrevised.lookup_none hnone (by simp), ?_⟩
    have hstay : entry p'.here q name = entry b q name := by
      refine h.beside _ fun r hr he => ?_
      obtain ⟨hr, hf⟩ := List.mem_filter.mp hr
      have hn : name = r.name := by simpa using he
      have hsome := hm.single.lookup hr (by simpa using hf)
      rw [← hn, hnone] at hsome
      cases hsome
    rw [hstay, hentries]
    exact (hb.without name hB).2
  · have hmax : max (dB name) (dA name) = k + 1 := hk
    obtain ⟨r, hr⟩ : ∃ r, b.store.lookup dir.id name = some r := by
      by_cases hle : dA name ≤ dB name
      · obtain ⟨-, r₀, -, hlook₀, -⟩ := hb.upTo name k (by omega)
        have hbehind := hm.behind name hle
        rw [hlook₀] at hbehind
        obtain ⟨r, hr, -⟩ := Option.map_eq_some_iff.mp hbehind
        exact ⟨r, hr⟩
      · obtain ⟨e, -, he, -⟩ := ha.upTo name k (by omega)
        obtain ⟨r, hr, -⟩ := hm.ahead name k e (by omega) (by omega) he
        exact ⟨r, hr⟩
    obtain ⟨hmem, hf, hn⟩ := b.store.lookup_some hr
    subst hn
    have hin : r ∈ b.store.records.filter (·.folder = dir.id) := List.mem_filter.mpr ⟨hmem, by simpa using hf⟩
    have hlook := hrevised.lookup_old hr
    rcases merged_cases hb ha hm hr with ⟨j, e, hjA, hjB, he, hholds, hsynced, hentry⟩ |
      ⟨j, e, hjA, hjB, he, hholds, hsynced, hentry⟩
    · obtain rfl : j = k := by omega
      have hpresent := latest_present he hholds hsynced ((hentries r.name).trans hentry)
      simp only [hpresent, Bool.true_eq_false, and_false, if_false] at hlook
      refine ⟨e, r, he, hlook, hholds, hsynced, ?_⟩
      rw [h.kept r hin hpresent]
      exact (hentries r.name).trans hentry
    · obtain rfl : j = k := by omega
      have habsent := behind_absent hvalid hb hentries hjB he hholds hsynced
      rw [if_pos ⟨hin, habsent⟩] at hlook
      have hname := hvalid.named _ (List.ne_nil_of_mem (List.mem_of_getElem? he))
      refine ⟨e, settled r, he, hlook, ⟨hholds.versions, hholds.blocks, hholds.hash⟩, hholds.latest he, ?_⟩
      rw [h.got r hin habsent, (readFile_entry hthere hname).mpr hentry]
      rfl

theorem receive_shows {p : Pair} {m : Index} (hvalid : Valid log) (hdir : p.here.store.getSyncDirectory m.folder = some dir)
    (hpath : dir.path = some path) (hrooted : Rooted p.here path q) (husable : p.here.poisoned = false)
    (hb : Shows sha256 p.here dir.id q log dB) (hgrants : Grants p.there conn dir.id there) (hthere : Rooted p.there there qA)
    (ha : Shows sha256 p.there dir.id qA log dA) (htells : Tells sha256 log dA m.files) :
    Received sha256 dir.id q log (dB ⊔ dA) p (receive sha256 conn p m) := by
  obtain ⟨m', hm, hmerged⟩ := merge_tells hvalid hb htells
  have hrun := run_handleIndex m.folder m.files p.here
  rw [hdir] at hrun
  simp only [hm] at hrun
  have hsame : SameFolders p.here.store m'.store := by
    have hs := sameFolders_mergeFiles dir m.files (.start p.here.store dir)
    rw [hm] at hs
    exact hs
  cases hch : m'.changed with
  | false =>
    have hstore : m'.store = p.here.store := (mergeFiles_unchanged hm hch).1
    rw [hstore] at hmerged
    have hreceive : receive sha256 conn p m = ⟨{ p.here with store := m'.store }, p.there⟩ := by
      simp only [receive, hrun, hch, Bool.false_eq_true, if_false, List.drop_length, List.foldl_nil]
    rw [hreceive, hstore, sup_eq_left.mpr (le_of_unchanged hb ha hmerged)]
    exact ⟨hb, fun _ _ => rfl, rfl, fun _ _ h => h, .refl _, husable, .refl _⟩
  | true =>
    obtain ⟨b, hbdef⟩ : ∃ b : Node, b = { p.here with store := m'.store, spawned := p.here.spawned ++ [dir] } := ⟨_, rfl⟩
    have hreceive : receive sha256 conn p m = (run (pairDo sha256 conn) (getDirectory sha256 dir) ⟨b, p.there⟩).1 := by
      simp only [receive, hrun, hch, if_true, List.drop_left, List.foldl_cons, List.foldl_nil, hbdef]
    have hbrooted : ∀ path q', Rooted p.here path q' → Rooted b path q' := by
      intro path q' h
      rw [hbdef]
      exact ⟨h.leads, h.dir⟩
    have hentries : ∀ name, entry b q name = entry p.here q name := by rw [hbdef]; exact fun _ => rfl
    have hbusable : b.poisoned = false := by rw [hbdef]; exact husable
    have hbstore : b.store = m'.store := by rw [hbdef]
    rw [← hbstore] at hmerged hsame
    obtain ⟨p', hget, h⟩ := run_getDirectory_pair (p := ⟨b, p.there⟩) hpath hmerged.single (hbrooted path q hrooted) hbusable
      (merged_obtainable hvalid hb ha hmerged hentries (hbrooted path q hrooted) hbusable hgrants hthere)
    rw [hget] at hreceive
    rw [hreceive]
    refine ⟨fetched_shows hvalid hb ha hmerged hentries hthere h, fun l hl => ?_, hmerged.elsewhere.trans h.revised.elsewhere,
      fun path' q' hp => h.rooted path' q' (hbrooted _ _ hp), hsame.trans h.same, h.usable, h.spoken⟩
    rw [h.beside l fun r _ => hl r.name, hbdef]

end

end BepRs.Relay
