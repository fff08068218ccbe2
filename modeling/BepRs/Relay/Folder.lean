/-
  BepRs.Relay.Folder — a download of a folder.

  `get_directory` fetches the recorded files that are not there or have a later version than
  the one on disk (`present`). Where the other node holds all of these, a run returns `Ok`;
  then they are all there, recorded as synced, and nothing else has changed.

  - `records_stampTimes`: a file recorded again and again, on records.
  - `run_getDirectory_pair`: a run, and what it leaves (`Fetched`).
-/

import BepRs.Relay.Pair
import BepRs.Relay.Records

namespace BepRs.Relay

open BepRs.Lib BepRs.Lib.Path BepRs.Lib.Task BepRs.Lib.Tiling BepRs.State BepRs.Sync BepRs.Access BepRs.History BepRs.Transfer

/-! ## Recording -/

def settled (r : Rec) : Rec := { r with synced := r.file.getIndexVersion }

theorem write_stamp {dir : SyncDirectory} {r r₁ : Rec} (hfolder : r.folder = dir.id) (hname : normal r.name = r.name)
    (hsort : Tables.sortBlocks r.blocks = r.blocks) (hvs : r₁.versions = r.versions) (hblocks : r₁.blocks = r.blocks) :
    Rec.write (some r₁) r.id dir (stamp r.file) = settled r := by
  have hget : (stamp r.file).getName = r.name := by rw [getName_eq]; exact hname
  simp only [Rec.write, settled, hget, Option.map_some, Option.getD_some, hvs, hblocks, Rec.mk.injEq]
  refine ⟨trivial, hfolder.symm, trivial, rfl, rfl, rfl, Chain.extend_of_length_le (Nat.le_refl _), ?_⟩
  split
  · rfl
  · exact hsort

/-- A file recorded a number of times is one record settled. -/
theorem records_stampTimes {dir : SyncDirectory} {s : Store} {r : Rec} (hr : r ∈ s.records) (hfolder : r.folder = dir.id) :
    ∀ k : Nat, (stampTimes dir r.file (k + 1) s).records = s.records.map fun x => if x.id = r.id then settled r else x := by
  have hname := s.name_normal hr
  have hsort := s.sortBlocks_blocks hr
  have hv : (stamp r.file).versions ≠ [] := s.versions_ne_nil hr
  have hstep : ∀ (s' : Store) (r₁ : Rec), r₁ ∈ s'.records → r₁.id = r.id → r₁.versions = r.versions → r₁.blocks = r.blocks →
      (s'.updateSyncFile dir (stamp r.file)).1.records = s'.records.map fun x => if x.id = r.id then settled r else x := by
    intro s' r₁ hr₁ hid hvs hblocks
    obtain ⟨htarget, hstored⟩ := s'.stored_of_mem hr₁ (f := stamp r.file) (by rw [hid]; rfl)
    have hid' : (settled r).id = r.id := rfl
    rw [s'.records_updateSyncFile dir hv, hstored, htarget, hid, write_stamp hfolder hname hsort hvs hblocks,
      Keyed.upsert_of_mem _ s'.records_nodup (by rw [hid', ← hid]; exact List.mem_map_of_mem hr₁), hid']
  intro k
  induction k with
  | zero => exact hstep s r hr rfl rfl rfl
  | succ k ih =>
    have hmem : settled r ∈ (stampTimes dir r.file (k + 1) s).records := by
      rw [ih]
      exact List.mem_map.mpr ⟨r, hr, if_pos rfl⟩
    rw [stampTimes_succ, hstep _ (settled r) hmem rfl rfl rfl, ih, List.map_map]
    refine List.map_congr_left fun x _ => ?_
    simp only [Function.comp_apply]
    by_cases hx : x.id = r.id
    · rw [if_pos hx, ite_self]
    · rw [if_neg hx, if_neg hx]

/-! ## The loop over the files -/

/-- The file is there, and the version on disk is the latest. -/
def present (n : Node) (q : List Text) (r : Rec) : Bool :=
  (entry n q r.name).isSome && !decide (r.synced < r.file.getIndexVersion)

section

variable {sha256 : Bytes → Bytes} {conn : Conn} {dir : SyncDirectory} {path there : Text} {q : List Text}

/-- The other node holds the recorded version, and the file here is not longer. -/
structure Obtainable (sha256 : Bytes → Bytes) (conn : Conn) (path there : Text) (q : List Text) (p : Pair) (r : Rec) : Prop where
  held : ∃ c, Offers sha256 p.there conn r.folder there r.name c r.blocks ∧ Fits p.here path q r.name c
  blocks : r.blocks ≠ []

structure Fetched (there : Text) (q : List Text) (rs : List Rec) (p p' : Pair) : Prop where
  records : p'.here.store.records = p.here.store.records.map fun x =>
    if x ∈ rs ∧ present p.here q x = false then settled x else x
  kept : ∀ r ∈ rs, present p.here q r = true → entry p'.here q r.name = entry p.here q r.name
  got : ∀ r ∈ rs, present p.here q r = false → entry p'.here q r.name = (p.there.readFile (push there r.name)).map .file
  beside : ∀ l, (∀ r ∈ rs, l ≠ q ++ [r.name]) → p'.here.disk.node l = p.here.disk.node l
  rooted : ∀ path q', Rooted p.here path q' → Rooted p'.here path q'
  same : SameFolders p.here.store p'.here.store
  usable : p'.here.poisoned = false
  spoken : Says p.there p'.there

theorem Delivered.entry_ne {f : SyncFile} {c : Bytes} {p p' : Pair} (h : Delivered q f dir c p p') {name : Text}
    (hne : name ≠ f.getName) : entry p'.here q name = entry p.here q name :=
  h.beside _ fun he => hne (by simpa using he)

theorem Obtainable.later {f : SyncFile} {c : Bytes} {p p' : Pair} {r : Rec} (h : Obtainable sha256 conn path there q p r)
    (hd : Delivered q f dir c p p') (hne : r.name ≠ f.getName) : Obtainable sha256 conn path there q p' r := by
  obtain ⟨⟨c', hoffers, hfits⟩, hblocks⟩ := h
  have hentry := hd.entry_ne hne
  refine ⟨⟨c', hoffers.spoken hd.spoken, hd.rooted path q hfits.rooted, hfits.named, ?_, hd.usable, ?_⟩, hblocks⟩
  · rw [hentry]; exact hfits.noDir
  · rw [entryBytes, hentry]; exact hfits.shorter

theorem run_getFiles_pair (hpath : dir.path = some path) : ∀ (rs : List Rec) (p : Pair), (rs.map Rec.name).Nodup →
    Rooted p.here path q → p.here.poisoned = false →
    (∀ r ∈ rs, r ∈ p.here.store.records ∧ r.folder = dir.id ∧ FileName r.name ∧
      (present p.here q r = true ∨ Obtainable sha256 conn path there q p r)) →
    ∃ p', run (pairDo sha256 conn) (getFiles sha256 dir (rs.map Rec.file)) p = (p', some (.ok ())) ∧
      Fetched there q rs p p' := by
  intro rs
  induction rs with
  | nil =>
    intro p _ _ husable _
    exact ⟨p, rfl, ⟨by simp, by simp, by simp, fun _ _ => rfl, fun _ _ h => h, .refl _, husable, .refl _⟩⟩
  | cons r rs ih =>
    intro p hnd hrooted husable hall
    simp only [List.map_cons, List.nodup_cons] at hnd
    obtain ⟨hr, hfolder, hname, hcase⟩ := hall r List.mem_cons_self
    have hget : r.file.getName = r.name := p.here.store.getName_file hr
    have hdistinct : ∀ r' ∈ rs, r'.name ≠ r.name := fun r' hr' he => hnd.1 (he ▸ List.mem_map_of_mem hr')
    have hexists : pairDo sha256 conn p (.sys (.pathExists (push path r.file.path))) =
        (p, some (entry p.here q r.name).isSome) := by
      have hfind := find_entry hrooted hname
      simp only [pairDo, nodeDo, Node.sysDo, Rec.file, hfind]
    rw [List.map_cons]
    unfold getFiles
    simp only [hpath]
    rw [run_call_some hexists]
    by_cases hpresent : present p.here q r = true
    · -- the file is there and is passed over
      have hskip : ¬ ((entry p.here q r.name).isSome = false ∨ r.file.syncedVersion < r.file.getIndexVersion) := by
        have hboth : (entry p.here q r.name).isSome = true ∧ ¬ r.synced < r.file.getIndexVersion := by
          simpa [present] using hpresent
        rintro (h | h)
        · rw [hboth.1] at h; cases h
        · exact hboth.2 h
      simp only [if_neg hskip]
      obtain ⟨p', hrun, h⟩ := ih p hnd.2 hrooted husable fun r' hr' => hall r' (List.mem_cons_of_mem _ hr')
      refine ⟨p', hrun, ⟨?_, fun r' hr' hp => ?_, fun r' hr' hp => ?_, fun l hl => ?_, h.rooted, h.same, h.usable, h.spoken⟩⟩
      · rw [h.records]
        refine List.map_congr_left fun x _ => ?_
        by_cases hx : x = r
        · subst hx
          simp only [hpresent, Bool.true_eq_false, and_false, if_false]
        · simp only [List.mem_cons, hx, false_or]
      · rcases List.mem_cons.mp hr' with he | hr'
        · subst he
          exact h.beside _ fun x hx he => hdistinct x hx (by simpa using he.symm)
        · exact h.kept r' hr' hp
      · rcases List.mem_cons.mp hr' with he | hr'
        · subst he
          rw [hp] at hpresent; cases hpresent
        · exact h.got r' hr' hp
      · exact h.beside l fun x hx => hl x (List.mem_cons_of_mem _ hx)
    · -- it is fetched, and the rest is as before
      have habsent : present p.here q r = false := by simpa using hpresent
      have hfetch : (entry p.here q r.name).isSome = false ∨ r.file.syncedVersion < r.file.getIndexVersion := by
        rcases hsome : (entry p.here q r.name).isSome with _ | _
        · exact Or.inl rfl
        · have hbehind : r.synced < r.file.getIndexVersion := by simpa [present, hsome] using habsent
          exact Or.inr hbehind
      simp only [if_pos hfetch]
      obtain ⟨⟨c, hoffers, hfits⟩, hblocks⟩ := hcase.resolve_left hpresent
      rw [hfolder, ← hget] at hoffers
      rw [← hget] at hfits
      obtain ⟨p₁, hrun₁, hd⟩ := run_getFile_pair (f := r.file) hpath hoffers hblocks hfits (current_file hr)
      obtain ⟨k, hk, hstore⟩ := hd.store
      obtain ⟨j, rfl⟩ : ∃ j, k = j + 1 := ⟨k - 1, by omega⟩
      have hrecords : p₁.here.store.records = p.here.store.records.map fun x => if x.id = r.id then settled r else x := by
        rw [hstore]; exact records_stampTimes hr hfolder j
      have hid : ∀ x ∈ p.here.store.records, x.id = r.id → x = r := fun x hx he =>
        List.inj_on_of_nodup_map p.here.store.records_nodup hx hr he
      have hpresent₁ : ∀ r' ∈ rs, present p₁.here q r' = present p.here q r' := by
        intro r' hr'
        have hother : r'.name ≠ r.file.getName := by rw [hget]; exact hdistinct r' hr'
        have hentry := hd.entry_ne hother
        simp only [present, hentry]
      obtain ⟨p', hrun, h⟩ := ih p₁ hnd.2 (hd.rooted path q hrooted) hd.usable fun r' hr' => by
        obtain ⟨hmem, hfolder', hname', hcase'⟩ := hall r' (List.mem_cons_of_mem _ hr')
        have hne : r'.id ≠ r.id := fun he => hdistinct r' hr' (by rw [hid r' hmem he])
        refine ⟨?_, hfolder', hname', ?_⟩
        · rw [hrecords]
          exact List.mem_map.mpr ⟨r', hmem, if_neg hne⟩
        · rw [hpresent₁ r' hr']
          exact hcase'.imp id fun ho => ho.later hd (by rw [hget]; exact hdistinct r' hr')
      have hself : entry p₁.here q r.name = some (.file c) := by rw [← hget]; exact hd.file
      have hsame : SameFolders p.here.store p₁.here.store := by
        rw [hstore]; exact sameFolders_stampTimes dir r.file (j + 1) _
      refine ⟨p', ?_, ⟨?_, fun r' hr' hp => ?_, fun r' hr' hp => ?_, fun l hl => ?_,
        fun path' q' hpath' => h.rooted path' q' (hd.rooted path' q' hpath'), hsame.trans h.same, h.usable,
        hd.spoken.trans h.spoken⟩⟩
      · rw [run_bind, hrun₁]
        exact hrun
      · rw [h.records, hrecords, List.map_map]
        refine List.map_congr_left fun x hx => ?_
        simp only [Function.comp_apply]
        by_cases hxid : x.id = r.id
        · have hxr := hid x hx hxid
          subst hxr
          have hnot : ¬ (settled x ∈ rs ∧ present p₁.here q (settled x) = false) :=
            fun hbad => hdistinct _ hbad.1 rfl
          rw [if_pos rfl, if_neg hnot, if_pos ⟨List.mem_cons_self, habsent⟩]
        · have hxr : x ≠ r := fun he => hxid (by rw [he])
          rw [if_neg hxid]
          by_cases hxs : x ∈ rs
          · simp only [hxs, List.mem_cons, hxr, false_or, true_and, hpresent₁ x hxs]
          · simp only [hxs, List.mem_cons, hxr, false_or, false_and, if_false]
      · rcases List.mem_cons.mp hr' with he | hr'
        · subst he
          rw [hp] at habsent; cases habsent
        · rw [h.kept r' hr' (by rw [hpresent₁ r' hr']; exact hp)]
          exact hd.entry_ne (by rw [hget]; exact hdistinct r' hr')
      · rcases List.mem_cons.mp hr' with he | hr'
        · subst he
          have hstay : entry p'.here q r'.name = entry p₁.here q r'.name :=
            h.beside _ fun x hx he => hdistinct x hx (by simpa using he.symm)
          have hread : p.there.readFile (push there r'.name) = some c := by rw [← hget]; exact hoffers.holds
          rw [hstay, hself, hread]
          rfl
        · rw [h.got r' hr' (by rw [hpresent₁ r' hr']; exact hp), hd.spoken.readFile]
      · rw [h.beside l fun x hx => hl x (List.mem_cons_of_mem _ hx)]
        exact hd.beside l (by rw [hget]; exact hl r List.mem_cons_self)

/-- Every recorded file of a folder is there or can be had: a download gets them all. -/
theorem run_getDirectory_pair {p : Pair} (hpath : dir.path = some path) (hsingle : p.here.store.Single dir.id)
    (hrooted : Rooted p.here path q) (husable : p.here.poisoned = false)
    (hall : ∀ r ∈ p.here.store.records, r.folder = dir.id → FileName r.name ∧
      (present p.here q r = true ∨ Obtainable sha256 conn path there q p r)) :
    ∃ p', run (pairDo sha256 conn) (getDirectory sha256 dir) p = (p', some (.ok ())) ∧
      Fetched there q (p.here.store.records.filter (·.folder = dir.id)) p p' := by
  have hindex : pairDo sha256 conn p (.db (.getSyncFiles dir.id)) =
      (p, some ((p.here.store.records.filter (·.folder = dir.id)).map Rec.file)) := by
    simp only [pairDo, nodeDo, dbDo_getSyncFiles, Store.index]
  have hmem : ∀ r ∈ p.here.store.records.filter (·.folder = dir.id), r ∈ p.here.store.records ∧ r.folder = dir.id := by
    intro r hr
    obtain ⟨hr, hf⟩ := List.mem_filter.mp hr
    exact ⟨hr, by simpa using hf⟩
  have hnd : ((p.here.store.records.filter (·.folder = dir.id)).map Rec.name).Nodup := by
    refine List.Nodup.map_on (fun r hr r' hr' hn => ?_) ((List.Nodup.of_map Rec.id p.here.store.records_nodup).filter _)
    exact hsingle r (hmem r hr).1 r' (hmem r' hr').1 (hmem r hr).2 (hmem r' hr').2 hn
  have hrecs : ∀ r ∈ p.here.store.records.filter fun r => r.folder = dir.id, r ∈ p.here.store.records ∧ r.folder = dir.id ∧
      FileName r.name ∧ (present p.here q r = true ∨ Obtainable sha256 conn path there q p r) :=
    fun r hr => ⟨(hmem r hr).1, (hmem r hr).2, hall r (hmem r hr).1 (hmem r hr).2⟩
  obtain ⟨p', hrun, h⟩ := run_getFiles_pair hpath _ p hnd hrooted husable hrecs
  have hchanged : pairDo sha256 conn p' (.db (.directoryChanged dir)) = (p', some ()) := rfl
  refine ⟨p', ?_, h⟩
  unfold getDirectory
  rw [run_call_some hindex, run_bind, hrun]
  simp only
  rw [run_call_some hchanged]
  rfl

end

end BepRs.Relay
