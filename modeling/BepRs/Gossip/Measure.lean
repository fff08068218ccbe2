/-
  BepRs.Gossip.Measure — how far a store is from having heard everything.

  Nobody invents a file or a version here, so there are a set of names, and for each a longest
  version list, that the network never gets past (`Bounds`). A store is short of it, name by
  name, by what the first record of the name lacks of the longest list; a name without a
  record lacks all of it (`gap`).

  A task that downloads writes over records with copies it read earlier (`Copied`). That may
  set anything but the length of a history back, and it does not move the measure (`Calm`).
  What a merge writes moves it down.
-/

import BepRs.Gossip.Model
import Mathlib.Algebra.BigOperators.Group.Finset.Basic
import Mathlib.Algebra.Order.BigOperators.Group.Finset
import Mathlib.Data.Finset.Basic

namespace BepRs.Gossip

open BepRs.Lib BepRs.Lib.Path BepRs.Lib.Task BepRs.State BepRs.Sync

structure Bounds where
  /-- Folders and names. -/
  known : Finset (Text × Text)
  longest : Text × Text → Nat

variable (B : Bounds)

def Bounded (s : Store) : Prop :=
  ∀ r ∈ s.records, (r.folder, r.name) ∈ B.known ∧ r.versions.length ≤ B.longest (r.folder, r.name)

/-- The length of the history of a name, by its first record. -/
def depthAt (s : Store) (u : Text × Text) : Nat := ((s.lookup u.1 u.2).map fun r => r.versions.length).getD 0

def gap (s : Store) : Nat := ∑ u ∈ B.known, (B.longest u - depthAt s u)

theorem gap_le {s s' : Store} (h : ∀ u, depthAt s u ≤ depthAt s' u) : gap B s' ≤ gap B s :=
  Finset.sum_le_sum fun u _ => Nat.sub_le_sub_left (h u) _

theorem gap_lt {s s' : Store} (h : ∀ u, depthAt s u ≤ depthAt s' u) {u : Text × Text} (hu : u ∈ B.known)
    (hlt : depthAt s u < depthAt s' u) (hle : depthAt s' u ≤ B.longest u) : gap B s' < gap B s := by
  refine Finset.sum_lt_sum (fun v _ => Nat.sub_le_sub_left (h v) _) ⟨u, hu, ?_⟩
  omega

theorem gap_bound (s : Store) : gap B s ≤ ∑ u ∈ B.known, B.longest u := Finset.sum_le_sum fun _ _ => Nat.sub_le _ _

/-! ## What the others may do meanwhile -/

/-- Every record is there later, under its name, with no shorter history. -/
structure Later (s s' : Store) : Prop where
  folders : s'.folders = s.folders
  bounded : Bounded B s'
  kept : ∀ r ∈ s.records, ∃ r' ∈ s'.records, r'.id = r.id ∧ r'.folder = r.folder ∧ r'.name = r.name ∧
    r.versions.length ≤ r'.versions.length

/-- And every name has the record it had, with a history of the same length. -/
structure Calm (s s' : Store) : Prop where
  later : Later B s s'
  first : ∀ folder name, (s'.lookup folder name).map (fun r => (r.id, r.versions.length)) =
    (s.lookup folder name).map fun r => (r.id, r.versions.length)

variable {B}

theorem later_refl {s : Store} (h : Bounded B s) : Later B s s := ⟨rfl, h, fun r hr => ⟨r, hr, rfl, rfl, rfl, Nat.le_refl _⟩⟩

theorem Later.trans {a b c : Store} (hab : Later B a b) (hbc : Later B b c) : Later B a c := by
  refine ⟨hbc.folders.trans hab.folders, hbc.bounded, fun r hr => ?_⟩
  obtain ⟨r', hr', hid', hf', hn', hlen'⟩ := hab.kept r hr
  obtain ⟨r'', hr'', hid'', hf'', hn'', hlen''⟩ := hbc.kept r' hr'
  exact ⟨r'', hr'', hid''.trans hid', hf''.trans hf', hn''.trans hn', Nat.le_trans hlen' hlen''⟩

theorem calm_refl {s : Store} (h : Bounded B s) : Calm B s s := ⟨later_refl h, fun _ _ => rfl⟩

theorem Calm.trans {a b c : Store} (hab : Calm B a b) (hbc : Calm B b c) : Calm B a c :=
  ⟨hab.later.trans hbc.later, fun folder name => (hbc.first folder name).trans (hab.first folder name)⟩

/-- The peers and the shares do not count. -/
theorem calm_configure {s s' : Store} (h : Bounded B s) (hrecords : s'.records = s.records) (hfolders : s'.folders = s.folders) :
    Calm B s s' := by
  refine ⟨⟨hfolders, fun r hr => h r (hrecords ▸ hr), fun r hr => ⟨r, hrecords ▸ hr, rfl, rfl, rfl, Nat.le_refl _⟩⟩, ?_⟩
  intro folder name
  unfold Store.lookup
  rw [hrecords]

theorem Calm.depthAt {s s' : Store} (h : Calm B s s') (u : Text × Text) : depthAt s' u = depthAt s u := by
  have hfirst := congrArg (Option.map Prod.snd) (h.first u.1 u.2)
  rw [Option.map_map, Option.map_map] at hfirst
  exact congrArg (fun x => Option.getD x 0) hfirst

theorem Calm.gap {s s' : Store} (h : Calm B s s') : gap B s' = gap B s :=
  Finset.sum_congr rfl fun u _ => by rw [h.depthAt u]

/-! ## Writing over a record -/

/-- A file that was read from the folder, now or before. -/
def Copied (s : Store) (folder : Text) (f : SyncFile) : Prop :=
  ∃ r ∈ s.records, f.id = some r.id ∧ r.folder = folder ∧ f.path = r.name ∧ f.versions.length ≤ r.versions.length

theorem Copied.later {s s' : Store} (h : Later B s s') {folder : Text} {f : SyncFile} (hf : Copied s folder f) :
    Copied s' folder f := by
  obtain ⟨r, hr, hid, hfolder, hpath, hlen⟩ := hf
  obtain ⟨r', hr', hid', hf', hn', hlen'⟩ := h.kept r hr
  exact ⟨r', hr', by rw [hid, hid'], hf'.trans hfolder, hpath.trans hn'.symm, Nat.le_trans hlen hlen'⟩

theorem copied_index {s : Store} {folder : Text} {f : SyncFile} (hf : f ∈ s.index folder) : Copied s folder f := by
  obtain ⟨r, hr, rfl⟩ := List.mem_map.mp hf
  obtain ⟨hr, hfolder⟩ := List.mem_filter.mp hr
  exact ⟨r, hr, rfl, by simpa using hfolder, rfl, Nat.le_refl _⟩

/-- The first record of a name after a write over a record of the folder, under its name. -/
theorem lookup_rewrite {s : Store} {dir : SyncDirectory} {f : SyncFile} {r : Rec} (hr : r ∈ s.records) (hid : f.id = some r.id)
    (hfolder : r.folder = dir.id) (hname : f.getName = r.name) (hv : f.versions ≠ []) (folder name : Text) :
    (s.updateSyncFile dir f).1.lookup folder name =
      (s.lookup folder name).map fun z => if z.id = r.id then Rec.write (some r) r.id dir f else z := by
  obtain ⟨htarget, hstored⟩ := s.stored_of_mem hr hid
  unfold Store.lookup
  rw [s.records_updateSyncFile dir hv, hstored, htarget]
  refine Keyed.find?_upsert_alike Rec.id s.records_nodup hr rfl ?_
  simp only [Rec.write, hname, hfolder]

theorem length_write (r : Rec) (dir : SyncDirectory) (f : SyncFile) :
    (Rec.write (some r) r.id dir f).versions.length = max r.versions.length f.versions.length := Chain.length_extend _ _

/-- A write over a record: later, its history is the longer one. -/
theorem later_rewrite {s : Store} (hs : Bounded B s) {dir : SyncDirectory} {f : SyncFile} {r : Rec} (hr : r ∈ s.records)
    (hid : f.id = some r.id) (hfolder : r.folder = dir.id) (hname : f.getName = r.name)
    (hlen : f.versions.length ≤ B.longest (r.folder, r.name)) : Later B s (s.updateSyncFile dir f).1 := by
  by_cases hv : f.versions = []
  · rw [s.records_updateSyncFile_nil dir hv]
    exact later_refl hs
  obtain ⟨htarget, hstored⟩ := s.stored_of_mem hr hid
  have hnew : Rec.write (some r) r.id dir f ∈ (s.updateSyncFile dir f).1.records := by
    rw [← hstored, ← htarget]
    exact (s.mem_updateSyncFile_target dir hv rfl).mpr rfl
  refine ⟨(s.updateSyncFile_frame dir f).1, fun x hx => ?_, fun x hx => ?_⟩
  · rcases s.mem_updateSyncFile_cases dir hx with hx | hx
    · exact hs x hx
    · rw [hstored, htarget] at hx
      obtain ⟨hknown, hold⟩ := hs r hr
      rw [hx]
      have hat : ((Rec.write (some r) r.id dir f).folder, (Rec.write (some r) r.id dir f).name) = (r.folder, r.name) := by
        rw [hfolder, ← hname]; rfl
      rw [hat, length_write]
      exact ⟨hknown, Nat.max_le.mpr ⟨hold, hlen⟩⟩
  · by_cases he : x.id = r.id
    · have hxr : x = r := List.inj_on_of_nodup_map s.records_nodup hx hr he
      subst hxr
      exact ⟨_, hnew, rfl, hfolder.symm, hname, by rw [length_write]; exact Nat.le_max_left _ _⟩
    · refine ⟨x, (s.mem_updateSyncFile_of_ne dir ?_).mpr hx, rfl, rfl, rfl, Nat.le_refl _⟩
      rw [htarget]
      exact he

/-- A download records what it fetched, over the record it copied: nobody's history gets
    longer, and nobody's shorter. -/
theorem calm_stamp {s : Store} (hs : Bounded B s) {dir : SyncDirectory} {f : SyncFile} (hf : Copied s dir.id f) :
    Calm B s (s.updateSyncFile dir f).1 := by
  by_cases hv : f.versions = []
  · rw [s.records_updateSyncFile_nil dir hv]
    exact calm_refl hs
  obtain ⟨r, hr, hid, hfolder, hpath, hlen⟩ := hf
  have hname : f.getName = r.name := by rw [getName_eq, hpath, s.name_normal hr]
  have hlater := later_rewrite hs hr hid hfolder hname (Nat.le_trans hlen (hs r hr).2)
  refine ⟨hlater, fun folder name => ?_⟩
  rw [lookup_rewrite hr hid hfolder hname hv, Option.map_map]
  cases hl : s.lookup folder name with
  | none => rfl
  | some z =>
    by_cases he : z.id = r.id
    · have hzr : z = r := List.inj_on_of_nodup_map s.records_nodup (s.lookup_some hl).1 hr he
      subst hzr
      have hsame : (Rec.write (some z) z.id dir f).versions = z.versions := Chain.extend_of_length_le hlen
      have hwid : (Rec.write (some z) z.id dir f).id = z.id := rfl
      simp only [Option.map_some, Function.comp_apply, if_true, hsame, hwid]
    · simp [he]

/-! ## What a merge writes -/

/-- The copy of the index a merge works on: its entries are the first records of their
    names, and as long as nothing was written a name without an entry has no record. -/
structure Aligns (dir : SyncDirectory) (l : List SyncFile) (changed : Bool) (s : Store) : Prop where
  found : ∀ a x, l.find? (fun x => x.getName = a) = some x →
    ∃ r, s.lookup dir.id a = some r ∧ x.id = some r.id ∧ x.path = r.name ∧ x.versions.length = r.versions.length
  missing : changed = false → ∀ a, l.find? (fun x => x.getName = a) = none → s.lookup dir.id a = none

theorem aligns_index (s : Store) (dir : SyncDirectory) : Aligns dir (s.index dir.id) false s := by
  refine ⟨fun a x hx => ?_, fun _ a hx => ?_⟩
  · rw [s.find?_index] at hx
    obtain ⟨r, hr, rfl⟩ := Option.map_eq_some_iff.mp hx
    exact ⟨r, hr, rfl, rfl, rfl⟩
  · rw [s.find?_index] at hx
    exact Option.map_eq_none_iff.mp hx

theorem Aligns.calm {dir : SyncDirectory} {l : List SyncFile} {changed : Bool} {s s' : Store} (h : Aligns dir l changed s)
    (hs : Calm B s s') : Aligns dir l changed s' := by
  refine ⟨fun a x hx => ?_, fun hch a hx => ?_⟩
  · obtain ⟨r, hr, hid, hpath, hlen⟩ := h.found a x hx
    have hfirst := hs.first dir.id a
    rw [hr, Option.map_some] at hfirst
    obtain ⟨r', hr', hpair⟩ := Option.map_eq_some_iff.mp hfirst
    obtain ⟨hid', hlen'⟩ := Prod.mk.inj hpair
    have hname : r'.name = r.name := (s'.lookup_some hr').2.2.trans (s.lookup_some hr).2.2.symm
    exact ⟨r', hr', by rw [hid, hid'], hpath.trans hname.symm, hlen.trans hlen'.symm⟩
  · have hfirst := hs.first dir.id a
    rw [h.missing hch a hx, Option.map_none] at hfirst
    exact Option.map_eq_none_iff.mp hfirst

/-- A received file whose name is a normal one, within the bounds. -/
structure SaneInfo (B : Bounds) (folder : Text) (info : FileInfo) : Prop where
  name : normal info.name = info.name
  known : (folder, info.name) ∈ B.known
  short : ∀ cs, info.version = some cs → cs.length ≤ B.longest (folder, info.name)

/-- What one write of a merge does. -/
structure Merged (B : Bounds) (dir : SyncDirectory) (l : List SyncFile) (changed : Bool) (s s' : Store) : Prop where
  later : Later B s s'
  down : gap B s' ≤ gap B s
  news : changed = false → gap B s' < gap B s
  aligns : Aligns dir l true s'

/-- A write over a record with a longer history makes its name deeper, and no other shallower. -/
theorem depthAt_rewrite {s : Store} {dir : SyncDirectory} {f : SyncFile} {r : Rec} (hr : r ∈ s.records) (hid : f.id = some r.id)
    (hfolder : r.folder = dir.id) (hname : f.getName = r.name) (hv : f.versions ≠ []) (u : Text × Text) :
    depthAt s u ≤ depthAt (s.updateSyncFile dir f).1 u := by
  unfold depthAt
  rw [lookup_rewrite hr hid hfolder hname hv, Option.map_map]
  cases hl : s.lookup u.1 u.2 with
  | none => exact Nat.le_refl _
  | some z =>
    by_cases he : z.id = r.id
    · have hzr : z = r := List.inj_on_of_nodup_map s.records_nodup (s.lookup_some hl).1 hr he
      subst hzr
      simp only [Option.map_some, Option.getD_some, Function.comp_apply, if_true, length_write]
      exact Nat.le_max_left _ _
    · simp [he]

/-- The copy with the written file in it, beside the store with the written record in it. -/
theorem aligns_rewrite {dir : SyncDirectory} {l : List SyncFile} {changed : Bool} {s : Store} (ha : Aligns dir l changed s)
    {a : Text} {f x : SyncFile} {r : Rec} (hx : l.find? (fun x => x.getName = a) = some x) (hr : s.lookup dir.id a = some r)
    (hid : f.id = some r.id) (hpath : f.path = r.name) (hlen : r.versions.length ≤ f.versions.length) (hv : f.versions ≠ []) :
    Aligns dir (setFirst (fun x => x.getName = a) f l) true (s.updateSyncFile dir f).1 := by
  obtain ⟨hmem, hfolder, hrname⟩ := s.lookup_some hr
  have hname : f.getName = r.name := by rw [getName_eq, hpath, s.name_normal hmem]
  have hlookup := lookup_rewrite hmem hid hfolder hname hv
  refine ⟨fun b y hy => ?_, fun h => by cases h⟩
  have hfn : f.getName = a := hname.trans hrname
  by_cases he : a = b
  · subst he
    have hfind := find?_setFirst_eq (p := fun x : SyncFile => decide (x.getName = a)) (x := f) (by simpa using hfn) hx
    rw [hfind] at hy
    cases hy
    refine ⟨Rec.write (some r) r.id dir f, by rw [hlookup, hr]; simp, hid, hpath.trans hname.symm, ?_⟩
    rw [length_write]
    omega
  · rw [find?_name_setFirst hfn he] at hy
    obtain ⟨z, hz, hzid, hzpath, hzlen⟩ := ha.found b y hy
    have hne : z.id ≠ r.id := by
      intro hzr
      have hzz : z = r := List.inj_on_of_nodup_map s.records_nodup (s.lookup_some hz).1 hmem hzr
      exact he (hrname.symm.trans ((congrArg Rec.name hzz).symm.trans (s.lookup_some hz).2.2))
    refine ⟨z, ?_, hzid, hzpath, hzlen⟩
    rw [hlookup, hz]
    simp [hne]

theorem merged_found {dir : SyncDirectory} {l : List SyncFile} {changed : Bool} {s : Store} (hs : Bounded B s)
    (ha : Aligns dir l changed s) {info : FileInfo} (hinfo : SaneInfo B dir.id info) {f x : SyncFile}
    (hin : incoming l info = some (some f)) (hx : l.find? (fun x => x.getName = info.name) = some x) :
    (s.updateSyncFile dir f).2 = some () ∧
      Merged B dir (setFirst (fun x => x.getName = info.name) f l) changed s (s.updateSyncFile dir f).1 := by
  obtain ⟨first, cs, -, hcs, hlong, hvs, -, hid, hpath, -⟩ := incoming_found hin hx
  obtain ⟨r, hr, hxid, hxpath, hxlen⟩ := ha.found info.name x hx
  obtain ⟨hmem, hfolder, hrname⟩ := s.lookup_some hr
  have hflen : f.versions.length = cs.length := by rw [hvs, List.length_map]
  have hv : f.versions ≠ [] := by
    rw [← List.length_pos_iff, hflen]; omega
  have hfpath : f.path = r.name := hpath.trans hxpath
  have hname : f.getName = r.name := by rw [getName_eq, hfpath, s.name_normal hmem]
  have hfid : f.id = some r.id := hid.trans hxid
  have hshort : f.versions.length ≤ B.longest (dir.id, info.name) := hflen ▸ hinfo.short cs hcs
  have hself : depthAt (s.updateSyncFile dir f).1 (dir.id, info.name) = f.versions.length := by
    unfold depthAt
    rw [lookup_rewrite hmem hfid hfolder hname hv, hr]
    simp only [Option.map_some, Option.getD_some, if_true, length_write]
    omega
  have hlt : gap B (s.updateSyncFile dir f).1 < gap B s := by
    refine gap_lt B (depthAt_rewrite hmem hfid hfolder hname hv) hinfo.known ?_ (hself ▸ hshort)
    rw [hself]
    unfold depthAt
    simp only [hr, Option.map_some, Option.getD_some]
    omega
  refine ⟨?_, later_rewrite hs hmem hfid hfolder hname (by rw [hfolder, hrname]; exact hshort), Nat.le_of_lt hlt, fun _ => hlt,
    aligns_rewrite ha hx hr hfid hfpath (by omega) hv⟩
  rw [s.updateSyncFile_returns dir hv, Store.storedCount, (s.stored_of_mem hmem hfid).2, if_neg]
  simp only [Option.map_some, Option.getD_some]
  omega

/-- The first record of a name after a write to a new row. -/
theorem lookup_new {s : Store} {dir : SyncDirectory} {f : SyncFile} (hid : f.id = none) (hv : f.versions ≠ [])
    (folder name : Text) :
    (s.updateSyncFile dir f).1.lookup folder name = (s.lookup folder name).or
      (if dir.id = folder ∧ f.getName = name then some (Rec.write none (s.target f) dir f) else none) := by
  have hnew : (Rec.write none (s.target f) dir f).id ∉ s.records.map Rec.id := s.target_new hid
  unfold Store.lookup
  rw [s.records_updateSyncFile dir hv, s.stored_new hid, Keyed.upsert_of_not_mem _ hnew, List.find?_append]
  congr 1
  by_cases hmatch : dir.id = folder ∧ f.getName = name <;> simp [Rec.write, hmatch]

theorem later_new {s : Store} (hs : Bounded B s) {dir : SyncDirectory} {f : SyncFile} (hid : f.id = none)
    (hknown : (dir.id, f.getName) ∈ B.known) (hlen : f.versions.length ≤ B.longest (dir.id, f.getName)) :
    Later B s (s.updateSyncFile dir f).1 := by
  refine ⟨(s.updateSyncFile_frame dir f).1, fun x hx => ?_, fun x hx => ?_⟩
  · rcases s.mem_updateSyncFile_cases dir hx with hx | hx
    · exact hs x hx
    · rw [s.stored_new hid] at hx
      rw [hx]
      exact ⟨hknown, hlen⟩
  · exact ⟨x, s.mem_updateSyncFile_new dir hid hx, rfl, rfl, rfl, Nat.le_refl _⟩

theorem merged_new {dir : SyncDirectory} {l : List SyncFile} {changed : Bool} {s : Store} (hs : Bounded B s)
    (ha : Aligns dir l changed s) {info : FileInfo} (hinfo : SaneInfo B dir.id info) {f : SyncFile}
    (hin : incoming l info = some (some f)) (hx : l.find? (fun x => x.getName = info.name) = none) (hv : f.versions ≠ []) :
    (s.updateSyncFile dir f).2 = some () ∧
      Merged B dir (setFirst (fun x => x.getName = info.name) f l) changed s (s.updateSyncFile dir f).1 := by
  obtain ⟨first, cs, -, hcs, hvs, -, -, -, hcase⟩ := incoming_cases hin
  have hid : f.id = none := by
    rcases hcase with ⟨x, hx', -⟩ | ⟨-, hid, -⟩
    · rw [hx] at hx'; cases hx'
    · exact hid
  have hname : f.getName = info.name := by rw [getName_eq, (incoming_new hin hx).1, hinfo.name]
  have hflen : f.versions.length = cs.length := by rw [hvs, List.length_map]
  have hshort : f.versions.length ≤ B.longest (dir.id, info.name) := hflen ▸ hinfo.short cs hcs
  have hlookup := @lookup_new s dir f hid hv
  have hkept : ∀ {folder name : Text} {r : Rec}, s.lookup folder name = some r →
      (s.updateSyncFile dir f).1.lookup folder name = some r := by
    intro folder name r hr
    rw [hlookup, hr]
    rfl
  have hdepth : ∀ u, depthAt s u ≤ depthAt (s.updateSyncFile dir f).1 u := by
    intro u
    unfold depthAt
    cases hl : s.lookup u.1 u.2 with
    | none => exact Nat.zero_le _
    | some r => rw [hkept hl]
  refine ⟨?_, later_new hs hid (hname ▸ hinfo.known) (hname ▸ hshort), gap_le B hdepth, fun hch => ?_, fun a y hy => ?_,
    (fun h => by cases h)⟩
  · rw [s.updateSyncFile_returns dir hv, Store.storedCount, s.stored_new hid]
    simp
  · have hnone := ha.missing hch info.name hx
    have hself : (s.updateSyncFile dir f).1.lookup dir.id info.name = some (Rec.write none (s.target f) dir f) := by
      rw [hlookup, hnone, if_pos ⟨rfl, hname⟩]
      rfl
    have hwrite : (Rec.write none (s.target f) dir f).versions = f.versions := rfl
    have hpos := List.length_pos_iff.mpr hv
    refine gap_lt B hdepth hinfo.known ?_ ?_
    · unfold depthAt
      simp only [hnone, hself, Option.map_none, Option.getD_none, Option.map_some, Option.getD_some, hwrite]
      exact hpos
    · unfold depthAt
      simp only [hself, Option.map_some, Option.getD_some, hwrite]
      exact hshort
  · rw [setFirst_of_find?_none hx] at hy
    obtain ⟨r, hr, hrest⟩ := ha.found a y hy
    exact ⟨r, hkept hr, hrest⟩

/-- What a merge writes for a received file: it panics before anything is written, or it
    brings the store closer, and the first time so it is strictly closer. -/
theorem merged_write {dir : SyncDirectory} {l : List SyncFile} {changed : Bool} {s : Store} (hs : Bounded B s)
    (ha : Aligns dir l changed s) {info : FileInfo} (hinfo : SaneInfo B dir.id info) {f : SyncFile}
    (hin : incoming l info = some (some f)) :
    s.updateSyncFile dir f = (s, none) ∨ (s.updateSyncFile dir f).2 = some () ∧
      Merged B dir (setFirst (fun x => x.getName = info.name) f l) changed s (s.updateSyncFile dir f).1 := by
  cases hx : l.find? fun x => x.getName = info.name with
  | some x => exact Or.inr (merged_found hs ha hinfo hin hx)
  | none =>
    by_cases hv : f.versions = []
    · exact Or.inl (s.records_updateSyncFile_nil dir hv)
    · exact Or.inr (merged_new hs ha hinfo hin hx hv)

end BepRs.Gossip
