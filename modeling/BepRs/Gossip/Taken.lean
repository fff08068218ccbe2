/-
  BepRs.Gossip.Taken — what a `handle_index` does, while the other tasks of its node run.

  It goes through the files of the message with a copy of the index it read at the start. The
  first time it meets a name, the copy has the entry of the name's first record, or there is no
  such record (`Mirrors`); so then the store gets what the message says of the name first, if it
  has less (`took_write`). What a message says later of a name may go to a second record of it.

  - `takes_handleIndex`: unless it panics the store has heard the whole message, histories only
    get longer, and where one did a download is going to be started.
-/

import BepRs.Gossip.Duty

namespace BepRs.Gossip

open BepRs.Lib BepRs.Lib.Path BepRs.Lib.Task BepRs.State BepRs.Sync BepRs.Relay

variable {L : Text × Text → List Version}

/-! ## The copy of the index -/

structure Mirrors (dir : SyncDirectory) (l : List SyncFile) (met : List Text) (s : Store) : Prop where
  /-- The entries are the first records of their names. -/
  aligns : Aligns dir l true s
  missing : ∀ a, l.find? (fun x => x.getName = a) = none → a ∉ met → s.lookup dir.id a = none

theorem mirrors_index (s : Store) (dir : SyncDirectory) : Mirrors dir (s.index dir.id) [] s := by
  have ha := aligns_index s dir
  exact ⟨⟨ha.found, fun h => by cases h⟩, fun a hx _ => ha.missing rfl a hx⟩

theorem Mirrors.steady {dir : SyncDirectory} {l : List SyncFile} {met : List Text} {s s' : Store} (h : Mirrors dir l met s)
    (hs : Steady L s s') : Mirrors dir l met s' := by
  refine ⟨⟨fun a x hx => ?_, fun h => by cases h⟩, fun a hx ha => ?_⟩
  · obtain ⟨r, hr, hid, hpath, hlen⟩ := h.aligns.found a x hx
    have hfirst := hs.first dir.id a
    rw [hr, Option.map_some] at hfirst
    obtain ⟨r', hr', hpair⟩ := Option.map_eq_some_iff.mp hfirst
    obtain ⟨hid', hlist⟩ := Prod.mk.inj hpair
    have hname : r'.name = r.name := (s'.lookup_some hr').2.2.trans (s.lookup_some hr).2.2.symm
    exact ⟨r', hr', by rw [hid, hid'], hpath.trans hname.symm, by rw [hlen, hlist]⟩
  · have hfirst := hs.first dir.id a
    rw [h.missing a hx ha, Option.map_none] at hfirst
    exact Option.map_eq_none_iff.mp hfirst

/-! ## One file of the message -/

/-- What a store makes of a file of a message. -/
structure Took (L : Text × Text → List Version) (dir : SyncDirectory) (l : List SyncFile) (met : List Text) (info : FileInfo)
    (s s' : Store) : Prop where
  kept : Kept L s s'
  grows : ∀ folder name, listAt s folder name <+: listAt s' folder name
  inside : ∀ folder name, listAt s' folder name ≠ listAt s folder name → folder = dir.id
  heard : info.name ∉ met → ∀ cs, info.version = some cs → cs.length ≤ (listAt s' dir.id info.name).length
  mirrors : Mirrors dir l (met ++ [info.name]) s'

/-- A file the store has no less of. -/
theorem took_skip {dir : SyncDirectory} {l : List SyncFile} {met : List Text} {info : FileInfo} {s : Store} (hs : Along L s)
    (hl : Mirrors dir l met s) (hin : incoming l info = some none) : Took L dir l met info s s := by
  refine ⟨kept_refl hs, fun _ _ => List.prefix_refl _, fun _ _ h => absurd rfl h, fun _ cs hcs => ?_,
    hl.aligns, fun a hx ha => hl.missing a hx fun h => ha (List.mem_append_left _ h)⟩
  unfold incoming at hin
  rw [hcs] at hin
  cases hx : l.find? fun x => x.getName = info.name with
  | none =>
    rw [hx] at hin
    cases hfirst : info.blocks.head? <;> simp [hfirst] at hin
  | some x =>
    rw [hx] at hin
    obtain ⟨r, hr, -, -, hlen⟩ := hl.aligns.found info.name x hx
    have hge : cs.length ≤ x.versions.length := by
      by_contra hlt
      simp only [Option.bind_eq_bind, Option.bind_some, if_neg hlt] at hin
      cases hfirst : info.blocks.head? <;> simp [hfirst] at hin
    simp only [listAt, hr, Option.map_some, Option.getD_some]
    omega

theorem listAt_of_lookup {s : Store} {folder name : Text} {r : Rec} (h : s.lookup folder name = some r) :
    listAt s folder name = r.versions := by
  rw [listAt, h]
  rfl

/-- A file the store has less of. -/
theorem took_found {dir : SyncDirectory} {l : List SyncFile} {met : List Text} {info : FileInfo} {s : Store} (hs : Along L s)
    (hl : Mirrors dir l met s) (hinfo : ∀ cs, info.version = some cs → cs.map Counter.version <+: L (dir.id, info.name))
    {f x : SyncFile} (hin : incoming l info = some (some f)) (hx : l.find? (fun x => x.getName = info.name) = some x) :
    Took L dir (setFirst (fun x => x.getName = info.name) f l) met info s (s.updateSyncFile dir f).1 := by
  obtain ⟨first, cs, -, hcs, hlong, hvs, -, hid, hpath, -⟩ := incoming_found hin hx
  obtain ⟨r, hr, hxid, hxpath, hxlen⟩ := hl.aligns.found info.name x hx
  obtain ⟨hmem, hfolder, hrname⟩ := s.lookup_some hr
  have hflen : f.versions.length = cs.length := by rw [hvs, List.length_map]
  have hv : f.versions ≠ [] := by
    rw [← List.length_pos_iff, hflen]; omega
  have hfpath : f.path = r.name := hpath.trans hxpath
  have hname : f.getName = r.name := by rw [getName_eq, hfpath, s.name_normal hmem]
  have hfid : f.id = some r.id := hid.trans hxid
  have hlookup := lookup_rewrite hmem hfid hfolder hname hv
  have hlist : f.versions <+: L (r.folder, r.name) := by
    rw [hvs, hfolder, hrname]
    exact hinfo cs hcs
  -- the first record of every other name stays
  have hother : ∀ folder name z, s.lookup folder name = some z → z.id ≠ r.id →
      (s.updateSyncFile dir f).1.lookup folder name = some z := by
    intro folder name z hz hne
    rw [hlookup, hz, Option.map_some, if_neg hne]
  have hself : ∀ folder name z, s.lookup folder name = some z → z.id = r.id →
      z = r ∧ listAt (s.updateSyncFile dir f).1 folder name = Chain.extend r.versions f.versions := by
    intro folder name z hz he
    refine ⟨List.inj_on_of_nodup_map s.records_nodup (s.lookup_some hz).1 hmem he, ?_⟩
    rw [listAt, hlookup, hz, Option.map_some, if_pos he]
    rfl
  have hnone : ∀ folder name, s.lookup folder name = none → (s.updateSyncFile dir f).1.lookup folder name = none := by
    intro folder name hz
    rw [hlookup, hz, Option.map_none]
  refine ⟨kept_rewrite hs hmem hfid hfolder hname hlist, fun folder name => ?_, fun folder name hne => ?_, fun _ cs' hcs' => ?_,
    aligns_rewrite hl.aligns hx hr hfid hfpath (by omega) hv, fun a hxa ha => ?_⟩
  · cases hz : s.lookup folder name with
    | none =>
      rw [listAt, hz]
      exact List.nil_prefix
    | some z =>
      by_cases he : z.id = r.id
      · obtain ⟨rfl, hnew⟩ := hself folder name z hz he
        rw [hnew, listAt_of_lookup hz]
        exact Chain.prefix_extend _ _
      · rw [listAt_of_lookup hz, listAt_of_lookup (hother folder name z hz he)]
  · cases hz : s.lookup folder name with
    | none => exact absurd (by rw [listAt, listAt, hz, hnone folder name hz]) hne
    | some z =>
      by_cases he : z.id = r.id
      · obtain ⟨rfl, -⟩ := hself folder name z hz he
        exact (s.lookup_some hz).2.1.symm.trans hfolder
      · exact absurd (by rw [listAt_of_lookup hz, listAt_of_lookup (hother folder name z hz he)]) hne
  · rw [(hself dir.id info.name r hr rfl).2, Chain.length_extend]
    rw [hcs] at hcs'
    cases hcs'
    omega
  · have hfind : l.find? (fun x => x.getName = a) = none := by
      have hfn : f.getName = info.name := hname.trans hrname
      by_cases he : info.name = a
      · exact absurd (List.mem_append_right _ (List.mem_singleton.mpr he.symm)) ha
      · rwa [find?_name_setFirst hfn he] at hxa
    exact hnone _ _ (hl.missing a hfind fun h => ha (List.mem_append_left _ h))

/-- A file the store has nothing of. -/
theorem took_new {dir : SyncDirectory} {l : List SyncFile} {met : List Text} {info : FileInfo} {s : Store} (hs : Along L s)
    (hl : Mirrors dir l met s) (hinfo : ∀ cs, info.version = some cs → cs.map Counter.version <+: L (dir.id, info.name))
    (hnormal : normal info.name = info.name) {f : SyncFile} (hin : incoming l info = some (some f))
    (hx : l.find? (fun x => x.getName = info.name) = none) (hv : f.versions ≠ []) :
    Took L dir (setFirst (fun x => x.getName = info.name) f l) met info s (s.updateSyncFile dir f).1 := by
  obtain ⟨first, cs, -, hcs, hvs, -, -, -, hcase⟩ := incoming_cases hin
  have hid : f.id = none := by
    rcases hcase with ⟨x, hx', -⟩ | ⟨-, hid, -⟩
    · rw [hx] at hx'; cases hx'
    · exact hid
  have hname : f.getName = info.name := by rw [getName_eq, (incoming_new hin hx).1, hnormal]
  have hlist : f.versions <+: L (dir.id, info.name) := by
    rw [hvs]
    exact hinfo cs hcs
  have hlookup := @lookup_new s dir f hid hv
  have hkeep : ∀ {folder name : Text} {r : Rec}, s.lookup folder name = some r →
      (s.updateSyncFile dir f).1.lookup folder name = some r := by
    intro folder name r hr
    rw [hlookup, hr]
    rfl
  have hnone : ∀ {folder name : Text}, s.lookup folder name = none → ¬ (dir.id = folder ∧ f.getName = name) →
      (s.updateSyncFile dir f).1.lookup folder name = none := by
    intro folder name hz hne
    rw [hlookup, hz, if_neg hne]
    rfl
  refine ⟨⟨sameFolders_updateSyncFile s dir f, fun x hx => ?_, fun x hx => ?_⟩, fun folder name => ?_, fun folder name hne => ?_,
    fun hmet cs' hcs' => ?_, ⟨fun a y hy => ?_, fun h => by cases h⟩, fun a hxa ha => ?_⟩
  · rcases s.mem_updateSyncFile_cases dir hx with hx | hx
    · exact hs x hx
    · rw [s.stored_new hid] at hx
      rw [hx]
      show Chain.extend [] f.versions <+: L (dir.id, f.getName)
      rw [Chain.nil_extend, hname]
      exact hlist
  · exact ⟨x, s.mem_updateSyncFile_new dir hid hx, rfl, rfl, rfl, List.prefix_refl _⟩
  · cases hz : s.lookup folder name with
    | none =>
      rw [listAt, hz]
      exact List.nil_prefix
    | some z => rw [listAt_of_lookup hz, listAt_of_lookup (hkeep hz)]
  · cases hz : s.lookup folder name with
    | some z => exact absurd (by rw [listAt_of_lookup hz, listAt_of_lookup (hkeep hz)]) hne
    | none =>
      by_contra hf
      exact hne (by rw [listAt, listAt, hz, hnone hz fun h => hf h.1.symm])
  · have hmissing := hl.missing info.name hx hmet
    have hself : (s.updateSyncFile dir f).1.lookup dir.id info.name = some (Rec.write none (s.target f) dir f) := by
      rw [hlookup, hmissing, if_pos ⟨rfl, hname⟩]
      rfl
    rw [hcs] at hcs'
    cases hcs'
    rw [listAt_of_lookup hself]
    show cs.length ≤ (Chain.extend [] f.versions).length
    rw [Chain.nil_extend, hvs, List.length_map]
  · rw [setFirst_of_find?_none hx] at hy
    obtain ⟨r, hr, hrest⟩ := hl.aligns.found a y hy
    exact ⟨r, hkeep hr, hrest⟩
  · rw [setFirst_of_find?_none hx] at hxa
    refine hnone (hl.missing a hxa fun h => ha (List.mem_append_left _ h)) fun h => ha (List.mem_append_right _ ?_)
    rw [List.mem_singleton, ← h.2, hname]

/-- A write panics before anything is written, or the store takes the file. -/
theorem took_write {dir : SyncDirectory} {l : List SyncFile} {met : List Text} {info : FileInfo} {s : Store} (hs : Along L s)
    (hl : Mirrors dir l met s) (hinfo : ∀ cs, info.version = some cs → cs.map Counter.version <+: L (dir.id, info.name))
    (hnormal : normal info.name = info.name) {f : SyncFile} (hin : incoming l info = some (some f)) :
    s.updateSyncFile dir f = (s, none) ∨
      Took L dir (setFirst (fun x => x.getName = info.name) f l) met info s (s.updateSyncFile dir f).1 := by
  cases hx : l.find? fun x => x.getName = info.name with
  | some x => exact Or.inr (took_found hs hl hinfo hin hx)
  | none =>
    by_cases hv : f.versions = []
    · exact Or.inl (s.records_updateSyncFile_nil dir hv)
    · exact Or.inr (took_new hs hl hinfo hnormal hin hx hv)

/-! ## The whole message -/

theorem Heard.grows {s s' : Store} {m : Index} (h : Heard s m)
    (hgrows : ∀ name, listAt s m.folder name <+: listAt s' m.folder name) : Heard s' m :=
  fun name len hr => Nat.le_trans (h name len hr) (hgrows name).length_le

theorem heard_concat {s : Store} {folder : Text} {files : List FileInfo} {info : FileInfo} (h : Heard s ⟨folder, files⟩)
    (hinfo : info.name ∉ files.map FileInfo.name → ∀ cs, info.version = some cs →
      cs.length ≤ (listAt s folder info.name).length) :
    Heard s ⟨folder, files ++ [info]⟩ := by
  intro name len hr
  obtain ⟨x, cs, hx, hcs, hlen⟩ := hr
  rw [List.find?_append] at hx
  cases hfind : files.find? fun info => info.name = name with
  | some y =>
    rw [hfind] at hx
    exact h name len ⟨y, cs, hfind, by rw [Option.some.inj hx]; exact hcs, hlen⟩
  | none =>
    rw [hfind, Option.none_or] at hx
    have hmem := List.mem_of_find?_eq_some hx
    have hname := List.find?_some hx
    rw [List.mem_singleton] at hmem
    subst hmem
    rw [decide_eq_true_iff] at hname
    subst hname
    rw [← hlen]
    refine hinfo (fun hin => ?_) cs hcs
    obtain ⟨y, hy, hyn⟩ := List.mem_map.mp hin
    exact List.find?_eq_none.mp hfind y hy (by simpa using hyn)

/-- A `handle_index` of the message on its way. The other tasks of the node leave the histories
    as they are between its calls. -/
def Takes (L : Text × Text → List Version) (m : Index) : BepProg Unit → Store → Prop
  | .ret _, s => Heard s m
  | .panic, _ => True
  | .ask o k, s => ∀ s', Steady L s s' → ∀ s'' x, Acts s' o s'' x →
      posts o = [] ∧ Kept L s' s'' ∧ (∀ folder name, listAt s' folder name <+: listAt s'' folder name) ∧
      (∀ folder name, listAt s'' folder name ≠ listAt s' folder name →
        folder = m.folder ∧ ∀ R, Leads (S := bep) R (fun _ => False) (Spawns folder) (resume k x)) ∧
      ∀ r, x = some r → Takes L m (k r) s''

theorem Takes.steady {m : Index} {p : BepProg Unit} {s s' : Store} (h : Takes L m p s) (hs : Steady L s s') : Takes L m p s' := by
  cases p with
  | ret u => exact Heard.grows h fun name => by rw [hs.listAt]
  | panic => trivial
  | ask o k => exact fun s'' hs'' => h s'' (hs.trans hs'')

theorem takes_read {m : Index} {o : DbOp} {f : o.Ans → BepProg Unit} {s : Store}
    (hstore : ∀ s, (dbDo s o).1 = s) (h : ∀ s', Steady L s s' → ∀ r, (dbDo s' o).2 = some r → Takes L m (f r) s') :
    Takes L m (db o >>= f) s := by
  intro s' hs' s'' x hd
  obtain ⟨hstore', hx⟩ := acts_db hd
  rw [hstore] at hstore'
  subst hstore'
  refine ⟨rfl, kept_refl hs'.kept.along, fun _ _ => List.prefix_refl _, fun _ _ hne => absurd rfl hne, fun r hr => ?_⟩
  exact h _ hs' r (hx.trans hr)

theorem takes_finish {m : Index} {dir : SyncDirectory} {changed : Bool} {s : Store} (hs : Heard s m) :
    Takes L m (finish dir changed) s := by
  cases changed with
  | false => exact hs
  | true =>
    intro s' hs' s'' x hd
    cases hd
    refine ⟨rfl, kept_refl hs'.kept.along, fun _ _ => List.prefix_refl _, fun _ _ hne => absurd rfl hne, fun r hr => ?_⟩
    exact Heard.grows hs fun name => by rw [hs'.listAt]

/-- The loop over the files of the message, from some file on. -/
theorem takes_files {m : Index} {dir : SyncDirectory} (hid : dir.id = m.folder) (htold : Told L m) : ∀ {files : List FileInfo}
    {before : List FileInfo} {l : List SyncFile} {changed : Bool} {s : Store}, m.files = before ++ files → Along L s →
    Mirrors dir l (before.map FileInfo.name) s → Heard s ⟨m.folder, before⟩ →
    Takes L m (handleFiles dir files l changed >>= finish dir) s := by
  intro files
  induction files with
  | nil =>
    intro before l changed s hfiles _ _ hheard
    rw [List.append_nil] at hfiles
    refine takes_finish ?_
    rw [← hfiles] at hheard
    exact hheard
  | cons info files ih =>
    intro before l changed s hfiles hs hl hheard
    obtain ⟨hnormal, hlist⟩ := htold info (by rw [hfiles]; simp)
    rw [← hid] at hlist
    have hfiles' : m.files = (before ++ [info]) ++ files := by rw [hfiles, List.append_assoc, List.singleton_append]
    -- once the file was taken, the rest of the message is
    have hrest : ∀ {l' : List SyncFile} {changed' : Bool} {s₁ s₂ : Store},
        Took L dir l' (before.map FileInfo.name) info s₁ s₂ → Heard s₁ ⟨m.folder, before⟩ →
        Takes L m (handleFiles dir files l' changed' >>= finish dir) s₂ := by
      intro l' changed' s₁ s₂ ht hh
      refine ih hfiles' ht.kept.along (by rw [List.map_append, List.map_singleton]; exact ht.mirrors) (heard_concat ?_ ?_)
      · exact Heard.grows hh fun name => ht.grows _ _
      · rw [← hid]
        exact ht.heard
    rw [handleFiles_cons]
    cases hin : incoming l info with
    | none => trivial
    | some w =>
      cases w with
      | none => exact hrest (took_skip hs hl hin) hheard
      | some f =>
        intro s' hs' s'' x hd
        obtain ⟨hstore, hx⟩ := acts_db hd
        have hdo : dbDo s' (.updateSyncFile dir f) = s'.updateSyncFile dir f := rfl
        rw [hdo] at hstore hx
        rcases took_write hs'.kept.along (hl.steady hs') hlist hnormal hin with hsame | htook
        · -- the file has no version: a panic, and nothing is written
          rw [hsame] at hstore hx
          subst hstore hx
          exact ⟨rfl, kept_refl hs'.kept.along, fun _ _ => List.prefix_refl _, fun _ _ hne => absurd rfl hne,
            fun r hr => (by cases hr)⟩
        · rw [hstore] at htook
          refine ⟨rfl, htook.kept, htook.grows, fun folder name hne => ?_, fun r hr => ?_⟩
          · obtain rfl := htook.inside folder name hne
            refine ⟨hid, fun R => ?_⟩
            cases x with
            | none => exact .panicked
            | some r => exact leads_handleFiles dir files _
          · exact hrest htook (Heard.grows hheard fun name => by rw [hs'.listAt])

theorem takes_handleIndex {m : Index} (htold : Told L m) (s : Store) :
    Takes L m (handleIndex m.folder m.files) s := by
  unfold handleIndex
  refine takes_read (fun _ => rfl) fun s' hs' found hfound => ?_
  cases found with
  | none => trivial
  | some dir =>
    have hid : dir.id = m.folder := getSyncDirectory_id (Option.some.inj hfound)
    refine takes_read (fun _ => rfl) fun s'' hs'' index hindex => ?_
    rw [dbDo_getSyncFiles] at hindex
    cases hindex
    refine takes_files hid htold (List.nil_append _).symm hs''.kept.along (mirrors_index s'' dir) fun name len hr => ?_
    obtain ⟨info, cs, hinfo, -⟩ := hr
    cases hinfo

end BepRs.Gossip
