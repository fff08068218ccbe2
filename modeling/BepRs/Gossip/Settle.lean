/-
  BepRs.Gossip.Settle — when the gossip is over, the nodes agree.

  What a node has recorded and a peer of it has not is always on its way (`Covered`): a
  `handle_index` of the node is going to start a download, or a download to spread the news, or
  a task of the connection to read the index, or to send what it read; or the message is under
  way, or the peer is taking it. No step drops it, in whatever order the tasks of all nodes go
  on and the messages arrive (`covered_work`, `covered_merge`, `covered_take`); a task that
  fails stays where it is.

  - `gossip_settles`: so once everything has come to an end and nothing failed, the peers have
    recorded it.
-/

import BepRs.Access.Absent
import BepRs.Gossip.Taken

namespace BepRs.Gossip

open BepRs.Lib BepRs.Lib.Path BepRs.Lib.Task BepRs.State BepRs.Sync BepRs.Relay

variable {ι κ : Type} {L : Text × Text → List Version}

/-- Any answers. -/
abbrev Any (o : Op) (_ : o.Ans) : Prop := True

/-! ## The invariant -/

section

variable (w : Wires ι κ) (c₀ : Wired ι κ)

/-- How much of a history a node has. -/
def Wired.len (c : Wired ι κ) (i : ι) (folder name : Text) : Nat := (listAt (c.member i).store folder name).length

/-- Every task keeps to its duties, and a node's histories only get longer. -/
structure Sound (L : Text × Text → List Version) (c : Wired ι κ) : Prop where
  kept : ∀ i, Kept L (c₀.member i).store (c.member i).store
  grown : ∀ i folder name, listAt (c₀.member i).store folder name <+: listAt (c.member i).store folder name
  told : ∀ t ∈ c.mail, Told L t.2
  tasks : ∀ i, ∀ t ∈ (c.member i).tasks, Dutiful L (fun _ _ => True) t.2 (c.member i).store
  merges : ∀ i, ∀ x ∈ (c.member i).merges, Takes L x.2.1 x.2.2 (c.member i).store
  ended : ∀ i, ∀ x ∈ (c.member i).merges.tail, ∀ o k, x.2.2 ≠ .ask o k

/-- The far end of a connection has as much of a history, or it is on its way there. -/
inductive Covered (c : Wired ι κ) (e : κ) (folder name : Text) : Prop
  | heard : c.len (w.owner e) folder name ≤ c.len (w.owner (w.far e)) folder name → Covered c e folder name
  | merging (x : κ × Index × BepProg Unit) : x ∈ (c.member (w.owner e)).merges →
      Leads Any (fun _ => False) (Spawns folder) x.2.2 → Covered c e folder name
  | fetching (t : κ × Work) : t ∈ (c.member (w.owner e)).tasks → Leads Any Failed (Spreads folder) t.2 → Covered c e folder name
  | announcing (p : Work) : (e, p) ∈ (c.member (w.owner e)).tasks →
      Leads (Answers (c₀.member (w.owner e)).store) Failed (Reads (c₀.member (w.owner e)).store folder) p →
      Covered c e folder name
  | telling (p : Work) (files : List SyncFile) (x : SyncFile) : (e, p) ∈ (c.member (w.owner e)).tasks →
      Leads (Answers (c₀.member (w.owner e)).store) Failed (Sends folder files) p →
      files.find? (fun x => x.getName = name) = some x → c.len (w.owner e) folder name ≤ x.versions.length →
      Covered c e folder name
  | posted (m : Index) (len : Nat) : (e, m) ∈ c.mail → m.folder = folder → Reports m name len →
      c.len (w.owner e) folder name ≤ len → Covered c e folder name
  | taking (x : κ × Index × BepProg Unit) (len : Nat) : x ∈ (c.member (w.owner (w.far e))).merges → x.2.1.folder = folder →
      Reports x.2.1 name len → c.len (w.owner e) folder name ≤ len → Covered c e folder name

end

variable {w : Wires ι κ} {c₀ c c' : Wired ι κ}

/-- When all has come to an end, the far end has as much. -/
theorem Covered.settled {e : κ} {folder name : Text} (h : Covered w c₀ c e folder name) (hs : Sound c₀ L c) (hquiet : Settled c) :
    c.len (w.owner e) folder name ≤ c.len (w.owner (w.far e)) folder name := by
  have hdone : ∀ {i : ι} {t : κ × Work} {R : (o : Op) → o.Ans → Prop} {Goal : Work → Prop}, t ∈ (c.member i).tasks →
      Leads R Failed Goal t.2 → (∀ a, ¬ Goal (.ret a)) → False := by
    intro i t R Goal ht hl hgoal
    rw [hquiet.tasks i t ht] at hl
    rcases leads_ret hl with hbad | hthere
    · exact hbad rfl
    · exact hgoal _ hthere
  cases h with
  | heard h => exact h
  | merging x hx hl =>
    rw [hquiet.merges _ x hx] at hl
    rcases leads_ret hl with hbad | hthere
    · exact hbad.elim
    · obtain ⟨dir, k, -, hp⟩ := hthere
      cases hp
  | fetching t ht hl =>
    refine (hdone ht hl fun a hgoal => ?_).elim
    obtain ⟨dir, k, -, hp⟩ := hgoal
    cases hp
  | announcing p ht hl =>
    refine (hdone ht hl fun a hgoal => ?_).elim
    obtain ⟨k, hp, -⟩ := hgoal
    cases hp
  | telling p files x ht hl _ _ =>
    refine (hdone ht hl fun a hgoal => ?_).elim
    obtain ⟨infos, k, hp, -⟩ := hgoal
    cases hp
  | posted m len hm _ _ _ =>
    rw [hquiet.mail] at hm
    cases hm
  | taking x len hx hfolder hr hlen =>
    have htakes := hs.merges _ x hx
    rw [hquiet.merges _ x hx] at htakes
    have hheard := htakes name len hr
    rw [hfolder] at hheard
    exact hlen.trans hheard

/-! ## One step -/

/-- After an operation a task is where it was to get, or still gets there. -/
theorem leads_resume {α : Type} {R : (o : Op) → o.Ans → Prop} {Bad : α → Prop} {Goal : BepProg α → Prop} {o : Op}
    {k : o.Ans → BepProg α} (h : Leads (S := bep) R Bad Goal (.ask o k)) {x : Option o.Ans} (hx : ∀ r, x = some r → R o r) :
    Goal (.ask o k) ∨ Leads (S := bep) R Bad Goal (resume k x) := by
  rcases leads_step h with hgoal | hrest
  · exact .inl hgoal
  · cases x with
    | none => exact .inr .panicked
    | some r => exact .inr (hrest r (hx r rfl))

/-- What was read of a history is what there is. -/
theorem find_index {s : Store} {folder name : Text} (h : 0 < (listAt s folder name).length) :
    ∃ x, (s.index folder).find? (fun x => x.getName = name) = some x ∧ x.versions = listAt s folder name := by
  cases hl : s.lookup folder name with
  | none =>
    rw [listAt, hl] at h
    cases h
  | some r =>
    refine ⟨r.file, by rw [s.find?_index, hl, Option.map_some], ?_⟩
    rw [listAt_of_lookup hl]
    rfl

/-- What was read is what is sent. -/
theorem reports_sent {folder name : Text} {x : SyncFile} : ∀ {files : List SyncFile} {infos : List FileInfo},
    infos.map (fun info => (info.name, info.version)) =
      files.map (fun x => (x.getName, some (x.versions.map fun v => (⟨v.1, v.2⟩ : Counter)))) →
    files.find? (fun x => x.getName = name) = some x → Reports ⟨folder, infos⟩ name x.versions.length := by
  intro files
  induction files with
  | nil => intro infos _ hx; cases hx
  | cons y files ih =>
    intro infos hinfos hx
    cases infos with
    | nil => cases hinfos
    | cons info infos =>
      rw [List.map_cons, List.map_cons, List.cons.injEq, Prod.mk.injEq] at hinfos
      obtain ⟨⟨hname, hversion⟩, hrest⟩ := hinfos
      by_cases hy : y.getName = name
      · rw [List.find?_cons_of_pos (by simpa using hy)] at hx
        cases hx
        exact ⟨info, _, List.find?_cons_of_pos (by simpa using hname.trans hy), hversion, List.length_map _⟩
      · rw [List.find?_cons_of_neg (by simpa using hy)] at hx
        obtain ⟨i, cs, hi, hcs, hlen⟩ := ih hrest hx
        exact ⟨i, cs, by rw [List.find?_cons_of_neg (by rw [hname]; simpa using hy)]; exact hi, hcs, hlen⟩

section

variable (sha256 : Bytes → Bytes) [DecidableEq ι]

omit [DecidableEq ι] in
theorem started_directoryChanged {i : ι} {e e' : κ} {dir : SyncDirectory} (he : e ∈ w.conns i) :
    (e, directoryUpdated sha256 (w.conn e) dir) ∈ started sha256 w i e' (.db (.directoryChanged dir)) :=
  List.mem_map_of_mem (f := fun e' => (e', directoryUpdated sha256 (w.conn e') dir)) he

/-- A download or an announcement goes on. -/
theorem covered_work (hs : Sound c₀ L c) {n : ι} {l r : List (κ × Work)} {e' : κ} {o : Op} {k : o.Ans → Work} {s : Store}
    {x : Option o.Ans} (htasks : (c.member n).tasks = l ++ (e', .ask o k) :: r) (hdo : Acts (c.member n).store o s x) {e : κ}
    {folder name : Text} (hshares : Shares (c₀.member (w.owner e)).store (w.conn e) folder) (h : Covered w c₀ c e folder name) :
    Covered w c₀ (c.put n
      { store := s
        merges := (c.member n).merges
        tasks := (l ++ (e', resume k x) :: r) ++ started sha256 w n e' o } (c.mail ++ mailed e' o)) e folder name := by
  obtain ⟨c', hc'⟩ : ∃ c', c' = c.put n
      { store := s
        merges := (c.member n).merges
        tasks := (l ++ (e', resume k x) :: r) ++ started sha256 w n e' o } (c.mail ++ mailed e' o) := ⟨_, rfl⟩
  rw [← hc']
  have hmember : ∀ i, i ≠ n → c'.member i = c.member i := by
    intro i hi
    rw [hc']
    exact Function.update_of_ne hi ..
  have hself : c'.member n =
      { store := s
        merges := (c.member n).merges
        tasks := (l ++ (e', resume k x) :: r) ++ started sha256 w n e' o } := by
    rw [hc']
    exact Function.update_self ..
  have hsteady : Steady L (c.member n).store s := by
    have hduty := hs.tasks n (e', .ask o k) (by rw [htasks]; simp)
    exact (hduty _ (kept_refl (hs.kept n).along)).2.2.1 s x hdo
  have hlen : ∀ i, c'.len i folder name = c.len i folder name := by
    intro i
    by_cases hi : i = n
    · subst hi
      rw [Wired.len, Wired.len, hself, hsteady.listAt]
    · rw [Wired.len, Wired.len, hmember i hi]
  have hmerges : ∀ i, (c'.member i).merges = (c.member i).merges := by
    intro i
    by_cases hi : i = n
    · rw [hi, hself]
    · rw [hmember i hi]
  have hnext : (e', resume k x) ∈ (c'.member n).tasks := by
    rw [hself]
    simp
  have hstarted : ∀ t ∈ started sha256 w n e' o, t ∈ (c'.member n).tasks := by
    intro t ht
    rw [hself]
    exact List.mem_append_right _ ht
  -- a task is as it was, or it is the one that goes on
  have hkeep : ∀ i t, t ∈ (c.member i).tasks → t ∈ (c'.member i).tasks ∨ i = n ∧ t = (e', .ask o k) := by
    intro i t ht
    by_cases hi : i = n
    · subst hi
      rw [htasks] at ht
      rw [hself]
      rcases List.mem_append.mp ht with ht | ht
      · exact .inl (by simp [ht])
      · rcases List.mem_cons.mp ht with ht | ht
        · exact .inr ⟨rfl, ht⟩
        · exact .inl (by simp [ht])
    · rw [hmember i hi]
      exact .inl ht
  have hanswers : ∀ r, x = some r → Answers (c₀.member n).store o r := by
    rintro r rfl
    exact ⟨_, _, (hs.kept n).same, hdo⟩
  cases h with
  | heard h => exact .heard (by rw [hlen, hlen]; exact h)
  | merging y hy hl => exact .merging y (by rw [hmerges]; exact hy) hl
  | fetching t ht hl =>
    rcases hkeep _ t ht with ht' | ⟨hn, rfl⟩
    · exact .fetching t ht' hl
    · rcases leads_resume hl (x := x) fun _ _ => trivial with hgoal | hrest
      · obtain ⟨dir, k', hdir, hp⟩ := hgoal
        cases hp
        refine .announcing (directoryUpdated sha256 (w.conn e) dir) ?_ (leads_directoryUpdated sha256 hshares hdir)
        rw [hn]
        exact hstarted _ (started_directoryChanged sha256 ((w.mem_conns n e).mpr hn))
      · exact .fetching (e', resume k x) (by rw [hn]; exact hnext) hrest
  | announcing p ht hl =>
    rcases hkeep _ _ ht with ht' | ⟨hn, hp⟩
    · exact .announcing p ht' hl
    · cases hp
      rcases leads_resume hl (x := x) (by rw [hn]; exact hanswers) with hgoal | hrest
      · obtain ⟨k', hp, hk'⟩ := hgoal
        cases hp
        obtain ⟨-, hread⟩ := acts_db hdo
        rw [dbDo_getSyncFiles] at hread
        subst hread
        rcases Nat.eq_zero_or_pos (c.len (w.owner e') folder name) with hzero | hpos
        · exact .heard (by rw [hlen, hzero]; exact Nat.zero_le _)
        · rw [hn] at hpos
          obtain ⟨y, hy, hversions⟩ := find_index hpos
          refine .telling _ _ y (by rw [hn]; exact hnext) (hk' _) hy ?_
          rw [hlen, hn, Wired.len, hversions]
      · exact .announcing (resume k x) (by rw [hn]; exact hnext) hrest
  | telling p files y ht hl hy hle =>
    rcases hkeep _ _ ht with ht' | ⟨hn, hp⟩
    · exact .telling p files y ht' hl hy (by rw [hlen]; exact hle)
    · cases hp
      rcases leads_resume hl (x := x) (by rw [hn]; exact hanswers) with hgoal | hrest
      · obtain ⟨infos, k', hp, hinfos⟩ := hgoal
        cases hp
        refine .posted ⟨folder, infos⟩ y.versions.length ?_ rfl (reports_sent hinfos hy) (by rw [hlen]; exact hle)
        rw [hc']
        exact List.mem_append_right _ (List.mem_singleton_self _)
      · exact .telling (resume k x) files y (by rw [hn]; exact hnext) hrest hy (by rw [hlen]; exact hle)
  | posted m len hm hfolder hr hle =>
    refine .posted m len ?_ hfolder hr (by rw [hlen]; exact hle)
    rw [hc']
    exact List.mem_append_left _ hm
  | taking y len hy hfolder hr hle => exact .taking y len (by rw [hmerges]; exact hy) hfolder hr (by rw [hlen]; exact hle)

/-- A `handle_index` goes on. What it adds to a history it is going to spread. -/
theorem covered_merge (hs : Sound c₀ L c) {n : ι} {e' : κ} {m : Index} {o : Op} {k : o.Ans → BepProg Unit}
    {rest : List (κ × Index × BepProg Unit)} {s : Store} {x : Option o.Ans}
    (hmerges : (c.member n).merges = (e', m, .ask o k) :: rest) (hdo : Acts (c.member n).store o s x) {e : κ} {folder name : Text}
    (h : Covered w c₀ c e folder name) :
    Covered w c₀ (c.put n
      { store := s
        merges := (e', m, resume k x) :: rest
        tasks := (c.member n).tasks ++ started sha256 w n e' o } (c.mail ++ mailed e' o)) e folder name := by
  obtain ⟨c', hc'⟩ : ∃ c', c' = c.put n
      { store := s
        merges := (e', m, resume k x) :: rest
        tasks := (c.member n).tasks ++ started sha256 w n e' o } (c.mail ++ mailed e' o) := ⟨_, rfl⟩
  rw [← hc']
  have hmember : ∀ i, i ≠ n → c'.member i = c.member i := by
    intro i hi
    rw [hc']
    exact Function.update_of_ne hi ..
  have hself : c'.member n =
      { store := s
        merges := (e', m, resume k x) :: rest
        tasks := (c.member n).tasks ++ started sha256 w n e' o } := by
    rw [hc']
    exact Function.update_self ..
  have htakes := hs.merges n (e', m, .ask o k) (by rw [hmerges]; exact List.mem_cons_self)
  obtain ⟨-, -, hgrows, hinside, -⟩ := htakes _ (steady_refl (hs.kept n).along) s x hdo
  have hnext : (e', m, resume k x) ∈ (c'.member n).merges := by
    rw [hself]
    exact List.mem_cons_self
  by_cases hchange : w.owner e = n ∧ listAt s folder name ≠ listAt (c.member n).store folder name
  · obtain ⟨hn, hne⟩ := hchange
    exact .merging (e', m, resume k x) (by rw [hn]; exact hnext) ((hinside folder name hne).2 Any)
  have hlen : c'.len (w.owner e) folder name = c.len (w.owner e) folder name := by
    by_cases hn : w.owner e = n
    · have hsame : listAt s folder name = listAt (c.member n).store folder name := by
        by_contra hne
        exact hchange ⟨hn, hne⟩
      rw [Wired.len, Wired.len, hn, hself, hsame]
    · rw [Wired.len, Wired.len, hmember _ hn]
  have hgrow : ∀ i, c.len i folder name ≤ c'.len i folder name := by
    intro i
    by_cases hi : i = n
    · subst hi
      rw [Wired.len, Wired.len, hself]
      exact (hgrows folder name).length_le
    · rw [Wired.len, Wired.len, hmember i hi]
  have htasks : ∀ i t, t ∈ (c.member i).tasks → t ∈ (c'.member i).tasks := by
    intro i t ht
    by_cases hi : i = n
    · subst hi
      rw [hself]
      exact List.mem_append_left _ ht
    · rwa [hmember i hi]
  -- a `handle_index` is as it was, or it is the one that goes on
  have hkeep : ∀ i y, y ∈ (c.member i).merges → y ∈ (c'.member i).merges ∨ i = n ∧ y = (e', m, .ask o k) := by
    intro i y hy
    by_cases hi : i = n
    · subst hi
      rw [hmerges] at hy
      rcases List.mem_cons.mp hy with hy | hy
      · exact .inr ⟨rfl, hy⟩
      · rw [hself]
        exact .inl (List.mem_cons_of_mem _ hy)
    · rw [hmember i hi]
      exact .inl hy
  cases h with
  | heard h => exact .heard (by rw [hlen]; exact h.trans (hgrow _))
  | merging y hy hl =>
    rcases hkeep _ y hy with hy' | ⟨hn, rfl⟩
    · exact .merging y hy' hl
    · rcases leads_resume hl (x := x) fun _ _ => trivial with hgoal | hrest
      · obtain ⟨dir, k', hdir, hp⟩ := hgoal
        cases hp
        subst hdir
        refine .fetching (e', getDirectory sha256 dir) ?_ (leads_getDirectory sha256 dir)
        rw [hn, hself]
        exact List.mem_append_right _ (List.mem_singleton_self _)
      · exact .merging (e', m, resume k x) (by rw [hn]; exact hnext) hrest
  | fetching t ht hl => exact .fetching t (htasks _ t ht) hl
  | announcing p ht hl => exact .announcing p (htasks _ _ ht) hl
  | telling p files y ht hl hy hle => exact .telling p files y (htasks _ _ ht) hl hy (by rw [hlen]; exact hle)
  | posted m' len hm hfolder hr hle =>
    refine .posted m' len ?_ hfolder hr (by rw [hlen]; exact hle)
    rw [hc']
    exact List.mem_append_left _ hm
  | taking y len hy hfolder hr hle =>
    rcases hkeep _ y hy with hy' | ⟨hn, rfl⟩
    · exact .taking y len hy' hfolder hr (by rw [hlen]; exact hle)
    · exact .taking (e', m, resume k x) len (by rw [hn]; exact hnext) hfolder hr (by rw [hlen]; exact hle)

omit [DecidableEq ι] in
theorem len_of_store {c c' : Wired ι κ} {i : ι} (h : (c'.member i).store = (c.member i).store) (folder name : Text) :
    c'.len i folder name = c.len i folder name := by
  rw [Wired.len, Wired.len, h]

/-- A message is taken up. -/
theorem covered_take {l r : List (κ × Index)} {e' : κ} {m : Index} {n : ι} (hmail : c.mail = l ++ (e', m) :: r)
    (hn : n = w.owner (w.far e')) {e : κ} {folder name : Text} (h : Covered w c₀ c e folder name) :
    Covered w c₀ (c.put n
      { c.member n with merges := (w.far e', m, handleIndex m.folder m.files) :: (c.member n).merges } (l ++ r))
        e folder name := by
  obtain ⟨c', hc'⟩ : ∃ c', c' = c.put n
      { c.member n with merges := (w.far e', m, handleIndex m.folder m.files) :: (c.member n).merges } (l ++ r) := ⟨_, rfl⟩
  rw [← hc']
  have hmember : ∀ i, i ≠ n → c'.member i = c.member i := by
    intro i hi
    rw [hc']
    exact Function.update_of_ne hi ..
  have hself : c'.member n =
      { c.member n with merges := (w.far e', m, handleIndex m.folder m.files) :: (c.member n).merges } := by
    rw [hc']
    exact Function.update_self ..
  have hstore : ∀ i, (c'.member i).store = (c.member i).store ∧ (c'.member i).tasks = (c.member i).tasks := by
    intro i
    by_cases hi : i = n
    · rw [hi, hself]
      exact ⟨rfl, rfl⟩
    · rw [hmember i hi]
      exact ⟨rfl, rfl⟩
  have hlen : ∀ i, c'.len i folder name = c.len i folder name := fun i => len_of_store (hstore i).1 folder name
  have hmerges : ∀ i y, y ∈ (c.member i).merges → y ∈ (c'.member i).merges := by
    intro i y hy
    by_cases hi : i = n
    · subst hi
      rw [hself]
      exact List.mem_cons_of_mem _ hy
    · rwa [hmember i hi]
  cases h with
  | heard h => exact .heard (by rw [hlen, hlen]; exact h)
  | merging y hy hl => exact .merging y (hmerges _ y hy) hl
  | fetching t ht hl => exact .fetching t (by rw [(hstore _).2]; exact ht) hl
  | announcing p ht hl => exact .announcing p (by rw [(hstore _).2]; exact ht) hl
  | telling p files y ht hl hy hle => exact .telling p files y (by rw [(hstore _).2]; exact ht) hl hy (by rw [hlen]; exact hle)
  | posted m' len hm hfolder hr hle =>
    rw [hmail] at hm
    have hrest : (e, m') ∈ l ++ r → Covered w c₀ c' e folder name := by
      intro hm
      refine .posted m' len ?_ hfolder hr (by rw [hlen]; exact hle)
      rw [hc']
      exact hm
    rcases List.mem_append.mp hm with hm | hm
    · exact hrest (List.mem_append_left _ hm)
    · rcases List.mem_cons.mp hm with hm | hm
      · cases hm
        refine .taking (w.far e', m, handleIndex m.folder m.files) len ?_ hfolder hr (by rw [hlen]; exact hle)
        rw [← hn, hself]
        exact List.mem_cons_self
      · exact hrest (List.mem_append_right _ hm)
  | taking y len hy hfolder hr hle => exact .taking y len (hmerges _ y hy) hfolder hr (by rw [hlen]; exact hle)

/-- What a step has to show of the node that goes on. -/
theorem Sound.put (hs : Sound c₀ L c) {n : ι} {p : Member κ} {mail : List (κ × Index)} (hkept : Kept L (c.member n).store p.store)
    (hgrows : ∀ folder name, listAt (c.member n).store folder name <+: listAt p.store folder name)
    (htold : ∀ t ∈ mail, Told L t.2)
    (htasks : ∀ t ∈ p.tasks, Dutiful L (fun _ _ => True) t.2 p.store) (hmerges : ∀ x ∈ p.merges, Takes L x.2.1 x.2.2 p.store)
    (hended : ∀ x ∈ p.merges.tail, ∀ o k, x.2.2 ≠ .ask o k) : Sound c₀ L (c.put n p mail) := by
  have hmember : ∀ i, (c.put n p mail).member i = if i = n then p else c.member i := fun i => Function.update_apply ..
  refine ⟨fun i => ?_, fun i folder name => ?_, htold, fun i => ?_, fun i => ?_, fun i => ?_⟩
  all_goals
    rw [hmember]
    split
  · rename_i hi
    subst hi
    exact (hs.kept i).trans hkept
  · exact hs.kept i
  · rename_i hi
    subst hi
    exact (hs.grown i folder name).trans (hgrows folder name)
  · exact hs.grown i folder name
  · exact htasks
  · exact hs.tasks i
  · exact hmerges
  · exact hs.merges i
  · exact hended
  · exact hs.ended i

omit [DecidableEq ι] in
/-- A task goes on with its duties while the others only add to the records. -/
theorem dutiful_kept {t : Work} {s s' : Store} (h : Dutiful L (fun _ _ => True) t s) (hs : Kept L s s') :
    Dutiful L (fun _ _ => True) t s' := within_mono (fun _ _ _ => Kept.trans) (fun _ _ _ _ h => h) hs h

theorem sound_moves (hs : Sound c₀ L c) (h : Moves sha256 w c c') : Sound c₀ L c' := by
  cases h with
  | take l r e m i hmail hi hunbusy =>
    have htold : ∀ t ∈ l ++ r, Told L t.2 := by
      intro t ht
      refine hs.told t ?_
      rw [hmail]
      rcases List.mem_append.mp ht with ht | ht
      · exact List.mem_append_left _ ht
      · exact List.mem_append_right _ (List.mem_cons_of_mem _ ht)
    have hm : Told L m := hs.told (e, m) (by rw [hmail]; simp)
    refine hs.put (kept_refl (hs.kept i).along) (fun _ _ => List.prefix_refl _) htold (hs.tasks i) (fun x hx => ?_)
      (fun x hx o k he => ?_)
    · rcases List.mem_cons.mp hx with rfl | hx
      · exact takes_handleIndex hm _
      · exact hs.merges i x hx
    · cases hmerges : (c.member i).merges with
      | nil =>
        have hx' : x ∈ (c.member i).merges := hx
        rw [hmerges] at hx'
        cases hx'
      | cons y rest =>
        have hx' : x ∈ (c.member i).merges := hx
        rw [hmerges] at hx'
        rcases List.mem_cons.mp hx' with rfl | hx'
        · exact hunbusy x.1 x.2.1 o k rest (by rw [hmerges, ← he])
        · exact hs.ended i x (by rw [hmerges]; exact hx') o k he
  | merge i e m o k rest s x hmerges hdo =>
    have htakes := hs.merges i (e, m, .ask o k) (by rw [hmerges]; exact List.mem_cons_self)
    obtain ⟨hposts, hkept, hgrows, -, hnext⟩ := htakes _ (steady_refl (hs.kept i).along) s x hdo
    have htail : ∀ y ∈ rest, ∀ o k, y.2.2 ≠ .ask o k := by
      intro y hy
      exact hs.ended i y (by rw [hmerges]; exact hy)
    refine hs.put hkept hgrows (fun t ht => ?_) (fun t ht => ?_) (fun y hy => ?_) htail
    · rw [mailed, hposts] at ht
      exact hs.told t (by simpa using ht)
    · rcases List.mem_append.mp ht with ht | ht
      · exact dutiful_kept (hs.tasks i t ht) hkept
      · exact dutiful_started sha256 w i e o s t ht
    · rcases List.mem_cons.mp hy with rfl | hy
      · cases x with
        | none => trivial
        | some r => exact hnext r rfl
      · have hold := hs.merges i y (by rw [hmerges]; exact List.mem_cons_of_mem _ hy)
        obtain ⟨e', m', p⟩ := y
        cases p with
        | ret u => exact Heard.grows hold fun name => hgrows _ name
        | panic => trivial
        | ask o' k' => exact absurd rfl (htail _ hy o' k')
  | work i l r e o k s x htasks hdo =>
    have hduty := hs.tasks i (e, .ask o k) (by rw [htasks]; simp)
    obtain ⟨hmay, -, hguar, hnext⟩ := hduty _ (kept_refl (hs.kept i).along)
    have hsteady : Steady L (c.member i).store s := hguar s x hdo
    refine hs.put hsteady.kept (fun _ _ => by rw [hsteady.listAt]) (fun t ht => ?_) (fun t ht => ?_)
      (fun y hy => (hs.merges i y hy).steady hsteady) (hs.ended i)
    · rcases List.mem_append.mp ht with ht | ht
      · exact hs.told t ht
      · obtain ⟨m, hm, rfl⟩ := List.mem_map.mp ht
        exact hmay m hm
    · have hold : ∀ t ∈ (c.member i).tasks, Dutiful L (fun _ _ => True) t.2 s :=
        fun t ht => dutiful_kept (hs.tasks i t ht) hsteady.kept
      rw [htasks] at hold
      rcases List.mem_append.mp ht with ht | ht
      · rcases List.mem_append.mp ht with ht | ht
        · exact hold t (List.mem_append_left _ ht)
        · rcases List.mem_cons.mp ht with rfl | ht
          · cases x with
            | none => trivial
            | some r => exact hnext s r hdo
          · exact hold t (List.mem_append_right _ (List.mem_cons_of_mem _ ht))
      · exact dutiful_started sha256 w i e o s t ht

theorem covered_moves (hs : Sound c₀ L c) (h : Moves sha256 w c c') {e : κ} {folder name : Text}
    (hshares : Shares (c₀.member (w.owner e)).store (w.conn e) folder) (hc : Covered w c₀ c e folder name) :
    Covered w c₀ c' e folder name := by
  cases h with
  | take l r e' m i hmail hi _ => exact covered_take hmail hi hc
  | merge i e' m o k rest s x hmerges hdo => exact covered_merge sha256 hs hmerges hdo hc
  | work i l r e' o k s x htasks hdo => exact covered_work sha256 hs htasks hdo hshares hc

/-! ## A run -/

omit [DecidableEq ι] in
theorem sound_opened (hopen : Opened sha256 w c₀) (halong : ∀ i, Along L (c₀.member i).store) : Sound c₀ L c₀ := by
  refine ⟨fun i => kept_refl (halong i), fun _ _ _ => List.prefix_refl _, fun t ht => ?_, fun i t ht => ?_, fun i x hx => ?_,
    fun i x hx => ?_⟩
  · rw [hopen.mail] at ht
    cases ht
  · rw [hopen.tasks] at ht
    obtain ⟨e, -, rfl⟩ := List.mem_map.mp ht
    exact dutiful_opening sha256
  · rw [hopen.merges] at hx
    cases hx
  · rw [hopen.merges] at hx
    cases hx

omit [DecidableEq ι] in
/-- At first it is the task that opens the connection. -/
theorem covered_opened (hopen : Opened sha256 w c₀) {e : κ} {folder : Text}
    (hshares : Shares (c₀.member (w.owner e)).store (w.conn e) folder) (name : Text) : Covered w c₀ c₀ e folder name := by
  refine .announcing (opening sha256 (w.conn e)) ?_ (leads_opening sha256 hshares)
  rw [hopen.tasks]
  exact List.mem_map_of_mem (f := fun e => (e, opening sha256 (w.conn e))) ((w.mem_conns _ e).mpr rfl)

theorem wanders_sound (hopen : Opened sha256 w c₀) (halong : ∀ i, Along L (c₀.member i).store) (h : Wanders sha256 w c₀ c) :
    Sound c₀ L c ∧ ∀ e folder, Shares (c₀.member (w.owner e)).store (w.conn e) folder → ∀ name, Covered w c₀ c e folder name := by
  induction h with
  | refl => exact ⟨sound_opened sha256 hopen halong, fun e folder hshares name => covered_opened sha256 hopen hshares name⟩
  | tail _ hstep ih =>
    refine ⟨sound_moves sha256 ih.1 hstep, fun e folder hshares name => ?_⟩
    exact covered_moves sha256 ih.1 hstep hshares (ih.2 e folder hshares name)

omit [DecidableEq ι] in
/-- A node shares the folder with another. -/
def Feeds (w : Wires ι κ) (c₀ : Wired ι κ) (folder : Text) (i j : ι) : Prop :=
  ∃ e, w.owner e = i ∧ w.owner (w.far e) = j ∧ Shares (c₀.member i).store (w.conn e) folder

/-- Connections are opened, and the nodes tell one another what they have and what they hear:
    each handles its messages one at a time, and all else comes in whatever order. When all of
    it has come to an end, and no task failed, no history got lost: along shares every node has
    what the nodes before it have, and nodes that share the folder both ways, directly or
    through others, have the same. -/
theorem gossip_settles (hopen : Opened sha256 w c₀) (halong : ∀ i, Along L (c₀.member i).store) (h : Wanders sha256 w c₀ c)
    (hquiet : Settled c) {folder : Text} {i j : ι} (hfeeds : Relation.ReflTransGen (Feeds w c₀ folder) i j) (name : Text) :
    listAt (c₀.member i).store folder name <+: listAt (c.member i).store folder name ∧
      listAt (c.member i).store folder name <+: listAt (c.member j).store folder name ∧
      (Relation.ReflTransGen (Feeds w c₀ folder) j i →
        listAt (c.member i).store folder name = listAt (c.member j).store folder name) := by
  obtain ⟨hs, hcovered⟩ := wanders_sound sha256 hopen halong h
  have hpart : ∀ i, listAt (c.member i).store folder name <+: L (folder, name) := by
    intro i
    cases hl : (c.member i).store.lookup folder name with
    | none =>
      rw [listAt, hl]
      exact List.nil_prefix
    | some r =>
      obtain ⟨hr, hfolder, hname⟩ := (c.member i).store.lookup_some hl
      rw [listAt_of_lookup hl, ← hfolder, ← hname]
      exact (hs.kept i).along r hr
  have hone : ∀ i j, Feeds w c₀ folder i j → c.len i folder name ≤ c.len j folder name := by
    intro i j hij
    obtain ⟨e, rfl, rfl, hshares⟩ := hij
    exact (hcovered e folder hshares name).settled hs hquiet
  have hall : ∀ i j, Relation.ReflTransGen (Feeds w c₀ folder) i j → c.len i folder name ≤ c.len j folder name := by
    intro i j hij
    induction hij with
    | refl => exact Nat.le_refl _
    | tail _ hstep ih => exact ih.trans (hone _ _ hstep)
  have hstart : ∀ i j, Relation.ReflTransGen (Feeds w c₀ folder) i j →
      listAt (c.member i).store folder name <+: listAt (c.member j).store folder name :=
    fun i j hij => List.prefix_of_prefix_length_le (hpart i) (hpart j) (hall i j hij)
  exact ⟨hs.grown i folder name, hstart i j hfeeds, fun hback =>
    (hstart i j hfeeds).eq_of_length (Nat.le_antisymm (hall i j hfeeds) (hall j i hback))⟩

end

/-! ## Two nodes with one connection -/

/-- The tests' folder on both, shared both ways; the first node has indexed the file. -/
def duoWires : Wires Bool Bool where
  conns i := [i]
  conn _ := Access.sharedConn
  far e := !e
  owner e := e
  far_far := Bool.not_not
  mem_conns i e := by simp [eq_comm]

def duoStore (i : Bool) : Store :=
  if i then (run nodeDo History.fileTask Access.quietHost.node).1.store else Access.quietHost.node.store

def duoOpened : Wired Bool Bool where
  member i := ⟨duoStore i, [], [(i, opening History.fileSha Access.sharedConn)]⟩
  mail := []

/-- The disk has the file where it is read, and lacks it where it is downloaded. -/
def duoAnswers : (o : SysOp) → Option o.Ans
  | .readDir _ => some none
  | .readFile _ => some (some History.fileContents)
  | .pathExists _ => some false
  | .writeBlock _ _ _ => some ()
  | .readBlock _ _ _ => some none
  | .submitMessage _ => some ()
  | .submitRequest r => some (.ok (.response ⟨r.id, History.fileContents, 0⟩))
  | .closeReason _ => some ()
  | .sampleId => some 0
  | .spawnGetDirectory _ => some ()

def duoDo (s : Store) : (o : Op) → Store × Option o.Ans
  | .db o => dbDo s o
  | .sys o => (s, duoAnswers o)

theorem acts_duoDo (s : Store) (o : Op) : Acts s o (duoDo s o).1 (duoDo s o).2 := by
  cases o with
  | db o => exact .db o
  | sys o => exact .sys o _

def busy {κ : Type} : List (κ × Index × BepProg Unit) → Bool
  | (_, _, .ask _ _) :: _ => true
  | _ => false

/-- Which task goes on. -/
inductive Turn where
  | take
  | merge (i : Bool)
  | work (i : Bool) (n : Nat)

def duoTake (c : Wired Bool Bool) : Wired Bool Bool :=
  match c.mail with
  | (e, m) :: r =>
    if busy (c.member !e).merges then c
    else c.put (!e) { c.member (!e) with merges := (!e, m, handleIndex m.folder m.files) :: (c.member !e).merges } r
  | [] => c

def duoMerge (c : Wired Bool Bool) (i : Bool) : Wired Bool Bool :=
  match (c.member i).merges with
  | (e, m, .ask o k) :: rest =>
    let x := duoDo (c.member i).store o
    c.put i
      { store := x.1
        merges := (e, m, resume k x.2) :: rest
        tasks := (c.member i).tasks ++ started History.fileSha duoWires i e o } (c.mail ++ mailed e o)
  | _ => c

def duoWork (c : Wired Bool Bool) (i : Bool) (n : Nat) : Wired Bool Bool :=
  match (c.member i).tasks[n]? with
  | some (e, .ask o k) =>
    let x := duoDo (c.member i).store o
    c.put i
      { store := x.1
        merges := (c.member i).merges
        tasks := ((c.member i).tasks.take n ++ (e, resume k x.2) :: (c.member i).tasks.drop (n + 1)) ++
          started History.fileSha duoWires i e o } (c.mail ++ mailed e o)
  | _ => c

def duoTurn (c : Wired Bool Bool) : Turn → Wired Bool Bool
  | .take => duoTake c
  | .merge i => duoMerge c i
  | .work i n => duoWork c i n

theorem wanders_turn (c : Wired Bool Bool) (t : Turn) : Wanders History.fileSha duoWires c (duoTurn c t) := by
  cases t with
  | take =>
    show Wanders _ _ c (duoTake c)
    unfold duoTake
    split
    · rename_i e m r hmail
      split
      · exact .refl
      · rename_i hbusy
        refine .single (.take [] r e m (!e) hmail rfl fun e' m' o k rest h => hbusy ?_)
        rw [h]
        rfl
    · exact .refl
  | merge i =>
    show Wanders _ _ c (duoMerge c i)
    unfold duoMerge
    split
    · rename_i e m o k rest hmerges
      exact .single (.merge i e m o k rest _ _ hmerges (acts_duoDo _ o))
    · exact .refl
  | work i n =>
    show Wanders _ _ c (duoWork c i n)
    unfold duoWork
    split
    · rename_i e o k htask
      obtain ⟨hn, hget⟩ := List.getElem?_eq_some_iff.mp htask
      refine .single (.work i _ _ e o k _ _ ?_ (acts_duoDo _ o))
      rw [← hget, List.getElem_cons_drop, List.take_append_drop]
    · exact .refl

/-- Both openings, the download of the file and its news, and all messages. -/
def duoTurns : List Turn :=
  List.replicate 6 (.work true 0) ++ List.replicate 5 (.work false 0) ++
    .take :: List.replicate 4 (.merge false) ++ List.replicate 7 (.work false 1) ++ List.replicate 9 (.work false 2) ++
    .take :: List.replicate 2 (.merge true) ++ .take :: List.replicate 2 (.merge true)

def duoEnd : Wired Bool Bool := duoTurns.foldl duoTurn duoOpened

theorem wanders_turns : ∀ (ts : List Turn) (c : Wired Bool Bool), Wanders History.fileSha duoWires c (ts.foldl duoTurn c) := by
  intro ts
  induction ts with
  | nil => intro c; exact .refl
  | cons t ts ih => intro c; exact (wanders_turn c t).trans (ih _)

def isDone {α : Type} : BepProg α → Bool
  | .ret _ => true
  | _ => false

def isOk : Work → Bool
  | .ret (.ok _) => true
  | _ => false

theorem wanders_duo : Wanders History.fileSha duoWires duoOpened duoEnd :=
  wanders_turns duoTurns duoOpened

theorem settled_duo : Settled duoEnd := by
  have hmail : duoEnd.mail = [] := by decide +kernel
  have hmerges : ∀ i, ∀ x ∈ (duoEnd.member i).merges, isDone x.2.2 = true := by
    have hall : ∀ i, ((duoEnd.member i).merges.all fun x => isDone x.2.2) = true := by decide +kernel
    exact fun i => List.all_eq_true.mp (hall i)
  have htasks : ∀ i, ∀ t ∈ (duoEnd.member i).tasks, isOk t.2 = true := by
    have hall : ∀ i, ((duoEnd.member i).tasks.all fun t => isOk t.2) = true := by decide +kernel
    exact fun i => List.all_eq_true.mp (hall i)
  refine ⟨hmail, fun i x hx => ?_, fun i t ht => ?_⟩
  · have hdone := hmerges i x hx
    obtain ⟨e, m, p⟩ := x
    cases p with
    | ret u => rfl
    | panic => cases hdone
    | ask o k => cases hdone
  · have hdone := htasks i t ht
    obtain ⟨e, p⟩ := t
    cases p with
    | ret r =>
      cases r with
      | ok u => rfl
      | error e => cases hdone
    | panic => cases hdone
    | ask o k => cases hdone

theorem gossip_settles_duo : listAt (duoEnd.member false).store ['d'] ['f'] = [(7, 0)] ∧
    listAt (duoOpened.member false).store ['d'] ['f'] = [] ∧
    listAt (duoEnd.member true).store ['d'] ['f'] = listAt (duoEnd.member false).store ['d'] ['f'] := by
  have hshares : ∀ i, Shares (duoOpened.member i).store Access.sharedConn ['d'] := by
    intro i
    refine ⟨List.replicate 32 1, Access.sharedPeer, rfl, ?_, ?_, ?_⟩
    all_goals
      revert i
      decide +kernel
  have hfeeds : ∀ i, Relation.ReflTransGen (Feeds duoWires duoOpened ['d']) i (!i) :=
    fun i => .single ⟨i, rfl, rfl, hshares i⟩
  have halong : ∀ i, Along (fun u => if u = (['d'], ['f']) then [(7, 0)] else []) (duoOpened.member i).store := by
    have hall : ∀ i, ((duoOpened.member i).store.records.all fun r =>
        decide (r.versions <+: if (r.folder, r.name) = (['d'], ['f']) then [(7, 0)] else [])) = true := by decide +kernel
    exact fun i r hr => by simpa using List.all_eq_true.mp (hall i) r hr
  have hopen : Opened History.fileSha duoWires duoOpened := ⟨rfl, fun _ => rfl, fun _ => rfl⟩
  have hmutual := (gossip_settles History.fileSha hopen halong wanders_duo settled_duo
    (i := true) (j := false) (hfeeds true) ['f']).2.2
  refine ⟨by decide +kernel, by decide +kernel, ?_⟩
  exact hmutual (hfeeds false)

end BepRs.Gossip
