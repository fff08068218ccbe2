/-
  BepRs.Gossip.Terminate — the gossip ends.

  Every node has a budget for its tasks, in messages (`Solvent`); what its measure lacks is
  worth a `room` each. A step spends on what it sends and what it starts, and only a first
  change of a `handle_index` brings anything in, at the cost of the measure (`Pays`). So the
  messages sent, the budgets and the worth of the measures never add up to more than at the
  start, and neither do the changes and the measures.

  - `gossip_terminates`: no run has more changing calls than the measure at its start, nor
    more messages than a number that depends on its start only.
-/

import BepRs.Gossip.Tasks
import BepRs.History.Network
import Mathlib.Algebra.BigOperators.Group.Finset.Piecewise
import Mathlib.Data.Finset.Lattice.Fold
import Mathlib.Order.Lattice.Nat

namespace BepRs.Gossip

open BepRs.Lib BepRs.Lib.Path BepRs.Lib.Task BepRs.State BepRs.Sync

/-! ## One node -/

/-- A node that can pay for what it has under way. -/
structure Solvent (B : Bounds) (conns : List Conn) (room : Nat) (p : Party) (n : Nat) : Prop where
  bounded : Bounded B p.store
  enough : room = conns.length * p.store.folders.length
  budget : ∃ a b, a + b ≤ n ∧ (∀ q changed, p.handler = some (q, changed) → Handles B room q changed a p.store) ∧
    Affords (terms B room) p.store p.tasks b

/-- A step of a node, with what it sends and whether it is a change. -/
structure Pays (B : Bounds) (conns : List Conn) (room : Nat) (p : Party) (n : Nat) (p' : Party) (ms : List Index) (d : Nat) :
    Prop where
  solvent : ∃ n', Solvent B conns room p' n' ∧ ms.length + (n' + room * gap B p'.store) ≤ n + room * gap B p.store
  down : gap B p'.store + d ≤ gap B p.store
  sane : ∀ m ∈ ms, SaneIndex B m

section

variable {B : Bounds} {conns : List Conn} {room n : Nat} {p : Party}

theorem pays_handle (h : Solvent B conns room p n) {m : Index} (hm : SaneIndex B m) :
    Pays B conns room p n { p with handler := some (handleIndex m.folder m.files, false) } [] 0 := by
  obtain ⟨hbounded, hroom, a, b, hab, -, htasks⟩ := h
  refine ⟨⟨b, ⟨hbounded, hroom, 0, b, by omega, fun q changed hq => ?_, htasks⟩, ?_⟩, Nat.le_refl _, fun m hm => (by cases hm)⟩
  · cases hq
    exact handles_handleIndex hm p.store
  · simp only [List.length_nil]
    omega

theorem pays_configure (h : Solvent B conns room p n) {s : Store} (hrecords : s.records = p.store.records)
    (hfolders : s.folders = p.store.folders) : Pays B conns room p n { p with store := s } [] 0 := by
  obtain ⟨hbounded, hroom, a, b, hab, hhandler, htasks⟩ := h
  have hcalm := calm_configure hbounded hrecords hfolders
  refine ⟨⟨n, ⟨hcalm.later.bounded, ?_, a, b, hab, fun q changed hq => (hhandler q changed hq).calm hcalm, ?_⟩, ?_⟩, ?_,
    fun m hm => (by cases hm)⟩
  · rw [hroom, hcalm.later.folders]
  · exact affords_mono (fun _ _ _ => Later.trans) hcalm.later htasks
  · simp only [List.length_nil, hcalm.gap]
    omega
  · simp only [hcalm.gap]
    omega

variable (sha256 : Bytes → Bytes)

theorem pays_merge (h : Solvent B conns room p n) {o : Op} {k : o.Ans → BepProg Unit} {changed : Bool} {s : Store}
    {x : Option o.Ans} (hhandler : p.handler = some (.ask o k, changed)) (hdo : Acts p.store o s x) :
    Pays B conns room p n
      { store := s
        handler := some (next k x, changed || decide (s.records ≠ p.store.records))
        tasks := p.tasks ++ startedBy sha256 conns o } (posts o) (news changed p.store s) := by
  obtain ⟨hbounded, hroom, a, b, hab, hhandles, htasks⟩ := h
  obtain ⟨hposts, hprice, hlater, hdown, hrest⟩ := hhandles _ _ hhandler p.store (calm_refl hbounded) s x hdo
  have hroom' : room = conns.length * s.folders.length := by rw [hroom, hlater.folders]
  obtain ⟨started, hstarted, haffords⟩ := affords_startedBy (B := B) sha256 hroom' o
  have hworth := Nat.mul_le_mul_left room hdown
  rw [Nat.mul_add] at hworth
  refine ⟨⟨a - price room o + room * news changed p.store s + (b + started),
    ⟨hlater.bounded, hroom', _, _, Nat.le_refl _, ?_, ?_⟩, ?_⟩, hdown, ?_⟩
  · intro q changed' hq
    cases hq
    cases x with
    | none => trivial
    | some r => exact hrest r rfl
  · exact affords_append (affords_mono (fun _ _ _ => Later.trans) hlater htasks) haffords
  · dsimp only
    omega
  · rw [hposts]
    intro m hm
    cases hm

theorem pays_work (h : Solvent B conns room p n) {l r : List (BepProg Unit)} {o : Op} {k : o.Ans → BepProg Unit} {s : Store}
    {x : Option o.Ans} (htask : p.tasks = l ++ .ask o k :: r) (hdo : Acts p.store o s x) :
    Pays B conns room p n
      { store := s
        handler := p.handler
        tasks := (l ++ next k x :: r) ++ startedBy sha256 conns o } (posts o) 0 := by
  obtain ⟨hbounded, hroom, a, b, hab, hhandles, htasks⟩ := h
  rw [htask] at htasks
  obtain ⟨c, d, hcd, hask, hothers⟩ := affords_split htasks
  obtain ⟨hmay, hprice, hguar, hrest⟩ := hask p.store (later_refl hbounded)
  have hcalm : Calm B p.store s := hguar s x hdo
  have hroom' : room = conns.length * s.folders.length := by rw [hroom, hcalm.later.folders]
  obtain ⟨started, hstarted, haffords⟩ := affords_startedBy (B := B) sha256 hroom' o
  have hnext : Within (terms B room) (fun _ _ => True) (next k x) (c - price room o) s := by
    cases x with
    | none => trivial
    | some r => exact hrest s r hdo
  have hcost : price room o ≤ c := hprice
  refine ⟨⟨a + (c - price room o + d + started), ⟨hcalm.later.bounded, hroom', a, _, Nat.le_refl _,
    fun q changed hq => (hhandles q changed hq).calm hcalm, ?_⟩, ?_⟩, ?_, hmay⟩
  · exact affords_append (affords_insert hnext (affords_mono (fun _ _ _ => Later.trans) hcalm.later hothers)) haffords
  · simp only [hcalm.gap]
    omega
  · simp only [hcalm.gap]
    omega

end

/-! ## The start -/

variable {ι : Type}

section

variable [Fintype ι]

/-- How far the nodes together are from having heard everything. -/
def total (B : Bounds) (c : Net ι) : Nat := ∑ i, gap B (c.party i).store

theorem total_bound (B : Bounds) (c : Net ι) : total B c ≤ Fintype.card ι * ∑ u ∈ B.known, B.longest u := by
  have h := Finset.sum_le_card_nsmul Finset.univ (fun i => gap B (c.party i).store) _ fun i _ => gap_bound B (c.party i).store
  simpa [total] using h

/-- The files the network has heard of, each with the length of a version list. -/
def mentions (c : Net ι) : Finset ((Text × Text) × Nat) :=
  (Finset.univ.biUnion fun i =>
    ((c.party i).store.records.map fun r => ((r.folder, r.name), r.versions.length)).toFinset) ∪
  (c.sent.flatMap fun m => m.files.map fun info => ((m.folder, info.name), (info.version.getD []).length)).toFinset

/-- The longest version list of each file, over the stores and the messages. -/
def bounds (c : Net ι) : Bounds where
  known := (mentions c).image Prod.fst
  longest u := ((mentions c).filter fun e => e.1 = u).sup Prod.snd

theorem bounds_of_mem {c : Net ι} {u : Text × Text} {k : Nat} (h : (u, k) ∈ mentions c) :
    u ∈ (bounds c).known ∧ k ≤ (bounds c).longest u := by
  refine ⟨Finset.mem_image_of_mem Prod.fst h, ?_⟩
  have hmem : (u, k) ∈ (mentions c).filter fun e => e.1 = u := Finset.mem_filter.mpr ⟨h, rfl⟩
  exact Finset.le_sup (f := Prod.snd) hmem

theorem bounded_start (c : Net ι) (i : ι) : Bounded (bounds c) (c.party i).store := by
  intro r hr
  refine bounds_of_mem (Finset.mem_union_left _ (Finset.mem_biUnion.mpr ⟨i, Finset.mem_univ i, ?_⟩))
  exact List.mem_toFinset.mpr (List.mem_map_of_mem hr)

/-- Messages whose names are normal ones, as those of a sent index are. -/
theorem sane_start {c : Net ι} (hnames : ∀ m ∈ c.sent, ∀ info ∈ m.files, normal info.name = info.name) :
    ∀ m ∈ c.sent, SaneIndex (bounds c) m := by
  intro m hm info hinfo
  have hmem : ((m.folder, info.name), (info.version.getD []).length) ∈ mentions c := by
    refine Finset.mem_union_right _ (List.mem_toFinset.mpr (List.mem_flatMap.mpr ⟨m, hm, ?_⟩))
    exact List.mem_map_of_mem (f := fun info : FileInfo => ((m.folder, info.name), (info.version.getD []).length)) hinfo
  obtain ⟨hknown, hlen⟩ := bounds_of_mem hmem
  refine ⟨hnames m hm info hinfo, hknown, fun cs hcs => ?_⟩
  rw [hcs] at hlen
  exact hlen

/-- What holds all along: the nodes can pay, and what was sent, what they have to spend and
    what their measures are worth do not come to more than `N`. -/
structure Balanced (B : Bounds) (conns : ι → List Conn) (room : ι → Nat) (N : Nat) (c : Net ι) : Prop where
  sane : ∀ m ∈ c.sent, SaneIndex B m
  budget : ∃ n : ι → Nat, (∀ i, Solvent B (conns i) (room i) (c.party i) (n i)) ∧
    c.sent.length + ∑ i, (n i + room i * gap B (c.party i).store) ≤ N

theorem balanced_start (sha256 : Bytes → Bytes) {conns : ι → List Conn} {c : Net ι} (hidle : ∀ i, Idle (c.party i).handler)
    (htasks : ∀ i, ∀ p ∈ (c.party i).tasks, Waiting sha256 (conns i) p)
    (hnames : ∀ m ∈ c.sent, ∀ info ∈ m.files, normal info.name = info.name) :
    ∃ room N, Balanced (bounds c) conns room N c := by
  have hsolvent : ∀ i, ∃ n, Solvent (bounds c) (conns i) ((conns i).length * (c.party i).store.folders.length) (c.party i) n := by
    intro i
    obtain ⟨b, hb⟩ := @affords_waiting (bounds c) ((conns i).length * (c.party i).store.folders.length) sha256 (conns i)
      (c.party i).store _ (htasks i)
    refine ⟨b, bounded_start c i, rfl, 0, b, by omega, fun q changed hq => ?_, hb⟩
    cases q with
    | ret u => trivial
    | panic => trivial
    | ask o k => exact absurd hq (hidle i o k changed)
  choose n hn using hsolvent
  exact ⟨_, _, sane_start hnames, n, hn, Nat.le_refl _⟩

end

/-! ## The network -/

variable [DecidableEq ι]

section

variable (sha256 : Bytes → Bytes) (conns : ι → List Conn)

/-- What a step of the network is: one node's, which pays for it. -/
theorem step_pays {B : Bounds} {room n : ι → Nat} {c c' : Net ι} (hsolvent : ∀ i, Solvent B (conns i) (room i) (c.party i) (n i))
    (hsane : ∀ m ∈ c.sent, SaneIndex B m) (h : Step sha256 conns c c') :
    ∃ i p ms d, c' = c.put i p ms d ∧ Pays B (conns i) (room i) (c.party i) (n i) p ms d := by
  cases h with
  | handle i m hm _ => exact ⟨i, _, _, _, rfl, pays_handle (hsolvent i) (hsane m hm)⟩
  | merge i o k changed s x hhandler hdo => exact ⟨i, _, _, _, rfl, pays_merge sha256 (hsolvent i) hhandler hdo⟩
  | work i l r o k s x htask hdo => exact ⟨i, _, _, _, rfl, pays_work sha256 (hsolvent i) htask hdo⟩
  | configure i s hrecords hfolders => exact ⟨i, _, _, _, rfl, pays_configure (hsolvent i) hrecords hfolders⟩

end

section

variable [Fintype ι]

/-- Two sums that differ in one term. -/
theorem sum_put {f g : ι → Nat} {i : ι} (h : ∀ j, j ≠ i → g j = f j) : ∑ j, g j + f i = ∑ j, f j + g i := by
  have hothers : ∑ j ∈ Finset.univ.erase i, g j = ∑ j ∈ Finset.univ.erase i, f j :=
    Finset.sum_congr rfl fun j hj => h j (Finset.ne_of_mem_erase hj)
  rw [← Finset.add_sum_erase Finset.univ f (Finset.mem_univ i), ← Finset.add_sum_erase Finset.univ g (Finset.mem_univ i), hothers]
  omega

section

variable (sha256 : Bytes → Bytes) {conns : ι → List Conn} {B : Bounds} {room : ι → Nat} {N : Nat} {c c' : Net ι}

theorem step_balanced (h : Balanced B conns room N c) (hstep : Step sha256 conns c c') :
    Balanced B conns room N c' ∧ total B c' + c'.changes ≤ total B c + c.changes := by
  obtain ⟨hsane, n, hsolvent, hN⟩ := h
  obtain ⟨i, p, ms, d, rfl, ⟨n', hsolvent', hpaid⟩, hdown, hms⟩ := step_pays sha256 conns hsolvent hsane hstep
  have hself : (c.put i p ms d).party i = p := Function.update_self ..
  have hother : ∀ j, j ≠ i → (c.put i p ms d).party j = c.party j := fun j hj => Function.update_of_ne hj ..
  have hn : ∀ j, j ≠ i → Function.update n i n' j = n j := fun j hj => Function.update_of_ne hj ..
  refine ⟨⟨fun m hm => ?_, Function.update n i n', fun j => ?_, ?_⟩, ?_⟩
  · rcases List.mem_append.mp hm with hm | hm
    · exact hsane m hm
    · exact hms m hm
  · by_cases hj : j = i
    · subst hj
      rwa [hself, Function.update_self]
    · rw [hother j hj, hn j hj]
      exact hsolvent j
  · have hsum := sum_put (f := fun j => n j + room j * gap B (c.party j).store)
      (g := fun j => Function.update n i n' j + room j * gap B ((c.put i p ms d).party j).store)
      fun j hj => by rw [hother j hj, hn j hj]
    have hlength : (c.put i p ms d).sent.length = c.sent.length + ms.length := List.length_append
    rw [hself, Function.update_self] at hsum
    omega
  · have hsum := sum_put (f := fun j => gap B (c.party j).store) (g := fun j => gap B ((c.put i p ms d).party j).store)
      fun j hj => by rw [hother j hj]
    have hchanges : (c.put i p ms d).changes = c.changes + d := rfl
    rw [hself] at hsum
    unfold total
    omega

theorem steps_balanced (h : Balanced B conns room N c) (hsteps : Steps sha256 conns c c') :
    Balanced B conns room N c' ∧ total B c' + c'.changes ≤ total B c + c.changes := by
  induction hsteps with
  | refl => exact ⟨h, Nat.le_refl _⟩
  | tail _ hstep ih =>
    obtain ⟨hbalanced, hle⟩ := step_balanced sha256 ih.1 hstep
    exact ⟨hbalanced, Nat.le_trans hle ih.2⟩

end

/-- Gossip terminates. Whatever the stores, the connections and the messages under way, a step
    never moves the measure up and a first change of a `handle_index` moves it down; it is
    bounded by the longest version list of each file, at each node. So there are no more
    changing calls than that, and no more messages than a fixed number, however a run goes. -/
theorem gossip_terminates (sha256 : Bytes → Bytes) (conns : ι → List Conn) (c : Net ι) (hidle : ∀ i, Idle (c.party i).handler)
    (htasks : ∀ i, ∀ p ∈ (c.party i).tasks, Waiting sha256 (conns i) p)
    (hnames : ∀ m ∈ c.sent, ∀ info ∈ m.files, normal info.name = info.name) :
    total (bounds c) c ≤ Fintype.card ι * ∑ u ∈ (bounds c).known, (bounds c).longest u ∧
    (∀ c' c'', Steps sha256 conns c c' → Step sha256 conns c' c'' → total (bounds c) c'' ≤ total (bounds c) c' ∧
      (c'.changes < c''.changes → total (bounds c) c'' < total (bounds c) c')) ∧
    ∃ N, ∀ c', Steps sha256 conns c c' → c'.changes ≤ c.changes + total (bounds c) c ∧ c'.sent.length ≤ N := by
  obtain ⟨room, N, hstart⟩ := balanced_start sha256 hidle htasks hnames
  refine ⟨total_bound _ c, fun c' c'' hsteps hstep => ?_, N, fun c' hsteps => ?_⟩
  · have hle := (step_balanced sha256 (steps_balanced sha256 hstart hsteps).1 hstep).2
    have hmono : c'.changes ≤ c''.changes := by
      cases hstep <;> exact Nat.le_add_right _ _
    omega
  · obtain ⟨hbalanced, hle⟩ := steps_balanced sha256 hstart hsteps
    obtain ⟨-, n, -, hN⟩ := hbalanced
    omega

end

/-! ## A file told to another node -/

/-- The network after the next call of the `handle_index` of a node, when that is one on its
    state. -/
def proceed (sha256 : Bytes → Bytes) (conns : ι → List Conn) (i : ι) (c : Net ι) : Net ι :=
  match (c.party i).handler with
  | some (.ask (.db o) k, changed) =>
    let r := dbDo (c.party i).store o
    c.put i
      { store := r.1
        handler := some (@next (.db o) k r.2, changed || decide (r.1.records ≠ (c.party i).store.records))
        tasks := (c.party i).tasks ++ startedBy sha256 (conns i) (.db o) }
      (posts (.db o)) (news changed (c.party i).store r.1)
  | _ => c

theorem steps_proceed (sha256 : Bytes → Bytes) (conns : ι → List Conn) (i : ι) {c c' : Net ι} (h : Steps sha256 conns c c') :
    Steps sha256 conns c (proceed sha256 conns i c') := by
  unfold proceed
  split
  · rename_i o k changed hhandler
    exact h.tail (Step.merge i _ k changed _ _ hhandler (.db o))
  · exact h

/-- The index of the tests' file. -/
def toldIndex : Index := ⟨['d'], [⟨['f'], 0, some [⟨7, 0⟩], [⟨0, 11, History.fileHash⟩]⟩]⟩

/-- A node that has indexed the file and one that has not, and the index the first one sent. -/
def toldNet : Net Bool where
  party i := ⟨if i then History.fileIndexed.store else (History.fileNode []).store, none, []⟩
  sent := [toldIndex]
  changes := 0

def toldConns (i : Bool) : List Conn := [⟨some [if i then 0 else 1]⟩]

/-- The second node takes the file over. That is one change, and the measure has room for one. -/
theorem gossip_terminates_told : ∃ c, Steps History.fileSha toldConns toldNet c ∧ c.changes = 1 ∧
    c.changes ≤ toldNet.changes + total (bounds toldNet) toldNet ∧ total (bounds toldNet) toldNet = 1 := by
  have hidle : ∀ i, Idle (toldNet.party i).handler := fun i o k changed h => (by cases h)
  have htaken : Step History.fileSha toldConns toldNet _ := .handle false toldIndex List.mem_cons_self (hidle false)
  have hsteps := steps_proceed _ _ false (steps_proceed _ _ false (steps_proceed _ _ false (Relation.ReflTransGen.single htaken)))
  obtain ⟨-, -, N, hN⟩ := gossip_terminates History.fileSha toldConns toldNet hidle
    (fun i p hp => (by cases hp)) (by decide +kernel)
  exact ⟨_, hsteps, by decide +kernel, (hN _ hsteps).1, by decide +kernel⟩

end BepRs.Gossip
