/-
  BepRs.Lib.Insert — clients that look a key up and insert it when it is not there.

  A table refuses a key it has. Each client goes through a list of items: it looks the
  item's key up, in a second step inserts it if it was not there, and then takes some steps
  of its own (`next`) before it comes to the next item. The two steps are not one, so others
  may come between them (`step`, one step of one client in any order).

  `InTurn` is the rule under which no insertion fails: a client that finds a key missing
  does so while nobody else is about to insert it.
  - `insert_safe`: in a run by the rule no insertion fails, and where all clients have ended
    the table has every key once.
  - `insert_in_turn`: in a run to the end in which no insertion fails, the rule was kept.
  - `in_turn_of_disjoint`: it is kept where no two clients have a missing key in common.
-/

import BepRs.Lib.Events
import Mathlib.Data.List.Nodup
import Mathlib.Logic.Function.Basic

namespace BepRs.Lib.Insert

/-- Where a client is: before an item, after a lookup that found nothing, on its own after an
    insertion, or at an insertion that failed. -/
inductive Stage (F A : Type) where
  | check (todo : List F)
  | insert (x : F) (todo : List F)
  | after (a : A) (x : F) (todo : List F)
  | failed

variable {F A K ι : Type}

/-- The items a client has not seen to. -/
def Stage.todo : Stage F A → List F
  | .check todo => todo
  | .insert x todo => x :: todo
  | .after _ _ todo => todo
  | .failed => []

structure Table (F A K ι : Type) where
  keys : List K
  now : ι → Stage F A

def Table.start (keys : List K) (items : ι → List F) : Table F A K ι := ⟨keys, fun i => .check (items i)⟩

variable [DecidableEq K] [DecidableEq ι] (key : F → K) (first : A) (next : A → Option A)

/-- A client at another stage. -/
def Table.set (t : Table F A K ι) (i : ι) (stage : Stage F A) : Table F A K ι := { t with now := Function.update t.now i stage }

omit [DecidableEq K] in
@[simp] theorem Table.set_keys (t : Table F A K ι) (i : ι) (stage : Stage F A) : (t.set i stage).keys = t.keys := rfl

omit [DecidableEq K] in
@[simp] theorem Table.set_self (t : Table F A K ι) (i : ι) (stage : Stage F A) : (t.set i stage).now i = stage := by
  simp [Table.set]

omit [DecidableEq K] in
theorem Table.set_other (t : Table F A K ι) {i j : ι} (stage : Stage F A) (h : j ≠ i) : (t.set i stage).now j = t.now j := by
  simp [Table.set, h]

def step (i : ι) (t : Table F A K ι) : Option (Table F A K ι) :=
  match t.now i with
  | .check [] => none
  | .check (x :: todo) => some (t.set i (if key x ∈ t.keys then .check todo else .insert x todo))
  | .insert x todo =>
    if key x ∈ t.keys then some (t.set i .failed)
    else some ({ t with keys := t.keys ++ [key x] }.set i (.after first x todo))
  | .after a x todo =>
    match next a with
    | some a' => some (t.set i (.after a' x todo))
    | none => some (t.set i (.check todo))
  | .failed => none

abbrev run : List ι → Table F A K ι → Option (Table F A K ι) := Events.run (step key first next)

/-- What a client's step is. -/
inductive Moves (t : Table F A K ι) (i : ι) : Table F A K ι → Prop
  | known (x : F) (todo : List F) (hnow : t.now i = .check (x :: todo)) (hkey : key x ∈ t.keys) :
      Moves t i (t.set i (.check todo))
  | missing (x : F) (todo : List F) (hnow : t.now i = .check (x :: todo)) (hkey : key x ∉ t.keys) :
      Moves t i (t.set i (.insert x todo))
  | inserts (x : F) (todo : List F) (hnow : t.now i = .insert x todo) (hkey : key x ∉ t.keys) :
      Moves t i ({ t with keys := t.keys ++ [key x] }.set i (.after first x todo))
  | fails (x : F) (todo : List F) (hnow : t.now i = .insert x todo) (hkey : key x ∈ t.keys) : Moves t i (t.set i .failed)
  | goesOn (a a' : A) (x : F) (todo : List F) (hnow : t.now i = .after a x todo) : Moves t i (t.set i (.after a' x todo))
  | goesBack (a : A) (x : F) (todo : List F) (hnow : t.now i = .after a x todo) : Moves t i (t.set i (.check todo))

variable {key first next} {t t' : Table F A K ι} {i : ι}

theorem step_moves (h : step key first next i t = some t') : Moves key first t i t' := by
  unfold step at h
  split at h
  · cases h
  · rename_i x todo hnow
    cases h
    by_cases hkey : key x ∈ t.keys
    · rw [if_pos hkey]; exact .known x todo hnow hkey
    · rw [if_neg hkey]; exact .missing x todo hnow hkey
  · rename_i x todo hnow
    split at h
    · rename_i hkey
      cases h
      exact .fails x todo hnow hkey
    · rename_i hkey
      cases h
      exact .inserts x todo hnow hkey
  · rename_i a x todo hnow
    split at h
    · cases h; exact .goesOn a _ x todo hnow
    · cases h; exact .goesBack a x todo hnow
  · cases h

/-! ## The rule -/

variable (key) in
/-- The client's next step is to insert the key. -/
def Inserting (t : Table F A K ι) (i : ι) (k : K) : Prop := ∃ x todo, t.now i = .insert x todo ∧ key x = k

variable (key) in
/-- The client's next step fails. -/
def Fails (t : Table F A K ι) (i : ι) : Prop := ∃ k ∈ t.keys, Inserting key t i k

variable (key) in
def InTurn (t : Table F A K ι) (i : ι) : Prop :=
  ∀ x todo, t.now i = .check (x :: todo) → key x ∉ t.keys → ∀ j, ¬ Inserting key t j (key x)

/-- All clients have ended. -/
def Ended (t : Table F A K ι) : Prop := ∀ i, t.now i = .check [] ∨ t.now i = .failed

omit [DecidableEq K] in
/-- A step leaves what the others are about to insert. -/
theorem inserting_set_other {stage : Stage F A} {j : ι} {k : K} (h : j ≠ i) :
    Inserting key (t.set i stage) j k ↔ Inserting key t j k := by
  unfold Inserting
  rw [t.set_other stage h]

omit [DecidableEq K] in
/-- A client at a stage of its own is about to insert nothing. -/
theorem not_inserting_set {stage : Stage F A} {k : K} (h : ∀ x todo, stage ≠ .insert x todo) :
    ¬ Inserting key (t.set i stage) i k := by
  intro hins
  obtain ⟨x, todo, hnow, -⟩ := hins
  rw [t.set_self] at hnow
  exact h x todo hnow

/-! ## Runs by the rule -/

variable (key) in
/-- What is about to be inserted is missing, and by one client only; nobody has failed. -/
structure Apart (t : Table F A K ι) : Prop where
  missing : ∀ {i k}, Inserting key t i k → k ∉ t.keys
  one : ∀ {i j k}, Inserting key t i k → Inserting key t j k → i = j
  sound : ∀ i, t.now i ≠ .failed

omit [DecidableEq K] in
/-- A client that goes on without anything to insert, while the keys stay. -/
theorem Apart.set (h : Apart key t) {stage : Stage F A} (hstage : ∀ x todo, stage ≠ .insert x todo) (hne : stage ≠ .failed) :
    Apart key (t.set i stage) := by
  have hother : ∀ {j k}, Inserting key (t.set i stage) j k → j ≠ i ∧ Inserting key t j k := by
    intro j k hins
    by_cases hj : j = i
    · subst hj
      exact absurd hins (not_inserting_set hstage)
    · exact ⟨hj, (inserting_set_other hj).mp hins⟩
  refine ⟨fun hins => h.missing (hother hins).2, fun hi hj => h.one (hother hi).2 (hother hj).2, fun j => ?_⟩
  by_cases hj : j = i
  · subst hj
    rw [t.set_self]
    exact hne
  · rw [t.set_other stage hj]
    exact h.sound j

theorem apart_step (h : Apart key t) (hturn : InTurn key t i) (hs : step key first next i t = some t') : Apart key t' := by
  cases step_moves hs with
  | known x todo hnow hkey => exact h.set (by simp) (by simp)
  | missing x todo hnow hkey =>
    have hnew := hturn x todo hnow hkey
    have hcases : ∀ {j k}, Inserting key (t.set i (.insert x todo)) j k → (j = i ∧ k = key x) ∨
        (j ≠ i ∧ Inserting key t j k) := by
      intro j k hins
      by_cases hj : j = i
      · subst hj
        obtain ⟨y, todo', hnow', hk⟩ := hins
        rw [t.set_self] at hnow'
        cases hnow'
        exact Or.inl ⟨rfl, hk.symm⟩
      · exact Or.inr ⟨hj, (inserting_set_other hj).mp hins⟩
    refine ⟨fun hins => ?_, fun hi hj => ?_, fun j => ?_⟩
    · rcases hcases hins with ⟨-, rfl⟩ | ⟨-, hins⟩
      · exact hkey
      · exact h.missing hins
    · rcases hcases hi with ⟨hi', hk⟩ | ⟨-, hi⟩
      · rcases hcases hj with ⟨hj', -⟩ | ⟨-, hj⟩
        · rw [hi', hj']
        · rw [hk] at hj
          exact absurd hj (hnew _)
      · rcases hcases hj with ⟨-, hk⟩ | ⟨-, hj⟩
        · rw [hk] at hi
          exact absurd hi (hnew _)
        · exact h.one hi hj
    · by_cases hj : j = i
      · subst hj
        simp
      · rw [t.set_other _ hj]
        exact h.sound j
  | inserts x todo hnow hkey =>
    have hmine : Inserting key t i (key x) := ⟨x, todo, hnow, rfl⟩
    have hset := @Apart.set F A K ι _ key t i h (.after first x todo) (by simp) (by simp)
    refine ⟨fun {j k} hins hmem => ?_, fun hi hj => hset.one hi hj, hset.sound⟩
    have hj : j ≠ i := by
      intro hj
      subst hj
      exact not_inserting_set (by simp) hins
    have hins' : Inserting key t j k := (inserting_set_other hj).mp hins
    rcases List.mem_append.mp hmem with hmem | hmem
    · exact h.missing hins' hmem
    · rw [List.mem_singleton.mp hmem] at hins'
      exact hj (h.one hins' hmine)
  | fails x todo hnow hkey => exact absurd hkey (h.missing ⟨x, todo, hnow, rfl⟩)
  | goesOn a a' x todo hnow => exact h.set (by simp) (by simp)
  | goesBack a x todo hnow => exact h.set (by simp) (by simp)

/-! ## Progress -/

variable (key) in
/-- The table has every key once, and the keys of the items its clients are done with. -/
structure Progress (items : ι → List F) (t : Table F A K ι) : Prop where
  nodup : t.keys.Nodup
  done : ∀ i, t.now i = .failed ∨ ∃ pre, items i = pre ++ (t.now i).todo ∧ ∀ x ∈ pre, key x ∈ t.keys
  held : ∀ i a x todo, t.now i = .after a x todo → key x ∈ t.keys

omit [DecidableEq K] [DecidableEq ι] in
theorem progress_start {keys : List K} (hnd : keys.Nodup) (items : ι → List F) :
    Progress key items (Table.start keys items : Table F A K ι) :=
  ⟨hnd, fun i => Or.inr ⟨[], rfl, by simp⟩, fun i a x todo hnow => by cases hnow⟩

omit [DecidableEq K] in
/-- A client at another stage, with more keys in the table. -/
theorem Progress.set {items : ι → List F} (h : Progress key items t) {keys : List K} (hnd : keys.Nodup)
    (hkeys : ∀ k ∈ t.keys, k ∈ keys) {stage : Stage F A}
    (hdone : stage = .failed ∨ ∃ pre, items i = pre ++ stage.todo ∧ ∀ x ∈ pre, key x ∈ keys)
    (hheld : ∀ a x todo, stage = .after a x todo → key x ∈ keys) :
    Progress key items (Table.set { t with keys := keys } i stage) := by
  refine ⟨hnd, fun j => ?_, fun j a x todo hnow => ?_⟩
  · by_cases hj : j = i
    · subst hj
      rw [Table.set_self]
      exact hdone
    · rw [Table.set_other _ _ hj]
      refine (h.done j).imp_right fun hpre => ?_
      obtain ⟨pre, hsplit, hmem⟩ := hpre
      exact ⟨pre, hsplit, fun x hx => hkeys _ (hmem x hx)⟩
  · by_cases hj : j = i
    · subst hj
      rw [Table.set_self] at hnow
      exact hheld a x todo hnow
    · rw [Table.set_other _ _ hj] at hnow
      exact hkeys _ (h.held j a x todo hnow)

theorem progress_step {items : ι → List F} (h : Progress key items t) (hs : step key first next i t = some t') :
    Progress key items t' := by
  cases step_moves hs with
  | known x todo hnow hkey =>
    refine h.set h.nodup (fun _ hk => hk) (Or.inr ?_) (by simp)
    rcases h.done i with hfailed | ⟨pre, hsplit, hmem⟩
    · rw [hnow] at hfailed; cases hfailed
    · rw [hnow] at hsplit
      refine ⟨pre ++ [x], by rw [hsplit]; simp [Stage.todo], fun y hy => ?_⟩
      rcases List.mem_append.mp hy with hy | hy
      · exact hmem y hy
      · rw [List.mem_singleton.mp hy]; exact hkey
  | missing x todo hnow hkey =>
    refine h.set h.nodup (fun _ hk => hk) ?_ (by simp)
    have hdone := h.done i
    rw [hnow] at hdone
    exact hdone.imp_left (by simp)
  | inserts x todo hnow hkey =>
    have hnew : key x ∈ t.keys ++ [key x] := List.mem_append_right _ List.mem_cons_self
    refine h.set (h.nodup.append (List.nodup_singleton _) (by simpa using hkey)) (fun k hk => List.mem_append_left _ hk)
      (Or.inr ?_) (fun a y todo' he => by cases he; exact hnew)
    rcases h.done i with hfailed | ⟨pre, hsplit, hmem⟩
    · rw [hnow] at hfailed; cases hfailed
    · rw [hnow] at hsplit
      refine ⟨pre ++ [x], by rw [hsplit]; simp [Stage.todo], fun y hy => ?_⟩
      rcases List.mem_append.mp hy with hy | hy
      · exact List.mem_append_left _ (hmem y hy)
      · rw [List.mem_singleton.mp hy]; exact hnew
  | fails x todo hnow hkey => exact h.set h.nodup (fun _ hk => hk) (Or.inl rfl) (by simp)
  | goesOn a a' x todo hnow =>
    have hdone := h.done i
    rw [hnow] at hdone
    refine h.set h.nodup (fun _ hk => hk) (hdone.imp_left (by simp)) fun b y todo' he => ?_
    cases he
    exact h.held i a x todo hnow
  | goesBack a x todo hnow =>
    have hdone := h.done i
    rw [hnow] at hdone
    exact h.set h.nodup (fun _ hk => hk) (hdone.imp_left (by simp)) (by simp)

theorem progress_run {keys : List K} (hnd : keys.Nodup) {items : ι → List F} {es : List ι}
    (h : run key first next es (Table.start keys items) = some t) : Progress key items t :=
  Events.steps_inv (fun hp hs => progress_step hp hs) (progress_start hnd items) (Events.steps_run h)

omit [DecidableEq K] [DecidableEq ι] in
theorem mem_of_ended {items : ι → List F} (h : Progress key items t) (hend : Ended t) (hsound : ∀ i, t.now i ≠ .failed)
    (i : ι) : ∀ x ∈ items i, key x ∈ t.keys := by
  intro x hx
  rcases h.done i with hfailed | ⟨pre, hsplit, hmem⟩
  · exact absurd hfailed (hsound i)
  · rw [(hend i).resolve_right (hsound i)] at hsplit
    rw [hsplit, Stage.todo, List.append_nil] at hx
    exact hmem x hx

/-! ## Two clients at one key -/

variable (key) in
/-- A client is about to insert a key that is there, or that another is about to insert. -/
def Racing (t : Table F A K ι) (k : K) : Prop :=
  (∃ i, Inserting key t i k) ∧ (k ∈ t.keys ∨ ∃ i j, i ≠ j ∧ Inserting key t i k ∧ Inserting key t j k)

/-- A client that is not about to insert the key leaves it to those that are. -/
theorem inserting_step {k : K} (hs : step key first next i t = some t') (hi : ¬ Inserting key t i k) {j : ι}
    (hj : Inserting key t j k) : Inserting key t' j k := by
  have hne : j ≠ i := fun he => hi (he ▸ hj)
  cases step_moves hs <;> exact (inserting_set_other hne).mpr hj

theorem keys_step (hs : step key first next i t = some t') : ∀ k ∈ t.keys, k ∈ t'.keys := by
  intro k hk
  cases step_moves hs with
  | inserts x todo hnow hkey => exact List.mem_append_left _ hk
  | _ => exact hk

theorem racing_step {k : K} (h : Racing key t k) (hfails : ¬ Fails key t i) (hs : step key first next i t = some t') :
    Racing key t' k := by
  obtain ⟨⟨j, hj⟩, htwo⟩ := h
  by_cases hi : Inserting key t i k
  · -- the first of them succeeds, and the other is left with a key that is there
    have hmissing : k ∉ t.keys := fun hk => hfails ⟨k, hk, hi⟩
    obtain ⟨l, hl, hins⟩ : ∃ l, l ≠ i ∧ Inserting key t l k := by
      obtain ⟨a, b, hab, ha, hb⟩ := htwo.resolve_left hmissing
      by_cases hai : a = i
      · exact ⟨b, fun hbi => hab (hai.trans hbi.symm), hb⟩
      · exact ⟨a, hai, ha⟩
    obtain ⟨x, todo, hnow, hk⟩ := hi
    cases step_moves hs with
    | inserts y todo' hnow' hkey =>
      rw [hnow] at hnow'
      cases hnow'
      refine ⟨⟨l, (inserting_set_other hl).mpr hins⟩, Or.inl ?_⟩
      rw [← hk]
      exact List.mem_append_right _ List.mem_cons_self
    | fails y todo' hnow' hkey =>
      rw [hnow] at hnow'
      cases hnow'
      rw [hk] at hkey
      exact absurd hkey hmissing
    | known y todo' hnow' _ => rw [hnow] at hnow'; cases hnow'
    | missing y todo' hnow' _ => rw [hnow] at hnow'; cases hnow'
    | goesOn a a' y todo' hnow' => rw [hnow] at hnow'; cases hnow'
    | goesBack a y todo' hnow' => rw [hnow] at hnow'; cases hnow'
  · refine ⟨⟨j, inserting_step hs hi hj⟩, htwo.imp (keys_step hs k) fun hpair => ?_⟩
    obtain ⟨a, b, hab, ha, hb⟩ := hpair
    exact ⟨a, b, hab, inserting_step hs hi ha, inserting_step hs hi hb⟩

omit [DecidableEq K] [DecidableEq ι] in
theorem not_racing_of_ended (h : Ended t) (k : K) : ¬ Racing key t k := by
  intro hrace
  obtain ⟨⟨i, x, todo, hnow, -⟩, -⟩ := hrace
  rcases h i with he | he <;> rw [hnow] at he <;> cases he

/-! ## Whole runs -/

/-- No step of the run is an insertion that fails. -/
abbrev NeverFails (key : F → K) (first : A) (next : A → Option A) : List ι → Table F A K ι → Prop :=
  Events.Along (step key first next) fun i t => ¬ Fails key t i

/-- Every step of the run is by the rule. -/
abbrev AllInTurn (key : F → K) (first : A) (next : A → Option A) : List ι → Table F A K ι → Prop :=
  Events.Along (step key first next) fun i t => InTurn key t i

theorem apart_run {keys : List K} {items : ι → List F} {es : List ι}
    (hturn : AllInTurn key first next es (Table.start keys items)) (h : run key first next es (Table.start keys items) = some t) :
    Apart key t := by
  refine Events.along_inv (fun hI hP hs => apart_step hI hP hs) hturn ⟨?_, ?_, ?_⟩ h
  · intro i k hins
    obtain ⟨x, todo, hnow, -⟩ := hins
    cases hnow
  · intro i j k hins
    obtain ⟨x, todo, hnow, -⟩ := hins
    cases hnow
  · intro i hnow
    cases hnow

/-- By the rule, no insertion fails; the table has every key once, and in the end it has the
    keys of all items. -/
theorem insert_safe {keys : List K} (hnd : keys.Nodup) {items : ι → List F} {es : List ι}
    (hturn : AllInTurn key first next es (Table.start keys items)) (h : run key first next es (Table.start keys items) = some t) :
    NeverFails key first next es (Table.start keys items) ∧ (∀ i, t.now i ≠ .failed) ∧
      t.keys.Nodup ∧ (Ended t → ∀ i, ∀ x ∈ items i, key x ∈ t.keys) := by
  have hapart := apart_run hturn h
  have hprogress := progress_run hnd h
  refine ⟨fun es' i t' hpre hrun hfails => ?_, hapart.sound, hprogress.nodup, fun hend =>
    mem_of_ended hprogress hend hapart.sound⟩
  · obtain ⟨k, hk, hins⟩ := hfails
    have hturn' := Events.along_initial hturn ((List.prefix_append es' [i]).trans hpre)
    exact (apart_run hturn' hrun).missing hins hk

/-- Where no insertion fails until all have ended, the rule was kept. -/
theorem insert_in_turn {t₀ : Table F A K ι} {es : List ι} (hnever : NeverFails key first next es t₀)
    (h : run key first next es t₀ = some t) (hend : Ended t) : AllInTurn key first next es t₀ := by
  intro es' i t' hpre hrun x todo hnow hkey j hins
  obtain ⟨es₂, rfl⟩ := hpre
  -- after this step both are about to insert the key
  have hne : j ≠ i := by
    intro he
    subst he
    obtain ⟨y, todo', hnow', -⟩ := hins
    rw [hnow] at hnow'
    cases hnow'
  have hstep : step key first next i t' = some (t'.set i (.insert x todo)) := by
    simp only [step, hnow, if_neg hkey]
  have hmine : Inserting key (t'.set i (.insert x todo)) i (key x) := ⟨x, todo, t'.set_self i _, rfl⟩
  have hrace : Racing key (t'.set i (.insert x todo)) (key x) :=
    ⟨⟨i, hmine⟩, Or.inr ⟨j, i, hne, (inserting_set_other hne).mpr hins, hmine⟩⟩
  have hto := Events.run_concat.mpr ⟨t', hrun, hstep⟩
  rw [run, Events.run_append, hto] at h
  have hend' := Events.along_inv (fun hI hP hs => racing_step hI hP hs) (Events.along_suffix hnever hto) hrace h
  exact not_racing_of_ended hend _ hend'

/-- The rule is kept by all runs of clients that have no missing key in common. -/
theorem in_turn_of_disjoint {keys : List K} (hnd : keys.Nodup) {items : ι → List F}
    (hdisjoint : ∀ i j, i ≠ j → ∀ x ∈ items i, ∀ y ∈ items j, key x = key y → key x ∈ keys) (es : List ι) :
    AllInTurn key first next es (Table.start keys items) := by
  intro es' i t hpre hrun x todo hnow hkey j hins
  have hprogress := progress_run hnd hrun
  have hkept : ∀ k ∈ keys, k ∈ t.keys :=
    Events.steps_inv (I := fun u : Table F A K ι => ∀ k ∈ keys, k ∈ u.keys) (fun hI hs k hk => keys_step hs k (hI k hk))
      (fun _ hk => hk) (Events.steps_run hrun)
  obtain ⟨y, todo', hnow', hk⟩ := hins
  have hne : i ≠ j := by
    intro he
    subst he
    rw [hnow] at hnow'
    cases hnow'
  have hmem : ∀ {l z todo}, t.now l = .check (z :: todo) ∨ t.now l = .insert z todo → z ∈ items l := by
    intro l z todo hl
    rcases hprogress.done l with hfailed | ⟨pre, hsplit, -⟩
    · rw [hfailed] at hl
      rcases hl with hl | hl <;> cases hl
    · rw [hsplit]
      refine List.mem_append_right _ ?_
      rcases hl with hl | hl <;> rw [hl] <;> exact List.mem_cons_self
  exact hkey (hkept _ (hdisjoint i j hne x (hmem (Or.inl hnow)) y (hmem (Or.inr hnow')) hk.symm))

end BepRs.Lib.Insert
