/-
  BepRs.Lib.Rely — contracts that other tasks' steps do not break.

  A contract of `Lib.Task` (`Ok`) is about what a task asks for and is answered, whatever
  the state. Here the state counts, and it changes between two operations of a task. One
  relation `T` of states, reflexive and transitive, stands for both sides: a task relies on
  the others moving the state along it, and guarantees to do so itself (`Guar`).

  - `guar_mono`: a guarantee given in a state is one in every later state.
  - `guar_bind`: the guarantee of a sequence.
  - `reach_guar`: when every started task guarantees the relation, it relates the two ends
    of every run.
-/

import BepRs.Lib.Task

namespace BepRs.Lib.Task

variable {S : Sig} {A W α β : Type}

/-- From the state on, however others move it along `T`: every operation of the task moves
    it along `T`, and where the task returns `Q` holds. -/
def Guar (Y : System S A W) (T : W → W → Prop) (a : A) (Q : α → W → Prop) : Prog S α → W → Prop
  | .ret x, w => Q x w
  | .panic, _ => True
  | .ask o k, w => ∀ w', T w w' →
    (∀ w'' x, Y.does a w' o w'' x → T w' w'') ∧ ∀ w'' r, Y.does a w' o w'' (some r) → Guar Y T a Q (k r) w''

section Rules

variable {Y : System S A W} {T : W → W → Prop} {a : A}

theorem guar_mono (htrans : ∀ u v w, T u v → T v w → T u w) {Q : α → W → Prop} (hQ : ∀ x w w', T w w' → Q x w → Q x w') :
    ∀ {p : Prog S α} {w w' : W}, T w w' → Guar Y T a Q p w → Guar Y T a Q p w' := by
  intro p w w' hw h
  cases p with
  | ret x => exact hQ x w w' hw h
  | panic => trivial
  | ask o k =>
    intro w'' hw''
    exact h w'' (htrans _ _ _ hw hw'')

theorem guar_bind {P : α → W → Prop} {Q : β → W → Prop} {f : α → Prog S β} (hf : ∀ x w, P x w → Guar Y T a Q (f x) w) :
    ∀ {p : Prog S α} {w : W}, Guar Y T a P p w → Guar Y T a Q (p >>= f) w := by
  intro p
  induction p with
  | ret x => intro w h; exact hf x w h
  | panic => intro w _; trivial
  | ask o k ih =>
    intro w h w' hw'
    obtain ⟨hmove, hrest⟩ := h w' hw'
    exact ⟨hmove, fun w'' r hd => ih r (hrest w'' r hd)⟩

theorem guar_call_bind {Q : β → W → Prop} {o : S.Op} {f : S.Ans o → Prog S β} {w : W}
    (h : ∀ w', T w w' → (∀ w'' x, Y.does a w' o w'' x → T w' w'') ∧
      ∀ w'' r, Y.does a w' o w'' (some r) → Guar Y T a Q (f r) w'') : Guar Y T a Q (call o >>= f) w := h

/-- The guarantees of all tasks of a configuration. -/
def AllGuar (Y : System S A W) (T : W → W → Prop) (c : Conf S A W) : Prop :=
  ∀ t ∈ c.tasks, Guar Y T t.1 (fun _ _ => True) t.2 c.shared

/-- The tasks that do not move keep their guarantees. -/
theorem allGuar_set (htrans : ∀ u v w, T u v → T v w → T u w) {w w' : W} {l r : List (A × Prog S Unit)} {p q : Prog S Unit}
    (h : AllGuar Y T ⟨w, l ++ (a, p) :: r⟩) (hw : T w w') (hq : Guar Y T a (fun _ _ => True) q w') :
    AllGuar Y T ⟨w', l ++ (a, q) :: r⟩ := by
  have hkeep : ∀ t ∈ l ++ (a, p) :: r, Guar Y T t.1 (fun _ _ => True) t.2 w' := by
    intro t ht
    exact guar_mono htrans (fun _ _ _ _ h => h) hw (h t ht)
  intro t ht
  rcases List.mem_append.mp ht with ht | ht
  · exact hkeep t (List.mem_append_left _ ht)
  · rcases List.mem_cons.mp ht with rfl | ht
    · exact hq
    · exact hkeep t (List.mem_append_right _ (List.mem_cons_of_mem _ ht))

theorem step_guar (hrefl : ∀ w, T w w) (htrans : ∀ u v w, T u v → T v w → T u w)
    (hout : ∀ w w', Y.outside w w' → T w w') (hstart : ∀ w a p, Y.starts w a p → Guar Y T a (fun _ _ => True) p w)
    {c c' : Conf S A W} (hs : Step Y c c') (hc : AllGuar Y T c) : T c.shared c'.shared ∧ AllGuar Y T c' := by
  cases hs with
  | outside h =>
    have hmove := hout _ _ h
    exact ⟨hmove, fun t ht => guar_mono htrans (fun _ _ _ _ h => h) hmove (hc t ht)⟩
  | start h =>
    refine ⟨hrefl _, fun t ht => ?_⟩
    rcases List.mem_append.mp ht with ht | ht
    · exact hc t ht
    · rw [List.mem_singleton.mp ht]; exact hstart _ _ _ h
  | @answer w w' l r a o k x h =>
    have hp : Guar Y T a (fun _ _ => True) (.ask o k) w := hc (a, .ask o k) (by simp)
    obtain ⟨hmove, hrest⟩ := hp w (hrefl w)
    exact ⟨hmove _ _ h, allGuar_set htrans hc (hmove _ _ h) (hrest _ _ h)⟩
  | @crash w w' l r a o k h =>
    have hp : Guar Y T a (fun _ _ => True) (.ask o k) w := hc (a, .ask o k) (by simp)
    obtain ⟨hmove, -⟩ := hp w (hrefl w)
    exact ⟨hmove _ _ h, allGuar_set htrans hc (hmove _ _ h) trivial⟩

/-- What every started task guarantees relates the two ends of every run. -/
theorem reach_guar (hrefl : ∀ w, T w w) (htrans : ∀ u v w, T u v → T v w → T u w)
    (hout : ∀ w w', Y.outside w w' → T w w') (hstart : ∀ w a p, Y.starts w a p → Guar Y T a (fun _ _ => True) p w)
    {c₀ c : Conf S A W} (h : Reach Y c₀ c) (hc : AllGuar Y T c₀) : T c₀.shared c.shared ∧ AllGuar Y T c := by
  induction h with
  | init => exact ⟨hrefl _, hc⟩
  | step _ hs ih =>
    obtain ⟨hmove, hall⟩ := step_guar hrefl htrans hout hstart hs ih.2
    exact ⟨htrans _ _ _ ih.1 hmove, hall⟩

end Rules

end BepRs.Lib.Task
