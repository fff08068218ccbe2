/-
  BepRs.Lib.Promise — what a task is going to do, unless it fails.

  A task `Leads` to a point if it gets there however the operations before it are answered, or
  it panics or returns a failure. The answers are those `R` allows; what the operations do to
  the shared state does not come in, so the others may run in between.
  - `leads_step`: after an operation the task is at the point, or still leads there.
  - `leads_bind`, `leads_after`: the point is in the first part of a sequence, or after it.
-/

import BepRs.Lib.Task

namespace BepRs.Lib.Task

variable {S : Sig} {α β : Type}

inductive Leads (R : (o : S.Op) → S.Ans o → Prop) (Bad : α → Prop) (Goal : Prog S α → Prop) : Prog S α → Prop
  | failed {a : α} : Bad a → Leads R Bad Goal (.ret a)
  | panicked : Leads R Bad Goal .panic
  | there {p : Prog S α} : Goal p → Leads R Bad Goal p
  | on {o : S.Op} {k : S.Ans o → Prog S α} : (∀ r, R o r → Leads R Bad Goal (k r)) → Leads R Bad Goal (.ask o k)

variable {R : (o : S.Op) → S.Ans o → Prop} {Bad : α → Prop} {Goal : Prog S α → Prop}

theorem leads_step {o : S.Op} {k : S.Ans o → Prog S α} (h : Leads R Bad Goal (.ask o k)) :
    Goal (.ask o k) ∨ ∀ r, R o r → Leads R Bad Goal (k r) := by
  cases h with
  | there h => exact .inl h
  | on h => exact .inr h

theorem leads_ret {a : α} (h : Leads R Bad Goal (.ret a)) : Bad a ∨ Goal (.ret a) := by
  cases h with
  | failed h => exact .inl h
  | there h => exact .inr h

theorem leads_call {o : S.Op} {f : S.Ans o → Prog S α} (h : ∀ r, R o r → Leads R Bad Goal (f r)) :
    Leads R Bad Goal (call o >>= f) := .on h

/-- The point is in the first part. -/
theorem leads_bind {BadOne : β → Prop} {GoalOne : Prog S β → Prop} {f : β → Prog S α}
    (hgoal : ∀ p, GoalOne p → Goal (p >>= f)) (hbad : ∀ b, BadOne b → Leads R Bad Goal (f b)) {p : Prog S β}
    (h : Leads R BadOne GoalOne p) : Leads R Bad Goal (p >>= f) := by
  induction h with
  | failed h => exact hbad _ h
  | panicked => exact .panicked
  | there h => exact .there (hgoal _ h)
  | on _ ih => exact .on ih

/-- The point is after the first part, whatever that returns. -/
theorem leads_after {Q : β → Prop} {f : β → Prog S α} (hf : ∀ b, Q b → Leads R Bad Goal (f b)) :
    ∀ {p : Prog S β}, Ok (fun _ => True) R Q p → Leads R Bad Goal (p >>= f) := by
  intro p
  induction p with
  | ret b => intro h; exact hf b h
  | panic => intro _; exact .panicked
  | ask o k ih => intro h; exact .on fun r hr => ih r (h.2 r hr)

/-- Whatever a task asks for. -/
theorem ok_any (R : (o : S.Op) → S.Ans o → Prop) : ∀ p : Prog S α, Ok (fun _ => True) R (fun _ => True) p := by
  intro p
  induction p with
  | ret a => trivial
  | panic => trivial
  | ask o k ih => exact ⟨trivial, fun r _ => ih r⟩

end BepRs.Lib.Task
