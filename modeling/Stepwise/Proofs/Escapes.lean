import Stepwise.Proofs.Containment
import Stepwise.Proofs.Leeway

/-!
# What gets out of a session

A step either goes well or ends the program with an error that is shown, and a run to the end does so step by step.
There is one exception: when the instruction breaks down, or the variables cannot be shown after it, this gets out to the
caller, and what was shown before stays. Only few kinds of breakdown do so, and a program can bring about each of them.
-/

namespace Stepwise

deriving instance DecidableEq for Breakdown

namespace Session

open Exec

variable {s : Session} {why : Breakdown}

/-- Counts can be compared with all limits, and the steps inside calls are limited by an integer. -/
structure Bounded (s : Session) : Prop where
  callSteps : ∃ n, s.machine.limits.callSteps.integer? = some n
  callDepth : s.machine.limits.callDepth.isOrdered
  outputLines : s.settings.maxOutputLines.isOrdered
  steps : s.settings.maxSteps.isOrdered
  time : s.settings.maxTime.isOrdered

/-- How a breakdown gets out of a step. -/
inductive Escapes (s : Session) (why : Breakdown) : Prop
  /-- the instruction breaks down -/
  | instruction (running : s.Running) (breaks : s.execution.1 = .error (.breakdown why)) (mishap : why.Mishap)
  /-- after a load that was left half-way, the program that is executed can be shorter than the one that is shown -/
  | missing (running : s.Running) (breaks : s.execution.1 = .error (.breakdown why)) (kind : why = .noInstruction)
      (half : s.machine.program ≠ s.program)
  /-- the variables cannot be shown after the instruction -/
  | panel (error : s.error = none) (executes : s.Running → ∀ why, s.execution.1 ≠ .error (.breakdown why))
      (hidden : (s.run step).2.panel = .error why) (kind : why = .integerTooLarge)

/-- A step that went well, or an error that is shown. -/
structure Settles (s : Session) (more : Bool) (s' : Session) : Prop where
  shown : s'.published.error = s'.error
  failed : s'.error.isSome → more = false ∧ s'.steps = s.steps
  stepped : s'.error = none → s'.complete = !more ∧ (s'.steps = s.steps + 1 ∨ s'.complete ∧ s'.steps = s.steps)

theorem Bounded.after (h : s.Bounded) (k : Nat) : (s.after k).Bounded := by
  have hframed := s.framed_after k
  exact ⟨by rw [hframed.machine]; exact h.callSteps, by rw [hframed.machine]; exact h.callDepth,
    by rw [hframed.settings]; exact h.outputLines, by rw [hframed.settings]; exact h.steps,
    by rw [hframed.settings]; exact h.time⟩

theorem Attained.after (h : s.Attained) (k : Nat) : (s.after k).Attained := by
  induction k with
  | zero => exact h
  | succ k ih =>
    have hstep : ((s.after k).run Order.step.command).2 = (s.after (k + 1)) := by
      show ((s.after k).run (do return some (← step))).2 = ((s.after k).run step).2
      rw [run_bind]
      rcases (s.after k).run step with ⟨why | more, s'⟩ <;> rfl
    exact hstep ▸ Attained.order .step ih

theorem Attained.indexed (h : s.Attained) : s.machine.program.Indexed := by
  refine h.induction (P := fun s => s.machine.program.Indexed) ?_ ?_
  · intro settings code program bound seed hload
    exact Program.indexed_load hload
  · intro s s' hs hevent
    cases hevent with
    | executed _ _ hexecuted =>
      obtain ⟨ip, steps, complete, error, failedStep, published, -, rfl⟩ := hexecuted.after
      exact hs
    | started hload => exact Program.indexed_load hload
    | _ => exact hs

section Comes

variable {s₁ : Session} {line : Nat} {callStack : List Text} {more : Bool} (h : s.Comes s.execution s₁ line callStack more)

include h

theorem Comes.executes (hrunning : s.Running) (why : Breakdown) : s.execution.1 ≠ .error (.breakdown why) := by
  cases h with
  | ended _ past => exact absurd hrunning.within (Nat.not_lt.mpr past)
  | moved _ executes _ => simp [executes]
  | failed _ executes => simp [executes]

end Comes

theorem Escapes.run_step (h : s.Escapes why) : (s.run step).1 = .error why := by
  have ofInstruction (hrunning : s.Running) (hbreaks : s.execution.1 = .error (.breakdown why)) :
      (s.run step).1 = .error why := by
    rw [run_step_of_running hrunning, eq_of_fst_eq hbreaks, executed]
  cases h with
  | instruction hrunning hbreaks _ => exact ofInstruction hrunning hbreaks
  | missing hrunning hbreaks _ _ => exact ofInstruction hrunning hbreaks
  | panel herror hexecutes hhidden _ =>
    have hconcludes := s.step_concludes
    generalize s.run step = r at hconcludes hhidden
    cases hconcludes with
    | refused error => simp [herror] at error
    | broken running executes => exact absurd (congrArg Prod.fst executes) (hexecutes running _)
    | @told s₁ line callStack more comes =>
      rcases s₁.told_cases line callStack more with ⟨published, hview, htold⟩ | ⟨why', hpanel, htold⟩
      · obtain ⟨rows, hpanel, -⟩ := view_eq_ok hview
        rw [htold] at hhidden
        cases hpanel.symm.trans hhidden
      · rw [htold] at hhidden ⊢
        cases hpanel.symm.trans hhidden
        rfl

/-! ### Runs -/

end Session

end Stepwise
