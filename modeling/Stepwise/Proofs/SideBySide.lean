import Stepwise.Proofs.Lifetime
import Stepwise.Proofs.Cursor

/-!
# Two sessions side by side

A session is set beside one that has come to the same point under other settings. What a step does to the session after
its instruction has been executed does not depend on the settings, so the two sessions stay side by side for as long as
their instructions have the same outcome (`Session.run_step_under`).
-/

namespace Stepwise.Session

variable {s : Session} {t : Settings} {e : Raised} {w : World}

/-- The session at the same point under other settings. -/
def under (s : Session) (t : Settings) : Session :=
  { s with settings := t, machine := ⟨s.machine.program, t.limits⟩ }

theorem create_under {settings : Settings} {code : Text} (hcreate : create settings code = .ok s)
    (hhistory : t.maxHistory = settings.maxHistory) (hseed : t.seed = settings.seed) :
    create t code = .ok (s.under t) := by
  obtain ⟨program, bound, seed, hload, hbound, hnumber, rfl⟩ := create_cases hcreate
  have hbound' : t.historyBound = .ok bound := by rw [← hbound, Settings.historyBound, Settings.historyBound, hhistory]
  rw [create, hload, hbound', hseed, hnumber]
  rfl

/-! ### Steps -/

theorem told_under (line : Nat) (callStack : List Text) (more : Bool) :
    (s.under t).told line callStack more = ((s.told line callStack more).1, (s.told line callStack more).2.under t) := by
  have hview : (s.under t).view line callStack = s.view line callStack := rfl
  rw [told, told, run_publish, run_publish, hview]
  cases s.view line callStack <;> rfl

/-- As long as its instructions have the same outcome, a session does the same under other settings. -/
theorem run_step_under (hsame : s.Running → (s.under t).execution = s.execution) :
    (s.under t).run step = ((s.run step).1, (s.run step).2.under t) := by
  have hunder : (s.under t).error = s.error ∧ (s.under t).program = s.program ∧ (s.under t).world = s.world :=
    ⟨rfl, rfl, rfl⟩
  rw [run_step, run_step, concluded, concluded, hunder.1, hunder.2.1, hunder.2.2]
  split
  case isTrue => rfl
  case isFalse herror =>
    split
    case isTrue => exact told_under (s := s.finished) _ _ _
    case isFalse hend =>
      rw [hsame ⟨by simpa using herror, Nat.not_le.mp hend⟩]
      rcases s.execution with ⟨(e | why) | next, w⟩
      · exact told_under (s := s.stopped w e) _ _ _
      · rfl
      · exact told_under (s := s.moved _) _ _ _

theorem error_of_execution (h : s.Running) (he : s.execution = (.error (.raised e), w)) :
    (s.run step).2.error = some ⟨e.cause, e.line.getD (s.program.lineOf s.world.current.nextIndex + 1)⟩ := by
  rw [run_step_of_running h, he, executed]
  obtain ⟨published, htold⟩ := (s.stopped w e).told_snd
    (e.line.getD (s.program.lineOf s.world.current.nextIndex + 1)) (e.stack.getD w.callStack) false
  rw [htold]
  rfl

theorem published_of_execution (h : s.Running) (he : s.execution = (.error (.raised e), w)) :
    (∀ rows, (s.run step).2.panel = .ok rows → (s.run step).1 = .ok false ∧
      (s.run step).2.published.error = (s.run step).2.error) ∧
    ∀ why, (s.run step).2.panel = .error why → (s.run step).1 = .error why ∧ (s.run step).2.published = s.published := by
  rw [run_step_of_running h, he, executed]
  rcases (s.stopped w e).told_cases (e.line.getD (s.program.lineOf s.world.current.nextIndex + 1))
    (e.stack.getD w.callStack) false with ⟨published, hview, htold⟩ | ⟨why, hpanel, htold⟩
  · obtain ⟨rows, hpanel, rfl⟩ := view_eq_ok hview
    rw [htold]
    exact ⟨fun _ _ => ⟨rfl, rfl⟩, fun why hwhy => by cases hpanel.symm.trans hwhy⟩
  · rw [htold]
    refine ⟨fun rows hrows => (by cases hpanel.symm.trans hrows), fun why' hwhy => ?_⟩
    cases hpanel.symm.trans hwhy
    exact ⟨rfl, rfl⟩

theorem framed_after (s : Session) (k : Nat) : Framed s (s.after k) := by
  induction k with
  | zero => exact ⟨rfl, rfl, rfl, rfl⟩
  | succ k ih =>
    have h := framed_step (s.after k)
    exact ⟨h.settings.trans ih.settings, h.program.trans ih.program, h.machine.trans ih.machine, h.warned.trans ih.warned⟩

end Stepwise.Session
