import Stepwise.Proofs.Surroundings

/-!
# Turns of an activation

The program itself and the body of a function are driven in the same way: make the jump ahead, and execute the
instruction there unless the end has been reached. One such turn is `Machine.turn`; the loops that drive an activation
repeat it.
-/

namespace Stepwise

open Exec World List

/-- What tells apart the ways in which an activation is driven: when it has ended, and what is done before each
instruction. -/
structure Course where
  ended : Activation → Bool
  charge : Exec Unit

/-- All that is done before an instruction is to count. -/
def Course.Counts (c : Course) : Prop := ∀ w, ∃ n, (c.charge.outcome w).2 = { w with callSteps := n }

namespace Machine

variable {m : Machine} {host : Host} {c : Course} {f : Function} {I : World → Prop} {Q : Fault → Prop}

/-- One turn of an activation; the result tells whether an instruction was executed. -/
def turn (m : Machine) (host : Host) (c : Course) : Exec Bool := do
  Exec.activation Activation.resolved
  let act := (← get).current
  if c.ended act then return false
  c.charge
  let next ← m.execute host act.ip
  Exec.activation fun a => { a with ip := next }
  return true

/-- Turns until the activation has ended, fewer than `fuel` of them. -/
def drive (m : Machine) (host : Host) (c : Course) : (fuel : Nat) → Exec Unit
  | 0 => throw (.breakdown .exhausted)
  | fuel + 1 => do if ← m.turn host c then m.drive host c fuel

/-- The course of the program itself: the count of steps inside calls begins anew with each instruction. -/
def mainCourse (m : Machine) : Course where
  ended a := m.program.size ≤ a.ip
  charge := modify fun w => { w with callSteps := 0 }

/-- The course of a function body: it ends early when it has returned, and each instruction counts. -/
def bodyCourse (m : Machine) (f : Function) : Course where
  ended a := a.returned.isSome || f.stop ≤ a.ip
  charge := do
    modify fun w => { w with callSteps := w.callSteps + 1 }
    if ← m.limits.callSteps.isPassed (← get).callSteps then Exec.fail (.callSteps f.name m.limits.callSteps)

theorem runBody_eq_drive (fuel : Nat) : m.runBody host f fuel = m.drive host (m.bodyCourse f) fuel := by
  induction fuel with
  | zero => rfl
  | succ fuel ih =>
    unfold runBody drive turn
    simp only [bind_assoc, ih]
    refine bind_congr fun _ => bind_congr fun w => ?_
    by_cases hended : (w.current.returned.isSome || f.stop ≤ w.current.ip) = true
    · simp [bodyCourse, hended]
    · simp only [bodyCourse, hended, bind_assoc, Bool.false_eq_true, if_false]
      refine bind_congr fun _ => bind_congr fun _ => bind_congr fun passed => ?_
      cases passed <;> simp

/-! ### What calls leave alone -/

theorem execute_beside (hhost : host.Discreet) (i : Nat) : Keeps Beside (m.execute host i) := by
  unfold execute
  split
  · exact .tryCatch .trans (Instruction.run_beside hhost _ i _ _) fun _ => .look fun _ => .of_const .refl fun _ => rfl
  · exact .of_const .refl fun _ => rfl

theorem turn_within
    (hmove : ∀ {w : World} {a : Activation}, a.function = w.current.function → a.frames = w.current.frames → I w →
      I { w with current := a })
    (hcharge : Within I Q c.charge) (hexecute : ∀ a, c.ended a = false → Within I Q (m.execute host a.ip)) :
    Within I Q (m.turn host c) := by
  refine .seq (.change fun _ => hmove rfl rfl) fun _ => .look fun w _ => ?_
  dsimp only
  split
  · exact .done false
  · rename_i hended
    exact .seq hcharge fun _ => .seq (hexecute _ (Bool.not_eq_true _ ▸ hended)) fun _ =>
      .seq (.change fun _ => hmove rfl rfl) fun _ => .done true

theorem turn_apart (hhost : host.Discreet) (hcharge : c.Counts) : Keeps Apart (m.turn host c) := by
  have hcounted : Keeps Apart c.charge := by
    intro w
    obtain ⟨n, hn⟩ := hcharge w
    rw [hn]
    exact ⟨rfl, rfl, prefix_rfl, prefix_rfl⟩
  refine .of_within .refl fun w => turn_within (fun hf _ hw => hw.trans ⟨hf, rfl, prefix_rfl, prefix_rfl⟩)
    (hcounted.within .trans w) fun a _ => Keeps.within (fun w => (execute_beside hhost a.ip w).apart) .trans w

theorem mainCourse_counts : m.mainCourse.Counts := fun _ => ⟨0, rfl⟩

theorem outcome_bodyCharge (w : World) : ((m.bodyCourse f).charge.outcome w).2 = { w with callSteps := w.callSteps + 1 } := by
  simp only [bodyCourse, outcome_bind, outcome_modify, outcome_get, outcome_liftBreakdown]
  rcases m.limits.callSteps.isPassed (w.callSteps + 1) with b | passed
  · rfl
  · cases passed <;> rfl

theorem bodyCourse_counts : (m.bodyCourse f).Counts := fun w => ⟨w.callSteps + 1, outcome_bodyCharge w⟩

theorem turn_beside (hhost : host.Discreet) : Keeps Beside (m.turn host (m.bodyCourse f)) := by
  have hcounted : Keeps Beside (m.bodyCourse f).charge := by
    intro w
    rw [outcome_bodyCharge]
    exact ⟨rfl, rfl, prefix_rfl, prefix_rfl, Nat.le_succ _⟩
  refine .of_within .refl fun w => turn_within
    (fun hf _ hw => hw.trans ⟨hf, rfl, prefix_rfl, prefix_rfl, Nat.le_refl _⟩) (hcounted.within .trans w)
    fun a _ => (execute_beside hhost a.ip).within .trans w

theorem finish_within (hspent : Q (.breakdown .exhausted))
    (hturn : Within I Q (m.turn host (m.bodyCourse f))) : Within I Q (m.finish host f) := by
  have hdrive (fuel : Nat) : Within I Q (m.drive host (m.bodyCourse f) fuel) := by
    induction fuel with
    | zero => exact .fault hspent
    | succ fuel ih => exact .seq hturn fun _ => .ite _ ih (.done _)
  refine .look fun w _ => .seq ?_ fun _ => .look fun _ _ => .done _
  rw [runBody_eq_drive]
  exact hdrive _

theorem finish_beside (hhost : host.Discreet) : Keeps Beside (m.finish host f) :=
  .of_within .refl fun w => finish_within trivial ((turn_beside hhost).within .trans w)

/-- The body of a call between its beginning and its end, which comes also after a fault. -/
def called (f : Function) (args : List Value) (body : Exec Value) : Exec Value := do
  enter f args
  let result ← tryCatch body fun fault => do
    leave
    throw fault
  leave
  return result

theorem call_succ (limit : Option Limit) (depth : Nat) (f : Function) (args : List Value) :
    m.call limit (depth + 1) f args = (do
      if ← m.limits.callDepth.isPassed ((← get).callers.length + 1) then Exec.fail .callDepth
      called f args (m.finish ⟨m.program.functions, m.call limit depth, limit⟩ f)) := rfl

theorem outcome_called (f : Function) (args : List Value) (body : Exec Value) (w : World) :
    (called f args body).outcome w =
      ((body.outcome ((enter f args).outcome w).2).1, (leave.outcome (body.outcome ((enter f args).outcome w).2).2).2) := by
  have hentered : (enter f args).outcome w = (.ok (), ((enter f args).outcome w).2) := rfl
  rw [called, outcome_bind_ok hentered, outcome_bind, outcome_tryCatch]
  rcases body.outcome ((enter f args).outcome w).2 with ⟨e | v, w'⟩ <;> rfl

theorem outcome_leave {w : World} {caller : Caller} {outer : List Caller} (h : w.callers = caller :: outer) :
    leave.outcome w =
      (.ok (), { w with store := w.store.within caller.locals, current := caller.activation, callers := outer }) := by
  simp [leave, h]

theorem called_around (f : Function) (args : List Value) {body : Exec Value} (h : Keeps Beside body) :
    Keeps Around (called f args body) := by
  intro w
  have hb := h ((enter f args).outcome w).2
  have hcallers : (body.outcome ((enter f args).outcome w).2).2.callers = ⟨w.current, w.store.scope.inner⟩ :: w.callers :=
    hb.callers
  rw [outcome_called, outcome_leave hcallers]
  exact ⟨rfl, rfl, hb.output, hb.warnings, hb.steps⟩

theorem call_around (limit : Option Limit) (depth : Nat) (f : Function) (args : List Value) :
    Keeps Around (m.call limit depth f args) := by
  induction depth generalizing f args with
  | zero => exact fun w => .refl w
  | succ depth ih =>
    have hhost : (⟨m.program.functions, m.call limit depth, limit⟩ : Host).Discreet := fun _ f args _ => ih f args
    have hcalled := called_around f args (finish_beside (m := m) (f := f) hhost)
    rw [call_succ]
    intro w
    simp only [outcome_bind, outcome_get, outcome_liftBreakdown]
    rcases m.limits.callDepth.isPassed (w.callers.length + 1) with b | passed
    · exact .refl w
    · cases passed
      · exact hcalled w
      · exact .refl w

/-- What the body of a call finds around it, with `depth` calls at most inside each other. -/
def bodyHost (m : Machine) (limit : Option Limit) (depth : Nat) : Host :=
  ⟨m.program.functions, m.call limit depth, limit⟩

theorem bodyHost_discreet {limit : Option Limit} {depth : Nat} : (m.bodyHost limit depth).Discreet :=
  fun _ f args _ => call_around limit depth f args

theorem host_discreet (limit : Option Limit) : (m.host limit).Discreet := fun _ f args _ => call_around limit _ f args

/-! ### Turns that end well -/

variable {w w' : World} {i next : Nat}

theorem execute_eq_ok (h : (m.execute host i).outcome w = (.ok next, w')) :
    ∃ instr, m.program.instructions[i]? = some instr ∧
      (instr.run m.program m.limits.strict host i).outcome w = (.ok next, w') := by
  unfold execute at h
  split at h
  case h_1 instr hinstr =>
    refine ⟨instr, hinstr, ?_⟩
    rw [outcome_tryCatch] at h
    rcases hrun : (instr.run m.program m.limits.strict host i).outcome w with ⟨fault | next', w₁⟩
    · rw [hrun] at h
      simp [outcome_bind] at h
    · rw [hrun] at h
      exact h
  case h_2 => simp at h

theorem apart_of_turn (hhost : host.Discreet) (hcharge : c.Counts) {r : Except Fault Bool}
    (h : (m.turn host c).outcome w = (r, w')) : Apart w w' := by
  have hapart := turn_apart (m := m) hhost hcharge w
  rw [h] at hapart
  exact hapart

theorem turn_eq_ok (hcharge : c.Counts) (h : (m.turn host c).outcome w = (.ok true, w')) :
    c.ended w.current.resolved = false ∧ ∃ w₁ w₂ next, w₁.current = w.current.resolved ∧
      (m.execute host w.current.nextIndex).outcome w₁ = (.ok next, w₂) ∧
      w' = { w₂ with current := { w₂.current with ip := next } } := by
  obtain ⟨_, w₀, hresolve, h₁⟩ := bind_eq_ok h
  cases hresolve
  obtain ⟨_, _, hget, h₂⟩ := bind_eq_ok h₁
  cases hget
  cases hended : c.ended w.current.resolved with
  | true =>
    simp only [hended, if_true] at h₂
    cases h₂
  | false =>
    simp only [hended, Bool.false_eq_true, if_false] at h₂
    obtain ⟨_, w₁, hcharged, h₃⟩ := bind_eq_ok h₂
    obtain ⟨next, w₂, hexecute, h₄⟩ := bind_eq_ok h₃
    obtain ⟨n, hn⟩ := hcharge { w with current := w.current.resolved }
    rw [hcharged] at hn
    cases h₄
    exact ⟨rfl, w₁, w₂, next, congrArg World.current hn, hexecute, rfl⟩

end Machine

end Stepwise
