import Stepwise.Proofs.Commands
import Stepwise.Proofs.CustodyControl

/-!
# Every step ends

A step executes one instruction of the program together with all calls in it, however deep they are nested and whatever
loops they run. When the number of instructions inside calls is limited by an integer, this ends: each turn of a
function body is counted, also that of every call which is being executed, so the limit bounds the number of turns and
the depth of nesting alike.

To say so, calls are given fuel, which is used up by nesting and by turns (`Machine.callWithin`). With enough fuel a
step does not run out of it, and more fuel makes no difference.
-/

namespace Stepwise

open Exec

/-! ### Integer limits -/

theorem Num.lt_int (a b : Int) : (Num.int a).lt (.int b) = decide (a < b) := by
  rw [lt, compare?_int, Bool.eq_iff_iff, decide_eq_true_iff, beq_iff_eq, Option.some_inj]
  exact Std.compare_eq_lt

namespace Limit

variable {limit : Limit} {n : Int}

theorem isPassed_of_integer? (h : limit.integer? = some n) (count : Nat) :
    limit.isPassed count = .ok (decide (n < count)) := by
  cases limit with
  | num m =>
    cases m with
    | int k =>
      cases h
      rfl
    | float x => cases h
  | flag b =>
    cases h
    exact congrArg Except.ok (Num.lt_int _ _)
  | other type => cases h

theorem room_of_integer? (h : limit.integer? = some n) : limit.room = n.toNat := by
  cases limit with
  | num m =>
    cases m with
    | int k =>
      cases h
      rfl
    | float x => cases h
  | flag b =>
    cases h
    cases b <;> rfl
  | other type => cases h

end Limit

/-! ### Calls with fuel -/

namespace Machine

/-- Call a function with the given fuel, of which the calls inside it have one less, and so have the turns of its
body. -/
def callWithin (m : Machine) (limit : Option Limit) : (fuel : Nat) → Function → List Value → Exec Value
  | 0, _, _ => throw (.breakdown .exhausted)
  | fuel + 1, f, args => do
    if ← m.limits.callDepth.isPassed ((← get).callers.length + 1) then Exec.fail .callDepth
    called f args do
      m.drive ⟨m.program.functions, m.callWithin limit fuel, limit⟩ (m.bodyCourse f) fuel
      return (← get).current.returned.getD .undefined

/-- What expressions find around them when calls have the given fuel. -/
def hostWithin (m : Machine) (limit : Option Limit) (fuel : Nat) : Host :=
  ⟨m.program.functions, m.callWithin limit fuel, limit⟩

end Machine

/-! ### Counting steps -/

theorem Fault.kind_of_false {e : Raised} (h : False) : e.cause.kind ≠ .reference := h.elim

/-- Nothing is tracked but the number of steps inside calls, which is never less than the ledger says. -/
def Custody.counting (base : Nat) : Custody where
  Ledger := Nat
  Later g g' := g ≤ g'
  Kept g w := base ≤ g ∧ g ≤ w.callSteps
  Known _ _ := True
  Holds _ _ _ := True
  escape _ := False
  later_refl := Nat.le_refl
  later_trans := Nat.le_trans
  known_later _ _ := trivial
  holds_later _ _ := trivial
  known_of_holds _ := trivial
  held _ _ _ _ := trivial
  bound _ _ _ := trivial
  returned _ _ := trivial
  extended _ hw _ _ := ⟨_, Nat.le_refl _, hw, fun _ _ _ => ⟨trivial, fun _ _ => trivial⟩⟩
  allocated hw _ := ⟨_, Nat.le_refl _, hw, trivial⟩
  rewritten hw _ _ _ _ := hw
  declared _ _ _ hw := ⟨_, Nat.le_refl _, hw⟩
  assigned hw _ := ⟨_, Nat.le_refl _, hw⟩
  moved hw _ := hw
  aside hw _ _ _ hsteps := ⟨hw.1, Nat.le_trans hw.2 hsteps⟩
  opened _ hw := hw
  closed _ _ hw' _ := hw'
  escape_crossing h := h
  escape_kind := @Fault.kind_of_false

namespace Machine

open Custody

variable {m : Machine} {n : Int} {base g : Nat} {host host' : Host} {f : Function} {α : Type} {x x' : Exec α}
  {Q : Nat → α → Prop}

/-- What holds from a base on holds for ledgers beyond it. -/
theorem sound_of_le {base' : Nat} (hbase : base ≤ base')
    (hg : base' ≤ g) (h : (counting base').Sound g x x' Q) : (counting base).Sound g x x' Q := by
  intro w hw
  obtain ⟨g', hlater, hkept, hresult⟩ := h w ⟨hg, hw.2⟩
  exact ⟨g', hlater, ⟨Nat.le_trans hbase hkept.1, hkept.2⟩, hresult⟩

/-- Both sides of a comparison have the same outcome, and it is not for want of fuel. -/
theorem same_of_counting (h : (counting 0).Sound (0 : Nat) x x' Q) (w : World) :
    x'.outcome w = x.outcome w ∧ (x.outcome w).1 ≠ .error (.breakdown .exhausted) := by
  obtain ⟨g', -, -, hresult⟩ := h w ⟨Nat.le_refl _, Nat.zero_le _⟩
  split at hresult
  · rename_i hok
    exact ⟨hresult.1, by rw [hok]; nofun⟩
  · rename_i herror
    obtain ⟨hsame, hfault⟩ := hresult.resolve_left id
    exact ⟨hsame, by rw [herror]; rintro ⟨⟩; exact hfault rfl⟩

section Limited

variable (hn : m.limits.callSteps.integer? = some n) {fuel : Nat}

include hn

/-- Each instruction of a body is counted, and it is executed only while the limit has not been passed. -/
theorem sound_bodyCharge : (counting base).Sound g (m.bodyCourse f).charge (m.bodyCourse f).charge
    fun g' _ => base ≤ g ∧ g + 1 ≤ g' ∧ g + 1 ≤ n.toNat := by
  intro w hw
  refine ⟨Nat.succ g, Nat.le_succ g, ?_⟩
  have hpassed := Limit.isPassed_of_integer? hn (w.callSteps + 1)
  by_cases hlt : n < (w.callSteps + 1 : Nat)
  · have houtcome : ((m.bodyCourse f).charge.outcome w) =
        (.error (.of (.callSteps f.name m.limits.callSteps)), { w with callSteps := w.callSteps + 1 }) := by
      simp only [bodyCourse, outcome_bind, outcome_modify, outcome_get, outcome_liftBreakdown, hpassed, hlt, decide_true,
        if_true, outcome_fail]
    rw [houtcome]
    exact ⟨⟨Nat.le_succ_of_le hw.1, Nat.succ_le_succ hw.2⟩, .inr ⟨rfl, Fault.of_ne_exhausted _⟩⟩
  · have houtcome : ((m.bodyCourse f).charge.outcome w) = (.ok (), { w with callSteps := w.callSteps + 1 }) := by
      simp only [bodyCourse, outcome_bind, outcome_modify, outcome_get, outcome_liftBreakdown, hpassed, hlt, decide_false,
        Bool.false_eq_true, if_false, outcome_pure]
    rw [houtcome]
    have hsteps := hw.2
    exact ⟨⟨Nat.le_succ_of_le hw.1, Nat.succ_le_succ hw.2⟩, rfl, hw.1, Nat.le_refl _, by omega⟩

/-- In a turn the calls are made from the next base on. -/
theorem sound_bodyTurn (hhosts : base + 1 ≤ n.toNat → (counting (base + 1)).Hosts host host') :
    (counting base).Sound g (m.turn host (m.bodyCourse f)) (m.turn host' (m.bodyCourse f))
      fun g' moved => moved = true → g + 1 ≤ g' ∧ g + 1 ≤ n.toNat := by
  refine (Sound.turn (sound_bodyCharge hn) ?_).imp ?_
  · intro g' _ hcharged i
    exact sound_of_le (Nat.le_succ base) (by omega) (.execute (hhosts (by omega)) i)
  · intro g' _ moved hmoved hexecuted
    obtain ⟨g₁, -, hcharged, hlater⟩ := hmoved hexecuted
    exact ⟨Nat.le_trans hcharged.2.1 hlater, hcharged.2.2⟩

theorem sound_drive (hhosts : base + 1 ≤ n.toNat → (counting (base + 1)).Hosts host host') (fuel fuel' : Nat)
    (hfuel : 1 ≤ fuel ∧ n.toNat + 2 ≤ g + fuel) (hfuel' : 1 ≤ fuel' ∧ n.toNat + 2 ≤ g + fuel') :
    (counting base).Safe g (m.drive host (m.bodyCourse f) fuel) (m.drive host' (m.bodyCourse f) fuel') := by
  induction fuel generalizing g fuel' with
  | zero => exact absurd hfuel.1 nofun
  | succ fuel ih =>
    cases fuel' with
    | zero => exact absurd hfuel'.1 nofun
    | succ fuel' =>
      refine .seq (sound_bodyTurn hn hhosts) fun g₁ _ moved hmoved => ?_
      cases moved with
      | false => exact .done trivial
      | true =>
        obtain ⟨hnext, hroom⟩ := hmoved rfl
        exact ih fuel' (by omega) (by omega)

theorem sound_finish (hhosts : base + 1 ≤ n.toNat → (counting (base + 1)).Hosts host host')
    (hfuel : n.toNat + 2 ≤ fuel) :
    (counting base).Sound g (m.finish host f) (do
      m.drive host' (m.bodyCourse f) fuel
      return (← get).current.returned.getD .undefined) (counting base).Sees := by
  intro w hw
  -- how much fuel a body gets depends on the count as it is, which may have gone beyond the ledger
  have hdrive := sound_drive (f := f) (g := w.callSteps) hn hhosts (n.toNat - w.callSteps + 2) fuel ⟨by omega, by omega⟩
    ⟨by omega, by omega⟩
  obtain ⟨g', hlater, hkept, hresult⟩ := Sound.result hdrive w ⟨Nat.le_trans hw.1 hw.2, Nat.le_refl _⟩
  refine ⟨g', Nat.le_trans hw.2 hlater, ?_⟩
  have hfinish : (m.finish host f).outcome w = (do
      m.drive host (m.bodyCourse f) (n.toNat - w.callSteps + 2)
      return (← get).current.returned.getD .undefined : Exec Value).outcome w := by
    rw [finish, outcome_bind_ok (outcome_get w), runBody_eq_drive, Limit.room_of_integer? hn]
  rw [hfinish]
  exact ⟨hkept, hresult⟩

/-- Calls with as much fuel as can be used, from a base on that leaves room for `k` instructions. -/
theorem hosts_within (limit : Option Limit) (k depth : Nat) (hroom : n.toNat ≤ base + k)
    (hdepth : k < depth) (hfuel : n.toNat + k + 3 ≤ fuel) :
    (counting base).Hosts (m.bodyHost limit depth) (m.hostWithin limit fuel) := by
  induction k generalizing base depth fuel with
  | zero =>
    obtain ⟨depth, rfl⟩ := Nat.exists_eq_add_of_le' hdepth
    obtain ⟨fuel, rfl⟩ := Nat.exists_eq_add_of_le' (Nat.le_of_add_left_le hfuel : 3 ≤ fuel)
    refine ⟨rfl, rfl, fun g _ f args _ => ?_⟩
    exact .guardedCall (.calledBody f args (finish_beside bodyHost_discreet) fun _ _ =>
      sound_finish hn (fun h => by omega) (by omega))
  | succ k ih =>
    obtain ⟨depth, rfl⟩ := Nat.exists_eq_add_of_le' (Nat.succ_le_of_lt (Nat.lt_of_le_of_lt (Nat.zero_le _) hdepth))
    obtain ⟨fuel, rfl⟩ := Nat.exists_eq_add_of_le' (Nat.le_trans (by omega : 1 ≤ n.toNat + (k + 1) + 3) hfuel)
    refine ⟨rfl, rfl, fun g _ f args _ => ?_⟩
    exact .guardedCall (.calledBody f args (finish_beside bodyHost_discreet) fun _ _ =>
      sound_finish hn (fun _ => ih depth (by omega) (by omega) (by omega)) (by omega))

end Limited

theorem hosts_host (hn : m.limits.callSteps.integer? = some n) (limit : Option Limit) {fuel : Nat}
    (hfuel : 2 * n.toNat + 3 ≤ fuel) : (counting 0).Hosts (m.host limit) (m.hostWithin limit fuel) := by
  have hroom := Limit.room_of_integer? hn
  refine hosts_within hn limit n.toNat m.nesting (by omega) ?_ (by omega)
  unfold nesting
  omega

end Machine

/-! ### Steps -/

namespace Session

variable {s : Session} {n : Int}

/-- A step with the given fuel for the calls in it. -/
def stepWithin (fuel : Nat) : Command Bool :=
  stepWith fun s => s.machine.hostWithin (some s.settings.maxOutputLines) fuel

/-- An instruction that does not run out of fuel makes a step that does not. -/
theorem concluded_ne {o : Except Fault Nat × World} (h : o.1 ≠ .error (.breakdown .exhausted)) :
    (s.concluded o).1 ≠ .error .exhausted := by
  have hconcludes := s.concludes o
  generalize s.concluded o = r at hconcludes
  cases hconcludes with
  | refused => nofun
  | broken _ executes =>
    rw [executes] at h
    rintro ⟨⟩
    exact h rfl
  | @told s₁ line callStack more comes =>
    rcases s₁.told_cases line callStack more with ⟨published, -, htold⟩ | ⟨why, hpanel, htold⟩
    · rw [htold]
      nofun
    · rw [htold]
      rintro ⟨⟩
      exact Ranged.definite (Variables.ranged_rows _ _) hpanel

/-- When the instructions inside calls are limited by an integer, every step ends, whatever the limit on the nesting of
calls is: there is fuel with which it does not run out, and with more it does the same. This is what a step does, for
which neither calls nor callbacks are given more than they can use. -/
theorem step_terminates (s : Session) {n : Int} (hn : s.machine.limits.callSteps.integer? = some n) :
    (∃ enough, ∀ fuel, enough ≤ fuel →
      (s.run (stepWithin fuel)).1 ≠ .error .exhausted ∧ s.run (stepWithin fuel) = s.run (stepWithin enough) ∧
        s.run (stepWithin fuel) = s.run step) ∧
      ∀ depth name args w, (s.host.invokeWithin (depth + 2) name args).outcome w = (s.host.invoke name args).outcome w := by
  have hhosts {fuel : Nat} (hfuel : 2 * n.toNat + 3 ≤ fuel) := Machine.hosts_host hn (some s.settings.maxOutputLines) hfuel
  have hwithin {fuel : Nat} (hfuel : 2 * n.toNat + 3 ≤ fuel) :
      (s.run (stepWithin fuel)).1 ≠ .error .exhausted ∧ s.run (stepWithin fuel) = s.run step := by
    obtain ⟨hsame, hfault⟩ := Machine.same_of_counting
      (Custody.Sound.execute (m := s.machine) (hhosts hfuel) s.world.current.nextIndex) s.ready
    have hstep : s.run (stepWithin fuel) = s.run step := by
      rw [stepWithin, run_stepWith, run_step]
      exact congrArg s.concluded hsame
    rw [hstep, run_step]
    exact ⟨concluded_ne hfault, rfl⟩
  refine ⟨⟨2 * n.toNat + 3, fun fuel hfuel => ?_⟩, fun depth name args w => ?_⟩
  · obtain ⟨hne, hstep⟩ := hwithin hfuel
    exact ⟨hne, hstep.trans (hwithin (Nat.le_refl _)).2.symm, hstep⟩
  · have hbuilt := Setting.Built.invokeWithin (C := ⟨.counting 0, s.host, s.host⟩) (g := Nat.zero) rfl 1 depth name args
    exact (Machine.same_of_counting (hbuilt.sound (hhosts (Nat.le_refl _)).left) w).1

/-- A recursion without an end runs out of little fuel; with enough of it, the limit ends the step with an error. -/
theorem step_terminates_recursion : ∃ s : Session, s.Reachable ∧ s.machine.limits.callSteps.integer? = some 4 ∧
    (s.run (stepWithin 2)).1 = .error .exhausted ∧ (s.run step).2.error.isSome ∧
    ∃ enough, ∀ fuel, enough ≤ fuel → s.run (stepWithin fuel) = s.run step := by
  obtain ⟨s, hs, hP⟩ := exists_reachable { Settings.standard with maxCallSteps := .int 4, maxCallDepth := .int 1000000 }
    "function f(n) \x7b\n  return g(n + 1)\n\x7d\nfunction g(n) \x7b\n  return [n].map(f)\n\x7d\nlet x = f(0)".codes
    [.step, .step, .step, .step]
    (fun s => decide (s.machine.limits.callSteps.integer? = some 4) && (s.run step).2.error.isSome &&
      match (s.run (stepWithin 2)).1 with
      | .error .exhausted => true
      | _ => false) (by decide +kernel)
  simp only [Bool.and_eq_true, decide_eq_true_eq] at hP
  obtain ⟨⟨hn, herror⟩, hP⟩ := hP
  obtain ⟨⟨enough, henough⟩, -⟩ := step_terminates s hn
  refine ⟨s, hs, hn, ?_, herror, enough, fun fuel hfuel => (henough fuel hfuel).2.2⟩
  split at hP
  · assumption
  · cases hP

end Session

end Stepwise
