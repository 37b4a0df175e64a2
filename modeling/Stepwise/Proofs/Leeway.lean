import Stepwise.Proofs.Lockstep
import Stepwise.Proofs.SideBySide
import Stepwise.Proofs.Termination

/-!
# Limits only cut runs short

Calls are limited in their nesting and in their number of instructions, and output is limited in its lines. When one of
these limits is raised, nothing changes but where the program is cut off: until a limit is hit, every step does the same
under the higher limits (`Session.after_eq_under_higher_limits`). Expressions cannot find out about a limit either, since
the errors that it raises are not among those that `typeof` takes as an answer.
-/

namespace Stepwise

open Exec World

/-! ### Limits in order -/

theorem Num.le_int (a b : Int) : (Num.int a).le (.int b) = decide (a ≤ b) := by
  rw [le, compare?_int, Bool.eq_iff_iff, decide_eq_true_iff, Bool.or_eq_true, beq_iff_eq, beq_iff_eq, Option.some_inj,
    Option.some_inj, Std.compare_eq_lt, Std.compare_eq_iff_eq]
  omega

namespace Limit

variable {limit a b : Limit} {n : Int}

theorem isReached_of_integer? (h : limit.integer? = some n) (count : Nat) :
    limit.isReached count = .ok (decide (n ≤ count)) := by
  cases limit with
  | num m =>
    cases m with
    | int k =>
      cases h
      rfl
    | float x => cases h
  | flag b =>
    cases h
    exact congrArg Except.ok (Num.le_int _ _)
  | other type => cases h

/-- The limits are the same, or they are integers and the first one is no greater. -/
def AtMost (a b : Limit) : Prop := a = b ∨ ∃ m n, a.integer? = some m ∧ b.integer? = some n ∧ m ≤ n

theorem AtMost.isPassed (h : AtMost a b) (count : Nat) :
    a.isPassed count = .ok true ∨ a.isPassed count = b.isPassed count := by
  obtain rfl | ⟨m, n, hm, hn, hle⟩ := h
  · exact .inr rfl
  · rw [isPassed_of_integer? hm, isPassed_of_integer? hn]
    by_cases hpassed : m < count
    · exact .inl (by simp [hpassed])
    · have hpassed' : ¬ n < count := by omega
      exact .inr (by simp [hpassed, hpassed'])

theorem AtMost.isReached (h : AtMost a b) (count : Nat) :
    a.isReached count = .ok true ∨ a.isReached count = b.isReached count := by
  obtain rfl | ⟨m, n, hm, hn, hle⟩ := h
  · exact .inr rfl
  · rw [isReached_of_integer? hm, isReached_of_integer? hn]
    by_cases hreached : m ≤ count
    · exact .inl (by simp [hreached])
    · have hreached' : ¬ n ≤ count := by omega
      exact .inr (by simp [hreached, hreached'])

theorem AtMost.room (h : AtMost a b) : a.room ≤ b.room := by
  obtain rfl | ⟨m, n, hm, hn, hle⟩ := h
  · exact Nat.le_refl _
  · rw [room_of_integer? hm, room_of_integer? hn]
    omega

end Limit

/-! ### Runs under higher limits -/

/-- The error says that a limit was hit. -/
def Cause.isLimit : Cause → Bool
  | .callDepth | .callSteps _ _ | .outputLimit _ => true
  | _ => false

/-- The fault cuts a run short. -/
def Fault.CutsOff : Fault → Prop
  | .raised e => e.cause.isLimit
  | .breakdown why => why = .exhausted

/-- The two runs are in the same world until the first one is cut off. -/
def Pairing.leeway : Pairing := ⟨Eq, fun f _ => f.CutsOff⟩

namespace Pairing

theorem nested_leeway : leeway.Nested where
  abreast h := by
    cases h
    exact .rfl
  setStore s h := by
    cases h
    exact Eq.refl _
  setRandom r h := by
    cases h
    exact Eq.refl _
  setCurrent a h := by
    cases h
    exact Eq.refl _
  setCallers c h := by
    cases h
    exact Eq.refl _
  later _ h := h
  loud {e _} h := by
    have hlimit : e.cause.isLimit = true := h
    intro hkind
    cases hcause : e.cause <;> simp [hcause, Cause.isLimit, Cause.kind] at hlimit hkind
  crosses {f _} line stack h := by
    cases f with
    | raised e =>
      obtain ⟨cause, place, labels⟩ := e
      cases labels <;> exact h
    | breakdown why => exact h

variable {α : Type} {limit limit' : Limit} {m m' : Machine}

theorem leeway_same {x : Exec α} (h : Keeps Warier x) : Follows leeway x x where
  appends := h
  meets _ _ h := by
    cases h
    exact .inr ⟨rfl, rfl⟩

theorem leeway_look {f f' : World → Exec α} (hf : ∀ w, Follows leeway (f w) (f' w)) :
    Follows leeway (get >>= f) (get >>= f') where
  appends := .bind List.IsPrefix.trans (.of_const (fun _ => List.prefix_rfl) fun _ => rfl) fun w => (hf w).appends
  meets w _ h := by
    cases h
    simp only [outcome_bind, outcome_get]
    exact (hf w).meets rfl

theorem leeway_heed {passed passed' : Except Breakdown Bool} {cause cause' : Cause} (hlimit : cause.isLimit)
    (h : passed = .ok true ∨ passed = passed') :
    Follows leeway (do if ← passed then Exec.fail cause) (do if ← passed' then Exec.fail cause') := by
  by_cases hpassed : passed = .ok true
  · exact .heed (.inl ⟨hpassed, fun _ => hlimit⟩)
  · exact .heed (.inr ⟨h.resolve_left hpassed, fun h => absurd h hpassed⟩)

theorem leeway_emit (h : limit.AtMost limit') (line : Text) :
    Follows leeway (Exec.emit (some limit) line) (Exec.emit (some limit') line) := by
  rw [Exec.emit_some, Exec.emit_some]
  refine leeway_look fun w => ?_
  rw [Exec.heed_bind, Exec.heed_bind]
  refine (leeway_heed rfl (h.isReached w.output.size)).bind nested_leeway.toFair fun _ => ?_
  exact leeway_same fun _ => List.prefix_rfl

theorem leeway_charge (h : m.limits.callSteps.AtMost m'.limits.callSteps) (f : Function) :
    Follows leeway (m.bodyCourse f).charge (m'.bodyCourse f).charge := by
  refine .bind nested_leeway.toFair (leeway_same fun _ => List.prefix_rfl) fun _ => leeway_look fun w => ?_
  exact leeway_heed rfl (h.isPassed w.callSteps)

theorem machines_leeway (hprogram : m.program = m'.program)
    (hdepth : m.limits.callDepth.AtMost m'.limits.callDepth) (hsteps : m.limits.callSteps.AtMost m'.limits.callSteps)
    (hstrict : m.limits.strict = m'.limits.strict) (houtput : limit.AtMost limit') :
    leeway.Machines m m' m.bodyCourse m'.bodyCourse (some limit) (some limit') where
  program := hprogram
  emit := leeway_emit houtput
  depth n := leeway_heed rfl (hdepth.isPassed n)
  ended _ _ := rfl
  charge := leeway_charge hsteps
  room := hsteps.room
  spent _ _ := rfl
  unsupported := by
    refine Machine.unsupported_follows nested_leeway.toFair hprogram hstrict fun _ h => ?_
    cases h
    exact Eq.refl _

end Pairing

/-- The settings differ at most in the limits on calls and output, none of which is less in the second ones. -/
structure Settings.Widens (t t' : Settings) : Prop where
  depth : t.maxCallDepth.AtMost t'.maxCallDepth
  steps : t.maxCallSteps.AtMost t'.maxCallSteps
  output : t.maxOutputLines.AtMost t'.maxOutputLines
  others : t' = { t with
    maxCallDepth := t'.maxCallDepth
    maxCallSteps := t'.maxCallSteps
    maxOutputLines := t'.maxOutputLines }

namespace Session

variable {s s₀ : Session} {t t' : Settings} {n : Int}

/-- The session executes its program under the limits that its settings say. -/
structure Standing (s : Session) : Prop where
  program : s.machine.program = s.program
  limits : s.machine.limits = s.settings.limits

theorem Standing.after (h : s.Standing) (k : Nat) : (s.after k).Standing := by
  have hframed := s.framed_after k
  exact ⟨by rw [hframed.machine, hframed.program, h.program], by rw [hframed.machine, hframed.settings, h.limits]⟩

theorem execution_under (h : s.Standing) (hwidens : s.settings.Widens t')
    (hfree : ∀ f, s.execution.1 = .error f → ¬ f.CutsOff) : (s.under t').execution = s.execution := by
  have hstrict : s.machine.limits.strict = t'.limits.strict := by
    rw [h.limits, hwidens.others]
    rfl
  have hdepth : s.machine.limits.callDepth.AtMost t'.maxCallDepth := h.limits ▸ hwidens.depth
  have hsteps : s.machine.limits.callSteps.AtMost t'.maxCallSteps := h.limits ▸ hwidens.steps
  have hprogram : s.machine.program = (s.under t').machine.program := rfl
  have hmachines := Pairing.machines_leeway hprogram hdepth hsteps hstrict hwidens.output
  have hnesting : s.machine.nesting ≤ (s.under t').machine.nesting := by
    have hroom := hdepth.room
    have hroom' := hsteps.room
    show max _ _ + 2 ≤ max t'.maxCallDepth.room t'.maxCallSteps.room + 2
    omega
  have hnested := Pairing.nested_leeway
  have hhosts := hmachines.bodyHosts hnested hnesting fun _ _ => rfl
  have hmeet := (hmachines.execute hnested.toFair hhosts s.world.current.nextIndex).meets (Eq.refl s.ready)
  obtain ⟨f, hf, hcut⟩ | ⟨hresult, hworld⟩ := hmeet
  · exact absurd hcut (hfree f hf)
  · exact Prod.ext hresult.symm hworld.symm

theorem execution_ne_exhausted (hn : s.machine.limits.callSteps.integer? = some n) :
    s.execution.1 ≠ .error (.breakdown .exhausted) :=
  (Machine.same_of_counting (Custody.Sound.execute (m := s.machine)
    (Machine.hosts_host hn (some s.settings.maxOutputLines) (Nat.le_refl _)) s.world.current.nextIndex) _).2

theorem run_step_under_of_free (h : s.Standing) (hwidens : s.settings.Widens t')
    (hn : s.settings.maxCallSteps.integer? = some n)
    (hfree : ∀ report, (s.run step).2.error = some report → report.cause.isLimit = false) :
    (s.under t').run step = ((s.run step).1, (s.run step).2.under t') := by
  refine run_step_under fun hrunning => execution_under h hwidens fun f hf hcut => ?_
  cases f with
  | raised e =>
    have herror := error_of_execution hrunning (eq_of_fst_eq hf)
    have hlimit : e.cause.isLimit = true := hcut
    rw [hfree _ herror] at hlimit
    cases hlimit
  | breakdown why =>
    obtain rfl : why = .exhausted := hcut
    have hsteps : s.machine.limits.callSteps.integer? = some n := by rw [h.limits]; exact hn
    exact execution_ne_exhausted hsteps hf

/-- Limits only cut runs short. If no limit is hit in the first `n` steps, then these steps have the same answers under
higher limits, and after each of them the session shows the same, is in the same world, and is the same in everything
else but its limits. -/
theorem after_eq_under_higher_limits {code : Text} (steps : Nat) (hcreate : create t code = .ok s₀)
    (hwidens : t.Widens t') (hn : t.maxCallSteps.integer? = some n)
    (hfree : ∀ k ≤ steps, ∀ report, (s₀.after k).error = some report → report.cause.isLimit = false) :
    ∃ s₀', create t' code = .ok s₀' ∧
      (∀ k ≤ steps, (s₀'.after k).published = (s₀.after k).published ∧ (s₀'.after k).world = (s₀.after k).world ∧
        s₀'.after k = (s₀.after k).under t') ∧
      ∀ k < steps, ((s₀'.after k).run step).1 = ((s₀.after k).run step).1 := by
  have hstanding : s₀.Standing ∧ s₀.settings = t := by
    obtain ⟨program, bound, seed, -, -, -, rfl⟩ := create_cases hcreate
    exact ⟨⟨rfl, rfl⟩, rfl⟩
  have hstep (k : Nat) (hk : k < steps) :
      ((s₀.after k).under t').run step = (((s₀.after k).run step).1, (s₀.after (k + 1)).under t') := by
    have hsettings : (s₀.after k).settings = t := (s₀.framed_after k).settings.trans hstanding.2
    exact run_step_under_of_free (hstanding.1.after k) (hsettings ▸ hwidens) (hsettings ▸ hn) (hfree (k + 1) hk)
  have hafter (k : Nat) (hk : k ≤ steps) : (s₀.under t').after k = (s₀.after k).under t' := by
    induction k with
    | zero => rfl
    | succ k ih => rw [after, ih (Nat.le_of_succ_le hk), hstep k hk]
  have hothers := hwidens.others
  refine ⟨s₀.under t', create_under hcreate (by rw [hothers]) (by rw [hothers]), fun k hk => ?_, fun k hk => ?_⟩
  · rw [hafter k hk]
    exact ⟨rfl, rfl, rfl⟩
  · rw [hafter k (Nat.le_of_lt hk), hstep k hk]

/-- A recursion that goes deeper from call to call: with at most three calls inside each other the first four steps are
those of a session that allows fifty, and the fifth one is cut off. -/
theorem after_eq_under_higher_limits_recursion : ∃ s₀ s₀' : Session,
    (∀ k ≤ 4, (s₀'.after k).published = (s₀.after k).published) ∧ (s₀.after 4).world.output.size = 5 ∧
      (s₀.after 5).error.isSome ∧ (s₀'.after 5).error.isNone := by
  let t := { Settings.standard with maxCallDepth := .int 3, maxCallSteps := .int 14, maxOutputLines := .int 6 }
  have hcreate : (create t
      "function f(n) \x7b\n  if (n > 0) \x7b\n    f(n - 1)\n  \x7d\n  console.log(n)\n\x7d\nf(1)\nf(2)\nf(3)".codes).toOption.any
        fun s => (List.range 5).all (fun k => (s.after k).error.isNone) && (s.after 4).world.output.size == 5 &&
          (s.after 5).error.isSome && ((s.under Settings.standard).after 5).error.isNone := by
    decide +kernel
  obtain ⟨s₀, hcreate, hs⟩ := eq_ok_of_any hcreate
  simp only [Bool.and_eq_true, List.all_eq_true, List.mem_range, beq_iff_eq] at hs
  obtain ⟨⟨⟨hfree, houtput⟩, herror⟩, hgoes⟩ := hs
  have hwidens : t.Widens Settings.standard :=
    ⟨.inr ⟨3, 50, rfl, rfl, by decide⟩, .inr ⟨14, 10000, rfl, rfl, by decide⟩, .inr ⟨6, 1000, rfl, rfl, by decide⟩, rfl⟩
  obtain ⟨s₀', hcreate', hsame, -⟩ := after_eq_under_higher_limits 4 hcreate hwidens (n := 14) rfl
    fun k hk report hreport => by
      have hnone := hfree k (by omega)
      rw [hreport] at hnone
      cases hnone
  have hunder := create_under (t := Settings.standard) hcreate rfl rfl
  rw [hcreate'] at hunder
  cases hunder
  exact ⟨s₀, _, fun k hk => (hsame k hk).1, houtput, herror, hgoes⟩

end Session

end Stepwise
