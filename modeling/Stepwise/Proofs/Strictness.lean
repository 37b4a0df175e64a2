import Stepwise.Proofs.Leeway

/-!
# Strict and lenient sessions

A statement outside the language is an error for a strict session and a warning for a lenient one. Until the first such
statement is executed the two do the same. The step in which a lenient session gets its first warning, however deep
inside calls, callbacks or `typeof` the statement is, leaves a strict session with the error of that statement
(`Session.strict_agrees_until_warning`). To show the error the session has to show the variables, too; when that breaks
down, the error is there but is not shown.
-/

namespace Stepwise

open Exec World

/-- The error is that of a statement outside the language, and the first warning is about this statement. -/
def Program.Exposes (p : Program) (f : Fault) (warnings : Array Text) : Prop :=
  ∃ (i : Nat) (instr : Instruction) (why : SyntaxError) (labels : List Text),
    p.instructions[i]? = some instr ∧ instr.stmt = .unsupported why ∧ warnings[0]? = some instr.warning ∧
    f = .raised ⟨.unsupported instr.text why, some (instr.line + 1), some labels⟩

/-- A strict run and a lenient one, which are in the same world until there is a warning. -/
def Pairing.strictness (p : Program) : Pairing := ⟨fun w w' => w = w' ∧ w.warnings = #[], p.Exposes⟩

namespace Pairing

variable {α : Type} {p : Program}

theorem nested_strictness : (strictness p).Nested where
  abreast h := by
    obtain ⟨rfl, -⟩ := h
    exact .rfl
  setStore s h := by
    obtain ⟨rfl, hquiet⟩ := h
    exact ⟨rfl, hquiet⟩
  setRandom r h := by
    obtain ⟨rfl, hquiet⟩ := h
    exact ⟨rfl, hquiet⟩
  setCurrent a h := by
    obtain ⟨rfl, hquiet⟩ := h
    exact ⟨rfl, hquiet⟩
  setCallers c h := by
    obtain ⟨rfl, hquiet⟩ := h
    exact ⟨rfl, hquiet⟩
  later {f a b} hprefix h := by
    obtain ⟨i, instr, why, labels, hfound, hstmt, hfirst, rfl⟩ := h
    refine ⟨i, instr, why, labels, hfound, hstmt, ?_, rfl⟩
    obtain ⟨rest, hrest⟩ := hprefix
    rw [← Array.getElem?_toList] at hfirst ⊢
    rw [← hrest, List.getElem?_append_left (List.getElem?_eq_some_iff.mp hfirst).1, hfirst]
  loud {e a} h := by
    obtain ⟨i, instr, why, labels, -, -, -, hf⟩ := h
    cases hf
    nofun
  crosses {f a} line stack h := by
    obtain ⟨i, instr, why, labels, hfound, hstmt, hfirst, rfl⟩ := h
    exact ⟨i, instr, why, labels, hfound, hstmt, hfirst, rfl⟩

theorem strictness_same {x : Exec α} (h : ∀ w, (x.outcome w).2.warnings = w.warnings) : Follows (strictness p) x x where
  appends w := by
    have hsame := congrArg Array.toList (h w)
    exact ⟨[], by rw [hsame, List.append_nil]⟩
  meets w w' hw := by
    obtain ⟨rfl, hquiet⟩ := hw
    exact .inr ⟨rfl, rfl, (h w).trans hquiet⟩

/-- A statement outside the language: the strict run fails, and the lenient one gets its first warning. -/
theorem strictness_unsupported {m m' : Machine} (hprogram : m.program = m'.program) (hstrict : m.limits.strict = true)
    (hlenient : m'.limits.strict = false) {host host' : Host} {i : Nat} {instr : Instruction} {why : SyntaxError}
    (found : m.program.instructions[i]? = some instr) (stmt : instr.stmt = .unsupported why) :
    Follows (strictness m.program) (m.execute host i) (m'.execute host' i) := by
  have hwarns : Keeps Warier (m'.execute host' i) := by
    rw [Machine.execute, ← hprogram, found]
    refine .tryCatch List.IsPrefix.trans (fun w => ?_) fun e w => List.prefix_rfl
    simp only [Instruction.run, stmt]
    exact (runUnsupported_beside m.program i _ instr why w).warnings
  refine ⟨hwarns, fun {w w'} hw => ?_⟩
  obtain ⟨rfl, hquiet⟩ := hw
  have hfails : ((m.execute host i).outcome w).1 =
      .error (.raised ⟨.unsupported instr.text why, some (instr.line + 1), some w.callStack⟩) := by
    rw [Machine.execute, found]
    simp only [Instruction.run, stmt, runUnsupported, hstrict]
    rfl
  have hignores : ((m'.execute host' i).outcome w).2.warnings = w.warnings.push instr.warning := by
    rw [Machine.execute, ← hprogram, found]
    simp only [Instruction.run, stmt, runUnsupported, hlenient]
    cases m.program.closerOf[i]? with
    | none => rfl
    | some c => cases instr.opens <;> rfl
  refine .inl ⟨_, hfails, i, instr, why, w.callStack, found, stmt, ?_, rfl⟩
  rw [hignores, hquiet]
  rfl

theorem machines_strictness (m m' : Machine) {limit limit' : Option Limit} 
    (hlimit : limit = limit') (hprogram : m.program = m'.program) (hdepth : m.limits.callDepth = m'.limits.callDepth)
    (hsteps : m.limits.callSteps = m'.limits.callSteps) (hstrict : m.limits.strict = true)
    (hlenient : m'.limits.strict = false) : 
    (strictness m.program).Machines m m' m.bodyCourse m'.bodyCourse limit limit' where
  program := hprogram
  emit line := by
    rw [hlimit]
    exact strictness_same (warnings_emit limit' line)
  depth n := by
    rw [hdepth]
    exact .heed (.inr ⟨rfl, fun _ => rfl⟩)
  charge f := by
    have hsame : (m.bodyCourse f).charge = (m'.bodyCourse f).charge := by simp only [Machine.bodyCourse, hsteps]
    have hquiet (w : World) : ((m'.bodyCourse f).charge.outcome w).2.warnings = w.warnings := by
      rw [Machine.outcome_bodyCharge]
    rw [hsame]
    exact strictness_same hquiet
  ended _ _ := rfl
  room := hsteps ▸ Nat.le_refl _
  spent h := absurd (hsteps ▸ h) (Nat.lt_irrefl _)
  unsupported := strictness_unsupported hprogram hstrict hlenient

end Pairing

namespace Session

variable {s : Session}

/-- The session at the same point as a strict one. -/
def strictly (s : Session) : Session := s.under { s.settings with strict := true }

theorem warnings_step (s : Session) : s.Running ∧ (s.run step).2.world.warnings = s.execution.2.warnings ∨
    ¬ s.Running ∧ (s.run step).2.world.warnings = s.world.warnings := by
  have hconcludes := s.step_concludes
  generalize s.run step = r at hconcludes
  cases hconcludes with
  | refused error => exact .inr ⟨fun h => by simp [h.error] at error, rfl⟩
  | broken running executes => exact .inl ⟨running, by rw [executes]⟩
  | @told s₁ line callStack more comes =>
    obtain ⟨published, htold⟩ := s₁.told_snd line callStack more
    rw [htold]
    cases comes with
    | ended _ past => exact .inr ⟨fun h => absurd h.within (Nat.not_lt.mpr past), rfl⟩
    | moved running executes world => exact .inl ⟨running, by rw [executes, world]; rfl⟩
    | failed running executes => exact .inl ⟨running, by rw [executes]; rfl⟩

theorem warnings_of_running (h : s.Running) : (s.run step).2.world.warnings = s.execution.2.warnings :=
  (s.warnings_step.resolve_right fun hnot => hnot.1 h).2

theorem running_of_warnings (h : (s.run step).2.world.warnings ≠ s.world.warnings) : s.Running :=
  (s.warnings_step.resolve_right fun hsame => h hsame.2).1

theorem quiet_of_step (hquiet : (s.run step).2.world.warnings = #[]) : s.world.warnings = #[] := by
  by_cases hsame : (s.run step).2.world.warnings = s.world.warnings
  · exact hsame.symm.trans hquiet
  · have happended : s.world.warnings.toList <+: s.execution.2.warnings.toList :=
      (Machine.execute_beside (Machine.host_discreet _) _ s.ready).warnings
    rw [← warnings_of_running (running_of_warnings hsame), hquiet] at happended
    exact Array.toList_eq_nil_iff.mp (List.prefix_nil.mp happended)

theorem execution_strict (h : s.Standing) (hlenient : s.settings.strict = false) (hquiet : s.world.warnings = #[]) :
    (s.strictly.execution = s.execution ∧ s.execution.2.warnings = #[]) ∨
      ∃ f, s.strictly.execution.1 = .error f ∧ s.program.Exposes f s.execution.2.warnings := by
  have hdepth : s.settings.maxCallDepth = s.machine.limits.callDepth := by rw [h.limits]; rfl
  have hsteps : s.settings.maxCallSteps = s.machine.limits.callSteps := by rw [h.limits]; rfl
  have hlenient' : s.machine.limits.strict = false := by rw [h.limits]; exact hlenient
  have hmachines := Pairing.machines_strictness s.strictly.machine s.machine
    (Eq.refl (some s.settings.maxOutputLines)) rfl hdepth hsteps rfl hlenient'
  have hnested := Pairing.nested_strictness (p := s.machine.program)
  have halike : (Pairing.strictness s.machine.program).alike s.ready s.ready := ⟨rfl, hquiet⟩
  have hnesting : s.strictly.machine.nesting = s.machine.nesting := by
    rw [Machine.nesting, Machine.nesting, ← hdepth, ← hsteps]
    rfl
  have hhosts := hmachines.bodyHosts hnested (Nat.le_of_eq hnesting) fun hlt => absurd hlt (hnesting ▸ Nat.lt_irrefl _)
  have hmeet := (hmachines.execute hnested.toFair hhosts s.world.current.nextIndex).meets halike
  rw [← h.program]
  obtain ⟨f, hf, hexposes⟩ | ⟨hresult, hworld, hquiet'⟩ := hmeet
  · exact .inr ⟨f, hf, hexposes⟩
  · have hsame : s.strictly.execution = s.execution := Prod.ext hresult hworld
    exact .inl ⟨hsame, hsame ▸ hquiet'⟩

theorem run_step_strictly (h : s.Standing) (hlenient : s.settings.strict = false)
    (hquiet : (s.run step).2.world.warnings = #[]) : s.strictly.run step = ((s.run step).1, (s.run step).2.strictly) := by
  have hsame : s.Running → s.strictly.execution = s.execution := by
    intro hrunning
    obtain ⟨hsame, -⟩ | ⟨f, -, hexposes⟩ := execution_strict h hlenient (quiet_of_step hquiet)
    · exact hsame
    · obtain ⟨i, instr, why, labels, -, -, hfirst, -⟩ := hexposes
      rw [← warnings_of_running hrunning, hquiet] at hfirst
      cases hfirst
  have hstep := run_step_under hsame
  rw [strictly, hstep, strictly, (framed_step s).settings]

/-- The step of the first warning leaves a strict session with the error of the statement that the warning is about. -/
theorem exposed_step (h : s.Standing) (hlenient : s.settings.strict = false) (hquiet : s.world.warnings = #[])
    (hwarned : (s.run step).2.world.warnings ≠ #[]) :
    ∃ (i : Nat) (instr : Instruction) (why : SyntaxError) (e : Raised) (w : World),
      s.program.instructions[i]? = some instr ∧ instr.stmt = .unsupported why ∧
      (s.run step).2.world.warnings[0]? = some instr.warning ∧
      s.strictly.Running ∧ s.strictly.execution = (.error (.raised e), w) ∧
      e.cause = .unsupported instr.text why ∧ e.line = some (instr.line + 1) := by
  have hrunning : s.Running := running_of_warnings fun hsame => hwarned (hsame.trans hquiet)
  rw [warnings_of_running hrunning] at hwarned ⊢
  obtain ⟨-, hnone⟩ | ⟨f, hf, i, instr, why, labels, hfound, hstmt, hfirst, rfl⟩ := execution_strict h hlenient hquiet
  · exact absurd hnone hwarned
  · exact ⟨i, instr, why, _, _, hfound, hstmt, hfirst, ⟨hrunning.error, hrunning.within⟩, eq_of_fst_eq hf, rfl, rfl⟩

theorem create_strictly {t : Settings} {code : Text} (hcreate : create { t with strict := false } code = .ok s) :
    create { t with strict := true } code = .ok s.strictly := by
  have hunder := create_under (t := { t with strict := true }) hcreate rfl rfl
  obtain ⟨program, bound, seed, -, -, -, rfl⟩ := create_cases hcreate
  exact hunder

/-- A strict session agrees with a lenient one until the first warning: what they show and the worlds they are in are the
same after every number of steps without one. The step in which the lenient session gets its first warning leaves the
strict one with the error of the statement which that warning is about, on its line. The strict session shows the error,
too, unless the panel that goes with it breaks down; then the step breaks down, and what was shown before stays. -/
theorem strict_agrees_until_warning {t : Settings} {code : Text} {a : Session}
    (hcreate : create { t with strict := false } code = .ok a) :
    ∃ b, create { t with strict := true } code = .ok b ∧ ∀ n, (a.after n).world.warnings = #[] →
      (b.after n).published = (a.after n).published ∧ (b.after n).world = (a.after n).world ∧
      ((a.after (n + 1)).world.warnings ≠ #[] →
        ∃ (i : Nat) (instr : Instruction) (why : SyntaxError), a.program.instructions[i]? = some instr ∧
          instr.stmt = .unsupported why ∧ (a.after (n + 1)).world.warnings[0]? = some instr.warning ∧
          (b.after (n + 1)).error = some ⟨.unsupported instr.text why, instr.line + 1⟩ ∧
          (∀ rows, (b.after (n + 1)).panel = .ok rows →
            ((b.after n).run step).1 = .ok false ∧ (b.after (n + 1)).published.error = (b.after (n + 1)).error) ∧
          ∀ down, (b.after (n + 1)).panel = .error down →
            ((b.after n).run step).1 = .error down ∧ (b.after (n + 1)).published = (b.after n).published) := by
  have hstart : a.Standing ∧ a.settings = { t with strict := false } := by
    obtain ⟨program, bound, seed, -, -, -, rfl⟩ := create_cases hcreate
    exact ⟨⟨rfl, rfl⟩, rfl⟩
  have hlenient (k : Nat) : (a.after k).settings.strict = false := by
    rw [(a.framed_after k).settings, hstart.2]
  have hafter (k : Nat) (hquiet : (a.after k).world.warnings = #[]) : a.strictly.after k = (a.after k).strictly := by
    induction k with
    | zero => rfl
    | succ k ih =>
      rw [after, ih (quiet_of_step hquiet), run_step_strictly (hstart.1.after k) (hlenient k) hquiet]
      rfl
  refine ⟨a.strictly, create_strictly hcreate, fun n hquiet => ?_⟩
  have hn := hafter n hquiet
  refine ⟨by rw [hn]; rfl, by rw [hn]; rfl, fun hwarned => ?_⟩
  obtain ⟨i, instr, why, e, w, hfound, hstmt, hfirst, hrunning, he, hcause, hline⟩ :=
    exposed_step (hstart.1.after n) (hlenient n) hquiet hwarned
  rw [(a.framed_after n).program] at hfound
  have hnext : a.strictly.after (n + 1) = ((a.after n).strictly.run step).2 := by rw [after, hn]
  have herror := error_of_execution hrunning he
  rw [hcause, hline] at herror
  have hshown := published_of_execution hrunning he
  rw [hnext, hn]
  exact ⟨i, instr, why, hfound, hstmt, hfirst, herror, hshown.1, hshown.2⟩

/-- The statement is in a function whose result is only asked for its type. -/
theorem strict_agrees_until_warning_typeof : ∃ a b : Session,
    (b.after 2).published = (a.after 2).published ∧ (a.after 3).world.warnings ≠ #[] ∧
      ∃ (instr : Instruction) (why : SyntaxError), (a.after 3).world.warnings[0]? = some instr.warning ∧
        (b.after 3).error = some ⟨.unsupported instr.text why, instr.line + 1⟩ ∧
        (b.after 3).published.error = (b.after 3).error := by
  have hchecked : (create { Settings.standard with strict := false }
      "function f() \x7b\n  import y\n  return 1\n\x7d\nlet t = typeof f()".codes).toOption.any fun a =>
        decide ((a.after 2).world.warnings = #[]) && decide ((a.after 3).world.warnings ≠ #[]) &&
          (a.strictly.after 3).panel.isOk := by
    decide +kernel
  obtain ⟨a, hcreate, ha⟩ := eq_ok_of_any hchecked
  simp only [Bool.and_eq_true, decide_eq_true_eq] at ha
  obtain ⟨⟨hquiet, hwarned⟩, hpanel⟩ := ha
  obtain ⟨b, hcreate', hb⟩ := strict_agrees_until_warning hcreate
  obtain ⟨hpublished, -, hexposed⟩ := hb 2 hquiet
  obtain ⟨i, instr, why, -, -, hfirst, herror, hshown, -⟩ := hexposed hwarned
  obtain rfl : b = a.strictly := Except.ok.inj (hcreate'.symm.trans (create_strictly hcreate))
  obtain ⟨rows, hrows⟩ := eq_ok_of_isOk hpanel
  exact ⟨a, _, hpublished, hwarned, instr, why, hfirst, herror, (hshown rows hrows).2⟩

/-- A variable that holds a number without a text hides the error: the lenient session gets its first warning in the
fourth step and shows it, but this step of the strict one breaks down, and no error is shown. -/
theorem strict_error_hidden_by_panel : ∃ (code : Text) (a b : Session),
    create { Settings.standard with strict := false } code = .ok a ∧
    create { Settings.standard with strict := true } code = .ok b ∧
    (a.after 3).world.warnings = #[] ∧ (a.after 4).world.warnings ≠ #[] ∧ (a.after 4).published.warnings ≠ #[] ∧
    ((b.after 3).run step).1.isOk = false ∧ (b.after 4).published.error.isNone := by
  have hchecked : (create { Settings.standard with strict := false }
      ("let x = 0\nfunction f() \x7b\n  x = Number('0x1' + '0'.repeat(256))\n  import y\n" ++
        "  x = 1\n\x7d\nf()").codes).toOption.any fun a =>
        decide ((a.after 3).world.warnings = #[]) && decide ((a.after 4).world.warnings ≠ #[]) &&
          decide ((a.after 4).published.warnings ≠ #[]) &&
          !((a.strictly.after 3).run step).1.isOk && (a.strictly.after 4).published.error.isNone := by
    decide +kernel
  obtain ⟨a, hcreate, ha⟩ := eq_ok_of_any hchecked
  simp only [Bool.and_eq_true, decide_eq_true_eq, Bool.not_eq_true'] at ha
  obtain ⟨⟨⟨⟨hquiet, hwarned⟩, hshown⟩, hdown⟩, hhidden⟩ := ha
  exact ⟨_, a, a.strictly, hcreate, create_strictly hcreate, hquiet, hwarned, hshown, hdown, hhidden⟩

end Session

end Stepwise
