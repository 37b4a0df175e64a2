import Stepwise.Proofs.Escapes
import Stepwise.Proofs.Loading
import Stepwise.Proofs.Raising

/-!
# Errors point into the source

What a session shows about its place is in the source: the current line, and the line of an error. Faults point at an
instruction of the program. A run that is out of steps or of time points at the line it would have executed next, which
exists as long as the program has not come to its end. So there is one exception: a run that begins at the end of the
program and is not allowed a single step reports the line after the last one, next to the completion that was shown
before (`Session.errors_point_into_source`).
-/

namespace Stepwise

open List

namespace Program

variable {source : Text} {p : Program} {i : Nat}

theorem line_lt {instr : Instruction} (h : load source = .ok p) (hinstr : p.instructions[i]? = some instr) :
    instr.line < p.lineCount :=
  (lineFaithful_load h).bounded instr (Array.mem_toList_iff.mpr (Array.mem_of_getElem? hinstr))

theorem lineOf_lt (h : load source = .ok p) (hlt : i < p.size) : p.lineOf i < p.lineCount := by
  have hinstr : p.instructions[i]? = some p.instructions[i] := Array.getElem?_eq_getElem hlt
  rw [lineOf, hinstr]
  exact line_lt h hinstr

theorem lineOf_of_end (hge : p.size ≤ i) : p.lineOf i = p.lineCount := by
  rw [lineOf, Array.getElem?_eq_none hge]
  rfl

theorem lineOf_le (h : load source = .ok p) (i : Nat) : p.lineOf i ≤ p.lineCount := by
  rcases Nat.lt_or_ge i p.size with hlt | hge
  · exact Nat.le_of_lt (lineOf_lt h hlt)
  · exact Nat.le_of_eq (lineOf_of_end hge)

end Program

namespace Session

open Exec

variable {α β : Type} {s s' : Session} {late : Prop}

/-! ### Runs that are cut short -/

/-- A run that the clock cuts off after the given number of steps, if it gets that far. -/
def runCut : Nat → Command Unit
  | 0 => timeOut .timeLimit
  | n + 1 => do if ← step then runCut n

/-- The sessions that commands lead to, whether these end well or break down, and wherever the clock cuts a run off. -/
inductive Timed : Session → Prop
  | create {settings : Settings} {code : Text} {s : Session} (h : create settings code = .ok s) : Timed s
  | order {s : Session} (o : Order) (h : Timed s) : Timed (s.run o.command).2
  | cut {s : Session} (n : Nat) (h : Timed s) (running : s.error = none) : Timed (s.run (runCut n)).2
  | load {s : Session} (code : Text) (h : Timed s) : Timed (s.run (load code)).2
  | applySettings {s : Session} (patch : SettingsPatch) (h : Timed s) : Timed (s.run (applySettings patch)).2

theorem Attained.timed (h : s.Attained) : s.Timed := by
  induction h with
  | create h => exact .create h
  | order o _ ih => exact .order o ih
  | load code _ ih => exact .load code ih
  | applySettings patch _ ih => exact .applySettings patch ih

/-! ### Where sessions execute -/

/-- The program was loaded, and the world is outside all functions and inside closed blocks. -/
structure Anchors (p : Program) (w : World) : Prop where
  loaded : ∃ source, Program.load source = .ok p
  amid : w.Amid p none []

theorem Anchors.indexed {p : Program} {w : World} (h : Anchors p w) : p.Indexed := by
  obtain ⟨source, hload⟩ := h.loaded
  exact Program.indexed_load hload

theorem within_execute (h : s.machine.program.Indexed) (i : Nat) : Within (World.Amid s.machine.program none [])
    (Fault.Located s.machine.program) (s.machine.execute s.host i) :=
  Machine.within_execute h (Machine.locates_bodyHost h _ _) i

theorem lasting_anchors : Lasting Anchors where
  same {p _ w'} h hsame := by
    have henclosed : w'.current.Enclosed p := by rw [Activation.Enclosed, hsame.frames]; exact h.amid.enclosed
    exact ⟨h.loaded, hsame.function.trans h.amid.function, hsame.callers.trans h.amid.callers, henclosed⟩
  initial _ hload := ⟨⟨_, hload⟩, rfl, rfl, forall_mem_nil _⟩
  execution h := ⟨h.loaded, (within_execute h.indexed _ _ h.amid).1⟩

/-- Between two steps, the session executes a program that was loaded, outside all functions and inside closed blocks. -/
abbrev Anchored (s : Session) : Prop := s.Throughout Anchors

namespace Anchored

variable (h : s.Anchored)

include h

theorem loaded : ∃ source, Program.load source = .ok s.machine.program := h.world.loaded

theorem indexed : s.machine.program.Indexed := h.world.indexed

theorem ready : World.Amid s.machine.program none [] s.ready := (Throughout.ready lasting_anchors h).amid

theorem located {i : Nat} {e : Raised} {w : World}
    (hexecute : (s.machine.execute s.host i).outcome s.ready = (.error (.raised e), w)) :
    ∃ (o : Nat) (instr : Instruction), s.machine.program.instructions[o]? = some instr ∧ e.line = some (instr.line + 1) := by
  obtain ⟨instr, e₀, -, -, heq⟩ := Machine.execute_eq_raised hexecute
  have hlocated := (within_execute h.indexed i _ h.ready).2 _ (congrArg Prod.fst hexecute)
  obtain ⟨o, instr', hinstr, hline⟩ := hlocated.line rfl (congrArg Raised.line heq)
  exact ⟨o, instr', hinstr, by rw [congrArg Raised.line heq, hline]⟩

theorem eventful {x : Command α} (hx : Eventful x) : (s.run x).2.Anchored :=
  hx.kept (fun _ _ hs happens => hs.event lasting_anchors happens.event) h

end Anchored

theorem Keeps.runCut {P : Session → Prop} (hstep : Keeps True P step)
    (htimeOut : ∀ cause, cause.EndsRun → Keeps True P (timeOut cause)) (n : Nat) : Keeps True P (runCut n) := by
  induction n with
  | zero => exact htimeOut _ (.inr rfl)
  | succ n ih => exact .bind hstep fun _ => .ite _ ih (.done _)

/-! ### What is shown -/

/-- The pointer is past the last instruction. -/
def AtEnd (s : Session) : Prop := s.program.size ≤ s.world.current.nextIndex

instance (s : Session) : Decidable s.AtEnd := inferInstanceAs (Decidable (_ ≤ _))

/-- The error that is shown points at a line of the source, and the program is not shown as complete next to it. -/
def Points (s : Session) : Prop :=
  ∀ r, s.published.error = some r → r.line ≤ s.program.lineCount ∧ s.published.isComplete = false

/-- The error that is shown says that a run was cut short, and it points past the source. -/
def Overshoots (s : Session) : Prop :=
  ∃ cause, cause.EndsRun ∧ s.published.error = some ⟨cause, s.program.lineCount + 1⟩ ∧ s.AtEnd

/-- How a session and what it shows are placed in the source; an overshoot only if one is allowed for. -/
structure Oriented (late : Prop) (s : Session) : Prop where
  machine : s.machine.program = s.program
  complete : s.complete → s.AtEnd
  line : s.published.currentLine ≤ s.program.lineCount
  positive : ∀ r, s.published.error = some r → 1 ≤ r.line
  shown : s.published.isComplete → s.AtEnd
  told : s.published.error.isSome → s.error.isSome
  points : s.Points ∨ late ∧ s.Overshoots
  marks : ∀ c ∈ s.history.entries, c.complete = false ∧ c.published.currentLine ≤ s.program.lineCount ∧
    c.published.isComplete = false ∧ c.published.error = none

theorem points_of_none (h : s.published.error = none) : s.Points := fun r hr => by
  rw [h] at hr
  cases hr

theorem overshoots_timeOut (hend : s.AtEnd) {cause : Cause} (hcause : cause.EndsRun) :
    (s.run (timeOut cause)).2.Overshoots := by
  have hline : s.nextLine = s.program.lineCount := Program.lineOf_of_end hend
  exact ⟨cause, hcause, congrArg (fun line => some (⟨cause, line + 1⟩ : Report)) hline, hend⟩

theorem oriented_start {code : Text} {program : Program} (h : Program.load code = .ok program) (settings : Settings)
    (bound : Nat) (seed : Int) : (start settings code program bound seed).Oriented late where
  machine := rfl
  complete := nofun
  line := Program.lineOf_le h 0
  positive := nofun
  shown := nofun
  told := nofun
  points := .inl (points_of_none rfl)
  marks := by simp [start, History.entries_empty]

namespace Oriented

variable (h : s.Oriented late)

include h

theorem quiet (herror : s.error = none) : s.published.error = none := by
  cases hshown : s.published.error with
  | none => rfl
  | some r =>
    have := h.told (by rw [hshown]; rfl)
    rw [herror] at this
    cases this

theorem running (herror : s.error = none) (late' : Prop) : s.Oriented late' :=
  { h with points := .inl (points_of_none (h.quiet herror)) }

/-- The session is shown while an error, if there is one, is that of an instruction. -/
theorem toldAt {line : Nat} (hline : line ≤ s.program.lineCount)
    (herror : ∀ r, s.error = some r → 1 ≤ r.line ∧ r.line ≤ s.program.lineCount ∧ s.complete = false)
    (callStack : List Text) (more : Bool) : (s.told line callStack more).2.Oriented late := by
  rcases s.told_cases line callStack more with ⟨published, hview, htold⟩ | ⟨why, -, htold⟩
  · obtain ⟨rows, -, rfl⟩ := view_eq_ok hview
    rw [htold]
    exact ⟨h.machine, h.complete, hline, fun r hr => (herror r hr).1, h.complete, id, .inl fun r hr => (herror r hr).2,
      h.marks⟩
  · rw [htold]
    exact h

/-- What is kept when a step begins, whatever becomes of the instruction. -/
theorem begun (herror : s.error = none) (hlt : ¬ s.AtEnd) (hmachine : s'.machine = s.machine)
    (hprogram : s'.program = s.program) (hhistory : s'.history = s.begun.history) (hpublished : s'.published = s.published)
    (hcomplete : s'.complete → s'.AtEnd) : s'.Oriented late := by
  have hnone := h.quiet herror
  have hshown : s.published.isComplete = false := Bool.eq_false_iff.mpr fun hshown => hlt (h.shown hshown)
  refine ⟨by rw [hmachine, hprogram]; exact h.machine, hcomplete, by rw [hpublished, hprogram]; exact h.line, ?_, ?_, ?_,
    .inl (points_of_none (by rw [hpublished]; exact hnone)), ?_⟩
  · intro r hr
    rw [hpublished, hnone] at hr
    cases hr
  · rw [hpublished, hshown]
    nofun
  · rw [hpublished, hnone]
    nofun
  · intro c hc
    rw [hhistory] at hc
    rw [hprogram]
    rcases mem_begun hc with rfl | hc
    · exact ⟨Bool.eq_false_iff.mpr fun hcomplete => hlt (h.complete hcomplete), h.line, hshown, hnone⟩
    · exact h.marks c hc

theorem finished (hend : s.AtEnd) : s.finished.Oriented late :=
  have hend' : s.finished.AtEnd := hend
  { machine := h.machine, complete := fun _ => hend', line := h.line, positive := h.positive, shown := fun _ => hend',
    told := h.told, marks := h.marks,
    points := h.points.imp_right fun ⟨hlate, cause, hcause, hreport, _⟩ => ⟨hlate, cause, hcause, hreport, hend'⟩ }

theorem step (hs : s.Anchored) : (s.run step).2.Oriented late := by
  obtain ⟨source, hload⟩ := hs.loaded
  have hload' : Program.load source = .ok s.program := by rw [← h.machine]; exact hload
  have hgoing (hrunning : s.Running) : ¬ s.AtEnd := Nat.not_le.mpr hrunning.within
  have hincomplete (hrunning : s.Running) : s.complete = false :=
    Bool.eq_false_iff.mpr fun hcomplete => hgoing hrunning (h.complete hcomplete)
  have hconcludes := s.step_concludes
  generalize s.run Session.step = r at hconcludes
  cases hconcludes with
  | refused => exact h
  | broken running _ =>
    exact h.begun running.error (hgoing running) rfl rfl rfl rfl fun hcomplete =>
      absurd (h.complete hcomplete) (hgoing running)
  | told comes =>
    cases comes with
    | ended error past =>
      have hquiet : s.finished.error = none := error
      exact (h.finished past).toldAt (Program.lineOf_le hload' _) (by rw [hquiet]; nofun) _ _
    | @moved next w w' running _ _ =>
      have hmoved : (s.moved w').Oriented late :=
        h.begun running.error (hgoing running) rfl rfl rfl rfl of_decide_eq_true
      have hquiet : (s.moved w').error = none := running.error
      exact hmoved.toldAt (Program.lineOf_le hload' _) (by rw [hquiet]; nofun) _ _
    | @failed e w running executes =>
      obtain ⟨o, instr, hinstr, hline⟩ := hs.located executes
      rw [h.machine] at hinstr
      have hinside : instr.line + 1 ≤ s.program.lineCount := Program.line_lt hload' hinstr
      have hreport : (s.stopped w e).error = some ⟨e.cause, instr.line + 1⟩ := by rw [stopped, hline]; rfl
      have hstopped : (s.stopped w e).Oriented late :=
        h.begun running.error (hgoing running) rfl rfl rfl rfl fun hcomplete =>
          absurd (h.complete hcomplete) (hgoing running)
      rw [hline]
      refine hstopped.toldAt hinside (fun r hr => ?_) _ _
      rw [hreport] at hr
      cases hr
      exact ⟨Nat.le_add_left 1 _, hinside, hincomplete running⟩

theorem restored {c : Checkpoint} {history : History Checkpoint} (taken : s.history.pop? = some (c, history)) :
    (s.restored c history).Oriented late := by
  obtain ⟨hc, hrest⟩ := History.mem_of_pop? taken
  obtain ⟨hcomplete, hline, hshown, hnone⟩ := h.marks c hc
  refine ⟨h.machine, ?_, hline, ?_, ?_, ?_, .inl (points_of_none hnone), fun c' hc' => h.marks c' (hrest c' hc')⟩
  · rw [show (s.restored c history).complete = false from hcomplete]
    nofun
  · rw [show (s.restored c history).published.error = none from hnone]
    nofun
  · rw [show (s.restored c history).published.isComplete = false from hshown]
    nofun
  · rw [show (s.restored c history).published.error = none from hnone]
    nofun

omit h in
theorem inside (h : s.Oriented False) : s.Points := h.points.resolve_right fun hlate => hlate.1

theorem timeOut (hs : s.Anchored) {cause : Cause} (hcause : cause.EndsRun)
    (hlate : s.AtEnd → late) : (s.run (timeOut cause)).2.Oriented late := by
  obtain ⟨source, hload⟩ := hs.loaded
  have hload' : Program.load source = .ok s.program := by rw [← h.machine]; exact hload
  refine ⟨h.machine, h.complete, h.line, ?_, h.shown, fun _ => rfl, ?_, h.marks⟩
  · rintro _ ⟨⟩
    exact Nat.le_add_left 1 _
  · by_cases hend : s.AtEnd
    · exact .inr ⟨hlate hend, overshoots_timeOut hend hcause⟩
    · left
      rintro _ ⟨⟩
      exact ⟨Program.lineOf_lt hload' (Nat.not_le.mp hend), Bool.eq_false_iff.mpr fun hshown => hend (h.shown hshown)⟩

end Oriented

/-! ### Sessions -/

/-- A session is anchored, and it is placed in the source unless its last load was left half-way. -/
structure Placed (late : Prop) (s : Session) : Prop where
  anchored : s.Anchored
  oriented : s.warned → s.Oriented late

namespace Placed

variable {n : Nat}

theorem step : Keeps True (Placed late) step := fun s hs _ =>
  ⟨hs.anchored.eventful .step, fun hwarned => (hs.oriented (s.framed_step.warned ▸ hwarned)).step hs.anchored⟩

theorem load (code : Text) : Keeps True (Placed late) (load code) := by
  intro s hs _
  refine ⟨hs.anchored.eventful (.load code), ?_⟩
  cases hload : Program.load code with
  | error why =>
    intro hwarned
    have h := hs.oriented (by simpa [Session.load, run_bind, hload] using hwarned)
    have hcoded : ({ s with code } : Session).Oriented late :=
      ⟨h.machine, h.complete, h.line, h.positive, h.shown, h.told, h.points, h.marks⟩
    simpa [Session.load, run_bind, hload] using hcoded
  | ok program =>
    cases hbound : s.settings.historyBound with
    | error why => simp [Session.load, run_bind, hload, hbound, halfLoaded]
    | ok bound =>
      cases hseed : s.settings.seed.number with
      | error why => simp [Session.load, run_bind, hload, hbound, hseed, halfLoaded]
      | ok seed =>
        rw [run_load hload hbound hseed]
        exact fun _ => oriented_start hload _ _ _

theorem restored {c : Checkpoint} {history : History Checkpoint} (h : s.Placed late)
    (taken : s.history.pop? = some (c, history)) : (s.restored c history).Placed late :=
  ⟨h.anchored.event lasting_anchors (.restored taken), fun hwarned => (h.oriented hwarned).restored taken⟩

theorem timeOut {cause : Cause} (hcause : cause.EndsRun) (h : s.Placed late)
    (hlate : s.AtEnd → late) : (s.run (timeOut cause)).2.Placed late :=
  ⟨h.anchored.eventful (.timeOut cause), fun hwarned => (h.oriented hwarned).timeOut h.anchored hcause hlate⟩

theorem going_of_step (hstep : s.run Session.step = (.ok true, s')) : s'.error = none ∧ ¬ s'.AtEnd := by
  generalize hmore : true = more at hstep
  cases step_cases hstep with
  | refused => cases hmore
  | told comes _ =>
    cases comes with
    | ended | failed => cases hmore
    | @moved next w w' running _ _ =>
      refine ⟨running.error, ?_⟩
      have hcomplete : (s.moved w').complete = false := by simpa using hmore
      exact of_decide_eq_false hcomplete

theorem stepThen {next : Command Unit} (h : s.Placed late) (hwarned : s.warned) (herror : s.error = none)
    (hnext : ∀ s' : Session, s'.Placed False → s'.warned → s'.error = none → ¬ s'.AtEnd → (s'.run next).2.Oriented False) :
    (s.run (do if ← Session.step then next)).2.Oriented False := by
  have h' : s.Placed False := ⟨h.anchored, fun _ => (h.oriented hwarned).running herror False⟩
  have hplaced := step s h' (.inl trivial)
  have hwarned' := s.framed_step.warned.trans hwarned
  rw [run_bind]
  rcases hstep : s.run Session.step with ⟨why | more, s'⟩
  · rw [hstep] at hplaced hwarned'
    exact hplaced.oriented hwarned'
  · rw [hstep] at hplaced hwarned'
    cases more with
    | false => exact hplaced.oriented hwarned'
    | true =>
      obtain ⟨herror', hbefore⟩ := going_of_step hstep
      exact hnext s' hplaced hwarned' herror' hbefore

theorem runCut (h : s.Placed late) (hwarned : s.warned) (herror : s.error = none) (hbefore : n = 0 → ¬ s.AtEnd) :
    (s.run (runCut n)).2.Oriented False := by
  induction n generalizing s late with
  | zero => exact ((h.oriented hwarned).running herror False).timeOut h.anchored (.inr rfl) (hbefore rfl)
  | succ n ih =>
    refine h.stepThen hwarned herror fun s' h' hwarned' herror' hbefore' => ?_
    exact ih h' hwarned' herror' fun _ => hbefore'

theorem runFor (h : s.Placed late) (hwarned : s.warned) (herror : s.error = none)
    (hbefore : n = 0 ∨ s.settings.outOfTime = .ok true → ¬ s.AtEnd) : (s.run (runFor n)).2.Oriented False := by
  have hstay := (h.oriented hwarned).running herror False
  induction n generalizing s late with
  | zero => exact hstay.timeOut h.anchored (.inl rfl) (hbefore (.inl rfl))
  | succ n ih =>
    cases htime : s.settings.outOfTime with
    | error why =>
      have hrun : (s.run (Session.runFor (n + 1))).2 = s := by
        rw [Session.runFor, run_bind, run_get]
        dsimp only
        rw [run_bind, htime, run_lift]
      rw [hrun]
      exact hstay
    | ok passed =>
      rw [run_runFor_succ htime]
      cases passed with
      | true => exact hstay.timeOut h.anchored (.inr rfl) (hbefore (.inr htime))
      | false =>
        refine h.stepThen hwarned herror fun s' h' hwarned' herror' hbefore' => ?_
        exact ih h' hwarned' herror' (fun _ => hbefore') (h'.oriented hwarned')

end Placed

theorem Timed.placed (h : s.Timed) : s.Placed True := by
  have htimeOut (cause : Cause) (hcause : cause.EndsRun) : Keeps True (Placed True) (timeOut cause) :=
    fun s hs _ => hs.timeOut hcause fun _ => trivial
  induction h with
  | create h =>
    obtain ⟨program, bound, seed, hload, -, -, rfl⟩ := create_cases h
    exact ⟨.start lasting_anchors hload _ _ _, fun _ => oriented_start hload _ _ _⟩
  | order o _ ih => exact Keeps.order .step .load (fun _ => htimeOut) (fun _ _ _ h => h.restored) _ ih (.inl trivial)
  | cut n _ _ ih => exact Keeps.runCut .step htimeOut n _ ih (.inl trivial)
  | load code _ ih => exact Placed.load code _ ih (.inl trivial)
  | applySettings patch _ ih =>
    refine ⟨ih.anchored.event lasting_anchors (.changed _), fun hwarned => ?_⟩
    have h := ih.oriented hwarned
    exact ⟨h.machine, h.complete, h.line, h.positive, h.shown, h.told, h.points, h.marks⟩

theorem run_runToEnd_snd (herror : s.error = none) :
    (s.run Order.runToEnd.command).2 = (s.run (do runFor (← s.settings.maxSteps.reachedAt))).2 := by
  show (s.run (do runToEnd; return none)).2 = _
  rw [run_bind, run_runToEnd herror]
  rcases s.run (do runFor (← s.settings.maxSteps.reachedAt)) with ⟨why | _, s'⟩ <;> rfl

/-- A run to the end, unless it begins there and may not make a single step. -/
theorem Placed.runToEnd (h : s.Placed late) (hwarned : s.warned) (herror : s.error = none)
    (hbefore : s.AtEnd → s.settings.maxSteps.reachedAt ≠ .ok 0 ∧ s.settings.outOfTime ≠ .ok true) :
    (s.run Order.runToEnd.command).2.Oriented False := by
  rw [run_runToEnd_snd herror, run_bind, run_lift]
  cases hlimit : s.settings.maxSteps.reachedAt with
  | error why => exact (h.oriented hwarned).running herror False
  | ok n =>
    refine h.runFor hwarned herror fun hnone hend => ?_
    obtain ⟨hsteps, htime⟩ := hbefore hend
    rcases hnone with rfl | hpassed
    · exact hsteps hlimit
    · exact htime hpassed

theorem Placed.order {o : Order} (h : s.Placed late) (hwarned : s.warned) (herror : s.error = none) (ho : o ≠ .runToEnd) :
    (s.run o.command).2.Placed False :=
  Keeps.order .step .load (fun h => absurd h ho) (fun _ _ _ h => h.restored) s
    ⟨h.anchored, fun _ => (h.oriented hwarned).running herror False⟩ (.inl trivial)

/-- What a session shows points into the source: the current line is one of its lines, or the end, and so is that of an
error, next to which the program is not shown as complete. There is one exception, a run that is cut short before its
first step when the program has come to its end already. -/
theorem errors_point_into_source (hs : s.Timed) (hloaded : s.warned) :
    s.published.currentLine ≤ s.program.lineCount ∧ (∀ r, s.published.error = some r → 1 ≤ r.line) ∧
      (s.Points ↔ ¬ s.Overshoots) ∧
      (s.error = none →
        (∀ o : Order, (s.run o.command).2.warned → (s.run o.command).2.Points ∨
          o = .runToEnd ∧ s.AtEnd ∧ (s.settings.maxSteps.reachedAt = .ok 0 ∨ s.settings.outOfTime = .ok true)) ∧
        (∀ n, (s.run (runCut n)).2.Points ∨ n = 0 ∧ s.AtEnd) ∧
        (s.AtEnd → s.settings.maxSteps.reachedAt = .ok 0 → (s.run Order.runToEnd.command).2.Overshoots)) := by
  have h := hs.placed
  have horiented := h.oriented hloaded
  refine ⟨horiented.line, horiented.positive, ⟨?_, ?_⟩, fun herror => ⟨fun o hwarned => ?_, fun n => ?_, ?_⟩⟩
  · rintro hpoints ⟨cause, -, hreport, -⟩
    exact Nat.not_succ_le_self _ (hpoints _ hreport).1
  · exact fun hnot => horiented.points.resolve_right fun hlate => hnot hlate.2
  · by_cases hexception : o = .runToEnd ∧ s.AtEnd ∧
        (s.settings.maxSteps.reachedAt = .ok 0 ∨ s.settings.outOfTime = .ok true)
    · exact .inr hexception
    · left
      by_cases ho : o = .runToEnd
      · subst ho
        refine (h.runToEnd hloaded herror fun hend => ?_).inside
        exact ⟨fun hsteps => hexception ⟨rfl, hend, .inl hsteps⟩, fun htime => hexception ⟨rfl, hend, .inr htime⟩⟩
      · exact ((h.order hloaded herror ho).oriented hwarned).inside
  · by_cases hexception : n = 0 ∧ s.AtEnd
    · exact .inr hexception
    · exact .inl (h.runCut hloaded herror fun hn hend => hexception ⟨hn, hend⟩).inside
  · intro hend hsteps
    have hrun : (s.run Order.runToEnd.command).2 = (s.run (timeOut .maxSteps)).2 := by
      rw [run_runToEnd_snd herror, hsteps]
      rfl
    rw [hrun]
    exact overshoots_timeOut hend (.inl rfl)

/-- A fault on the second line; and a run without a step that begins at the end of a program. -/
theorem errors_point_into_source_undefined :
    (∃ s : Session, s.Timed ∧ s.warned ∧ s.error = none ∧ (s.run Order.step.command).2.published.error.isSome ∧
      (s.run Order.step.command).2.Points) ∧
    ∃ s : Session, s.Timed ∧ s.warned ∧ s.error = none ∧ s.AtEnd ∧ s.settings.maxSteps.reachedAt = .ok 0 ∧
      (s.run Order.runToEnd.command).2.Overshoots := by
  constructor
  · obtain ⟨s, hs, hnow⟩ := exists_reachable .standard "let a = 1\nb".codes [.step]
      (fun s => s.warned && s.error.isNone && (s.run Order.step.command).2.published.error.isSome &&
        (s.run Order.step.command).2.warned) (by decide +kernel)
    simp only [Bool.and_eq_true, Option.isNone_iff_eq_none] at hnow
    obtain ⟨⟨⟨hwarned, herror⟩, hshown⟩, hwarned'⟩ := hnow
    obtain ⟨-, -, -, hruns⟩ := errors_point_into_source hs.attained.timed hwarned
    obtain ⟨horder, -⟩ := hruns herror
    refine ⟨s, hs.attained.timed, hwarned, herror, hshown, (horder .step hwarned').resolve_right ?_⟩
    rintro ⟨hstep, -⟩
    cases hstep
  · obtain ⟨s, hs, hnow⟩ := exists_reachable { Settings.standard with maxSteps := .int 0 } "1".codes [.step]
      (fun s => s.warned && s.error.isNone && decide s.AtEnd && decide (s.settings.maxSteps.reachedAt = .ok 0))
      (by decide +kernel)
    simp only [Bool.and_eq_true, Option.isNone_iff_eq_none, decide_eq_true_iff] at hnow
    obtain ⟨⟨⟨hwarned, herror⟩, hend⟩, hnone⟩ := hnow
    obtain ⟨-, -, -, hruns⟩ := errors_point_into_source hs.attained.timed hwarned
    exact ⟨s, hs.attained.timed, hwarned, herror, hend, hnone, (hruns herror).2.2 hend hnone⟩

/-- A program of one line that has been stepped through, and a run that is not allowed a step. -/
theorem finished_run_overshoots : ∃ (s : Session) (r : Report), s.Reachable ∧ s.warned ∧ s.published.error = some r ∧
    s.program.lineCount < r.line ∧ s.published.isComplete := by
  obtain ⟨s, hs, hnow⟩ := exists_reachable { Settings.standard with maxSteps := .int 0 } "1".codes [.step, .runToEnd]
    (fun s => s.warned && s.published.error.any (fun r => decide (s.program.lineCount < r.line)) && s.published.isComplete)
    (by decide +kernel)
  simp only [Bool.and_eq_true, Option.any_eq_true, decide_eq_true_iff] at hnow
  obtain ⟨⟨hwarned, r, hreport, hline⟩, hcomplete⟩ := hnow
  exact ⟨s, r, hs, hwarned, hreport, hline, hcomplete⟩

end Session

end Stepwise
