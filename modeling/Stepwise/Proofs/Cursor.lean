import Stepwise.Proofs.ControlState

/-!
# A session is a cursor over a trace

Orders to a session do what moving a cursor along the states of the program does, whatever the bound of the history is.
Taking a step back restores a checkpoint if there is one, and runs the program again otherwise; both lead to the same
session up to its history. The reference is `Tape`, with the cursor `Place`.
-/

namespace Stepwise

open List

/-! ### The reference -/

/-- What a program shows after each number of steps, and after the step that fails. -/
structure Tape where
  shown : Nat → State
  /-- what is shown when the step after `k` steps fails -/
  fault : Nat → Option State

/-- How the last run or step has ended. -/
inductive Place.Status
  | ok
  | failed
  | timedOut

/-- A place on a tape. -/
structure Place where
  steps : Nat
  status : Place.Status

namespace Tape

variable {t : Tape}

/-- What is shown at a place. -/
def display (t : Tape) (c : Place) : State :=
  match c.status with
  | .ok => t.shown c.steps
  | .failed => (t.fault c.steps).getD (t.shown c.steps)
  | .timedOut => { t.shown c.steps with error := some ⟨.maxSteps, (t.shown c.steps).currentLine + 1⟩ }

/-- A step, and whether there are any more. -/
def step (t : Tape) (c : Place) : Bool × Place :=
  match c.status with
  | .ok =>
    if (t.shown c.steps).isComplete then (false, c)
    else match t.fault c.steps with
      | some _ => (false, ⟨c.steps, .failed⟩)
      | none => (!(t.shown (c.steps + 1)).isComplete, ⟨c.steps + 1, .ok⟩)
  | _ => (false, c)

/-- A step back, and whether there was one. -/
def stepBack (c : Place) : Bool × Place :=
  match c.status, c.steps with
  | .failed, k => (true, ⟨k, .ok⟩)
  | _, 0 => (false, ⟨0, .ok⟩)
  | _, k + 1 => (true, ⟨k, .ok⟩)

/-- Steps until one is the last, at most `n`. -/
def times (t : Tape) : Nat → Place → Place
  | 0, c => c
  | n + 1, c => match t.step c with
    | (true, c') => t.times n c'
    | (false, c') => c'

/-- Steps until one is the last, timed out after `n` of them. -/
def runFor (t : Tape) : Nat → Place → Place
  | 0, c => ⟨c.steps, .timedOut⟩
  | n + 1, c => match t.step c with
    | (true, c') => t.runFor n c'
    | (false, c') => c'

/-- What an order answers, and where it leads. A run to the end allows `limit` steps. -/
def order (t : Tape) (limit : Nat) (c : Place) : Session.Order → Option Bool × Place
  | .step => let (more, c') := t.step c; (some more, c')
  | .stepBack => let (moved, c') := stepBack c; (some moved, c')
  | .runToEnd => match c.status with
    | .ok => (none, t.runFor limit c)
    | _ => (none, c)
  | .reset => (none, ⟨0, .ok⟩)
  | .replay n => (none, t.times n ⟨0, .ok⟩)

/-- Orders one after the other, with the answer to each of them and what is shown then. -/
def obey (t : Tape) (limit : Nat) (c : Place) : List Session.Order → List (Option Bool × State)
  | [] => []
  | o :: rest =>
    let (answer, c') := t.order limit c o
    (answer, t.display c') :: t.obey limit c' rest

theorem status_of_step {c c' : Place} (h : t.step c = (true, c')) : c'.status = .ok := by
  unfold step at h
  split at h
  · split at h
    · cases h
    · split at h
      · cases h
      · rw [← (Prod.mk.inj h).2]
  · cases h

/-- Steps that all end well, before the program is complete, lead as far as there are steps. -/
theorem times_of_goes (i n : Nat) (h : ∀ j, i ≤ j → j < i + n → (t.shown j).isComplete = false ∧ t.fault j = none) :
    t.times n ⟨i, .ok⟩ = ⟨i + n, .ok⟩ := by
  induction n generalizing i with
  | zero => rfl
  | succ n ih =>
    obtain ⟨hcomplete, hfault⟩ := h i (Nat.le_refl i) (by omega)
    have hstep : t.step ⟨i, .ok⟩ = (!(t.shown (i + 1)).isComplete, ⟨i + 1, .ok⟩) := by simp [step, hcomplete, hfault]
    rw [times, hstep]
    cases hlast : (t.shown (i + 1)).isComplete with
    | false =>
      rw [show i + (n + 1) = i + 1 + n by omega]
      exact ih (i + 1) fun j hj hj' => h j (by omega) (by omega)
    | true =>
      -- only the last of the steps can complete the program
      cases n with
      | zero => rfl
      | succ n => simp [(h (i + 1) (by omega) (by omega)).1] at hlast

end Tape

namespace Session

open Exec World

variable {α : Type} {s s' t : Session} {b : Bool} {k : Nat}

/-- The session after a number of steps. -/
def after (s : Session) : Nat → Session
  | 0 => s
  | k + 1 => ((s.after k).run step).2

/-- The tape of a program that begins in the session. -/
def tape (s : Session) : Tape where
  shown k := (s.after k).published
  fault k := if (s.after (k + 1)).error.isSome then some (s.after (k + 1)).published else none

/-! ### Sessions without their history -/

/-- The session with the jump ahead made and without its history. -/
def bare (s : Session) : Session := { s.resolved with history := .empty 0 }

theorem published_of_bare (h : s.bare = t.bare) : s.published = t.published := by
  have := congrArg Session.published h
  exact this

theorem error_of_bare (h : s.bare = t.bare) : s.error = t.error := by
  have := congrArg Session.error h
  exact this

theorem complete_of_bare (h : s.bare = t.bare) : s.complete = t.complete := by
  have := congrArg Session.complete h
  exact this

theorem steps_of_bare (h : s.bare = t.bare) : s.failedStep = t.failedStep ∧ s.steps = t.steps := by
  have := And.intro (congrArg Session.failedStep h) (congrArg Session.steps h)
  exact this

theorem mark_of_bare (h : s.bare = t.bare) : s.resolved.mark = t.resolved.mark := by
  have := congrArg Session.mark h
  exact this

theorem bare_execution : s.bare.execution = s.execution := rfl

theorem told_bare (h : s.bare = t.bare) (line : Nat) (callStack : List Text) (more : Bool) :
    (s.told line callStack more).1 = (t.told line callStack more).1 ∧
      (s.told line callStack more).2.bare = (t.told line callStack more).2.bare := by
  have hview : s.view line callStack = t.view line callStack := by
    show s.bare.view line callStack = t.bare.view line callStack
    rw [h]
  rw [told, told, run_publish, run_publish, hview]
  cases t.view line callStack with
  | error why => exact ⟨rfl, h⟩
  | ok published =>
    refine ⟨rfl, ?_⟩
    show { s.bare with published } = { t.bare with published }
    rw [h]

theorem run_step_bare : (s.bare.run step).1 = (s.run step).1 ∧ (s.bare.run step).2.bare = (s.run step).2.bare := by
  have hbare : s.bare.error = s.error ∧ s.bare.program = s.program ∧ s.bare.world.current.nextIndex = s.world.current.nextIndex :=
    ⟨rfl, rfl, rfl⟩
  rw [run_step, run_step, concluded, concluded, hbare.1, hbare.2.1, hbare.2.2, bare_execution]
  split
  · exact ⟨rfl, rfl⟩
  · split
    · exact told_bare (s := s.bare.finished) (t := s.finished) rfl _ _ _
    · rcases s.execution with ⟨(e | why) | next, w⟩
      · exact told_bare (s := s.bare.stopped w e) (t := s.stopped w e) rfl _ _ _
      · exact ⟨rfl, rfl⟩
      · exact told_bare (s := s.bare.moved _) (t := s.moved _) rfl _ _ _

/-- Sessions that differ in their histories step to such sessions, with the same answer. -/
theorem step_of_bare (hbare : s.bare = t.bare) {t' : Session} (h : t.run step = (.ok b, t')) :
    ∃ s', s.run step = (.ok b, s') ∧ s'.bare = t'.bare := by
  have hs := run_step_bare (s := s)
  have ht := run_step_bare (s := t)
  rw [hbare] at hs
  rw [h] at ht
  refine ⟨(s.run step).2, Prod.ext ?_ rfl, ?_⟩
  · rw [← hs.1, ht.1]
  · rw [← hs.2, ht.2]

/-! ### What only grows -/

/-- The later session has the same program and settings, and has only added to the output and the warnings. -/
structure Grown (s s' : Session) : Prop where
  settings : s'.settings = s.settings
  code : s'.code = s.code
  program : s'.program = s.program
  machine : s'.machine = s.machine
  warned : s'.warned = s.warned
  output : s.world.output.toList <+: s'.world.output.toList
  warnings : s.world.warnings.toList <+: s'.world.warnings.toList

theorem Grown.refl (s : Session) : Grown s s := ⟨rfl, rfl, rfl, rfl, rfl, prefix_rfl, prefix_rfl⟩

theorem Grown.trans {s'' : Session} (h : Grown s s') (h' : Grown s' s'') : Grown s s'' :=
  ⟨h'.settings.trans h.settings, h'.code.trans h.code, h'.program.trans h.program, h'.machine.trans h.machine,
    h'.warned.trans h.warned, h.output.trans h'.output, h.warnings.trans h'.warnings⟩

theorem Grown.of_bare (h : s.bare = s'.bare) : Grown s s' := by
  have houtput : s.world.output = s'.world.output := by
    show s.bare.world.output = s'.bare.world.output
    rw [h]
  have hwarnings : s.world.warnings = s'.world.warnings := by
    show s.bare.world.warnings = s'.bare.world.warnings
    rw [h]
  refine ⟨?_, ?_, ?_, ?_, ?_, houtput ▸ prefix_rfl, hwarnings ▸ prefix_rfl⟩
  · exact (congrArg Session.settings h).symm
  · exact (congrArg Session.code h).symm
  · exact (congrArg Session.program h).symm
  · exact (congrArg Session.machine h).symm
  · exact (congrArg Session.warned h).symm

theorem Grown.step (h : s.run step = (.ok b, s')) : Grown s s' := by
  have hbeside : Beside s.ready s.execution.2 :=
    Machine.execute_beside (Machine.host_discreet _) _ _
  cases step_cases h with
  | refused => exact .refl s
  | told comes _ =>
    cases comes with
    | ended => exact ⟨rfl, rfl, rfl, rfl, rfl, prefix_rfl, prefix_rfl⟩
    | moved _ executes world =>
      subst world
      rw [executes] at hbeside
      exact ⟨rfl, rfl, rfl, rfl, rfl, hbeside.output, hbeside.warnings⟩
    | failed _ executes =>
      rw [executes] at hbeside
      exact ⟨rfl, rfl, rfl, rfl, rfl, hbeside.output, hbeside.warnings⟩

/-! ### Sessions between two steps -/

/-- A session after `k` steps that have ended well. -/
structure Settled (s : Session) (k : Nat) : Prop where
  program : s.machine.program = s.program
  error : s.error = none
  failedStep : s.failedStep = false
  steps : s.steps = k
  complete : s.complete = decide (s.program.size ≤ s.world.current.nextIndex)
  view : s.view s.nextLine s.world.callStack = .ok s.published

theorem Settled.of_bare (h : s.bare = t.bare) (ht : t.Settled k) : s.Settled k := by
  have key : s.bare.Settled k := by
    rw [h]
    exact ⟨ht.program, ht.error, ht.failedStep, ht.steps, ht.complete, ht.view⟩
  exact ⟨key.program, key.error, key.failedStep, key.steps, key.complete, key.view⟩

theorem Settled.isComplete (h : s.Settled k) : s.published.isComplete = s.complete := by
  obtain ⟨rows, -, heq⟩ := view_eq_ok h.view
  rw [heq]
  rfl

theorem Settled.currentLine (h : s.Settled k) : s.published.currentLine = s.nextLine := by
  obtain ⟨rows, -, heq⟩ := view_eq_ok h.view
  rw [heq]
  rfl

/-- What a step does between two steps. -/
inductive Settled.Next (s : Session) (k : Nat) : (more : Bool) → (s' : Session) → Prop
  | stays {s' : Session} (complete : s.complete) (same : s'.bare = s.bare) (history : s'.history = s.history) :
      Next s k false s'
  | moves {s' : Session} (complete : s.complete = false) (settled : s'.Settled (k + 1))
      (history : s'.history = s.history.push s.resolved.mark) : Next s k (!s'.complete) s'
  | fails {s' : Session} (complete : s.complete = false) (error : s'.error.isSome) (failedStep : s'.failedStep)
      (steps : s'.steps = k) (history : s'.history = s.history.push s.resolved.mark) : Next s k false s'

theorem Settled.step (h : s.Settled k) (hrun : s.run Session.step = (.ok b, s')) : Next s k b s' := by
  have hgoing (hrunning : s.Running) : s.complete = false := by simpa [h.complete] using hrunning.within
  cases step_cases hrun with
  | refused herror => simp [h.error] at herror
  | @told s₁ line callStack more published comes hview =>
    cases comes with
    | ended _ hpast =>
      have hcomplete : s.complete = true := by simpa [h.complete] using hpast
      have hsame : s.finished.bare = s.bare := by
        show { s.bare with complete := true } = s.bare
        rw [← hcomplete]
        rfl
      have hview' : s.finished.view s.nextLine s.world.callStack = s.view s.nextLine s.world.callStack := by
        show s.finished.bare.view s.nextLine s.world.callStack = s.bare.view s.nextLine s.world.callStack
        rw [hsame]
      rw [hview', h.view] at hview
      obtain rfl := Except.ok.inj hview
      refine .stays hcomplete ?_ rfl
      show { s.finished.bare with published := s.published } = s.bare
      rw [hsame]
      rfl
    | @moved next w w' hrunning _ _ =>
      have hsettled : Settled { s.moved w' with published } (k + 1) :=
        ⟨h.program, h.error, h.failedStep, congrArg (· + 1) h.steps, rfl, hview⟩
      exact .moves (hgoing hrunning) hsettled rfl
    | failed hrunning _ => exact .fails (hgoing hrunning) rfl rfl h.steps rfl

theorem rows_empty (previous : Variables) : Store.empty.globals.rows previous = .ok [] := by
  have hrows : Store.empty.globals.rows previous = .ok (Variables.sorted []) := rfl
  rw [hrows]
  simp [Variables.sorted]

theorem settled_start (settings : Settings) (code : Text) {program : Program} (hsize : 0 < program.size) (bound : Nat)
    (seed : Int) : (start settings code program bound seed).Settled 0 where
  program := rfl
  error := rfl
  failedStep := rfl
  steps := rfl
  complete := (decide_eq_false (Nat.not_le.mpr hsize)).symm
  view := by
    unfold Session.view
    rw [show (start settings code program bound seed).world.store = .empty from rfl, rows_empty]
    rfl

/-! ### Sessions on a tape -/

/-- The checkpoints before each of the first steps, latest first. -/
def marks (s : Session) : Nat → List Checkpoint
  | 0 => []
  | k + 1 => (s.after k).resolved.mark :: s.marks k

/-- The session when a run has taken too many steps. -/
def expired (s : Session) : Session :=
  let report : Report := ⟨.maxSteps, s.nextLine + 1⟩
  { s with error := some report, published := { s.published with error := some report } }

/-- A fresh session that goes on without breaking down. -/
structure Sturdy (s₀ : Session) (limit : Nat) : Prop where
  reload : ∀ s, Grown s₀ s → s.run (load s.code) = (.ok (), s₀)
  settled : s₀.Settled 0
  fresh : s₀.history.entries = []
  steps : ∀ k, ∃ more, ((s₀.after k).run step).1 = .ok more
  inTime : s₀.settings.outOfTime = .ok false
  limit : s₀.settings.maxSteps.reachedAt = .ok limit

end Session

/-- The number of checkpoints that lead to a place. -/
def Place.marks (c : Place) : Nat :=
  match c.status with
  | .failed => c.steps + 1
  | _ => c.steps

theorem Tape.stepBack_of_marks {c : Place} {m : Nat} (h : c.marks = m + 1) :
    Tape.stepBack c = (true, ⟨m, .ok⟩) ∧ m ≤ c.steps := by
  obtain ⟨k, status⟩ := c
  cases status with
  | failed =>
    obtain rfl : k = m := Nat.succ.inj h
    exact ⟨rfl, Nat.le_refl k⟩
  | ok =>
    obtain rfl : k = m + 1 := h
    exact ⟨rfl, Nat.le_succ m⟩
  | timedOut =>
    obtain rfl : k = m + 1 := h
    exact ⟨rfl, Nat.le_succ m⟩

namespace Session

/-- The session is at a place on the tape of `s₀`. -/
structure OnTape (s₀ s : Session) (c : Place) : Prop where
  settled : ∀ k, k ≤ c.steps → (s₀.after k).Settled k
  unfinished : ∀ k, k < c.steps → (s₀.after k).complete = false
  session : match c.status with
    | .ok => s.bare = (s₀.after c.steps).bare
    | .failed => s.bare = (s₀.after (c.steps + 1)).bare ∧ s.error.isSome ∧ s.failedStep ∧ s.steps = c.steps
    | .timedOut => s.bare = (s₀.after c.steps).expired.bare
  history : s.history.entries <+: s₀.marks c.marks

variable {s₀ s s' : Session} {limit k : Nat} {c : Place} {b : Bool}

theorem Sturdy.onTape (h : s₀.Sturdy limit) : OnTape s₀ s₀ ⟨0, .ok⟩ where
  settled k hk := by
    obtain rfl := Nat.le_zero.mp hk
    exact h.settled
  unfinished k hk := absurd hk (Nat.not_lt_zero k)
  session := rfl
  history := by rw [h.fresh]; exact nil_prefix

theorem Sturdy.run_after (h : s₀.Sturdy limit) (k : Nat) : ∃ more, (s₀.after k).run step = (.ok more, s₀.after (k + 1)) := by
  obtain ⟨more, hmore⟩ := h.steps k
  exact ⟨more, Prod.ext hmore rfl⟩

theorem Sturdy.grown (h : s₀.Sturdy limit) {j : Nat} (hjk : j ≤ k) : Grown (s₀.after j) (s₀.after k) := by
  induction hjk with
  | refl => exact .refl _
  | @step k _ ih =>
    obtain ⟨more, hrun⟩ := h.run_after k
    exact ih.trans (.step hrun)

theorem OnTape.grown (h : s₀.Sturdy limit) (hs : OnTape s₀ s c) (hk : k ≤ c.marks) : Grown (s₀.after k) s := by
  obtain ⟨n, status⟩ := c
  have hsession := hs.session
  cases status with
  | ok => exact (h.grown hk).trans (.of_bare hsession.symm)
  | failed => exact (h.grown hk).trans (.of_bare hsession.1.symm)
  | timedOut =>
    have hexpired : Grown (s₀.after n) (s₀.after n).expired :=
      ⟨rfl, rfl, rfl, rfl, rfl, prefix_rfl, prefix_rfl⟩
    exact ((h.grown hk).trans hexpired).trans (.of_bare hsession.symm)

theorem OnTape.published (hs : OnTape s₀ s c) : s.published = s₀.tape.display c := by
  obtain ⟨n, status⟩ := c
  have hsession := hs.session
  cases status with
  | ok => exact published_of_bare hsession
  | failed =>
    have herror : (s₀.after (n + 1)).error.isSome := error_of_bare hsession.1 ▸ hsession.2.1
    simp only [Tape.display, tape, herror, if_true, Option.getD_some]
    exact published_of_bare hsession.1
  | timedOut =>
    rw [published_of_bare hsession, expired, ← (hs.settled n (Nat.le_refl n)).currentLine]
    rfl

theorem OnTape.error_isSome (hs : OnTape s₀ s c) (hstatus : c.status ≠ .ok) : s.error.isSome := by
  obtain ⟨n, status⟩ := c
  have hsession := hs.session
  cases status with
  | ok => exact absurd rfl hstatus
  | failed => exact hsession.2.1
  | timedOut => rw [error_of_bare hsession]; rfl

theorem OnTape.push (hs : OnTape s₀ s ⟨k, .ok⟩) (hhistory : s'.history = s.history.push s.resolved.mark) :
    s'.history.entries <+: s₀.marks (k + 1) := by
  have hsession : s.bare = (s₀.after k).bare := hs.session
  rw [hhistory, History.entries_push, mark_of_bare hsession]
  exact ( take_prefix _ _).trans (cons_prefix_cons.mpr ⟨rfl, hs.history⟩)

/-- A step moves along the tape. -/
theorem OnTape.step (h : s₀.Sturdy limit) (hs : OnTape s₀ s c) :
    ∃ s', s.run Session.step = (.ok (s₀.tape.step c).1, s') ∧ OnTape s₀ s' (s₀.tape.step c).2 := by
  obtain ⟨k, status⟩ := c
  cases status with
  | failed => exact ⟨s, run_step_of_error (hs.error_isSome nofun), hs⟩
  | timedOut => exact ⟨s, run_step_of_error (hs.error_isSome nofun), hs⟩
  | ok =>
    have hsession : s.bare = (s₀.after k).bare := hs.session
    have hsettled := hs.settled k (Nat.le_refl k)
    have hcomplete := complete_of_bare hsession
    obtain ⟨more, hrun⟩ := h.run_after k
    obtain ⟨s', hrun', hbare⟩ := step_of_bare hsession hrun
    have hshown : (s₀.tape.shown k).isComplete = s.complete := hsettled.isComplete.trans hcomplete.symm
    cases (Settled.of_bare hsession hsettled).step hrun' with
    | stays hdone hsame hhistory =>
      have hstep : s₀.tape.step ⟨k, .ok⟩ = (false, ⟨k, .ok⟩) := by simp [Tape.step, hshown, hdone]
      rw [hstep]
      exact ⟨s', hrun', hs.settled, hs.unfinished, hsame.trans hsession, hhistory ▸ hs.history⟩
    | moves hgoing hsettled' hhistory =>
      have hnext := Settled.of_bare hbare.symm hsettled'
      have hstep : s₀.tape.step ⟨k, .ok⟩ = (!s'.complete, ⟨k + 1, .ok⟩) := by
        have hmore : (s₀.tape.shown (k + 1)).isComplete = s'.complete :=
          hnext.isComplete.trans (complete_of_bare hbare).symm
        have hfault : s₀.tape.fault k = none := by simp [tape, hnext.error]
        simp [Tape.step, hshown, hgoing, hmore, hfault]
      rw [hstep]
      refine ⟨s', hrun', ?_, ?_, hbare, hs.push hhistory⟩
      · intro j hj
        rcases Nat.eq_or_lt_of_le hj with rfl | hj
        · exact hnext
        · exact hs.settled j (Nat.le_of_lt_succ hj)
      · intro j hj
        rcases Nat.eq_or_lt_of_le (Nat.le_of_lt_succ hj) with rfl | hj
        · exact hcomplete.symm.trans hgoing
        · exact hs.unfinished j hj
    | fails hgoing herror hfailed hsteps hhistory =>
      have hstep : s₀.tape.step ⟨k, .ok⟩ = (false, ⟨k, .failed⟩) := by
        have hfault : s₀.tape.fault k = some (s₀.after (k + 1)).published := by
          simp [tape, error_of_bare hbare ▸ herror]
        simp [Tape.step, hshown, hgoing, hfault]
      rw [hstep]
      exact ⟨s', hrun', hs.settled, hs.unfinished, ⟨hbare, herror, hfailed, hsteps⟩, hs.push hhistory⟩

/-! ### Orders -/

theorem OnTape.stepTimes (h : s₀.Sturdy limit) (n : Nat) (hs : OnTape s₀ s c) :
    ∃ s', s.run (stepTimes n) = (.ok (), s') ∧ OnTape s₀ s' (s₀.tape.times n c) := by
  induction n generalizing s c with
  | zero => exact ⟨s, rfl, hs⟩
  | succ n ih =>
    obtain ⟨s', hrun, hs'⟩ := hs.step h
    rw [Session.stepTimes, run_bind, hrun, Tape.times]
    rcases hstep : s₀.tape.step c with ⟨_ | _, c'⟩
    · rw [hstep] at hs'
      exact ⟨s', rfl, hs'⟩
    · rw [hstep] at hs'
      exact ih hs'

theorem OnTape.runFor (h : s₀.Sturdy limit) (n : Nat) (hs : OnTape s₀ s c) (hok : c.status = .ok) :
    ∃ s', s.run (runFor n) = (.ok (), s') ∧ OnTape s₀ s' (s₀.tape.runFor n c) := by
  induction n generalizing s c with
  | zero =>
    obtain ⟨k, status⟩ := c
    obtain rfl : status = .ok := hok
    have hsession : s.bare = (s₀.after k).bare := hs.session
    refine ⟨s.expired, rfl, hs.settled, hs.unfinished, ?_, hs.history⟩
    show s.bare.expired.bare = (s₀.after k).bare.expired.bare
    rw [hsession]
  | succ n ih =>
    have hsettings := (hs.grown h (Nat.zero_le _)).settings
    have htime : s.settings.outOfTime = .ok false := by rw [hsettings]; exact h.inTime
    obtain ⟨s', hrun, hs'⟩ := hs.step h
    rw [run_runFor_succ htime, if_neg Bool.false_ne_true, run_bind, hrun, Tape.runFor]
    rcases hstep : s₀.tape.step c with ⟨_ | _, c'⟩
    · rw [hstep] at hs'
      exact ⟨s', rfl, hs'⟩
    · rw [hstep] at hs'
      exact ih hs' (Tape.status_of_step hstep)

theorem OnTape.load (h : s₀.Sturdy limit) (hs : OnTape s₀ s c) : s.run (load s.code) = (.ok (), s₀) :=
  h.reload s (hs.grown h (Nat.zero_le _))

theorem OnTape.replay (h : s₀.Sturdy limit) (hs : OnTape s₀ s c) (n : Nat) :
    ∃ s', s.run (replay n) = (.ok (), s') ∧ OnTape s₀ s' (s₀.tape.times n ⟨0, .ok⟩) := by
  rw [Session.replay, run_bind, run_get]
  dsimp only
  rw [run_bind, hs.load h]
  exact h.onTape.stepTimes h n

theorem OnTape.times (hs : OnTape s₀ s c) (hk : k ≤ c.steps) : s₀.tape.times k ⟨0, .ok⟩ = ⟨k, .ok⟩ := by
  have hgoes (j : Nat) (hj : j < k) : (s₀.tape.shown j).isComplete = false ∧ s₀.tape.fault j = none := by
    constructor
    · exact (hs.settled j (by omega)).isComplete.trans (hs.unfinished j (by omega))
    · simp [tape, (hs.settled (j + 1) (by omega)).error]
  have := Tape.times_of_goes (t := s₀.tape) 0 k fun j _ hj => hgoes j (by omega)
  simpa using this

theorem restored_bare {m : Nat} (hm : (s₀.after m).Settled m) (hgrown : Grown (s₀.after m) s) (history : History Checkpoint) :
    (s.restored (s₀.after m).resolved.mark history).bare = (s₀.after m).bare := by
  have houtput : s.world.output.extract 0 (s₀.after m).world.output.size = (s₀.after m).world.output :=
    Array.extract_of_prefix hgrown.output
  have hwarnings : s.world.warnings.extract 0 (s₀.after m).world.warnings.size = (s₀.after m).world.warnings :=
    Array.extract_of_prefix hgrown.warnings
  simp only [bare, resolved, restored, mark, hgrown.settings, hgrown.code, hgrown.program, hgrown.machine, hgrown.warned,
    houtput, hwarnings, hm.error, hm.failedStep]
  rfl

/-- How a step is taken back without a checkpoint. -/
def runAgain (s : Session) : Command Bool :=
  match s.target? with
  | some n => do replay n; return true
  | none => do reset; return false

theorem OnTape.stepBack (h : s₀.Sturdy limit) (hs : OnTape s₀ s c) :
    ∃ s', s.run Session.stepBack = (.ok (Tape.stepBack c).1, s') ∧ OnTape s₀ s' (Tape.stepBack c).2 := by
  rw [Session.stepBack, run_bind, run_get]
  dsimp only
  cases hpop : s.history.pop? with
  | some popped =>
    obtain ⟨mark, history⟩ := popped
    -- there is a checkpoint, so that a step was made, and the checkpoint is the one before it
    have hentries := History.entries_of_pop? hpop
    have hprefix := hs.history
    rw [hentries] at hprefix
    obtain ⟨m, hm⟩ : ∃ m, c.marks = m + 1 := by
      cases hmarks : c.marks with
      | zero => rw [hmarks] at hprefix; simp [marks] at hprefix
      | succ m => exact ⟨m, rfl⟩
    rw [hm, marks, cons_prefix_cons] at hprefix
    obtain ⟨rfl, hrest⟩ := hprefix
    obtain ⟨hback, hle⟩ := Tape.stepBack_of_marks hm
    have hsettled := hs.settled m hle
    rw [hback]
    refine ⟨_, rfl, fun k hk => hs.settled k (Nat.le_trans hk hle), fun k hk => hs.unfinished k (Nat.lt_of_lt_of_le hk hle),
      ?_, hrest⟩
    exact restored_bare hsettled (hs.grown h (by omega)) history
  | none =>
    show ∃ s', s.run s.runAgain = (.ok (Tape.stepBack c).1, s') ∧ OnTape s₀ s' (Tape.stepBack c).2
    -- the program is run again
    have again {n : Nat} (htarget : s.target? = some n) (hn : n ≤ c.steps) (hback : Tape.stepBack c = (true, ⟨n, .ok⟩)) :
        ∃ s', s.run s.runAgain = (.ok (Tape.stepBack c).1, s') ∧ OnTape s₀ s' (Tape.stepBack c).2 := by
      obtain ⟨s', hrun, hs'⟩ := hs.replay h n
      rw [hs.times hn] at hs'
      rw [runAgain, htarget, hback]
      dsimp only
      rw [run_bind, hrun]
      exact ⟨s', rfl, hs'⟩
    obtain ⟨k, status⟩ := c
    have hsession := hs.session
    have hsettled := hs.settled k (Nat.le_refl k)
    -- without a failed step, the last step is taken back if there is one
    have untouched (hfailed : s.failedStep = false) (hsteps : s.steps = k)
        (hfirst : k = 0 → Tape.stepBack ⟨k, status⟩ = (false, ⟨0, .ok⟩))
        (hback : ∀ j, k = j + 1 → Tape.stepBack ⟨k, status⟩ = (true, ⟨j, .ok⟩)) :
        ∃ s', s.run s.runAgain = (.ok (Tape.stepBack ⟨k, status⟩).1, s') ∧ OnTape s₀ s' (Tape.stepBack ⟨k, status⟩).2 := by
      cases k with
      | succ k => exact again (by simp [target?, hfailed, hsteps]) (Nat.le_succ k) (hback k rfl)
      | zero =>
        have htarget : s.target? = none := by simp [target?, hfailed, hsteps]
        rw [runAgain, htarget, hfirst rfl]
        dsimp only
        rw [run_bind, reset, run_bind, run_get]
        dsimp only
        rw [hs.load h]
        exact ⟨s₀, rfl, h.onTape⟩
    cases status with
    | failed => exact again (by simp [target?, hsession.2.2.1, hsession.2.2.2]) (Nat.le_refl k) rfl
    | ok =>
      obtain ⟨hfailed, hsteps⟩ := steps_of_bare hsession
      exact untouched (hfailed.trans hsettled.failedStep) (hsteps.trans hsettled.steps) (fun hk => by rw [hk]; rfl)
        fun j hk => by rw [hk]; rfl
    | timedOut =>
      obtain ⟨hfailed, hsteps⟩ := steps_of_bare hsession
      exact untouched (hfailed.trans hsettled.failedStep) (hsteps.trans hsettled.steps) (fun hk => by rw [hk]; rfl)
        fun j hk => by rw [hk]; rfl

theorem OnTape.order (h : s₀.Sturdy limit) (hs : OnTape s₀ s c) (o : Order) :
    ∃ s', s.run o.command = (.ok (s₀.tape.order limit c o).1, s') ∧ OnTape s₀ s' (s₀.tape.order limit c o).2 := by
  cases o with
  | step =>
    obtain ⟨s', hrun, hs'⟩ := hs.step h
    rw [Order.command, run_bind, hrun]
    exact ⟨s', rfl, hs'⟩
  | stepBack =>
    obtain ⟨s', hrun, hs'⟩ := hs.stepBack h
    rw [Order.command, run_bind, hrun]
    exact ⟨s', rfl, hs'⟩
  | reset =>
    rw [Order.command, run_bind, reset, run_bind, run_get]
    dsimp only
    rw [hs.load h]
    exact ⟨s₀, rfl, h.onTape⟩
  | replay n =>
    obtain ⟨s', hrun, hs'⟩ := hs.replay h n
    rw [Order.command, run_bind, hrun]
    exact ⟨s', rfl, hs'⟩
  | runToEnd =>
    obtain ⟨k, status⟩ := c
    rw [Order.command, run_bind]
    cases status with
    | failed => exact ⟨s, by rw [run_runToEnd_of_error (hs.error_isSome nofun)]; rfl, hs⟩
    | timedOut => exact ⟨s, by rw [run_runToEnd_of_error (hs.error_isSome nofun)]; rfl, hs⟩
    | ok =>
      have hsession : s.bare = (s₀.after k).bare := hs.session
      have herror : s.error = none := (error_of_bare hsession).trans (hs.settled k (Nat.le_refl k)).error
      have hlimit : s.settings.maxSteps.reachedAt = .ok limit := by
        rw [(hs.grown h (Nat.zero_le _)).settings]
        exact h.limit
      obtain ⟨s', hrun, hs'⟩ := hs.runFor h limit rfl
      have hend : s.run Session.runToEnd = (.ok (), s') := by
        rw [run_runToEnd herror, run_bind, run_lift, hlimit]
        exact hrun
      exact ⟨s', by rw [hend]; rfl, hs'⟩

theorem OnTape.obey (h : s₀.Sturdy limit) (hs : OnTape s₀ s c) (orders : List Order) :
    ∃ last, s.obey orders = .ok (s₀.tape.obey limit c orders, last) := by
  induction orders generalizing s c with
  | nil => exact ⟨s, rfl⟩
  | cons o rest ih =>
    obtain ⟨s', hrun, hs'⟩ := hs.order h o
    obtain ⟨last, hrest⟩ := ih hs'
    refine ⟨last, ?_⟩
    rw [Session.obey, hrun]
    dsimp only
    rw [hrest, hs'.published]
    rfl

/-- A session does what a cursor on the tape of its program does, whatever the bound of its history is. -/
theorem obey_eq_tape {settings : Settings} {code : Text} (hcreate : create settings code = .ok s₀)
    (htime : settings.outOfTime = .ok false) (hlimit : settings.maxSteps.reachedAt = .ok limit)
    (hsteps : ∀ k, ∃ more, ((s₀.after k).run step).1 = .ok more) (orders : List Order) :
    ∃ last, s₀.obey orders = .ok (s₀.tape.obey limit ⟨0, .ok⟩ orders, last) := by
  obtain ⟨program, bound, seed, hload, hbound, hseed, rfl⟩ := create_cases hcreate
  have hsturdy : (start settings code program bound seed).Sturdy limit := {
    reload := fun s hs => by
      have hsettings : s.settings = settings := hs.settings
      have hcode : s.code = code := hs.code
      rw [hcode, run_load hload (by rw [hsettings]; exact hbound) (by rw [hsettings]; exact hseed), hsettings]
    settled := settled_start settings code (Program.size_pos hload) bound seed
    fresh := take_nil
    steps := hsteps
    inTime := htime
    limit := hlimit }
  exact hsturdy.onTape.obey hsturdy orders

/-- Without any history, over a program that fails in its second step. -/
theorem obey_eq_tape_no_history : ∃ s₀ last : Session,
    create { Settings.standard with maxHistory := .int 0, maxTime := .int 5 } "let x = 1\ny".codes = .ok s₀ ∧
      s₀.obey [.step, .step, .stepBack, .runToEnd, .stepBack, .stepBack, .replay 1] =
        .ok (s₀.tape.obey 10000 ⟨0, .ok⟩ [.step, .step, .stepBack, .runToEnd, .stepBack, .stepBack, .replay 1], last) := by
  have hcompute : (create { Settings.standard with maxHistory := .int 0, maxTime := .int 5 }
      "let x = 1\ny".codes).toOption.any (fun s => ((s.after 0).run step).1.isOk && ((s.after 1).run step).1.isOk &&
        (s.after 2).error.isSome) := by decide +kernel
  cases hcreate : create { Settings.standard with maxHistory := .int 0, maxTime := .int 5 } "let x = 1\ny".codes with
  | error why => rw [hcreate] at hcompute; cases hcompute
  | ok s₀ =>
    rw [hcreate] at hcompute
    simp only [Except.toOption, Option.any_some, Bool.and_eq_true] at hcompute
    obtain ⟨⟨hzero, hone⟩, htwo⟩ := hcompute
    have herror (k : Nat) : (s₀.after (k + 2)).error.isSome := by
      induction k with
      | zero => exact htwo
      | succ k ih =>
        rw [after, run_step_of_error ih]
        exact ih
    have hsteps (k : Nat) : ∃ more, ((s₀.after k).run step).1 = .ok more := by
      rcases k with _ | _ | k
      · exact eq_ok_of_isOk hzero
      · exact eq_ok_of_isOk hone
      · exact ⟨false, by rw [run_step_of_error (herror k)]⟩
    have hlimit : Settings.standard.maxSteps.reachedAt = .ok 10000 := by rfl
    obtain ⟨last, hobey⟩ := obey_eq_tape hcreate (by rfl) hlimit hsteps
      [.step, .step, .stepBack, .runToEnd, .stepBack, .stepBack, .replay 1]
    exact ⟨s₀, last, rfl, hobey⟩

end Session

end Stepwise
