import Stepwise.Proofs.Turn

/-!
# Commands to a session

A command takes a session to a result, or a breakdown, and the session after it. `Session.step_concludes` lists all that
a step can do, in terms of what the next instruction comes to.
-/

namespace Stepwise

/-- The error says that a run was cut short. -/
def Cause.EndsRun (cause : Cause) : Prop := cause = .maxSteps ∨ cause = .timeLimit

namespace Session

variable {α β : Type} {s s' : Session} {b : Bool} {line : Nat} {callStack : List Text} {code : Text}
  {orders : List Order} {shown : List (Option Bool × State)}

/-! ### The outcome of each construct -/

@[simp] theorem run_pure (a : α) : s.run (pure a : Command α) = (.ok a, s) := rfl

@[simp] theorem run_throw (why : Breakdown) : s.run (throw why : Command α) = (.error why, s) := rfl

@[simp] theorem run_get : s.run (get : Command Session) = (.ok s, s) := rfl

@[simp] theorem run_set : s.run (set s' : Command PUnit) = (.ok ⟨⟩, s') := rfl

@[simp] theorem run_modify (f : Session → Session) : s.run (modify f : Command PUnit) = (.ok ⟨⟩, f s) := rfl

@[simp] theorem run_lift (e : Except Breakdown α) : s.run (liftM e : Command α) = (e, s) := by
  cases e <;> rfl

theorem run_bind (x : Command α) (f : α → Command β) :
    s.run (x >>= f) = match s.run x with
      | (.ok a, s') => s'.run (f a)
      | (.error why, s') => (.error why, s') := by
  show ((x >>= f).run).run s = _
  simp only [ExceptT.run_bind, StateT.run_bind, Session.run]
  rcases x.run.run s with ⟨a | e, s'⟩ <;> rfl

/-! ### Steps -/

/-- The session with the jump ahead made. -/
def resolved (s : Session) : Session := { s with world := { s.world with current := s.world.current.resolved } }

/-- What the session keeps to take back the next step. -/
def mark (s : Session) : Checkpoint := ⟨s.world, s.steps, s.complete, s.previous, s.published⟩

/-- The session when a step begins. -/
def begun (s : Session) : Session :=
  { s.resolved with history := s.history.push s.resolved.mark, previous := s.world.store.globals }

/-- The world in which the next step executes its instruction. -/
def ready (s : Session) : World := { s.begun.world with callSteps := 0 }

/-- The session after an instruction that has ended well. -/
def moved (s : Session) (w : World) : Session :=
  { s.begun with world := w, steps := s.steps + 1, complete := s.program.size ≤ w.current.nextIndex }

/-- The session after an instruction that has failed. -/
def stopped (s : Session) (w : World) (e : Raised) : Session :=
  let line := e.line.getD (s.program.lineOf s.world.current.nextIndex + 1)
  { s.begun with world := w, error := some ⟨e.cause, line⟩, failedStep := true }

/-- The session past the last instruction. -/
def finished (s : Session) : Session := { s.resolved with complete := true }

/-- A turn of the program that the session executes. -/
def turn (s : Session) : Except Fault Bool × World := (s.machine.turn s.host s.machine.mainCourse).outcome s.world

/-- The session is about to execute an instruction. -/
structure Running (s : Session) : Prop where
  error : s.error = none
  within : s.world.current.nextIndex < s.program.size

/-- What executing the next instruction comes to. -/
def execution (s : Session) : Except Fault Nat × World :=
  (s.machine.execute s.host s.world.current.nextIndex).outcome { s.begun.world with callSteps := 0 }

theorem mem_begun {c : Checkpoint} (h : c ∈ s.begun.history.entries) : c = s.resolved.mark ∨ c ∈ s.history.entries := by
  rw [begun, History.entries_push] at h
  exact List.mem_cons.mp (List.mem_of_mem_take h)

section Turn

variable (hprogram : s.machine.program = s.program) (h : s.Running) {w w' : World}

include hprogram h

theorem turn_of_running : s.turn = match s.execution with
    | (.ok next, w) => (.ok true, { w with current := { w.current with ip := next } })
    | (.error fault, w) => (.error fault, w) := by
  have hip : s.begun.world.current.ip = s.world.current.nextIndex := rfl
  have hended : s.machine.mainCourse.ended s.begun.world.current = false := by
    simpa [Machine.mainCourse, hprogram, hip] using h.within
  have hresolve : (Exec.activation Activation.resolved).outcome s.world = (.ok (), s.begun.world) := rfl
  have hlook : (get : Exec World).outcome s.begun.world = (.ok s.begun.world, s.begun.world) := rfl
  have hcharge : s.machine.mainCourse.charge.outcome s.begun.world = (.ok (), s.ready) := rfl
  rw [turn, Machine.turn, Exec.outcome_bind_ok hresolve, Exec.outcome_bind_ok hlook, if_neg (by simp [hended]),
    Exec.outcome_bind_ok hcharge, Exec.outcome_bind, hip, execution, ← ready]
  rcases (s.machine.execute s.host s.world.current.nextIndex).outcome s.ready with ⟨fault | next, w⟩ <;> rfl

theorem turn_of_moved {next : Nat} (hexecutes : s.execution = (.ok next, w))
    (hworld : w' = { w with current := { w.current with ip := next } }) : s.turn = (.ok true, w') := by
  rw [turn_of_running hprogram h, hexecutes, hworld]

theorem turn_of_failed {fault : Fault} (hexecutes : s.execution = (.error fault, w)) : s.turn = (.error fault, w) := by
  rw [turn_of_running hprogram h, hexecutes]

end Turn

/-- The rows of the panel as the session is. -/
def panel (s : Session) : Except Breakdown (List VariableRow) := s.world.store.globals.rows s.previous

/-- What is shown of the session with these rows. -/
def state (s : Session) (rows : List VariableRow) (line : Nat) (callStack : List Text) : State :=
  ⟨rows, line, callStack, s.world.output, s.complete, s.error, if s.warned then s.world.warnings else #[], s.steps⟩

theorem view_eq_ok {published : State} (h : s.view line callStack = .ok published) :
    ∃ rows, s.panel = .ok rows ∧ published = s.state rows line callStack := by
  have hview : s.view line callStack = do return s.state (← s.panel) line callStack := rfl
  rw [hview] at h
  cases hpanel : s.panel with
  | error why => rw [hpanel] at h; cases h
  | ok rows =>
    rw [hpanel] at h
    cases h
    exact ⟨rows, rfl, rfl⟩

theorem run_publish (line : Nat) (callStack : List Text) (x : Command α) :
    s.run (do publish line callStack; x) = match s.view line callStack with
      | .ok published => { s with published }.run x
      | .error why => (.error why, s) := by
  simp only [publish, run_bind, run_get, run_lift]
  cases s.view line callStack <;> rfl

theorem run_publishNext (x : Command α) :
    s.run (do publishNext; x) = s.run (do publish s.nextLine s.world.callStack; x) := by
  rw [run_bind, publishNext, run_bind, run_get, run_bind]

/-- The end of a step: the session is shown, if that can be done. -/
def told (s : Session) (line : Nat) (callStack : List Text) (more : Bool) : Except Breakdown Bool × Session :=
  s.run (do publish line callStack; return more)

theorem told_cases (line : Nat) (callStack : List Text) (more : Bool) :
    (∃ published, s.view line callStack = .ok published ∧
      s.told line callStack more = (.ok more, { s with published })) ∨
    ∃ why, s.panel = .error why ∧ s.told line callStack more = (.error why, s) := by
  have hview : s.view line callStack = do return s.state (← s.panel) line callStack := rfl
  rw [told, run_publish, hview]
  cases s.panel with
  | ok rows => exact .inl ⟨_, rfl, rfl⟩
  | error why => exact .inr ⟨why, rfl, rfl⟩

/-- Whether it can be done or not, showing the session changes nothing else. -/
theorem told_snd (line : Nat) (callStack : List Text) (more : Bool) :
    ∃ published, (s.told line callStack more).2 = { s with published } := by
  rcases s.told_cases line callStack more with ⟨published, -, h⟩ | ⟨why, -, h⟩
  · exact ⟨published, by rw [h]⟩
  · exact ⟨s.published, by rw [h]⟩

/-- A step, after the instruction with the given outcome. -/
def executed (s : Session) : Except Fault Nat × World → Except Breakdown Bool × Session
  | (.ok next, w) =>
    let s' := s.moved { w with current := { w.current with ip := next } }
    s'.told s'.nextLine w.callStack (!s'.complete)
  | (.error (.raised e), w) =>
    (s.stopped w e).told (e.line.getD (s.program.lineOf s.world.current.nextIndex + 1)) (e.stack.getD w.callStack) false
  | (.error (.breakdown why), w) => (.error why, { s.begun with world := w })

/-- A step, when the instruction that is to be executed has the given outcome. -/
def concluded (s : Session) (o : Except Fault Nat × World) : Except Breakdown Bool × Session :=
  if s.error.isSome then (.ok false, s)
  else if s.program.size ≤ s.world.current.nextIndex then s.finished.told s.nextLine s.world.callStack false
  else s.executed o

theorem run_stepWith (around : Session → Host) : s.run (stepWith around) = s.concluded
    ((s.machine.execute (around s.begun) s.world.current.nextIndex).outcome s.ready) := by
  rw [concluded]
  by_cases herror : s.error.isSome
  · simp [stepWith, run_bind, herror]
  · by_cases hend : s.program.size ≤ s.world.current.nextIndex
    · have hend' : s.program.size ≤ s.world.current.resolved.ip := hend
      rw [if_neg herror, if_pos hend]
      simp only [stepWith, run_bind, run_get, if_neg herror, run_modify, if_pos hend']
      exact (run_bind _ _).symm.trans (run_publishNext (s := s.finished) _)
    · have hend' : ¬ s.program.size ≤ s.world.current.resolved.ip := hend
      rw [if_neg herror, if_neg hend]
      simp only [stepWith, run_bind, run_get, if_neg herror, run_modify, if_neg hend', checkpoint]
      show s.begun.run (executeWith (around s.begun) s.world.current.nextIndex) = _
      have hrun : (s.begun.machine.execute (around s.begun) s.world.current.nextIndex).run.run
          { s.begun.world with callSteps := 0 } =
          (s.machine.execute (around s.begun) s.world.current.nextIndex).outcome s.ready := rfl
      rw [executeWith, run_bind, run_get]
      dsimp only
      rw [hrun]
      rcases (s.machine.execute (around s.begun) s.world.current.nextIndex).outcome s.ready with ⟨(e | why) | next, w⟩
      · rfl
      · rfl
      · show (s.moved _).run (do publishNext; return !(← get).complete) = _
        rw [run_publishNext, run_publish, executed, told, run_publish]
        rfl

theorem run_step : s.run step = s.concluded s.execution := run_stepWith host

theorem run_step_of_error (h : s.error.isSome) : s.run step = (.ok false, s) := by rw [run_step, concluded, if_pos h]

theorem run_step_of_running (h : s.Running) : s.run step = s.executed s.execution := by
  rw [run_step, concluded, if_neg (by simp [h.error]), if_neg (Nat.not_le.mpr h.within)]

/-- A step that comes to its end, with the session, its place and the answer. -/
inductive Comes (s : Session) (o : Except Fault Nat × World) : Session → Nat → List Text → Bool → Prop
  | ended (error : s.error = none) (past : s.program.size ≤ s.world.current.nextIndex) :
      Comes s o s.finished s.nextLine s.world.callStack false
  | moved {next : Nat} {w w' : World} (running : s.Running) (executes : o = (.ok next, w))
      (world : w' = { w with current := { w.current with ip := next } }) :
      Comes s o (s.moved w') (s.moved w').nextLine w'.callStack (!(s.moved w').complete)
  | failed {e : Raised} {w : World} (running : s.Running) (executes : o = (.error (.raised e), w)) :
      Comes s o (s.stopped w e) (e.line.getD (s.program.lineOf s.world.current.nextIndex + 1)) (e.stack.getD w.callStack)
        false

theorem Comes.published {o : Except Fault Nat × World} (h : s.Comes o s' line callStack b) :
    s'.published = s.published := by
  cases h <;> rfl

/-- All that a step can do. -/
inductive Concludes (s : Session) (o : Except Fault Nat × World) : Except Breakdown Bool × Session → Prop
  | refused (error : s.error.isSome) : Concludes s o (.ok false, s)
  | broken {why : Breakdown} {w : World} (running : s.Running) (executes : o = (.error (.breakdown why), w)) :
      Concludes s o (.error why, { s.begun with world := w })
  | told {s' : Session} {line : Nat} {callStack : List Text} {more : Bool} (comes : s.Comes o s' line callStack more) :
      Concludes s o (s'.told line callStack more)

theorem concludes (s : Session) (o : Except Fault Nat × World) : s.Concludes o (s.concluded o) := by
  rw [concluded]
  split
  case isTrue herror => exact .refused herror
  case isFalse herror =>
    have hnone : s.error = none := by simpa using herror
    split
    case isTrue hend => exact .told (.ended hnone hend)
    case isFalse hend =>
      have hrunning : s.Running := ⟨hnone, Nat.not_le.mp hend⟩
      rcases o with ⟨(e | why) | next, w⟩
      · exact .told (.failed hrunning rfl)
      · exact .broken hrunning rfl
      · exact .told (.moved hrunning rfl rfl)

theorem step_concludes (s : Session) : s.Concludes s.execution (s.run step) := run_step ▸ s.concludes _

/-- What a step does when it does not break down. -/
inductive Stepped (s : Session) : (more : Bool) → (s' : Session) → Prop
  | refused (error : s.error.isSome) : Stepped s false s
  | told {s' : Session} {line : Nat} {callStack : List Text} {more : Bool} {published : State}
      (comes : s.Comes s.execution s' line callStack more) (view : s'.view line callStack = .ok published) :
      Stepped s more { s' with published }

/-- A step that does not break down does nothing else. -/
theorem step_cases (h : s.run step = (.ok b, s')) : Stepped s b s' := by
  have hconcludes := s.step_concludes
  generalize s.run step = r at hconcludes h
  cases hconcludes with
  | refused error =>
    cases h
    exact .refused error
  | broken => cases h
  | @told s₁ line callStack more comes =>
    rcases s₁.told_cases line callStack more with ⟨published, hview, htold⟩ | ⟨why, -, htold⟩
    · rw [htold] at h
      cases h
      exact .told comes hview
    · rw [htold] at h
      cases h

/-- What a step leaves alone. -/
structure Framed (s s' : Session) : Prop where
  settings : s'.settings = s.settings
  program : s'.program = s.program
  machine : s'.machine = s.machine
  warned : s'.warned = s.warned

theorem framed_step (s : Session) : Framed s (s.run step).2 := by
  have hconcludes := s.step_concludes
  generalize s.run step = r at hconcludes
  cases hconcludes with
  | refused => exact ⟨rfl, rfl, rfl, rfl⟩
  | broken => exact ⟨rfl, rfl, rfl, rfl⟩
  | @told s₁ line callStack more comes =>
    obtain ⟨published, htold⟩ := s₁.told_snd line callStack more
    rw [htold]
    cases comes <;> exact ⟨rfl, rfl, rfl, rfl⟩

/-! ### Runs to the end -/

theorem run_runFor_succ {n : Nat} {late : Bool} (h : s.settings.outOfTime = .ok late) :
    s.run (runFor (n + 1)) = if late then s.run (timeOut .timeLimit) else
      s.run (do if ← step then runFor n) := by
  rw [runFor, run_bind, run_get]
  dsimp only
  rw [run_bind, h, run_lift]
  cases late <;> rfl

theorem run_runToEnd (h : s.error = none) : s.run runToEnd = s.run (do runFor (← s.settings.maxSteps.reachedAt)) := by
  rw [runToEnd, run_bind, run_get]
  dsimp only
  rw [h]
  rfl

theorem run_runToEnd_of_error (h : s.error.isSome) : s.run runToEnd = (.ok (), s) := by
  rw [runToEnd, run_bind, run_get]
  dsimp only
  rw [if_pos h, run_pure]

/-! ### Loading -/

theorem run_load {program : Program} {bound : Nat} {seed : Int} (hload : Program.load code = .ok program)
    (hbound : s.settings.historyBound = .ok bound) (hseed : s.settings.seed.number = .ok seed) :
    s.run (load code) = (.ok (), start s.settings code program bound seed) := by
  simp [load, run_bind, hload, hbound, hseed]

theorem load_cases (h : s.run (load code) = (.ok (), s')) :
    ∃ program bound seed, Program.load code = .ok program ∧ s.settings.historyBound = .ok bound ∧
      s.settings.seed.number = .ok seed ∧ s' = start s.settings code program bound seed := by
  cases hload : Program.load code <;> cases hbound : s.settings.historyBound <;> cases hseed : s.settings.seed.number <;>
    simp only [load, run_bind, run_lift, run_modify, run_get, run_set, hload, hbound, hseed] at h <;> cases h
  exact ⟨_, _, _, rfl, rfl, rfl, rfl⟩

theorem create_cases {settings : Settings} (h : create settings code = .ok s) :
    ∃ program bound seed, Program.load code = .ok program ∧ settings.historyBound = .ok bound ∧
      settings.seed.number = .ok seed ∧ s = start settings code program bound seed := by
  unfold create at h
  cases hload : Program.load code <;> cases hbound : settings.historyBound <;> cases hseed : settings.seed.number <;>
    rw [hload, hbound, hseed] at h <;> cases h
  exact ⟨_, _, _, rfl, rfl, rfl, rfl⟩

/-! ### Orders -/

/-- The commands that leave the code and the settings of a session alone. -/
inductive Order
  | step
  | stepBack
  | runToEnd
  | reset
  | replay (steps : Nat)

/-- The command of an order; some orders answer. -/
def Order.command : Order → Command (Option Bool)
  | .step => return some (← Session.step)
  | .stepBack => return some (← Session.stepBack)
  | .runToEnd => do Session.runToEnd; return none
  | .reset => do Session.reset; return none
  | .replay n => do Session.replay n; return none

/-- Orders one after the other, with the answer to each of them and what is shown then. -/
def obey (s : Session) : List Order → Except Breakdown (List (Option Bool × State) × Session)
  | [] => .ok ([], s)
  | o :: rest =>
    match s.run o.command with
    | (.ok answer, s') => do
      let (shown, last) ← s'.obey rest
      return ((answer, s'.published) :: shown, last)
    | (.error why, _) => .error why

/-- The sessions that commands lead to, none of which has broken down. -/
inductive Reachable : Session → Prop
  | create {settings : Settings} {code : Text} {s : Session} (h : create settings code = .ok s) : Reachable s
  | order {s s' : Session} {answer : Option Bool} (o : Order) (h : Reachable s)
      (run : s.run o.command = (.ok answer, s')) : Reachable s'
  | load {s s' : Session} (code : Text) (h : Reachable s) (run : s.run (load code) = (.ok (), s')) : Reachable s'
  | applySettings {s s' : Session} (patch : SettingsPatch) (h : Reachable s)
      (run : s.run (applySettings patch) = (.ok (), s')) : Reachable s'

theorem obey_cons {o : Order}
    (h : s.obey (o :: orders) = .ok (shown, s')) : ∃ answer s₁ rest, s.run o.command = (.ok answer, s₁) ∧
      s₁.obey orders = .ok (rest, s') ∧ shown = (answer, s₁.published) :: rest := by
  rw [obey] at h
  split at h
  case h_1 answer s₁ hrun =>
    cases hrest : s₁.obey orders with
    | error why => rw [hrest] at h; cases h
    | ok r =>
      rw [hrest] at h
      cases h
      exact ⟨answer, s₁, r.1, hrun, hrest, rfl⟩
  case h_2 => cases h

theorem Reachable.obey (hs : s.Reachable) (h : s.obey orders = .ok (shown, s')) : s'.Reachable := by
  induction orders generalizing s shown with
  | nil =>
    cases h
    exact hs
  | cons o orders ih =>
    obtain ⟨answer, s₁, rest, hrun, hrest, -⟩ := obey_cons h
    exact ih (.order o hs hrun) hrest

theorem exists_reachable (settings : Settings) (code : Text) (orders : List Order) (P : Session → Bool)
    (h : (do let s ← create settings code; return (← s.obey orders).2 : Except Breakdown Session).toOption.any P) :
    ∃ s, s.Reachable ∧ P s := by
  cases hcreate : create settings code with
  | error why => rw [hcreate] at h; cases h
  | ok s =>
    cases hobey : s.obey orders with
    | error why => rw [hcreate] at h; simp only [bind, Except.bind, hobey] at h; cases h
    | ok r =>
      rw [hcreate] at h
      simp only [bind, Except.bind, hobey] at h
      exact ⟨r.2, (Reachable.create hcreate).obey hobey, h⟩

theorem exists_stepTimes (settings : Settings) (code : Text) (n : Nat) (P : Session → Session → Bool)
    (h : (create settings code).toOption.any fun s₀ => match s₀.run (stepTimes n) with
      | (.ok (), s) => P s₀ s
      | _ => false) :
    ∃ s₀ s, create settings code = .ok s₀ ∧ s₀.run (stepTimes n) = (.ok (), s) ∧ P s₀ s := by
  cases hcreate : create settings code with
  | error why => rw [hcreate] at h; cases h
  | ok s₀ =>
    rw [hcreate] at h
    simp only [Except.toOption, Option.any_some] at h
    split at h
    case h_1 s hrun => exact ⟨s₀, s, rfl, hrun, h⟩
    case h_2 => cases h

/-! ### What commands keep -/

/-- The command leads from sessions with the property to such sessions again when it ends well, and also when it breaks
down if breakdowns count. -/
def Keeps (broken : Prop) (P : Session → Prop) (x : Command α) : Prop :=
  ∀ s, P s → broken ∨ (s.run x).1.isOk → P (s.run x).2

namespace Keeps

variable {broken : Prop} {P : Session → Prop} {x : Command α}

theorem of_ok (h : ∀ s, P s → ∀ a s', s.run x = (.ok a, s') → P s') : Keeps False P x := by
  intro s hs hend
  rcases hrun : s.run x with ⟨why | a, s'⟩
  · rw [hrun] at hend
    exact hend.elim False.elim nofun
  · exact h s hs a s' hrun

theorem ok {a : α} (h : Keeps broken P x) (hs : P s) (hrun : s.run x = (.ok a, s')) : P s' := by
  have hkept := h s hs
  rw [hrun] at hkept
  exact hkept (.inr rfl)

theorem done (a : α) : Keeps broken P (pure a : Command α) := fun _ hs _ => hs

theorem lift (e : Except Breakdown α) : Keeps broken P (liftM e : Command α) := fun _ hs _ => hs

theorem look {f : Session → Command α} (hf : ∀ s, Keeps broken P (f s)) : Keeps broken P (get >>= f) := fun s => hf s s

theorem bind {f : α → Command β} (hx : Keeps broken P x) (hf : ∀ a, Keeps broken P (f a)) : Keeps broken P (x >>= f) := by
  intro s hs hend
  have h := hx s hs
  rw [run_bind] at hend ⊢
  rcases hrun : s.run x with ⟨why | a, s'⟩ <;> rw [hrun] at h hend
  · exact h hend
  · exact hf a s' (h (.inr rfl)) hend

theorem ite (c : Prop) [Decidable c] {y : Command α} (yes : Keeps broken P x) (no : Keeps broken P y) :
    Keeps broken P (if c then x else y) := by
  split
  · exact yes
  · exact no

section Orders

variable (hstep : Keeps broken P step) (hload : ∀ code, Keeps broken P (load code))

include hstep

theorem stepTimes (n : Nat) : Keeps broken P (stepTimes n) := by
  induction n with
  | zero => exact .done _
  | succ n ih => exact .bind hstep fun more => .ite _ ih (.done _)

theorem runFor (htimeOut : ∀ cause, cause.EndsRun → Keeps broken P (timeOut cause)) (n : Nat) : Keeps broken P (runFor n) := by
  induction n with
  | zero => exact htimeOut _ (.inl rfl)
  | succ n ih =>
    exact .look fun s => .bind (.lift _) fun late =>
      .ite _ (htimeOut _ (.inr rfl)) (.bind hstep fun more => .ite _ ih (.done _))

include hload

theorem replay (n : Nat) : Keeps broken P (replay n) := .look fun s => .bind (hload s.code) fun _ => stepTimes hstep n

theorem stepBack (hrestored : ∀ s c history, P s → s.history.pop? = some (c, history) → P (s.restored c history)) :
    Keeps broken P stepBack := by
  intro s hs
  rw [Session.stepBack, run_bind, run_get]
  dsimp only
  split
  case h_1 c history hpop => exact fun _ => hrestored s c history hs hpop
  case h_2 =>
    split
    · exact (replay hstep hload _).bind (fun _ => .done _) s hs
    · exact (look fun s => hload s.code).bind (fun _ => .done _) s hs

/-- What a step and the begin of a program keep is kept by all orders, a run to the end only if it may be cut short. -/
theorem order {o : Order} (htimeOut : o = .runToEnd → ∀ cause, cause.EndsRun → Keeps broken P (timeOut cause))
    (hrestored : ∀ s c history, P s → s.history.pop? = some (c, history) → P (s.restored c history)) :
    Keeps broken P o.command := by
  cases o with
  | step => exact .bind hstep fun _ => .done _
  | stepBack => exact .bind (stepBack hstep hload hrestored) fun _ => .done _
  | runToEnd =>
    exact .bind (.look fun _ => .ite _ (.done _) (.bind (.lift _) fun n => runFor hstep (htimeOut rfl) n)) fun _ => .done _
  | reset => exact .bind (.look fun s => hload s.code) fun _ => .done _
  | replay n => exact .bind (replay hstep hload n) fun _ => .done _

end Orders

end Keeps

end Session

end Stepwise
