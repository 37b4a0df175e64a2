import Stepwise.Session.History
import Stepwise.Session.Settings
import Stepwise.Session.State

/-!
# Sessions

A session steps through one program, forward and back. A step executes one instruction of the program, with all calls
inside it. After each command the session publishes a state. An error of the program ends it: the session shows the
error and does not step on until it is taken back or reset. A breakdown underneath the program is passed to the caller;
what was published before stays.

Loading a program can break down, too. If the text cannot be loaded, the session goes on with the program it has. If
the bound of the history or the seed is refused, the session is left half-way: it counts and shows the lines of the new
program, goes on executing the old one, and no longer hears its warnings.
-/

namespace Stepwise

structure Checkpoint where
  world : World
  steps : Nat
  complete : Bool
  previous : Variables
  published : State

structure Session where
  settings : Settings
  code : Text
  /-- the program whose instructions are counted and whose lines are shown -/
  program : Program
  /-- what executes; it has another program only after a load that was left half-way -/
  machine : Machine
  /-- whether the warnings of the program are shown -/
  warned : Bool
  world : World
  steps : Nat
  complete : Bool
  error : Option Report
  /-- whether the error comes from a step, which can be taken back -/
  failedStep : Bool
  /-- the variables before the last step -/
  previous : Variables
  history : History Checkpoint
  published : State

/-- A command to a session. A breakdown leaves the session as it was at that moment. -/
abbrev Command := ExceptT Breakdown (StateM Session)

namespace Session

def nextLine (s : Session) : Nat := s.program.lineOf s.world.current.nextIndex

def view (s : Session) (line : Nat) (callStack : List Text) : Except Breakdown State := do
  return {
    rows := ← s.world.store.globals.rows s.previous
    currentLine := line
    callStack
    output := s.world.output
    isComplete := s.complete
    error := s.error
    warnings := if s.warned then s.world.warnings else #[]
    steps := s.steps }

def blankState (p : Program) : State :=
  ⟨[], p.lineOf 0, ["global".codes], #[], false, none, #[], 0⟩

def start (settings : Settings) (code : Text) (program : Program) (bound : Nat) (seed : Int) : Session :=
  { settings
    code
    program
    machine := ⟨program, settings.limits⟩
    warned := true
    world := .initial seed
    steps := 0
    complete := false
    error := none
    failedStep := false
    previous := .none
    history := .empty bound
    published := blankState program }

def create (settings : Settings) (code : Text) : Except Breakdown Session := do
  let program ← Program.load code
  let bound ← settings.historyBound
  return start settings code program bound (← settings.seed.number)

/-- The session when a load is left half-way: the new program is there, and what the old one has left behind is gone as
far as it can be cleared with the given history. -/
def halfLoaded (s : Session) (program : Program) (history : History Checkpoint) : Session :=
  { s with
    program
    warned := false
    world := { s.world with output := #[] }
    steps := 0
    complete := false
    error := none
    failedStep := false
    previous := .none
    history }

def load (code : Text) : Command Unit := do
  modify fun s => { s with code }
  let program ← Program.load code
  let s ← get
  set (s.halfLoaded program s.history)
  let bound ← s.settings.historyBound
  set (s.halfLoaded program (.empty bound))
  let seed ← s.settings.seed.number
  set (start s.settings code program bound seed)

def publish (line : Nat) (callStack : List Text) : Command Unit := do
  let published ← (← get).view line callStack
  modify fun s => { s with published }

def publishNext : Command Unit := do
  let s ← get
  publish s.nextLine s.world.callStack

def checkpoint : Command Unit :=
  modify fun s => { s with history := s.history.push ⟨s.world, s.steps, s.complete, s.previous, s.published⟩ }

def fail (e : Raised) (i : Nat) : Command Unit := do
  let s ← get
  let line := e.line.getD (s.program.lineOf i + 1)
  modify fun s => { s with error := some ⟨e.cause, line⟩, failedStep := true }
  publish line (e.stack.getD s.world.callStack)

def advance (next : Nat) : Command Bool := do
  modify fun s =>
    let current := { s.world.current with ip := next }
    { s with
      world := { s.world with current }
      steps := s.steps + 1
      complete := s.program.size ≤ current.nextIndex }
  publishNext
  return !(← get).complete

def host (s : Session) : Host := s.machine.host (some s.settings.maxOutputLines)

/-- Execute the instruction at an index, which finds the given host around it. -/
def executeWith (host : Host) (i : Nat) : Command Bool := do
  let s ← get
  let (outcome, world) := (s.machine.execute host i).run.run { s.world with callSteps := 0 }
  modify fun s => { s with world }
  match outcome with
  | .ok next => advance next
  | .error (.raised e) => do
    fail e i
    return false
  | .error (.breakdown b) => throw b

/-- Execute the next instruction, which finds around it what the session gives it; the result tells whether any are
left. -/
def stepWith (around : Session → Host) : Command Bool := do
  if (← get).error.isSome then return false
  modify fun s => { s with world := { s.world with current := s.world.current.resolved } }
  let s ← get
  let i := s.world.current.ip
  if s.program.size ≤ i then
    modify fun s => { s with complete := true }
    publishNext
    return false
  checkpoint
  modify fun s => { s with previous := s.world.store.globals }
  executeWith (around (← get)) i

/-- Execute the next instruction; the result tells whether any are left. -/
def step : Command Bool := stepWith host

/-- Step until no instruction is left, at most the given number of times. -/
def stepTimes : Nat → Command Unit
  | 0 => return
  | n + 1 => do
    if ← step then stepTimes n

def replay (n : Nat) : Command Unit := do
  load (← get).code
  stepTimes n

def reset : Command Unit := do load (← get).code

/-- The number of steps before the one to be taken back; none when there is no such step. -/
def target? (s : Session) : Option Nat :=
  if s.failedStep then some s.steps else if s.steps = 0 then none else some (s.steps - 1)

/-- The session at a checkpoint. The output and the warnings are cut back to the length they had then. -/
def restored (s : Session) (c : Checkpoint) (history : History Checkpoint) : Session :=
  { s with
    world := { c.world with
      output := s.world.output.extract 0 c.world.output.size
      warnings := s.world.warnings.extract 0 c.world.warnings.size }
    steps := c.steps
    complete := c.complete
    error := none
    failedStep := false
    previous := c.previous
    history
    published := c.published }

/-- Take the last step back; the result tells whether there was one. When its checkpoint has been forgotten, the program
is run again up to it. -/
def stepBack : Command Bool := do
  let s ← get
  match s.history.pop? with
  | some (c, history) =>
    set (s.restored c history)
    return true
  | none =>
    match s.target? with
    | some n => replay n; return true
    | none => reset; return false

/-- End a run with an error that belongs to no step. Nothing but the error is published anew. -/
def timeOut (cause : Cause) : Command Unit :=
  modify fun s =>
    let report : Report := ⟨cause, s.nextLine + 1⟩
    { s with error := some report, published := { s.published with error := some report } }

/-- Step until no instruction is left, with the given number of steps allowed. -/
def runFor : Nat → Command Unit
  | 0 => timeOut .maxSteps
  | n + 1 => do
    if ← (← get).settings.outOfTime then timeOut .timeLimit
    else if ← step then runFor n

def runToEnd : Command Unit := do
  let s ← get
  if s.error.isSome then return
  runFor (← s.settings.maxSteps.reachedAt)

def applySettings (p : SettingsPatch) : Command Unit := modify fun s => { s with settings := s.settings.apply p }

def run {α : Type} (s : Session) (c : Command α) : Except Breakdown α × Session := ExceptT.run c |>.run s

end Session

end Stepwise
