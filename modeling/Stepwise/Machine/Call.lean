import Stepwise.Machine.Control

/-!
# Calling functions

A call runs the body of a function to its end within one step of the program. Calls are bounded twice: by how deep they
may be nested, and by how many instructions all calls of one step may execute together. These bounds are what makes an
execution end.
-/

namespace Stepwise

structure Limits where
  /-- the greatest number of calls inside each other -/
  callDepth : Limit
  /-- the greatest number of instructions inside the calls of one step -/
  callSteps : Limit
  /-- whether statements outside the language are errors -/
  strict : Bool

structure Machine where
  program : Program
  limits : Limits

namespace Machine

/-- Execute the instruction at an index. A fault that leaves it gets its line and the call stack. -/
def execute (m : Machine) (host : Host) (i : Nat) : Exec Nat :=
  match m.program.instructions[i]? with
  | some instr =>
    tryCatch (instr.run m.program m.limits.strict host i) fun fault => do
      let w ← get
      throw (fault.crossing (instr.line + 1) fun _ => w.callStack)
  | none => throw (.breakdown .noInstruction)

/-- Begin a call: the parameters are bound to copies of the arguments in a layer of their own, above the globals. -/
def enter (f : Function) (args : List Value) : Exec Unit :=
  modify fun w =>
    let locals := w.store.scope.inner
    let store := f.params.zipIdx.foldl (fun s (param, i) => s.declare param (args.getD i .undefined) false)
      (w.store.within [.empty])
    { w with store, current := .ofFunction f, callers := ⟨w.current, locals⟩ :: w.callers }

def leave : Exec Unit :=
  modify fun w => match w.callers with
    | caller :: outer =>
      { w with store := w.store.within caller.locals, current := caller.activation, callers := outer }
    | [] => w

/-- Run the body of a function until it returns or ends. Each instruction counts against the limit, so `fuel` need not
be more than what is left of it. -/
def runBody (m : Machine) (host : Host) (f : Function) : Nat → Exec Unit
  | 0 => throw (.breakdown .exhausted)
  | fuel + 1 => do
    Exec.activation Activation.resolved
    let act := (← get).current
    if act.returned.isSome || f.stop ≤ act.ip then return
    modify fun w => { w with callSteps := w.callSteps + 1 }
    if ← m.limits.callSteps.isPassed (← get).callSteps then Exec.fail (.callSteps f.name m.limits.callSteps)
    let next ← m.execute host act.ip
    Exec.activation fun a => { a with ip := next }
    m.runBody host f fuel

/-- Run the body of a function with as much fuel as it can use; the result is what it returned. -/
def finish (m : Machine) (host : Host) (f : Function) : Exec Value := do
  m.runBody host f (m.limits.callSteps.room - (← get).callSteps + 2)
  return (← get).current.returned.getD .undefined

/-- Call a function, with at most `depth` calls inside each other. -/
def call (m : Machine) (outputLimit : Option Limit) : Nat → Function → List Value → Exec Value
  | 0, _, _ => throw (.breakdown .exhausted)
  | depth + 1, f, args => do
    if ← m.limits.callDepth.isPassed ((← get).callers.length + 1) then Exec.fail .callDepth
    enter f args
    let host := ⟨m.program.functions, m.call outputLimit depth, outputLimit⟩
    let result ← tryCatch (m.finish host f) fun fault => do
      leave
      throw fault
    leave
    return result

/-- More calls than can be inside each other. A call beyond the limit on nesting is refused, and so is an instruction
beyond the limit on steps, of which each call but the innermost one is executing one. -/
def nesting (m : Machine) : Nat := max m.limits.callDepth.room m.limits.callSteps.room + 2

def host (m : Machine) (outputLimit : Option Limit) : Host :=
  ⟨m.program.functions, m.call outputLimit m.nesting, outputLimit⟩

end Machine

end Stepwise
