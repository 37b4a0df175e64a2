import Stepwise.Proofs.Turn

/-!
# Structured evaluation

The instructions of a program as a tree of statements, and the evaluation of such a tree. Nothing here knows about
positions, jumps or frames: a loop repeats the evaluation of its body, a conditional evaluates one of its clauses, and
how a statement has completed tells what comes next. A tree is evaluated by recursion, and a loop by as many rounds as
are allowed.
-/

namespace Stepwise

/-- A sequence of statements. Instructions stand in it where a fault gets its line. -/
inductive Code
  | done
  | simple (instr : Instruction) (next : Code)
  | block (body next : Code)
  /-- what a function is has been found out before the program runs -/
  | function (next : Code)
  | loop (header closer : Instruction) (body next : Code)
  /-- a conditional; a further clause is a conditional inside `otherwise`, and the last one may be without a condition -/
  | branch (header : Instruction) (test : Option Expr) (body otherwise next : Code)

/-- How a statement has completed. -/
inductive Completion
  | normal
  | jump (jump : Jump)
  | returned

/-- Go on after a statement that has completed normally. -/
def Completion.andThen (next : Exec Completion) : Completion → Exec Completion
  | .normal => next
  | other => return other

/-- A fault that leaves an instruction gets its line and the call stack. -/
def Instruction.locate {α : Type} (instr : Instruction) (x : Exec α) : Exec α :=
  tryCatch x fun fault => do
    let w ← get
    throw (fault.crossing (instr.line + 1) fun _ => w.callStack)

/-! ### Simple statements -/

/-- A jump makes sense only inside a loop. -/
def Jump.perform (inLoop : Bool) (j : Jump) : Exec Completion :=
  if inLoop then return .jump j
  else Exec.fail (match j with
    | .leave => .illegalBreak
    | .again => .illegalContinue)

/-- A return ends a function body; outside of functions the program goes on. -/
def performReturn (host : Host) (e : Option Expr) : Exec Completion := do
  runReturn host e
  return if (← get).current.returned.isSome then .returned else .normal

/-- A statement outside the language is an error in strict mode, and a warning otherwise. -/
def Instruction.warn (strict : Bool) (instr : Instruction) (why : SyntaxError) : Exec Completion := do
  if strict then Exec.fail (.unsupported instr.text why)
  let warning := "Line ".codes ++ Text.ofNat (instr.line + 1) ++ ": unsupported statement ignored: ".codes ++ instr.text
  modify fun w => { w with warnings := w.warnings.push warning }
  return .normal

/-- Execute a statement that has no block. -/
def Instruction.perform (strict : Bool) (host : Host) (inLoop : Bool) (instr : Instruction) : Exec Completion :=
  match instr.stmt with
  | .ret e => performReturn host e
  | .declare kind decls => do declareAll host kind decls; return .normal
  | .act a => do a.run host; return .normal
  | .jump j => j.perform inLoop
  | .guarded test body => do
    if !(← Exec.holds host (some test)) then return .normal
    match body with
    | .ret e => performReturn host e
    | .jump j => j.perform inLoop
    | .act a => a.run host; return .normal
  | .unsupported why => instr.warn strict why
  | _ => return .normal

/-! ### Loops -/

/-- Begin a loop; there is nothing to repeat when its body is not entered. -/
def Stmt.beginLoop (host : Host) : Stmt → Exec (Option Loop)
  | .loopFor init test update => do
    match init with
    | some init => init.run host
    | none => pure ()
    return if ← Exec.holds host test then some (.counted test update) else none
  | .loopEach decl name mode collection => do
    let items ← loopItems mode (← collection.eval host)
    match items.get? 0 with
    | some first => Exec.bindItem name decl first; return some (.each items 0 name decl)
    | none => return none
  | .loopWhile test => do return if ← Exec.holds host (some test) then some (.whilst test) else none
  | _ => return none

/-- Whether and how a loop goes on after a round. -/
def Loop.goOn (host : Host) : Loop → Exec (Option Loop)
  | .counted test update => do
    match update with
    | some a => a.run host
    | none => pure ()
    return if ← Exec.holds host test then some (.counted test update) else none
  | .whilst test => do return if ← Exec.holds host (some test) then some (.whilst test) else none
  | .each items position name decl => do
    match items.get? (position + 1) with
    | some v => Exec.bindItem name decl v; return some (.each items (position + 1) name decl)
    | none => return none

/-- Fewer than `rounds` rounds of a loop. -/
def Loop.repeat (goOn : Loop → Exec (Option Loop)) (body : Exec Completion) : (rounds : Nat) → Loop → Exec Completion
  | 0, _ => throw (.breakdown .exhausted)
  | rounds + 1, l => do
    match ← body with
    | .returned => return .returned
    | .jump .leave => return .normal
    | .normal | .jump .again =>
      match ← goOn l with
      | some l => l.repeat goOn body rounds
      | none => return .normal

/-- Evaluate a tree, with fewer than `rounds` rounds in each loop. -/
def Code.run (strict : Bool) (host : Host) (rounds : Nat) : (inLoop : Bool) → Code → Exec Completion
  | _, .done => return .normal
  | inLoop, .simple instr next => do
    (← instr.locate (instr.perform strict host inLoop)).andThen (next.run strict host rounds inLoop)
  | inLoop, .block body next => do
    (← body.run strict host rounds inLoop).andThen (next.run strict host rounds inLoop)
  | inLoop, .function next => next.run strict host rounds inLoop
  | inLoop, .loop header closer body next => do
    match ← header.locate (header.stmt.beginLoop host) with
    | some begun =>
      let completion ← begun.repeat (fun l => closer.locate (l.goOn host)) (body.run strict host rounds true) rounds
      completion.andThen (next.run strict host rounds inLoop)
    | none => next.run strict host rounds inLoop
  | inLoop, .branch header test body otherwise next => do
    let taken ← header.locate (Exec.holds host test)
    let completion ← if taken then body.run strict host rounds inLoop else otherwise.run strict host rounds inLoop
    completion.andThen (next.run strict host rounds inLoop)

/-! ### The trees of a program -/

namespace Program

/-- The index of the instruction that closes the block of `i`. -/
def closer (p : Program) (i : Nat) : Nat := p.closerOf[i]?.getD i

mutual

/-- The statements from `i` up to `stop`, at most `fuel` deep. -/
def code (p : Program) : (fuel i stop : Nat) → Code
  | 0, _, _ => .done
  | fuel + 1, i, stop =>
    match if i < stop then p.instructions[i]? else none with
    | none => .done
    | some instr =>
      match instr.stmt with
      | .block => .block (p.code fuel (i + 1) (p.closer i)) (p.code fuel (p.closer i + 1) stop)
      | .function _ _ => .function (p.code fuel (p.closer i + 1) stop)
      | .loopFor _ _ _ | .loopEach _ _ _ _ | .loopWhile _ =>
        .loop instr (p.instructions[p.closer i]?.getD instr) (p.code fuel (i + 1) (p.closer i))
          (p.code fuel (p.closer i + 1) stop)
      | .branch test =>
        .branch instr (some test) (p.code fuel (i + 1) (p.closer i)) (p.clauses fuel i)
          (p.code fuel (p.closer (p.lastClause p.size i) + 1) stop)
      | _ => .simple instr (p.code fuel (i + 1) stop)

/-- The clauses after the one at `o`. -/
def clauses (p : Program) : (fuel o : Nat) → Code
  | 0, _ => .done
  | fuel + 1, o =>
    match p.nextClause[o]? with
    | none => .done
    | some j =>
      match p.instructions[j]? with
      | none => .done
      | some instr =>
        match instr.stmt with
        | .otherwise test _ => .branch instr test (p.code fuel (j + 1) (p.closer j)) (p.clauses fuel j) .done
        | _ => .done

end

/-- The statements from `lo` up to `hi`. -/
def tree (p : Program) (lo hi : Nat) : Code := p.code (p.size + 1) lo hi

end Program

/-! ### Programs and functions -/

namespace Machine

/-- The outcome of a function body that is evaluated as a tree. -/
def evalBody (m : Machine) (rounds : Nat) (host : Host) (f : Function) : Exec Value := do
  let _ ← (m.program.tree (f.start + 1) f.stop).run m.limits.strict host rounds false
  return (← get).current.returned.getD .undefined

/-- Call a function and evaluate its body as a tree, with at most `depth` calls inside each other. -/
def evalCall (m : Machine) (rounds : Nat) (outputLimit : Option Limit) : Nat → Function → List Value → Exec Value
  | 0, _, _ => throw (.breakdown .exhausted)
  | depth + 1, f, args => do
    if ← m.limits.callDepth.isPassed ((← get).callers.length + 1) then Exec.fail .callDepth
    called f args (m.evalBody rounds ⟨m.program.functions, m.evalCall rounds outputLimit depth, outputLimit⟩ f)

/-- What expressions find around them when calls are evaluated as trees. -/
def evalHost (m : Machine) (rounds : Nat) (outputLimit : Option Limit) (depth : Nat) : Host :=
  ⟨m.program.functions, m.evalCall rounds outputLimit depth, outputLimit⟩

/-- Evaluate the program as a tree. -/
def evalMain (m : Machine) (rounds : Nat) (outputLimit : Option Limit) : Exec Completion :=
  (m.program.tree 0 m.program.size).run m.limits.strict (m.evalHost rounds outputLimit m.nesting) rounds
    false

end Machine

end Stepwise
