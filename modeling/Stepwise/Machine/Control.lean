import Stepwise.Machine.Action

/-!
# Executing control flow

Each instruction tells which one comes next. A jump ahead goes to the following instruction and leaves the target with
the activation; a loop goes back to the instruction after its header.
-/

namespace Stepwise

namespace Exec

def skipTo (target : Nat) : Exec Unit := activation fun a => { a with skip := some target }

def pushFrame (f : Frame) : Exec Unit := activation fun a => { a with frames := f :: a.frames }

def popFrame : Exec Unit := activation fun a => { a with frames := a.frames.tail }

def setFrame (f : Frame) : Exec Unit := activation fun a => { a with frames := f :: a.frames.tail }

/-- Whether a condition holds; without one it does. -/
def holds (host : Host) (test : Option Expr) : Exec Bool :=
  match test with
  | some e => do (← e.eval host).truthy
  | none => return true

def bindItem (name : Text) (decl : Option DeclKind) (v : Value) : Exec Unit :=
  match decl with
  | some kind => declare name v (kind = .constKind)
  | none => assign name v

end Exec

/-- Enter the body of a loop, or jump to the brace at its end, which then belongs to no loop. -/
def enterLoop (i stop : Nat) (loop : Loop) (enter : Bool) : Exec Nat := do
  if enter then Exec.pushFrame (.loop i loop) else Exec.skipTo stop
  return i + 1

/-- What comes after the body of a loop, whose closing brace is at `i`. -/
def loopBack (host : Host) (i opener : Nat) (loop : Loop) : Exec Nat := do
  let again ← match loop with
    | .counted test update => do
      match update with
      | some a => a.run host
      | none => pure ()
      Exec.holds host test
    | .whilst test => Exec.holds host (some test)
    | .each items position name decl => do
      Exec.setFrame (.loop opener (.each items (position + 1) name decl))
      match items.get? (position + 1) with
      | some v => Exec.bindItem name decl v; pure true
      | none => pure false
  if again then return opener + 1
  Exec.popFrame
  return i + 1

/-- A closing brace: the end of a loop body goes back, and a conditional without a further clause is left. -/
def runClose (p : Program) (host : Host) (i : Nat) : Exec Nat := do
  let opener := p.openerOf[i]?
  match (← get).current.frames with
  | .loop o loop :: _ => if opener = some o then loopBack host i o loop else return i + 1
  | .branch o _ :: _ =>
    if opener = some o ∧ p.nextClause[o]?.isNone then Exec.popFrame
    return i + 1
  | [] => return i + 1

/-- The items that a loop visits: those of a sequence, or the keys of a collection. -/
def loopItems (mode : EachMode) (v : Value) : Exec (Sequence Value) := do
  match mode with
  | .items => Exec.iterable v
  | .keys =>
    if v.isNullish then return .empty
    else return .ofList ((← Collection.keys v).map fun key => .text key.packed)

def runEach (p : Program) (host : Host) (i : Nat) (decl : Option DeclKind) (name : Text) (mode : EachMode)
    (collection : Expr) : Exec Nat := do
  let stop ← p.blockEnd i
  let items ← loopItems mode (← collection.eval host)
  match items.get? 0 with
  | some first => Exec.bindItem name decl first
  | none => pure ()
  enterLoop i stop (.each items 0 name decl) !items.isEmpty

def runFor (p : Program) (host : Host) (i : Nat) (init : Option ForInit) (test : Option Expr) (update : Option Action) :
    Exec Nat := do
  let stop ← p.blockEnd i
  match init with
  | some init => init.run host
  | none => pure ()
  enterLoop i stop (.counted test update) (← Exec.holds host test)

def runWhile (p : Program) (host : Host) (i : Nat) (test : Expr) : Exec Nat := do
  let stop ← p.blockEnd i
  enterLoop i stop (.whilst test) (← Exec.holds host (some test))

/-- The first clause of a conditional. When it is not taken, a further clause is reached through the closing brace. -/
def runBranch (p : Program) (host : Host) (i : Nat) (test : Expr) : Exec Nat := do
  let stop ← p.blockEnd i
  if ← Exec.holds host (some test) then Exec.pushFrame (.branch i true)
  else if p.nextClause[i]?.isSome then
    Exec.pushFrame (.branch i false)
    Exec.skipTo stop
  else Exec.skipTo (stop + 1)
  return i + 1

/-- Enter a further clause of a conditional of which none was taken. -/
def enterClause (p : Program) (host : Host) (i stop : Nat) (test : Option Expr) : Exec Unit := do
  Exec.setFrame (.branch i false)
  if ← Exec.holds host test then Exec.setFrame (.branch i true)
  else if p.nextClause[i]?.isSome then Exec.skipTo stop
  else
    Exec.popFrame
    Exec.skipTo (stop + 1)

/-- A further clause of a conditional. It has to follow the clause that the activation is inside of. -/
def runOtherwise (p : Program) (host : Host) (i : Nat) (test : Option Expr) : Exec Nat := do
  match (← get).current.frames, p.prevClause[i]? with
  | .branch o taken :: _, some previous =>
    if o != previous then Exec.fail (.malformed (.misplaced "else".codes))
    let stop ← p.blockEnd i
    if taken then
      Exec.popFrame
      Exec.skipTo ((← p.chainEnd i) + 1)
    else enterClause p host i stop test
    return i + 1
  | _, _ => Exec.fail (.malformed (.misplaced "else".codes))

def runJump (p : Program) (i : Nat) (j : Jump) : Exec Nat := do
  match Activation.loopFrames (← get).current.frames with
  | .loop opener loop :: outer =>
    match j with
    | .leave =>
      Exec.activation fun a => { a with frames := outer }
      Exec.skipTo ((← p.blockEnd opener) + 1)
    | .again =>
      Exec.activation fun a => { a with frames := .loop opener loop :: outer }
      Exec.skipTo (← p.blockEnd opener)
    return i + 1
  | _ => Exec.fail (match j with
    | .leave => .illegalBreak
    | .again => .illegalContinue)

def runGuarded (p : Program) (host : Host) (i : Nat) (test : Expr) (body : Guarded) : Exec Nat := do
  if !(← Exec.holds host (some test)) then return i + 1
  match body with
  | .ret e => runReturn host e; return i + 1
  | .jump j => runJump p i j
  | .act a => a.run host; return i + 1

/-- A statement outside the language: an error in strict mode, and otherwise skipped, with its block, under a warning. -/
def runUnsupported (p : Program) (strict : Bool) (i : Nat) (instr : Instruction) (why : SyntaxError) : Exec Nat := do
  if strict then Exec.fail (.unsupported instr.text why)
  let warning := "Line ".codes ++ Text.ofNat (instr.line + 1) ++ ": unsupported statement ignored: ".codes ++ instr.text
  modify fun w => { w with warnings := w.warnings.push warning }
  match p.closerOf[i]? with
  | some c => if instr.opens then Exec.skipTo (c + 1)
  | none => pure ()
  return i + 1

/-- Execute an instruction; the result is the index of the next one. -/
def Instruction.run (p : Program) (strict : Bool) (host : Host) (i : Nat) (instr : Instruction) : Exec Nat := do
  match instr.stmt with
  | .noop | .block => return i + 1
  | .close => runClose p host i
  | .otherwise test _ => runOtherwise p host i test
  | .function _ _ => Exec.skipTo (← p.blockEnd i); return i + 1
  | .ret e => runReturn host e; return i + 1
  | .declare kind decls => declareAll host kind decls; return i + 1
  | .act a => a.run host; return i + 1
  | .loopFor init test update => runFor p host i init test update
  | .loopEach decl name mode collection => runEach p host i decl name mode collection
  | .loopWhile test => runWhile p host i test
  | .branch test => runBranch p host i test
  | .guarded test body => runGuarded p host i test body
  | .jump j => runJump p i j
  | .unsupported why => runUnsupported p strict i instr why
  | .invalid why => Exec.fail (.malformed why)

end Stepwise
