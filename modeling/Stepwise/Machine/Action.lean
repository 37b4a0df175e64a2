import Stepwise.Eval.Expr

/-!
# Executing actions and declarations

The statements that only evaluate and store. A target is read and stored through separately, so that the expressions
inside it are evaluated once for each.
-/

namespace Stepwise

def Exec.iterable (v : Value) : Exec (Sequence Value) := do
  match v, (← Exec.heap).array? v with
  | _, some (_, items) => return items
  | .text s, none => return Collection.characters s
  | v, none => Exec.fail (.notIterable (← Exec.toText v))

def Exec.storeProperty (object : Value) (key : Text) (v : Value) : Exec Unit := do
  Exec.setHeap (← (← Exec.heap).storeProperty object key v)

def Target.store (host : Host) (t : Target) (v : Value) : Exec Unit := do
  match t with
  | .name x => Exec.assign x v
  | .member e property => Exec.storeProperty (← e.eval host) property v
  | .index e key =>
    let object ← e.eval host
    let key ← key.eval host
    Exec.storeProperty object (← (← Exec.heap).propertyKey key) v

def Target.read (host : Host) (t : Target) : Exec Value := t.toExpr.eval host

def Action.run (host : Host) : Action → Exec Unit
  | .evaluate e => do
    let _ ← e.eval host
  | .assign t e => do t.store host (← e.eval host)
  | .destructure targets e => do
    let items ← Exec.iterable (← e.eval host)
    let items ← Exec.withHeap (·.copyTogether items)
    targets.zipIdx.forM fun (t, i) => t.store host ((items.get? i).getD .undefined)
  | .update increment t => do
    let current ← Exec.toNumber (← t.read host)
    let op := if increment then ArithOp.add else ArithOp.sub
    t.store host (← (← Exec.heap).arithmetic op (.num current) (.int 1))
  | .compound op t e => do
    let current ← t.read host
    let operand ← e.eval host
    t.store host (← (← Exec.heap).arithmetic op current operand)

/-- Bind the names of a binder. A pattern takes the items of a sequence in order; missing ones are undefined. -/
def Binder.bind (b : Binder) (constant : Bool) (v : Value) : Exec Unit := do
  match b with
  | .name x => Exec.declare x v constant
  | .pattern names =>
    let items ← Exec.iterable v
    names.zipIdx.forM fun (x, i) =>
      match x with
      | some x => Exec.declare x ((items.get? i).getD .undefined) constant
      | none => return

def evalOptional (host : Host) (e : Option Expr) : Exec Value :=
  match e with
  | some e => e.eval host
  | none => return .undefined

def declareAll (host : Host) (kind : DeclKind) (decls : List Declarator) : Exec Unit :=
  decls.forM fun d => do d.binder.bind (kind = .constKind) (← evalOptional host d.init)

def ForInit.run (host : Host) : ForInit → Exec Unit
  | .declare kind decls => declareAll host kind decls
  | .act a => a.run host

/-- The name under which a value returned outside of functions is kept. -/
def returnName : Text := "__return__".codes

/-- Return from the current activation. Outside of functions the value is kept under a name, and the program goes on. -/
def runReturn (host : Host) (e : Option Expr) : Exec Unit := do
  let v ← evalOptional host e
  match (← get).current.function with
  | none => Exec.declare returnName v false
  | some _ => Exec.activation fun a => { a with returned := some v }

end Stepwise
