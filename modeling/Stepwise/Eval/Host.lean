import Stepwise.Builtin.Apply

/-!
# Hosts

What an expression finds around it: the functions of the program, a way to call them, and the bound on output.
-/

namespace Stepwise

structure Host where
  functions : OrderedMap Function
  call : Function → List Value → Exec Value
  outputLimit : Option Limit

namespace Host

/-- A host without a running program: its functions can be named but not called. -/
def idle (functions : OrderedMap Function) : Host := ⟨functions, fun f _ => Exec.fail (.noProgram f.name), none⟩

def function? (host : Host) (name : Text) : Option Function := host.functions.get? name

/-- Whether the name is that of a function, of the program or built in. -/
def isFunction (host : Host) (name : Text) : Bool :=
  (host.function? name).isSome || (Builtin.global? name).isSome

def builtin? (name : Text) : Option Builtin := (Builtin.global? name).or (Builtin.qualified? name)

/-- Call a function value. Built-in functions may call back; they do so at most `depth` times inside each other. -/
def invokeWithin (host : Host) : Nat → Text → List Value → Exec Value
  | 0, _, _ => throw (.breakdown .exhausted)
  | depth + 1, name, args =>
    match host.function? name with
    | some f => host.call f args
    | none => match builtin? name with
      | some b => b.apply host.outputLimit (host.invokeWithin depth) args
      | none => Exec.fail (.notFunction name)

/-- Call a function value. The only built-in function that calls back passes an index as second argument, and with an
index as second argument it fails before it calls back itself; so two calls inside each other are enough. -/
def invoke (host : Host) (name : Text) (args : List Value) : Exec Value := host.invokeWithin 3 name args

end Host

end Stepwise
