import Stepwise.Machine.Activation
import Stepwise.Number.Twister
import Stepwise.Scope.Store

/-!
# The world of a running program

All that a running program can change. An execution may end in a fault; the world it has reached by then stays.
-/

namespace Stepwise

/-- An activation that waits for a call to return, with the local layers to go back to. -/
structure Caller where
  activation : Activation
  locals : List Layer

structure World where
  store : Store
  output : Array Text
  warnings : Array Text
  random : Twister
  /-- instructions executed inside calls since the current step began -/
  callSteps : Nat
  current : Activation
  /-- innermost first -/
  callers : List Caller

abbrev Exec := ExceptT Fault (StateM World)

namespace World

def initial (seed : Int) : World := ⟨.empty, #[], #[], .ofSeed seed, 0, .main, []⟩

def callStack (w : World) : List Text := (w.current.label :: w.callers.map (·.activation.label)).reverse

end World

namespace Exec

def fail {α : Type} (cause : Cause) : Exec α := throw (.of cause)

def heap : Exec Heap := return (← get).store.heap

def withHeap {α : Type} (f : Heap → α × Heap) : Exec α := do
  let (a, h) := f (← heap)
  modify fun w => { w with store.heap := h }
  return a

def setHeap (h : Heap) : Exec Unit := modify fun w => { w with store.heap := h }

def modifyHeap (f : Heap → Heap) : Exec Unit := modify fun w => { w with store.heap := f w.store.heap }

def newArray (items : Sequence Value) : Exec Value := withHeap (·.allocArray items)

def copy (v : Value) : Exec Value := withHeap (·.copy v)

def toChars (v : Value) : Exec Chars := do (← heap).toChars v

def toText (v : Value) : Exec Text := do (← heap).toText v

def toNumber (v : Value) : Exec Num := do (← heap).toNumber v

def activation (f : Activation → Activation) : Exec Unit := modify fun w => { w with current := f w.current }

def declare (name : Text) (value : Value) (constant : Bool) : Exec Unit :=
  modify fun w => { w with store := w.store.declare name value constant }

def assign (name : Text) (value : Value) : Exec Unit := do
  let store ← ((← get).store.assign name value : Except Cause Store)
  modify fun w => { w with store }

/-- Write a line of output, unless there are as many as `limit` already. -/
def emit (limit : Option Limit) (line : Text) : Exec Unit := do
  let w ← get
  match limit with
  | some limit => if ← limit.isReached w.output.size then fail (.outputLimit limit)
  | none => pure ()
  modify fun w => { w with output := w.output.push line }

end Exec

end Stepwise
