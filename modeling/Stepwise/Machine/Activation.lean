import Stepwise.Program.Basic
import Stepwise.Value.Heap

/-!
# Activations

An activation is one pass through the program or through the body of a function: where it stands, which loops and
conditionals it is inside of, and what it has returned. Jumps ahead are kept as a target that is reached before the next
instruction.
-/

namespace Stepwise

inductive Loop
  | counted (test : Option Expr) (update : Option Action)
  | whilst (test : Expr)
  /-- over items fixed when the loop began, of which the one at `position` is being visited -/
  | each (items : Sequence Value) (position : Nat) (name : Text) (decl : Option DeclKind)

/-- A loop or a conditional that is being executed, by the index of its header. -/
inductive Frame
  | loop (opener : Nat) (loop : Loop)
  /-- a conditional; `taken` tells whether one of its clauses has been entered -/
  | branch (opener : Nat) (taken : Bool)

structure Activation where
  /-- none for the program itself -/
  function : Option Function
  /-- the instruction it stands at -/
  ip : Nat
  /-- the target of a jump ahead that has not been made yet -/
  skip : Option Nat
  /-- innermost first -/
  frames : List Frame
  /-- the value that the function has returned -/
  returned : Option Value

namespace Activation

def main : Activation := ⟨none, 0, none, [], none⟩

def ofFunction (f : Function) : Activation := ⟨some f, f.start + 1, none, [], none⟩

def label (a : Activation) : Text :=
  match a.function with
  | none => "global".codes
  | some f => f.name ++ "()".codes

/-- Where execution goes on once a jump ahead has been made. A target that lies behind is ignored. -/
def nextIndex (a : Activation) : Nat :=
  match a.skip with
  | some target => max a.ip target
  | none => a.ip

def resolved (a : Activation) : Activation := { a with ip := a.nextIndex, skip := none }

def loopFrames : List Frame → List Frame
  | .branch _ _ :: outer => loopFrames outer
  | frames => frames

end Activation

end Stepwise
