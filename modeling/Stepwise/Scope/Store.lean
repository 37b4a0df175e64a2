import Stepwise.Scope.Panel
import Stepwise.Value.Copy

/-!
# Stores

A scope together with the heap that its values refer to. What is bound to a name is always a copy, so that no two names
share an array or an object.
-/

namespace Stepwise

structure Store where
  heap : Heap
  scope : Scope

namespace Store

def empty : Store := ⟨.empty, ⟨[], .empty⟩⟩

def has (s : Store) (name : Text) : Bool := s.scope.has name

def lookup (s : Store) (name : Text) : Except Cause Value := s.scope.lookup name

def declare (s : Store) (name : Text) (value : Value) (constant : Bool) : Store :=
  let (value, heap) := s.heap.copy value
  ⟨heap, s.scope.declare name value constant⟩

def assign (s : Store) (name : Text) (value : Value) : Except Cause Store := do
  let (value, heap) := s.heap.copy value
  return ⟨heap, ← s.scope.assign name value⟩

def within (s : Store) (inner : List Layer) : Store := { s with scope := { s.scope with inner } }

def globals (s : Store) : Variables := ⟨s.scope.root, s.heap⟩

end Store

end Stepwise
