import Stepwise.Fault
import Stepwise.Value.Heap

/-!
# Scopes

A scope is a chain of layers. A name means the binding in the nearest layer that holds it; a store to a name that no
layer holds makes a binding in the root layer. Names declared constant refuse stores.
-/

namespace Stepwise

structure Binding where
  value : Value
  constant : Bool

/-- The bindings of one layer, in the order in which their names were first bound. -/
abbrev Layer := OrderedMap Binding

structure Scope where
  inner : List Layer
  root : Layer

namespace Layer

/-- Bind a name, which keeps its place when it was bound before. -/
def declare (layer : Layer) (name : Text) (value : Value) (constant : Bool) : Layer :=
  layer.put name ⟨value, constant⟩

def namedValues (layer : Layer) : List (Text × Value) := layer.toList.map fun (name, b) => (name, b.value)

def constants (layer : Layer) : List Text :=
  layer.toList.filterMap fun (name, b) => if b.constant then some name else none

end Layer

namespace Scope

def layers (s : Scope) : List Layer := s.inner ++ [s.root]

def find? (s : Scope) (name : Text) : Option Binding := s.layers.findSome? (·.get? name)

def has (s : Scope) (name : Text) : Bool := (s.find? name).isSome

def lookup (s : Scope) (name : Text) : Except Cause Value :=
  match s.find? name with
  | some b => .ok b.value
  | none => .error (.undefinedName name)

/-- Bind a name in the innermost layer. A name may be declared again. -/
def declare (s : Scope) (name : Text) (value : Value) (constant : Bool) : Scope :=
  match s.inner with
  | [] => { s with root := s.root.declare name value constant }
  | layer :: outer => { s with inner := layer.declare name value constant :: outer }

/-- Change the value of a name in the nearest of the given layers that holds it. -/
def storeIn (name : Text) (value : Value) : List Layer → List Layer
  | [] => []
  | layer :: outer =>
    if layer.has name then layer.declare name value false :: outer else layer :: storeIn name value outer

def assign (s : Scope) (name : Text) (value : Value) : Except Cause Scope :=
  match s.find? name with
  | some b =>
    if b.constant then .error .constantAssignment
    else if s.inner.any (·.has name) then .ok { s with inner := storeIn name value s.inner }
    else .ok { s with root := s.root.declare name value false }
  | none => .ok { s with root := s.root.declare name value false }

end Scope

end Stepwise
