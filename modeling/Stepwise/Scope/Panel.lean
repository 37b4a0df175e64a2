import Stepwise.Scope.Basic
import Stepwise.Value.Operators

/-!
# The variables panel

The rows that show the variables of a layer, and which of them changed. Two values count as the same when they have the
same form in JSON.
-/

namespace Stepwise

structure VariableRow where
  name : Text
  value : Chars
  type : Text
  changed : Bool

structure Variables where
  layer : Layer
  heap : Heap

namespace Variables

def none : Variables := ⟨.empty, .empty⟩

/-- The value of a variable; a name that is not bound counts as undefined. -/
def value (v : Variables) (name : Text) : Value := ((v.layer.get? name).map (·.value)).getD .undefined

def datum (v : Variables) (name : Text) : Datum := v.heap.read (v.value name)

def isShown (name : Text) : Bool := !"__".codes.isPrefixOf name

/-- How a value is shown. A text is shown as it is. -/
def display (h : Heap) (v : Value) : Except Breakdown Chars :=
  match v with
  | .text s => .ok s
  | v => return (← (h.read v).displayText).packed

/-- Whether a variable changed. Texts have the same form in JSON only when they are the same. -/
def changed (current previous : Variables) (name : Text) : Except Breakdown Bool :=
  match current.value name, previous.value name with
  | .text s, .text t => .ok !(s.same t)
  | _, _ => (current.datum name).differs (previous.datum name)

/-- The row of one variable. An array or an object is shown in its form in JSON, by which it is also compared. -/
def row (current previous : Variables) (name : Text) (value : Value) : Except Breakdown VariableRow := do
  let type := current.heap.displayType value
  match value with
  | .ref _ =>
    let written ← (current.heap.read value).fingerprint
    return ⟨name, (written.getD []).packed, type, written != (← (previous.datum name).fingerprint)⟩
  | value => return ⟨name, ← display current.heap value, type, ← current.changed previous name⟩

/-- The order of rows, each with its name in lower case: by name without regard to case, then by name. -/
def rowLe (a b : Text × VariableRow) : Bool := if a.1 = b.1 then a.2.name.le b.2.name else a.1.le b.1

def sorted (rows : List VariableRow) : List VariableRow :=
  ((rows.map fun r => (r.name.toLower, r)).mergeSort rowLe).map (·.2)

def rows (current previous : Variables) : Except Breakdown (List VariableRow) := do
  let shown := current.layer.namedValues.filter fun (name, _) => isShown name
  let rows ← shown.mapM fun (name, value) => current.row previous name value
  return sorted rows

end Variables

end Stepwise
