import Stepwise.Fault
import Stepwise.Value.Copy
import Stepwise.Value.Operators

/-!
# Reading and storing properties

Only undefined and null have no properties at all. A store into an array makes it long enough, and storing its length
cuts it or fills it up; a store into a text, a number, a truth value or a function is ignored.
-/

namespace Stepwise.Heap

/-- No array has as many items as this. -/
def maxArrayLength : Nat := pow2 24

def nullishText : Value → Text
  | .null => "null".codes
  | _ => "undefined".codes

def readProperty (h : Heap) (v : Value) (key : Text) : Except Fault Value :=
  if v.isNullish then throw (.of (.nullishRead (nullishText v) key)) else h.property v key

def filledUp (items : Sequence Value) (length : Nat) : Sequence Value :=
  items ++ .replicate (length - items.size) .undefined

/-- The length that a value stored as the length of an array stands for. -/
def lengthOf (h : Heap) (v : Value) : Except Fault Nat := do
  let length ← h.toNumber v
  if ← length.isNaN then throw (.of .arrayLength)
  if length.lt (.int 0) then throw (.of .arrayLength)
  let n ← length.truncate
  if !length.eq (.int n) || n ≥ maxArrayLength then throw (.of .arrayLength)
  return n.toNat

def setLength (h : Heap) (a : Addr) (items : Sequence Value) (length : Nat) : Heap :=
  if length ≤ items.size then h.setItems a (items.take length) false
  else h.setItems a (filledUp items length) true

/-- Store a copy of a value as an item. The array has its new length by the time the copy is made. -/
def storeItem (h : Heap) (a : Addr) (items : Sequence Value) (i : Nat) (v : Value) : Except Fault Heap := do
  if i ≥ maxArrayLength then throw (.of .arrayLength)
  let h := if i < items.size then h else h.setItems a (filledUp items (i + 1)) true
  let (v, h) := h.copy v
  return h.modifyItems a (·.set i v) false

def storeProperty (h : Heap) (object : Value) (key : Text) (v : Value) : Except Fault Heap :=
  if object.isNullish then throw (.of (.nullishWrite (nullishText object) key))
  else match h.array? object, h.object? object with
    | some (a, items), _ =>
      if key.isDigits then do h.storeItem a items (← indexOf key) v
      else if key = "length".codes then do return h.setLength a items (← h.lengthOf v)
      else return h
    | none, some (a, entries) =>
      let (v, h) := h.copy v
      return h.set a (.object (entries.put key v))
    | none, none => return h

end Stepwise.Heap
