import Stepwise.Builtin.Argument
import Stepwise.Value.Property

/-!
# Functions of collections

Keys, values and entries of objects, arrays and texts, and new arrays from old ones.
-/

namespace Stepwise.Collection

def indices (length : Nat) : List Text := (List.range length).map Text.ofNat

/-- The keys of a value: those of an object, or the indices of an array or a text. -/
def keys (v : Value) : Exec (List Text) := do
  let h ← Exec.heap
  match v, h.array? v, h.object? v with
  | _, some (_, items), _ => return indices items.size
  | _, _, some (_, entries) => return entries.keys
  | .text s, _, _ => return indices s.size
  | v, _, _ => if v.isNullish then Exec.fail .notObject else return []

def characters (s : Chars) : Sequence Value := s.map .character

/-- Copies of the values of an object, or of the items of an array or a text. Items of an array are copied as one. -/
def values (v : Value) : Exec (Sequence Value) := do
  let h ← Exec.heap
  match v, h.array? v, h.object? v with
  | _, some (_, items), _ => Exec.withHeap (·.copyTogether items)
  | _, _, some (_, entries) => return .ofList (← Exec.withHeap (·.copyEach entries.values))
  | .text s, _, _ => return characters s
  | v, _, _ => if v.isNullish then Exec.fail .notObject else return .empty

def entries (v : Value) : Exec (List Value) := do
  let ks ← keys v
  let vs ← values v
  (ks.zip vs.toList).mapM fun (k, v) => Exec.newArray (.ofList [.text k.packed, v])

def claimedLength (v : Value) : Exec Nat := do
  let length ← Exec.toNumber v
  if (← length.isNaN) || length.lt (.int 0) then return 0
  if !length.lt (.int Heap.maxArrayLength) then Exec.fail .arrayLength
  return (← length.truncate).toNat

/-- The items that a new array is made from: copies of the items of an array, the characters of a text, or as many
undefined ones as an object with a length claims. -/
def itemsFrom (source : Value) : Exec (Sequence Value) := do
  let h ← Exec.heap
  match source, h.array? source, h.object? source with
  | _, some (_, items), _ => Exec.withHeap (·.copyTogether items)
  | _, _, some (_, entries) => match entries.get? "length".codes with
    | some length => return .replicate (← claimedLength length) .undefined
    | none => return .empty
  | .text s, _, _ => return characters s
  | _, _, _ => return .empty

/-- A new array from the items of a value, each passed with its index through a function if one is given. -/
def arrayFrom (invoke : Callback) (source mapper : Value) : Exec Value := do
  let items ← itemsFrom source
  match mapper with
  | .undefined => Exec.newArray items
  | mapper =>
    let f ← Argument.function mapper
    Exec.newArray (.ofList (← items.toList.zipIdx.mapM fun (v, i) => invoke f [v, .int i]))

end Stepwise.Collection
