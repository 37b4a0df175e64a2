import Std.Data.TreeMap
import Stepwise.OrderedMap
import Stepwise.Text.Chars
import Stepwise.Value.Datum

/-!
# Values and the heap

Arrays and objects live in cells of a heap and are handled by reference, so that changing one shows wherever it is
referred to. Everything else is a value by itself. Cells are never freed: a new cell gets an address that was never
used, and a heap is an ordinary value that can be kept and returned to.
-/

namespace Stepwise

abbrev Addr := Nat

/-- A value: arrays and objects by reference. -/
inductive Value
  | undefined
  | null
  | bool (value : Bool)
  | num (value : Num)
  | text (value : Chars)
  | function (name : Text)
  | ref (addr : Addr)

instance : Inhabited Value := ⟨.undefined⟩

inductive Cell
  /-- the items of an array, and how many times it was lengthened -/
  | array (items : Sequence Value) (growths : Nat)
  /-- the properties of an object, in the order in which they were first stored -/
  | object (entries : OrderedMap Value)

/-- The cells in use, and the first address that was never used. -/
structure Heap where
  cells : Std.TreeMap Addr Cell
  next : Nat

namespace Value

def int (n : Int) : Value := .num (.int n)

def character (c : CodePoint) : Value := .text (.singleton c)

def isNullish : Value → Bool
  | .undefined | .null => true
  | _ => false

def isRef : Value → Bool
  | .ref _ => true
  | _ => false

def typeName : Value → Text
  | .undefined => "undefined".codes
  | .bool _ => "boolean".codes
  | .num _ => "number".codes
  | .text _ => "string".codes
  | .function _ => "function".codes
  | .null | .ref _ => "object".codes

def truthy : Value → Except Breakdown Bool
  | .undefined | .null => .ok false
  | .bool b => .ok b
  | .num n => if n.isZero then .ok false else return !(← n.isNaN)
  | .text s => .ok !s.isEmpty
  | .function _ | .ref _ => .ok true

end Value

namespace Heap

def empty : Heap := ⟨{}, 0⟩

instance : Inhabited Heap := ⟨empty⟩

def cell? (h : Heap) (a : Addr) : Option Cell := h.cells[a]?

def set (h : Heap) (a : Addr) (c : Cell) : Heap := { h with cells := h.cells.insert a c }

def alloc (h : Heap) (c : Cell) : Value × Heap := (.ref h.next, ⟨h.cells.insert h.next c, h.next + 1⟩)

def allocArray (h : Heap) (items : Sequence Value) : Value × Heap := h.alloc (.array items 0)

def allocObject (h : Heap) (entries : OrderedMap Value) : Value × Heap := h.alloc (.object entries)

def array? (h : Heap) : Value → Option (Addr × Sequence Value)
  | .ref a => match h.cell? a with
    | some (.array items _) => some (a, items)
    | _ => none
  | _ => none

def object? (h : Heap) : Value → Option (Addr × OrderedMap Value)
  | .ref a => match h.cell? a with
    | some (.object entries) => some (a, entries)
    | _ => none
  | _ => none

/-- Change the items of an array; `grown` tells whether it was lengthened. -/
def modifyItems (h : Heap) (a : Addr) (f : Sequence Value → Sequence Value) (grown : Bool) : Heap :=
  { h with cells := h.cells.modify a fun
    | .array items growths => .array (f items) (if grown then growths + 1 else growths)
    | c => c }

/-- Replace the items of an array; `grown` tells whether it was lengthened. -/
def setItems (h : Heap) (a : Addr) (items : Sequence Value) (grown : Bool) : Heap :=
  h.modifyItems a (fun _ => items) grown

def growths (h : Heap) (a : Addr) : Nat :=
  match h.cell? a with
  | some (.array _ n) => n
  | _ => 0

def readTo (h : Heap) : Nat → Value → Datum
  | _, .undefined => .undefined
  | _, .null => .null
  | _, .bool b => .bool b
  | _, .num n => .num n
  | _, .text s => .text s.toText
  | _, .function name => .function name
  | 0, .ref _ => .undefined
  | depth + 1, .ref a =>
    match h.cell? a with
    | some (.array items _) => .array (items.toList.map (h.readTo depth))
    | some (.object entries) => .object (entries.toList.map fun (k, v) => (k, h.readTo depth v))
    | none => .undefined

/-- The value with all it holds. No value holds itself, so that it is not nested deeper than there are cells. -/
def read (h : Heap) (v : Value) : Datum := h.readTo h.next v

mutual

def load (h : Heap) : Datum → Value × Heap
  | .undefined => (.undefined, h)
  | .null => (.null, h)
  | .bool b => (.bool b, h)
  | .num n => (.num n, h)
  | .text s => (.text s.packed, h)
  | .function name => (.function name, h)
  | .array items =>
    let (vs, h) := loadItems h items
    h.allocArray (.ofList vs)
  | .object entries =>
    let (es, h) := loadEntries h entries
    h.allocObject (.ofList es)

def loadItems (h : Heap) : List Datum → List Value × Heap
  | [] => ([], h)
  | d :: rest =>
    let (v, h) := load h d
    let (vs, h) := loadItems h rest
    (v :: vs, h)

def loadEntries (h : Heap) : List (Text × Datum) → List (Text × Value) × Heap
  | [] => ([], h)
  | (k, d) :: rest =>
    let (v, h) := load h d
    let (es, h) := loadEntries h rest
    ((k, v) :: es, h)

end

end Heap

end Stepwise
