import Stepwise.Number.Arithmetic
import Stepwise.Syntax.Expr
import Stepwise.Value.Heap

/-!
# Conversions and operators

What the operators of the language make of values of any type.
-/

namespace Stepwise

namespace Heap

/-- The text that a value is converted to. A text is that text itself, and what an object holds does not matter. -/
def toChars (h : Heap) (v : Value) : Except Breakdown Chars :=
  match v, h.object? v with
  | .text s, _ => .ok s
  | _, some _ => return (← (Datum.object []).toText).packed
  | v, none => return (← (h.read v).toText).packed

def toText (h : Heap) (v : Value) : Except Breakdown Text := return (← h.toChars v).toText

/-- The number that a value is converted to. What an object holds does not matter, nor what an array of two or more
items does. -/
def toNumber (h : Heap) (v : Value) : Except Breakdown Num :=
  match h.object? v, h.array? v with
  | some _, _ => (Datum.object []).toNumber
  | none, some (_, items) => if items.size ≤ 1 then (h.read v).toNumber else .ok .nan
  | none, none => (h.read v).toNumber

/-- Arrays, objects and functions become texts; other values stay. -/
def toPrimitive (h : Heap) (v : Value) : Except Breakdown Value :=
  match v with
  | .ref _ | .function _ => return .text (← h.toChars v)
  | v => .ok v

/-- The type of a value as the variables panel names it: arrays are called out. -/
def displayType (h : Heap) (v : Value) : Text := if (h.array? v).isSome then "Array".codes else v.typeName

end Heap

namespace Value

/-- Equality without conversion: arrays and objects by identity, numbers by value. -/
def strictEqual : Value → Value → Bool
  | .undefined, .undefined => true
  | .null, .null => true
  | .bool a, .bool b => a == b
  | .num a, .num b => a.eq b
  | .text a, .text b => a.same b
  | .function a, .function b => a == b
  | .ref a, .ref b => a == b
  | _, _ => false

def boolToNum : Value → Value
  | .bool b => .int (if b then 1 else 0)
  | v => v

end Value

namespace Heap

def refToText (h : Heap) (v : Value) : Except Breakdown Value :=
  match v with
  | .ref _ => return .text (← h.toChars v)
  | v => .ok v

/-- Equality with conversion. Values of different types are equal when both are nullish, or when they are after truth
values have become numbers and arrays and objects texts; a number and a text are compared as numbers. -/
def looseEqual (h : Heap) (a b : Value) : Except Breakdown Bool :=
  if a.typeName = b.typeName then .ok (a.strictEqual b)
  else if a.isNullish || b.isNullish then .ok (a.isNullish && b.isNullish)
  else do
    let a ← h.refToText a.boolToNum
    let b ← h.refToText b.boolToNum
    return match a, b with
      | .num m, .text s => m.eq (Num.ofText s.toText)
      | .text s, .num m => (Num.ofText s.toText).eq m
      | a, b => a.strictEqual b

def compareNumbers : CompareOp → Num → Num → Bool
  | .lt, a, b => a.lt b
  | .gt, a, b => b.lt a
  | .le, a, b => a.le b
  | .ge, a, b => b.le a

def compareOrder : CompareOp → Ordering → Bool
  | .lt, o => o.isLT
  | .gt, o => o.isGT
  | .le, o => o.isLE
  | .ge, o => o.isGE

/-- The comparison operators: two texts by code points, anything else as numbers. -/
def compareValues (h : Heap) (op : CompareOp) (a b : Value) : Except Breakdown Bool := do
  match ← h.toPrimitive a, ← h.toPrimitive b with
  | .text s, .text t => return compareOrder op (Chars.order s t)
  | a, b =>
    let m ← h.toNumber a
    let n ← h.toNumber b
    if ← m.isNaN then return false
    if ← n.isNaN then return false
    return compareNumbers op m n

/-- Addition: of texts as soon as one operand is a text, of numbers otherwise. -/
def addValues (h : Heap) (a b : Value) : Except Breakdown Value := do
  let a ← h.toPrimitive a
  let b ← h.toPrimitive b
  match a, b with
  | .text s, b => return .text (s ++ (← h.toChars b))
  | a, .text t => return .text ((← h.toChars a) ++ t)
  | a, b => return .num (← Num.add (← h.toNumber a) (← h.toNumber b))

def arithmetic (h : Heap) (op : ArithOp) (a b : Value) : Except Breakdown Value :=
  match op with
  | .add => h.addValues a b
  | .sub => return .num (← Num.sub (← h.toNumber a) (← h.toNumber b))
  | .mul => return .num (← Num.mul (← h.toNumber a) (← h.toNumber b))
  | .div => return .num (← Num.div (← h.toNumber a) (← h.toNumber b))
  | .rem => return .num (← Num.rem (← h.toNumber a) (← h.toNumber b))
  | .pow => return .num (← Num.pow (← h.toNumber a) (← h.toNumber b))

/-- The arithmetic operator with the given spelling. The operands are converted before a spelling without a meaning is
refused. -/
def arithmeticSpelled (h : Heap) (op : Text) (a b : Value) : Except Breakdown Value :=
  match Connective.ofSpelling? op with
  | some (.binary (.arith op)) => h.arithmetic op a b
  | _ => do
    let _ ← h.toNumber a
    let _ ← h.toNumber b
    throw (.unknownOperator op)

def binary (h : Heap) (op : BinaryOp) (a b : Value) : Except Breakdown Value :=
  match op with
  | .arith op => h.arithmetic op a b
  | .compare op => return .bool (← h.compareValues op a b)
  | .equal true negated => .ok (.bool (a.strictEqual b != negated))
  | .equal false negated => return .bool ((← h.looseEqual a b) != negated)

/-! ### Properties -/

/-- The text of a property key: an integral double is written as the integer it is. -/
def propertyKey (h : Heap) (v : Value) : Except Breakdown Text :=
  match v with
  | .num (.float x) => match Double.parts? x with
    | some p => if p.isIntegral then (Num.int p.truncate).format else (Num.float x).format
    | none => (Num.float x).format
  | v => h.toText v

def indexOf (key : Text) : Except Breakdown Nat := do return (← Numeral.readInt key).toNat

def sequenceProperty (length : Nat) (item? : Nat → Option Value) (key : Text) : Except Breakdown Value :=
  if key = "length".codes then .ok (.int length)
  else if key.isDigits then return (item? (← indexOf key)).getD .undefined
  else .ok .undefined

def property (h : Heap) (v : Value) (key : Text) : Except Breakdown Value :=
  match v with
  | .text s => sequenceProperty s.size (fun i => (s.get? i).map .character) key
  | v =>
    match h.array? v, h.object? v with
    | some (_, items), _ => sequenceProperty items.size items.get? key
    | none, some (_, entries) => .ok ((entries.get? key).getD .undefined)
    | none, none => .ok .undefined

end Heap

end Stepwise
