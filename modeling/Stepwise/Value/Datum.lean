import Stepwise.Json.Basic
import Stepwise.Number.Format
import Stepwise.Number.Numeral

/-!
# Plain data

A datum is a value of the language with everything it holds, as a tree. Conversions that look inside a value are
defined here; they can only break down on an integer that no double is near to.
-/

namespace Stepwise

inductive Datum
  | undefined
  | null
  | bool (value : Bool)
  | num (value : Num)
  | text (value : Text)
  | function (name : Text)
  | array (items : List Datum)
  | object (entries : List (Text × Datum))

instance : Inhabited Datum := ⟨.undefined⟩

namespace Datum

def isNullish : Datum → Bool
  | .undefined | .null => true
  | _ => false

mutual

def toText : Datum → Except Breakdown Text
  | .undefined => .ok "undefined".codes
  | .null => .ok "null".codes
  | .bool b => .ok (if b then "true".codes else "false".codes)
  | .num n => n.format
  | .text s => .ok s
  | .function name => .ok ("function ".codes ++ name ++ "() \x7b [code] \x7d".codes)
  | .array items => return Text.join ",".codes (← itemTexts items)
  | .object _ => .ok "[object Object]".codes

/-- The texts of the items of an array, where nothing stands for an undefined or null item. -/
def itemTexts : List Datum → Except Breakdown (List Text)
  | [] => .ok []
  | item :: rest => do
    let s ← if item.isNullish then .ok [] else item.toText
    return s :: (← itemTexts rest)

end

def toNumber : Datum → Except Breakdown Num
  | .bool b => .ok (.int (if b then 1 else 0))
  | .num n => .ok n
  | .null => .ok (.int 0)
  | .text s => .ok (Num.ofText s)
  | .array [] => .ok (.int 0)
  | .array [item] => return Num.ofText (← (Datum.array [item]).toText)
  | _ => .ok .nan

mutual

/-- The value in JSON; none for what JSON does not have. Inside arrays that becomes null, inside objects it is left
out, and so do NaN and the infinities become null. -/
def stringify : Datum → Except Breakdown (Option Text)
  | .undefined => .ok none
  | .function _ => .ok none
  | .null => .ok (some "null".codes)
  | .bool b => .ok (some (if b then "true".codes else "false".codes))
  | .num (.int n) => return some (← (Num.int n).format)
  | .num (.float x) => .ok (some (if x.isNaN || x.isInf then "null".codes else Num.formatFloat x))
  | .text s => .ok (some s.quoted)
  | .array items => return some ("[".codes ++ Text.join ",".codes (← stringifyItems items) ++ "]".codes)
  | .object entries => return some ("\x7b".codes ++ Text.join ",".codes (← stringifyEntries entries) ++ "\x7d".codes)

def stringifyItems : List Datum → Except Breakdown (List Text)
  | [] => .ok []
  | item :: rest => do
    let s ← item.stringify
    return s.getD "null".codes :: (← stringifyItems rest)

def stringifyEntries : List (Text × Datum) → Except Breakdown (List Text)
  | [] => .ok []
  | (key, value) :: rest => do
    let s ← value.stringify
    let rest ← stringifyEntries rest
    return match s with
      | some s => (key.quoted ++ ":".codes ++ s) :: rest
      | none => rest

end

/-- How the console shows a value: arrays and objects in JSON, anything else as text. -/
def consoleText (d : Datum) : Except Breakdown Text :=
  match d with
  | .array _ | .object _ => return (← d.stringify).getD []
  | d => d.toText

def displayText (d : Datum) : Except Breakdown Text :=
  match d with
  | .function _ => .ok "ƒ()".codes
  | d => d.consoleText

def fingerprint (d : Datum) : Except Breakdown (Option Text) := d.stringify

/-- Whether two values count as different when changes are looked for. -/
def differs (d e : Datum) : Except Breakdown Bool := return (← d.fingerprint) != (← e.fingerprint)

mutual

def ofJson : Json → Datum
  | .null => .null
  | .bool b => .bool b
  | .num n => .num n
  | .text s => .text s
  | .array items => .array (ofJsonItems items)
  | .object entries => .object (ofJsonEntries entries)

def ofJsonItems : List Json → List Datum
  | [] => []
  | item :: rest => ofJson item :: ofJsonItems rest

def ofJsonEntries : List (Text × Json) → List (Text × Datum)
  | [] => []
  | (key, value) :: rest => (key, ofJson value) :: ofJsonEntries rest

end

mutual

/-- The value with every double in it normalised; exact integers stay exact. -/
def settled : Datum → Datum
  | .num (.float x) => .num (Num.ofFloat x)
  | .array items => .array (settledItems items)
  | .object entries => .object (settledEntries entries)
  | d => d

def settledItems : List Datum → List Datum
  | [] => []
  | item :: rest => settled item :: settledItems rest

def settledEntries : List (Text × Datum) → List (Text × Datum)
  | [] => []
  | (key, value) :: rest => (key, settled value) :: settledEntries rest

end

end Datum

end Stepwise
