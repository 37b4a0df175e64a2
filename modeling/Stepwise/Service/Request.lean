import Stepwise.Json.Basic
import Stepwise.Number.Numeral

/-!
# Checking requests

A request body has to be an object with a text under `code` and, if it likes, settings. Numbers and switches may be given
in other forms that leave no doubt, such as a text of digits. Everything that is wrong with a body is found in one go.
-/

namespace Stepwise

inductive Defect
  | missing
  | notText
  /-- a text with half of a surrogate pair where a number or a truth value is read from it -/
  | brokenText
  | notObject
  | notInteger
  /-- a text that is no integer -/
  | integerText
  | fractional
  | integerSize
  | notFinite
  | notNumber
  /-- a text that is no number -/
  | numberText
  | notBool
  /-- a text or an integer that stands for no truth value -/
  | boolText
  deriving DecidableEq

def Defect.name : Defect → Text
  | .missing => "missing".codes
  | .notText => "string_type".codes
  | .brokenText => "string_unicode".codes
  | .notObject => "model_type".codes
  | .notInteger => "int_type".codes
  | .integerText => "int_parsing".codes
  | .fractional => "int_from_float".codes
  | .integerSize => "int_parsing_size".codes
  | .notFinite => "finite_number".codes
  | .notNumber => "float_type".codes
  | .numberText => "float_parsing".codes
  | .notBool => "bool_type".codes
  | .boolText => "bool_parsing".codes

structure BodyError where
  path : List Text
  defect : Defect

namespace Field

def isDigits (s : Text) : Bool := !s.isEmpty && s.all Text.isAsciiDigit

/-- What follows leading zeros, of which `last` is the last. Underscores among them are dropped with them. A minus sign
may follow; before a point or at the end the last one stays. -/
def afterZeros (last : CodePoint) : Text → Option Text
  | [] => some [last]
  | c :: rest =>
    if c = '0'.toNat ∨ c = '_'.toNat then afterZeros c rest
    else if Text.isAsciiDigit c ∨ c = '-'.toNat then some (c :: rest)
    else if c = '.'.toNat then some (last :: c :: rest)
    else none

/-- The text without leading zeros. It has to start with a digit. -/
def dropZeros? : Text → Option Text
  | c :: rest =>
    if c = '0'.toNat then afterZeros c rest
    else if Text.isAsciiDigit c then some (c :: rest)
    else none
  | [] => none

/-- The text without a point and the zeros after it, of which there has to be one. -/
def dropFraction (s : Text) : Text :=
  let fraction := (s.dropWhile (· != '.'.toNat)).drop 1
  if !fraction.isEmpty && fraction.all (· == '0'.toNat) then s.takeWhile (· != '.'.toNat) else s

def hasDoubleUnderscore : Text → Bool
  | c :: d :: rest => (c == '_'.toNat && d == '_'.toNat) || hasDoubleUnderscore (d :: rest)
  | _ => false

/-- The text without its underscores, which may stand neither at the ends nor side by side. -/
def dropUnderscores? (s : Text) : Option Text :=
  if s.head? = some '_'.toNat ∨ s.getLast? = some '_'.toNat ∨ hasDoubleUnderscore s then none
  else some (s.filter (· != '_'.toNat))

/-- The plain form of an integer: a minus sign or none, and digits of which the first is a zero only when it is alone.
The digits are limited like those of a literal. -/
def plainInteger? (s : Text) : Option Int := do
  let negative := s.head? = some '-'.toNat
  let digits := if negative then s.tail else s
  if !isDigits digits || (digits.head? = some '0'.toNat && digits.length ≠ 1) || digitLimit < digits.length then none
  let n : Int := (Numeral.natural? digits).getD 0
  return if negative then -n else n

/-- The plain form of what stands for an integer: there may be blanks around it, a sign and zeros before it, underscores
inside it, and zeros after a point. -/
def integerForm? (s : Text) : Option Text := do
  let (negative, body) := Numeral.splitSign (Numeral.stripMargin s)
  let digits ← dropUnderscores? (dropFraction (← dropZeros? body))
  return if negative then '-'.toNat :: digits else digits

/-- Whether the text begins as an integer in its plain form that has too many digits. -/
def isOverlong (s : Text) : Bool :=
  let digits := (if s.head? = some '-'.toNat then s.tail else s).takeWhile Text.isAsciiDigit
  digits.head? ≠ some '0'.toNat && digitLimit < digits.length

/-- The integer that a text stands for. Its size is an error of its own only in the plain form. -/
def integerOfText (s : Text) : Except Defect Int :=
  if isOverlong s then .error .integerSize
  else match (integerForm? s).bind plainInteger? with
    | some n => .ok n
    | none => .error .integerText

def integerOfFloat (x : Float) : Except Defect Int :=
  match Double.parts? x with
  | none => .error .notFinite
  | some p =>
    if !p.isIntegral then .error .fractional
    else if p.truncate.natAbs < pow2 63 then .ok p.truncate
    else .error .integerSize

def integer : Json → Except Defect Int
  | .num (.int n) => .ok n
  | .num (.float x) => integerOfFloat x
  | .bool b => .ok (if b then 1 else 0)
  | .text s => integerOfText s
  | _ => .error .notInteger

def doubleOfAscii? (s : Text) : Option Float := if s.all (· < 128) then Numeral.double? s else none

/-- The double that a text stands for: there may be blanks around it, or underscores inside it, but not both. -/
def doubleOfText? (s : Text) : Option Float :=
  match doubleOfAscii? (Numeral.stripMargin s) with
  | some x => some x
  | none => do doubleOfAscii? (← dropUnderscores? s)

def number : Json → Except Defect Float
  | .num n => match n.toFloat with
    | .ok x => .ok x
    | .error _ => .error .notNumber
  | .bool b => .ok (if b then 1 else 0)
  | .text s => match doubleOfText? s with
    | some x => .ok x
    | none => .error .numberText
  | _ => .error .notNumber

def boolTexts : List (Text × Bool) := [
  ("0".codes, false), ("off".codes, false), ("f".codes, false), ("false".codes, false), ("n".codes, false),
  ("no".codes, false), ("1".codes, true), ("on".codes, true), ("t".codes, true), ("true".codes, true),
  ("y".codes, true), ("yes".codes, true)]

def boolOfInteger (n : Int) : Except Defect Bool :=
  if n = 0 then .ok false else if n = 1 then .ok true
  else if -(pow2 63) ≤ n ∧ n < pow2 63 then .error .boolText else .error .notBool

def bool : Json → Except Defect Bool
  | .bool b => .ok b
  | .num (.int n) => boolOfInteger n
  | .num (.float x) => match integerOfFloat x with
    | .ok n => boolOfInteger n
    | .error _ => .error .notBool
  | .text s => match boolTexts.lookup (Numeral.lowerAscii s) with
    | some b => .ok b
    | none => .error .boolText
  | _ => .error .notBool

inductive Kind
  | integer
  | number
  | bool

def settings : List (Text × Kind) := [
  ("max_steps".codes, .integer), ("max_time_s".codes, .number), ("max_call_depth".codes, .integer),
  ("max_call_steps".codes, .integer), ("max_output_lines".codes, .integer), ("strict".codes, .bool),
  ("seed".codes, .integer)]

def isSurrogate (c : CodePoint) : Bool := 0xd800 ≤ c && c ≤ 0xdfff

def isBroken : Json → Bool
  | .text s => s.any isSurrogate
  | _ => false

def plain (kind : Kind) (data : Json) : Except Defect Json :=
  if isBroken data then .error .brokenText
  else match kind with
    | .integer => return .num (.int (← integer data))
    | .number => return .num (.float (← number data))
    | .bool => return .bool (← bool data)

end Field

/-- Parts of a body that were checked: the good ones, and the errors of the others. -/
structure Checked (α : Type) where
  value : α
  errors : List BodyError

/-- The settings of a body in their plain form. Those that are absent or null are left out, and unknown ones ignored. -/
def checkSettings (entries : List (Text × Json)) : Checked (List (Text × Json)) :=
  Field.settings.foldr (fun (name, kind) rest =>
    match entries.lookup name with
    | none | some .null => rest
    | some data => match Field.plain kind data with
      | .ok plain => { rest with value := (name, plain) :: rest.value }
      | .error defect => { rest with errors := ⟨["settings".codes, name], defect⟩ :: rest.errors }) ⟨[], []⟩

structure RunRequest where
  code : Text
  settings : List (Text × Json)

def checkCode (entries : List (Text × Json)) : Checked Text :=
  match entries.lookup "code".codes with
  | some (.text code) => ⟨code, []⟩
  | some _ => ⟨[], [⟨["code".codes], .notText⟩]⟩
  | none => ⟨[], [⟨["code".codes], .missing⟩]⟩

def checkRequested (entries : List (Text × Json)) : Checked (List (Text × Json)) :=
  match entries.lookup "settings".codes with
  | none | some .null => ⟨[], []⟩
  | some (.object settings) => checkSettings settings
  | some _ => ⟨[], [⟨["settings".codes], .notObject⟩]⟩

def pathLe : List Text → List Text → Bool
  | [], _ => true
  | _ :: _, [] => false
  | s :: rest, t :: others => if s = t then pathLe rest others else s.le t

/-- The order in which errors are listed: by path, then by name. -/
def BodyError.le (a b : BodyError) : Bool :=
  if a.path = b.path then a.defect.name.le b.defect.name else pathLe a.path b.path

def Checked.result {α : Type} (c : Checked α) : Except (List BodyError) α :=
  if c.errors.isEmpty then .ok c.value else .error (c.errors.mergeSort BodyError.le)

namespace RunRequest

def ofBody (body : Json) : Except (List BodyError) RunRequest :=
  match body with
  | .object entries =>
    let code := checkCode entries
    let settings := checkRequested entries
    Checked.result ⟨⟨code.value, settings.value⟩, code.errors ++ settings.errors⟩
  | _ => .error [⟨[], .notObject⟩]

def codeOfBody (body : Json) : Except (List BodyError) Text :=
  match body with
  | .object entries => (checkCode entries).result
  | _ => .error [⟨[], .notObject⟩]

end RunRequest

end Stepwise
