import Stepwise.Builtin.Collection

/-!
# Methods of texts, numbers and objects
-/

namespace Stepwise

inductive TextMethod
  | toLower
  | toUpper
  | trim
  | split
  | charAt
  | charCodeAt
  | substring
  | slice
  | indexOf
  | includes
  | startsWith
  | endsWith
  | repeated
  /-- fills the text up to a width, at its start or at its end -/
  | pad (atStart : Bool)
  | replace
  | concat
  | at
  | toText
  deriving DecidableEq

namespace TextMethod

def names : List (Text × TextMethod) := [
  ("toLowerCase".codes, .toLower), ("toUpperCase".codes, .toUpper), ("trim".codes, .trim), ("split".codes, .split),
  ("charAt".codes, .charAt), ("charCodeAt".codes, .charCodeAt), ("substring".codes, .substring),
  ("slice".codes, .slice), ("indexOf".codes, .indexOf), ("includes".codes, .includes),
  ("startsWith".codes, .startsWith), ("endsWith".codes, .endsWith), ("repeat".codes, .repeated),
  ("padStart".codes, .pad true), ("padEnd".codes, .pad false), ("replace".codes, .replace), ("concat".codes, .concat),
  ("at".codes, .at), ("toString".codes, .toText)]

def ofName? (name : Text) : Option TextMethod := names.lookup name

def maxLength : Nat := pow2 24

def character? (s : Chars) (index : Int) : Option CodePoint := if index < 0 then none else s.get? index.toNat

/-- The pieces between separators. Without a separator the text is the only piece; the empty one separates characters. -/
def runSplit (s : Chars) (args : List Value) : Exec Value := do
  match Argument.nth args 0 with
  | .undefined => Exec.newArray (.singleton (.text s))
  | v =>
    let separator ← Exec.toText v
    if separator.isEmpty then Exec.newArray (Collection.characters s)
    else Exec.newArray (.ofList ((s.toText.splitOn separator).map fun piece => .text piece.packed))

def runSlice (s : Chars) (args : List Value) : Exec Value := do
  let start ← Argument.integer args 0 0
  let stop ← Argument.integer args 1 s.size
  return .text (s.slice (Argument.position start s.size) (Argument.position stop s.size))

/-- A part between two positions in either order; they are moved into the text. -/
def runSubstring (s : Chars) (args : List Value) : Exec Value := do
  let start := min (← Argument.integer args 0 0).toNat s.size
  let stop := min (← Argument.integer args 1 s.size).toNat s.size
  return .text (s.slice (min start stop) (max start stop))

def runRepeat (s : Chars) (args : List Value) : Exec Value := do
  let count ← Argument.integer args 0 0
  if count < 0 then Exec.fail (.repeatCount count)
  if s.size * count > maxLength then Exec.fail .textLength
  if pow2 63 ≤ count then throw (.breakdown .repeatSize)
  return .text (s.times count.toNat)

def runPad (atStart : Bool) (s : Chars) (args : List Value) : Exec Value := do
  let width ← Argument.integer args 0 0
  let fill ← match Argument.nth args 1 with
    | .undefined => pure " ".codes.packed
    | v => Exec.toChars v
  if width ≤ s.size || fill.isEmpty then return .text s
  if width > maxLength then Exec.fail .textLength
  let missing := width.toNat - s.size
  let filling := fill.times (missing / fill.size) ++ fill.take (missing % fill.size)
  return .text (if atStart then filling ++ s else s ++ filling)

def run (m : TextMethod) (s : Chars) (args : List Value) : Exec Value := do
  match m with
  | .toLower => return .text s.toLower
  | .toUpper => return .text s.toUpper
  | .trim => return .text s.trim
  | .split => runSplit s args
  | .charAt => return .text (.ofList (character? s (← Argument.integer args 0 0)).toList)
  | .charCodeAt =>
    match character? s (← Argument.integer args 0 0) with
    | some c => return .int c
    | none => return .num .nan
  | .substring => runSubstring s args
  | .slice => runSlice s args
  | .indexOf =>
    let part ← Exec.toChars (Argument.nth args 0)
    let start := Argument.position (← Argument.integer args 1 0) s.size
    return .int (((Chars.find? part s start).map Int.ofNat).getD (-1))
  | .includes => return .bool (s.holds (← Exec.toChars (Argument.nth args 0)))
  | .startsWith => return .bool (s.startsWith (← Exec.toChars (Argument.nth args 0)))
  | .endsWith => return .bool (s.endsWith (← Exec.toChars (Argument.nth args 0)))
  | .repeated => runRepeat s args
  | .pad atStart => runPad atStart s args
  | .replace =>
    return .text (s.replaceFirst (← Exec.toChars (Argument.nth args 0)) (← Exec.toChars (Argument.nth args 1)))
  | .concat => return .text (s ++ .concat (← args.mapM Exec.toChars))
  | .at =>
    let index ← Argument.integer args 0 0
    match character? s (if index < 0 then index + s.size else index) with
    | some c => return .character c
    | none => return .undefined
  | .toText => return .text s

end TextMethod

inductive NumberMethod
  | toFixed
  | toText
  deriving DecidableEq

namespace NumberMethod

def ofName? (name : Text) : Option NumberMethod :=
  [("toFixed".codes, NumberMethod.toFixed), ("toString".codes, .toText)].lookup name

def runToFixed (n : Num) (args : List Value) : Exec Value := do
  let places ← Argument.integer args 0 0
  if places < 0 || 100 < places then Exec.fail .placesRange
  match Double.parts? (← n.toFloat) with
  | some p => return .text (Num.Parts.fixed p places.toNat).packed
  | none => return .text (← n.format).packed

def runToText (n : Num) (args : List Value) : Exec Value := do
  let radix ← Argument.integer args 0 10
  if radix = 10 then return .text (← n.format).packed
  if !(← n.isIntegral) then return .text (← n.format).packed
  if radix < 2 || 36 < radix then Exec.fail .radixRange
  return .text (Num.inRadix radix.toNat (← n.truncate)).packed

def run (m : NumberMethod) (n : Num) (args : List Value) : Exec Value :=
  match m with
  | .toFixed => runToFixed n args
  | .toText => runToText n args

end NumberMethod

inductive ObjectMethod
  | hasOwnProperty
  | toText
  deriving DecidableEq

namespace ObjectMethod

def ofName? (name : Text) : Option ObjectMethod :=
  [("hasOwnProperty".codes, ObjectMethod.hasOwnProperty), ("toString".codes, .toText)].lookup name

def run (m : ObjectMethod) (object : Value) (args : List Value) : Exec Value := do
  match m with
  | .hasOwnProperty =>
    let key ← Exec.toText (Argument.nth args 0)
    return .bool ((((← Exec.heap).object? object).map fun (_, entries) => entries.has key).getD false)
  | .toText => return .text (← Exec.toChars object)

end ObjectMethod

end Stepwise
