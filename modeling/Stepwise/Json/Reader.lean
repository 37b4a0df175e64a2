import Stepwise.Json.Basic
import Stepwise.Number.Numeral
import Stepwise.OrderedMap

/-!
# Reading JSON

A strict reader with two extensions: `NaN` and the infinities are numbers, and a lone surrogate may be written as an
escape. Of several entries with one key the last one counts, at the place of the first.
-/

namespace Stepwise

inductive JsonError
  | byteOrderMark
  | expectedValue
  | extraData
  | expectedKey
  | expectedColon
  | expectedComma
  | controlCharacter
  | unterminatedText
  | invalidEscape
  | invalidCodeEscape
  /-- an integer with more digits than are read -/
  | longInteger
  /-- the reader was given too little fuel -/
  | exhausted
  deriving DecidableEq

def JsonError.message : JsonError → Text
  | byteOrderMark => "Unexpected UTF-8 BOM (decode using utf-8-sig)".codes
  | expectedValue => "Expecting value".codes
  | extraData => "Extra data".codes
  | expectedKey => "Expecting property name enclosed in double quotes".codes
  | expectedColon => "Expecting ':' delimiter".codes
  | expectedComma => "Expecting ',' delimiter".codes
  | controlCharacter => "Invalid control character at".codes
  | unterminatedText => "Unterminated string starting at".codes
  | invalidEscape => "Invalid \\escape".codes
  | invalidCodeEscape => "Invalid \\uXXXX escape".codes
  | longInteger => "Integer too long".codes
  | exhausted => "Nesting too deep".codes

namespace Json

def isSpace (c : CodePoint) : Bool := c == 32 || c == 9 || c == 10 || c == 13

def skipSpace (s : Text) : Text := s.dropWhile isSpace

def letterOf? (c : CodePoint) : Option CodePoint :=
  if c = '"'.toNat ∨ c = '\\'.toNat ∨ c = '/'.toNat then some c
  else if c = 'b'.toNat then some 8
  else if c = 'f'.toNat then some 12
  else if c = 'n'.toNat then some 10
  else if c = 'r'.toNat then some 13
  else if c = 't'.toNat then some 9
  else none

def isHighSurrogate (c : CodePoint) : Bool := 0xd800 ≤ c && c ≤ 0xdbff

def isLowSurrogate (c : CodePoint) : Bool := 0xdc00 ≤ c && c ≤ 0xdfff

def joinSurrogates (high low : CodePoint) : CodePoint := 0x10000 + (high - 0xd800) * 0x400 + (low - 0xdc00)

/-- The escape after `\u`: four hexadecimal digits that do not end the text, and for a high surrogate the low one that
may follow as an escape of its own. Also tells how many code points it takes. -/
def codeEscape (s : Text) : Except JsonError (CodePoint × Nat) := do
  let after := s.drop 4
  if after.isEmpty then throw .invalidCodeEscape
  let some c := Text.hexNumber? (s.take 4) | throw .invalidCodeEscape
  if isHighSurrogate c && !(after.drop 6).isEmpty && after.take 2 == "\\u".codes then
    let some d := Text.hexNumber? ((after.drop 2).take 4) | throw .invalidCodeEscape
    return if isLowSurrogate d then (joinSurrogates c d, 10) else (c, 4)
  return (c, 4)

/-- The escape after a backslash, and how many code points it takes. -/
def escape : Text → Except JsonError (CodePoint × Nat)
  | [] => throw .unterminatedText
  | c :: rest =>
    if c = 'u'.toNat then do
      let (code, n) ← codeEscape rest
      return (code, n + 1)
    else match letterOf? c with
      | some code => return (code, 1)
      | none => throw .invalidEscape

/-- A text after its opening quote, and what follows it. `read` holds the code points read so far, last one first, and
the next `skip` ones belong to an escape that has been dealt with. -/
def readTextFrom : (read : Text) → Text → (skip : Nat) → Except JsonError (Text × Text)
  | _, [], _ => throw .unterminatedText
  | read, _ :: rest, skip + 1 => readTextFrom read rest skip
  | read, c :: rest, 0 =>
    if c = '"'.toNat then return (read.reverse, rest)
    else if c = '\\'.toNat then do
      let (code, n) ← escape rest
      readTextFrom (code :: read) rest n
    else if c < 32 then throw .controlCharacter
    else readTextFrom (c :: read) rest 0

/-- The length of the digits at the start, a zero alone or several without one in front; none when there are none. -/
def wholeLength? : Text → Option Nat
  | [] => none
  | c :: rest =>
    if c = '0'.toNat then some 1
    else if Text.isAsciiDigit c then some (1 + (rest.takeWhile Text.isAsciiDigit).length)
    else none

/-- The length of the point and the digits at the start, or zero. -/
def fractionLength : Text → Nat
  | [] => 0
  | c :: rest =>
    let digits := (rest.takeWhile Text.isAsciiDigit).length
    if c = '.'.toNat ∧ 0 < digits then 1 + digits else 0

def exponentLength : Text → Nat
  | [] => 0
  | c :: rest =>
    if c = 'e'.toNat ∨ c = 'E'.toNat then
      let sign := if rest.head? = some '-'.toNat ∨ rest.head? = some '+'.toNat then 1 else 0
      let digits := ((rest.drop sign).takeWhile Text.isAsciiDigit).length
      if 0 < digits then 1 + sign + digits else 0
    else 0

/-- The length of the number at the start and whether it is written as a double; none when there is no number. -/
def numberLength? (s : Text) : Option (Nat × Bool) := do
  let sign := if s.head? = some '-'.toNat then 1 else 0
  let body := s.drop sign
  let whole ← wholeLength? body
  let fraction := fractionLength (body.drop whole)
  let exponent := exponentLength (body.drop (whole + fraction))
  return (sign + whole + fraction + exponent, 0 < fraction || 0 < exponent)

def numberOf (s : Text) (isDouble : Bool) : Except JsonError Num :=
  if isDouble then .ok ((Numeral.parse? s).elim .nan fun n => .float n.toFloat)
  else match Numeral.readInt s with
    | .ok n => .ok (.int n)
    | .error _ => .error .longInteger

def words : List (Text × Json) := [
  ("null".codes, .null), ("true".codes, .bool true), ("false".codes, .bool false), ("NaN".codes, .num .nan),
  ("Infinity".codes, .num (.infinity false)), ("-Infinity".codes, .num (.infinity true))]

mutual

def readValue : Nat → Text → Except JsonError (Json × Text)
  | 0, _ => throw .exhausted
  | _ + 1, [] => throw .expectedValue
  | fuel + 1, c :: rest => do
    if c = '"'.toNat then
      let (s, after) ← readTextFrom [] rest 0
      return (.text s, after)
    else if c = 0x7b then
      let rest := skipSpace rest
      if rest.head? = some 0x7d then return (.object [], rest.tail)
      let (entries, after) ← readEntries fuel rest
      return (.object (OrderedMap.ofList entries).toList, after)
    else if c = '['.toNat then
      let rest := skipSpace rest
      if rest.head? = some ']'.toNat then return (.array [], rest.tail)
      let (items, after) ← readItems fuel rest
      return (.array items, after)
    else
      match words.find? (·.1.isPrefixOf (c :: rest)) with
      | some (word, value) => return (value, (c :: rest).drop word.length)
      | none =>
        match numberLength? (c :: rest) with
        | some (n, isDouble) => return (.num (← numberOf ((c :: rest).take n) isDouble), (c :: rest).drop n)
        | none => throw .expectedValue

def readItems : Nat → Text → Except JsonError (List Json × Text)
  | 0, _ => throw .exhausted
  | fuel + 1, s => do
    let (item, after) ← readValue fuel s
    match skipSpace after with
    | c :: rest =>
      if c = ']'.toNat then return ([item], rest)
      else if c = ','.toNat then
        let (items, after) ← readItems fuel (skipSpace rest)
        return (item :: items, after)
      else throw .expectedComma
    | [] => throw .expectedComma

def readEntries : Nat → Text → Except JsonError (List (Text × Json) × Text)
  | 0, _ => throw .exhausted
  | fuel + 1, s => do
    if s.head? ≠ some '"'.toNat then throw .expectedKey
    let (key, after) ← readTextFrom [] s.tail 0
    let after := skipSpace after
    if after.head? ≠ some ':'.toNat then throw .expectedColon
    let (value, after) ← readValue fuel (skipSpace after.tail)
    match skipSpace after with
    | c :: rest =>
      if c = 0x7d then return ([(key, value)], rest)
      else if c = ','.toNat then
        let (entries, after) ← readEntries fuel (skipSpace rest)
        return ((key, value) :: entries, after)
      else throw .expectedComma
    | [] => throw .expectedComma

end

/-- The data that a text holds. Every call consumes a code point, so the length bounds the nesting. -/
def parse (s : Text) : Except JsonError Json := do
  if s.head? = some 0xfeff then throw .byteOrderMark
  let (value, after) ← readValue (2 * s.length + 2) (skipSpace s)
  if !(skipSpace after).isEmpty then throw .extraData
  return value

end Json

end Stepwise
