import Stepwise.Text.Digit
import Stepwise.Token.Basic

/-!
# Scanning

The source is cut into tokens from left to right; blanks and comments are dropped and newlines are kept. No source is
refused: what starts no token becomes a stray token of one character. The scan walks the source one code point at a
time, and counts down the length of the lexeme it is inside of, so that it ends with the source.
-/

namespace Stepwise

namespace Lexeme

def lineFeed : CodePoint := 10

def isSpace (c : CodePoint) : Bool := c == 32 || c == 9 || c == 13 || c == 12 || c == 11

/-- The length of a block comment after its opening: through the first closing, or all of the source. -/
def blockLength : Text → Nat
  | [] => 0
  | c :: rest => if c = '*'.toNat ∧ rest.head? = some '/'.toNat then 2 else 1 + blockLength rest

/-- The length of the comment at the start, zero if there is none. -/
def commentLength : Text → Nat
  | c :: d :: rest =>
    if c = '/'.toNat ∧ d = '/'.toNat then 2 + (rest.takeWhile (· ≠ lineFeed)).length
    else if c = '/'.toNat ∧ d = '*'.toNat then 2 + blockLength rest
    else 0
  | _ => 0

def digitCount (s : Text) : Nat := (s.takeWhile Text.isDecimal).length

/-- The length of an exponent: a mark, an optional sign and at least one digit. -/
def exponentLength : Text → Nat
  | c :: rest =>
    if c = 'e'.toNat ∨ c = 'E'.toNat then
      let sign := match rest with
        | d :: _ => if d = '+'.toNat ∨ d = '-'.toNat then 1 else 0
        | [] => 0
      let digits := digitCount (rest.drop sign)
      if digits = 0 then 0 else 1 + sign + digits
    else 0
  | [] => 0

/-- The length of digits with an optional point, without the exponent. -/
def mantissaLength (s : Text) : Nat :=
  let whole := digitCount s
  match s.drop whole with
  | c :: rest =>
    let fraction := digitCount rest
    if c = '.'.toNat ∧ (0 < whole ∨ 0 < fraction) then whole + 1 + fraction else whole
  | [] => whole

/-- The length of the number at the start, zero if there is none. -/
def numberLength (s : Text) : Nat :=
  let mantissa := mantissaLength s
  if mantissa = 0 then 0 else mantissa + exponentLength (s.drop mantissa)

/-- The length through the closing quote, after the opening one. A backslash takes the next code point with it; only a
text that may span lines holds line feeds, escaped or not. -/
def quotedLength? (quote : CodePoint) (spansLines : Bool) : Text → Option Nat
  | [] => none
  | c :: rest =>
    if c = quote then some 1
    else if c = lineFeed ∧ !spansLines then none
    else if c = '\\'.toNat then
      match rest with
      | [] => none
      | d :: rest =>
        if d = lineFeed ∧ !spansLines then none else (quotedLength? quote spansLines rest).map (· + 2)
    else (quotedLength? quote spansLines rest).map (· + 1)

def startsName (c : CodePoint) : Bool := Text.isAsciiLetter c || c == '_'.toNat || c == '$'.toNat

def continuesName (c : CodePoint) : Bool := startsName c || Text.isAsciiDigit c

/-- The operators; one that begins with another comes before it. -/
def operators : List Text :=
  ["...", "===", "!==", "**=", "**", "==", "!=", "<=", ">=", "&&", "||", "??", "++", "--", "+=", "-=", "*=", "/=",
    "%=", "=>", "+", "-", "*", "/", "%", "<", ">", "=", "!", "?"].map String.codes

def marks : Text := "()\x7b\x7d[],;.:".codes

/-- The class and length of the lexeme at the start of a non-empty source. Blanks and comments have no class. -/
def next (s : Text) : Option TokenKind × Nat :=
  match s with
  | [] => (none, 0)
  | c :: rest =>
    let comment := commentLength s
    let number := numberLength s
    if comment ≠ 0 then (none, comment)
    else if c = lineFeed then (some .newline, 1)
    else if isSpace c then (none, (s.takeWhile isSpace).length)
    else if number ≠ 0 then (some .number, number)
    else if c = '"'.toNat ∨ c = '\''.toNat then
      match quotedLength? c false rest with
      | some n => (some .string, n + 1)
      | none => (some .stray, 1)
    else if c = 0x60 then
      match quotedLength? c true rest with
      | some n => (some .template, n + 1)
      | none => (some .stray, 1)
    else if startsName c then (some .name, (s.takeWhile continuesName).length)
    else
      match operators.find? (·.isPrefixOf s) with
      | some op => (some .operator, op.length)
      | none => if c ∈ marks then (some .punctuation, 1) else (some .stray, 1)

end Lexeme

namespace Token

/-- The tokens of the source from a given line and column on. The next `skip` code points belong to a lexeme that has
been dealt with. -/
def scanFrom : Text → (skip line col : Nat) → List Token
  | [], _, line, col => [⟨.eof, [], line, col⟩]
  | c :: rest, skip, line, col =>
    let line' := if c = Lexeme.lineFeed then line + 1 else line
    let col' := if c = Lexeme.lineFeed then 0 else col + 1
    match skip with
    | skip + 1 => scanFrom rest skip line' col'
    | 0 =>
      match Lexeme.next (c :: rest) with
      | (some kind, n) => ⟨kind, (c :: rest).take n, line, col⟩ :: scanFrom rest (n - 1) line' col'
      | (none, n) => scanFrom rest (n - 1) line' col'

def scan (source : Text) : List Token := scanFrom source 0 0 0

end Token

end Stepwise
