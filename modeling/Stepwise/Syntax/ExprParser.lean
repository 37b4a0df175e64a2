import Stepwise.Number.Numeral
import Stepwise.Syntax.Expr
import Stepwise.Syntax.Reader
import Stepwise.Syntax.Template
import Stepwise.Token.Escape
import Stepwise.Token.Scan

/-!
# Parsing expressions

Recursive descent with one level number per operator. The functions are recursive in a fuel argument, which bounds how
deep they call each other; `Expr.fuelFor` gives enough for a list of tokens, since every few calls consume a token
and the text inside a template is shorter than the template.
-/

namespace Stepwise

namespace Expr

open Reader

def literal? (word : Text) : Option Expr :=
  if word = "true".codes then some (.bool true)
  else if word = "false".codes then some (.bool false)
  else if word = "null".codes then some .null
  else if word = "undefined".codes then some .undefined
  else none

def numeralValue (s : Text) : Except SyntaxError Num := (Num.ofLiteral s).mapError .numeral

def unaryOf? (t : Token) : Option UnaryOp :=
  match t.kind with
  | .operator =>
    if t.text = "!".codes then some .not
    else if t.text = "-".codes then some .minus
    else if t.text = "+".codes then some .plus
    else none
  | .name => if t.text = "typeof".codes then some .typeof else none
  | _ => none

def connectiveOf? (t : Token) : Option Connective :=
  if t.kind = .operator then Connective.ofSpelling? t.text else none

mutual

/-- An expression: a conditional or anything that binds tighter. -/
def parseWhole : Nat → Reader Expr
  | 0 => throw .exhausted
  | fuel + 1 => do
    let test ← parseLevel fuel 1
    if ← accept "?".codes then
      let yes ← parseWhole fuel
      expect ":".codes
      let no ← parseWhole fuel
      return .cond test yes no
    else return test

def parseLevel : Nat → Nat → Reader Expr
  | 0, _ => throw .exhausted
  | fuel + 1, level => do
    let left ← parseUnary fuel
    parseConnected fuel level left

def parseConnected : Nat → Nat → Expr → Reader Expr
  | 0, _, _ => throw .exhausted
  | fuel + 1, level, left => do
    match (← peek).bind connectiveOf? with
    | none => return left
    | some c =>
      if c.level < level then return left
      let _ ← advance
      let right ← parseLevel fuel c.rightLevel
      parseConnected fuel level (c.apply left right)

def parseUnary : Nat → Reader Expr
  | 0 => throw .exhausted
  | fuel + 1 => do
    match (← peek).bind unaryOf? with
    | some op =>
      let _ ← advance
      return .unary op (← parseUnary fuel)
    | none => parsePostfix fuel

def parsePostfix : Nat → Reader Expr
  | 0 => throw .exhausted
  | fuel + 1 => do
    let e ← parsePrimary fuel
    parseSuffixes fuel e

def parseSuffixes : Nat → Expr → Reader Expr
  | 0, _ => throw .exhausted
  | fuel + 1, e => do
    if ← accept ".".codes then
      match ← advance with
      | some t => if t.kind = .name then parseSuffixes fuel (.member e t.text) else fail .expectedProperty
      | none => fail .expectedProperty
    else if ← accept "[".codes then
      let key ← parseWhole fuel
      expect "]".codes
      parseSuffixes fuel (.index e key)
    else if ← accept "(".codes then
      let args ← parseItems fuel ")".codes
      parseSuffixes fuel (.call e args)
    else return e

def parseItems : Nat → Text → Reader (List Item)
  | 0, _ => throw .exhausted
  | fuel + 1, closer => do
    if ← accept closer then return []
    let spread ← accept "...".codes
    let value ← parseWhole fuel
    if !(← nextIs closer) then expect ",".codes
    let rest ← parseItems fuel closer
    return (if spread then .spread value else .single value) :: rest

def parsePrimary : Nat → Reader Expr
  | 0 => throw .exhausted
  | fuel + 1 => do
    match ← peek with
    | none => fail .unexpected
    | some t =>
      match t.kind with
      | .number =>
        let _ ← advance
        return .num (← numeralValue t.text)
      | .string =>
        let _ ← advance
        return .text (.ofText t.body.unescape)
      | .template =>
        let _ ← advance
        return .template (← parseParts fuel (TemplatePiece.split t.body))
      | .name =>
        match literal? t.text with
        | some e =>
          let _ ← advance
          return e
        | none =>
          if isReserved t.text then fail .unsupportedExpression
          let _ ← advance
          if ← nextIs "=>".codes then fail .arrowFunction
          return .name t.text
      | .stray => throw .invalidToken
      | _ =>
        if ← accept "(".codes then
          let e ← parseWhole fuel
          expect ")".codes
          if ← nextIs "=>".codes then fail .arrowFunction
          return e
        else if ← accept "[".codes then
          return .array (← parseItems fuel "]".codes)
        else if ← accept "\x7b".codes then
          return .object (← parseEntries fuel)
        else fail .unexpected

def parseEntries : Nat → Reader (List Entry)
  | 0 => throw .exhausted
  | fuel + 1 => do
    if ← accept "\x7d".codes then return []
    let entry ← parseEntry fuel
    if !(← nextIs "\x7d".codes) then expect ",".codes
    let rest ← parseEntries fuel
    return entry :: rest

def parseEntry : Nat → Reader Entry
  | 0 => throw .exhausted
  | fuel + 1 => do
    if ← accept "...".codes then return .spread (← parseWhole fuel)
    match ← advance with
    | none => fail .invalidKey
    | some t =>
      if t.isMark "[".codes then
        let key ← parseWhole fuel
        expect "]".codes
        expect ":".codes
        return .computed key (← parseWhole fuel)
      let key ← match t.kind with
        | .name | .number => pure t.text
        | .string => pure t.body.unescape
        | _ => fail .invalidKey
      if ← accept ":".codes then return .property key (← parseWhole fuel)
      if t.kind = .name ∧ !isReserved t.text then return .property key (.name key)
      fail (.expected ":".codes)

def parseParts : Nat → List TemplatePiece → Reader (List Part)
  | 0, _ => throw .exhausted
  | _ + 1, [] => return []
  | fuel + 1, piece :: pieces => do
    let part ← match piece with
      | .text raw => pure (Part.text (.ofText raw.unescape))
      | .code source => do pure (Part.code (← parseSource fuel source))
      | .unclosed => throw .unterminatedTemplate
    let rest ← parseParts fuel pieces
    return part :: rest

def parseSource : Nat → Text → Except SyntaxError Expr
  | 0, _ => throw .exhausted
  | fuel + 1, source => do
    let tokens := significant (Token.scan source)
    if tokens.isEmpty then throw .emptyExpression
    let (e, rest) ← (parseWhole fuel).run tokens
    let _ ← expectEnd.run rest
    return e

end

def fuelFor (tokens : List Token) : Nat := 16 * tokens.foldl (fun n t => n + t.text.length + 1) 0 + 16

def read : Reader Expr := do parseWhole (fuelFor (← get))

/-- Read a primary expression with what follows it, but no operators. -/
def readPostfix : Reader Expr := do parsePostfix (fuelFor (← get))

def parse (source : Text) : Except SyntaxError Expr := parseSource (16 * source.length + 32) source

end Expr

end Stepwise
