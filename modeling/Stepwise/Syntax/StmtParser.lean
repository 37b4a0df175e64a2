import Stepwise.Syntax.ExprParser
import Stepwise.Syntax.Stmt

/-!
# Parsing statements

The first word of a segment decides what kind of statement it is. A header ends with the opening brace of its block.
-/

namespace Stepwise

namespace Stmt

open Reader

def declKind? (word : Text) : Option DeclKind :=
  if word = "let".codes then some .letKind
  else if word = "const".codes then some .constKind
  else if word = "var".codes then some .varKind
  else none

def jump? (word : Text) : Option Jump :=
  if word = "break".codes then some .leave
  else if word = "continue".codes then some .again
  else none

def compound? (sign : Text) : Option ArithOp :=
  [("+=".codes, ArithOp.add), ("-=".codes, .sub), ("*=".codes, .mul), ("/=".codes, .div), ("%=".codes, .rem),
    ("**=".codes, .pow)].lookup sign

def update? (sign : Text) : Option Bool :=
  if sign = "++".codes then some true else if sign = "--".codes then some false else none

def acceptUpdate : Reader (Option Bool) := do
  match (← peek).bind fun t => if t.kind = .operator then update? t.text else none with
  | some increment =>
    let _ ← advance
    return some increment
  | none => return none

def toTarget (e : Expr) : Reader Target :=
  match e.toTarget? with
  | some t => return t
  | none => throw .invalidTarget

def toTargets : List Item → Reader (List Target)
  | [] => return []
  | .single e :: rest => do
    let t ← toTarget e
    return t :: (← toTargets rest)
  | .spread _ :: _ => throw .invalidTarget

/-- An assignment, an update, a compound assignment or a bare expression. -/
def readAction : Reader Action := do
  if let some increment ← acceptUpdate then
    return .update increment (← toTarget (← Expr.readPostfix))
  let e ← Expr.read
  if ← accept "=".codes then
    let value ← Expr.read
    match e with
    | .array items => return .destructure (← toTargets items) value
    | e => return .assign (← toTarget e) value
  match (← peek).bind fun t => if t.kind = .operator then compound? t.text else none with
  | some op =>
    let _ ← advance
    let target ← toTarget e
    return .compound op target (← Expr.read)
  | none =>
    match ← acceptUpdate with
    | some increment => return .update increment (← toTarget e)
    | none => return .evaluate e

/-- The names of a pattern through its closing bracket; `fuel` bounds their number. -/
def readPatternNames : Nat → Reader (List (Option Text))
  | 0 => throw .exhausted
  | fuel + 1 => do
    if ← accept "]".codes then return []
    if ← accept ",".codes then return none :: (← readPatternNames fuel)
    let name ← bindingName
    if !(← nextIs "]".codes) then expect ",".codes
    return some name :: (← readPatternNames fuel)

def readBinder : Reader Binder := do
  if ← accept "[".codes then return .pattern (← readPatternNames ((← get).length + 1))
  else return .name (← bindingName)

def readDeclarators (kind : DeclKind) : Nat → Reader (List Declarator)
  | 0 => throw .exhausted
  | fuel + 1 => do
    let binder ← readBinder
    let mut init := none
    if ← accept "=".codes then
      init := some (← Expr.read)
    else
      match binder with
      | .pattern _ => fail .missingInitializer
      | .name _ => if kind = .constKind then fail .missingInitializer
    let rest ← if ← accept ",".codes then readDeclarators kind fuel else pure []
    return ⟨binder, init⟩ :: rest

def readDeclaration (kind : DeclKind) : Reader (List Declarator) := do
  readDeclarators kind ((← get).length + 1)

/-- The parameters of a function through the closing parenthesis; `fuel` bounds their number. -/
def readParams : Nat → Reader (List Text)
  | 0 => throw .exhausted
  | fuel + 1 => do
    if ← accept ")".codes then return []
    let name ← bindingName
    if !(← nextIs ")".codes) then expect ",".codes
    return name :: (← readParams fuel)

def readTest : Reader Expr := do
  expect "(".codes
  let test ← Expr.read
  expect ")".codes
  return test

def readOtherwise (closes : Bool) : Reader Stmt := do
  expect "else".codes
  let test ← if ← accept "if".codes then pure (some (← readTest)) else pure none
  expect "\x7b".codes
  return .otherwise test closes

def readFunction : Reader Stmt := do
  let name ← bindingName
  expect "(".codes
  let params ← readParams ((← get).length + 1)
  expect "\x7b".codes
  return .function name params

def readReturned : Reader (Option Expr) := do
  if ← atEnd then return none else return some (← Expr.read)

def declarationOf? (t : Token) : Option DeclKind := declKind? t.text

/-- Whether the tokens begin like a loop over a collection, after the parenthesis. -/
def looksLikeEach (tokens : List Token) : Bool :=
  let named := if (tokens.head?.bind declarationOf?).isSome then tokens.tail else tokens
  match named with
  | t :: u :: _ => t.kind = .name && (u.text == "of".codes || u.text == "in".codes)
  | _ => false

def readEach : Reader Stmt := do
  let decl := (← peek).bind declarationOf?
  if decl.isSome then let _ ← advance
  let name ← bindingName
  let mode := match ← advance with
    | some t => if t.text = "of".codes then EachMode.items else .keys
    | none => .keys
  let collection ← Expr.read
  expect ")".codes
  expect "\x7b".codes
  return .loopEach decl name mode collection

def readForInit : Reader (Option ForInit) := do
  if ← nextIs ";".codes then return none
  match (← peek).bind declarationOf? with
  | some kind =>
    let _ ← advance
    return some (.declare kind (← readDeclaration kind))
  | none => return some (.act (← readAction))

def readFor : Reader Stmt := do
  expect "(".codes
  if looksLikeEach (← get) then readEach
  else
    let init ← readForInit
    expect ";".codes
    let test ← if ← nextIs ";".codes then pure none else pure (some (← Expr.read))
    expect ";".codes
    let update ← if ← nextIs ")".codes then pure none else pure (some (← readAction))
    expect ")".codes
    expect "\x7b".codes
    return .loopFor init test update

/-- A conditional, after the word `if`: the header of a block, or a guarded statement on the same line. -/
def readBranch : Reader Stmt := do
  let test ← readTest
  if ← accept "\x7b".codes then return .branch test
  let word := ((← peek).map (·.text)).getD []
  if word = "return".codes then
    let _ ← advance
    return .guarded test (.ret (← readReturned))
  match jump? word with
  | some j =>
    let _ ← advance
    return .guarded test (.jump j)
  | none => return .guarded test (.act (← readAction))

/-- The statement that a name opens, with the name already consumed; none when the word opens no statement of its
own. -/
def keyword? (word : Text) : Option (Reader Stmt) :=
  if word = "function".codes then some readFunction
  else if word = "return".codes then some (return .ret (← readReturned))
  else if word = "for".codes then some readFor
  else if word = "while".codes then some do
    let test ← readTest
    expect "\x7b".codes
    return .loopWhile test
  else if word = "if".codes then some readBranch
  else match declKind? word, jump? word with
    | some kind, _ => some (return .declare kind (← readDeclaration kind))
    | none, some j => some (return .jump j)
    | none, none => none

def isForeign (word : Text) : Bool :=
  isReserved word && (Expr.literal? word).isNone && word != "typeof".codes

def readOpen : Reader Stmt := do
  let first ← peek
  let word := (first.filter (·.kind = .name)).map (·.text)
  if word = some "else".codes then readOtherwise false
  else
    match word.bind keyword? with
    | some rest =>
      let _ ← advance
      rest
    | none =>
      match word.filter isForeign with
      | some w => throw (.unsupportedStatement w)
      | none => if ← accept "\x7b".codes then return .block else return .act (← readAction)

def readWhole : Reader Stmt := do
  if ← atEnd then return .noop
  if ← accept "\x7d".codes then
    if ← atEnd then return .close
    if ← nextIs "else".codes then
      let s ← readOtherwise true
      expectEnd
      return s
    fail .unexpectedAfterBrace
  let s ← readOpen
  expectEnd
  return s

def parse (segment : List Token) : Except SyntaxError Stmt :=
  match readWhole.run (significant segment) with
  | .ok (s, _) => .ok s
  | .error e => .error e

end Stmt

end Stepwise
