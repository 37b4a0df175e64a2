import Stepwise.Syntax.Error
import Stepwise.Token.Basic

/-!
# Reading tokens

A reader consumes tokens from the front of a list; the end of the list is the end of the text. Newlines are taken out
beforehand.
-/

namespace Stepwise

/-- A computation that consumes tokens and may fail with a syntax error. -/
abbrev Reader := StateT (List Token) (Except SyntaxError)

namespace Reader

/-- The tokens that the grammar sees: neither newlines nor the end mark. -/
def significant (tokens : List Token) : List Token := tokens.filter fun t => t.kind != .newline && t.kind != .eof

def peek : Reader (Option Token) := return (← get).head?

def advance : Reader (Option Token) := do
  let tokens ← get
  set tokens.tail
  return tokens.head?

def nextIs (word : Text) : Reader Bool := return (← peek).any (·.isWord word)

def fail {α : Type} (complaint : Complaint) : Reader α := do
  throw (.near complaint ((← peek).map (·.text)))

def expect (word : Text) : Reader Unit := do
  if ← nextIs word then let _ ← advance else fail (.expected word)

/-- Consume the given word or sign if it comes next, and tell whether it did. -/
def accept (word : Text) : Reader Bool := do
  if ← nextIs word then
    let _ ← advance
    return true
  else return false

def atEnd : Reader Bool := return (← get).isEmpty

def expectEnd : Reader Unit := do
  if !(← atEnd) then fail .unexpected

end Reader

/-- The words that are neither a binding name nor the start of an expression. -/
def reservedWords : List Text :=
  ["let", "const", "var", "function", "return", "if", "else", "for", "while", "break", "continue", "true", "false",
    "null", "undefined", "typeof", "new", "class", "switch", "case", "default", "do", "try", "catch", "finally",
    "throw", "delete", "void", "this", "await", "async", "yield", "import", "export"].map String.codes

def isReserved (word : Text) : Bool := reservedWords.contains word

def Reader.bindingName : Reader Text := do
  match ← Reader.peek with
  | some t =>
    if t.kind == .name && !isReserved t.text then
      let _ ← Reader.advance
      return t.text
    else Reader.fail .expectedName
  | none => Reader.fail .expectedName

end Stepwise
