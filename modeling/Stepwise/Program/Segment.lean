import Stepwise.Token.Basic

/-!
# Segments

A segment is the stretch of tokens that makes up one statement. Segments end at newlines and semicolons outside all
brackets, after a brace that opens a block, and around a brace that closes one.
-/

namespace Stepwise

/-- The tokens of one statement; `opens` tells whether the last of them opens a block. -/
structure Segment where
  tokens : List Token
  opens : Bool

namespace Segment

def headerWords : List Text := ["if", "for", "while", "else", "function", "\x7d"].map String.codes

/-- Whether a brace after these tokens, given last first, opens a block: they are empty, or a header that is complete
but for its brace. -/
def isHeader (current : List Token) : Bool :=
  match current.getLast?, current.head? with
  | some first, some last =>
    headerWords.contains first.text && (last.text == ")".codes || last.text == "else".codes)
  | _, _ => true

/-- Whether the next token that is not a newline is an opening brace. -/
def braceFollows (rest : List Token) : Bool :=
  match rest.find? (·.kind != .newline) with
  | some t => t.isMark "\x7b".codes
  | none => false

/-- The segment collected so far, last token first, in front of the others unless it is empty. -/
def flush (current : List Token) (opens : Bool) (rest : List Segment) : List Segment :=
  if current.isEmpty then rest else ⟨current.reverse, opens⟩ :: rest

/-- Cutting the rest of a token stream: `current` holds the tokens of the segment so far, last first, and `depth`
counts the brackets that are open inside it. -/
def cutFrom : List Token → (current : List Token) → (depth : Nat) → List Segment
  | [], current, _ => flush current false []
  | t :: rest, current, depth =>
    match t.kind with
    | .eof => flush current false []
    | .newline =>
      -- a header whose brace stands on a following line waits for it
      if depth = 0 ∧ !(!current.isEmpty && isHeader current && braceFollows rest) then
        flush current false (cutFrom rest [] 0)
      else cutFrom rest current depth
    | .punctuation =>
      if t.text = ";".codes ∧ depth = 0 then flush current false (cutFrom rest [] 0)
      else if t.text = "(".codes ∨ t.text = "[".codes then cutFrom rest (t :: current) (depth + 1)
      else if t.text = ")".codes ∨ t.text = "]".codes then cutFrom rest (t :: current) (depth - 1)
      else if t.text = "\x7b".codes then
        if depth = 0 ∧ isHeader current then flush (t :: current) true (cutFrom rest [] 0)
        else cutFrom rest (t :: current) (depth + 1)
      else if t.text = "\x7d".codes then
        if 0 < depth then cutFrom rest (t :: current) (depth - 1)
        else if rest.head?.any (·.isName "else".codes) then flush current false (cutFrom rest [t] 0)
        else flush current false (flush [t] false (cutFrom rest [] 0))
      else cutFrom rest (t :: current) depth
    | _ => cutFrom rest (t :: current) depth

def cut (tokens : List Token) : List Segment := cutFrom tokens [] 0

def firstLine (s : Segment) : Nat := (s.tokens.head?.map (·.line)).getD 0

def lastLine (s : Segment) : Nat := (s.tokens.getLast?.map (·.lastLine)).getD 0

def closes (s : Segment) : Bool := s.tokens.head?.any (·.isMark "\x7d".codes)

/-- The text of the segment: its stretch of the line, or its tokens side by side when it spans several lines. -/
def text (lines : Array (Array CodePoint)) (s : Segment) : Text :=
  match s.tokens.head?, s.tokens.getLast? with
  | some first, some last =>
    if first.line = last.lastLine then
      ((lines.getD first.line #[]).extract first.col (last.col + last.text.length)).toList
    else Text.join " ".codes (s.tokens.map (·.text))
  | _, _ => []

end Segment

end Stepwise
