import Stepwise.Text.Basic

/-!
# Tokens

A token is a piece of the source with its class and the line and column where it starts, both counted from zero.
-/

namespace Stepwise

inductive TokenKind
  | number
  | string
  | template
  | name
  | operator
  | punctuation
  | newline
  /-- a character that starts no token, or the quote of a text that is never closed -/
  | stray
  /-- the end of the source -/
  | eof
  deriving DecidableEq

structure Token where
  kind : TokenKind
  text : Text
  line : Nat
  col : Nat

namespace Token

/-- The words and signs that the grammar looks for: names, operators and punctuation. -/
def isWord (t : Token) (word : Text) : Bool :=
  match t.kind with
  | .name | .operator | .punctuation => t.text == word
  | _ => false

def isName (t : Token) (word : Text) : Bool := t.kind == .name && t.text == word

def isMark (t : Token) (mark : Text) : Bool := t.kind == .punctuation && t.text == mark

/-- A string or template without its quotes. -/
def body (t : Token) : Text := t.text.tail.dropLast

def lastLine (t : Token) : Nat := t.line + t.text.count 10

end Token

end Stepwise
