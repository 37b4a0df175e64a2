import Stepwise.Text.Basic

/-!
# Pieces of a template

The body of a template alternates between plain text and interpolations `${…}`, which end at the matching brace.
-/

namespace Stepwise

inductive TemplatePiece
  | text (raw : Text)
  | code (source : Text)
  /-- an interpolation that is never closed -/
  | unclosed

namespace TemplatePiece

/-- Where the walk over the body is: in plain text, or inside an interpolation with braces still to be closed. -/
inductive Place
  | text
  | code (depth : Nat)

/-- The plain text collected so far, last code point first, as a piece unless it is empty. -/
def flush (collected : Text) (rest : List TemplatePiece) : List TemplatePiece :=
  if collected.isEmpty then rest else .text collected.reverse :: rest

def splitFrom : Text → Place → (collected : Text) → List TemplatePiece
  | [], .text, collected => flush collected []
  | [], .code _, _ => [.unclosed]
  | c :: rest, .text, collected =>
    match rest with
    | [] => flush (c :: collected) []
    | d :: rest' =>
      if c = '\\'.toNat then splitFrom rest' .text (d :: c :: collected)
      else if c = '$'.toNat ∧ d = 0x7b then flush collected (splitFrom rest' (.code 0) [])
      else splitFrom (d :: rest') .text (c :: collected)
  | c :: rest, .code depth, collected =>
    if c = 0x7b then splitFrom rest (.code (depth + 1)) (c :: collected)
    else if c = 0x7d then
      match depth with
      | 0 => .code collected.reverse :: splitFrom rest .text []
      | depth + 1 => splitFrom rest (.code depth) (c :: collected)
    else splitFrom rest (.code depth) (c :: collected)

def split (body : Text) : List TemplatePiece := splitFrom body .text []

end TemplatePiece

end Stepwise
