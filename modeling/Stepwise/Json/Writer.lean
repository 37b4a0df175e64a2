import Stepwise.Json.Basic
import Stepwise.Number.Format

/-!
# Writing JSON

One line of JSON, with a blank after commas and colons.
-/

namespace Stepwise.Json

def numberText : Num → Text
  | .int n => Text.ofInt n
  | .float x => Num.formatFloat x

mutual

/-- The data as one line in front of `rest`, with texts written by `quote`. -/
def renderOnto (quote : Text → Text) : Json → (rest : Text) → Text
  | .null, rest => "null".codes ++ rest
  | .bool b, rest => (if b then "true".codes else "false".codes) ++ rest
  | .num n, rest => numberText n ++ rest
  | .text s, rest => quote s ++ rest
  | .array items, rest => "[".codes ++ renderItems quote items ("]".codes ++ rest)
  | .object entries, rest => "\x7b".codes ++ renderEntries quote entries ("\x7d".codes ++ rest)

def renderItems (quote : Text → Text) : List Json → (rest : Text) → Text
  | [], rest => rest
  | item :: items, rest =>
    renderOnto quote item (if items.isEmpty then rest else ", ".codes ++ renderItems quote items rest)

def renderEntries (quote : Text → Text) : List (Text × Json) → (rest : Text) → Text
  | [], rest => rest
  | (key, value) :: entries, rest =>
    quote key ++ ": ".codes ++
      renderOnto quote value (if entries.isEmpty then rest else ", ".codes ++ renderEntries quote entries rest)

end

def render (quote : Text → Text) (data : Json) : Text := renderOnto quote data []

def line (data : Json) : Text := render Text.quoted data

end Stepwise.Json
