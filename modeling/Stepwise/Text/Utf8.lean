import Stepwise.Breakdown

/-!
# UTF-8

Code points as bytes: each byte but the first takes six bits of a code point, the lowest ones last. The first byte takes
what is left and tells how many bytes there are. Surrogates have no form in bytes.
-/

namespace Stepwise.Text

def isSurrogate (c : CodePoint) : Bool := 0xd800 ≤ c && c ≤ 0xdfff

def utf8Of (c : CodePoint) : List UInt8 :=
  let tail (unit : Nat) : UInt8 := UInt8.ofNat (0x80 + c / unit % 0x40)
  if c < 0x80 then [UInt8.ofNat c]
  else if c < 0x800 then [UInt8.ofNat (0xc0 + c / 0x40), tail 1]
  else if c < 0x10000 then [UInt8.ofNat (0xe0 + c / 0x1000), tail 0x40, tail 1]
  else [UInt8.ofNat (0xf0 + c / 0x40000), tail 0x1000, tail 0x40, tail 1]

/-- The bytes of a text. The first surrogates, as many as stand side by side, break it down. -/
def utf8 (s : Text) : Except Breakdown (List UInt8) :=
  match s.dropWhile (!isSurrogate ·) with
  | [] => .ok (s.flatMap utf8Of)
  | first :: rest =>
    let start := (s.takeWhile (!isSurrogate ·)).length
    .error (.loneSurrogates first start (start + 1 + (rest.takeWhile isSurrogate).length))

end Stepwise.Text
