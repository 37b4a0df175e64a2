import Stepwise.Number.Power

/-!
# The random source

The Mersenne twister with 624 words of 32 bits. A source is seeded by an integer, whose magnitude is spread over the
words, and gives doubles from zero up to one with 53 random bits.
-/

namespace Stepwise

/-- A twister: its words, and how many of them have been given out since they were last renewed. -/
structure Twister where
  words : Array UInt32
  used : Nat

namespace Twister

def size : Nat := 624

def word (words : Array UInt32) (i : Nat) : UInt32 := words.getD i 0

def seedWords (seed : UInt32) : Array UInt32 :=
  (List.range (size - 1)).foldl (fun (words : Array UInt32) (i : Nat) =>
    let p := word words i
    words.push ((1812433253 : UInt32) * (p ^^^ (p >>> 30)) + UInt32.ofNat (i + 1))) #[seed]

/-- A position in the state while a key is mixed in: the words, and the index of the next one. -/
structure Mixing where
  words : Array UInt32
  index : Nat

/-- Go to the next word; after the last one the first is overwritten and passed over. -/
def Mixing.advance (m : Mixing) (words : Array UInt32) : Mixing :=
  if m.index + 1 < size then ⟨words, m.index + 1⟩ else ⟨words.setIfInBounds 0 (word words (size - 1)), 1⟩

def Mixing.addKey (m : Mixing) (key : UInt32) (position : Nat) : Mixing :=
  let p := word m.words (m.index - 1)
  let w := (word m.words m.index ^^^ ((p ^^^ (p >>> 30)) * 1664525)) + key + UInt32.ofNat position
  m.advance (m.words.setIfInBounds m.index w)

def Mixing.settle (m : Mixing) : Mixing :=
  let p := word m.words (m.index - 1)
  let w := (word m.words m.index ^^^ ((p ^^^ (p >>> 30)) * 1566083941)) - UInt32.ofNat m.index
  m.advance (m.words.setIfInBounds m.index w)

/-- The 32-bit words of a number, lowest first; `fuel` bounds their number. -/
def keyWords : Nat → Nat → List UInt32
  | 0, _ => []
  | fuel + 1, n =>
    UInt32.ofNat (n % pow2 32) :: if n / pow2 32 = 0 then [] else keyWords fuel (n / pow2 32)

def ofSeed (seed : Int) : Twister :=
  let key := (keyWords (seed.natAbs.log2 / 32 + 1) seed.natAbs).toArray
  let rounds := max size key.size
  let start : Mixing := ⟨seedWords 19650218, 1⟩
  let mixed := (List.range rounds).foldl (fun m i => m.addKey (key.getD (i % key.size) 0) (i % key.size)) start
  let settled := (List.range (size - 1)).foldl (fun m _ => m.settle) mixed
  ⟨settled.words.setIfInBounds 0 0x80000000, size⟩

def renew (words : Array UInt32) : Array UInt32 :=
  (List.range size).foldl (fun (ws : Array UInt32) (i : Nat) =>
    let y := (word ws i &&& 0x80000000) ||| (word ws ((i + 1) % size) &&& 0x7fffffff)
    let twist : UInt32 := if y &&& 1 = 0 then 0 else 0x9908b0df
    ws.setIfInBounds i (word ws ((i + 397) % size) ^^^ (y >>> 1) ^^^ twist)) words

def temper (y : UInt32) : UInt32 :=
  let y := y ^^^ (y >>> 11)
  let y := y ^^^ ((y <<< 7) &&& 0x9d2c5680)
  let y := y ^^^ ((y <<< 15) &&& 0xefc60000)
  y ^^^ (y >>> 18)

def nextWord (t : Twister) : UInt32 × Twister :=
  let t := if t.used < size then t else ⟨renew t.words, 0⟩
  (temper (word t.words t.used), { t with used := t.used + 1 })

def next (t : Twister) : Float × Twister :=
  let (a, t) := t.nextWord
  let (b, t) := t.nextWord
  let bits := (a >>> 5).toNat * pow2 26 + (b >>> 6).toNat
  (Float.ofNat bits / Float.ofNat (pow2 53), t)

end Twister

end Stepwise
