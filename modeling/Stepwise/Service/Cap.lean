import Stepwise.Session.Settings

/-!
# Capped settings

Clients may ask for settings, but not for more than a session has by itself. What they ask for is converted to numbers
first; a value that is no number breaks the request down.
-/

namespace Stepwise

namespace Json

/-- The integer that data is converted to: doubles are cut toward zero, texts are read. -/
def toInteger : Json → Except Breakdown Int
  | .bool b => .ok (if b then 1 else 0)
  | .num n => n.truncate
  | .text s => Numeral.readInt s
  | data => .error (.integerFrom data.typeName)

def toDouble : Json → Except Breakdown Float
  | .bool b => .ok (if b then 1 else 0)
  | .num n => n.toFloat
  | .text s => match Numeral.readFloat? s with
    | some x => .ok x
    | none => .error (.notNumber s)
  | data => .error (.numberFrom data.typeName)

/-- Whether data counts as true: what is zero or empty does not. -/
def toBool : Json → Bool
  | .null => false
  | .bool b => b
  | .num n => !n.isZero
  | .text s => !s.isEmpty
  | .array items => !items.isEmpty
  | .object entries => !entries.isEmpty

end Json

/-- The settings that a request may choose. The switches are absent when it chooses nothing. -/
structure Caps where
  maxSteps : Int
  maxTime : Float
  maxCallDepth : Int
  maxCallSteps : Int
  maxOutputLines : Int
  strict : Option Bool
  seed : Option Int

namespace Caps

def timeCeiling : Float := 5

def standard : Caps where
  maxSteps := Settings.standardSteps
  maxTime := timeCeiling
  maxCallDepth := Settings.standardCallDepth
  maxCallSteps := Settings.standardCallSteps
  maxOutputLines := Settings.standardOutputLines
  strict := none
  seed := none

/-- The integer asked for under a name, or the ceiling if that is lower. -/
def lowered (entries : List (Text × Json)) (name : String) (ceiling : Int) : Except Breakdown Int :=
  match entries.lookup name.codes with
  | some data => return min (← data.toInteger) ceiling
  | none => .ok ceiling

/-- The time limit asked for, or the ceiling if that is lower. NaN stays. -/
def loweredTime (entries : List (Text × Json)) : Except Breakdown Float :=
  match entries.lookup "max_time_s".codes with
  | some data => do
    let x ← data.toDouble
    return if timeCeiling < x then timeCeiling else x
  | none => .ok timeCeiling

def ofEntries (entries : List (Text × Json)) : Except Breakdown Caps := do
  if entries.isEmpty then return standard
  let maxSteps ← lowered entries "max_steps" standard.maxSteps
  let maxTime ← loweredTime entries
  let maxCallDepth ← lowered entries "max_call_depth" standard.maxCallDepth
  let maxCallSteps ← lowered entries "max_call_steps" standard.maxCallSteps
  let maxOutputLines ← lowered entries "max_output_lines" standard.maxOutputLines
  let strict := ((entries.lookup "strict".codes).map Json.toBool).getD Settings.standard.strict
  let seed ← match entries.lookup "seed".codes with
    | some data => data.toInteger
    | none => .ok Settings.standardSeed
  return ⟨maxSteps, maxTime, maxCallDepth, maxCallSteps, maxOutputLines, some strict, some seed⟩

def toPatch (c : Caps) : SettingsPatch where
  maxSteps := some (.int c.maxSteps)
  maxTime := some (.num (.float c.maxTime))
  maxCallDepth := some (.int c.maxCallDepth)
  maxCallSteps := some (.int c.maxCallSteps)
  maxOutputLines := some (.int c.maxOutputLines)
  maxHistory := none
  strict := c.strict
  seed := c.seed.map .int

def toSettings (c : Caps) : Settings := Settings.standard.apply c.toPatch

end Caps

end Stepwise
