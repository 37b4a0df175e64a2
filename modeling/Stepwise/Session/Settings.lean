import Stepwise.Machine.Call
import Stepwise.Number.Seed

/-!
# Settings

What can be tuned about a session. Some settings are read whenever they are needed, others only when a program is
loaded. No setting is checked before it is read, so one that makes no sense breaks down only then.
-/

namespace Stepwise

structure Settings where
  /-- the greatest number of steps of one run to the end -/
  maxSteps : Limit
  /-- the greatest number of seconds of one run to the end -/
  maxTime : Limit
  maxCallDepth : Limit
  maxCallSteps : Limit
  maxOutputLines : Limit
  /-- the greatest number of checkpoints that are kept -/
  maxHistory : Limit
  strict : Bool
  seed : Seed

/-- Settings to change; the others stay. -/
structure SettingsPatch where
  maxSteps : Option Limit
  maxTime : Option Limit
  maxCallDepth : Option Limit
  maxCallSteps : Option Limit
  maxOutputLines : Option Limit
  maxHistory : Option Limit
  strict : Option Bool
  seed : Option Seed

namespace Settings

/-- The number of steps that a run may take if nothing else is said. -/
def standardSteps : Int := 10000

def standardCallDepth : Int := 50

/-- The number of instructions inside the calls of one step if nothing else is said. -/
def standardCallSteps : Int := 10000

def standardOutputLines : Int := 1000

def standardSeed : Int := 0

def standard : Settings where
  maxSteps := .int standardSteps
  maxTime := .num (.float 5)
  maxCallDepth := .int standardCallDepth
  maxCallSteps := .int standardCallSteps
  maxOutputLines := .int standardOutputLines
  maxHistory := .int 10000
  strict := false
  seed := .int standardSeed

def apply (s : Settings) (p : SettingsPatch) : Settings where
  maxSteps := p.maxSteps.getD s.maxSteps
  maxTime := p.maxTime.getD s.maxTime
  maxCallDepth := p.maxCallDepth.getD s.maxCallDepth
  maxCallSteps := p.maxCallSteps.getD s.maxCallSteps
  maxOutputLines := p.maxOutputLines.getD s.maxOutputLines
  maxHistory := p.maxHistory.getD s.maxHistory
  strict := p.strict.getD s.strict
  seed := p.seed.getD s.seed

def limits (s : Settings) : Limits := ⟨s.maxCallDepth, s.maxCallSteps, s.strict⟩

/-- Whether a run is out of time from the start. A run takes no time that counts, so only a negative limit is passed. -/
def outOfTime (s : Settings) : Except Breakdown Bool :=
  return (← s.maxTime.number ">".codes "float".codes).lt (.int 0)

/-- The bound of the history; one that is negative or does not fit into 64 bits breaks down. -/
def historyBound (s : Settings) : Except Breakdown Nat :=
  match s.maxHistory.integer? with
  | some n =>
    if n < -(pow2 63) ∨ pow2 63 ≤ n then .error .historySize
    else if n < 0 then .error .negativeHistory
    else .ok n.toNat
  | none => .error .historyType

end Settings

def SettingsPatch.none : SettingsPatch :=
  ⟨Option.none, Option.none, Option.none, Option.none, Option.none, Option.none, Option.none, Option.none⟩

end Stepwise
