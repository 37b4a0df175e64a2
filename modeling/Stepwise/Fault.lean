import Stepwise.Json.Reader
import Stepwise.Limit
import Stepwise.Program.Basic

/-!
# Faults

What can go wrong while a program runs: an error that the program is told of, with its kind and place, or a breakdown
underneath it.
-/

namespace Stepwise

inductive ErrorKind
  | malformed
  | reference
  | type
  | range
  | unsupported
  | timeout
  | outputLimit
  deriving DecidableEq

def ErrorKind.name : ErrorKind → Text
  | malformed => "SyntaxError".codes
  | reference => "ReferenceError".codes
  | type => "TypeError".codes
  | range => "RangeError".codes
  | unsupported => "UnsupportedSyntax".codes
  | timeout => "Timeout".codes
  | outputLimit => "OutputLimit".codes

inductive Cause
  | malformed (error : SyntaxError)
  | unclosedBlock (block : UnclosedBlock)
  | illegalBreak
  | illegalContinue
  | json (error : JsonError)
  | undefinedName (name : Text)
  | constantAssignment
  /-- a property of undefined or null was read -/
  | nullishRead (object key : Text)
  /-- a property of undefined or null was stored -/
  | nullishWrite (object key : Text)
  | notFunction (what : Text)
  | notIterable (what : Text)
  | notObject
  | emptyReduce
  /-- a function of the program was called where no program is running -/
  | noProgram (name : Text)
  | callDepth
  | arrayLength
  | textLength
  | repeatCount (count : Int)
  | placesRange
  | radixRange
  | unsupported (statement : Text) (why : SyntaxError)
  /-- a call used up the steps of its instruction -/
  | callSteps (function : Text) (limit : Limit)
  | maxSteps
  | timeLimit
  | outputLimit (limit : Limit)

namespace Cause

def kind : Cause → ErrorKind
  | malformed _ | unclosedBlock _ | illegalBreak | illegalContinue | json _ => .malformed
  | undefinedName _ => .reference
  | constantAssignment | nullishRead _ _ | nullishWrite _ _ | notFunction _ | notIterable _ | notObject | emptyReduce
  | noProgram _ => .type
  | callDepth | arrayLength | textLength | repeatCount _ | placesRange | radixRange => .range
  | unsupported _ _ => .unsupported
  | callSteps _ _ | maxSteps | timeLimit => .timeout
  | outputLimit _ => .outputLimit

def message : Cause → Text
  | malformed e => e.message
  | unclosedBlock b => b.message
  | illegalBreak => "Illegal break statement".codes
  | illegalContinue => "Illegal continue statement: no surrounding iteration statement".codes
  | json e => "Unexpected token in JSON: ".codes ++ e.message
  | undefinedName name => name ++ " is not defined".codes
  | constantAssignment => "Assignment to constant variable.".codes
  | nullishRead object key =>
    "Cannot read properties of ".codes ++ object ++ " (reading '".codes ++ key ++ "')".codes
  | nullishWrite object key =>
    "Cannot set properties of ".codes ++ object ++ " (setting '".codes ++ key ++ "')".codes
  | notFunction what => what ++ " is not a function".codes
  | notIterable what => what ++ " is not iterable".codes
  | notObject => "Cannot convert undefined or null to object".codes
  | emptyReduce => "Reduce of empty array with no initial value".codes
  | noProgram name => name ++ " cannot be called outside a running program".codes
  | callDepth => "Maximum call stack size exceeded".codes
  | arrayLength => "Invalid array length".codes
  | textLength => "Invalid string length".codes
  | repeatCount count => "Invalid count value: ".codes ++ Text.ofInt count
  | placesRange => "toFixed() digits argument must be between 0 and 100".codes
  | radixRange => "toString() radix must be between 2 and 36".codes
  | unsupported statement _ => "Unsupported statement: ".codes ++ statement
  | callSteps function limit =>
    "Function '".codes ++ function ++ "' exceeded ".codes ++ limit.text
      ++ " steps (possible infinite loop)".codes
  | maxSteps => "Execution exceeded maximum steps (possible infinite loop)".codes
  | timeLimit => "Execution exceeded time limit (possible infinite loop)".codes
  | outputLimit limit => "Output limit of ".codes ++ limit.text ++ " lines reached".codes

def hint : Cause → Option Text
  | unclosedBlock b => some b.hint
  | unsupported _ why => some why.message
  | _ => none

def line : Cause → Option Nat
  | unclosedBlock b => some b.line
  | _ => none

end Cause

/-- An error on its way out: its cause, and the line and call stack of the innermost instruction that it crossed. -/
structure Raised where
  cause : Cause
  line : Option Nat
  stack : Option (List Text)

inductive Fault
  | raised (error : Raised)
  | breakdown (why : Breakdown)

namespace Fault

def of (cause : Cause) : Fault := .raised ⟨cause, cause.line, none⟩

/-- The fault as it leaves an instruction: the first instruction that it crosses gives it line and call stack. -/
def crossing (line : Nat) (stack : Unit → List Text) : Fault → Fault
  | .raised ⟨cause, place, none⟩ => .raised ⟨cause, some (place.getD line), some (stack ())⟩
  | .raised ⟨cause, place, some labels⟩ => .raised ⟨cause, some (place.getD line), some labels⟩
  | f => f

end Fault

instance : MonadLift (Except Breakdown) (Except Fault) where
  monadLift
    | .ok a => .ok a
    | .error why => .error (.breakdown why)

instance : MonadLift (Except Cause) (Except Fault) where
  monadLift
    | .ok a => .ok a
    | .error cause => .error (.of cause)

instance : MonadLift (Except UnclosedBlock) (Except Fault) where
  monadLift
    | .ok a => .ok a
    | .error block => .error (.of (.unclosedBlock block))

end Stepwise
