import Stepwise.Builtin.ArrayMethod
import Stepwise.Builtin.Numeric
import Stepwise.Builtin.TextMethod

/-!
# Applying built-in functions and methods
-/

namespace Stepwise

namespace Builtin

/-- The integer at the start of a text, in the base that the second argument gives. -/
def runParseInt (args : List Value) : Exec Value := do
  let text ← Exec.toText (Argument.nth args 0)
  let radix ← Argument.integer args 1 10
  let radix := if radix = 0 then 10 else radix
  if radix < 2 || 36 < radix then return .num .nan
  match ← Numeral.leadingInteger radix.toNat text with
  | some n => return .num (← (Num.int n).normalize)
  | none => return .num .nan

def runParseJson (args : List Value) : Exec Value := do
  match Json.parse (← Exec.toText (Argument.nth args 0)) with
  | .ok data => Exec.withHeap (·.load (Datum.ofJson data).settled)
  | .error .longInteger => throw (.breakdown .unexplainedJson)
  | .error e => Exec.fail (.json e)

def runRandom : Exec Value := do
  let (x, source) := (← get).random.next
  modify fun w => { w with random := source }
  return .num (.float x)

/-- Whether a number passes a test on doubles; anything else does not. -/
def testNumber (test : Float → Bool) (v : Value) : Exec Value :=
  match v with
  | .num n => return .bool (test (← n.toFloat))
  | _ => return .bool false

/-- Apply a built-in function; `limit` bounds the lines of output. -/
def apply (limit : Option Limit) (invoke : Callback) (b : Builtin) (args : List Value) : Exec Value := do
  let first := Argument.nth args 0
  match b with
  | .parseInt => runParseInt args
  | .parseFloat => return .num (Numeral.leadingNumber (← Exec.toText first))
  | .toNumber => if args.isEmpty then return .int 0 else return .num (← Exec.toNumber first)
  | .toText => if args.isEmpty then return .text .empty else return .text (← Exec.toChars first)
  | .toBool => return .bool (← first.truthy)
  | .isNaN => testNumber Float.isNaN (.num (← Exec.toNumber first))
  | .isFinite => testNumber Float.isFinite (.num (← Exec.toNumber first))
  | .log =>
    let h ← Exec.heap
    let texts ← args.mapM fun v => ((h.read v).consoleText : Except Breakdown Text)
    Exec.emit limit (Text.join " ".codes texts)
    return .undefined
  | .math f => return .num (← f.apply (← Exec.toNumber first))
  | .pow => return .num (← Num.pow (← Exec.toNumber first) (← Exec.toNumber (Argument.nth args 1)))
  | .extreme greatest => return .num (← Num.extreme greatest (← args.mapM Exec.toNumber))
  | .random => runRandom
  | .hypot => return .num (← Num.hypot (← args.mapM Exec.toNumber))
  | .atan2 => return .num (← Num.atan2 (← Exec.toNumber first) (← Exec.toNumber (Argument.nth args 1)))
  | .keys => Exec.newArray (.ofList ((← Collection.keys first).map fun key => .text key.packed))
  | .values => Exec.newArray (← Collection.values first)
  | .entries => Exec.newArray (.ofList (← Collection.entries first))
  | .isArray => return .bool ((← Exec.heap).array? first).isSome
  | .arrayFrom => Collection.arrayFrom invoke first (Argument.nth args 1)
  | .arrayOf => Exec.newArray (← Exec.withHeap (·.copyTogether (.ofList args)))
  | .stringify =>
    match ← (((← Exec.heap).read first).stringify : Except Breakdown (Option Text)) with
    | some s => return .text s.packed
    | none => return .undefined
  | .parseJson => runParseJson args
  | .isInteger => testNumber Double.isIntegral first
  | .isNaNNumber => testNumber Float.isNaN first

end Builtin

inductive Method
  | array (m : ArrayMethod) (a : Addr)
  | text (m : TextMethod) (s : Chars)
  | number (m : NumberMethod) (n : Num)
  | object (m : ObjectMethod) (v : Value)

namespace Method

def find? (h : Heap) (receiver : Value) (name : Text) : Option Method :=
  match receiver with
  | .text s => (TextMethod.ofName? name).map (.text · s)
  | .num n => (NumberMethod.ofName? name).map (.number · n)
  | .ref a =>
    if (h.array? receiver).isSome then (ArrayMethod.ofName? name).map (.array · a)
    else (ObjectMethod.ofName? name).map (.object · receiver)
  | _ => none

def run (invoke : Callback) (m : Method) (args : List Value) : Exec Value :=
  match m with
  | .array m a => m.run invoke a args
  | .text m s => m.run s args
  | .number m n => m.run n args
  | .object m v => m.run v args

end Method

end Stepwise
