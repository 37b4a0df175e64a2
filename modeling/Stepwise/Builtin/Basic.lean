import Stepwise.Number.Arithmetic

/-!
# Built-in names

The functions that every program can call, by the names under which they are found: some stand by themselves, others in
a namespace. Two namespaces hold constants as well.
-/

namespace Stepwise

inductive MathFunction
  | floor
  | ceil
  | round
  | trunc
  | abs
  | sqrt
  | cbrt
  | sign
  | log
  | log2
  | log10
  | exp
  | sin
  | cos
  | tan
  deriving DecidableEq

inductive Builtin
  | parseInt
  | parseFloat
  | toNumber
  | toText
  | toBool
  | isNaN
  | isFinite
  /-- writes a line of output -/
  | log
  | math (f : MathFunction)
  | pow
  /-- the greatest or the least argument -/
  | extreme (greatest : Bool)
  | random
  | hypot
  | atan2
  | keys
  | values
  | entries
  | isArray
  | arrayFrom
  | arrayOf
  | stringify
  | parseJson
  /-- whether the argument is a number and an integer -/
  | isInteger
  /-- whether the argument is a number and NaN -/
  | isNaNNumber
  deriving DecidableEq

inductive Namespace
  | console
  | math
  | object
  | array
  | json
  | number
  deriving DecidableEq

namespace Builtin

def globals : List (Text × Builtin) := [
  ("parseInt".codes, .parseInt), ("parseFloat".codes, .parseFloat), ("Number".codes, .toNumber),
  ("String".codes, .toText), ("Boolean".codes, .toBool), ("isNaN".codes, .isNaN), ("isFinite".codes, .isFinite)]

def global? (name : Text) : Option Builtin := globals.lookup name

end Builtin

namespace Namespace

def names : List (Text × Namespace) := [
  ("console".codes, .console), ("Math".codes, .math), ("Object".codes, .object), ("Array".codes, .array),
  ("JSON".codes, .json), ("Number".codes, .number)]

def ofName? (name : Text) : Option Namespace := names.lookup name

def mathMethods : List (Text × Builtin) := [
  ("floor".codes, .math .floor), ("ceil".codes, .math .ceil), ("round".codes, .math .round),
  ("trunc".codes, .math .trunc), ("abs".codes, .math .abs), ("sqrt".codes, .math .sqrt), ("cbrt".codes, .math .cbrt),
  ("sign".codes, .math .sign), ("log".codes, .math .log), ("log2".codes, .math .log2), ("log10".codes, .math .log10),
  ("exp".codes, .math .exp), ("sin".codes, .math .sin), ("cos".codes, .math .cos), ("tan".codes, .math .tan),
  ("pow".codes, .pow), ("min".codes, .extreme false), ("max".codes, .extreme true), ("random".codes, .random),
  ("hypot".codes, .hypot), ("atan2".codes, .atan2)]

def methods : Namespace → List (Text × Builtin)
  | .console => [("log".codes, .log), ("info".codes, .log), ("debug".codes, .log), ("warn".codes, .log),
      ("error".codes, .log)]
  | .math => mathMethods
  | .object => [("keys".codes, .keys), ("values".codes, .values), ("entries".codes, .entries)]
  | .array => [("isArray".codes, .isArray), ("from".codes, .arrayFrom), ("of".codes, .arrayOf)]
  | .json => [("stringify".codes, .stringify), ("parse".codes, .parseJson)]
  | .number => [("isInteger".codes, .isInteger), ("isNaN".codes, .isNaNNumber), ("parseInt".codes, .parseInt),
      ("parseFloat".codes, .parseFloat)]

def method? (ns : Namespace) (name : Text) : Option Builtin := ns.methods.lookup name

def ln2 : Float := 0.6931471805599453

def ln10 : Float := 2.302585092994046

def constants : Namespace → List (Text × Num)
  | .math => [("PI".codes, .float 3.141592653589793), ("E".codes, .float 2.718281828459045),
      ("LN2".codes, .float ln2), ("LN10".codes, .float ln10), ("LOG2E".codes, .float (1 / ln2)),
      ("LOG10E".codes, .float (1 / ln10)), ("SQRT2".codes, .float 1.4142135623730951)]
  | .number => [("MAX_SAFE_INTEGER".codes, .int (pow2 53 - 1)), ("MIN_SAFE_INTEGER".codes, .int (-(pow2 53 - 1))),
      ("EPSILON".codes, .float 2.220446049250313e-16), ("POSITIVE_INFINITY".codes, .infinity false),
      ("NEGATIVE_INFINITY".codes, .infinity true)]
  | _ => []

def constant? (ns : Namespace) (name : Text) : Option Num := ns.constants.lookup name

end Namespace

/-- A name with a namespace in front of it, cut at the first dot. -/
def Builtin.qualified? (name : Text) : Option Builtin := do
  let (front, rest) := name.span (· != '.'.toNat)
  (← Namespace.ofName? front).method? (rest.drop 1)

end Stepwise
