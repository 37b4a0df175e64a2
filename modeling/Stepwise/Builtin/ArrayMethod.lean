import Stepwise.Builtin.Argument
import Stepwise.Sorting.Runs

/-!
# Methods of arrays

Mutators work on the array itself. What they store is copied; what they hand out is not. A method with a callback visits
the items that the array had when the method was called.
-/

namespace Stepwise

inductive ArrayMethod
  | push
  | pop
  | shift
  | unshift
  | slice
  | splice
  | concat
  | join
  | indexOf
  | includes
  | reverse
  | sort
  | fill
  | at
  | toText
  | map
  | filter
  | forEach
  | reduce
  | find
  | findIndex
  | anyItem
  | allItems
  deriving DecidableEq

namespace ArrayMethod

def names : List (Text × ArrayMethod) := [
  ("push".codes, .push), ("pop".codes, .pop), ("shift".codes, .shift), ("unshift".codes, .unshift),
  ("slice".codes, .slice), ("splice".codes, .splice), ("concat".codes, .concat), ("join".codes, .join),
  ("indexOf".codes, .indexOf), ("includes".codes, .includes), ("reverse".codes, .reverse), ("sort".codes, .sort),
  ("fill".codes, .fill), ("at".codes, .at), ("toString".codes, .toText), ("map".codes, .map),
  ("filter".codes, .filter), ("forEach".codes, .forEach), ("reduce".codes, .reduce), ("find".codes, .find),
  ("findIndex".codes, .findIndex), ("some".codes, .anyItem), ("every".codes, .allItems)]

def ofName? (name : Text) : Option ArrayMethod := names.lookup name

def items (a : Addr) : Exec (Sequence Value) := return (((← Exec.heap).array? (.ref a)).map (·.2)).getD .empty

/-- Replace the items of the array at an address; `grown` tells whether it was lengthened. -/
def setItems (a : Addr) (items : Sequence Value) (grown : Bool) : Exec Unit :=
  Exec.modifyHeap (·.setItems a items grown)

/-- Change the items of the array at an address; `grown` tells whether it was lengthened. -/
def modifyItems (a : Addr) (f : Sequence Value → Sequence Value) (grown : Bool) : Exec Unit :=
  Exec.modifyHeap (·.modifyItems a f grown)

/-! ### Adding and removing items -/

/-- Add copies of values at the end, one after the other, so that the array may be added to itself. -/
def pushEach (a : Addr) : List Value → Exec Unit
  | [] => return
  | v :: rest => do
    let v ← Exec.copy v
    modifyItems a (·.push v) true
    pushEach a rest

/-- Add copies of values at the end; this counts as lengthening even when there are none. -/
def runPush (a : Addr) (args : List Value) : Exec Value := do
  modifyItems a id true
  pushEach a args
  return .int (← items a).size

def runPop (a : Addr) : Exec Value := do
  let xs ← items a
  match xs.get? (xs.size - 1) with
  | some v => setItems a (xs.take (xs.size - 1)) false; return v
  | none => return .undefined

def runShift (a : Addr) : Exec Value := do
  let xs ← items a
  match xs.get? 0 with
  | some v => setItems a (xs.drop 1) false; return v
  | none => return .undefined

/-- Replace the items from `start` up to `stop` by copies of values. -/
def replaceRange (a : Addr) (start stop : Nat) (values : List Value) : Exec Unit := do
  let copies ← Exec.withHeap (·.copyEach values)
  let xs ← items a
  let new := xs.replaceSlice start stop (.ofList copies)
  setItems a new (xs.size < new.size)

def runUnshift (a : Addr) (args : List Value) : Exec Value := do
  replaceRange a 0 0 args
  return .int (← items a).size

def range (args : List Value) (first : Nat) (length : Nat) : Exec (Nat × Nat) := do
  let start ← Argument.integer args first 0
  let stop ← Argument.integer args (first + 1) length
  return (Argument.position start length, Argument.position stop length)

def runSlice (a : Addr) (args : List Value) : Exec Value := do
  let xs ← items a
  let (start, stop) ← range args 0 xs.size
  Exec.newArray (← Exec.withHeap (·.copyTogether (xs.slice start stop)))

def runSplice (a : Addr) (args : List Value) : Exec Value := do
  let xs ← items a
  let start := Argument.position (← Argument.integer args 0 0) xs.size
  let count ← if args.length < 2 then pure (xs.size - start)
    else pure (min (← Argument.integer args 1 0).toNat (xs.size - start))
  replaceRange a start (start + count) (args.drop 2)
  Exec.newArray (xs.slice start (start + count))

/-- Store copies of a value at the given positions, one after the other. -/
def fillEach (a : Addr) (v : Value) : List Nat → Exec Unit
  | [] => return
  | i :: rest => do
    let copy ← Exec.copy v
    modifyItems a (·.set i copy) false
    fillEach a v rest

/-- Store copies of a value in a part. What is no array or object is its own copy. -/
def runFill (a : Addr) (args : List Value) : Exec Value := do
  let length := (← items a).size
  let (start, stop) ← range args 1 length
  let v := Argument.nth args 0
  if v.isRef then fillEach a v (List.range' start (stop - start))
  else if start < stop then modifyItems a (·.replaceSlice start stop (.replicate (stop - start) v)) false
  return .ref a

/-! ### Reading -/

/-- Copies of the items and of further values, where arrays stand for their items. -/
def runConcat (a : Addr) (args : List Value) : Exec Value := do
  let xs ← items a
  let front ← Exec.withHeap (·.copyTogether xs)
  let parts ← args.mapM fun v => do
    match (← Exec.heap).array? v with
    | some (_, ys) => Exec.withHeap (·.copyTogether ys)
    | none => return .singleton (← Exec.copy v)
  Exec.newArray (front ++ .concat parts)

/-- The texts of the items with a separator between them; nothing stands for an undefined or null item. -/
def runJoin (a : Addr) (args : List Value) : Exec Value := do
  let separator ← match Argument.nth args 0 with
    | .undefined => pure ",".codes.packed
    | v => Exec.toChars v
  let texts ← (← items a).toList.mapM fun v => if v.isNullish then pure .empty else Exec.toChars v
  return .text (Chars.join separator texts)

def runIndexOf (a : Addr) (args : List Value) : Exec Value := do
  let xs ← items a
  let start := Argument.position (← Argument.integer args 1 0) xs.size
  match xs.findIdxFrom? (·.strictEqual (Argument.nth args 0)) start with
  | some i => return .int i
  | none => return .int (-1)

/-- Equality that finds NaN in NaN. -/
def sameValue (v target : Value) : Except Breakdown Bool :=
  match v, target with
  | .num m, .num n => do
    if ← m.isNaN then
      if ← n.isNaN then return true
    return m.eq n
  | v, target => .ok (v.strictEqual target)

/-- Whether one of the last `count` items is the same as the target. -/
def anySame (target : Value) (xs : Sequence Value) : (count : Nat) → Except Breakdown Bool
  | 0 => .ok false
  | count + 1 =>
    match xs.get? (xs.size - (count + 1)) with
    | none => .ok false
    | some v => do if ← sameValue v target then return true else anySame target xs count

/-- The item at a position, where negative ones count from the end. -/
def runAt (a : Addr) (args : List Value) : Exec Value := do
  let xs ← items a
  let index ← Argument.integer args 0 0
  let index := if index < 0 then index + xs.size else index
  return if index < 0 then .undefined else (xs.get? index.toNat).getD .undefined

/-! ### Sorting -/

/-- A text by which items are sorted when no comparison is given; undefined comes last. -/
def sortKey (v : Value) : Exec (Bool × Text) :=
  match v with
  | .undefined => return (true, [])
  | v => return (false, ← Exec.toText v)

def keyLe (x y : (Bool × Text) × Value) : Bool :=
  if x.1.1 = y.1.1 then x.1.2.le y.1.2 else y.1.1

def sortByText (a : Addr) : Exec Unit := do
  let xs ← items a
  let keyed ← xs.toList.mapM fun v => do return (← sortKey v, v)
  setItems a (.ofList ((keyed.mergeSort keyLe).map (·.2))) false

/-- Whether the comparison puts one value before another: it answers with a negative number. -/
def comesBefore (invoke : Callback) (f : Text) (x y : Value) : Exec Bool := do
  let answer ← Exec.toNumber (← invoke f [x, y])
  if ← answer.isNaN then return false
  return answer.lt (.int 0)

/-- Answer the questions of a sort. A fault leaves the array as it is arranged at that moment. -/
def answerAll (invoke : Callback) (f : Text) (a : Addr) : Sorting Value (List Value) → Exec (List Value)
  | .done sorted => return sorted
  | .ask x y now next => do
    let before ← tryCatch (comesBefore invoke f x y) fun fault => do
      setItems a (.ofList (now ())) false
      throw fault
    answerAll invoke f a (next before)

/-- Sort by a comparison. Meanwhile the array is empty, and it breaks the sort down when the comparison lengthens it. -/
def sortByAnswers (invoke : Callback) (f : Text) (a : Addr) : Exec Unit := do
  let xs ← items a
  let growths := (← Exec.heap).growths a
  setItems a .empty false
  let sorted ← answerAll invoke f a (Sorting.sort xs.toList)
  let interfered := (← Exec.heap).growths a != growths
  setItems a (.ofList sorted) false
  if interfered then throw (.breakdown .sortInterference)

def runSort (invoke : Callback) (a : Addr) (args : List Value) : Exec Value := do
  match Argument.nth args 0 with
  | .undefined => sortByText a
  | v => sortByAnswers invoke (← Argument.function v) a
  return .ref a

/-! ### Methods with a callback -/

/-- The first of the last `count` items, with its index, for which the callback's answer counts as `wanted`. -/
def firstWhere (visit : Value → Nat → Exec Value) (wanted : Bool) (xs : Sequence Value) :
    (count : Nat) → Exec (Option (Value × Nat))
  | 0 => return none
  | count + 1 => do
    let i := xs.size - (count + 1)
    match xs.get? i with
    | none => return none
    | some v =>
      if (← (← visit v i).truthy) = wanted then return some (v, i) else firstWhere visit wanted xs count

/-- Copies of the items for which the callback's answer counts as true. -/
def filtered (visit : Value → Nat → Exec Value) : List (Value × Nat) → Exec (List Value)
  | [] => return []
  | (v, i) :: rest => do
    if ← (← visit v i).truthy then
      let v ← Exec.copy v
      return v :: (← filtered visit rest)
    else filtered visit rest

def folded (visit : Value → Value → Nat → Exec Value) (acc : Value) : List (Value × Nat) → Exec Value
  | [] => return acc
  | (v, i) :: rest => do folded visit (← visit acc v i) rest

/-- Fold the items from the left, beginning with the second argument or else with the first item. -/
def runReduce (invoke : Callback) (a : Addr) (args : List Value) : Exec Value := do
  let f ← Argument.function (Argument.nth args 0)
  let visit := fun acc v (i : Nat) => invoke f [acc, v, .int i, .ref a]
  match args, (← items a).toList.zipIdx with
  | _ :: start :: _, xs => folded visit start xs
  | _, (first, _) :: rest => folded visit first rest
  | _, [] => Exec.fail .emptyReduce

/-- The methods that pass each item, its index and the array to a callback. -/
def runVisit (invoke : Callback) (m : ArrayMethod) (a : Addr) (args : List Value) : Exec Value := do
  let f ← Argument.function (Argument.nth args 0)
  let visit := fun v (i : Nat) => invoke f [v, .int i, .ref a]
  let xs ← items a
  match m with
  | .map => Exec.newArray (.ofList (← xs.toList.zipIdx.mapM fun (v, i) => visit v i))
  | .filter => Exec.newArray (.ofList (← filtered visit xs.toList.zipIdx))
  | .find => return ((← firstWhere visit true xs xs.size).map (·.1)).getD .undefined
  | .findIndex => return ((← firstWhere visit true xs xs.size).map fun (_, i) => .int i).getD (.int (-1))
  | .anyItem => return .bool (← firstWhere visit true xs xs.size).isSome
  | .allItems => return .bool (← firstWhere visit false xs xs.size).isNone
  | _ =>
    xs.toList.zipIdx.forM fun (v, i) => do
      let _ ← visit v i
    return .undefined

def run (invoke : Callback) (m : ArrayMethod) (a : Addr) (args : List Value) : Exec Value :=
  match m with
  | .push => runPush a args
  | .pop => runPop a
  | .shift => runShift a
  | .unshift => runUnshift a args
  | .slice => runSlice a args
  | .splice => runSplice a args
  | .concat => runConcat a args
  | .join => runJoin a args
  | .indexOf => runIndexOf a args
  | .includes => do
    let xs ← items a
    return .bool (← anySame (Argument.nth args 0) xs xs.size)
  | .reverse => do
    modifyItems a Sequence.reverse false
    return .ref a
  | .sort => runSort invoke a args
  | .fill => runFill a args
  | .at => runAt a args
  | .toText => do return .text (← Exec.toChars (.ref a))
  | .reduce => runReduce invoke a args
  | .map | .filter | .forEach | .find | .findIndex | .anyItem | .allItems => runVisit invoke m a args

end ArrayMethod

end Stepwise
