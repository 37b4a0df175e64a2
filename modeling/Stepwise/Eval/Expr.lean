import Stepwise.Eval.Host

/-!
# Evaluating expressions

The value of an expression in a world. Parts are evaluated from left to right; what is called is looked up before the
arguments are evaluated. Literals hold copies of what they are made from.
-/

namespace Stepwise

namespace Eval

/-- The namespace that a name stands for where no variable has that name. -/
def namespace? (name : Text) : Exec (Option Namespace) := do
  if (← get).store.has name then return none else return Namespace.ofName? name

def constant? (name : Text) : Option Num :=
  [("NaN".codes, Num.nan), ("Infinity".codes, Num.infinity false)].lookup name

/-- The value of a name: a variable, a named number, a function, or a namespace as an object of its constants. -/
def name (host : Host) (x : Text) : Exec Value := do
  match (← get).store.scope.find? x with
  | some b => return b.value
  | none =>
    match constant? x with
    | some n => return .num n
    | none =>
      if host.isFunction x then return .function x
      match Namespace.ofName? x with
      | some ns => Exec.withHeap (·.allocObject (.ofList (ns.constants.map fun (k, n) => (k, .num n))))
      | none => Exec.fail (.undefinedName x)

/-- A member of a namespace: a constant, a function, or undefined. -/
def namespaceMember (nsName : Text) (ns : Namespace) (property : Text) : Value :=
  match ns.constant? property with
  | some n => .num n
  | none => if (ns.method? property).isSome then .function (nsName ++ ".".codes ++ property) else .undefined

def property (v : Value) (key : Text) : Exec Value := do (← Exec.heap).readProperty v key

/-- The items that a spread value stands for: copies of those of an array, or the characters of a text. -/
def spread (described : Text) (v : Value) : Exec (List Value) := do
  match v, (← Exec.heap).array? v with
  | _, some (_, items) => return (← Exec.withHeap (·.copyTogether items)).toList
  | .text s, none => return (Collection.characters s).toList
  | _, none => Exec.fail (.notIterable described)

/-- The entries that a spread value adds to an object literal: copies of those of an object, or of the items of an array
or a text under their indices. -/
def spreadEntries (v : Value) : Exec (List (Text × Value)) := do
  let h ← Exec.heap
  match v, h.array? v, h.object? v with
  | _, some (_, items), _ => return (Collection.indices items.size).zip (← Exec.withHeap (·.copyEach items.toList))
  | _, _, some (_, entries) =>
    return entries.keys.zip (← Exec.withHeap (·.copyTogether (.ofList entries.values))).toList
  | .text s, _, _ => return (Collection.indices s.size).zip (Collection.characters s).toList
  | _, _, _ => return []

inductive Callee
  | function (name : Text)
  | builtin (b : Builtin)
  | method (m : Method)

/-- The method that is called on a value: a function held by an object, or else a built-in method. -/
def methodOf (receiver : Value) (name described : Text) : Exec Callee := do
  if receiver.isNullish then Exec.fail (.nullishRead (Heap.nullishText receiver) name)
  let h ← Exec.heap
  let held := (h.object? receiver).bind fun (_, entries) => entries.get? name
  match held, Method.find? h receiver name with
  | some (.function f), _ => return .function f
  | _, some m => return .method m
  | _, none => Exec.fail (.notFunction described)

def staticOf (nsName : Text) (ns : Namespace) (name : Text) : Exec Callee :=
  match ns.method? name with
  | some b => return .builtin b
  | none => Exec.fail (.notFunction (nsName ++ ".".codes ++ name))

/-- The function that a name stands for in a call, or the value of a variable with that name. -/
def calleeOfName (host : Host) (x : Text) : Exec Callee := do
  match (← get).store.scope.find? x with
  | some b => match b.value with
    | .function f => return .function f
    | _ => Exec.fail (.notFunction x)
  | none => if host.isFunction x then return .function x else Exec.fail (.undefinedName x)

def callOf (host : Host) (callee : Callee) (args : List Value) : Exec Value :=
  match callee with
  | .function f => host.invoke f args
  | .builtin b => b.apply host.outputLimit host.invoke args
  | .method m => m.run host.invoke args

def unary (op : UnaryOp) (v : Value) : Exec Value := do
  match op with
  | .not => return .bool !(← v.truthy)
  | .minus => return .num (← (← Exec.toNumber v).neg)
  | .plus => return .num (← Exec.toNumber v)
  | .typeof => return .text v.typeName.packed

/-- The type of a value, where a name that is not defined counts as undefined. -/
def typeOf (value : Exec Value) : Exec Value :=
  tryCatch (do return .text (← value).typeName.packed) fun
    | .raised e => if e.cause.kind = .reference then return .text "undefined".codes.packed else throw (.raised e)
    | f => throw f

def shortCuts (op : LogicalOp) (left : Value) : Except Breakdown Bool :=
  match op with
  | .and => return !(← left.truthy)
  | .or => left.truthy
  | .nullish => return !left.isNullish

end Eval

mutual

def Expr.eval (host : Host) : Expr → Exec Value
  | .num n => return .num n
  | .text l => return .text l.chars
  | .bool b => return .bool b
  | .null => return .null
  | .undefined => return .undefined
  | .template parts => return .text (.concat (← evalParts host parts))
  | .name x => Eval.name host x
  | .array items => do Exec.newArray (.ofList (← evalItems host items))
  | .object entries => do
    let entries ← evalEntries host entries
    Exec.withHeap (·.allocObject (.ofList entries))
  | .member (.name x) property => do
    match ← Eval.namespace? x with
    | some ns => return Eval.namespaceMember x ns property
    | none => Eval.property (← Eval.name host x) property
  | .member e property => do Eval.property (← e.eval host) property
  | .index e key => do
    let object ← e.eval host
    let key ← key.eval host
    Eval.property object (← (← Exec.heap).propertyKey key)
  | .call (.member (.name x) method) args => do
    let callee ← match ← Eval.namespace? x with
      | some ns => Eval.staticOf x ns method
      | none => Eval.methodOf (← Eval.name host x) method (x ++ ".".codes ++ method)
    Eval.callOf host callee (← evalArgs host args)
  | .call (.member e method) args => do
    let callee ← Eval.methodOf (← e.eval host) method (Expr.member e method).describe
    Eval.callOf host callee (← evalArgs host args)
  | .call (.name x) args => do
    let callee ← Eval.calleeOfName host x
    Eval.callOf host callee (← evalArgs host args)
  | .call e args => do
    match ← e.eval host with
    | .function f => Eval.callOf host (.function f) (← evalArgs host args)
    | _ => Exec.fail (.notFunction e.describe)
  | .unary .typeof e => Eval.typeOf (e.eval host)
  | .unary op e => do Eval.unary op (← e.eval host)
  | .binary op left right => do
    let a ← left.eval host
    let b ← right.eval host
    (← Exec.heap).binary op a b
  | .logical op left right => do
    let a ← left.eval host
    if ← Eval.shortCuts op a then return a else right.eval host
  | .cond test yes no => do
    if ← (← test.eval host).truthy then yes.eval host else no.eval host

def evalParts (host : Host) : List Part → Exec (List Chars)
  | [] => return []
  | .text l :: rest => return l.chars :: (← evalParts host rest)
  | .code e :: rest => do
    let s ← Exec.toChars (← e.eval host)
    return s :: (← evalParts host rest)

def evalItems (host : Host) : List Item → Exec (List Value)
  | [] => return []
  | .single e :: rest => do
    let v ← Exec.copy (← e.eval host)
    return v :: (← evalItems host rest)
  | .spread e :: rest => do
    let vs ← Eval.spread e.describe (← e.eval host)
    return vs ++ (← evalItems host rest)

/-- The arguments of a call, which are not copied. -/
def evalArgs (host : Host) : List Item → Exec (List Value)
  | [] => return []
  | .single e :: rest => do
    let v ← e.eval host
    return v :: (← evalArgs host rest)
  | .spread e :: rest => do
    let vs ← Eval.spread e.describe (← e.eval host)
    return vs ++ (← evalArgs host rest)

/-- The entries of an object literal, in the order in which they are written. -/
def evalEntries (host : Host) : List Entry → Exec (List (Text × Value))
  | [] => return []
  | .property key e :: rest => do
    let v ← Exec.copy (← e.eval host)
    return (key, v) :: (← evalEntries host rest)
  | .computed key e :: rest => do
    let key ← key.eval host
    let key ← (← Exec.heap).propertyKey key
    let v ← Exec.copy (← e.eval host)
    return (key, v) :: (← evalEntries host rest)
  | .spread e :: rest => do
    let added ← Eval.spreadEntries (← e.eval host)
    return added ++ (← evalEntries host rest)

end

end Stepwise
