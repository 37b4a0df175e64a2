import Stepwise.Syntax.Error
import Stepwise.Syntax.Expr

/-!
# Statements

A statement is one segment of the source. Blocks are not nested here: a header and the closing brace of its block are
statements of their own, and the program pairs them.
-/

namespace Stepwise

inductive Target
  | name (name : Text)
  | index (object key : Expr)
  | member (object : Expr) (property : Text)

def Target.toExpr : Target → Expr
  | .name x => .name x
  | .index e key => .index e key
  | .member e property => .member e property

def Expr.toTarget? : Expr → Option Target
  | .name x => some (.name x)
  | .index e key => some (.index e key)
  | .member e property => some (.member e property)
  | _ => none

inductive DeclKind
  | letKind
  | constKind
  | varKind
  deriving DecidableEq

/-- The left side of a declaration: a name, or names for the items of an array, where some may be left out. -/
inductive Binder
  | name (name : Text)
  | pattern (names : List (Option Text))

structure Declarator where
  binder : Binder
  init : Option Expr

/-- The statements that neither open nor close a block, jump nor declare. -/
inductive Action
  | assign (target : Target) (value : Expr)
  | destructure (targets : List Target) (value : Expr)
  | update (increment : Bool) (target : Target)
  | compound (op : ArithOp) (target : Target) (value : Expr)
  | evaluate (value : Expr)

inductive ForInit
  | declare (kind : DeclKind) (decls : List Declarator)
  | act (action : Action)

inductive Jump
  | leave
  | again
  deriving DecidableEq

inductive Guarded
  | ret (value : Option Expr)
  | jump (jump : Jump)
  | act (action : Action)

/-- What a loop over a collection visits: its items or its keys. -/
inductive EachMode
  | items
  | keys
  deriving DecidableEq

inductive Stmt
  | noop
  | block
  | close
  /-- an `else` clause; `closes` tells whether it begins with the brace of the clause before -/
  | otherwise (test : Option Expr) (closes : Bool)
  | function (name : Text) (params : List Text)
  | ret (value : Option Expr)
  | declare (kind : DeclKind) (decls : List Declarator)
  | act (action : Action)
  | loopFor (init : Option ForInit) (test : Option Expr) (update : Option Action)
  | loopEach (decl : Option DeclKind) (name : Text) (mode : EachMode) (collection : Expr)
  | loopWhile (test : Expr)
  | branch (test : Expr)
  | guarded (test : Expr) (body : Guarded)
  | jump (jump : Jump)
  /-- outside the language; skipped with a warning, or an error in strict mode -/
  | unsupported (why : SyntaxError)
  /-- an error as soon as it is executed -/
  | invalid (why : SyntaxError)

namespace Stmt

def isNoop : Stmt → Bool
  | .noop => true
  | _ => false

def isFunction : Stmt → Bool
  | .function _ _ => true
  | _ => false

def isOtherwise : Stmt → Bool
  | .otherwise _ _ => true
  | _ => false

def isClause : Stmt → Bool
  | .branch _ => true
  | .otherwise _ _ => true
  | _ => false

end Stmt

end Stepwise
