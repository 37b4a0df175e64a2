import Stepwise.Number.Basic
import Stepwise.Text.Chars

/-!
# Expressions

The expressions of the language. None of them assigns: stores are statements.
-/

namespace Stepwise

inductive ArithOp
  | add
  | sub
  | mul
  | div
  | rem
  | pow
  deriving DecidableEq

inductive CompareOp
  | lt
  | gt
  | le
  | ge
  deriving DecidableEq

inductive BinaryOp
  | arith (op : ArithOp)
  | compare (op : CompareOp)
  | equal (strict negated : Bool)
  deriving DecidableEq

inductive LogicalOp
  | and
  | or
  | nullish
  deriving DecidableEq

inductive UnaryOp
  | not
  | minus
  | plus
  | typeof
  deriving DecidableEq

mutual

inductive Expr
  | num (value : Num)
  | text (value : Literal)
  | template (parts : List Part)
  | bool (value : Bool)
  | null
  | undefined
  | name (name : Text)
  | array (items : List Item)
  | object (entries : List Entry)
  | member (object : Expr) (property : Text)
  | index (object key : Expr)
  | call (callee : Expr) (args : List Item)
  | unary (op : UnaryOp) (operand : Expr)
  | binary (op : BinaryOp) (left right : Expr)
  | logical (op : LogicalOp) (left right : Expr)
  | cond (test yes no : Expr)

/-- A part of a template: text as it is, or an expression in place. -/
inductive Part
  | text (value : Literal)
  | code (value : Expr)

inductive Item
  | single (value : Expr)
  | spread (value : Expr)

inductive Entry
  | property (key : Text) (value : Expr)
  | computed (key value : Expr)
  | spread (value : Expr)

end

namespace Expr

def describe : Expr → Text
  | .name x => x
  | .member e property => e.describe ++ ".".codes ++ property
  | .index e _ => e.describe ++ "[...]".codes
  | .call e _ => e.describe ++ "(...)".codes
  | _ => "expression".codes

end Expr

inductive Connective
  | binary (op : BinaryOp)
  | logical (op : LogicalOp)
  deriving DecidableEq

namespace Connective

def spellings : List (Text × Connective) := [
  ("??".codes, .logical .nullish), ("||".codes, .logical .or), ("&&".codes, .logical .and),
  ("==".codes, .binary (.equal false false)), ("!=".codes, .binary (.equal false true)),
  ("===".codes, .binary (.equal true false)), ("!==".codes, .binary (.equal true true)),
  ("<".codes, .binary (.compare .lt)), (">".codes, .binary (.compare .gt)),
  ("<=".codes, .binary (.compare .le)), (">=".codes, .binary (.compare .ge)),
  ("+".codes, .binary (.arith .add)), ("-".codes, .binary (.arith .sub)),
  ("*".codes, .binary (.arith .mul)), ("/".codes, .binary (.arith .div)),
  ("%".codes, .binary (.arith .rem)), ("**".codes, .binary (.arith .pow))]

def ofSpelling? (s : Text) : Option Connective := spellings.lookup s

/-- How tightly the operator binds; a higher level binds tighter. -/
def level : Connective → Nat
  | .logical .nullish => 1
  | .logical .or => 2
  | .logical .and => 3
  | .binary (.equal _ _) => 4
  | .binary (.compare _) => 5
  | .binary (.arith .add) | .binary (.arith .sub) => 6
  | .binary (.arith .mul) | .binary (.arith .div) | .binary (.arith .rem) => 7
  | .binary (.arith .pow) => 8

/-- The least level of operators in the right operand: only the power associates to the right. -/
def rightLevel (c : Connective) : Nat := if c = .binary (.arith .pow) then c.level else c.level + 1

def apply : Connective → Expr → Expr → Expr
  | .binary op, left, right => .binary op left right
  | .logical op, left, right => .logical op left right

end Connective

end Stepwise
