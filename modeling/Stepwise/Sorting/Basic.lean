/-!
# Sorting by questions

A sort is a tree of questions "does `x` come before `y`?". Each question carries the arrangement of all items at that
moment, which is what remains when the answer never comes; it is put together only when it is asked for. Since the tree
is finite, a sort asks finitely many questions whatever the answers are.
-/

namespace Stepwise

inductive Sorting (α β : Type)
  | done (result : β)
  | ask (x y : α) (now : Unit → List α) (next : Bool → Sorting α β)

namespace Sorting

variable {α β γ : Type}

def andThen (s : Sorting α β) (f : β → Sorting α γ) : Sorting α γ :=
  match s with
  | .done b => f b
  | .ask x y now next => .ask x y now fun answer => (next answer).andThen f

instance : Monad (Sorting α) where
  pure := .done
  bind := andThen

/-- Whether `x` comes before `y`, asked in the arrangement `now`. -/
def before (now : Unit → List α) (x y : α) : Sorting α Bool := .ask x y now .done

def answered (lt : α → α → Bool) : Sorting α β → β
  | .done b => b
  | .ask x y _ next => (next (lt x y)).answered lt

end Sorting

end Stepwise
