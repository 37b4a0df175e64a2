import Stepwise.Proofs.Mishaps

/-!
# Breakdowns that are not for want of fuel

Conversions, operators and comparisons can break down, but they never run out of fuel: they recurse on what they are
given. A result is `Definite` when it is a value or another breakdown.
-/

namespace Stepwise

variable {α : Type} {e : Except Breakdown α}

/-- Not cut off for want of fuel. -/
def Definite (e : Except Breakdown α) : Prop := e ≠ .error .exhausted

theorem Breakdown.Mishap.ne_exhausted {why : Breakdown} (h : why.Mishap) : why ≠ .exhausted := by
  rintro rfl
  cases h

theorem Only.definite (h : Only (· ≠ .exhausted) e) : Definite e := fun he => h _ he rfl

theorem Ranged.definite (h : Ranged e) : Definite e :=
  (h.mishap.imp fun _ => Breakdown.Mishap.ne_exhausted).definite

theorem Fault.Native.ne_exhausted {f : Fault} (h : f.Native) : f ≠ .breakdown .exhausted := by
  rintro rfl
  exact h.of_breakdown.ne_exhausted rfl

namespace Limit

theorem only_number (relation countType : Text) (limit : Limit) :
    Only (· ≠ .exhausted) (limit.number relation countType) := by
  cases limit with
  | other type => exact .error nofun
  | _ => exact .ok _

theorem definite_isPassed (limit : Limit) (count : Nat) : Definite (limit.isPassed count) := by
  refine Only.definite ?_
  unfold isPassed
  split
  · exact .ok _
  · exact .bind (only_number _ _ _) fun _ => .pure _

theorem definite_isReached (limit : Limit) (count : Nat) : Definite (limit.isReached count) := by
  refine Only.definite ?_
  unfold isReached
  split
  · exact .ok _
  · exact .bind (only_number _ _ _) fun _ => .pure _

end Limit

end Stepwise
