import Stepwise.Text.Basic

/-!
# Ordered associations

A list of named values in which a name keeps the place where it was first put.
-/

namespace Stepwise.Assoc

variable {α : Type}

/-- Put a value under a key: in place when the key is there, at the end when it is new. -/
def put (key : Text) (value : α) : List (Text × α) → List (Text × α)
  | [] => [(key, value)]
  | (k, v) :: rest => if k == key then (k, value) :: rest else (k, v) :: put key value rest

def has (key : Text) (entries : List (Text × α)) : Bool := entries.any (·.1 == key)

theorem mem_put {key : Text} {value : α} {entries : List (Text × α)} {e : Text × α}
    (h : e ∈ put key value entries) : e = (key, value) ∨ e ∈ entries := by
  induction entries with
  | nil => exact .inl (by simpa [put] using h)
  | cons first rest ih =>
    obtain ⟨k, v⟩ := first
    rw [put] at h
    split at h
    · rename_i same
      rcases List.mem_cons.mp h with rfl | h
      · exact .inl (by rw [beq_iff_eq.mp same])
      · exact .inr (List.mem_cons_of_mem _ h)
    · rcases List.mem_cons.mp h with rfl | h
      · exact .inr List.mem_cons_self
      · exact (ih h).imp_right (List.mem_cons_of_mem _)

end Stepwise.Assoc
