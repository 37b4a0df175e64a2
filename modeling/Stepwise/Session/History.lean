/-!
# Bounded histories

The latest entries, newest first. When there is no more room the oldest is forgotten. Forgotten entries are thrown away
many at a time, so that adding one is cheap however many are remembered.
-/

namespace Stepwise

/-- At most `bound` entries. -/
structure History (α : Type) where
  bound : Nat
  /-- newest first; those after the first `size` are forgotten -/
  kept : List α
  size : Nat
  /-- how many are kept -/
  stored : Nat

namespace History

variable {α : Type} {h rest : History α} {a : α}

def empty (bound : Nat) : History α := ⟨bound, [], 0, 0⟩

def entries (h : History α) : List α := h.kept.take h.size

def push (h : History α) (a : α) : History α :=
  let size := min (h.size + 1) h.bound
  if h.stored < 2 * h.bound then ⟨h.bound, a :: h.kept, size, h.stored + 1⟩
  else ⟨h.bound, (a :: h.kept).take size, size, size⟩

def pop? (h : History α) : Option (α × History α) :=
  match h.size, h.kept with
  | size + 1, a :: rest => some (a, ⟨h.bound, rest, size, h.stored - 1⟩)
  | _, _ => none

/-- A push keeps the newest entries, as many as there is room for. -/
theorem entries_push (h : History α) (a : α) : (h.push a).entries = (a :: h.entries).take h.bound := by
  have view : (a :: h.kept).take (min (h.size + 1) h.bound) = (a :: h.entries).take h.bound := by
    rw [Nat.min_comm, ← List.take_take]
    rfl
  unfold push
  split
  · exact view
  · simp only [entries, List.take_take, Nat.min_self]
    exact view

theorem entries_of_pop? (taken : h.pop? = some (a, rest)) : h.entries = a :: rest.entries := by
  unfold pop? at taken
  split at taken
  · rename_i size b kept hsize hkept
    obtain ⟨rfl, rfl⟩ := taken
    simp [entries, hsize, hkept]
  · simp at taken

theorem mem_of_pop? (taken : h.pop? = some (a, rest)) : a ∈ h.entries ∧ ∀ b ∈ rest.entries, b ∈ h.entries := by
  rw [entries_of_pop? taken]
  exact ⟨List.mem_cons_self, fun _ => List.mem_cons_of_mem a⟩

end History

end Stepwise
