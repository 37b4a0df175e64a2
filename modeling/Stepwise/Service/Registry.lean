import Stepwise.Session.Basic

/-!
# The registry of sessions

The sessions that are alive, under their ids, from the least to the most recently used. When there are too many, the
least recently used ones are dropped.
-/

namespace Stepwise

structure Registry where
  /-- least recently used first -/
  entries : List (Text × Session)
  /-- how many ids have been given out -/
  serial : Nat
  /-- the greatest number of sessions -/
  capacity : Nat

namespace Registry

def empty (capacity : Nat) : Registry := ⟨[], 0, capacity⟩

/-- The id with a serial number: 32 hexadecimal digits. The factor is odd, so that ids do not repeat. -/
def idOf (serial : Nat) : Text := Text.hexDigits 32 ((serial + 1) * 0x9e3779b97f4a7c15f39cc0605cedc835 % pow2 128)

def find? (r : Registry) (id : Text) : Option Session := r.entries.lookup id

def drop (r : Registry) (id : Text) : Registry := { r with entries := r.entries.filter (·.1 != id) }

def place (r : Registry) (id : Text) (s : Session) : Registry :=
  { r with entries := (r.drop id).entries ++ [(id, s)] }

/-- Drop the least recently used sessions until there are few enough. -/
def shrink (r : Registry) : Registry := { r with entries := r.entries.drop (r.entries.length - r.capacity) }

def add (r : Registry) (s : Session) : Text × Registry :=
  let id := idOf r.serial
  (id, shrink { r.place id s with serial := r.serial + 1 })

end Registry

end Stepwise
