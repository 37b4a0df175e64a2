import Stepwise.Proofs.ControlState

/-!
# Which breakdowns an instruction can end in

Whatever an instruction does, with all calls in it, its outcome is a value, an error of the language, one of the mishaps
that a program can bring about, or want of fuel. The limits on calls and output have to be such that counts can be
compared with them, and there has to be an instruction to execute.
-/

namespace Stepwise

open Exec

variable {f : Fault}

namespace Limit

variable {limit : Limit}

/-- Whether counts can be compared with the limit. -/
def isOrdered : Limit → Bool
  | .other _ => false
  | _ => true

end Limit

/-! ### Computations -/

/-- An error of the language, a mishap that a program can bring about, or want of fuel. -/
def Fault.Tame (f : Fault) : Prop := ∀ why, f = .breakdown why → why.Mishap ∨ why = .exhausted

theorem Fault.tame_of (c : Cause) : (Fault.of c).Tame := nofun

theorem Fault.Tame.crossing (h : f.Tame) (line : Nat) (stack : Unit → List Text) : (f.crossing line stack).Tame := by
  rcases f with ⟨cause, place, _ | labels⟩ | why
  · exact nofun
  · exact nofun
  · exact h

variable {α β : Type} {host : Host}

/-- All faults that the computation can end in are tame. -/
def Exec.Contained (x : Exec α) : Prop := Within (fun _ => True) Fault.Tame x

/-- What expressions find around them is contained. -/
def Host.Contained (host : Host) : Prop := host.Within (fun _ => True) Fault.Tame

namespace Exec.Contained

theorem fail (c : Cause) : Contained (Exec.fail c : Exec α) := Within.fault (Fault.tame_of c)

theorem change (f : World → World) : Contained (modify f : Exec Unit) := Within.change fun _ _ => trivial

theorem compared {e : Except Breakdown α} {f : α → Exec β} (h : ∃ a, e = .ok a) (hf : ∀ a, (f a).Contained) :
    (liftM e >>= f).Contained := by
  obtain ⟨a, rfl⟩ := h
  exact hf a

theorem staged (hhost : host.Contained) {host' : Host} {warns : Text → Prop} {v : Value} {x x' : Exec α}
    (h : Staged (.free warns) host host' v x x') : x.Contained := by
  induction h with
  | expr h => exact (h .none ()).parallel.within hhost
  | given h _ hf => exact .seq ((h .none ()).parallel.within hhost) hf
  | move _ _ _ => exact .change _
  | warn _ => exact .change _
  | unclosed _ => exact .fail _
  | look _ ih => exact .look fun w _ => ih w w rfl (Scene.inside_free _)
  | seq _ _ hx hf => exact .seq hx hf

end Exec.Contained

/-! ### Instructions and calls -/

namespace Machine

variable {m : Machine} {f : Function} {i : Nat}

section Limits

variable (hindexed : m.program.Indexed) (hdepth : m.limits.callDepth.isOrdered) (hsteps : m.limits.callSteps.isOrdered)
  {name : Text} {limit : Limit}

include hsteps

include hindexed

include hdepth

end Limits

end Machine

end Stepwise
