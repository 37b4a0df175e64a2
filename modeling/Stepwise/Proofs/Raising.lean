import Stepwise.Proofs.Clauses

/-!
# What an instruction raises

A fault that gets out of an instruction comes from a call in it, or the instruction raises it by itself. In the second
case it points at no line, or it complains about a block that is not closed: that of the instruction, or that of a later
clause of the same conditional (`Program.Raises`). Loops and conditionals are entered only after their block has been
found closed, so that there is never a complaint about the block of a frame (`Activation.Enclosed`).
-/

namespace Stepwise

open Exec

variable {α β : Type} {Q : Fault → Prop}

/-- The condition is about nothing but the activations. -/
def World.Inward (I : World → Prop) : Prop :=
  ∀ {w w' : World}, w'.current = w.current → w'.callers = w.callers → I w → I w'

/-- Conditions on activations are not concerned by what expressions do. -/
theorem World.Inward.within {I : World → Prop} {host : Host} (hI : World.Inward I)
    (hown : ∀ {cause : Cause}, cause.line = none → Q (.of cause)) (hbreakdown : ∀ why, Q (.breakdown why))
    (hcall : ∀ name f args, host.function? name = some f → Within I Q (host.call f args)) : host.Within I Q where
  native
    | .error unplaced => hown unplaced
    | .mishap _ => hbreakdown _
  store _ := hI rfl rfl
  random _ := hI rfl rfl
  emit _ := .emit (fun _ => hI rfl rfl) (fun _ _ => hown rfl) fun _ _ _ _ _ => hbreakdown _
  call := hcall

/-! ### Instructions -/

/-- The faults that the instruction at an index can raise by itself. -/
inductive Program.Raises (p : Program) (i : Nat) : Fault → Prop
  | own {cause : Cause} (unplaced : cause.line = none) : Raises p i (.of cause)
  | unclosed {o : Nat} {header : Instruction} (leads : p.Leads i o) (found : p.instructions[o]? = some header)
      (opens : header.opens) (unclosed : p.closerOf[o]? = none) : Raises p i (.of (.unclosedBlock ⟨header.line + 1⟩))
  | breakdown (why : Breakdown) : Raises p i (.breakdown why)

/-- The activation is inside closed blocks only. -/
def Activation.Enclosed (p : Program) (a : Activation) : Prop :=
  ∀ frame ∈ a.frames, ∃ c, p.closerOf[frame.opener]? = some c

/-- The world while an activation of the function is executed for the callers, inside closed blocks only. -/
structure World.Amid (p : Program) (function : Option Function) (callers : List Caller) (w : World) : Prop where
  function : w.current.function = function
  callers : w.callers = callers
  enclosed : w.current.Enclosed p

theorem World.inward_amid (p : Program) (function : Option Function) (callers : List Caller) :
    World.Inward (World.Amid p function callers) := fun hcurrent hcallers h =>
  ⟨by rw [hcurrent]; exact h.function, hcallers.trans h.callers, by rw [hcurrent]; exact h.enclosed⟩

/-- A change of the activation that leaves its function alone and gets into no block that is not closed. -/
theorem Exec.Within.activation {p : Program} {function : Option Function} {callers : List Caller}
    {f : Activation → Activation} (hfunction : ∀ a, (f a).function = a.function)
    (henclosed : ∀ a : Activation, a.Enclosed p → (f a).Enclosed p) :
    Within (World.Amid p function callers) Q (Exec.activation f) :=
  .change fun _ hw => ⟨(hfunction _).trans hw.function, hw.callers, henclosed _ hw.enclosed⟩

namespace Program

/-- What is known while the instruction at an index is executed: where its own faults and those of its calls belong. -/
structure Executing (p : Program) (i : Nat) (function : Option Function) (callers : List Caller) (Q : Fault → Prop)
    (host : Host) : Prop where
  indexed : p.Indexed
  raises (f : Fault) : p.Raises i f → Q f
  call (name : Text) (f : Function) (args : List Value) : host.function? name = some f →
    Exec.Within (World.Amid p function callers) Q (host.call f args)

/-- Activations are inside closed blocks, and what is called unclosed is so. -/
def scene (p : Program) (i : Nat) : Scene :=
  ⟨fun o => ∃ c, p.closerOf[o]? = some c, fun b => p.Raises i (.of (.unclosedBlock b)), fun _ => True⟩

variable {p : Program} {i : Nat} {Q : Fault → Prop} {function : Option Function} {callers : List Caller} {host : Host}

theorem Raises.of_blockEnd {o : Nat} {header : Instruction} {b : UnclosedBlock} (hleads : p.Leads i o)
    (hheader : p.instructions[o]? = some header) (hopens : header.opens) (h : p.blockEnd o = .error b) :
    p.Raises i (.of (.unclosedBlock b)) := by
  unfold Program.blockEnd at h
  split at h
  · cases h
  · rename_i hblock
    rw [lineOf, hheader] at h
    cases h
    exact .unclosed hleads hheader hopens hblock

theorem Indexed.fits_scene (hindexed : p.Indexed) {instr : Instruction} (hinstr : p.instructions[i]? = some instr)
    (strict : Bool) : (p.scene i).Fits p i instr strict strict where
  shut h := ⟨_, h⟩
  frame := by
    rintro o b ⟨c, hc⟩ hblock
    rw [Program.blockEnd_of_closed hc] at hblock
    cases hblock
  own hheader hblock := .of_blockEnd .refl hinstr ((hindexed.proper hinstr).header hheader) hblock
  chain hprevious hblock := by
    -- a clause that follows another one leads to clauses that open blocks
    obtain ⟨hleads, -⟩ := (hindexed.chain i).leads
    have hlinked := hindexed.clause_iff.mp hprevious
    obtain ⟨header, hfound, hopens⟩ := IsLinked.opens (.inr ⟨_, hlinked⟩) hindexed hleads
    exact .of_blockEnd hleads hfound hopens hblock
  warns _ := ⟨rfl, trivial⟩

namespace Executing

variable (h : p.Executing i function callers Q host)

include h

theorem within : host.Within (World.Amid p function callers) Q :=
  World.Inward.within (World.inward_amid p function callers) (fun hcause => h.raises _ (.own hcause))
    (fun _ => h.raises _ (.breakdown _)) h.call

theorem staged {host' : Host} {v : Value} {x x' : Exec α} (hx : Staged (p.scene i) host host' v x x') :
    Within (World.Amid p function callers) Q x := by
  induction hx with
  | expr hx => exact (hx .none ()).parallel.within h.within
  | given hx _ hf => exact .seq ((hx .none ()).parallel.within h.within) hf
  | move hfunction hinside _ => exact .activation hfunction hinside
  | warn _ => exact .change fun _ => World.inward_amid p function callers rfl rfl
  | unclosed hraises => exact .fault (h.raises _ hraises)
  | look _ ih => exact .look fun w hw => ih w w rfl hw.enclosed
  | seq _ _ hx hf => exact .seq hx hf

theorem run {instr : Instruction} (hinstr : p.instructions[i]? = some instr) (strict : Bool) :
    Within (World.Amid p function callers) Q (instr.run p strict host i) := by
  have hstaged : Staged (p.scene i) host host .undefined (instr.run p strict host i) (instr.run p strict host i) :=
    .instruction (h.indexed.fits_scene hinstr strict) rfl
  exact h.staged hstaged

end Executing

end Program

/-! ### Calls -/

/-- The fault points at the line of an instruction if it points at one, and it does when it has crossed an instruction. -/
structure Fault.Located (p : Program) (f : Fault) : Prop where
  line {e : Raised} {l : Nat} : f = .raised e → e.line = some l →
    ∃ (o : Nat) (instr : Instruction), p.instructions[o]? = some instr ∧ l = instr.line + 1
  crossed {e : Raised} : f = .raised e → e.stack.isSome → e.line.isSome

section Located

variable {p : Program} {i : Nat} {f : Fault}

theorem Fault.located_of {cause : Cause} (h : cause.line = none) : (Fault.of cause).Located p := by
  constructor
  · rintro _ l ⟨⟩ hline
    rw [h] at hline
    cases hline
  · rintro _ ⟨⟩ hstack
    cases hstack

theorem Program.Raises.located (h : p.Raises i f) : f.Located p := by
  cases h with
  | own unplaced => exact Fault.located_of unplaced
  | unclosed leads found opens unclosed =>
    constructor
    · rintro _ l ⟨⟩ ⟨⟩
      exact ⟨_, _, found, rfl⟩
    · rintro _ ⟨⟩ hstack
      cases hstack
  | breakdown why => exact ⟨nofun, nofun⟩

theorem Fault.Located.crossing (h : f.Located p) {instr : Instruction} (hinstr : p.instructions[i]? = some instr)
    (stack : Unit → List Text) : (f.crossing (instr.line + 1) stack).Located p := by
  have hplace {e : Raised} {l : Nat} (hf : f = .raised e) (hl : e.line.getD (instr.line + 1) = l) :
      ∃ (o : Nat) (instr : Instruction), p.instructions[o]? = some instr ∧ l = instr.line + 1 := by
    cases hline : e.line with
    | none => exact ⟨i, instr, hinstr, by rw [← hl, hline]; rfl⟩
    | some l' => exact h.line hf (by rw [hline, ← hl, hline]; rfl)
  rcases f with ⟨cause, place, _ | labels⟩ | why
  · constructor
    · rintro _ l ⟨⟩ ⟨⟩
      exact hplace rfl rfl
    · rintro _ ⟨⟩ -
      rfl
  · constructor
    · rintro _ l ⟨⟩ ⟨⟩
      exact hplace rfl rfl
    · rintro _ ⟨⟩ -
      rfl
  · exact h

end Located

namespace Machine

variable {m : Machine} {host : Host} {i : Nat} {f : Function} {name : Text} {function : Option Function}
  {callers : List Caller} {w : World}

/-- All that is asked of a host whose calls end in faults with a line. -/
def Locates (m : Machine) (host : Host) : Prop :=
  ∀ function callers name f args, host.function? name = some f →
    Within (World.Amid m.program function callers) (Fault.Located m.program) (host.call f args)

theorem within_execute (hindexed : m.program.Indexed) (hhost : m.Locates host) (i : Nat) :
    Within (World.Amid m.program function callers) (Fault.Located m.program) (m.execute host i) := by
  have hexecuting : m.program.Executing i function callers (Fault.Located m.program) host :=
    ⟨hindexed, fun _ h => h.located, hhost function callers⟩
  unfold execute
  split
  · rename_i instr hinstr
    exact .handle (hexecuting.run hinstr _) fun e he => .look fun w _ => .fault (he.crossing hinstr _)
  · exact .fault ⟨nofun, nofun⟩

theorem execute_eq_raised {w' : World} {e : Raised} (h : (m.execute host i).outcome w = (.error (.raised e), w')) :
    ∃ instr e₀, m.program.instructions[i]? = some instr ∧
      (instr.run m.program m.limits.strict host i).outcome w = (.error (.raised e₀), w') ∧
      e = ⟨e₀.cause, some (e₀.line.getD (instr.line + 1)), some (e₀.stack.getD w'.callStack)⟩ := by
  unfold execute at h
  split at h
  · rename_i instr hinstr
    rw [outcome_tryCatch] at h
    rcases hrun : (instr.run m.program m.limits.strict host i).outcome w with ⟨(e₀ | why) | next, v⟩
    · rw [hrun] at h
      obtain ⟨cause, place, labels⟩ := e₀
      cases labels <;>
      · cases h
        exact ⟨instr, _, hinstr, hrun, rfl⟩
    · rw [hrun] at h
      cases h
    · rw [hrun] at h
      cases h
  · cases h

theorem within_turn (hindexed : m.program.Indexed) (hhost : m.Locates host) :
    Within (World.Amid m.program function callers) (Fault.Located m.program) (m.turn host (m.bodyCourse f)) := by
  have hcharge : Within (World.Amid m.program function callers) (Fault.Located m.program) (m.bodyCourse f).charge :=
    .seq (.change fun w => World.inward_amid m.program function callers rfl rfl) fun _ => .look fun w _ =>
      .compared (fun _ _ => ⟨nofun, nofun⟩) fun _ => .ite _ (.fault (Fault.located_of rfl)) (.done _)
  refine turn_within (fun hfunction hframes hw => ⟨hfunction.trans hw.function, hw.callers, ?_⟩) hcharge fun a _ =>
    within_execute hindexed hhost a.ip
  exact fun frame hframe => hw.enclosed frame (hframes ▸ hframe)

theorem within_finish (hindexed : m.program.Indexed) (hhost : m.Locates host) :
    Within (World.Amid m.program function callers) (Fault.Located m.program) (m.finish host f) :=
  finish_within ⟨nofun, nofun⟩ (within_turn hindexed hhost)

theorem amid_call (limit : Option Limit) (depth : Nat) (f : Function) (args : List Value)
    (hw : w.Amid m.program function callers) : ((m.call limit depth f args).outcome w).2.Amid m.program function callers :=
  World.inward_amid _ _ _ (call_around limit depth f args w).current (call_around limit depth f args w).callers hw

theorem call_eq_error {limit : Option Limit} {depth : Nat} {args : List Value} {fault : Fault}
    (h : ((m.call limit (depth + 1) f args).outcome w).1 = .error fault) :
    (∃ why, fault = .breakdown why) ∨ fault = .of .callDepth ∨
      m.limits.callDepth.isPassed (w.callers.length + 1) = .ok false ∧
        ((m.finish (m.bodyHost limit depth) f).outcome ((enter f args).outcome w).2).1 = .error fault := by
  rw [call_succ] at h
  simp only [outcome_bind, outcome_get, outcome_liftBreakdown] at h
  cases hpassed : m.limits.callDepth.isPassed (w.callers.length + 1) with
  | error why =>
    rw [hpassed] at h
    cases h
    exact .inl ⟨why, rfl⟩
  | ok passed =>
    rw [hpassed] at h
    cases passed with
    | true =>
      cases h
      exact .inr (.inl rfl)
    | false =>
      dsimp only at h
      rw [if_neg Bool.false_ne_true, outcome_called] at h
      exact .inr (.inr ⟨rfl, h⟩)

theorem located_call (hindexed : m.program.Indexed) (limit : Option Limit) (depth : Nat) (f : Function) (args : List Value)
    (w : World) : ∀ fault, ((m.call limit depth f args).outcome w).1 = .error fault → fault.Located m.program := by
  induction depth generalizing f args w with
  | zero =>
    rintro _ ⟨⟩
    exact ⟨nofun, nofun⟩
  | succ depth ih =>
    have hhost : m.Locates (m.bodyHost limit depth) := fun function callers name f args _ w hw =>
      ⟨amid_call limit depth f args hw, ih f args w⟩
    have hentered : ((enter f args).outcome w).2.Amid m.program (some f) (⟨w.current, w.store.scope.inner⟩ :: w.callers) :=
      ⟨rfl, rfl, nofun⟩
    intro fault hfault
    rcases call_eq_error hfault with ⟨why, rfl⟩ | rfl | ⟨-, hfinish⟩
    · exact ⟨nofun, nofun⟩
    · exact Fault.located_of rfl
    · exact (within_finish hindexed hhost _ hentered).2 fault hfinish

theorem locates_bodyHost (hindexed : m.program.Indexed) (limit : Option Limit) (depth : Nat) :
    m.Locates (m.bodyHost limit depth) := fun _ _ _ f args _ w hw =>
  ⟨amid_call limit depth f args hw, located_call hindexed limit depth f args w⟩

end Machine

end Stepwise
