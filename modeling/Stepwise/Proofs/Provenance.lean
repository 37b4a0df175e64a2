import Stepwise.Proofs.Bearings
import Stepwise.Proofs.Declarations
import Stepwise.Proofs.Moments

/-!
# Where faults come from

A step may fail deep inside calls. The error that is reported then has been raised by one instruction
(`Machine.Strikes`), which gave it its line and its call stack, and all instructions around that one have let it pass as
it was: the instruction of the step came to a call that ended in this very error, the body of the called function
executed an instruction that ended in it, and so on (`Machine.Falls`). That an instruction comes to such a call is told
from outside, as in `Exec.CallsAt`: when these calls break down, so does the instruction (`Exec.CallsAmong`).

`Session.faults_reported_where_they_happen` says this of every step of every session, and what it means for the line and
the call stack that are shown.
-/

namespace Stepwise

open Exec Machine List

variable {α : Type}

/-! ### Calls of a kind -/

open Classical in
/-- The same host, except that the calls of a kind break down. -/
noncomputable def Host.barring (host : Host) (K : Function → List Value → World → Prop) (why : Breakdown) : Host :=
  { host with
    call := fun f args => do
      if K f args (← get) then throw (.breakdown why)
      host.call f args }

/-- Begun in the world, the computation comes to a call of the kind. -/
def Exec.CallsAmong (x : Host → Exec α) (host : Host) (w : World) (K : Function → List Value → World → Prop) : Prop :=
  ∀ why, ((x (host.barring K why)).outcome w).1 = .error (.breakdown why)

section Barring

variable {host : Host} {K : Function → List Value → World → Prop} {f : Function} {args : List Value} {w : World}

theorem Host.outcome_barring_of (h : K f args w) (why : Breakdown) :
    ((host.barring K why).call f args).outcome w = (.error (.breakdown why), w) := by
  simp [Host.barring, outcome_bind, outcome_get, h]

theorem Host.outcome_barring_of_not (h : ¬ K f args w) (why : Breakdown) :
    ((host.barring K why).call f args).outcome w = (host.call f args).outcome w := by
  simp [Host.barring, outcome_bind, outcome_get, h]

/-- There is a call of the kind that a computation comes to. -/
theorem Exec.CallsAmong.exists {x : Host → Exec α} (h : CallsAmong x host w K) : ∃ f args v, K f args v := by
  by_contra hnone
  -- if there is none, then nothing is barred, and the computation would break down for two reasons at once
  have hsame (why : Breakdown) : host.barring K why = host := by
    have hcall : (host.barring K why).call = host.call := by
      funext f args v
      exact Host.outcome_barring_of_not (fun hK => hnone ⟨f, args, v, hK⟩) why
    exact congrArg (fun call => { host with call }) hcall
  have hfirst := h .noInstruction
  have hsecond := h .sortInterference
  rw [hsame] at hfirst hsecond
  rw [hfirst] at hsecond
  cases hsecond

end Barring

/-- Two runs that are the same until the first one breaks down for the given reason. -/
def Pairing.barred (why : Breakdown) : Pairing := ⟨Eq, fun f _ => f = .breakdown why⟩

theorem Pairing.fair_barred (why : Breakdown) : (Pairing.barred why).Fair where
  abreast := by
    rintro _ _ rfl
    exact .rfl
  setStore s := by
    rintro rfl
    rfl
  setRandom r := by
    rintro rfl
    rfl
  setCurrent a := by
    rintro rfl
    rfl
  later _ h := h
  loud h := by cases h
  crosses line stack := by
    rintro ⟨⟩
    rfl

theorem Exec.Follows.barred_self {x : Exec α} (h : Keeps World.Warier x) (why : Breakdown) :
    Follows (Pairing.barred why) x x := by
  refine ⟨h, ?_⟩
  rintro w _ rfl
  exact .inr ⟨rfl, rfl⟩

namespace Machine

variable {m : Machine} {limit : Option Limit} {depth i : Nat} {K : Function → List Value → World → Prop} {host : Host}
  {w v : World} {e : Raised} {f : Function} {args : List Value}

theorem barred_hosts (why : Breakdown) :
    (Pairing.barred why).Hosts ((m.bodyHost limit depth).barring K why) (m.bodyHost limit depth) where
  same := rfl
  emit line := by
    refine .barred_self (fun w => ?_) why
    show w.warnings.toList <+: ((Exec.emit limit line).outcome w).2.warnings.toList
    rw [warnings_emit]
  call f args := by
    refine ⟨fun w => (call_around limit depth f args w).warnings, ?_⟩
    rintro w _ rfl
    by_cases hK : K f args w
    · rw [Host.outcome_barring_of hK]
      exact .inl ⟨_, rfl, rfl⟩
    · rw [Host.outcome_barring_of_not hK]
      exact .inr ⟨rfl, rfl⟩

/-- An instruction does the same when calls are barred, unless it comes to one of them. -/
theorem run_barring (K : Function → List Value → World → Prop) (instr : Instruction) (why : Breakdown) (w : World) :
    ((instr.run m.program m.limits.strict ((m.bodyHost limit depth).barring K why) i).outcome w).1 =
        .error (.breakdown why) ∨
      (instr.run m.program m.limits.strict ((m.bodyHost limit depth).barring K why) i).outcome w =
        (instr.run m.program m.limits.strict (m.bodyHost limit depth) i).outcome w := by
  have hfair := Pairing.fair_barred why
  have hfollows : Follows (Pairing.barred why)
      (instr.run m.program m.limits.strict ((m.bodyHost limit depth).barring K why) i)
      (instr.run m.program m.limits.strict (m.bodyHost limit depth) i) := by
    by_cases hsupported : ∃ why', instr.stmt = .unsupported why'
    · obtain ⟨why', hstmt⟩ := hsupported
      simp only [Instruction.run, hstmt]
      refine runUnsupported_follows hfair m.program i m.limits.strict instr why' ?_
      rintro _ _ t - rfl
      rfl
    · exact Instruction.run_follows hfair (barred_hosts why) m.program i m.limits.strict m.limits.strict instr
        fun why' hstmt => hsupported ⟨why', hstmt⟩
  rcases hfollows.meets (w := w) rfl with ⟨fault, hfault, rfl⟩ | ⟨hresult, hworld⟩
  · exact .inl hfault
  · exact .inr (Prod.ext hresult hworld)

/-! ### Errors that leave a call -/

theorem crossed_of_execute (h : ((m.execute host i).outcome w).1 = .error (.raised e)) : e.stack.isSome := by
  obtain ⟨instr, e₀, -, -, rfl⟩ := execute_eq_raised (eq_of_fst_eq h)
  rfl

theorem charge_eq_raised
    (h : ((m.bodyCourse f).charge.outcome w).1 = .error (.raised e)) : e.line = none ∧ e.stack = none := by
  simp only [bodyCourse, outcome_bind, outcome_modify, outcome_get, outcome_liftBreakdown] at h
  generalize m.limits.callSteps.isPassed (w.callSteps + 1) = passed at h
  rcases passed with why | passed
  · cases h
  · cases passed with
    | true =>
      cases h
      exact ⟨rfl, rfl⟩
    | false => cases h

theorem eq_of_charge {u : World} {r : Except Fault Unit}
    (h : (m.bodyCourse f).charge.outcome w = (r, u)) : u = { w with callSteps := w.callSteps + 1 } := by
  rw [← outcome_bodyCharge (m := m) (f := f), h]

/-- A call of the function in the world `v` is admitted, and in the world `u` it is about to execute the instruction
that its activation stands at. -/
structure Executes (m : Machine) (limit : Option Limit) (depth : Nat) (f : Function) (args : List Value) (v u : World) :
    Prop where
  admitted : m.limits.callDepth.isPassed (v.callers.length + 1) = .ok false
  turn : ∃ t, m.Visits (m.bodyHost limit depth) (m.bodyCourse f) ((enter f args).outcome v).2 t ∧
    (m.bodyCourse f).ended t.current.resolved = false ∧
    (m.bodyCourse f).charge.outcome { t with current := t.current.resolved } = (.ok (), u)

theorem turn_eq_raised {t t' : World} (h : (m.turn host (m.bodyCourse f)).outcome t = (.error (.raised e), t')) :
    e.line = none ∧ e.stack = none ∨ (m.bodyCourse f).ended t.current.resolved = false ∧
      ∃ u, (m.bodyCourse f).charge.outcome { t with current := t.current.resolved } = (.ok (), u) ∧
        (m.execute host u.current.ip).outcome u = (.error (.raised e), t') := by
  rw [Machine.turn, outcome_bind_ok (outcome_activation _ _), outcome_bind_ok (outcome_get _)] at h
  dsimp only at h
  split at h
  · cases h
  · rename_i hgoing
    rcases hcharge : (m.bodyCourse f).charge.outcome { t with current := t.current.resolved } with ⟨fault | _, u⟩
    · rw [outcome_bind_error hcharge] at h
      cases h
      exact .inl (charge_eq_raised (congrArg Prod.fst hcharge))
    · rw [outcome_bind_ok hcharge] at h
      have hcurrent : u.current = t.current.resolved := congrArg World.current (eq_of_charge hcharge)
      rw [← hcurrent] at h
      rcases hexecute : (m.execute host u.current.ip).outcome u with ⟨fault | next, u'⟩
      · rw [outcome_bind_error hexecute] at h
        cases h
        exact .inr ⟨Bool.eq_false_iff.mpr hgoing, u, rfl, hexecute⟩
      · rw [outcome_bind_ok hexecute] at h
        cases h

theorem drive_eq_raised {fuel : Nat} {w' : World}
    (h : (m.drive host (m.bodyCourse f) fuel).outcome w = (.error (.raised e), w')) :
    ∃ t, m.Visits host (m.bodyCourse f) w t ∧ (m.turn host (m.bodyCourse f)).outcome t = (.error (.raised e), w') := by
  suffices ∀ w₀, m.Visits host (m.bodyCourse f) w₀ w →
      ∃ t, m.Visits host (m.bodyCourse f) w₀ t ∧ (m.turn host (m.bodyCourse f)).outcome t = (.error (.raised e), w') from
    this w .start
  induction fuel generalizing w with
  | zero => cases h
  | succ fuel ih =>
    intro w₀ hvisits
    rw [drive] at h
    rcases hturn : (m.turn host (m.bodyCourse f)).outcome w with ⟨fault | more, w₁⟩
    · rw [outcome_bind_error hturn] at h
      cases h
      exact ⟨w, hvisits, hturn⟩
    · rw [outcome_bind_ok hturn] at h
      cases more with
      | true => exact ih h w₀ (hvisits.turn hturn)
      | false => cases h

theorem call_eq_raised (h : ((m.call limit (depth + 1) f args).outcome v).1 = .error (.raised e)) :
    e.line = none ∧ e.stack = none ∨ ∃ u u', m.Executes limit depth f args v u ∧
      (m.execute (m.bodyHost limit depth) u.current.ip).outcome u = (.error (.raised e), u') := by
  rcases call_eq_error h with ⟨why, hfault⟩ | hfault | ⟨hadmitted, hfinish⟩
  · cases hfault
  · cases hfault
    exact .inl ⟨rfl, rfl⟩
  · have hfinish' := eq_of_fst_eq hfinish
    rw [finish, outcome_bind_ok (outcome_get _)] at hfinish'
    rw [runBody_eq_drive] at hfinish'
    rcases hdrive : (m.drive (m.bodyHost limit depth) (m.bodyCourse f) (m.limits.callSteps.room -
      ((enter f args).outcome v).2.callSteps + 2)).outcome ((enter f args).outcome v).2 with ⟨fault | _, w⟩
    · rw [outcome_bind_error hdrive] at hfinish'
      cases hfinish'
      obtain ⟨t, hvisits, hturn⟩ := drive_eq_raised hdrive
      rcases turn_eq_raised hturn with hbare | ⟨hgoing, u, hcharge, hexecute⟩
      · exact .inl hbare
      · exact .inr ⟨u, _, ⟨hadmitted, t, hvisits, hgoing, hcharge⟩, hexecute⟩
    · rw [outcome_bind_ok hdrive] at hfinish'
      cases hfinish'

theorem line_of_call
    (h : ((m.call limit depth f args).outcome v).1 = .error (.raised e)) (hstack : e.stack = none) : e.line = none := by
  cases depth with
  | zero => cases h
  | succ depth =>
    rcases call_eq_raised h with hbare | ⟨u, u', -, hexecute⟩
    · exact hbare.1
    · have hcrossed := crossed_of_execute (congrArg Prod.fst hexecute)
      rw [hstack] at hcrossed
      cases hcrossed

end Machine

/-! ### The instruction that raises an error -/

/-- The line that an error gets when the instruction at the index raises it: that of the instruction, or that of the
header of a block that is not closed. -/
inductive Program.Blames (p : Program) (i : Nat) : Cause → Nat → Prop
  | own {cause : Cause} {instr : Instruction} (found : p.instructions[i]? = some instr) :
      Blames p i cause (instr.line + 1)
  | unclosed {o : Nat} {header : Instruction} (leads : p.Leads i o) (found : p.instructions[o]? = some header)
      (opens : header.opens) (unclosed : p.closerOf[o]? = none) :
      Blames p i (.unclosedBlock ⟨header.line + 1⟩) (header.line + 1)

namespace Machine

variable {m : Machine} {limit : Option Limit} {depth i : Nat} {function : Option Function} {callers : List Caller}
  {w w' : World} {e : Raised} {instr : Instruction}

/-- The instruction that the world is at raises the error, and not in a call: it gives the error its line and its call
stack. -/
structure Strikes (m : Machine) (host : Host) (e : Raised) (w : World) : Prop where
  raises : ∃ instr place w', m.program.instructions[w.current.ip]? = some instr ∧
    (instr.run m.program m.limits.strict host w.current.ip).outcome w = (.error (.raised ⟨e.cause, place, none⟩), w') ∧
    e.line = some (place.getD (instr.line + 1))
  blames : ∃ line, e.line = some line ∧ m.program.Blames w.current.ip e.cause line
  stack : e.stack = some w.callStack

/-- A call that is made while the instruction that the world is at is executed, and that ends in the error. -/
structure Passes (m : Machine) (limit : Option Limit) (depth : Nat) (e : Raised) (w : World) (f : Function)
    (args : List Value) (v : World) : Prop where
  registered : ∃ name, m.program.functions.get? name = some f
  function : v.current.function = w.current.function
  callers : v.callers = w.callers
  ends : ((m.call limit depth f args).outcome v).1 = .error (.raised e)

/-- The error comes from the instruction that the world is at: that one raises it, or it comes to a call that executes
an instruction which the error comes from. -/
def Falls (m : Machine) (limit : Option Limit) (e : Raised) : (depth : Nat) → World → Prop
  | 0, w => m.Strikes (m.bodyHost limit 0) e w
  | depth + 1, w => m.Strikes (m.bodyHost limit (depth + 1)) e w ∨
      CallsAmong (fun host => m.execute host w.current.ip) (m.bodyHost limit (depth + 1)) w fun f args v =>
        m.Passes limit (depth + 1) e w f args v ∧ ∃ u, m.Executes limit depth f args v u ∧ m.Falls limit e depth u

theorem blames_of_run {cause : Cause} {place : Option Nat} (hindexed : m.program.Indexed)
    (hw : w.Amid m.program function callers) (hinstr : m.program.instructions[i]? = some instr)
    (hrun : (instr.run m.program m.limits.strict (m.bodyHost limit depth) i).outcome w =
      (.error (.raised ⟨cause, place, none⟩), w')) : m.program.Blames i cause (place.getD (instr.line + 1)) := by
  have hexecuting : m.program.Executing i function callers
      (fun f => m.program.Raises i f ∨ ∀ e, f = .raised e → e.stack = none → e.line = none) (m.bodyHost limit depth) := by
    refine ⟨hindexed, fun _ => .inl, fun name f args _ v hv => ⟨amid_call limit depth f args hv, ?_⟩⟩
    refine fun fault hfault => .inr ?_
    rintro e rfl
    exact line_of_call hfault
  rcases (hexecuting.run hinstr m.limits.strict w hw).2 _ (congrArg Prod.fst hrun) with hraises | hbare
  · generalize hfault : Fault.raised ⟨cause, place, none⟩ = fault at hraises
    cases hraises with
    | own unplaced =>
      cases hfault
      rw [unplaced]
      exact .own hinstr
    | unclosed leads found opens unclosed =>
      cases hfault
      exact .unclosed leads found opens unclosed
    | breakdown why => cases hfault
  · obtain rfl : place = none := hbare _ rfl rfl
    exact .own hinstr

theorem callsAmong_of_run (hindexed : m.program.Indexed)
    (hw : w.Amid m.program function callers) (hinstr : m.program.instructions[i]? = some instr)
    (hrun : (instr.run m.program m.limits.strict (m.bodyHost limit depth) i).outcome w = (.error (.raised e), w'))
    (hcrossed : e.stack.isSome) :
    CallsAmong (fun host => m.execute host i) (m.bodyHost limit depth) w (m.Passes limit depth e w) := by
  intro why
  -- with these calls barred, no call ends in the error, and the instruction does not raise it by itself
  have hexecuting : m.program.Executing i function callers (fun fault => fault ≠ .raised e)
      ((m.bodyHost limit depth).barring (m.Passes limit depth e w) why) := by
    refine ⟨hindexed, ?_, fun name f args hname v hv => ?_⟩
    · rintro _ hraises rfl
      generalize hfault : Fault.raised e = fault at hraises
      cases hraises with
      | own _ =>
        cases hfault
        cases hcrossed
      | unclosed _ _ _ _ =>
        cases hfault
        cases hcrossed
      | breakdown _ => cases hfault
    · by_cases hpasses : m.Passes limit depth e w f args v
      · rw [Host.outcome_barring_of hpasses]
        refine ⟨hv, ?_⟩
        rintro _ ⟨⟩ ⟨⟩
      · rw [Host.outcome_barring_of_not hpasses]
        refine ⟨amid_call limit depth f args hv, ?_⟩
        rintro _ hends rfl
        exact hpasses ⟨⟨name, hname⟩, hv.function.trans hw.function.symm, hv.callers.trans hw.callers.symm, hends⟩
  have hbroken : ((instr.run m.program m.limits.strict ((m.bodyHost limit depth).barring (m.Passes limit depth e w) why)
      i).outcome w).1 = .error (.breakdown why) := by
    refine (run_barring _ instr why w).resolve_right fun hsame => ?_
    rw [hrun] at hsame
    exact (hexecuting.run hinstr m.limits.strict w hw).2 _ (congrArg Prod.fst hsame) rfl
  simp only [execute, hinstr, outcome_tryCatch]
  rw [eq_of_fst_eq hbroken]
  rfl

/-- An error that leaves an instruction was raised by it, or it has left the instruction as it came out of a call. -/
theorem strikes_or_crossed (hindexed : m.program.Indexed) (hw : w.Amid m.program function callers)
    (h : (m.execute (m.bodyHost limit depth) w.current.ip).outcome w = (.error (.raised e), w')) :
    m.Strikes (m.bodyHost limit depth) e w ∨
      CallsAmong (fun host => m.execute host w.current.ip) (m.bodyHost limit depth) w (m.Passes limit depth e w) := by
  obtain ⟨instr, ⟨cause, place, labels⟩, hinstr, hrun, rfl⟩ := execute_eq_raised h
  have hhost := locates_bodyHost hindexed limit depth
  cases labels with
  | none =>
    left
    have hafter := (within_execute hindexed hhost w.current.ip w hw).1
    rw [h] at hafter
    have hstack : w'.callStack = w.callStack := by
      simp only [World.callStack, Activation.label]
      rw [hafter.function, hafter.callers, hw.function, hw.callers]
    exact ⟨⟨instr, place, w', hinstr, hrun, rfl⟩, ⟨_, rfl, blames_of_run hindexed hw hinstr hrun⟩, congrArg some hstack⟩
  | some labels =>
    right
    have hexecuting : m.program.Executing w.current.ip function callers (Fault.Located m.program)
        (m.bodyHost limit depth) := ⟨hindexed, fun _ hraises => hraises.located, hhost function callers⟩
    have hlocated := (hexecuting.run hinstr m.limits.strict w hw).2 _ (congrArg Prod.fst hrun)
    -- the error has a line already, so that the instruction has left it as it was
    obtain ⟨line, rfl⟩ : ∃ line, place = some line := Option.isSome_iff_exists.mp (hlocated.crossed rfl rfl)
    exact callsAmong_of_run hindexed hw hinstr hrun rfl

/-- The world in which a call executes an instruction is inside the body of the function. -/
theorem Executes.amid {f : Function} {args : List Value} {v u : World} (hindexed : m.program.Indexed)
    (h : m.Executes limit depth f args v u) :
    u.Amid m.program (some f) (⟨v.current, v.store.scope.inner⟩ :: v.callers) := by
  obtain ⟨t, hvisits, -, hcharge⟩ := h.turn
  have ht : t.Amid m.program (some f) (⟨v.current, v.store.scope.inner⟩ :: v.callers) := by
    clear hcharge
    induction hvisits with
    | start => exact ⟨rfl, rfl, nofun⟩
    | turn _ hturn ih =>
      have hafter := (within_turn (f := f) hindexed (locates_bodyHost hindexed limit depth) _ ih).1
      rw [hturn] at hafter
      exact hafter
  rw [eq_of_charge hcharge]
  exact ⟨ht.function, ht.callers, ht.enclosed⟩

/-- An error that leaves an instruction has fallen to it from the one that raised it. -/
theorem falls_of_execute (hindexed : m.program.Indexed) (hw : w.Amid m.program function callers)
    (h : (m.execute (m.bodyHost limit depth) w.current.ip).outcome w = (.error (.raised e), w')) :
    m.Falls limit e depth w := by
  induction depth generalizing w w' function callers with
  | zero =>
    rcases strikes_or_crossed hindexed hw h with hstrikes | hcalls
    · exact hstrikes
    · -- no call is left that could end in an error
      obtain ⟨f, args, v, hpasses⟩ := hcalls.exists
      cases hpasses.ends
  | succ depth ih =>
    have hcrossed := crossed_of_execute (congrArg Prod.fst h)
    refine (strikes_or_crossed hindexed hw h).imp_right fun hcalls => ?_
    have hsame : (fun f args v => m.Passes limit (depth + 1) e w f args v ∧
        ∃ u, m.Executes limit depth f args v u ∧ m.Falls limit e depth u) = m.Passes limit (depth + 1) e w := by
      funext f args v
      refine propext (and_iff_left_of_imp fun hpasses => ?_)
      rcases call_eq_raised hpasses.ends with hbare | ⟨u, u', hexecutes, hexecute⟩
      · rw [hbare.2] at hcrossed
        cases hcrossed
      · exact ⟨u, hexecutes, ih (hexecutes.amid hindexed) hexecute⟩
    rw [hsame]
    exact hcalls

end Machine

/-! ### Lines and labels -/

namespace Program

variable {source name : Text} {p : Program} {f : Function} {i j : Nat} {instr instr' : Instruction}

theorem line_le (h : load source = .ok p) (hle : i ≤ j) (hi : p.instructions[i]? = some instr)
    (hj : p.instructions[j]? = some instr') : instr.line ≤ instr'.line := by
  rcases Nat.eq_or_lt_of_le hle with rfl | hlt
  · rw [hi] at hj
    rw [Option.some.inj hj]
  · have hordered := List.pairwise_iff_getElem.mp (lineFaithful_load h).ordered
    rw [← Array.getElem?_toList] at hi hj
    obtain ⟨hi', rfl⟩ := List.getElem?_eq_some_iff.mp hi
    obtain ⟨hj', rfl⟩ := List.getElem?_eq_some_iff.mp hj
    exact hordered i j hi' hj' hlt

theorem function_eq (h : load source = .ok p) (hf : p.functions.get? name = some f) :
    f.name = name ∧ ∃ header closer, p.instructions[f.start]? = some header ∧ p.instructions[f.stop]? = some closer ∧
      f.startLine = header.line ∧ f.stopLine = closer.line := by
  obtain ⟨start, -, hat⟩ := (function?_eq_some_iff h).mp hf
  simp only [functionAt?, Option.bind_eq_bind, Option.bind_eq_some_iff] at hat
  obtain ⟨stop, -, header, hheader, closer, hcloser, hmade⟩ := hat
  cases hmade
  exact ⟨rfl, header, closer, hheader, hcloser, rfl, rfl⟩

/-- Inside a function that can be called, all blocks are closed, and so an error that an instruction raises gets the line
of the instruction, which is one of the lines of the function. -/
theorem Blames.line_of_body {cause : Cause} {line : Nat} (h : p.Blames i cause line) (hload : load source = .ok p)
    (hf : p.functions.get? name = some f) (hstart : f.start < i) (hstop : i < f.stop) :
    ∃ instr, p.instructions[i]? = some instr ∧ line = instr.line + 1 ∧ f.startLine ≤ instr.line ∧
      instr.line ≤ f.stopLine := by
  cases h with
  | @own _ instr found =>
    obtain ⟨-, header, closer, hheader, hcloser, hfirst, hlast⟩ := function_eq hload hf
    refine ⟨instr, found, rfl, ?_, ?_⟩
    · rw [hfirst]
      exact line_le hload (Nat.le_of_lt hstart) hheader found
    · rw [hlast]
      exact line_le hload (Nat.le_of_lt hstop) found hcloser
  | @unclosed o header leads found opens unclosed =>
    have hindexed := indexed_load hload
    have hblock := hindexed.function hf
    have hbefore : o < f.stop := leads.lt_of_region hindexed (hindexed.region_block hblock) hstart hstop
    have hafter : i ≤ o := Leads.le leads hindexed
    obtain ⟨c, hclosed, -⟩ :=
      (scanned_load hload).inside hblock (Nat.lt_of_lt_of_le hstart hafter) hbefore found opens
    rw [unclosed] at hclosed
    cases hclosed

end Program

/-- The activations of the world are that of the program and, inside each other, those of the functions. -/
structure World.Traces (p : Program) (fs : List Function) (w : World) : Prop where
  labels : w.callStack = "global".codes :: fs.map fun f => f.name ++ "()".codes
  current : w.current.function = fs.getLast?
  registered : ∀ f ∈ fs, p.functions.get? f.name = some f

/-- The activation of a function stands at an instruction of its body. -/
def World.Inside (fs : List Function) (w : World) : Prop :=
  ∀ f, fs.getLast? = some f → f.start < w.current.ip ∧ w.current.ip < f.stop

namespace Machine

variable {m : Machine} {source : Text} {limit : Option Limit} {depth : Nat} {w v u : World} {e : Raised} {f : Function}
  {args : List Value} {fs : List Function}

theorem traces_main {p : Program} (hw : w.Amid p none []) : w.Traces p [] where
  labels := by
    rw [World.callStack, Activation.label, hw.function, hw.callers]
    rfl
  current := hw.function
  registered := forall_mem_nil _

theorem Executes.traces (h : m.Executes limit depth f args v u) (hload : Program.load source = .ok m.program)
    (hpasses : m.Passes limit (depth + 1) e w f args v) (hw : w.Traces m.program fs) :
    u.Traces m.program (fs ++ [f]) where
  labels := by
    have hu := h.amid (Program.indexed_load hload)
    have hlabel : v.current.label = w.current.label := by
      rw [Activation.label, Activation.label, hpasses.function]
    have hbefore : (w.current.label :: w.callers.map (·.activation.label)).reverse =
        "global".codes :: fs.map fun f => f.name ++ "()".codes := hw.labels
    rw [World.callStack, hu.callers, Activation.label, hu.function, map_cons, reverse_cons]
    rw [hpasses.callers, hlabel, hbefore, map_append]
    rfl
  current := by rw [(h.amid (Program.indexed_load hload)).function, getLast?_concat]
  registered := by
    obtain ⟨name, hname⟩ := hpasses.registered
    refine forall_mem_append.mpr ⟨hw.registered, forall_mem_singleton.mpr ?_⟩
    rw [(Program.function_eq hload hname).1]
    exact hname

theorem Executes.inside {name : Text} (h : m.Executes limit depth f args v u) (hindexed : m.program.Indexed)
    (hname : m.program.functions.get? name = some f) : f.start < u.current.ip ∧ u.current.ip < f.stop := by
  obtain ⟨t, hvisits, hgoing, hcharge⟩ := h.turn
  have hcurrent : u.current = t.current.resolved := congrArg World.current (eq_of_charge hcharge)
  have hbody : m.InBody f t := ⟨limit, depth, args, v, hvisits⟩
  obtain ⟨first, last, stop, hstacked, hfirst, -⟩ := (hbody.tracked hindexed hname).2.placed
  have hlo : f.start + 1 ≤ first := (hstacked.within hindexed).1
  rw [hcurrent]
  exact ⟨Nat.le_trans hlo hfirst, lt_of_not_ended hgoing⟩

/-- The error was raised in some world, further inside by as many calls as there are functions more. -/
theorem Falls.exists_strikes (h : m.Falls limit e depth w) (hload : Program.load source = .ok m.program)
    (hw : w.Traces m.program fs) (hinside : w.Inside fs) :
    ∃ more depth' u, m.Strikes (m.bodyHost limit depth') e u ∧ u.Traces m.program (fs ++ more) ∧ u.Inside (fs ++ more) ∧
      (more = [] → u = w) := by
  induction depth generalizing w fs with
  | zero =>
    refine ⟨[], 0, w, h, ?_⟩
    rw [append_nil]
    exact ⟨hw, hinside, fun _ => rfl⟩
  | succ depth ih =>
    rcases h with hstrikes | hcalls
    · refine ⟨[], depth + 1, w, hstrikes, ?_⟩
      rw [append_nil]
      exact ⟨hw, hinside, fun _ => rfl⟩
    · obtain ⟨f, args, v, hpasses, u, hexecutes, hfalls⟩ := hcalls.exists
      obtain ⟨name, hname⟩ := hpasses.registered
      have hbody : u.Inside (fs ++ [f]) := by
        intro g hg
        rw [getLast?_concat] at hg
        cases hg
        exact hexecutes.inside (Program.indexed_load hload) hname
      obtain ⟨more, depth', u', hstrikes, htraces, hinside', -⟩ := ih hfalls (hexecutes.traces hload hpasses hw) hbody
      rw [append_assoc] at htraces hinside'
      exact ⟨[f] ++ more, depth', u', hstrikes, htraces, hinside', nofun⟩

end Machine

/-! ### Steps of a session -/

namespace Session

variable {s s' : Session} {more : Bool} {report : Report}

/-- A step that ends with an error has executed an instruction that failed, and the error is shown with the line and the
call stack that it came with. -/
theorem failed_of_step (herror : s.error = none) (hstep : s.run step = (.ok more, s')) (hreport : s'.error = some report) :
    ∃ w, (s.machine.execute s.host s.world.current.nextIndex).outcome s.ready =
        (.error (.raised ⟨report.cause, some report.line, some s'.published.callStack⟩), w) ∧
      s'.published.error = some report ∧ s'.published.currentLine = report.line := by
  cases step_cases hstep with
  | refused error => simp [herror] at error
  | told comes view =>
    cases comes with
    | ended => exact absurd (herror.symm.trans hreport) nofun
    | moved => exact absurd (herror.symm.trans hreport) nofun
    | @failed e w _ executes =>
      obtain ⟨instr, e₀, -, -, rfl⟩ := Machine.execute_eq_raised executes
      obtain ⟨rows, -, rfl⟩ := view_eq_ok view
      cases hreport
      exact ⟨w, executes, rfl, rfl⟩

/-- Faults are reported where they happen, however deep in calls. The error that a step ends with was raised by one
instruction, and no instruction around it has changed its line or its call stack. The call stack that is shown has the
program and the functions whose activations were executing an instruction then. If the last one is a function, the line
is that of the instruction which its activation was executing, and one of the lines of the function; otherwise it is that
of the instruction at the pointer, or that of the header of a block that is not closed. -/
theorem faults_reported_where_they_happen (hs : s.Attained) (herror : s.error = none)
    (hstep : s.run step = (.ok more, s')) (hreport : s'.error = some report) :
    s'.published.error = some report ∧ s'.published.currentLine = report.line ∧
      s.machine.Falls (some s.settings.maxOutputLines) ⟨report.cause, some report.line, some s'.published.callStack⟩
        s.machine.nesting s.ready ∧
      ∃ fs : List Function, s'.published.callStack = "global".codes :: (fs.map fun f => f.name ++ "()".codes) ∧
        (∀ f ∈ fs, s.machine.program.functions.get? f.name = some f) ∧
        (fs = [] → s.machine.program.Blames s.world.current.nextIndex report.cause report.line) ∧
        ∀ f, fs.getLast? = some f → ∃ depth u instr,
          s.machine.Strikes (s.hostAt depth) ⟨report.cause, some report.line, some s'.published.callStack⟩ u ∧
          u.current.function = some f ∧ s.machine.program.instructions[u.current.ip]? = some instr ∧
          report.line - 1 = instr.line ∧ f.startLine ≤ report.line - 1 ∧ report.line - 1 ≤ f.stopLine := by
  obtain ⟨w, hexecute, hshown, hline⟩ := failed_of_step herror hstep hreport
  have hanchored := hs.timed.placed.anchored
  obtain ⟨source, hload⟩ := hanchored.loaded
  have hfalls := falls_of_execute hanchored.indexed hanchored.ready hexecute
  obtain ⟨fs, depth, u, hstrikes, htraces, hinside, hhere⟩ :=
    hfalls.exists_strikes hload (traces_main hanchored.ready) nofun
  obtain ⟨line, hplace, hblames⟩ := hstrikes.blames
  cases hplace
  have hlabels : s'.published.callStack = u.callStack := Option.some.inj hstrikes.stack
  refine ⟨hshown, hline, hfalls, fs, hlabels.trans htraces.labels, htraces.registered, ?_, fun f hf => ?_⟩
  · intro hnone
    rw [hhere hnone] at hblames
    exact hblames
  · obtain ⟨hstart, hstop⟩ := hinside f hf
    have hregistered := htraces.registered f (mem_of_getLast? hf)
    obtain ⟨instr, hinstr, hnext, hfirst, hlast⟩ := hblames.line_of_body hload hregistered hstart hstop
    have hbefore : report.line - 1 = instr.line := by
      rw [hnext, Nat.add_sub_cancel]
    rw [hbefore]
    exact ⟨depth, u, instr, hstrikes, htraces.current.trans hf, hinstr, rfl, hfirst, hlast⟩

/-- A function that calls another one, in which a name is not defined. -/
theorem faults_reported_where_they_happen_nested : ∃ (s s' : Session) (report : Report), s.Attained ∧ s.error = none ∧
    s.run step = (.ok false, s') ∧ s'.error = some report ∧ report.line = 2 ∧
    s'.published.callStack = ["global".codes, "f()".codes, "g()".codes] ∧
    s.machine.Falls (some s.settings.maxOutputLines) ⟨report.cause, some report.line, some s'.published.callStack⟩
      s.machine.nesting s.ready ∧
    ∃ g, s.machine.program.functions.get? "g".codes = some g ∧ g.startLine ≤ 1 ∧ 1 ≤ g.stopLine := by
  obtain ⟨s, hs, hnow⟩ := exists_reachable .standard
    "function g() \x7b\n  return x\n\x7d\nfunction f() \x7b\n  g()\n\x7d\nf()".codes [.step, .step, .step, .step]
    (fun s => s.error.isNone && (s.run step).1.toOption == some false && (s.run step).2.error.any (·.line == 2) &&
      (s.run step).2.published.callStack == ["global".codes, "f()".codes, "g()".codes]) (by decide +kernel)
  simp only [Bool.and_eq_true, Option.isNone_iff_eq_none, beq_iff_eq, Option.any_eq_true] at hnow
  obtain ⟨⟨⟨herror, hfalse⟩, report, hreport, hline⟩, hlabels⟩ := hnow
  have hstep : s.run step = (.ok false, (s.run step).2) := eq_of_fst_eq (eq_ok_of_toOption hfalse)
  obtain ⟨-, -, hfalls, fs, hstack, hregistered, -, hlast⟩ :=
    faults_reported_where_they_happen hs.attained herror hstep hreport
  refine ⟨s, (s.run step).2, report, hs.attained, herror, hstep, hreport, hline, hlabels, hfalls, ?_⟩
  -- two functions are in the call stack, and their names are those of the labels
  obtain ⟨-, hmap⟩ := cons.inj (hlabels.symm.trans hstack)
  have htwo : fs.length = 2 := by simpa using (congrArg List.length hmap).symm
  obtain ⟨f, g, rfl⟩ := length_eq_two.mp htwo
  have hlabel : "g()".codes = g.name ++ "()".codes := (cons.inj (cons.inj hmap).2).1
  have hname : g.name = "g".codes :=
    append_cancel_right (hlabel.symm.trans (by decide : "g()".codes = "g".codes ++ "()".codes))
  obtain ⟨depth, u, instr, -, -, -, -, hfirst, hlast⟩ := hlast g rfl
  rw [hline] at hfirst hlast
  exact ⟨g, hname ▸ hregistered g (mem_cons_of_mem f mem_cons_self), hfirst, hlast⟩

end Session

end Stepwise
