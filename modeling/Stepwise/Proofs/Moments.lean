import Stepwise.Proofs.CustodyControl
import Stepwise.Proofs.Sharing
import Stepwise.Proofs.Undo

/-!
# Moments of an execution

A step of a session executes one instruction of the program; the calls in it execute the bodies of functions, turn by
turn, and these make calls again. `Session.Underway` has every computation of a step that begins at some time, and
`Session.Moment` the worlds at which these begin, call, come back from a call, and end. That a computation comes to a
call is told from outside: it breaks down for whatever reason that call does (`Exec.CallsAt`).

At every moment no array or object is part of itself, and no two variables share one: `Session.variables_unshared`.
-/

namespace Stepwise

open Exec Machine Relation

/-! ### Calls that a computation comes to -/

open Classical in
/-- The same host, except that one call, made in one world, breaks down. -/
noncomputable def Host.stopping (host : Host) (f : Function) (args : List Value) (v : World) (why : Breakdown) : Host :=
  { host with
    call := fun f' args' => do
      if f' = f ∧ args' = args ∧ (← get) = v then throw (.breakdown why)
      host.call f' args' }

/-- Begun in the world `w`, the computation comes to calling the function in the world `v`. -/
def Exec.CallsAt {α : Type} (x : Host → Exec α) (host : Host) (w : World) (f : Function) (args : List Value) (v : World) :
    Prop :=
  ∀ why, ((x (host.stopping f args v why)).outcome w).1 = .error (.breakdown why)

theorem Host.outcome_stopping_self (host : Host) (f : Function) (args : List Value) (v : World) (why : Breakdown) :
    ((host.stopping f args v why).call f args).outcome v = (.error (.breakdown why), v) := by
  simp [Host.stopping, outcome_bind, outcome_get]

theorem Host.outcome_stopping_of_ne (host : Host) (f : Function) (args : List Value) {v w : World} (why : Breakdown)
    (f' : Function) (args' : List Value) (h : w ≠ v) :
    ((host.stopping f args v why).call f' args').outcome w = (host.call f' args').outcome w := by
  simp [Host.stopping, outcome_bind, outcome_get, h]

namespace Custody

variable {C : Custody} {g : C.Ledger} {host : Host}

/-- A computation that is sound with sound calls comes to calls only in worlds that are kept. -/
theorem exists_kept_of_callsAt {α : Type} {x : Host → Exec α} (hescape : ∀ f, C.escape f → f = .breakdown .exhausted)
    (hx : ∀ {host host' : Host}, C.Hosts host host' → C.Safe g (x host) (x host')) (hhost : C.Hosts host host) {w v : World}
    {f : Function} {args : List Value} (hw : C.Kept g w) (hcalls : CallsAt x host w f args v) : ∃ g', C.Kept g' v := by
  by_contra hnone
  -- where the call is never come to, stopping it makes no difference
  have hstopping (why : Breakdown) : C.Hosts (host.stopping f args v why) host := by
    refine ⟨rfl, rfl, fun g' name f' args' hname w' hw' => ?_⟩
    have hne : w' ≠ v := fun h => hnone ⟨g', h ▸ hw'⟩
    rw [host.outcome_stopping_of_ne f args why f' args' hne]
    exact hhost.call g' name f' args' hname w' hw'
  have hsame (why : Breakdown) (hwhy : why ≠ .exhausted) : ((x host).outcome w).1 = .error (.breakdown why) := by
    obtain ⟨g', -, -, hresult⟩ := hx (hstopping why) w hw
    rw [hcalls why] at hresult
    rcases hresult with hout | ⟨hsame, -⟩
    · cases hescape _ hout
      exact absurd rfl hwhy
    · rw [hsame, hcalls why]
  have hdiffer := (hsame .noInstruction nofun).symm.trans (hsame .sortInterference nofun)
  cases hdiffer

end Custody

/-! ### What a step executes -/

/-- Something that is executed by a step: an instruction of the program itself, or a turn of the body of a function. -/
inductive Activity
  | instruction (i : Nat)
  | body (f : Function)

/-- Execute it. -/
def Activity.run (m : Machine) (a : Activity) (host : Host) : Exec Unit :=
  match a with
  | .instruction i => do let _ ← m.execute host i
  | .body f => do let _ ← m.turn host (m.bodyCourse f)

theorem Custody.Sound.activity {C : Custody} {g : C.Ledger} {m : Machine} {host host' : Host} (a : Activity)
    (hhosts : C.Hosts host host') : C.Safe g (a.run m host) (a.run m host') := by
  cases a with
  | instruction i => exact .seq (.execute hhosts i) fun _ _ _ _ => .done trivial
  | body f => exact .seq (.bodyTurn hhosts) fun _ _ _ _ => .done trivial

/-! ### Statements that call -/

namespace Machine

variable {m : Machine} {host : Host} {i : Nat} {w v : World} {f f' : Function} {u : Value}

theorem outcome_execute_call {instr : Instruction} {x : Text} {items : List Item} {args : List Value}
    (hinstr : m.program.instructions[i]? = some instr) (hstmt : instr.stmt = .act (.evaluate (.call (.name x) items)))
    (hfree : w.store.scope.find? x = none) (hfound : host.function? x = some f)
    (hargs : ∀ host, (evalArgs host items).outcome w = (.ok args, v)) (why : Breakdown) :
    (m.execute (host.stopping f args v why) i).outcome w = (.error (.breakdown why), v) := by
  have hfunction : (host.stopping f args v why).function? x = some f := hfound
  have hcallee : (Eval.calleeOfName (host.stopping f args v why) x).outcome w = (.ok (.function x), w) := by
    simp [Eval.calleeOfName, outcome_bind, outcome_get, hfree, Host.isFunction, hfunction]
  have hcall : (Eval.callOf (host.stopping f args v why) (.function x) args).outcome v = (.error (.breakdown why), v) := by
    simp only [Eval.callOf, Host.invoke, Host.invokeWithin, hfunction, host.outcome_stopping_self]
  have heval : ((Expr.call (.name x) items).eval (host.stopping f args v why)).outcome w =
      (.error (.breakdown why), v) := by
    rw [Expr.eval, outcome_bind_ok hcallee, outcome_bind_ok (hargs _), hcall]
  have hrun : (instr.run m.program m.limits.strict (host.stopping f args v why) i).outcome w =
      (.error (.breakdown why), v) := by
    simp only [Instruction.run, hstmt, Action.run]
    rw [outcome_bind, outcome_bind, heval]
  simp only [execute, hinstr, outcome_tryCatch, hrun, outcome_bind, outcome_get]
  rfl

/-- The function and the argument when the instruction is a statement that calls a function with a variable. -/
def pendingCall? (m : Machine) (w : World) (i : Nat) : Option (Function × Value) :=
  match m.program.instructions[i]? with
  | some ⟨_, .act (.evaluate (.call (.name x) [.single (.name y)])), _, _, _⟩ =>
    match w.store.scope.find? x, m.program.functions.get? x, w.store.scope.find? y with
    | none, some f, some b => some (f, b.value)
    | _, _, _ => none
  | _ => none

theorem outcome_execute_pendingCall (hfunctions : host.functions = m.program.functions)
    (h : m.pendingCall? w i = some (f, u)) (why : Breakdown) :
    (m.execute (host.stopping f [u] w why) i).outcome w = (.error (.breakdown why), w) := by
  unfold pendingCall? at h
  split at h
  · rename_i line x y text opens closes hinstr
    split at h
    · rename_i b hfree hfound hbound
      cases h
      have hfunction : host.function? x = some f := by rw [Host.function?, hfunctions, hfound]
      refine outcome_execute_call hinstr rfl hfree hfunction (fun host => ?_) why
      have hname : (Eval.name host y).outcome w = (.ok b.value, w) := by
        rw [Eval.name, outcome_bind_ok (outcome_get w), hbound, outcome_pure]
      rw [evalArgs, Expr.eval, outcome_bind_ok hname]
      rfl
    · cases h
  · cases h

theorem callsAt_instruction (hfunctions : host.functions = m.program.functions) (h : m.pendingCall? w i = some (f, u)) :
    CallsAt ((Activity.instruction i).run m) host w f [u] w := by
  intro why
  rw [Activity.run, outcome_bind_error (outcome_execute_pendingCall hfunctions h why)]

theorem callsAt_body (hfunctions : host.functions = m.program.functions)
    (hgoing : (m.bodyCourse f).ended w.current.resolved = false)
    (hcharge : (m.bodyCourse f).charge.outcome { w with current := w.current.resolved } = (.ok (), v))
    (h : m.pendingCall? v w.current.resolved.ip = some (f', u)) :
    CallsAt ((Activity.body f).run m) host w f' [u] v := by
  intro why
  have hexecute := outcome_execute_pendingCall hfunctions h why
  have hturn : (m.turn (host.stopping f' [u] v why) (m.bodyCourse f)).outcome w = (.error (.breakdown why), v) := by
    rw [turn, outcome_bind_ok (outcome_activation _ _), outcome_bind_ok (outcome_get _)]
    simp only [hgoing, Bool.false_eq_true, if_false]
    rw [outcome_bind_ok hcharge, outcome_bind_error hexecute]
  rw [Activity.run, outcome_bind_error hturn]

end Machine

/-! ### Steps of a session -/

namespace Session

variable {s s' : Session} {depth : Nat} {a : Activity} {w w' v : World} {f : Function} {args : List Value}

/-- What a computation of a step finds around it when `depth` calls may be inside each other. -/
def hostAt (s : Session) (depth : Nat) : Host := s.machine.bodyHost (some s.settings.maxOutputLines) depth

/-- While the session makes its next step, the activity begins in the world. -/
inductive Underway (s : Session) : (depth : Nat) → Activity → World → Prop
  | instruction (running : s.error = none) (within : s.world.current.nextIndex < s.program.size) :
      Underway s s.machine.nesting (.instruction s.world.current.nextIndex) s.ready
  | entered {depth : Nat} {a : Activity} {w v : World} {f : Function} {args : List Value} (h : Underway s (depth + 1) a w)
      (calls : CallsAt (a.run s.machine) (s.hostAt (depth + 1)) w f args v)
      (admitted : s.machine.limits.callDepth.isPassed (v.callers.length + 1) = .ok false) :
      Underway s depth (.body f) ((enter f args).outcome v).2
  | turned {depth : Nat} {f : Function} {w w' : World} (h : Underway s depth (.body f) w)
      (turned : (s.machine.turn (s.hostAt depth) (s.machine.bodyCourse f)).outcome w = (.ok true, w')) :
      Underway s depth (.body f) w'

/-- The world at some time from now to the end of the next step. -/
inductive Moment (s : Session) : World → Prop
  | now : Moment s s.world
  | begins {depth : Nat} {a : Activity} {w : World} (h : s.Underway depth a w) : Moment s w
  | calling {depth : Nat} {a : Activity} {w v : World} {f : Function} {args : List Value} (h : s.Underway depth a w)
      (calls : CallsAt (a.run s.machine) (s.hostAt depth) w f args v) : Moment s v
  | called {depth : Nat} {a : Activity} {w v : World} {f : Function} {args : List Value} (h : s.Underway depth a w)
      (calls : CallsAt (a.run s.machine) (s.hostAt depth) w f args v) :
      Moment s (((s.hostAt depth).call f args).outcome v).2
  | ends {depth : Nat} {a : Activity} {w : World} (h : s.Underway depth a w) :
      Moment s ((a.run s.machine (s.hostAt depth)).outcome w).2

end Session

/-! ### The owners of cells at every moment -/

/-- Some ledger of owners has the world as it is. -/
def World.Owned (w : World) : Prop := ∃ g : Owners, g.Kept w

theorem World.Owned.same {w w' : World} (hw : w.Owned) (hsame : w.Same w') : w'.Owned := by
  obtain ⟨g, hg⟩ := hw
  have hbindings : w'.bindings = w.bindings := by rw [World.bindings, World.layers, hsame.store, hsame.callers]; rfl
  refine ⟨g, ?_, ?_, ?_, ?_, ?_, ?_⟩
  · rw [hsame.store]; exact hg.next
  · rw [hsame.store]; exact hg.unused
  · rw [hsame.store]; exact hg.held
  · rw [hbindings]; exact hg.owned
  · rw [hbindings]; exact hg.apart
  · rw [hsame.returned]; exact hg.returned

theorem World.Owned.safe {α : Type} {x x' : Exec α} {w : World} (hw : w.Owned)
    (hx : ∀ g : Owners, Custody.owners.Safe g x x') : (x.outcome w).2.Owned := by
  obtain ⟨g, hg⟩ := hw
  obtain ⟨g', -, hg', -⟩ := hx g w hg
  exact ⟨g', hg'⟩

namespace Session

variable {s s' : Session} {depth : Nat} {a : Activity} {w w' v : World} {f : Function} {args : List Value}

theorem hosts_hostAt (s : Session) (depth : Nat) : Custody.owners.Hosts (s.hostAt depth) (s.hostAt depth) :=
  Custody.hosts_bodyHost rfl _ depth

/-- The cells of every session have owners, and so have those of the checkpoints that it can go back to. -/
theorem lasting_owned : Lasting fun _ => World.Owned where
  same := World.Owned.same
  initial seed _ := ⟨_, .initial seed⟩
  execution {s} h := h.safe fun _ => .execute (m := s.machine) (s.hosts_hostAt s.machine.nesting) s.world.current.nextIndex

theorem owned_of_callsAt (hw : w.Owned) (hcalls : CallsAt (a.run s.machine) (s.hostAt depth) w f args v) : v.Owned := by
  obtain ⟨g, hg⟩ := hw
  exact Custody.exists_kept_of_callsAt (C := .owners) (fun _ h => h) (.activity a) (s.hosts_hostAt depth) hg hcalls

theorem Underway.owned (hs : s.Attained) (h : s.Underway depth a w) : w.Owned := by
  induction h with
  | instruction running within => exact (hs.throughout lasting_owned).ready lasting_owned
  | @entered _ a w v f args h calls admitted ih =>
    obtain ⟨g, hg⟩ := owned_of_callsAt ih calls
    obtain ⟨g', -, hg'⟩ := Custody.exists_kept_enter (C := .owners) f args hg
    exact ⟨g', hg'⟩
  | @turned depth f w w' h turned ih =>
    have hturn := ih.safe fun g => .bodyTurn (m := s.machine) (f := f) (s.hosts_hostAt depth)
    rw [turned] at hturn
    exact hturn

theorem Moment.owned (hs : s.Attained) (h : s.Moment w) : w.Owned := by
  cases h with
  | now => exact (hs.throughout lasting_owned).world
  | begins h => exact h.owned hs
  | calling h calls => exact owned_of_callsAt (h.owned hs) calls
  | called h calls =>
    exact (owned_of_callsAt (h.owned hs) calls).safe fun g => (Custody.Sound.call rfl _ _ _ _).safe
  | ends h => exact (h.owned hs).safe fun g => .activity _ (s.hosts_hostAt _)

end Session

/-! ### Values at every moment -/

/-- The value is that of a variable, is returned, refers to an array or an object, or is held by one. -/
inductive World.Stores (w : World) : Value → Prop
  | bound {u : Value} (h : u ∈ w.bindings) : Stores w u
  | returned {u : Value} (h : w.current.returned = some u) : Stores w u
  | cell {a : Nat} {c : Cell} (h : w.store.heap.cell? a = some c) : Stores w (.ref a)
  | held {a : Nat} {c : Cell} {u : Value} (h : w.store.heap.cell? a = some c) (hu : u ∈ c.values) : Stores w u

theorem Owners.Kept.lt_of_stores {g : Owners} {w : World} {u : Value} (hw : g.Kept w) (hu : w.Stores u) (a : Nat)
    (ha : u = .ref a) : a < w.store.heap.next := by
  subst ha
  rw [hw.next]
  cases hu with
  | bound h => exact (hw.owned a h).1
  | returned h => exact hw.returned a h
  | cell h =>
    by_contra hge
    rw [hw.unused a (Nat.not_lt.mp hge)] at h
    cases h
  | held h hu => exact (hw.held _ a ⟨_, h, hu⟩).cell

namespace Session

/-- At every moment, also inside calls, no array or object is part of itself, so that every stored value is read and
copied to the ground, however deep one would go; and no array or object can be reached from two variables, wherever in
the activations these are. -/
theorem variables_unshared {s : Session} {w : World} (hs : s.Attained) (hw : s.Moment w) :
    (∀ a, ¬ TransGen w.store.heap.Contains a a) ∧
    (∀ u, w.Stores u → ∀ depth, w.store.heap.next ≤ depth →
      w.store.heap.readTo depth u = w.store.heap.read u ∧
        ((Copying.value depth u ⟨w.store.heap, {}⟩).1, (Copying.value depth u ⟨w.store.heap, {}⟩).2.heap) =
          w.store.heap.copy u) ∧
    w.bindings.Pairwise fun u v => ∀ a, w.store.heap.Reaches u a → ¬ w.store.heap.Reaches v a := by
  obtain ⟨g, hg⟩ := hw.owned hs
  refine ⟨hg.ranked.acyclic, fun u hu depth hdepth => ?_, hg.unshared⟩
  have hin := hg.lt_of_stores hu
  exact ⟨hg.ranked.readTo_eq hin hdepth, hg.ranked.copy_eq hin hdepth⟩

/-- When an array has been passed to a function, the parameter and the variable hold arrays of their own. -/
theorem variables_unshared_argument : ∃ (s : Session) (w : World), s.Reachable ∧ s.Moment w ∧ w.callers.length = 1 ∧
    (w.bindings.filter Value.isRef).length = 2 ∧
    w.bindings.Pairwise fun u v => ∀ a, w.store.heap.Reaches u a → ¬ w.store.heap.Reaches v a := by
  obtain ⟨s, hs, hP⟩ := exists_reachable Settings.standard
    "function f(p) \x7b\n  p.push([p])\n  return p\n\x7d\nlet a = [[1]]\nf(a)".codes [.step, .step, .step]
    (fun s => s.error.isNone && decide (s.world.current.nextIndex < s.program.size) &&
      (s.machine.limits.callDepth.isPassed (s.ready.callers.length + 1)).toOption == some false &&
      (s.machine.pendingCall? s.ready s.world.current.nextIndex).any fun call =>
        let w := ((enter call.1 [call.2]).outcome s.ready).2
        decide (w.callers.length = 1 ∧ (w.bindings.filter Value.isRef).length = 2)) (by decide +kernel)
  simp only [Bool.and_eq_true, decide_eq_true_eq, Option.isNone_iff_eq_none, beq_iff_eq, Option.any_eq_true] at hP
  obtain ⟨⟨⟨hrunning, hwithin⟩, hadmitted⟩, ⟨f, u⟩, hcall, hcallers, hrefs⟩ := hP
  have hentered := Underway.entered (.instruction hrunning hwithin) (callsAt_instruction rfl hcall)
    (eq_ok_of_toOption hadmitted)
  have hmoment := Moment.begins hentered
  exact ⟨s, _, hs, hmoment, hcallers, hrefs, (variables_unshared hs.attained hmoment).2.2⟩

end Session

end Stepwise
