import Stepwise.Proofs.Structured

/-!
# Simulation by turns

An evaluation that knows nothing about positions is followed by turns of an activation. The two worlds agree on all that
a program can observe (`World.Twin`); the first one also has a position, a jump ahead, frames, and a count of steps, and
its calls can run out of steps (`Limits.Spent`). `Matched` compares what one instruction does with a part of the
evaluation, and `Simulates` compares the turns from a world on with the whole.
-/

namespace Stepwise

open Exec

/-! ### Worlds that look the same -/

/-- What is seen of a caller. -/
def Caller.trace (c : Caller) : Option Function × Option Value × List Layer :=
  (c.activation.function, c.activation.returned, c.locals)

/-- The two worlds differ at most in where their activations stand and in how many steps they have counted. -/
structure World.Twin (w w' : World) : Prop where
  store : w.store = w'.store
  output : w.output = w'.output
  warnings : w.warnings = w'.warnings
  random : w.random = w'.random
  function : w.current.function = w'.current.function
  returned : w.current.returned = w'.current.returned
  callers : w.callers.map Caller.trace = w'.callers.map Caller.trace

/-- The fault tells that the calls of one step have used up their instructions, or that these cannot be counted. -/
def Limits.Spent (l : Limits) : Fault → Prop
  | .raised e => ∃ name, e.cause = .callSteps name l.callSteps
  | .breakdown why => why = .exhausted ∨ ∃ count, l.callSteps.isPassed count = .error why

namespace World.Twin

variable {w w' : World}

theorem refl (w : World) : Twin w w := ⟨rfl, rfl, rfl, rfl, rfl, rfl, rfl⟩

theorem callStack (h : Twin w w') : w.callStack = w'.callStack := by
  let name (t : Option Function × Option Value × List Layer) : Text :=
    Activation.label { Activation.main with function := t.1 }
  have hlabel : w.current.label = w'.current.label := by simp only [Activation.label, h.function]
  have hnames (callers : List Caller) : callers.map (·.activation.label) = (callers.map Caller.trace).map name := by
    rw [List.map_map]
    rfl
  simp only [World.callStack, hlabel, hnames, h.callers]

/-- Changes of the activation that leave its function and its result alone are not seen. -/
theorem move (h : Twin w w') {a : Activation} (hfunction : a.function = w.current.function)
    (hreturned : a.returned = w.current.returned) : Twin { w with current := a } w' :=
  { h with function := hfunction.trans h.function, returned := hreturned.trans h.returned }

theorem steady (a : Activation) : Steady fun w w' => Twin w w' ∧ w.current = a where
  store h := h.1.store
  random h := h.1.random
  setStore _ h := ⟨{ h.1 with store := rfl }, h.2⟩
  setRandom _ h := ⟨{ h.1 with random := rfl }, h.2⟩

end World.Twin

namespace Limits.Spent

variable {l : Limits} {f : Fault}

theorem crossing (h : l.Spent f) (line : Nat) (stack : Unit → List Text) : l.Spent (f.crossing line stack) := by
  cases f with
  | breakdown why => exact h
  | raised e =>
    obtain ⟨cause, place, labels⟩ := e
    cases labels <;> exact h

theorem kind {e : Raised} (h : l.Spent (.raised e)) : e.cause.kind ≠ .reference := by
  obtain ⟨name, hcause⟩ := h
  rw [hcause]
  exact nofun

end Limits.Spent

/-- Calls of the first host do what those of the second one do, unless they run out of steps. -/
structure Host.Echo (l : Limits) (host host' : Host) : Prop where
  functions : host.functions = host'.functions
  outputLimit : host.outputLimit = host'.outputLimit
  discreet : host.Discreet
  call (name : Text) (f : Function) (args : List Value) :
    host.function? name = some f → Agree l.Spent World.Twin (host.call f args) (host'.call f args)

/-! ### Computations that match -/

/-- The first outcome matches the second one: both end in the same fault, or both end well as described, or the first one
has run out of steps. -/
inductive Matched (l : Limits) {α β : Type} (Q : α → β → World → Prop) :
    Except Fault α × World → Except Fault β × World → Prop
  | spent {f : Fault} {w : World} {o : Except Fault β × World} (spent : l.Spent f) : Matched l Q (.error f, w) o
  | fault {f : Fault} {w w' : World} (twin : w.Twin w') : Matched l Q (.error f, w) (.error f, w')
  | done {a : α} {b : β} {w w' : World} (twin : w.Twin w') (post : Q a b w) : Matched l Q (.ok a, w) (.ok b, w')

namespace Matched

variable {l : Limits} {α β γ δ : Type} {Q : α → β → World → Prop} {w w' : World} {x : Exec α} {y : Exec β}

theorem bind {Q' : γ → δ → World → Prop} {f : α → Exec γ} {g : β → Exec δ}
    (h : Matched l Q (x.outcome w) (y.outcome w'))
    (hrest : ∀ a b w₁ w₁', w₁.Twin w₁' → Q a b w₁ → Matched l Q' ((f a).outcome w₁) ((g b).outcome w₁')) :
    Matched l Q' ((x >>= f).outcome w) ((y >>= g).outcome w') := by
  rw [outcome_bind, outcome_bind]
  generalize x.outcome w = o at h ⊢
  generalize y.outcome w' = o' at h ⊢
  cases h with
  | spent hspent => exact .spent hspent
  | fault htwin => exact .fault htwin
  | done htwin hpost => exact hrest _ _ _ _ htwin hpost

theorem locate (h : Matched l Q (x.outcome w) (y.outcome w')) (instr : Instruction) :
    Matched l Q ((instr.locate x).outcome w) ((instr.locate y).outcome w') := by
  rw [Instruction.locate, Instruction.locate, outcome_tryCatch, outcome_tryCatch]
  generalize x.outcome w = o at h ⊢
  generalize y.outcome w' = o' at h ⊢
  cases h with
  | @spent f w o hspent => exact .spent (f := f.crossing (instr.line + 1) fun _ => w.callStack) (hspent.crossing _ _)
  | @fault f w w' htwin =>
    simp only [outcome_bind, outcome_get, htwin.callStack]
    exact .fault htwin
  | done htwin hpost => exact .done htwin hpost

/-- What is put together from steps of expressions has the same result on both sides, and leaves the activation alone. -/
theorem built {host host' : Host} {x' : Exec α} {Q : Unit → α → Prop} (hosts : host.Echo l host')
    (hx : (Setting.plain host host').Built () x x' Q) (hw : w.Twin w') :
    Matched l (fun a b w₁ => a = b ∧ w₁.current = w.current) (x.outcome w) (x'.outcome w') := by
  have hagree : Agree l.Spent (fun v v' => v.Twin v' ∧ v.current = w.current) x x' := by
    refine hx.parallel.agree (World.Twin.steady w.current) (fun e => Limits.Spent.kind) (fun line => ?_)
      fun name f args found => ?_
    · rw [hosts.outputLimit]
      refine .emit _ line (fun h => h.1.output) fun h => ⟨{ h.1 with output := ?_ }, h.2⟩
      simp only [h.1.output]
    · rintro v v' ⟨htwin, hcurrent⟩
      have hstays := (hosts.discreet name f args found v).current
      rcases hosts.call name f args found v v' htwin with hspent | ⟨hsame, htwin'⟩
      · exact .inl hspent
      · exact .inr ⟨hsame, htwin', hstays.trans hcurrent⟩
  rcases hagree w w' ⟨hw, rfl⟩ with ⟨f, hfault, hspent⟩ | ⟨hsame, htwin, hcurrent⟩
  · rw [show x.outcome w = (.error f, (x.outcome w).2) from Prod.ext hfault rfl]
    exact .spent hspent
  · revert hsame htwin hcurrent
    rcases x.outcome w with ⟨f | a, w₁⟩ <;> rcases x'.outcome w' with ⟨f' | a', w₁'⟩ <;> intro hsame htwin hcurrent <;>
      cases hsame
    · exact .fault htwin
    · exact .done htwin ⟨rfl, hcurrent⟩

end Matched

/-! ### Turns -/

namespace Machine

variable {m : Machine} {host : Host} {c : Course} {k n : Nat} {u v w : World}

/-- A number of turns, in each of which an instruction has ended well. -/
inductive Turns (m : Machine) (host : Host) (c : Course) : Nat → World → World → Prop
  | zero (w : World) : Turns m host c 0 w w
  | succ {n : Nat} {u v w : World} (first : (m.turn host c).outcome u = (.ok true, v)) (rest : Turns m host c n v w) :
      Turns m host c (n + 1) u w

namespace Turns

theorem trans (h : Turns m host c k u v) (h' : Turns m host c n v w) : Turns m host c (k + n) u w := by
  induction h with
  | zero => rwa [Nat.zero_add]
  | succ first _ ih =>
    rw [Nat.add_right_comm]
    exact .succ first (ih h')

theorem take (h : Turns m host c n u w) (hle : k ≤ n) : ∃ v, Turns m host c k u v := by
  induction h generalizing k with
  | zero w =>
    obtain rfl := Nat.le_zero.mp hle
    exact ⟨w, .zero w⟩
  | @succ n u v w first _ ih =>
    cases k with
    | zero => exact ⟨u, .zero u⟩
    | succ k =>
      obtain ⟨v', hv'⟩ := ih (Nat.le_of_succ_le_succ hle)
      exact ⟨v', .succ first hv'⟩

theorem drive (h : Turns m host c k u v) (fuel : Nat) :
    (m.drive host c (k + fuel)).outcome u = (m.drive host c fuel).outcome v := by
  induction h with
  | zero => rw [Nat.zero_add]
  | succ first _ ih =>
    rw [Nat.add_right_comm, Machine.drive, outcome_bind_ok first]
    exact ih

theorem drive_exhausted (h : Turns m host c k u v) {fuel : Nat} (hle : fuel ≤ k) :
    ∃ w, (m.drive host c fuel).outcome u = (.error (.breakdown .exhausted), w) := by
  obtain ⟨w, hw⟩ := h.take hle
  exact ⟨w, hw.drive 0⟩

end Turns

end Machine

/-- The activation stands at instruction `i` inside of the given frames, and has not returned. -/
structure Activation.At (a : Activation) (i : Nat) (frames : List Frame) : Prop where
  next : a.nextIndex = i
  frames : a.frames = frames
  running : a.returned = none

/-- The activation as an instruction finds it: the jump ahead has been made. -/
structure Activation.Stands (a : Activation) (frames : List Frame) : Prop where
  skip : a.skip = none
  frames : a.frames = frames
  running : a.returned = none

/-- The world in which `next` comes next, unless there is a jump ahead. -/
def World.goTo (w : World) (next : Nat) : World := { w with current := { w.current with ip := next } }

namespace Activation.Stands

variable {a : Activation} {f : Frame} {fs : List Frame}

theorem push (h : a.Stands fs) (g : Frame) : Stands { a with frames := g :: a.frames } (g :: fs) :=
  ⟨h.skip, congrArg (g :: ·) h.frames, h.running⟩

theorem pop (h : a.Stands (f :: fs)) : Stands { a with frames := a.frames.tail } fs :=
  ⟨h.skip, congrArg List.tail h.frames, h.running⟩

theorem set (h : a.Stands (f :: fs)) (g : Frame) : Stands { a with frames := g :: a.frames.tail } (g :: fs) :=
  ⟨h.skip, congrArg (g :: List.tail ·) h.frames, h.running⟩

end Activation.Stands

theorem Activation.Stands.at {a : Activation} {fs : List Frame} (h : a.Stands fs) (next : Nat) :
    At { a with ip := next } next fs := by
  refine ⟨?_, h.frames, h.running⟩
  simp only [Activation.nextIndex, h.skip]

/-- A course that goes on up to `top`, and before each instruction counts at most steps of calls. -/
structure Course.Runs (c : Course) (l : Limits) (top : Nat) : Prop where
  ended {a : Activation} : a.returned = none → (c.ended a = true ↔ top ≤ a.ip)
  charge (w : World) : (∃ f w₁, c.charge.outcome w = (.error f, w₁) ∧ l.Spent f) ∨
    ∃ n, c.charge.outcome w = (.ok (), { w with callSteps := n })

/-- The turns from `w` on follow an evaluation with the given outcome. Either they run out of steps; or the evaluation
is cut off, and there are `n` turns at least; or both end in the same fault; or both end well, as described. -/
inductive Simulates (m : Machine) (host : Host) (c : Course) (n : Nat) {α : Type} (w : World) (post : α → World → Prop) :
    Except Fault α × World → Prop
  | spent {k : Nat} {w₁ w₂ : World} {f : Fault} {o : Except Fault α × World} (turns : m.Turns host c k w w₁)
      (last : (m.turn host c).outcome w₁ = (.error f, w₂)) (spent : m.limits.Spent f) : Simulates m host c n w post o
  | cut {w₁ w' : World} (turns : m.Turns host c n w w₁) : Simulates m host c n w post (.error (.breakdown .exhausted), w')
  | fault {k : Nat} {w₁ w₂ w' : World} {f : Fault} (turns : m.Turns host c k w w₁)
      (last : (m.turn host c).outcome w₁ = (.error f, w₂)) (twin : w₂.Twin w') : Simulates m host c n w post (.error f, w')
  | done {k : Nat} {w₁ w' : World} {a : α} (turns : m.Turns host c k w w₁) (twin : w₁.Twin w') (ends : post a w₁) :
      Simulates m host c n w post (.ok a, w')

namespace Simulates

variable {m : Machine} {host : Host} {c : Course} {n k top i : Nat} {α β γ : Type} {w w₁ w' : World}
  {P : α → World → Prop} {x : Exec α} {instr : Instruction} {o : Except Fault α × World} {Q : β → World → Prop}
  {fs : List Frame}

theorem mono (h : Simulates m host c n w P o) (hle : k ≤ n) : Simulates m host c k w P o := by
  cases h with
  | spent turns last spent => exact .spent turns last spent
  | cut turns =>
    obtain ⟨v, hv⟩ := turns.take hle
    exact .cut hv
  | fault turns last twin => exact .fault turns last twin
  | done turns twin ends => exact .done turns twin ends

theorem after (turns : m.Turns host c k w w₁) (h : Simulates m host c n w₁ P o) : Simulates m host c (k + n) w P o := by
  cases h with
  | spent turns' last spent => exact .spent (turns.trans turns') last spent
  | cut turns' => exact .cut (turns.trans turns')
  | fault turns' last twin => exact .fault (turns.trans turns') last twin
  | done turns' twin ends => exact .done (turns.trans turns') twin ends

theorem here {a : α} (twin : w.Twin w') (ends : P a w) : Simulates m host c n w P ((pure a : Exec α).outcome w') :=
  .done (.zero w) twin ends

theorem bind {f : α → Exec β} (h : Simulates m host c n w P (x.outcome w'))
    (hrest : ∀ a w₁ w₁', w₁.Twin w₁' → P a w₁ → Simulates m host c n w₁ Q ((f a).outcome w₁')) :
    Simulates m host c n w Q ((x >>= f).outcome w') := by
  rw [outcome_bind]
  generalize x.outcome w' = o at h ⊢
  cases h with
  | spent turns last spent => exact .spent turns last spent
  | cut turns => exact .cut turns
  | fault turns last twin => exact .fault turns last twin
  | done turns twin ends => exact ((hrest _ _ _ twin ends).after turns).mono (Nat.le_add_left _ _)

/-- One turn: what the instruction does matches a part of the evaluation, and the rest is simulated. -/
theorem turn {y : Exec β} {f : β → Exec α} (hc : c.Runs m.limits top)
    (hw : w.Twin w') (hat : w.current.At i fs) (hlt : i < top) (hinstr : m.program.instructions[i]? = some instr)
    (hrun : ∀ w₀, w₀.Twin w' → w₀.current.Stands fs → w₀.current.function = w.current.function →
      Matched m.limits (fun next b w₁ => Q b (w₁.goTo next)) ((instr.run m.program m.limits.strict host i).outcome w₀)
        (y.outcome w'))
    (hrest : ∀ b w₁ w₁', w₁.Twin w₁' → Q b w₁ → Simulates m host c n w₁ P ((f b).outcome w₁')) :
    Simulates m host c (n + 1) w P ((instr.locate y >>= f).outcome w') := by
  have hended : c.ended w.current.resolved = false := by
    refine Bool.eq_false_iff.mpr fun hended => ?_
    have hle : top ≤ w.current.nextIndex := (hc.ended (a := w.current.resolved) hat.running).mp hended
    rw [hat.next] at hle
    omega
  have hturn : (m.turn host c).outcome w = (do
      c.charge
      let next ← instr.locate (instr.run m.program m.limits.strict host i)
      Exec.activation fun a => { a with ip := next }
      return true : Exec Bool).outcome { w with current := w.current.resolved } := by
    have hip : w.current.resolved.ip = i := hat.next
    have hexecute : m.execute host i = instr.locate (instr.run m.program m.limits.strict host i) := by
      rw [Machine.execute, hinstr]
      rfl
    simp only [Machine.turn, outcome_bind, outcome_activation, outcome_get, hended, Bool.false_eq_true, if_false, hip, hexecute]
  rcases hc.charge { w with current := w.current.resolved } with ⟨f, w₁, hcharge, hspent⟩ | ⟨count, hcharge⟩
  · rw [outcome_bind_error hcharge] at hturn
    exact .spent (.zero w) hturn hspent
  · rw [outcome_bind_ok hcharge] at hturn
    have htwin : World.Twin { w with current := w.current.resolved, callSteps := count } w' :=
      { hw with }
    have hmatched := (hrun _ htwin ⟨rfl, hat.frames, hat.running⟩ rfl).locate instr
    rw [outcome_bind] at hturn ⊢
    generalize (instr.locate (instr.run m.program m.limits.strict host i)).outcome
      { w with current := w.current.resolved, callSteps := count } = o at hmatched hturn
    generalize (instr.locate y).outcome w' = o' at hmatched ⊢
    cases hmatched with
    | spent hspent => exact .spent (.zero w) hturn hspent
    | fault htwin => exact .fault (.zero w) hturn htwin
    | @done next b w₁ w₁' htwin hpost =>
      have hone : m.Turns host c 1 w (w₁.goTo next) := .succ hturn (.zero _)
      have hmoved : (w₁.goTo next).Twin w₁' := htwin.move rfl rfl
      rw [Nat.add_comm]
      exact (hrest b _ _ hmoved hpost).after hone

theorem stutter {fs' : List Frame} {j : Nat} (hc : c.Runs m.limits top) (hw : w.Twin w') (hat : w.current.At i fs) (hlt : i < top)
    (hinstr : m.program.instructions[i]? = some instr) (hrun : ∀ w₀, w₀.Twin w' → w₀.current.Stands fs →
      ∃ next w₁, (instr.run m.program m.limits.strict host i).outcome w₀ = (.ok next, w₁) ∧ w₁.Twin w' ∧
        (w₁.goTo next).current.At j fs')
    (hrest : ∀ w₁ w₁', w₁.Twin w₁' → w₁.current.At j fs' → Simulates m host c n w₁ P (x.outcome w₁')) :
    Simulates m host c (n + 1) w P (x.outcome w') := by
  have hsame : (instr.locate (pure ()) >>= fun _ => x).outcome w' = x.outcome w' := rfl
  rw [← hsame]
  refine turn (Q := fun _ w₁ => w₁.current.At j fs') hc hw hat hlt hinstr (fun w₀ htwin hstands _ => ?_) fun _ => hrest
  obtain ⟨next, w₁, hrun, htwin₁, hat₁⟩ := hrun w₀ htwin hstands
  rw [hrun]
  exact .done htwin₁ hat₁

end Simulates

end Stepwise
