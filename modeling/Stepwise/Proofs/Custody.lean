import Stepwise.Proofs.Arrangement
import Stepwise.Proofs.Copies
import Stepwise.Proofs.Mishaps

/-!
# Keeping track of references

A computation gets at cells through the variables in scope, through cells it knows already, and by making new ones. A
`Custody` is a way of keeping track of that: a ledger notes which references may be handed about and which cell may hold
a reference to which, and the ledger can be brought forward over each primitive change of the world.

What an expression does to the world is fixed by the store and the random source, except where it writes a line or calls
a function: these go through its host. `Built` says of two computations that they are put together in the same way from
such steps, with one host each, and that no step hands about a reference that is not known. What holds for the steps
holds then for whole computations.
-/

namespace Stepwise

open Exec List

/-- The world as a call begins, before the parameters are bound. -/
def World.opening (w : World) (f : Function) : World :=
  let caller := ⟨w.current, w.store.scope.inner⟩
  { w with store := w.store.within [.empty], current := .ofFunction f, callers := caller :: w.callers }

/-- The world after a call, back in the activation that made it. -/
def World.backTo (w' w : World) : World :=
  { w' with store := w'.store.within w.store.scope.inner, current := w.current, callers := w.callers }

theorem Fault.of_ne_exhausted (c : Cause) : Fault.of c ≠ .breakdown .exhausted := fun h => by cases h

theorem Fault.kind_of_exhausted {e : Raised} (h : Fault.raised e = .breakdown .exhausted) : e.cause.kind ≠ .reference := by
  cases h

theorem Fault.crossing_exhausted {f : Fault} {line : Nat} {stack : Unit → List Text} (h : f = .breakdown .exhausted) :
    f.crossing line stack = .breakdown .exhausted := by
  subst h
  rfl

/-- A way of keeping track of references. -/
structure Custody where
  Ledger : Type
  /-- the second ledger is the first one brought forward -/
  Later : Ledger → Ledger → Prop
  /-- the world is as the ledger has it -/
  Kept : Ledger → World → Prop
  /-- a reference to the cell may be handed about -/
  Known : Ledger → Nat → Prop
  /-- the first cell may hold a reference to the second -/
  Holds : Ledger → Nat → Nat → Prop
  /-- the faults that end a comparison -/
  escape : Fault → Prop
  later_refl (g : Ledger) : Later g g
  later_trans {g g' g'' : Ledger} : Later g g' → Later g' g'' → Later g g''
  known_later {g g' : Ledger} {a : Nat} : Later g g' → Known g a → Known g' a
  holds_later {g g' : Ledger} {a b : Nat} : Later g g' → Holds g a b → Holds g' a b
  known_of_holds {g : Ledger} {a b : Nat} : Holds g a b → Known g b
  /-- what a known cell holds -/
  held {g : Ledger} {w : World} {a b : Nat} {c : Cell} :
    Kept g w → Known g a → w.store.heap.cell? a = some c → .ref b ∈ c.values → Holds g a b
  /-- what a variable in scope refers to -/
  bound {g : Ledger} {w : World} {x : Text} {binding : Binding} {a : Nat} :
    Kept g w → w.store.scope.find? x = some binding → binding.value = .ref a → Known g a
  returned {g : Ledger} {w : World} {a : Nat} : Kept g w → w.current.returned = some (.ref a) → Known g a
  /-- new cells, some of which are to be held by a known one -/
  extended {g : Ledger} {w : World} {h : Heap} (holder : Option Nat) :
    Kept g w → w.store.heap.Extends h → (∀ a ∈ holder, Known g a) →
      ∃ g', Later g g' ∧ Kept g' { w with store.heap := h } ∧
        ∀ b : Nat, w.store.heap.next ≤ b → b < h.next → Known g' b ∧ ∀ a ∈ holder, Holds g' a b
  /-- a new cell for known ones -/
  allocated {g : Ledger} {w : World} {c : Cell} : Kept g w → (∀ b : Nat, .ref b ∈ c.values → Known g b) →
    ∃ g', Later g g' ∧ Kept g' { w with store.heap := (w.store.heap.alloc c).2 } ∧ Known g' w.store.heap.next
  /-- a known cell with other contents that it may hold -/
  rewritten {g : Ledger} {w : World} {a : Nat} {h : Heap} :
    Kept g w → Known g a → h.next = w.store.heap.next → (∀ b, b ≠ a → h.cell? b = w.store.heap.cell? b) →
      (∀ c, h.cell? a = some c → ∀ b : Nat, .ref b ∈ c.values → Holds g a b) → Kept g { w with store.heap := h }
  declared {g : Ledger} {w : World} (x : Text) (v : Value) (constant : Bool) :
    Kept g w → ∃ g', Later g g' ∧ Kept g' { w with store := w.store.declare x v constant }
  assigned {g : Ledger} {w : World} {x : Text} {v : Value} {s : Store} :
    Kept g w → w.store.assign x v = .ok s → ∃ g', Later g g' ∧ Kept g' { w with store := s }
  moved {g : Ledger} {w : World} {a : Activation} :
    Kept g w → (∀ b : Nat, a.returned = some (.ref b) → Known g b) → Kept g { w with current := a }
  /-- nothing else that an execution changes is tracked, except that steps inside calls are only added -/
  aside {g : Ledger} {w w' : World} : Kept g w → w'.store = w.store → w'.current = w.current →
    w'.callers = w.callers → w.callSteps ≤ w'.callSteps → Kept g w'
  opened {g : Ledger} {w : World} (f : Function) : Kept g w → Kept g (w.opening f)
  closed {g g' : Ledger} {w w' : World} : Kept g w → Later g g' → Kept g' w' →
    w'.callers = ⟨w.current, w.store.scope.inner⟩ :: w.callers → Kept g' (w'.backTo w)
  escape_crossing {f : Fault} {line : Nat} {stack : Unit → List Text} : escape f → escape (f.crossing line stack)
  escape_kind {e : Raised} : escape (.raised e) → e.cause.kind ≠ .reference

namespace Custody

variable {C : Custody} {g g' : C.Ledger} {α β : Type} {v : Value} {a : Nat} {vs : List Value}

/-- The value refers to nothing but what is known. -/
def Sees (C : Custody) (g : C.Ledger) (v : Value) : Prop := ∀ b : Nat, v = .ref b → C.Known g b

/-- The value refers to nothing but what the cell may hold. -/
def Owns (C : Custody) (g : C.Ledger) (a : Nat) (v : Value) : Prop := ∀ b : Nat, v = .ref b → C.Holds g a b

/-- All values of a list refer to nothing but what is known. -/
def SeesAll (C : Custody) (g : C.Ledger) (vs : List Value) : Prop := ∀ v ∈ vs, C.Sees g v

/-- All values of a list refer to nothing but what the cell may hold. -/
def OwnsAll (C : Custody) (g : C.Ledger) (a : Nat) (vs : List Value) : Prop := ∀ v ∈ vs, C.Owns g a v

theorem Sees.later (hv : C.Sees g v) (h : C.Later g g') : C.Sees g' v :=
  fun b hb => C.known_later h (hv b hb)

theorem Owns.later (hv : C.Owns g a v) (h : C.Later g g') : C.Owns g' a v :=
  fun b hb => C.holds_later h (hv b hb)

theorem Owns.sees (hv : C.Owns g a v) : C.Sees g v := fun b hb => C.known_of_holds (hv b hb)

theorem SeesAll.later (hvs : C.SeesAll g vs) (h : C.Later g g') : C.SeesAll g' vs :=
  fun v hv => (hvs v hv).later h

theorem OwnsAll.sees (hvs : C.OwnsAll g a vs) : C.SeesAll g vs :=
  fun v hv => (hvs v hv).sees

theorem OwnsAll.nil : C.OwnsAll g a [] := nofun

theorem SeesAll.nil : C.SeesAll g [] := nofun

theorem SeesAll.cons (hv : C.Sees g v) (hvs : C.SeesAll g vs) : C.SeesAll g (v :: vs) :=
  forall_mem_cons.mpr ⟨hv, hvs⟩

theorem SeesAll.append {vs' : List Value} (hvs : C.SeesAll g vs) (hvs' : C.SeesAll g vs') : C.SeesAll g (vs ++ vs') :=
  forall_mem_append.mpr ⟨hvs, hvs'⟩

/-- What no value of a list is is not looked for in the ledger. -/
theorem seesAll_of_plain (h : ∀ v ∈ vs, v.isRef = false) : C.SeesAll g vs := by
  intro v hv b hb
  subst hb
  exact absurd (h _ hv) nofun

theorem seesAll_map {f : α → Value} (l : List α) (h : ∀ a, (f a).isRef = false) : C.SeesAll g (l.map f) := by
  refine seesAll_of_plain fun v hv => ?_
  obtain ⟨a, -, rfl⟩ := mem_map.mp hv
  exact h a

theorem sees_getD (h : C.SeesAll g vs) (i : Nat) : C.Sees g (vs.getD i .undefined) := by
  rw [getD_eq_getElem?_getD]
  cases hi : vs[i]? with
  | none => exact nofun
  | some v => exact h v (mem_of_getElem? hi)

end Custody

/-- The outcome of a step that acts on the store alone: there is another store, or a fault. -/
def World.after {α : Type} (w : World) : Except Fault (α × Store) → Except Fault α × World
  | .ok (a, s) => (.ok a, { w with store := s })
  | .error f => (.error f, w)

/-- A way of keeping track of references, and the two hosts that computations are held against each other with. -/
structure Setting extends Custody where
  host : Host
  host' : Host

namespace Setting

variable {C : Setting} {g g' : C.Ledger} {α β : Type}

/-- The two computations are put together in the same way, apart from their hosts, from steps that hand about known
references only. Of themselves they end in an error or in a mishap. The result is good by a later ledger. -/
inductive Built (C : Setting) : {α : Type} → C.Ledger → Exec α → Exec α → (C.Ledger → α → Prop) → Prop
  | done {α : Type} {g : C.Ledger} {a : α} {Q : C.Ledger → α → Prop} (result : Q g a) : Built C g (pure a) (pure a) Q
  | fault {α : Type} {g : C.Ledger} {f : Fault} {Q : C.Ledger → α → Prop} (native : f.Native) :
      Built C g (throw f : Exec α) (throw f) Q
  | seq {α β : Type} {g : C.Ledger} {x x' : Exec α} {f f' : α → Exec β} {Q : C.Ledger → α → Prop}
      {R : C.Ledger → β → Prop} (first : Built C g x x' Q)
      (rest : ∀ g', C.Later g g' → ∀ a, Q g' a → Built C g' (f a) (f' a) R) : Built C g (x >>= f) (x' >>= f') R
  /-- a look at the world sees no more of it than the store and the random source -/
  | look {α : Type} {g : C.Ledger} {f f' : World → Exec α} {Q : C.Ledger → α → Prop}
      (rest : ∀ w w', w.store = w'.store → w.random = w'.random → C.Kept g w → Built C g (f w) (f' w') Q) :
      Built C g (get >>= f) (get >>= f') Q
  /-- a step that acts on the store alone -/
  | step {α : Type} {g : C.Ledger} {x : Exec α} {Q : C.Ledger → α → Prop} (act : Store → Except Fault (α × Store))
      (acts : ∀ w, x.outcome w = w.after (act w.store)) (native : ∀ s, Only Fault.Native (act s))
      (kept : ∀ w a s, C.Kept g w → act w.store = .ok (a, s) →
        ∃ g', C.Later g g' ∧ C.Kept g' { w with store := s } ∧ Q g' a) :
      Built C g x x Q
  | draw {g : C.Ledger} (r : Twister) :
      Built C g (modify fun w => { w with random := r }) (modify fun w => { w with random := r }) fun g' _ => g' = g
  | write {g : C.Ledger} (line : Text) :
      Built C g (emit C.host.outputLimit line) (emit C.host'.outputLimit line) fun g' _ => g' = g
  /-- the type of a name that is not defined is no fault -/
  | typed {g : C.Ledger} {x x' : Exec Value} {Q : C.Ledger → Value → Prop} (inner : Built C g x x' Q) :
      Built C g (Eval.typeOf x) (Eval.typeOf x') C.Sees
  /-- a fault passes after the store has been put in order -/
  | tidied {α : Type} {g : C.Ledger} {x x' : Exec α} {Q : C.Ledger → α → Prop} (tidy : Store → Store)
      (inner : Built C g x x' Q)
      (kept : ∀ g', C.Later g g' → ∀ w, C.Kept g' w → C.Kept g' { w with store := tidy w.store }) :
      Built C g (tryCatch x fun e => do modify (fun w => { w with store := tidy w.store }); throw e)
        (tryCatch x' fun e => do modify (fun w => { w with store := tidy w.store }); throw e) Q
  | ask {g : C.Ledger} (name : Text) {f : Function} (args : List Value) (found : C.host.function? name = some f) :
      Built C g (C.host.call f args) (C.host'.call f args) C.Sees

/-- Nothing is said of the result. -/
def Safe (C : Setting) (g : C.Ledger) (x x' : Exec α) : Prop := C.Built g x x' fun _ _ => True

/-- The ledger stays as it is. -/
def Keeps (C : Setting) (g : C.Ledger) (x : Exec α) (P : α → Prop) : Prop := C.Built g x x fun g' a => g' = g ∧ P a

namespace Built

variable {x x' : Exec α} {f f' : α → Exec β} {P : α → Prop} {Q Q' : C.Ledger → α → Prop} {R : C.Ledger → β → Prop}

theorem fail (c : Cause) (h : c.line = none) : C.Built g (Exec.fail c : Exec α) (Exec.fail c) Q := fault (.error h)

theorem imp (h : C.Built g x x' Q) (himp : ∀ g', C.Later g g' → ∀ a, Q g' a → Q' g' a) : C.Built g x x' Q' := by
  rw [← bind_pure x, ← bind_pure x']
  exact .seq h fun g' hlater a ha => .done (himp g' hlater a ha)

theorem safe (h : C.Built g x x' Q) : C.Safe g x x' := h.imp fun _ _ _ _ => trivial

theorem of_keeps (h : C.Keeps g x P) (hP : ∀ a, P a → Q g a) : C.Built g x x Q :=
  h.imp fun _ _ a ha => ha.1 ▸ hP a ha.2

theorem next (hx : C.Keeps g x P) (hf : ∀ a, P a → C.Built g (f a) (f' a) R) : C.Built g (x >>= f) (x >>= f') R :=
  .seq hx fun _ _ a ha => ha.1 ▸ hf a ha.2

theorem heap {f f' : Heap → Exec α} (hf : ∀ w, C.Kept g w → C.Built g (f w.store.heap) (f' w.store.heap) Q) :
    C.Built g (Exec.heap >>= f) (Exec.heap >>= f') Q := by
  have hread : C.Keeps g Exec.heap fun h => ∃ w, C.Kept g w ∧ w.store.heap = h :=
    .look fun w w' hs _ hw => by
      rw [← hs]
      exact .done ⟨rfl, w, hw, rfl⟩
  refine .next hread ?_
  rintro _ ⟨w, hw, rfl⟩
  exact hf w hw

theorem ite (c : Prop) [Decidable c] {y y' : Exec α} (yes : C.Built g x x' Q) (no : C.Built g y y' Q) :
    C.Built g (if c then x else y) (if c then x' else y') Q := by
  split
  · exact yes
  · exact no

theorem check (c : Prop) [Decidable c] {bad : Exec PUnit} {rest rest' : PUnit → Exec α}
    (hbad : C.Keeps g bad fun _ => True) (hgood : C.Built g (rest ⟨⟩) (rest' ⟨⟩) Q) :
    C.Built g (if c then bad >>= rest else rest ⟨⟩) (if c then bad >>= rest' else rest' ⟨⟩) Q :=
  .ite c (.next hbad fun _ _ => hgood) hgood

theorem mapM (hlater : ∀ {g g' : C.Ledger} {b : β}, C.Later g g' → R g b → R g' b) (l : List α)
    (h : ∀ g', C.Later g g' → ∀ a, C.Built g' (f a) (f' a) R) :
    C.Built g (l.mapM f) (l.mapM f') fun g' bs => ∀ b ∈ bs, R g' b := by
  induction l generalizing g with
  | nil => exact .done nofun
  | cons a l ih =>
    rw [mapM_cons, mapM_cons]
    refine .seq (h g (C.later_refl g) a) fun g₁ h₁ b hb =>
      .seq (ih fun g₂ h₂ => h g₂ (C.later_trans h₁ h₂)) fun g₂ h₂ bs hbs => ?_
    exact .done (forall_mem_cons.mpr ⟨hlater h₂ hb, hbs⟩)

theorem forM {f f' : α → Exec Unit} (l : List α) (h : ∀ g', C.Later g g' → ∀ a, C.Safe g' (f a) (f' a)) :
    C.Safe g (l.forM f) (l.forM f') := by
  induction l generalizing g with
  | nil => exact .done trivial
  | cons a l ih =>
    exact .seq (h g (C.later_refl g) a) fun g₁ h₁ _ _ => ih fun g₂ h₂ => h g₂ (C.later_trans h₁ h₂)

end Built

namespace Keeps

variable {P : α → Prop} {R : β → Prop} {x : Exec α} {f : α → Exec β} {e : Except Breakdown α}

theorem done {a : α} (h : P a) : C.Keeps g (pure a) P := Built.done ⟨rfl, h⟩

theorem value (a : α) : C.Keeps g (pure a) fun _ => True := done trivial

theorem imp {P' : α → Prop} (h : C.Keeps g x P) (himp : ∀ a, P a → P' a) : C.Keeps g x P' :=
  Built.imp h fun _ _ a ha => ⟨ha.1, himp a ha.2⟩

theorem seq (hx : C.Keeps g x P) (hf : ∀ a, P a → C.Keeps g (f a) R) :
    C.Keeps g (x >>= f) R := .next hx hf

theorem heap {f : Heap → Exec α} (hf : ∀ w, C.Kept g w → C.Keeps g (f w.store.heap) P) :
    C.Keeps g (Exec.heap >>= f) P := Built.heap hf

theorem ite (c : Prop) [Decidable c] {y : Exec α} (yes : C.Keeps g x P) (no : C.Keeps g y P) :
    C.Keeps g (if c then x else y) P := Built.ite c yes no

theorem check (c : Prop) [Decidable c] {x : Exec PUnit} {rest : PUnit → Exec α} (bad : C.Keeps g x fun _ => True)
    (good : C.Keeps g (rest ⟨⟩) P) : C.Keeps g (if c then x >>= rest else rest ⟨⟩) P := Built.check c bad good

theorem liftFault {e : Except Fault α} (he : Only Fault.Native e) (hP : ∀ a, e = .ok a → P a) :
    C.Keeps g (liftM e : Exec α) P := by
  cases e with
  | ok a => exact done (hP a rfl)
  | error f => exact .fault (he f rfl)

theorem liftTo (he : Only Breakdown.Mishap e) (hP : ∀ a, e = .ok a → P a) : C.Keeps g (liftM e : Exec α) P := by
  cases e with
  | ok a => exact done (hP a rfl)
  | error b => exact .fault (.mishap (he b rfl))

theorem lift (he : Only Breakdown.Mishap e) : C.Keeps g (liftM e : Exec α) fun _ => True :=
  liftTo he fun _ _ => trivial

theorem convert (he : Ranged e) : C.Keeps g (liftM e : Exec α) fun _ => True := lift he.mishap

/-- What comes after a conversion may rely on its result. -/
theorem convertTo (he : Ranged e) : C.Keeps g (liftM e : Exec α) (e = .ok ·) :=
  liftTo he.mishap fun _ h => h

theorem mapM (l : List α) (h : ∀ a ∈ l, C.Keeps g (f a) R) : C.Keeps g (l.mapM f) fun bs => ∀ b ∈ bs, R b := by
  induction l with
  | nil => exact done nofun
  | cons a l ih =>
    rw [mapM_cons]
    refine .seq (h a mem_cons_self) fun b hb => .seq (ih fun a ha => h a (mem_cons_of_mem _ ha)) fun bs hbs => ?_
    exact done (forall_mem_cons.mpr ⟨hb, hbs⟩)

theorem change {f : Heap → Heap} (h : ∀ w, C.Kept g w → C.Kept g { w with store.heap := f w.store.heap }) :
    C.Keeps g (Exec.modifyHeap f) fun _ => True :=
  .step (fun s => .ok ((), { s with heap := f s.heap })) (fun _ => rfl) (fun _ => .ok _) fun w _ s hw hs => by
    cases hs
    exact ⟨g, C.later_refl g, h w hw, rfl, trivial⟩

end Keeps

end Setting

end Stepwise
