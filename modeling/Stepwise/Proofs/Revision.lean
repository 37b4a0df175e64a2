import Stepwise.Proofs.Commands

/-!
# Changing what a target holds

An update and a compound assignment read a target, work out a new value and store it in the same target. The expressions
inside the target are evaluated for both, so the new value goes to the slot that the target stands for then. That is
the slot that was read whenever the target still stands for it and finding it changes nothing (`Revision.Settled`). It
is so for targets without calls and literals (`Spot.calm`) when the right-hand side leaves the store alone.
-/

namespace Stepwise

/-! ### Computations that only read -/

/-- The computation leaves the world as it is, and its result depends on nothing but the store. -/
structure Exec.Reads {α : Type} (x : Exec α) : Prop where
  still : ∀ w, (x.outcome w).2 = w
  same : ∀ w w', w.store = w'.store → (x.outcome w).1 = (x.outcome w').1

namespace Exec.Reads

variable {α β : Type} {x : Exec α}

theorem of_const {r : Except Fault α} (h : ∀ w, x.outcome w = (r, w)) : Reads x :=
  ⟨fun w => by rw [h], fun w w' _ => by rw [h, h]⟩

theorem done (a : α) : Reads (pure a : Exec α) := of_const fun _ => rfl

theorem fail (c : Cause) : Reads (Exec.fail c : Exec α) := of_const fun _ => rfl

theorem liftExcept (e : Except Fault α) : Reads (liftM e : Exec α) := of_const (outcome_liftExcept e)

theorem liftBreakdown (e : Except Breakdown α) : Reads (liftM e : Exec α) := by
  cases e <;> exact of_const fun _ => rfl

theorem outcome_eq (hx : Reads x) {w w' : World} (h : w.store = w'.store) : x.outcome w' = ((x.outcome w).1, w') :=
  Prod.ext (hx.same w w' h).symm (hx.still w')

theorem seq {f : α → Exec β} (hx : Reads x) (hf : ∀ a, Reads (f a)) : Reads (x >>= f) := by
  refine ⟨fun w => ?_, fun w w' h => ?_⟩
  · rw [outcome_bind, hx.outcome_eq rfl]
    cases (x.outcome w).1 with
    | error e => rfl
    | ok a => exact (hf a).still w
  · rw [outcome_bind, outcome_bind, hx.outcome_eq h, hx.outcome_eq (w := w) rfl]
    cases (x.outcome w).1 with
    | error e => rfl
    | ok a => exact (hf a).same w w' h

/-- In worlds with one store, the computation is one that only reads. -/
theorem of_each (h : ∀ w : World, ∃ y : Exec α, Reads y ∧
    ∀ w' : World, w.store = w'.store → x.outcome w' = y.outcome w') : Reads x := by
  refine ⟨fun w => ?_, fun w w' hsame => ?_⟩
  · obtain ⟨y, hy, heq⟩ := h w
    rw [heq w rfl, hy.still]
  · obtain ⟨y, hy, heq⟩ := h w
    rw [heq w rfl, heq w' hsame, hy.same w w' hsame]

theorem look {f : World → Exec α} (hf : ∀ w, Reads (f w)) (hsame : ∀ w w' : World, w.store = w'.store → f w = f w') :
    Reads (get >>= f) :=
  of_each fun w => ⟨f w, hf w, fun w' h => by rw [hsame w w' h]; exact outcome_bind_ok (outcome_get w')⟩

theorem heap : Reads Exec.heap := .look (fun _ => .done _) fun w w' h => by rw [h]

theorem ite (c : Prop) [Decidable c] {y : Exec α} (yes : Reads x) (no : Reads y) : Reads (if c then x else y) := by
  split
  · exact yes
  · exact no

theorem toChars (v : Value) : Reads (Exec.toChars v) := .seq heap fun _ => .liftBreakdown _

theorem toNumber (v : Value) : Reads (Exec.toNumber v) := .seq heap fun _ => .liftBreakdown _

theorem property (v : Value) (key : Text) : Reads (Eval.property v key) := .seq heap fun _ => .liftExcept _

theorem handle {recover : Fault → Exec α} (hx : Reads x) (hrecover : ∀ e, Reads (recover e)) :
    Reads (tryCatch x recover) := by
  refine ⟨fun w => ?_, fun w w' h => ?_⟩
  · rw [outcome_tryCatch, hx.outcome_eq rfl]
    cases (x.outcome w).1 with
    | error e => exact (hrecover e).still w
    | ok a => rfl
  · rw [outcome_tryCatch, outcome_tryCatch, hx.outcome_eq h, hx.outcome_eq (w := w) rfl]
    cases (x.outcome w).1 with
    | error e => exact (hrecover e).same w w' h
    | ok a => rfl

theorem typeOf {x : Exec Value} (hx : Reads x) : Reads (Eval.typeOf x) := by
  refine .handle (.seq hx fun _ => .done _) fun f => ?_
  cases f with
  | raised e => exact .ite _ (.done _) (.of_const fun _ => rfl)
  | breakdown why => exact .of_const fun _ => rfl

theorem outcome_namespace? (x : Text) (w : World) : (Eval.namespace? x).outcome w =
    (.ok (if w.store.has x then none else Namespace.ofName? x), w) := by
  unfold Eval.namespace?
  rw [outcome_bind, outcome_get]
  dsimp only
  split <;> rfl

theorem name (host : Host) {x : Text} (h : Namespace.ofName? x = none) : Reads (Eval.name host x) := by
  refine .look (fun w => ?_) fun w w' hsame => by rw [hsame]
  split
  · exact .done _
  · split
    · exact .done _
    · refine .ite _ (.done _) ?_
      rw [h]
      exact .fail _

/-- A name before a dot. A namespace has no object there. -/
theorem namespaceOr (host : Host) (x : Text) {yes : Namespace → Exec α} {no : Value → Exec α}
    (hyes : ∀ ns, Reads (yes ns)) (hno : ∀ v, Reads (no v)) :
    Reads (do match ← Eval.namespace? x with
      | some ns => yes ns
      | none => no (← Eval.name host x)) := by
  refine of_each fun w => ?_
  cases hfound : w.store.scope.find? x with
  | some b =>
    refine ⟨no b.value, hno _, fun w' h => ?_⟩
    rw [h] at hfound
    have hhas : w'.store.has x = true := by rw [Store.has, Scope.has, hfound]; rfl
    rw [outcome_bind_ok (outcome_namespace? x w'), if_pos hhas]
    refine outcome_bind_ok ?_
    rw [Eval.name, outcome_bind, outcome_get]
    dsimp only
    rw [hfound]
    rfl
  | none =>
    have hnamed (w' : World) (h : w.store = w'.store) :
        (Eval.namespace? x).outcome w' = (.ok (Namespace.ofName? x), w') := by
      have hhas : ¬ w'.store.has x = true := by rw [← h, Store.has, Scope.has, hfound]; exact Bool.false_ne_true
      rw [outcome_namespace?, if_neg hhas]
    cases hns : Namespace.ofName? x with
    | some ns =>
      refine ⟨yes ns, hyes ns, fun w' h => ?_⟩
      rw [outcome_bind_ok (hnamed w' h), hns]
    | none =>
      refine ⟨_, .seq (.name host hns) hno, fun w' h => ?_⟩
      rw [outcome_bind_ok (hnamed w' h), hns]

theorem unary (op : UnaryOp) (v : Value) : Reads (Eval.unary op v) := by
  cases op with
  | not => exact .seq (.liftBreakdown _) fun _ => .done _
  | minus => exact .seq (.toNumber v) fun _ => .seq (.liftBreakdown _) fun _ => .done _
  | plus => exact .seq (.toNumber v) fun _ => .done _
  | typeof => exact .done _

end Exec.Reads

/-! ### Calm expressions -/

mutual

/-- The expression has no calls and makes no objects. -/
def Expr.calm : Expr → Bool
  | .num _ | .text _ | .bool _ | .null | .undefined => true
  | .template parts => calmParts parts
  | .name x => (Namespace.ofName? x).isNone
  | .member (.name _) _ => true
  | .member e _ => e.calm
  | .index e key => e.calm && key.calm
  | .unary _ e => e.calm
  | .binary _ left right | .logical _ left right => left.calm && right.calm
  | .cond test yes no => test.calm && yes.calm && no.calm
  | .array _ | .object _ | .call _ _ => false

/-- All expressions in a template are calm. -/
def calmParts : List Part → Bool
  | [] => true
  | .text _ :: rest => calmParts rest
  | .code e :: rest => e.calm && calmParts rest

end

namespace Exec.Reads

mutual

theorem eval (host : Host) : (e : Expr) → e.calm → Reads (e.eval host)
  | .num _, _ | .text _, _ | .bool _, _ | .null, _ | .undefined, _ => .done _
  | .template parts, h => .seq (evalParts host parts (by simpa only [Expr.calm] using h)) fun _ => .done _
  | .name x, h => .name host (by simpa only [Expr.calm, Option.isNone_iff_eq_none] using h)
  | .member e key, h => by
    have inner := eval host e
    cases e with
    | name x => exact .namespaceOr host x (fun _ => .done _) fun _ => .property _ _
    | _ => exact .seq (inner h) fun _ => .property _ _
  | .index e key, h => by
    simp only [Expr.calm, Bool.and_eq_true] at h
    exact .seq (eval host e h.1) fun _ => .seq (eval host key h.2) fun _ => .seq .heap fun _ =>
      .seq (.liftBreakdown _) fun _ => .property _ _
  | .unary op e, h => by
    have inner := eval host e (by simpa only [Expr.calm] using h)
    cases op with
    | typeof => exact .typeOf inner
    | _ => exact .seq inner fun _ => .unary _ _
  | .binary op left right, h => by
    simp only [Expr.calm, Bool.and_eq_true] at h
    exact .seq (eval host left h.1) fun _ => .seq (eval host right h.2) fun _ => .seq .heap fun _ => .liftBreakdown _
  | .logical op left right, h => by
    simp only [Expr.calm, Bool.and_eq_true] at h
    exact .seq (eval host left h.1) fun _ => .seq (.liftBreakdown _) fun _ => .ite _ (.done _) (eval host right h.2)
  | .cond test yes no, h => by
    simp only [Expr.calm, Bool.and_eq_true] at h
    exact .seq (eval host test h.1.1) fun _ => .seq (.liftBreakdown _) fun _ =>
      .ite _ (eval host yes h.1.2) (eval host no h.2)

theorem evalParts (host : Host) : (parts : List Part) → calmParts parts → Reads (evalParts host parts)
  | [], _ => .done _
  | .text _ :: rest, h => .seq (evalParts host rest (by simpa only [calmParts] using h)) fun _ => .done _
  | .code e :: rest, h => by
    simp only [calmParts, Bool.and_eq_true] at h
    exact .seq (eval host e h.1) fun _ => .seq (.toChars _) fun _ => .seq (evalParts host rest h.2) fun _ => .done _

end

end Exec.Reads

/-! ### Slots -/

/-- The worlds differ in their heaps at most. -/
def World.OffHeap (w w' : World) : Prop := { w' with store.heap := w.store.heap } = w

namespace World.OffHeap

variable {u v w : World}

theorem refl (w : World) : w.OffHeap w := rfl

theorem symm (h : v.OffHeap w) : w.OffHeap v := by
  unfold OffHeap at h ⊢
  rw [← h]

theorem trans (huv : u.OffHeap v) (hvw : v.OffHeap w) : u.OffHeap w := by
  unfold OffHeap at huv hvw ⊢
  rw [← huv, ← hvw]

end World.OffHeap

/-- A target inside an object. -/
inductive Spot
  | member (object : Expr) (property : Text)
  | index (object key : Expr)

/-- What a target stands for: a property of an object, or a member of a namespace, which is not read through an
object. -/
inductive Slot
  | property (object : Value) (key : Text)
  | shared (x : Text) (ns : Namespace) (key : Text)

namespace Slot

/-- The value at a slot. -/
def read : Slot → Exec Value
  | .property object key => Eval.property object key
  | .shared x ns key => return Eval.namespaceMember x ns key

/-- Store a value at a slot. -/
def write (host : Host) (v : Value) : Slot → Exec Unit
  | .property object key => Exec.storeProperty object key v
  | .shared x _ key => do Exec.storeProperty (← Eval.name host x) key v

theorem reads_read (slot : Slot) : slot.read.Reads := by
  cases slot with
  | property object key => exact .property object key
  | shared x ns key => exact .done _

theorem offHeap_write (host : Host) (v : Value) (slot : Slot) : (slot.write host v).Keeps World.OffHeap := by
  have hstore (object : Value) (key : Text) : (Exec.storeProperty object key v).Keeps World.OffHeap := by
    refine .bind .trans (.of_const .refl fun _ => rfl) fun h => ?_
    exact .bind .trans (.of_const .refl (Exec.outcome_liftExcept _)) fun h' w => rfl
  cases slot with
  | property object key => exact hstore object key
  | shared x ns key =>
    refine .bind .trans (fun w => ?_) fun object => hstore object key
    rw [Eval.name, Exec.outcome_bind, Exec.outcome_get]
    dsimp only
    split
    · rfl
    · split
      · rfl
      · split
        · rfl
        · split <;> rfl

end Slot

namespace Spot

def target : Spot → Target
  | .member e property => .member e property
  | .index e key => .index e key

/-- Find the slot: evaluate the object, then the key. -/
def locate (host : Host) : Spot → Exec Slot
  | .member (.name x) property => do
    match ← Eval.namespace? x with
    | some ns => return .shared x ns property
    | none => return .property (← Eval.name host x) property
  | .member e property => return .property (← e.eval host) property
  | .index e key => do
    let object ← e.eval host
    let key ← key.eval host
    return .property object (← (← Exec.heap).propertyKey key)

variable {host : Host}

theorem read_target (spot : Spot) : spot.target.read host = spot.locate host >>= Slot.read := by
  cases spot with
  | member e property =>
    cases e with
    | name x =>
      simp only [target, Target.read, Target.toExpr, Expr.eval, locate, bind_assoc]
      refine bind_congr fun found => ?_
      cases found <;> simp only [pure_bind, bind_assoc, Slot.read]
    | _ => simp only [target, Target.read, Target.toExpr, Expr.eval, locate, bind_assoc, pure_bind, Slot.read]
  | index e key => simp only [target, Target.read, Target.toExpr, Expr.eval, locate, bind_assoc, pure_bind, Slot.read]

theorem namespace?_bind {α : Type} (x : Text) (next : Exec α) : (Eval.namespace? x >>= fun _ => next) = next :=
  funext fun w => Exec.outcome_bind_ok (Exec.Reads.outcome_namespace? x w)

theorem store_target (spot : Spot) (v : Value) : spot.target.store host v = spot.locate host >>= Slot.write host v := by
  cases spot with
  | member e property =>
    cases e with
    | name x =>
      simp only [target, Target.store, Expr.eval, locate, bind_assoc]
      refine (namespace?_bind x _).symm.trans (bind_congr fun found => ?_)
      cases found <;> simp only [pure_bind, bind_assoc, Slot.write]
    | _ => simp only [target, Target.store, locate, bind_assoc, pure_bind, Slot.write]
  | index e key => simp only [target, Target.store, locate, bind_assoc, pure_bind, Slot.write]

/-- The object and the key are found without calls, and nothing is made for them. -/
def calm (spot : Spot) : Bool := spot.target.toExpr.calm

theorem reads_locate {spot : Spot} (h : spot.calm) : (spot.locate host).Reads := by
  cases spot with
  | member e property =>
    cases e with
    | name x => exact .namespaceOr host x (fun _ => .done _) fun _ => .done _
    | _ => exact .seq (.eval host _ h) fun _ => .done _
  | index e key =>
    simp only [calm, target, Target.toExpr, Expr.calm, Bool.and_eq_true] at h
    exact .seq (.eval host e h.1) fun _ => .seq (.eval host key h.2) fun _ => .seq .heap fun _ =>
      .seq (.liftBreakdown _) fun _ => .done _

end Spot

/-! ### Revisions -/

/-- How a target is changed: by one up or down, or by an operator with another operand. -/
inductive Revision
  | step (increment : Bool)
  | combine (op : ArithOp) (operand : Expr)

namespace Revision

/-- The statement that changes the target. -/
def action (r : Revision) (t : Target) : Action :=
  match r with
  | .step increment => .update increment t
  | .combine op e => .compound op t e

/-- The expression on the right-hand side. -/
def operand? : Revision → Option Expr
  | .step _ => none
  | .combine _ e => some e

/-- The new value, from the old one. -/
def revise (host : Host) (r : Revision) (old : Value) : Exec Value :=
  match r with
  | .step increment => do
    let current ← Exec.toNumber old
    (← Exec.heap).arithmetic (if increment then .add else .sub) (.num current) (.int 1)
  | .combine op e => do
    let operand ← e.eval host
    (← Exec.heap).arithmetic op old operand

/-- Find the slot, and work out what is to be stored there. -/
def prepare (host : Host) (r : Revision) (spot : Spot) : Exec (Slot × Value) := do
  let slot ← spot.locate host
  let old ← slot.read
  return (slot, ← r.revise host old)

/-- The change with the slot found once. -/
def runOnce (host : Host) (r : Revision) (spot : Spot) : Exec Unit := do
  let (slot, new) ← r.prepare host spot
  slot.write host new

/-- The change with the slot found again for the new value. -/
def runTwice (host : Host) (r : Revision) (spot : Spot) : Exec Unit := do
  let (_, new) ← r.prepare host spot
  let slot ← spot.locate host
  slot.write host new

/-- When the new value is there, the target still stands for the slot that was read, and finding that out changes
nothing. -/
def Settled (host : Host) (r : Revision) (spot : Spot) (w : World) : Prop :=
  ∀ slot new w', (r.prepare host spot).outcome w = (.ok (slot, new), w') →
    (spot.locate host).outcome w' = (.ok slot, w')

variable {host : Host} {spot : Spot} {w : World} {r : Revision}

theorem run_action (r : Revision) : (r.action spot.target).run host = r.runTwice host spot := by
  cases r with
  | step increment =>
    simp only [action, Action.run, runTwice, prepare, revise, Spot.read_target, Spot.store_target, bind_assoc, pure_bind]
  | combine op e =>
    simp only [action, Action.run, runTwice, prepare, revise, Spot.read_target, Spot.store_target, bind_assoc, pure_bind]

theorem outcome_runTwice (h : r.Settled host spot w) :
    (r.runTwice host spot).outcome w = (r.runOnce host spot).outcome w := by
  unfold runTwice runOnce
  rcases hprepare : (r.prepare host spot).outcome w with ⟨fault | ⟨slot, new⟩, w'⟩
  · rw [Exec.outcome_bind_error hprepare, Exec.outcome_bind_error hprepare]
  · rw [Exec.outcome_bind_ok hprepare, Exec.outcome_bind_ok hprepare]
    exact Exec.outcome_bind_ok (h slot new w' hprepare)

/-- Without a right-hand side, or with one that leaves the store alone, so does working out the new value. -/
theorem store_revise (old : Value) (h : ∀ e ∈ r.operand?, ((e.eval host).outcome w).2.store = w.store) :
    ((r.revise host old).outcome w).2.store = w.store := by
  cases r with
  | step increment =>
    have hreads : ((Revision.step increment).revise host old).Reads :=
      .seq (.toNumber old) fun _ => .seq .heap fun _ => .liftBreakdown _
    rw [hreads.still]
  | combine op e =>
    have hkept := h e rfl
    rw [revise, Exec.outcome_bind]
    generalize (e.eval host).outcome w = result at hkept ⊢
    rcases result with ⟨fault | operand, w'⟩
    · exact hkept
    · exact hkept

theorem settled_of_calm (hspot : spot.calm)
    (h : ∀ e ∈ r.operand?, ((e.eval host).outcome w).2.store = w.store) : r.Settled host spot w := by
  intro slot new w' hprepare
  obtain ⟨found, w₁, hlocate, hrest⟩ := Exec.bind_eq_ok hprepare
  obtain ⟨old, w₂, hread, hrest⟩ := Exec.bind_eq_ok hrest
  obtain ⟨value, w₃, hrevise, hdone⟩ := Exec.bind_eq_ok hrest
  -- up to the right-hand side nothing has changed
  have hlocated : Exec.Reads (spot.locate host) := spot.reads_locate hspot
  obtain rfl : w₁ = w := by rw [← hlocated.still w, hlocate]
  obtain rfl : w₂ = w₁ := by rw [← found.reads_read.still w₁, hread]
  have hstore : w₃.store = w₂.store := by rw [← store_revise old h, hrevise]
  cases hdone
  rw [hlocated.outcome_eq hstore.symm, hlocate]

/-- Where the change comes to the same as with the slot found once, finding it again has no effects beside the heap. -/
theorem offHeap_of_outcome_eq {slot slot' : Slot} {new : Value} {w' w'' : World}
    (hprepare : (r.prepare host spot).outcome w = (.ok (slot, new), w'))
    (hlocate : (spot.locate host).outcome w' = (.ok slot', w''))
    (h : (r.runTwice host spot).outcome w = (r.runOnce host spot).outcome w) : w'.OffHeap w'' := by
  have htwice : (r.runTwice host spot).outcome w = (slot'.write host new).outcome w'' :=
    (Exec.outcome_bind_ok hprepare).trans (Exec.outcome_bind_ok hlocate)
  have honce : (r.runOnce host spot).outcome w = (slot.write host new).outcome w' := Exec.outcome_bind_ok hprepare
  have hlast := slot'.offHeap_write host new w''
  have hfirst := slot.offHeap_write host new w'
  rw [← htwice, h, honce] at hlast
  exact hfirst.trans hlast.symm

end Revision

/-- An update or a compound assignment finds the slot of its target twice, once to read and once more to store. It
comes to the same as finding it once whenever the target is settled, as it is without calls and literals in it if the
right-hand side leaves the store alone; and it comes to the same only if finding the slot again has no effects beside
the heap. -/
theorem revisions_find_slot_again (host : Host) (r : Revision) (spot : Spot) :
    (r.action spot.target).run host = r.runTwice host spot ∧ ∀ w,
      (r.Settled host spot w → ((r.action spot.target).run host).outcome w = (r.runOnce host spot).outcome w) ∧
      (spot.calm → (∀ e ∈ r.operand?, ((e.eval host).outcome w).2.store = w.store) → r.Settled host spot w) ∧
      ∀ slot slot' new w' w'', (r.prepare host spot).outcome w = (.ok (slot, new), w') →
        (spot.locate host).outcome w' = (.ok slot', w'') →
        ((r.action spot.target).run host).outcome w = (r.runOnce host spot).outcome w → w'.OffHeap w'' := by
  rw [Revision.run_action]
  refine ⟨rfl, fun w => ⟨fun h => Revision.outcome_runTwice h, fun hspot h => Revision.settled_of_calm hspot h, ?_⟩⟩
  intro slot slot' new w' w'' hprepare hlocate h
  exact Revision.offHeap_of_outcome_eq hprepare hlocate h

/-- An item of an array whose index is in a variable. -/
def Spot.item : Spot := .index (.name "a".codes) (.name "i".codes)

/-- An item of an array whose index a function returns. -/
def Spot.called : Spot := .index (.name "a".codes) (.call (.name "k".codes) [])

theorem revisions_find_slot_again_item : ∃ s : Session, s.Reachable ∧
    Spot.item.calm ∧ (((Expr.name "i".codes).eval s.host).outcome s.world).2.store = s.world.store ∧
    (Revision.combine .add (.name "i".codes)).Settled s.host .item s.world ∧
    ((Action.compound .add Spot.item.target (.name "i".codes)).run s.host).outcome s.world =
      ((Revision.combine .add (.name "i".codes)).runOnce s.host .item).outcome s.world ∧
    (((Revision.combine .add (.name "i".codes)).runOnce s.host .item).outcome s.world).1.isOk ∧
    ∃ slot new w' w'', ((Revision.combine .add (.name "i".codes)).prepare s.host .item).outcome s.world =
        (.ok (slot, new), w') ∧
      (Spot.item.locate s.host).outcome w' = (.ok slot, w'') ∧ w'.OffHeap w'' := by
  obtain ⟨s, hs, hrun⟩ := Session.exists_reachable .standard "let a = [1, 2]\nlet i = 1".codes [.step, .step]
    (fun s => (((Revision.combine .add (.name "i".codes)).runOnce s.host .item).outcome s.world).1.isOk)
    (by decide +kernel)
  have hcalm : Spot.item.calm := by decide
  have hstore : (((Expr.name "i".codes).eval s.host).outcome s.world).2.store = s.world.store := by
    rw [(Exec.Reads.eval s.host _ (by decide)).still]
  obtain ⟨honce, hsettled, hoff⟩ := (revisions_find_slot_again s.host (.combine .add (.name "i".codes)) .item).2 s.world
  have h := hsettled hcalm fun e he => by cases he; exact hstore
  refine ⟨s, hs, hcalm, hstore, h, honce h, hrun, ?_⟩
  rcases hprepare : ((Revision.combine .add (.name "i".codes)).prepare s.host .item).outcome s.world with
    ⟨fault | ⟨slot, new⟩, w'⟩
  · rw [Revision.runOnce, Exec.outcome_bind_error hprepare] at hrun
    cases hrun
  · have hlocate := h slot new w' hprepare
    exact ⟨slot, new, w', w', rfl, hlocate, hoff slot slot new w' w' hprepare hlocate (honce h)⟩

/-- A function in the target is called twice. -/
theorem revision_calls_twice : ∃ s : Session, s.Reachable ∧
    (((Action.compound .add Spot.called.target (.num (.int 1))).run s.host).outcome s.world).2.output =
      #["k".codes, "k".codes] ∧
    (((Revision.combine .add (.num (.int 1))).runOnce s.host .called).outcome s.world).2.output = #["k".codes] := by
  obtain ⟨s, hs, hrun⟩ := Session.exists_reachable .standard
    "let a = [1]\nfunction k() \x7b\n  console.log('k')\n  return 0\n\x7d\na[k()] += 1".codes [.step, .step, .step]
    (fun s => decide ((((Action.compound .add Spot.called.target (.num (.int 1))).run s.host).outcome s.world).2.output =
        #["k".codes, "k".codes]) &&
      decide ((((Revision.combine .add (.num (.int 1))).runOnce s.host .called).outcome s.world).2.output = #["k".codes]))
    (by decide +kernel)
  simp only [Bool.and_eq_true, decide_eq_true_eq] at hrun
  exact ⟨s, hs, hrun⟩

end Stepwise
