import Stepwise.Proofs.Computation
import Stepwise.Proofs.Likeness

/-!
# Scopes as stacks of maps

What the layers of a scope bind is a stack of maps from names to data. A declaration binds its name in the map of its own
level. A store changes the nearest map that holds the name, or else the root, and is refused where the name is constant.
So it is with every sequence of declarations and stores, made from any levels of the scope (`Store.performAll_layered`).
-/

namespace Stepwise

open List

/-! ### Stacks -/

/-- What a map of a stack holds under a name. -/
structure Stack.Slot where
  datum : Datum
  constant : Bool

/-- Maps from names to slots, from the innermost one to the root. -/
abbrev Stack := List (Text → Option Stack.Slot)

/-- A declaration of a name or a store to it, made by the part of a scope that begins at the given level. -/
structure Edit (α : Type) where
  level : Nat
  name : Text
  value : α
  /-- whether the name is declared constant; none for a store -/
  declares : Option Bool

def Edit.map {α β : Type} (f : α → β) (e : Edit α) : Edit β := ⟨e.level, e.name, f e.value, e.declares⟩

namespace Stack

variable {σ : Stack} {level : Nat} {name : Text} {slot : Slot}

/-- What the map of a level itself holds under a name. -/
def bound (σ : Stack) (level : Nat) (name : Text) : Option Slot := σ[level]?.bind (· name)

/-- The level whose map a name belongs to: the nearest one from the given level on that holds it, or else the root. -/
def owner (σ : Stack) (level : Nat) (name : Text) : Nat :=
  level + (σ.drop level).dropLast.findIdx fun m => (m name).isSome

def put (σ : Stack) (level : Nat) (name : Text) (slot : Slot) : Stack :=
  σ.modify level fun m => Function.update m name (some slot)

/-- The stack after a declaration or a store; none if the name is constant. -/
def perform (σ : Stack) (e : Edit Datum) : Option Stack :=
  match e.declares with
  | some constant => some (σ.put e.level e.name ⟨e.value, constant⟩)
  | none =>
    let owner := σ.owner e.level e.name
    if (σ.bound owner e.name).any (·.constant) then none else some (σ.put owner e.name ⟨e.value, false⟩)

/-- The stack after some edits, of which those that are refused change nothing. -/
def performAll (σ : Stack) (edits : List (Edit Datum)) : Stack := edits.foldl (fun σ e => (σ.perform e).getD σ) σ

theorem bound_put_of_ne {level' : Nat} {name' : Text} (hother : level' = level → name' ≠ name) :
    (σ.put level name slot).bound level' name' = σ.bound level' name' := by
  rw [bound, bound, put, getElem?_modify]
  by_cases hsame : level = level'
  · cases σ[level']? <;> simp [hsame, Function.update_of_ne (hother hsame.symm)]
  · cases σ[level']? <;> simp [hsame]

/-- Only a declaration in the same map changes what a constant is bound to. -/
theorem bound_perform_of_constant {d : Datum} {e : Edit Datum} (hbound : σ.bound level name = some ⟨d, true⟩)
    (hother : e.declares.isSome → e.level = level → e.name ≠ name) :
    ((σ.perform e).getD σ).bound level name = some ⟨d, true⟩ := by
  unfold perform
  split
  case h_1 constant hdeclares =>
    exact (bound_put_of_ne fun hlevel => (hother (by rw [hdeclares]; rfl) hlevel.symm).symm).trans hbound
  case h_2 =>
    dsimp only
    split
    case isTrue => exact hbound
    case isFalse hallowed =>
      refine (bound_put_of_ne fun hlevel hname => hallowed ?_).trans hbound
      rw [← hlevel, ← hname, hbound]
      rfl

end Stack

/-! ### Layers -/

theorem modify_append_right {α : Type} (l l' : List α) (i : Nat) (f : α → α) :
    (l ++ l').modify (l.length + i) f = l ++ l'.modify i f := by
  induction l <;> grind

namespace Scope

variable {name : Text}

/-- The level of the layer that a name belongs to. -/
def owner (s : Scope) (name : Text) : Nat := s.inner.findIdx (·.has name)

theorem find?_eq (s : Scope) (name : Text) : s.find? name = s.layers[s.owner name]?.bind (·.get? name) := by
  rw [find?, layers, owner]
  induction s.inner with
  | nil => rw [nil_append, findSome?_singleton]; rfl
  | cons layer inner ih =>
    have hsome := layer.isSome_get? name
    rw [cons_append, findSome?_cons, findIdx_cons, ← hsome]
    cases hget : layer.get? name with
    | some b => exact hget.symm
    | none => exact ih

theorem layers_storeIn (value : Value) {inner : List Layer} (root : Layer) (hany : inner.any (·.has name) = true) :
    storeIn name value inner ++ [root] =
      (inner ++ [root]).modify (inner.findIdx (·.has name)) (·.declare name value false) := by
  induction inner with
  | nil => cases hany
  | cons layer inner ih => grind [storeIn]

theorem assign_cases (s : Scope) (name : Text) (value : Value) :
    (s.find? name).any (·.constant) = true ∧ s.assign name value = .error .constantAssignment ∨
    (s.find? name).any (·.constant) = false ∧ ∃ s', s.assign name value = .ok s' ∧
      s'.inner.length = s.inner.length ∧ s'.layers = s.layers.modify (s.owner name) (·.declare name value false) := by
  have hroot (hany : s.inner.any (·.has name) = false) :
      s.inner ++ [s.root.declare name value false] = s.layers.modify (s.owner name) (·.declare name value false) := by
    have howner : s.owner name = s.inner.length + 0 := by
      refine findIdx_eq_length.mpr fun layer hlayer => ?_
      simpa using any_eq_false.mp hany layer hlayer
    rw [howner]
    exact (modify_append_right s.inner [s.root] 0 fun layer => layer.declare name value false).symm
  unfold assign
  cases hfind : s.find? name with
  | none =>
    refine .inr ⟨rfl, _, rfl, rfl, hroot ?_⟩
    rw [any_eq_false]
    intro layer hlayer hhas
    rw [find?, layers, findSome?_eq_none_iff] at hfind
    rw [← layer.isSome_get?, hfind layer (mem_append_left _ hlayer)] at hhas
    cases hhas
  | some b =>
    dsimp only
    cases hconstant : b.constant with
    | true => exact .inl ⟨hconstant, rfl⟩
    | false =>
      refine .inr ⟨hconstant, ?_⟩
      cases hany : s.inner.any (·.has name) with
      | true =>
        have hlayers := layers_storeIn value s.root hany
        refine ⟨_, rfl, ?_, hlayers⟩
        have hlength := congrArg List.length hlayers
        simpa using hlength
      | false => exact ⟨_, rfl, rfl, hroot hany⟩

theorem declare_layers (s : Scope) (name : Text) (value : Value) (constant : Bool) :
    (s.declare name value constant).inner.length = s.inner.length ∧
      (s.declare name value constant).layers = s.layers.modify 0 (·.declare name value constant) := by
  obtain ⟨inner, root⟩ := s
  cases inner <;> exact ⟨rfl, rfl⟩

end Scope

/-! ### Stores -/

namespace Store

open Stack

variable {s s' : Store} {level : Nat} {name : Text} {v : Value} {d : Datum} {constant : Bool}

/-- The part of the scope that begins at the given level. -/
def outward (s : Store) (level : Nat) : Store := s.within (s.scope.inner.drop level)

def slot (s : Store) (b : Binding) : Slot := ⟨s.heap.read b.value, b.constant⟩

/-- What the layers bind, as data. -/
def stack (s : Store) : Stack := s.scope.layers.map fun layer name => (layer.get? name).map s.slot

/-- A declaration or a store, made by the part of the scope that begins at its level. -/
def perform (s : Store) (e : Edit Value) : Except Cause Store := do
  let done ← match e.declares with
    | some constant => pure ((s.outward e.level).declare e.name e.value constant)
    | none => (s.outward e.level).assign e.name e.value
  return done.within (s.scope.inner.take e.level ++ done.scope.inner)

/-- The store after some edits, of which those that are refused change nothing. -/
def performAll (s : Store) (edits : List (Edit Value)) : Store := edits.foldl (fun s e => (s.perform e).toOption.getD s) s

/-- All values that are bound are data. -/
def Shown (s : Store) : Prop :=
  ∀ layer ∈ s.scope.layers, ∀ name b, layer.get? name = some b → ∃ d, s.heap.Shows s.heap.next b.value d

/-- The edit is made by a level of the scope, with a value that is a datum. -/
def Fits (s : Store) (e : Edit Value) : Prop :=
  e.level ≤ s.scope.inner.length ∧ ∃ d, s.heap.Shows s.heap.next e.value d

/-- The store differs in one layer, where a name is bound to a copy of the value. -/
structure Rebound (s : Store) (level : Nat) (name : Text) (v : Value) (constant : Bool) (s' : Store) : Prop where
  heap : s'.heap = (s.heap.copy v).2
  depth : s'.scope.inner.length = s.scope.inner.length
  layers : s'.scope.layers = s.scope.layers.modify level (·.declare name (s.heap.copy v).1 constant)

theorem layers_outward (s : Store) (level : Nat) :
    s.scope.inner.take level ++ (s.outward level).scope.layers = s.scope.layers := by
  show s.scope.inner.take level ++ (s.scope.inner.drop level ++ [s.scope.root]) = s.scope.inner ++ [s.scope.root]
  rw [← append_assoc, take_append_drop]

theorem Rebound.inward {i : Nat} (hlevel : level ≤ s.scope.inner.length)
    (h : (s.outward level).Rebound i name v constant s') :
    s.Rebound (level + i) name v constant (s'.within (s.scope.inner.take level ++ s'.scope.inner)) where
  heap := h.heap
  depth := by
    have hdepth : s'.scope.inner.length = (s.scope.inner.drop level).length := h.depth
    rw [length_drop] at hdepth
    show (s.scope.inner.take level ++ s'.scope.inner).length = _
    rw [length_append, length_take, hdepth]
    omega
  layers := by
    have htake : (s.scope.inner.take level).length = level := length_take_of_le hlevel
    have hmodify := modify_append_right (s.scope.inner.take level) (s.outward level).scope.layers i
      fun layer => layer.declare name (s.heap.copy v).1 constant
    rw [htake, layers_outward] at hmodify
    rw [hmodify]
    show (s.scope.inner.take level ++ s'.scope.inner) ++ [s'.scope.root] = _
    rw [append_assoc]
    exact congrArg (s.scope.inner.take level ++ ·) h.layers

theorem owner_stack (hlevel : level ≤ s.scope.inner.length) (name : Text) :
    s.stack.owner level name = level + (s.outward level).scope.owner name := by
  have hlayers : (s.stack.drop level).dropLast =
      (s.scope.inner.drop level).map fun layer name => (layer.get? name).map s.slot := by
    rw [stack, ← map_drop, ← map_dropLast, Scope.layers, drop_append_of_le_length hlevel,
      dropLast_concat]
  rw [Stack.owner, hlayers, findIdx_map]
  refine congrArg (level + findIdx · _) (funext fun layer => ?_)
  exact Option.isSome_map.trans (layer.isSome_get? name)

theorem bound_stack (hlevel : level ≤ s.scope.inner.length) (name : Text) :
    s.stack.bound (s.stack.owner level name) name = ((s.outward level).scope.find? name).map s.slot := by
  have htake : (s.scope.inner.take level).length = level := length_take_of_le hlevel
  rw [owner_stack hlevel, Scope.find?_eq, bound, stack, getElem?_map, ← layers_outward s level,
    getElem?_append_right (by omega), htake, Nat.add_sub_cancel_left]
  cases (s.outward level).scope.layers[(s.outward level).scope.owner name]? <;> rfl

theorem Rebound.stack (h : s.Rebound level name v constant s') (hs : s.Shown)
    (hv : s.heap.Shows s.heap.next v d) : s'.Shown ∧ s'.stack = s.stack.put level name ⟨d, constant⟩ := by
  obtain ⟨hkeeps, hcopy⟩ := Heap.shows_copy hv
  rw [← h.heap] at hkeeps hcopy
  have hnew (layer : Layer) : (layer.declare name (s.heap.copy v).1 constant).get? =
      Function.update layer.get? name (some ⟨(s.heap.copy v).1, constant⟩) := layer.get?_put name _
  refine ⟨fun layer hlayer name' b hb => ?_, ext_getElem? fun j => ?_⟩
  · obtain ⟨j, hj⟩ := mem_iff_getElem?.mp hlayer
    rw [h.layers, getElem?_modify] at hj
    obtain ⟨old, hold, rfl⟩ := Option.map_eq_some_iff.mp hj
    have hmem := mem_of_getElem? hold
    by_cases hlevel : level = j
    · rw [if_pos hlevel, hnew] at hb
      by_cases hname : name' = name
      · subst hname
        rw [Function.update_self] at hb
        cases hb
        exact ⟨d, hcopy⟩
      · rw [Function.update_of_ne hname] at hb
        exact (hs old hmem name' b hb).imp fun _ hd => hd.keeps hkeeps
    · rw [if_neg hlevel] at hb
      exact (hs old hmem name' b hb).imp fun _ hd => hd.keeps hkeeps
  · rw [Store.stack, Store.stack, Stack.put, getElem?_modify, getElem?_map, getElem?_map, h.layers,
      getElem?_modify]
    cases hold : s.scope.layers[j]? with
    | none => rfl
    | some layer =>
      -- what was bound before is read as it was
      have hslots : (fun name => (layer.get? name).map s'.slot) = fun name => (layer.get? name).map s.slot := by
        funext name'
        cases hb : layer.get? name' with
        | none => rfl
        | some b =>
          obtain ⟨d', hd'⟩ := hs layer (mem_of_getElem? hold) name' b hb
          simp only [Option.map_some, slot, hd'.read, (hd'.keeps hkeeps).read]
      by_cases hlevel : level = j
      · have hput : (fun name' => ((layer.declare name (s.heap.copy v).1 constant).get? name').map s'.slot) =
            Function.update (fun name' => (layer.get? name').map s.slot) name (some ⟨d, constant⟩) := by
          funext name'
          rw [hnew, ← hslots]
          by_cases hname : name' = name
          · subst hname
            simp only [Function.update_self, Option.map_some, slot, hcopy.read]
          · simp only [Function.update_of_ne hname]
        simpa [hlevel] using hput
      · simpa [hlevel] using hslots

theorem perform_stack {e : Edit Value} (hs : s.Shown) (he : s.Fits e) :
    s.perform e = .error .constantAssignment ∧ s.stack.perform (e.map s.heap.read) = none ∨
    ∃ s', s.perform e = .ok s' ∧ s'.Shown ∧ s'.scope.inner.length = s.scope.inner.length ∧ s.heap.Keeps s'.heap ∧
      s.stack.perform (e.map s.heap.read) = some s'.stack := by
  obtain ⟨hlevel, d, hd⟩ := he
  obtain ⟨hkeeps, -⟩ := Heap.shows_copy hd
  rw [perform, Stack.perform, Edit.map, hd.read]
  cases e.declares with
  | some constant =>
    obtain ⟨hdepth, hlayers⟩ := (s.outward e.level).scope.declare_layers e.name (s.heap.copy e.value).1 constant
    have hdone : (s.outward e.level).Rebound 0 e.name e.value constant
        ((s.outward e.level).declare e.name e.value constant) := ⟨rfl, hdepth, hlayers⟩
    obtain ⟨hs', hstack⟩ := (hdone.inward hlevel).stack hs hd
    exact .inr ⟨_, rfl, hs', (hdone.inward hlevel).depth, hkeeps, congrArg some hstack.symm⟩
  | none =>
    have hassign : (s.outward e.level).assign e.name e.value =
        (s.outward e.level).scope.assign e.name (s.heap.copy e.value).1 >>= fun scope =>
          .ok ⟨(s.heap.copy e.value).2, scope⟩ := rfl
    dsimp only
    rw [hassign, bound_stack hlevel, Option.any_map]
    rcases (s.outward e.level).scope.assign_cases e.name (s.heap.copy e.value).1 with
      ⟨hconstant, hfail⟩ | ⟨hallowed, scope, hok, hdepth, hlayers⟩
    · rw [hfail]
      exact .inl ⟨rfl, if_pos hconstant⟩
    · have hdone : (s.outward e.level).Rebound ((s.outward e.level).scope.owner e.name) e.name e.value false
          ⟨(s.heap.copy e.value).2, scope⟩ := ⟨rfl, hdepth, hlayers⟩
      obtain ⟨hs', hstack⟩ := (hdone.inward hlevel).stack hs hd
      rw [hok, owner_stack hlevel]
      refine .inr ⟨_, rfl, hs', (hdone.inward hlevel).depth, hkeeps, ?_⟩
      exact (if_neg (ne_true_of_eq_false hallowed)).trans (congrArg some hstack.symm)

theorem performAll_stack {edits : List (Edit Value)} (hs : s.Shown) (hedits : ∀ e ∈ edits, s.Fits e) :
    (s.performAll edits).Shown ∧ (s.performAll edits).stack = s.stack.performAll (edits.map (Edit.map s.heap.read)) := by
  induction edits generalizing s with
  | nil => exact ⟨hs, rfl⟩
  | cons e edits ih =>
    obtain ⟨he, hrest⟩ := forall_mem_cons.mp hedits
    rw [performAll, Stack.performAll, map_cons, foldl_cons, foldl_cons]
    rcases perform_stack hs he with ⟨hfail, hstack⟩ | ⟨s', hok, hs', hdepth, hkeeps, hstack⟩
    · rw [hfail, hstack]
      exact ih hs hrest
    · -- the values of the other edits are what they were
      have hfits : ∀ e ∈ edits, s'.Fits e := fun e he =>
        ⟨hdepth ▸ (hrest e he).1, (hrest e he).2.imp fun _ hd => hd.keeps hkeeps⟩
      have hmap : edits.map (Edit.map s'.heap.read) = edits.map (Edit.map s.heap.read) := by
        refine map_congr_left fun e he => ?_
        obtain ⟨d, hd⟩ := (hrest e he).2
        rw [Edit.map, Edit.map, hd.read, (hd.keeps hkeeps).read]
      rw [hok, hstack, ← hmap]
      exact ih hs' hfits

/-- Names mean what they mean in the stack, and edits act as on the stack: those that it refuses fail and change
nothing. -/
structure Layered (s : Store) : Prop where
  has (level : Nat) (name : Text) : level ≤ s.scope.inner.length →
    (s.outward level).has name = (s.stack.bound (s.stack.owner level name) name).isSome
  lookup (level : Nat) (name : Text) : level ≤ s.scope.inner.length →
    ((s.outward level).lookup name).map s.heap.read =
      (s.stack.bound (s.stack.owner level name) name).elim (.error (.undefinedName name)) (.ok ·.datum)
  perform (e : Edit Value) : s.Fits e →
    (s.perform e).map stack = (s.stack.perform (e.map s.heap.read)).elim (.error .constantAssignment) .ok
  refuse (w : World) (name : Text) (v : Value) : w.store = s →
    (s.stack.bound (s.stack.owner 0 name) name).any (·.constant) →
    (Exec.assign name v).outcome w = (.error (.of .constantAssignment), w)

theorem Shown.layered (hs : s.Shown) : s.Layered where
  has level name hlevel := by
    rw [bound_stack hlevel, Option.isSome_map]
    rfl
  lookup level name hlevel := by
    rw [bound_stack hlevel, Store.lookup, Scope.lookup]
    cases (s.outward level).scope.find? name <;> rfl
  perform e he := by
    rcases perform_stack hs he with ⟨hfail, hstack⟩ | ⟨s', hok, -, -, -, hstack⟩
    · rw [hfail, hstack]
      rfl
    · rw [hok, hstack]
      rfl
  refuse w name v hw hconstant := by
    rw [bound_stack (Nat.zero_le _), Option.any_map] at hconstant
    have hfail : (liftM (w.store.assign name v) : Exec Store).outcome w = (.error (.of .constantAssignment), w) := by
      rcases s.scope.assign_cases name (s.heap.copy v).1 with ⟨-, hfail⟩ | ⟨hallowed, -⟩
      · show (liftM (w.store.scope.assign name (w.store.heap.copy v).1 >>= _) : Exec Store).outcome w = _
        rw [hw, hfail]
        rfl
      · exact absurd hconstant (ne_true_of_eq_false hallowed)
    show ((liftM (w.store.assign name v) : Exec Store) >>= _).outcome w = _
    rw [Exec.outcome_bind_error hfail]

/-- After any declarations and stores, made from any levels of a scope, names are bound as in a stack of maps to which the
same was done, and further ones act on the scope as on that stack. A constant goes on being bound to what it was unless it
is declared again in the same level. -/
theorem performAll_layered (s : Store) (edits : List (Edit Value)) (hs : s.Shown) (hedits : ∀ e ∈ edits, s.Fits e) :
    (s.performAll edits).stack = s.stack.performAll (edits.map (Edit.map s.heap.read)) ∧
    (s.performAll edits).Layered ∧ Cause.constantAssignment.kind = .type ∧
    ∀ level name d, s.stack.bound level name = some ⟨d, true⟩ →
      (∀ e ∈ edits, e.declares.isSome → e.level = level → e.name ≠ name) →
      (s.performAll edits).stack.bound level name = some ⟨d, true⟩ := by
  obtain ⟨hshown, hstack⟩ := performAll_stack hs hedits
  refine ⟨hstack, hshown.layered, rfl, fun level name d hbound hother => ?_⟩
  rw [hstack]
  refine foldlRecOn (motive := fun σ : Stack => σ.bound level name = some ⟨d, true⟩) _ _ hbound
    fun σ hσ e he => bound_perform_of_constant hσ ?_
  obtain ⟨e', he', rfl⟩ := mem_map.mp he
  exact hother e' he'

/-- A constant of the root is hidden by a variable further in. A store from the innermost level changes that variable, and
a store to an unknown name makes a binding in the root. -/
theorem performAll_layered_hidden : ∃ (s : Store) (edits : List (Edit Value)), s.Shown ∧ (∀ e ∈ edits, s.Fits e) ∧
    (s.performAll edits).stack.bound 2 "x".codes = some ⟨.num (.int 1), true⟩ ∧
    (s.performAll edits).stack.bound 1 "x".codes = some ⟨.num (.int 4), false⟩ ∧
    (s.performAll edits).stack.bound 2 "y".codes = some ⟨.num (.int 5), false⟩ := by
  have hshown : (Store.mk .empty ⟨[.empty, .empty], .empty⟩).Shown := by
    intro layer hlayer name b hb
    obtain rfl : layer = .empty := by simpa [Scope.layers] using hlayer
    cases hb
  let edits : List (Edit Value) := [⟨2, "x".codes, .int 1, some true⟩, ⟨0, "x".codes, .int 2, none⟩,
    ⟨1, "x".codes, .int 3, some false⟩, ⟨0, "x".codes, .int 4, none⟩, ⟨0, "y".codes, .int 5, none⟩]
  have hfits : ∀ e ∈ edits, (Store.mk .empty ⟨[.empty, .empty], .empty⟩).Fits e := by
    simp only [edits, forall_mem_cons]
    refine ⟨⟨by decide, _, .plain rfl⟩, ⟨by decide, _, .plain rfl⟩, ⟨by decide, _, .plain rfl⟩, ⟨by decide, _, .plain rfl⟩,
      ⟨by decide, _, .plain rfl⟩, forall_mem_nil _⟩
  refine ⟨_, edits, hshown, hfits, ?_⟩
  rw [(performAll_layered _ edits hshown hfits).1]
  exact ⟨rfl, rfl, rfl⟩

end Store

end Stepwise
