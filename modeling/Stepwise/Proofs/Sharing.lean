import Mathlib.Data.List.Perm.Subperm
import Stepwise.Proofs.Acyclic
import Stepwise.Proofs.Custody

/-!
# Variables share no cells

Whatever is bound to a name is a copy. So each cell belongs to one variable at most, and a cell that belongs to a
variable holds nothing but what belongs to the same one. New cells are made from older ones or from copies: there is a
ranking of the cells that falls along references. The ledger `Owners` notes both, and it can be brought forward over
everything that a computation does (`Custody.owners`).
-/

namespace Stepwise

open List

/-! ### The values of variables -/

/-- The values that are bound in a layer. -/
def Layer.bound (layer : Layer) : List Value := layer.values.map Binding.value

/-- The values that are bound in some layers. -/
def boundIn (layers : List Layer) : List Value := layers.flatMap Layer.bound

/-- The layers of all activations. -/
def World.layers (w : World) : List Layer := w.store.scope.layers ++ w.callers.flatMap Caller.locals

/-- The values of all variables, those of activations that wait included. -/
def World.bindings (w : World) : List Value := boundIn w.layers

section Bound

variable {name : Text} {v : Value} {outer outer' : List Layer} {s : Scope}

theorem boundIn_append (layers layers' : List Layer) : boundIn (layers ++ layers') = boundIn layers ++ boundIn layers' :=
  flatMap_append

theorem bound_put (name : Text) (b : Binding) (entries : List (Text × Binding)) :
    (Assoc.put name b entries).map (·.2.value) <+~ b.value :: entries.map (·.2.value) := by
  induction entries with
  | nil => exact Subperm.refl _
  | cons e entries ih =>
    obtain ⟨key, old⟩ := e
    by_cases hsame : key = name
    · simp only [Assoc.put, hsame, beq_self_eq_true, if_true, map_cons]
      exact (subperm_cons _).mpr (sublist_cons_self _ _).subperm
    · simp only [Assoc.put, beq_false_of_ne hsame, Bool.false_eq_true, if_false, map_cons]
      exact ((subperm_cons _).mpr ih).trans (Perm.swap _ _ _).subperm

theorem bound_declare (layer : Layer) (constant : Bool) : (layer.declare name v constant).bound <+~ v :: layer.bound := by
  have hput := bound_put name ⟨v, constant⟩ layer.toList
  rw [← OrderedMap.toList_put] at hput
  simpa only [Layer.bound, Layer.declare, OrderedMap.values, map_map, Function.comp_def] using hput

theorem boundIn_cons_declare (layer : Layer) (outer : List Layer) (constant : Bool) :
    boundIn (layer.declare name v constant :: outer) <+~ v :: boundIn (layer :: outer) :=
  (bound_declare layer constant).append (Subperm.refl _)

theorem boundIn_cons_of_subperm (layer : Layer) (h : boundIn outer' <+~ v :: boundIn outer) :
    boundIn (layer :: outer') <+~ v :: boundIn (layer :: outer) :=
  ((Subperm.refl layer.bound).append h).trans perm_middle.subperm

theorem boundIn_append_of_subperm (layers : List Layer)
    (h : boundIn outer' <+~ v :: boundIn outer) : boundIn (layers ++ outer') <+~ v :: boundIn (layers ++ outer) := by
  induction layers with
  | nil => exact h
  | cons layer layers ih => exact boundIn_cons_of_subperm layer ih

theorem boundIn_storeIn (layers outer : List Layer) :
    boundIn (Scope.storeIn name v layers ++ outer) <+~ v :: boundIn (layers ++ outer) := by
  induction layers with
  | nil => exact (sublist_cons_self _ _).subperm
  | cons layer layers ih =>
    unfold Scope.storeIn
    split
    · exact boundIn_cons_declare layer (layers ++ outer) false
    · exact boundIn_cons_of_subperm layer ih

theorem boundIn_declare (s : Scope) (constant : Bool) :
    boundIn (s.declare name v constant).layers <+~ v :: boundIn s.layers := by
  obtain ⟨_ | ⟨layer, inner⟩, root⟩ := s
  · exact boundIn_cons_declare root [] constant
  · exact boundIn_cons_declare layer (inner ++ [root]) constant

theorem boundIn_assign {s' : Scope} (h : s.assign name v = .ok s') : boundIn s'.layers <+~ v :: boundIn s.layers := by
  have hroot : boundIn (s.inner ++ [s.root.declare name v false]) <+~ v :: boundIn (s.inner ++ [s.root]) :=
    boundIn_append_of_subperm s.inner (boundIn_cons_declare s.root [] false)
  unfold Scope.assign at h
  split at h
  · split at h
    · cases h
    · split at h
      · cases h
        exact boundIn_storeIn s.inner [s.root]
      · cases h
        exact hroot
  · cases h
    exact hroot

/-- With more or other variables in scope, and the same ones in the activations that wait. -/
theorem World.bindings_of_scope (w : World) {s : Store} (h : boundIn s.scope.layers <+~ v :: boundIn w.store.scope.layers) :
    ({ w with store := s } : World).bindings <+~ v :: w.bindings := by
  unfold World.bindings World.layers
  rw [boundIn_append, boundIn_append]
  exact h.append (Subperm.refl _)

theorem World.bindings_eq (w : World) : w.bindings =
    boundIn w.store.scope.inner ++ (w.store.scope.root.bound ++ boundIn (w.callers.flatMap Caller.locals)) := by
  rw [bindings, layers, Scope.layers, append_assoc, boundIn_append]
  rfl

theorem World.bindings_opening (w : World) (f : Function) : (w.opening f).bindings ~ w.bindings := by
  have hopening : (w.opening f).bindings =
      w.store.scope.root.bound ++ (boundIn w.store.scope.inner ++ boundIn (w.callers.flatMap Caller.locals)) := by
    rw [bindings_eq, ← boundIn_append]
    rfl
  rw [hopening, bindings_eq]
  exact perm_append_comm_assoc _ _ _

theorem World.bindings_backTo {w w' : World} (h : w'.callers = ⟨w.current, w.store.scope.inner⟩ :: w.callers) :
    (w'.backTo w).bindings <+~ w'.bindings := by
  have hback : (w'.backTo w).bindings =
      boundIn w.store.scope.inner ++ (w'.store.scope.root.bound ++ boundIn (w.callers.flatMap Caller.locals)) := by
    rw [bindings_eq]
    rfl
  rw [hback, bindings_eq, h, flatMap_cons, boundIn_append]
  exact (perm_append_comm_assoc _ _ _).subperm.trans (sublist_append_right _ _).subperm

theorem bound_of_find? {b : Binding} (h : s.find? name = some b) : b.value ∈ boundIn s.layers := by
  obtain ⟨layer, hlayer, hget⟩ := exists_of_findSome?_eq_some h
  exact mem_flatMap.mpr ⟨layer, hlayer, mem_map_of_mem (OrderedMap.mem_values_of_get? hget)⟩

end Bound

theorem Store.assign_eq_ok {s s' : Store} {x : Text} {v : Value} (h : s.assign x v = .ok s') :
    ∃ scope, s.scope.assign x (s.heap.copy v).1 = .ok scope ∧ s' = ⟨(s.heap.copy v).2, scope⟩ := by
  unfold Store.assign at h
  cases hassign : s.scope.assign x (s.heap.copy v).1 with
  | error e =>
    simp only [hassign] at h
    cases h
  | ok scope =>
    simp only [hassign] at h
    cases h
    exact ⟨scope, rfl, rfl⟩

/-! ### The ledger -/

/-- The first address that is not in use, the owner of each cell, and its rank. The owner 0 is no variable. -/
structure Owners where
  next : Nat
  owner : Nat → Nat
  rank : Nat → Int

namespace Owners

variable {g g' : Owners} {w w' : World} {h : Heap} {a b : Nat} {next owner : Nat} {top : Int}

/-- More cells, with the old ones as they were. -/
structure Later (g g' : Owners) : Prop where
  next : g.next ≤ g'.next
  owner : ∀ a < g.next, g'.owner a = g.owner a
  rank : ∀ a < g.next, g'.rank a = g.rank a

/-- The first cell may hold a reference to the second. -/
structure Holds (g : Owners) (a b : Nat) : Prop where
  holder : a < g.next
  cell : b < g.next
  rank : g.rank b < g.rank a
  owner : g.owner a ≠ 0 → g.owner b = g.owner a

/-- Two values that do not refer to cells of the same owner. -/
def Apart (g : Owners) (u v : Value) : Prop := ∀ a b : Nat, u = .ref a → v = .ref b → g.owner a ≠ g.owner b

/-- The world is as the ledger has it. -/
structure Kept (g : Owners) (w : World) : Prop where
  next : w.store.heap.next = g.next
  unused : ∀ a, g.next ≤ a → w.store.heap.cell? a = none
  held : ∀ a b, w.store.heap.Contains a b → g.Holds a b
  owned : ∀ a : Nat, .ref a ∈ w.bindings → a < g.next ∧ g.owner a ≠ 0
  apart : w.bindings.Pairwise g.Apart
  returned : ∀ a : Nat, w.current.returned = some (.ref a) → a < g.next

theorem Later.trans {g'' : Owners} (h₁ : Later g g') (h₂ : Later g' g'') : Later g g'' := by
  refine ⟨h₁.next.trans h₂.next, fun a ha => ?_, fun a ha => ?_⟩
  · rw [h₂.owner a (ha.trans_le h₁.next), h₁.owner a ha]
  · rw [h₂.rank a (ha.trans_le h₁.next), h₁.rank a ha]

theorem Holds.later (hab : g.Holds a b) (hlater : Later g g') : g'.Holds a b := by
  have hnext := hlater.next
  refine ⟨hab.holder.trans_le hnext, hab.cell.trans_le hnext, ?_, ?_⟩
  · rw [hlater.rank a hab.holder, hlater.rank b hab.cell]
    exact hab.rank
  · rw [hlater.owner a hab.holder, hlater.owner b hab.cell]
    exact hab.owner

theorem Apart.symm {u v : Value} (huv : g.Apart u v) : g.Apart v u := fun a b ha hb => (huv b a hb ha).symm

/-- Variables with values of different owners are a part of such variables. -/
theorem pairwise_of_subperm {vs vs' : List Value} (hsub : vs' <+~ vs) (h : vs.Pairwise g.Apart) : vs'.Pairwise g.Apart := by
  obtain ⟨vs₁, hperm, hlist⟩ := hsub
  exact (hperm.pairwise_iff fun huv => huv.symm).mp (h.sublist hlist)

/-- New cells up to an address, all with one owner, and ranked by their addresses up to `top`. -/
def grow (g : Owners) (next owner : Nat) (top : Int) : Owners where
  next := next
  owner a := if a < g.next then g.owner a else owner
  rank a := if a < g.next then g.rank a else top + a - next

theorem later_grow (hnext : g.next ≤ next) : Later g (g.grow next owner top) :=
  ⟨hnext, fun _ ha => if_pos ha, fun _ ha => if_pos ha⟩

theorem owner_grow (ha : g.next ≤ a) : (g.grow next owner top).owner a = owner :=
  if_neg (Nat.not_lt.mpr ha)

theorem rank_grow (ha : g.next ≤ a) : (g.grow next owner top).rank a = top + a - next :=
  if_neg (Nat.not_lt.mpr ha)

namespace Kept

variable {s : Store} {v : Value}

theorem later (hw : g.Kept w) (hlater : Later g g') (hnext : h.next = g'.next)
    (hunused : ∀ a, g'.next ≤ a → h.cell? a = none) (hheld : ∀ a b, h.Contains a b → g'.Holds a b) :
    g'.Kept { w with store.heap := h } := by
  refine ⟨hnext, hunused, hheld, fun a ha => ?_, ?_, fun a ha => (hw.returned a ha).trans_le hlater.next⟩
  · obtain ⟨hlt, howner⟩ := hw.owned a ha
    rw [hlater.owner a hlt]
    exact ⟨hlt.trans_le hlater.next, howner⟩
  · refine List.Pairwise.imp_of_mem (fun {u v} hu hv huv a b ha hb => ?_) hw.apart
    subst ha hb
    rw [hlater.owner a (hw.owned a hu).1, hlater.owner b (hw.owned b hv).1]
    exact huv a b rfl rfl

theorem extended (hw : g.Kept w) (hext : w.store.heap.Extends h) (owner : Nat) (top : Int) :
    (g.grow h.next owner top).Kept { w with store.heap := h } := by
  have hnext : g.next ≤ h.next := hw.next ▸ hext.next
  have hlater : Later g (g.grow h.next owner top) := later_grow hnext
  refine hw.later hlater rfl (fun a ha => ?_) fun a b => ?_
  · rw [hext.same a (.inr ha)]
    exact hw.unused a (hnext.trans ha)
  · rintro ⟨c, hcell, hb⟩
    by_cases hold : a < g.next
    · rw [hext.same a (.inl (hw.next ▸ hold))] at hcell
      exact (hw.held a b ⟨c, hcell, hb⟩).later hlater
    -- a new cell refers to older new ones only, which is what ranks them by address
    · have hlt : a < h.next := by
        by_contra hge
        rw [hext.same a (.inr (Nat.not_lt.mp hge)), hw.unused a (Nat.not_lt.mp hold)] at hcell
        cases hcell
      obtain ⟨hfresh, hba⟩ := hext.fresh a c b (hw.next ▸ Nat.not_lt.mp hold) hlt hcell hb
      rw [hw.next] at hfresh
      refine ⟨hlt, hba.trans hlt, ?_, fun _ => ?_⟩
      · rw [rank_grow hfresh, rank_grow (Nat.not_lt.mp hold)]
        omega
      · rw [owner_grow hfresh, owner_grow (Nat.not_lt.mp hold)]

theorem exists_rank_lt (rank : Nat → Int) (n : Nat) : ∃ top, ∀ a < n, rank a < top := by
  induction n with
  | zero => exact ⟨0, nofun⟩
  | succ n ih =>
    obtain ⟨top, htop⟩ := ih
    refine ⟨max top (rank n + 1), fun a ha => ?_⟩
    rcases Nat.lt_succ_iff_lt_or_eq.mp ha with hlt | rfl
    · exact (htop a hlt).trans_le (le_max_left _ _)
    · exact (Int.lt_succ _).trans_le (le_max_right _ _)

theorem exists_owner_lt (owner : Nat → Nat) (n : Nat) : ∃ top, ∀ a < n, owner a < top := by
  obtain ⟨top, htop⟩ := exists_rank_lt (fun a => owner a) n
  exact ⟨top.toNat, fun a ha => by have := htop a ha; omega⟩

theorem allocated {c : Cell} (hw : g.Kept w) (hc : ∀ b : Nat, .ref b ∈ c.values → b < g.next) :
    ∃ g', Later g g' ∧ g'.Kept { w with store.heap := (w.store.heap.alloc c).2 } ∧ w.store.heap.next < g'.next := by
  obtain ⟨top, htop⟩ := exists_rank_lt g.rank g.next
  have hlater : Later g (g.grow (g.next + 1) 0 (top + 1)) := later_grow (Nat.le_succ _)
  refine ⟨_, hlater, hw.later hlater (congrArg (· + 1) hw.next) (fun a ha => ?_) fun a b => ?_, ?_⟩
  · rw [Heap.cell?_alloc, hw.next, if_neg (Nat.ne_of_gt ha)]
    exact hw.unused a (Nat.le_of_lt ha)
  · rintro ⟨c', hcell, hb⟩
    rw [Heap.cell?_alloc, hw.next] at hcell
    split at hcell
    · rename_i ha
      cases hcell
      -- the new cell belongs to no variable, and stands above all others
      have hlt := hc b hb
      refine ⟨ha ▸ Nat.lt_succ_self _, hlt.trans (Nat.lt_succ_self _), ?_, fun howner => ?_⟩
      · rw [hlater.rank b hlt, ha, rank_grow (Nat.le_refl _)]
        have := htop b hlt
        push_cast
        omega
      · rw [ha, owner_grow (Nat.le_refl _)] at howner
        exact absurd rfl howner
    · exact (hw.held a b ⟨c', hcell, hb⟩).later hlater
  · rw [hw.next]
    exact Nat.lt_succ_self _

theorem rewritten (hw : g.Kept w) (hnext : h.next = w.store.heap.next) (ha : a < g.next)
    (hother : ∀ b, b ≠ a → h.cell? b = w.store.heap.cell? b)
    (hcell : ∀ c, h.cell? a = some c → ∀ b : Nat, .ref b ∈ c.values → g.Holds a b) :
    g.Kept { w with store.heap := h } := by
  refine ⟨hnext.trans hw.next, fun b hb => ?_, ?_, hw.owned, hw.apart, hw.returned⟩
  · show h.cell? b = none
    rw [hother b (by omega)]
    exact hw.unused b hb
  · rintro b d ⟨c, hc, hd⟩
    by_cases hb : b = a
    · subst hb
      exact hcell c hc d hd
    · rw [hother b hb] at hc
      exact hw.held b d ⟨c, hc, hd⟩

theorem rebound (hw : g.Kept w) (hext : w.store.heap.Extends s.heap)
    (hfresh : w.store.heap.Fresh s.heap v) (hbound : boundIn s.scope.layers <+~ v :: boundIn w.store.scope.layers) :
    ∃ g', Later g g' ∧ g'.Kept { w with store := s } := by
  -- the cells of the new value get an owner that no other cell has
  obtain ⟨top, htop⟩ := exists_owner_lt g.owner g.next
  have hlater : Later g (g.grow s.heap.next (top + 1) 0) := later_grow (hw.next ▸ hext.next)
  have hkept := hw.extended hext (top + 1) 0
  have hsub := w.bindings_of_scope hbound
  have hnew : ∀ a : Nat, v = .ref a → g.next ≤ a ∧ a < s.heap.next := hw.next ▸ hfresh
  refine ⟨_, hlater, hkept.next, hkept.unused, hkept.held, fun a ha => ?_, ?_, hkept.returned⟩
  · rcases mem_cons.mp (hsub.subset ha) with hv | hold
    · obtain ⟨hge, hlt⟩ := hnew a hv.symm
      rw [owner_grow hge]
      exact ⟨hlt, Nat.succ_ne_zero _⟩
    · exact hkept.owned a hold
  · refine pairwise_of_subperm hsub (pairwise_cons.mpr ⟨fun u hu a b ha hb => ?_, hkept.apart⟩)
    subst hb
    have hlt := (hw.owned b hu).1
    rw [owner_grow (hnew a ha).1, hlater.owner b hlt]
    have := htop b hlt
    omega

theorem declared (hw : g.Kept w) (x : Text) (v : Value) (constant : Bool) :
    ∃ g', Later g g' ∧ g'.Kept { w with store := w.store.declare x v constant } := by
  obtain ⟨hext, hfresh⟩ := w.store.heap.extends_copy v
  exact hw.rebound hext hfresh (boundIn_declare w.store.scope constant)

theorem assigned {x : Text} (hw : g.Kept w) (h : w.store.assign x v = .ok s) :
    ∃ g', Later g g' ∧ g'.Kept { w with store := s } := by
  obtain ⟨hext, hfresh⟩ := w.store.heap.extends_copy v
  obtain ⟨scope, hscope, rfl⟩ := Store.assign_eq_ok h
  exact hw.rebound hext hfresh (boundIn_assign hscope)

theorem opened (hw : g.Kept w) (f : Function) : g.Kept (w.opening f) := by
  have hperm := w.bindings_opening f
  exact ⟨hw.next, hw.unused, hw.held, fun a ha => hw.owned a (hperm.subset ha),
    pairwise_of_subperm hperm.subperm hw.apart, nofun⟩

theorem closed (hw : g.Kept w) (hlater : Later g g') (hw' : g'.Kept w')
    (hcallers : w'.callers = ⟨w.current, w.store.scope.inner⟩ :: w.callers) : g'.Kept (w'.backTo w) := by
  have hsub := World.bindings_backTo hcallers
  exact ⟨hw'.next, hw'.unused, hw'.held, fun a ha => hw'.owned a (hsub.subset ha), pairwise_of_subperm hsub hw'.apart,
    fun a ha => (hw.returned a ha).trans_le hlater.next⟩

end Kept

end Owners

/-- Each cell belongs to one variable at most. -/
def Custody.owners : Custody where
  Ledger := Owners
  Later := Owners.Later
  Kept := Owners.Kept
  Known g a := a < g.next
  Holds := Owners.Holds
  escape f := f = .breakdown .exhausted
  later_refl _ := ⟨Nat.le_refl _, fun _ _ => rfl, fun _ _ => rfl⟩
  later_trans := Owners.Later.trans
  known_later h ha := Nat.lt_of_lt_of_le ha h.next
  holds_later h hab := hab.later h
  known_of_holds hab := hab.cell
  held hw _ hcell hb := hw.held _ _ ⟨_, hcell, hb⟩
  bound hw hfind hvalue := by
    refine (hw.owned _ ?_).1
    rw [← hvalue, World.bindings, World.layers, boundIn_append]
    exact List.mem_append_left _ (bound_of_find? hfind)
  returned hw ha := hw.returned _ ha
  extended {g w h} holder hw hext hholder := by
    have hlater (owner : Nat) (top : Int) : g.Later (g.grow h.next owner top) := Owners.later_grow (hw.next ▸ hext.next)
    cases holder with
    | none => exact ⟨_, hlater 0 0, hw.extended hext 0 0, fun b _ hb => ⟨hb, nofun⟩⟩
    | some a =>
      -- the new cells come under the one that is to hold them, and belong to whom it belongs
      have ha := hholder a rfl
      refine ⟨_, hlater (g.owner a) (g.rank a), hw.extended hext _ _, fun b hge hb => ⟨hb, ?_⟩⟩
      rintro _ ⟨⟩
      rw [hw.next] at hge
      refine ⟨ha.trans_le (hlater 0 0).next, hb, ?_, fun _ => ?_⟩
      · rw [Owners.rank_grow hge, (hlater _ _).rank a ha]
        omega
      · rw [Owners.owner_grow hge, (hlater _ _).owner a ha]
  allocated hw hc := hw.allocated hc
  rewritten hw ha hnext hother hcell := hw.rewritten hnext ha hother hcell
  declared x v constant hw := hw.declared x v constant
  assigned hw h := hw.assigned h
  moved hw ha := ⟨hw.next, hw.unused, hw.held, hw.owned, hw.apart, ha⟩
  aside {g w w'} hw hstore hcurrent hcallers _ := by
    obtain ⟨_, _, _, _, _, _, _⟩ := w'
    cases hstore
    cases hcurrent
    cases hcallers
    exact ⟨hw.next, hw.unused, hw.held, hw.owned, hw.apart, hw.returned⟩
  opened f hw := hw.opened f
  closed hw hlater hw' hcallers := hw.closed hlater hw' hcallers
  escape_crossing := @Fault.crossing_exhausted
  escape_kind := @Fault.kind_of_exhausted

/-! ### What the ledger says of the heap and the variables -/

namespace Owners.Kept

variable {g : Owners} {w : World}

theorem initial (seed : Int) : Kept ⟨0, fun _ => 0, fun _ => 0⟩ (World.initial seed) :=
  ⟨rfl, fun _ _ => rfl, fun _ _ ⟨_, hcell, _⟩ => (nomatch hcell), nofun, .nil, nofun⟩

theorem ranked (hw : g.Kept w) : w.store.heap.Ranked g.rank := by
  intro a b hab
  rw [hw.next]
  exact ⟨(hw.held a b hab).cell, (hw.held a b hab).rank⟩

theorem owner_of_path (hw : g.Kept w) {a b : Nat} (howner : g.owner a ≠ 0)
    (hpath : Relation.ReflTransGen w.store.heap.Contains a b) : g.owner b = g.owner a := by
  induction hpath with
  | refl => rfl
  | tail _ hstep ih => exact ((hw.held _ _ hstep).owner (ih ▸ howner)).trans ih

theorem unshared (hw : g.Kept w) :
    w.bindings.Pairwise fun u v => ∀ a, w.store.heap.Reaches u a → ¬ w.store.heap.Reaches v a := by
  refine List.Pairwise.imp_of_mem (fun {u v} hu hv huv a => ?_) hw.apart
  rintro ⟨b, rfl, hb⟩ ⟨d, rfl, hd⟩
  refine huv b d rfl rfl ?_
  rw [← hw.owner_of_path (hw.owned b hu).2 hb, hw.owner_of_path (hw.owned d hv).2 hd]

end Owners.Kept

end Stepwise
