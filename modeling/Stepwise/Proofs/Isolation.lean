import Stepwise.Proofs.Moments

/-!
# Calls are isolated

The body of a function has a layer of its own above the globals, and its parameters are bound to copies. So all cells
that it can get at are new ones and those of global variables; and since variables share no cells, the local variables of
the activations that wait for the call keep their values. The globals are changed by assignments only
(`Layer.Assigned`). All this holds also when the call ends in a fault: `Session.call_isolated`.
-/

namespace Stepwise

open Exec Machine Relation List

/-! ### Assignments to globals -/

/-- What one assignment makes of the layer of the globals. -/
inductive Layer.Assigned (root : Layer) : Layer → Prop
  /-- to a variable that is there already, and not a constant -/
  | stored {name : Text} {b : Binding} (value : Value) (found : root.get? name = some b) (writable : b.constant = false) :
      Assigned root (root.declare name value false)
  /-- to a name that is not declared, in some scope over these globals -/
  | undeclared {name : Text} {inner : List Layer} (value : Value) (absent : (⟨inner, root⟩ : Scope).find? name = none) :
      Assigned root (root.declare name value false)

namespace Scope

variable {s s' : Scope} {name : Text} {v : Value}

theorem storeIn_ne_nil {layers : List Layer} (h : layers ≠ []) : storeIn name v layers ≠ [] := by
  cases layers with
  | nil => exact absurd rfl h
  | cons layer outer =>
    unfold storeIn
    split <;> exact cons_ne_nil _ _

theorem get?_root_of_find? {b : Binding} (hfind : s.find? name = some b) (hlocal : s.inner.any (·.has name) = false) :
    s.root.get? name = some b := by
  have hinner : s.inner.findSome? (·.get? name) = none := by
    rw [findSome?_eq_none_iff]
    intro layer hlayer
    have hnot := any_eq_false.mp hlocal layer hlayer
    rwa [← OrderedMap.isSome_get?, Option.not_isSome_iff_eq_none] at hnot
  rw [find?, layers, findSome?_append, hinner, Option.none_or, findSome?_singleton] at hfind
  exact hfind

theorem root_of_assign (hinner : s.inner ≠ []) (h : s.assign name v = .ok s') :
    s'.inner ≠ [] ∧ (s'.root = s.root ∨ Layer.Assigned s.root s'.root) := by
  unfold assign at h
  split at h
  · rename_i b hfind
    split at h
    · cases h
    · rename_i hwritable
      split at h
      · cases h
        exact ⟨storeIn_ne_nil hinner, .inl rfl⟩
      · rename_i hlocal
        cases h
        have hfound := get?_root_of_find? hfind (Bool.not_eq_true _ ▸ hlocal)
        exact ⟨hinner, .inr (.stored v hfound (Bool.not_eq_true _ ▸ hwritable))⟩
  · rename_i habsent
    cases h
    exact ⟨hinner, .inr (.undeclared v habsent)⟩

theorem root_declare (hinner : s.inner ≠ []) (name : Text) (v : Value) (constant : Bool) :
    (s.declare name v constant).inner ≠ [] ∧ (s.declare name v constant).root = s.root := by
  obtain ⟨_ | ⟨layer, inner⟩, root⟩ := s
  · exact absurd rfl hinner
  · exact ⟨cons_ne_nil _ _, rfl⟩

end Scope

/-! ### What the body of a function can get at -/

/-- The cell is new since the world, or part of a global variable in it. -/
def World.Exposed (v : World) (a : Nat) : Prop :=
  v.store.heap.next ≤ a ∨ ∃ u ∈ v.store.scope.root.bound, v.store.heap.Reaches u a

/-- A world inside a call that was made in the world `v`. -/
structure World.Encloses (v w : World) : Prop where
  next : v.store.heap.next ≤ w.store.heap.next
  same : ∀ a, ¬ v.Exposed a → w.store.heap.cell? a = v.store.heap.cell? a
  closed : ∀ a b, v.Exposed a → w.store.heap.Contains a b → v.Exposed b
  inner : w.store.scope.inner ≠ []
  bound : ∀ a : Nat, .ref a ∈ boundIn w.store.scope.layers → v.Exposed a
  returned : ∀ a : Nat, w.current.returned = some (.ref a) → v.Exposed a
  root : ReflTransGen Layer.Assigned v.store.scope.root w.store.scope.root

namespace World.Encloses

variable {v w w' : World} {h : Heap}

theorem lt_of_not_exposed {a : Nat} (ha : ¬ v.Exposed a) : a < v.store.heap.next :=
  Nat.not_le.mp fun hle => ha (.inl hle)

theorem extended (hw : v.Encloses w) (hext : w.store.heap.Extends h) : v.Encloses { w with store.heap := h } := by
  refine ⟨hw.next.trans hext.next, fun a ha => ?_, fun a b ha => ?_, hw.inner, hw.bound, hw.returned, hw.root⟩
  · exact (hext.same a (.inl ((lt_of_not_exposed ha).trans_le hw.next))).trans (hw.same a ha)
  · rintro ⟨c, hcell, hb⟩
    by_cases hold : a < w.store.heap.next ∨ h.next ≤ a
    · rw [hext.same a hold] at hcell
      exact hw.closed a b ha ⟨c, hcell, hb⟩
    · have hfresh := hext.fresh a c b (by omega) (by omega) hcell hb
      exact .inl (hw.next.trans hfresh.1)

theorem allocated {c : Cell} (hw : v.Encloses w) (hc : ∀ b : Nat, .ref b ∈ c.values → v.Exposed b) :
    v.Encloses { w with store.heap := (w.store.heap.alloc c).2 } := by
  refine ⟨Nat.le_succ_of_le hw.next, fun a ha => ?_, fun a b ha => ?_, hw.inner, hw.bound, hw.returned, hw.root⟩
  · have hne : a ≠ w.store.heap.next := ((lt_of_not_exposed ha).trans_le hw.next).ne
    rw [Heap.cell?_alloc, if_neg hne]
    exact hw.same a ha
  · rintro ⟨c', hcell, hb⟩
    rw [Heap.cell?_alloc] at hcell
    split at hcell
    · cases hcell
      exact hc b hb
    · exact hw.closed a b ha ⟨c', hcell, hb⟩

theorem rewritten {a : Nat} (hw : v.Encloses w) (ha : v.Exposed a) (hnext : h.next = w.store.heap.next)
    (hother : ∀ b, b ≠ a → h.cell? b = w.store.heap.cell? b)
    (hcell : ∀ c, h.cell? a = some c → ∀ b : Nat, .ref b ∈ c.values → v.Exposed b) :
    v.Encloses { w with store.heap := h } := by
  refine ⟨hnext ▸ hw.next, fun b hb => ?_, fun b d hb => ?_, hw.inner, hw.bound, hw.returned, hw.root⟩
  · exact (hother b fun hab => hb (hab ▸ ha)).trans (hw.same b hb)
  · rintro ⟨c, hc, hd⟩
    by_cases hab : b = a
    · subst hab
      exact hcell c hc d hd
    · rw [hother b hab] at hc
      exact hw.closed b d hb ⟨c, hc, hd⟩

theorem rebound {s : Store} {u : Value} (hw : v.Encloses w) (hext : w.store.heap.Extends s.heap)
    (hfresh : w.store.heap.Fresh s.heap u)
    (hbound : List.Subperm (boundIn s.scope.layers) (u :: boundIn w.store.scope.layers)) (hinner : s.scope.inner ≠ [])
    (hroot : s.scope.root = w.store.scope.root ∨ Layer.Assigned w.store.scope.root s.scope.root) :
    v.Encloses { w with store := s } := by
  have hheap := hw.extended hext
  refine ⟨hheap.next, hheap.same, hheap.closed, hinner, fun a ha => ?_, hw.returned, ?_⟩
  · rcases mem_cons.mp (hbound.subset ha) with hu | hold
    · exact .inl (hw.next.trans (hfresh a hu.symm).1)
    · exact hw.bound a hold
  · rcases hroot with hsame | hassigned
    · exact hsame ▸ hw.root
    · exact hw.root.tail hassigned

theorem declared (hw : v.Encloses w) (x : Text) (u : Value) (constant : Bool) :
    v.Encloses { w with store := w.store.declare x u constant } := by
  obtain ⟨hext, hfresh⟩ := w.store.heap.extends_copy u
  obtain ⟨hinner, hroot⟩ := Scope.root_declare hw.inner x (w.store.heap.copy u).1 constant
  exact hw.rebound hext hfresh (boundIn_declare w.store.scope constant) hinner (.inl hroot)

theorem assigned {x : Text} {u : Value} {s : Store} (hw : v.Encloses w) (hassign : w.store.assign x u = .ok s) :
    v.Encloses { w with store := s } := by
  obtain ⟨hext, hfresh⟩ := w.store.heap.extends_copy u
  obtain ⟨scope, hscope, rfl⟩ := Store.assign_eq_ok hassign
  obtain ⟨hinner, hroot⟩ := Scope.root_of_assign hw.inner hscope
  exact hw.rebound hext hfresh (boundIn_assign hscope) hinner hroot

theorem opened (hw : v.Encloses w) (f : Function) : v.Encloses (w.opening f) := by
  refine ⟨hw.next, hw.same, hw.closed, cons_ne_nil _ _, fun a ha => hw.bound a ?_, nofun, hw.root⟩
  rw [Scope.layers, boundIn_append]
  exact mem_append_right _ ha

theorem closed_call (hw : v.Encloses w) (hw' : v.Encloses w') : v.Encloses (w'.backTo w) := by
  refine ⟨hw'.next, hw'.same, hw'.closed, hw.inner, fun a ha => ?_, hw.returned, hw'.root⟩
  have hsplit : .ref a ∈ boundIn w.store.scope.inner ++ boundIn [w'.store.scope.root] := by
    rw [← boundIn_append]
    exact ha
  rcases mem_append.mp hsplit with hlocal | hglobal
  · refine hw.bound a ?_
    rw [Scope.layers, boundIn_append]
    exact mem_append_left _ hlocal
  · refine hw'.bound a ?_
    rw [Scope.layers, boundIn_append]
    exact mem_append_right _ hglobal

theorem opening {g : Owners} (hv : g.Kept v) (f : Function) : v.Encloses (v.opening f) := by
  refine ⟨Nat.le_refl _, fun _ _ => rfl, fun a b ha hab => ?_, cons_ne_nil _ _, fun a ha => ?_, nofun, .refl⟩
  · rcases ha with hnew | ⟨u, hu, d, hd, hpath⟩
    · obtain ⟨c, hcell, -⟩ := hab
      have hnone := hv.unused a (hv.next ▸ hnew)
      exact absurd (hcell.symm.trans hnone) nofun
    · exact .inr ⟨u, hu, d, hd, hpath.tail hab⟩
  · have hlayers : .ref a ∈ boundIn [.empty, v.store.scope.root] := ha
    have hglobal : .ref a ∈ v.store.scope.root.bound := by
      simpa [boundIn, Layer.bound, OrderedMap.values] using hlayers
    exact .inr ⟨_, hglobal, a, rfl, .refl⟩

end World.Encloses

/-- Inside a call nothing but new cells and those of global variables can be got at. -/
def Custody.enclosed (v : World) : Custody where
  Ledger := Unit
  Later _ _ := True
  Kept _ w := v.Encloses w
  Known _ a := v.Exposed a
  Holds _ _ b := v.Exposed b
  escape f := f = .breakdown .exhausted
  later_refl _ := trivial
  later_trans _ _ := trivial
  known_later _ ha := ha
  holds_later _ hb := hb
  known_of_holds hb := hb
  held hw ha hcell hb := hw.closed _ _ ha ⟨_, hcell, hb⟩
  bound hw hfind hvalue := hw.bound _ (hvalue ▸ bound_of_find? hfind)
  returned hw ha := hw.returned _ ha
  extended _ hw hext _ := ⟨(), trivial, hw.extended hext, fun _ hge _ =>
    ⟨.inl (hw.next.trans hge), fun _ _ => .inl (hw.next.trans hge)⟩⟩
  allocated hw hc := ⟨(), trivial, hw.allocated hc, .inl hw.next⟩
  rewritten hw ha hnext hother hcell := hw.rewritten ha hnext hother hcell
  declared x u constant hw := ⟨(), trivial, hw.declared x u constant⟩
  assigned hw h := ⟨(), trivial, hw.assigned h⟩
  moved hw ha := ⟨hw.next, hw.same, hw.closed, hw.inner, hw.bound, ha, hw.root⟩
  aside {_ w w'} hw hstore hcurrent hcallers _ := by
    obtain ⟨_, _, _, _, _, _, _⟩ := w'
    cases hstore
    cases hcurrent
    cases hcallers
    exact ⟨hw.next, hw.same, hw.closed, hw.inner, hw.bound, hw.returned, hw.root⟩
  opened f hw := hw.opened f
  closed hw _ hw' _ := hw.closed_call hw'
  escape_crossing := @Fault.crossing_exhausted
  escape_kind := @Fault.kind_of_exhausted

/-! ### What is left of a call -/

namespace Owners.Kept

variable {g : Owners} {v w : World}

theorem lt_of_path (hv : g.Kept v) {a b : Nat} (ha : a < g.next) (hpath : ReflTransGen v.store.heap.Contains a b) :
    b < g.next := by
  cases hpath with
  | refl => exact ha
  | tail _ hstep => exact (hv.held _ _ hstep).cell

theorem mem_bindings_of_local {u : Value} (hu : u ∈ boundIn (v.store.scope.inner ++ v.callers.flatMap Caller.locals)) :
    u ∈ v.bindings := by
  rw [boundIn_append, mem_append] at hu
  rw [v.bindings_eq]
  rcases hu with hu | hu
  · exact mem_append_left _ hu
  · exact mem_append_right _ (mem_append_right _ hu)

theorem not_exposed (hv : g.Kept v) {u : Value}
    (hu : u ∈ boundIn (v.store.scope.inner ++ v.callers.flatMap Caller.locals)) {a : Nat} (ha : v.store.heap.Reaches u a) :
    ¬ v.Exposed a := by
  rintro (hnew | ⟨u', hu', ha'⟩)
  -- what a variable reaches is in use, so it is not new; and it is not shared with a global one
  · obtain ⟨b, rfl, hpath⟩ := ha
    have hlt := hv.lt_of_path (hv.owned b (mem_bindings_of_local hu)).1 hpath
    rw [hv.next] at hnew
    exact absurd hlt (Nat.not_lt.mpr hnew)
  · have hunshared := hv.unshared
    rw [v.bindings_eq, pairwise_append, pairwise_append] at hunshared
    obtain ⟨-, ⟨-, -, houter⟩, hinner⟩ := hunshared
    rw [boundIn_append, mem_append] at hu
    rcases hu with hu | hu
    · exact hinner u hu u' (mem_append_left _ hu') a ha ha'
    · exact houter u' hu' u hu a ha' ha

theorem read_eq (hv : g.Kept v) (hw : v.Encloses w) {u : Value}
    (hu : u ∈ boundIn (v.store.scope.inner ++ v.callers.flatMap Caller.locals)) :
    w.store.heap.read u = v.store.heap.read u := by
  have hmem := mem_bindings_of_local hu
  -- the later heap is larger, so it is read deeper; by the ranking this makes no difference
  have hsame : w.store.heap.readTo w.store.heap.next u = v.store.heap.readTo w.store.heap.next u :=
    Heap.readTo_congr (fun a ha => hw.same a (hv.not_exposed hu ha)) _
  exact hsame.trans (hv.ranked.readTo_eq (hv.lt_of_stores (.bound hmem)) hw.next)

end Owners.Kept

namespace Machine

variable {m : Machine} {v : World}

/-- A call is not made at all, or it comes back from a world inside it. -/
theorem call_encloses (hv : v.Owned) (limit : Option Limit) (depth : Nat) (f : Function) (args : List Value) :
    ((m.call limit depth f args).outcome v).2 = v ∨
      ∃ w, v.Encloses w ∧ ((m.call limit depth f args).outcome v).2 = w.backTo v := by
  obtain ⟨g, hg⟩ := hv
  cases depth with
  | zero => exact .inl rfl
  | succ depth =>
    rw [call_succ]
    simp only [outcome_bind, outcome_get, outcome_liftBreakdown]
    rcases m.limits.callDepth.isPassed (v.callers.length + 1) with b | passed
    · exact .inl rfl
    cases passed with
    | true => exact .inl rfl
    | false =>
      right
      -- the body begins with nothing but globals in reach, and all that it does keeps it so
      have hopening : (Custody.enclosed v).Kept () (v.opening f) := .opening hg f
      have hhosts : (Custody.enclosed v).Hosts (m.bodyHost limit depth) (m.bodyHost limit depth) :=
        Custody.hosts_bodyHost rfl limit depth
      have hdiscreet : (m.bodyHost limit depth).Discreet := bodyHost_discreet
      obtain ⟨_, -, hentered⟩ := Custody.exists_kept_declareEach args f.params.zipIdx hopening
      obtain ⟨_, -, hdone, -⟩ := Custody.Sound.finish (m := m) (f := f) rfl hhosts _ hentered
      have hbeside := finish_beside (m := m) (f := f) hdiscreet ((enter f args).outcome v).2
      refine ⟨_, hdone, ?_⟩
      simp only [Bool.false_eq_true, if_false]
      rw [outcome_called]
      exact Custody.backTo_of_callers hbeside.callers

end Machine

namespace Session

/-- Whatever call a step comes to, by name or as a callback, and whether it returns or ends in a fault: the activations
are those from before with all that they were in the middle of, and their local variables have the same values, in depth.
Besides the output, the warnings, the random source and the count of steps, only the globals can differ, and only by
assignments. -/
theorem call_isolated {s : Session} {depth : Nat} {a : Activity} {w v w' : World} {f : Function} {args : List Value}
    {r : Except Fault Value} (hs : s.Attained) (hunderway : s.Underway depth a w)
    (hcalls : CallsAt (a.run s.machine) (s.hostAt depth) w f args v)
    (hcall : ((s.hostAt depth).call f args).outcome v = (r, w')) :
    w'.current = v.current ∧ w'.callers = v.callers ∧ w'.store.scope.inner = v.store.scope.inner ∧
    (∀ u ∈ boundIn (v.store.scope.inner ++ v.callers.flatMap Caller.locals),
      w'.store.heap.read u = v.store.heap.read u) ∧
    ReflTransGen Layer.Assigned v.store.scope.root w'.store.scope.root ∧
    v.output.toList <+: w'.output.toList ∧ v.warnings.toList <+: w'.warnings.toList ∧ v.callSteps ≤ w'.callSteps := by
  have howned := owned_of_callsAt (hunderway.owned hs) hcalls
  have haround := call_around (m := s.machine) (some s.settings.maxOutputLines) depth f args v
  have hend := call_encloses (m := s.machine) howned (some s.settings.maxOutputLines) depth f args
  have hsnd : ((s.machine.call (some s.settings.maxOutputLines) depth f args).outcome v).2 = w' := congrArg Prod.snd hcall
  rw [hsnd] at haround hend
  obtain ⟨g, hg⟩ := howned
  refine ⟨haround.current, haround.callers, ?_, ?_, ?_, haround.output, haround.warnings, haround.steps⟩
  · rcases hend with rfl | ⟨w₁, -, rfl⟩ <;> rfl
  · rcases hend with rfl | ⟨w₁, hw₁, rfl⟩
    · exact fun _ _ => rfl
    · exact fun u hu => hg.read_eq hw₁ hu
  · rcases hend with rfl | ⟨w₁, hw₁, rfl⟩
    · exact .refl
    · exact hw₁.root

/-- A function that lengthens its parameter, stores it under an undeclared name and then fails leaves the array of its
caller alone, from which the parameter was made. -/
theorem call_isolated_failing : ∃ (s : Session) (depth : Nat) (a : Activity) (w v w' : World) (f : Function) (u : Value)
    (e : Fault), s.Reachable ∧ s.Underway depth a w ∧ CallsAt (a.run s.machine) (s.hostAt depth) w f [u] v ∧
    ((s.hostAt depth).call f [u]).outcome v = (.error e, w') ∧
    v.store.scope.root.has "total".codes = false ∧ w'.store.scope.root.has "total".codes = true ∧
    (boundIn v.store.scope.inner).any Value.isRef = true ∧
    ∀ u ∈ boundIn v.store.scope.inner, w'.store.heap.read u = v.store.heap.read u := by
  obtain ⟨s, hs, hP⟩ := exists_reachable Settings.standard
    ("function f(p) \x7b\n  g(p)\n  return p\n\x7d\n".codes ++
      "function g(q) \x7b\n  q.push(2)\n  total = q\n  missing(q)\n\x7d\nlet a = [1]\nf(a)".codes)
    [.step, .step, .step, .step, .step]
    (fun s => s.error.isNone && decide (s.world.current.nextIndex < s.program.size) &&
      (s.machine.limits.callDepth.isPassed (s.ready.callers.length + 1)).toOption == some false &&
      (s.machine.pendingCall? s.ready s.world.current.nextIndex).any fun call =>
        let w := ((enter call.1 [call.2]).outcome s.ready).2
        let charged := (s.machine.bodyCourse call.1).charge.outcome { w with current := w.current.resolved }
        !(s.machine.bodyCourse call.1).ended w.current.resolved && charged.1.isOk &&
        (s.machine.pendingCall? charged.2 w.current.resolved.ip).any fun call =>
          let o := ((s.hostAt (s.machine.nesting - 1)).call call.1 [call.2]).outcome charged.2
          !o.1.isOk && !charged.2.store.scope.root.has "total".codes && o.2.store.scope.root.has "total".codes &&
            (boundIn charged.2.store.scope.inner).any Value.isRef) (by decide +kernel)
  simp only [Bool.and_eq_true, Bool.not_eq_true', decide_eq_true_eq, Option.isNone_iff_eq_none, beq_iff_eq,
    Option.any_eq_true] at hP
  obtain ⟨⟨⟨hrunning, hwithin⟩, hadmitted⟩, ⟨f, u⟩, hcall, ⟨hgoing, hcharged⟩, ⟨f', u'⟩, hcall', hP⟩ := hP
  obtain ⟨⟨⟨hfailed, hbefore⟩, hafter⟩, hlocal⟩ := hP
  have hentered := Underway.entered (.instruction hrunning hwithin) (callsAt_instruction rfl hcall)
    (eq_ok_of_toOption hadmitted)
  obtain ⟨⟨⟩, hcharge⟩ := eq_ok_of_isOk hcharged
  have hcalls' : CallsAt ((Activity.body f).run s.machine) (s.hostAt (s.machine.nesting - 1)) _ f' [u'] _ :=
    callsAt_body rfl hgoing (eq_of_fst_eq hcharge) hcall'
  rcases houtcome : ((s.hostAt (s.machine.nesting - 1)).call f' [u']).outcome _ with ⟨e | r, w'⟩
  · rw [houtcome] at hafter
    obtain ⟨-, -, -, hread, -⟩ := call_isolated hs.attained hentered hcalls' houtcome
    refine ⟨s, _, _, _, _, w', f', u', e, hs, hentered, hcalls', houtcome, hbefore, hafter, hlocal, fun u hu => hread u ?_⟩
    rw [boundIn_append]
    exact mem_append_left _ hu
  · rw [houtcome] at hfailed
    cases hfailed

end Session

end Stepwise
