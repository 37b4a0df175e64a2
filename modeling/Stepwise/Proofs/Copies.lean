import Mathlib.Logic.Function.Basic
import Stepwise.Value.Property

/-!
# What copies add to a heap

A deep copy leaves every cell of the heap as it was and adds new ones, which refer to nothing but older ones among
themselves. So a copy shares no cell with anything that was there before, and no new cell is part of itself. The same
is true of data that is put on the heap.
-/

namespace Stepwise

/-- The values that a cell holds. -/
def Cell.values : Cell → List Value
  | .array items _ => items.toList
  | .object entries => entries.values

namespace OrderedMap

variable {α : Type} {m : OrderedMap α} {v : α} {key : Text}

theorem mem_values_put {value : α} (h : v ∈ (m.put key value).values) : v = value ∨ v ∈ m.values := by
  obtain ⟨e, he, rfl⟩ := List.mem_map.mp h
  rw [toList_put] at he
  rcases Assoc.mem_put he with rfl | he
  · exact .inl rfl
  · exact .inr (List.mem_map_of_mem he)

theorem mem_values_ofList {entries : List (Text × α)} (h : v ∈ (ofList entries).values) : v ∈ entries.map Prod.snd := by
  suffices hfold : ∀ m : OrderedMap α, v ∈ (entries.foldl (fun m e => m.put e.1 e.2) m).values →
      v ∈ m.values ∨ v ∈ entries.map Prod.snd from (hfold .empty h).resolve_left nofun
  clear h
  intro m hm
  induction entries generalizing m with
  | nil => exact .inl hm
  | cons e entries ih =>
    rw [List.map_cons, List.mem_cons]
    rcases ih (m.put e.1 e.2) hm with hput | hrest
    · exact (mem_values_put hput).symm.imp_right .inl
    · exact .inr (.inr hrest)

theorem mem_values_of_get? (h : m.get? key = some v) : v ∈ m.values := by
  rw [get?_eq, List.lookup_eq_some_iff] at h
  obtain ⟨l₁, l₂, hlist, -⟩ := h
  rw [values, hlist]
  simp

theorem isSome_get? (m : OrderedMap α) (key : Text) : (m.get? key).isSome = m.has key := by
  rw [get?_eq, has_eq, Assoc.has]
  induction m.toList with
  | nil => rfl
  | cons e entries ih => grind

theorem get?_put (m : OrderedMap α) (key : Text) (value : α) :
    (m.put key value).get? = Function.update m.get? key (some value) := by
  funext k
  rw [Function.update_apply, get?_eq, get?_eq, toList_put]
  induction m.toList with
  | nil => grind [Assoc.put]
  | cons e entries ih => grind [Assoc.put]

theorem keys_put (m : OrderedMap α) (key : Text) (value : α) :
    (m.put key value).keys = if key ∈ m.keys then m.keys else m.keys ++ [key] := by
  rw [keys, keys, toList_put]
  induction m.toList with
  | nil => grind [Assoc.put]
  | cons e entries ih => grind [Assoc.put]

end OrderedMap

namespace Heap

variable {h h₁ h₂ : Heap} {a b : Nat} {c : Cell} {v : Value}

theorem cell?_set (h : Heap) (a : Nat) (c : Cell) (b : Nat) :
    (h.set a c).cell? b = if b = a then some c else h.cell? b := by
  simp only [cell?, set, Std.TreeMap.getElem?_insert, Nat.compare_eq_eq, @eq_comm _ b]

theorem cell?_alloc (h : Heap) (c : Cell) (b : Nat) :
    (h.alloc c).2.cell? b = if b = h.next then some c else h.cell? b := by
  simp only [cell?, alloc, Std.TreeMap.getElem?_insert, Nat.compare_eq_eq, @eq_comm _ b]

theorem cell?_modifyItems (h : Heap) (a : Nat) (f : Sequence Value → Sequence Value) (grown : Bool) (b : Nat) :
    (h.modifyItems a f grown).cell? b =
      if b = a then (h.cell? a).map fun
        | .array items growths => .array (f items) (if grown then growths + 1 else growths)
        | c => c
      else h.cell? b := by
  refine Std.TreeMap.getElem?_modify.trans ?_
  by_cases hb : b = a
  · subst hb
    exact (if_pos (Nat.compare_eq_eq.mpr rfl)).trans (if_pos rfl).symm
  · exact (if_neg fun hab => hb (Nat.compare_eq_eq.mp hab).symm).trans (if_neg hb).symm

theorem array?_eq_some {items : Sequence Value} (hv : h.array? v = some (a, items)) :
    v = .ref a ∧ ∃ growths, h.cell? a = some (.array items growths) := by
  unfold array? at hv
  split at hv
  · split at hv
    · rename_i hcell
      cases hv
      exact ⟨rfl, _, hcell⟩
    · cases hv
  · cases hv

theorem object?_eq_some {entries : OrderedMap Value} (hv : h.object? v = some (a, entries)) :
    v = .ref a ∧ h.cell? a = some (.object entries) := by
  unfold object? at hv
  split at hv
  · split at hv
    · rename_i hcell
      cases hv
      exact ⟨rfl, hcell⟩
    · cases hv
  · cases hv

/-! ### Heaps that extend one another -/

/-- The second heap has all cells of the first as they were, and new ones that refer to nothing but older new ones. -/
structure Extends (h h' : Heap) : Prop where
  next : h.next ≤ h'.next
  same : ∀ a, a < h.next ∨ h'.next ≤ a → h'.cell? a = h.cell? a
  fresh : ∀ (a : Nat) (c : Cell) (b : Nat), h.next ≤ a → a < h'.next → h'.cell? a = some c → .ref b ∈ c.values →
    h.next ≤ b ∧ b < a

/-- A value that refers to nothing but cells that the second heap has beyond the first. -/
def Fresh (h h' : Heap) (v : Value) : Prop := ∀ b : Nat, v = .ref b → h.next ≤ b ∧ b < h'.next

theorem Extends.refl (h : Heap) : Extends h h :=
  ⟨Nat.le_refl _, fun _ _ => rfl, fun _ _ _ hle hlt => absurd hle (Nat.not_le.mpr hlt)⟩

theorem Extends.trans (h₁₂ : Extends h h₁) (h₂₃ : Extends h₁ h₂) : Extends h h₂ := by
  have hnext₁ := h₁₂.next
  have hnext₂ := h₂₃.next
  refine ⟨Nat.le_trans hnext₁ hnext₂, fun a ha => ?_, fun a c b hle hlt hcell hb => ?_⟩
  · rw [h₂₃.same a (by omega), h₁₂.same a (by omega)]
  · by_cases hold : a < h₁.next
    · rw [h₂₃.same a (.inl hold)] at hcell
      exact h₁₂.fresh a c b hle hold hcell hb
    · have := h₂₃.fresh a c b (by omega) hlt hcell hb
      omega

theorem Fresh.mono (hv : Fresh h h₁ v) (hnext : h₁.next ≤ h₂.next) : Fresh h h₂ v := by
  intro b hb
  have := hv b hb
  omega

theorem Fresh.later (hv : Fresh h₁ h₂ v) (hnext : h.next ≤ h₁.next) : Fresh h h₂ v := by
  intro b hb
  have := hv b hb
  omega

theorem Extends.alloc (hext : Extends h h₁) (hvalues : ∀ v ∈ c.values, Fresh h h₁ v) :
    Extends h (h₁.alloc c).2 ∧ Fresh h (h₁.alloc c).2 (h₁.alloc c).1 := by
  have hnext := hext.next
  refine ⟨⟨Nat.le_succ_of_le hnext, fun a ha => ?_, fun a c' b hle hlt hcell hb => ?_⟩, ?_⟩
  · rw [cell?_alloc, if_neg, hext.same a]
    · simp only [Heap.alloc] at ha
      omega
    · simp only [Heap.alloc] at ha
      omega
  · rw [cell?_alloc] at hcell
    split at hcell
    · cases hcell
      have := hvalues _ hb b rfl
      omega
    · refine hext.fresh a c' b hle ?_ hcell hb
      simp only [Heap.alloc] at hlt
      omega
  · intro b hb
    cases hb
    exact ⟨hnext, Nat.lt_succ_self _⟩

end Heap

/-! ### Copies -/

namespace Copying

variable {h : Heap} {depth a : Nat} {s s' s'' : Copying} {vs vs' ws ws' : List Value}

/-- What stands in a copy for a cell: a cell of the same form, with other values in the places of its own. -/
inductive Refills : Option Cell → List Value → List Value → Cell → Prop
  | array {items items' : Sequence Value} {growths : Nat} :
    Refills (some (.array items growths)) items.toList items'.toList (.array items' 0)
  | object {entries entries' : OrderedMap Value} (keys : entries'.keys = entries.keys) :
    Refills (some (.object entries)) entries.values entries'.values (.object entries')
  | none : Refills none [] [] (.object .empty)

theorem Refills.values {c : Option Cell} {c' : Cell} (hc : Refills c vs vs' c') : c'.values = vs' := by
  cases hc <;> rfl

/-- How a row of values is copied. A cell is copied when it is first met, after all that it holds; its copy then stands
for every reference to it. -/
inductive Run : Nat → Copying → List Value → List Value → Copying → Prop
  | nil {depth : Nat} {s : Copying} : Run depth s [] [] s
  | plain {depth : Nat} {s s' : Copying} {v : Value} {vs vs' : List Value} (hv : v.isRef = false)
    (rest : Run depth s vs vs' s') : Run depth s (v :: vs) (v :: vs') s'
  | cut {s s' : Copying} {a : Nat} {vs vs' : List Value} (rest : Run 0 s vs vs' s') :
    Run 0 s (.ref a :: vs) (.undefined :: vs') s'
  | known {depth : Nat} {s s' : Copying} {a b : Nat} {vs vs' : List Value} (hb : s.copied[a]? = some b)
    (rest : Run (depth + 1) s vs vs' s') : Run (depth + 1) s (.ref a :: vs) (.ref b :: vs') s'
  | new {depth : Nat} {s s₁ s' : Copying} {a : Nat} {c : Cell} {vs vs' ws ws' : List Value}
    (parts : Run depth s ws ws' s₁) (hc : Refills (s.heap.cell? a) ws ws' c)
    (rest : Run (depth + 1) ⟨(s₁.heap.alloc c).2, s₁.copied.insert a s₁.heap.next⟩ vs vs' s') :
    Run (depth + 1) s (.ref a :: vs) (.ref s₁.heap.next :: vs') s'

theorem Run.append (h₁ : Run depth s vs vs' s') (h₂ : Run depth s' ws ws' s'') :
    Run depth s (vs ++ ws) (vs' ++ ws') s'' := by
  induction h₁ with
  | nil => exact h₂
  | plain hv _ ih => exact .plain hv (ih h₂)
  | cut _ ih => exact .cut (ih h₂)
  | known hb _ ih => exact .known hb (ih h₂)
  | new parts hc _ _ ih => exact .new parts hc (ih h₂)

theorem Run.length_eq (hrun : Run depth s vs vs' s') : vs'.length = vs.length := by
  induction hrun <;> simp_all

theorem Run.of_plain (hvs : ∀ v ∈ vs, v.isRef = false) : Run depth s vs vs s := by
  induction vs with
  | nil => exact .nil
  | cons v vs ih =>
    obtain ⟨hv, hrest⟩ := List.forall_mem_cons.mp hvs
    exact .plain hv (ih hrest)

section Parts

variable {copyOne : Value → StateM Copying Value}
  (hone : ∀ v s, Run depth s [v] [(copyOne v s).1] (copyOne v s).2)

include hone

theorem run_mapM (vs : List Value) (s : Copying) : Run depth s vs (vs.mapM copyOne s).1 (vs.mapM copyOne s).2 := by
  induction vs generalizing s with
  | nil => exact .nil
  | cons v vs ih =>
    rw [List.mapM_cons]
    exact (hone v s).append (ih (copyOne v s).2)

theorem run_items (vs : Sequence Value) (s : Copying) :
    Run depth s vs.toList (items copyOne vs s).1.toList (items copyOne vs s).2 := by
  unfold items
  split
  case isTrue =>
    have hrun := run_mapM hone vs.toList s
    rw [← Sequence.toList_ofList (vs.toList.mapM copyOne s).1] at hrun
    exact hrun
  case isFalse hplain =>
    simp only [Sequence.any_eq, List.any_eq_true, not_exists, not_and, Bool.not_eq_true] at hplain
    exact .of_plain hplain

end Parts

theorem mapEntries_eq_mapM (f : Value → StateM Copying Value) (entries : List (Text × Value)) (s : Copying) :
    ((OrderedMap.mapEntries f entries s).1.map Prod.snd, (OrderedMap.mapEntries f entries s).2) =
      (entries.map Prod.snd).mapM f s := by
  induction entries generalizing s with
  | nil => rfl
  | cons e entries ih =>
    have hrest := ih (f e.2 s).2
    rw [List.map_cons, List.mapM_cons]
    show _ = (((entries.map Prod.snd).mapM f (f e.2 s).2).1.cons (f e.2 s).1, ((entries.map Prod.snd).mapM f (f e.2 s).2).2)
    rw [← hrest]
    rfl

/-- The properties of an object are copied as the row of their values, under the same keys. -/
theorem mapState_eq_mapM (m : OrderedMap Value) (f : Value → StateM Copying Value) (s : Copying) :
    (m.mapState f s).1.keys = m.keys ∧ ((m.mapState f s).1.values, (m.mapState f s).2) = m.values.mapM f s := by
  have hkeys := OrderedMap.keys_mapEntries f m.toList s
  have hvalues := mapEntries_eq_mapM f m.toList s
  unfold OrderedMap.mapState
  split
  case h_1 entries s' hmade =>
    rw [hmade] at hkeys hvalues
    have hlist : (Sequence.ofList entries).toList = entries := Sequence.toList_ofList entries
    refine ⟨?_, ?_⟩
    · show (Sequence.ofList entries).toList.map Prod.fst = _
      rw [hlist]
      exact hkeys
    · show ((Sequence.ofList entries).toList.map Prod.snd, s') = _
      rw [hlist]
      exact hvalues

/-- The cell that takes the place of another one in a copy. -/
def cell (copyOne : Value → StateM Copying Value) : Option Cell → StateM Copying Cell
  | some (.array vs _) => do pure (.array (← items copyOne vs) 0)
  | some (.object entries) => do pure (.object (← properties copyOne entries))
  | none => pure (.object .empty)

theorem run_cell {copyOne : Value → StateM Copying Value}
    (hone : ∀ v s, Run depth s [v] [(copyOne v s).1] (copyOne v s).2) (c : Option Cell) (s : Copying) :
    ∃ vs vs', Run depth s vs vs' (cell copyOne c s).2 ∧ Refills c vs vs' (cell copyOne c s).1 := by
  rcases c with _ | ⟨items, growths⟩ | entries
  · exact ⟨[], [], .nil, .none⟩
  · exact ⟨_, _, run_items hone items s, .array⟩
  · have hproperties : (properties copyOne entries s).1.keys = entries.keys ∧
        Run depth s entries.values (properties copyOne entries s).1.values (properties copyOne entries s).2 := by
      unfold properties
      split
      case isTrue =>
        have hrun := run_mapM hone entries.values s
        obtain ⟨hkeys, hmapM⟩ := mapState_eq_mapM entries copyOne s
        rw [← hmapM] at hrun
        exact ⟨hkeys, hrun⟩
      case isFalse hplain =>
        simp only [Sequence.any_eq, List.any_eq_true, not_exists, not_and, Bool.not_eq_true] at hplain
        refine ⟨rfl, .of_plain fun v hv => ?_⟩
        obtain ⟨e, he, rfl⟩ := List.mem_map.mp hv
        exact hplain e he
    exact ⟨_, _, hproperties.2, .object hproperties.1⟩

theorem value_ref (depth : Nat) (a : Nat) (s : Copying) :
    value (depth + 1) (.ref a) s = match s.copied[a]? with
      | some b => (.ref b, s)
      | none =>
        let r := cell (value depth) (s.heap.cell? a) s
        (.ref r.2.heap.next, ⟨(r.2.heap.alloc r.1).2, r.2.copied.insert a r.2.heap.next⟩) := by
  cases hcopied : s.copied[a]? with
  | some b =>
    simp only [value, bind, StateT.bind, get, getThe, MonadStateOf.get, StateT.get, pure, hcopied]
    rfl
  | none =>
    simp only [value, bind, StateT.bind, get, getThe, MonadStateOf.get, StateT.get, pure, hcopied]
    rcases s.heap.cell? a with _ | ⟨vs, n⟩ | entries <;> rfl

theorem run_value (depth : Nat) (v : Value) (s : Copying) : Run depth s [v] [(value depth v s).1] (value depth v s).2 := by
  induction depth generalizing v s with
  | zero =>
    cases v with
    | ref a => exact .cut .nil
    | _ => exact .plain rfl .nil
  | succ depth ih =>
    cases v with
    | ref a =>
      rw [value_ref]
      cases hcopied : s.copied[a]? with
      | some b => exact .known hcopied .nil
      | none =>
        obtain ⟨vs, vs', hrun, hrefills⟩ := run_cell ih (s.heap.cell? a) s
        exact .new hrun hrefills .nil
    | _ => exact .plain rfl .nil

theorem forall_copied_insert {P : Nat → Nat → Prop} {copied : Std.TreeMap Addr Addr} {b : Nat}
    (hcopied : ∀ x y, copied[x]? = some y → P x y) (hnew : P a b) :
    ∀ x y, (copied.insert a b)[x]? = some y → P x y := by
  intro x y hy
  rw [Std.TreeMap.getElem?_insert] at hy
  split at hy
  case isTrue hsame =>
    cases hy
    obtain rfl : a = x := Nat.compare_eq_eq.mp hsame
    exact hnew
  case isFalse => exact hcopied x y hy

/-- What a copy under way has in order. -/
structure Sound (h : Heap) (s : Copying) : Prop where
  heap : h.Extends s.heap
  copied : ∀ a b : Nat, s.copied[a]? = some b → h.next ≤ b ∧ b < s.heap.next

/-- All values of a list are new. -/
def AllFresh (h h' : Heap) (vs : List Value) : Prop := ∀ v ∈ vs, h.Fresh h' v

/-- A copy under way stays in order, and its results are new. -/
theorem Run.sound (hrun : Run depth s vs vs' s') (hs : Sound h s) :
    Sound h s' ∧ s.heap.next ≤ s'.heap.next ∧ AllFresh h s'.heap vs' := by
  induction hrun with
  | nil => exact ⟨hs, Nat.le_refl _, nofun⟩
  | plain hv _ ih =>
    obtain ⟨hs', hnext, hrest⟩ := ih hs
    refine ⟨hs', hnext, List.forall_mem_cons.mpr ⟨?_, hrest⟩⟩
    rintro b rfl
    cases hv
  | cut _ ih =>
    obtain ⟨hs', hnext, hrest⟩ := ih hs
    exact ⟨hs', hnext, List.forall_mem_cons.mpr ⟨nofun, hrest⟩⟩
  | @known depth s s' a b vs vs' hb _ ih =>
    obtain ⟨hs', hnext, hrest⟩ := ih hs
    refine ⟨hs', hnext, List.forall_mem_cons.mpr ⟨?_, hrest⟩⟩
    rintro _ ⟨⟩
    have hbound := hs.copied a b hb
    exact ⟨hbound.1, Nat.lt_of_lt_of_le hbound.2 hnext⟩
  | new _ hc _ ihparts ih =>
    -- the copy of a cell is allocated after those of all its parts, so it refers to older cells only
    obtain ⟨hs₁, hnext₁, hparts⟩ := ihparts hs
    rw [← hc.values] at hparts
    obtain ⟨hext, hfresh⟩ := hs₁.heap.alloc hparts
    obtain ⟨hs', hnext, hrest⟩ := ih ⟨hext, forall_copied_insert
      (fun x y hy => (hs₁.copied x y hy).imp_right Nat.lt_succ_of_lt) (hfresh _ rfl)⟩
    refine ⟨hs', Nat.le_trans hnext₁ (Nat.le_trans (Nat.le_succ _) hnext), List.forall_mem_cons.mpr ⟨?_, hrest⟩⟩
    exact hfresh.mono hnext

theorem sound_start (h : Heap) : Sound h ⟨h, {}⟩ := ⟨.refl h, fun a b hb => by simp at hb⟩

end Copying

namespace Heap

open Copying

theorem extends_copy (h : Heap) (v : Value) : h.Extends (h.copy v).2 ∧ h.Fresh (h.copy v).2 (h.copy v).1 := by
  obtain ⟨hsound, -, hfresh⟩ := (run_value h.next v ⟨h, {}⟩).sound (sound_start h)
  exact ⟨hsound.heap, hfresh _ List.mem_cons_self⟩

theorem extends_copyTogether (h : Heap) (vs : Sequence Value) :
    h.Extends (h.copyTogether vs).2 ∧ AllFresh h (h.copyTogether vs).2 (h.copyTogether vs).1.toList := by
  obtain ⟨hsound, -, hfresh⟩ := (run_items (run_value h.next) vs ⟨h, {}⟩).sound (sound_start h)
  exact ⟨hsound.heap, hfresh⟩

theorem extends_copyEach (h : Heap) (vs : List Value) :
    h.Extends (h.copyEach vs).2 ∧ AllFresh h (h.copyEach vs).2 (h.copyEach vs).1 := by
  induction vs generalizing h with
  | nil => exact ⟨.refl h, nofun⟩
  | cons v vs ih =>
    obtain ⟨hone, hv⟩ := h.extends_copy v
    obtain ⟨hrest, hvs⟩ := ih (h.copy v).2
    refine ⟨hone.trans hrest, fun w hw => ?_⟩
    rcases List.mem_cons.mp hw with rfl | hw
    · exact hv.mono hrest.next
    · exact (hvs w hw).later hone.next

mutual

theorem extends_load (h : Heap) : (d : Datum) → h.Extends (h.load d).2 ∧ h.Fresh (h.load d).2 (h.load d).1
  | .undefined | .null | .bool _ | .num _ | .text _ | .function _ => ⟨.refl h, nofun⟩
  | .array items => by
    obtain ⟨hext, hfresh⟩ := extends_loadItems h items
    refine hext.alloc fun v hv => hfresh v ?_
    simpa [Cell.values] using hv
  | .object entries => by
    obtain ⟨hext, hfresh⟩ := extends_loadEntries h entries
    exact hext.alloc fun v hv => hfresh v (OrderedMap.mem_values_ofList hv)

theorem extends_loadItems (h : Heap) : (ds : List Datum) →
    h.Extends (h.loadItems ds).2 ∧ AllFresh h (h.loadItems ds).2 (h.loadItems ds).1
  | [] => ⟨.refl h, nofun⟩
  | d :: ds => by
    obtain ⟨hone, hv⟩ := extends_load h d
    obtain ⟨hrest, hvs⟩ := extends_loadItems (h.load d).2 ds
    refine ⟨hone.trans hrest, fun w hw => ?_⟩
    rcases List.mem_cons.mp hw with rfl | hw
    · exact hv.mono hrest.next
    · exact (hvs w hw).later hone.next

theorem extends_loadEntries (h : Heap) : (es : List (Text × Datum)) →
    h.Extends (h.loadEntries es).2 ∧ AllFresh h (h.loadEntries es).2 ((h.loadEntries es).1.map Prod.snd)
  | [] => ⟨.refl h, nofun⟩
  | (_, d) :: es => by
    obtain ⟨hone, hv⟩ := extends_load h d
    obtain ⟨hrest, hvs⟩ := extends_loadEntries (h.load d).2 es
    refine ⟨hone.trans hrest, fun w hw => ?_⟩
    rcases List.mem_cons.mp hw with rfl | hw
    · exact hv.mono hrest.next
    · exact (hvs w hw).later hone.next

end

end Heap

end Stepwise
