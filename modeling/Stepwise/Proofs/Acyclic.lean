import Mathlib.Data.Finset.Card
import Mathlib.Logic.Relation
import Stepwise.Proofs.Copies

/-!
# Heaps without cycles

A cell contains another one when it holds a reference to it. Where references only ever lead down in some ranking of the
cells, no cell contains itself, and no value is nested deeper than there are cells: reading it and copying it come to an
end by themselves, and the depth to which they go is no bound.
-/

namespace Stepwise

open Relation List

namespace Heap

variable {h : Heap} {a b : Nat} {n depth : Nat} {v : Value}

/-- The first cell holds a reference to the second. -/
def Contains (h : Heap) (a b : Nat) : Prop := ∃ c, h.cell? a = some c ∧ .ref b ∈ c.values

/-- The value refers to the cell, itself or through other cells. -/
def Reaches (h : Heap) (v : Value) (a : Nat) : Prop := ∃ b : Nat, v = .ref b ∧ ReflTransGen h.Contains b a

/-- The value is nested less than so deep. -/
def Within (h : Heap) : Nat → Value → Prop
  | 0, .ref _ => False
  | n + 1, .ref a => ∀ c, h.cell? a = some c → ∀ v ∈ c.values, h.Within n v
  | _, _ => True

/-- References lead down in the ranking, and to cells in use. -/
def Ranked (h : Heap) (rank : Nat → Int) : Prop := ∀ a b, h.Contains a b → b < h.next ∧ rank b < rank a

namespace Ranked

variable {rank : Nat → Int}

theorem lt_of_transGen (hrank : h.Ranked rank) (hpath : TransGen h.Contains a b) : rank b < rank a := by
  induction hpath with
  | single hstep => exact (hrank _ _ hstep).2
  | tail _ hstep ih => exact (hrank _ _ hstep).2.trans ih

theorem acyclic (hrank : h.Ranked rank) (a : Nat) : ¬ TransGen h.Contains a a :=
  fun hpath => lt_irrefl _ (hrank.lt_of_transGen hpath)

/-- The cells in use that are ranked below the given one. -/
def below (h : Heap) (rank : Nat → Int) (a : Nat) : Finset Nat := {b ∈ Finset.range h.next | rank b < rank a}

theorem card_below_lt (ha : a < h.next) : (below h rank a).card < h.next := by
  have hsub : below h rank a ⊂ Finset.range h.next := by
    refine Finset.filter_ssubset.mpr ⟨a, Finset.mem_range.mpr ha, ?_⟩
    exact lt_irrefl _
  simpa using Finset.card_lt_card hsub

theorem card_below_lt_of_contains (hrank : h.Ranked rank) (hstep : h.Contains a b) :
    (below h rank b).card < (below h rank a).card := by
  obtain ⟨hb, hlt⟩ := hrank a b hstep
  refine Finset.card_lt_card (Finset.ssubset_iff_subset_ne.mpr ⟨fun d hd => ?_, fun heq => ?_⟩)
  · simp only [below, Finset.mem_filter] at hd ⊢
    exact ⟨hd.1, hd.2.trans hlt⟩
  · have hmem : b ∈ below h rank a := by simp [below, hb, hlt]
    rw [← heq] at hmem
    simp [below] at hmem

/-- A value is nested at most as deep as cells are ranked below it. -/
theorem within_of_card (hrank : h.Ranked rank) (hcard : (below h rank a).card < n) : h.Within n (.ref a) := by
  induction n generalizing a with
  | zero => exact absurd hcard (Nat.not_lt_zero _)
  | succ n ih =>
    intro c hcell v hv
    cases v with
    | ref b =>
      have hlt := hrank.card_below_lt_of_contains ⟨c, hcell, hv⟩
      exact ih (by omega)
    | _ => cases n <;> exact trivial

theorem within (hrank : h.Ranked rank) (hv : ∀ a : Nat, v = .ref a → a < h.next) (hn : h.next ≤ n) : h.Within n v := by
  cases v with
  | ref a => exact hrank.within_of_card ((card_below_lt (hv a rfl)).trans_le hn)
  | _ => cases n <;> exact trivial

end Ranked

/-! ### Reading -/

/-- Reading a value deeper than it is nested makes no difference. -/
theorem readTo_of_within (hv : h.Within n v) (hdepth : n ≤ depth) : h.readTo depth v = h.readTo n v := by
  induction n generalizing depth v with
  | zero =>
    cases v with
    | ref a => exact hv.elim
    | _ => cases depth <;> rfl
  | succ n ih =>
    obtain ⟨depth, rfl⟩ : ∃ d, depth = d + 1 := ⟨depth - 1, by omega⟩
    have hle : n ≤ depth := Nat.le_of_succ_le_succ hdepth
    cases v with
    | ref a =>
      rcases hcell : h.cell? a with _ | ⟨items, growths⟩ | entries
      · simp only [readTo, hcell]
      · simp only [readTo, hcell]
        exact congrArg Datum.array (map_congr_left fun v hitem => ih (hv _ hcell v hitem) hle)
      · simp only [readTo, hcell]
        refine congrArg Datum.object (map_congr_left fun e he => ?_)
        exact congrArg (e.1, ·) (ih (hv _ hcell e.2 (mem_map_of_mem he)) hle)
    | _ => rfl

theorem readTo_congr {h' : Heap} {u : Value} (hsame : ∀ a, h.Reaches u a → h'.cell? a = h.cell? a) (depth : Nat) :
    h'.readTo depth u = h.readTo depth u := by
  induction depth generalizing u with
  | zero => cases u <;> rfl
  | succ depth ih =>
    cases u with
    | ref a =>
      have hcell := hsame a ⟨a, rfl, .refl⟩
      have hpart {c : Cell} (hc : h.cell? a = some c) {u' : Value} (hu' : u' ∈ c.values) :
          h'.readTo depth u' = h.readTo depth u' := by
        refine ih fun b hb => hsame b ?_
        obtain ⟨d, rfl, hpath⟩ := hb
        exact ⟨a, rfl, .head ⟨c, hc, hu'⟩ hpath⟩
      rcases hc : h.cell? a with _ | ⟨items, growths⟩ | entries
      · simp only [readTo, hcell, hc]
      · simp only [readTo, hcell, hc]
        exact congrArg Datum.array (map_congr_left fun u' hu' => hpart hc hu')
      · simp only [readTo, hcell, hc]
        refine congrArg Datum.object (map_congr_left fun e he => ?_)
        exact congrArg (e.1, ·) (hpart hc (mem_map_of_mem he))
    | _ => rfl

end Heap

/-! ### Copying -/

namespace Copying

open Heap

variable {h : Heap} {n depth : Nat} {v : Value} {s : Copying} {copyOne copyOne' : Value → StateM Copying Value}

theorem bind_congr_at {α β : Type} {x x' : StateM Copying α} {f f' : α → StateM Copying β} (hx : x' s = x s)
    (hf : f' (x s).1 (x s).2 = f (x s).1 (x s).2) : (x' >>= f') s = (x >>= f) s := by
  show f' (x' s).1 (x' s).2 = f (x s).1 (x s).2
  rw [hx, hf]

theorem mapM_congr (hone : ∀ v s, Sound h s → Sound h (copyOne v s).2) (vs : List Value)
    (hsame : ∀ v ∈ vs, ∀ s, Sound h s → copyOne' v s = copyOne v s) (hs : Sound h s) :
    vs.mapM copyOne' s = vs.mapM copyOne s := by
  induction vs generalizing s with
  | nil => rfl
  | cons v vs ih =>
    have hfirst := hsame v mem_cons_self s hs
    have hrest := ih (fun v hv => hsame v (mem_cons_of_mem _ hv)) (hone v s hs)
    rw [mapM_cons, mapM_cons]
    exact bind_congr_at hfirst (bind_congr_at hrest rfl)

theorem items_congr (hone : ∀ v s, Sound h s → Sound h (copyOne v s).2) (vs : Sequence Value)
    (hsame : ∀ v ∈ vs.toList, ∀ s, Sound h s → copyOne' v s = copyOne v s) (hs : Sound h s) :
    items copyOne' vs s = items copyOne vs s := by
  unfold items
  split
  · exact bind_congr_at (mapM_congr hone vs.toList hsame hs) rfl
  · rfl

theorem mapEntries_congr (hone : ∀ v s, Sound h s → Sound h (copyOne v s).2) (entries : List (Text × Value))
    (hsame : ∀ v ∈ entries.map Prod.snd, ∀ s, Sound h s → copyOne' v s = copyOne v s) (hs : Sound h s) :
    OrderedMap.mapEntries copyOne' entries s = OrderedMap.mapEntries copyOne entries s := by
  induction entries generalizing s with
  | nil => rfl
  | cons e entries ih =>
    have hfirst := hsame e.2 mem_cons_self s hs
    have hrest := ih (fun v hv => hsame v (mem_cons_of_mem _ hv)) (hone e.2 s hs)
    exact bind_congr_at hfirst (bind_congr_at hrest rfl)

theorem mapState_congr {entries : OrderedMap Value}
    (hmade : OrderedMap.mapEntries copyOne' entries.toList s = OrderedMap.mapEntries copyOne entries.toList s) :
    entries.mapState copyOne' s = entries.mapState copyOne s := by
  unfold OrderedMap.mapState
  split
  rename_i es' s' hmade'
  split
  rename_i es s'' hmade''
  rw [hmade', hmade''] at hmade
  cases hmade
  rfl

theorem properties_congr (hone : ∀ v s, Sound h s → Sound h (copyOne v s).2) (entries : OrderedMap Value)
    (hsame : ∀ v ∈ entries.values, ∀ s, Sound h s → copyOne' v s = copyOne v s) (hs : Sound h s) :
    properties copyOne' entries s = properties copyOne entries s := by
  unfold properties
  split
  · exact mapState_congr (mapEntries_congr hone entries.toList hsame hs)
  · rfl

theorem cell_congr (hone : ∀ v s, Sound h s → Sound h (copyOne v s).2) (c : Option Cell)
    (hsame : ∀ c' ∈ c, ∀ v ∈ c'.values, ∀ s, Sound h s → copyOne' v s = copyOne v s) (hs : Sound h s) :
    cell copyOne' c s = cell copyOne c s := by
  rcases c with _ | ⟨vs, growths⟩ | entries
  · rfl
  · exact bind_congr_at (items_congr hone vs (hsame _ rfl) hs) rfl
  · exact bind_congr_at (properties_congr hone entries (hsame _ rfl) hs) rfl

theorem value_of_within (hclosed : ∀ a b, h.Contains a b → b < h.next) (hv : h.Within n v)
    (hbound : ∀ a : Nat, v = .ref a → a < h.next) (hdepth : n ≤ depth) (hs : Sound h s) :
    value depth v s = value n v s := by
  induction n generalizing depth v s with
  | zero =>
    cases v with
    | ref a => exact hv.elim
    | _ => cases depth <;> rfl
  | succ n ih =>
    obtain ⟨depth, rfl⟩ : ∃ d, depth = d + 1 := ⟨depth - 1, by omega⟩
    cases v with
    | ref a =>
      -- the cells of the heap are as they were, whatever has been copied so far
      have hcell : s.heap.cell? a = h.cell? a := hs.heap.same a (.inl (hbound a rfl))
      have hsame : cell (value depth) (s.heap.cell? a) s = cell (value n) (s.heap.cell? a) s := by
        refine cell_congr (fun v s hs => ((run_value n v s).sound hs).1) _ (fun c hc v hvalue s hs => ?_) hs
        rw [hcell] at hc
        refine ih (hv c hc v hvalue) (fun b hb => ?_) (Nat.le_of_succ_le_succ hdepth) hs
        subst hb
        exact hclosed a b ⟨c, hc, hvalue⟩
      rw [value_ref, value_ref, hsame]
    | _ => rfl

end Copying

namespace Heap

open Copying

variable {h : Heap} {rank : Nat → Int} {v : Value} {depth : Nat}

/-- A ranked heap is read to the ground. -/
theorem Ranked.readTo_eq (hrank : h.Ranked rank) (hv : ∀ a : Nat, v = .ref a → a < h.next) (hdepth : h.next ≤ depth) :
    h.readTo depth v = h.read v :=
  readTo_of_within (hrank.within hv (Nat.le_refl _)) hdepth

theorem Ranked.copy_eq (hrank : h.Ranked rank) (hv : ∀ a : Nat, v = .ref a → a < h.next) (hdepth : h.next ≤ depth) :
    ((value depth v ⟨h, {}⟩).1, (value depth v ⟨h, {}⟩).2.heap) = h.copy v := by
  have hclosed (a b : Nat) (hstep : h.Contains a b) : b < h.next := (hrank a b hstep).1
  rw [value_of_within hclosed (hrank.within hv (Nat.le_refl _)) hv hdepth (sound_start h)]
  rfl

end Heap

end Stepwise
