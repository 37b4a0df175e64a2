import Mathlib.Data.List.Forall2
import Stepwise.Proofs.Copies

/-!
# What a value shows

`Heap.Shows h n v d` says that the value `v` is the datum `d` on the heap `h`, nested less than `n` deep. Such a value is
read as the datum, and goes on showing it while cells are added. A deep copy shows the datum that the original shows
(`Heap.shows_copy`).
-/

namespace Stepwise

open List

theorem eq_of_map_fst_of_map_snd {α β : Type} {l l' : List (α × β)} (hfst : l.map Prod.fst = l'.map Prod.fst)
    (hsnd : l.map Prod.snd = l'.map Prod.snd) : l = l' := by
  rw [← unzip_fst, ← unzip_fst] at hfst
  rw [← unzip_snd, ← unzip_snd] at hsnd
  calc l
    _ = l.unzip.1.zip l.unzip.2 := (zip_unzip l).symm
    _ = l'.unzip.1.zip l'.unzip.2 := by rw [hfst, hsnd]
    _ = l' := zip_unzip l'

namespace Heap

variable {h h' h'' : Heap} {n m a depth : Nat} {v : Value} {d : Datum} {ds : List Datum}

/-- The cells in use are as they were. -/
structure Keeps (h h' : Heap) : Prop where
  next : h.next ≤ h'.next
  same : ∀ a < h.next, h'.cell? a = h.cell? a

theorem Keeps.refl (h : Heap) : h.Keeps h := ⟨Nat.le_refl _, fun _ _ => rfl⟩

theorem Keeps.trans (h₁ : h.Keeps h') (h₂ : h'.Keeps h'') : h.Keeps h'' where
  next := Nat.le_trans h₁.next h₂.next
  same a ha := (h₂.same a (Nat.lt_of_lt_of_le ha h₁.next)).trans (h₁.same a ha)

theorem keeps_alloc (h : Heap) (c : Cell) : h.Keeps (h.alloc c).2 where
  next := Nat.le_succ _
  same a ha := by rw [cell?_alloc, if_neg (Nat.ne_of_lt ha)]

/-- The value is the datum, and is nested less than so deep. -/
inductive Shows (h : Heap) : Nat → Value → Datum → Prop
  | plain {n : Nat} {v : Value} (plain : v.isRef = false) : Shows h n v (h.readTo 0 v)
  | array {n a growths : Nat} {items : Sequence Value} {parts : List (Value × Datum)} (used : a < h.next)
      (cell : h.cell? a = some (.array items growths)) (values : items.toList = parts.map Prod.fst)
      (shows : ∀ p ∈ parts, Shows h n p.1 p.2) : Shows h (n + 1) (.ref a) (.array (parts.map Prod.snd))
  | object {n a : Nat} {entries : OrderedMap Value} {fields : List (Text × Datum)} {parts : List (Value × Datum)}
      (used : a < h.next) (cell : h.cell? a = some (.object entries)) (keys : entries.keys = fields.map Prod.fst)
      (values : entries.values = parts.map Prod.fst) (data : fields.map Prod.snd = parts.map Prod.snd)
      (shows : ∀ p ∈ parts, Shows h n p.1 p.2) : Shows h (n + 1) (.ref a) (.object fields)

theorem readTo_of_not_isRef (hv : v.isRef = false) (depth : Nat) (h h' : Heap) : h.readTo depth v = h'.readTo 0 v := by
  cases v with
  | ref a => cases hv
  | _ => cases depth <;> rfl

namespace Shows

theorem of_le (hv : h.Shows n v d) (hle : n ≤ m) : h.Shows m v d := by
  induction hv generalizing m with
  | plain plain => exact .plain plain
  | array used cell values shows ih =>
    obtain ⟨m, rfl⟩ : ∃ k, m = k + 1 := ⟨m - 1, by omega⟩
    exact .array used cell values fun p hp => ih p hp (Nat.le_of_succ_le_succ hle)
  | object used cell keys values data shows ih =>
    obtain ⟨m, rfl⟩ : ∃ k, m = k + 1 := ⟨m - 1, by omega⟩
    exact .object used cell keys values data fun p hp => ih p hp (Nat.le_of_succ_le_succ hle)

theorem on (hv : h.Shows n v d) (hkeeps : h.Keeps h') : h'.Shows n v d := by
  induction hv with
  | plain plain =>
    rw [readTo_of_not_isRef plain 0 h h']
    exact .plain plain
  | array used cell values shows ih =>
    exact .array (Nat.lt_of_lt_of_le used hkeeps.next) ((hkeeps.same _ used).trans cell) values ih
  | object used cell keys values data shows ih =>
    exact .object (Nat.lt_of_lt_of_le used hkeeps.next) ((hkeeps.same _ used).trans cell) keys values data ih

theorem keeps (hv : h.Shows h.next v d) (hkeeps : h.Keeps h') : h'.Shows h'.next v d :=
  (hv.on hkeeps).of_le hkeeps.next

theorem of_not_isRef (hv : h.Shows n v d) (hplain : v.isRef = false) (h' : Heap) (m : Nat) : h'.Shows m v d := by
  cases hv with
  | plain plain =>
    rw [readTo_of_not_isRef plain 0 h h']
    exact .plain plain
  | array => cases hplain
  | object => cases hplain

theorem used (hv : h.Shows n (.ref a) d) : a < h.next := by
  cases hv with
  | plain plain => cases plain
  | array used | object used => exact used

theorem readTo (hv : h.Shows n v d) (hdepth : n ≤ depth) : h.readTo depth v = d := by
  induction hv generalizing depth with
  | plain plain => exact readTo_of_not_isRef plain depth h h
  | array used cell values shows ih =>
    obtain ⟨depth, rfl⟩ : ∃ k, depth = k + 1 := ⟨depth - 1, by omega⟩
    simp only [Heap.readTo, cell, values, map_map]
    refine congrArg Datum.array (map_congr_left fun p hp => ih p hp ?_)
    omega
  | @object n a entries fields parts used cell keys values data shows ih =>
    obtain ⟨depth, rfl⟩ : ∃ k, depth = k + 1 := ⟨depth - 1, by omega⟩
    have hread : entries.values.map (h.readTo depth) = fields.map Prod.snd := by
      rw [values, data, map_map]
      refine map_congr_left fun p hp => ih p hp ?_
      omega
    simp only [Heap.readTo, cell]
    refine congrArg Datum.object (eq_of_map_fst_of_map_snd ?_ ?_)
    · rw [map_map, ← keys]
      rfl
    · rw [map_map, ← hread, OrderedMap.values, map_map]
      rfl

theorem read (hv : h.Shows h.next v d) : h.read v = d := hv.readTo (Nat.le_refl _)

theorem unique {e : Datum} (hd : h.Shows n v d) (he : h.Shows m v e) : e = d :=
  (he.readTo (Nat.le_max_right n m)).symm.trans (hd.readTo (Nat.le_max_left n m))

end Shows

/-- The values show the data. -/
def AllShow (h : Heap) (vs : List Value) (ds : List Datum) : Prop := List.Forall₂ (h.Shows h.next) vs ds

theorem AllShow.keeps {vs : List Value} (hvs : h.AllShow vs ds) (hkeeps : h.Keeps h') :
    h'.AllShow vs ds := hvs.imp fun _ _ hshows => hshows.keeps hkeeps

theorem shows_alloc_array {items : Sequence Value} (hitems : h.AllShow items.toList ds)
    (growths : Nat) : (h.alloc (.array items growths)).2.Shows (h.next + 1) (.ref h.next) (.array ds) := by
  obtain ⟨hlength, hshows⟩ := forall₂_iff_zip.mp hitems
  have hfst : items.toList = (items.toList.zip ds).map Prod.fst := (map_fst_zip (Nat.le_of_eq hlength)).symm
  have hsnd : (items.toList.zip ds).map Prod.snd = ds := map_snd_zip (Nat.le_of_eq hlength.symm)
  have hcell : (h.alloc (.array items growths)).2.cell? h.next = some (.array items growths) := by
    rw [cell?_alloc, if_pos rfl]
  rw [← hsnd]
  exact .array (Nat.lt_succ_self _) hcell hfst fun p hp => (hshows hp).on (h.keeps_alloc _)

theorem shows_alloc_object {entries : OrderedMap Value} {fields : List (Text × Datum)}
    (hkeys : entries.keys = fields.map Prod.fst) (hvalues : h.AllShow entries.values (fields.map Prod.snd)) :
    (h.alloc (.object entries)).2.Shows (h.next + 1) (.ref h.next) (.object fields) := by
  obtain ⟨hlength, hshows⟩ := forall₂_iff_zip.mp hvalues
  have hfst : entries.values = (entries.values.zip (fields.map Prod.snd)).map Prod.fst :=
    (map_fst_zip (Nat.le_of_eq hlength)).symm
  have hsnd : fields.map Prod.snd = (entries.values.zip (fields.map Prod.snd)).map Prod.snd :=
    (map_snd_zip (Nat.le_of_eq hlength.symm)).symm
  have hcell : (h.alloc (.object entries)).2.cell? h.next = some (.object entries) := by
    rw [cell?_alloc, if_pos rfl]
  exact .object (Nat.lt_succ_self _) hcell hkeys hfst hsnd fun p hp => (hshows hp).on (h.keeps_alloc _)

end Heap

/-! ### Copies -/

namespace Copying

open Heap

variable {h : Heap} {n depth : Nat} {s s' : Copying} {vs vs' : List Value} {ds : List Datum}

/-- The copy under way leaves the heap alone, and what has been copied shows what the original shows. -/
structure Faithful (h : Heap) (s : Copying) : Prop where
  keeps : h.Keeps s.heap
  copied : ∀ a b : Nat, s.copied[a]? = some b → ∀ d, h.Shows h.next (.ref a) d → s.heap.Shows s.heap.next (.ref b) d

theorem forall₂_of_forall_mem {R : Value → Datum → Prop} {parts : List (Value × Datum)} (hparts : ∀ p ∈ parts, R p.1 p.2) :
    List.Forall₂ R (parts.map Prod.fst) (parts.map Prod.snd) := by
  rw [forall₂_map_left_iff, forall₂_map_right_iff, forall₂_same]
  exact hparts

theorem Refills.shows {a : Nat} {c : Option Cell} {c' : Cell} {d : Datum} (hcell : h.cell? a = c)
    (hc : Refills c vs vs' c') (hd : h.Shows (n + 1) (.ref a) d) : ∃ ds, List.Forall₂ (h.Shows n) vs ds ∧
      ∀ h' : Heap, h'.AllShow vs' ds → (h'.alloc c').2.Shows (h'.next + 1) (.ref h'.next) d := by
  cases hd with
  | plain plain => cases plain
  | array _ cell values shows =>
    obtain rfl := hcell.symm.trans cell
    cases hc
    rw [values]
    exact ⟨_, forall₂_of_forall_mem shows, fun h' hvs' => shows_alloc_array hvs' 0⟩
  | object _ cell keys values data shows =>
    obtain rfl := hcell.symm.trans cell
    cases hc with
    | object hkeys =>
      rw [values]
      refine ⟨_, forall₂_of_forall_mem shows, fun h' hvs' => shows_alloc_object (hkeys.trans keys) ?_⟩
      rw [data]
      exact hvs'

theorem Run.shows (hrun : Run depth s vs vs' s') (hs : Faithful h s) (hvs : List.Forall₂ (h.Shows n) vs ds)
    (hn : n ≤ h.next) (hdepth : n ≤ depth) : Faithful h s' ∧ s.heap.Keeps s'.heap ∧ s'.heap.AllShow vs' ds := by
  induction hrun generalizing n ds with
  | nil =>
    cases hvs
    exact ⟨hs, .refl _, .nil⟩
  | @plain depth s s' v vs vs' hplain _ ih =>
    cases hvs with
    | cons hv hrest =>
      obtain ⟨hs', hkeeps, hshow⟩ := ih hs hrest hn hdepth
      exact ⟨hs', hkeeps, .cons (hv.of_not_isRef hplain _ _) hshow⟩
  | cut _ _ =>
    cases hvs with
    | cons hv hrest =>
      obtain rfl := Nat.le_zero.mp hdepth
      cases hv with
      | plain plain => cases plain
  | known hb _ ih =>
    cases hvs with
    | cons hv hrest =>
      obtain ⟨hs', hkeeps, hshow⟩ := ih hs hrest hn hdepth
      exact ⟨hs', hkeeps, .cons ((hs.copied _ _ hb _ (hv.of_le hn)).keeps hkeeps) hshow⟩
  | @new depth s s₁ s' a c vs vs' ws ws' _ hc _ ihparts ih =>
    cases hvs with
    | @cons _ d _ _ hv hrest =>
      obtain ⟨n, rfl⟩ : ∃ k, n = k + 1 := by
        cases hv with
        | plain plain => cases plain
        | array | object => exact ⟨_, rfl⟩
      obtain ⟨ds', hparts, hnew⟩ := hc.shows (hs.keeps.same a hv.used).symm hv
      obtain ⟨hs₁, hkeeps₁, hshow₁⟩ := ihparts hs hparts (Nat.le_of_succ_le hn) (Nat.le_of_succ_le_succ hdepth)
      have hnew := hnew s₁.heap hshow₁
      have halloc := s₁.heap.keeps_alloc c
      have hs₂ : Faithful h ⟨(s₁.heap.alloc c).2, s₁.copied.insert a s₁.heap.next⟩ := by
        refine ⟨hs₁.keeps.trans halloc, forall_copied_insert (fun x y hy d' hd' => ?_) fun d' hd' => ?_⟩
        · exact (hs₁.copied x y hy d' hd').keeps halloc
        · rw [hv.unique hd']
          exact hnew
      obtain ⟨hs', hkeeps, hshow⟩ := ih hs₂ hrest hn hdepth
      exact ⟨hs', (hkeeps₁.trans halloc).trans hkeeps, .cons (hnew.keeps hkeeps) hshow⟩

end Copying

namespace Heap

open Copying

theorem shows_copy {h : Heap} {v : Value} {d : Datum} (hv : h.Shows h.next v d) :
    h.Keeps (h.copy v).2 ∧ (h.copy v).2.Shows (h.copy v).2.next (h.copy v).1 d := by
  have hstart : Faithful h ⟨h, {}⟩ := ⟨.refl h, fun a b hb => by simp at hb⟩
  obtain ⟨-, hkeeps, hshows⟩ := (run_value h.next v ⟨h, {}⟩).shows hstart (.cons hv .nil) (Nat.le_refl _) (Nat.le_refl _)
  cases hshows with
  | cons hshown _ => exact ⟨hkeeps, hshown⟩

end Heap

end Stepwise
