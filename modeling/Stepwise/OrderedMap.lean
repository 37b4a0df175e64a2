import Std.Data.TreeMap
import Stepwise.Assoc
import Stepwise.Sequence.Basic

/-!
# Ordered maps

A map from texts to values that remembers the order in which its keys were first put. The entries stand in that order,
and an index tells where the entry of each key is, so that a key is found without looking at the other entries. A map
does what the list of its entries does under `Assoc`.
-/

namespace Stepwise

open List

/-- Named values in the order in which their names were first put. -/
structure OrderedMap (α : Type) where
  index : Std.TreeMap Text Nat (List.compareLex compare)
  entries : Sequence (Text × α)
  indexed (key : Text) : index[key]? = (entries.toList.map Prod.fst).findIdx? (· == key)

namespace OrderedMap

variable {α β σ : Type}

def toList (m : OrderedMap α) : List (Text × α) := m.entries.toList

def keys (m : OrderedMap α) : List Text := m.toList.map Prod.fst

def values (m : OrderedMap α) : List α := m.toList.map Prod.snd

def empty : OrderedMap α := ⟨{}, .empty, fun key => by simp⟩

instance : Inhabited (OrderedMap α) := ⟨empty⟩

def get? (m : OrderedMap α) (key : Text) : Option α := (m.index[key]?.bind m.entries.get?).map Prod.snd

def has (m : OrderedMap α) (key : Text) : Bool := m.index[key]?.isSome

/-- An entry that takes the place of one with the same key leaves the keys as they are. -/
theorem keys_set (entries : List (Text × α)) (i : Nat) (key : Text) (value : α)
    (h : (entries.map Prod.fst).findIdx? (· == key) = some i) :
    (entries.set i (key, value)).map Prod.fst = entries.map Prod.fst := by
  obtain ⟨bound, there, _⟩ := findIdx?_eq_some_iff_getElem.mp h
  rw [map_set, ← beq_iff_eq.mp there, set_getElem_self]

theorem findIdx?_keys_push (entries : List (Text × α)) (key : Text) (value : α)
    (new : (entries.map Prod.fst).findIdx? (· == key) = none) (k : Text) :
    ((entries ++ [(key, value)]).map Prod.fst).findIdx? (· == k) =
      if key = k then some entries.length else (entries.map Prod.fst).findIdx? (· == k) := by
  rw [map_append, findIdx?_append]
  split
  · rename_i same
    rw [← same, new]
    simp
  · rename_i other
    simp [other]

/-- Put a value under a key: in place when the key is there, at the end when it is new. -/
def put (m : OrderedMap α) (key : Text) (value : α) : OrderedMap α :=
  match found : m.index[key]? with
  | some i => ⟨m.index, m.entries.set i (key, value), fun k => by
      rw [Sequence.toList_set, keys_set _ _ _ _ (by rw [← m.indexed, found])]
      exact m.indexed k⟩
  | none => ⟨m.index.insert key m.entries.size, m.entries.push (key, value), fun k => by
      rw [Sequence.toList_push, findIdx?_keys_push _ _ _ (by rw [← m.indexed, found]), Std.TreeMap.getElem?_insert,
        m.indexed, Sequence.size_eq]
      simp [Std.LawfulEqCmp.compare_eq_iff_eq]⟩

def ofList (entries : List (Text × α)) : OrderedMap α := entries.foldl (fun m e => m.put e.1 e.2) empty

/-- Pass the values of a list of entries through a computation, one after the other. -/
def mapEntries (f : α → StateM σ β) : List (Text × α) → StateM σ (List (Text × β))
  | [] => return []
  | (key, value) :: rest => do
    let value ← f value
    return (key, value) :: (← mapEntries f rest)

theorem keys_mapEntries (f : α → StateM σ β) (entries : List (Text × α)) (s : σ) :
    (mapEntries f entries s).1.map Prod.fst = entries.map Prod.fst := by
  induction entries generalizing s with
  | nil => rfl
  | cons e rest ih =>
    obtain ⟨key, value⟩ := e
    exact congrArg (key :: ·) (ih (f value s).2)

def mapState (m : OrderedMap α) (f : α → StateM σ β) : StateM σ (OrderedMap β) := fun s =>
  match made : mapEntries f m.toList s with
  | (entries, s') => (⟨m.index, .ofList entries, fun key => by
      have same := keys_mapEntries f m.toList s
      rw [made] at same
      rw [Sequence.toList_ofList, same]
      exact m.indexed key⟩, s')

/-! ### What a map holds -/

@[simp] theorem toList_empty : (empty : OrderedMap α).toList = [] := rfl

/-- The value at the index of a key is the one that a list of entries has under it. -/
theorem lookup_eq_findIdx? (entries : List (Text × α)) (key : Text) :
    (((entries.map Prod.fst).findIdx? (· == key)).bind fun i => entries[i]?).map Prod.snd = entries.lookup key := by
  induction entries with
  | nil => rfl
  | cons e rest ih =>
    obtain ⟨k, v⟩ := e
    rw [map_cons, findIdx?_cons, lookup_cons, ← ih]
    by_cases same : k = key
    · simp [same]
    · have other : (key == k) = false := beq_false_of_ne fun h => same h.symm
      simp [same, other, Option.bind_map, Function.comp_def]

theorem get?_eq (m : OrderedMap α) (key : Text) : m.get? key = m.toList.lookup key := by
  have each : m.entries.get? = fun i => m.toList[i]? := funext fun i => m.entries.get?_eq i
  rw [get?, m.indexed, each]
  exact lookup_eq_findIdx? m.toList key

theorem has_eq (m : OrderedMap α) (key : Text) : m.has key = Assoc.has key m.toList := by
  rw [has, m.indexed, findIdx?_isSome, any_map, Assoc.has, toList]
  rfl

/-- What takes the place of the entry of a key is put there by `Assoc.put`. -/
theorem set_eq_put (entries : List (Text × α)) (i : Nat) (key : Text) (value : α)
    (h : (entries.map Prod.fst).findIdx? (· == key) = some i) :
    entries.set i (key, value) = Assoc.put key value entries := by
  induction entries generalizing i with
  | nil => simp at h
  | cons e rest ih =>
    obtain ⟨k, v⟩ := e
    rw [map_cons, findIdx?_cons] at h
    by_cases same : k = key
    · obtain rfl : 0 = i := by simpa [same] using h
      simp [Assoc.put, same]
    · simp only [beq_iff_eq, same, if_false, Option.map_eq_some_iff] at h
      obtain ⟨j, found, rfl⟩ := h
      simp [Assoc.put, same, ih j found]

/-- An entry with a new key is put at the end by `Assoc.put`. -/
theorem push_eq_put (entries : List (Text × α)) (key : Text) (value : α)
    (h : (entries.map Prod.fst).findIdx? (· == key) = none) :
    entries ++ [(key, value)] = Assoc.put key value entries := by
  induction entries with
  | nil => rfl
  | cons e rest ih =>
    obtain ⟨k, v⟩ := e
    rw [map_cons, findIdx?_cons] at h
    by_cases same : k = key
    · simp [same] at h
    · simp only [beq_iff_eq, same, if_false, Option.map_eq_none_iff] at h
      simp [Assoc.put, same, ← ih h]

theorem toList_put (m : OrderedMap α) (key : Text) (value : α) :
    (m.put key value).toList = Assoc.put key value m.toList := by
  unfold put toList
  split
  · rename_i i found
    rw [Sequence.toList_set]
    exact set_eq_put _ _ _ _ (by rw [← m.indexed, found])
  · rename_i new
    rw [Sequence.toList_push]
    exact push_eq_put _ _ _ (by rw [← m.indexed, new])

theorem toList_ofList {entries : List (Text × α)} (h : (entries.map Prod.fst).Nodup) :
    (ofList entries).toList = entries := by
  suffices hfold : ∀ m : OrderedMap α, (m.keys ++ entries.map Prod.fst).Nodup →
      (entries.foldl (fun m e => m.put e.1 e.2) m).toList = m.toList ++ entries from hfold .empty h
  clear h
  intro m hm
  induction entries generalizing m with
  | nil => rw [foldl_nil, append_nil]
  | cons e entries ih =>
    rw [map_cons, append_cons] at hm
    have hnew : e.1 ∉ m.keys := by
      intro hmem
      have hdisjoint := (nodup_append.mp (nodup_append.mp hm).1).2.2
      exact hdisjoint e.1 hmem e.1 mem_cons_self rfl
    have hnone : (m.toList.map Prod.fst).findIdx? (· == e.1) = none := by
      rw [findIdx?_eq_none_iff]
      intro key hkey
      exact beq_false_of_ne fun hsame => hnew (hsame ▸ hkey)
    have hput : (m.put e.1 e.2).toList = m.toList ++ [e] := (toList_put m e.1 e.2).trans (push_eq_put _ _ _ hnone).symm
    have hkeys : (m.put e.1 e.2).keys = m.keys ++ [e.1] := by rw [keys, hput, map_append]; rfl
    rw [foldl_cons, ih _ (by rw [hkeys]; exact hm), hput, ← append_cons]

end OrderedMap

end Stepwise
