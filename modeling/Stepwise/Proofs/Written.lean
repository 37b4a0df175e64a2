import Stepwise.Syntax.Expr
import Stepwise.Value.Datum

/-!
# Written data

What a datum keeps when it is written and read again, and the form in which it is written: `Writing.Sound` says which
text a datum is written as and which expression that text spells.
-/

namespace Stepwise

open List

namespace Datum

/-- What cannot be written. -/
def isAbsent : Datum → Bool
  | .undefined | .function _ => true
  | _ => false

mutual

/-- The datum without what cannot be written: such an item of an array becomes null, such an entry is left out. -/
def canon : Datum → Datum
  | .array items => .array (canonItems items)
  | .object entries => .object (canonEntries entries)
  | d => d

def canonItems : List Datum → List Datum
  | [] => []
  | item :: rest => (if item.isAbsent then .null else item.canon) :: canonItems rest

def canonEntries : List (Text × Datum) → List (Text × Datum)
  | [] => []
  | (key, value) :: rest =>
    if value.isAbsent then canonEntries rest else (key, value.canon) :: canonEntries rest

end

/-- The data whose numbers are integers below the safe limit, `2 ^ 53`; the keys of an object differ. -/
inductive Portable : Datum → Prop
  | undefined : Portable .undefined
  | null : Portable .null
  | bool (b : Bool) : Portable (.bool b)
  | int {n : Int} (small : n.natAbs < Num.safeLimit) : Portable (.num (.int n))
  | text (s : Text) : Portable (.text s)
  | function (name : Text) : Portable (.function name)
  | array {items : List Datum} (portable : ∀ d ∈ items, Portable d) : Portable (.array items)
  | object {entries : List (Text × Datum)} (distinct : (entries.map Prod.fst).Nodup)
      (portable : ∀ e ∈ entries, Portable e.2) : Portable (.object entries)

end Datum

/-- A datum with a text and an expression for it. -/
structure Writing where
  datum : Datum
  text : Text
  expr : Expr

namespace Writing

/-- An entry of an object as it is written. -/
def entry (e : Text × Writing) : Text := e.1.quoted ++ ":".codes ++ e.2.text

def field (e : Text × Writing) : Text × Datum := (e.1, e.2.datum)

/-- The text is the one that the datum is written as, and the expression is spelt by the text. -/
inductive Sound : Writing → Prop
  | null : Sound ⟨.null, "null".codes, .null⟩
  | bool (b : Bool) : Sound ⟨.bool b, if b then "true".codes else "false".codes, .bool b⟩
  | natural {n : Nat} (small : n < Num.safeLimit) : Sound ⟨.num (.int n), Text.ofNat n, .num (.int n)⟩
  | negative {n : Nat} (positive : 0 < n) (small : n < Num.safeLimit) :
      Sound ⟨.num (.int (-n)), "-".codes ++ Text.ofNat n, .unary .minus (.num (.int n))⟩
  | text (s : Text) : Sound ⟨.text s, s.quoted, .text (.ofText s)⟩
  | array {items : List Writing} (sound : ∀ w ∈ items, Sound w) :
      Sound ⟨.array (items.map datum), "[".codes ++ Text.join ",".codes (items.map Writing.text) ++ "]".codes,
        .array (items.map fun w => .single w.expr)⟩
  | object {entries : List (Text × Writing)} (distinct : (entries.map Prod.fst).Nodup)
      (sound : ∀ e ∈ entries, Sound e.2) :
      Sound ⟨.object (entries.map field), "\x7b".codes ++ Text.join ",".codes (entries.map entry) ++ "\x7d".codes,
        .object (entries.map fun e => .property e.1 e.2.expr)⟩

theorem exists_sound_int {n : Int} (h : n.natAbs < Num.safeLimit) : ∃ e, Sound ⟨.num (.int n), Text.ofInt n, e⟩ := by
  by_cases hneg : n < 0
  · have hn : -(n.natAbs : Int) = n := by omega
    have hsound := Sound.negative (n := n.natAbs) (by omega) h
    rw [hn] at hsound
    rw [Text.ofInt, if_pos hneg]
    exact ⟨_, hsound⟩
  · have hn : (n.natAbs : Int) = n := by omega
    have hsound := Sound.natural h
    rw [hn] at hsound
    rw [Text.ofInt, if_neg hneg]
    exact ⟨_, hsound⟩

end Writing

theorem Num.format_int {n : Int} (h : n.natAbs < safeLimit) : (Num.int n).format = .ok (Text.ofInt n) := if_pos h

namespace Datum

open Writing

theorem stringify_of_isAbsent {d : Datum} (h : d.isAbsent) : d.stringify = .ok none := by
  cases d with
  | undefined => rfl
  | function name => rfl
  | _ => cases h

theorem stringifyItems_of_forall {items : List Datum}
    (h : ∀ d ∈ items, d.isAbsent = false → ∃ w : Writing, w.Sound ∧ w.datum = d.canon ∧ d.stringify = .ok (some w.text)) :
    ∃ ws : List Writing, (∀ w ∈ ws, w.Sound) ∧ ws.map datum = canonItems items ∧
      stringifyItems items = .ok (ws.map Writing.text) := by
  induction items with
  | nil => exact ⟨[], by simp, rfl, rfl⟩
  | cons d items ih =>
    obtain ⟨ws, hsound, hdata, htexts⟩ := ih fun d hd => h d (mem_cons_of_mem _ hd)
    cases habsent : d.isAbsent with
    | true =>
      refine ⟨⟨.null, "null".codes, .null⟩ :: ws, forall_mem_cons.mpr ⟨.null, hsound⟩, ?_, ?_⟩
      · simp [canonItems, habsent, hdata]
      · rw [stringifyItems, stringify_of_isAbsent habsent, htexts]
        rfl
    | false =>
      obtain ⟨w, hw, hdatum, htext⟩ := h d mem_cons_self habsent
      refine ⟨w :: ws, forall_mem_cons.mpr ⟨hw, hsound⟩, ?_, ?_⟩
      · simp [canonItems, habsent, hdata, hdatum]
      · rw [stringifyItems, htext, htexts]
        rfl

theorem keys_canonEntries (entries : List (Text × Datum)) :
    ((canonEntries entries).map Prod.fst).Sublist (entries.map Prod.fst) := by
  induction entries with
  | nil => exact .slnil
  | cons e entries ih =>
    rw [canonEntries]
    split
    case isTrue => exact ih.cons _
    case isFalse => exact ih.cons_cons _

theorem stringifyEntries_of_forall {entries : List (Text × Datum)} (h : ∀ e ∈ entries, e.2.isAbsent = false →
      ∃ w : Writing, w.Sound ∧ w.datum = e.2.canon ∧ e.2.stringify = .ok (some w.text)) :
    ∃ ws : List (Text × Writing), (∀ e ∈ ws, e.2.Sound) ∧ ws.map field = canonEntries entries ∧
      stringifyEntries entries = .ok (ws.map entry) := by
  induction entries with
  | nil => exact ⟨[], by simp, rfl, rfl⟩
  | cons e entries ih =>
    obtain ⟨ws, hsound, hdata, htexts⟩ := ih fun e he => h e (mem_cons_of_mem _ he)
    cases habsent : e.2.isAbsent with
    | true =>
      refine ⟨ws, hsound, ?_, ?_⟩
      · simp [canonEntries, habsent, hdata]
      · rw [stringifyEntries, stringify_of_isAbsent habsent, htexts]
        rfl
    | false =>
      obtain ⟨w, hw, hdatum, htext⟩ := h e mem_cons_self habsent
      refine ⟨(e.1, w) :: ws, forall_mem_cons.mpr ⟨hw, hsound⟩, ?_, ?_⟩
      · simp [canonEntries, habsent, hdata, hdatum, field]
      · rw [stringifyEntries, htext, htexts]
        rfl

/-- A portable datum that is there can be written, and what is written is its canonical form. -/
theorem Portable.written {d : Datum} (h : Portable d) (hpresent : d.isAbsent = false) :
    ∃ w : Writing, w.Sound ∧ w.datum = d.canon ∧ d.stringify = .ok (some w.text) := by
  induction h with
  | undefined => cases hpresent
  | function name => cases hpresent
  | null => exact ⟨_, .null, rfl, rfl⟩
  | bool b => exact ⟨_, .bool b, rfl, rfl⟩
  | @int n small =>
    obtain ⟨e, hsound⟩ := exists_sound_int small
    refine ⟨_, hsound, rfl, ?_⟩
    rw [stringify, Num.format_int small]
    rfl
  | text s => exact ⟨_, .text s, rfl, rfl⟩
  | array portable ih =>
    obtain ⟨ws, hsound, hdata, htexts⟩ := stringifyItems_of_forall ih
    refine ⟨_, .array hsound, ?_, ?_⟩
    · rw [canon, hdata]
    · rw [stringify, htexts]
      rfl
  | @object entries distinct portable ih =>
    obtain ⟨ws, hsound, hdata, htexts⟩ := stringifyEntries_of_forall ih
    have hkeys : ws.map Prod.fst = (canonEntries entries).map Prod.fst := by
      rw [← hdata, map_map]
      rfl
    refine ⟨_, .object ?_ hsound, ?_, ?_⟩
    · rw [hkeys]
      exact (keys_canonEntries entries).nodup distinct
    · rw [canon, hdata]
    · rw [stringify, htexts]
      rfl

end Datum

namespace Writing

open Datum

theorem stringifyItems_map {items : List Writing} (h : ∀ w ∈ items, w.datum.stringify = .ok (some w.text)) :
    stringifyItems (items.map datum) = .ok (items.map Writing.text) := by
  induction items with
  | nil => rfl
  | cons w items ih =>
    rw [map_cons, stringifyItems, h w mem_cons_self, ih fun x hx => h x (mem_cons_of_mem w hx)]
    rfl

theorem stringifyEntries_map {entries : List (Text × Writing)}
    (h : ∀ e ∈ entries, e.2.datum.stringify = .ok (some e.2.text)) :
    stringifyEntries (entries.map field) = .ok (entries.map entry) := by
  induction entries with
  | nil => rfl
  | cons e entries ih =>
    rw [map_cons, field, stringifyEntries, h e mem_cons_self, ih fun x hx => h x (mem_cons_of_mem e hx)]
    rfl

theorem Sound.stringify {w : Writing} (h : w.Sound) : w.datum.stringify = .ok (some w.text) := by
  induction h with
  | null => rfl
  | bool b => rfl
  | @natural n small =>
    have htext : Text.ofInt n = Text.ofNat n := by rw [Text.ofInt, if_neg (by omega), Int.natAbs_natCast]
    rw [Datum.stringify, Num.format_int (by rwa [Int.natAbs_natCast]), htext]
    rfl
  | @negative n positive small =>
    have htext : Text.ofInt (-n) = "-".codes ++ Text.ofNat n := by
      rw [Text.ofInt, if_pos (by omega), Int.natAbs_neg, Int.natAbs_natCast]
      rfl
    rw [Datum.stringify, Num.format_int (by rwa [Int.natAbs_neg]), htext]
    rfl
  | text s => rfl
  | array sound ih =>
    rw [Datum.stringify, stringifyItems_map ih]
    rfl
  | object distinct sound ih =>
    rw [Datum.stringify, stringifyEntries_map ih]
    rfl

end Writing

end Stepwise
