import Stepwise.Proofs.Acyclic
import Stepwise.Proofs.Growth
import Stepwise.Proofs.Likeness

/-!
# Stored properties

What is read from an array or an object after a value was stored in it: a copy of the value where it was stored, and
what was there before elsewhere. Indexes are written as decimal texts on both ways. An array is lengthened before what
goes behind its last item is copied, so an array that is stored in itself there comes back with the gap
(`Heap.storeProperty_laws`).
-/

namespace Stepwise

open Exec Relation List

/-! ### Integers as doubles -/

namespace Double

open Float.Model (Format UnpackedFloat)
open Float.Model.UnpackedFloat (unpackExponent unpackMantissa unpackExponent_packComponents unpackMantissa_packComponents)

theorem isNaN_unpack {spec : Format} (b : BitVec spec.numBits) :
    (UnpackedFloat.unpack spec b).isNaN = true ↔ unpackExponent b = -1#_ ∧ unpackMantissa b ≠ 0#_ := by
  unfold UnpackedFloat.unpack
  dsimp only
  by_cases hexponent : unpackExponent b = -1#_
  · rw [if_pos hexponent, and_iff_right hexponent]
    split
    case isTrue hzero => exact iff_of_false Bool.false_ne_true fun h => h hzero
    case isFalse hmantissa => exact iff_of_true rfl hmantissa
  · rw [if_neg hexponent]
    refine iff_of_false ?_ fun h => hexponent h.1
    by_cases hleast : unpackExponent b = 0#_
    · rw [if_pos hleast]
      by_cases hzero : unpackMantissa b = 0#_
      · rw [dif_pos hzero]
        exact Bool.false_ne_true
      · rw [dif_neg hzero]
        exact Bool.false_ne_true
    · rw [if_neg hleast]
      exact Bool.false_ne_true

theorem isNaN_of_isNaN_pack {spec : Format} {x : UnpackedFloat}
    (h : (UnpackedFloat.unpack spec (UnpackedFloat.pack spec x)).isNaN = true) : x.isNaN = true := by
  obtain ⟨hexponent, hmantissa⟩ := (isNaN_unpack _).mp h
  cases x with
  | notANumber => rfl
  | infinity s => exact absurd unpackMantissa_packComponents hmantissa
  | zero s => exact absurd unpackMantissa_packComponents hmantissa
  | finite s m e hm =>
    unfold UnpackedFloat.pack at hexponent hmantissa
    dsimp only at hexponent hmantissa
    split at hexponent
    case isTrue hlarge =>
      rw [if_pos hlarge] at hmantissa
      exact absurd unpackMantissa_packComponents hmantissa
    case isFalse hlarge =>
      split at hexponent
      all_goals
        rw [unpackExponent_packComponents, BitVec.neg_one_eq_allOnes, ← BitVec.toNat_inj, BitVec.toNat_ofNat,
          BitVec.toNat_allOnes, Nat.mod_eq_of_lt (by omega)] at hexponent
        omega

theorem isNaN_ofSignedBits {bits : Nat} (hbits : bits < 2047 * pow2 52) : (ofSignedBits false bits).isNaN = false := by
  refine Bool.eq_false_iff.mpr fun hnan => ?_
  have hexponent := ((isNaN_unpack _).mp (isNaN_of_isNaN_pack hnan)).1
  have hfield := congrArg BitVec.toNat hexponent
  simp [unpackExponent, BitVec.extractLsb_toNat, Nat.shiftRight_eq_div_pow] at hfield
  have hpow : pow2 52 = 4503599627370496 := rfl
  omega

theorem exists_ofInt? {n : Nat} (hn : n < Heap.maxArrayLength) : ∃ x, ofInt? n = some x ∧ x.isNaN = false := by
  have hsome : ∃ bits, nearestBits? n 1 = some bits ∧ bits < 2047 * pow2 52 := by
    by_cases hzero : n = 0
    · exact ⟨0, if_pos hzero, by decide⟩
    · have hlog : n.log2 < 24 := (Nat.log2_lt hzero).mpr hn
      have hone : (Nat.log2 1 : Int) = 0 := by decide
      have htop : atLeastPower n 1 n.log2 = true := by
        simpa [atLeastPower, pow2] using Nat.log2_self_le hzero
      have hlow : max ((n.log2 : Int) - 52) (-1074) = n.log2 - 52 := by omega
      have hround : roundDiv (n * pow2 (52 - n.log2)) 1 < 2 * pow2 52 := by
        have hlt : n * pow2 (52 - n.log2) < pow2 (n.log2 + 1) * pow2 (52 - n.log2) :=
          Nat.mul_lt_mul_of_pos_right Nat.lt_log2_self (Nat.two_pow_pos _)
        have hpow : pow2 (n.log2 + 1) * pow2 (52 - n.log2) = pow2 53 := by
          refine (Nat.pow_add 2 (n.log2 + 1) (52 - n.log2)).symm.trans (congrArg pow2 ?_)
          omega
        rw [hpow] at hlt
        simpa [roundDiv, Nat.mod_one, pow2] using hlt
      have hbits : ((n.log2 : Int) - 52 + 1074).toNat * pow2 52 + roundDiv (n * pow2 (52 - n.log2)) 1 < 2047 * pow2 52 := by
        have hfield : ((n.log2 : Int) - 52 + 1074).toNat ≤ 1045 := by omega
        have hpow := Nat.mul_le_mul_right (pow2 52) hfield
        omega
      have hneg : (-((n.log2 : Int) - 52)).toNat = 52 - n.log2 := by omega
      refine ⟨_, ?_, hbits⟩
      simp only [nearestBits?, if_neg hzero, hone, Int.sub_zero, htop, if_true, hlow,
        if_neg (show ¬ (0 : Int) ≤ n.log2 - 52 by omega), hneg, if_pos hbits]
  obtain ⟨bits, hbits, hlt⟩ := hsome
  refine ⟨_, ?_, isNaN_ofSignedBits hlt⟩
  rw [ofInt?, ofRatio?, Int.natAbs_natCast, hbits, decide_eq_false (by omega)]
  rfl

end Double

namespace Heap

variable {h h' : Heap} {a n : Nat} {c : Cell} {u v : Value}

/-! ### Heaps of data -/

/-- The value refers to nothing but a cell. -/
def Uses (h : Heap) (v : Value) : Prop := ∀ a : Nat, v = .ref a → a < h.next

/-- All references lead to cells, and no cell is part of itself. -/
structure Solid (h : Heap) : Prop where
  ranked : ∃ rank, h.Ranked rank
  full : ∀ a, a < h.next ↔ ∃ c, h.cell? a = some c

/-- Of the cells in use, only the given one is another one than before. -/
structure Changed (h h' : Heap) (a : Nat) : Prop where
  next : h.next ≤ h'.next
  same : ∀ b < h.next, b ≠ a → h'.cell? b = h.cell? b

theorem Changed.trans {h'' : Heap} (hchanged : h.Changed h' a) (hchanged' : h'.Changed h'' a) : h.Changed h'' a :=
  ⟨hchanged.next.trans hchanged'.next, fun b hb hba =>
    (hchanged'.same b (hb.trans_le hchanged.next) hba).trans (hchanged.same b hb hba)⟩

/-- The second value is read in the later heap as the first one in the earlier heap, and all its cells are new. -/
def IsCopy (h h' : Heap) (v w : Value) : Prop := h'.read w = h.read v ∧ ∀ b, h'.Reaches w b → h.next ≤ b

theorem changed_of_copy (hsame : ∀ b, b ≠ a → h'.cell? b = (h.copy v).2.cell? b) (hnext : h'.next = (h.copy v).2.next) :
    h.Changed h' a := by
  have hext := (h.extends_copy v).1
  refine ⟨hnext ▸ hext.next, fun b hb hba => ?_⟩
  rw [hsame b hba, hext.same b (.inl hb)]

namespace Solid

variable (hh : h.Solid)

include hh

theorem uses_of_mem (hcell : h.cell? a = some c) (hu : u ∈ c.values) : h.Uses u := by
  obtain ⟨rank, hrank⟩ := hh.ranked
  rintro b rfl
  exact (hrank a b ⟨c, hcell, hu⟩).1

theorem shows_of_within (hv : h.Within n v) (hused : h.Uses v) : h.Shows n v (h.readTo n v) := by
  induction n generalizing v with
  | zero =>
    cases v with
    | ref a => exact hv.elim
    | _ => exact .plain rfl
  | succ n ih =>
    cases v with
    | ref a =>
      obtain ⟨c, hcell⟩ := (hh.full a).mp (hused a rfl)
      have hpart : ∀ u ∈ c.values, h.Shows n u (h.readTo n u) := fun u hu =>
        ih (hv c hcell u hu) (hh.uses_of_mem hcell hu)
      have hvalues : c.values = (c.values.map fun u => (u, h.readTo n u)).map Prod.fst := by
        rw [List.map_map]
        exact (List.map_id _).symm
      have hshows : ∀ p ∈ c.values.map fun u => (u, h.readTo n u), h.Shows n p.1 p.2 := List.forall_mem_map.mpr hpart
      cases c with
      | array items growths =>
        have hread : h.readTo (n + 1) (.ref a) = .array ((items.toList.map fun u => (u, h.readTo n u)).map Prod.snd) := by
          simp only [readTo, hcell, List.map_map]
          rfl
        rw [hread]
        exact .array (hused a rfl) hcell hvalues hshows
      | object entries =>
        simp only [readTo, hcell]
        refine .object (hused a rfl) hcell ?_ hvalues ?_ hshows
        · rw [List.map_map]
          rfl
        · simp only [List.map_map, Cell.values, OrderedMap.values]
          rfl
    | _ => exact .plain rfl

theorem isCopy (hv : h.Uses v) (ha : a < h.next) (hnext : h'.next = (h.copy v).2.next)
    (hsame : ∀ b, b ≠ a → h'.cell? b = (h.copy v).2.cell? b) : h.IsCopy h' v (h.copy v).1 := by
  obtain ⟨rank, hrank⟩ := hh.ranked
  have hshows : h.Shows h.next v (h.read v) := hh.shows_of_within (hrank.within hv (Nat.le_refl _)) hv
  obtain ⟨hext, hfresh⟩ := h.extends_copy v
  have hnew (b : Nat) (hb : h'.Reaches (h.copy v).1 b) : h.next ≤ b ∧ b < (h.copy v).2.next := by
    obtain ⟨x, hx, hpath⟩ := hb
    induction hpath with
    | refl => exact hfresh x hx
    | tail _ hstep ih =>
      obtain ⟨c, hcell, hmem⟩ := hstep
      rw [hsame _ (by omega)] at hcell
      have hlower := hext.fresh _ c _ ih.1 ih.2 hcell hmem
      omega
  refine ⟨?_, fun b hb => (hnew b hb).1⟩
  rw [read, hnext, ← readTo_congr fun b hb => (hsame b (by have := hnew b hb; omega)).symm]
  exact (shows_copy hshows).2.read

theorem read_of_not_reaches (hchanged : h.Changed h' a) (hu : h.Uses u) (hnot : ¬ h.Reaches u a) :
    h'.read u = h.read u := by
  obtain ⟨rank, hrank⟩ := hh.ranked
  have hcells (b : Nat) (hb : h.Reaches u b) : h'.cell? b = h.cell? b := by
    refine hchanged.same b ?_ fun hba => hnot (hba ▸ hb)
    obtain ⟨x, rfl, hpath⟩ := hb
    cases hpath with
    | refl => exact hu b rfl
    | tail _ hstep => exact (hrank _ _ hstep).1
  rw [read, readTo_congr hcells, hrank.readTo_eq hu hchanged.next]

/-- What a cell holds does not lead to the cell. -/
theorem read_part (hchanged : h.Changed h' a) (hcell : h.cell? a = some c) {part : Option Value}
    (hpart : ∀ u ∈ part, u ∈ c.values) : h'.read (part.getD .undefined) = h.read (part.getD .undefined) := by
  obtain ⟨rank, hrank⟩ := hh.ranked
  cases part with
  | none => exact hh.read_of_not_reaches hchanged nofun (by rintro ⟨b, ⟨⟩, -⟩)
  | some u =>
    have hu := hpart u rfl
    refine hh.read_of_not_reaches hchanged (hh.uses_of_mem hcell hu) ?_
    rintro ⟨b, rfl, hpath⟩
    exact hrank.acyclic a (.head' ⟨c, hcell, hu⟩ hpath)

theorem setItems {items items' : Sequence Value} {growths : Nat} (hcell : h.cell? a = some (.array items growths))
    (hitems : ∀ b : Nat, .ref b ∈ items'.toList → .ref b ∈ items.toList) (grown : Bool) :
    (h.setItems a items' grown).Solid := by
  obtain ⟨rank, hrank⟩ := hh.ranked
  refine ⟨⟨rank, ?_⟩, fun b => (hh.full b).trans ?_⟩
  · rintro x y ⟨c, hc, hy⟩
    refine hrank x y ?_
    rw [Heap.setItems, cell?_modifyItems] at hc
    split at hc
    case isTrue hx =>
      subst hx
      rw [hcell] at hc
      cases hc
      exact ⟨_, hcell, hitems y hy⟩
    case isFalse => exact ⟨c, hc, hy⟩
  · rw [Heap.setItems, cell?_modifyItems]
    split
    case isTrue hb =>
      rw [hb, hcell]
      exact iff_of_true ⟨_, rfl⟩ ⟨_, rfl⟩
    case isFalse => exact Iff.rfl

end Solid

/-! ### Keys -/

theorem isDigits_ofNat (n : Nat) : (Text.ofNat n).isDigits = true := by
  have hdigits : ∀ c ∈ Text.ofNat n, Text.isDigit c = true := fun c hc => by
    rw [Text.isDigit, Text.isDecimal_of_isAsciiDigit (Text.isAsciiDigit_of_mem_ofNat hc), Bool.true_or]
  rw [Text.isDigits, all_eq_true.mpr hdigits, isEmpty_eq_false_iff.mpr (Text.ofNat_ne_nil n)]
  rfl

theorem propertyKey_int (hn : n < Num.safeLimit) (h : Heap) : h.propertyKey (.int n) = .ok (Text.ofNat n) := by
  have hread : h.read (.int n) = .num (.int n) := readTo_of_not_isRef rfl _ _ h
  have htext : h.toChars (.int n) = .ok (Text.ofNat n).packed := by
    show ((h.read (.int n)).toText >>= fun t => .ok t.packed) = _
    rw [hread]
    show ((Num.int n).format >>= fun t => .ok t.packed) = _
    rw [Num.format, if_pos (by simpa using hn)]
    rfl
  show (h.toChars (.int n) >>= fun s => .ok s.toText) = _
  rw [htext]
  exact congrArg Except.ok (Text.toList_packed _)

theorem indexOf_ofNat (hn : n < Num.safeLimit) : indexOf (Text.ofNat n) = .ok n := by
  rw [indexOf, Numeral.readInt_ofNat, Numeral.checkDigits_of_le (Text.length_ofNat_le hn)]
  rfl

variable {items : Sequence Value} {growths i j : Nat} {entries : OrderedMap Value} {key : Text}

theorem readProperty_length (hcell : h.cell? a = some (.array items growths)) :
    h.readProperty (.ref a) "length".codes = .ok (.int items.size) := by
  have harray : h.array? (.ref a) = some (a, items) := by simp only [array?, hcell]
  show (liftM (h.property (.ref a) "length".codes) : Except Fault Value) = _
  simp only [property, harray]
  rfl

theorem readProperty_item (hcell : h.cell? a = some (.array items growths)) (hj : j < Num.safeLimit) :
    h.readProperty (.ref a) (Text.ofNat j) = .ok (items.toList[j]?.getD .undefined) := by
  have harray : h.array? (.ref a) = some (a, items) := by simp only [array?, hcell]
  have hlength : Text.ofNat j ≠ "length".codes := fun heq => by
    have hdigits := isDigits_ofNat j
    rw [heq] at hdigits
    exact absurd hdigits (by decide)
  show (liftM (h.property (.ref a) (Text.ofNat j)) : Except Fault Value) = _
  simp only [property, harray, sequenceProperty, if_neg hlength, isDigits_ofNat, if_true, indexOf_ofNat hj]
  exact congrArg (fun o : Option Value => (.ok (o.getD .undefined) : Except Fault Value)) (items.get?_eq j)

theorem readProperty_entry (hcell : h.cell? a = some (.object entries)) :
    h.readProperty (.ref a) key = .ok ((entries.get? key).getD .undefined) := by
  have harray : h.array? (.ref a) = none := by simp only [array?, hcell]
  have hobject : h.object? (.ref a) = some (a, entries) := by simp only [object?, hcell]
  show (liftM (h.property (.ref a) key) : Except Fault Value) = _
  simp only [property, harray, hobject]
  rfl

/-! ### Stores -/

theorem cell?_setItems (hcell : h.cell? a = some (.array items growths)) (items' : Sequence Value) (grown : Bool) :
    (h.setItems a items' grown).cell? a = some (.array items' (if grown then growths + 1 else growths)) := by
  rw [setItems, cell?_modifyItems, if_pos rfl, hcell]
  rfl

theorem changed_setItems (items' : Sequence Value) (grown : Bool) : h.Changed (h.setItems a items' grown) a :=
  ⟨Nat.le_refl _, fun b _ hb => by rw [setItems, cell?_modifyItems, if_neg hb]⟩

/-- The heap in which an array has room for an item. -/
def roomFor (h : Heap) (a : Addr) (items : Sequence Value) (i : Nat) : Heap :=
  if i < items.size then h else h.setItems a (filledUp items (i + 1)) true

theorem storeProperty_array (hcell : h.cell? a = some (.array items growths)) (key : Text) (v : Value) :
    h.storeProperty (.ref a) key v =
      if key.isDigits then do h.storeItem a items (← indexOf key) v
      else if key = "length".codes then do return h.setLength a items (← h.lengthOf v)
      else return h := by
  have harray : h.array? (.ref a) = some (a, items) := by simp only [array?, hcell]
  simp only [storeProperty, harray]
  rfl

theorem storeProperty_item (hcell : h.cell? a = some (.array items growths)) (hi : i < Num.safeLimit) (v : Value) :
    h.storeProperty (.ref a) (Text.ofNat i) v =
      if i ≥ maxArrayLength then .error (.of .arrayLength) else .ok ((h.roomFor a items i).withItem a i v) := by
  rw [storeProperty_array hcell, if_pos (isDigits_ofNat i), indexOf_ofNat hi]
  show h.storeItem a items i v = _
  by_cases hmax : i ≥ maxArrayLength
  · rfl
  · rfl

theorem lengthOf_int (hn : n < maxArrayLength) (h : Heap) : h.lengthOf (.int n) = .ok n := by
  obtain ⟨x, hx, hnan⟩ := Double.exists_ofInt? hn
  have hnumber : h.toNumber (.int n) = .ok (.int n) :=
    congrArg Datum.toNumber (readTo_of_not_isRef rfl _ _ h)
  have hisNaN : (Num.int n).isNaN = .ok false := by
    have hfloat : (Num.int n).toFloat = .ok x := by simp only [Num.toFloat, hx]
    rw [Num.isNaN, hfloat]
    exact congrArg Except.ok hnan
  have hpositive : ¬ (Num.int n).lt (.int 0) = true := by
    rw [Num.lt, Num.compare?_int, beq_iff_eq, Option.some.injEq, Std.compare_eq_lt]
    omega
  have hexact : ¬ (!(Num.int n).eq (.int n) || decide ((n : Int) ≥ maxArrayLength)) = true := by
    rw [Num.eq, Num.compare?_int, Std.compare_self]
    simpa using hn
  rw [lengthOf, hnumber]
  show ((liftM (Num.int n).isNaN : Except Fault Bool) >>= _) = _
  rw [hisNaN]
  show (if (Num.int n).lt (.int 0) = true then _ else _) = _
  rw [if_neg hpositive]
  show (if (!(Num.int n).eq (.int n) || decide ((n : Int) ≥ maxArrayLength)) = true then _ else _) = _
  rw [if_neg hexact]
  rfl

theorem setLength_eq (h : Heap) (a : Addr) (items : Sequence Value) (n : Nat) :
    ∃ items' grown, h.setLength a items n = h.setItems a items' grown ∧
      items'.toList = (items.toList ++ List.replicate (n - items.toList.length) Value.undefined).take n := by
  unfold setLength
  split
  case isTrue hle =>
    refine ⟨_, _, rfl, ?_⟩
    rw [Sequence.toList_take, take_append_of_le_length (Sequence.size_eq items ▸ hle)]
  case isFalse hle =>
    rw [Sequence.size_eq] at hle
    refine ⟨_, _, rfl, ?_⟩
    rw [toList_filledUp, take_of_length_le (by simp; omega)]

theorem Solid.roomFor (hh : h.Solid) (hcell : h.cell? a = some (.array items growths)) (i : Nat) :
    (h.roomFor a items i).Solid ∧ h.Changed (h.roomFor a items i) a ∧ (h.roomFor a items i).next = h.next ∧
    ∃ items' growths', (h.roomFor a items i).cell? a = some (.array items' growths') ∧
      items'.toList = items.toList ++ List.replicate (i + 1 - items.toList.length) .undefined := by
  unfold Heap.roomFor
  split
  case isTrue hi =>
    rw [Sequence.size_eq] at hi
    refine ⟨hh, ⟨Nat.le_refl _, fun _ _ _ => rfl⟩, rfl, items, growths, hcell, ?_⟩
    rw [Nat.sub_eq_zero_of_le hi, replicate_zero, append_nil]
  case isFalse =>
    refine ⟨hh.setItems hcell (fun b hb => ?_) true, changed_setItems _ true, rfl, _, _, cell?_setItems hcell _ true, toList_filledUp items _⟩
    rw [toList_filledUp] at hb
    exact (mem_append.mp hb).resolve_right fun hb => by cases eq_of_mem_replicate hb

/-- The result of reading a property is the same, and it is read the same. -/
def SameAt (h h' : Heap) (object : Value) (key : Text) : Prop :=
  ∃ w, h.readProperty object key = .ok w ∧ h'.readProperty object key = .ok w ∧ h'.read w = h.read w

/-- What storing a value in an array does. -/
structure ArrayLaws (h : Heap) (a : Addr) (items : Sequence Value) (v : Value) : Prop where
  item (i : Nat) : i < maxArrayLength → ∃ h', h.storeProperty (.ref a) (Text.ofNat i) v = .ok h' ∧
    h'.readProperty (.ref a) "length".codes = .ok (.int (max items.size (i + 1) : Nat)) ∧
    (∃ w, h'.readProperty (.ref a) (Text.ofNat i) = .ok w ∧ (h.roomFor a items i).IsCopy h' v w) ∧
    ∀ j < Num.safeLimit, j ≠ i → h.SameAt h' (.ref a) (Text.ofNat j)
  copied (i : Nat) : i < items.size ∨ ¬ h.Reaches v a → (h.roomFor a items i).read v = h.read v
  beyond (i : Nat) : maxArrayLength ≤ i → i < Num.safeLimit → ∀ w : World, w.store.heap = h →
    (Exec.storeProperty (.ref a) (Text.ofNat i) v).outcome w = (.error (.of .arrayLength), w)
  length (n : Nat) : n < maxArrayLength → ∃ h', h.storeProperty (.ref a) "length".codes (.int n) = .ok h' ∧
    h'.readProperty (.ref a) "length".codes = .ok (.int n) ∧
    (∀ j < min n items.size, h.SameAt h' (.ref a) (Text.ofNat j)) ∧
    ∀ j < Num.safeLimit, min n items.size ≤ j → h'.readProperty (.ref a) (Text.ofNat j) = .ok .undefined
  missing (j : Nat) : items.size ≤ j → j < Num.safeLimit → h.readProperty (.ref a) (Text.ofNat j) = .ok .undefined
  other (key : Text) : key.isDigits = false → key ≠ "length".codes → h.storeProperty (.ref a) key v = .ok h

theorem Solid.arrayLaws (hh : h.Solid) (hv : h.Uses v) (hcell : h.cell? a = some (.array items growths)) :
    h.ArrayLaws a items v where
  item i hi := by
    have hsafe : maxArrayLength < Num.safeLimit := by decide
    obtain ⟨hroom, hchanged, hnext, items', growths', hcell', hitems'⟩ := hh.roomFor hcell i
    have ha : a < (h.roomFor a items i).next := (hroom.full a).mpr ⟨_, hcell'⟩
    have hstored := cell?_withItem hcell' ha i v
    have hlength : items'.toList.length = max items.toList.length (i + 1) := by
      rw [hitems', length_append, length_replicate]
      omega
    have hcopy (b : Nat) (hb : b ≠ a) :
        ((h.roomFor a items i).withItem a i v).cell? b = ((h.roomFor a items i).copy v).2.cell? b := by
      rw [withItem, cell?_modifyItems, if_neg hb]
    have hlater : h.Changed ((h.roomFor a items i).withItem a i v) a := hchanged.trans (changed_of_copy hcopy rfl)
    refine ⟨_, (storeProperty_item hcell (hi.trans hsafe) v).trans (if_neg (Nat.not_le.mpr hi)), ?_,
      ⟨_, ?_, hroom.isCopy (fun b hb => hnext ▸ hv b hb) ha rfl hcopy⟩, fun j hj hji => ⟨_, readProperty_item hcell hj, ?_, ?_⟩⟩
    · rw [readProperty_length hstored, Sequence.size_eq, Sequence.toList_set, length_set, hlength, Sequence.size_eq]
    · rw [readProperty_item hstored (hi.trans hsafe), Sequence.toList_set, getElem?_set_self (by omega)]
      rfl
    · rw [readProperty_item hstored hj, Sequence.toList_set, getElem?_set_ne (Ne.symm hji), hitems', getElem?_append]
      grind
    · exact hh.read_part hlater hcell fun u hu => mem_of_getElem? hu
  copied i hi := by
    obtain ⟨-, hchanged, -⟩ := hh.roomFor hcell i
    rcases hi with hi | hnot
    · rw [Heap.roomFor, if_pos hi]
    · exact hh.read_of_not_reaches hchanged hv hnot
  beyond i hi hsafe w hw := by
    rw [Exec.storeProperty, outcome_bind_ok (outcome_heap w), hw, storeProperty_item hcell hsafe, if_pos hi]
    exact outcome_bind_error (outcome_liftExcept _ w)
  length n hn := by
    have hsafe : maxArrayLength < Num.safeLimit := by decide
    obtain ⟨items', grown, hset, hitems'⟩ := setLength_eq h a items n
    have hstored : h.storeProperty (.ref a) "length".codes (.int n) = .ok (h.setItems a items' grown) := by
      rw [storeProperty_array hcell, if_neg (by decide), if_pos rfl, lengthOf_int hn, ← hset]
      rfl
    have hcell' := cell?_setItems hcell items' grown
    have hlater : h.Changed (h.setItems a items' grown) a := changed_setItems items' grown
    rw [Sequence.size_eq]
    refine ⟨_, hstored, ?_, fun j hj => ⟨_, readProperty_item hcell (by omega), ?_, ?_⟩, fun j hj hle => ?_⟩
    · rw [readProperty_length hcell', Sequence.size_eq, hitems', length_take, length_append, length_replicate,
        Nat.min_eq_left (by omega)]
    · rw [readProperty_item hcell' (by omega), hitems', getElem?_take_of_lt (by omega),
        getElem?_append_left (by omega)]
    · exact hh.read_part hlater hcell fun u hu => mem_of_getElem? hu
    · rw [readProperty_item hcell' hj, hitems']
      grind
  missing j hj hsafe := by
    rw [Sequence.size_eq] at hj
    rw [readProperty_item hcell hsafe, getElem?_eq_none hj]
    rfl
  other key hdigits hlength := by
    rw [storeProperty_array hcell, if_neg (ne_true_of_eq_false hdigits), if_neg hlength]
    rfl

/-- What storing a value in an object does. -/
def ObjectLaws (h : Heap) (a : Addr) (entries : OrderedMap Value) (v : Value) : Prop :=
  ∀ key, ∃ h' entries', h.storeProperty (.ref a) key v = .ok h' ∧ h'.cell? a = some (.object entries') ∧
    (∃ w, h'.readProperty (.ref a) key = .ok w ∧ h.IsCopy h' v w) ∧
    (∀ other, other ≠ key → h.SameAt h' (.ref a) other) ∧
    entries'.keys = if key ∈ entries.keys then entries.keys else entries.keys ++ [key]

theorem Solid.objectLaws (hh : h.Solid) (hv : h.Uses v) (hcell : h.cell? a = some (.object entries)) :
    h.ObjectLaws a entries v := by
  intro key
  have ha : a < h.next := (hh.full a).mpr ⟨_, hcell⟩
  have harray : h.array? (.ref a) = none := by simp only [array?, hcell]
  have hobject : h.object? (.ref a) = some (a, entries) := by simp only [object?, hcell]
  have hstored : h.storeProperty (.ref a) key v =
      .ok ((h.copy v).2.set a (.object (entries.put key (h.copy v).1))) := by
    simp only [storeProperty, harray, hobject]
    rfl
  have hcell' : ((h.copy v).2.set a (.object (entries.put key (h.copy v).1))).cell? a =
      some (.object (entries.put key (h.copy v).1)) := by rw [cell?_set, if_pos rfl]
  have hcopy (b : Nat) (hb : b ≠ a) :
      ((h.copy v).2.set a (.object (entries.put key (h.copy v).1))).cell? b = (h.copy v).2.cell? b := by
    rw [cell?_set, if_neg hb]
  refine ⟨_, _, hstored, hcell', ⟨_, ?_, hh.isCopy hv ha rfl hcopy⟩, fun other hother => ⟨_, readProperty_entry hcell, ?_, ?_⟩,
    entries.keys_put key _⟩
  · rw [readProperty_entry hcell', OrderedMap.get?_put, Function.update_self]
    rfl
  · rw [readProperty_entry hcell', OrderedMap.get?_put, Function.update_of_ne hother]
  · exact hh.read_part (changed_of_copy hcopy rfl) hcell fun u hu => OrderedMap.mem_values_of_get? hu

/-- An array or an object to which a value is stored gives a copy of it back, and all else as before. An array that the
value leads to is lengthened before the copy is made, and the copy shows that. -/
theorem storeProperty_laws (hh : h.Solid) (hv : h.Uses v) :
    (∀ (h : Heap) (i : Nat), i < Num.safeLimit → h.propertyKey (.int i) = .ok (Text.ofNat i)) ∧
    (∀ a items growths, h.cell? a = some (.array items growths) → h.ArrayLaws a items v) ∧
    (∀ a entries, h.cell? a = some (.object entries) → h.ObjectLaws a entries v) ∧
    Cause.arrayLength.kind = .range :=
  ⟨fun h _ hi => propertyKey_int hi h, fun _ _ _ hcell => hh.arrayLaws hv hcell, fun _ _ hcell => hh.objectLaws hv hcell, rfl⟩

/-- A heap with the array `[1]`. -/
def single : Heap := (empty.allocArray (.ofList [.int 1])).2

theorem cell?_single (a : Nat) : single.cell? a = if a = 0 then some (.array (.ofList [.int 1]) 0) else none := by
  rw [single, allocArray, cell?_alloc]
  rfl

theorem solid_single : single.Solid := by
  refine ⟨⟨fun _ => 0, ?_⟩, fun a => ?_⟩
  · rintro a b ⟨c, hcell, hb⟩
    rw [cell?_single] at hcell
    split at hcell
    · cases hcell
      cases mem_singleton.mp hb
    · cases hcell
  · rw [cell?_single]
    show a < 1 ↔ _
    split
    · exact iff_of_true (by omega) ⟨_, rfl⟩
    · exact iff_of_false (by omega) nofun

theorem uses_single : single.Uses (.ref 0) := by
  rintro _ ⟨⟩
  exact Nat.one_pos

/-- An array that is stored in itself, in the place of its item. -/
theorem storeProperty_laws_self : single.Solid ∧ single.Uses (.ref 0) ∧
    ∃ h', single.storeProperty (.ref 0) (Text.ofNat 0) (.ref 0) = .ok h' ∧
      h'.readProperty (.ref 0) "length".codes = .ok (.int 1) ∧
      ∃ w, h'.readProperty (.ref 0) (Text.ofNat 0) = .ok w ∧ h'.read w = single.read (.ref 0) := by
  have hlaws := (storeProperty_laws solid_single uses_single).2.1 0 _ _ (cell?_single 0)
  obtain ⟨h', hstored, hlength, ⟨w, hread, hcopy⟩, -⟩ := hlaws.item 0 (by decide)
  exact ⟨solid_single, uses_single, h', hstored, hlength, w, hread, hcopy.1.trans (hlaws.copied 0 (.inl (by decide)))⟩

/-- An array that is stored behind its last item: what is read back is longer than what was stored. -/
theorem storeProperty_behind_last : single.read (.ref 0) = .array [.num (.int 1)] ∧
    ∃ h', single.storeProperty (.ref 0) (Text.ofNat 1) (.ref 0) = .ok h' ∧
      ∃ w, h'.readProperty (.ref 0) (Text.ofNat 1) = .ok w ∧ h'.read w = .array [.num (.int 1), .undefined] := by
  have hlaws := solid_single.arrayLaws uses_single (cell?_single 0)
  obtain ⟨h', hstored, -, ⟨w, hread, hcopy⟩, -⟩ := hlaws.item 1 (by decide)
  refine ⟨rfl, h', hstored, w, hread, hcopy.1.trans rfl⟩

end Heap

end Stepwise
