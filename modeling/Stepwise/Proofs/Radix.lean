import Stepwise.Builtin.Apply
import Stepwise.Proofs.Computation
import Stepwise.Proofs.Lexemes
import Stepwise.Proofs.Rounding

/-!
# Integers in other bases

An integer is written in a base from 2 to 36 by dividing it by the base again and again, and read by taking the longest
beginning that is made of digits of the base. What is written is digits only, so all of it is read, with its sign; the
mark of hexadecimal numbers is never taken for digits, since no digit of base 16 is an `x`. So an integer below `2 ^ 53`
is read back as itself in every base (`Builtin.parseInt_undoes_toString`).
-/

namespace Stepwise

open Positional (readOn)
open Double (pow2_succ)

/-! ### Digits -/

namespace Numeral

variable {radix n : Nat} {s : Text} {digits : List Nat}

/-- The text is the digits of the number in the given base, the most significant one first. -/
def Spells (radix n : Nat) (s : Text) : Prop :=
  ∃ digits : List Nat, s = digits.map Text.digitOf ∧ digits ≠ [] ∧ digits.length ≤ digitLimit ∧
    (∀ d ∈ digits, d < radix) ∧ readOn radix 0 digits = n

theorem digitValue?_digitOf : ∀ d < 36, Text.digitValue? (Text.digitOf d) = some d := by decide

theorem digitOf_plain : ∀ d < 36, Text.isBlank (Text.digitOf d) = false ∧ Text.digitOf d ≠ '-'.toNat ∧
    Text.digitOf d ≠ '+'.toNat := by decide

/-- With fuel for the bits of a number, its digits are put in front of those that are there. -/
theorem radixDigits_eq (hradix : 2 ≤ radix) {fuel : Nat} (hn : n < pow2 (fuel + 1)) (after : Text) :
    ∃ digits : List Nat, Num.radixDigits radix (fuel + 1) n after = digits.map Text.digitOf ++ after ∧ digits ≠ [] ∧
      digits.length ≤ fuel + 1 ∧ (∀ d ∈ digits, d < radix) ∧ readOn radix 0 digits = n := by
  induction fuel generalizing n after with
  | zero =>
    have hsmall : n < radix := Nat.lt_of_lt_of_le hn hradix
    refine ⟨[n], ?_, List.cons_ne_nil _ _, Nat.le_refl _, by simpa using hsmall, by simp [readOn]⟩
    rw [Num.radixDigits, Nat.div_eq_of_lt hsmall, if_pos rfl, Nat.mod_eq_of_lt hsmall]
    rfl
  | succ fuel ih =>
    have hlast : n % radix < radix := Nat.mod_lt n (by omega)
    rw [Num.radixDigits]
    split
    case isTrue hdone =>
      have hsmall : n % radix = n := Nat.mod_eq_of_lt ((Nat.div_eq_zero_iff_lt (by omega)).mp hdone)
      exact ⟨[n % radix], rfl, List.cons_ne_nil _ _, by simp, by simpa using hlast, by simp [readOn, hsmall]⟩
    case isFalse =>
      have hhalf : n / radix < pow2 (fuel + 1) := by
        rw [pow2_succ] at hn
        exact Nat.lt_of_le_of_lt (Nat.div_le_div_left hradix (by decide)) (Nat.div_lt_of_lt_mul hn)
      obtain ⟨digits, heq, hne, hlength, hdigits, hvalue⟩ := ih hhalf (Text.digitOf (n % radix) :: after)
      refine ⟨digits ++ [n % radix], ?_, by simp, by simpa using hlength, ?_, ?_⟩
      · rw [heq, List.map_append, List.append_assoc]
        rfl
      · exact List.forall_mem_append.mpr ⟨hdigits, by simpa using hlast⟩
      · rw [readOn, List.foldl_append, List.foldl_cons, List.foldl_nil]
        change readOn radix 0 digits * radix + n % radix = n
        rw [hvalue, Nat.div_add_mod']

theorem spells_radixDigits (hradix : 2 ≤ radix) (hn : n < Num.safeLimit) :
    Spells radix n (Num.radixDigits radix (n.log2 + 1) n []) := by
  obtain ⟨digits, heq, hne, hlength, hdigits, hvalue⟩ := radixDigits_eq hradix Nat.lt_log2_self []
  have hbits : n.log2 < 53 := by
    by_cases hzero : n = 0
    · simp [hzero]
    · exact (Nat.log2_lt hzero).mpr hn
  have hlimit : 53 ≤ digitLimit := by decide
  exact ⟨digits, by rw [heq, List.append_nil], hne, by omega, hdigits, hvalue⟩

theorem spells_ofNat (hn : n < Num.safeLimit) : Spells 10 n (Text.ofNat n) := by
  have hdigit (c : Nat) (hc : c ∈ Text.ofNat n) : 48 ≤ c ∧ c ≤ 57 := by
    simpa [Text.isAsciiDigit] using Text.isAsciiDigit_of_mem_ofNat hc
  refine ⟨(Text.ofNat n).map (· - 48), ?_, by simpa using Text.ofNat_ne_nil n, ?_, ?_, ?_⟩
  · rw [List.map_map]
    conv_lhs => rw [← List.map_id (Text.ofNat n)]
    refine List.map_congr_left fun c hc => ?_
    have hbounds := hdigit c hc
    rw [id_eq, Function.comp_apply, Text.digitOf, if_pos (by omega), Nat.sub_add_cancel hbounds.1]
  · rw [List.length_map]
    exact Text.length_ofNat_le hn
  · rw [List.forall_mem_map]
    intro c hc
    have hbounds := hdigit c hc
    omega
  · rw [readOn, ← Positional.value_eq_foldl, Text.value_ofNat]

/-! ### Reading -/

theorem splitSign_withSign (hs : ∀ c ∈ s.head?, c ≠ '-'.toNat ∧ c ≠ '+'.toNat) (negative : Bool) :
    splitSign (Decimal.withSign negative s) = (negative, s) := by
  cases negative with
  | true => rfl
  | false =>
    cases s with
    | nil => rfl
    | cons c s =>
      obtain ⟨hminus, hplus⟩ := hs c rfl
      show (if c = '-'.toNat then _ else if c = '+'.toNat then _ else _) = _
      rw [if_neg hminus, if_neg hplus]

theorem not_marked (hdigits : ∀ d ∈ digits, d < 16) : lowerAscii ((digits.map Text.digitOf).take 2) ≠ "0x".codes := by
  intro hmark
  have hletter : ∀ d < 16, ¬ (if 65 ≤ Text.digitOf d ∧ Text.digitOf d ≤ 90 then Text.digitOf d + 32 else Text.digitOf d) =
    'x'.toNat := by decide
  have hx : 'x'.toNat ∈ lowerAscii ((digits.map Text.digitOf).take 2) := by
    rw [hmark]
    decide
  obtain ⟨c, hc, hlower⟩ := List.mem_map.mp hx
  obtain ⟨d, hd, rfl⟩ := List.mem_map.mp (List.mem_of_mem_take hc)
  exact hletter d (hdigits d hd) hlower

theorem leadingInteger_of_spells (hradix : radix ≤ 36) (h : Spells radix n s) (negative : Bool) :
    leadingInteger radix (Decimal.withSign negative s) = .ok (some (if negative then -n else n)) := by
  obtain ⟨digits, rfl, hne, hlength, hdigits, hvalue⟩ := h
  have hvalue? (d : Nat) (hd : d ∈ digits) : Text.digitValue? (Text.digitOf d) = some d :=
    digitValue?_digitOf d (Nat.lt_of_lt_of_le (hdigits d hd) hradix)
  have hplain : ∀ c ∈ (digits.map Text.digitOf).head?, Text.isBlank c = false ∧ c ≠ '-'.toNat ∧ c ≠ '+'.toNat := by
    intro c hc
    obtain ⟨d, hd, rfl⟩ := List.mem_map.mp (List.mem_of_mem_head? hc)
    exact digitOf_plain d (Nat.lt_of_lt_of_le (hdigits d hd) hradix)
  have htrim : (Decimal.withSign negative (digits.map Text.digitOf)).trimLeft =
      Decimal.withSign negative (digits.map Text.digitOf) := by
    cases negative with
    | true => rfl
    | false =>
      obtain ⟨d, digits, rfl⟩ := List.exists_cons_of_ne_nil hne
      exact List.dropWhile_cons_of_neg (by simp [(hplain _ rfl).1])
  have hall : (digits.map Text.digitOf).takeWhile (fun c => (Text.digitValue? c).isSome) = digits.map Text.digitOf := by
    rw [List.takeWhile_eq_self_iff, List.forall_mem_map]
    intro d hd
    rw [hvalue? d hd]
    rfl
  have hvalues : ((digits.map Text.digitOf).filterMap Text.digitValue?).takeWhile (· < radix) = digits := by
    have hfilter : (digits.map Text.digitOf).filterMap Text.digitValue? = digits := by
      rw [List.filterMap_map]
      refine (List.filterMap_congr fun d hd => ?_).trans List.filterMap_some
      exact hvalue? d hd
    rw [hfilter, List.takeWhile_eq_self_iff]
    exact fun d hd => decide_eq_true (hdigits d hd)
  have hmarked : ¬ (radix = 16 ∧ lowerAscii ((digits.map Text.digitOf).take 2) = "0x".codes) := by
    rintro ⟨rfl, hmark⟩
    exact not_marked hdigits hmark
  rw [leadingInteger, htrim, splitSign_withSign fun c hc => (hplain c hc).2]
  dsimp only
  rw [hall]
  simp only [if_neg hmarked, hvalues]
  rw [if_neg (by simpa using hne), checkDigits_of_le hlength, Positional.value_eq_foldl, ← hvalue]
  split <;> rfl

end Numeral

/-! ### The functions -/

open Exec

theorem Heap.toNumber_num (h : Heap) (x : Num) : h.toNumber (.num x) = .ok x := by
  change (h.read (.num x)).toNumber = .ok x
  rw [Heap.read]
  cases h.next <;> rfl

theorem Num.finite_int {k : Int} (hk : k.natAbs < safeLimit) :
    (Num.int k).isNaN = .ok false ∧ (Num.int k).isInfinite = .ok false ∧ (Num.int k).isIntegral = .ok true := by
  obtain ⟨x, hx, hintegral⟩ := Double.exists_ofInt?_of_lt hk
  obtain ⟨hnan, hinf⟩ := Double.finite_of_ofInt? hx
  have hfloat : (Num.int k).toFloat = .ok x := by rw [Num.toFloat, hx]
  refine ⟨?_, ?_, ?_⟩
  · rw [Num.isNaN, hfloat, ← hnan]
    rfl
  · rw [Num.isInfinite, hfloat, ← hinf]
    rfl
  · rw [Num.isIntegral, hfloat, ← hintegral]
    rfl

theorem Argument.outcome_integer {args : List Value} {i : Nat} {k : Int} (harg : Argument.nth args i = .int k)
    (hk : k.natAbs < Num.safeLimit) (absent : Int) (w : World) :
    (Argument.integer args i absent).outcome w = (.ok k, w) := by
  obtain ⟨hnan, hinf, -⟩ := Num.finite_int hk
  have hnumber : (Exec.toNumber (.int k)).outcome w = (.ok (.int k), w) := by
    change (liftM (w.store.heap.toNumber (.num (.int k))) : Exec Num).outcome w = _
    rw [Heap.toNumber_num]
    rfl
  rw [Argument.integer, harg]
  change (Exec.toNumber (.int k) >>= _).outcome w = _
  rw [outcome_bind_ok hnumber, hnan, hinf]
  rfl

namespace Builtin

variable {radix : Nat} {n : Int}

/-- The text of an integer in a base. -/
def textIn (radix : Nat) (n : Int) : Text := if radix = 10 then Text.ofInt n else Num.inRadix radix n

theorem spells_textIn (hradix : 2 ≤ radix) (hn : n.natAbs < Num.safeLimit) :
    ∃ s, textIn radix n = Decimal.withSign (n < 0) s ∧ Numeral.Spells radix n.natAbs s := by
  unfold textIn
  split
  case isTrue hten =>
    refine ⟨Text.ofNat n.natAbs, ?_, hten ▸ Numeral.spells_ofNat hn⟩
    simp only [Text.ofInt, Decimal.withSign, decide_eq_true_eq]
  case isFalse => exact ⟨_, rfl, Numeral.spells_radixDigits hradix hn⟩

theorem outcome_toString (hn : n.natAbs < Num.safeLimit) (hlow : 2 ≤ radix) (hhigh : radix ≤ 36) (w : World) :
    (NumberMethod.toText.run (.int n) [.int radix]).outcome w = (.ok (.text (textIn radix n).packed), w) := by
  have hsmall : (radix : Int).natAbs < Num.safeLimit := Nat.lt_of_le_of_lt hhigh (by decide)
  have hradix : (Argument.integer [.int radix] 0 10).outcome w = (.ok (radix : Int), w) :=
    Argument.outcome_integer rfl hsmall 10 w
  change (Argument.integer [.int radix] 0 10 >>= _).outcome w = _
  rw [outcome_bind_ok hradix, textIn]
  by_cases hten : radix = 10
  · rw [if_pos (by exact_mod_cast hten), if_pos hten, Num.format, if_pos hn]
    rfl
  · have hrange : ¬ (((radix : Int) < 2 || 36 < (radix : Int)) = true) := by simp; omega
    rw [if_neg (by exact_mod_cast hten), if_neg hten, (Num.finite_int hn).2.2]
    change (if ((radix : Int) < 2 || 36 < (radix : Int)) = true then _ else _ : Exec Value).outcome w = _
    rw [if_neg hrange]
    rfl

theorem outcome_parseInt {text : Text} {k : Int} (hlow : 2 ≤ radix) (hhigh : radix ≤ 36)
    (hread : Numeral.leadingInteger radix text = .ok (some k)) (hk : k.natAbs < Num.safeLimit)
    (limit : Option Limit) (invoke : Callback) (w : World) :
    (Builtin.parseInt.apply limit invoke [.text text.packed, .int radix]).outcome w = (.ok (.int k), w) := by
  have hsmall : (radix : Int).natAbs < Num.safeLimit := Nat.lt_of_le_of_lt hhigh (by decide)
  have hradix : (Argument.integer [.text text.packed, .int radix] 1 10).outcome w = (.ok (radix : Int), w) :=
    Argument.outcome_integer rfl hsmall 10 w
  have htext : (Exec.toText (.text text.packed)).outcome w = (.ok text, w) := by
    change (.ok text.packed.toList, w) = (Except.ok text, w)
    rw [Text.toList_packed]
  have hrange : ¬ (((radix : Int) < 2 || 36 < (radix : Int)) = true) := by simp; omega
  change (Exec.toText (.text text.packed) >>= fun _ => Argument.integer [.text text.packed, .int radix] 1 10 >>= _).outcome w = _
  rw [outcome_bind_ok htext, outcome_bind_ok hradix]
  simp only [if_neg (show ¬ (radix : Int) = 0 by omega), if_neg hrange, Int.toNat_natCast, hread]
  change (liftM (Num.int k).normalize >>= _ : Exec Value).outcome w = _
  rw [Num.normalize, if_pos hk]
  rfl

/-- An integer below `2 ^ 53` that is written in a base from 2 to 36 is read back in that base as itself. -/
theorem parseInt_undoes_toString (limit : Option Limit) (invoke : Callback) (w : World) (n : Int)
    (hn : n.natAbs < Num.safeLimit) (radix : Nat) (hlow : 2 ≤ radix) (hhigh : radix ≤ 36) :
    ∃ (write : Method) (read : Builtin) (s : Chars),
      Method.find? w.store.heap (.int n) "toString".codes = some write ∧
      (write.run invoke [.int radix]).outcome w = (.ok (.text s), w) ∧
      Builtin.global? "parseInt".codes = some read ∧
      (read.apply limit invoke [.text s, .int radix]).outcome w = (.ok (.int n), w) := by
  obtain ⟨s, htext, hspells⟩ := spells_textIn hlow hn
  have hread := Numeral.leadingInteger_of_spells hhigh hspells (n < 0)
  have hsigned : (if decide (n < 0) then -(n.natAbs : Int) else n.natAbs) = n := by
    simp only [decide_eq_true_eq]
    split <;> omega
  rw [← htext, hsigned] at hread
  exact ⟨.number .toText (.int n), .parseInt, _, rfl, outcome_toString hn hlow hhigh w, rfl,
    outcome_parseInt hlow hhigh hread hn limit invoke w⟩

/-- In base 36 letters are digits: the integer is written as `-xe`. -/
theorem parseInt_undoes_toString_letters : (-1202 : Int).natAbs < Num.safeLimit ∧ 2 ≤ 36 ∧ 36 ≤ 36 ∧
    Num.inRadix 36 (-1202) = "-xe".codes ∧ ∀ (invoke : Callback) (w : World), ∃ (write : Method) (read : Builtin) (s : Chars),
      Method.find? w.store.heap (.int (-1202)) "toString".codes = some write ∧
      (write.run invoke [.int 36]).outcome w = (.ok (.text s), w) ∧
      Builtin.global? "parseInt".codes = some read ∧
      (read.apply none invoke [.text s, .int 36]).outcome w = (.ok (.int (-1202)), w) :=
  ⟨by decide, by decide, by decide, by decide, fun invoke w =>
    parseInt_undoes_toString none invoke w (-1202) (by decide) 36 (by decide) (by decide)⟩

end Builtin

end Stepwise
