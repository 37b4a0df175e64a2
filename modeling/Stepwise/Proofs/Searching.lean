import Mathlib.Data.List.Infix
import Mathlib.Data.Nat.ModEq
import Stepwise.Program.Basic

/-!
# Searching

The search with rolling hashes finds the first place where a part occurs: where it does occur the hashes agree, so the
hash never hides a place. Cutting at a separator then takes one piece after the other, and the lines of a source are
what is between its line feeds.
-/

namespace Stepwise.Text

open Positional (readOn readOn_append)

variable {s part : Text} {n : Nat}

/-! ### Hashes -/

section Modulo

variable {base modulus : Nat}

theorem foldl_modEq (s : Text) {h h' : Nat} (hh : h ≡ h' [MOD modulus]) :
    s.foldl (fun h c => (h * base + c) % modulus) h ≡ readOn base h' s [MOD modulus] := by
  induction s generalizing h h' with
  | nil => exact hh
  | cons c s ih => exact ih ((Nat.mod_modEq _ _).trans ((hh.mul_right _).add_right c))

theorem foldl_concat (s : Text) (c : CodePoint) : (s ++ [c]).foldl (fun h c => (h * base + c) % modulus) 0 =
    (s.foldl (fun h c => (h * base + c) % modulus) 0 * base + c) % modulus := by
  rw [List.foldl_append, List.foldl_cons, List.foldl_nil]

theorem foldl_weight_modEq (s : Text) {w k : Nat} (hw : w ≡ Nat.pow base k [MOD modulus]) :
    s.foldl (fun w _ => w * base % modulus) w ≡ Nat.pow base (k + s.length) [MOD modulus] := by
  induction s generalizing w k with
  | nil => exact hw
  | cons c s ih =>
    have hnext := ih (k := k + 1) ((Nat.mod_modEq _ _).trans (hw.mul_right base))
    rwa [List.length_cons, ← Nat.add_assoc, Nat.add_right_comm]

theorem foldl_weight_modEq_mul (hs : s.length = n + 1) :
    s.foldl (fun w _ => w * base % modulus) 1 ≡ Nat.pow base n * base [MOD modulus] := by
  have h : s.foldl (fun w _ => w * base % modulus) 1 ≡ Nat.pow base (0 + s.length) [MOD modulus] := foldl_weight_modEq s rfl
  rwa [hs, Nat.zero_add] at h

end Modulo

theorem rollingHash_modEq (s : Text) : rollingHash s ≡ readOn codePointCount 0 s [MOD hashModulus] := foldl_modEq s rfl

theorem frontWeight_modEq (hs : s.length = n + 1) :
    frontWeight s ≡ Nat.pow codePointCount n * codePointCount [MOD hashModulus] := foldl_weight_modEq_mul hs

theorem rollingHash_concat (s : Text) (c : CodePoint) :
    rollingHash (s ++ [c]) = (rollingHash s * codePointCount + c) % hashModulus := foldl_concat s c

/-- One digit is taken away in front and another one is added at the end. -/
theorem shift_modEq {base modulus power weight first last h value : Nat} (hmodulus : 0 < modulus)
    (hh : h ≡ first * power + value [MOD modulus]) (hweight : weight ≡ power * base [MOD modulus]) :
    h * base + last + (modulus - first * weight % modulus) ≡ value * base + last [MOD modulus] := by
  have hle : first * weight % modulus ≤ modulus := Nat.le_of_lt (Nat.mod_lt _ hmodulus)
  have hlost : first * weight % modulus ≡ first * power * base [MOD modulus] := by
    rw [Nat.mul_assoc]
    exact (Nat.mod_modEq _ _).trans (hweight.mul_left first)
  refine Nat.ModEq.add_right_cancel' (first * weight % modulus) ?_
  calc h * base + last + (modulus - first * weight % modulus) + first * weight % modulus
    _ = h * base + last + modulus := by rw [Nat.add_assoc, Nat.sub_add_cancel hle]
    _ ≡ h * base + last [MOD modulus] := Nat.add_modEq_right
    _ ≡ (first * power + value) * base + last [MOD modulus] := (hh.mul_right base).add_right last
    _ = value * base + last + first * power * base := by
        rw [Nat.add_mul, Nat.add_assoc, Nat.add_comm]
    _ ≡ value * base + last + first * weight % modulus [MOD modulus] := hlost.symm.add_left _

theorem rolled_eq {first : CodePoint} (hsize : part.length = s.length + 1) (last : CodePoint) :
    rolled (frontWeight part) (rollingHash (first :: s)) first last = rollingHash (s ++ [last]) := by
  have hvalue : readOn codePointCount 0 (first :: s) =
      first * Nat.pow codePointCount s.length + readOn codePointCount 0 s := by
    rw [readOn, List.foldl_cons, Nat.zero_mul, Nat.zero_add]
    exact Positional.readOn_eq codePointCount first s
  have hold : rollingHash (first :: s) ≡ first * Nat.pow codePointCount s.length + rollingHash s [MOD hashModulus] :=
    (rollingHash_modEq _).trans (hvalue ▸ (rollingHash_modEq s).symm.add_left _)
  rw [rolled, rollingHash_concat]
  exact shift_modEq (by decide) hold (frontWeight_modEq hsize)

/-! ### The first place -/

/-- Where the part occurs the hashes agree. -/
theorem beq_rollingHash_and (part s : Text) :
    (rollingHash (s.take part.length) == rollingHash part && part.isPrefixOf s) = part.isPrefixOf s := by
  rw [Bool.and_eq_right_iff_imp, List.isPrefixOf_iff_prefix]
  intro h
  rw [← List.prefix_iff_eq_take.mp h]
  exact beq_self_eq_true _

theorem findIdx?_tails_of_lt (h : s.length < part.length) : s.tails.findIdx? (part.isPrefixOf ·) = none := by
  rw [List.findIdx?_eq_none_iff]
  intro t ht
  rw [Bool.eq_false_iff, Ne, List.isPrefixOf_iff_prefix]
  intro hprefix
  have hle := ((List.mem_tails t s).mp ht).length_le
  have hle' := hprefix.length_le
  omega

theorem findFrom_eq {ahead : Text} (hpart : part.length = n + 1) (pos : Nat)
    (hs : s.length = n + 1 + ahead.length) (hahead : ahead = s.drop (n + 1)) :
    findFrom part (rollingHash part) (frontWeight part) (rollingHash (s.take (n + 1))) pos s ahead =
      (s.tails.findIdx? (part.isPrefixOf ·)).map (pos + ·) := by
  induction ahead generalizing s pos with
  | nil =>
    obtain ⟨first, s, rfl⟩ := List.exists_cons_of_length_pos (by omega : 0 < s.length)
    have hrest : s.tails.findIdx? (part.isPrefixOf ·) = none := by
      apply findIdx?_tails_of_lt
      simp only [List.length_cons, List.length_nil] at hs
      omega
    rw [findFrom, ← hpart, beq_rollingHash_and, List.tails_cons, List.findIdx?_cons, hrest]
    split <;> rfl
  | cons c ahead ih =>
    obtain ⟨first, s, rfl⟩ := List.exists_cons_of_length_pos (by omega : 0 < s.length)
    rw [List.drop_succ_cons] at hahead
    have hwindow : s.take (n + 1) = s.take n ++ [c] := by
      have hc : s[n]? = some c := by rw [← List.head?_drop, ← hahead, List.head?_cons]
      rw [List.take_add_one, hc]
      rfl
    have hnext : ahead = s.drop (n + 1) := by rw [← List.tail_drop, ← hahead, List.tail_cons]
    have hrolled : rolled (frontWeight part) (rollingHash ((first :: s).take (n + 1))) first c =
        rollingHash (s.take (n + 1)) := by
      rw [hwindow, List.take_succ_cons, rolled_eq]
      simp only [List.length_cons] at hs
      rw [List.length_take]
      omega
    rw [findFrom, ← hpart, beq_rollingHash_and, hpart, List.headD_cons, List.tail_cons, hrolled, List.tails_cons,
      List.findIdx?_cons]
    split
    · rfl
    · rw [ih (pos + 1) (by simp only [List.length_cons] at hs; omega) hnext, Option.map_map]
      congr 1
      funext i
      show pos + 1 + i = pos + (i + 1)
      omega

theorem findFirst?_eq (hpart : part ≠ []) (s : Text) : findFirst? part s = s.tails.findIdx? (part.isPrefixOf ·) := by
  obtain ⟨n, hn⟩ := Nat.exists_eq_add_one_of_ne_zero (List.length_pos_iff.mpr hpart).ne'
  unfold findFirst?
  dsimp only
  split
  case isTrue hshort =>
    rw [List.length_take] at hshort
    exact (findIdx?_tails_of_lt (by omega)).symm
  case isFalse hlong =>
    rw [List.length_take] at hlong
    rw [hn, findFrom_eq hn 0 (by rw [List.length_drop]; omega) rfl]
    simp

/-! ### Lines -/

theorem splitFrom_append (sep : Text) (fuel : Nat) (pieces : List Text) (s : Text) :
    splitFrom sep fuel pieces s = pieces.reverse ++ splitFrom sep fuel [] s := by
  induction fuel generalizing pieces s with
  | zero => simp [splitFrom]
  | succ fuel ih =>
    simp only [splitFrom]
    split
    · simp
    · rw [ih, ih [_]]
      simp

theorem findFirst?_singleton (c : CodePoint) (s : Text) : findFirst? [c] s = s.findIdx? (· == c) := by
  rw [findFirst?_eq (by simp)]
  induction s with
  | nil => rfl
  | cons d s ih =>
    rw [List.tails_cons, List.findIdx?_cons, List.findIdx?_cons, ih]
    have hhead : List.isPrefixOf [c] (d :: s) = (d == c) := by
      rw [List.isPrefixOf_cons_cons, List.isPrefixOf_nil_left, Bool.and_true, Bool.beq_comm]
    rw [hhead]

/-- With fuel for every code point a text is cut at every occurrence. -/
theorem splitFrom_singleton (c : CodePoint) {fuel : Nat} (h : s.length ≤ fuel) :
    splitFrom [c] fuel [] s = List.splitOn c s := by
  induction fuel generalizing s with
  | zero =>
    obtain rfl := List.length_eq_zero_iff.mp (Nat.le_zero.mp h)
    rfl
  | succ fuel ih =>
    rw [splitFrom, findFirst?_singleton]
    split
    case h_1 hnone =>
      have habsent : c ∉ s := fun hc => absurd (List.findIdx?_eq_none_iff.mp hnone c hc) (by simp)
      exact (List.splitOn_eq_singleton habsent).symm
    case h_2 i hi =>
      obtain ⟨hlt, hat, hbefore⟩ := List.findIdx?_eq_some_iff_getElem.mp hi
      have hcut : s = s.take i ++ c :: s.drop (i + 1) := by
        rw [← eq_of_beq hat, List.cons_getElem_drop_succ, List.take_append_drop]
      have hfirst : ∀ d ∈ s.take i, (d == c) = false := by
        intro d hd
        obtain ⟨j, hj, rfl⟩ := List.getElem_of_mem hd
        rw [List.getElem_take]
        simpa using hbefore j (by rw [List.length_take] at hj; omega)
      rw [splitFrom_append, List.length_singleton, ih (by rw [List.length_drop]; omega)]
      conv_rhs => rw [hcut]
      exact (List.splitOnP_append_cons_of_forall_mem hfirst c (beq_self_eq_true c) _).symm

end Stepwise.Text

namespace Stepwise.Program

theorem splitLines_eq_splitOn (source : Text) : splitLines source = List.splitOn 10 source :=
  Text.splitFrom_singleton 10 (Nat.le_refl _)

end Stepwise.Program
