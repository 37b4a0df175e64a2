/-!
# Positional notation

The value of a sequence of digits. A long sequence is cut into halves, so that the numbers that are multiplied are of
like size; `value_eq_foldl` says that this is the same as reading the digits one by one.
-/

namespace Stepwise.Positional

/-- The value of the next `size` digits, read one by one after those that make up `n`, and the digits that remain. -/
def readEach (base : Nat) : (size n : Nat) → List Nat → Nat × List Nat
  | size + 1, n, digit :: rest => readEach base size (n * base + digit) rest
  | _, n, rest => (n, rest)

/-- The value of the next `size` digits, which are halved as often as `depth` allows, and the digits that remain. -/
def readHalved (base : Nat) : (depth size : Nat) → List Nat → Nat × List Nat
  | 0, size, digits => readEach base size 0 digits
  | depth + 1, size, digits =>
    if size ≤ 32 then readEach base size 0 digits
    else
      let (high, digits) := readHalved base depth (size - size / 2) digits
      let (low, digits) := readHalved base depth (size / 2) digits
      (high * Nat.pow base (size / 2) + low, digits)

/-- The value of the digits in the given base, the most significant one first. -/
def value (base : Nat) (digits : List Nat) : Nat := (readHalved base digits.length.log2 digits.length digits).1

abbrev readOn (base n : Nat) (digits : List Nat) : Nat := digits.foldl (fun n digit => n * base + digit) n

theorem readEach_eq (base size n : Nat) (digits : List Nat) :
    readEach base size n digits = (readOn base n (digits.take size), digits.drop size) := by
  induction size generalizing n digits with
  | zero => simp [readEach]
  | succ size ih =>
    cases digits with
    | nil => simp [readEach]
    | cons digit rest => simp [readEach, ih]

theorem readOn_eq (base n : Nat) (digits : List Nat) :
    readOn base n digits = n * Nat.pow base digits.length + readOn base 0 digits := by
  induction digits generalizing n with
  | nil => simp [readOn]
  | cons digit rest ih =>
    have split := ih (n * base + digit)
    have alone := ih (0 * base + digit)
    simp only [readOn, List.foldl_cons] at split alone ⊢
    rw [split, alone]
    simp only [List.length_cons, Nat.pow_eq, Nat.pow_succ, Nat.add_mul, Nat.zero_mul, Nat.zero_add, Nat.mul_assoc,
      Nat.mul_comm base, Nat.add_assoc]

theorem readOn_append (base : Nat) (high low : List Nat) :
    readOn base 0 (high ++ low) = readOn base 0 high * Nat.pow base low.length + readOn base 0 low := by
  rw [← readOn_eq]
  exact List.foldl_append

theorem readHalved_eq (base depth size : Nat) (digits : List Nat) (enough : size ≤ digits.length) :
    readHalved base depth size digits = (readOn base 0 (digits.take size), digits.drop size) := by
  induction depth generalizing size digits with
  | zero => simp [readHalved, readEach_eq]
  | succ depth ih =>
    unfold readHalved
    split
    · simp [readEach_eq]
    · have rest : size / 2 ≤ (digits.drop (size - size / 2)).length := by simp; omega
      have cut : digits.take size
          = digits.take (size - size / 2) ++ (digits.drop (size - size / 2)).take (size / 2) := by
        rw [← List.take_add]
        congr 1
        omega
      have low : ((digits.drop (size - size / 2)).take (size / 2)).length = size / 2 := by simp; omega
      simp only [ih _ _ (show size - size / 2 ≤ digits.length by omega), ih _ _ rest, cut, readOn_append, low,
        List.drop_drop, show size - size / 2 + size / 2 = size by omega]

theorem value_eq_foldl (base : Nat) (digits : List Nat) :
    value base digits = digits.foldl (fun n digit => n * base + digit) 0 := by
  simp [value, readHalved_eq]

end Stepwise.Positional
