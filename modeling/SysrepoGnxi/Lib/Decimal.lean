import Mathlib.Algebra.Order.Field.Rat
import Mathlib.Data.Nat.Digits.Defs
import SysrepoGnxi.Lib.JsonText

/-!
# Decimal Text

The number that a text denotes (`read`): digits, with a point and further digits after them
or without, and with a minus sign before them or without. `read_fixed` reads a text whose
digits after the point are filled up with zeros.
-/

namespace DecimalText

open JsonText

/-- The number of a text without a sign. -/
def readUnsigned (cs : List Char) : Option ℚ :=
  match readNat cs with
  | some (n, []) => some n
  | some (n, '.' :: digits) =>
      match readNat digits with
      | some (m, []) => some (n + m / 10 ^ digits.length)
      | _ => none
  | _ => none

/-- The number that a text denotes. -/
def read (s : String) : Option ℚ :=
  match s.toList with
  | '-' :: cs => (readUnsigned cs).map fun q => -q
  | cs => readUnsigned cs

/-- The digits of a number, after some zeros. -/
def padded (k n : ℕ) : List Char := List.replicate k '0' ++ n.repr.toList

/-- Zeros before the digits of a number do not change it. -/
theorem readNat_padded (k n : ℕ) : readNat (padded k n) = some (n, []) := by
  have hdigits : ∀ c ∈ padded k n, c.isDigit = true := by
    intro c hc
    rcases List.mem_append.mp hc with hc | hc
    · obtain rfl := List.eq_of_mem_replicate hc
      decide
    · exact isDigit_repr n c hc
  have hne : padded k n ≠ [] := by
    rw [padded, Nat.toList_repr]
    exact List.append_ne_nil_of_right_ne_nil _ Nat.toDigits_ne_nil
  have hvalue : Nat.ofDigitChars 10 (padded k n) 0 = n := by
    rw [padded, Nat.ofDigitChars_append, Nat.ofDigitChars_replicate_zero, Nat.mul_zero,
      Nat.toList_repr, Nat.ofDigitChars_ten_toDigits]
  have hends : Ends [] := by simp [Ends]
  have hread := readNat_append hdigits hne hends
  rwa [List.append_nil, hvalue] at hread

/-- A number with a point in it. -/
theorem readUnsigned_point (n k m : ℕ) :
    readUnsigned (n.repr.toList ++ '.' :: padded k m) =
      some ((n : ℚ) + m / 10 ^ (padded k m).length) := by
  have hpoint : Ends ('.' :: padded k m) := ends_cons (by decide)
  simp only [readUnsigned, readNat_repr n hpoint, readNat_padded]

/-- A text that does not start with a minus sign. -/
theorem read_of_digit {s : String} {c : Char} {cs : List Char} (hs : s.toList = c :: cs)
    (hc : c.isDigit = true) : read s = readUnsigned s.toList := by
  have hminus : c ≠ '-' := by
    rintro rfl
    exact absurd hc (by decide)
  rw [read, hs]
  split
  · next heq => exact absurd (List.cons.inj heq).1 hminus
  · rfl

/-- **A text with a point is read back**, with a sign and without. -/
theorem read_fixed (negative : Bool) (n k m : ℕ) :
    read ((if negative then "-" else "") ++ toString n ++ "." ++ String.ofList (padded k m)) =
      some ((if negative then -1 else 1) * ((n : ℚ) + m / 10 ^ (padded k m).length)) := by
  have hunsigned := readUnsigned_point n k m
  cases negative with
  | true =>
      have htext : ((if true then "-" else "") ++ toString n ++ "." ++
          String.ofList (padded k m)).toList = '-' :: (n.repr.toList ++ '.' :: padded k m) := by
        simp
      rw [read, htext]
      simp only [hunsigned, Option.map_some, if_true, neg_one_mul]
  | false =>
      have htext : ((if false then "-" else "") ++ toString n ++ "." ++
          String.ofList (padded k m)).toList = n.repr.toList ++ '.' :: padded k m := by
        simp
      cases hrepr : n.repr.toList with
      | nil =>
          rw [Nat.toList_repr] at hrepr
          exact absurd hrepr Nat.toDigits_ne_nil
      | cons c cs =>
          have hc : c.isDigit = true := isDigit_repr n c (by rw [hrepr]; exact List.mem_cons_self)
          rw [read_of_digit (htext.trans (by rw [hrepr]; rfl)) hc, htext, hunsigned]
          simp only [Bool.false_eq_true, if_false, one_mul]

end DecimalText
