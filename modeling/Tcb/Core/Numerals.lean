import Tcb.Core.Literals
import Mathlib.Data.List.TakeWhile

/-!
# Numbers as they are printed

`printf` writes a number as its digits, without a zero in front, and with a
minus sign in front of a negative one.  The digits are read back as the number,
and what is printed in base ten is a number of the JSON grammar.
-/

namespace Tcb.Numerals

open Tcb.CString
open Tcb.Literals

/-- An integer in base ten; the minus sign is 45. -/
def integer : List Byte → Option ℤ
  | 45 :: digits => (numeral 10 digits).map fun (n : ℕ) => -(n : ℤ)
  | digits => (numeral 10 digits).map fun (n : ℕ) => (n : ℤ)

/-! ## The grammar of numbers in JSON -/

/-- Digits, and nothing else. -/
def isDigits (text : List Byte) : Bool := text ≠ [] ∧ text.all (isDigit 10)

/-- Digits behind a sign that may be missing; `'+'` is 43. -/
def isSigned : List Byte → Bool
  | 43 :: digits => isDigits digits
  | 45 :: digits => isDigits digits
  | digits => isDigits digits

/-- The exponent, which may be missing, behind one of its letters. -/
def isExponent : List Byte → Bool
  | [] => true
  | 101 :: rest => isSigned rest
  | 69 :: rest => isSigned rest
  | _ => false

/-- The digits behind the point, which is 46, and the exponent; both may be
missing. -/
def isFraction : List Byte → Bool
  | 46 :: rest =>
      rest.takeWhile (isDigit 10) ≠ [] ∧ isExponent (rest.dropWhile (isDigit 10))
  | rest => isExponent rest

/-- A number without a sign: no zero stands in front of another digit. -/
def isUnsigned (text : List Byte) : Bool :=
  let whole := text.takeWhile (isDigit 10)
  whole ≠ [] ∧ (whole.head? = some 48 → whole = [48]) ∧
    isFraction (text.dropWhile (isDigit 10))

def isNumber : List Byte → Bool
  | 45 :: text => isUnsigned text
  | text => isUnsigned text

/-! ## Digits -/

section Digits

variable {base n : ℕ}

/-- A digit in a base up to ten is a character between `'0'` and `'9'`. -/
theorem digitChar_range (hn : n < 10) :
    n.digitChar.toNat.toUInt8.toNat = 48 + n := by
  rw [Nat.toNat_digitChar_of_lt_ten hn]
  simp only [UInt8.toNat_ofNat', Nat.reducePow]
  omega

theorem isDigit_digitChar (hbase : base ≤ 10) (hn : n < base) :
    isDigit base n.digitChar.toNat.toUInt8 = true := by
  have hrange := digitChar_range (hn.trans_le hbase)
  simp only [isDigit, digitValue, hrange, decide_eq_true_eq]
  constructor
  · left
    omega
  · rw [if_pos (by omega)]
    omega

theorem digitValue_digitChar (hn : n < 10) : digitValue n.digitChar.toNat.toUInt8 = n := by
  rw [digitValue, digitChar_range hn, if_pos (by omega)]
  omega

theorem ascii_append (left right : List Char) : ascii (left ++ right) = ascii left ++ ascii right :=
  List.map_append

theorem ascii_toDigits_ne_nil (base n : ℕ) : ascii (Nat.toDigits base n) ≠ [] := by
  simp [ascii]

/-- The digits of a number: those of the number without its last digit, and
the last one. -/
theorem ascii_toDigits (hbase : 1 < base) (n : ℕ) :
    ascii (Nat.toDigits base n) =
      if n < base then [n.digitChar.toNat.toUInt8]
      else ascii (Nat.toDigits base (n / base)) ++ [(n % base).digitChar.toNat.toUInt8] := by
  rw [Nat.toDigits_eq_if hbase]
  split
  · rfl
  · exact ascii_append _ _

theorem all_isDigit_toDigits (hbase : 1 < base) (hten : base ≤ 10) (n : ℕ) :
    (ascii (Nat.toDigits base n)).all (isDigit base) = true := by
  induction n using Nat.strong_induction_on with
  | h n ih =>
      rw [ascii_toDigits hbase]
      split
      · rename_i hlt
        rw [List.all_cons, isDigit_digitChar hten hlt]
        rfl
      · have hlast : n % base < base := Nat.mod_lt _ (by omega)
        rw [List.all_append, ih _ (Nat.div_lt_self (by omega) hbase), List.all_cons,
          isDigit_digitChar hten hlast]
        rfl

theorem range_toDigits (hbase : 1 < base) (hten : base ≤ 10) (n : ℕ) :
    ∀ byte ∈ ascii (Nat.toDigits base n), 48 ≤ byte.toNat ∧ byte.toNat < 58 := by
  intro byte hbyte
  have hdigit := List.all_eq_true.mp (all_isDigit_toDigits hbase hten n) byte hbyte
  rw [isDigit, decide_eq_true_eq, digitValue] at hdigit
  obtain ⟨hrange, hvalue⟩ := hdigit
  split at hvalue
  · omega
  · split at hvalue <;> omega

theorem foldl_digitValue_toDigits (hbase : 1 < base) (hten : base ≤ 10) (n : ℕ) :
    (ascii (Nat.toDigits base n)).foldl
      (fun value digit => value * base + digitValue digit) 0 = n := by
  induction n using Nat.strong_induction_on with
  | h n ih =>
      rw [ascii_toDigits hbase]
      split
      · rename_i hlt
        rw [List.foldl_cons, List.foldl_nil, digitValue_digitChar (hlt.trans_le hten)]
        omega
      · have hlast : n % base < base := Nat.mod_lt _ (by omega)
        rw [List.foldl_append, ih _ (Nat.div_lt_self (by omega) hbase), List.foldl_cons,
          List.foldl_nil, digitValue_digitChar (hlast.trans_le hten)]
        exact Nat.div_add_mod' n base

/-- The digits are read back. -/
theorem numeral_toDigits (hbase : 1 < base) (hten : base ≤ 10) (n : ℕ) :
    numeral base (ascii (Nat.toDigits base n)) = some n := by
  rw [numeral, if_pos ⟨ascii_toDigits_ne_nil base n, all_isDigit_toDigits hbase hten n⟩,
    foldl_digitValue_toDigits hbase hten]

/-- Only zero starts with a zero. -/
theorem head_toDigits (hbase : 1 < base) (hten : base ≤ 10) (hn : 0 < n) :
    (ascii (Nat.toDigits base n)).head? ≠ some 48 := by
  induction n using Nat.strong_induction_on with
  | h n ih =>
      rw [ascii_toDigits hbase]
      split
      · rename_i hlt
        intro hhead
        rw [List.head?_cons, Option.some.injEq] at hhead
        have hrange := digitChar_range (hlt.trans_le hten)
        rw [hhead] at hrange
        simp at hrange
        omega
      · rename_i hge
        have hfront := ih (n / base) (Nat.div_lt_self hn hbase)
          (Nat.div_pos (by omega) (by omega))
        rwa [List.head?_append_of_ne_nil _ (ascii_toDigits_ne_nil _ _)]

end Digits

/-! ## Integers -/

/-- `%i`. -/
def printed (value : ℤ) : List Byte :=
  if value < 0 then 45 :: ascii (Nat.toDigits 10 value.natAbs)
  else ascii (Nat.toDigits 10 value.natAbs)

theorem head_toDigits_ne_minus (n : ℕ) : (ascii (Nat.toDigits 10 n)).head? ≠ some 45 := by
  have hall := all_isDigit_toDigits (by decide : 1 < 10) le_rfl n
  intro hhead
  obtain ⟨rest, hrest⟩ := List.head?_eq_some_iff.mp hhead
  rw [hrest, List.all_cons] at hall
  exact absurd hall (by simp [isDigit])

theorem integer_of_head {text : List Byte} (hhead : text.head? ≠ some 45) :
    integer text = (numeral 10 text).map fun (n : ℕ) => (n : ℤ) := by
  cases text with
  | nil => rfl
  | cons byte rest =>
      rw [integer]
      intro digits heq
      rw [List.cons.injEq] at heq
      exact hhead (by rw [heq.1]; rfl)

/-- What `%i` prints is read back. -/
theorem integer_printed (value : ℤ) : integer (printed value) = some value := by
  have hdigits := numeral_toDigits (by decide : 1 < 10) le_rfl value.natAbs
  rw [printed]
  split
  · rw [integer, hdigits, Option.map_some]
    congr 1
    omega
  · rw [integer_of_head (head_toDigits_ne_minus _), hdigits, Option.map_some]
    congr 1
    omega

theorem isUnsigned_toDigits (n : ℕ) : isUnsigned (ascii (Nat.toDigits 10 n)) = true := by
  have hall := all_isDigit_toDigits (by decide : 1 < 10) le_rfl n
  have htake : (ascii (Nat.toDigits 10 n)).takeWhile (isDigit 10) = ascii (Nat.toDigits 10 n) :=
    List.takeWhile_eq_self_iff.mpr (by simpa using hall)
  have hdrop : (ascii (Nat.toDigits 10 n)).dropWhile (isDigit 10) = [] :=
    List.dropWhile_eq_nil_iff.mpr (by simpa using hall)
  simp only [isUnsigned, htake, hdrop, decide_eq_true_eq]
  refine ⟨ascii_toDigits_ne_nil 10 n, ?_, rfl⟩
  intro hhead
  rcases Nat.eq_zero_or_pos n with rfl | hn
  · rfl
  · exact absurd hhead (head_toDigits (by decide) le_rfl hn)

theorem isNumber_of_head {text : List Byte} (hhead : text.head? ≠ some 45) :
    isNumber text = isUnsigned text := by
  cases text with
  | nil => rfl
  | cons byte rest =>
      rw [isNumber]
      intro digits heq
      rw [List.cons.injEq] at heq
      exact hhead (by rw [heq.1]; rfl)

/-- What `%i` prints is a number of JSON. -/
theorem isNumber_printed (value : ℤ) : isNumber (printed value) = true := by
  rw [printed]
  split
  · exact isUnsigned_toDigits _
  · rw [isNumber_of_head (head_toDigits_ne_minus _)]
    exact isUnsigned_toDigits _

end Tcb.Numerals
