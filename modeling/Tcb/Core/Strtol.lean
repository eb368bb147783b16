import Tcb.Core.CString

/-!
# Reading numbers from text

`strtol` as the C library defines it for a base of at most ten: skip white
space, take an optional sign, take digits up to the first byte that is none,
and clamp the value to a 64-bit `long`.  A numeric header field that carries
its own terminator is read without looking behind it.
-/

namespace Tcb.Strtol

open Tcb.CString

variable {ε : Type}

/-- `isspace` in the C locale. -/
def isSpace (byte : Byte) : Bool := byte = 32 || (9 ≤ byte && byte ≤ 13)

def isDigit (base : ℕ) (byte : Byte) : Bool :=
  48 ≤ byte.toNat && byte.toNat < 48 + base

def digitValue (byte : Byte) : ℕ := byte.toNat - 48

/-- The number written by a list of digits, most significant first. -/
def digitsValue (base : ℕ) (digits : List Byte) : ℕ :=
  digits.foldl (fun value digit => value * base + digitValue digit) 0

/-- The digit loop, started from the value read so far. -/
def scanDigits (base value : ℕ) : List Byte → Run ε ℕ
  | [] => Run.fault .outOfBounds
  | byte :: rest =>
      if isDigit base byte then scanDigits base (value * base + digitValue byte) rest
      else .ok value

/-- A `long` has 64 bits; values outside come back as its least or greatest
value. -/
def clampLong (value : ℤ) : ℤ := max (-2 ^ 63) (min (2 ^ 63 - 1) value)

/-- `strtol(text, NULL, base)`. -/
def strtol (base : ℕ) : List Byte → Run ε ℤ
  | [] => Run.fault .outOfBounds
  | byte :: rest =>
      if isSpace byte then strtol base rest
      else if byte = 45 then (fun value : ℕ => clampLong (-(value : ℤ))) <$> scanDigits base 0 rest
      else if byte = 43 then (fun value : ℕ => clampLong (value : ℤ)) <$> scanDigits base 0 rest
      else (fun value : ℕ => clampLong (value : ℤ)) <$> scanDigits base 0 (byte :: rest)

/-- Assigning a `long` to an `int` keeps its low 32 bits. -/
def toInt (value : ℤ) : ℤ := value.bmod (2 ^ 32)

/-- Assigning a `long` to an `unsigned int`. -/
def toUnsigned (value : ℤ) : ℕ := (value % 2 ^ 32).toNat

/-! ## Fields with their own terminator -/

/-- A numeric field as tar writes it: blanks, digits, a NUL or a blank, and
whatever fills the rest of the field. -/
def NumericField (base : ℕ) (field : List Byte) (value : ℕ) : Prop :=
  ∃ blanks digits terminator rest,
    field = List.replicate blanks 32 ++ digits ++ terminator :: rest ∧
    digits ≠ [] ∧ (∀ digit ∈ digits, isDigit base digit = true) ∧
    (terminator = 0 ∨ terminator = 32) ∧ digitsValue base digits = value

theorem scanDigits_append {base : ℕ} {digits : List Byte}
    (hdigits : ∀ digit ∈ digits, isDigit base digit = true)
    {terminator : Byte} (hterminator : isDigit base terminator = false)
    (rest : List Byte) (value : ℕ) :
    (scanDigits base value (digits ++ terminator :: rest) : Run ε ℕ) =
      .ok (digits.foldl (fun value digit => value * base + digitValue digit) value) := by
  induction digits generalizing value with
  | nil => simp [scanDigits, hterminator]
  | cons digit digits ih =>
      simp only [List.cons_append, scanDigits, hdigits digit (by simp), if_true,
        List.foldl_cons]
      exact ih (fun other hmem => hdigits other (by simp [hmem])) _

theorem not_isSpace_of_isDigit {base : ℕ} {byte : Byte}
    (hdigit : isDigit base byte = true) :
    isSpace byte = false ∧ byte ≠ 45 ∧ byte ≠ 43 := by
  simp only [isDigit, Bool.and_eq_true, decide_eq_true_eq] at hdigit
  have hbyte : 48 ≤ byte.toNat := hdigit.1
  refine ⟨?_, ?_, ?_⟩
  · simp only [isSpace, Bool.or_eq_false_iff, decide_eq_false_iff_not,
      Bool.and_eq_false_iff, UInt8.le_iff_toNat_le]
    refine ⟨?_, .inr ?_⟩
    · rintro rfl
      simp at hbyte
    · simp
      omega
  · rintro rfl
    simp at hbyte
  · rintro rfl
    simp at hbyte

theorem strtol_blanks {base blanks : ℕ} {text : List Byte} :
    (strtol base (List.replicate blanks 32 ++ text) : Run ε ℤ) = strtol base text := by
  induction blanks with
  | zero => rfl
  | succ blanks ih =>
      rw [List.replicate_succ, List.cons_append, strtol]
      simpa [isSpace] using ih

theorem not_isDigit_terminator {base : ℕ} {terminator : Byte}
    (hterminator : terminator = 0 ∨ terminator = 32) :
    isDigit base terminator = false := by
  rcases hterminator with rfl | rfl <;> simp [isDigit]

/-- A terminated field is read as its value, whatever follows the field. -/
theorem strtol_numericField {base : ℕ} {field : List Byte} {value : ℕ}
    (hfield : NumericField base field value) (hlong : value < 2 ^ 63)
    (rest : List Byte) :
    (strtol base (field ++ rest) : Run ε ℤ) = .ok (value : ℤ) := by
  obtain ⟨blanks, digits, terminator, tail, rfl, hne, hdigits, hterminator, rfl⟩ := hfield
  rw [List.append_assoc, List.append_assoc, strtol_blanks, List.cons_append]
  obtain ⟨digit, digits, rfl⟩ := List.exists_cons_of_ne_nil hne
  obtain ⟨hspace, hminus, hplus⟩ := not_isSpace_of_isDigit (hdigits digit (by simp))
  rw [List.cons_append, strtol, hspace, ← List.cons_append]
  simp only [Bool.false_eq_true, if_false, hminus, hplus]
  rw [List.cons_append, ← List.cons_append,
    scanDigits_append hdigits (not_isDigit_terminator hterminator), Run.map_ok]
  have hclamp : clampLong (digitsValue base (digit :: digits) : ℤ) =
      digitsValue base (digit :: digits) := by
    rw [clampLong]
    omega
  exact congrArg Except.ok hclamp

theorem ends_scanDigits (base value : ℕ) (text : List Byte) :
    Run.Ends (scanDigits base value text : Run ε ℕ) := by
  induction text generalizing value with
  | nil => simp [scanDigits]
  | cons byte rest ih =>
      rw [scanDigits]
      split
      · exact ih _
      · simp

theorem ends_strtol (base : ℕ) (text : List Byte) :
    Run.Ends (strtol base text : Run ε ℤ) := by
  induction text with
  | nil => simp [strtol]
  | cons byte rest ih =>
      have hdigits : ∀ (f : ℕ → ℤ) bytes,
          Run.Ends (f <$> (scanDigits base 0 bytes : Run ε ℕ)) := by
        intro f bytes
        rw [map_eq_pure_bind]
        exact Run.ends_bind (ends_scanDigits base 0 bytes) (by simp)
      rw [strtol]
      split
      · exact ih
      · split
        · exact hdigits _ _
        · split <;> exact hdigits _ _

theorem scanDigits_returns {base value : ℕ} {text : List Byte} {byte : Byte} (hmem : byte ∈ text)
    (hdigit : isDigit base byte = false) :
    Run.Returns (scanDigits base value text : Run ε ℕ) := by
  induction text generalizing value with
  | nil => simp at hmem
  | cons head text ih =>
      rw [scanDigits]
      split
      · rename_i hhead
        rcases List.mem_cons.mp hmem with rfl | hmem
        · rw [hdigit] at hhead
          exact absurd hhead (by decide)
        · exact ih hmem
      · exact ⟨value, rfl⟩

/-- A byte that no number goes on with ends every number before it. -/
theorem strtol_returns {base : ℕ} {text : List Byte} {byte : Byte} (hmem : byte ∈ text)
    (hspace : isSpace byte = false) (hdigit : isDigit base byte = false)
    (hminus : byte ≠ 45) (hplus : byte ≠ 43) :
    Run.Returns (strtol base text : Run ε ℤ) := by
  have hdigits : ∀ {f : ℕ → ℤ} {bytes : List Byte}, byte ∈ bytes →
      Run.Returns (f <$> (scanDigits base 0 bytes : Run ε ℕ)) := by
    intro f bytes hbytes
    obtain ⟨value, hvalue⟩ : Run.Returns (scanDigits base 0 bytes : Run ε ℕ) :=
      scanDigits_returns hbytes hdigit
    exact ⟨f value, by rw [hvalue, Run.map_ok]⟩
  induction text with
  | nil => simp at hmem
  | cons head text ih =>
      have hbehind : head ≠ byte → byte ∈ text := fun hne =>
        (List.mem_cons.mp hmem).resolve_left hne.symm
      rw [strtol]
      split
      · rename_i hhead
        apply ih (hbehind _)
        rintro rfl
        simp [hspace] at hhead
      · split
        · rename_i hhead
          exact hdigits (hbehind fun heq => hminus (heq ▸ hhead))
        · split
          · rename_i hhead
            exact hdigits (hbehind fun heq => hplus (heq ▸ hhead))
          · exact hdigits hmem

theorem scanDigits_append_right {base value : ℕ} {text : List Byte}
    (hreturns : Run.Returns (scanDigits base value text : Run ε ℕ)) (rest : List Byte) :
    (scanDigits base value (text ++ rest) : Run ε ℕ) = scanDigits base value text := by
  induction text generalizing value with
  | nil => exact absurd hreturns.choose_spec nofun
  | cons byte text ih =>
      rw [scanDigits] at hreturns
      rw [List.cons_append, scanDigits, scanDigits]
      split
      · rename_i hdigit
        rw [if_pos hdigit] at hreturns
        exact ih hreturns
      · rfl

/-- A number that ends inside a text is read without a look behind the text. -/
theorem strtol_append {base : ℕ} {text : List Byte}
    (hreturns : Run.Returns (strtol base text : Run ε ℤ)) (rest : List Byte) :
    (strtol base (text ++ rest) : Run ε ℤ) = strtol base text := by
  induction text with
  | nil => exact absurd hreturns.choose_spec nofun
  | cons byte text ih =>
      have hdigits : ∀ {f : ℕ → ℤ} {bytes : List Byte},
          Run.Returns (f <$> (scanDigits base 0 bytes : Run ε ℕ)) →
          f <$> (scanDigits base 0 (bytes ++ rest) : Run ε ℕ) = f <$> scanDigits base 0 bytes := by
        intro f bytes hmap
        obtain ⟨value, hvalue⟩ := hmap
        obtain ⟨middle, hmiddle, -⟩ := Run.map_eq_ok.mp hvalue
        rw [scanDigits_append_right ⟨middle, hmiddle⟩]
      rw [strtol] at hreturns
      rw [List.cons_append, strtol, strtol]
      split
      · rename_i hspace
        rw [if_pos hspace] at hreturns
        exact ih hreturns
      · rename_i hspace
        rw [if_neg hspace] at hreturns
        split
        · rename_i hminus
          rw [if_pos hminus] at hreturns
          exact hdigits hreturns
        · rename_i hminus
          rw [if_neg hminus] at hreturns
          split
          · rename_i hplus
            rw [if_pos hplus] at hreturns
            exact hdigits hreturns
          · rename_i hplus
            rw [if_neg hplus] at hreturns
            exact hdigits hreturns

theorem toInt_of_lt {value : ℕ} (hvalue : value < 2 ^ 31) :
    toInt (value : ℤ) = value := by
  rw [toInt, Int.bmod_eq_of_le] <;> omega

theorem toUnsigned_of_lt {value : ℕ} (hvalue : value < 2 ^ 32) :
    toUnsigned (value : ℤ) = value := by
  rw [toUnsigned]
  omega

end Tcb.Strtol
