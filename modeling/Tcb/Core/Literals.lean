import Tcb.Core.CString

/-!
# Quoted texts and what they stand for

An XML attribute value and a JSON string stand between two quotes in a UTF-8
text.  A reader takes characters off the front until it meets the closing
quote; most characters stand for themselves, some are replaced, and some are
refused.  Whatever is replaced gets no longer, so a text that is read back as
it was written holds only characters that stand for themselves.
-/

namespace Tcb.Literals

open Tcb.CString

/-! ## UTF-8 -/

/-- How many bytes follow a leading byte, and the bits that it carries. -/
def lead (byte : Byte) : Option (ℕ × ℕ) :=
  if byte.toNat < 0x80 then some (0, byte.toNat)
  else if byte.toNat < 0xC0 then none
  else if byte.toNat < 0xE0 then some (1, byte.toNat - 0xC0)
  else if byte.toNat < 0xF0 then some (2, byte.toNat - 0xE0)
  else if byte.toNat < 0xF8 then some (3, byte.toNat - 0xF0)
  else none

def isContinuation (byte : Byte) : Bool := 0x80 ≤ byte.toNat ∧ byte.toNat < 0xC0

/-- The least code point that needs so many bytes behind the first. -/
def minimum : ℕ → ℕ
  | 0 => 0
  | 1 => 0x80
  | 2 => 0x800
  | _ => 0x10000

/-- Surrogates are not characters. -/
def isScalar (c : ℕ) : Bool := c < 0xD800 ∨ 0xE000 ≤ c ∧ c < 0x110000

/-- The character at the front of a text, its bytes, and the rest. -/
def takeChar : List Byte → Option (ℕ × List Byte × List Byte)
  | [] => none
  | byte :: rest =>
      match lead byte with
      | none => none
      | some (count, bits) =>
          let more := rest.take count
          let c := more.foldl (fun c byte => c * 64 + byte.toNat % 64) bits
          if more.length = count ∧ more.all isContinuation ∧ minimum count ≤ c ∧ isScalar c then
            some (c, byte :: more, rest.drop count)
          else none

/-- The bytes of a character. -/
def encodeChar (c : ℕ) : List Byte :=
  if c < 0x80 then [c.toUInt8]
  else if c < 0x800 then [(0xC0 + c / 64).toUInt8, (0x80 + c % 64).toUInt8]
  else if c < 0x10000 then
    [(0xE0 + c / 4096).toUInt8, (0x80 + c / 64 % 64).toUInt8, (0x80 + c % 64).toUInt8]
  else
    [(0xF0 + c / 262144).toUInt8, (0x80 + c / 4096 % 64).toUInt8,
      (0x80 + c / 64 % 64).toUInt8, (0x80 + c % 64).toUInt8]

theorem length_encodeChar_le (c : ℕ) : (encodeChar c).length ≤ 4 := by
  rw [encodeChar]
  split
  · simp
  split
  · simp
  split <;> simp

theorem length_encodeChar_ascii {c : ℕ} (hascii : c < 0x80) : (encodeChar c).length = 1 := by
  rw [encodeChar, if_pos hascii, List.length_singleton]

/-- A character is recognised by its bytes alone, whatever follows them. -/
theorem takeChar_eq_some {input bytes rest : List Byte} {c : ℕ}
    (htake : takeChar input = some (c, bytes, rest)) :
    input = bytes ++ rest ∧ bytes ≠ [] ∧
      ∀ other, takeChar (bytes ++ other) = some (c, bytes, other) := by
  cases input with
  | nil => simp [takeChar] at htake
  | cons byte tail =>
      rw [takeChar] at htake
      cases hlead : lead byte with
      | none => simp [hlead] at htake
      | some pair =>
          obtain ⟨count, bits⟩ := pair
          simp only [hlead] at htake
          split at htake
          · rename_i hvalid
            rw [Option.some.injEq, Prod.mk.injEq, Prod.mk.injEq] at htake
            obtain ⟨rfl, rfl, rfl⟩ := htake
            refine ⟨by simp, by simp, ?_⟩
            intro other
            have hmore : (tail.take count ++ other).take count = tail.take count :=
              List.take_left' hvalid.1
            have hother : (tail.take count ++ other).drop count = other :=
              List.drop_left' hvalid.1
            rw [List.cons_append, takeChar, hlead]
            simp only [hmore, hother]
            rw [if_pos hvalid]
          · simp at htake

theorem takeChar_ascii {byte : Byte} (hascii : byte.toNat < 0x80) (rest : List Byte) :
    takeChar (byte :: rest) = some (byte.toNat, [byte], rest) := by
  have hscalar : isScalar byte.toNat = true := by
    rw [isScalar, decide_eq_true_eq]
    omega
  simp [takeChar, lead, hascii, minimum, hscalar]

theorem lead_zero {byte : Byte} {bits : ℕ} (hlead : lead byte = some (0, bits)) :
    bits = byte.toNat := by
  rw [lead] at hlead
  split at hlead
  · simpa using hlead.symm
  split at hlead
  · simp at hlead
  split at hlead
  · simp at hlead
  split at hlead
  · simp at hlead
  split at hlead <;> simp at hlead

theorem minimum_pos {count : ℕ} (hcount : count ≠ 0) : 0x80 ≤ minimum count := by
  match count, hcount with
  | 1, _ => exact le_rfl
  | 2, _ => exact (by decide : 0x80 ≤ 0x800)
  | _ + 3, _ => exact (by decide : 0x80 ≤ 0x10000)

/-- A character below 128 is a single byte. -/
theorem takeChar_bytes {input bytes rest : List Byte} {byte : Byte}
    (htake : takeChar input = some (byte.toNat, bytes, rest)) (hascii : byte.toNat < 0x80) :
    bytes = [byte] := by
  cases input with
  | nil => simp [takeChar] at htake
  | cons first tail =>
      rw [takeChar] at htake
      cases hlead : lead first with
      | none => simp [hlead] at htake
      | some pair =>
          obtain ⟨count, bits⟩ := pair
          simp only [hlead] at htake
          split at htake
          · rename_i hvalid
            rw [Option.some.injEq, Prod.mk.injEq, Prod.mk.injEq] at htake
            obtain ⟨hc, rfl, -⟩ := htake
            rw [hc] at hvalid
            by_cases hcount : count = 0
            · subst hcount
              rw [List.take_zero, List.foldl_nil, lead_zero hlead, UInt8.toNat_inj] at hc
              rw [hc, List.take_zero]
            · have hmin := minimum_pos hcount
              omega
          · simp at htake

/-- The characters of a text all have a property. -/
inductive AllChars (property : ℕ → Prop) : List Byte → Prop
  | nil : AllChars property []
  | cons {input bytes rest : List Byte} {c : ℕ}
      (htake : takeChar input = some (c, bytes, rest)) (hproperty : property c)
      (hrest : AllChars property rest) : AllChars property input

/-! ## Reading up to the closing quote -/

/-- What a character and the text behind it stand for, and what is left. -/
abbrev Step := ℕ → List Byte → List Byte → Option (List Byte × List Byte)

/-- The text up to the closing quote, and what follows the quote. -/
def readQuoted (quote : ℕ) (step : Step) : ℕ → List Byte → Option (List Byte × List Byte)
  | 0, _ => none
  | fuel + 1, input =>
      match takeChar input with
      | none => none
      | some (c, bytes, rest) =>
          if c = quote then some ([], rest)
          else
            match step c bytes rest with
            | none => none
            | some (out, rest) =>
                (readQuoted quote step fuel rest).map fun read => (out ++ read.1, read.2)

/-- Every character takes up a byte, so the text is fuel enough. -/
def readLiteral (quote : ℕ) (step : Step) (input : List Byte) :
    Option (List Byte × List Byte) :=
  readQuoted quote step input.length input

/-- Plain characters stand for themselves; any other one is refused, stands for
something shorter, or for something else. -/
structure Reads (quote : Byte) (plain : ℕ → Prop) (step : Step) : Prop where
  ascii : quote.toNat < 0x80
  plain_ne : ∀ c, plain c → c ≠ quote.toNat
  plain_step : ∀ c bytes rest, plain c → step c bytes rest = some (bytes, rest)
  other_step : ∀ c bytes rest out after, takeChar bytes = some (c, bytes, []) →
    step c bytes rest = some (out, after) → c ≠ quote.toNat → ¬ plain c →
      ∃ used, rest = used ++ after ∧
      (out.length < bytes.length + used.length ∨
        used = [] ∧ out.length = bytes.length ∧ out ≠ bytes)

section Reads

variable {quote : Byte} {plain : ℕ → Prop} {step : Step}

theorem Reads.readQuoted_plain (hreads : Reads quote plain step) {text : List Byte}
    (hplain : AllChars plain text) (rest : List Byte) {fuel : ℕ}
    (hfuel : text.length < fuel) :
    readQuoted quote.toNat step fuel (text ++ quote :: rest) = some (text, rest) := by
  induction hplain generalizing fuel with
  | nil =>
      obtain ⟨fuel, rfl⟩ := Nat.exists_eq_succ_of_ne_zero (Nat.ne_of_gt hfuel)
      simp [readQuoted, takeChar_ascii hreads.ascii]
  | @cons input bytes after c htake hproperty _ ih =>
      obtain ⟨fuel, rfl⟩ := Nat.exists_eq_succ_of_ne_zero
        (Nat.ne_of_gt (Nat.lt_of_le_of_lt (Nat.zero_le _) hfuel))
      obtain ⟨rfl, hne, hlocal⟩ := takeChar_eq_some htake
      have hlength : 0 < bytes.length := List.length_pos_of_ne_nil hne
      rw [List.length_append] at hfuel
      rw [List.append_assoc, readQuoted, hlocal]
      simp only [if_neg (hreads.plain_ne c hproperty), hreads.plain_step c bytes _ hproperty]
      rw [ih (by omega)]
      rfl

/-- What was read is no longer than what was written, and when it is the same
then it is plain. -/
theorem Reads.readQuoted_eq_some (hreads : Reads quote plain step) {fuel : ℕ}
    {input out rest : List Byte}
    (hread : readQuoted quote.toNat step fuel input = some (out, rest)) :
    ∃ used, input = used ++ quote :: rest ∧ out.length ≤ used.length ∧
      (out = used → AllChars plain used) := by
  induction fuel generalizing input out with
  | zero => simp [readQuoted] at hread
  | succ fuel ih =>
      rw [readQuoted] at hread
      cases htake : takeChar input with
      | none => simp [htake] at hread
      | some taken =>
          obtain ⟨c, bytes, behind⟩ := taken
          obtain ⟨rfl, hne, hlocal⟩ := takeChar_eq_some htake
          simp only [htake] at hread
          by_cases hquote : c = quote.toNat
          · subst hquote
            rw [if_pos rfl, Option.some.injEq, Prod.mk.injEq] at hread
            obtain ⟨rfl, rfl⟩ := hread
            rw [takeChar_bytes htake hreads.ascii]
            exact ⟨[], rfl, le_rfl, fun _ => .nil⟩
          · rw [if_neg hquote] at hread
            cases hstep : step c bytes behind with
            | none => simp [hstep] at hread
            | some result =>
                obtain ⟨front, after⟩ := result
                simp only [hstep, Option.map_eq_some_iff, Prod.mk.injEq, Prod.exists] at hread
                obtain ⟨more, _, hmore, rfl, rfl⟩ := hread
                obtain ⟨used, rfl, hlength, hsame⟩ := ih hmore
                by_cases hplain : plain c
                · rw [hreads.plain_step c bytes _ hplain, Option.some.injEq,
                    Prod.mk.injEq] at hstep
                  obtain ⟨rfl, rfl⟩ := hstep
                  refine ⟨bytes ++ used, by simp, by simpa using hlength, ?_⟩
                  intro heq
                  exact .cons (hlocal used) hplain (hsame (List.append_cancel_left heq))
                · obtain ⟨skipped, rfl, hshort⟩ :=
                    hreads.other_step c bytes behind front _
                      (by simpa using hlocal []) hstep hquote hplain
                  refine ⟨bytes ++ skipped ++ used, by simp, ?_, ?_⟩
                  · simp only [List.length_append]
                    omega
                  · intro heq
                    rcases hshort with hshort | ⟨rfl, hshort, hother⟩
                    · have htotal := congrArg List.length heq
                      simp only [List.length_append] at htotal
                      omega
                    · rw [List.append_nil] at heq
                      exact absurd (List.append_inj_left heq hshort) hother

/-- A text between quotes is read back as it is exactly when it is plain. -/
theorem Reads.readLiteral_iff (hreads : Reads quote plain step) (text rest : List Byte) :
    readLiteral quote.toNat step (text ++ quote :: rest) = some (text, rest) ↔
      AllChars plain text := by
  constructor
  · intro hread
    obtain ⟨used, hused, -, hsame⟩ := hreads.readQuoted_eq_some hread
    have htext : text = used := List.append_cancel_right hused
    exact htext ▸ hsame htext
  · intro hplain
    apply hreads.readQuoted_plain hplain
    rw [List.length_append, List.length_cons]
    omega

end Reads

/-! ## XML attribute values -/

/-- `Char` of XML, among the characters that UTF-8 can hold. -/
def isXmlChar (c : ℕ) : Bool :=
  c = 9 ∨ c = 10 ∨ c = 13 ∨ 32 ≤ c ∧ c ≠ 0xFFFE ∧ c ≠ 0xFFFF

/-- The value of a digit, which may be a letter. -/
def digitValue (byte : Byte) : ℕ :=
  if byte.toNat < 58 then byte.toNat - 48
  else if byte.toNat < 97 then byte.toNat - 55 else byte.toNat - 87

def isDigit (base : ℕ) (byte : Byte) : Bool :=
  (48 ≤ byte.toNat ∧ byte.toNat < 58 ∨ 65 ≤ byte.toNat ∧ byte.toNat < 71 ∨
    97 ≤ byte.toNat ∧ byte.toNat < 103) ∧ digitValue byte < base

def numeral (base : ℕ) (digits : List Byte) : Option ℕ :=
  if digits ≠ [] ∧ digits.all (isDigit base) then
    some (digits.foldl (fun value digit => value * base + digitValue digit) 0)
  else none

/-- The character with a number; `'x'` is 120. -/
def numbered : List Byte → Option ℕ
  | 120 :: digits => (numeral 16 digits).filter fun c => isXmlChar c ∧ isScalar c
  | digits => (numeral 10 digits).filter fun c => isXmlChar c ∧ isScalar c

/-- A character by its number; `'#'` is 35. -/
def numberedEntity : List Byte → Option ℕ
  | 35 :: rest => numbered rest
  | _ => none

/-- The five entities that are predefined, and characters by their number. -/
def entity (name : List Byte) : Option ℕ :=
  if name = ascii ['l', 't'] then some 60
  else if name = ascii ['g', 't'] then some 62
  else if name = ascii ['a', 'm', 'p'] then some 38
  else if name = ascii ['a', 'p', 'o', 's'] then some 39
  else if name = ascii ['q', 'u', 'o', 't'] then some 34
  else numberedEntity name

/-- A reference behind its `'&'`, up to the semicolon, which is 59. -/
def readReference (rest : List Byte) : Option (List Byte × List Byte) :=
  let name := rest.takeWhile (· ≠ 59)
  match rest.drop name.length with
  | [] => none
  | _ :: after => (entity name).map fun c => (encodeChar c, after)

/-- The end of a line may be written with two characters. -/
def lineEnd : List Byte → List Byte
  | 10 :: after => after
  | rest => rest

/-- `'<'` may not occur, `'&'` starts a reference, and white space is turned
into blanks, the end of a line of two characters into one. -/
def xmlStep : Step := fun c bytes rest =>
  if c = 60 then none
  else if c = 38 then readReference rest
  else if c = 9 ∨ c = 10 then some ([32], rest)
  else if c = 13 then some ([32], lineEnd rest)
  else if isXmlChar c then some (bytes, rest)
  else none

/-- Characters that stand for themselves between single quotes. -/
def plainXml (c : ℕ) : Prop :=
  c ≠ 39 ∧ c ≠ 38 ∧ c ≠ 60 ∧ 32 ≤ c ∧ c ≠ 0xFFFE ∧ c ≠ 0xFFFF

instance : DecidablePred plainXml := fun _ => inferInstanceAs (Decidable (_ ∧ _))

/-- An attribute value between single quotes, behind the first of them. -/
def readAttribute : List Byte → Option (List Byte × List Byte) := readLiteral 39 xmlStep

theorem numeral_eq_some {base value : ℕ} {digits : List Byte}
    (hnumeral : numeral base digits = some value) :
    digits ≠ [] ∧ digits.all (isDigit base) = true ∧
      digits.foldl (fun value digit => value * base + digitValue digit) 0 = value := by
  rw [numeral] at hnumeral
  split at hnumeral
  · rename_i hdigits
    exact ⟨hdigits.1, hdigits.2, by simpa using hnumeral⟩
  · simp at hnumeral

theorem numbered_short {rest : List Byte} {c : ℕ} (hnumber : numbered rest = some c) :
    (encodeChar c).length < rest.length + 3 := by
  have hmost := length_encodeChar_le c
  unfold numbered at hnumber
  split at hnumber
  · rw [Option.filter_eq_some_iff] at hnumber
    have hdigits := List.length_pos_of_ne_nil (numeral_eq_some hnumber.1).1
    simp only [List.length_cons]
    omega
  · rw [Option.filter_eq_some_iff] at hnumber
    obtain ⟨hne, hall, hvalue⟩ := numeral_eq_some hnumber.1
    obtain ⟨digit, more, rfl⟩ := List.exists_cons_of_ne_nil hne
    cases more with
    | nil =>
        simp only [List.all_cons, isDigit, List.all_nil, Bool.and_true,
          decide_eq_true_eq] at hall
        rw [List.foldl_cons, List.foldl_nil] at hvalue
        rw [length_encodeChar_ascii (by omega)]
        simp
    | cons second more =>
        simp only [List.length_cons]
        omega

/-- A reference takes up more bytes than the character that it stands for. -/
theorem entity_short {name : List Byte} {c : ℕ} (hentity : entity name = some c) :
    (encodeChar c).length < name.length + 2 := by
  have hmost := length_encodeChar_le c
  have hnamed : ∀ (text : List Byte) (named : ℕ), name = text → some named = some c →
      2 ≤ text.length → named < 0x80 → (encodeChar c).length < name.length + 2 := by
    intro text named hname hc hlength hascii
    rw [Option.some.injEq] at hc
    rw [← hc, length_encodeChar_ascii hascii, hname]
    omega
  rw [entity] at hentity
  by_cases hlt : name = ascii ['l', 't']
  · exact hnamed _ 60 hlt (by rwa [if_pos hlt] at hentity) (by decide) (by decide)
  by_cases hgt : name = ascii ['g', 't']
  · exact hnamed _ 62 hgt (by rwa [if_neg hlt, if_pos hgt] at hentity) (by decide) (by decide)
  by_cases hamp : name = ascii ['a', 'm', 'p']
  · exact hnamed _ 38 hamp (by rwa [if_neg hlt, if_neg hgt, if_pos hamp] at hentity)
      (by decide) (by decide)
  by_cases hapos : name = ascii ['a', 'p', 'o', 's']
  · exact hnamed _ 39 hapos
      (by rwa [if_neg hlt, if_neg hgt, if_neg hamp, if_pos hapos] at hentity)
      (by decide) (by decide)
  by_cases hquot : name = ascii ['q', 'u', 'o', 't']
  · exact hnamed _ 34 hquot
      (by rwa [if_neg hlt, if_neg hgt, if_neg hamp, if_neg hapos, if_pos hquot] at hentity)
      (by decide) (by decide)
  rw [if_neg hlt, if_neg hgt, if_neg hamp, if_neg hapos, if_neg hquot] at hentity
  unfold numberedEntity at hentity
  split at hentity
  · have hlong := numbered_short hentity
    simp only [List.length_cons]
    omega
  · simp at hentity

theorem readReference_short {rest out after : List Byte}
    (hread : readReference rest = some (out, after)) :
    ∃ used, rest = used ++ after ∧ out.length < used.length + 1 := by
  have hsplit : rest = rest.takeWhile (· ≠ 59) ++
      rest.drop (rest.takeWhile (· ≠ 59)).length :=
    List.prefix_iff_eq_append.mp (List.takeWhile_prefix _) |>.symm
  rw [readReference] at hread
  cases hbehind : rest.drop (rest.takeWhile (· ≠ 59)).length with
  | nil =>
      simp only [hbehind] at hread
      simp at hread
  | cons semicolon behind =>
      simp only [hbehind, Option.map_eq_some_iff, Prod.mk.injEq] at hread
      obtain ⟨c, hentity, rfl, rfl⟩ := hread
      rw [hbehind] at hsplit
      refine ⟨rest.takeWhile (· ≠ 59) ++ [semicolon], by simpa using hsplit, ?_⟩
      have hshort := entity_short hentity
      rw [List.length_append, List.length_singleton]
      omega

theorem reads_xml : Reads 39 plainXml xmlStep where
  ascii := by decide
  plain_ne c hplain := hplain.1
  plain_step c bytes rest hplain := by
    obtain ⟨-, hamp, hless, hlow, hfffe, hffff⟩ := hplain
    have hchar : isXmlChar c = true := by
      rw [isXmlChar, decide_eq_true_eq]
      exact .inr (.inr (.inr ⟨hlow, hfffe, hffff⟩))
    rw [xmlStep, if_neg hless, if_neg hamp, if_neg (by omega), if_neg (by omega), if_pos hchar]
  other_step c bytes rest out after htake hstep hquote hother := by
    have hbytes := List.length_pos_of_ne_nil (takeChar_eq_some htake).2.1
    -- White space becomes a blank, which is as long and not the same.
    have hblank : ∀ byte : Byte, byte.toNat < 32 → c = byte.toNat →
        ([32] : List Byte).length = bytes.length ∧ [32] ≠ bytes := by
      rintro byte hlow rfl
      rw [takeChar_bytes htake (by omega)]
      refine ⟨rfl, ?_⟩
      intro heq
      rw [← (List.cons.inj heq).1] at hlow
      exact absurd hlow (by decide)
    rw [xmlStep] at hstep
    by_cases hless : c = 60
    · simp [hless] at hstep
    rw [if_neg hless] at hstep
    by_cases hamp : c = 38
    · rw [if_pos hamp] at hstep
      obtain ⟨used, hused, hshort⟩ := readReference_short hstep
      exact ⟨used, hused, .inl (by omega)⟩
    rw [if_neg hamp] at hstep
    by_cases hspace : c = 9 ∨ c = 10
    · rw [if_pos hspace, Option.some.injEq, Prod.mk.injEq] at hstep
      obtain ⟨rfl, rfl⟩ := hstep
      refine ⟨[], rfl, .inr ⟨rfl, ?_⟩⟩
      rcases hspace with hc | hc
      · exact hblank 9 (by decide) hc
      · exact hblank 10 (by decide) hc
    rw [if_neg hspace] at hstep
    by_cases hreturn : c = 13
    · rw [if_pos hreturn, Option.some.injEq, Prod.mk.injEq] at hstep
      obtain ⟨rfl, rfl⟩ := hstep
      unfold lineEnd
      split
      · exact ⟨[10], rfl, .inl (by simp; omega)⟩
      · exact ⟨[], rfl, .inr ⟨rfl, hblank 13 (by decide) hreturn⟩⟩
    rw [if_neg hreturn] at hstep
    by_cases hchar : isXmlChar c = true
    · rw [if_pos hchar, Option.some.injEq, Prod.mk.injEq] at hstep
      obtain ⟨rfl, rfl⟩ := hstep
      rw [isXmlChar, decide_eq_true_eq] at hchar
      rw [plainXml] at hother
      have hquote' : c ≠ 39 := hquote
      omega
    · simp [hchar] at hstep

/-! ## JSON strings -/

def hexDigits : List Byte → Option (ℕ × List Byte)
  | a :: b :: c :: d :: rest => (numeral 16 [a, b, c, d]).map fun unit => (unit, rest)
  | _ => none

/-- What follows a high surrogate: `'\\'` is 92 and `'u'` is 117. -/
def readLow (high : ℕ) : List Byte → Option (List Byte × List Byte)
  | 92 :: 117 :: rest => do
      let (low, rest) ← hexDigits rest
      if 0xDC00 ≤ low ∧ low < 0xE000 then
        return (encodeChar (0x10000 + (high - 0xD800) * 1024 + (low - 0xDC00)), rest)
      else none
  | _ => none

/-- An escape behind its backslash. -/
def readEscape : List Byte → Option (List Byte × List Byte)
  | 34 :: rest => some ([34], rest)
  | 92 :: rest => some ([92], rest)
  | 47 :: rest => some ([47], rest)
  | 98 :: rest => some ([8], rest)
  | 102 :: rest => some ([12], rest)
  | 110 :: rest => some ([10], rest)
  | 114 :: rest => some ([13], rest)
  | 116 :: rest => some ([9], rest)
  | 117 :: rest => do
      let (unit, rest) ← hexDigits rest
      if 0xD800 ≤ unit ∧ unit < 0xDC00 then readLow unit rest
      else if isScalar unit then return (encodeChar unit, rest)
      else none
  | _ => none

/-- A backslash starts an escape, and control characters may not occur. -/
def jsonStep : Step := fun c bytes rest =>
  if c = 92 then readEscape rest
  else if c < 32 then none
  else some (bytes, rest)

/-- Characters that stand for themselves between double quotes. -/
def plainJson (c : ℕ) : Prop := c ≠ 34 ∧ c ≠ 92 ∧ 32 ≤ c

instance : DecidablePred plainJson := fun _ => inferInstanceAs (Decidable (_ ∧ _))

/-- A string between double quotes, behind the first of them. -/
def readString : List Byte → Option (List Byte × List Byte) := readLiteral 34 jsonStep

theorem hexDigits_eq_some {input rest : List Byte} {unit : ℕ}
    (hread : hexDigits input = some (unit, rest)) :
    ∃ digits, digits.length = 4 ∧ input = digits ++ rest := by
  unfold hexDigits at hread
  split at hread
  · rename_i a b c d tail
    rw [Option.map_eq_some_iff] at hread
    obtain ⟨value, -, hread⟩ := hread
    rw [Prod.mk.injEq] at hread
    exact ⟨[a, b, c, d], rfl, by rw [hread.2]; rfl⟩
  · simp at hread

theorem readLow_short {high : ℕ} {input out rest : List Byte}
    (hread : readLow high input = some (out, rest)) :
    ∃ used, input = used ++ rest ∧ out.length ≤ used.length := by
  unfold readLow at hread
  split at hread
  · rename_i tail
    simp only [Option.bind_eq_bind, Option.bind_eq_some_iff, Prod.exists] at hread
    obtain ⟨low, behind, hdigits, hread⟩ := hread
    split at hread
    · rw [Option.pure_def, Option.some.injEq, Prod.mk.injEq] at hread
      obtain ⟨rfl, rfl⟩ := hread
      obtain ⟨digits, hlength, rfl⟩ := hexDigits_eq_some hdigits
      refine ⟨92 :: 117 :: digits, rfl, (length_encodeChar_le _).trans ?_⟩
      simp only [List.length_cons]
      omega
    · simp at hread
  · simp at hread

/-- An escape takes up more bytes than what it stands for. -/
theorem readEscape_short {input out rest : List Byte}
    (hread : readEscape input = some (out, rest)) :
    ∃ used, input = used ++ rest ∧ out.length < used.length + 1 := by
  have hsimple : ∀ (byte : Byte) (tail : List Byte) (value : Byte), input = byte :: tail →
      some ([value], tail) = some (out, rest) →
      ∃ used, input = used ++ rest ∧ out.length < used.length + 1 := by
    intro byte tail value hinput hsame
    rw [Option.some.injEq, Prod.mk.injEq] at hsame
    obtain ⟨rfl, rfl⟩ := hsame
    exact ⟨[byte], hinput, by simp⟩
  unfold readEscape at hread
  split at hread
  · exact hsimple _ _ _ rfl hread
  · exact hsimple _ _ _ rfl hread
  · exact hsimple _ _ _ rfl hread
  · exact hsimple _ _ _ rfl hread
  · exact hsimple _ _ _ rfl hread
  · exact hsimple _ _ _ rfl hread
  · exact hsimple _ _ _ rfl hread
  · exact hsimple _ _ _ rfl hread
  · rename_i tail
    simp only [Option.bind_eq_bind, Option.bind_eq_some_iff, Prod.exists] at hread
    obtain ⟨unit, behind, hdigits, hread⟩ := hread
    obtain ⟨digits, hlength, rfl⟩ := hexDigits_eq_some hdigits
    split at hread
    · obtain ⟨used, rfl, hshort⟩ := readLow_short hread
      refine ⟨117 :: (digits ++ used), by simp, ?_⟩
      simp only [List.length_cons, List.length_append]
      omega
    · split at hread
      · rw [Option.pure_def, Option.some.injEq, Prod.mk.injEq] at hread
        obtain ⟨rfl, rfl⟩ := hread
        refine ⟨117 :: digits, rfl, (length_encodeChar_le _).trans_lt ?_⟩
        simp only [List.length_cons]
        omega
      · simp at hread
  · simp at hread

theorem reads_json : Reads 34 plainJson jsonStep where
  ascii := by decide
  plain_ne c hplain := hplain.1
  plain_step c bytes rest hplain := by
    obtain ⟨-, hescape, hlow⟩ := hplain
    rw [jsonStep, if_neg hescape, if_neg (by omega)]
  other_step c bytes rest out after htake hstep hquote hother := by
    have hbytes := List.length_pos_of_ne_nil (takeChar_eq_some htake).2.1
    rw [jsonStep] at hstep
    by_cases hescape : c = 92
    · rw [if_pos hescape] at hstep
      obtain ⟨used, hused, hshort⟩ := readEscape_short hstep
      exact ⟨used, hused, .inl (by omega)⟩
    rw [if_neg hescape] at hstep
    by_cases hlow : c < 32
    · simp [hlow] at hstep
    · have hquote' : c ≠ 34 := hquote
      rw [plainJson] at hother
      omega

/-- An attribute value is read back as it is exactly when it is plain. -/
theorem readAttribute_iff (text rest : List Byte) :
    readAttribute (text ++ 39 :: rest) = some (text, rest) ↔ AllChars plainXml text :=
  reads_xml.readLiteral_iff text rest

/-- A string is read back as it is exactly when it is plain. -/
theorem readString_iff (text rest : List Byte) :
    readString (text ++ 34 :: rest) = some (text, rest) ↔ AllChars plainJson text :=
  reads_json.readLiteral_iff text rest

end Tcb.Literals
