import Tcb.Core.Json
import Tcb.Core.Numerals
import Tcb.Core.Scanning

/-!
# JSON at the level of bytes

A lexer takes the tokens of a JSON text off its front.  White space is skipped,
a string is read up to its closing quote with every escape resolved, and a
number is the longest run of characters that numbers are made of.  The bytes of
a sequence of tokens give back the tokens that carry meaning, if the strings
are plain, the numbers are numbers, and no number touches another one.
-/

namespace Tcb.JsonText

open Tcb.CString
open Tcb.Literals
open Tcb.Numerals
open Tcb.Scanning
open Tcb.Json

/-- The characters that a number may be made of: digits, the signs, the point
and the letters of the exponent. -/
def isNumeric (byte : Byte) : Bool :=
  isDigit 10 byte ∨ byte = 43 ∨ byte = 45 ∨ byte = 46 ∨ byte = 69 ∨ byte = 101

/-- The characters that are tokens by themselves. -/
def punctuation : List (Byte × Token) :=
  [(123, .lbrace), (125, .rbrace), (91, .lbracket), (93, .rbracket), (58, .colon), (44, .comma)]

/-- One round of the lexer: the token at the front, if it carries meaning, and
what is behind it. -/
def next (input : List Byte) : Option (Option Token × List Byte) :=
  match input with
  | [] => none
  | byte :: rest =>
      if isBlank byte then some (none, rest)
      else if byte = 34 then (readString rest).map fun read => (some (.string read.1), read.2)
      else if isNumeric byte then
        if isNumber ((byte :: rest).takeWhile isNumeric) then
          some (some (.number ((byte :: rest).takeWhile isNumeric)),
            (byte :: rest).dropWhile isNumeric)
        else none
      else (punctuation.lookup byte).map fun token => (some token, rest)

def lex : ℕ → List Byte → Option (List Token)
  | _, [] => some []
  | 0, _ => none
  | fuel + 1, byte :: rest => do
      let (token, rest) ← next (byte :: rest)
      let tokens ← lex fuel rest
      return token.toList ++ tokens

/-- The value of a whole text. -/
def read (text : List Byte) : Option Value := do
  let tokens ← lex text.length text
  parse tokens

/-! ## Tokens as they are written -/

/-- The bytes of a token spell it. -/
def Spelled : Token → Prop
  | .string text => AllChars plainJson text
  | .number lexeme => isNumber lexeme = true ∧ lexeme.all isNumeric = true
  | .space text => text.all isBlank = true
  | _ => True

def isNumberToken : Token → Bool
  | .number _ => true
  | _ => false

/-- No number follows a number. -/
def Apart (tokens : List Token) : Prop :=
  tokens.IsChain fun left right => isNumberToken left → ¬ isNumberToken right

/-- What `%i` prints is a number. -/
theorem spelled_printed (value : ℤ) : Spelled (.number (printed value)) := by
  refine ⟨isNumber_printed value, ?_⟩
  have hdigits : (ascii (Nat.toDigits 10 value.natAbs)).all isNumeric = true := by
    have hall := all_isDigit_toDigits (by decide : 1 < 10) le_rfl value.natAbs
    rw [List.all_eq_true] at hall ⊢
    intro byte hbyte
    simp [isNumeric, hall byte hbyte]
  rw [printed]
  split
  · rw [List.all_cons, hdigits]
    rfl
  · exact hdigits

section Lexing

variable {tokens rest : List Token} {token : Token} {input behind : List Byte} {fuel : ℕ}

theorem isNumber_ne_nil {lexeme : List Byte} (hnumber : isNumber lexeme = true) :
    lexeme ≠ [] := by
  rintro rfl
  exact absurd hnumber (by decide)

theorem isBlank_not_numeric {byte : Byte} (hblank : isBlank byte = true) :
    isNumeric byte = false := by
  rw [isBlank, decide_eq_true_eq] at hblank
  rcases hblank with rfl | rfl | rfl | rfl <;> decide

theorem isNumeric_not_blank {byte : Byte} (hnumeric : isNumeric byte = true) :
    isBlank byte = false ∧ byte ≠ 34 := by
  constructor
  · rw [← Bool.not_eq_true]
    intro hblank
    rw [isBlank_not_numeric hblank] at hnumeric
    exact Bool.false_ne_true hnumeric
  · rintro rfl
    exact absurd hnumeric (by decide)

/-- A number is taken whole when no more of it can follow. -/
theorem next_number {lexeme : List Byte} (hnumber : isNumber lexeme = true)
    (hall : lexeme.all isNumeric = true)
    (hbehind : ∀ byte ∈ behind.head?, isNumeric byte = false) :
    next (lexeme ++ behind) = some (some (.number lexeme), behind) := by
  have htake : (lexeme ++ behind).takeWhile isNumeric = lexeme := takeWhile_run hall hbehind
  have hdrop : (lexeme ++ behind).dropWhile isNumeric = behind := dropWhile_run hall hbehind
  obtain ⟨byte, more, rfl⟩ := List.exists_cons_of_ne_nil (isNumber_ne_nil hnumber)
  rw [List.all_cons, Bool.and_eq_true] at hall
  obtain ⟨hblank, hquote⟩ := isNumeric_not_blank hall.1
  rw [List.cons_append] at htake hdrop ⊢
  simp only [next, hblank, Bool.false_eq_true, if_false, hquote, hall.1, if_true, htake, hdrop,
    hnumber]

theorem next_string {text : List Byte} (hplain : AllChars plainJson text) (behind : List Byte) :
    next (34 :: (text ++ 34 :: behind)) = some (some (.string text), behind) := by
  have hread := (readString_iff text behind).mpr hplain
  simp only [next, hread, Option.map_some]
  rfl

theorem lex_of_next (hnext : next input = some (some token, behind))
    (hlex : lex fuel behind = some tokens) : lex (fuel + 1) input = some (token :: tokens) := by
  cases input with
  | nil => simp [next] at hnext
  | cons byte rest => simp [lex, hnext, hlex]

/-- Blanks are skipped. -/
theorem lex_blanks {text : List Byte} (hblank : text.all isBlank = true)
    (hlex : lex fuel behind = some tokens) :
    lex (fuel + text.length) (text ++ behind) = some tokens := by
  induction text with
  | nil => exact hlex
  | cons byte text ih =>
      rw [List.all_cons, Bool.and_eq_true] at hblank
      rw [List.length_cons, ← Nat.add_assoc, List.cons_append, lex]
      simp [next, hblank.1, ih hblank.2]

/-- The first byte behind a number. -/
theorem head_not_numeric (hspelled : ∀ token ∈ tokens, Spelled token)
    (hhead : ∀ token ∈ (significant tokens).head?, isNumberToken token = false) :
    ∀ byte ∈ (tokens.flatMap Token.bytes).head?, isNumeric byte = false := by
  induction tokens with
  | nil => simp
  | cons token tokens ih =>
      have hfirst : Spelled token := hspelled token List.mem_cons_self
      have hrest : ∀ token ∈ tokens, Spelled token :=
        fun token hmem => hspelled token (List.mem_cons_of_mem _ hmem)
      cases token with
      | space text =>
          cases text with
          | nil => exact ih hrest hhead
          | cons byte text =>
              rw [Spelled, List.all_cons, Bool.and_eq_true] at hfirst
              intro first hfirst'
              rw [List.flatMap_cons, Token.bytes, List.cons_append, List.head?_cons,
                Option.mem_some_iff] at hfirst'
              exact hfirst' ▸ isBlank_not_numeric hfirst.1
      | number lexeme => exact absurd (hhead (.number lexeme) rfl).symm Bool.false_ne_true
      | string text =>
          intro first hfirst'
          rw [List.flatMap_cons, Token.bytes, List.cons_append, List.cons_append, List.head?_cons,
            Option.mem_some_iff] at hfirst'
          rw [← hfirst']
          decide
      | _ =>
          intro first hfirst'
          simp only [List.flatMap_cons, Token.bytes, ascii, List.map_cons, List.map_nil,
            List.cons_append, List.head?_cons, Option.mem_some_iff] at hfirst'
          rw [← hfirst']
          decide

/-- A character that is a token by itself. -/
theorem next_punctuation {byte : Byte} (hmem : (byte, token) ∈ punctuation)
    (behind : List Byte) : next (byte :: behind) = some (some token, behind) := by
  have hall : ∀ pair ∈ punctuation, isBlank pair.1 = false ∧ pair.1 ≠ 34 ∧
      isNumeric pair.1 = false ∧ punctuation.lookup pair.1 = some pair.2 := by
    decide
  obtain ⟨hblank, hquote, hnumeric, hlookup⟩ := hall _ hmem
  simp only at hblank hquote hnumeric hlookup
  simp only [next, hblank, hquote, hnumeric, Bool.false_eq_true, if_false, hlookup,
    Option.map_some]

theorem length_bytes_pos (hspelled : Spelled token) (hspace : token.isSpace = false) :
    0 < token.bytes.length := by
  cases token with
  | number lexeme => exact List.length_pos_of_ne_nil (isNumber_ne_nil hspelled.1)
  | space text => exact absurd hspace.symm Bool.false_ne_true
  | string text => simp [Token.bytes]
  | _ => decide

/-- One token that carries meaning, before bytes that do not belong to it. -/
theorem next_bytes (hspelled : Spelled token) (hspace : token.isSpace = false)
    (hbehind : isNumberToken token → ∀ byte ∈ behind.head?, isNumeric byte = false) :
    next (token.bytes ++ behind) = some (some token, behind) := by
  cases token with
  | space text => exact absurd hspace.symm Bool.false_ne_true
  | string text =>
      have hnext := next_string hspelled behind
      rwa [Token.bytes, List.append_assoc, List.singleton_append]
  | number lexeme => exact next_number hspelled.1 hspelled.2 (hbehind rfl)
  | _ => exact next_punctuation (by decide) behind

theorem significant_cons (token : Token) (tokens : List Token) :
    significant (token :: tokens) =
      if token.isSpace then significant tokens else token :: significant tokens := by
  cases hspace : token.isSpace <;> simp [significant, hspace]

/-- The bytes of a sequence of tokens are read back as the tokens that carry
meaning. -/
theorem lex_bytes (hspelled : ∀ token ∈ tokens, Spelled token)
    (hapart : Apart (significant tokens))
    (hfuel : (tokens.flatMap Token.bytes).length ≤ fuel) :
    lex fuel (tokens.flatMap Token.bytes) = some (significant tokens) := by
  induction tokens generalizing fuel with
  | nil => cases fuel <;> rfl
  | cons token tokens ih =>
      have hfirst : Spelled token := hspelled token List.mem_cons_self
      have hrest : ∀ token ∈ tokens, Spelled token :=
        fun token hmem => hspelled token (List.mem_cons_of_mem _ hmem)
      rw [List.flatMap_cons, List.length_append] at hfuel
      rw [List.flatMap_cons, significant_cons]
      rw [significant_cons] at hapart
      cases hspace : token.isSpace with
      | true =>
          rw [hspace, if_pos rfl] at hapart
          rw [if_pos rfl]
          obtain ⟨text, rfl⟩ : ∃ text, token = .space text := by
            cases token <;> first | exact ⟨_, rfl⟩ | exact absurd hspace Bool.false_ne_true
          rw [Token.bytes] at hfuel ⊢
          have hlex := lex_blanks hfirst (ih hrest hapart
            (show _ ≤ fuel - text.length by omega))
          rwa [Nat.sub_add_cancel (by omega)] at hlex
      | false =>
          rw [hspace, if_neg Bool.false_ne_true] at hapart
          rw [if_neg Bool.false_ne_true]
          have hpos := length_bytes_pos hfirst hspace
          obtain ⟨fuel, rfl⟩ := Nat.exists_eq_succ_of_ne_zero (show fuel ≠ 0 by omega)
          have htail : Apart (significant tokens) := hapart.tail
          apply lex_of_next (next_bytes hfirst hspace ?_) (ih hrest htail (by omega))
          intro hnumber
          apply head_not_numeric hrest
          intro second hsecond
          obtain ⟨others, hothers⟩ := List.head?_eq_some_iff.mp hsecond
          rw [hothers] at hapart
          have hnot := hapart.rel hnumber
          exact Bool.not_eq_true _ ▸ hnot

end Lexing

/-! ## Values -/

theorem apart_append {left right : List Token} (hleft : Apart left) (hright : Apart right)
    (hmiddle : ∀ token ∈ right.head?, isNumberToken token = false) : Apart (left ++ right) := by
  refine List.IsChain.append hleft hright ?_
  intro before _ after hafter _
  rw [hmiddle after hafter]
  exact Bool.false_ne_true

theorem apart_cons {token : Token} {tokens : List Token} (htoken : isNumberToken token = false)
    (htokens : Apart tokens) : Apart (token :: tokens) :=
  htokens.cons fun _ _ hnumber => absurd (htoken.symm.trans hnumber) Bool.false_ne_true

theorem head_moreItems (items : List Value) :
    ∀ token ∈ (moreItemTokens items).head?, isNumberToken token = false := by
  cases items with
  | nil => simp [moreItemTokens]
  | cons item rest => simp [moreItemTokens, isNumberToken]

theorem head_moreMembers (members : List (List Byte × Value)) :
    ∀ token ∈ (moreMemberTokens members).head?, isNumberToken token = false := by
  cases members with
  | nil => simp [moreMemberTokens]
  | cons member rest => simp [moreMemberTokens, isNumberToken]

mutual

/-- In the tokens of a value no number follows another one. -/
theorem apart_value : ∀ value : Value, Apart value.tokens
  | .string _ => .singleton _
  | .number _ => .singleton _
  | .array items => by
      rw [Value.tokens]
      apply apart_cons rfl
      exact apart_append (apart_items items) (.singleton _) (by simp [isNumberToken])
  | .object members => by
      rw [Value.tokens]
      apply apart_cons rfl
      exact apart_append (apart_members members) (.singleton _) (by simp [isNumberToken])

theorem apart_items : ∀ items : List Value, Apart (itemTokens items)
  | [] => .nil
  | item :: rest => by
      rw [itemTokens]
      exact apart_append (apart_value item) (apart_moreItems rest) (head_moreItems rest)

theorem apart_moreItems : ∀ items : List Value, Apart (moreItemTokens items)
  | [] => .nil
  | item :: rest => by
      rw [moreItemTokens]
      apply apart_cons rfl
      exact apart_append (apart_value item) (apart_moreItems rest) (head_moreItems rest)

theorem apart_members : ∀ members : List (List Byte × Value), Apart (memberTokens members)
  | [] => .nil
  | (key, value) :: rest => by
      rw [memberTokens]
      apply apart_cons rfl
      apply apart_cons rfl
      exact apart_append (apart_value value) (apart_moreMembers rest) (head_moreMembers rest)

theorem apart_moreMembers : ∀ members : List (List Byte × Value), Apart (moreMemberTokens members)
  | [] => .nil
  | (key, value) :: rest => by
      rw [moreMemberTokens]
      apply apart_cons rfl
      apply apart_cons rfl
      apply apart_cons rfl
      exact apart_append (apart_value value) (apart_moreMembers rest) (head_moreMembers rest)

end

/-- A text that was written for a value, with white space anywhere, is read
back as that value. -/
theorem read_bytes {tokens : List Token} {value : Value}
    (hspelled : ∀ token ∈ tokens, Spelled token)
    (htokens : significant tokens = value.tokens) :
    read (tokens.flatMap Token.bytes) = some value := by
  have hlex : lex (tokens.flatMap Token.bytes).length (tokens.flatMap Token.bytes) =
      some value.tokens := by
    rw [lex_bytes hspelled (htokens ▸ apart_value value) le_rfl, htokens]
  have hagain : significant value.tokens = value.tokens := by
    rw [← htokens]
    simp [significant, List.filter_filter]
  rw [read, hlex]
  exact parse_of_significant hagain

end Tcb.JsonText
