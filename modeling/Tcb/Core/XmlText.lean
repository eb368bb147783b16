import Tcb.Core.Xml
import Tcb.Core.Literals
import Tcb.Core.Scanning

/-!
# XML at the level of bytes

A lexer takes the tags and the attributes of an XML text off its front.  Inside
a tag it reads attributes, with every reference in a value resolved, up to the
end of the tag; outside of tags it reads tags.  White space is skipped in both
places, and there is no other text between the tags.
-/

namespace Tcb.XmlText

open Tcb.CString
open Tcb.Literals
open Tcb.Scanning
open Tcb.Xml

/-- The letters that the names of tags and attributes are made of. -/
def isLetter (byte : Byte) : Bool :=
  65 ≤ byte.toNat ∧ byte.toNat < 91 ∨ 97 ≤ byte.toNat ∧ byte.toNat < 123

/-- A name and what is behind it; a name is not empty. -/
def takeName (input : List Byte) : Option (List Byte × List Byte) :=
  if input.takeWhile isLetter = [] then none
  else some (input.takeWhile isLetter, input.dropWhile isLetter)

/-- The value of an attribute, behind its name: `'='` is 61 and the quote is
39. -/
def takeValue : List Byte → Option (List Byte × List Byte)
  | 61 :: 39 :: rest => readAttribute rest
  | _ => none

/-- One round of the lexer inside a tag: a token, whether the tag goes on, and
what is behind; `'>'` is 62 and `'/'` is 47. -/
def nextInside : List Byte → Option (Token × Bool × List Byte)
  | 62 :: rest => some (.close, false, rest)
  | 47 :: 62 :: rest => some (.selfClose, false, rest)
  | input => do
      let (name, rest) ← takeName input
      let (value, rest) ← takeValue rest
      return (.attr name value, true, rest)

/-- One round of the lexer outside of tags; `'<'` is 60. -/
def nextOutside : List Byte → Option (Token × Bool × List Byte)
  | 60 :: 47 :: rest => do
      let (tag, rest) ← takeName rest
      match rest with
      | 62 :: rest => return (.finish tag, false, rest)
      | _ => none
  | 60 :: rest => do
      let (tag, rest) ← takeName rest
      return (.start tag, true, rest)
  | _ => none

/-- One round of the lexer in either place. -/
def next (inside : Bool) (input : List Byte) : Option (Token × Bool × List Byte) :=
  if inside then nextInside input else nextOutside input

def lex : ℕ → Bool → List Byte → Option (List Token)
  | _, inside, [] => if inside then none else some []
  | 0, _, _ => none
  | fuel + 1, inside, byte :: rest =>
      if isBlank byte then lex fuel inside rest
      else do
        let (token, inside, rest) ← next inside (byte :: rest)
        let tokens ← lex fuel inside rest
        return token :: tokens

/-- The element of a whole text. -/
def read (text : List Byte) : Option Element := do
  let tokens ← lex text.length false text
  parse tokens

/-! ## Tokens as they are written -/

def IsName (name : List Byte) : Prop := name ≠ [] ∧ name.all isLetter = true

instance (name : List Byte) : Decidable (IsName name) := inferInstanceAs (Decidable (_ ∧ _))

/-- The bytes of a token spell it. -/
def Spelled : Token → Prop
  | .start tag => IsName tag
  | .finish tag => IsName tag
  | .attr name value => IsName name ∧ AllChars plainXml value
  | .space text => text.all isBlank = true
  | _ => True

/-- The tokens stand where they belong, in tags or between them; the flag says
whether the first one stands in a tag. -/
def Placed : Bool → List Token → Prop
  | inside, [] => inside = false
  | inside, .space _ :: rest => Placed inside rest
  | inside, .start _ :: rest => inside = false ∧ Placed true rest
  | inside, .finish _ :: rest => inside = false ∧ Placed false rest
  | inside, .attr _ _ :: rest => inside = true ∧ Placed true rest
  | inside, .close :: rest => inside = true ∧ Placed false rest
  | inside, .selfClose :: rest => inside = true ∧ Placed false rest

section Lexing

variable {tokens rest : List Token} {token : Token} {input behind name value : List Byte}
  {fuel : ℕ} {inside onward : Bool}

theorem takeName_append (hname : IsName name)
    (hbehind : ∀ byte ∈ behind.head?, isLetter byte = false) :
    takeName (name ++ behind) = some (name, behind) := by
  rw [takeName, takeWhile_run hname.2 hbehind, dropWhile_run hname.2 hbehind, if_neg hname.1]

theorem isBlank_not_letter {byte : Byte} (hblank : isBlank byte = true) :
    isLetter byte = false := by
  rw [isBlank, decide_eq_true_eq] at hblank
  rcases hblank with rfl | rfl | rfl | rfl <;> decide

/-- A letter is none of the characters that the lexer looks for first. -/
theorem isLetter_ne {byte : Byte} (hletter : isLetter byte = true) :
    isBlank byte = false ∧ byte ≠ 62 ∧ byte ≠ 47 := by
  have hne : ∀ other : Byte, isLetter other = false → byte ≠ other := by
    rintro other hother rfl
    exact Bool.false_ne_true (hother.symm.trans hletter)
  refine ⟨?_, hne 62 (by decide), hne 47 (by decide)⟩
  rw [← Bool.not_eq_true]
  intro hblank
  rw [isBlank_not_letter hblank] at hletter
  exact Bool.false_ne_true hletter

theorem IsName.cons (hname : IsName name) :
    ∃ byte more, name = byte :: more ∧ isLetter byte = true := by
  obtain ⟨byte, more, rfl⟩ := List.exists_cons_of_ne_nil hname.1
  have hall := hname.2
  rw [List.all_cons, Bool.and_eq_true] at hall
  exact ⟨byte, more, rfl, hall.1⟩

/-- What stands in a tag behind a name does not continue the name. -/
theorem head_inside (hspelled : ∀ token ∈ tokens, Spelled token) (hplaced : Placed true tokens) :
    ∀ byte ∈ (tokens.flatMap Token.bytes).head?, isLetter byte = false := by
  induction tokens with
  | nil => simp
  | cons token tokens ih =>
      have hfirst : Spelled token := hspelled token List.mem_cons_self
      have hrest : ∀ token ∈ tokens, Spelled token :=
        fun token hmem => hspelled token (List.mem_cons_of_mem _ hmem)
      cases token with
      | space text =>
          cases text with
          | nil => exact ih hrest hplaced
          | cons byte text =>
              rw [Spelled, List.all_cons, Bool.and_eq_true] at hfirst
              intro first hfirst'
              rw [List.flatMap_cons, Token.bytes, List.cons_append, List.head?_cons,
                Option.mem_some_iff] at hfirst'
              exact hfirst' ▸ isBlank_not_letter hfirst.1
      | start tag => exact absurd hplaced.1.symm Bool.false_ne_true
      | finish tag => exact absurd hplaced.1.symm Bool.false_ne_true
      | _ =>
          intro first hfirst'
          simp only [List.flatMap_cons, Token.bytes, ascii, List.map_cons, List.map_nil,
            List.cons_append, List.head?_cons, Option.mem_some_iff] at hfirst'
          rw [← hfirst']
          decide

/-! ### One token -/

theorem nextInside_attr (hname : IsName name) (hvalue : AllChars plainXml value)
    (behind : List Byte) :
    nextInside (name ++ 61 :: 39 :: (value ++ 39 :: behind)) =
      some (.attr name value, true, behind) := by
  have htake : takeName (name ++ 61 :: 39 :: (value ++ 39 :: behind)) =
      some (name, 61 :: 39 :: (value ++ 39 :: behind)) :=
    takeName_append hname (by rintro byte ⟨⟩; decide)
  obtain ⟨byte, more, rfl, hletter⟩ := hname.cons
  obtain ⟨-, hclose, hslash⟩ := isLetter_ne hletter
  have hread := (readAttribute_iff value behind).mpr hvalue
  rw [List.cons_append] at htake ⊢
  rw [nextInside, htake]
  · simp [takeValue, hread]
  · intro rest heq
    exact hclose (List.cons.inj heq).1
  · intro rest heq
    exact hslash (List.cons.inj heq).1

theorem nextOutside_finish (hname : IsName name) (behind : List Byte) :
    nextOutside (60 :: 47 :: (name ++ 62 :: behind)) =
      some (.finish name, false, behind) := by
  have htake : takeName (name ++ 62 :: behind) = some (name, 62 :: behind) :=
    takeName_append hname (by rintro byte ⟨⟩; decide)
  simp [nextOutside, htake]

theorem nextOutside_start (hname : IsName name)
    (hbehind : ∀ byte ∈ behind.head?, isLetter byte = false) :
    nextOutside (60 :: (name ++ behind)) = some (.start name, true, behind) := by
  have htake := takeName_append hname hbehind
  obtain ⟨byte, more, rfl, hletter⟩ := hname.cons
  rw [List.cons_append] at htake ⊢
  rw [nextOutside, htake]
  · rfl
  · intro rest heq
    exact (isLetter_ne hletter).2.2 (List.cons.inj heq).1

theorem lex_blank {byte : Byte} (hblank : isBlank byte = true) :
    lex (fuel + 1) inside (byte :: input) = lex fuel inside input := by
  rw [lex, if_pos hblank]

theorem lex_blanks {text : List Byte} (hblank : text.all isBlank = true) :
    lex (fuel + text.length) inside (text ++ behind) = lex fuel inside behind := by
  induction text with
  | nil => rfl
  | cons byte text ih =>
      rw [List.all_cons, Bool.and_eq_true] at hblank
      rw [List.length_cons, ← Nat.add_assoc, List.cons_append, lex_blank hblank.1, ih hblank.2]

/-- A token that is not a blank. -/
theorem lex_token (hhead : ∀ byte ∈ input.head?, isBlank byte = false)
    (hnext : next inside input = some (token, onward, behind))
    (hlex : lex fuel onward behind = some tokens) :
    lex (fuel + 1) inside input = some (token :: tokens) := by
  cases input with
  | nil => cases inside <;> simp [next, nextInside, nextOutside, takeName] at hnext
  | cons byte rest => simp [lex, hhead byte rfl, hnext, hlex]

/-! ### All tokens -/

theorem significant_cons (token : Token) (tokens : List Token) :
    significant (token :: tokens) =
      if token.isSpace then significant tokens else token :: significant tokens := by
  cases hspace : token.isSpace <;> simp [significant, hspace]

/-- The bytes of tokens that stand where they belong are read back as the
tokens that carry meaning. -/
theorem lex_bytes (hspelled : ∀ token ∈ tokens, Spelled token) (hplaced : Placed inside tokens)
    (hfuel : (tokens.flatMap Token.bytes).length ≤ fuel) :
    lex fuel inside (tokens.flatMap Token.bytes) = some (significant tokens) := by
  induction tokens generalizing fuel inside with
  | nil =>
      obtain rfl : inside = false := hplaced
      cases fuel <;> rfl
  | cons token tokens ih =>
      have hfirst : Spelled token := hspelled token List.mem_cons_self
      have hrest : ∀ token ∈ tokens, Spelled token :=
        fun token hmem => hspelled token (List.mem_cons_of_mem _ hmem)
      rw [List.flatMap_cons, List.length_append] at hfuel
      rw [List.flatMap_cons, significant_cons]
      cases token with
      | space text =>
          rw [Token.bytes] at hfuel ⊢
          have hlex := ih hrest hplaced (show _ ≤ fuel - text.length by omega)
          rw [← lex_blanks hfirst, Nat.sub_add_cancel (by omega)] at hlex
          exact hlex
      | start tag =>
          obtain ⟨rfl, hplaced⟩ := hplaced
          rw [Token.bytes, List.length_cons] at hfuel
          obtain ⟨fuel, rfl⟩ := Nat.exists_eq_succ_of_ne_zero (show fuel ≠ 0 by omega)
          exact lex_token (by rintro byte ⟨⟩; decide)
            (nextOutside_start hfirst (head_inside hrest hplaced)) (ih hrest hplaced (by omega))
      | finish tag =>
          obtain ⟨rfl, hplaced⟩ := hplaced
          have hbytes : Token.bytes (.finish tag) ++ tokens.flatMap Token.bytes =
              60 :: 47 :: (tag ++ 62 :: tokens.flatMap Token.bytes) := by
            simp [Token.bytes, ascii]
          rw [hbytes]
          rw [Token.bytes, List.length_append, List.length_append, ascii, List.length_map,
            List.length_cons] at hfuel
          obtain ⟨fuel, rfl⟩ := Nat.exists_eq_succ_of_ne_zero (show fuel ≠ 0 by omega)
          exact lex_token (by rintro byte ⟨⟩; decide) (nextOutside_finish hfirst _)
            (ih hrest hplaced (by omega))
      | attr name value =>
          obtain ⟨rfl, hplaced⟩ := hplaced
          have hbytes : Token.bytes (.attr name value) ++ tokens.flatMap Token.bytes =
              32 :: (name ++ 61 :: 39 :: (value ++ 39 :: tokens.flatMap Token.bytes)) := by
            simp [Token.bytes, ascii]
          have hlength := congrArg List.length hbytes
          simp only [List.length_append, List.length_cons] at hlength
          rw [hbytes]
          obtain ⟨fuel, rfl⟩ : ∃ more, fuel = more + 2 := ⟨fuel - 2, by omega⟩
          rw [lex_blank (by decide)]
          obtain ⟨byte, more, hname, hletter⟩ := hfirst.1.cons
          have hnext : next true (name ++ 61 :: 39 :: (value ++ 39 :: tokens.flatMap Token.bytes)) =
              some (.attr name value, true, tokens.flatMap Token.bytes) :=
            nextInside_attr hfirst.1 hfirst.2 _
          refine lex_token ?_ hnext (ih hrest hplaced (by omega))
          rw [hname]
          rintro first ⟨⟩
          exact (isLetter_ne hletter).1
      | close =>
          obtain ⟨rfl, hplaced⟩ := hplaced
          rw [show Token.bytes .close = [62] from rfl, List.length_singleton] at hfuel
          obtain ⟨fuel, rfl⟩ := Nat.exists_eq_succ_of_ne_zero (show fuel ≠ 0 by omega)
          exact lex_token (by rintro byte ⟨⟩; decide) rfl (ih hrest hplaced (by omega))
      | selfClose =>
          obtain ⟨rfl, hplaced⟩ := hplaced
          rw [show Token.bytes .selfClose = [47, 62] from rfl, List.length_cons] at hfuel
          obtain ⟨fuel, rfl⟩ := Nat.exists_eq_succ_of_ne_zero (show fuel ≠ 0 by omega)
          exact lex_token (by rintro byte ⟨⟩; decide) rfl (ih hrest hplaced (by omega))

end Lexing

/-! ## Elements -/

/-- White space stands anywhere. -/
theorem placed_significant (inside : Bool) (tokens : List Token) :
    Placed inside (significant tokens) ↔ Placed inside tokens := by
  induction tokens generalizing inside with
  | nil => rfl
  | cons token tokens ih =>
      rw [significant_cons]
      cases token with
      | space text => exact ih inside
      | _ => exact and_congr_right fun _ => ih _

theorem placed_attributes (attributes : List (List Byte × List Byte)) {rest : List Token}
    (hrest : Placed true rest) : Placed true (attributeTokens attributes ++ rest) := by
  induction attributes with
  | nil => exact hrest
  | cons attr attributes ih => exact ⟨rfl, ih⟩

/-- In what spells a sequence of elements every token stands where it
belongs. -/
theorem placed_spells {tokens rest : List Token} {elements : List Element}
    (hspells : Spells tokens elements) (hrest : Placed false rest) :
    Placed false (tokens ++ rest) := by
  induction hspells generalizing rest with
  | nil => exact hrest
  | empty _ ih =>
      rw [List.cons_append, List.append_assoc, List.cons_append]
      exact ⟨rfl, placed_attributes _ ⟨rfl, ih hrest⟩⟩
  | nested _ _ ihInner ih =>
      rw [List.cons_append, List.append_assoc, List.cons_append, List.append_assoc,
        List.cons_append]
      exact ⟨rfl, placed_attributes _ ⟨rfl, ihInner ⟨rfl, ih hrest⟩⟩⟩

/-- A text that was written for an element, with white space anywhere, is read
back as that element. -/
theorem read_bytes {tokens : List Token} {element : Element}
    (hspelled : ∀ token ∈ tokens, Spelled token)
    (hspells : Spells (significant tokens) [element]) :
    read (tokens.flatMap Token.bytes) = some element := by
  have hplaced : Placed false tokens := by
    have hnone : Placed false ([] : List Token) := rfl
    have hall := placed_spells hspells hnone
    rwa [List.append_nil, placed_significant] at hall
  have hagain : significant (significant tokens) = significant tokens := by
    simp [significant, List.filter_filter]
  rw [read, lex_bytes hspelled hplaced le_rfl]
  exact parse_of_spells (hagain.symm ▸ hspells)

end Tcb.XmlText
