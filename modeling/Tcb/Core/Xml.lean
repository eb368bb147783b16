import Tcb.Core.CString

/-!
# XML at the level of tags

A document is a sequence of tag openings, attributes, tag ends and closing
tags, of which white space carries no meaning.  The parser checks that every
closing tag names the element it closes; an element without content may be
written with an empty-element tag or with two tags.
-/

namespace Tcb.Xml

open Tcb.CString

inductive Token
  | start (tag : List Byte)
  | attr (name value : List Byte)
  | close
  | selfClose
  | finish (tag : List Byte)
  | space (text : List Byte)
  deriving DecidableEq

inductive Element
  | mk (tag : List Byte) (attributes : List (List Byte × List Byte))
      (children : List Element)

/-- The bytes of a token as it is written; an attribute value is put between
single quotes as it is. -/
def Token.bytes : Token → List Byte
  | start tag => 60 :: tag
  | attr name value => 32 :: name ++ ascii ['=', '\''] ++ value ++ ascii ['\'']
  | close => ascii ['>']
  | selfClose => ascii ['/', '>']
  | finish tag => ascii ['<', '/'] ++ tag ++ ascii ['>']
  | space text => text

def Token.isSpace : Token → Bool
  | space _ => true
  | _ => false

/-- The tokens that carry meaning. -/
def significant (tokens : List Token) : List Token :=
  tokens.filter (!·.isSpace)

@[simp]
theorem significant_nil : significant [] = [] := rfl

@[simp]
theorem significant_append (left right : List Token) :
    significant (left ++ right) = significant left ++ significant right := by
  simp [significant]

/-! ## Parsing -/

/-- The attributes in front, and what follows them. -/
def parseAttributes : List Token → List (List Byte × List Byte) × List Token
  | .attr name value :: rest =>
      ((name, value) :: (parseAttributes rest).1, (parseAttributes rest).2)
  | rest => ([], rest)

/-- The elements in front, up to a closing tag or the end. -/
def parseElements : ℕ → List Token → Option (List Element × List Token)
  | 0, tokens => some ([], tokens)
  | fuel + 1, .start tag :: tokens =>
      match parseAttributes tokens with
      | (attributes, .selfClose :: rest) => do
          let (elements, rest) ← parseElements fuel rest
          return (.mk tag attributes [] :: elements, rest)
      | (attributes, .close :: rest) => do
          let (children, rest) ← parseElements fuel rest
          match rest with
          | .finish closing :: rest =>
              if closing = tag then do
                let (elements, rest) ← parseElements fuel rest
                return (.mk tag attributes children :: elements, rest)
              else none
          | _ => none
      | _ => none
  | _ + 1, tokens => some ([], tokens)

/-- Parse a whole document: one element and nothing behind it. -/
def parse (tokens : List Token) : Option Element :=
  match parseElements (significant tokens).length (significant tokens) with
  | some ([element], []) => some element
  | _ => none

/-! ## Writing and reading back -/

def attributeTokens (attributes : List (List Byte × List Byte)) : List Token :=
  attributes.map fun attr => .attr attr.1 attr.2

theorem parseAttributes_append {attributes : List (List Byte × List Byte)}
    {rest : List Token} (hrest : ∀ name value tail, rest ≠ .attr name value :: tail) :
    parseAttributes (attributeTokens attributes ++ rest) = (attributes, rest) := by
  induction attributes with
  | nil =>
      cases rest with
      | nil => rfl
      | cons head tail => cases head <;> simp_all [attributeTokens, parseAttributes]
  | cons attr attributes ih =>
      simp only [attributeTokens, List.map_cons, List.cons_append] at ih ⊢
      simp [parseAttributes, ih]

/-- A sequence of tokens spells a sequence of elements. -/
inductive Spells : List Token → List Element → Prop
  | nil : Spells [] []
  | empty {tag : List Byte} {attributes : List (List Byte × List Byte)}
      {rest : List Token} {elements : List Element} (hrest : Spells rest elements) :
      Spells (.start tag :: (attributeTokens attributes ++ .selfClose :: rest))
        (.mk tag attributes [] :: elements)
  | nested {tag : List Byte} {attributes : List (List Byte × List Byte)}
      {inner rest : List Token} {children elements : List Element}
      (hinner : Spells inner children) (hrest : Spells rest elements) :
      Spells (.start tag :: (attributeTokens attributes ++ .close :: (inner ++
          .finish tag :: rest)))
        (.mk tag attributes children :: elements)

theorem Spells.append {left right : List Token} {elements more : List Element}
    (hleft : Spells left elements) (hright : Spells right more) :
    Spells (left ++ right) (elements ++ more) := by
  induction hleft with
  | nil => exact hright
  | empty hrest ih =>
      simpa only [List.cons_append, List.append_assoc] using Spells.empty ih
  | nested hinner hrest _ ih =>
      simpa only [List.cons_append, List.append_assoc] using Spells.nested hinner ih

/-- What spells a sequence of elements is read back as that sequence, up to
the closing tag that follows it. -/
theorem Spells.parseElements {tokens : List Token} {elements : List Element}
    (hspells : Spells tokens elements) {fuel : ℕ} (hfuel : tokens.length ≤ fuel)
    {rest : List Token} (hrest : ∀ tag tail, rest ≠ .start tag :: tail) :
    parseElements fuel (tokens ++ rest) = some (elements, rest) := by
  induction hspells generalizing fuel rest with
  | nil =>
      cases fuel with
      | zero => rfl
      | succ fuel =>
          cases rest with
          | nil => rfl
          | cons head tail => cases head <;> simp_all [Xml.parseElements]
  | @empty tag attributes after elements hafter ih =>
      cases fuel with
      | zero => simp at hfuel
      | succ fuel =>
          simp only [List.length_cons, List.length_append] at hfuel
          simp only [List.cons_append, List.append_assoc, Xml.parseElements]
          rw [parseAttributes_append (by simp)]
          have hbehind : Xml.parseElements fuel (after ++ rest) = some (elements, rest) :=
            ih (by omega) hrest
          simp [hbehind]
  | @nested tag attributes inner after children elements hinner hafter ihInner ih =>
      cases fuel with
      | zero => simp at hfuel
      | succ fuel =>
          simp only [List.length_cons, List.length_append] at hfuel
          simp only [List.cons_append, List.append_assoc, Xml.parseElements]
          rw [parseAttributes_append (by simp)]
          have hinside : Xml.parseElements fuel (inner ++ .finish tag :: (after ++ rest)) =
              some (children, .finish tag :: (after ++ rest)) :=
            ihInner (by omega) (by simp)
          have hbehind : Xml.parseElements fuel (after ++ rest) = some (elements, rest) :=
            ih (by omega) hrest
          simp [hinside, hbehind]

theorem parse_of_spells {tokens : List Token} {element : Element}
    (hspells : Spells (significant tokens) [element]) : parse tokens = some element := by
  have hparse : parseElements (significant tokens).length (significant tokens ++ []) =
      some ([element], []) := hspells.parseElements le_rfl (by simp)
  rw [List.append_nil] at hparse
  rw [parse, hparse]

end Tcb.Xml
