import Tcb.Core.CString

/-!
# JSON at the level of tokens

A JSON text is a sequence of tokens, of which white space carries no meaning.
The parser reads one value by recursive descent; reading the tokens of a value
back gives the value and whatever follows it, so a sequence of tokens belongs
to at most one value.  Strings and numbers are kept as they are written.
-/

namespace Tcb.Json

open Tcb.CString

inductive Token
  | lbrace | rbrace | lbracket | rbracket | colon | comma
  | string (text : List Byte)
  | number (lexeme : List Byte)
  | space (text : List Byte)
  deriving DecidableEq

inductive Value
  | string (text : List Byte)
  | number (lexeme : List Byte)
  | array (items : List Value)
  | object (members : List (List Byte × Value))

/-- The bytes of a token as it is written; a string is put between double
quotes as it is. -/
def Token.bytes : Token → List Byte
  | lbrace => ascii ['{']
  | rbrace => ascii ['}']
  | lbracket => ascii ['[']
  | rbracket => ascii [']']
  | colon => ascii [':']
  | comma => ascii [',']
  | string text => 34 :: text ++ [34]
  | number lexeme => lexeme
  | space text => text

def Token.isSpace : Token → Bool
  | space _ => true
  | _ => false

/-- The tokens that carry meaning. -/
def significant (tokens : List Token) : List Token :=
  tokens.filter (!·.isSpace)

@[simp]
theorem significant_nil : significant [] = [] := rfl

@[simp]
theorem significant_append (left right : List Token) :
    significant (left ++ right) = significant left ++ significant right := by
  simp [significant]

/-! ## The tokens of a value -/

mutual

/-- The tokens of a value, without white space. -/
def Value.tokens : Value → List Token
  | .string text => [.string text]
  | .number lexeme => [.number lexeme]
  | .array items => .lbracket :: (itemTokens items ++ [.rbracket])
  | .object members => .lbrace :: (memberTokens members ++ [.rbrace])

def itemTokens : List Value → List Token
  | [] => []
  | item :: rest => item.tokens ++ moreItemTokens rest

def moreItemTokens : List Value → List Token
  | [] => []
  | item :: rest => .comma :: (item.tokens ++ moreItemTokens rest)

def memberTokens : List (List Byte × Value) → List Token
  | [] => []
  | (key, value) :: rest =>
      .string key :: .colon :: (value.tokens ++ moreMemberTokens rest)

def moreMemberTokens : List (List Byte × Value) → List Token
  | [] => []
  | (key, value) :: rest =>
      .comma :: .string key :: .colon :: (value.tokens ++ moreMemberTokens rest)

end

theorem moreItemTokens_append (left right : List Value) :
    moreItemTokens (left ++ right) = moreItemTokens left ++ moreItemTokens right := by
  induction left with
  | nil => rfl
  | cons item rest ih =>
      rw [List.cons_append, moreItemTokens, moreItemTokens, ih]
      simp

theorem moreMemberTokens_append (left right : List (List Byte × Value)) :
    moreMemberTokens (left ++ right) = moreMemberTokens left ++ moreMemberTokens right := by
  induction left with
  | nil => rfl
  | cons member rest ih =>
      rw [List.cons_append, moreMemberTokens, moreMemberTokens, ih]
      simp

/-- A comma stands between the last of several values and the one before it,
and nowhere else. -/
theorem itemTokens_concat (items : List Value) (last : Value) :
    itemTokens (items ++ [last]) =
      itemTokens items ++ (if items = [] then [] else [.comma]) ++ last.tokens := by
  cases items with
  | nil => simp [itemTokens, moreItemTokens]
  | cons item rest =>
      rw [List.cons_append, itemTokens, itemTokens, moreItemTokens_append]
      simp [moreItemTokens]

/-! ## Parsing -/

mutual

def parseValue : ℕ → List Token → Option (Value × List Token)
  | 0, _ => none
  | _ + 1, .string text :: rest => some (.string text, rest)
  | _ + 1, .number lexeme :: rest => some (.number lexeme, rest)
  | _ + 1, .lbracket :: .rbracket :: rest => some (.array [], rest)
  | fuel + 1, .lbracket :: rest => do
      let (items, rest) ← parseItems fuel rest
      return (.array items, rest)
  | _ + 1, .lbrace :: .rbrace :: rest => some (.object [], rest)
  | fuel + 1, .lbrace :: rest => do
      let (members, rest) ← parseMembers fuel rest
      return (.object members, rest)
  | _ + 1, _ => none

/-- One or more values with commas between them, and the closing bracket. -/
def parseItems : ℕ → List Token → Option (List Value × List Token)
  | 0, _ => none
  | fuel + 1, tokens => do
      let (item, rest) ← parseValue fuel tokens
      match rest with
      | .rbracket :: rest => return ([item], rest)
      | .comma :: rest => do
          let (items, rest) ← parseItems fuel rest
          return (item :: items, rest)
      | _ => none

/-- One or more members with commas between them, and the closing brace. -/
def parseMembers : ℕ → List Token → Option (List (List Byte × Value) × List Token)
  | 0, _ => none
  | fuel + 1, .string key :: .colon :: tokens => do
      let (value, rest) ← parseValue fuel tokens
      match rest with
      | .rbrace :: rest => return ([(key, value)], rest)
      | .comma :: rest => do
          let (members, rest) ← parseMembers fuel rest
          return ((key, value) :: members, rest)
      | _ => none
  | _ + 1, _ => none

end

/-- Parse a whole text: one value and nothing behind it. -/
def parse (tokens : List Token) : Option Value :=
  match parseValue (significant tokens).length (significant tokens) with
  | some (value, []) => some value
  | _ => none

/-- No value starts with a closing bracket or brace. -/
theorem Value.tokens_eq_cons (value : Value) :
    ∃ head tail, value.tokens = head :: tail ∧ head ≠ .rbracket ∧ head ≠ .rbrace := by
  cases value <;> exact ⟨_, _, by rw [Value.tokens], by simp, by simp⟩

theorem parseValue_array {fuel : ℕ} {tokens rest : List Token} {items : List Value}
    (hhead : tokens.head? ≠ some .rbracket)
    (hitems : parseItems fuel tokens = some (items, rest)) :
    parseValue (fuel + 1) (.lbracket :: tokens) = some (.array items, rest) := by
  cases tokens with
  | nil => simp [parseValue, hitems]
  | cons head tail => cases head <;> simp_all [parseValue]

theorem parseValue_object {fuel : ℕ} {tokens rest : List Token}
    {members : List (List Byte × Value)} (hhead : tokens.head? ≠ some .rbrace)
    (hmembers : parseMembers fuel tokens = some (members, rest)) :
    parseValue (fuel + 1) (.lbrace :: tokens) = some (.object members, rest) := by
  cases tokens with
  | nil => simp [parseValue, hmembers]
  | cons head tail => cases head <;> simp_all [parseValue]

/-- The three round trips, together for one amount of fuel. -/
structure RoundTrips (fuel : ℕ) : Prop where
  value : ∀ (value : Value) rest, value.tokens.length ≤ fuel →
    parseValue fuel (value.tokens ++ rest) = some (value, rest)
  items : ∀ (item : Value) items rest,
    (item.tokens ++ moreItemTokens items).length + 1 ≤ fuel →
    parseItems fuel (item.tokens ++ moreItemTokens items ++ .rbracket :: rest) =
      some (item :: items, rest)
  members : ∀ key (value : Value) members rest,
    (value.tokens ++ moreMemberTokens members).length + 3 ≤ fuel →
    parseMembers fuel (.string key :: .colon ::
        (value.tokens ++ moreMemberTokens members ++ .rbrace :: rest)) =
      some ((key, value) :: members, rest)

theorem RoundTrips.succ_value {fuel : ℕ} (htrips : RoundTrips fuel) (value : Value)
    (rest : List Token) (hfuel : value.tokens.length ≤ fuel + 1) :
    parseValue (fuel + 1) (value.tokens ++ rest) = some (value, rest) := by
  cases value with
  | string text => simp [Value.tokens, parseValue]
  | number lexeme => simp [Value.tokens, parseValue]
  | array items =>
      cases items with
      | nil => simp [Value.tokens, itemTokens, parseValue]
      | cons item items =>
          obtain ⟨head, tail, htokens, hhead, -⟩ := item.tokens_eq_cons
          simp only [Value.tokens, itemTokens, List.length_cons, List.length_append,
            List.length_nil] at hfuel
          simp only [Value.tokens, itemTokens, List.cons_append, List.append_assoc,
            List.nil_append]
          refine parseValue_array (by simp [htokens, hhead]) ?_
          have hitems := htrips.items item items rest (by
            simp only [List.length_append]
            omega)
          simpa only [List.append_assoc] using hitems
  | object members =>
      cases members with
      | nil => simp [Value.tokens, memberTokens, parseValue]
      | cons member members =>
          obtain ⟨key, value⟩ := member
          simp only [Value.tokens, memberTokens, List.length_cons, List.length_append,
            List.length_nil] at hfuel
          simp only [Value.tokens, memberTokens, List.cons_append, List.append_assoc,
            List.nil_append]
          refine parseValue_object (by simp) ?_
          have hmembers := htrips.members key value members rest (by
            simp only [List.length_append]
            omega)
          simpa only [List.append_assoc] using hmembers

theorem RoundTrips.succ_items {fuel : ℕ} (htrips : RoundTrips fuel) (item : Value)
    (items : List Value) (rest : List Token)
    (hfuel : (item.tokens ++ moreItemTokens items).length + 1 ≤ fuel + 1) :
    parseItems (fuel + 1) (item.tokens ++ moreItemTokens items ++ .rbracket :: rest) =
      some (item :: items, rest) := by
  simp only [List.length_append] at hfuel
  rw [parseItems, List.append_assoc, htrips.value item _ (by omega)]
  cases items with
  | nil => simp [moreItemTokens]
  | cons next items =>
      simp only [moreItemTokens, List.length_cons, List.length_append] at hfuel
      have hitems := htrips.items next items rest (by
        simp only [List.length_append]
        omega)
      simp only [List.append_assoc] at hitems
      simp [moreItemTokens, hitems]

theorem RoundTrips.succ_members {fuel : ℕ} (htrips : RoundTrips fuel)
    (key : List Byte) (value : Value) (members : List (List Byte × Value))
    (rest : List Token)
    (hfuel : (value.tokens ++ moreMemberTokens members).length + 3 ≤ fuel + 1) :
    parseMembers (fuel + 1) (.string key :: .colon ::
        (value.tokens ++ moreMemberTokens members ++ .rbrace :: rest)) =
      some ((key, value) :: members, rest) := by
  simp only [List.length_append] at hfuel
  rw [parseMembers, List.append_assoc, htrips.value value _ (by omega)]
  cases members with
  | nil => simp [moreMemberTokens]
  | cons next members =>
      obtain ⟨nextKey, nextValue⟩ := next
      simp only [moreMemberTokens, List.length_cons, List.length_append] at hfuel
      have hmembers := htrips.members nextKey nextValue members rest (by
        simp only [List.length_append]
        omega)
      simp only [List.append_assoc] at hmembers
      simp [moreMemberTokens, hmembers]

theorem roundTrips (fuel : ℕ) : RoundTrips fuel := by
  induction fuel with
  | zero =>
      refine ⟨?_, by simp, by simp⟩
      intro value rest hfuel
      obtain ⟨head, tail, htokens, -⟩ := value.tokens_eq_cons
      simp [htokens] at hfuel
  | succ fuel ih => exact ⟨ih.succ_value, ih.succ_items, ih.succ_members⟩

/-- A text whose meaningful tokens are those of a value parses to that value,
and so to no other one. -/
theorem parse_of_significant {tokens : List Token} {value : Value}
    (htokens : significant tokens = value.tokens) : parse tokens = some value := by
  have htrip := (roundTrips value.tokens.length).value value [] le_rfl
  rw [List.append_nil] at htrip
  rw [parse, htokens, htrip]

end Tcb.Json
