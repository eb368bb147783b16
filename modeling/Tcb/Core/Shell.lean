import Tcb.Core.CString

/-!
# The words of a shell command

A shell splits a command at blanks, outside quotes.  Between double quotes a
backquote starts an expansion, and so does a dollar sign in front of a name, a
special parameter or an opening bracket; in front of anything else it stays.  A
backslash takes away the meaning of the five characters that have one.  A
command is read here when it is one simple command of words that need no
expansion.
-/

namespace Tcb.Shell

open Tcb.CString

/-- What quotes the shell is inside of. -/
inductive Quotes
  | none | double | single
  deriving DecidableEq

/-- Characters that start an operator, an expansion or a pattern when they are
not quoted; the backquote is 96. -/
def operators : List Byte :=
  ascii ['|', '&', ';', '<', '>', '(', ')', '*', '?', '['] ++ [96]

/-- Characters that start a comment or a home directory in front of a word. -/
def wordOpeners : List Byte := ascii ['#', '~']

/-- Characters that a backslash quotes between double quotes; 10 is a newline. -/
def escapable : List Byte := [36, 96, 34, 92, 10]

def isBlank (byte : Byte) : Bool := byte = 32 ∨ byte = 9

def isLetter (byte : Byte) : Bool := 65 ≤ byte ∧ byte ≤ 90 ∨ 97 ≤ byte ∧ byte ≤ 122

def isDigit (byte : Byte) : Bool := 48 ≤ byte ∧ byte ≤ 57

/-- The parameters whose name is neither a word nor a number. -/
def specialParameters : List Byte := ascii ['@', '*', '#', '?', '-', '$', '!']

/-- What follows a dollar sign makes it an expansion: the name of a parameter,
or a bracket that opens one.  A joined line is read as one. -/
def startsExpansion : List Byte → Bool
  | [] => false
  | 92 :: 10 :: rest => startsExpansion rest
  | byte :: _ =>
      isLetter byte || byte = 95 || isDigit byte || byte ∈ specialParameters ||
        byte ∈ ascii ['{', '(']

/-- A dollar sign or a backquote that the shell replaces by something else. -/
def Expands (byte : Byte) (rest : List Byte) : Prop :=
  byte = 96 ∨ byte = 36 ∧ startsExpansion rest = true

instance (byte : Byte) (rest : List Byte) : Decidable (Expands byte rest) :=
  inferInstanceAs (Decidable (_ ∨ _))

/-- What a dollar sign in front of a quote means differs between shells. -/
def opensQuote (byte : Byte) (rest : List Byte) : Bool :=
  byte = 36 && rest.head?.any fun next => next = 34 ∨ next = 39

/-- The words from here on, with the word that has been started. -/
def lexWords : Quotes → Option (List Byte) → List Byte → Option (List (List Byte))
  | .none, word, [] => some word.toList
  | .none, word, 92 :: 10 :: rest => lexWords .none word rest
  | .none, word, 92 :: byte :: rest => lexWords .none (some (word.getD [] ++ [byte])) rest
  | .none, word, byte :: rest =>
      if isBlank byte then (word.toList ++ ·) <$> lexWords .none Option.none rest
      else if byte = 10 then if rest.all isBlank then some word.toList else Option.none
      else if byte = 34 then lexWords .double (some (word.getD [])) rest
      else if byte = 39 then lexWords .single (some (word.getD [])) rest
      else if byte ∈ operators ∨ Expands byte rest ∨ opensQuote byte rest ∨
          word.isNone ∧ byte ∈ wordOpeners then
        Option.none
      else lexWords .none (some (word.getD [] ++ [byte])) rest
  | .double, _, [] => Option.none
  | .double, word, 92 :: 10 :: rest => lexWords .double word rest
  | .double, word, 92 :: byte :: rest =>
      if byte ∈ escapable then lexWords .double (some (word.getD [] ++ [byte])) rest
      else lexWords .double (some (word.getD [] ++ [92])) (byte :: rest)
  | .double, word, byte :: rest =>
      if byte = 34 then lexWords .none word rest
      else if Expands byte rest then Option.none
      else lexWords .double (some (word.getD [] ++ [byte])) rest
  | .single, _, [] => Option.none
  | .single, word, byte :: rest =>
      if byte = 39 then lexWords .none word rest
      else lexWords .single (some (word.getD [] ++ [byte])) rest

/-- The words of a command. -/
def shellWords (command : List Byte) : Option (List (List Byte)) :=
  lexWords .none none command

/-- A text that means itself between double quotes. -/
def quotable : List Byte → Bool
  | [] => true
  | byte :: rest =>
      byte ≠ 34 && !Expands byte rest &&
        (byte ≠ 92 || rest.head?.any fun next => next ∉ escapable) && quotable rest

/-! ## Quoting loses bytes -/

section Length

variable {word : Option (List Byte)} {byte : Byte} {rest body : List Byte}
  {words : List (List Byte)}

theorem cons_eq_closed (hinput : byte :: rest = body ++ [34, 10]) :
    (∃ more, body = byte :: more ∧ rest = more ++ [34, 10]) ∨
      body = [] ∧ byte = 34 ∧ rest = [10] := by
  cases body with
  | nil =>
      rw [List.nil_append, List.cons.injEq] at hinput
      exact .inr ⟨rfl, hinput⟩
  | cons first more =>
      rw [List.cons_append, List.cons.injEq] at hinput
      exact .inl ⟨more, by rw [hinput.1], hinput.2⟩

theorem lexWords_none_newline : lexWords .none word [10] = some word.toList := rfl

theorem lexWords_double_newline : lexWords .double word [10] = none := rfl

theorem lexWords_single_newline : lexWords .single word [10] = none := rfl

theorem length_toList_le : (word.toList.map List.length).sum ≤ (word.getD []).length := by
  cases word <;> simp

/-- The words of a command that ends in a quote and a newline are no longer
than what stands in front of these. -/
theorem length_lexWords_le {quotes : Quotes} {input : List Byte}
    (hlex : lexWords quotes word input = some words) (hinput : input = body ++ [34, 10]) :
    (words.map List.length).sum ≤ (word.getD []).length + body.length := by
  fun_induction lexWords quotes word input generalizing body words with
  | case1 | case11 | case18 => simp at hinput
  | case6 | case9 | case16 => simp at hlex
  | case2 word rest ih =>
      obtain ⟨more, rfl, hrest⟩ | ⟨-, hbyte, -⟩ := cons_eq_closed hinput
      · obtain ⟨others, rfl, hothers⟩ | ⟨-, hbyte, -⟩ := cons_eq_closed hrest
        · have hlength := ih hlex hothers
          simp only [List.length_cons]
          omega
        · simp at hbyte
      · simp at hbyte
  | case3 word byte rest hne ih =>
      obtain ⟨more, rfl, hrest⟩ | ⟨-, hbyte, -⟩ := cons_eq_closed hinput
      · obtain ⟨others, rfl, hothers⟩ | ⟨rfl, rfl, rfl⟩ := cons_eq_closed hrest
        · have hlength := ih hlex hothers
          simp only [Option.getD_some, List.length_append, List.length_cons,
            List.length_nil] at hlength ⊢
          omega
        · -- the quote itself is quoted, and the newline ends the command
          rw [lexWords_none_newline, Option.some.injEq] at hlex
          simp [← hlex]
      · simp at hbyte
  | case4 word byte rest _ _ hblank ih =>
      obtain ⟨more, rfl, hrest⟩ | ⟨-, rfl, -⟩ := cons_eq_closed hinput
      · rw [Option.map_eq_map, Option.map_eq_some_iff] at hlex
        obtain ⟨others, hothers, rfl⟩ := hlex
        have hlength := ih hothers hrest
        have hword := @length_toList_le word
        simp only [Option.getD_none, List.length_nil, List.map_append, List.sum_append,
          List.length_cons] at hlength ⊢
        omega
      · simp [isBlank] at hblank
  | case5 word rest hall =>
      obtain ⟨more, rfl, rfl⟩ | ⟨-, hbyte, -⟩ := cons_eq_closed hinput
      · simp [isBlank] at hall
      · simp at hbyte
  | case7 word rest _ _ _ _ ih =>
      obtain ⟨more, rfl, hrest⟩ | ⟨-, -, rfl⟩ := cons_eq_closed hinput
      · have hlength := ih hlex hrest
        simp only [Option.getD_some, List.length_cons] at hlength ⊢
        omega
      · simp [lexWords_double_newline] at hlex
  | case8 word rest _ _ _ _ _ ih =>
      obtain ⟨more, rfl, hrest⟩ | ⟨-, hbyte, -⟩ := cons_eq_closed hinput
      · have hlength := ih hlex hrest
        simp only [Option.getD_some, List.length_cons] at hlength ⊢
        omega
      · simp at hbyte
  | case10 word byte rest _ _ _ _ hquote _ _ ih =>
      obtain ⟨more, rfl, hrest⟩ | ⟨-, hbyte, -⟩ := cons_eq_closed hinput
      · have hlength := ih hlex hrest
        simp only [Option.getD_some, List.length_append, List.length_cons,
          List.length_nil] at hlength ⊢
        omega
      · exact absurd hbyte hquote
  | case12 word rest ih =>
      obtain ⟨more, rfl, hrest⟩ | ⟨-, hbyte, -⟩ := cons_eq_closed hinput
      · obtain ⟨others, rfl, hothers⟩ | ⟨-, hbyte, -⟩ := cons_eq_closed hrest
        · have hlength := ih hlex hothers
          simp only [List.length_cons]
          omega
        · simp at hbyte
      · simp at hbyte
  | case13 word byte rest _ hescapable ih =>
      obtain ⟨more, rfl, hrest⟩ | ⟨-, hbyte, -⟩ := cons_eq_closed hinput
      · obtain ⟨others, rfl, hothers⟩ | ⟨-, -, rfl⟩ := cons_eq_closed hrest
        · have hlength := ih hlex hothers
          simp only [Option.getD_some, List.length_append, List.length_cons,
            List.length_nil] at hlength ⊢
          omega
        · simp [lexWords_double_newline] at hlex
      · simp at hbyte
  | case14 word byte rest _ hescapable ih =>
      obtain ⟨more, rfl, hrest⟩ | ⟨-, hbyte, -⟩ := cons_eq_closed hinput
      · have hlength := ih hlex hrest
        simp only [Option.getD_some, List.length_append, List.length_cons,
          List.length_nil] at hlength ⊢
        omega
      · simp at hbyte
  | case15 word rest _ _ ih =>
      obtain ⟨more, rfl, hrest⟩ | ⟨rfl, -, rfl⟩ := cons_eq_closed hinput
      · have hlength := ih hlex hrest
        simp only [List.length_cons]
        omega
      · rw [lexWords_none_newline, Option.some.injEq] at hlex
        rw [← hlex]
        exact length_toList_le
  | case17 word byte rest _ _ hquote _ ih =>
      obtain ⟨more, rfl, hrest⟩ | ⟨-, hbyte, -⟩ := cons_eq_closed hinput
      · have hlength := ih hlex hrest
        simp only [Option.getD_some, List.length_append, List.length_cons,
          List.length_nil] at hlength ⊢
        omega
      · exact absurd hbyte hquote
  | case19 word rest ih =>
      obtain ⟨more, rfl, hrest⟩ | ⟨-, hbyte, -⟩ := cons_eq_closed hinput
      · have hlength := ih hlex hrest
        simp only [List.length_cons]
        omega
      · simp at hbyte
  | case20 word byte rest _ ih =>
      obtain ⟨more, rfl, hrest⟩ | ⟨-, -, rfl⟩ := cons_eq_closed hinput
      · have hlength := ih hlex hrest
        simp only [Option.getD_some, List.length_append, List.length_cons,
          List.length_nil] at hlength ⊢
        omega
      · simp [lexWords_single_newline] at hlex

end Length

/-! ## Texts between double quotes -/

/-- The closing quote does not make a dollar sign an expansion. -/
theorem startsExpansion_closed (text rest : List Byte) :
    startsExpansion (text ++ 34 :: rest) = startsExpansion text := by
  fun_induction startsExpansion text with
  | case1 => rfl
  | case2 text ih => exact ih
  | case3 byte text hjoined =>
      rw [List.cons_append, startsExpansion]
      rintro more rfl hmore
      cases text with
      | nil => exact absurd hmore (by simp)
      | cons next text =>
          rw [List.cons_append, List.cons.injEq] at hmore
          exact hjoined text rfl (by rw [hmore.1])

theorem expands_closed (byte : Byte) (text rest : List Byte) :
    Expands byte (text ++ 34 :: rest) ↔ Expands byte text := by
  rw [Expands, Expands, startsExpansion_closed]

theorem not_expands_backslash (rest : List Byte) : ¬ Expands 92 rest := by
  simp [Expands]

theorem lexWords_ordinary {byte : Byte} {rest : List Byte} (hbackslash : byte ≠ 92)
    (hquote : byte ≠ 34) (hexpands : ¬ Expands byte rest) (word : List Byte) :
    lexWords .double (some word) (byte :: rest) =
      lexWords .double (some (word ++ [byte])) rest := by
  rw [lexWords]
  · rw [if_neg hquote, if_neg hexpands, Option.getD_some]
  · exact fun _ hbyte _ => hbackslash hbyte
  · exact fun _ _ hbyte _ => hbackslash hbyte

/-- A backslash in front of a character without a meaning stays. -/
theorem lexWords_backslash {byte : Byte} (hplain : byte ∉ escapable) (word rest : List Byte) :
    lexWords .double (some word) (92 :: byte :: rest) =
      lexWords .double (some (word ++ [92])) (byte :: rest) := by
  rw [lexWords, if_neg hplain, Option.getD_some]
  rintro rfl
  exact hplain (by decide)

theorem lexWords_escape {byte : Byte} (hescapable : byte ∈ escapable) (hnewline : byte ≠ 10)
    (word rest : List Byte) :
    lexWords .double (some word) (92 :: byte :: rest) =
      lexWords .double (some (word ++ [byte])) rest := by
  rw [lexWords, if_pos hescapable, Option.getD_some]
  exact fun hbyte => hnewline hbyte

theorem lexWords_joined (word rest : List Byte) :
    lexWords .double (some word) (92 :: 10 :: rest) = lexWords .double (some word) rest := rfl

theorem lexWords_close (word rest : List Byte) :
    lexWords .double (some word) (34 :: rest) = lexWords .none (some word) rest := rfl

theorem lexWords_expansion {byte : Byte} {rest : List Byte} (hexpands : Expands byte rest)
    (word : List Byte) : lexWords .double (some word) (byte :: rest) = none := by
  rw [lexWords]
  · rw [if_pos hexpands, ite_eq_right_iff]
    rintro rfl
    exact absurd hexpands (by simp [Expands])
  · rintro _ rfl _
    exact not_expands_backslash _ hexpands
  · rintro _ _ rfl _
    exact not_expands_backslash _ hexpands

theorem lexWords_quotable {text : List Byte} (hquotable : quotable text = true)
    (word rest : List Byte) :
    lexWords .double (some word) (text ++ 34 :: rest) =
      lexWords .none (some (word ++ text)) rest := by
  induction text generalizing word with
  | nil =>
      rw [List.nil_append, List.append_nil, lexWords_close]
  | cons byte text ih =>
      simp only [quotable, Bool.and_eq_true, Bool.or_eq_true, decide_eq_true_eq,
        Bool.not_eq_true', decide_eq_false_iff_not] at hquotable
      obtain ⟨⟨⟨hquote, hexpands⟩, hescape⟩, hrest⟩ := hquotable
      by_cases hbackslash : byte = 92
      · subst hbackslash
        cases text with
        | nil => simp at hescape
        | cons next more =>
            have hplain : next ∉ escapable := by simpa using hescape
            rw [List.cons_append, List.cons_append, lexWords_backslash hplain,
              ← List.cons_append, ih hrest, List.append_assoc, List.singleton_append]
      · rw [List.cons_append,
          lexWords_ordinary hbackslash hquote (mt (expands_closed _ _ _).mp hexpands), ih hrest,
          List.append_assoc, List.singleton_append]

/-- A text followed by the closing quote and the end of the line is one word
with what stands before it exactly when it means itself. -/
theorem lexWords_double_iff {text word : List Byte} :
    lexWords .double (some word) (text ++ [34, 10]) = some [word ++ text] ↔
      quotable text = true := by
  constructor
  · intro hlex
    induction text generalizing word with
    | nil => rfl
    | cons byte text ih =>
        have hshort : ∀ {quotes : Quotes} {begun body : List Byte},
            lexWords quotes (some begun) (body ++ [34, 10]) = some [word ++ byte :: text] →
              word.length + (text.length + 1) ≤ begun.length + body.length := by
          intro quotes begun body hbody
          simpa using length_lexWords_le hbody rfl
        by_cases hbackslash : byte = 92
        · subst hbackslash
          cases text with
          | nil =>
              rw [List.cons_append, List.nil_append, lexWords_escape (by decide) (by decide),
                lexWords_double_newline] at hlex
              exact absurd hlex nofun
          | cons next more =>
              by_cases hnewline : next = 10
              · subst hnewline
                have hlength := hshort (by simpa only [List.cons_append, lexWords_joined] using hlex)
                simp only [List.length_cons] at hlength
                omega
              · by_cases hescapable : next ∈ escapable
                · rw [List.cons_append, List.cons_append,
                    lexWords_escape hescapable hnewline] at hlex
                  have hlength := hshort hlex
                  simp only [List.length_append, List.length_cons, List.length_nil] at hlength
                  omega
                · rw [List.cons_append, List.cons_append, lexWords_backslash hescapable,
                    ← List.cons_append, List.append_cons word 92 (next :: more)] at hlex
                  have hmore := ih hlex
                  rw [quotable]
                  simpa [hescapable, not_expands_backslash] using hmore
        · by_cases hquote : byte = 34
          · subst hquote
            have hlength := hshort (by simpa only [List.cons_append, lexWords_close] using hlex)
            omega
          · rw [List.cons_append] at hlex
            by_cases hexpands : Expands byte (text ++ [34, 10])
            · rw [lexWords_expansion hexpands] at hlex
              exact absurd hlex nofun
            · rw [lexWords_ordinary hbackslash hquote hexpands,
                List.append_cons word byte text] at hlex
              rw [expands_closed] at hexpands
              have hrest := ih hlex
              simpa [quotable, hbackslash, hquote, hexpands] using hrest
  · intro hquotable
    rw [lexWords_quotable hquotable, lexWords_none_newline]
    rfl

example : quotable (ascii ['F', 'o', 'o', '$', '.', 'c', '$']) = true := by decide
example : quotable (ascii ['$', 'H', 'O', 'M', 'E']) = false := by decide

end Tcb.Shell
