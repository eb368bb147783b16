import Tcb.Core.CString
import Mathlib.Data.List.TakeWhile

/-!
# Taking a run of characters off a text

A lexer takes the longest run of characters of a kind.  When what was written
holds only such characters, and no more of them follow, the run is what was
written.
-/

namespace Tcb.Scanning

open Tcb.CString

/-- Blank, tab, and the ends of lines. -/
def isBlank (byte : Byte) : Bool := byte = 32 ∨ byte = 9 ∨ byte = 10 ∨ byte = 13

section Runs

variable {α : Type} {kind : α → Bool} {front behind : List α}

theorem takeWhile_run (hfront : front.all kind = true)
    (hbehind : ∀ item ∈ behind.head?, kind item = false) :
    (front ++ behind).takeWhile kind = front := by
  rw [List.takeWhile_append_of_pos (List.all_eq_true.mp hfront)]
  cases behind with
  | nil => simp
  | cons item rest => simp [hbehind item rfl]

theorem dropWhile_run (hfront : front.all kind = true)
    (hbehind : ∀ item ∈ behind.head?, kind item = false) :
    (front ++ behind).dropWhile kind = behind := by
  rw [List.dropWhile_append_of_pos (List.all_eq_true.mp hfront)]
  cases behind with
  | nil => rfl
  | cons item rest => simp [hbehind item rfl]

end Runs

end Tcb.Scanning
