import Tcb.Core.Run

/-!
# NUL-terminated strings in a block of bytes

A pointer into an allocated block is modelled by the bytes from the pointer to
the end of the block.  Reading a string scans for the terminator and faults
when the block ends first.  A `char[n]` member that only ever holds strings is
a list of bytes that carries its own well-formedness: no terminator inside,
and room left for the one behind it.
-/

namespace Tcb.CString

abbrev Byte := UInt8

/-- The bytes of an ASCII text. -/
def ascii (text : List Char) : List Byte := text.map fun char => char.toNat.toUInt8

variable {ε : Type}

/-- The string that starts at a pointer, without its terminator. -/
def cString : List Byte → Run ε (List Byte)
  | [] => Run.fault .outOfBounds
  | byte :: rest =>
      if byte = 0 then .ok [] else (byte :: ·) <$> cString rest

theorem cString_eq_ok {block text : List Byte} :
    (cString block : Run ε (List Byte)) = .ok text ↔
      0 ∉ text ∧ ∃ rest, block = text ++ 0 :: rest := by
  induction block generalizing text with
  | nil => simp [cString]
  | cons byte rest ih =>
      by_cases hbyte : byte = 0
      · cases text with
        | nil => simp [cString, hbyte]
        | cons head tail =>
            simp only [cString, hbyte, if_true, Except.ok.injEq, List.nil_eq,
              reduceCtorEq, List.mem_cons, not_or, false_iff, not_and,
              List.cons_append, List.cons.injEq, not_exists]
            intro hnul rest heq
            exact absurd heq hnul.1
      · cases text with
        | nil => simp [cString, hbyte, Run.map_eq_ok]
        | cons head tail =>
            simp only [cString, hbyte, if_false, Run.map_eq_ok, ih,
              List.cons.injEq, List.mem_cons, List.cons_append]
            constructor
            · rintro ⟨middle, ⟨hmiddle, after, rfl⟩, rfl, rfl⟩
              exact ⟨by simp [Ne.symm hbyte, hmiddle], after, rfl, rfl⟩
            · rintro ⟨hnul, after, rfl, rfl⟩
              exact ⟨tail, ⟨by simpa using (not_or.mp hnul).2, after, rfl⟩, rfl, rfl⟩

/-- A terminated string is read back whatever follows it. -/
theorem cString_terminated {text : List Byte} (hnul : 0 ∉ text)
    (rest : List Byte) :
    (cString (text ++ 0 :: rest) : Run ε (List Byte)) = .ok text :=
  cString_eq_ok.mpr ⟨hnul, rest, rfl⟩

/-- A string ends before the block does when there is a terminator in it. -/
theorem cString_returns {block : List Byte} (hnul : 0 ∈ block) :
    Run.Returns (cString block : Run ε (List Byte)) := by
  induction block with
  | nil => simp at hnul
  | cons byte rest ih =>
      by_cases hbyte : byte = 0
      · exact ⟨[], by simp [cString, hbyte]⟩
      · obtain ⟨text, htext⟩ := ih (by simpa [Ne.symm hbyte] using hnul)
        exact ⟨byte :: text, by simp [cString, hbyte, htext]⟩

/-- A string that ends inside a block is read without a look behind the
block. -/
theorem cString_append {block : List Byte}
    (hreturns : Run.Returns (cString block : Run ε (List Byte))) (rest : List Byte) :
    (cString (block ++ rest) : Run ε (List Byte)) = cString block := by
  obtain ⟨text, htext⟩ := hreturns
  obtain ⟨hnul, after, rfl⟩ := cString_eq_ok.mp htext
  rw [htext, List.append_assoc, List.cons_append]
  exact cString_terminated hnul _

theorem ends_cString (block : List Byte) :
    Run.Ends (cString block : Run ε (List Byte)) := by
  induction block with
  | nil => simp [cString]
  | cons byte rest ih =>
      by_cases hbyte : byte = 0
      · simp [cString, hbyte]
      · simp only [cString, hbyte, if_false, map_eq_pure_bind]
        exact Run.ends_bind ih (by simp)

/-- `strncmp(block, pattern, strlen(pattern)) == 0`: the comparison stops at
the first difference. -/
def startsWith : List Byte → List Byte → Run ε Bool
  | [], _ => .ok true
  | _ :: _, [] => Run.fault .outOfBounds
  | expected :: pattern, byte :: rest =>
      if byte = expected then startsWith pattern rest else .ok false

theorem startsWith_eq_true {pattern block : List Byte}
    (hbegins : pattern <+: block) :
    (startsWith pattern block : Run ε Bool) = .ok true := by
  obtain ⟨rest, rfl⟩ := hbegins
  induction pattern with
  | nil => rfl
  | cons expected pattern ih => simpa [startsWith] using ih

theorem isPrefix_of_startsWith {pattern block : List Byte}
    (hrun : (startsWith pattern block : Run ε Bool) = .ok true) : pattern <+: block := by
  induction pattern generalizing block with
  | nil => exact List.nil_prefix
  | cons expected pattern ih =>
      cases block with
      | nil => simp [startsWith] at hrun
      | cons byte rest =>
          rw [startsWith] at hrun
          split at hrun
          · rename_i hbyte
            exact List.cons_prefix_cons.mpr ⟨hbyte.symm, ih hrun⟩
          · simp at hrun

theorem startsWith_eq_false {pattern block : List Byte}
    (hroom : pattern.length ≤ block.length) (hbegins : ¬ pattern <+: block) :
    (startsWith pattern block : Run ε Bool) = .ok false := by
  induction pattern generalizing block with
  | nil => simp at hbegins
  | cons expected pattern ih =>
      cases block with
      | nil => simp at hroom
      | cons byte rest =>
          by_cases hbyte : byte = expected
          · subst hbyte
            simp only [startsWith, if_true]
            exact ih (by simpa using hroom) (by simpa using hbegins)
          · simp [startsWith, hbyte]

theorem startsWith_append {pattern block : List Byte}
    (hreturns : Run.Returns (startsWith pattern block : Run ε Bool)) (rest : List Byte) :
    (startsWith pattern (block ++ rest) : Run ε Bool) = startsWith pattern block := by
  induction pattern generalizing block with
  | nil => simp [startsWith]
  | cons expected pattern ih =>
      cases block with
      | nil => exact absurd hreturns.choose_spec nofun
      | cons byte block =>
          rw [startsWith] at hreturns
          rw [List.cons_append, startsWith, startsWith]
          split
          · rename_i hbyte
            rw [if_pos hbyte] at hreturns
            exact ih hreturns
          · rfl

theorem ends_startsWith (pattern block : List Byte) :
    Run.Ends (startsWith pattern block : Run ε Bool) := by
  induction pattern generalizing block with
  | nil => simp [startsWith]
  | cons expected pattern ih =>
      cases block with
      | nil => simp [startsWith]
      | cons byte rest =>
          rw [startsWith]
          split
          · exact ih rest
          · simp

/-! ## Arrays that hold a string -/

/-- The string in a `char[capacity]`. -/
structure CArray (capacity : ℕ) where
  bytes : List Byte
  noNul : 0 ∉ bytes
  fits : bytes.length < capacity

namespace CArray

variable {capacity : ℕ}

@[ext]
theorem ext {left right : CArray capacity} (heq : left.bytes = right.bytes) :
    left = right := by
  cases left
  cases right
  simpa using heq

instance : DecidableEq (CArray capacity) := fun _ _ => decidable_of_iff _ CArray.ext_iff.symm

/-! The two fields of an empty `char[128]`. -/

theorem nil_noNul : (0 : Byte) ∉ ([] : List Byte) := List.not_mem_nil

theorem nil_fits : ([] : List Byte).length < 128 := by decide

/-- `strcpy`: faults when the string and its terminator do not fit. -/
def strcpy (text : List Byte) : Run ε (CArray capacity) :=
  if h : 0 ∉ text ∧ text.length < capacity then
    .ok ⟨text, h.1, h.2⟩
  else
    Run.fault .outOfBounds

theorem strcpy_eq_ok {text : List Byte} {array : CArray capacity} :
    (strcpy text : Run ε (CArray capacity)) = .ok array ↔ array.bytes = text := by
  rw [strcpy]
  split
  · rename_i h
    simp only [Except.ok.injEq]
    constructor
    · rintro rfl
      rfl
    · rintro rfl
      rfl
  · rename_i h
    simp only [Run.fault_ne_ok, false_iff]
    rintro rfl
    exact h ⟨array.noNul, array.fits⟩

theorem not_mem_takeWhile (text : List Byte) : 0 ∉ text.takeWhile (· ≠ 0) := by
  intro hmem
  have hhead := List.all_takeWhile (p := (· ≠ 0)) (l := text)
  simpa using List.all_eq_true.mp hhead 0 hmem

/-- `strncpy` of at most `count` bytes into a zeroed array with room for a
terminator behind them. -/
def strncpy (count : ℕ) (hcount : count < capacity) (source : List Byte) :
    Run ε (CArray capacity) := do
  Run.require (0 ∈ source ∨ count ≤ source.length)
  return {
    bytes := (source.take count).takeWhile (· ≠ 0)
    noNul := not_mem_takeWhile _
    fits := Nat.lt_of_le_of_lt (Nat.le_trans (List.takeWhile_prefix _).length_le
      (List.length_take_le _ _)) hcount }

/-- What `strncpy` leaves behind, whenever it stays inside the source. -/
theorem strncpy_bytes {count : ℕ} {hcount : count < capacity}
    {source : List Byte} {array : CArray capacity}
    (hrun : (strncpy count hcount source : Run ε (CArray capacity)) = .ok array) :
    array.bytes = (source.take count).takeWhile (· ≠ 0) := by
  rw [strncpy, Run.require_bind_eq_ok] at hrun
  simp only [Run.pure_eq_ok, Except.ok.injEq] at hrun
  rw [← hrun.2]

theorem strncpy_returns {count : ℕ} (hcount : count < capacity)
    {source : List Byte} (hroom : 0 ∈ source ∨ count ≤ source.length) :
    ∃ array, (strncpy count hcount source : Run ε (CArray capacity)) = .ok array := by
  simp [strncpy, Run.require, hroom]

/-- A copy that is bounded by the source does not depend on what follows it. -/
theorem strncpy_append {count : ℕ} {hcount : count < capacity} {source : List Byte}
    (hroom : 0 ∈ source ∨ count ≤ source.length) (rest : List Byte) :
    (strncpy count hcount (source ++ rest) : Run ε (CArray capacity)) =
      strncpy count hcount source := by
  have hlonger : 0 ∈ source ++ rest ∨ count ≤ (source ++ rest).length := by
    rw [List.mem_append, List.length_append]
    exact hroom.imp .inl (Nat.le_add_right_of_le ·)
  have hbytes : ((source ++ rest).take count).takeWhile (· ≠ 0) =
      (source.take count).takeWhile (· ≠ 0) := by
    by_cases hlength : count ≤ source.length
    · rw [List.take_append_of_le_length hlength]
    · obtain ⟨text, htext⟩ : Run.Returns (cString source : Run ε (List Byte)) :=
        cString_returns (hroom.resolve_right hlength)
      obtain ⟨hnul, after, rfl⟩ := cString_eq_ok.mp htext
      have hhead : ∀ byte ∈ text, (decide (byte ≠ 0)) = true := by
        intro byte hbyte
        simpa using fun hzero : byte = 0 => hnul (hzero ▸ hbyte)
      rw [List.take_append, List.take_of_length_le (by omega), List.append_assoc,
        List.takeWhile_append_of_pos hhead, List.takeWhile_append_of_pos hhead]
      simp
  simp only [strncpy, Run.require_pos hroom, Run.require_pos hlonger, hbytes]

/-- A string short enough is copied whole. -/
theorem strncpy_whole {count : ℕ} (hcount : count < capacity)
    {text : List Byte} (hnul : 0 ∉ text) (hlength : text.length ≤ count)
    (rest : List Byte) :
    ∃ array, (strncpy count hcount (text ++ 0 :: rest) : Run ε (CArray capacity)) =
        .ok array ∧ array.bytes = text := by
  have hroom : (0 : Byte) ∈ text ++ 0 :: rest ∨ count ≤ (text ++ 0 :: rest).length :=
    .inl (by simp)
  obtain ⟨array, harray⟩ := strncpy_returns (ε := ε) hcount hroom
  refine ⟨array, harray, ?_⟩
  rw [strncpy_bytes harray, List.take_append]
  rw [List.take_of_length_le hlength]
  have hhead : ∀ byte ∈ text, (decide (byte ≠ 0)) = true := by
    intro byte hbyte
    simpa using fun hzero : byte = 0 => hnul (hzero ▸ hbyte)
  rw [List.takeWhile_append_of_pos hhead]
  cases count - text.length <;> simp

end CArray

end Tcb.CString
