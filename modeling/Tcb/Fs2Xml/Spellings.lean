import Tcb.Fs2Xml.TarHeader

/-!
# Spellings of a path

A path can be written with nothing, a slash or a dot and a slash in front of
it, and with or without a slash behind it.  `Split` decides from the first byte
where the components start: a dot makes it skip two bytes, also when the dot
belongs to the first component.
-/

namespace Tcb.Spellings

open Tcb.CString
open Tcb.Inodes
open Tcb.Split
open Tcb.MergeFile
open Tcb.Members

/-- What stands in front of the first component. -/
inductive Lead
  | plain | slash | dotSlash
  deriving DecidableEq

def Lead.text : Lead → List Byte
  | plain => []
  | slash => [47]
  | dotSlash => [46, 47]

/-- The components of a path that can be joined and cut again. -/
structure Joinable (path : List (List Byte)) : Prop where
  nonempty : path ≠ []
  depth : path.length ≤ walkRows
  components : ∀ part ∈ path, part ≠ [] ∧ part ≠ [46] ∧ 0 ∉ part ∧ 47 ∉ part ∧
    part.length < walkColumns

/-- The path with a slash between its components. -/
def spelled (lead : Lead) (path : List (List Byte)) (slash : Bool) : List Byte :=
  lead.text ++ nameText path slash

/-- `Split` counts the components and leaves each in its row. -/
def CutsTo (ph : HeaderPtr) (path : List (List Byte)) : Prop :=
  ∃ walk, split ph Walk.declared = .ok ((path.length : ℤ), walk) ∧
    ∀ (i : ℕ) part, path[i]? = some part → walk.row (i : ℤ) = .ok part

/-- The first component starts with a dot. -/
def DotFirst (path : List (List Byte)) : Prop :=
  ∃ first ∈ path.head?, first.head? = some 46

theorem cutsTo_iff {ph : HeaderPtr} {path : List (List Byte)} :
    CutsTo ph path ↔ HeaderPath ph path := by
  constructor
  · rintro ⟨walk, hsplit, hrows⟩
    obtain ⟨text, hresult⟩ := split_eq_ok hsplit
    obtain ⟨found, hlength, hpath, hfound⟩ := split_path hresult
    have hsame : path = found := by
      apply List.ext_getElem (by exact_mod_cast hlength)
      intro i hi hi'
      have hrow := hrows i path[i] (by simp [hi])
      rw [hfound i found[i] (by simp [hi']), Except.ok.injEq] at hrow
      exact hrow.symm
    exact hsame ▸ hpath
  · intro hpath
    obtain ⟨text, last, htext, hlast, hlength, hcolumns, -⟩ := id hpath
    obtain ⟨⟨n, walk⟩, hsplit⟩ := split_returns htext hlast hlength hcolumns
    obtain ⟨text', hresult⟩ := split_eq_ok hsplit
    obtain ⟨found, rfl, hfound, hrows⟩ := split_path hresult
    obtain rfl := hfound.unique hpath
    exact ⟨walk, hsplit, hrows⟩

section Spelling

variable {lead : Lead} {path : List (List Byte)} {slash : Bool}

theorem getLast?_spelled (hpath : Joinable path) :
    ∃ last, (spelled lead path slash).getLast? = some last ∧ (last = 47 ↔ slash = true) := by
  obtain ⟨last, hlast, hslash⟩ := @getLast?_nameText path slash hpath.nonempty
    fun part hpart => ⟨(hpath.components part hpart).1, (hpath.components part hpart).2.2.2.1⟩
  refine ⟨last, ?_, hslash⟩
  rw [spelled, List.getLast?_append, hlast]
  rfl

/-- Behind the right offset stand the rows the path was joined from. -/
theorem nameParts_spelled (hpath : Joinable path)
    (hlead : lead = .plain → ¬ DotFirst path) :
    nameParts (spelled lead path slash) = rowsOf path slash := by
  have hsplit : (nameText path slash).splitOn 47 = rowsOf path slash :=
    splitOn_nameText hpath.nonempty fun part hpart => (hpath.components part hpart).2.2.2.1
  rw [nameParts, spelled]
  cases lead with
  | slash => simpa [Lead.text, startOffset] using hsplit
  | dotSlash => simpa [Lead.text, startOffset] using hsplit
  | plain =>
      obtain ⟨first, others, rfl⟩ := List.exists_cons_of_ne_nil hpath.nonempty
      obtain ⟨hne, -, -, hslash, -⟩ := hpath.components first (by simp)
      obtain ⟨byte, tail, rfl⟩ := List.exists_cons_of_ne_nil hne
      obtain ⟨rest, hrest⟩ := nameText_cons (byte :: tail) others slash
      have hdot : byte ≠ 46 := by
        rintro rfl
        exact hlead rfl ⟨_, rfl, rfl⟩
      have hfirst : byte ≠ 47 := by
        rintro rfl
        simp at hslash
      have hstart : startOffset (nameText ((byte :: tail) :: others) slash) = 0 := by
        simp [startOffset, hrest, hdot, hfirst]
      rw [Lead.text, List.nil_append, hstart, List.drop_zero, hsplit]

/-- When the first component starts with a dot, its first two bytes are lost. -/
theorem nameParts_dotFirst (hpath : Joinable path) (hdot : DotFirst path) (slash : Bool) :
    (joinedPath (nameParts (spelled .plain path slash))).length <
      (joinedPath path).length := by
  obtain ⟨first, hfirst, hhead⟩ := hdot
  obtain ⟨others, rfl⟩ := List.head?_eq_some_iff.mp hfirst
  obtain ⟨tail, rfl⟩ := List.head?_eq_some_iff.mp hhead
  obtain ⟨rest, hrest⟩ := nameText_cons (46 :: tail) others slash
  have hstart : startOffset (nameText ((46 :: tail) :: others) slash) = 2 := by
    simp [startOffset, hrest]
  have htext : (nameText ((46 :: tail) :: others) slash).length + 1 =
      (joinedPath (rowsOf ((46 :: tail) :: others) slash)).length := by
    rw [← cons_nameText (by simp), List.length_cons]
  have hjoined : 2 ≤ (joinedPath ((46 :: tail) :: others)).length := by
    simp [joinedPath]
  rw [length_joinedPath_nameParts, spelled, Lead.text, List.nil_append, hstart]
  cases slash with
  | false =>
      rw [rowsOf, if_neg Bool.false_ne_true] at htext
      omega
  | true =>
      rw [rowsOf, if_pos rfl, joinedPath_append, joinedPath_singleton, List.length_append,
        List.length_singleton] at htext
      omega

theorem length_rowsOf_le (hpath : Joinable path) :
    (rowsOf path slash).length ≤ walkRows ↔ ¬ (path.length = walkRows ∧ slash = true) := by
  have hdepth := hpath.depth
  cases slash with
  | false => simpa [rowsOf] using hdepth
  | true =>
      simp only [rowsOf, if_true, List.length_append, List.length_singleton, and_true]
      omega

end Spelling

/-- `Split` takes a spelling apart into the components it was joined from,
unless the first component starts with a dot and nothing stands before it, or
the components fill all rows and a slash follows them. -/
theorem split_spelled_iff {ph : HeaderPtr} {lead : Lead} {path : List (List Byte)}
    {slash : Bool} (hpath : Joinable path)
    (hname : (cString (ph.from' .name) : Run ExitReason _) = .ok (spelled lead path slash)) :
    CutsTo ph path ↔
      ¬ (lead = .plain ∧ DotFirst path) ∧ ¬ (path.length = walkRows ∧ slash = true) := by
  obtain ⟨last, hlast, hslash⟩ := @getLast?_spelled lead path slash hpath
  have hlastByte : lastByte ph (spelled lead path slash) = .ok last := by rw [lastByte, hlast]
  rw [cutsTo_iff]
  constructor
  · rintro ⟨text, last', htext, hlast', hrows, -, hcut⟩
    rw [hname, Except.ok.injEq] at htext
    subst htext
    rw [hlastByte, Except.ok.injEq] at hlast'
    subst hlast'
    have hlead : ¬ (lead = .plain ∧ DotFirst path) := by
      rintro ⟨rfl, hdot⟩
      have hshorter := nameParts_dotFirst hpath hdot slash
      have hkept : (joinedPath path).length ≤
          (joinedPath (nameParts (spelled .plain path slash))).length := by
        calc (joinedPath path).length
            = (joinedPath (if last = 47 then (nameParts (spelled .plain path slash)).dropLast
                else nameParts (spelled .plain path slash))).length := by rw [← hcut]
          _ ≤ (joinedPath (nameParts (spelled .plain path slash))).length := by
              split
              · exact joinedPath_dropLast_le _
              · exact le_rfl
      omega
    refine ⟨hlead, ?_⟩
    rwa [nameParts_spelled hpath fun hplain hdot => hlead ⟨hplain, hdot⟩,
      length_rowsOf_le hpath] at hrows
  · rintro ⟨hlead, hfits⟩
    have hparts : nameParts (spelled lead path slash) = rowsOf path slash :=
      nameParts_spelled hpath fun hplain hdot => hlead ⟨hplain, hdot⟩
    refine ⟨_, last, hname, hlastByte, ?_, ?_, ?_⟩
    · rwa [hparts, length_rowsOf_le hpath]
    · rw [hparts]
      intro part hpart
      rcases mem_rowsOf hpart with rfl | hpart
      · exact Nat.zero_lt_succ _
      · exact (hpath.components part hpart).2.2.2.2
    · rw [hparts]
      cases slash <;> simp [hslash, rowsOf]

/-- The header of a directory under another name. -/
def namedHeader (text : List Byte) : HeaderPtr :=
  ⟨TarHeader.paddedText 100 text ++
    (TarHeader.tarHeader (TarHeader.nestedDirectory 0)).drop 100, 0⟩

/-- `./a/b/` -/
theorem split_spelled_nested :
    CutsTo (namedHeader (spelled .dotSlash [ascii ['a'], ascii ['b']] true))
        [ascii ['a'], ascii ['b']] ↔
      ¬ (Lead.dotSlash = .plain ∧ DotFirst [ascii ['a'], ascii ['b']]) ∧
        ¬ ([ascii ['a'], ascii ['b']].length = walkRows ∧ true = true) :=
  split_spelled_iff ⟨by decide, by decide, by decide⟩ (by decide +kernel)

/-- `.a`, of which the row keeps nothing. -/
theorem split_spelled_dotted :
    Joinable [ascii ['.', 'a']] ∧
      (cString ((namedHeader (spelled .plain [ascii ['.', 'a']] false)).from' .name) :
        Run ExitReason _) = .ok (spelled .plain [ascii ['.', 'a']] false) ∧
      ¬ CutsTo (namedHeader (spelled .plain [ascii ['.', 'a']] false)) [ascii ['.', 'a']] := by
  refine ⟨⟨by decide, by decide, by decide⟩, by decide +kernel, ?_⟩
  rintro ⟨walk, hsplit, hrows⟩
  have hempty : (split (namedHeader (spelled .plain [ascii ['.', 'a']] false)) Walk.declared >>=
      fun filled => filled.2.row 0) = .ok [] := by
    decide +kernel
  rw [hsplit, Run.ok_bind] at hempty
  have hrow : walk.row 0 = .ok (ascii ['.', 'a']) := hrows 0 _ rfl
  rw [hrow] at hempty
  exact absurd hempty (by decide)

end Tcb.Spellings
