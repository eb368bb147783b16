import Tcb.Fs2Xml.Spellings

/-!
# Which names fit into `walk`

`Split` has no bounds of its own: it reads `name[n-1]` of an empty name, counts
no component at all in a name that is only a slash, and writes as many rows and
columns as the name has.  The names for which it stays inside its arrays are
described by their parts.
-/

namespace Tcb.WalkBounds

open Tcb.CString
open Tcb.Inodes
open Tcb.Split
open Tcb.MergeFile

/-- The calls of `MergeFile` on the name read no byte before it, return a count
between one and the number of rows, and read only rows that were written. -/
structure StaysInside (ph : HeaderPtr) (text : List Byte) (n : ℤ) (walk : Walk) : Prop where
  string : (cString (ph.from' .name) : Run ExitReason _) = .ok text
  nonempty : text ≠ []
  returned : split ph Walk.declared = .ok (n, walk)
  atLeast : 1 ≤ n
  atMost : n ≤ walkRows
  rows : ∀ row : ℕ, (row : ℤ) < n → ∃ part,
    (nameParts text)[row]? = some part ∧ walk.row (row : ℤ) = .ok part

/-- The string of the name field ends inside the buffer, is neither empty nor
only a lead, and its parts fit into the rows. -/
def Fits (ph : HeaderPtr) : Prop :=
  ∃ text, (cString (ph.from' .name) : Run ExitReason _) = .ok text ∧
    text ≠ [] ∧ text ≠ [47] ∧ text ≠ [46, 47] ∧ (nameParts text).length ≤ walkRows ∧
    ∀ part ∈ nameParts text, part.length < walkColumns

/-- A name that ends in a slash has two parts, unless it is only a lead. -/
theorem two_le_length_nameParts {text : List Byte} (hlast : text.getLast? = some 47)
    (hslash : text ≠ [47]) (hdot : text ≠ [46, 47]) : 2 ≤ (nameParts text).length := by
  have hmem : 47 ∈ text.drop (startOffset text) := by
    obtain ⟨front, rfl⟩ := List.getLast?_eq_some_iff.mp hlast
    have hstart : startOffset (front ++ [47]) ≤ front.length := by
      cases front with
      | nil => exact absurd rfl hslash
      | cons byte front =>
          cases front with
          | nil =>
              have hbyte : byte ≠ 46 := by
                rintro rfl
                exact hdot rfl
              by_cases hfirst : byte = 47 <;> simp [startOffset, hbyte, hfirst]
          | cons next front =>
              rw [startOffset]
              split
              · simp
              · split <;> simp
    rw [List.drop_append_of_le_length hstart]
    simp
  by_contra hshort
  have hpos := List.length_pos_iff.mpr (nameParts_ne_nil text)
  obtain ⟨part, hpart⟩ := List.length_eq_one_iff.mp
    (show (nameParts text).length = 1 by omega)
  have hnot := slash_not_mem_nameParts (show part ∈ nameParts text by simp [hpart])
  have hjoin : [47].intercalate (nameParts text) = text.drop (startOffset text) :=
    List.intercalate_splitOn 47
  rw [hpart, List.intercalate_singleton] at hjoin
  exact hnot (hjoin ▸ hmem)

/-- The calls on a name stay inside the arrays exactly when it fits. -/
theorem staysInside_iff (ph : HeaderPtr) :
    (∃ text n walk, StaysInside ph text n walk) ↔ Fits ph := by
  constructor
  · rintro ⟨text, n, walk, hinside⟩
    obtain ⟨text', hresult⟩ := split_eq_ok hinside.returned
    have hsame : text = text' :=
      Except.ok.inj (hinside.string.symm.trans hresult.string)
    subst hsame
    obtain ⟨last, hlast, hcount⟩ := hresult.count
    have hatLeast := hinside.atLeast
    -- a name that is only a lead has no component
    have hlead : text.getLast? = some 47 → (nameParts text).length ≠ 1 := by
      intro hslash hone
      rw [lastByte, hslash, Except.ok.injEq] at hlast
      rw [← hlast, if_pos rfl] at hcount
      omega
    refine ⟨text, hinside.string, hinside.nonempty, ?_, ?_, hresult.rows, hresult.columns⟩
    · rintro rfl
      exact hlead rfl (by decide)
    · rintro rfl
      exact hlead rfl (by decide)
  · rintro ⟨text, htext, hne, hslash, hdot, hrows, hcolumns⟩
    obtain ⟨last, hlast⟩ := Option.ne_none_iff_exists'.mp
      (mt List.getLast?_eq_none_iff.mp hne)
    have hlastByte : lastByte ph text = .ok last := by rw [lastByte, hlast]
    obtain ⟨⟨n, walk⟩, hsplit⟩ := split_returns htext hlastByte hrows hcolumns
    obtain ⟨text', hresult⟩ := split_eq_ok hsplit
    have hsame : text = text' := Except.ok.inj (htext.symm.trans hresult.string)
    subst hsame
    obtain ⟨last', hlast', hcount⟩ := hresult.count
    rw [hlastByte, Except.ok.injEq] at hlast'
    subst hlast'
    have hpos := List.length_pos_iff.mpr (nameParts_ne_nil text)
    have htwo : last = 47 → 2 ≤ (nameParts text).length := by
      rintro rfl
      exact two_le_length_nameParts hlast hslash hdot
    have hrange : 1 ≤ n ∧ n ≤ (nameParts text).length := by
      split at hcount
      · rename_i htrailing
        have hparts := htwo htrailing
        omega
      · omega
    refine ⟨text, n, walk, htext, hne, hsplit, hrange.1, ?_, ?_⟩
    · exact hrange.2.trans (by exact_mod_cast hrows)
    · intro row hrow
      have hlt : row < (nameParts text).length := by omega
      exact ⟨(nameParts text)[row], by simp [hlt], hresult.row row _ (by simp [hlt])⟩

/-- An empty name, a name that is only a slash, and one with thirteen
components. -/
theorem not_staysInside :
    (¬ ∃ text n walk, StaysInside (Spellings.namedHeader []) text n walk) ∧
      (¬ ∃ text n walk, StaysInside (Spellings.namedHeader [47]) text n walk) ∧
      ¬ ∃ text n walk, StaysInside
        (Spellings.namedHeader ([47].intercalate (List.replicate 13 (ascii ['a'])))) text n
          walk := by
  refine ⟨?_, ?_, ?_⟩
  · rintro ⟨text, n, walk, hinside⟩
    have hempty : (cString ((Spellings.namedHeader []).from' .name) : Run ExitReason _) =
        .ok [] := by
      decide +kernel
    exact hinside.nonempty (Except.ok.inj (hinside.string.symm.trans hempty))
  · rintro ⟨text, n, walk, hinside⟩
    have hzero : Prod.fst <$> split (Spellings.namedHeader [47]) Walk.declared = .ok 0 := by
      decide +kernel
    have hatLeast := hinside.atLeast
    rw [hinside.returned, Run.map_ok, Except.ok.injEq] at hzero
    simp only at hzero
    omega
  · rintro ⟨text, n, walk, hinside⟩
    have hfault : Prod.fst <$> split
        (Spellings.namedHeader ([47].intercalate (List.replicate 13 (ascii ['a']))))
        Walk.declared = Run.fault .outOfBounds := by
      decide +kernel
    rw [hinside.returned] at hfault
    exact absurd hfault (by simp [Run.fault])

end Tcb.WalkBounds
