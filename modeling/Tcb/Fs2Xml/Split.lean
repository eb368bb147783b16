import Tcb.Fs2Xml.Inodes

/-!
# Cutting a header name into components

`Split` copies a name into the rows of `walk[12][128]`, one row for each
component.  It has no bound checks of its own; the model faults on the first
write outside a row or behind the last row, and the main theorem says that the
rows it leaves behind are exactly the parts between the slashes.
-/

namespace Tcb.Split

open Tcb.CString
open Tcb.Inodes

abbrev walkRows : ℕ := 12
abbrev walkColumns : ℕ := 128

instance : NeZero walkRows := ⟨by decide⟩

/-- `char walk[12][128]`. -/
abbrev Walk := List (List Byte)

/-- The array as `MergeFile` declares it.  It is uninitialised in the source;
no read sees a byte that was not written before. -/
def Walk.declared : Walk := List.replicate walkRows (List.replicate walkColumns 0)

/-- `walk[row][column] = byte`. -/
def Walk.store (walk : Walk) (row column : ℕ) (byte : Byte) :
    Run ExitReason Walk := do
  Run.require (row < walkRows ∧ column < walkColumns)
  return walk.modify row (·.set column byte)

/-- The string in `walk[row]`. -/
def Walk.row (walk : Walk) (row : ℤ) : Run ExitReason (List Byte) := do
  Run.require (0 ≤ row ∧ row < walkRows)
  cString (walk.getD row.toNat [])

/-- The `for` loop over the bytes of the name from the start offset on;
`'/'` is 47. -/
def splitLoop : List Byte → ℕ → ℕ → Walk → Run ExitReason (ℕ × ℕ × Walk)
  | [], pn, p, walk => .ok (pn, p, walk)
  | byte :: rest, pn, p, walk =>
      if byte = 47 then do
        let walk ← walk.store pn p 0
        splitLoop rest (pn + 1) 0 walk
      else do
        let walk ← walk.store pn p byte
        splitLoop rest pn (p + 1) walk

/-- The offset at which the loop starts: behind a leading `'/'`, or behind the
first two bytes when the name starts with `'.'`. -/
def startOffset (text : List Byte) : ℕ :=
  if text.head? = some 46 then 2 else if text.head? = some 47 then 1 else 0

/-- `name[n-1]`, which for an empty name is the byte before the header. -/
def lastByte (ph : HeaderPtr) (text : List Byte) : Run ExitReason Byte :=
  match text.getLast? with
  | some byte => .ok byte
  | none =>
      if ph.pos = 0 then Run.fault .outOfBounds
      else
        match ph.buf[ph.pos - 1]? with
        | some byte => .ok byte
        | none => Run.fault .outOfBounds

/-- `Split(ph->name, walk)`: the number of components and the filled array. -/
def split (ph : HeaderPtr) (walk : Walk) : Run ExitReason (ℤ × Walk) := do
  let text ← cString (ph.from' .name)
  let (pn, p, walk) ← splitLoop (text.drop (startOffset text)) 0 0 walk
  let walk ← walk.store pn p 0
  let last ← lastByte ph text
  let pn : ℤ := if last = 47 then (pn : ℤ) - 1 else pn
  return (pn + 1, walk)

/-! ## The rows of the array -/

/-- The array has its declared size. -/
def Walk.Sized (walk : Walk) : Prop :=
  walk.length = walkRows ∧ ∀ row ∈ walk, row.length = walkColumns

/-- The row starts with the given bytes. -/
def Walk.Begins (walk : Walk) (row : ℕ) (text : List Byte) : Prop :=
  ∃ tail, walk[row]? = some (text ++ tail)

theorem Walk.declared_sized : Walk.declared.Sized := by
  refine ⟨by simp [Walk.declared], ?_⟩
  intro row hrow
  rw [List.eq_of_mem_replicate hrow]
  simp

theorem Walk.Sized.begins_nil {walk : Walk} (hsized : walk.Sized) {row : ℕ}
    (hrow : row < walkRows) : walk.Begins row [] := by
  have hlength : row < walk.length := by rw [hsized.1]; exact hrow
  exact ⟨walk[row], by simp [hlength]⟩

theorem Walk.store_eq_ok {walk filled : Walk} {row column : ℕ} {byte : Byte} :
    walk.store row column byte = .ok filled ↔
      (row < walkRows ∧ column < walkColumns) ∧
        walk.modify row (·.set column byte) = filled := by
  rw [Walk.store, Run.require_bind_eq_ok]
  simp

theorem Walk.Sized.modify {walk : Walk} (hsized : walk.Sized) (row column : ℕ)
    (byte : Byte) : Walk.Sized (walk.modify row (·.set column byte)) := by
  refine ⟨by simpa using hsized.1, ?_⟩
  intro other hother
  obtain ⟨index, hindex⟩ := List.mem_iff_getElem?.mp hother
  rw [List.getElem?_modify] at hindex
  obtain ⟨before, hbefore, rfl⟩ := Option.map_eq_some_iff.mp hindex
  have hlength := hsized.2 before (List.mem_of_getElem? hbefore)
  split <;> simpa using hlength

/-- Storing behind the bytes already written extends them by one. -/
theorem Walk.Begins.store {walk : Walk} {row : ℕ} {text : List Byte}
    (hbegins : walk.Begins row text) (hsized : walk.Sized)
    (hroom : text.length < walkColumns) (byte : Byte) :
    Walk.Begins (walk.modify row (·.set text.length byte)) row (text ++ [byte]) := by
  obtain ⟨tail, htail⟩ := hbegins
  have hlength := hsized.2 _ (List.mem_of_getElem? htail)
  cases tail with
  | nil =>
      simp only [List.append_nil] at hlength
      omega
  | cons old tail =>
      refine ⟨tail, ?_⟩
      rw [List.getElem?_modify, htail]
      simp [List.set_append_right]

theorem Walk.Begins.of_getElem?_eq {walk other : Walk} {row : ℕ}
    {text : List Byte} (hbegins : walk.Begins row text)
    (heq : other[row]? = walk[row]?) : other.Begins row text := by
  obtain ⟨tail, htail⟩ := hbegins
  exact ⟨tail, heq.trans htail⟩

theorem getElem?_modify_of_lt {walk : Walk} {row pn : ℕ} (hearlier : row < pn)
    {f : List Byte → List Byte} : (walk.modify pn f)[row]? = walk[row]? := by
  rw [List.getElem?_modify]
  simp [show pn ≠ row by omega]

/-- A terminated row is read back as the string it holds. -/
theorem Walk.Begins.row {walk : Walk} {row : ℕ} {text : List Byte}
    (hbegins : walk.Begins row (text ++ [0])) (hnul : 0 ∉ text)
    (hrow : row < walkRows) : walk.row (row : ℤ) = .ok text := by
  obtain ⟨tail, htail⟩ := hbegins
  have hbounds : (0 : ℤ) ≤ row ∧ (row : ℤ) < (walkRows : ℕ) := by
    simp only [walkRows] at hrow ⊢
    omega
  rw [Walk.row, Run.require, if_pos hbounds, Run.ok_bind, Int.toNat_natCast,
    List.getD_eq_getElem?_getD, htail, Option.getD_some, List.append_assoc,
    List.singleton_append]
  exact cString_terminated hnul tail

/-! ## The parts between the slashes -/

/-- The components of a name whose current component already holds `current`. -/
def components (current text : List Byte) : List (List Byte) :=
  (text.splitOn 47).modifyHead (current ++ ·)

@[simp]
theorem components_nil (current : List Byte) :
    components current [] = [current] := by
  simp [components]

@[simp]
theorem components_slash (current rest : List Byte) :
    components current (47 :: rest) = current :: components [] rest := by
  cases h : rest.splitOn (47 : Byte) <;>
    simp [components, List.splitOn_cons_eq_if_modifyHead, h]

theorem components_byte {byte : Byte} (hbyte : byte ≠ 47)
    (current rest : List Byte) :
    components current (byte :: rest) = components (current ++ [byte]) rest := by
  cases h : rest.splitOn (47 : Byte) <;>
    simp [components, List.splitOn_cons_eq_if_modifyHead, h, hbyte]

theorem components_nil_left (text : List Byte) :
    components [] text = text.splitOn 47 := by
  cases h : text.splitOn (47 : Byte) <;> simp [components, h]

theorem components_length_pos (current text : List Byte) :
    0 < (components current text).length := by
  simpa [components] using List.length_pos_iff.mpr (List.splitOn_ne_nil 47 text)

/-- The parts on both sides of a slash are cut apart independently. -/
theorem components_append_slash (current left right : List Byte) :
    components current (left ++ 47 :: right) =
      components current left ++ components [] right := by
  induction left generalizing current with
  | nil => simp
  | cons byte left ih =>
      by_cases hbyte : byte = 47
      · subst hbyte
        rw [List.cons_append, components_slash, components_slash, ih, List.cons_append]
      · rw [List.cons_append, components_byte hbyte, components_byte hbyte, ih]

theorem exists_mem_components_begins (current text : List Byte) :
    ∃ part ∈ components current text, current <+: part := by
  induction text generalizing current with
  | nil => exact ⟨current, by simp, List.prefix_rfl⟩
  | cons byte rest ih =>
      by_cases hbyte : byte = 47
      · subst hbyte
        exact ⟨current, by simp, List.prefix_rfl⟩
      · rw [components_byte hbyte]
        obtain ⟨part, hpart, hbegins⟩ := ih (current ++ [byte])
        exact ⟨part, hpart, (List.prefix_append _ _).trans hbegins⟩

/-- What is left of the loop together with the store of the last terminator. -/
def fillRows (text : List Byte) (pn p : ℕ) (walk : Walk) :
    Run ExitReason (ℕ × Walk) := do
  let (pn, p, walk) ← splitLoop text pn p walk
  let walk ← walk.store pn p 0
  return (pn, walk)

theorem fillRows_slash (rest : List Byte) (pn p : ℕ) (walk : Walk) :
    fillRows (47 :: rest) pn p walk =
      walk.store pn p 0 >>= fillRows rest (pn + 1) 0 := by
  simp only [fillRows, splitLoop, if_true, bind_assoc]
  rfl

theorem fillRows_byte {byte : Byte} (hbyte : byte ≠ 47) (rest : List Byte)
    (pn p : ℕ) (walk : Walk) :
    fillRows (byte :: rest) pn p walk =
      walk.store pn p byte >>= fillRows rest pn (p + 1) := by
  simp only [fillRows, splitLoop, hbyte, if_false, bind_assoc]
  rfl

/-- The rows written from a current component on, and what they leave alone. -/
structure Filled (before after : Walk) (first : ℕ) (parts : List (List Byte)) :
    Prop where
  sized : after.Sized
  earlier : ∀ row < first, after[row]? = before[row]?
  begins : ∀ index part, parts[index]? = some part →
    after.Begins (first + index) (part ++ [0])

/-- The loop succeeds exactly when every component fits into a row and there
is a row for every component; it then leaves the components behind. -/
theorem fillRows_eq_ok {text : List Byte} (current : List Byte) {pn : ℕ} {walk : Walk}
    (hsized : walk.Sized) (hbegins : pn < walkRows → walk.Begins pn current)
    {last : ℕ} {filled : Walk}
    (hrun : fillRows text pn current.length walk = .ok (last, filled)) :
    last + 1 = pn + (components current text).length ∧ last < walkRows ∧
      Filled walk filled pn (components current text) := by
  induction text generalizing current pn walk with
  | nil =>
      simp only [fillRows, splitLoop, Run.ok_bind, Run.bind_eq_ok,
        Walk.store_eq_ok, Run.pure_eq_ok, Except.ok.injEq, Prod.mk.injEq] at hrun
      obtain ⟨stored, ⟨⟨hrow, hcolumn⟩, rfl⟩, rfl, rfl⟩ := hrun
      refine ⟨by simp, hrow, hsized.modify _ _ _, ?_, ?_⟩
      · intro row hearlier
        rw [getElem?_modify_of_lt hearlier]
      · intro index part hpart
        have hindex : index = 0 := by
          have := List.getElem?_eq_some_iff.mp hpart
          obtain ⟨hlt, -⟩ := this
          simpa using hlt
        subst hindex
        simp only [components_nil, List.getElem?_cons_zero, Option.some.injEq] at hpart
        subst hpart
        exact (hbegins hrow).store hsized hcolumn 0
  | cons byte rest ih =>
      by_cases hbyte : byte = 47
      · subst hbyte
        rw [fillRows_slash, Run.bind_eq_ok] at hrun
        obtain ⟨stored, hstore, hrest⟩ := hrun
        obtain ⟨⟨hrow, hcolumn⟩, rfl⟩ := Walk.store_eq_ok.mp hstore
        have hstored := hsized.modify pn current.length 0
        obtain ⟨hlast, hlt, hfilled⟩ := ih [] hstored
          (fun h => hstored.begins_nil h) hrest
        rw [components_slash]
        refine ⟨by simp only [List.length_cons]; omega, hlt, hfilled.sized, ?_, ?_⟩
        · intro row hearlier
          rw [hfilled.earlier row (by omega), getElem?_modify_of_lt hearlier]
        · intro index part hpart
          cases index with
          | zero =>
              simp only [List.getElem?_cons_zero, Option.some.injEq] at hpart
              subst hpart
              exact ((hbegins hrow).store hsized hcolumn 0).of_getElem?_eq
                (hfilled.earlier pn (by omega))
          | succ index =>
              have hbegins' := hfilled.begins index part (by simpa using hpart)
              rwa [show pn + 1 + index = pn + (index + 1) by omega] at hbegins'
      · rw [fillRows_byte hbyte, Run.bind_eq_ok] at hrun
        obtain ⟨stored, hstore, hrest⟩ := hrun
        obtain ⟨⟨hrow, hcolumn⟩, rfl⟩ := Walk.store_eq_ok.mp hstore
        rw [show current.length + 1 = (current ++ [byte]).length by simp] at hrest
        obtain ⟨hlast, hlt, hfilled⟩ := ih _ (hsized.modify pn current.length byte)
          (fun _ => (hbegins hrow).store hsized hcolumn byte) hrest
        rw [components_byte hbyte]
        refine ⟨hlast, hlt, hfilled.sized, ?_, hfilled.begins⟩
        intro row hearlier
        rw [hfilled.earlier row hearlier, getElem?_modify_of_lt hearlier]

theorem fillRows_returns {text : List Byte} (current : List Byte) {pn : ℕ} {walk : Walk}
    (hrows : pn + (components current text).length ≤ walkRows)
    (hcolumns : ∀ part ∈ components current text, part.length < walkColumns) :
    Run.Returns (fillRows text pn current.length walk) := by
  induction text generalizing current pn walk with
  | nil =>
      simp only [components_nil, List.length_cons, List.length_nil,
        List.mem_singleton, forall_eq] at hrows hcolumns
      refine ⟨(pn, walk.modify pn (·.set current.length 0)), ?_⟩
      simp only [fillRows, splitLoop, Run.ok_bind]
      rw [Walk.store_eq_ok.mpr ⟨⟨by omega, hcolumns⟩, rfl⟩]
      rfl
  | cons byte rest ih =>
      by_cases hbyte : byte = 47
      · subst hbyte
        rw [components_slash] at hrows hcolumns
        simp only [List.length_cons] at hrows
        rw [fillRows_slash,
          Walk.store_eq_ok.mpr ⟨⟨by omega, hcolumns current (by simp)⟩, rfl⟩]
        exact ih [] (by omega)
          (fun part hpart => hcolumns part (by simp [hpart]))
      · rw [components_byte hbyte] at hrows hcolumns
        have hpos := components_length_pos (current ++ [byte]) rest
        have hcurrent : current.length < walkColumns := by
          obtain ⟨part, hpart, hbegins⟩ :=
            exists_mem_components_begins (current ++ [byte]) rest
          have hlength := hbegins.length_le
          have hfits := hcolumns part hpart
          simp only [List.length_append, List.length_singleton] at hlength
          omega
        rw [fillRows_byte hbyte,
          Walk.store_eq_ok.mpr ⟨⟨by omega, hcurrent⟩, rfl⟩,
          show current.length + 1 = (current ++ [byte]).length by simp]
        exact ih _ hrows hcolumns

/-! ## The specification of `Split` -/

/-- The parts of a name between its slashes, from the start offset on. -/
def nameParts (text : List Byte) : List (List Byte) :=
  (text.drop (startOffset text)).splitOn 47

/-- The names joined by slashes, each behind one. -/
def joinedPath (names : List (List Byte)) : List Byte :=
  names.flatMap fun name => 47 :: name

@[simp]
theorem joinedPath_append (left right : List (List Byte)) :
    joinedPath (left ++ right) = joinedPath left ++ joinedPath right := by
  simp [joinedPath]

@[simp]
theorem joinedPath_singleton (name : List Byte) : joinedPath [name] = 47 :: name := by
  simp [joinedPath]

theorem joinedPath_eq_cons {names : List (List Byte)} (hne : names ≠ []) :
    joinedPath names = 47 :: [47].intercalate names := by
  induction names with
  | nil => exact absurd rfl hne
  | cons name rest ih =>
      cases rest with
      | nil => simp
      | cons next rest =>
          have htail := ih (by simp)
          rw [joinedPath, List.flatMap_cons, ← joinedPath, htail,
            List.intercalate_cons_cons]
          simp

theorem joinedPath_dropLast_le (names : List (List Byte)) :
    (joinedPath names.dropLast).length ≤ (joinedPath names).length := by
  have hsub : List.Sublist (joinedPath names.dropLast) (joinedPath names) :=
    (List.dropLast_sublist names).flatMap _
  exact hsub.length_le

theorem nameParts_ne_nil (text : List Byte) : nameParts text ≠ [] :=
  List.splitOn_ne_nil _ _

/-- The parts of a name are the bytes behind the offset and a slash. -/
theorem length_joinedPath_nameParts (text : List Byte) :
    (joinedPath (nameParts text)).length = (text.length - startOffset text) + 1 := by
  rw [joinedPath_eq_cons (nameParts_ne_nil text), nameParts, List.intercalate_splitOn,
    List.length_cons, List.length_drop]

theorem not_mem_of_mem_components {byte : Byte} {current text : List Byte}
    (hcurrent : byte ∉ current) (htext : byte ∉ text) :
    ∀ part ∈ components current text, byte ∉ part := by
  induction text generalizing current with
  | nil => simpa using hcurrent
  | cons head rest ih =>
      simp only [List.mem_cons, not_or] at htext
      by_cases hhead : head = 47
      · subst hhead
        simp only [components_slash, List.mem_cons, forall_eq_or_imp]
        exact ⟨hcurrent, ih (by simp) htext.2⟩
      · rw [components_byte hhead]
        exact ih (by simp [hcurrent, htext.1]) htext.2

theorem slash_not_mem_components {current text : List Byte}
    (hcurrent : 47 ∉ current) :
    ∀ part ∈ components current text, 47 ∉ part := by
  induction text generalizing current with
  | nil => simpa using hcurrent
  | cons head rest ih =>
      by_cases hhead : head = 47
      · subst hhead
        simp only [components_slash, List.mem_cons, forall_eq_or_imp]
        exact ⟨hcurrent, ih (by simp)⟩
      · rw [components_byte hhead]
        exact ih (by simp [hcurrent, Ne.symm hhead])

theorem not_mem_of_mem_nameParts {byte : Byte} {text part : List Byte}
    (htext : byte ∉ text) (hpart : part ∈ nameParts text) : byte ∉ part := by
  rw [nameParts, ← components_nil_left] at hpart
  exact not_mem_of_mem_components (by simp)
    (fun hmem => htext (List.mem_of_mem_drop hmem)) part hpart

theorem slash_not_mem_nameParts {text part : List Byte}
    (hpart : part ∈ nameParts text) : 47 ∉ part := by
  rw [nameParts, ← components_nil_left] at hpart
  exact slash_not_mem_components (by simp) part hpart

/-- What a call of `Split` that returns has found and written. -/
structure SplitResult (ph : HeaderPtr) (text : List Byte) (n : ℤ) (walk : Walk) :
    Prop where
  string : (cString (ph.from' .name) : Run ExitReason _) = .ok text
  rows : (nameParts text).length ≤ walkRows
  columns : ∀ part ∈ nameParts text, part.length < walkColumns
  count : ∃ last, lastByte ph text = .ok last ∧
    n = if last = 47 then ((nameParts text).length : ℤ) - 1
      else (nameParts text).length
  row : ∀ (index : ℕ) part, (nameParts text)[index]? = some part →
    walk.row (index : ℤ) = .ok part

theorem split_eq_fillRows (ph : HeaderPtr) (walk : Walk) :
    split ph walk = do
      let text ← cString (ph.from' .name)
      let (pn, walk) ← fillRows (text.drop (startOffset text)) 0 0 walk
      let last ← lastByte ph text
      let pn : ℤ := if last = 47 then (pn : ℤ) - 1 else pn
      return (pn + 1, walk) := by
  simp only [split, fillRows, bind_assoc]
  rfl

theorem split_eq_ok {ph : HeaderPtr} {n : ℤ} {walk : Walk}
    (hrun : split ph Walk.declared = .ok (n, walk)) :
    ∃ text, SplitResult ph text n walk := by
  rw [split_eq_fillRows] at hrun
  simp only [Run.bind_eq_ok, Run.pure_eq_ok, Except.ok.injEq, Prod.mk.injEq,
    Prod.exists] at hrun
  obtain ⟨text, htext, pn, filled, hfill, last, hlast, rfl, rfl⟩ := hrun
  obtain ⟨hcount, hpn, hfilled⟩ := fillRows_eq_ok []
    Walk.declared_sized (fun h => Walk.declared_sized.begins_nil h) hfill
  rw [components_nil_left] at hcount hfilled
  have hnul : 0 ∉ text := (cString_eq_ok.mp htext).1
  have hrows : (nameParts text).length ≤ walkRows := by
    rw [nameParts]
    omega
  refine ⟨text, htext, hrows, ?_, ⟨last, hlast, ?_⟩, ?_⟩
  · intro part hpart
    obtain ⟨index, hindex⟩ := List.mem_iff_getElem?.mp hpart
    obtain ⟨tail, htail⟩ := hfilled.begins index part hindex
    have hlength := hfilled.sized.2 _ (List.mem_of_getElem? htail)
    simp only [List.length_append, List.length_singleton] at hlength
    omega
  · rw [nameParts]
    split <;> omega
  · intro index part hpart
    have hindex := (List.getElem?_eq_some_iff.mp hpart).1
    have hbegins := hfilled.begins index part hpart
    rw [Nat.zero_add] at hbegins
    exact hbegins.row
      (not_mem_of_mem_nameParts hnul (List.mem_of_getElem? hpart)) (by omega)

theorem split_returns {ph : HeaderPtr} {text : List Byte} {last : Byte}
    (htext : (cString (ph.from' .name) : Run ExitReason _) = .ok text)
    (hlast : lastByte ph text = .ok last)
    (hrows : (nameParts text).length ≤ walkRows)
    (hcolumns : ∀ part ∈ nameParts text, part.length < walkColumns) :
    ∃ result, split ph Walk.declared = .ok result := by
  rw [split_eq_fillRows, htext, Run.ok_bind]
  rw [nameParts, ← components_nil_left] at hrows hcolumns
  obtain ⟨⟨pn, filled⟩, hfill⟩ : Run.Returns
      (fillRows (text.drop (startOffset text)) 0 0 Walk.declared) :=
    fillRows_returns [] (by omega) hcolumns
  rw [hfill, Run.ok_bind, hlast]
  exact ⟨_, rfl⟩

end Tcb.Split
