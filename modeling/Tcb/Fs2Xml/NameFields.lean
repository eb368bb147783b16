import Tcb.Fs2Xml.Visits

/-!
# The path of a header and the path of its inode

A ustar header stores a path in two fields, and a name of a hundred bytes fills
its field without a terminator.  `MergeFile` reads the name as a C string and
never reads the prefix: what stands behind a full name field is read as a part
of the name, and what the prefix holds is lost.
-/

namespace Tcb.NameFields

open Tcb.CString
open Tcb.Inodes
open Tcb.Split
open Tcb.MergeFile
open Tcb.TableShape
open Tcb.Members

/-- `"ustar"` with its terminator, and the version behind it. -/
def ustarMagic : List Byte := ascii ['u', 's', 't', 'a', 'r'] ++ [0]
def ustarVersion : List Byte := ascii ['0', '0']

/-- The text of the prefix field, which other formats use for something else. -/
def prefixText (ph : HeaderPtr) : List Byte :=
  if ph.field .magic = ustarMagic ∧ ph.field .version = ustarVersion then
    (ph.field .namePrefix).takeWhile (· ≠ 0)
  else []

/-- The path that a header spells in its two fields. -/
structure Spells (ph : HeaderPtr) (name : List Byte) (path : List (List Byte))
    (slash : Bool) : Prop where
  nonempty : name ≠ []
  field : name.length = 100 ∧ ph.field .name = name ∨
    ∃ rest, ph.field .name = name ++ 0 :: rest
  full : nameText path slash =
    if prefixText ph = [] then name else prefixText ph ++ 47 :: name
  sized : path ≠ [] ∧ path.length ≤ walkRows
  parts : ∀ part ∈ path, part ≠ [] ∧ 0 ∉ part ∧ 47 ∉ part ∧ part.head? ≠ some 46

/-- What is read behind the name: nothing, or the string that starts in the
mode field when the name fills its own. -/
def RunsOn (ph : HeaderPtr) (name behind : List Byte) : Prop :=
  if name.length < 100 then behind = []
  else (cString (ph.from' .mode) : Run ExitReason _) = .ok behind

/-- The path is in the name field alone, and nothing but a slash runs on behind
it.  A path in two fields is read only when the bytes behind a full name happen
to repeat it. -/
def OneField (ph : HeaderPtr) (name behind : List Byte) (path : List (List Byte))
    (slash : Bool) : Prop :=
  prefixText ph = [] ∧ (behind = [] ∨ behind = [47] ∧ slash = false) ∨
    prefixText ph ≠ [] ∧ name.length = 100 ∧ ∃ trailing, name ++ behind = nameText path trailing

/-- The index of the inode that a member is taken for: the one that is found,
or the one that is appended. -/
def inodeOf (ph : HeaderPtr) (inodes : Table) : Run ExitReason ℤ := do
  let (parentid, component) ← locate ph inodes
  let ret := searchInode inodes component parentid
  return if ret = -1 then (inodes.length : ℤ) else ret

/-! ## The string that is read -/

section String

variable {ph : HeaderPtr} {name behind : List Byte} {path : List (List Byte)} {slash : Bool}

theorem Spells.nul_not_mem (hspells : Spells ph name path slash) : 0 ∉ name := by
  have hfull : 0 ∉ nameText path slash :=
    nul_not_mem_nameText hspells.sized.1 fun part hpart => (hspells.parts part hpart).2.1
  rw [hspells.full] at hfull
  split at hfull
  · exact hfull
  · exact fun hmem => hfull (by simp [hmem])

theorem Spells.length_le (hspells : Spells ph name path slash) : name.length ≤ 100 := by
  rcases hspells.field with ⟨hlength, -⟩ | ⟨rest, hfield⟩
  · exact hlength.le
  · have hwidth : (ph.field .name).length ≤ 100 := List.length_take_le _ _
    rw [hfield, List.length_append, List.length_cons] at hwidth
    omega

/-- `MergeFile` reads the name and what runs on behind it. -/
theorem cString_name (hspells : Spells ph name path slash) (hruns : RunsOn ph name behind) :
    (cString (ph.from' .name) : Run ExitReason _) = .ok (name ++ behind) := by
  have hnul := hspells.nul_not_mem
  have hmode : ph.from' .mode = (ph.from' .name).drop 100 := by
    rw [HeaderPtr.from', HeaderPtr.from', List.drop_drop]
    rfl
  have hname : ph.from' .name = ph.field .name ++ ph.from' .mode := by
    rw [hmode]
    exact ph.from'_eq_field_append .name
  rw [RunsOn] at hruns
  rcases hspells.field with ⟨hlength, hfield⟩ | ⟨rest, hfield⟩
  · rw [if_neg (by omega)] at hruns
    obtain ⟨hbehind, after, hafter⟩ := cString_eq_ok.mp hruns
    rw [cString_eq_ok]
    refine ⟨by simp [hnul, hbehind], after, ?_⟩
    rw [hname, hfield, hafter, List.append_assoc]
  · have hwidth : (ph.field .name).length ≤ 100 := List.length_take_le _ _
    rw [hfield, List.length_append, List.length_cons] at hwidth
    rw [if_pos (by omega)] at hruns
    rw [hruns, List.append_nil, hname, hfield, List.append_assoc, List.cons_append]
    exact cString_terminated hnul _

/-- The parts of the name are the last components of the path. -/
theorem Spells.rowsOf_eq (hspells : Spells ph name path slash) :
    ∃ front, rowsOf path slash = front ++ name.splitOn 47 := by
  have hrows : (nameText path slash).splitOn 47 = rowsOf path slash :=
    splitOn_nameText hspells.sized.1 fun part hpart => (hspells.parts part hpart).2.2.1
  rw [← hrows, hspells.full]
  split
  · exact ⟨[], rfl⟩
  · refine ⟨components [] (prefixText ph), ?_⟩
    rw [← components_nil_left, components_append_slash, components_nil_left name]

/-- The name starts with the start of a component. -/
theorem Spells.head_name (hspells : Spells ph name path slash) :
    ∃ byte rest, name = byte :: rest ∧ byte ≠ 46 ∧ byte ≠ 47 := by
  obtain ⟨front, hrows⟩ := hspells.rowsOf_eq
  obtain ⟨part, others, hsplit⟩ := List.exists_cons_of_ne_nil (List.splitOn_ne_nil 47 name)
  have hjoin : 47 :: name = joinedPath (part :: others) := by
    rw [← hsplit, joinedPath_eq_cons (List.splitOn_ne_nil 47 name), List.intercalate_splitOn]
  rw [hsplit] at hrows
  have hpart : part ∈ path := by
    by_cases hothers : others = []
    · have hmem : part ∈ rowsOf path slash := by simp [hrows]
      rw [hothers, joinedPath_singleton, List.cons.injEq] at hjoin
      exact (mem_rowsOf hmem).resolve_left (hjoin.2 ▸ hspells.nonempty)
    · cases slash with
      | false =>
          rw [rowsOf, if_neg Bool.false_ne_true] at hrows
          simp [hrows]
      | true =>
          -- the empty row behind the slash is the last one
          rw [rowsOf, if_pos rfl] at hrows
          have hfront : path = front ++ part :: others.dropLast := by
            rw [← @List.dropLast_concat _ path, hrows,
              List.dropLast_append_of_ne_nil (by simp), List.dropLast_cons_of_ne_nil hothers]
          simp [hfront]
  obtain ⟨hne, -, hslash, hdot⟩ := hspells.parts part hpart
  obtain ⟨byte, tail, rfl⟩ := List.exists_cons_of_ne_nil hne
  rw [joinedPath, List.flatMap_cons, List.cons_append, List.cons.injEq] at hjoin
  refine ⟨byte, _, hjoin.2, ?_, ?_⟩
  · rintro rfl
    exact hdot rfl
  · rintro rfl
    simp at hslash

/-- A string that starts with a component has exactly the parts of the path it
spells. -/
theorem headerPath_iff_spells {text : List Byte} {found : List (List Byte)}
    (hne : path ≠ []) (hparts : ∀ part ∈ path, part ≠ [] ∧ 0 ∉ part ∧ 47 ∉ part)
    (htext : (cString (ph.from' .name) : Run ExitReason _) = .ok text)
    (hstart : startOffset text = 0) (hfound : HeaderPath ph found) :
    HeaderPath ph path ↔ ∃ trailing, text = nameText path trailing := by
  obtain ⟨text', last, htext', hlast, hrows, hcolumns, -⟩ := id hfound
  rw [htext, Except.ok.injEq] at htext'
  subst htext'
  have hsplit : nameParts text = text.splitOn 47 := by rw [nameParts, hstart, List.drop_zero]
  constructor
  · rintro ⟨text', last', htext', hlast', -, -, hpath⟩
    rw [htext, Except.ok.injEq] at htext'
    subst htext'
    have hjoin : [47].intercalate (text.splitOn 47) = text := List.intercalate_splitOn 47
    rw [hsplit] at hpath
    by_cases htrailing : last' = 47
    · rw [if_pos htrailing] at hpath
      have hend : text.getLast? = some 47 := by
        rw [lastByte] at hlast'
        split at hlast'
        · rename_i byte hbyte
          rw [hbyte, Except.ok.inj hlast', htrailing]
        · rename_i hnone
          rw [List.getLast?_eq_none_iff] at hnone
          rw [hpath, hnone] at hne
          exact absurd rfl hne
      obtain ⟨front, rfl⟩ := List.getLast?_eq_some_iff.mp hend
      have hcut : (front ++ [47]).splitOn 47 = front.splitOn 47 ++ [[]] := by
        rw [← components_nil_left, components_append_slash, components_nil_left,
          components_nil]
      rw [hcut, List.dropLast_concat] at hpath
      exact ⟨true, by rw [nameText, rowsOf, if_pos rfl, hpath, ← hcut, hjoin]⟩
    · rw [if_neg htrailing] at hpath
      exact ⟨false, by rw [nameText, rowsOf, if_neg Bool.false_ne_true, hpath, hjoin]⟩
  · rintro ⟨trailing, rfl⟩
    obtain ⟨last', hlast', htrailing⟩ := @getLast?_nameText path trailing hne
      fun part hpart => ⟨(hparts part hpart).1, (hparts part hpart).2.2⟩
    have hlastByte : lastByte ph (nameText path trailing) = .ok last' := by
      rw [lastByte, hlast']
    refine ⟨_, last', htext, hlastByte, hrows, hcolumns, ?_⟩
    rw [hsplit, splitOn_nameText hne fun part hpart => (hparts part hpart).2.2]
    cases trailing <;> simp [htrailing, rowsOf]

theorem nameText_true (hne : path ≠ []) : nameText path true = nameText path false ++ [47] := by
  have htrue := cons_nameText hne true
  have hfalse := cons_nameText hne false
  rw [rowsOf, if_pos rfl, joinedPath_append, joinedPath_singleton] at htrue
  rw [rowsOf, if_neg Bool.false_ne_true] at hfalse
  rw [← hfalse, List.cons_append, List.cons.injEq] at htrue
  exact htrue.2

/-- The string that is read spells the path exactly when the path is in one
field and nothing but a slash runs on behind it. -/
theorem spells_iff_oneField (hspells : Spells ph name path slash)
    (hruns : RunsOn ph name behind) :
    (∃ trailing, name ++ behind = nameText path trailing) ↔
      OneField ph name behind path slash := by
  have hne := hspells.sized.1
  have hlonger : (nameText path true).length = (nameText path false).length + 1 := by
    rw [nameText_true hne, List.length_append, List.length_singleton]
  have hfull := hspells.full
  by_cases hfield : prefixText ph = []
  · rw [if_pos hfield] at hfull
    constructor
    · rintro ⟨trailing, hread⟩
      refine .inl ⟨hfield, ?_⟩
      have hlength := congrArg List.length hread
      rw [List.length_append, ← hfull] at hlength
      cases slash with
      | true =>
          have hnone : behind.length = 0 := by cases trailing <;> omega
          exact .inl (List.eq_nil_of_length_eq_zero hnone)
      | false =>
          cases trailing with
          | false => exact .inl (List.eq_nil_of_length_eq_zero (by omega))
          | true =>
              rw [nameText_true hne, ← hfull] at hread
              exact .inr ⟨List.append_cancel_left hread, rfl⟩
    · rintro (⟨-, rfl | ⟨rfl, rfl⟩⟩ | ⟨hnot, -⟩)
      · exact ⟨slash, by rw [List.append_nil, hfull]⟩
      · exact ⟨true, by rw [nameText_true hne, hfull]⟩
      · exact absurd hfield hnot
  · rw [if_neg hfield] at hfull
    constructor
    · rintro ⟨trailing, hread⟩
      refine .inr ⟨hfield, ?_, trailing, hread⟩
      by_contra hshort
      have hle := hspells.length_le
      rw [RunsOn, if_pos (by omega)] at hruns
      rw [hruns, List.append_nil] at hread
      have hlength := congrArg List.length hfull
      have hpos := List.length_pos_iff.mpr hfield
      rw [List.length_append, List.length_cons, hread] at hlength
      cases slash <;> cases trailing <;> omega
    · rintro (⟨hnot, -⟩ | ⟨-, -, hread⟩)
      · exact absurd hnot hfield
      · exact hread

end String

/-! ## The inode of a member -/

section Member

variable {ph : HeaderPtr} {inodes merged : Table} {id : ℤ}

theorem inodeOf_eq_ok :
    inodeOf ph inodes = .ok id ↔ ∃ parentid component,
      locate ph inodes = .ok (parentid, component) ∧
        (if searchInode inodes component parentid = -1 then (inodes.length : ℤ)
          else searchInode inodes component parentid) = id := by
  simp only [inodeOf, Run.bind_eq_ok, Prod.exists, Run.pure_eq_ok, Except.ok.injEq]

/-- The inode that a member is taken for has the path that `MergeFile` reads. -/
theorem inodeOf_path (hshape : Shape inodes) (hrun : mergeFile ph inodes = .ok merged)
    (hid : inodeOf ph inodes = .ok id) :
    ∃ found, HeaderPath ph found ∧ PathTo merged id found := by
  obtain ⟨parentid, component, hlocate, rfl⟩ := inodeOf_eq_ok.mp hid
  obtain ⟨front, hpath, hfront⟩ := locate_eq_ok.mp hlocate
  obtain ⟨parentid', component', flag, hlocate', -, hmerged⟩ := mergeFile_eq_ok.mp hrun
  rw [hlocate, Except.ok.injEq, Prod.mk.injEq] at hlocate'
  obtain ⟨rfl, rfl⟩ := hlocate'
  refine ⟨front ++ [component], hpath, ?_⟩
  cases hmerged with
  | existing hfound =>
      rw [if_neg hfound]
      exact (resolve_eq_some_iff hshape).mp
        (ParentTable.resolve_concat_eq_some.mpr ⟨parentid, hfront, rfl, hfound⟩)
  | @added node hnew hroom hnode =>
      rw [if_pos hnew]
      obtain ⟨hnul, -, hlength⟩ := hpath.mem (show component ∈ front ++ [component] by simp)
      have hfresh := newInode_fresh hnul hlength hnode
      have hparent := ((resolve_eq_some_iff hshape).mp hfront).append [node]
      rw [← hfresh.parentid] at hparent
      rw [← hfresh.name]
      exact .child List.getElem?_concat_length hparent

end Member

section Path

variable {ph : HeaderPtr} {name behind : List Byte} {path : List (List Byte)} {slash : Bool}
  {inodes merged : Table} {id : ℤ}

theorem pathTo_iff_oneField (hspells : Spells ph name path slash)
    (hruns : RunsOn ph name behind) (hshape : Shape inodes)
    (hrun : mergeFile ph inodes = .ok merged) (hid : inodeOf ph inodes = .ok id) :
    PathTo merged id path ↔ OneField ph name behind path slash := by
  obtain ⟨found, hfound, hpath⟩ := inodeOf_path hshape hrun hid
  obtain ⟨byte, rest, hname, hdot, hslash⟩ := hspells.head_name
  have hstart : startOffset (name ++ behind) = 0 := by
    simp [startOffset, hname, hdot, hslash]
  have hparts : ∀ part ∈ path, part ≠ [] ∧ 0 ∉ part ∧ 47 ∉ part := fun part hpart =>
    ⟨(hspells.parts part hpart).1, (hspells.parts part hpart).2.1,
      (hspells.parts part hpart).2.2.1⟩
  calc PathTo merged id path
      ↔ path = found :=
        ⟨fun hother => hother.unique hpath, fun heq => heq ▸ hpath⟩
    _ ↔ HeaderPath ph path :=
        ⟨fun heq => heq ▸ hfound, fun hother => hother.unique hfound⟩
    _ ↔ ∃ trailing, name ++ behind = nameText path trailing :=
        headerPath_iff_spells hspells.sized.1 hparts (cString_name hspells hruns) hstart hfound
    _ ↔ OneField ph name behind path slash := spells_iff_oneField hspells hruns

/-- The inode that a member is found as or added as has the member's path
exactly when the path is in one field and nothing runs on behind it; and then
no later member with another path is taken for the same inode. -/
theorem member_path_iff (hspells : Spells ph name path slash) (hruns : RunsOn ph name behind)
    (hreach : Reachable inodes) (hrun : mergeFile ph inodes = .ok merged)
    (hid : inodeOf ph inodes = .ok id) :
    (PathTo merged id path ↔ OneField ph name behind path slash) ∧
      (OneField ph name behind path slash →
        ∀ headers later, mergeAll headers merged = .ok later →
          ∀ ph' name' behind' path' slash' final, Spells ph' name' path' slash' →
            RunsOn ph' name' behind' → OneField ph' name' behind' path' slash' →
              mergeFile ph' later = .ok final → inodeOf ph' later = .ok id → path' = path) := by
  have hshape := reachable_shape hreach
  have hiff : PathTo merged id path ↔ OneField ph name behind path slash :=
    pathTo_iff_oneField hspells hruns hshape hrun hid
  refine ⟨hiff, ?_⟩
  intro hone headers later hlater ph' name' behind' path' slash' final hspells' hruns' hone'
    hrun' hid'
  have hshapeLater := mergeAll_shape (mergeFile_shape hshape hrun) hlater
  have hpath' : PathTo final id path' :=
    (pathTo_iff_oneField hspells' hruns' hshapeLater hrun' hid').mpr hone'
  have hfinal : mergeAll [ph'] later = .ok final := by
    rw [mergeAll, List.foldlM_cons, hrun']
    rfl
  exact hpath'.unique (pathTo_mergeAll hfinal (pathTo_mergeAll hlater (hiff.mpr hone)))

end Path

/-! ## A full name, and a path in two fields -/

theorem spells_smallFile :
    Spells (TarHeader.memberHeader TarHeader.smallFile) (ascii ['a', '/', 'b'])
      [ascii ['a'], ascii ['b']] false where
  nonempty := by decide
  field := .inr ⟨List.replicate 96 0, by decide +kernel⟩
  full := by decide +kernel
  sized := by decide
  parts := by decide

theorem member_path_smallFile :
    PathTo TarHeader.smallTable 1 [ascii ['a'], ascii ['b']] ↔
      OneField (TarHeader.memberHeader TarHeader.smallFile) (ascii ['a', '/', 'b']) []
        [ascii ['a'], ascii ['b']] false :=
  (member_path_iff spells_smallFile (by rw [RunsOn]; rfl)
    ⟨[TarHeader.memberHeader (TarHeader.nestedDirectory 0)],
      by rw [mergeAll, List.foldlM_cons, Visits.mergeFile_nestedDirectory]; rfl⟩
    Visits.mergeFile_smallFile (by decide +kernel)).1

/-- The header of a directory with a name that fills its field. -/
def fullName : List Byte := List.replicate 100 97

def fullNameHeader : HeaderPtr :=
  ⟨fullName ++ (TarHeader.tarHeader (TarHeader.nestedDirectory 0)).drop 100, 0⟩

/-- The header of the directory `p/a/` with its path in two fields. -/
def twoFieldsHeader : HeaderPtr :=
  ⟨(TarHeader.tarHeader (TarHeader.nestedDirectory 0)).take 345 ++
    (TarHeader.paddedText 155 (ascii ['p']) ++ List.replicate 12 0), 0⟩

theorem pathTo_single {merged : Table} {name : List Byte} {path : List (List Byte)}
    (hsingle : merged.map (fun node => (nameOf node, node.parentid)) = [(name, -1)]) :
    PathTo merged 0 path ↔ path = [name] := by
  obtain ⟨node, rfl, hnode⟩ := List.map_eq_singleton_iff.mp hsingle
  obtain ⟨rfl, hparent⟩ := Prod.mk.injEq .. ▸ hnode
  have hroot : PathTo [node] node.parentid [] := by
    rw [hparent]
    exact .root
  have hpath : PathTo [node] 0 [nameOf node] := .child rfl hroot
  exact ⟨fun hother => hother.unique hpath, fun heq => heq ▸ hpath⟩

/-- A table of one inode at the top, and a path that is not its name. -/
theorem not_pathTo_single {ph : HeaderPtr} {name : List Byte} {path : List (List Byte)}
    (hrun : (fun merged => merged.map fun node => (nameOf node, node.parentid)) <$>
      mergeFile ph [] = .ok [(name, -1)]) (hother : path ≠ [name]) :
    ∃ merged, mergeFile ph [] = .ok merged ∧ ¬ PathTo merged 0 path := by
  obtain ⟨merged, hmerged, hsingle⟩ := Run.map_eq_ok.mp hrun
  exact ⟨merged, hmerged, mt (pathTo_single hsingle).mp hother⟩

/-- The bytes of the mode become a part of the name, and the prefix is lost. -/
theorem fullName_twoFields :
    (Spells fullNameHeader fullName [fullName] false ∧
      inodeOf fullNameHeader [] = .ok 0 ∧
      ∃ merged, mergeFile fullNameHeader [] = .ok merged ∧ ¬ PathTo merged 0 [fullName]) ∧
    (Spells twoFieldsHeader (ascii ['a', '/']) [ascii ['p'], ascii ['a']] true ∧
      inodeOf twoFieldsHeader [] = .ok 0 ∧
      ∃ merged, mergeFile twoFieldsHeader [] = .ok merged ∧
        ¬ PathTo merged 0 [ascii ['p'], ascii ['a']]) := by
  refine ⟨⟨⟨by decide, .inl ⟨by decide, by decide +kernel⟩, by decide +kernel, by decide,
    by decide⟩, by decide +kernel, ?_⟩,
    ⟨⟨by decide, .inr ⟨List.replicate 97 0, by decide +kernel⟩, by decide +kernel, by decide,
    by decide⟩, by decide +kernel, ?_⟩⟩
  · exact @not_pathTo_single _ (fullName ++ ascii ['0', '0', '0', '0', '7', '5', '5']) _
      (by decide +kernel) (by decide +kernel)
  · exact @not_pathTo_single _ (ascii ['a']) _ (by decide +kernel) (by decide +kernel)

end Tcb.NameFields
