import Tcb.Fs2Xml.UnionByPath

/-!
# Merging headers of any kind

Nothing is assumed here about where the headers come from.  A sequence of
`MergeFile` calls returns exactly if every name has a path that fits, the
directory part of which some earlier header names, and if the first header of
every path makes an inode for which there is room; the table then holds what
the first headers make, in their order.  A header that was merged before can be
merged again without effect.
-/

namespace Tcb.FirstHeaders

open Tcb.CString
open Tcb.Inodes
open Tcb.Split
open Tcb.MergeFile
open Tcb.TableShape
open Tcb.FirstWins

/-! ## The inode of a header -/

/-- The same inode in another place. -/
def placed (name : CArray 128) (parentid : ℤ) (node : Inode) : Inode :=
  { node with name := name, parentid := parentid }

/-- What a header makes, wherever it is put. -/
def Makes (ph : HeaderPtr) (node : Inode) : Prop := newInode ph [] (-1) = .ok node

theorem applyTypeflag_placed {ph : HeaderPtr} {node : Inode} {name : CArray 128} {parentid : ℤ} :
    applyTypeflag ph (placed name parentid node) =
      placed name parentid <$> applyTypeflag ph node := by
  rw [applyTypeflag, applyTypeflag, map_bind]
  apply bind_congr
  intro flag
  by_cases h53 : flag = 53
  · rw [if_pos h53, if_pos h53]
    rfl
  by_cases h48 : flag = 48
  · rw [if_neg h53, if_pos h48, if_neg h53, if_pos h48, map_bind]
    rfl
  by_cases hlink : flag = 49 ∨ flag = 50
  · rw [if_neg h53, if_neg h48, if_pos hlink, if_neg h53, if_neg h48, if_pos hlink]
    by_cases hempty : (ph.from' .linkname).head? = some 0
    · rw [if_pos hempty, if_pos hempty]
      rfl
    · rw [if_neg hempty, if_neg hempty]
      by_cases h49 : flag = 49
      · rw [if_pos h49, if_pos h49, map_bind]
        rfl
      · rw [if_neg h49, if_neg h49]
        rfl
  · rw [if_neg h53, if_neg h48, if_neg hlink, if_neg h53, if_neg h48, if_neg hlink]
    rfl

/-- The place has no part in whether a header makes an inode. -/
theorem newInode_placed {ph : HeaderPtr} {component : List Byte} {parentid : ℤ}
    (hnul : 0 ∉ component) (hlength : component.length < walkColumns) :
    ∃ name : CArray 128,
      newInode ph component parentid = placed name parentid <$> newInode ph [] (-1) := by
  obtain ⟨name, hname, -⟩ := CArray.strncpy_whole (ε := ExitReason)
    (by decide : 127 < 128) hnul (Nat.le_of_lt_succ hlength) []
  obtain ⟨unnamed, hunnamed, -⟩ := CArray.strncpy_whole (ε := ExitReason)
    (by decide : 127 < 128) (List.not_mem_nil (a := (0 : Byte))) (Nat.zero_le 127) []
  refine ⟨name, ?_⟩
  rw [newInode, newInode, hname, hunnamed, Run.ok_bind, Run.ok_bind]
  simp only [map_bind]
  repeat (apply bind_congr; intro _)
  apply Eq.symm
  exact applyTypeflag_placed.symm

theorem newInode_eq_ok {ph : HeaderPtr} {component : List Byte} {parentid : ℤ}
    (hnul : 0 ∉ component) (hlength : component.length < walkColumns) :
    (∃ node, newInode ph component parentid = .ok node) ↔ ∃ node, Makes ph node := by
  obtain ⟨name, heq⟩ := @newInode_placed ph component parentid hnul hlength
  rw [heq]
  constructor
  · rintro ⟨node, hnode⟩
    obtain ⟨made, hmade, -⟩ := Run.map_eq_ok.mp hnode
    exact ⟨made, hmade⟩
  · rintro ⟨made, hmade⟩
    rw [Makes] at hmade
    rw [hmade]
    exact ⟨_, rfl⟩

/-! ## Tables of first headers -/

/-- The entries of the table stand in the order of the collected headers, each
at its path and as the header makes it. -/
structure Collected (inodes : Table) (kept : List (List (List Byte) × HeaderPtr)) : Prop where
  shape : Shape inodes
  length_eq : inodes.length = kept.length
  entry : ∀ (index : ℕ) node, inodes[index]? = some node → ∃ front ph,
    PathTo inodes node.parentid front ∧ kept[index]? = some (front ++ [nameOf node], ph) ∧
      newInode ph (nameOf node) node.parentid = .ok node

theorem collected_nil : Collected [] [] := ⟨ParentTable.shape_nil, rfl, by simp⟩

namespace Collected

variable {inodes : Table} {kept : List (List (List Byte) × HeaderPtr)}

theorem key_of_pathTo (hcollected : Collected inodes kept) {index : ℕ} {path : List (List Byte)}
    (hpath : PathTo inodes index path) : (keys kept)[index]? = some path := by
  obtain ⟨node, front, hnode, rfl, hfront⟩ := hpath.cases_nonneg
  obtain ⟨front', ph, hfront', hkept, -⟩ := hcollected.entry index node hnode
  rw [keys, List.getElem?_map, hkept, hfront.unique hfront']
  rfl

theorem mem_keys_iff (hcollected : Collected inodes kept) {path : List (List Byte)} :
    path ∈ keys kept ↔ ∃ index : ℕ, PathTo inodes index path := by
  constructor
  · intro hmem
    obtain ⟨⟨key, ph⟩, hpair, rfl⟩ := List.mem_map.mp hmem
    obtain ⟨index, hindex⟩ := List.mem_iff_getElem?.mp hpair
    have hlt : index < inodes.length := by
      rw [hcollected.length_eq]
      exact (List.getElem?_eq_some_iff.mp hindex).1
    have hnode : inodes[index]? = some inodes[index] := by simp [hlt]
    obtain ⟨front, ph', hfront, hkept, -⟩ := hcollected.entry index _ hnode
    rw [hindex, Option.some.injEq, Prod.mk.injEq] at hkept
    exact ⟨index, hkept.1 ▸ .child hnode hfront⟩
  · rintro ⟨index, hpath⟩
    exact List.mem_of_getElem? (hcollected.key_of_pathTo hpath)

/-- The path above a path leads to the root or to an entry. -/
theorem above_iff (hcollected : Collected inodes kept) {front : List (List Byte)} :
    front = [] ∨ front ∈ keys kept ↔ ∃ parentid, resolve inodes (-1) front = some parentid := by
  rw [hcollected.mem_keys_iff]
  constructor
  · rintro (rfl | ⟨index, hpath⟩)
    · exact ⟨-1, rfl⟩
    · exact ⟨index, (resolve_eq_some_iff hcollected.shape).mpr hpath⟩
  · rintro ⟨parentid, hresolve⟩
    have hpath := (resolve_eq_some_iff hcollected.shape).mp hresolve
    rcases hpath.index_cases with ⟨-, hnil⟩ | ⟨index, rfl, -⟩
    · exact .inl hnil
    · exact .inr ⟨index, hpath⟩

/-- The lookup of the last component decides whether a path is known. -/
theorem known_iff (hcollected : Collected inodes kept) {front : List (List Byte)}
    {component : List Byte} {parentid : ℤ} (hresolve : resolve inodes (-1) front = some parentid) :
    searchInode inodes component parentid ≠ -1 ↔ front ++ [component] ∈ keys kept := by
  have hnext : ∀ {id : ℤ}, resolve inodes (-1) (front ++ [component]) = some id ↔
      searchInode inodes component parentid = id ∧ id ≠ -1 := by
    intro id
    rw [resolve, ParentTable.resolve_concat_eq_some]
    constructor
    · rintro ⟨middle, hmiddle, heq, hne⟩
      obtain rfl : parentid = middle := Option.some.inj (hresolve.symm.trans hmiddle)
      exact ⟨heq, hne⟩
    · rintro ⟨heq, hne⟩
      exact ⟨parentid, hresolve, heq, hne⟩
  have hnonempty : front ++ [component] ≠ [] := by simp
  have habove : front ++ [component] = [] ∨ front ++ [component] ∈ keys kept ↔ _ :=
    hcollected.above_iff
  simp only [hnonempty, false_or, hnext] at habove
  rw [habove]
  constructor
  · exact fun hne => ⟨_, rfl, hne⟩
  · rintro ⟨id, rfl, hne⟩
    exact hne

/-- Paths lead to the same numbers in every table of the same headers. -/
theorem index_unique {other : Table} (hcollected : Collected inodes kept)
    (hother : Collected other kept) (hnodup : (keys kept).Nodup) {left right : ℤ}
    {path : List (List Byte)} (hleft : PathTo inodes left path) (hright : PathTo other right path) :
    left = right := by
  rcases hleft.index_cases with ⟨rfl, rfl⟩ | ⟨i, rfl, -⟩
  · rcases hright.index_cases with ⟨rfl, -⟩ | ⟨j, rfl, -⟩
    · rfl
    · obtain ⟨node, front, -, hnil, -⟩ := hright.cases_nonneg
      simp at hnil
  · rcases hright.index_cases with ⟨-, rfl⟩ | ⟨j, rfl, -⟩
    · obtain ⟨node, front, -, hnil, -⟩ := hleft.cases_nonneg
      simp at hnil
    · have hi := hcollected.key_of_pathTo hleft
      have hj := hother.key_of_pathTo hright
      have hlt := (List.getElem?_eq_some_iff.mp hi).1
      rw [(List.getElem?_inj hlt hnodup).mp (hi.trans hj.symm)]

/-- The headers determine the table. -/
theorem unique {other : Table} (hcollected : Collected inodes kept)
    (hother : Collected other kept) (hnodup : (keys kept).Nodup) : inodes = other := by
  have hlength : inodes.length = other.length :=
    hcollected.length_eq.trans hother.length_eq.symm
  apply List.ext_getElem hlength
  intro index hleft hright
  obtain ⟨front, ph, hfront, hkept, hmade⟩ :=
    hcollected.entry index inodes[index] (by simp [hleft])
  obtain ⟨front', ph', hfront', hkept', hmade'⟩ :=
    hother.entry index other[index] (by simp [hright])
  rw [hkept, Option.some.injEq, Prod.mk.injEq] at hkept'
  obtain ⟨hpath, rfl⟩ := hkept'
  obtain ⟨rfl, hname⟩ := List.append_inj' hpath rfl
  rw [List.singleton_inj] at hname
  rw [hname, hcollected.index_unique hother hnodup hfront hfront', hmade',
    Except.ok.injEq] at hmade
  exact hmade.symm

end Collected

/-! ## One header more -/

/-- What `MergeFile` needs of a header with a path, behind headers with the
earlier paths. -/
structure Acceptable (earlier : List (List (List Byte))) (ph : HeaderPtr)
    (path : List (List Byte)) : Prop where
  component : path ≠ []
  typeflag : ∃ flag, ph.typeflag = .ok flag
  above : path.dropLast = [] ∨ path.dropLast ∈ earlier
  first : path ∉ earlier → earlier.dedup.length < maxInodes ∧ ∃ node, Makes ph node

section Step

variable {inodes : Table} {earlier : List (List (List Byte) × HeaderPtr)} {ph : HeaderPtr}
  {path : List (List Byte)}

theorem room_iff (hcollected : Collected inodes (union earlier)) :
    inodes.length < maxInodes ↔ (keys earlier).dedup.length < maxInodes := by
  rw [hcollected.length_eq, length_union]

/-- A call of `MergeFile` returns exactly for an acceptable header. -/
theorem mergeFile_returns_iff (hcollected : Collected inodes (union earlier))
    (hheader : HeaderPath ph path) :
    (∃ merged, mergeFile ph inodes = .ok merged) ↔ Acceptable (keys earlier) ph path := by
  have hmem : ∀ {other : List (List Byte)}, other ∈ keys (union earlier) ↔ other ∈ keys earlier :=
    mem_keys_union
  constructor
  · rintro ⟨merged, hrun⟩
    obtain ⟨parentid, component, flag, hlocate, hflag, hmerged⟩ := mergeFile_eq_ok.mp hrun
    obtain ⟨front, hheader', hresolve⟩ := locate_eq_ok.mp hlocate
    obtain rfl := hheader.unique hheader'
    obtain ⟨hnul, -, hlength⟩ := hheader.mem (show component ∈ front ++ [component] by simp)
    have habove : front = [] ∨ front ∈ keys (union earlier) :=
      hcollected.above_iff.mpr ⟨parentid, hresolve⟩
    refine ⟨by simp, ⟨flag, hflag⟩, ?_, ?_⟩
    · rw [List.dropLast_concat, ← hmem]
      exact habove
    · intro hfresh
      rw [← hmem, ← hcollected.known_iff hresolve] at hfresh
      cases hmerged with
      | existing hfound => exact absurd hfound hfresh
      | added hnew hroom hnode =>
          exact ⟨(room_iff hcollected).mp hroom, (newInode_eq_ok hnul hlength).mp ⟨_, hnode⟩⟩
  · intro haccept
    obtain ⟨front, component, rfl⟩ := (List.eq_nil_or_concat' path).resolve_left haccept.component
    obtain ⟨hnul, -, hlength⟩ := hheader.mem (show component ∈ front ++ [component] by simp)
    obtain ⟨flag, hflag⟩ := haccept.typeflag
    have habove := haccept.above
    rw [List.dropLast_concat, ← hmem, hcollected.above_iff] at habove
    obtain ⟨parentid, hresolve⟩ := habove
    have hlocate := locate_eq_ok.mpr ⟨front, hheader, hresolve⟩
    by_cases hknown : searchInode inodes component parentid = -1
    · have hfresh : front ++ [component] ∉ keys earlier := by
        rw [← hmem, ← hcollected.known_iff hresolve]
        exact not_not.mpr hknown
      obtain ⟨hroom, hmakes⟩ := haccept.first hfresh
      obtain ⟨node, hnode⟩ := (newInode_eq_ok hnul hlength).mpr hmakes
      exact ⟨_, mergeFile_eq_ok.mpr ⟨parentid, component, flag, hlocate, hflag,
        .added hknown ((room_iff hcollected).mpr hroom) hnode⟩⟩
    · exact ⟨_, mergeFile_eq_ok.mpr ⟨parentid, component, flag, hlocate, hflag,
        .existing hknown⟩⟩

/-- A call that returns collects the header if it is the first with its path. -/
theorem mergeFile_collected {kept : List (List (List Byte) × HeaderPtr)}
    (hcollected : Collected inodes kept) (hheader : HeaderPath ph path) {merged : Table}
    (hrun : mergeFile ph inodes = .ok merged) :
    Collected merged (insertNew kept (path, ph)) := by
  have hshape := mergeFile_shape hcollected.shape hrun
  obtain ⟨front, component, parentid, hheader', hresolve, hmerged⟩ := mergeFile_cases hrun
  obtain rfl := hheader.unique hheader'
  cases hmerged with
  | existing hfound =>
      rwa [insertNew, if_pos ((hcollected.known_iff hresolve).mp hfound)]
  | @added node hnew hroom hnode =>
      obtain ⟨hnul, -, hlength⟩ := hheader.mem (show component ∈ front ++ [component] by simp)
      have hfresh := newInode_fresh hnul hlength hnode
      have hmem : front ++ [component] ∉ keys kept := by
        rw [← hcollected.known_iff hresolve]
        exact not_not.mpr hnew
      rw [insertNew, if_neg hmem]
      refine ⟨hshape, by simp [hcollected.length_eq], ?_⟩
      intro index found hfound
      rcases Nat.lt_trichotomy index inodes.length with hlt | rfl | hgt
      · rw [List.getElem?_append_left hlt] at hfound
        obtain ⟨above, ph', habove, hkept, hmade⟩ := hcollected.entry index found hfound
        refine ⟨above, ph', habove.append [node], ?_, hmade⟩
        rwa [List.getElem?_append_left (by rw [← hcollected.length_eq]; exact hlt)]
      · simp only [List.getElem?_concat_length, Option.some.injEq] at hfound
        subst hfound
        rw [hfresh.name, hfresh.parentid]
        refine ⟨front, ph, ?_, by simp [hcollected.length_eq], hnode⟩
        exact ((resolve_eq_some_iff hcollected.shape).mp hresolve).append [node]
      · rw [List.getElem?_eq_none (by simp; omega)] at hfound
        exact absurd hfound.symm (Option.some_ne_none found)

end Step

/-! ## Sequences of headers -/

/-- Every header has the path that stands beside it, and can be merged behind
the ones before it. -/
def Accepted : List (List (List Byte)) → List (List (List Byte) × HeaderPtr) → Prop
  | _, [] => True
  | earlier, (path, ph) :: rest =>
      HeaderPath ph path ∧ Acceptable earlier ph path ∧ Accepted (earlier ++ [path]) rest

theorem mergeAll_cons {ph : HeaderPtr} {rest : List HeaderPtr} {inodes : Table} :
    mergeAll (ph :: rest) inodes = mergeFile ph inodes >>= mergeAll rest := by
  simp only [mergeAll, List.foldlM_cons]
  rfl

theorem keys_concat (earlier : List (List (List Byte) × HeaderPtr)) (path : List (List Byte))
    (ph : HeaderPtr) : keys (earlier ++ [(path, ph)]) = keys earlier ++ [path] := by
  simp [keys]

/-- A sequence of calls that returns has collected the first headers. -/
theorem mergeAll_collected {headers : List HeaderPtr} {inodes merged : Table}
    {earlier : List (List (List Byte) × HeaderPtr)}
    (hcollected : Collected inodes (union earlier)) (hrun : mergeAll headers inodes = .ok merged) :
    ∃ named, named.map Prod.snd = headers ∧ Accepted (keys earlier) named ∧
      Collected merged (union (earlier ++ named)) := by
  induction headers generalizing inodes earlier with
  | nil =>
      rw [mergeAll_nil, Except.ok.injEq] at hrun
      refine ⟨[], rfl, trivial, ?_⟩
      rwa [List.append_nil, ← hrun]
  | cons ph rest ih =>
      rw [mergeAll_cons, Run.bind_eq_ok] at hrun
      obtain ⟨middle, hfile, hrest⟩ := hrun
      obtain ⟨front, component, -, hheader, -⟩ := mergeFile_cases hfile
      have haccept := (mergeFile_returns_iff hcollected hheader).mp ⟨middle, hfile⟩
      have hmiddle := mergeFile_collected hcollected hheader hfile
      rw [← union_concat] at hmiddle
      obtain ⟨named, hnamed, haccepted, hmerged⟩ := ih hmiddle hrest
      refine ⟨(front ++ [component], ph) :: named, by rw [List.map_cons, hnamed], ?_, ?_⟩
      · rw [keys_concat] at haccepted
        exact ⟨hheader, haccept, haccepted⟩
      · rwa [List.append_cons]

/-- Headers that can be merged one behind the other are merged. -/
theorem mergeAll_returns {named : List (List (List Byte) × HeaderPtr)} {inodes : Table}
    {earlier : List (List (List Byte) × HeaderPtr)}
    (hcollected : Collected inodes (union earlier)) (haccepted : Accepted (keys earlier) named) :
    ∃ merged, mergeAll (named.map Prod.snd) inodes = .ok merged ∧
      Collected merged (union (earlier ++ named)) := by
  induction named generalizing inodes earlier with
  | nil => exact ⟨inodes, rfl, by rwa [List.append_nil]⟩
  | cons pair rest ih =>
      obtain ⟨path, ph⟩ := pair
      obtain ⟨hheader, haccept, hrest⟩ := haccepted
      obtain ⟨middle, hfile⟩ := (mergeFile_returns_iff hcollected hheader).mpr haccept
      have hmiddle := mergeFile_collected hcollected hheader hfile
      rw [← union_concat] at hmiddle
      rw [← keys_concat _ _ ph] at hrest
      rw [List.map_cons, mergeAll_cons, hfile, Run.ok_bind, List.append_cons]
      exact ih hmiddle hrest

theorem accepted_of_mergeAll {headers : List HeaderPtr} {inodes : Table}
    (hrun : mergeAll headers [] = .ok inodes) : ∃ named, named.map Prod.snd = headers ∧
      Accepted [] named ∧ Collected inodes (union named) := by
  have hempty : Collected [] (union ([] : List (List (List Byte) × HeaderPtr))) := collected_nil
  exact mergeAll_collected hempty hrun

/-- What merging computes, for every sequence of headers: it returns exactly if
every header can be merged behind the ones before it, and the table is the one
that the first header of every path makes. -/
theorem mergeAll_eq_ok_iff {headers : List HeaderPtr} {inodes : Table} :
    mergeAll headers [] = .ok inodes ↔ ∃ named, named.map Prod.snd = headers ∧
      Accepted [] named ∧ Collected inodes (union named) := by
  have hempty : Collected [] (union ([] : List (List (List Byte) × HeaderPtr))) := collected_nil
  constructor
  · exact accepted_of_mergeAll
  · rintro ⟨named, rfl, haccepted, hinodes⟩
    obtain ⟨merged, hrun, hmerged⟩ := mergeAll_returns hempty haccepted
    rw [hrun, hmerged.unique hinodes (nodup_keys_union _)]

/-! ## Merging again -/

/-- A header that was accepted is accepted again, since its path is known. -/
theorem Accepted.again {named : List (List (List Byte) × HeaderPtr)}
    {earlier : List (List (List Byte))} (haccepted : Accepted earlier named)
    {path : List (List Byte)} {ph : HeaderPtr} (hmem : (path, ph) ∈ named) :
    HeaderPath ph path ∧ Acceptable (earlier ++ keys named) ph path := by
  induction named generalizing earlier with
  | nil => exact absurd hmem List.not_mem_nil
  | cons pair rest ih =>
      obtain ⟨path', ph'⟩ := pair
      obtain ⟨hheader, haccept, hrest⟩ := haccepted
      have hkeys : earlier ++ keys ((path', ph') :: rest) = earlier ++ [path'] ++ keys rest := by
        simp [keys]
      rw [hkeys]
      rcases List.mem_cons.mp hmem with heq | hmem
      · rw [Prod.mk.injEq] at heq
        obtain ⟨rfl, rfl⟩ := heq
        refine ⟨hheader, haccept.component, haccept.typeflag, ?_, fun hfresh => ?_⟩
        · exact haccept.above.imp id fun habove => by simp [habove]
        · exact absurd (by simp) hfresh
      · exact ih hrest hmem

/-- Headers that were merged before, in whatever number and order, leave the
table as it is. -/
theorem mergeAll_again {headers again : List HeaderPtr} (hagain : again ⊆ headers) :
    mergeAll (headers ++ again) [] = mergeAll headers [] := by
  rw [mergeAll_append]
  cases hrun : mergeAll headers [] with
  | error stop => rfl
  | ok inodes =>
      rw [Run.ok_bind]
      obtain ⟨named, rfl, haccepted, hcollected⟩ := accepted_of_mergeAll hrun
      have hsame : ∀ ph ∈ again, mergeFile ph inodes = .ok inodes := by
        intro ph hph
        obtain ⟨⟨path, ph'⟩, hmem, rfl⟩ := List.mem_map.mp (hagain hph)
        obtain ⟨hheader, haccept⟩ := haccepted.again hmem
        rw [List.nil_append] at haccept
        obtain ⟨merged, hmerged⟩ := (mergeFile_returns_iff hcollected hheader).mpr haccept
        have hkept := mergeFile_collected hcollected hheader hmerged
        have hknown : path ∈ keys (union named) :=
          mem_keys_union.mpr (List.mem_map.mpr ⟨_, hmem, rfl⟩)
        rw [insertNew, if_pos hknown] at hkept
        rw [hmerged, hkept.unique hcollected (nodup_keys_union _)]
      induction again with
      | nil => rfl
      | cons ph rest ih =>
          rw [mergeAll_cons, hsame ph (by simp), Run.ok_bind]
          apply ih
          · exact fun other hother => hagain (by simp [hother])
          · exact fun other hother => hsame other (by simp [hother])

/-- The same archive three times over. -/
theorem mergeAll_again_small :
    mergeAll ([TarHeader.nestedDirectory 0, TarHeader.smallFile].map TarHeader.memberHeader ++
      ([TarHeader.smallFile, TarHeader.nestedDirectory 0, TarHeader.smallFile].map
        TarHeader.memberHeader)) [] =
    mergeAll ([TarHeader.nestedDirectory 0, TarHeader.smallFile].map
      TarHeader.memberHeader) [] := by
  apply mergeAll_again
  apply List.map_subset
  simp

end Tcb.FirstHeaders
