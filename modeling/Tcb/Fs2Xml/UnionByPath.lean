import Tcb.Fs2Xml.TarHeader
import Tcb.Core.FirstWins

/-!
# Merging is a union by path

On members that list their ancestors before them, `MergeFile` collects the
first member of every path: the table refines the first-wins union of the
pairs of path and attributes.  The only members it cannot take are those whose
twelve components are followed by a slash.  When members with equal paths agree
the order of the archives does not matter.
-/

namespace Tcb.UnionByPath

open Tcb.CString
open Tcb.Inodes
open Tcb.Split
open Tcb.MergeFile
open Tcb.TableShape
open Tcb.Members
open Tcb.FirstWins

/-! ## Members in order -/

/-- The paths above a path, without the root. -/
def properAncestors (path : List (List Byte)) : List (List (List Byte)) :=
  path.inits.filter fun ancestor => ancestor ≠ [] ∧ ancestor ≠ path

/-- Every proper ancestor of a member is among the earlier paths. -/
def AncestorsFirst (earlier : List (List (List Byte))) : List Member → Prop
  | [] => True
  | member :: rest =>
      (∀ ancestor ∈ properAncestors member.path, ancestor ∈ earlier) ∧
        AncestorsFirst (earlier ++ [member.path]) rest

instance decidableAncestorsFirst :
    ∀ earlier members, Decidable (AncestorsFirst earlier members)
  | _, [] => .isTrue trivial
  | earlier, member :: rest =>
      have := decidableAncestorsFirst (earlier ++ [member.path]) rest
      inferInstanceAs (Decidable (_ ∧ _))

theorem AncestorsFirst.mono {earlier more : List (List (List Byte))}
    {members : List Member} (hfirst : AncestorsFirst earlier members)
    (hsub : earlier ⊆ more) : AncestorsFirst more members := by
  induction members generalizing earlier more with
  | nil => trivial
  | cons member rest ih =>
      refine ⟨fun ancestor hancestor => hsub (hfirst.1 ancestor hancestor), ?_⟩
      exact ih hfirst.2 (List.append_subset.mpr
        ⟨List.subset_append_of_subset_left _ hsub, List.subset_append_right _ _⟩)

theorem AncestorsFirst.append {earlier : List (List (List Byte))}
    {left right : List Member} (hleft : AncestorsFirst earlier left)
    (hright : AncestorsFirst [] right) : AncestorsFirst earlier (left ++ right) := by
  induction left generalizing earlier with
  | nil => exact hright.mono (by simp)
  | cons member rest ih => exact ⟨hleft.1, ih hleft.2⟩

/-- The member's directory part is the root or an earlier path. -/
theorem AncestorsFirst.front {earlier : List (List (List Byte))} {member : Member}
    {rest : List Member} (hfirst : AncestorsFirst earlier (member :: rest))
    {front : List (List Byte)} {component : List Byte}
    (hpath : member.path = front ++ [component]) : front = [] ∨ front ∈ earlier := by
  by_cases hnil : front = []
  · exact .inl hnil
  · refine .inr (hfirst.1 front ?_)
    rw [properAncestors, List.mem_filter, List.mem_inits, hpath]
    exact ⟨List.prefix_append _ _, by simp [hnil]⟩

/-- What the members say about each path. -/
def pairs (members : List Member) : List (List (List Byte) × Attributes) :=
  members.map fun member => (member.path, member.content.attributes)

theorem keys_pairs (members : List Member) : keys (pairs members) = members.map Member.path := by
  simp [keys, pairs]

/-- The first member with a path. -/
theorem lookup_pairs (members : List Member) (path : List (List Byte)) :
    (pairs members).lookup path =
      (members.find? (·.path = path)).map fun member => member.content.attributes := by
  induction members with
  | nil => rfl
  | cons member rest ih =>
      rw [pairs, List.map_cons, ← pairs, List.lookup_cons, List.find?_cons, ih]
      by_cases hpath : member.path = path
      · simp [hpath]
      · simp [hpath, beq_false_of_ne (Ne.symm hpath)]

/-! ## The table refines the union -/

/-- The entries of the table stand in the order of the collected pairs, each
under its path and with its attributes. -/
structure Refines (inodes : Table) (kept : List (List (List Byte) × Attributes)) :
    Prop where
  shape : Shape inodes
  length_eq : inodes.length = kept.length
  entry : ∀ (index : ℕ) node, inodes[index]? = some node →
    ∃ path, PathTo inodes index path ∧ kept[index]? = some (path, attributes node)

theorem refines_nil : Refines [] [] := ⟨ParentTable.shape_nil, rfl, by simp⟩

namespace Refines

variable {inodes : Table} {kept : List (List (List Byte) × Attributes)}

theorem mem_keys_iff (href : Refines inodes kept) {path : List (List Byte)} :
    path ∈ keys kept ↔ ∃ index : ℕ, PathTo inodes index path := by
  constructor
  · intro hmem
    obtain ⟨⟨key, value⟩, hpair, rfl⟩ := List.mem_map.mp hmem
    obtain ⟨index, hindex⟩ := List.mem_iff_getElem?.mp hpair
    have hlt : index < inodes.length := by
      rw [href.length_eq]
      exact (List.getElem?_eq_some_iff.mp hindex).1
    obtain ⟨path, hpath, hkept⟩ := href.entry index inodes[index] (by simp [hlt])
    rw [hindex, Option.some.injEq, Prod.mk.injEq] at hkept
    exact ⟨index, hkept.1 ▸ hpath⟩
  · rintro ⟨index, hpath⟩
    obtain ⟨node, front, hnode, -, -⟩ := hpath.cases_nonneg
    obtain ⟨path', hpath', hkept⟩ := href.entry index node hnode
    rw [hpath.unique hpath']
    exact List.mem_map.mpr ⟨_, List.mem_of_getElem? hkept, rfl⟩

/-- The table and the collected pairs are the same map. -/
theorem lookup_iff (href : Refines inodes kept) (hnodup : (keys kept).Nodup)
    {path : List (List Byte)} {value : Attributes} :
    kept.lookup path = some value ↔ ∃ (index : ℕ) (node : Inode),
      inodes[index]? = some node ∧ PathTo inodes index path ∧ attributes node = value := by
  have hentry : ∀ {index : ℕ} {node : Inode}, inodes[index]? = some node →
      PathTo inodes index path → kept.lookup path = some (attributes node) := by
    intro index node hnode hpath
    obtain ⟨path', hpath', hkept⟩ := href.entry index node hnode
    rw [hpath.unique hpath']
    exact lookup_of_getElem? hnodup hkept
  constructor
  · intro hlookup
    have hmem : path ∈ keys kept := List.mem_map.mpr ⟨_, mem_of_lookup hlookup, rfl⟩
    obtain ⟨index, hpath⟩ := href.mem_keys_iff.mp hmem
    obtain ⟨node, front, hnode, -, -⟩ := id hpath.cases_nonneg
    have hvalue := hentry hnode hpath
    rw [hlookup, Option.some.injEq] at hvalue
    exact ⟨index, node, hnode, hpath, hvalue.symm⟩
  · rintro ⟨index, node, hnode, hpath, rfl⟩
    exact hentry hnode hpath

end Refines

/-- One call keeps the refinement: what is there is left alone, and a new path
is appended. -/
theorem mergeFile_refines {ph : HeaderPtr} {member : Member} (henc : Encodes ph member)
    (hfits : ¬ member.Overflows) {inodes : Table}
    {kept : List (List (List Byte) × Attributes)} (href : Refines inodes kept)
    (hfront : ∀ front component, member.path = front ++ [component] →
      front = [] ∨ front ∈ keys kept)
    (hroom : member.path ∉ keys kept → kept.length < maxInodes) :
    ∃ merged, mergeFile ph inodes = .ok merged ∧
      Refines merged (insertNew kept (member.path, member.content.attributes)) := by
  obtain ⟨front, component, hpath⟩ := (List.eq_nil_or_concat' _).resolve_left member.nonempty
  have hheader : HeaderPath ph (front ++ [component]) :=
    henc.headerPath_iff.mpr ⟨hpath.symm, hfits⟩
  obtain ⟨parentid, hparent⟩ : ∃ parentid, PathTo inodes parentid front := by
    rcases hfront front component hpath with rfl | hmem
    · exact ⟨-1, .root⟩
    · obtain ⟨index, hindex⟩ := href.mem_keys_iff.mp hmem
      exact ⟨index, hindex⟩
  have hresolve := (resolve_eq_some_iff href.shape).mpr hparent
  have hlocate := locate_eq_ok.mpr ⟨front, hheader, hresolve⟩
  -- the lookup of the last component decides whether the path is known
  have hknown : searchInode inodes component parentid ≠ -1 ↔ member.path ∈ keys kept := by
    rw [href.mem_keys_iff, hpath]
    constructor
    · intro hfound
      obtain ⟨index, node, heq, -⟩ := ParentTable.find_spec hfound
      refine ⟨index, (resolve_eq_some_iff href.shape).mp ?_⟩
      exact ParentTable.resolve_concat_eq_some.mpr ⟨parentid, hresolve, heq, by omega⟩
    · rintro ⟨index, hindex⟩
      obtain ⟨middle, hmiddle, heq, hne⟩ := ParentTable.resolve_concat_eq_some.mp
        ((resolve_eq_some_iff href.shape).mpr hindex)
      have hsame : parentid = middle := Option.some.inj (hresolve.symm.trans hmiddle)
      rw [searchInode_eq_find, hsame, heq]
      exact hne
  by_cases hmem : member.path ∈ keys kept
  · refine ⟨inodes, ?_, by rwa [insertNew, if_pos hmem]⟩
    exact mergeFile_eq_ok.mpr ⟨parentid, component, _, hlocate, henc.typeflag_eq,
      .existing (hknown.mpr hmem)⟩
  · obtain ⟨node, hnode, hfresh, hattributes⟩ := henc.newInode_eq
      (show component ∈ member.path by simp [hpath]) parentid
    have hnew : searchInode inodes component parentid = -1 := not_not.mp (mt hknown.mp hmem)
    have hrun : mergeFile ph inodes = .ok (inodes ++ [node]) :=
      mergeFile_eq_ok.mpr ⟨parentid, component, _, hlocate, henc.typeflag_eq,
        .added hnew (by rw [href.length_eq]; exact hroom hmem) hnode⟩
    refine ⟨inodes ++ [node], hrun, ?_⟩
    rw [insertNew, if_neg hmem]
    refine ⟨mergeFile_shape href.shape hrun, by simp [href.length_eq], ?_⟩
    intro index found hfound
    rcases Nat.lt_trichotomy index inodes.length with hlt | rfl | hgt
    · rw [List.getElem?_append_left hlt] at hfound
      obtain ⟨path, hold, hkept⟩ := href.entry index found hfound
      refine ⟨path, hold.append [node], ?_⟩
      rwa [List.getElem?_append_left (by rw [← href.length_eq]; exact hlt)]
    · simp only [List.getElem?_concat_length, Option.some.injEq] at hfound
      subst hfound
      refine ⟨front ++ [component], ?_, ?_⟩
      · rw [← hfresh.name]
        exact .child (by simp) (hfresh.parentid ▸ hparent.append [node])
      · rw [href.length_eq, List.getElem?_concat_length, hpath, hattributes]
    · rw [List.getElem?_eq_none (by simp; omega)] at hfound
      simp at hfound

/-- A whole run collects the union of what was there and the members. -/
theorem mergeAll_refines {headers : List HeaderPtr} {members : List Member}
    (henc : List.Forall₂ Encodes headers members)
    (hfits : ∀ member ∈ members, ¬ member.Overflows) {inodes : Table}
    {earlier : List (List (List Byte) × Attributes)} (href : Refines inodes (union earlier))
    (hfirst : AncestorsFirst (keys earlier) members)
    (hroom : (union (earlier ++ pairs members)).length ≤ maxInodes) :
    ∃ merged, mergeAll headers inodes = .ok merged ∧
      Refines merged (union (earlier ++ pairs members)) := by
  induction henc generalizing inodes earlier with
  | nil => exact ⟨inodes, rfl, by simpa [pairs] using href⟩
  | @cons ph member headers members henc hrest ih =>
      have hpairs : earlier ++ pairs (member :: members) =
          earlier ++ [(member.path, member.content.attributes)] ++ pairs members := by
        simp [pairs]
      rw [hpairs] at hroom ⊢
      have hstepRoom := (union_isPrefix
        (earlier ++ [(member.path, member.content.attributes)]) (pairs members)).length_le
      rw [union_concat] at hstepRoom
      have hfront : ∀ front component, member.path = front ++ [component] →
          front = [] ∨ front ∈ keys (union earlier) := by
        intro front component hpath
        rcases hfirst.front hpath with hnil | hmem
        · exact .inl hnil
        · exact .inr (mem_keys_union.mpr hmem)
      have hstep : member.path ∉ keys (union earlier) →
          (union earlier).length < maxInodes := by
        intro hnew
        rw [length_insertNew hnew] at hstepRoom
        omega
      obtain ⟨middle, hmiddle, hrefines⟩ := mergeFile_refines henc
        (hfits member (by simp)) href hfront hstep
      rw [← union_concat] at hrefines
      obtain ⟨merged, hmerged, hfinal⟩ := ih
        (fun other hother => hfits other (by simp [hother])) hrefines
        (by simpa [keys] using hfirst.2) hroom
      refine ⟨merged, ?_, hfinal⟩
      rw [mergeAll, List.foldlM_cons, hmiddle]
      exact hmerged

/-- A call on a member that needs a thirteenth row does not return. -/
theorem not_overflows_of_mergeFile {ph : HeaderPtr} {member : Member}
    (henc : Encodes ph member) {inodes merged : Table}
    (hrun : mergeFile ph inodes = .ok merged) : ¬ member.Overflows := by
  obtain ⟨front, component, parentid, hheader, -, -⟩ := mergeFile_cases hrun
  exact (henc.headerPath_iff.mp hheader).2

theorem not_overflows_of_mergeAll {headers : List HeaderPtr} {members : List Member}
    (henc : List.Forall₂ Encodes headers members) {inodes merged : Table}
    (hrun : mergeAll headers inodes = .ok merged) {member : Member}
    (hmember : member ∈ members) : ¬ member.Overflows := by
  obtain ⟨index, hindex⟩ := List.mem_iff_getElem?.mp hmember
  have hlt : index < headers.length := by
    rw [henc.length_eq]
    exact (List.getElem?_eq_some_iff.mp hindex).1
  have hencodes : Encodes headers[index] member := by
    have hget := henc.get hlt (by rw [← henc.length_eq]; exact hlt)
    simpa [(List.getElem?_eq_some_iff.mp hindex).2] using hget
  obtain ⟨state, next, hstep⟩ := Run.foldlM_ok_of_mem hrun (List.getElem_mem hlt)
  exact not_overflows_of_mergeFile hencodes hstep

/-! ## The table of a run -/

/-- The table holds exactly one inode for each path of the members, with the
attributes of the first member that has the path. -/
structure FirstWinsUnion (members : List Member) (inodes : Table) : Prop where
  one : ∀ path ∈ members.map Member.path, ∃! id : ℤ, PathTo inodes id path
  only : ∀ index : ℕ, index < inodes.length →
    ∃ path ∈ members.map Member.path, PathTo inodes index path
  count : inodes.length = (members.map Member.path).dedup.length
  first : ∀ (index : ℕ) node path, inodes[index]? = some node →
    PathTo inodes index path → ∃ member, members.find? (·.path = path) = some member ∧
      attributes node = member.content.attributes

theorem Refines.firstWinsUnion {members : List Member} {inodes : Table}
    (href : Refines inodes (union (pairs members))) : FirstWinsUnion members inodes := by
  constructor
  · intro path hpath
    rw [← keys_pairs, ← mem_keys_union, href.mem_keys_iff] at hpath
    obtain ⟨index, hindex⟩ := hpath
    exact ⟨index, hindex, fun id hid => ParentTable.PathTo.injective href.shape hid hindex⟩
  · intro index hindex
    obtain ⟨path, hpath⟩ := ParentTable.Shape.pathTo_exists href.shape hindex
    refine ⟨path, ?_, hpath⟩
    rw [← keys_pairs, ← mem_keys_union]
    exact href.mem_keys_iff.mpr ⟨index, hpath⟩
  · rw [href.length_eq, length_union, keys_pairs]
  · intro index node path hnode hpath
    have hlookup := (href.lookup_iff (nodup_keys_union _)).mpr ⟨index, node, hnode, hpath, rfl⟩
    rw [lookup_union, lookup_pairs, Option.map_eq_some_iff] at hlookup
    obtain ⟨member, hfind, hattributes⟩ := hlookup
    exact ⟨member, hfind, hattributes.symm⟩

theorem mergeAll_members {headers : List HeaderPtr} {members : List Member}
    (henc : List.Forall₂ Encodes headers members) (hfirst : AncestorsFirst [] members)
    (hroom : (members.map Member.path).dedup.length ≤ maxInodes)
    (hfits : ∀ member ∈ members, ¬ member.Overflows) :
    ∃ inodes, mergeAll headers [] = .ok inodes ∧ Refines inodes (union (pairs members)) := by
  have hrefines : Refines [] (union []) := refines_nil
  have hrun := mergeAll_refines henc hfits hrefines hfirst (by
    rwa [List.nil_append, length_union, keys_pairs])
  simpa using hrun

/-- Members that list their ancestors first are merged into the first-wins
union of their paths if and only if none has twelve components with a slash
behind them. -/
theorem mergeAll_firstWins_iff {headers : List HeaderPtr} {members : List Member}
    (henc : List.Forall₂ Encodes headers members) (hfirst : AncestorsFirst [] members)
    (hroom : (members.map Member.path).dedup.length ≤ maxInodes) :
    (∃ inodes, mergeAll headers [] = .ok inodes ∧ FirstWinsUnion members inodes) ↔
      ∀ member ∈ members, ¬ member.Overflows := by
  constructor
  · rintro ⟨inodes, hrun, -⟩ member hmember
    exact not_overflows_of_mergeAll henc hrun hmember
  · intro hfits
    obtain ⟨inodes, hrun, href⟩ := mergeAll_members henc hfirst hroom hfits
    exact ⟨inodes, hrun, href.firstWinsUnion⟩

/-- A directory, a file in it, and the directory again. -/
theorem mergeAll_firstWins_small :
    (∃ inodes, mergeAll ([TarHeader.nestedDirectory 0, TarHeader.smallFile,
        TarHeader.nestedDirectory 0].map TarHeader.memberHeader) [] = .ok inodes ∧
      FirstWinsUnion [TarHeader.nestedDirectory 0, TarHeader.smallFile,
        TarHeader.nestedDirectory 0] inodes) ↔
      ∀ member ∈ [TarHeader.nestedDirectory 0, TarHeader.smallFile,
        TarHeader.nestedDirectory 0], ¬ member.Overflows :=
  mergeAll_firstWins_iff
    (.cons (TarHeader.encodes_memberHeader (TarHeader.writable_nestedDirectory 0))
      (.cons (TarHeader.encodes_memberHeader TarHeader.writable_smallFile)
        (.cons (TarHeader.encodes_memberHeader (TarHeader.writable_nestedDirectory 0)) .nil)))
    (by decide) (by decide)

/-! ## Twelve directories inside each other -/

def deepDirectories : List Member := (List.finRange walkRows).map TarHeader.nestedDirectory

theorem encodes_memberHeaders {members : List Member}
    (hwritable : ∀ member ∈ members, TarHeader.Writable member) :
    List.Forall₂ Encodes (members.map TarHeader.memberHeader) members := by
  rw [List.forall₂_map_left_iff, List.forall₂_same]
  exact fun member hmember => TarHeader.encodes_memberHeader (hwritable member hmember)

theorem writable_deepDirectories :
    ∀ member ∈ deepDirectories, TarHeader.Writable member := by
  intro member hmember
  obtain ⟨depth, -, rfl⟩ := List.mem_map.mp hmember
  exact TarHeader.writable_nestedDirectory depth

/-- Directories inside each other down to the twelfth meet every requirement,
and merging them does not return: the name of the last one needs a thirteenth
row. -/
theorem mergeAll_deepDirectories :
    List.Forall₂ Encodes (deepDirectories.map TarHeader.memberHeader) deepDirectories ∧
      AncestorsFirst [] deepDirectories ∧
      (deepDirectories.map Member.path).dedup.length ≤ maxInodes ∧
      ¬ ∃ inodes, mergeAll (deepDirectories.map TarHeader.memberHeader) [] = .ok inodes ∧
        FirstWinsUnion deepDirectories inodes := by
  have henc := encodes_memberHeaders writable_deepDirectories
  refine ⟨henc, by decide +kernel, by decide +kernel, ?_⟩
  rintro ⟨inodes, hrun, -⟩
  refine not_overflows_of_mergeAll henc hrun
    (List.mem_map.mpr ⟨11, List.mem_finRange _, rfl⟩) ?_
  decide

/-! ## The order of the archives -/

/-- The table maps the path to the attributes. -/
def MapsTo (inodes : Table) (path : List (List Byte)) (value : Attributes) : Prop :=
  ∃ (index : ℕ) (node : Inode), inodes[index]? = some node ∧
    PathTo inodes index path ∧ attributes node = value

/-- Two tables with one inode for each path that are equal as maps from full
paths, whatever the indices and the parent numbers are. -/
structure SameMap (left right : Table) : Prop where
  length_eq : left.length = right.length
  leftOne : ∀ one two path, PathTo left one path → PathTo left two path → one = two
  rightOne : ∀ one two path, PathTo right one path → PathTo right two path → one = two
  mapsTo_iff : ∀ path value, MapsTo left path value ↔ MapsTo right path value

/-- Members with the same path are the same apart from the slash. -/
def Agree (members : List Member) : Prop :=
  ∀ one ∈ members, ∀ two ∈ members, one.path = two.path → one.content = two.content

theorem Agree.compatible {members : List Member} (hagree : Agree members) :
    Compatible (pairs members) := by
  intro path left right hleft hright
  obtain ⟨one, hone, heq⟩ := List.mem_map.mp hleft
  obtain ⟨two, htwo, heq'⟩ := List.mem_map.mp hright
  rw [Prod.mk.injEq] at heq heq'
  rw [← heq.2, ← heq'.2, hagree one hone two htwo (heq.1.trans heq'.1.symm)]

theorem pairs_append (left right : List Member) :
    pairs (left ++ right) = pairs left ++ pairs right := by
  simp [pairs]

theorem Refines.mapsTo_iff {inodes : Table} {members : List Member}
    (href : Refines inodes (union (pairs members))) {path : List (List Byte)}
    {value : Attributes} :
    MapsTo inodes path value ↔ (pairs members).lookup path = some value := by
  rw [← lookup_union, href.lookup_iff (nodup_keys_union _), MapsTo]

theorem Refines.sameMap {left right : Table} {one two : List Member}
    (hagree : Agree (one ++ two)) (hleft : Refines left (union (pairs (one ++ two))))
    (hright : Refines right (union (pairs (two ++ one)))) : SameMap left right := by
  constructor
  · rw [hleft.length_eq, hright.length_eq, length_union, length_union, keys_pairs, keys_pairs]
    have hperm : (one ++ two).Perm (two ++ one) := List.perm_append_comm
    exact (hperm.map Member.path).dedup.length_eq
  · exact fun _ _ _ => ParentTable.PathTo.injective hleft.shape
  · exact fun _ _ _ => ParentTable.PathTo.injective hright.shape
  · intro path value
    have hcompatible := hagree.compatible
    rw [pairs_append] at hcompatible
    rw [hleft.mapsTo_iff, hright.mapsTo_iff, pairs_append, pairs_append,
      lookup_append_comm hcompatible]

/-- Two archives that list their ancestors themselves and agree on the paths
they share can be merged in either order, with the same result, if and only if
no member has twelve components with a slash behind them. -/
theorem mergeAll_order_iff {headersA headersB : List HeaderPtr}
    {membersA membersB : List Member} (hencA : List.Forall₂ Encodes headersA membersA)
    (hencB : List.Forall₂ Encodes headersB membersB)
    (hfirstA : AncestorsFirst [] membersA) (hfirstB : AncestorsFirst [] membersB)
    (hagree : Agree (membersA ++ membersB))
    (hroom : ((membersA ++ membersB).map Member.path).dedup.length ≤ maxInodes) :
    (∃ inodesAB inodesBA, mergeAll (headersA ++ headersB) [] = .ok inodesAB ∧
        mergeAll (headersB ++ headersA) [] = .ok inodesBA ∧ SameMap inodesAB inodesBA) ↔
      ∀ member ∈ membersA ++ membersB, ¬ member.Overflows := by
  constructor
  · rintro ⟨inodesAB, inodesBA, hrun, -, -⟩ member hmember
    exact not_overflows_of_mergeAll (List.rel_append hencA hencB) hrun hmember
  · intro hfits
    have hperm : (membersB ++ membersA).Perm (membersA ++ membersB) := List.perm_append_comm
    obtain ⟨inodesAB, hrunAB, hrefAB⟩ := mergeAll_members (List.rel_append hencA hencB)
      (hfirstA.append hfirstB) hroom hfits
    obtain ⟨inodesBA, hrunBA, hrefBA⟩ := mergeAll_members (List.rel_append hencB hencA)
      (hfirstB.append hfirstA) ((hperm.map Member.path).dedup.length_eq.trans_le hroom)
      (fun member hmember => hfits member (hperm.mem_iff.mp hmember))
    exact ⟨inodesAB, inodesBA, hrunAB, hrunBA, hrefAB.sameMap hagree hrefBA⟩

/-- A file whose mode field has the bits of its type. -/
def typedFile : Member :=
  { TarHeader.smallFile with
    content := { TarHeader.fileContent with
      mode := 0o100644
      modeFits := by decide } }

/-- A link in the directory, with data behind its header. -/
def dataLink : Member where
  path := [ascii ['a'], ascii ['c']]
  slash := false
  content := { TarHeader.fileContent with
    kind := .symLink
    linkname := ascii ['t']
    linknameNoNul := by decide
    linknameFits := by decide
    linkGiven := by decide }
  nonempty := by decide
  depth := by decide
  components := by decide
  notDotted := by decide
  fits := by decide

/-- One archive with a directory and a link in it, and one with the directory
and a file. -/
theorem mergeAll_order_small :
    (∃ inodesAB inodesBA,
      mergeAll ([TarHeader.nestedDirectory 0, dataLink].map TarHeader.memberHeader ++
        [TarHeader.nestedDirectory 0, typedFile].map TarHeader.memberHeader) [] = .ok inodesAB ∧
      mergeAll ([TarHeader.nestedDirectory 0, typedFile].map TarHeader.memberHeader ++
        [TarHeader.nestedDirectory 0, dataLink].map TarHeader.memberHeader) [] = .ok inodesBA ∧
      SameMap inodesAB inodesBA) ↔
      ∀ member ∈ [TarHeader.nestedDirectory 0, dataLink] ++
        [TarHeader.nestedDirectory 0, typedFile], ¬ member.Overflows :=
  mergeAll_order_iff
    (encodes_memberHeaders (by decide))
    (encodes_memberHeaders (by decide))
    (by decide) (by decide) (by unfold Agree; decide) (by decide)

/-- The deep directories cannot be merged in either order with an archive that
holds the first of them. -/
theorem mergeAll_order_deepDirectories :
    List.Forall₂ Encodes (deepDirectories.map TarHeader.memberHeader) deepDirectories ∧
      List.Forall₂ Encodes ([TarHeader.nestedDirectory 0].map TarHeader.memberHeader)
        [TarHeader.nestedDirectory 0] ∧
      AncestorsFirst [] deepDirectories ∧ AncestorsFirst [] [TarHeader.nestedDirectory 0] ∧
      Agree (deepDirectories ++ [TarHeader.nestedDirectory 0]) ∧
      ((deepDirectories ++ [TarHeader.nestedDirectory 0]).map Member.path).dedup.length ≤
        maxInodes ∧
      ¬ ∃ inodesAB inodesBA,
        mergeAll (deepDirectories.map TarHeader.memberHeader ++
          [TarHeader.nestedDirectory 0].map TarHeader.memberHeader) [] = .ok inodesAB ∧
        mergeAll ([TarHeader.nestedDirectory 0].map TarHeader.memberHeader ++
          deepDirectories.map TarHeader.memberHeader) [] = .ok inodesBA ∧
        SameMap inodesAB inodesBA := by
  have henc := encodes_memberHeaders writable_deepDirectories
  have hencOne : List.Forall₂ Encodes
      ([TarHeader.nestedDirectory 0].map TarHeader.memberHeader)
      [TarHeader.nestedDirectory 0] := encodes_memberHeaders (by decide)
  refine ⟨henc, hencOne, by decide +kernel, by decide, ?_, by decide +kernel, ?_⟩
  · intro one hone two htwo _
    have hcontent : ∀ member ∈ deepDirectories ++ [TarHeader.nestedDirectory 0],
        member.content = TarHeader.directoryContent := by
      decide +kernel
    rw [hcontent one hone, hcontent two htwo]
  · rintro ⟨inodesAB, inodesBA, hrun, -, -⟩
    have hdeepest : TarHeader.nestedDirectory 11 ∈
        deepDirectories ++ [TarHeader.nestedDirectory 0] :=
      List.mem_append_left _ (List.mem_map.mpr ⟨11, List.mem_finRange _, rfl⟩)
    exact not_overflows_of_mergeAll (List.rel_append henc hencOne) hrun hdeepest (by decide)

end Tcb.UnionByPath
