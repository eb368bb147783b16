import Tcb.Fs2Xml.MergeFile
import Tcb.Core.Preorder

/-!
# The shape of a reachable table

Every table that a sequence of `MergeFile` calls leaves behind stores a forest:
parents come before their children, and no two siblings share a name.  The
paths of its inodes are paths that the headers spelled.  What `WalkDir` changes
in a table afterwards does not touch its shape.
-/

namespace Tcb.TableShape

open Tcb.CString
open Tcb.Inodes
open Tcb.Split
open Tcb.MergeFile

/-! ## One call -/

theorem resolve_eq_some_iff {inodes : Table} (hshape : Shape inodes) {id : ℤ}
    {names : List (List Byte)} :
    resolve inodes (-1) names = some id ↔ PathTo inodes id names :=
  ParentTable.Shape.resolve_eq_some_iff hshape

theorem resolve_cases {inodes : Table} (hshape : Shape inodes) {parentid : ℤ}
    {front : List (List Byte)} (hresolve : resolve inodes (-1) front = some parentid) :
    parentid = -1 ∨ 0 ≤ parentid ∧ parentid < inodes.length := by
  rcases ((resolve_eq_some_iff hshape).mp hresolve).index_cases with ⟨hroot, -⟩ | ⟨index, rfl, hlt⟩
  · exact .inl hroot
  · exact .inr ⟨by omega, by omega⟩

/-- The two outcomes of a call on a table of the right shape, with the parent
of a new inode given by its path. -/
theorem mergeFile_paths {ph : HeaderPtr} {inodes merged : Table}
    (hshape : Shape inodes) (hrun : mergeFile ph inodes = .ok merged) :
    ∃ front component parentid, HeaderPath ph (front ++ [component]) ∧
      PathTo inodes parentid front ∧
      (merged = inodes ∧ (∃ id, PathTo inodes id (front ++ [component])) ∨
        ∃ node, merged = inodes ++ [node] ∧ inodes.length < maxInodes ∧
          searchInode inodes component parentid = -1 ∧
          newInode ph component parentid = .ok node ∧
          Fresh node component parentid) := by
  obtain ⟨front, component, parentid, hheader, hresolve, hmerged⟩ := mergeFile_cases hrun
  have hpath := (resolve_eq_some_iff hshape).mp hresolve
  refine ⟨front, component, parentid, hheader, hpath, ?_⟩
  cases hmerged with
  | existing hfound =>
      refine .inl ⟨rfl, searchInode inodes component parentid, ?_⟩
      exact (resolve_eq_some_iff hshape).mp
        (ParentTable.resolve_concat_eq_some.mpr ⟨parentid, hresolve, rfl, hfound⟩)
  | added hnew hroom hnode =>
      obtain ⟨hnul, -, hlength⟩ := hheader.mem (show component ∈ front ++ [component] by simp)
      exact .inr ⟨_, rfl, hroom, hnew, hnode, newInode_fresh hnul hlength hnode⟩

theorem mergeFile_shape {ph : HeaderPtr} {inodes merged : Table}
    (hshape : Shape inodes) (hrun : mergeFile ph inodes = .ok merged) :
    Shape merged := by
  obtain ⟨front, component, parentid, -, hpath, ⟨rfl, -⟩ | ⟨node, rfl, -, hnew, -, hfresh⟩⟩ :=
    mergeFile_paths hshape hrun
  · exact hshape
  · have hresolve := (resolve_eq_some_iff hshape).mpr hpath
    refine hshape.concat ?_ ?_
    · rw [hfresh.parentid]
      exact resolve_cases hshape hresolve
    · rwa [hfresh.name, hfresh.parentid, ← searchInode_eq_find]

/-! ## Whole runs -/

theorem mergeAll_shape {headers : List HeaderPtr} {inodes merged : Table}
    (hshape : Shape inodes) (hrun : mergeAll headers inodes = .ok merged) :
    Shape merged :=
  Run.foldlM_invariant Shape hrun hshape fun _ _ _ _ hstate hstep =>
    mergeFile_shape hstate hstep

theorem reachable_shape {inodes : Table} (hreach : Reachable inodes) : Shape inodes := by
  obtain ⟨headers, hrun⟩ := hreach
  exact mergeAll_shape ParentTable.shape_nil hrun

/-- Every path of a table is the path of one of the headers. -/
theorem headerPath_of_pathTo {headers : List HeaderPtr} {inodes : Table}
    (hrun : mergeAll headers [] = .ok inodes) {index : ℕ} {names : List (List Byte)}
    (hpath : PathTo inodes index names) : ∃ ph ∈ headers, HeaderPath ph names := by
  induction headers using List.reverseRecOn generalizing inodes index names with
  | nil =>
      rw [mergeAll_nil, Except.ok.injEq] at hrun
      obtain ⟨entry, front, hentry, -⟩ := hpath.cases_nonneg
      simp [← hrun] at hentry
  | append_singleton headers ph ih =>
      rw [mergeAll_concat, Run.bind_eq_ok] at hrun
      obtain ⟨middle, hmiddle, hlast⟩ := hrun
      have hshape := mergeAll_shape ParentTable.shape_nil hmiddle
      have hearlier : ∀ {index : ℕ} {names : List (List Byte)},
          PathTo middle index names → ∃ ph' ∈ headers ++ [ph], HeaderPath ph' names := by
        intro index names hold
        obtain ⟨ph', hmem, hheader⟩ := ih hmiddle hold
        exact ⟨ph', by simp [hmem], hheader⟩
      have hmerged := mergeFile_shape hshape hlast
      obtain ⟨front, component, parentid, hheader, hfront,
        ⟨rfl, -⟩ | ⟨node, rfl, -, -, -, hfresh⟩⟩ := mergeFile_paths hshape hlast
      · exact hearlier hpath
      · rcases (ParentTable.Shape.pathTo_concat_iff hmerged).mp hpath with
          hold | ⟨-, front', rfl, hfront'⟩
        · exact hearlier hold
        · rw [hfresh.parentid] at hfront'
          rw [hfresh.name, hfront'.unique hfront]
          exact ⟨ph, by simp, hheader⟩

/-- Merging leaves the paths of the inodes alone. -/
theorem pathTo_mergeAll {headers : List HeaderPtr} {inodes later : Table}
    (hrun : mergeAll headers inodes = .ok later) {id : ℤ} {names : List (List Byte)}
    (hpath : PathTo inodes id names) : PathTo later id names := by
  refine Run.foldlM_invariant (fun reached => PathTo reached id names) hrun hpath ?_
  intro reached ph next _ hreached hstep
  obtain ⟨_, _, _, -, -, hmerged⟩ := mergeFile_cases hstep
  cases hmerged with
  | existing => exact hreached
  | added => exact hreached.append _

/-- An inode of a reachable table is named by a component of a header's name. -/
theorem name_of_mem {inodes : Table} (hreach : Reachable inodes) {node : Inode}
    (hnode : node ∈ inodes) : 47 ∉ nameOf node := by
  have hshape := reachable_shape hreach
  obtain ⟨headers, hrun⟩ := hreach
  obtain ⟨index, hindex⟩ := List.mem_iff_getElem?.mp hnode
  obtain ⟨names, hpath⟩ := ParentTable.Shape.pathTo_exists hshape
    (List.getElem?_eq_some_iff.mp hindex).1
  obtain ⟨entry, front, hentry, rfl, -⟩ := hpath.cases_nonneg
  obtain ⟨ph, -, hheader⟩ := headerPath_of_pathTo hrun hpath
  rw [hindex, Option.some.injEq] at hentry
  subst hentry
  exact (hheader.mem (show nameOf node ∈ front ++ [nameOf node] by simp)).2.1

/-- Nothing has been compressed, loaded or moved yet. -/
theorem fresh_of_mem {inodes : Table} (hreach : Reachable inodes) :
    ∀ node ∈ inodes, node.src.bytes = [] ∧ node.compressed = false ∧ node.load = false := by
  refine Reachable.induction (motive := fun inodes => ∀ node ∈ inodes,
    node.src.bytes = [] ∧ node.compressed = false ∧ node.load = false) (by simp) ?_ hreach
  intro inodes ph merged hreach ih hrun
  obtain ⟨_, _, _, -, -, ⟨rfl, -⟩ | ⟨node, rfl, -, -, -, hfresh⟩⟩ :=
    mergeFile_paths (reachable_shape hreach) hrun
  · exact ih
  · intro other hother
    rcases List.mem_append.mp hother with hold | hnew
    · exact ih other hold
    · rw [List.mem_singleton.mp hnew]
      exact ⟨hfresh.src, hfresh.compressed, hfresh.load⟩

/-! ## What lookup finds -/

/-- `SearchInode` returns `-1` when no inode matches and the only match
otherwise. -/
theorem searchInode_spec {inodes : Table} (hshape : Shape inodes) (name : List Byte)
    (parentid : ℤ) :
    (searchInode inodes name parentid = -1 ∧
      ∀ node ∈ inodes, node.parentid = parentid → nameOf node ≠ name) ∨
    ∃ (index : ℕ) (node : Inode), searchInode inodes name parentid = index ∧
      inodes[index]? = some node ∧ node.parentid = parentid ∧ nameOf node = name ∧
      ∀ (other : ℕ) found, inodes[other]? = some found →
        found.parentid = parentid → nameOf found = name → other = index := by
  by_cases hfound : searchInode inodes name parentid = -1
  · exact .inl ⟨hfound, ParentTable.find_eq_neg_one_iff.mp hfound⟩
  · obtain ⟨index, node, heq, hnode, hparent, hname⟩ := ParentTable.find_spec hfound
    refine .inr ⟨index, node, heq, hnode, hparent, hname, ?_⟩
    intro other found hother hparent' hname'
    exact hshape.siblings other index found node hother hnode
      (hparent'.trans hparent.symm) (hname'.trans hname.symm)

/-- The inodes a walk below `parentid` visits, in order. -/
abbrev visits (inodes : Table) (fuel : ℕ) (parentid : ℤ) : List ℕ :=
  Preorder.preorder Inode.parentid Inode.isDir inodes fuel parentid

theorem parentsFirst {inodes : Table} (hshape : Shape inodes) :
    Preorder.ParentsFirst Inode.parentid inodes := hshape.parent_lt

/-! ## What the walk over the table may change -/

/-- An inode without the three fields that `WalkDir` sets. -/
def fixed (node : Inode) : Inode :=
  { node with
    src := { bytes := [], noNul := CArray.nil_noNul, fits := CArray.nil_fits }
    compressed := false
    load := false }

/-- Two tables that differ at most in `src`, `compressed` and `load`. -/
def SameTree (left right : Table) : Prop := left.map fixed = right.map fixed

namespace SameTree

variable {left right : Table}

theorem refl (inodes : Table) : SameTree inodes inodes := rfl

theorem symm (hsame : SameTree left right) : SameTree right left := Eq.symm hsame

theorem trans {other : Table} (hsame : SameTree left right)
    (hother : SameTree right other) : SameTree left other := Eq.trans hsame hother

theorem length_eq (hsame : SameTree left right) : left.length = right.length := by
  simpa using congrArg List.length hsame

theorem map_eq {β : Type} {f : Inode → β} (hsame : SameTree left right)
    (hfixed : ∀ node, f (fixed node) = f node) : left.map f = right.map f := by
  have hmap := congrArg (List.map f) hsame
  simpa [Function.comp_def, hfixed] using hmap

theorem getElem? (hsame : SameTree left right) {index : ℕ} {node : Inode}
    (hnode : left[index]? = some node) :
    ∃ other, right[index]? = some other ∧ fixed other = fixed node :=
  ParentTable.getElem?_of_map_eq hsame hnode

theorem shape (hsame : SameTree left right) (hshape : Shape left) : Shape right :=
  hshape.of_map_eq (hsame.map_eq fun _ => rfl)

theorem pathTo (hsame : SameTree left right) {id : ℤ} {names : List (List Byte)}
    (hpath : PathTo left id names) : PathTo right id names :=
  hpath.of_map_eq (hsame.map_eq fun _ => rfl)

/-- Replacing an inode by one that agrees with it on everything else. -/
theorem set {index : ℕ} {node changed : Inode} (hnode : left[index]? = some node)
    (hchanged : fixed changed = fixed node) : SameTree left (left.set index changed) := by
  apply List.ext_getElem?
  intro other
  rw [List.getElem?_map, List.getElem?_map, List.getElem?_set]
  by_cases hindex : index = other
  · subst hindex
    obtain ⟨hlt, rfl⟩ := List.getElem?_eq_some_iff.mp hnode
    simp [hlt, hchanged]
  · simp [hindex]

end SameTree

end Tcb.TableShape
