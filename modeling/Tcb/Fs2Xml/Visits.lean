import Tcb.Fs2Xml.WalkDir
import Tcb.Fs2Xml.Manifest
import Tcb.Fs2Xml.TarHeader

/-!
# Which inodes the walks reach

The three walks go below directories only, and a parent is looked up by name
only.  An inode that was put under a file or a link is never reached.  As long
as every new member is put under a directory, each walk visits every inode
exactly once.
-/

namespace Tcb.Visits

open Tcb.CString
open Tcb.Inodes
open Tcb.MergeFile
open Tcb.TableShape
open Tcb.WalkDir
open Tcb.Manifest

/-- The tables of the runs of which every step meets a condition on its header
and on the table before it. -/
inductive ReachedBy (condition : HeaderPtr → Table → Prop) : Table → Prop
  | start : ReachedBy condition []
  | step {ph : HeaderPtr} {inodes merged : Table} (hbefore : ReachedBy condition inodes)
      (hcondition : condition ph inodes) (hrun : mergeFile ph inodes = .ok merged) :
      ReachedBy condition merged

theorem ReachedBy.reachable {condition : HeaderPtr → Table → Prop} {inodes : Table}
    (hreached : ReachedBy condition inodes) : Reachable inodes := by
  induction hreached with
  | start => exact ⟨[], rfl⟩
  | @step ph inodes merged hbefore hcondition hrun ih =>
      obtain ⟨headers, hheaders⟩ := ih
      exact ⟨headers ++ [ph], by rw [mergeAll_concat, hheaders, Run.ok_bind, hrun]⟩

/-- A member that is new to the table lies in the root or in a directory. -/
def NewInDirectory (ph : HeaderPtr) (inodes : Table) : Prop :=
  ∀ front component, HeaderPath ph (front ++ [component]) →
    (¬ ∃ id, PathTo inodes id (front ++ [component])) →
    ∀ (up : ℕ) above, inodes[up]? = some above → PathTo inodes up front → above.isDir = true

/-- The parent of every inode outside the root is a directory. -/
def ParentsAreDirectories (inodes : Table) : Prop :=
  ∀ (i : ℕ) node, inodes[i]? = some node → node.parentid ≠ -1 →
    ∃ (up : ℕ) (above : Inode), node.parentid = up ∧ inodes[up]? = some above ∧
      above.isDir = true

/-! ## Parents -/

theorem parentsAreDirectories_concat {inodes : Table} {node : Inode}
    (hparents : ParentsAreDirectories inodes)
    (hnew : node.parentid ≠ -1 → ∃ (up : ℕ) (above : Inode), node.parentid = up ∧
      inodes[up]? = some above ∧ above.isDir = true) :
    ParentsAreDirectories (inodes ++ [node]) := by
  have hkeep : ∀ {up : ℕ} {above : Inode}, inodes[up]? = some above →
      (inodes ++ [node])[up]? = some above := by
    intro up above habove
    rw [List.getElem?_append_left (List.getElem?_eq_some_iff.mp habove).1, habove]
  intro i found hfound hroot
  have hcases : inodes[i]? = some found ∨ found = node := by
    rw [List.getElem?_append] at hfound
    split at hfound
    · exact .inl hfound
    · exact .inr (List.mem_singleton.mp (List.mem_of_getElem? hfound))
  rcases hcases with hold | rfl
  · obtain ⟨up, above, hup, habove, hdir⟩ := hparents i found hold hroot
    exact ⟨up, above, hup, hkeep habove, hdir⟩
  · obtain ⟨up, above, hup, habove, hdir⟩ := hnew hroot
    exact ⟨up, above, hup, hkeep habove, hdir⟩

theorem reachedBy_parentsAreDirectories {inodes : Table}
    (hreached : ReachedBy NewInDirectory inodes) : ParentsAreDirectories inodes := by
  induction hreached with
  | start =>
      intro i node hnode
      simp at hnode
  | @step ph inodes merged hbefore hcondition hrun ih =>
      have hshape := reachable_shape hbefore.reachable
      obtain ⟨front, component, parentid, hheader, hpath,
        ⟨rfl, -⟩ | ⟨node, rfl, -, hnew, -, hfresh⟩⟩ := mergeFile_paths hshape hrun
      · exact ih
      · apply parentsAreDirectories_concat ih
        intro hroot
        rw [hfresh.parentid] at hroot ⊢
        rcases hpath.index_cases with ⟨hnone, -⟩ | ⟨up, rfl, hlt⟩
        · exact absurd hnone hroot
        · refine ⟨up, inodes[up], rfl, by simp [hlt], ?_⟩
          refine hcondition front component hheader ?_ up inodes[up] (by simp [hlt]) hpath
          -- the path of the member is new because its name is new below the parent
          rintro ⟨id, hknown⟩
          obtain ⟨middle, hmiddle, hfind, hne⟩ := ParentTable.resolve_concat_eq_some.mp
            ((resolve_eq_some_iff hshape).mpr hknown)
          have hsame : ((up : ℕ) : ℤ) = middle :=
            Option.some.inj (((resolve_eq_some_iff hshape).mpr hpath).symm.trans hmiddle)
          apply hne
          rw [← hfind, ← hsame, ← searchInode_eq_find]
          exact hnew

/-! ## The three walks -/

/-- The walks from the root visit every inode exactly once; the JSON walk does
so unless it gives up on an inode of another type. -/
structure AllVisited (inodes : Table) : Prop where
  dir : ∀ (host : Host) (disk : host.Disk) final,
    createFilesystem host inodes disk = .ok final →
      final.visited.Perm (List.range inodes.length)
  xml : ∃ fp, createXML inodes = .ok fp ∧ fp.visited.Perm (List.range inodes.length)
  json : ∀ fp, createJSON inodes = .ok fp → fp.visited.Perm (List.range inodes.length)
  jsonReturns : (∀ node ∈ inodes,
      node.isDir = true ∨ node.isReg = true ∨ node.isLnk = true) →
    Run.Returns (createJSON inodes)

theorem visits_perm {inodes : Table} (hshape : Shape inodes)
    (hparents : ParentsAreDirectories inodes) :
    (visits inodes (inodes.length + 1) (-1)).Perm (List.range inodes.length) :=
  (parentsFirst hshape).preorder_perm_range (Nat.le_succ _) hparents

theorem createXML_visited {inodes : Table} {fp : Printer Xml.Token}
    (hrun : createXML inodes = .ok fp) :
    fp.visited = visits inodes (inodes.length + 1) (-1) := by
  simp only [createXML, Run.bind_eq_ok, Run.pure_eq_ok, Except.ok.injEq] at hrun
  obtain ⟨inner, hinner, rfl⟩ := hrun
  calc inner.visited
      = [] ++ visits inodes (inodes.length + 1) (-1) := walkXML_visited hinner
    _ = visits inodes (inodes.length + 1) (-1) := List.nil_append _

theorem createJSON_visited {inodes : Table} {fp : Printer Json.Token}
    (hrun : createJSON inodes = .ok fp) :
    fp.visited = visits inodes (inodes.length + 1) (-1) := by
  simp only [createJSON, Run.bind_eq_ok, Run.pure_eq_ok, Except.ok.injEq] at hrun
  obtain ⟨inner, hinner, rfl⟩ := hrun
  calc inner.visited
      = [] ++ visits inodes (inodes.length + 1) (-1) := walkJSON_visited hinner
    _ = visits inodes (inodes.length + 1) (-1) := List.nil_append _

theorem createXML_returns {inodes : Table} (hshape : Shape inodes) :
    Run.Returns (createXML inodes) := by
  have hwalk : ∀ fp, Run.Returns (walkXML inodes (inodes.length + 1) (-1) 1 fp) :=
    walkXML_returns hshape le_rfl (by omega) (by push_cast; omega) 1
  obtain ⟨inner, hinner⟩ := hwalk _
  exact ⟨_, by rw [createXML, hinner]; rfl⟩

theorem createJSON_returns {inodes : Table} (hshape : Shape inodes)
    (hknown : ∀ node ∈ inodes,
      node.isDir = true ∨ node.isReg = true ∨ node.isLnk = true) :
    Run.Returns (createJSON inodes) := by
  have hwalk : ∀ fp, Run.Returns (walkJSON inodes (inodes.length + 1) (-1) 1 fp) :=
    walkJSON_returns hshape hknown le_rfl (by omega) (by push_cast; omega) 1
  obtain ⟨inner, hinner⟩ := hwalk _
  exact ⟨_, by rw [createJSON, hinner]; rfl⟩

/-- In every state of a run that puts each new member under a directory, the
parents are directories and each walk visits every inode exactly once. -/
theorem reachedBy_allVisited {inodes : Table}
    (hreached : ReachedBy NewInDirectory inodes) :
    ParentsAreDirectories inodes ∧ AllVisited inodes := by
  have hshape := reachable_shape hreached.reachable
  have hparents := reachedBy_parentsAreDirectories hreached
  have hperm := visits_perm hshape hparents
  refine ⟨hparents, ?_, ?_, ?_, createJSON_returns hshape⟩
  · intro host disk final hrun
    rw [walkDir_visited hrun]
    exact hperm
  · obtain ⟨fp, hrun⟩ := createXML_returns hshape
    exact ⟨fp, hrun, createXML_visited hrun ▸ hperm⟩
  · intro fp hrun
    exact createJSON_visited hrun ▸ hperm

theorem newInDirectory_of_all {inodes : Table} (hall : ∀ node ∈ inodes, node.isDir = true)
    (ph : HeaderPtr) : NewInDirectory ph inodes :=
  fun _ _ _ _ _ above habove _ => hall above (List.mem_of_getElem? habove)

set_option maxRecDepth 4000 in
theorem mergeFile_nestedDirectory :
    mergeFile (TarHeader.memberHeader (TarHeader.nestedDirectory 0)) [] =
      .ok (TarHeader.smallTable.take 1) := by
  rfl

set_option maxRecDepth 4000 in
theorem mergeFile_smallFile :
    mergeFile (TarHeader.memberHeader TarHeader.smallFile) (TarHeader.smallTable.take 1) =
      .ok TarHeader.smallTable := by
  rfl

/-- A directory and a file in it. -/
theorem smallTable_allVisited :
    ParentsAreDirectories TarHeader.smallTable ∧ AllVisited TarHeader.smallTable :=
  reachedBy_allVisited (.step
    (.step .start (newInDirectory_of_all (by simp) _) mergeFile_nestedDirectory)
    (newInDirectory_of_all (by decide) _) mergeFile_smallFile)

/-! ## A member below a file -/

/-- A file with the name of the directory. -/
def fileInTheWay : Members.Member where
  path := [ascii ['a']]
  slash := false
  content := TarHeader.fileContent
  nonempty := by decide
  depth := by decide
  components := by decide
  notDotted := by decide
  fits := by decide

/-- The table after the file and a second file below it. -/
def orphanTable : Table :=
  TarHeader.smallTable.map fun node =>
    { node with
      mode := 0o100644
      size := 2
      uid := 1000
      gid := 1000
      data := some (ascii ['h', 'i'])
      mtime := 5 }

set_option maxRecDepth 4000 in
theorem mergeAll_orphanTable :
    mergeAll ([fileInTheWay, TarHeader.smallFile].map TarHeader.memberHeader) [] =
      .ok orphanTable := by
  rfl

theorem createXML_orphanTable :
    ∃ fp, createXML orphanTable = .ok fp ∧ fp.visited = [0] := by
  obtain ⟨fp, hrun⟩ := createXML_returns (reachable_shape ⟨_, mergeAll_orphanTable⟩)
  exact ⟨fp, hrun, (createXML_visited hrun).trans (by decide)⟩

/-- The second file is merged below the first one, and no walk reaches it. -/
theorem orphanTable_not_allVisited :
    Reachable orphanTable ∧ ¬ ParentsAreDirectories orphanTable ∧
      ¬ AllVisited orphanTable := by
  refine ⟨⟨_, mergeAll_orphanTable⟩, ?_, ?_⟩
  · intro hparents
    obtain ⟨up, above, hup, habove, hdir⟩ :=
      hparents 1 (orphanTable.get ⟨1, by decide⟩) (by decide) (by decide)
    have hnone : ∀ node ∈ orphanTable, node.isDir = false := by decide
    rw [hnone above (List.mem_of_getElem? habove)] at hdir
    exact Bool.false_ne_true hdir
  · intro hall
    obtain ⟨fp, hrun, hvisited⟩ := createXML_orphanTable
    obtain ⟨fp', hrun', hperm⟩ := hall.xml
    rw [hrun, Except.ok.injEq] at hrun'
    rw [← hrun', hvisited] at hperm
    have hlength := hperm.length_eq
    simp [orphanTable, TarHeader.smallTable] at hlength

end Tcb.Visits
