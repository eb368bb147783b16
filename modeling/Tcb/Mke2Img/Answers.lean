import Tcb.Mke2Img.Calls
import Tcb.Mke2Img.TreeCopy

/-!
# Answers about a tree

Where the source is a tree that does not change, the answers of the system are
about it: the steps say where the process is and what a descriptor stands for.
With a tree and libraries whose calls all succeed, every answer is known.
-/

namespace Tcb.Calls

open Tcb.CString
open Tcb.SourceTree
open Tcb.Ext2fs
open Tcb.TreeCopy (smallTree smallTree_wellFormed)

/-! ## Where the process is -/

def Step.cwd : Step → Path → Path
  | chdir name true, cwd => if name = dotDot then cwd.dropLast else cwd ++ [name]
  | _, cwd => cwd

/-- The current directory, from the one in which the copy began. -/
def cwd (h : List Step) : Path := h.foldr Step.cwd []

/-- What a descriptor was opened on, and how much of it was read. -/
def source (fd : Fd) : List Step → Option (Path × ℕ)
  | [] => none
  | .openFile name (some fd') :: h =>
      if fd' = fd then some (cwd h ++ [name], 0) else source fd h
  | .read fd' _ (some bytes) :: h =>
      if fd' = fd then (source fd h).map fun (path, pos) => (path, pos + bytes.length)
      else source fd h
  | _ :: h => source fd h

/-- An answer is a failure or about the tree. -/
structure Answers (tree : Tree) (world : World) : Prop where
  lstat : ∀ {h name info}, world.lstat h name = some info →
    ∃ node, tree.node (cwd h ++ [name]) = some node ∧ node.info = info
  readlink : ∀ {h name target}, world.readlink h name = some target →
    ∃ node, tree.node (cwd h ++ [name]) = some node ∧ node.isLnk = true ∧ node.data = target
  read : ∀ {h fd count bytes path pos}, world.read h fd count = some bytes →
    source fd h = some (path, pos) →
      ∃ node, tree.node path = some node ∧ bytes.length ≤ count ∧ bytes <+: node.data.drop pos

/-- Where the answers are those of the tree, they are about it. -/
theorem Answers.of_tree {tree : Tree} {world : World}
    (hlstat : world.lstat = fun h name => tree.lstat (cwd h) name)
    (hreadlink : world.readlink = fun h name => (tree.node (cwd h ++ [name])).bind fun node =>
      if node.isLnk then some node.data else none)
    (hread : world.read = fun h fd count => (source fd h).bind fun place =>
      (tree.node place.1).map fun node => (node.data.drop place.2).take count) :
    Answers tree world where
  lstat {h name info} hinfo := by
    rw [hlstat] at hinfo
    exact Option.map_eq_some_iff.mp hinfo
  readlink {h name target} htarget := by
    rw [hreadlink] at htarget
    obtain ⟨node, hnode, hdata⟩ := Option.bind_eq_some_iff.mp htarget
    obtain ⟨hlnk, hdata⟩ := Option.ite_none_right_eq_some.mp hdata
    exact ⟨node, hnode, hlnk, Option.some.inj hdata⟩
  read {h fd count bytes path pos} hbytes hsource := by
    rw [hread] at hbytes
    obtain ⟨_, hsource', hbytes⟩ := Option.bind_eq_some_iff.mp hbytes
    obtain rfl := Option.some.inj (hsource.symm.trans hsource')
    obtain ⟨node, hnode, rfl⟩ := Option.map_eq_some_iff.mp hbytes
    exact ⟨node, hnode, List.length_take_le _ _, List.take_prefix _ _⟩

/-! ## When no call fails -/

def Step.newest : Step → Ino → Ino
  | allocStats ino, newest => max ino newest
  | request (.mkdir _ ino _) _ true, newest => max ino newest
  | _, newest => newest

/-- The last inode; the first ten are reserved. -/
def newest (h : List Step) : Ino := h.foldr Step.newest 10

/-- Inodes are taken in order; files and descriptors are numbered by the steps
before them. -/
def calm (tree : Tree) (blocksize : ℕ) : World where
  blocksize := blocksize
  opendir h := tree.opendir (cwd h)
  lstat h name := tree.lstat (cwd h) name
  new_inode h _ _ := some (newest h + 1)
  request _ _ := true
  expand_dir _ _ := true
  chdir _ _ := true
  write_new_inode _ _ _ := true
  openFile h name := (tree.openFile (cwd h) name).map fun _ => h.length
  file_open h _ := some h.length
  read h fd count := (source fd h).bind fun (path, pos) =>
    (tree.node path).map fun node => (node.data.drop pos).take count
  file_write _ _ _ count := some count
  file_flush _ _ := true
  file_close _ _ := true
  readlink h name := (tree.node (cwd h ++ [name])).bind fun node =>
    if node.isLnk then some node.data else none

theorem calm_answers (tree : Tree) (blocksize : ℕ) : Answers tree (calm tree blocksize) :=
  Answers.of_tree rfl rfl rfl

/-- A directory with a file, a link and a device. -/
def smallWorld : World := calm (.ofNodes smallTree smallTree_wellFormed) 1024

end Tcb.Calls
