import Tcb.Fs2Xml.Inodes

/-!
# The tree that is copied

What `mke2img` sees of the source: a finite tree of directories, regular
files, symbolic links and special files that does not change, and a current
directory in it.  The calls below are those of the program on such a tree; each
gives `none` where the call would fail.
-/

namespace Tcb.SourceTree

open Tcb.CString
open Tcb.Inodes

/-- The names from the top of the tree. -/
abbrev Path := List (List Byte)

/-- `"."` and `".."`. -/
def dot : List Byte := [46]
def dotDot : List Byte := [46, 46]

/-- The types of `sys/stat.h` that `fs2xml` does not use. -/
def S_IFIFO : Mode := 0o010000
def S_IFCHR : Mode := 0o020000
def S_IFBLK : Mode := 0o060000
def S_IFSOCK : Mode := 0o140000

/-- The members of `struct stat` that are read. -/
structure Stat where
  st_mode : Mode
  st_uid : BitVec 32
  st_gid : BitVec 32
  st_rdev : BitVec 64
  st_size : ℕ
  st_atime : ℤ
  st_mtime : ℤ
  st_ctime : ℤ
  deriving DecidableEq

/-- What stands at a path: the names that `readdir` gives for a directory, in
its order, and the bytes of a file or the target of a link. -/
structure Node where
  info : Stat
  listing : List (List Byte)
  data : List Byte
  deriving DecidableEq

namespace Node

def isDir (node : Node) : Bool := node.info.st_mode &&& S_IFMT = S_IFDIR
def isReg (node : Node) : Bool := node.info.st_mode &&& S_IFMT = S_IFREG
def isLnk (node : Node) : Bool := node.info.st_mode &&& S_IFMT = S_IFLNK

/-- The entries other than `"."` and `".."`. -/
def entries (node : Node) : List (List Byte) :=
  node.listing.filter fun name => name ≠ dot ∧ name ≠ dotDot

end Node

/-- The file types that there are. -/
def allTypes : List Mode := [S_IFDIR, S_IFREG, S_IFLNK, S_IFCHR, S_IFBLK, S_IFIFO, S_IFSOCK]

/-- A finite tree: every directory lists what is below it, each once. -/
structure Tree where
  node : Path → Option Node
  depth : ℕ
  shallow : ∀ path here, node path = some here → path.length ≤ depth
  listed : ∀ path here, node path = some here → here.isDir = true →
    here.listing.Nodup ∧ ∀ name ∈ here.entries, (node (path ++ [name])).isSome
  above : ∀ path name below, node (path ++ [name]) = some below →
    ∃ here, node path = some here ∧ here.isDir = true ∧ name ∈ here.entries
  typed : ∀ path here, node path = some here → here.info.st_mode &&& S_IFMT ∈ allTypes
  sized : ∀ path here, node path = some here → here.isReg = true ∨ here.isLnk = true →
    here.info.st_size = here.data.length

namespace Tree

variable (tree : Tree)

/-- `opendir(".")` and what `readdir` gives then. -/
def opendir (cwd : Path) : Option (List (List Byte)) :=
  (tree.node cwd).bind fun node => if node.isDir then some node.listing else none

def lstat (cwd : Path) (name : List Byte) : Option Stat :=
  (tree.node (cwd ++ [name])).map Node.info

def chdir (cwd : Path) (name : List Byte) : Option Path :=
  if name = dotDot then some cwd.dropLast
  else (tree.node (cwd ++ [name])).bind fun node =>
    if node.isDir then some (cwd ++ [name]) else none

/-- `open(name, O_RDONLY)`: the bytes that can be read. -/
def openFile (cwd : Path) (name : List Byte) : Option (List Byte) :=
  (tree.node (cwd ++ [name])).bind fun node => if node.isReg then some node.data else none

/-- `readlink(name, buf, size)`: what is put into the buffer. -/
def readlink (cwd : Path) (name : List Byte) (size : ℕ) : Option (List Byte) :=
  (tree.node (cwd ++ [name])).bind fun node =>
    if node.isLnk then some (node.data.take size) else none

end Tree

/-- What the calls of `read` on a file return until one returns nothing. -/
def readBlocks (count : ℕ) : ℕ → List Byte → List (List Byte)
  | 0, _ => []
  | fuel + 1, bytes =>
      if bytes.take count = [] then []
      else bytes.take count :: readBlocks count fuel (bytes.drop count)

theorem flatten_readBlocks {count : ℕ} (hcount : 0 < count) {fuel : ℕ} {bytes : List Byte}
    (hfuel : bytes.length ≤ fuel) : (readBlocks count fuel bytes).flatten = bytes := by
  induction fuel generalizing bytes with
  | zero =>
      have hnil : bytes = [] := List.eq_nil_of_length_eq_zero (Nat.le_zero.mp hfuel)
      rw [readBlocks, List.flatten_nil, hnil]
  | succ fuel ih =>
      rw [readBlocks]
      split
      · rename_i hend
        rw [List.take_eq_nil_iff] at hend
        rw [List.flatten_nil, hend.resolve_left (by omega)]
      · rename_i hmore
        have hlength : (bytes.drop count).length ≤ fuel := by
          rw [List.length_drop]
          omega
        rw [List.flatten_cons, ih hlength, List.take_append_drop]

theorem length_of_mem_readBlocks {count fuel : ℕ} {bytes block : List Byte}
    (hblock : block ∈ readBlocks count fuel bytes) : block.length ≤ count := by
  induction fuel generalizing bytes with
  | zero => simp [readBlocks] at hblock
  | succ fuel ih =>
      rw [readBlocks] at hblock
      split at hblock
      · simp at hblock
      · rcases List.mem_cons.mp hblock with rfl | hrest
        · exact List.length_take_le _ _
        · exact ih hrest

/-! ## Calls that succeed -/

section Calls

variable {tree : Tree} {cwd : Path} {name : List Byte} {here node : Node}

theorem Tree.opendir_eq (hhere : tree.node cwd = some here) (hdir : here.isDir = true) :
    tree.opendir cwd = some here.listing := by
  simp [Tree.opendir, hhere, hdir]

theorem Tree.lstat_eq (hnode : tree.node (cwd ++ [name]) = some node) :
    tree.lstat cwd name = some node.info := by
  simp [Tree.lstat, hnode]

theorem Tree.chdir_eq (hnode : tree.node (cwd ++ [name]) = some node)
    (hdir : node.isDir = true) (hname : name ≠ dotDot) :
    tree.chdir cwd name = some (cwd ++ [name]) := by
  simp [Tree.chdir, hnode, hdir, hname]

@[simp]
theorem Tree.chdir_dotDot : tree.chdir (cwd ++ [name]) dotDot = some cwd := by
  simp [Tree.chdir]

theorem Tree.openFile_eq (hnode : tree.node (cwd ++ [name]) = some node)
    (hreg : node.isReg = true) : tree.openFile cwd name = some node.data := by
  simp [Tree.openFile, hnode, hreg]

theorem Tree.readlink_eq (hnode : tree.node (cwd ++ [name]) = some node)
    (hlnk : node.isLnk = true) (size : ℕ) :
    tree.readlink cwd name size = some (node.data.take size) := by
  simp [Tree.readlink, hnode, hlnk]

/-- The types exclude each other. -/
theorem Node.not_isDir_of_data (hdata : node.isReg = true ∨ node.isLnk = true) :
    node.isDir = false := by
  simp only [Node.isDir, Node.isReg, Node.isLnk, decide_eq_true_eq,
    decide_eq_false_iff_not] at hdata ⊢
  rcases hdata with htype | htype <;> rw [htype] <;> decide

theorem Node.mem_entries : name ∈ here.entries ↔
    name ∈ here.listing ∧ name ≠ dot ∧ name ≠ dotDot := by
  simp [Node.entries]

end Calls

/-! ## What is below a path -/

/-- A path behind another is that path, or it goes on with an entry of the
directory there. -/
theorem Tree.below_cases {tree : Tree} {base path : Path} {here : Node}
    (hhere : tree.node base = some here) (hfront : base <+: path)
    (hsome : (tree.node path).isSome) :
    path = base ∨ here.isDir = true ∧ ∃ name ∈ here.entries, base ++ [name] <+: path := by
  obtain ⟨rest, rfl⟩ := hfront
  cases rest with
  | nil => exact .inl (List.append_nil base)
  | cons name rest =>
      -- everything between the two paths is there
      have hbetween : ∀ rest, (tree.node (base ++ name :: rest)).isSome →
          ∃ below, tree.node (base ++ [name]) = some below := by
        intro rest
        induction rest using List.reverseRecOn with
        | nil => exact fun hsome => Option.isSome_iff_exists.mp hsome
        | append_singleton rest last ih =>
            intro hsome
            obtain ⟨below, hbelow⟩ := Option.isSome_iff_exists.mp hsome
            rw [← List.cons_append, ← List.append_assoc] at hbelow
            obtain ⟨upper, hupper, -⟩ := tree.above _ _ _ hbelow
            exact ih (Option.isSome_iff_exists.mpr ⟨upper, hupper⟩)
      obtain ⟨below, hbelow⟩ := hbetween rest hsome
      obtain ⟨here', hhere', hdir, hmem⟩ := tree.above _ _ _ hbelow
      rw [hhere, Option.some.injEq] at hhere'
      subst hhere'
      exact .inr ⟨hdir, name, hmem, ⟨rest, by simp⟩⟩

/-! ## Trees that are written down -/

theorem mem_of_lookup {nodes : List (Path × Node)} {path : Path} {here : Node}
    (hlookup : nodes.lookup path = some here) : (path, here) ∈ nodes := by
  obtain ⟨front, after, rfl, -⟩ := List.lookup_eq_some_iff.mp hlookup
  simp

/-- What makes a list of nodes a tree. -/
structure WellFormed (nodes : List (Path × Node)) : Prop where
  listed : ∀ entry ∈ nodes, entry.2.isDir = true → entry.2.listing.Nodup ∧
    ∀ name ∈ entry.2.entries, (nodes.lookup (entry.1 ++ [name])).isSome
  above : ∀ entry ∈ nodes, ∀ name ∈ entry.1.getLast?,
    ∃ here ∈ nodes.lookup entry.1.dropLast, here.isDir = true ∧ name ∈ here.entries
  typed : ∀ entry ∈ nodes, entry.2.info.st_mode &&& S_IFMT ∈ allTypes
  sized : ∀ entry ∈ nodes, entry.2.isReg = true ∨ entry.2.isLnk = true →
    entry.2.info.st_size = entry.2.data.length

/-- The tree of a list of nodes. -/
def Tree.ofNodes (nodes : List (Path × Node)) (hnodes : WellFormed nodes) : Tree where
  node path := nodes.lookup path
  depth := (nodes.map fun entry => entry.1.length).sum
  shallow path here hhere :=
    List.le_sum_of_mem (List.mem_map.mpr ⟨(path, here), mem_of_lookup hhere, rfl⟩)
  listed path here hhere := hnodes.listed (path, here) (mem_of_lookup hhere)
  above path name below hbelow := by
    obtain ⟨here, hhere, habove⟩ :=
      hnodes.above (path ++ [name], below) (mem_of_lookup hbelow) name (by simp)
    rw [List.dropLast_concat] at hhere
    exact ⟨here, hhere, habove⟩
  typed path here hhere := hnodes.typed (path, here) (mem_of_lookup hhere)
  sized path here hhere := hnodes.sized (path, here) (mem_of_lookup hhere)

end Tcb.SourceTree
