import Tcb.Mke2Img.MemoryImage
import Tcb.Mke2Img.TrawlDir

/-!
# The copy of a tree

In a run whose only failures are full directories that can be expanded, the
image has an entry for each entry of the tree, in the right directory and with
an inode of its own.  The one thing that can stop such a run is a symbolic link
that is longer than the buffer its target is read into.
-/

namespace Tcb.TreeCopy

open Function
open Tcb.CString
open Tcb.Inodes
open Tcb.SourceTree
open Tcb.Ext2fs
open Tcb.MemoryImage
open Tcb.Logged
open Tcb.TrawlDir

/-- The only failures of the library are full directories that one expansion
cured. -/
def Cured {α : Type} (run : Trawl α) : Prop := Clean Event.IsFailure run

/-- The type of the directory entry of a node. -/
def entryType (node : Node) : FileType :=
  if node.isDir then .EXT2_FT_DIR
  else if node.isReg then .EXT2_FT_REG_FILE
  else (specialType node.info.st_mode).getD .EXT2_FT_REG_FILE

/-- The entry that a name of a directory has in the image, when `place` gives
the inode of each path. -/
def entryAt (tree : Tree) (place : Path → Ino) (dir : Path) (name : List Byte) : Entry :=
  ⟨name, place (dir ++ [name]),
    ((tree.node (dir ++ [name])).map entryType).getD .EXT2_FT_REG_FILE⟩

/-- An inode holds what its node does: the type, the entries of a directory,
the bytes of a file and the target of a link. -/
structure Stored (tree : Tree) (fs : Filesystem) (place : Path → Ino) (path : Path)
    (node : Node) : Prop where
  type : (fs.attributes (place path)).i_mode.setWidth 32 &&& S_IFMT =
    node.info.st_mode &&& S_IFMT
  entries : node.isDir = true →
    fs.entries (place path) = ↑(node.entries.map (entryAt tree place path))
  content : node.isReg = true ∨ node.isLnk = true → fs.content (place path) = node.data

/-- There is something at the path, and it is one of the names of the directory
or below one. -/
def Below (tree : Tree) (dir : Path) (names : List (List Byte)) (path : Path) : Prop :=
  (∃ name ∈ names, dir ++ [name] <+: path) ∧ (tree.node path).isSome

/-- The names of a directory, and what is below them, are copied: each path has
an inode of its own, which was free before. -/
structure Copied (tree : Tree) (dir : Path) (names : List (List Byte)) (parent : Ino)
    (before after : Filesystem) (place : Path → Ino) : Prop where
  entries : after.entries parent = ↑(names.map (entryAt tree place dir)) + before.entries parent
  fresh : ∀ path, Below tree dir names path →
    place path ∉ before.used ∧ place path ∈ after.used
  once : ∀ left right, Below tree dir names left → Below tree dir names right →
    place left = place right → left = right
  stored : ∀ path node, Below tree dir names path → tree.node path = some node →
    Stored tree after place path node

/-- The links below the names fit into the buffer. -/
def LinksFit (tree : Tree) (dir : Path) (names : List (List Byte)) : Prop :=
  ∀ path node, Below tree dir names path → tree.node path = some node →
    node.isLnk = true → node.data.length ≤ linkBuffer

/-- One entry with a new inode was added to a directory. -/
structure Added (dir : Ino) (entry : Entry) (attributes : Attributes)
    (before after : Filesystem) : Prop where
  grows : Grows dir before after
  new : entry.ino ∉ before.used
  used : entry.ino ∈ after.used
  entries : after.entries dir = entry ::ₘ before.entries dir
  attributes : after.attributes entry.ino = attributes

/-- A directory is made. -/
theorem Added.made {fs made : Filesystem} {dir new : Ino} {name : List Byte}
    {defaults : Attributes} (hnew : new ∉ fs.used)
    (hmade : made = fs.mkdir defaults dir new name) :
    Added dir ⟨name, new, .EXT2_FT_DIR⟩ defaults fs made := by
  rw [hmade]
  exact ⟨(Grows.refl _ _).mkdir hnew _ _, hnew, Set.mem_insert new _, update_self _ _ _,
    update_self _ _ _⟩

/-- An inode is written, taken into use, filled and linked. -/
theorem Added.linked {fs filled : Filesystem} {dir ino : Ino} {inode : Ext2Inode}
    (hnew : ino ∉ fs.used)
    (htouches : Touches ino ((fs.writeInode ino inode).allocate ino) filled)
    (name : List Byte) (type : FileType) :
    Added dir ⟨name, ino, type⟩ inode.toAttributes fs (filled.link dir ⟨name, ino, type⟩) where
  grows :=
    ((((Grows.refl dir fs).writeInode hnew inode).allocate ino).touches hnew htouches).link _
  new := hnew
  used := by
    change ino ∈ filled.used
    rw [htouches.used]
    exact Set.mem_insert ino fs.used
  entries := by
    change update filled.entries dir _ dir = _
    rw [update_self, htouches.entries]
    rfl
  attributes := by
    change filled.attributes ino = _
    rw [htouches.attributes]
    exact update_self _ _ _

/-! ## A regular file -/

section Regular

variable {lib : Library} {view : View lib} {tree : Tree} {path : Path}

theorem not_cured_failed {α : Type} {failure : Failure} {next : Unit → Trawl α} :
    ¬ Cured (report (.failed path failure) >>= next) := by
  intro hcured
  exact clean_report.mp (clean_bind.mp hcured).1 trivial

theorem overwrite_behind (front rest block : List Byte) :
    Filesystem.overwrite (front ++ rest.drop front.length) front.length block =
      front ++ block ++ rest.drop (front ++ block).length := by
  rw [Filesystem.overwrite, List.take_left, ← List.drop_drop, List.drop_left, List.drop_drop,
    List.length_append]

/-- What the loop has written so far stands in front of what was there. -/
structure Copying (view : View lib) (new : Ino) (old : List Byte) (before : Filesystem)
    (blocks : List (List Byte)) (state : lib.Image × Option lib.File) : Prop where
  handle : ∃ f, state.2 = some f ∧ view.ino f = new ∧ view.pos f = blocks.flatten.length
  touches : Touches new before (view.fs state.1)
  content : (view.fs state.1).content new = blocks.flatten ++ old.drop blocks.flatten.length

theorem Copying.block (hdoc : Documented lib view) {new : Ino} {old : List Byte}
    {before : Filesystem} {blocks : List (List Byte)} {state : lib.Image × Option lib.File}
    (hcopying : Copying view new old before blocks state) {block : List Byte}
    (hblock : block.length ≤ fileBuffer) (hcured : Cured (copyBlock lib path state block)) :
    ∃ next, copyBlock lib path state block = pure next ∧
      Copying view new old before (blocks ++ [block]) next := by
  obtain ⟨image, handle⟩ := state
  obtain ⟨f, rfl, hino, hpos⟩ := hcopying.handle
  rcases copyBlock_cases hdoc path image f hblock with
    ⟨image', f', hfs, hino', hpos', hrun⟩ | ⟨image', rest, failed, -, -, hrun⟩
  · refine ⟨_, hrun, ⟨f', rfl, hino'.trans hino, ?_⟩, ?_, ?_⟩
    · rw [hpos', hpos, List.flatten_append, List.flatten_singleton, List.length_append]
    · exact hcopying.touches.trans (hfs ▸ hino ▸ .write _ _ _ _)
    · have hcontent : (view.fs image').content new =
          Filesystem.overwrite ((view.fs image).content new) (view.pos f) block := by
        rw [hfs, ← hino]
        exact update_self _ _ _
      rw [hcontent, hcopying.content, hpos, overwrite_behind, List.flatten_append,
        List.flatten_singleton]
  · rw [hrun] at hcured
    exact absurd hcured not_cured_failed

theorem copyBlocks_cured (hdoc : Documented lib view) {blocks : List (List Byte)}
    (hblocks : ∀ block ∈ blocks, block.length ≤ fileBuffer) {image : lib.Image} {f : lib.File}
    (hpos : view.pos f = 0)
    (hcured : Cured (blocks.foldlM (copyBlock lib path) (image, some f))) :
    ∃ image' f', blocks.foldlM (copyBlock lib path) (image, some f) =
        pure (image', some f') ∧
      Touches (view.ino f) (view.fs image) (view.fs image') ∧
      (view.fs image').content (view.ino f) = blocks.flatten ++
        ((view.fs image).content (view.ino f)).drop blocks.flatten.length := by
  have hstart : Copying view (view.ino f) ((view.fs image).content (view.ino f))
      (view.fs image) [] (image, some f) :=
    ⟨⟨f, rfl, rfl, hpos⟩, .refl _ _, by simp⟩
  obtain ⟨⟨image', handle⟩, hrun, hfinal⟩ := foldlM_pure _ hcured hstart
    fun before block after state hsplit hstate hclean =>
      hstate.block hdoc (hblocks block (by simp [hsplit])) hclean
  obtain ⟨f', rfl, -, -⟩ := hfinal.handle
  exact ⟨image', f', hrun, hfinal.touches, hfinal.content⟩

/-- A loop that returns has read no block that is longer than the buffer. -/
theorem length_of_copied {blocks : List (List Byte)} {state final : lib.Image × Option lib.File}
    (hrun : (blocks.foldlM (copyBlock lib path) state).run = .ok final) :
    ∀ block ∈ blocks, block.length ≤ fileBuffer := by
  induction blocks generalizing state with
  | nil => simp
  | cons block blocks ih =>
      rw [List.foldlM_cons] at hrun
      obtain ⟨next, hhead, hrest⟩ := run_bind_eq_ok.mp hrun
      obtain ⟨_, hrequire, -⟩ := run_bind_eq_ok.mp hhead
      rw [List.forall_mem_cons]
      exact ⟨Run.require_eq_ok.mp hrequire, ih hrest⟩

/-- The bytes that are written are all that the inode holds when it was made
for no more of them. -/
theorem content_written (fs : Filesystem) (ino : Ino) {inode : Ext2Inode} {data : List Byte}
    (hsize : inode.i_size.toNat ≤ data.length) :
    data ++ (((fs.writeInode ino inode).allocate ino).content ino).drop data.length = data := by
  have hempty : ((fs.writeInode ino inode).allocate ino).content ino =
      if inode.i_block0 = 0 then List.replicate inode.i_size.toNat 0 else [] :=
    update_self _ _ _
  rw [hempty]
  split
  · rw [List.drop_eq_nil_of_le (by rwa [List.length_replicate]), List.append_nil]
  · rw [List.drop_nil, List.append_nil]

theorem size_le {size : ℕ} {data : List Byte} (hsized : size = data.length) :
    (BitVec.ofNat 32 size).toNat ≤ data.length := by
  rw [BitVec.toNat_ofNat, hsized]
  exact Nat.mod_le _ _

theorem copyRegular_cured (hdoc : Documented lib view) (hsize : 0 < lib.blocksize)
    {parent new : Ino} {name : List Byte} {state : State lib} {node : Node}
    (hnode : tree.node (state.cwd ++ [name]) = some node) (hreg : node.isReg = true)
    (hnew : new ∉ (view.fs state.image).used)
    (hcured : Cured (copyRegular lib tree parent new name node.info state))
    (hfits : lib.blocksize ≤ fileBuffer ∨
      ∃ final, (copyRegular lib tree parent new name node.info state).run = .ok final) :
    ∃ image, copyRegular lib tree parent new name node.info state =
        ⟨[.created (state.cwd ++ [name]) new], .ok ⟨state.cwd, image⟩⟩ ∧
      Added parent ⟨name, new, .EXT2_FT_REG_FILE⟩ (regularInode node.info).toAttributes
        (view.fs state.image) (view.fs image) ∧
      (view.fs image).content new = node.data := by
  rw [copyRegular] at hcured hfits ⊢
  simp only [Tree.openFile_eq hnode hreg] at hcured hfits ⊢
  rcases writeNewInode_cases hdoc (state.cwd ++ [name]) .fileAttributes state.image new
      (regularInode node.info) with ⟨written, hwritten, hwrite⟩ | hwrite
  swap
  · rw [hwrite] at hcured
    exact absurd (clean_bind.mp hcured).1 not_cured_failed
  rw [hwrite, Logged.pure_bind] at hcured hfits ⊢
  have hallocated := @Documented.inode_alloc_stats2 _ _ hdoc written new 1
  generalize lib.inode_alloc_stats2 written new 1 1 = allocated at hcured hfits hallocated ⊢
  rw [hwritten] at hallocated
  cases hopen : lib.file_open allocated new with
  | error _ =>
      simp only [hopen] at hcured
      exact absurd hcured not_cured_failed
  | ok f =>
      simp only [hopen] at hcured hfits ⊢
      obtain ⟨hino, hpos⟩ := hdoc.file_open hopen
      have hblocks : ∀ block ∈ readBlocks lib.blocksize node.data.length node.data,
          block.length ≤ fileBuffer := by
        rcases hfits with hfits | ⟨final, hreturned⟩
        · exact fun block hblock => (length_of_mem_readBlocks hblock).trans hfits
        · obtain ⟨copied, hcopied, -⟩ := run_bind_eq_ok.mp hreturned
          exact length_of_copied hcopied
      obtain ⟨copied, f', hcopy, htouches, hcontent⟩ :=
        copyBlocks_cured hdoc hblocks hpos (clean_bind.mp hcured).1
      rw [flatten_readBlocks hsize le_rfl] at hcontent
      rw [hcopy, Logged.pure_bind] at hcured ⊢
      rcases closeFile_cases hdoc (state.cwd ++ [name]) copied f' with
        ⟨closed, hclosed, hclose⟩ | hclose
      swap
      · rw [hclose] at hcured
        exact absurd (clean_bind.mp hcured).1 not_cured_failed
      rw [hclose, Logged.pure_bind] at hcured ⊢
      rcases linkEntry_cases hdoc parent (state.cwd ++ [name]) name new .EXT2_FT_REG_FILE
          closed with ⟨linked, hlinked, hlink⟩ | ⟨linked, failed, -, hlink⟩
      swap
      · rw [hlink] at hcured
        exact absurd (clean_bind.mp hcured).1 not_cured_failed
      rw [hlink]
      refine ⟨linked, rfl, ?_, ?_⟩
      · rw [hlinked, hclosed]
        exact .linked hnew (hallocated ▸ hino ▸ htouches) _ _
      · rw [hlinked, hclosed]
        change (view.fs copied).content new = node.data
        rw [← hino, hcontent, hino, hallocated]
        exact content_written _ new (size_le (tree.sized _ _ hnode (.inl hreg)))

end Regular

/-! ## A link and a special file -/

section Special

variable {lib : Library} {view : View lib} {tree : Tree}

/-- The target is written when it fits into the buffer, and nothing is returned
when it does not. -/
theorem copyTarget_cured (hdoc : Documented lib view) {cwd : Path} {new : Ino}
    {name : List Byte} {node : Node} (hnode : tree.node (cwd ++ [name]) = some node)
    (hlnk : node.isLnk = true) {image : lib.Image}
    (hcured : Cured (copyTarget lib tree cwd new name node.info image))
    (hfits : node.data.length ≤ linkBuffer ∨
      ∃ final, (copyTarget lib tree cwd new name node.info image).run = .ok final) :
    node.data.length ≤ linkBuffer ∧
      ∃ image', copyTarget lib tree cwd new name node.info image = pure image' ∧
        Touches new (view.fs image) (view.fs image') ∧
        (view.fs image').content new =
          node.data ++ ((view.fs image).content new).drop node.data.length := by
  have hsized := tree.sized _ _ hnode (.inr hlnk)
  have hlength : (node.data.take linkBuffer).length = min linkBuffer node.data.length :=
    List.length_take
  simp only [copyTarget, Tree.readlink_eq hnode hlnk] at hcured hfits ⊢
  cases hopen : lib.file_open image new with
  | error _ =>
      simp only [hopen] at hcured
      exact absurd hcured not_cured_failed
  | ok f =>
      simp only [hopen] at hcured hfits ⊢
      obtain ⟨rfl, hpos⟩ := hdoc.file_open hopen
      have hshort : node.data.length ≤ linkBuffer := by
        rcases hfits with hshort | ⟨final, hreturned⟩
        · exact hshort
        · obtain ⟨_, hrequire, -⟩ := run_bind_eq_ok.mp hreturned
          have hle := Run.require_eq_ok.mp hrequire
          omega
      refine ⟨hshort, ?_⟩
      have hroom : node.info.st_size ≤ (node.data.take linkBuffer).length := by omega
      have hwhole : (node.data.take linkBuffer).take node.info.st_size = node.data := by
        rw [List.take_of_length_le hshort, hsized, List.take_length]
      simp only [Run.require_pos hroom, quiet_ok, Logged.pure_bind, hwhole] at hcured ⊢
      unfold writeTarget at hcured ⊢
      cases hwrite : lib.file_write image f node.data with
      | error _ =>
          simp only [hwrite] at hcured
          exact absurd (clean_bind.mp hcured).1 not_cured_failed
      | ok written =>
          obtain ⟨out, image', f'⟩ := written
          obtain ⟨-, -, -, hfs⟩ := hdoc.file_write hwrite
          simp only [hwrite, Logged.pure_bind] at hcured ⊢
          unfold closeTarget at hcured ⊢
          cases hclose : lib.file_close image' f' with
          | error _ =>
              simp only [hclose] at hcured
              exact absurd hcured not_cured_failed
          | ok closed =>
              have hclosed := (hdoc.file_close hclose).trans hfs
              refine ⟨closed, rfl, hclosed ▸ .write _ _ _ _, ?_⟩
              have hcontent : (view.fs closed).content (view.ino f) =
                  Filesystem.overwrite ((view.fs image).content (view.ino f)) (view.pos f)
                    node.data := by
                rw [hclosed]
                exact update_self _ _ _
              rw [hcontent, hpos, Filesystem.overwrite, List.take_zero, List.nil_append,
                Nat.zero_add]

/-- An entry that is neither a directory nor a regular file has a type of its
own. -/
theorem specialType_eq_some {path : Path} {node : Node} (hnode : tree.node path = some node)
    (hdir : node.isDir = false) (hreg : node.isReg = false) :
    ∃ type, specialType node.info.st_mode = some type ∧
      (type = .EXT2_FT_SYMLINK ↔ node.isLnk = true) := by
  have htyped := tree.typed _ _ hnode
  simp only [Node.isDir, Node.isReg, decide_eq_false_iff_not] at hdir hreg
  simp only [allTypes, List.mem_cons, List.not_mem_nil, or_false, hdir, hreg, false_or] at htyped
  simp only [Node.isLnk, decide_eq_true_eq, specialType]
  rcases htyped with htype | htype | htype | htype | htype <;> rw [htype] <;>
    exact ⟨_, rfl, by decide⟩

theorem copySymlink_cured (hdoc : Documented lib view) {cwd : Path} {new : Ino}
    {name : List Byte} {node : Node} (hnode : tree.node (cwd ++ [name]) = some node)
    {type : FileType} (hlnk : type = .EXT2_FT_SYMLINK ↔ node.isLnk = true) {image : lib.Image}
    (hcured : Cured (copySymlink lib tree type cwd new name node.info image))
    (hfits : (node.isLnk = true → node.data.length ≤ linkBuffer) ∨
      ∃ final, (copySymlink lib tree type cwd new name node.info image).run = .ok final) :
    ∃ image', copySymlink lib tree type cwd new name node.info image = pure image' ∧
      Touches new (view.fs image) (view.fs image') ∧
      (node.isLnk = true → (view.fs image').content new =
        node.data ++ ((view.fs image).content new).drop node.data.length ∧
          node.data.length ≤ linkBuffer) := by
  unfold copySymlink at hcured hfits ⊢
  by_cases hsymlink : type = .EXT2_FT_SYMLINK
  · have hislnk := hlnk.mp hsymlink
    simp only [hsymlink, if_true] at hcured hfits ⊢
    obtain ⟨hshort, image', hrun, htouches, hcontent⟩ :=
      copyTarget_cured hdoc hnode hislnk hcured (hfits.imp_left fun hshort => hshort hislnk)
    exact ⟨image', hrun, htouches, fun _ => ⟨hcontent, hshort⟩⟩
  · rw [if_neg hsymlink]
    exact ⟨image, rfl, .refl _ _, fun hislnk => absurd (hlnk.mpr hislnk) hsymlink⟩

theorem copySpecial_cured (hdoc : Documented lib view) {parent new : Ino} {name : List Byte}
    {state : State lib} {node : Node} (hnode : tree.node (state.cwd ++ [name]) = some node)
    (hdir : node.isDir = false) (hreg : node.isReg = false)
    (hnew : new ∉ (view.fs state.image).used)
    (hcured : Cured (copySpecial lib tree parent new name node.info state))
    (hfits : (node.isLnk = true → node.data.length ≤ linkBuffer) ∨
      ∃ final, (copySpecial lib tree parent new name node.info state).run = .ok final) :
    ∃ image type, specialType node.info.st_mode = some type ∧
      copySpecial lib tree parent new name node.info state =
        ⟨[.created (state.cwd ++ [name]) new], .ok ⟨state.cwd, image⟩⟩ ∧
      Added parent ⟨name, new, type⟩ (specialInode node.info).toAttributes
        (view.fs state.image) (view.fs image) ∧
      (node.isLnk = true →
        (view.fs image).content new = node.data ∧ node.data.length ≤ linkBuffer) := by
  obtain ⟨type, htype, hlnk⟩ := specialType_eq_some hnode hdir hreg
  simp only [copySpecial, htype] at hcured hfits ⊢
  rcases writeNewInode_cases hdoc (state.cwd ++ [name]) .deviceInode state.image new
      (specialInode node.info) with ⟨written, hwritten, hwrite⟩ | hwrite
  swap
  · rw [hwrite] at hcured
    exact absurd (clean_bind.mp hcured).1 not_cured_failed
  rw [hwrite, Logged.pure_bind] at hcured hfits ⊢
  have hallocated := @Documented.inode_alloc_stats2 _ _ hdoc written new 1
  generalize lib.inode_alloc_stats2 written new 1 1 = allocated at hcured hfits hallocated ⊢
  rw [hwritten] at hallocated
  have hreturns : (node.isLnk = true → node.data.length ≤ linkBuffer) ∨
      ∃ final, (copySymlink lib tree type state.cwd new name node.info allocated).run =
        .ok final := by
    rcases hfits with hshort | ⟨final, hreturned⟩
    · exact .inl hshort
    · obtain ⟨filled, hfilled, -⟩ := run_bind_eq_ok.mp hreturned
      exact .inr ⟨filled, hfilled⟩
  obtain ⟨filled, hrun, htouches, hcontent⟩ :=
    copySymlink_cured hdoc hnode hlnk (clean_bind.mp hcured).1 hreturns
  rw [hrun, Logged.pure_bind] at hcured ⊢
  rcases linkEntry_cases hdoc parent (state.cwd ++ [name]) name new type filled with
    ⟨linked, hlinked, hlink⟩ | ⟨linked, failed, -, hlink⟩
  swap
  · rw [hlink] at hcured
    exact absurd (clean_bind.mp hcured).1 not_cured_failed
  rw [hlink]
  refine ⟨linked, type, rfl, rfl, ?_, fun hislnk => ?_⟩
  · rw [hlinked]
    exact .linked hnew (hallocated ▸ htouches) _ _
  · obtain ⟨hfilled, hshort⟩ := hcontent hislnk
    refine ⟨?_, hshort⟩
    rw [hlinked]
    change (view.fs filled).content new = node.data
    rw [hfilled, hallocated]
    exact content_written _ new (size_le (tree.sized _ _ hnode (.inr hislnk)))

end Special

/-! ## Copies side by side and below each other -/

section Compose

variable {tree : Tree} {dir : Path} {names more : List (List Byte)} {parent : Ino}
  {before between after : Filesystem} {place other : Path → Ino}

theorem below_append {path : Path} :
    Below tree dir (names ++ more) path ↔
      Below tree dir names path ∨ Below tree dir more path := by
  simp only [Below, List.mem_append, or_and_right, exists_or]

theorem linksFit_append :
    LinksFit tree dir (names ++ more) ↔ LinksFit tree dir names ∧ LinksFit tree dir more := by
  simp only [LinksFit, below_append]
  constructor
  · exact fun hfit => ⟨fun path node hbelow => hfit path node (.inl hbelow),
      fun path node hbelow => hfit path node (.inr hbelow)⟩
  · rintro ⟨hnames, hmore⟩ path node (hbelow | hbelow)
    · exact hnames path node hbelow
    · exact hmore path node hbelow

/-- A path below one name is not below another. -/
theorem name_unique {path : Path} {left right : List Byte} (hleft : dir ++ [left] <+: path)
    (hright : dir ++ [right] <+: path) : left = right := by
  have hsame : dir ++ [left] = dir ++ [right] :=
    List.IsPrefix.eq_of_length (List.prefix_of_prefix_length_le hleft hright (by simp)) (by simp)
  simpa using hsame

/-- What is stored stays so while other inodes are filled, and does not depend
on where other paths have their inodes. -/
theorem Stored.grows {path : Path} {node : Node} (hstored : Stored tree between place path node)
    (hgrows : Grows parent between after) (hused : place path ∈ between.used)
    (hparent : place path ≠ parent) (hself : other path = place path)
    (hbelow : ∀ name ∈ node.entries, other (path ++ [name]) = place (path ++ [name])) :
    Stored tree after other path node where
  type := by rw [hself, hgrows.attributes _ hused, hstored.type]
  entries hdir := by
    rw [hself, hgrows.entries _ hused hparent, hstored.entries hdir]
    congr 1
    apply List.map_congr_left
    intro name hname
    rw [entryAt, entryAt, hbelow name hname]
  content hfile := by rw [hself, hgrows.content _ hused, hstored.content hfile]

theorem Copied.append (hfirst : Copied tree dir names parent before between place)
    (hsecond : Copied tree dir more parent between after other)
    (hgrowsFirst : Grows parent before between) (hgrowsSecond : Grows parent between after)
    (hparent : parent ∈ before.used) (hdisjoint : ∀ name ∈ names, name ∉ more) :
    ∃ merged, Copied tree dir (names ++ more) parent before after merged := by
  let merged : Path → Ino := fun path =>
    if ∃ name ∈ names, dir ++ [name] <+: path then place path else other path
  have hplace : ∀ path, (∃ name ∈ names, dir ++ [name] <+: path) → merged path = place path :=
    fun path hnames => if_pos hnames
  have hother : ∀ path, (∃ name ∈ more, dir ++ [name] <+: path) → merged path = other path := by
    rintro path ⟨name, hname, hfront⟩
    refine if_neg ?_
    rintro ⟨name', hname', hfront'⟩
    exact hdisjoint name' hname' (name_unique hfront' hfront ▸ hname)
  refine ⟨merged, ?_, ?_, ?_, ?_⟩
  · have hnames : names.map (entryAt tree merged dir) = names.map (entryAt tree place dir) := by
      apply List.map_congr_left
      intro name hname
      rw [entryAt, entryAt, hplace _ ⟨name, hname, List.prefix_rfl⟩]
    have hmore : more.map (entryAt tree merged dir) = more.map (entryAt tree other dir) := by
      apply List.map_congr_left
      intro name hname
      rw [entryAt, entryAt, hother _ ⟨name, hname, List.prefix_rfl⟩]
    rw [hsecond.entries, hfirst.entries, List.map_append, hnames, hmore, ← Multiset.coe_add,
      ← add_assoc]
    congr 1
    exact add_comm _ _
  · intro path hbelow
    rcases below_append.mp hbelow with hnames | hmore
    · rw [hplace path hnames.1]
      exact ⟨(hfirst.fresh path hnames).1, hgrowsSecond.used (hfirst.fresh path hnames).2⟩
    · rw [hother path hmore.1]
      exact ⟨fun hused => (hsecond.fresh path hmore).1 (hgrowsFirst.used hused),
        (hsecond.fresh path hmore).2⟩
  · intro left right hleft hright hsame
    rcases below_append.mp hleft with hleft | hleft <;>
      rcases below_append.mp hright with hright | hright
    · rw [hplace left hleft.1, hplace right hright.1] at hsame
      exact hfirst.once left right hleft hright hsame
    · rw [hplace left hleft.1, hother right hright.1] at hsame
      exact absurd (hsame ▸ (hfirst.fresh left hleft).2) (hsecond.fresh right hright).1
    · rw [hother left hleft.1, hplace right hright.1] at hsame
      exact absurd (hsame ▸ (hfirst.fresh right hright).2) (hsecond.fresh left hleft).1
    · rw [hother left hleft.1, hother right hright.1] at hsame
      exact hsecond.once left right hleft hright hsame
  · intro path node hbelow hnode
    rcases below_append.mp hbelow with hnames | hmore
    · obtain ⟨hfresh, hused⟩ := hfirst.fresh path hnames
      refine (hfirst.stored path node hnames hnode).grows hgrowsSecond hused
        (fun heq => hfresh (heq ▸ hparent)) (hplace path hnames.1) ?_
      intro name _
      obtain ⟨first, hfirst, hfront⟩ := hnames.1
      exact hplace _ ⟨first, hfirst, hfront.trans (List.prefix_append _ _)⟩
    · obtain ⟨hfresh, hused⟩ := hsecond.fresh path hmore
      refine (hsecond.stored path node hmore hnode).grows (.refl parent after) hused
        (fun heq => hfresh (heq ▸ hgrowsFirst.used hparent)) (hother path hmore.1) ?_
      intro name _
      obtain ⟨first, hfirst, hfront⟩ := hmore.1
      exact hother _ ⟨first, hfirst, hfront.trans (List.prefix_append _ _)⟩

/-- What is below one name of a directory. -/
theorem below_singleton {name : List Byte} {node : Node}
    (hnode : tree.node (dir ++ [name]) = some node) {path : Path} :
    Below tree dir [name] path ↔
      path = dir ++ [name] ∨ node.isDir = true ∧ Below tree (dir ++ [name]) node.entries path := by
  constructor
  · rintro ⟨⟨name', hname, hfront⟩, hsome⟩
    obtain rfl := List.mem_singleton.mp hname
    rcases Tree.below_cases hnode hfront hsome with heq | ⟨hdir, hbelow⟩
    · exact .inl heq
    · exact .inr ⟨hdir, hbelow, hsome⟩
  · rintro (rfl | ⟨-, ⟨child, -, hfront⟩, hsome⟩)
    · exact ⟨⟨name, List.mem_singleton_self _, List.prefix_rfl⟩, by rw [hnode]; rfl⟩
    · exact ⟨⟨name, List.mem_singleton_self _, (List.prefix_append _ _).trans hfront⟩, hsome⟩

/-- An entry with nothing below it is copied when it is added with its type and
its content. -/
theorem Copied.leaf {name : List Byte} {node : Node} {ino : Ino} {attributes : Attributes}
    (hadded : Added parent ⟨name, ino, entryType node⟩ attributes before after)
    (hnode : tree.node (dir ++ [name]) = some node) (hleaf : node.isDir = false)
    (htype : attributes.i_mode.setWidth 32 &&& S_IFMT = node.info.st_mode &&& S_IFMT)
    (hcontent : node.isReg = true ∨ node.isLnk = true → after.content ino = node.data) :
    Copied tree dir [name] parent before after fun _ => ino := by
  have honly : ∀ path, Below tree dir [name] path → path = dir ++ [name] := by
    intro path hbelow
    rcases (below_singleton hnode).mp hbelow with heq | ⟨hdir, -⟩
    · exact heq
    · exact absurd hdir (by rw [hleaf]; exact Bool.false_ne_true)
  refine ⟨?_, fun _ _ => ⟨hadded.new, hadded.used⟩, ?_, ?_⟩
  · rw [hadded.entries, List.map_singleton, entryAt, hnode, Multiset.coe_singleton,
      Multiset.singleton_add]
    rfl
  · exact fun left right hleft hright _ => (honly left hleft).trans (honly right hright).symm
  · intro path other hbelow hother
    rw [honly path hbelow, hnode, Option.some.injEq] at hother
    subst hother
    refine ⟨?_, fun hdir => absurd hdir (by rw [hleaf]; exact Bool.false_ne_true), hcontent⟩
    rw [hadded.attributes]
    exact htype

/-- A directory is copied when it is added empty and its entries are copied
into it. -/
theorem Copied.directory {name : List Byte} {node : Node} {new : Ino} {attributes : Attributes}
    (hadded : Added parent ⟨name, new, .EXT2_FT_DIR⟩ attributes before between)
    (hempty : between.entries new = 0) (hparent : parent ∈ before.used)
    (hnode : tree.node (dir ++ [name]) = some node) (hdir : node.isDir = true)
    (htype : attributes.i_mode.setWidth 32 &&& S_IFMT = S_IFDIR)
    (hgrows : Grows new between after)
    (hbelow : Copied tree (dir ++ [name]) node.entries new between after place) :
    ∃ merged, Copied tree dir [name] parent before after merged := by
  let merged : Path → Ino := fun path => if path = dir ++ [name] then new else place path
  have hself : merged (dir ++ [name]) = new := if_pos rfl
  have hplace : ∀ path, Below tree (dir ++ [name]) node.entries path →
      path ≠ dir ++ [name] := by
    rintro path ⟨⟨child, -, hfront⟩, -⟩ rfl
    have hlength := hfront.length_le
    rw [List.length_append, List.length_append, List.length_singleton] at hlength
    simp at hlength
  have hchild : ∀ path child, dir ++ [name] <+: path →
      merged (path ++ [child]) = place (path ++ [child]) := by
    intro path child hfront
    apply if_neg
    intro heq
    have hlength := hfront.length_le
    rw [← heq, List.length_append, List.length_singleton] at hlength
    omega
  have hnewParent : new ≠ parent := fun heq => hadded.new (heq ▸ hparent)
  have hnew : new ∈ between.used := hadded.used
  refine ⟨merged, ?_, ?_, ?_, ?_⟩
  · rw [hgrows.entries parent (hadded.grows.used hparent) hnewParent.symm, hadded.entries,
      List.map_singleton, entryAt, hnode, hself, Multiset.coe_singleton, Multiset.singleton_add]
    simp [entryType, hdir]
  · intro path hpath
    rcases (below_singleton hnode).mp hpath with rfl | ⟨-, hpath⟩
    · rw [hself]
      exact ⟨hadded.new, hgrows.used hnew⟩
    · rw [show merged path = place path from if_neg (hplace path hpath)]
      exact ⟨fun hused => (hbelow.fresh path hpath).1 (hadded.grows.used hused),
        (hbelow.fresh path hpath).2⟩
  · intro left right hleft hright hsame
    rcases (below_singleton hnode).mp hleft with rfl | ⟨-, hleft⟩ <;>
      rcases (below_singleton hnode).mp hright with rfl | ⟨-, hright⟩
    · rfl
    · rw [hself, show merged right = place right from if_neg (hplace right hright)] at hsame
      exact absurd (hsame ▸ hnew) (hbelow.fresh right hright).1
    · rw [hself, show merged left = place left from if_neg (hplace left hleft)] at hsame
      exact absurd (hsame ▸ hnew) (hbelow.fresh left hleft).1
    · rw [show merged left = place left from if_neg (hplace left hleft),
        show merged right = place right from if_neg (hplace right hright)] at hsame
      exact hbelow.once left right hleft hright hsame
  · intro path other hpath hother
    rcases (below_singleton hnode).mp hpath with rfl | ⟨-, hpath⟩
    · rw [hnode, Option.some.injEq] at hother
      subst hother
      refine ⟨?_, fun _ => ?_, ?_⟩
      · rw [hself, hgrows.attributes new hnew, hadded.attributes, htype]
        rw [Node.isDir, decide_eq_true_eq] at hdir
        exact hdir.symm
      · rw [hself, hbelow.entries, hempty, add_zero]
        congr 1
        apply List.map_congr_left
        intro child _
        rw [entryAt, entryAt, hchild _ child List.prefix_rfl]
      · intro hdata
        exact absurd hdir (by rw [Node.not_isDir_of_data hdata]; exact Bool.false_ne_true)
    · obtain ⟨hfresh, hused⟩ := hbelow.fresh path hpath
      obtain ⟨⟨child, hmem, hfront⟩, hsome⟩ := hpath
      refine (hbelow.stored path other ⟨⟨child, hmem, hfront⟩, hsome⟩ hother).grows
        (.refl new after) hused (fun heq => hfresh (heq ▸ hnew)) (if_neg (hplace path
          ⟨⟨child, hmem, hfront⟩, hsome⟩)) fun name' _ => hchild path name'
            ((List.prefix_append _ _).trans hfront)

end Compose

/-! ## The run -/

section Run

variable {lib : Library} {view : View lib} {tree : Tree}

/-- What a run has made of the names of the current directory. -/
structure DirectoryCopied (view : View lib) (tree : Tree) (names : List (List Byte))
    (parent : Ino) (state final : State lib) : Prop where
  cwd : final.cwd = state.cwd
  grows : Grows parent (view.fs state.image) (view.fs final.image)
  copied : ∃ place,
    Copied tree state.cwd names parent (view.fs state.image) (view.fs final.image) place
  fit : LinksFit tree state.cwd names

theorem DirectoryCopied.nil (parent : Ino) (state : State lib) :
    DirectoryCopied view tree [] parent state state where
  cwd := rfl
  grows := .refl _ _
  copied := ⟨fun _ => 0, by simp, by simp [Below], by simp [Below], by simp [Below]⟩
  fit := by simp [LinksFit, Below]

theorem DirectoryCopied.append {names more : List (List Byte)} {parent : Ino}
    {state middle final : State lib}
    (hfirst : DirectoryCopied view tree names parent state middle)
    (hsecond : DirectoryCopied view tree more parent middle final)
    (hparent : parent ∈ (view.fs state.image).used)
    (hdisjoint : ∀ name ∈ names, name ∉ more) :
    DirectoryCopied view tree (names ++ more) parent state final where
  cwd := hsecond.cwd.trans hfirst.cwd
  grows := hfirst.grows.trans hsecond.grows
  copied := by
    obtain ⟨place, hplace⟩ := hfirst.copied
    obtain ⟨other, hother⟩ := hsecond.copied
    rw [hfirst.cwd] at hother
    exact hplace.append hother hfirst.grows hsecond.grows hparent hdisjoint
  fit := linksFit_append.mpr ⟨hfirst.fit, hfirst.cwd ▸ hsecond.fit⟩

/-- A way to copy directories: a run whose failures were cured returns with the
copy when it returns at all, and it does so when the links fit. -/
def Copies (view : View lib) (tree : Tree) (enough : Path → Prop)
    (trawl : Ino → State lib → Trawl (State lib)) : Prop :=
  ∀ parent state here, tree.node state.cwd = some here → here.isDir = true →
    parent ∈ (view.fs state.image).used → Cured (trawl parent state) →
      (enough state.cwd ∧ LinksFit tree state.cwd here.entries ∨
        ∃ final, (trawl parent state).run = .ok final) →
      ∃ final, (trawl parent state).run = .ok final ∧
        DirectoryCopied view tree here.entries parent state final

variable {enough : Path → Prop} {trawl : Ino → State lib → Trawl (State lib)}

theorem linksFit_below {dir : Path} {name : List Byte} {node : Node}
    (hnode : tree.node (dir ++ [name]) = some node) (hdir : node.isDir = true) :
    LinksFit tree dir [name] ↔ LinksFit tree (dir ++ [name]) node.entries := by
  constructor
  · intro hfit path other hbelow
    exact hfit path other ((below_singleton hnode).mpr (.inr ⟨hdir, hbelow⟩))
  · intro hfit path other hbelow hother hlnk
    rcases (below_singleton hnode).mp hbelow with rfl | ⟨-, hbelow⟩
    · rw [hnode, Option.some.injEq] at hother
      rw [← hother] at hlnk
      exact absurd hdir (by rw [Node.not_isDir_of_data (.inr hlnk)]; exact Bool.false_ne_true)
    · exact hfit path other hbelow hother hlnk

theorem linksFit_leaf {dir : Path} {name : List Byte} {node : Node}
    (hnode : tree.node (dir ++ [name]) = some node) (hleaf : node.isDir = false) :
    LinksFit tree dir [name] ↔ (node.isLnk = true → node.data.length ≤ linkBuffer) := by
  constructor
  · intro hfit
    exact hfit _ node ((below_singleton hnode).mpr (.inl rfl)) hnode
  · intro hfit path other hbelow hother
    rcases (below_singleton hnode).mp hbelow with rfl | ⟨hdir, -⟩
    · rw [hnode, Option.some.injEq] at hother
      exact hother ▸ hfit
    · exact absurd hdir (by rw [hleaf]; exact Bool.false_ne_true)

theorem copyDirectory_cured (hdoc : Documented lib view)
    (htrawl : Copies view tree enough trawl) {parent new : Ino} {name : List Byte}
    {state : State lib} {node : Node} (hnode : tree.node (state.cwd ++ [name]) = some node)
    (hdir : node.isDir = true) (hname : name ≠ dotDot)
    (hparent : parent ∈ (view.fs state.image).used) (hnew : new ∉ (view.fs state.image).used)
    (hcured : Cured (copyDirectory lib tree trawl parent new name state))
    (hfits : enough (state.cwd ++ [name]) ∧ LinksFit tree state.cwd [name] ∨
      ∃ final, (copyDirectory lib tree trawl parent new name state).run = .ok final) :
    ∃ final, (copyDirectory lib tree trawl parent new name state).run = .ok final ∧
      DirectoryCopied view tree [name] parent state final := by
  simp only [copyDirectory] at hcured hfits ⊢
  rcases retry_cases hdoc (fun image => lib.mkdir image parent new name) parent
      (state.cwd ++ [name]) .createDir state.image with
    ⟨expanded, made, hexpanded, hmkdir, hretry⟩ | ⟨image, failed, -, hretry⟩
  swap
  · rw [hretry] at hcured
    exact absurd (clean_bind.mp hcured).1 not_cured_failed
  have hchdir := Tree.chdir_eq hnode hdir hname
  have hmade : view.fs made =
      (view.fs state.image).mkdir view.defaults parent new name := by
    rw [← hexpanded]
    exact hdoc.mkdir (hexpanded ▸ hparent) (hexpanded ▸ hnew) hmkdir
  have hadded := Added.made hnew hmade
  have hempty : (view.fs made).entries new = 0 := by
    rw [hmade]
    exact (update_of_ne (ne_of_mem_of_not_mem hparent hnew).symm _ _).trans (update_self _ _ _)
  simp only [hretry, Logged.pure_bind, if_true, hchdir] at hcured hfits ⊢
  have hcuredBelow := (clean_bind.mp ((clean_bind.mp hcured).2 () rfl)).1
  have hfitsBelow : enough (state.cwd ++ [name]) ∧
        LinksFit tree (state.cwd ++ [name]) node.entries ∨
      ∃ final, (trawl new ⟨state.cwd ++ [name], made⟩).run = .ok final := by
    rcases hfits with ⟨henough, hfit⟩ | ⟨final, hreturned⟩
    · exact .inl ⟨henough, (linksFit_below hnode hdir).mp hfit⟩
    · obtain ⟨_, -, hrest⟩ := run_bind_eq_ok.mp hreturned
      obtain ⟨below, hbelow, -⟩ := run_bind_eq_ok.mp hrest
      exact .inr ⟨below, hbelow⟩
  obtain ⟨below, hrun, hcopied⟩ :=
    htrawl new ⟨state.cwd ++ [name], made⟩ node hnode hdir hadded.used hcuredBelow hfitsBelow
  have hback : (tree.chdir below.cwd dotDot).getD below.cwd = state.cwd := by
    rw [hcopied.cwd, Tree.chdir_dotDot, Option.getD_some]
  refine ⟨⟨state.cwd, below.image⟩, ?_, ?_⟩
  · refine run_bind_eq_ok.mpr ⟨(), rfl, run_bind_eq_ok.mpr ⟨below, hrun, ?_⟩⟩
    rw [hback, run_pure]
  · obtain ⟨place, hplace⟩ := hcopied.copied
    refine ⟨rfl, ?_, ?_, (linksFit_below hnode hdir).mpr hcopied.fit⟩
    · exact hadded.grows.of_new hnew hcopied.grows
    · exact Copied.directory hadded hempty hparent hnode hdir hdoc.defaults hcopied.grows hplace

theorem copyEntry_cured (hdoc : Documented lib view) (hsize : 0 < lib.blocksize)
    (hbuffer : lib.blocksize ≤ fileBuffer) (htrawl : Copies view tree enough trawl)
    {parent : Ino} {name : List Byte} {state : State lib} {node : Node}
    (hnode : tree.node (state.cwd ++ [name]) = some node)
    (hname : name ≠ dot ∧ name ≠ dotDot) (hparent : parent ∈ (view.fs state.image).used)
    (hcured : Cured (copyEntry lib tree trawl parent state name))
    (hfits : enough (state.cwd ++ [name]) ∧ LinksFit tree state.cwd [name] ∨
      ∃ final, (copyEntry lib tree trawl parent state name).run = .ok final) :
    ∃ final, (copyEntry lib tree trawl parent state name).run = .ok final ∧
      DirectoryCopied view tree [name] parent state final := by
  simp only [copyEntry, hname.1, hname.2, or_self, if_false, Tree.lstat_eq hnode]
    at hcured hfits ⊢
  cases hino : lib.new_inode state.image parent node.info.st_mode with
  | error _ =>
      simp only [hino] at hcured
      exact absurd hcured not_cured_failed
  | ok new =>
      have hnew := hdoc.new_inode hino
      simp only [hino] at hcured hfits ⊢
      by_cases hdir : node.info.st_mode &&& S_IFMT = S_IFDIR
      · rw [if_pos hdir] at hcured hfits ⊢
        exact copyDirectory_cured hdoc htrawl hnode (decide_eq_true hdir) hname.2 hparent hnew
          hcured hfits
      have hleaf : node.isDir = false := decide_eq_false hdir
      rw [if_neg hdir] at hcured hfits ⊢
      by_cases hreg : node.info.st_mode &&& S_IFMT = S_IFREG
      · have hisreg : node.isReg = true := decide_eq_true hreg
        have hislnk : node.isLnk = false := by
          rw [Node.isLnk, hreg]
          rfl
        rw [if_pos hreg] at hcured hfits ⊢
        obtain ⟨image, hrun, hadded, hcontent⟩ :=
          copyRegular_cured hdoc hsize hnode hisreg hnew hcured (.inl hbuffer)
        have htype : entryType node = .EXT2_FT_REG_FILE := by
          rw [entryType, hleaf, hisreg]
          rfl
        have hmode : (regularInode node.info).i_mode.setWidth 32 &&& S_IFMT =
            node.info.st_mode &&& S_IFMT := by
          rw [hreg]
          exact (regularMode_and (by decide) _).trans (by simp [S_IFREG, S_IFMT])
        refine ⟨⟨state.cwd, image⟩, by rw [hrun], rfl, hadded.grows, ?_, ?_⟩
        · exact ⟨_, .leaf (htype ▸ hadded) hnode hleaf hmode fun _ => hcontent⟩
        · exact (linksFit_leaf hnode hleaf).mpr fun hlnk => by simp [hislnk] at hlnk
      · have hisreg : node.isReg = false := decide_eq_false hreg
        rw [if_neg hreg] at hcured hfits ⊢
        obtain ⟨image, type, htype, hrun, hadded, hcontent⟩ :=
          copySpecial_cured hdoc hnode hleaf hisreg hnew hcured
            (hfits.imp_left fun hfit => (linksFit_leaf hnode hleaf).mp hfit.2)
        have hentry : entryType node = type := by
          rw [entryType, hleaf, hisreg, htype]
          rfl
        refine ⟨⟨state.cwd, image⟩, by rw [hrun], rfl, hadded.grows, ?_, ?_⟩
        · refine ⟨_, .leaf (hentry ▸ hadded) hnode hleaf (setWidth_and (by decide) _) ?_⟩
          intro hdata
          exact (hcontent (hdata.resolve_left (by simp [hisreg]))).1
        · exact (linksFit_leaf hnode hleaf).mpr fun hlnk => (hcontent hlnk).2

/-- The names that were not skipped. -/
def ordinary (names : List (List Byte)) : List (List Byte) :=
  names.filter fun name => name ≠ dot ∧ name ≠ dotDot

/-- One round of the loop over the names that `readdir` gives. -/
theorem DirectoryCopied.entry (hdoc : Documented lib view) (hsize : 0 < lib.blocksize)
    (hbuffer : lib.blocksize ≤ fileBuffer) (htrawl : Copies view tree enough trawl)
    {parent : Ino} {start state : State lib} {here : Node}
    (hhere : tree.node start.cwd = some here) (hdir : here.isDir = true)
    (hparent : parent ∈ (view.fs start.image).used) {front after : List (List Byte)}
    {name : List Byte} (hlisting : here.listing = front ++ name :: after)
    (hstate : DirectoryCopied view tree (ordinary front) parent start state)
    (hcured : Cured (copyEntry lib tree trawl parent state name))
    (hfits : (∀ name, enough (start.cwd ++ [name])) ∧ LinksFit tree start.cwd here.entries ∨
      ∃ final, (copyEntry lib tree trawl parent state name).run = .ok final) :
    ∃ next, (copyEntry lib tree trawl parent state name).run = .ok next ∧
      DirectoryCopied view tree (ordinary (front ++ [name])) parent start next := by
  by_cases hskip : name = dot ∨ name = dotDot
  · have hsame : ordinary (front ++ [name]) = ordinary front := by
      rw [ordinary, List.filter_append]
      rcases hskip with rfl | rfl <;> simp [ordinary, dot, dotDot]
    refine ⟨state, ?_, hsame ▸ hstate⟩
    rw [copyEntry, if_pos hskip, run_pure]
  · rw [not_or] at hskip
    obtain ⟨hnodup, hthere⟩ := tree.listed _ _ hhere hdir
    have hmem : name ∈ here.entries :=
      Node.mem_entries.mpr ⟨by simp [hlisting], hskip⟩
    obtain ⟨node, hnode⟩ := Option.isSome_iff_exists.mp (hthere name hmem)
    rw [← hstate.cwd] at hnode
    have hone : ordinary (front ++ [name]) = ordinary front ++ [name] := by
      rw [ordinary, List.filter_append, List.filter_singleton, ← ordinary]
      simp [hskip]
    have hfitsName : enough (state.cwd ++ [name]) ∧ LinksFit tree state.cwd [name] ∨
        ∃ final, (copyEntry lib tree trawl parent state name).run = .ok final := by
      refine hfits.imp_left fun hfit => ⟨hstate.cwd ▸ hfit.1 name, ?_⟩
      rintro path other ⟨⟨name', hname', hfront⟩, hsome⟩
      rw [List.mem_singleton.mp hname', hstate.cwd] at hfront
      exact hfit.2 path other ⟨⟨name, hmem, hfront⟩, hsome⟩
    obtain ⟨next, hrun, hnext⟩ := copyEntry_cured hdoc hsize hbuffer htrawl hnode hskip
      (hstate.grows.used hparent) hcured hfitsName
    refine ⟨next, hrun, ?_⟩
    rw [hone]
    refine hstate.append hnext hparent ?_
    intro other hother hsame
    rw [List.mem_singleton.mp hsame] at hother
    rw [hlisting] at hnodup
    exact (List.nodup_append.mp hnodup).2.2 name (List.mem_filter.mp hother).1 name
      List.mem_cons_self rfl

/-- The directories that the fuel is enough for. -/
theorem copies_trawlDir (hdoc : Documented lib view) (hsize : 0 < lib.blocksize)
    (hbuffer : lib.blocksize ≤ fileBuffer) (fuel : ℕ) :
    Copies view tree (fun cwd => tree.depth < fuel + cwd.length) (trawlDir lib tree fuel) := by
  induction fuel with
  | zero =>
      intro parent state here hhere _ _ _ hfits
      rcases hfits with ⟨henough, -⟩ | ⟨final, hreturned⟩
      · have hshallow := tree.shallow _ _ hhere
        omega
      · exact absurd hreturned (Run.outOfFuel_ne_ok _)
  | succ fuel ih =>
      intro parent state here hhere hdir hparent hcured hfits
      have hentry := @DirectoryCopied.entry lib view tree _ _ hdoc hsize hbuffer ih parent state
      simp only [trawlDir, Tree.opendir_eq hhere hdir] at hcured hfits ⊢
      have hreturns : ∃ final,
          (here.listing.foldlM (copyEntry lib tree (trawlDir lib tree fuel) parent) state).run =
            .ok final := by
        rcases hfits with ⟨henough, hfit⟩ | hreturned
        · refine foldlM_returns
            (fun front state' => DirectoryCopied view tree (ordinary front) parent state state')
            hcured (.nil parent state) ?_
          intro front name after state' hlisting hstate hclean
          refine hentry hhere hdir hparent hlisting hstate hclean (.inl ⟨fun name => ?_, hfit⟩)
          rw [List.length_append, List.length_singleton]
          omega
        · exact hreturned
      obtain ⟨final, hrun⟩ := hreturns
      refine ⟨final, hrun, ?_⟩
      refine foldlM_invariant
        (fun front state' => DirectoryCopied view tree (ordinary front) parent state state')
        hrun hcured (.nil parent state) ?_
      intro front name after state' next hlisting hstate hstep hclean
      obtain ⟨next', hnext, hcopied⟩ :=
        hentry hhere hdir hparent hlisting hstate hclean (.inr ⟨next, hstep⟩)
      rw [hstep, Except.ok.injEq] at hnext
      exact hnext ▸ hcopied

/-- `trawl_dir` on a directory of a tree, in a run in which full directories
are the only failures and one expansion cures each: it returns to the directory
with a copy of it in the image exactly when no link is longer than the
buffer. -/
theorem trawlDir_copies_iff (hdoc : Documented lib view) (hsize : 0 < lib.blocksize)
    (hbuffer : lib.blocksize ≤ fileBuffer) {parent : Ino} {state : State lib} {here : Node}
    (hhere : tree.node state.cwd = some here) (hdir : here.isDir = true)
    (hparent : parent ∈ (view.fs state.image).used) {fuel : ℕ}
    (hfuel : tree.depth < fuel + state.cwd.length)
    (hcured : Cured (trawlDir lib tree fuel parent state)) :
    (∃ final, (trawlDir lib tree fuel parent state).run = .ok final ∧
        final.cwd = state.cwd ∧
        ∃ place, Copied tree state.cwd here.entries parent (view.fs state.image)
          (view.fs final.image) place) ↔
      LinksFit tree state.cwd here.entries := by
  have hcopies := copies_trawlDir hdoc hsize hbuffer fuel parent state here hhere hdir hparent
    hcured
  constructor
  · rintro ⟨final, hrun, -⟩
    obtain ⟨_, -, hcopied⟩ := hcopies (.inr ⟨final, hrun⟩)
    exact hcopied.fit
  · intro hfit
    obtain ⟨final, hrun, hcopied⟩ := hcopies (.inl ⟨hfuel, hfit⟩)
    exact ⟨final, hrun, hcopied.cwd, hcopied.copied⟩

end Run

/-! ## Two trees -/

instance : DecidablePred Event.IsFailure
  | .failed _ _ => isTrue trivial
  | .created _ _ => isFalse not_false

instance {α : Type} (run : Trawl α) : Decidable (Cured run) :=
  inferInstanceAs (Decidable (∀ event ∈ run.log, ¬ event.IsFailure))

/-- The entry of a user, changed in the fifth second. -/
def userStat (mode : Mode) (size : ℕ) : Stat := ⟨mode, 1000, 1000, 0, size, 5, 5, 5⟩

def directoryOf (names : List (List Byte)) : Node :=
  ⟨userStat 0o040755 0, dot :: dotDot :: names, []⟩

/-- A directory `d` with a file `f` in it, a link `l` to that, and a device `n`. -/
def smallTree : List (Path × Node) :=
  [ ([], directoryOf [ascii ['d'], ascii ['l'], ascii ['n']]),
    ([ascii ['d']], directoryOf [ascii ['f']]),
    ([ascii ['d'], ascii ['f']], ⟨userStat 0o100644 3, [], ascii ['a', 'b', 'c']⟩),
    ([ascii ['l']], ⟨userStat 0o120777 3, [], ascii ['d', '/', 'f']⟩),
    ([ascii ['n']], ⟨userStat 0o020600 0, [], []⟩) ]

theorem smallTree_wellFormed : WellFormed smallTree :=
  ⟨by decide, by decide, by decide, by decide⟩

theorem trawlDir_copies_smallTree :
    ∃ final, (trawlDir memoryLibrary (.ofNodes smallTree smallTree_wellFormed) 6 2
        ⟨[], emptyImage⟩).run = .ok final ∧
      final.cwd = [] ∧
      ∃ place, Copied (.ofNodes smallTree smallTree_wellFormed) []
        [ascii ['d'], ascii ['l'], ascii ['n']] 2 (memoryView.fs emptyImage)
        (memoryView.fs final.image) place := by
  refine (@trawlDir_copies_iff memoryLibrary memoryView _ memory_documented (by decide) (by decide)
    2 ⟨[], emptyImage⟩ (directoryOf [ascii ['d'], ascii ['l'], ascii ['n']]) rfl (by decide)
    (List.mem_singleton_self 2) 6 (by decide) (by decide +kernel)).mpr ?_
  rintro path node - hnode hlnk
  have hall : ∀ entry ∈ smallTree, entry.2.isLnk = true → entry.2.data.length ≤ linkBuffer := by
    decide
  exact hall (path, node) (mem_of_lookup hnode) hlnk

/-- A link `l` of 1025 bytes. -/
def longLink : List (Path × Node) :=
  [ ([], directoryOf [ascii ['l']]),
    ([ascii ['l']], ⟨userStat 0o120777 1025, [], List.replicate 1025 97⟩) ]

theorem longLink_wellFormed : WellFormed longLink :=
  ⟨by decide +kernel, by decide +kernel, by decide +kernel, by decide +kernel⟩

set_option maxRecDepth 20000 in
/-- No call fails, and the bytes behind the buffer are read. -/
theorem trawlDir_longLink :
    Cured (trawlDir memoryLibrary (.ofNodes longLink longLink_wellFormed) 2 2 ⟨[], emptyImage⟩) ∧
      (trawlDir memoryLibrary (.ofNodes longLink longLink_wellFormed) 2 2 ⟨[], emptyImage⟩).run =
        .error (.fault .outOfBounds) := by
  constructor
  · decide +kernel
  · rfl

end Tcb.TreeCopy
