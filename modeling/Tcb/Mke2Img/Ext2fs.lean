import Mathlib.Data.Multiset.Basic
import Mathlib.Data.Set.Insert
import Tcb.Mke2Img.SourceTree

/-!
# The image and libext2fs

The library is a parameter of the program: images, open files, and the calls
that `mke2img` makes.  What the calls are for is said on an abstract file
system, and a library is as documented when each call that succeeds does to it
what its name says.  A call that fails gives no new image, so it changes
nothing.
-/

namespace Tcb.Ext2fs

open Function
open Tcb.CString
open Tcb.Inodes
open Tcb.SourceTree

abbrev Ino := ℕ

/-- The types in a directory entry. -/
inductive FileType
  | EXT2_FT_REG_FILE | EXT2_FT_DIR | EXT2_FT_CHRDEV | EXT2_FT_BLKDEV | EXT2_FT_FIFO
  | EXT2_FT_SOCK | EXT2_FT_SYMLINK
  deriving DecidableEq, Repr

/-- The mode, the owner and the time of an inode in the image. -/
structure Attributes where
  i_mode : BitVec 16
  i_uid : BitVec 16
  i_gid : BitVec 16
  i_mtime : BitVec 32
  deriving DecidableEq

/-- The members of `struct ext2_inode` that are set; the others are zero. -/
structure Ext2Inode extends Attributes where
  i_atime : BitVec 32
  i_ctime : BitVec 32
  i_links_count : BitVec 16
  i_size : BitVec 32
  i_block0 : BitVec 32
  deriving DecidableEq

/-- The calls of libext2fs, on one open file system. -/
structure Library where
  Image : Type
  File : Type
  Errcode : Type
  blocksize : ℕ
  new_inode : Image → Ino → Mode → Except Errcode Ino
  mkdir : Image → Ino → Ino → List Byte → Except Errcode Image
  expand_dir : Image → Ino → Except Errcode Image
  write_new_inode : Image → Ino → Ext2Inode → Except Errcode Image
  inode_alloc_stats2 : Image → Ino → ℤ → ℤ → Image
  file_open : Image → Ino → Except Errcode File
  file_write : Image → File → List Byte → Except Errcode (ℕ × Image × File)
  file_flush : Image → File → Except Errcode (Image × File)
  file_close : Image → File → Except Errcode Image
  link : Image → Ino → List Byte → Ino → FileType → Except Errcode Image

/-! ## What the calls are for -/

structure Entry where
  name : List Byte
  ino : Ino
  type : FileType
  deriving DecidableEq

/-- An ext2 file system as far as a copy of a tree is concerned: which inodes
are in use, and what stands in each. -/
structure Filesystem where
  used : Set Ino
  entries : Ino → Multiset Entry
  attributes : Ino → Attributes
  content : Ino → List Byte

namespace Filesystem

def link (fs : Filesystem) (dir : Ino) (entry : Entry) : Filesystem :=
  { fs with entries := update fs.entries dir (entry ::ₘ fs.entries dir) }

/-- An empty directory with the attributes that the library chooses. -/
def mkdir (fs : Filesystem) (defaults : Attributes) (dir ino : Ino) (name : List Byte) :
    Filesystem :=
  { used := insert ino fs.used
    entries := update (update fs.entries ino 0) dir
      (⟨name, ino, .EXT2_FT_DIR⟩ ::ₘ fs.entries dir)
    attributes := update fs.attributes ino defaults
    content := update fs.content ino [] }

/-- An inode without blocks reads as zeros. -/
def writeInode (fs : Filesystem) (ino : Ino) (inode : Ext2Inode) : Filesystem :=
  { fs with
    attributes := update fs.attributes ino inode.toAttributes
    content := update fs.content ino
      (if inode.i_block0 = 0 then List.replicate inode.i_size.toNat 0 else []) }

def allocate (fs : Filesystem) (ino : Ino) : Filesystem :=
  { fs with used := insert ino fs.used }

/-- Bytes over the ones that stand at a position. -/
def overwrite (old : List Byte) (pos : ℕ) (bytes : List Byte) : List Byte :=
  old.take pos ++ bytes ++ old.drop (pos + bytes.length)

def write (fs : Filesystem) (ino : Ino) (pos : ℕ) (bytes : List Byte) : Filesystem :=
  { fs with content := update fs.content ino (overwrite (fs.content ino) pos bytes) }

end Filesystem

/-- How an image and an open file are seen. -/
structure View (lib : Library) where
  fs : lib.Image → Filesystem
  ino : lib.File → Ino
  pos : lib.File → ℕ
  /-- What `ext2fs_mkdir` gives a new directory. -/
  defaults : Attributes

/-- Each call that succeeds does what its name says. -/
structure Documented (lib : Library) (view : View lib) : Prop where
  defaults : view.defaults.i_mode.setWidth 32 &&& S_IFMT = S_IFDIR
  new_inode : ∀ {image dir mode ino}, lib.new_inode image dir mode = .ok ino →
    ino ∉ (view.fs image).used
  mkdir : ∀ {image image' dir ino name}, dir ∈ (view.fs image).used →
    ino ∉ (view.fs image).used → lib.mkdir image dir ino name = .ok image' →
      view.fs image' = (view.fs image).mkdir view.defaults dir ino name
  expand_dir : ∀ {image image' dir}, lib.expand_dir image dir = .ok image' →
    view.fs image' = view.fs image
  write_new_inode : ∀ {image image' ino inode}, lib.write_new_inode image ino inode = .ok image' →
    view.fs image' = (view.fs image).writeInode ino inode
  inode_alloc_stats2 : ∀ {image ino isdir},
    view.fs (lib.inode_alloc_stats2 image ino 1 isdir) = (view.fs image).allocate ino
  file_open : ∀ {image ino f}, lib.file_open image ino = .ok f → view.ino f = ino ∧ view.pos f = 0
  file_write : ∀ {image image' f f' bytes out}, lib.file_write image f bytes = .ok (out, image', f') →
    out = bytes.length ∧ view.ino f' = view.ino f ∧ view.pos f' = view.pos f + bytes.length ∧
      view.fs image' = (view.fs image).write (view.ino f) (view.pos f) bytes
  file_flush : ∀ {image image' f f'}, lib.file_flush image f = .ok (image', f') →
    view.ino f' = view.ino f ∧ view.pos f' = view.pos f ∧ view.fs image' = view.fs image
  file_close : ∀ {image image' f}, lib.file_close image f = .ok image' →
    view.fs image' = view.fs image
  link : ∀ {image image' dir name ino type}, lib.link image dir name ino type = .ok image' →
    view.fs image' = (view.fs image).link dir ⟨name, ino, type⟩

/-! ## What is left alone -/

/-- Only the content of one inode is different. -/
structure Touches (ino : Ino) (before after : Filesystem) : Prop where
  used : after.used = before.used
  entries : after.entries = before.entries
  attributes : after.attributes = before.attributes
  content : ∀ other, other ≠ ino → after.content other = before.content other

namespace Touches

variable {ino : Ino} {before between after : Filesystem}

theorem refl (ino : Ino) (fs : Filesystem) : Touches ino fs fs :=
  ⟨rfl, rfl, rfl, fun _ _ => rfl⟩

theorem trans (hfirst : Touches ino before between) (hsecond : Touches ino between after) :
    Touches ino before after where
  used := hsecond.used.trans hfirst.used
  entries := hsecond.entries.trans hfirst.entries
  attributes := hsecond.attributes.trans hfirst.attributes
  content other hne := (hsecond.content other hne).trans (hfirst.content other hne)

theorem write (fs : Filesystem) (ino : Ino) (pos : ℕ) (bytes : List Byte) :
    Touches ino fs (fs.write ino pos bytes) :=
  ⟨rfl, rfl, rfl, fun _ hne => update_of_ne hne _ _⟩

end Touches

/-- Entries were added to one directory, and new inodes; everything that was
there is as it was. -/
structure Grows (dir : Ino) (before after : Filesystem) : Prop where
  used : before.used ⊆ after.used
  entries : ∀ ino ∈ before.used, ino ≠ dir → after.entries ino = before.entries ino
  attributes : ∀ ino ∈ before.used, after.attributes ino = before.attributes ino
  content : ∀ ino ∈ before.used, after.content ino = before.content ino

namespace Grows

variable {dir : Ino} {before between after : Filesystem}

theorem refl (dir : Ino) (fs : Filesystem) : Grows dir fs fs :=
  ⟨subset_rfl, fun _ _ _ => rfl, fun _ _ => rfl, fun _ _ => rfl⟩

theorem trans (hfirst : Grows dir before between) (hsecond : Grows dir between after) :
    Grows dir before after where
  used := hfirst.used.trans hsecond.used
  entries ino hino hdir :=
    (hsecond.entries ino (hfirst.used hino) hdir).trans (hfirst.entries ino hino hdir)
  attributes ino hino :=
    (hsecond.attributes ino (hfirst.used hino)).trans (hfirst.attributes ino hino)
  content ino hino := (hsecond.content ino (hfirst.used hino)).trans (hfirst.content ino hino)

/-- What happens below a new directory leaves the old inodes alone. -/
theorem of_new {new : Ino} (hfirst : Grows dir before between)
    (hnew : new ∉ before.used) (hsecond : Grows new between after) : Grows dir before after where
  used := hfirst.used.trans hsecond.used
  entries ino hino hdir :=
    (hsecond.entries ino (hfirst.used hino) (fun heq => hnew (heq ▸ hino))).trans
      (hfirst.entries ino hino hdir)
  attributes ino hino :=
    (hsecond.attributes ino (hfirst.used hino)).trans (hfirst.attributes ino hino)
  content ino hino := (hsecond.content ino (hfirst.used hino)).trans (hfirst.content ino hino)

variable {fs : Filesystem} {ino : Ino}

theorem link (hgrows : Grows dir before fs) (entry : Entry) :
    Grows dir before (fs.link dir entry) where
  used := hgrows.used
  entries other hother hdir := (update_of_ne hdir _ _).trans (hgrows.entries other hother hdir)
  attributes := hgrows.attributes
  content := hgrows.content

theorem mkdir (hgrows : Grows dir before fs) (hnew : ino ∉ before.used)
    (defaults : Attributes) (name : List Byte) :
    Grows dir before (fs.mkdir defaults dir ino name) where
  used := hgrows.used.trans (Set.subset_insert ino fs.used)
  entries other hother hdir :=
    calc update (update fs.entries ino 0) dir _ other
        = update fs.entries ino 0 other := update_of_ne hdir _ _
      _ = fs.entries other := update_of_ne (ne_of_mem_of_not_mem hother hnew) _ _
      _ = before.entries other := hgrows.entries other hother hdir
  attributes other hother :=
    (update_of_ne (ne_of_mem_of_not_mem hother hnew) _ _).trans (hgrows.attributes other hother)
  content other hother :=
    (update_of_ne (ne_of_mem_of_not_mem hother hnew) _ _).trans (hgrows.content other hother)

theorem writeInode (hgrows : Grows dir before fs) (hnew : ino ∉ before.used)
    (inode : Ext2Inode) : Grows dir before (fs.writeInode ino inode) where
  used := hgrows.used
  entries := hgrows.entries
  attributes other hother :=
    (update_of_ne (ne_of_mem_of_not_mem hother hnew) _ _).trans (hgrows.attributes other hother)
  content other hother :=
    (update_of_ne (ne_of_mem_of_not_mem hother hnew) _ _).trans (hgrows.content other hother)

theorem allocate (hgrows : Grows dir before fs) (ino : Ino) :
    Grows dir before (fs.allocate ino) where
  used := hgrows.used.trans (Set.subset_insert ino fs.used)
  entries := hgrows.entries
  attributes := hgrows.attributes
  content := hgrows.content

theorem touches (hgrows : Grows dir before fs) (hnew : ino ∉ before.used)
    (htouches : Touches ino fs after) : Grows dir before after where
  used := htouches.used ▸ hgrows.used
  entries := htouches.entries ▸ hgrows.entries
  attributes := htouches.attributes ▸ hgrows.attributes
  content other hother :=
    (htouches.content other (ne_of_mem_of_not_mem hother hnew)).trans
      (hgrows.content other hother)

end Grows

end Tcb.Ext2fs
