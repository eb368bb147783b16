import Tcb.Mke2Img.Ext2fs

/-!
# An image in memory

A library that does what the names of the calls say.  A directory has room for
some entries, and the calls that add one to a full directory fail until it is
expanded.
-/

namespace Tcb.MemoryImage

open Function
open Tcb.CString
open Tcb.Inodes
open Tcb.SourceTree
open Tcb.Ext2fs

inductive Errcode
  | EXT2_ET_DIR_NO_SPACE
  deriving DecidableEq, Repr

/-- The inodes behind the reserved ones are given out in order. -/
structure Image where
  next : Ino
  used : List Ino
  free : ∀ ino ∈ used, ino < next
  entries : Ino → List Entry
  attributes : Ino → Attributes
  content : Ino → List Byte
  /-- How many entries a directory still has place for. -/
  room : Ino → ℕ

/-- The inode of an open file and the position in it. -/
structure File where
  ino : Ino
  pos : ℕ

namespace Image

variable (image : Image)

def occupy (ino : Ino) : Image :=
  { image with
    next := max image.next (ino + 1)
    used := ino :: image.used
    free := by
      intro other hother
      rcases List.mem_cons.mp hother with rfl | hold
      · exact lt_max_of_lt_right (Nat.lt_succ_self other)
      · exact lt_max_of_lt_left (image.free other hold) }

def expand (dir : Ino) : Image :=
  { image with room := update image.room dir (image.room dir + 2) }

def link (dir : Ino) (entry : Entry) : Except Errcode Image :=
  if image.room dir = 0 then .error .EXT2_ET_DIR_NO_SPACE
  else .ok { image with
    entries := update image.entries dir (entry :: image.entries dir)
    room := update image.room dir (image.room dir - 1) }

/-- A directory is empty at first, and full. -/
def mkdir (defaults : Attributes) (dir ino : Ino) (name : List Byte) : Except Errcode Image :=
  if image.room dir = 0 then .error .EXT2_ET_DIR_NO_SPACE
  else .ok { image.occupy ino with
    entries := update (update image.entries ino []) dir
      (⟨name, ino, .EXT2_FT_DIR⟩ :: image.entries dir)
    attributes := update image.attributes ino defaults
    content := update image.content ino []
    room := update (update image.room ino 0) dir (image.room dir - 1) }

def writeInode (ino : Ino) (inode : Ext2Inode) : Image :=
  { image with
    attributes := update image.attributes ino inode.toAttributes
    content := update image.content ino
      (if inode.i_block0 = 0 then List.replicate inode.i_size.toNat 0 else []) }

def write (f : File) (bytes : List Byte) : Image :=
  { image with
    content := update image.content f.ino
      (Filesystem.overwrite (image.content f.ino) f.pos bytes) }

end Image

/-- `drwxr-xr-x` and the superuser. -/
def defaults : Attributes := ⟨0o040755, 0, 0, 0⟩

def memoryLibrary : Library where
  Image := Image
  File := File
  Errcode := Errcode
  blocksize := 1024
  new_inode image _ _ := .ok image.next
  mkdir image dir ino name := image.mkdir defaults dir ino name
  expand_dir image dir := .ok (image.expand dir)
  write_new_inode image ino inode := .ok (image.writeInode ino inode)
  inode_alloc_stats2 image ino _ _ := image.occupy ino
  file_open _ ino := .ok ⟨ino, 0⟩
  file_write image f bytes :=
    .ok (bytes.length, image.write f bytes, ⟨f.ino, f.pos + bytes.length⟩)
  file_flush image f := .ok (image, f)
  file_close image _ := .ok image
  link image dir name ino type := image.link dir ⟨name, ino, type⟩

def memoryView : View memoryLibrary where
  fs image :=
    { used := {ino | ino ∈ image.used}
      entries := fun ino => ↑(image.entries ino)
      attributes := image.attributes
      content := image.content }
  ino f := f.ino
  pos f := f.pos
  defaults := defaults

theorem used_occupy (image : Image) (ino : Ino) :
    {other | other ∈ (image.occupy ino).used} = insert ino {other | other ∈ image.used} := by
  ext other
  exact List.mem_cons

theorem fs_occupy (image : Image) (ino : Ino) :
    memoryView.fs (image.occupy ino) = (memoryView.fs image).allocate ino := by
  calc memoryView.fs (image.occupy ino)
      = { memoryView.fs image with used := {other | other ∈ (image.occupy ino).used} } := rfl
    _ = (memoryView.fs image).allocate ino := by
        rw [used_occupy]
        rfl

theorem coe_update (entries : Ino → List Entry) (dir : Ino) (list : List Entry) :
    (fun ino => (↑(update entries dir list ino) : Multiset Entry)) =
      update (fun ino => ↑(entries ino)) dir ↑list := by
  funext ino
  by_cases heq : ino = dir
  · rw [heq, update_self, update_self]
  · rw [update_of_ne heq, update_of_ne heq]

theorem fs_link {image image' : Image} {dir : Ino} {entry : Entry}
    (hlink : image.link dir entry = .ok image') :
    memoryView.fs image' = (memoryView.fs image).link dir entry := by
  rw [Image.link] at hlink
  split at hlink
  · cases hlink
  · rw [Except.ok.injEq] at hlink
    rw [← hlink]
    simp only [memoryView, Filesystem.link, coe_update, Multiset.cons_coe]

theorem fs_mkdir {image image' : Image} {dir ino : Ino} {name : List Byte}
    (hmkdir : image.mkdir defaults dir ino name = .ok image') :
    memoryView.fs image' = (memoryView.fs image).mkdir defaults dir ino name := by
  rw [Image.mkdir] at hmkdir
  split at hmkdir
  · cases hmkdir
  · rw [Except.ok.injEq] at hmkdir
    rw [← hmkdir]
    simp only [memoryView, Filesystem.mkdir, used_occupy, coe_update, Multiset.cons_coe,
      Multiset.coe_nil]

/-- The library in memory is as documented. -/
theorem memory_documented : Documented memoryLibrary memoryView where
  defaults := by decide
  new_inode := by
    intro image dir mode ino hino hused
    rw [← Except.ok.inj hino] at hused
    exact absurd (image.free _ hused) (lt_irrefl image.next)
  mkdir _ _ := fs_mkdir
  expand_dir := by
    intro image image' dir hexpand
    rw [← Except.ok.inj hexpand]
    rfl
  write_new_inode := by
    intro image image' ino inode hwrite
    rw [← Except.ok.inj hwrite]
    rfl
  inode_alloc_stats2 := fs_occupy _ _
  file_open := by
    intro image ino f hopen
    rw [← Except.ok.inj hopen]
    exact ⟨rfl, rfl⟩
  file_write := by
    intro image image' f f' bytes out hwrite
    cases hwrite
    exact ⟨rfl, rfl, rfl, rfl⟩
  file_flush := by
    intro image image' f f' hflush
    cases hflush
    exact ⟨rfl, rfl, rfl⟩
  file_close := by
    intro image image' f hclose
    rw [← Except.ok.inj hclose]
  link := fs_link

/-- A new image: the root directory, and nothing in it. -/
def emptyImage : Image where
  next := 11
  used := [2]
  free := by decide
  entries _ := []
  attributes _ := defaults
  content _ := []
  room _ := 0

end Tcb.MemoryImage
