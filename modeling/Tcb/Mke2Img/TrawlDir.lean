import Tcb.Core.Logged
import Tcb.Mke2Img.Ext2fs

/-!
# Copying a directory into the image

`trawl_dir` goes through the current directory and makes an inode for each
entry: a directory is made and entered, a file is copied block by block, and a
symbolic link or a special file is written as an inode.  Where a directory of
the image is full it is expanded, and the call is made again.  Failures are
reported and the loop goes on; the log holds them and the entries that were
made.
-/

namespace Tcb.TrawlDir

open Tcb.CString
open Tcb.Inodes
open Tcb.SourceTree
open Tcb.Ext2fs
open Tcb.Logged

/-- Why the program calls `exit(1)` while it copies. -/
inductive ExitReason
  | cannotOpenDir
  deriving DecidableEq, Repr

/-- The calls that can fail.  The result of closing a link is not looked at;
every other failure is reported. -/
inductive Failure
  | lstat | newInode | expandDir | createDir | chdir
  | fileAttributes | openFile | createFile | copying | flushing | closing
  | notFileOrDir | deviceInode | readlink | copyingSymlink | closingSymlink
  | failedToCopy
  deriving DecidableEq, Repr

/-- The format of the report; `"%s"` is the name of the entry. -/
def Failure.message : Failure → Option String
  | .lstat | .chdir | .openFile | .readlink => some "%s"
  | .newInode => some "Creating new inode '%s'"
  | .expandDir => some "Couldn't expand dir '%s'"
  | .createDir => some "Couldn't create dir '%s'"
  | .fileAttributes => some "Setting new file attributes"
  | .createFile => some "Creating file '%s'"
  | .copying => some "Copying '%s'"
  | .flushing => some "Flushing"
  | .closing => some "Closing %s"
  | .notFileOrDir => some "%s: not file or dir (specials unimplemented)\n"
  | .deviceInode => some "Writing new device inode"
  | .copyingSymlink => some "Copying symlink '%s'"
  | .closingSymlink => none
  | .failedToCopy => some "Failed to copy '%s'"

/-- What is logged of the entry at a path. -/
inductive Event
  | failed (path : Path) (failure : Failure)
  | created (path : Path) (ino : Ino)
  deriving DecidableEq

def Event.path : Event → Path
  | failed path _ => path
  | created path _ => path

/-- A failure that was not cured. -/
def Event.IsFailure : Event → Prop
  | failed _ _ => True
  | created _ _ => False

abbrev Trawl := Logged Event ExitReason

/-- The current directory of the process, and the image. -/
structure State (lib : Library) where
  cwd : Path
  image : lib.Image

/-- The size of `buf` in the loop that copies a file, and for a link. -/
def fileBuffer : ℕ := 4096
def linkBuffer : ℕ := 1024

/-! ## One entry -/

section Entry

variable (lib : Library) (tree : Tree)

/-- A call that may find a directory full: it is made again when the directory
has been expanded. -/
def retry (make : lib.Image → Except lib.Errcode lib.Image) (dir : Ino) (path : Path)
    (failure : Failure) (image : lib.Image) : Trawl (lib.Image × Bool) :=
  match make image with
  | .ok image => pure (image, true)
  | .error _ =>
      match lib.expand_dir image dir with
      | .error _ => do
          report (.failed path .expandDir)
          return (image, false)
      | .ok image =>
          match make image with
          | .ok image => pure (image, true)
          | .error _ => do
              report (.failed path failure)
              return (image, false)

/-- `ext2fs_write_new_inode`; a failure is reported, and the entry is made all
the same. -/
def writeNewInode (path : Path) (failure : Failure) (image : lib.Image) (ino : Ino)
    (inode : Ext2Inode) : Trawl lib.Image :=
  match lib.write_new_inode image ino inode with
  | .ok image => pure image
  | .error _ => do
      report (.failed path failure)
      return image

/-- The link behind an inode that was written. -/
def linkEntry (parent : Ino) (path : Path) (name : List Byte) (ino : Ino) (type : FileType)
    (image : lib.Image) : Trawl lib.Image := do
  let (image, done) ← retry lib (fun image => lib.link image parent name ino type) parent path
    .failedToCopy image
  if done then
    report (.created path ino)
    return image
  else return image

/-- `ext2fs_file_close` behind a write that failed. -/
def closeBroken (image : lib.Image) (f : lib.File) : lib.Image :=
  match lib.file_close image f with
  | .ok image => image
  | .error _ => image

/-- One round of the loop that copies a file.  When a write fails the file is
closed, and the loop goes on with it. -/
def copyBlock (path : Path) (state : lib.Image × Option lib.File) (block : List Byte) :
    Trawl (lib.Image × Option lib.File) := do
  quiet (Run.require (block.length ≤ fileBuffer))
  match state.2 with
  | none => quiet (Run.fault .outOfBounds)
  | some f =>
      match lib.file_write state.1 f block with
      | .error _ => do
          report (.failed path .copying)
          return (closeBroken lib state.1 f, none)
      | .ok (out, image, f) =>
          if out < block.length then do
            report (.failed path .copying)
            return (closeBroken lib image f, none)
          else
            match lib.file_flush image f with
            | .ok (image, f) => pure (image, some f)
            | .error _ => do
                report (.failed path .flushing)
                return (image, some f)

/-- `ext2fs_file_close` behind the loop. -/
def closeFile (path : Path) (state : lib.Image × Option lib.File) : Trawl lib.Image :=
  match state.2 with
  | none => quiet (Run.fault .outOfBounds)
  | some f =>
      match lib.file_close state.1 f with
      | .ok image => pure image
      | .error _ => do
          report (.failed path .closing)
          return state.1

/-- The inode of a regular file. -/
def regularInode (info : Stat) : Ext2Inode where
  i_mode := (S_IFREG ||| (info.st_mode &&& 0o777)).setWidth 16
  i_uid := info.st_uid.setWidth 16
  i_gid := info.st_gid.setWidth 16
  i_atime := BitVec.ofInt 32 info.st_atime
  i_mtime := BitVec.ofInt 32 info.st_mtime
  i_ctime := BitVec.ofInt 32 info.st_ctime
  i_links_count := 1
  i_size := BitVec.ofNat 32 info.st_size
  i_block0 := 0

def copyRegular (parent new : Ino) (name : List Byte) (info : Stat) (state : State lib) :
    Trawl (State lib) := do
  let path := state.cwd ++ [name]
  let image ← writeNewInode lib path .fileAttributes state.image new (regularInode info)
  let image := lib.inode_alloc_stats2 image new 1 1
  match tree.openFile state.cwd name with
  | none => do
      report (.failed path .openFile)
      return { state with image := image }
  | some bytes =>
      match lib.file_open image new with
      | .error _ => do
          report (.failed path .createFile)
          return { state with image := image }
      | .ok f => do
          let copied ← (readBlocks lib.blocksize bytes.length bytes).foldlM
            (copyBlock lib path) (image, some f)
          let image ← closeFile lib path copied
          let image ← linkEntry lib parent path name new .EXT2_FT_REG_FILE image
          return { state with image := image }

/-- The type of the directory entry of a special file or a link. -/
def specialType (mode : Mode) : Option FileType :=
  if mode &&& S_IFMT = S_IFCHR then some .EXT2_FT_CHRDEV
  else if mode &&& S_IFMT = S_IFBLK then some .EXT2_FT_BLKDEV
  else if mode &&& S_IFMT = S_IFIFO then some .EXT2_FT_FIFO
  else if mode &&& S_IFMT = S_IFSOCK then some .EXT2_FT_SOCK
  else if mode &&& S_IFMT = S_IFLNK then some .EXT2_FT_SYMLINK
  else none

/-- The inode of a special file or a link. -/
def specialInode (info : Stat) : Ext2Inode where
  i_mode := info.st_mode.setWidth 16
  i_uid := info.st_uid.setWidth 16
  i_gid := info.st_gid.setWidth 16
  i_atime := BitVec.ofInt 32 info.st_atime
  i_mtime := BitVec.ofInt 32 info.st_mtime
  i_ctime := BitVec.ofInt 32 info.st_ctime
  i_links_count := 1
  i_size := BitVec.ofNat 32 info.st_size
  i_block0 := info.st_rdev.setWidth 32

/-- The write of a target; how much was written is not looked at. -/
def writeTarget (path : Path) (image : lib.Image) (f : lib.File) (bytes : List Byte) :
    Trawl (lib.Image × lib.File) :=
  match lib.file_write image f bytes with
  | .ok (_, image, f) => pure (image, f)
  | .error _ => do
      report (.failed path .copyingSymlink)
      return (image, f)

/-- `ext2fs_file_close` behind the write of a target. -/
def closeTarget (path : Path) (state : lib.Image × lib.File) : Trawl lib.Image :=
  match lib.file_close state.1 state.2 with
  | .ok image => pure image
  | .error _ => do
      report (.failed path .closingSymlink)
      return state.1

/-- The target of a link is read into a buffer, and as many bytes are written
from there as the link is long. -/
def copyTarget (cwd : Path) (new : Ino) (name : List Byte) (info : Stat) (image : lib.Image) :
    Trawl lib.Image :=
  match tree.readlink cwd name linkBuffer with
  | none => do
      report (.failed (cwd ++ [name]) .readlink)
      return image
  | some target =>
      match lib.file_open image new with
      | .error _ => do
          report (.failed (cwd ++ [name]) .copyingSymlink)
          -- `f` was not set, and is closed
          quiet (Run.fault .outOfBounds)
      | .ok f => do
          quiet (Run.require (info.st_size ≤ target.length))
          let written ← writeTarget lib (cwd ++ [name]) image f (target.take info.st_size)
          closeTarget lib (cwd ++ [name]) written

/-- Only a link has a target. -/
def copySymlink (type : FileType) (cwd : Path) (new : Ino) (name : List Byte) (info : Stat)
    (image : lib.Image) : Trawl lib.Image :=
  if type = .EXT2_FT_SYMLINK then copyTarget lib tree cwd new name info image else pure image

def copySpecial (parent new : Ino) (name : List Byte) (info : Stat) (state : State lib) :
    Trawl (State lib) := do
  let path := state.cwd ++ [name]
  match specialType info.st_mode with
  | none => do
      report (.failed path .notFileOrDir)
      return state
  | some type => do
      let image ← writeNewInode lib path .deviceInode state.image new (specialInode info)
      let image := lib.inode_alloc_stats2 image new 1 1
      let image ← copySymlink lib tree type state.cwd new name info image
      let image ← linkEntry lib parent path name new type image
      return { state with image := image }

/-- A directory is made, entered and left again; the result of leaving it is
not looked at. -/
def copyDirectory (trawl : Ino → State lib → Trawl (State lib)) (parent new : Ino)
    (name : List Byte) (state : State lib) : Trawl (State lib) := do
  let path := state.cwd ++ [name]
  let (image, done) ← retry lib (fun image => lib.mkdir image parent new name) parent path
    .createDir state.image
  if done then
    report (.created path new)
    match tree.chdir state.cwd name with
    | none => do
        report (.failed path .chdir)
        return { state with image := image }
    | some cwd => do
        let state ← trawl new { cwd := cwd, image := image }
        return { state with cwd := (tree.chdir state.cwd dotDot).getD state.cwd }
  else return { state with image := image }

/-- One round of the loop over the entries. -/
def copyEntry (trawl : Ino → State lib → Trawl (State lib)) (parent : Ino) (state : State lib)
    (name : List Byte) : Trawl (State lib) :=
  if name = dot ∨ name = dotDot then pure state
  else
    match tree.lstat state.cwd name with
    | none => do
        report (.failed (state.cwd ++ [name]) .lstat)
        return state
    | some info =>
        match lib.new_inode state.image parent info.st_mode with
        | .error _ => do
            report (.failed (state.cwd ++ [name]) .newInode)
            return state
        | .ok new =>
            if info.st_mode &&& S_IFMT = S_IFDIR then
              copyDirectory lib tree trawl parent new name state
            else if info.st_mode &&& S_IFMT = S_IFREG then
              copyRegular lib tree parent new name info state
            else copySpecial lib tree parent new name info state

/-- `trawl_dir(image, bitmap, parent_dir)` in the current directory. -/
def trawlDir : ℕ → Ino → State lib → Trawl (State lib)
  | 0, _, _ => quiet Run.outOfFuel
  | fuel + 1, parent, state =>
      match tree.opendir state.cwd with
      | none => quiet (Run.exit .cannotOpenDir)
      | some names => names.foldlM (copyEntry lib tree (trawlDir fuel) parent) state

end Entry

/-! ## Modes in sixteen bits -/

theorem setWidth_setWidth (mode : Mode) :
    (mode.setWidth 16).setWidth 32 = mode &&& 0xffff := by
  apply BitVec.eq_of_toNat_eq
  have hmask : (0xffff : Mode).toNat = 2 ^ 16 - 1 := rfl
  rw [BitVec.toNat_and, hmask, Nat.and_two_pow_sub_one_eq_mod, BitVec.toNat_setWidth,
    BitVec.toNat_setWidth]
  exact Nat.mod_eq_of_lt ((Nat.mod_lt _ (by norm_num)).trans (by norm_num))

theorem setWidth_and {mask : Mode} (hmask : 0xffff &&& mask = mask) (mode : Mode) :
    (mode.setWidth 16).setWidth 32 &&& mask = mode &&& mask := by
  rw [setWidth_setWidth, BitVec.and_assoc, hmask]

theorem regularMode_and {mask : Mode} (hmask : 0xffff &&& mask = mask) (mode : Mode) :
    ((S_IFREG ||| (mode &&& 0o777)).setWidth 16).setWidth 32 &&& mask =
      (S_IFREG &&& mask) ||| (mode &&& (0o777 &&& mask)) := by
  rw [setWidth_and hmask, BitVec.and_or_distrib_right, BitVec.and_assoc]

/-- The permissions of a regular file are kept when it has none of the bits
above the nine that are copied. -/
theorem regularMode_permissions (mode : Mode) :
    ((S_IFREG ||| (mode &&& 0o777)).setWidth 16).setWidth 32 &&& 0o7777 = mode &&& 0o7777 ↔
      mode &&& 0o7000 = 0 := by
  have hsplit : mode &&& 0o7777 = (mode &&& 0o777) ||| (mode &&& 0o7000) := by
    rw [← BitVec.and_or_distrib_left]
    rfl
  rw [regularMode_and (by decide), hsplit]
  have hlow : (S_IFREG &&& 0o7777) ||| (mode &&& (0o777 &&& 0o7777)) = mode &&& 0o777 := by
    have hzero : S_IFREG &&& 0o7777 = 0#32 := by decide
    have hmask : (0o777 : Mode) &&& 0o7777 = 0o777 := by decide
    rw [hzero, hmask, BitVec.zero_or]
  rw [hlow]
  constructor
  · intro hsame
    have hhigh := congrArg (· &&& 0o7000) hsame
    simp only [BitVec.and_or_distrib_right, BitVec.and_assoc] at hhigh
    have hzero : (0o777 : Mode) &&& 0o7000 = 0#32 := by decide
    have hself : (0o7000 : Mode) &&& 0o7000 = 0o7000 := by decide
    rw [hzero, hself, BitVec.and_zero, BitVec.zero_or] at hhigh
    exact hhigh.symm
  · intro hnone
    have hnone' : mode &&& 0o7000 = 0#32 := hnone
    rw [hnone', BitVec.or_zero]

/-! ## What the calls do -/

section Calls

variable {lib : Library} {view : View lib} {path : Path} {failure : Failure}
  {image : lib.Image} {ino parent : Ino}

/-- The call is made in the end, or the failure is reported and nothing has
happened. -/
theorem retry_cases (hdoc : Documented lib view)
    (make : lib.Image → Except lib.Errcode lib.Image) (dir : Ino) (path : Path)
    (failure : Failure) (image : lib.Image) :
    (∃ expanded image', view.fs expanded = view.fs image ∧ make expanded = .ok image' ∧
      retry lib make dir path failure image = pure (image', true)) ∨
    ∃ image' failed, view.fs image' = view.fs image ∧
      retry lib make dir path failure image =
        (do report (.failed path failed); return (image', false)) := by
  rw [retry]
  cases hmake : make image with
  | ok image' => exact .inl ⟨image, image', rfl, hmake, rfl⟩
  | error _ =>
      cases hexpand : lib.expand_dir image dir with
      | error _ => exact .inr ⟨image, .expandDir, rfl, rfl⟩
      | ok expanded =>
          have hsame := hdoc.expand_dir hexpand
          cases hagain : make expanded with
          | ok image' => exact .inl ⟨expanded, image', hsame, hagain, by simp only [hagain]⟩
          | error _ => exact .inr ⟨expanded, failure, hsame, by simp only [hagain]⟩

theorem linkEntry_cases (hdoc : Documented lib view) (parent : Ino) (path : Path)
    (name : List Byte) (ino : Ino) (type : FileType) (image : lib.Image) :
    (∃ image', view.fs image' = (view.fs image).link parent ⟨name, ino, type⟩ ∧
      linkEntry lib parent path name ino type image =
        (do report (.created path ino); return image')) ∨
    ∃ image' failed, view.fs image' = view.fs image ∧
      linkEntry lib parent path name ino type image =
        (do report (.failed path failed); return image') := by
  rw [linkEntry]
  rcases retry_cases hdoc (fun image => lib.link image parent name ino type) parent path
      .failedToCopy image with
    ⟨expanded, image', hsame, hlink, hretry⟩ | ⟨image', failed, hsame, hretry⟩
  · refine .inl ⟨image', ?_, by rw [hretry]; rfl⟩
    rw [hdoc.link hlink, hsame]
  · exact .inr ⟨image', failed, hsame, by rw [hretry]; rfl⟩

theorem writeNewInode_cases (hdoc : Documented lib view) (path : Path) (failure : Failure)
    (image : lib.Image) (ino : Ino) (inode : Ext2Inode) :
    (∃ image', view.fs image' = (view.fs image).writeInode ino inode ∧
      writeNewInode lib path failure image ino inode = pure image') ∨
    writeNewInode lib path failure image ino inode =
      (do report (.failed path failure); return image) := by
  rw [writeNewInode]
  cases hwrite : lib.write_new_inode image ino inode with
  | ok image' => exact .inl ⟨image', hdoc.write_new_inode hwrite, rfl⟩
  | error _ => exact .inr rfl

theorem closeBroken_fs (hdoc : Documented lib view) (image : lib.Image) (f : lib.File) :
    view.fs (closeBroken lib image f) = view.fs image := by
  rw [closeBroken]
  cases hclose : lib.file_close image f with
  | ok image' => exact hdoc.file_close hclose
  | error _ => rfl

/-- A block is written behind the ones before it, or the failure is reported
and nothing but the file was touched. -/
theorem copyBlock_cases (hdoc : Documented lib view) (path : Path) (image : lib.Image)
    (f : lib.File) {block : List Byte} (hblock : block.length ≤ fileBuffer) :
    (∃ image' f', view.fs image' = (view.fs image).write (view.ino f) (view.pos f) block ∧
      view.ino f' = view.ino f ∧ view.pos f' = view.pos f + block.length ∧
      copyBlock lib path (image, some f) block = pure (image', some f')) ∨
    ∃ image' rest failed, Touches (view.ino f) (view.fs image) (view.fs image') ∧
      (∀ f' ∈ rest, view.ino f' = view.ino f) ∧
      copyBlock lib path (image, some f) block =
        (do report (.failed path failed); return (image', rest)) := by
  simp only [copyBlock, Run.require_pos hblock, quiet_ok, Logged.pure_bind]
  cases hwrite : lib.file_write image f block with
  | error _ =>
      refine .inr ⟨closeBroken lib image f, none, .copying, ?_, by simp, rfl⟩
      rw [closeBroken_fs hdoc]
      exact .refl _ _
  | ok written =>
      obtain ⟨out, image', f'⟩ := written
      obtain ⟨rfl, hino, hpos, hfs⟩ := hdoc.file_write hwrite
      cases hflush : lib.file_flush image' f' with
      | ok flushed =>
          obtain ⟨image'', f''⟩ := flushed
          obtain ⟨hino', hpos', hfs'⟩ := hdoc.file_flush hflush
          refine .inl ⟨image'', f'', hfs'.trans hfs, hino'.trans hino, hpos'.trans hpos, ?_⟩
          simp only [lt_irrefl, if_false, hflush]
      | error _ =>
          refine .inr ⟨image', some f', .flushing, ?_, by simpa using hino, ?_⟩
          · rw [hfs]
            exact .write _ _ _ _
          · simp only [lt_irrefl, if_false, hflush]

theorem closeFile_cases (hdoc : Documented lib view) (path : Path) (image : lib.Image)
    (f : lib.File) :
    (∃ image', view.fs image' = view.fs image ∧
      closeFile lib path (image, some f) = pure image') ∨
    closeFile lib path (image, some f) =
      (do report (.failed path .closing); return image) := by
  rw [closeFile]
  cases hclose : lib.file_close image f with
  | ok image' => exact .inl ⟨image', hdoc.file_close hclose, by simp only [hclose]⟩
  | error _ => exact .inr (by simp only [hclose])

end Calls

end Tcb.TrawlDir
