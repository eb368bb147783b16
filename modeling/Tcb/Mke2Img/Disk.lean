import Tcb.Mke2Img.Answers

/-!
# The image behind a history

What libext2fs has put into the image is known from the steps: every call that
succeeded did what its name says, and the others changed nothing.  The bytes
that were written to an open file are in the image when a flush or a close has
succeeded.
-/

namespace Tcb.Calls

open Function
open Tcb.CString
open Tcb.SourceTree
open Tcb.Ext2fs

/-- The inode bitmap, the inodes, the entries with the directories that they
are in, and the bytes of the inodes. -/
structure Image where
  used : List Ino
  inodes : Ino → Ext2Inode
  entries : List (Ino × Entry)
  content : Ino → List Byte

namespace Image

variable (image : Image)

/-- The entries with the number of an inode. -/
def references (ino : Ino) : ℕ := image.entries.countP fun entry => entry.2.ino = ino

def links (ino : Ino) : ℕ := (image.inodes ino).i_links_count.toNat

def link (dir : Ino) (entry : Entry) : Image :=
  { image with entries := (dir, entry) :: image.entries }

/-- The new directory has the entries `"."` and `".."`, and the one above has
one link more. -/
def mkdir (directory : Ext2Inode) (dir ino : Ino) (name : Name) : Image :=
  { used := ino :: image.used
    inodes := update (update image.inodes ino { directory with i_links_count := 2 }) dir
      { image.inodes dir with i_links_count := (image.inodes dir).i_links_count + 1 }
    entries := (dir, ⟨name, ino, .EXT2_FT_DIR⟩) :: (ino, ⟨dot, ino, .EXT2_FT_DIR⟩) ::
      (ino, ⟨dotDot, dir, .EXT2_FT_DIR⟩) :: image.entries
    content := update image.content ino [] }

/-- A block is added to a directory. -/
def expand (blocksize : ℕ) (dir : Ino) : Image :=
  { image with
    inodes := update image.inodes dir
      { image.inodes dir with
        i_size := (image.inodes dir).i_size + BitVec.ofNat 32 blocksize } }

/-- An inode without blocks reads as zeros. -/
def writeInode (ino : Ino) (inode : Ext2Inode) : Image :=
  { image with
    inodes := update image.inodes ino inode
    content := update image.content ino
      (if inode.i_block0 = 0 then List.replicate inode.i_size.toNat 0 else []) }

def allocate (ino : Ino) : Image := { image with used := ino :: image.used }

/-- What was written to a file comes into the image. -/
def save (files : List OpenFile) (f : Handle) : Image :=
  match files.find? (·.handle = f) with
  | none => image
  | some file =>
      { image with
        content := update image.content file.ino (file.unsaved.foldl
          (fun bytes write => Filesystem.overwrite bytes write.1 write.2)
          (image.content file.ino)) }

end Image

/-- The image before the copy, the inode that `ext2fs_mkdir` writes, and the
size of a block. -/
structure Disk where
  image : Image
  directory : Ext2Inode
  blocksize : ℕ

def Step.image (disk : Disk) (files : List OpenFile) : Step → Image → Image
  | request (.mkdir dir ino name) _ true, image => image.mkdir disk.directory dir ino name
  | request (.link dir name ino type) _ true, image => image.link dir ⟨name, ino, type⟩
  | expandDir what true, image => image.expand disk.blocksize what.dir
  | writeNewInode ino inode true, image => image.writeInode ino inode
  | allocStats ino, image => image.allocate ino
  | fileFlush f true, image => image.save files f
  | fileClose _ (some f) true, image => image.save files f
  | _, image => image

/-- The image behind the steps. -/
def Disk.after (disk : Disk) : List Step → Image
  | [] => disk.image
  | step :: h => step.image disk (files h) (disk.after h)

/-- The inodes that were marked with `ext2fs_inode_alloc_stats2`. -/
def allocated (h : List Step) : List Ino :=
  h.filterMap fun
    | .allocStats ino => some ino
    | _ => none

/-- What is asked of the numbers that the library gives to new inodes. -/
def Free (disk : Disk) (world : World) : Prop :=
  ∀ h dir mode ino, world.new_inode h dir mode = some ino → ino ∉ (disk.after h).used

section After

variable {disk : Disk} {h : List Step} {ino : Ino}

theorem after_request_failed (what : Request) (again : Bool) :
    disk.after (.request what again false :: h) = disk.after h := by
  cases what <;> rfl

theorem save_used (image : Image) (files : List OpenFile) (f : Handle) :
    (image.save files f).used = image.used := by
  rw [Image.save]
  split <;> rfl

theorem save_inodes (image : Image) (files : List OpenFile) (f : Handle) :
    (image.save files f).inodes = image.inodes := by
  rw [Image.save]
  split <;> rfl

theorem save_entries (image : Image) (files : List OpenFile) (f : Handle) :
    (image.save files f).entries = image.entries := by
  rw [Image.save]
  split <;> rfl

/-- A call for a content leaves bitmap, inodes and entries alone. -/
theorem after_onContent (disk : Disk) (h : List Step) {step : Step} (hkind : step.OnContent) :
    (disk.after (step :: h)).used = (disk.after h).used ∧
      (disk.after (step :: h)).inodes = (disk.after h).inodes ∧
      (disk.after (step :: h)).entries = (disk.after h).entries := by
  cases step with
  | fileFlush f done =>
      cases done with
      | false => exact ⟨rfl, rfl, rfl⟩
      | true => exact ⟨save_used _ _ _, save_inodes _ _ _, save_entries _ _ _⟩
  | fileClose purpose f done =>
      cases f with
      | none => exact ⟨rfl, rfl, rfl⟩
      | some f =>
          cases done with
          | false => exact ⟨rfl, rfl, rfl⟩
          | true => exact ⟨save_used _ _ _, save_inodes _ _ _, save_entries _ _ _⟩
  | _ => first | exact hkind.elim | exact ⟨rfl, rfl, rfl⟩

/-- The bitmap only grows. -/
theorem used_subset (disk : Disk) (step : Step) (h : List Step) :
    (disk.after h).used ⊆ (disk.after (step :: h)).used := by
  cases step with
  | request what again done =>
      cases done with
      | false => rw [after_request_failed]; exact List.Subset.refl _
      | true =>
          cases what with
          | mkdir dir ino name => exact List.subset_cons_self _ _
          | link dir name ino type => exact List.Subset.refl _
  | writeNewInode ino inode done => cases done <;> exact List.Subset.refl _
  | allocStats ino => exact List.subset_cons_self _ _
  | expandDir what done => cases done <;> exact List.Subset.refl _
  | fileFlush f done =>
      rw [(after_onContent disk h (show (Step.fileFlush f done).OnContent from trivial)).1]
      exact List.Subset.refl _
  | fileClose purpose f done =>
      rw [(after_onContent disk h (show (Step.fileClose purpose f done).OnContent from trivial)).1]
      exact List.Subset.refl _
  | _ => exact List.Subset.refl _

theorem used_mono (disk : Disk) {h' : List Step} (hsuffix : h <:+ h') :
    (disk.after h).used ⊆ (disk.after h').used := by
  obtain ⟨newer, rfl⟩ := hsuffix
  induction newer with
  | nil => exact List.Subset.refl _
  | cons step newer ih => exact List.Subset.trans ih (used_subset disk step _)

@[simp]
theorem links_expand (image : Image) (blocksize : ℕ) (dir ino : Ino) :
    (image.expand blocksize dir).links ino = image.links ino := by
  unfold Image.links Image.expand
  by_cases hdir : ino = dir
  · simp only [hdir, update_self]
  · simp only [update_of_ne hdir]

theorem references_eq_zero {image : Image} (hnone : ∀ entry ∈ image.entries, entry.2.ino ≠ ino) :
    image.references ino = 0 :=
  List.countP_eq_zero.mpr fun entry hentry hino => hnone entry hentry (of_decide_eq_true hino)

theorem references_link_self (image : Image) (dir : Ino) (name : Name) (type : FileType) :
    (image.link dir ⟨name, ino, type⟩).references ino = image.references ino + 1 := by
  simp [Image.link, Image.references]

theorem references_link_of_ne (image : Image) (dir : Ino) {entry : Entry} (hne : entry.ino ≠ ino) :
    (image.link dir entry).references ino = image.references ino := by
  simp [Image.link, Image.references, hne]

/-- A new directory has no links to files. -/
theorem mkdir_of_ne (image : Image) (directory : Ext2Inode) {dir new : Ino} (name : Name)
    (hnew : ino ≠ new) (hdir : ino ≠ dir) :
    (image.mkdir directory dir new name).references ino = image.references ino ∧
      (image.mkdir directory dir new name).links ino = image.links ino := by
  constructor
  · simp [Image.mkdir, Image.references, Ne.symm hnew, Ne.symm hdir]
  · simp [Image.mkdir, Image.links, update_of_ne hnew, update_of_ne hdir]

theorem links_writeInode_self (image : Image) (inode : Ext2Inode) :
    (image.writeInode ino inode).links ino = inode.i_links_count.toNat := by
  simp [Image.writeInode, Image.links]

theorem links_writeInode_of_ne (image : Image) {new : Ino} (inode : Ext2Inode)
    (hnew : ino ≠ new) : (image.writeInode new inode).links ino = image.links ino := by
  simp [Image.writeInode, Image.links, update_of_ne hnew]

end After

/-! ## A new image -/

/-- What `ext2fs_mkdir` writes. -/
def newDirectory : Ext2Inode := ⟨⟨0o040755, 0, 0, 0⟩, 0, 0, 2, 1024, 0⟩

/-- The root directory, and nothing in it. -/
def newDisk : Disk where
  image :=
    { used := [2]
      inodes := fun _ => newDirectory
      entries := [(2, ⟨dot, 2, .EXT2_FT_DIR⟩), (2, ⟨dotDot, 2, .EXT2_FT_DIR⟩)]
      content := fun _ => [] }
  directory := newDirectory
  blocksize := 1024

theorem le_newest (h : List Step) : ∀ ino ∈ (newDisk.after h).used, ino ≤ newest h := by
  have hmax : ∀ {used : List Ino} {new bound : Ino}, (∀ ino ∈ used, ino ≤ bound) →
      ∀ ino ∈ new :: used, ino ≤ max new bound := by
    intro used new bound hused ino hino
    rcases List.mem_cons.mp hino with rfl | hino
    · exact le_max_left _ _
    · exact (hused ino hino).trans (le_max_right _ _)
  induction h with
  | nil => decide
  | cons step h ih =>
      cases step with
      | allocStats ino => exact hmax ih
      | request what again done =>
          cases done with
          | true =>
              cases what with
              | mkdir dir ino name => exact hmax ih
              | link dir name ino type => exact ih
          | false =>
              rw [after_request_failed]
              cases what <;> exact ih
      | writeNewInode ino inode done => cases done <;> exact ih
      | expandDir what done => cases done <;> exact ih
      | fileFlush f done =>
          rw [(after_onContent newDisk h (show (Step.fileFlush f done).OnContent from trivial)).1]
          exact ih
      | fileClose purpose f done =>
          rw [(after_onContent newDisk h
            (show (Step.fileClose purpose f done).OnContent from trivial)).1]
          exact ih
      | _ => exact ih

theorem smallWorld_free : Free newDisk smallWorld := by
  intro h dir mode ino hino hmem
  obtain rfl := Option.some.inj hino
  exact absurd (le_newest h _ hmem) (Nat.not_succ_le_self _)

end Tcb.Calls
