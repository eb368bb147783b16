import Tcb.Core.Traced
import Tcb.Mke2Img.TrawlDir

/-!
# The calls of the copy

`trawl_dir` once more, call by call, with nothing said about the answers: the
system and libext2fs may let any call succeed or fail, whatever happened before.
The steps that were made say which files and descriptors are open, what the
image holds and where the process is.  A call on a file that is not open, or
behind the bytes of a buffer, is made and has no defined effect; the run ends
there.
-/

namespace Tcb.Calls

open Tcb.CString
open Tcb.Inodes
open Tcb.SourceTree
open Tcb.Ext2fs
open Tcb.TrawlDir
open Tcb.Traced

abbrev Fd := ℕ
/-- `ext2_file_t`. -/
abbrev Handle := ℕ
abbrev Name := List Byte

/-- The two buffers with the name `buf`. -/
inductive Buffer
  | file
  | link
  deriving DecidableEq, Repr

/-- The calls that need room in a directory. -/
inductive Request
  | mkdir (dir ino : Ino) (name : Name)
  | link (dir : Ino) (name : Name) (ino : Ino) (type : FileType)
  deriving DecidableEq, Repr

def Request.dir : Request → Ino
  | mkdir dir _ _ => dir
  | link dir _ _ _ => dir

/-- A call with its answer.  `entry` is a name from `readdir`, and `closedir`
is behind the last one. -/
inductive Step
  | opendir (names : Option (List Name))
  | entry (name : Name)
  | closedir
  | lstat (name : Name) (info : Option Stat)
  | newInode (dir : Ino) (mode : Mode) (ino : Option Ino)
  | request (what : Request) (again done : Bool)
  | expandDir (what : Request) (done : Bool)
  | chdir (name : Name) (done : Bool)
  | writeNewInode (ino : Ino) (inode : Ext2Inode) (done : Bool)
  | allocStats (ino : Ino)
  | openFile (name : Name) (fd : Option Fd)
  | fileOpen (purpose : Buffer) (ino : Ino) (f : Option Handle)
  | read (fd : Fd) (count : ℕ) (bytes : Option (List Byte))
  | fileWrite (source : Buffer) (f : Handle) (held : List Byte) (count : ℕ) (out : Option ℕ)
  | fileFlush (f : Handle) (done : Bool)
  | fileClose (purpose : Buffer) (f : Option Handle) (done : Bool)
  | close (fd : Fd)
  | readlink (name : Name) (target : Option (List Byte))
  | report (failure : Failure) (name : Name)
  deriving DecidableEq

/-- The answers, and the block size of the image. -/
structure World where
  blocksize : ℕ
  opendir : List Step → Option (List Name)
  lstat : List Step → Name → Option Stat
  new_inode : List Step → Ino → Mode → Option Ino
  request : List Step → Request → Bool
  expand_dir : List Step → Ino → Bool
  chdir : List Step → Name → Bool
  write_new_inode : List Step → Ino → Ext2Inode → Bool
  openFile : List Step → Name → Option Fd
  file_open : List Step → Ino → Option Handle
  read : List Step → Fd → ℕ → Option (List Byte)
  file_write : List Step → Handle → List Byte → ℕ → Option ℕ
  file_flush : List Step → Handle → Bool
  file_close : List Step → Option Handle → Bool
  readlink : List Step → Name → Option (List Byte)

/-! ## Files and descriptors -/

/-- A file in the image that is open, with the writes that no flush or close
has brought into the image yet. -/
structure OpenFile where
  handle : Handle
  ino : Ino
  pos : ℕ
  unsaved : List (ℕ × List Byte)
  deriving DecidableEq

def OpenFile.write (file : OpenFile) (bytes : List Byte) : OpenFile :=
  { file with pos := file.pos + bytes.length, unsaved := file.unsaved ++ [(file.pos, bytes)] }

def OpenFile.saved (file : OpenFile) : OpenFile := { file with unsaved := [] }

/-- A change to the files with a handle. -/
def onHandle (f : Handle) (change : OpenFile → OpenFile) (files : List OpenFile) :
    List OpenFile :=
  files.map fun file => if file.handle = f then change file else file

def Step.files : Step → List OpenFile → List OpenFile
  | fileOpen _ ino (some f), files => ⟨f, ino, 0, []⟩ :: files
  | fileWrite _ f held count (some out), files =>
      onHandle f (·.write ((held.take count).take out)) files
  | fileFlush f true, files => onHandle f OpenFile.saved files
  | fileClose _ (some f) _, files => files.eraseP (·.handle = f)
  | _, files => files

def files (h : List Step) : List OpenFile := h.foldr Step.files []

def openFiles (h : List Step) : List Handle := (files h).map OpenFile.handle

def Step.openFds : Step → List Fd → List Fd
  | openFile _ (some fd), fds => fd :: fds
  | close fd, fds => fds.erase fd
  | _, fds => fds

def openFds (h : List Step) : List Fd := h.foldr Step.openFds []

/-! ## The program -/

abbrev Trace := Traced Step TrawlDir.ExitReason

section Program

variable (world : World)

def report (failure : Failure) (name : Name) : Trace Unit := emit (.report failure name)

def reportUnless (done : Bool) (failure : Failure) (name : Name) : Trace Unit :=
  if done then pure () else report failure name

/-- `read(fd, buf, image->blocksize)`; nothing for an end of the file and for a
failure. -/
def read (fd : Fd) : Trace (List Byte) := do
  let bytes ← perform (fun _ bytes => (bytes.getD []).length ≤ fileBuffer)
    (fun h => world.read h fd world.blocksize) (.read fd world.blocksize)
  return bytes.getD []

/-- `ext2fs_file_write(f, buf, count, &out)` from a buffer that holds some
bytes. -/
def fileWrite (source : Buffer) (f : Handle) (held : List Byte) (count : ℕ) :
    Trace (Option ℕ) :=
  perform (fun h _ => f ∈ openFiles h ∧ count ≤ held.length)
    (fun h => world.file_write h f held count) (.fileWrite source f held count)

def fileFlush (f : Handle) : Trace Bool :=
  perform (fun h _ => f ∈ openFiles h) (fun h => world.file_flush h f) (.fileFlush f)

/-- `ext2fs_file_close(f)`, where `f` may not have been set. -/
def fileClose (purpose : Buffer) (f : Option Handle) : Trace Bool :=
  perform (fun h _ => ∃ f' ∈ f, f' ∈ openFiles h) (fun h => world.file_close h f)
    (.fileClose purpose f)

/-- A call that may find a directory full: it is made again when the directory
has been expanded. -/
def retry (what : Request) (failure : Failure) (name : Name) : Trace Bool := do
  if ← call (fun h => world.request h what) (.request what false) then pure true
  else if ← call (fun h => world.expand_dir h what.dir) (.expandDir what) then
    let done ← call (fun h => world.request h what) (.request what true)
    reportUnless done failure name
    return done
  else
    report .expandDir name
    return false

def writeNewInode (failure : Failure) (name : Name) (ino : Ino) (inode : Ext2Inode) :
    Trace Unit := do
  let done ← call (fun h => world.write_new_inode h ino inode) (.writeNewInode ino inode)
  reportUnless done failure name

def linkEntry (parent : Ino) (name : Name) (ino : Ino) (type : FileType) : Trace Unit := do
  let _ ← retry world (.link parent name ino type) .failedToCopy name
  return ()

/-- What is done with a block that was read.  When the write fails the file is
closed. -/
def copyBlock (f : Handle) (name : Name) (bytes : List Byte) : Trace Unit := do
  let out ← fileWrite world .file f bytes bytes.length
  if out.any (bytes.length ≤ ·) then
    let done ← fileFlush world f
    reportUnless done .flushing name
  else
    report .copying name
    let _ ← fileClose world .file (some f)
    return ()

/-- The loop that copies a file; it goes on behind a failure. -/
def copyLoop (fd : Fd) (f : Handle) (name : Name) : ℕ → Trace Unit
  | 0 => stop .outOfFuel
  | fuel + 1 => do
      let bytes ← read world fd
      if bytes = [] then pure ()
      else
        copyBlock world f name bytes
        copyLoop fd f name fuel

/-- The loop over a file that is open in the source and in the image, the two
calls of `close`, and the entry. -/
def copyContent (fuel : ℕ) (parent new : Ino) (name : Name) (fd : Fd) (f : Handle) :
    Trace Unit := do
  copyLoop world fd f name fuel
  let done ← fileClose world .file (some f)
  reportUnless done .closing name
  emit (.close fd)
  linkEntry world parent name new .EXT2_FT_REG_FILE

def copyRegular (fuel : ℕ) (parent new : Ino) (name : Name) (info : Stat) : Trace Unit := do
  writeNewInode world .fileAttributes name new (regularInode info)
  emit (.allocStats new)
  match ← call (fun h => world.openFile h name) (.openFile name) with
  | none => report .openFile name
  | some fd =>
      match ← call (fun h => world.file_open h new) (.fileOpen .file new) with
      | none => report .createFile name
      | some f => copyContent world fuel parent new name fd f

/-- `st_size` is passed on as an `unsigned int`. -/
def writeTarget (name : Name) (info : Stat) (f : Handle) (held : List Byte) : Trace Unit := do
  let out ← fileWrite world .link f held (info.st_size % 2 ^ 32)
  reportUnless out.isSome .copyingSymlink name
  let _ ← fileClose world .link (some f)
  return ()

def copyTarget (new : Ino) (name : Name) (info : Stat) : Trace Unit := do
  match ← call (fun h => (world.readlink h name).map (·.take linkBuffer)) (.readlink name) with
  | none => report .readlink name
  | some held =>
      match ← call (fun h => world.file_open h new) (.fileOpen .link new) with
      | none => do
          report .copyingSymlink name
          let _ ← fileClose world .link none
          return ()
      | some f => writeTarget world name info f held

def copySymlink (type : FileType) (new : Ino) (name : Name) (info : Stat) : Trace Unit :=
  if type = .EXT2_FT_SYMLINK then copyTarget world new name info else pure ()

def copySpecial (parent new : Ino) (name : Name) (info : Stat) : Trace Unit :=
  match specialType info.st_mode with
  | none => report .notFileOrDir name
  | some type => do
      writeNewInode world .deviceInode name new (specialInode info)
      emit (.allocStats new)
      copySymlink world type new name info
      linkEntry world parent name new type

def chdir (name : Name) : Trace Bool := call (fun h => world.chdir h name) (.chdir name)

def copyDirectory (trawl : Ino → Trace Unit) (parent new : Ino) (name : Name) : Trace Unit := do
  if ← retry world (.mkdir parent new name) .createDir name then
    if ← chdir world name then
      trawl new
      let _ ← chdir world dotDot
      return ()
    else report .chdir name
  else pure ()

/-- What is made for an entry, by the type of its inode. -/
def copyNew (trawl : Ino → Trace Unit) (fuel : ℕ) (parent new : Ino) (name : Name)
    (info : Stat) : Trace Unit :=
  if info.st_mode &&& S_IFMT = S_IFDIR then copyDirectory world trawl parent new name
  else if info.st_mode &&& S_IFMT = S_IFREG then copyRegular world fuel parent new name info
  else copySpecial world parent new name info

/-- One round of the loop over the entries. -/
def copyEntry (trawl : Ino → Trace Unit) (fuel : ℕ) (parent : Ino) (name : Name) :
    Trace Unit := do
  emit (.entry name)
  if name = dot ∨ name = dotDot then pure ()
  else
    match ← call (fun h => world.lstat h name) (.lstat name) with
    | none => report .lstat name
    | some info =>
        match ← call (fun h => world.new_inode h parent info.st_mode)
            (.newInode parent info.st_mode) with
        | none => report .newInode name
        | some new => copyNew world trawl fuel parent new name info

/-- `trawl_dir(image, bitmap, parent_dir)` in the current directory.  The first
number bounds the depth, the second the rounds for a file. -/
def trawlDir : ℕ → ℕ → Ino → Trace Unit
  | 0, _, _ => stop .outOfFuel
  | depth + 1, fuel, parent => do
      match ← call world.opendir .opendir with
      | none => stop (.exit .cannotOpenDir)
      | some names =>
          names.forM (copyEntry world (trawlDir depth fuel) fuel parent)
          emit .closedir

end Program

/-! ## What a step does to the open files -/

section Files

variable {h : List Step}

theorem files_cons (step : Step) : files (step :: h) = step.files (files h) := rfl

theorem map_handle_onHandle {f : Handle} {change : OpenFile → OpenFile}
    (hchange : ∀ file, (change file).handle = file.handle) (files : List OpenFile) :
    (onHandle f change files).map OpenFile.handle = files.map OpenFile.handle := by
  rw [onHandle, List.map_map]
  apply List.map_congr_left
  intro file _
  by_cases hhandle : file.handle = f
  · simp only [Function.comp_apply, hhandle, if_true, hchange]
  · simp only [Function.comp_apply, hhandle, if_false]

@[simp]
theorem openFiles_fileOpen (purpose : Buffer) (ino : Ino) (f : Handle) :
    openFiles (.fileOpen purpose ino (some f) :: h) = f :: openFiles h := rfl

@[simp]
theorem openFiles_fileWrite (source : Buffer) (f : Handle) (held : List Byte) (count : ℕ)
    (out : Option ℕ) : openFiles (.fileWrite source f held count out :: h) = openFiles h := by
  cases out with
  | none => rfl
  | some out =>
      have hwrite : ∀ file : OpenFile,
          (file.write ((held.take count).take out)).handle = file.handle := fun _ => rfl
      exact map_handle_onHandle hwrite (files h)

@[simp]
theorem openFiles_fileFlush (f : Handle) (done : Bool) :
    openFiles (.fileFlush f done :: h) = openFiles h := by
  cases done with
  | false => rfl
  | true =>
      have hsaved : ∀ file : OpenFile, file.saved.handle = file.handle := fun _ => rfl
      exact map_handle_onHandle hsaved (files h)

@[simp]
theorem openFiles_fileClose (purpose : Buffer) (f : Handle) (done : Bool) :
    openFiles (.fileClose purpose (some f) done :: h) = (openFiles h).erase f := by
  have hhandle : (fun file : OpenFile => decide (file.handle = f)) =
      (fun handle => f == handle) ∘ OpenFile.handle := by
    funext file
    simp [beq_eq_decide, eq_comm]
  rw [openFiles, files_cons, List.erase_eq_eraseP, openFiles, List.eraseP_map, ← hhandle]
  rfl

end Files

/-! ## The calls of the parts -/

/-- A call that makes an entry or room for it, or a message. -/
def Step.For (what : Request) : Step → Prop
  | request what' _ _ => what' = what
  | expandDir what' _ => what' = what
  | report _ _ => True
  | _ => False

/-- A call for an inode, or a message. -/
def Step.OnInode : Step → Prop
  | writeNewInode _ _ _ | report _ _ => True
  | _ => False

/-- A call for the content of a file or a link, or a message. -/
def Step.OnContent : Step → Prop
  | read _ _ _ | fileWrite _ _ _ _ _ | fileFlush _ _ | fileClose _ _ _ => True
  | fileOpen .link _ _ | readlink _ _ | report _ _ => True
  | _ => False

section Only

variable {kind : Step → Prop} (world : World)

theorem only_report (hreport : ∀ failure name, kind (.report failure name)) (failure : Failure)
    (name : Name) : Only kind (report failure name) :=
  only_emit (hreport failure name)

theorem only_reportUnless (hreport : ∀ failure name, kind (.report failure name)) (done : Bool)
    (failure : Failure) (name : Name) : Only kind (reportUnless done failure name) := by
  rw [reportUnless]
  split
  · exact only_pure ()
  · exact only_report hreport failure name

theorem only_retry (what : Request) (failure : Failure) (name : Name) :
    Only (Step.For what) (retry world what failure name) := by
  refine only_bind (only_call fun _ => rfl) fun done => ?_
  cases done with
  | true => exact only_pure true
  | false =>
      refine only_bind (only_call fun _ => rfl) fun expanded => ?_
      cases expanded with
      | true =>
          refine only_bind (only_call fun _ => rfl) fun done => ?_
          exact only_bind (only_reportUnless (fun _ _ => trivial) _ _ _) fun _ => only_pure done
      | false =>
          exact only_bind (only_report (fun _ _ => trivial) _ _) fun _ => only_pure false

theorem only_linkEntry (parent : Ino) (name : Name) (ino : Ino) (type : FileType) :
    Only (Step.For (.link parent name ino type)) (linkEntry world parent name ino type) :=
  only_bind (only_retry world _ _ _) fun _ => only_pure ()

theorem only_writeNewInode (failure : Failure) (name : Name) (ino : Ino) (inode : Ext2Inode) :
    Only Step.OnInode (writeNewInode world failure name ino inode) :=
  only_bind (only_call fun _ => trivial) fun _ => only_reportUnless (fun _ _ => trivial) _ _ _

theorem only_fileClose (purpose : Buffer) (f : Option Handle) :
    Only Step.OnContent (fileClose world purpose f) :=
  only_perform fun _ => trivial

theorem only_copyBlock (f : Handle) (name : Name) (bytes : List Byte) :
    Only Step.OnContent (copyBlock world f name bytes) := by
  apply only_bind (only_perform fun _ => trivial)
  intro out
  split
  · apply only_bind (only_perform fun _ => trivial)
    intro done
    exact only_reportUnless (fun _ _ => trivial) _ _ _
  · apply only_bind (only_report (fun _ _ => trivial) _ _)
    intro _
    exact only_bind (only_fileClose world _ _) fun _ => only_pure ()

theorem only_copyLoop (fd : Fd) (f : Handle) (name : Name) (fuel : ℕ) :
    Only Step.OnContent (copyLoop world fd f name fuel) := by
  induction fuel with
  | zero => exact only_stop _
  | succ fuel ih =>
      refine only_bind (only_bind (only_perform fun _ => trivial) fun _ => only_pure _) ?_
      intro bytes
      split
      · exact only_pure ()
      · exact only_bind (only_copyBlock world f name bytes) fun _ => ih

theorem only_copyTarget (new : Ino) (name : Name) (info : Stat) :
    Only Step.OnContent (copyTarget world new name info) := by
  apply only_bind (only_call fun _ => trivial)
  intro target
  cases target with
  | none => exact only_report (fun _ _ => trivial) _ _
  | some held =>
      apply only_bind (only_call fun _ => trivial)
      intro f
      cases f with
      | none =>
          apply only_bind (only_report (fun _ _ => trivial) _ _)
          intro _
          exact only_bind (only_fileClose world _ none) fun _ => only_pure ()
      | some f =>
          apply only_bind (only_perform fun _ => trivial)
          intro out
          apply only_bind (only_reportUnless (fun _ _ => trivial) _ _ _)
          intro _
          exact only_bind (only_fileClose world _ _) fun _ => only_pure ()

theorem only_copySymlink (type : FileType) (new : Ino) (name : Name) (info : Stat) :
    Only Step.OnContent (copySymlink world type new name info) := by
  rw [copySymlink]
  split
  · exact only_copyTarget world new name info
  · exact only_pure ()

end Only

/-- A call that makes no entry, in the attempts to make one. -/
def Step.Attempts (what : Request) : Step → Prop
  | request what' _ done => what' = what ∧ done = false
  | expandDir what' _ => what' = what
  | report _ _ => True
  | _ => False

/-- An entry is made behind attempts, or only attempts are. -/
theorem ensures_retry {world : World} {fine ok : List Step → Step → Prop} {what : Request}
    {invariant : List Step → Prop} {h : List Step} {name : Name} (post : List Step → Prop)
    (failure : Failure)
    (hattempt : ∀ h step, step.Attempts what → invariant h → fine h step →
      ok h step ∧ invariant (step :: h))
    (hmake : ∀ h again, invariant h → fine h (.request what again true) →
      ok h (.request what again true) ∧ post (.request what again true :: h))
    (hstart : invariant h) :
    Ensures fine ok (retry world what failure name)
      (fun made h' => if made then post h' else invariant h') h := by
  have hrequest : ∀ h again, invariant h → Ensures fine ok
      (call (fun h => world.request h what) (.request what again) : Trace Bool)
      (fun made h' => if made then post h' else invariant h') h := by
    intro h again hinvariant
    apply ensures_call
    intro hfine
    cases hdone : world.request h what with
    | true => exact hmake h again hinvariant (hdone ▸ hfine)
    | false => exact hattempt h _ ⟨rfl, rfl⟩ hinvariant (hdone ▸ hfine)
  have hreport : ∀ h failure, invariant h →
      Ensures fine ok (report failure name) (fun _ => invariant) h := fun h failure hinvariant =>
    ensures_emit fun hfine => hattempt h _ trivial hinvariant hfine
  apply (hrequest h false hstart).bind
  intro made h' _ hmade
  cases made with
  | true => exact ensures_pure hmade
  | false =>
      refine ensures_bind (ensures_call fun hfine => ?_)
      generalize world.expand_dir h' what.dir = expanded at hfine ⊢
      obtain ⟨hok, hinvariant⟩ := hattempt h' (.expandDir what expanded) rfl hmade hfine
      refine ⟨hok, ?_⟩
      cases expanded with
      | true =>
          apply (hrequest _ true hinvariant).bind
          intro made h' _ hmade
          cases made with
          | true => exact ensures_bind (ensures_pure (ensures_pure hmade))
          | false =>
              apply (hreport h' failure hmade).bind
              intro _ h' _ hinvariant
              refine ensures_pure ?_
              exact hinvariant
      | false =>
          apply (hreport _ .expandDir hinvariant).bind
          intro _ h' _ hinvariant
          refine ensures_pure ?_
          exact hinvariant

/-- What every entry keeps is kept by a directory, by induction on the depth. -/
theorem ensures_trawlDir {world : World} {fine ok : List Step → Step → Prop}
    {invariant : Ino → List Step → Prop} {fuel : ℕ}
    (hopen : ∀ parent h names, invariant parent h → ok h (.opendir names) ∧
      invariant parent (.opendir names :: h))
    (hentry : ∀ trawl : Ino → Trace Unit,
      (∀ ino h, invariant ino h → Ensures fine ok (trawl ino) (fun _ => invariant ino) h) →
      ∀ parent name h, invariant parent h →
        Ensures fine ok (copyEntry world trawl fuel parent name) (fun _ => invariant parent) h)
    (hclose : ∀ parent h, invariant parent h → ok h .closedir ∧
      invariant parent (.closedir :: h))
    (depth : ℕ) (parent : Ino) (h : List Step) (hstart : invariant parent h) :
    Ensures fine ok (trawlDir world depth fuel parent) (fun _ => invariant parent) h := by
  induction depth generalizing parent h with
  | zero => exact ensures_stop _
  | succ depth ih =>
      apply ensures_bind
      apply ensures_call
      intro _
      obtain ⟨hok, hopened⟩ := hopen parent h (world.opendir h) hstart
      refine ⟨hok, ?_⟩
      cases hnames : world.opendir h with
      | none => exact ensures_stop _
      | some names =>
          rw [hnames] at hopened
          have hloop : Ensures fine ok
              (names.forM (copyEntry world (trawlDir world depth fuel) fuel parent))
              (fun _ => invariant parent) (.opendir (some names) :: h) :=
            ensures_forM (fun name _ h hinvariant => hentry _ ih parent name h hinvariant) hopened
          apply hloop.bind
          intro _ h' _ hinvariant
          exact ensures_emit fun _ => hclose parent h' hinvariant

/-! ## Why a run stops -/

/-- The call has a defined effect. -/
def Defined (h : List Step) : Step → Prop
  | .read _ _ bytes => (bytes.getD []).length ≤ fileBuffer
  | .fileWrite _ f held count _ => f ∈ openFiles h ∧ count ≤ held.length
  | .fileFlush f _ => f ∈ openFiles h
  | .fileClose _ f _ => ∃ f' ∈ f, f' ∈ openFiles h
  | _ => True

/-- A run that does not return was cut off, has found a directory that cannot
be opened, or has made a call without a defined effect. -/
def Cause (reason : Run.Stop TrawlDir.ExitReason) (h : List Step) : Prop :=
  match reason with
  | .outOfFuel => True
  | .exit _ => ∃ h', h = .opendir none :: h'
  | .fault _ => ∃ step h', h = step :: h' ∧ ¬ Defined h' step

section Stops

variable (world : World) {h : List Step}

theorem stops_report (failure : Failure) (name : Name) : Stops Cause (report failure name) h :=
  stops_emit (Step.report failure name)

theorem stops_reportUnless (done : Bool) (failure : Failure) (name : Name) :
    Stops Cause (reportUnless done failure name) h := by
  rw [reportUnless]
  split
  · exact stops_pure ()
  · exact stops_report failure name

theorem stops_retry (what : Request) (failure : Failure) (name : Name) :
    Stops Cause (retry world what failure name) h := by
  refine Stops.bind stops_call fun done _ => ?_
  cases done with
  | true => exact stops_pure true
  | false =>
      refine Stops.bind stops_call fun expanded _ => ?_
      cases expanded with
      | true =>
          refine Stops.bind stops_call ?_
          exact fun done _ => (stops_reportUnless done failure name).bind fun _ _ => stops_pure done
      | false => exact (stops_report .expandDir name).bind fun _ _ => stops_pure false

theorem stops_linkEntry (parent : Ino) (name : Name) (ino : Ino) (type : FileType) :
    Stops Cause (linkEntry world parent name ino type) h :=
  (stops_retry world _ _ name).bind fun _ _ => stops_pure ()

theorem stops_writeNewInode (failure : Failure) (name : Name) (ino : Ino) (inode : Ext2Inode) :
    Stops Cause (writeNewInode world failure name ino inode) h :=
  stops_call.bind fun done _ => stops_reportUnless done failure name

theorem stops_fileWrite (source : Buffer) (f : Handle) (held : List Byte) (count : ℕ) :
    Stops Cause (fileWrite world source f held count) h :=
  stops_perform fun hundefined => ⟨_, h, rfl, hundefined⟩

theorem stops_fileClose (purpose : Buffer) (f : Option Handle) :
    Stops Cause (fileClose world purpose f) h :=
  stops_perform fun hundefined => ⟨_, h, rfl, hundefined⟩

theorem stops_copyBlock (f : Handle) (name : Name) (bytes : List Byte) :
    Stops Cause (copyBlock world f name bytes) h := by
  refine Stops.bind (stops_fileWrite world .file f bytes bytes.length) fun out h' => ?_
  split
  · have hflush : Stops Cause (fileFlush world f) h' :=
      stops_perform fun hundefined => ⟨_, h', rfl, hundefined⟩
    exact hflush.bind fun done _ => stops_reportUnless done .flushing name
  · refine Stops.bind (stops_report .copying name) ?_
    exact fun _ _ => (stops_fileClose world .file (some f)).bind fun _ _ => stops_pure ()

theorem stops_copyLoop (fd : Fd) (f : Handle) (name : Name) (fuel : ℕ) :
    Stops Cause (copyLoop world fd f name fuel) h := by
  induction fuel generalizing h with
  | zero => exact stops_stop trivial
  | succ fuel ih =>
      have hread : Stops Cause (read world fd) h := by
        refine Stops.bind (stops_perform fun hundefined => ?_) fun _ _ => stops_pure _
        exact ⟨_, h, rfl, hundefined⟩
      refine Stops.bind hread fun bytes h' => ?_
      split
      · exact stops_pure ()
      · exact (stops_copyBlock world f name bytes).bind fun _ _ => ih

theorem stops_copyContent (fuel : ℕ) (parent new : Ino) (name : Name) (fd : Fd) (f : Handle) :
    Stops Cause (copyContent world fuel parent new name fd f) h := by
  refine Stops.bind (stops_copyLoop world fd f name fuel) fun _ _ => ?_
  refine Stops.bind (stops_fileClose world .file (some f)) fun done _ => ?_
  refine Stops.bind (stops_reportUnless done .closing name) fun _ _ => ?_
  exact stops_call.bind fun _ _ => stops_linkEntry world parent name new .EXT2_FT_REG_FILE

theorem stops_copyRegular (fuel : ℕ) (parent new : Ino) (name : Name) (info : Stat) :
    Stops Cause (copyRegular world fuel parent new name info) h := by
  refine Stops.bind (stops_writeNewInode world .fileAttributes name new (regularInode info))
    fun _ _ => ?_
  refine Stops.bind stops_call fun _ _ => ?_
  refine Stops.bind stops_call fun fd _ => ?_
  cases fd with
  | none => exact stops_report .openFile name
  | some fd =>
      refine Stops.bind stops_call fun f _ => ?_
      cases f with
      | none => exact stops_report .createFile name
      | some f => exact stops_copyContent world fuel parent new name fd f

theorem stops_copyTarget (new : Ino) (name : Name) (info : Stat) :
    Stops Cause (copyTarget world new name info) h := by
  refine Stops.bind stops_call fun target _ => ?_
  cases target with
  | none => exact stops_report .readlink name
  | some held =>
      refine Stops.bind stops_call fun f _ => ?_
      cases f with
      | none =>
          refine Stops.bind (stops_report .copyingSymlink name) ?_
          exact fun _ _ => (stops_fileClose world .link none).bind fun _ _ => stops_pure ()
      | some f =>
          refine Stops.bind (stops_fileWrite world .link f held (info.st_size % 2 ^ 32))
            fun out _ => ?_
          refine Stops.bind (stops_reportUnless out.isSome .copyingSymlink name) ?_
          exact fun _ _ => (stops_fileClose world .link (some f)).bind fun _ _ => stops_pure ()

theorem stops_copySpecial (parent new : Ino) (name : Name) (info : Stat) :
    Stops Cause (copySpecial world parent new name info) h := by
  rw [copySpecial]
  split
  · exact stops_report .notFileOrDir name
  · rename_i type _
    refine Stops.bind (stops_writeNewInode world .deviceInode name new (specialInode info))
      fun _ _ => ?_
    refine Stops.bind stops_call fun _ h' => ?_
    have hsymlink : Stops Cause (copySymlink world type new name info) h' := by
      rw [copySymlink]
      split
      · exact stops_copyTarget world new name info
      · exact stops_pure ()
    exact hsymlink.bind fun _ _ => stops_linkEntry world parent name new type

theorem stops_copyDirectory {trawl : Ino → Trace Unit} (htrawl : ∀ ino h, Stops Cause (trawl ino) h)
    (parent new : Ino) (name : Name) :
    Stops Cause (copyDirectory world trawl parent new name) h := by
  refine Stops.bind (stops_retry world (.mkdir parent new name) .createDir name) fun made _ => ?_
  cases made with
  | false => exact stops_pure ()
  | true =>
      refine Stops.bind stops_call fun entered _ => ?_
      cases entered with
      | false => exact stops_report .chdir name
      | true =>
          refine Stops.bind (htrawl new _) ?_
          exact fun _ _ => stops_call.bind fun _ _ => stops_pure ()

theorem stops_copyEntry {trawl : Ino → Trace Unit} (htrawl : ∀ ino h, Stops Cause (trawl ino) h)
    (fuel : ℕ) (parent : Ino) (name : Name) :
    Stops Cause (copyEntry world trawl fuel parent name) h := by
  refine Stops.bind stops_call fun _ _ => ?_
  split
  · exact stops_pure ()
  · refine Stops.bind stops_call fun info _ => ?_
    cases info with
    | none => exact stops_report .lstat name
    | some info =>
        refine Stops.bind stops_call fun new _ => ?_
        cases new with
        | none => exact stops_report .newInode name
        | some new =>
            simp only [copyNew]
            split
            · exact stops_copyDirectory world htrawl parent new name
            · split
              · exact stops_copyRegular world fuel parent new name info
              · exact stops_copySpecial world parent new name info

theorem stops_trawlDir (depth fuel : ℕ) (parent : Ino) :
    Stops Cause (trawlDir world depth fuel parent) h := by
  induction depth generalizing parent h with
  | zero => exact stops_stop trivial
  | succ depth ih =>
      intro reason hstop
      have hentries : ∀ name h,
          Stops Cause (copyEntry world (trawlDir world depth fuel) fuel parent name) h :=
        fun name _ => stops_copyEntry world (fun ino _ => ih ino) fuel parent name
      cases hnames : world.opendir h with
      | none =>
          have hexec : (trawlDir world (depth + 1) fuel parent).exec h =
              (.opendir none :: h, .error (.exit .cannotOpenDir)) := by
            simp only [trawlDir, exec_bind, call, exec_perform, if_true, hnames]
            rfl
          rw [hexec] at hstop ⊢
          rw [Except.error.injEq] at hstop
          exact hstop ▸ ⟨h, rfl⟩
      | some names =>
          have hexec : (trawlDir world (depth + 1) fuel parent).exec h =
              (names.forM (copyEntry world (trawlDir world depth fuel) fuel parent) >>= fun _ =>
                emit .closedir).exec (.opendir (some names) :: h) := by
            simp only [trawlDir, exec_bind, call, exec_perform, if_true, hnames]
          rw [hexec] at hstop ⊢
          exact (stops_forM hentries).bind (fun _ _ => stops_call) reason hstop

end Stops

end Tcb.Calls
