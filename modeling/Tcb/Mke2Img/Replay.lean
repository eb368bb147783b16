import Tcb.Mke2Img.Answers

/-!
# The calls of a library

A library and a tree answer every call: what the steps before it have made of
the image and of the open files is found by going through them again.  With
these answers the copy that makes its calls one by one ends like the copy that
hands an image from call to call.
-/

namespace Tcb.Replay

open Function
open Tcb.CString
open Tcb.Inodes
open Tcb.SourceTree
open Tcb.Ext2fs
open Tcb.TrawlDir (Failure State fileBuffer linkBuffer regularInode specialInode specialType)
open Tcb.Traced
open Tcb.Calls

/-- The image behind a call: a call that fails changes nothing. -/
def kept {lib : Library} (image : lib.Image) (result : Except lib.Errcode lib.Image) :
    lib.Image :=
  match result with
  | .ok image' => image'
  | .error _ => image

/-- An image and the files that are open in it. -/
structure Session (lib : Library) where
  image : lib.Image
  file : Handle → Option lib.File

/-- The call for an entry. -/
def make (lib : Library) : Request → lib.Image → Except lib.Errcode lib.Image
  | .mkdir dir ino name, image => lib.mkdir image dir ino name
  | .link dir name ino type, image => lib.link image dir name ino type

namespace Session

variable {lib : Library} (session : Session lib)

/-- The image behind a call. -/
def keep (result : Except lib.Errcode lib.Image) : Session lib :=
  { session with image := kept session.image result }

/-- The library does what a step asks for. -/
def step : Step → Session lib
  | .request what _ _ => session.keep (make lib what session.image)
  | .expandDir what _ => session.keep (lib.expand_dir session.image what.dir)
  | .writeNewInode ino inode _ => session.keep (lib.write_new_inode session.image ino inode)
  | .allocStats ino => { session with image := lib.inode_alloc_stats2 session.image ino 1 1 }
  | .fileOpen _ ino (some f) =>
      match lib.file_open session.image ino with
      | .ok file => { session with file := update session.file f (some file) }
      | .error _ => session
  | .fileWrite _ f held count _ =>
      match session.file f with
      | none => session
      | some file =>
          match lib.file_write session.image file (held.take count) with
          | .ok (_, image, file) => ⟨image, update session.file f (some file)⟩
          | .error _ => session
  | .fileFlush f _ =>
      match session.file f with
      | none => session
      | some file =>
          match lib.file_flush session.image file with
          | .ok (image, file) => ⟨image, update session.file f (some file)⟩
          | .error _ => session
  | .fileClose _ (some f) _ =>
      match session.file f with
      | none => session
      | some file => session.keep (lib.file_close session.image file)
  | _ => session

end Session

section World

variable {lib : Library}

/-- What the steps have come to, from an image in which nothing is open. -/
def session (image : lib.Image) (h : List Step) : Session lib :=
  h.foldr (fun step session => session.step step) ⟨image, fun _ => none⟩

/-- The answers of a tree and a library that begins with an image. -/
def answers (tree : Tree) (image : lib.Image) : World where
  blocksize := lib.blocksize
  opendir h := tree.opendir (cwd h)
  lstat h name := tree.lstat (cwd h) name
  new_inode h dir mode := (lib.new_inode (session image h).image dir mode).toOption
  request h what := (make lib what (session image h).image).isOk
  expand_dir h dir := (lib.expand_dir (session image h).image dir).isOk
  chdir h name := (tree.chdir (cwd h) name).isSome
  write_new_inode h ino inode := (lib.write_new_inode (session image h).image ino inode).isOk
  openFile h name := (tree.openFile (cwd h) name).map fun _ => h.length
  file_open h ino := (lib.file_open (session image h).image ino).toOption.map fun _ => h.length
  read h fd count := (source fd h).bind fun place =>
    (tree.node place.1).map fun node => (node.data.drop place.2).take count
  file_write h f held count := ((session image h).file f).bind fun file =>
    (lib.file_write (session image h).image file (held.take count)).toOption.map fun out => out.1
  file_flush h f := ((session image h).file f).any fun file =>
    (lib.file_flush (session image h).image file).isOk
  file_close h f := (f.bind (session image h).file).any fun file =>
    (lib.file_close (session image h).image file).isOk
  readlink h name := (tree.node (cwd h ++ [name])).bind fun node =>
    if node.isLnk then some node.data else none

theorem answers_tree (tree : Tree) (image : lib.Image) : Answers tree (answers tree image) :=
  Answers.of_tree rfl rfl rfl

end World

/-! ## Between two entries -/

/-- The image and the directory are those of the other copy, and nothing is
open. -/
structure At {lib : Library} (start : lib.Image) (state : State lib) (h : List Step) : Prop where
  image : (session start h).image = state.image
  cwd : cwd h = state.cwd
  closed : openFiles h = []

section Parts

variable {lib : Library} {tree : Tree} {start image : lib.Image} {here : Path} {h : List Step}
  {name : Name} {state : State lib}

theorem session_cons (start : lib.Image) (step : Step) (h : List Step) :
    session start (step :: h) = (session start h).step step := rfl

theorem At.report (hat : At start state h) (failure : Failure) (name : Name) :
    At start state (.report failure name :: h) :=
  ⟨hat.image, hat.cwd, hat.closed⟩

/-- A step that neither opens nor closes a file, when its call succeeds. -/
theorem At.ok (hat : At start ⟨here, image⟩ h) (step : Step) {image' : lib.Image}
    (result : lib.Image → Except lib.Errcode lib.Image) (hresult : result image = .ok image')
    (hstep : ∀ session : Session lib, session.step step = session.keep (result session.image))
    (hcwd : Calls.cwd (step :: h) = Calls.cwd h)
    (hopen : openFiles (step :: h) = openFiles h) : At start ⟨here, image'⟩ (step :: h) := by
  refine ⟨?_, hcwd.trans hat.cwd, hopen.trans hat.closed⟩
  have himage : (session start h).image = image := hat.image
  rw [session_cons, hstep, Session.keep, himage, hresult]
  rfl

/-- A step that neither opens nor closes a file, when its call fails. -/
theorem At.error (hat : At start ⟨here, image⟩ h) (step : Step) {code : lib.Errcode}
    (result : lib.Image → Except lib.Errcode lib.Image) (hresult : result image = .error code)
    (hstep : ∀ session : Session lib, session.step step = session.keep (result session.image))
    (hcwd : Calls.cwd (step :: h) = Calls.cwd h)
    (hopen : openFiles (step :: h) = openFiles h) : At start ⟨here, image⟩ (step :: h) := by
  refine ⟨?_, hcwd.trans hat.cwd, hopen.trans hat.closed⟩
  have himage : (session start h).image = image := hat.image
  rw [session_cons, hstep, Session.keep, himage, hresult]
  rfl

theorem request_eq (hat : At start ⟨here, image⟩ h) (what : Request) :
    (answers tree start).request h what = (make lib what image).isOk := by
  rw [← show (session start h).image = image from hat.image]
  rfl

theorem expandDir_eq (hat : At start ⟨here, image⟩ h) (dir : Ino) :
    (answers tree start).expand_dir h dir = (lib.expand_dir image dir).isOk := by
  rw [← show (session start h).image = image from hat.image]
  rfl

theorem report_follows_bind {α β : Type} {next : Unit → Trace α}
    {run : Run TrawlDir.ExitReason β} {post : α → β → List Step → Prop} (failure : Failure)
    (hnext : Follows (next ()) run post (.report failure name :: h)) :
    Follows (Calls.report failure name >>= next) run post h := by
  rw [Calls.report]
  exact follows_emit_bind hnext

theorem report_follows {β : Type} {right : β} {post : Unit → β → List Step → Prop}
    (failure : Failure) (hpost : post () right (.report failure name :: h)) :
    Follows (Calls.report failure name) (.ok right) post h := by
  rw [Calls.report]
  exact follows_emit hpost

/-- Both make the entry, or both give up. -/
theorem retry_follows (what : Request) (path : Path) (failure : Failure)
    (hat : At start ⟨here, image⟩ h) :
    Follows (Calls.retry (answers tree start) what failure name)
      (TrawlDir.retry lib (make lib what) what.dir path failure image).run
      (fun made out h' => made = out.2 ∧ At start ⟨here, out.1⟩ h') h := by
  rw [TrawlDir.retry]
  apply follows_isOk (request_eq hat what)
  · intro image' hmake
    have hmade := hat.ok (.request what false true) _ hmake (fun _ => rfl) rfl rfl
    rw [hmake]
    exact follows_pure ⟨rfl, hmade⟩
  · intro code hmake
    have hfull := hat.error (.request what false false) _ hmake (fun _ => rfl) rfl rfl
    rw [hmake]
    apply follows_isOk (expandDir_eq hfull what.dir)
    · intro expanded hexpand
      have hroom := hfull.ok (.expandDir what true)
        (fun image => lib.expand_dir image what.dir) hexpand (fun _ => rfl) rfl rfl
      rw [hexpand]
      apply follows_isOk (request_eq hroom what)
      · intro image' hmake
        have hmade := hroom.ok (.request what true true) _ hmake (fun _ => rfl) rfl rfl
        dsimp only
        rw [hmake]
        exact follows_pure ⟨rfl, hmade⟩
      · intro code hmake
        have hfailed := hroom.error (.request what true false) _ hmake (fun _ => rfl) rfl rfl
        dsimp only
        rw [hmake]
        exact report_follows_bind failure (follows_pure ⟨rfl, hfailed.report _ _⟩)
    · intro code hexpand
      have hfailed := hfull.error (.expandDir what false)
        (fun image => lib.expand_dir image what.dir) hexpand (fun _ => rfl) rfl rfl
      rw [hexpand]
      exact report_follows_bind .expandDir (follows_pure ⟨rfl, hfailed.report _ _⟩)

theorem linkEntry_follows (parent new : Ino) (path : Path) (type : FileType)
    (hat : At start ⟨here, image⟩ h) :
    Follows (Calls.linkEntry (answers tree start) parent name new type)
      (TrawlDir.linkEntry lib parent path name new type image).run
      (fun _ image' h' => At start ⟨here, image'⟩ h') h := by
  rw [TrawlDir.linkEntry, Logged.run_bind]
  apply (retry_follows (.link parent name new type) path .failedToCopy hat).bind
  rintro made ⟨image', done⟩ h' ⟨-, hat⟩
  cases done with
  | true => exact follows_pure hat
  | false => exact follows_pure hat

theorem writeNewInode_follows (path : Path) (failure : Failure) (new : Ino) (inode : Ext2Inode)
    (hat : At start ⟨here, image⟩ h) :
    Follows (Calls.writeNewInode (answers tree start) failure name new inode)
      (TrawlDir.writeNewInode lib path failure image new inode).run
      (fun _ image' h' => At start ⟨here, image'⟩ h') h := by
  have hwrite : (answers tree start).write_new_inode h new inode =
      (lib.write_new_inode image new inode).isOk := by
    rw [← show (session start h).image = image from hat.image]
    rfl
  rw [TrawlDir.writeNewInode]
  apply follows_isOk hwrite
  · intro image' hresult
    have hwritten := hat.ok (.writeNewInode new inode true)
      (fun image => lib.write_new_inode image new inode) hresult (fun _ => rfl) rfl rfl
    rw [hresult]
    exact follows_pure hwritten
  · intro code hresult
    have hfailed := hat.error (.writeNewInode new inode false)
      (fun image => lib.write_new_inode image new inode) hresult (fun _ => rfl) rfl rfl
    rw [hresult]
    exact report_follows failure (hfailed.report _ _)

/-- A step that is no call of the library. -/
theorem At.other (hat : At start state h) {step : Step}
    (hstep : ∀ session : Session lib, session.step step = session)
    (hcwd : Calls.cwd (step :: h) = Calls.cwd h)
    (hopen : openFiles (step :: h) = openFiles h) : At start state (step :: h) := by
  refine ⟨?_, hcwd.trans hat.cwd, hopen.trans hat.closed⟩
  rw [session_cons, hstep]
  exact hat.image

/-- The inode is marked. -/
theorem At.allocStats (hat : At start ⟨here, image⟩ h) (new : Ino) :
    At start ⟨here, lib.inode_alloc_stats2 image new 1 1⟩ (.allocStats new :: h) := by
  refine ⟨?_, hat.cwd, hat.closed⟩
  have himage : (session start h).image = image := hat.image
  rw [session_cons, Session.step, himage]

end Parts

/-! ## While a file is open -/

/-- The file is open in both copies, and no other. -/
structure Writing {lib : Library} (start : lib.Image) (here : Path) (f : Handle)
    (image : lib.Image) (file : lib.File) (h : List Step) : Prop where
  image : (session start h).image = image
  cwd : cwd h = here
  opened : openFiles h = [f]
  file : (session start h).file f = some file

section Files

variable {lib : Library} {tree : Tree} {start image image' : lib.Image} {here : Path}
  {h : List Step} {name : Name} {f : Handle} {file file' : lib.File} {held : List Byte}
  {count out : ℕ}

theorem At.fileOpen (hat : At start ⟨here, image⟩ h) {ino : Ino} (purpose : Buffer)
    (hopen : lib.file_open image ino = .ok file) :
    Writing start here f image file (.fileOpen purpose ino (some f) :: h) := by
  have hsession : session start (.fileOpen purpose ino (some f) :: h) =
      ⟨image, update (session start h).file f (some file)⟩ := by
    rw [session_cons, Session.step, show (session start h).image = image from hat.image, hopen]
  refine ⟨?_, hat.cwd, ?_, ?_⟩
  · rw [hsession]
  · rw [openFiles_fileOpen, hat.closed]
  · rw [hsession]
    exact update_self _ _ _

theorem Writing.report (hwriting : Writing start here f image file h) (failure : Failure)
    (name : Name) : Writing start here f image file (.report failure name :: h) :=
  ⟨hwriting.image, hwriting.cwd, hwriting.opened, hwriting.file⟩

theorem Writing.write (hwriting : Writing start here f image file h) (source : Buffer)
    (answer : Option ℕ)
    (hwrite : lib.file_write image file (held.take count) = .ok (out, image', file')) :
    Writing start here f image' file' (.fileWrite source f held count answer :: h) := by
  have hsession : session start (.fileWrite source f held count answer :: h) =
      ⟨image', update (session start h).file f (some file')⟩ := by
    simp only [session_cons, Session.step, hwriting.file, hwriting.image, hwrite]
  refine ⟨?_, hwriting.cwd, ?_, ?_⟩
  · rw [hsession]
  · rw [openFiles_fileWrite, hwriting.opened]
  · rw [hsession]
    exact update_self _ _ _

theorem Writing.write_error (hwriting : Writing start here f image file h) (source : Buffer)
    (answer : Option ℕ) {code : lib.Errcode}
    (hwrite : lib.file_write image file (held.take count) = .error code) :
    Writing start here f image file (.fileWrite source f held count answer :: h) := by
  have hsession : session start (.fileWrite source f held count answer :: h) =
      session start h := by
    simp only [session_cons, Session.step, hwriting.file, hwriting.image, hwrite]
  refine ⟨?_, hwriting.cwd, ?_, ?_⟩
  · rw [hsession, hwriting.image]
  · rw [openFiles_fileWrite, hwriting.opened]
  · rw [hsession, hwriting.file]

theorem Writing.flush (hwriting : Writing start here f image file h) (done : Bool)
    (hflush : lib.file_flush image file = .ok (image', file')) :
    Writing start here f image' file' (.fileFlush f done :: h) := by
  have hsession : session start (.fileFlush f done :: h) =
      ⟨image', update (session start h).file f (some file')⟩ := by
    simp only [session_cons, Session.step, hwriting.file, hwriting.image, hflush]
  refine ⟨?_, hwriting.cwd, ?_, ?_⟩
  · rw [hsession]
  · rw [openFiles_fileFlush, hwriting.opened]
  · rw [hsession]
    exact update_self _ _ _

theorem Writing.flush_error (hwriting : Writing start here f image file h) (done : Bool)
    {code : lib.Errcode} (hflush : lib.file_flush image file = .error code) :
    Writing start here f image file (.fileFlush f done :: h) := by
  have hsession : session start (.fileFlush f done :: h) = session start h := by
    simp only [session_cons, Session.step, hwriting.file, hwriting.image, hflush]
  refine ⟨?_, hwriting.cwd, ?_, ?_⟩
  · rw [hsession, hwriting.image]
  · rw [openFiles_fileFlush, hwriting.opened]
  · rw [hsession, hwriting.file]

/-- The file is closed, whether the call succeeds or fails. -/
theorem Writing.close (hwriting : Writing start here f image file h) (purpose : Buffer)
    (done : Bool) :
    At start ⟨here, kept image (lib.file_close image file)⟩
      (.fileClose purpose (some f) done :: h) := by
  refine ⟨?_, hwriting.cwd, ?_⟩
  · rw [session_cons, Session.step, hwriting.file]
    dsimp only
    rw [Session.keep, hwriting.image]
  · rw [openFiles_fileClose, hwriting.opened, List.erase_cons_head]

theorem fileWrite_eq (hwriting : Writing start here f image file h) (held : List Byte)
    (count : ℕ) : (answers tree start).file_write h f held count =
      (lib.file_write image file (held.take count)).toOption.map fun out => out.1 := by
  have hanswer : (answers tree start).file_write h f held count =
      ((session start h).file f).bind fun file => (lib.file_write (session start h).image file
        (held.take count)).toOption.map fun out => out.1 := rfl
  rw [hanswer, hwriting.file, hwriting.image]
  rfl

theorem fileFlush_eq (hwriting : Writing start here f image file h) :
    (answers tree start).file_flush h f = (lib.file_flush image file).isOk := by
  have hanswer : (answers tree start).file_flush h f = ((session start h).file f).any fun file =>
      (lib.file_flush (session start h).image file).isOk := rfl
  rw [hanswer, hwriting.file, hwriting.image]
  rfl

theorem fileClose_eq (hwriting : Writing start here f image file h) :
    (answers tree start).file_close h (some f) = (lib.file_close image file).isOk := by
  have hanswer : (answers tree start).file_close h (some f) =
      ((session start h).file f).any fun file =>
        (lib.file_close (session start h).image file).isOk := rfl
  rw [hanswer, hwriting.file, hwriting.image]
  rfl

/-- The file is open, or it was closed when a write had failed. -/
def Copying (start : lib.Image) (here : Path) (f : Handle) (state : lib.Image × Option lib.File)
    (h : List Step) : Prop :=
  match state.2 with
  | none => At start ⟨here, state.1⟩ h
  | some file => Writing start here f state.1 file h

theorem closeBroken_eq (image : lib.Image) (file : lib.File) :
    TrawlDir.closeBroken lib image file = kept image (lib.file_close image file) := by
  rw [TrawlDir.closeBroken]
  cases lib.file_close image file <;> rfl

/-- The file is closed in both copies, with a message. -/
theorem closeBroken_follows (fd : Fd) (hwriting : Writing start here f image file h) :
    Follows (do
        Calls.report .copying name
        let _ ← Calls.fileClose (answers tree start) .file (some f)
        return ())
      (.ok (TrawlDir.closeBroken lib image file, none))
      (fun _ state' h' => Copying start here f state' h' ∧ source fd h' = source fd h) h := by
  have hreported := hwriting.report .copying name
  have hopened : f ∈ openFiles (.report .copying name :: h) :=
    hreported.opened ▸ List.mem_singleton_self f
  apply report_follows_bind
  apply follows_perform_bind ⟨f, rfl, hopened⟩
  rw [closeBroken_eq]
  exact follows_pure ⟨hreported.close .file _, rfl⟩

/-- A block is written in both copies, or the file is closed, or was. -/
theorem copyBlock_follows (path : Path) {state : lib.Image × Option lib.File} {block : List Byte}
    (hblock : block.length ≤ fileBuffer) (hcopying : Copying start here f state h) (fd : Fd) :
    Follows (Calls.copyBlock (answers tree start) f name block)
      (TrawlDir.copyBlock lib path state block).run
      (fun _ state' h' => Copying start here f state' h' ∧ source fd h' = source fd h) h := by
  obtain ⟨image, _ | file⟩ := state
  · have hat : At start ⟨here, image⟩ h := hcopying
    have hfault : (TrawlDir.copyBlock lib path (image, none) block).run =
        Run.fault .outOfBounds := by
      rw [TrawlDir.copyBlock, Run.require_pos hblock]
      rfl
    rw [hfault]
    apply follows_perform_fault
    rw [hat.closed]
    exact fun hopen => absurd hopen.1 List.not_mem_nil
  · have hwriting : Writing start here f image file h := hcopying
    have hopened : f ∈ openFiles h := hwriting.opened ▸ List.mem_singleton_self f
    have hwhole : block.take block.length = block := List.take_length
    rw [TrawlDir.copyBlock, Run.require_pos hblock, Logged.quiet_ok, Logged.pure_bind]
    dsimp only
    apply follows_perform_bind ⟨hopened, le_rfl⟩
    have hanswer : (answers tree start).file_write h f block block.length =
        (lib.file_write image file block).toOption.map fun out => out.1 := by
      rw [fileWrite_eq hwriting, hwhole]
    rw [hanswer]
    cases hwrite : lib.file_write image file block with
    | error code =>
        exact closeBroken_follows fd (hwriting.write_error .file none (hwhole.symm ▸ hwrite))
    | ok written =>
        obtain ⟨out, image', file'⟩ := written
        have hwritten : Writing start here f image' file'
            (.fileWrite .file f block block.length (some out) :: h) :=
          hwriting.write .file (some out) (hwhole.symm ▸ hwrite)
        have hopened' : f ∈ openFiles (.fileWrite .file f block block.length (some out) :: h) :=
          hwritten.opened ▸ List.mem_singleton_self f
        have hout : (Except.ok (out, image', file') : Except lib.Errcode _).toOption.map
            (fun out => out.1) = some out := rfl
        rw [hout]
        dsimp only
        by_cases hshort : out < block.length
        · have hany : ¬ (some out).any (block.length ≤ ·) = true := by simpa using hshort
          rw [if_neg hany, if_pos hshort]
          exact closeBroken_follows fd hwritten
        · have hany : (some out).any (block.length ≤ ·) = true := by simpa using hshort
          rw [if_pos hany, if_neg hshort]
          apply follows_perform_bind hopened'
          rw [fileFlush_eq hwritten]
          cases hflush : lib.file_flush image' file' with
          | ok flushed =>
              obtain ⟨image'', file''⟩ := flushed
              exact follows_pure ⟨hwritten.flush true hflush, rfl⟩
          | error code =>
              have hfailed := hwritten.flush_error false hflush
              exact report_follows .flushing ⟨hfailed.report _ _, rfl⟩

/-- What is read of a file that stands at a place in the tree. -/
theorem read_eq {fd : Fd} {at' : Path × ℕ} {node : Node} (hsource : source fd h = some at')
    (hnode : tree.node at'.1 = some node) (count : ℕ) :
    (answers tree start).read h fd count = some ((node.data.drop at'.2).take count) := by
  have hanswer : (answers tree start).read h fd count = (source fd h).bind fun place =>
      (tree.node place.1).map fun node => (node.data.drop place.2).take count := rfl
  rw [hanswer, hsource, Option.bind_some, hnode]
  rfl

theorem Copying.read {state : lib.Image × Option lib.File} (hcopying : Copying start here f state h)
    (fd : Fd) (count : ℕ) (bytes : Option (List Byte)) :
    Copying start here f state (.read fd count bytes :: h) := by
  obtain ⟨image, _ | file⟩ := state
  · have hat : At start ⟨here, image⟩ h := hcopying
    exact ⟨hat.image, hat.cwd, hat.closed⟩
  · have hwriting : Writing start here f image file h := hcopying
    exact ⟨hwriting.image, hwriting.cwd, hwriting.opened, hwriting.file⟩

theorem read_follows {post : List Byte → List Step → Prop} {fd : Fd} {block : List Byte}
    (hread : (answers tree start).read h fd lib.blocksize = some block)
    (hblock : block.length ≤ fileBuffer)
    (hpost : post block (.read fd lib.blocksize (some block) :: h)) :
    Follows (Calls.read (answers tree start) fd) (.ok ()) (fun bytes _ h' => post bytes h') h := by
  have hdefined : (((answers tree start).read h fd lib.blocksize).getD []).length ≤ fileBuffer := by
    rw [hread]
    exact hblock
  apply follows_perform_bind hdefined
  change Follows (pure (((answers tree start).read h fd lib.blocksize).getD [])) _ _
    (.read fd lib.blocksize ((answers tree start).read h fd lib.blocksize) :: h)
  rw [hread]
  exact follows_pure hpost

theorem read_fault {fd : Fd} {block : List Byte}
    (hread : (answers tree start).read h fd lib.blocksize = some block)
    (hblock : ¬ block.length ≤ fileBuffer) :
    Follows (Calls.read (answers tree start) fd) (Run.fault .outOfBounds : Run _ Unit)
      (fun _ _ _ => True) h := by
  apply follows_perform_fault
  change ¬ (((answers tree start).read h fd lib.blocksize).getD []).length ≤ fileBuffer
  rw [hread]
  exact hblock

/-- The blocks are read one by one in one copy, and given in the other. -/
theorem copyLoop_follows (path : Path) {fd : Fd} {node : Node} {fuel rounds pos : ℕ}
    {from' : Path} {rest : List Byte} {state : lib.Image × Option lib.File}
    (hnode : tree.node from' = some node) (hsource : source fd h = some (from', pos))
    (hrest : node.data.drop pos = rest) (hrounds : rest.length ≤ rounds)
    (hfuel : rest.length < fuel) (hcopying : Copying start here f state h) :
    Follows (Calls.copyLoop (answers tree start) fd f name fuel)
      ((readBlocks lib.blocksize rounds rest).foldlM
        (fun state block => (TrawlDir.copyBlock lib path state block).run) state)
      (fun _ state' h' => Copying start here f state' h') h := by
  induction fuel generalizing rounds pos rest state h with
  | zero => exact absurd hfuel (Nat.not_lt_zero _)
  | succ fuel ih =>
      have hread : (answers tree start).read h fd lib.blocksize = some (rest.take lib.blocksize) := by
        rw [read_eq hsource hnode, hrest]
      have hcopying' := hcopying.read fd lib.blocksize (some (rest.take lib.blocksize))
      by_cases hend : rest.take lib.blocksize = []
      · have hblocks : readBlocks lib.blocksize rounds rest = [] := by
          cases rounds with
          | zero => rfl
          | succ rounds => rw [readBlocks, if_pos hend]
        have hfirst : Follows (Calls.read (answers tree start) fd) (.ok ())
            (fun bytes _ h' => bytes = [] ∧ Copying start here f state h') h :=
          read_follows hread (hend ▸ Nat.zero_le _) ⟨hend, hcopying'⟩
        rw [hblocks, List.foldlM_nil]
        apply hfirst.skip
        rintro bytes h' ⟨rfl, hcopying⟩
        exact follows_pure hcopying
      · obtain ⟨rounds, rfl⟩ : ∃ more, rounds = more + 1 := by
          cases rounds with
          | zero =>
              have hnil : rest = [] := List.eq_nil_of_length_eq_zero (Nat.le_zero.mp hrounds)
              rw [hnil] at hend
              exact absurd List.take_nil hend
          | succ rounds => exact ⟨rounds, rfl⟩
        rw [readBlocks, if_neg hend, List.foldlM_cons]
        by_cases hblock : (rest.take lib.blocksize).length ≤ fileBuffer
        · have hfirst : Follows (Calls.read (answers tree start) fd) (.ok ())
              (fun bytes _ h' => bytes = rest.take lib.blocksize ∧
                source fd h' = some (from', pos + (rest.take lib.blocksize).length) ∧
                Copying start here f state h') h := by
            refine read_follows hread hblock ⟨rfl, ?_, hcopying'⟩
            rw [source, if_pos rfl, hsource]
            rfl
          apply hfirst.skip
          rintro bytes h' ⟨rfl, hsource', hcopying⟩
          rw [if_neg hend]
          apply (copyBlock_follows path hblock hcopying fd).bind
          rintro _ state' h'' ⟨hcopying, hsame⟩
          have hdropped : (rest.drop lib.blocksize).length < rest.length := by
            have hne : lib.blocksize ≠ 0 ∧ rest ≠ [] := by simpa using hend
            have hpos : 0 < rest.length := List.length_pos_of_ne_nil hne.2
            rw [List.length_drop]
            omega
          refine ih (hsame.trans hsource') ?_ (by omega) (by omega) hcopying
          rw [← List.drop_drop, hrest, List.length_take]
          rcases Nat.le_total lib.blocksize rest.length with hle | hle
          · rw [Nat.min_eq_left hle]
          · rw [Nat.min_eq_right hle, List.drop_length, List.drop_eq_nil_of_le hle]
        · have hfault : (TrawlDir.copyBlock lib path state (rest.take lib.blocksize)).run =
              Run.fault .outOfBounds := by
            rw [TrawlDir.copyBlock, Run.require_neg hblock]
            rfl
          rw [hfault]
          exact (read_fault hread hblock).stops

/-- The loop, the end of the file, and its entry. -/
theorem copyContent_follows (path : Path) (name : Name) (parent new : Ino) {fd : Fd} {node : Node}
    {fuel : ℕ} {from' : Path} (hnode : tree.node from' = some node)
    (hsource : source fd h = some (from', 0)) (hfuel : node.data.length < fuel)
    (hwriting : Writing start here f image file h) :
    Follows (Calls.copyContent (answers tree start) fuel parent new name fd f)
      (do
        let copied ← (readBlocks lib.blocksize node.data.length node.data).foldlM
          (fun state block => (TrawlDir.copyBlock lib path state block).run) (image, some file)
        let image ← (TrawlDir.closeFile lib path copied).run
        (TrawlDir.linkEntry lib parent path name new .EXT2_FT_REG_FILE image).run)
      (fun _ image' h' => At start ⟨here, image'⟩ h') h := by
  have hcopying : Copying start here f (image, some file) h := hwriting
  apply (copyLoop_follows path hnode hsource List.drop_zero le_rfl hfuel hcopying).bind
  rintro _ ⟨image, _ | file⟩ h' hcopying
  · have hat : At start ⟨here, image⟩ h' := hcopying
    apply follows_perform_fault
    rw [hat.closed]
    rintro ⟨f', -, hopen⟩
    exact absurd hopen List.not_mem_nil
  · have hwriting : Writing start here f image file h' := hcopying
    have hopened : f ∈ openFiles h' := hwriting.opened ▸ List.mem_singleton_self f
    have hclosed := hwriting.close .file (lib.file_close image file).isOk
    apply follows_perform_bind ⟨f, rfl, hopened⟩
    rw [fileClose_eq hwriting, TrawlDir.closeFile]
    dsimp only
    cases hclose : lib.file_close image file with
    | ok image' =>
        rw [hclose] at hclosed
        have hdone : At start ⟨here, image'⟩ (.close fd :: .fileClose .file (some f) true :: h') :=
          hclosed.other (fun _ => rfl) rfl rfl
        rw [show (Except.ok image' : Except lib.Errcode _).isOk = true from rfl]
        rw [reportUnless, if_pos rfl]
        apply follows_pure_bind
        apply follows_emit_bind
        exact linkEntry_follows parent new path .EXT2_FT_REG_FILE hdone
    | error code =>
        rw [hclose] at hclosed
        have hdone : At start ⟨here, image⟩
            (.close fd :: .report .closing name :: .fileClose .file (some f) false :: h') :=
          (hclosed.report .closing name).other (fun _ => rfl) rfl rfl
        rw [show (Except.error code : Except _ lib.Image).isOk = false from rfl]
        rw [reportUnless, if_neg Bool.false_ne_true]
        apply report_follows_bind
        apply follows_emit_bind
        exact linkEntry_follows parent new path .EXT2_FT_REG_FILE hdone

end Files

/-! ## One entry -/

section Entry

variable {lib : Library} {tree : Tree} {start : lib.Image} {h : List Step} {name : Name}
  {state : State lib} {parent new : Ino} {fuel : ℕ}

theorem fileOpen_eq (hat : At start state h) (new : Ino) :
    (answers tree start).file_open h new =
      (lib.file_open state.image new).toOption.map fun _ => h.length := by
  rw [← hat.image]
  rfl

theorem openFile_eq (hat : At start state h) (name : Name) :
    (answers tree start).openFile h name =
      (tree.openFile state.cwd name).map fun _ => h.length := by
  rw [← hat.cwd]
  rfl

theorem copyRegular_follows (info : Stat) (hat : At start state h)
    (hfuel : ∀ path node, tree.node path = some node → node.data.length < fuel) :
    Follows (Calls.copyRegular (answers tree start) fuel parent new name info)
      (TrawlDir.copyRegular lib tree parent new name info state).run
      (fun _ state' h' => At start state' h') h := by
  rw [TrawlDir.copyRegular, Logged.run_bind]
  apply (writeNewInode_follows (state.cwd ++ [name]) .fileAttributes new (regularInode info)
    hat).bind
  intro _ image h' hat
  have hmarked := hat.allocStats new
  apply follows_emit_bind
  generalize Step.allocStats new :: h' = older at hmarked ⊢
  generalize lib.inode_alloc_stats2 image new 1 1 = image at hmarked ⊢
  dsimp only
  apply follows_option
  · exact openFile_eq hmarked name
  · intro bytes hopen
    obtain ⟨node, hnode, hbytes⟩ := Option.bind_eq_some_iff.mp hopen
    obtain ⟨-, hbytes⟩ := Option.ite_none_right_eq_some.mp hbytes
    obtain rfl := Option.some.inj hbytes
    have hopened : At start ⟨state.cwd, image⟩ (.openFile name (some older.length) :: older) :=
      hmarked.other (fun _ => rfl) rfl rfl
    have hsource : source older.length (.openFile name (some older.length) :: older) =
        some (state.cwd ++ [name], 0) := by
      rw [source, if_pos rfl, hmarked.cwd]
    generalize Step.openFile name (some older.length) :: older = opened at hopened hsource ⊢
    rw [show tree.openFile state.cwd name = some node.data from hopen]
    dsimp only
    apply follows_toOption
    · exact fileOpen_eq hopened new
    · intro file hfile
      have hwriting : Writing start state.cwd opened.length image file
          (.fileOpen .file new (some opened.length) :: opened) := hopened.fileOpen .file hfile
      rw [show lib.file_open image new = .ok file from hfile]
      dsimp only
      have hsource' : source older.length (.fileOpen .file new (some opened.length) :: opened) =
          some (state.cwd ++ [name], 0) := hsource
      have hcontent := copyContent_follows (state.cwd ++ [name]) name parent new hnode hsource'
        (hfuel _ _ hnode) hwriting
      have hstate := hcontent.map fun _ image h' hat => (hat : At start (State.mk state.cwd image) h')
      simp only [bind_assoc] at hstate
      simp only [Logged.run_bind, Logged.run_foldlM]
      exact hstate
    · intro code hfile
      have hfailed : At start ⟨state.cwd, image⟩ (.fileOpen .file new none :: opened) :=
        hopened.other (fun _ => rfl) rfl rfl
      rw [show lib.file_open image new = .error code from hfile]
      exact report_follows .createFile (hfailed.report _ _)
  · intro hopen
    have hfailed : At start ⟨state.cwd, image⟩ (.openFile name none :: older) :=
      hmarked.other (fun _ => rfl) rfl rfl
    rw [show tree.openFile state.cwd name = none from hopen]
    exact report_follows .openFile (hfailed.report _ _)

theorem readlink_eq (hat : At start state h) (name : Name) :
    ((answers tree start).readlink h name).map (·.take linkBuffer) =
      (tree.readlink state.cwd name linkBuffer).map id := by
  have hanswer : (answers tree start).readlink h name =
      (tree.node (state.cwd ++ [name])).bind fun node =>
        if node.isLnk then some node.data else none := by
    rw [← hat.cwd]
    rfl
  rw [hanswer, Tree.readlink, Option.map_id, id]
  cases tree.node (state.cwd ++ [name]) with
  | none => rfl
  | some node =>
      rw [Option.bind_some, Option.bind_some]
      split <;> rfl

/-- The target is written and the file closed, in both copies. -/
theorem writeTarget_follows {here : Path} {image : lib.Image} {file : lib.File} {f : Handle}
    (path : Path) {info : Stat} (held : List Byte) (hsize : info.st_size < 2 ^ 32)
    (hwriting : Writing start here f image file h) :
    Follows (Calls.writeTarget (answers tree start) name info f held)
      (do
        Run.require (info.st_size ≤ held.length)
        let written ← (TrawlDir.writeTarget lib path image file (held.take info.st_size)).run
        (TrawlDir.closeTarget lib path written).run)
      (fun _ image' h' => At start ⟨here, image'⟩ h') h := by
  have hopened : f ∈ openFiles h := hwriting.opened ▸ List.mem_singleton_self f
  have hclose : ∀ {h image file}, Writing start here f image file h →
      Follows (do
          let _ ← Calls.fileClose (answers tree start) .link (some f)
          return ())
        (TrawlDir.closeTarget lib path (image, file)).run
        (fun _ image' h' => At start ⟨here, image'⟩ h') h := by
    intro h image file hwriting
    have hopened : f ∈ openFiles h := hwriting.opened ▸ List.mem_singleton_self f
    have hrun : (TrawlDir.closeTarget lib path (image, file)).run =
        .ok (kept image (lib.file_close image file)) := by
      rw [TrawlDir.closeTarget]
      dsimp only
      cases lib.file_close image file <;> rfl
    rw [hrun]
    apply follows_perform_bind ⟨f, rfl, hopened⟩
    exact follows_pure (hwriting.close .link _)
  rw [Calls.writeTarget, Nat.mod_eq_of_lt hsize]
  by_cases hroom : info.st_size ≤ held.length
  · rw [Run.require_pos hroom, Run.ok_bind]
    apply follows_perform_bind ⟨hopened, hroom⟩
    rw [fileWrite_eq hwriting, TrawlDir.writeTarget]
    cases hwrite : lib.file_write image file (held.take info.st_size) with
    | ok written =>
        obtain ⟨out, image', file'⟩ := written
        have hout : (Except.ok (out, image', file') : Except lib.Errcode _).toOption.map
            (fun out => out.1) = some out := rfl
        rw [hout, reportUnless, if_pos Option.isSome_some]
        apply follows_pure_bind
        exact hclose (hwriting.write .link (some out) hwrite)
    | error code =>
        have hout : (Except.error code : Except lib.Errcode (ℕ × lib.Image × lib.File)).toOption.map
            (fun out => out.1) = none := rfl
        have hfailed := hwriting.write_error .link none hwrite
        rw [hout, reportUnless, if_neg (by simp)]
        apply report_follows_bind
        exact hclose (hfailed.report .copyingSymlink name)
  · rw [Run.require_neg hroom]
    apply follows_perform_fault
    exact fun hdefined => hroom hdefined.2

theorem copyTarget_follows {here : Path} {image : lib.Image} {info : Stat}
    (hsize : info.st_size < 2 ^ 32) (hat : At start ⟨here, image⟩ h) :
    Follows (Calls.copyTarget (answers tree start) new name info)
      (TrawlDir.copyTarget lib tree here new name info image).run
      (fun _ image' h' => At start ⟨here, image'⟩ h') h := by
  rw [TrawlDir.copyTarget]
  apply follows_option
  · exact readlink_eq hat name
  · intro target htarget
    have hread : At start ⟨here, image⟩ (.readlink name (some target) :: h) :=
      hat.other (fun _ => rfl) rfl rfl
    rw [show tree.readlink here name linkBuffer = some target from htarget]
    dsimp only [id]
    apply follows_toOption
    · exact fileOpen_eq hread new
    · intro file hfile
      have hwriting : Writing start here _ image file
          (.fileOpen .link new (some (Step.readlink name (some target) :: h).length) ::
            .readlink name (some target) :: h) := hread.fileOpen .link hfile
      rw [show lib.file_open image new = .ok file from hfile]
      dsimp only
      simp only [Logged.run_bind, Logged.run_quiet]
      exact writeTarget_follows (here ++ [name]) target hsize hwriting
    · intro code hfile
      rw [show lib.file_open image new = .error code from hfile]
      apply report_follows_bind
      apply follows_perform_fault
      rintro ⟨f, hf, -⟩
      exact absurd hf (Option.not_mem_none f)
  · intro hnone
    have hread : At start ⟨here, image⟩ (.readlink name none :: h) :=
      hat.other (fun _ => rfl) rfl rfl
    rw [show tree.readlink here name linkBuffer = none from hnone]
    exact report_follows .readlink (hread.report _ _)

theorem symlink_of_specialType {mode : Mode}
    (htype : specialType mode = some .EXT2_FT_SYMLINK) : mode &&& S_IFMT = S_IFLNK := by
  rw [specialType] at htype
  split_ifs at htype with hchr hblk hfifo hsock hlnk <;> first | exact hlnk | simp at htype

theorem copySymlink_follows {here : Path} {image : lib.Image} {info : Stat} {type : FileType}
    (hsize : type = .EXT2_FT_SYMLINK → info.st_size < 2 ^ 32) (hat : At start ⟨here, image⟩ h) :
    Follows (Calls.copySymlink (answers tree start) type new name info)
      (TrawlDir.copySymlink lib tree type here new name info image).run
      (fun _ image' h' => At start ⟨here, image'⟩ h') h := by
  rw [Calls.copySymlink, TrawlDir.copySymlink]
  by_cases hsymlink : type = .EXT2_FT_SYMLINK
  · rw [if_pos hsymlink, if_pos hsymlink]
    exact copyTarget_follows (hsize hsymlink) hat
  · rw [if_neg hsymlink, if_neg hsymlink]
    exact follows_pure hat

theorem copySpecial_follows {info : Stat}
    (hsize : info.st_mode &&& S_IFMT = S_IFLNK → info.st_size < 2 ^ 32)
    (hat : At start state h) :
    Follows (Calls.copySpecial (answers tree start) parent new name info)
      (TrawlDir.copySpecial lib tree parent new name info state).run
      (fun _ state' h' => At start state' h') h := by
  rw [Calls.copySpecial, TrawlDir.copySpecial]
  cases htype : specialType info.st_mode with
  | none => exact report_follows .notFileOrDir (hat.report _ _)
  | some type =>
      have hlink : type = .EXT2_FT_SYMLINK → info.st_size < 2 ^ 32 := by
        rintro rfl
        exact hsize (symlink_of_specialType htype)
      dsimp only
      rw [Logged.run_bind]
      apply (writeNewInode_follows (state.cwd ++ [name]) .deviceInode new (specialInode info)
        hat).bind
      intro _ image h' hat
      apply follows_emit_bind
      rw [Logged.run_bind]
      apply (copySymlink_follows hlink (hat.allocStats new)).bind
      intro _ image h' hat
      rw [Logged.run_bind]
      exact (linkEntry_follows parent new (state.cwd ++ [name]) type hat).map
        fun _ image h' hat => hat

theorem lstat_eq (hat : At start state h) (name : Name) :
    (answers tree start).lstat h name = (tree.lstat state.cwd name).map id := by
  rw [← hat.cwd, Option.map_id]
  rfl

theorem newInode_eq (hat : At start state h) (dir : Ino) (mode : Mode) :
    (answers tree start).new_inode h dir mode =
      (lib.new_inode state.image dir mode).toOption.map id := by
  rw [← hat.image, Option.map_id]
  rfl

theorem chdir_eq (hat : At start state h) (target : Name) :
    (answers tree start).chdir h target = (tree.chdir state.cwd target).isSome := by
  rw [← hat.cwd]
  rfl

/-- The process goes where the other copy goes. -/
theorem At.chdir (hat : At start state h) {target : Name} {there : Path}
    (hchdir : tree.chdir state.cwd target = some there) :
    At start ⟨there, state.image⟩ (.chdir target true :: h) := by
  refine ⟨hat.image, ?_, hat.closed⟩
  have hcwd : Calls.cwd (.chdir target true :: h) =
      if target = dotDot then (Calls.cwd h).dropLast else Calls.cwd h ++ [target] := rfl
  rw [hcwd, hat.cwd]
  rw [Tree.chdir] at hchdir
  split_ifs at hchdir ⊢ with hup
  · exact Option.some.inj hchdir
  · obtain ⟨node, -, hthere⟩ := Option.bind_eq_some_iff.mp hchdir
    exact Option.some.inj (Option.ite_none_right_eq_some.mp hthere).2

variable {trawl : Ino → Trace Unit} {trawl' : Ino → State lib → TrawlDir.Trawl (State lib)}

theorem copyDirectory_follows
    (htrawl : ∀ ino state h, At start state h →
      Follows (trawl ino) (trawl' ino state).run (fun _ state' h' => At start state' h') h)
    (hat : At start state h) :
    Follows (Calls.copyDirectory (answers tree start) trawl parent new name)
      (TrawlDir.copyDirectory lib tree trawl' parent new name state).run
      (fun _ state' h' => At start state' h') h := by
  rw [TrawlDir.copyDirectory, Logged.run_bind]
  apply (retry_follows (.mkdir parent new name) (state.cwd ++ [name]) .createDir hat).bind
  rintro made ⟨image, done⟩ h' ⟨rfl, hat⟩
  cases made with
  | false => exact follows_pure hat
  | true =>
      apply follows_call_bind
      rw [chdir_eq hat]
      cases hchdir : tree.chdir state.cwd name with
      | none =>
          have hfailed : At start ⟨state.cwd, image⟩ (.chdir name false :: h') :=
            hat.other (fun _ => rfl) rfl rfl
          exact report_follows .chdir (hfailed.report _ _)
      | some there =>
          have hentered := hat.chdir hchdir
          have hinner := htrawl new ⟨there, image⟩ (.chdir name true :: h') hentered
          dsimp only
          simp only [if_true, Logged.run_bind]
          apply hinner.bind
          intro _ state' h' hat
          have hleft : tree.chdir state'.cwd dotDot = some state'.cwd.dropLast := if_pos rfl
          apply follows_call_bind
          rw [chdir_eq hat, hleft]
          exact follows_pure (hat.chdir hleft)

theorem copyEntry_follows
    (htrawl : ∀ ino state h, At start state h →
      Follows (trawl ino) (trawl' ino state).run (fun _ state' h' => At start state' h') h)
    (hfuel : ∀ path node, tree.node path = some node → node.data.length < fuel)
    (hsize : ∀ path node, tree.node path = some node → node.isLnk = true →
      node.info.st_size < 2 ^ 32)
    (hat : At start state h) :
    Follows (Calls.copyEntry (answers tree start) trawl fuel parent name)
      (TrawlDir.copyEntry lib tree trawl' parent state name).run
      (fun _ state' h' => At start state' h') h := by
  rw [Calls.copyEntry, TrawlDir.copyEntry]
  have hbegun : At start state (.entry name :: h) := hat.other (fun _ => rfl) rfl rfl
  apply follows_emit_bind
  by_cases hdot : name = dot ∨ name = dotDot
  · rw [if_pos hdot, if_pos hdot]
    exact follows_pure hbegun
  · rw [if_neg hdot, if_neg hdot]
    apply follows_option
    · exact lstat_eq hbegun name
    · intro info hlstat
      obtain ⟨node, hnode, rfl⟩ := Option.map_eq_some_iff.mp hlstat
      have hlooked : At start state (.lstat name (some node.info) :: .entry name :: h) :=
        hbegun.other (fun _ => rfl) rfl rfl
      rw [hlstat]
      dsimp only [id]
      apply follows_toOption
      · exact newInode_eq hlooked parent node.info.st_mode
      · intro new hnew
        have hasked : At start state (.newInode parent node.info.st_mode (some new) ::
            .lstat name (some node.info) :: .entry name :: h) :=
          hlooked.other (fun _ => rfl) rfl rfl
        rw [hnew]
        dsimp only [id]
        rw [copyNew]
        by_cases hdir : node.info.st_mode &&& S_IFMT = S_IFDIR
        · rw [if_pos hdir, if_pos hdir]
          exact copyDirectory_follows htrawl hasked
        · rw [if_neg hdir, if_neg hdir]
          by_cases hreg : node.info.st_mode &&& S_IFMT = S_IFREG
          · rw [if_pos hreg, if_pos hreg]
            exact copyRegular_follows node.info hasked hfuel
          · rw [if_neg hreg, if_neg hreg]
            refine copySpecial_follows (fun hlnk => ?_) hasked
            exact hsize _ node hnode (decide_eq_true hlnk)
      · intro code hnew
        have hasked : At start state (.newInode parent node.info.st_mode none ::
            .lstat name (some node.info) :: .entry name :: h) :=
          hlooked.other (fun _ => rfl) rfl rfl
        rw [hnew]
        exact report_follows .newInode (hasked.report _ _)
    · intro hlstat
      have hlooked : At start state (.lstat name none :: .entry name :: h) :=
        hbegun.other (fun _ => rfl) rfl rfl
      rw [hlstat]
      exact report_follows .lstat (hlooked.report _ _)

theorem opendir_eq (hat : At start state h) :
    (answers tree start).opendir h = (tree.opendir state.cwd).map id := by
  rw [← hat.cwd, Option.map_id]
  rfl

theorem trawlDir_follows (depth : ℕ)
    (hfuel : ∀ path node, tree.node path = some node → node.data.length < fuel)
    (hsize : ∀ path node, tree.node path = some node → node.isLnk = true →
      node.info.st_size < 2 ^ 32)
    (hat : At start state h) :
    Follows (Calls.trawlDir (answers tree start) depth fuel parent)
      (TrawlDir.trawlDir lib tree depth parent state).run
      (fun _ state' h' => At start state' h') h := by
  induction depth generalizing parent state h with
  | zero => exact follows_stop _
  | succ depth ih =>
      rw [Calls.trawlDir, TrawlDir.trawlDir]
      apply follows_option
      · exact opendir_eq hat
      · intro names hnames
        have hopened : At start state (.opendir (some names) :: h) :=
          hat.other (fun _ => rfl) rfl rfl
        rw [hnames]
        dsimp only [id]
        rw [Logged.run_foldlM, ← bind_pure (List.foldlM _ _ _)]
        have hloop : Follows
            (names.forM (Calls.copyEntry (answers tree start)
              (Calls.trawlDir (answers tree start) depth fuel) fuel parent))
            (names.foldlM (fun state name => (TrawlDir.copyEntry lib tree
              (TrawlDir.trawlDir lib tree depth) parent state name).run) state)
            (fun _ state' h' => At start state' h') (.opendir (some names) :: h) :=
          follows_forM (fun name _ state h hat =>
            copyEntry_follows (fun ino state h hat => ih hat) hfuel hsize hat) hopened
        apply hloop.bind
        intro _ state' h' hat
        exact follows_emit (hat.other (fun _ => rfl) rfl rfl)
      · intro hnames
        rw [hnames]
        exact follows_stop _

end Entry

/-- The copy that makes its calls one by one ends like the one that hands an
image from call to call, in the same directory and with the same image. -/
theorem trawlDir_agrees (lib : Library) (tree : Tree) (image : lib.Image) (depth fuel : ℕ)
    (root : Ino) (hfuel : ∀ path node, tree.node path = some node → node.data.length < fuel)
    (hsize : ∀ path node, tree.node path = some node → node.isLnk = true →
      node.info.st_size < 2 ^ 32) :
    Follows (Calls.trawlDir (answers tree image) depth fuel root)
      (TrawlDir.trawlDir lib tree depth root ⟨[], image⟩).run
      (fun _ state h => At image state h) [] :=
  trawlDir_follows depth hfuel hsize ⟨rfl, rfl, rfl⟩

/-- A small tree, copied with four calls of `read` for a file at most. -/
theorem trawlDir_agrees_smallTree :
    Follows (Calls.trawlDir (@answers MemoryImage.memoryLibrary
        (.ofNodes TreeCopy.smallTree TreeCopy.smallTree_wellFormed)
        MemoryImage.emptyImage) 6 4 2)
      (TrawlDir.trawlDir MemoryImage.memoryLibrary
        (.ofNodes TreeCopy.smallTree TreeCopy.smallTree_wellFormed) 6 2
        ⟨[], MemoryImage.emptyImage⟩).run
      (fun _ state h => @At MemoryImage.memoryLibrary MemoryImage.emptyImage state h) [] := by
  apply trawlDir_agrees
  · intro path node hnode
    have hall : ∀ entry ∈ TreeCopy.smallTree, entry.2.data.length < 4 := by decide
    exact hall (path, node) (mem_of_lookup hnode)
  · intro path node hnode hlnk
    have hall : ∀ entry ∈ TreeCopy.smallTree, entry.2.isLnk = true →
        entry.2.info.st_size < 2 ^ 32 := by
      decide
    exact hall (path, node) (mem_of_lookup hnode) hlnk

end Tcb.Replay
