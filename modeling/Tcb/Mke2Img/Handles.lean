import Tcb.Mke2Img.Answers

/-!
# Files and descriptors of the copy

Every call is made on a file or a descriptor that is open, and each is closed
before the next entry, in the runs in which every file can be opened in the
image, every block of a file can be written, and nothing is too long for the
buffers.  A file that cannot be opened there leaves the descriptor open, or is
closed although `f` was not set; one that cannot be written is closed, and used
again; and a block that is longer than its buffer may overwrite `f` itself.
-/

namespace Tcb.Handles

open Tcb.CString
open Tcb.SourceTree
open Tcb.Ext2fs
open Tcb.TrawlDir (Failure fileBuffer linkBuffer)
open Tcb.Traced
open Tcb.Calls

/-- Nothing is open. -/
def Idle (h : List Step) : Prop := openFiles h = [] ∧ openFds h = []

/-- The call is made on a file or a descriptor that is open and stays inside
the buffer, and nothing is open between two entries. -/
def Proper (h : List Step) : Step → Prop
  | .fileWrite _ f held count _ => f ∈ openFiles h ∧ count ≤ held.length
  | .fileFlush f _ => f ∈ openFiles h
  | .fileClose _ f _ => ∃ f' ∈ f, f' ∈ openFiles h
  | .read fd _ bytes => fd ∈ openFds h ∧ (bytes.getD []).length ≤ fileBuffer
  | .close fd => fd ∈ openFds h
  | .opendir _ => Idle h
  | .entry _ => Idle h
  | .closedir => Idle h
  | _ => True

instance (h : List Step) : DecidablePred (Proper h)
  | .fileWrite _ _ _ _ _ => inferInstanceAs (Decidable (_ ∧ _))
  | .fileFlush f _ => inferInstanceAs (Decidable (f ∈ openFiles h))
  | .fileClose _ f _ => inferInstanceAs (Decidable (∃ f' ∈ f, f' ∈ openFiles h))
  | .read _ _ _ => inferInstanceAs (Decidable (_ ∧ _))
  | .close fd => inferInstanceAs (Decidable (fd ∈ openFds h))
  | .opendir _ => inferInstanceAs (Decidable (_ ∧ _))
  | .entry _ => inferInstanceAs (Decidable (_ ∧ _))
  | .closedir => inferInstanceAs (Decidable (_ ∧ _))
  | .lstat _ _ | .newInode _ _ _ | .request _ _ _ | .expandDir _ _ => isTrue trivial
  | .chdir _ _ | .writeNewInode _ _ _ | .allocStats _ | .openFile _ _ => isTrue trivial
  | .fileOpen _ _ _ | .readlink _ _ | .report _ _ => isTrue trivial

/-- The call opens a file in the image if it is for that, and writes the whole
block if it is for a block of a file.  No more is read than the buffer holds,
and no more is written of a target than was read of it. -/
def Succeeds : Step → Prop
  | .fileOpen _ _ f => f.isSome
  | .fileWrite .file _ _ count out => ∃ written ∈ out, count ≤ written
  | .fileWrite .link _ held count _ => count ≤ held.length
  | .read _ _ bytes => (bytes.getD []).length ≤ fileBuffer
  | _ => True

instance : DecidablePred Succeeds
  | .fileOpen _ _ f => inferInstanceAs (Decidable (f.isSome = true))
  | .fileWrite .file _ _ count out =>
      inferInstanceAs (Decidable (∃ written ∈ out, count ≤ written))
  | .fileWrite .link _ held count _ => inferInstanceAs (Decidable (count ≤ held.length))
  | .read _ _ bytes => inferInstanceAs (Decidable ((bytes.getD []).length ≤ fileBuffer))
  | .opendir _ | .entry _ | .closedir | .lstat _ _ | .newInode _ _ _ => isTrue trivial
  | .request _ _ _ | .expandDir _ _ | .chdir _ _ | .writeNewInode _ _ _ => isTrue trivial
  | .allocStats _ | .openFile _ _ | .fileFlush _ _ => isTrue trivial
  | .fileClose _ _ _ | .close _ | .readlink _ _ | .report _ _ => isTrue trivial

/-! ## How often each is opened and closed -/

def opened (f : Handle) : Step → Bool
  | .fileOpen _ _ f' => f' = some f
  | _ => false

def closed (f : Handle) : Step → Bool
  | .fileClose _ f' _ => f' = some f
  | _ => false

def openedFd (fd : Fd) : Step → Bool
  | .openFile _ fd' => fd' = some fd
  | _ => false

def closedFd (fd : Fd) : Step → Bool
  | .close fd' => fd' = fd
  | _ => false

section Counts

variable {h : List Step}

/-- A file that was opened more often than it was closed is open. -/
theorem count_openFiles (hproper : Always Proper h) (f : Handle) :
    h.countP (opened f) = h.countP (closed f) + (openFiles h).count f := by
  induction h with
  | nil => rfl
  | cons step h ih =>
      have ih := ih hproper.2
      have hstep := hproper.1
      rw [List.countP_cons, List.countP_cons, ih]
      cases step with
      | fileOpen purpose ino f' =>
          cases f' with
          | none => rfl
          | some f' =>
              rw [openFiles_fileOpen, List.count_cons]
              by_cases heq : f' = f
              · simp [opened, closed, heq, Nat.add_assoc]
              · simp [opened, closed, heq]
      | fileClose purpose f' done =>
          obtain ⟨f', rfl, hmem⟩ := hstep
          rw [openFiles_fileClose]
          by_cases heq : f' = f
          · have hpos : 0 < (openFiles h).count f := List.count_pos_iff.mpr (heq ▸ hmem)
            simp only [opened, closed, heq, List.count_erase_self]
            simp
            omega
          · have hne : f' ≠ f := heq
            simp [opened, closed, hne, List.count_erase_of_ne (Ne.symm hne)]
      | fileWrite source f' held count out => simp [opened, closed]
      | fileFlush f' done => simp [opened, closed]
      | _ => rfl

theorem count_openFds (hproper : Always Proper h) (fd : Fd) :
    h.countP (openedFd fd) = h.countP (closedFd fd) + (openFds h).count fd := by
  induction h with
  | nil => rfl
  | cons step h ih =>
      have ih := ih hproper.2
      have hstep := hproper.1
      rw [List.countP_cons, List.countP_cons, ih]
      cases step with
      | openFile name fd' =>
          cases fd' with
          | none => rfl
          | some fd' =>
              have hfds : openFds (.openFile name (some fd') :: h) = fd' :: openFds h := rfl
              rw [hfds, List.count_cons]
              by_cases heq : fd' = fd
              · simp [openedFd, closedFd, heq, Nat.add_assoc]
              · simp [openedFd, closedFd, heq]
      | close fd' =>
          have hfds : openFds (.close fd' :: h) = (openFds h).erase fd' := rfl
          rw [hfds]
          by_cases heq : fd' = fd
          · have hpos : 0 < (openFds h).count fd := List.count_pos_iff.mpr (heq ▸ hstep)
            simp only [openedFd, closedFd, heq, List.count_erase_self]
            simp
            omega
          · have hne : fd' ≠ fd := heq
            simp [openedFd, closedFd, hne, List.count_erase_of_ne (Ne.symm hne)]
      | _ => rfl

end Counts

/-! ## One entry -/

/-- What is open. -/
def Has (fs : List Handle) (fds : List Fd) (h : List Step) : Prop :=
  openFiles h = fs ∧ openFds h = fds

/-- A condition on single steps, for a run. -/
abbrev fine (_ : List Step) : Step → Prop := Succeeds

section Entry

variable {world : World} {fs : List Handle} {fds : List Fd} {h : List Step} {name : Name}

theorem has_of_for {what : Request} {step : Step} (hkind : step.For what) (hhas : Has fs fds h) :
    Proper h step ∧ Has fs fds (step :: h) := by
  cases step <;> first | exact hkind.elim | exact ⟨trivial, hhas⟩

theorem has_of_onInode {step : Step} (hkind : step.OnInode) (hhas : Has fs fds h) :
    Proper h step ∧ Has fs fds (step :: h) := by
  cases step <;> first | exact hkind.elim | exact ⟨trivial, hhas⟩

theorem retry_has (what : Request) (failure : Failure) (hhas : Has fs fds h) :
    Ensures fine Proper (retry world what failure name) (fun _ => Has fs fds) h :=
  ensures_of_only (only_retry world what failure name)
    (fun _ _ hkind hhas _ => has_of_for hkind hhas) hhas

theorem linkEntry_has (parent new : Ino) (type : FileType) (hhas : Has fs fds h) :
    Ensures fine Proper (linkEntry world parent name new type) (fun _ => Has fs fds) h :=
  ensures_of_only (only_linkEntry world parent name new type)
    (fun _ _ hkind hhas _ => has_of_for hkind hhas) hhas

theorem writeNewInode_has (failure : Failure) (new : Ino) (inode : Ext2Inode)
    (hhas : Has fs fds h) :
    Ensures fine Proper (writeNewInode world failure name new inode) (fun _ => Has fs fds) h :=
  ensures_of_only (only_writeNewInode world failure name new inode)
    (fun _ _ hkind hhas _ => has_of_onInode hkind hhas) hhas

theorem report_has (failure : Failure) (hhas : Has fs fds h) :
    Ensures fine Proper (report failure name) (fun _ => Has fs fds) h :=
  ensures_emit fun _ => ⟨trivial, hhas⟩

theorem reportUnless_has (done : Bool) (failure : Failure) (hhas : Has fs fds h) :
    Ensures fine Proper (reportUnless done failure name) (fun _ => Has fs fds) h := by
  rw [reportUnless]
  split
  · exact ensures_pure hhas
  · exact report_has failure hhas

theorem fileClose_has (purpose : Buffer) (f : Handle) (hhas : Has (f :: fs) fds h) :
    Ensures fine Proper (fileClose world purpose (some f)) (fun _ => Has fs fds) h := by
  have hmem : f ∈ openFiles h := hhas.1 ▸ List.mem_cons_self
  refine ensures_perform fun _ => ⟨⟨f, rfl, hmem⟩, fun _ => ⟨?_, hhas.2⟩⟩
  rw [openFiles_fileClose, hhas.1, List.erase_cons_head]

/-- A block that is written leaves the file open. -/
theorem copyBlock_has {f : Handle} (bytes : List Byte) (hhas : Has [f] fds h) :
    Ensures fine Proper (copyBlock world f name bytes) (fun _ => Has [f] fds) h := by
  have hmem : ∀ {h}, Has [f] fds h → f ∈ openFiles h := fun hhas =>
    hhas.1 ▸ List.mem_cons_self
  refine ensures_bind (ensures_perform fun hwritten => ⟨⟨hmem hhas, le_rfl⟩, fun _ => ?_⟩)
  obtain ⟨written, hout, hcount⟩ := hwritten
  rw [Option.mem_def] at hout
  have hwhole : (world.file_write h f bytes bytes.length).any (bytes.length ≤ ·) = true := by
    simp [hout, hcount]
  rw [if_pos hwhole]
  have hhas' : Has [f] fds (.fileWrite .file f bytes bytes.length
      (world.file_write h f bytes bytes.length) :: h) :=
    ⟨by rw [openFiles_fileWrite, hhas.1], hhas.2⟩
  refine ensures_bind (ensures_perform fun _ => ⟨hmem hhas', fun _ => ?_⟩)
  exact reportUnless_has _ _ ⟨by rw [openFiles_fileFlush, hhas'.1], hhas'.2⟩

theorem copyLoop_has {fd : Fd} {f : Handle} (fuel : ℕ) (hhas : Has [f] [fd] h) :
    Ensures fine Proper (copyLoop world fd f name fuel) (fun _ => Has [f] [fd]) h := by
  induction fuel generalizing h with
  | zero => exact ensures_stop _
  | succ fuel ih =>
      have hread : Ensures fine Proper (read world fd) (fun _ => Has [f] [fd]) h :=
        ensures_bind (ensures_perform fun hfits =>
          ⟨⟨show fd ∈ openFds h from hhas.2 ▸ List.mem_cons_self, hfits⟩,
            fun _ => ensures_pure hhas⟩)
      apply hread.bind
      intro bytes h' _ hhas
      split
      · exact ensures_pure hhas
      · exact (copyBlock_has bytes hhas).bind fun _ _ _ hhas => ih hhas

theorem copyContent_idle {fd : Fd} {f : Handle} (fuel : ℕ) (parent new : Ino)
    (hhas : Has [f] [fd] h) :
    Ensures fine Proper (copyContent world fuel parent new name fd f) (fun _ => Idle) h := by
  apply (copyLoop_has fuel hhas).bind
  intro _ h' _ hhas
  apply (fileClose_has _ f hhas).bind
  intro done h' _ hhas
  apply (reportUnless_has done .closing hhas).bind
  intro _ h' _ hhas
  have hclose : Ensures fine Proper (emit (.close fd) : Trace Unit) (fun _ => Idle) h' := by
    refine ensures_emit fun _ => ⟨show fd ∈ openFds h' from hhas.2 ▸ List.mem_cons_self,
      hhas.1, ?_⟩
    have hfds : openFds (.close fd :: h') = (openFds h').erase fd := rfl
    rw [hfds, hhas.2, List.erase_cons_head]
  exact hclose.bind fun _ _ _ hidle => linkEntry_has parent new .EXT2_FT_REG_FILE hidle

theorem copyRegular_idle (fuel : ℕ) (parent new : Ino) (info : Stat) (hidle : Idle h) :
    Ensures fine Proper (copyRegular world fuel parent new name info) (fun _ => Idle) h := by
  apply (writeNewInode_has _ _ _ hidle).bind
  intro _ h' _ hidle
  refine ensures_bind (ensures_emit fun _ => ⟨trivial, ?_⟩)
  refine ensures_bind (ensures_call fun _ => ⟨trivial, ?_⟩)
  cases world.openFile _ name with
  | none => exact report_has .openFile hidle
  | some fd =>
      refine ensures_bind (ensures_call fun hopens => ⟨trivial, ?_⟩)
      cases hopen : world.file_open _ new with
      | none =>
          rw [hopen] at hopens
          exact absurd hopens Bool.false_ne_true
      | some f =>
          refine copyContent_idle fuel parent new ⟨?_, ?_⟩
          · rw [openFiles_fileOpen]
            exact congrArg _ hidle.1
          · exact congrArg (fd :: ·) hidle.2

theorem writeTarget_idle {f : Handle} (info : Stat) (held : List Byte) (hhas : Has [f] [] h) :
    Ensures fine Proper (writeTarget world name info f held) (fun _ => Idle) h := by
  have hmem : f ∈ openFiles h := hhas.1 ▸ List.mem_cons_self
  refine ensures_bind (ensures_perform fun hfits => ⟨⟨hmem, hfits⟩, fun _ => ?_⟩)
  have hhas' : Has [f] [] (.fileWrite .link f held (info.st_size % 2 ^ 32)
      (world.file_write h f held (info.st_size % 2 ^ 32)) :: h) :=
    ⟨by rw [openFiles_fileWrite, hhas.1], hhas.2⟩
  apply (reportUnless_has _ _ hhas').bind
  intro _ h' _ hhas
  exact (fileClose_has _ f hhas).bind fun _ _ _ hidle => ensures_pure hidle

theorem copyTarget_idle (new : Ino) (info : Stat) (hidle : Idle h) :
    Ensures fine Proper (copyTarget world new name info) (fun _ => Idle) h := by
  refine ensures_bind (ensures_call fun _ => ⟨trivial, ?_⟩)
  cases (world.readlink h name).map (·.take linkBuffer) with
  | none => exact report_has .readlink hidle
  | some held =>
      refine ensures_bind (ensures_call fun hopens => ⟨trivial, ?_⟩)
      cases hopen : world.file_open _ new with
      | none =>
          rw [hopen] at hopens
          exact absurd hopens Bool.false_ne_true
      | some f =>
          have hhas : Has [f] [] (.fileOpen .link new (some f) :: .readlink name (some held) :: h) :=
            ⟨congrArg (f :: ·) hidle.1, hidle.2⟩
          exact writeTarget_idle info held hhas

theorem copySpecial_idle (parent new : Ino) (info : Stat) (hidle : Idle h) :
    Ensures fine Proper (copySpecial world parent new name info) (fun _ => Idle) h := by
  rw [copySpecial]
  split
  · exact report_has .notFileOrDir hidle
  · rename_i type _
    apply (writeNewInode_has _ _ _ hidle).bind
    intro _ h' _ hidle
    refine ensures_bind (ensures_emit fun _ => ⟨trivial, ?_⟩)
    have hsymlink : Ensures fine Proper (copySymlink world type new name info) (fun _ => Idle)
        (.allocStats new :: h') := by
      rw [copySymlink]
      split
      · exact copyTarget_idle new info hidle
      · exact ensures_pure hidle
    exact hsymlink.bind fun _ _ _ hidle => linkEntry_has parent new type hidle

theorem chdir_idle (target : Name) (hidle : Idle h) :
    Ensures fine Proper (chdir world target) (fun _ => Idle) h :=
  ensures_call fun _ => ⟨trivial, hidle⟩

variable {trawl : Ino → Trace Unit}

theorem copyDirectory_idle (htrawl : ∀ ino h, Idle h →
      Ensures fine Proper (trawl ino) (fun _ => Idle) h) (parent new : Ino) (hidle : Idle h) :
    Ensures fine Proper (copyDirectory world trawl parent new name) (fun _ => Idle) h := by
  apply (retry_has _ _ hidle).bind
  intro made h' _ hidle
  cases made with
  | false => exact ensures_pure hidle
  | true =>
      apply (chdir_idle name hidle).bind
      intro entered h' _ hidle
      cases entered with
      | false => exact report_has .chdir hidle
      | true =>
          apply (htrawl new h' hidle).bind
          intro _ h' _ hidle
          exact (chdir_idle dotDot hidle).bind fun _ _ _ hidle => ensures_pure hidle

theorem copyEntry_idle (htrawl : ∀ ino h, Idle h →
      Ensures fine Proper (trawl ino) (fun _ => Idle) h) (fuel : ℕ) (parent : Ino)
    (hidle : Idle h) :
    Ensures fine Proper (copyEntry world trawl fuel parent name) (fun _ => Idle) h := by
  refine ensures_bind (ensures_emit fun _ => ⟨hidle, ?_⟩)
  split
  · exact ensures_pure hidle
  · refine ensures_bind (ensures_call fun _ => ⟨trivial, ?_⟩)
    cases world.lstat _ name with
    | none => exact report_has .lstat hidle
    | some info =>
        refine ensures_bind (ensures_call fun _ => ⟨trivial, ?_⟩)
        cases world.new_inode _ parent info.st_mode with
        | none => exact report_has .newInode hidle
        | some new =>
            simp only [copyNew]
            split
            · exact copyDirectory_idle htrawl parent new hidle
            · split
              · exact copyRegular_idle fuel parent new info hidle
              · exact copySpecial_idle parent new info hidle

/-- Nothing is open when a directory is done. -/
theorem trawlDir_idle (depth fuel : ℕ) (parent : Ino) (hidle : Idle h) :
    Ensures fine Proper (trawlDir world depth fuel parent) (fun _ => Idle) h := by
  apply @ensures_trawlDir world fine Proper (fun _ => Idle)
  · exact fun _ _ _ hidle => ⟨hidle, hidle⟩
  · exact fun trawl htrawl parent name h hidle => copyEntry_idle htrawl fuel parent hidle
  · exact fun _ _ hidle => ⟨hidle, hidle⟩
  · exact hidle

end Entry

/-! ## Every run -/

/-- A call that is as it should be has a defined effect. -/
theorem defined_of_proper {h : List Step} {step : Step} (hproper : Proper h step) :
    Defined h step := by
  cases step with
  | read fd count bytes => exact hproper.2
  | fileWrite source f held count out => exact hproper
  | fileFlush f done => exact hproper
  | fileClose purpose f done => exact hproper
  | _ => trivial

/-- Nothing is open when a run ends, however it does. -/
theorem idle_of_ends {world : World} {depth fuel : ℕ} {parent : Ino}
    (hfine : Always fine ((trawlDir world depth fuel parent).exec []).1)
    (hends : Run.Ends ((trawlDir world depth fuel parent).exec []).2) :
    (∀ kind, ((trawlDir world depth fuel parent).exec []).2 ≠ Run.fault kind) ∧
      Idle ((trawlDir world depth fuel parent).exec []).1 := by
  obtain ⟨hproper, hreturns⟩ := (trawlDir_idle depth fuel parent ⟨rfl, rfl⟩).run hfine
  have hcause : Stops Cause (trawlDir world depth fuel parent) [] :=
    stops_trawlDir world depth fuel parent
  rw [Stops] at hcause
  rcases hexec : (trawlDir world depth fuel parent).exec [] with ⟨log, reason | value⟩
  · rw [hexec] at hproper hcause hends
    cases reason with
    | exit reason =>
        obtain ⟨h, rfl⟩ := hcause _ rfl
        have hidle : Idle h := hproper.1
        refine ⟨fun kind hfault => ?_, hidle⟩
        simp [Run.fault] at hfault
    | fault kind =>
        obtain ⟨step, h, rfl, hundefined⟩ := hcause _ rfl
        exact absurd (defined_of_proper hproper.1) hundefined
    | outOfFuel => exact absurd rfl hends
  · rw [hexec] at hreturns
    refine ⟨fun kind hfault => ?_, hreturns value rfl⟩
    exact Run.fault_ne_ok kind value hfault.symm

/-- In a run in which files can be opened in the image, blocks can be written
and nothing is too long for the buffers, every call is made on something open
and has a defined effect, nothing is open between two entries, and, unless the
run is cut off, each file and each descriptor is closed as often as it was
opened. -/
theorem trawlDir_handles (world : World) (depth fuel : ℕ) (parent : Ino)
    (hsucceeds : ∀ step ∈ ((trawlDir world depth fuel parent).exec []).1, Succeeds step) :
    Always Proper ((trawlDir world depth fuel parent).exec []).1 ∧
      (∀ kind, ((trawlDir world depth fuel parent).exec []).2 ≠ Run.fault kind) ∧
      (((trawlDir world depth fuel parent).exec []).2 ≠ Run.outOfFuel →
        (∀ f, ((trawlDir world depth fuel parent).exec []).1.countP (opened f) =
          ((trawlDir world depth fuel parent).exec []).1.countP (closed f)) ∧
        ∀ fd, ((trawlDir world depth fuel parent).exec []).1.countP (openedFd fd) =
          ((trawlDir world depth fuel parent).exec []).1.countP (closedFd fd)) := by
  have hfine : Always fine ((trawlDir world depth fuel parent).exec []).1 :=
    always_of_forall_mem hsucceeds
  have hproper := ((trawlDir_idle depth fuel parent ⟨rfl, rfl⟩).run hfine).1
  refine ⟨hproper, fun kind hfault => ?_, fun hends => ?_⟩
  · exact (idle_of_ends hfine (hfault ▸ Run.ends_fault kind)).1 kind hfault
  · obtain ⟨-, hfiles, hfds⟩ := idle_of_ends hfine hends
    constructor
    · intro f
      rw [count_openFiles hproper, hfiles, List.count_nil, Nat.add_zero]
    · intro fd
      rw [count_openFds hproper, hfds, List.count_nil, Nat.add_zero]

theorem trawlDir_handles_smallWorld :
    Always Proper ((trawlDir smallWorld 4 4 2).exec []).1 ∧
      ((trawlDir smallWorld 4 4 2).exec []).1.countP (opened 17) = 1 ∧
      ((trawlDir smallWorld 4 4 2).exec []).1.countP (closed 17) = 1 := by
  have hok : ((trawlDir smallWorld 4 4 2).exec []).2 = .ok () := by decide +kernel
  have hopened : ((trawlDir smallWorld 4 4 2).exec []).1.countP (opened 17) = 1 := by
    decide +kernel
  obtain ⟨hproper, -, hcounts⟩ := trawlDir_handles smallWorld 4 4 2 (by decide +kernel)
  have hends : ((trawlDir smallWorld 4 4 2).exec []).2 ≠ Run.outOfFuel := by
    rw [hok]
    exact Run.ends_ok ()
  exact ⟨hproper, hopened, ((hcounts hends).1 17).symm.trans hopened⟩

/-- The write of the only block of the file fails.  The file is closed, and
closed again behind the loop. -/
theorem trawlDir_closes_twice :
    ¬ Always Proper ((trawlDir { smallWorld with file_write := fun _ _ _ _ => none }
        4 4 2).exec []).1 ∧
      ((trawlDir { smallWorld with file_write := fun _ _ _ _ => none }
        4 4 2).exec []).1.countP (opened 17) = 1 ∧
      ((trawlDir { smallWorld with file_write := fun _ _ _ _ => none }
        4 4 2).exec []).1.countP (closed 17) = 2 := by
  decide +kernel

end Tcb.Handles
