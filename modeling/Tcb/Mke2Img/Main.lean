import Tcb.Mke2Img.Consistency
import Tcb.Mke2Img.Itinerary

/-!
# A run of the program

The image is opened, the tree copied, the bitmaps written, and the image closed.
The program stops in the middle when a directory cannot be opened; what it has
marked in use by then has not been written.
-/

namespace Tcb.Mke2Img

open Tcb.CString
open Tcb.SourceTree
open Tcb.Ext2fs
open Tcb.Traced
open Tcb.Calls
open Tcb.Itinerary hiding fine
open Tcb.Orphans (directories)
open Tcb.Consistency hiding fine

/-- What `main` prints. -/
inductive Message
  | usage
  | eep
  | readingBitmaps
  | writingBitmap
  | closing
  deriving DecidableEq, Repr

/-- A call of the program: of `main`, or of the copy. -/
inductive Call
  | open' (name : Name) (done : Bool)
  | readBitmaps (done : Bool)
  | chdir (name : Name) (done : Bool)
  | copy (step : Step)
  | writeBitmaps (done : Bool)
  | close (done : Bool)
  | say (message : Message)
  deriving DecidableEq

/-- The answers. -/
structure Outside where
  open' : Name → Bool
  read_bitmaps : Bool
  chdir : Name → Bool
  copy : World
  write_bitmaps : List Step → Bool
  close : List Step → Bool

/-- The steps of the copy. -/
def copied (h : List Call) : List Step :=
  h.filterMap fun
    | .copy step => some step
    | _ => none

@[simp]
theorem copied_copy (step : Step) (h : List Call) : copied (.copy step :: h) = step :: copied h :=
  rfl

/-- `EXT2_ROOT_INO`. -/
def rootIno : Ino := 2

abbrev Session := Traced Call TrawlDir.ExitReason

def say (message : Message) : Session Unit := emit (.say message)

def sayUnless (done : Bool) (message : Message) : Session Unit :=
  if done then pure () else say message

/-- `main`, with the status that it exits with.  The results of the first
`chdir` and of reading the bitmaps do not stop it. -/
def main (outside : Outside) (depth fuel : ℕ) (argv : List Name) : Session ℕ :=
  match argv with
  | _ :: image :: dirtree :: _ => do
      let opened ← call (fun _ => outside.open' image) (.open' image)
      if opened then
        let read ← call (fun _ => outside.read_bitmaps) .readBitmaps
        sayUnless read .readingBitmaps
        let _ ← call (fun _ => outside.chdir dirtree) (.chdir dirtree)
        inside .copy copied (trawlDir outside.copy depth fuel rootIno)
        let written ← call (fun h => outside.write_bitmaps (copied h)) .writeBitmaps
        sayUnless written .writingBitmap
        let closed ← call (fun h => outside.close (copied h)) .close
        if closed then
          return 0
        else
          say .closing
          return 1
      else
        say .eep
        return 1
  | _ => do
      say .usage
      return 1

/-! ## The order of the calls -/

inductive Phase
  | start
  | opened
  | written
  | closed
  deriving DecidableEq, Repr

def phase : List Call → Phase
  | [] => .start
  | .open' _ true :: _ => .opened
  | .writeBitmaps _ :: _ => .written
  | .close _ :: _ => .closed
  | _ :: h => phase h

/-- The bitmap of the inodes in the file of the image. -/
def stored (disk : Disk) : List Call → List Ino
  | [] => disk.image.used
  | .writeBitmaps true :: h => (disk.after (copied h)).used
  | _ :: h => stored disk h

/-- The copy is complete. -/
structure Complete (disk : Disk) (h : List Step) : Prop where
  visits : (route rootIno h).visits = []
  pending : (route rootIno h).pending = none
  consistent : Consistent disk rootIno h

/-- What is asked of each call. -/
def Orderly (disk : Disk) (h : List Call) : Call → Prop
  | .open' _ _ => phase h = .start
  | .readBitmaps _ | .chdir _ _ => phase h = .opened
  | .copy step => phase h = .opened ∧ OnRoute rootIno (copied h) step ∧
      Consistent disk rootIno (copied h)
  | .writeBitmaps _ => phase h = .opened ∧ Complete disk (copied h)
  | .close _ => phase h = .written
  | .say _ => True

/-- The bitmap in the file is the one of before, or it has the inode of every
entry. -/
def Stored (disk : Disk) (h : List Call) : Prop :=
  stored disk h = disk.image.used ∨
    ∀ entry ∈ (disk.after (copied h)).entries, entry.2.ino ∈ stored disk h

/-- In calls that are in order, nothing is copied behind the bitmaps. -/
theorem stored_of_orderly {disk : Disk} {h : List Call} (horderly : Always (Orderly disk) h) :
    ((phase h = .start ∨ phase h = .opened) → stored disk h = disk.image.used) ∧
      Stored disk h := by
  induction h with
  | nil => exact ⟨fun _ => rfl, .inl rfl⟩
  | cons call h ih =>
      obtain ⟨hcall, hrest⟩ := horderly
      obtain ⟨hbefore, hstored⟩ := ih hrest
      cases call with
      | open' name done =>
          have hsame := hbefore (.inl hcall)
          exact ⟨fun _ => hsame, .inl hsame⟩
      | readBitmaps done => exact ⟨hbefore, hstored⟩
      | chdir name done => exact ⟨hbefore, hstored⟩
      | copy step =>
          have hsame := hbefore (.inr hcall.1)
          exact ⟨fun _ => hsame, .inl hsame⟩
      | writeBitmaps done =>
          refine ⟨fun hphase => ?_, ?_⟩
          · rcases hphase with hphase | hphase <;> exact nomatch hphase
          · cases done with
            | true => exact .inr hcall.2.consistent.referenced
            | false => exact .inl (hbefore (.inr hcall.1))
      | close done =>
          refine ⟨fun hphase => ?_, hstored⟩
          rcases hphase with hphase | hphase <;> exact nomatch hphase
      | say message => exact ⟨hbefore, hstored⟩

/-! ## The run -/

section Run

variable {disk : Disk} {outside : Outside} {h : List Call}

/-- Nothing is asked of the answers. -/
abbrev fine (_ : List Call) (_ : Call) : Prop := True

theorem say_keeps {invariant : List Call → Prop} (message : Message)
    (hsaid : invariant (.say message :: h)) :
    Ensures fine (Orderly disk) (say message) (fun _ => invariant) h :=
  ensures_emit fun _ => ⟨trivial, hsaid⟩

theorem sayUnless_keeps {invariant : List Call → Prop} (done : Bool) (message : Message)
    (hquiet : done = true → invariant h) (hsaid : done = false → invariant (.say message :: h)) :
    Ensures fine (Orderly disk) (sayUnless done message) (fun _ => invariant) h := by
  rw [sayUnless]
  cases done with
  | true => exact ensures_pure (hquiet rfl)
  | false => exact say_keeps message (hsaid rfl)

/-- Unless a message says so, the bitmap in the file has the inode of every
entry. -/
def Saved (disk : Disk) (h : List Call) : Prop :=
  .say .writingBitmap ∉ h →
    ∀ entry ∈ (disk.after (copied h)).entries, entry.2.ino ∈ stored disk h

/-- The copy, with the image open. -/
theorem copy_orderly (hfree : Free disk outside.copy) (hstart : Consistent disk rootIno [])
    (depth fuel : ℕ) (hphase : phase h = .opened) (hnone : copied h = []) :
    Ensures fine (Orderly disk) (inside .copy copied (trawlDir outside.copy depth fuel rootIno))
      (fun _ h' => phase h' = .opened ∧ Complete disk (copied h')) h := by
  have hready : Ready rootIno rootIno [] := ⟨rfl, rfl, fun _ hnone => nomatch hnone⟩
  have hroute : Ensures (fun _ _ => True) (OnRoute rootIno)
      (trawlDir outside.copy depth fuel rootIno) (fun _ => Back rootIno []) [] :=
    trawlDir_returns depth fuel rootIno [] hready
  have hsound : Ensures (fun _ _ => True) (Sound disk rootIno)
      (trawlDir outside.copy depth fuel rootIno)
      (fun _ h' => Consistent disk rootIno h' ∧ rootIno ∈ directories rootIno h') [] :=
    trawlDir_sound hfree depth fuel List.mem_cons_self hstart
  have hboth := hroute.and hsound
  rw [← hnone] at hboth
  have hinside : Ensures fine (Orderly disk)
      (inside .copy copied (trawlDir outside.copy depth fuel rootIno))
      (fun _ h' => phase h' = .opened ∧ Back rootIno (copied h) (copied h') ∧
        Consistent disk rootIno (copied h') ∧ rootIno ∈ directories rootIno (copied h')) h := by
    apply ensures_inside (fun h => phase h = .opened) copied_copy
      (fun _ _ hphase => hphase) (fun _ _ _ => trivial) _ hboth hphase
    · rw [hnone]
      trivial
    · rw [hnone]
      trivial
    · exact fun step h hphase hok => ⟨hphase, hok.1, hok.2⟩
  apply hinside.mono
  rintro _ h' - ⟨hphase, hback, hconsistent, -⟩
  refine ⟨hphase, ?_, hback.pending, hconsistent⟩
  rw [hback.visits, hnone]
  rfl

/-- The bitmaps, behind the copy. -/
theorem finish_orderly (hphase : phase h = .opened) (hcomplete : Complete disk (copied h)) :
    Ensures fine (Orderly disk)
      (do
        let written ← call (fun h => outside.write_bitmaps (copied h)) .writeBitmaps
        sayUnless written .writingBitmap
        let closed ← call (fun h => outside.close (copied h)) .close
        if closed then
          return 0
        else
          say .closing
          return 1)
      (fun status h' => status = 0 →
        phase h' = .closed ∧ Complete disk (copied h') ∧ Saved disk h') h := by
  apply ensures_bind
  apply ensures_call
  intro _
  refine ⟨⟨hphase, hcomplete⟩, ?_⟩
  generalize outside.write_bitmaps (copied h) = written
  have hsaved : Ensures fine (Orderly disk) (sayUnless written .writingBitmap)
      (fun _ h' => phase h' = .written ∧ Complete disk (copied h') ∧ Saved disk h')
      (.writeBitmaps written :: h) := by
    apply sayUnless_keeps written .writingBitmap
    · rintro rfl
      exact ⟨rfl, hcomplete, fun _ => hcomplete.consistent.referenced⟩
    · rintro rfl
      exact ⟨rfl, hcomplete, fun hnot => absurd List.mem_cons_self hnot⟩
  apply hsaved.bind
  rintro _ h' - ⟨hphase, hcomplete, hsaved⟩
  apply ensures_bind
  apply ensures_call
  intro _
  refine ⟨hphase, ?_⟩
  cases outside.close (copied h') with
  | true =>
      apply ensures_pure
      intro _
      refine ⟨rfl, hcomplete, fun hnot => ?_⟩
      exact hsaved fun hmem => hnot (List.mem_cons_of_mem _ hmem)
  | false =>
      have hclosing : Ensures fine (Orderly disk) (say .closing) (fun _ _ => True)
          (.close false :: h') := say_keeps .closing trivial
      apply hclosing.bind
      intro _ h'' _ _
      apply ensures_pure
      exact fun hone => absurd hone Nat.one_ne_zero

theorem main_ensures (hfree : Free disk outside.copy) (hstart : Consistent disk rootIno [])
    (depth fuel : ℕ) (argv : List Name) :
    Ensures fine (Orderly disk) (main outside depth fuel argv)
      (fun status h' => status = 0 →
        phase h' = .closed ∧ Complete disk (copied h') ∧ Saved disk h') [] := by
  have hstops : ∀ {h} (message : Message), Ensures fine (Orderly disk)
      (do
        say message
        return 1)
      (fun status h' => status = 0 →
        phase h' = .closed ∧ Complete disk (copied h') ∧ Saved disk h') h := by
    intro h message
    have hsay : Ensures fine (Orderly disk) (say message) (fun _ _ => True) h :=
      say_keeps message trivial
    apply hsay.bind
    intro _ h' _ _
    apply ensures_pure
    exact fun hone => absurd hone Nat.one_ne_zero
  match argv with
  | [] => exact hstops .usage
  | [_] => exact hstops .usage
  | [_, _] => exact hstops .usage
  | _ :: image :: dirtree :: _ =>
      apply ensures_bind
      apply ensures_call
      intro _
      refine ⟨rfl, ?_⟩
      cases outside.open' image with
      | false => exact hstops .eep
      | true =>
          apply ensures_bind
          apply ensures_call
          intro _
          refine ⟨rfl, ?_⟩
          generalize outside.read_bitmaps = read
          have hread : Ensures fine (Orderly disk) (sayUnless read .readingBitmaps)
              (fun _ h' => phase h' = .opened ∧ copied h' = [])
              [.readBitmaps read, .open' image true] :=
            sayUnless_keeps read .readingBitmaps (fun _ => ⟨rfl, rfl⟩) fun _ => ⟨rfl, rfl⟩
          apply hread.bind
          rintro _ h' - ⟨hphase, hnone⟩
          apply ensures_bind
          apply ensures_call
          intro _
          refine ⟨hphase, ?_⟩
          have hcopy : Ensures fine (Orderly disk)
              (inside .copy copied (trawlDir outside.copy depth fuel rootIno))
              (fun _ h' => phase h' = .opened ∧ Complete disk (copied h'))
              (.chdir dirtree (outside.chdir dirtree) :: h') :=
            copy_orderly hfree hstart depth fuel hphase hnone
          apply hcopy.bind
          rintro _ h'' - ⟨hphase, hcomplete⟩
          exact finish_orderly hphase hcomplete

/-- Whatever the calls answer, as long as the library gives inodes that are
free: the calls are made in order, the bitmap in the file is the one of before
or has the inode of every entry, and if the program exits with 0 the copy is
complete, and the bitmap saved unless a message says it is not. -/
theorem main_orderly (disk : Disk) (outside : Outside) (depth fuel : ℕ) (argv : List Name)
    (hused : disk.image.used.Nodup) (hroot : rootIno ∈ disk.image.used)
    (hreferenced : ∀ entry ∈ disk.image.entries, entry.2.ino ∈ disk.image.used)
    (hfree : Free disk outside.copy) :
    Always (Orderly disk) ((main outside depth fuel argv).exec []).1 ∧
      Stored disk ((main outside depth fuel argv).exec []).1 ∧
      (((main outside depth fuel argv).exec []).2 = .ok 0 →
        phase ((main outside depth fuel argv).exec []).1 = .closed ∧
        Complete disk (copied ((main outside depth fuel argv).exec []).1) ∧
        Saved disk ((main outside depth fuel argv).exec []).1) := by
  have hstart : Consistent disk rootIno [] := consistent_nil hused hroot hreferenced
  have hfine : Always fine ((main outside depth fuel argv).exec []).1 :=
    always_of_forall_mem fun _ _ => trivial
  obtain ⟨horderly, hreturns⟩ := (main_ensures hfree hstart depth fuel argv).run hfine
  exact ⟨horderly, (stored_of_orderly horderly).2, fun hok => hreturns 0 hok rfl⟩

end Run

/-! ## A run in which nothing fails -/

def smallOutside : Outside where
  open' _ := true
  read_bitmaps := true
  chdir _ := true
  copy := smallWorld
  write_bitmaps _ := true
  close _ := true

def smallArgv : List Name := [ascii ['m'], ascii ['i'], ascii ['d']]

theorem main_orderly_smallOutside :
    ((main smallOutside 4 4 smallArgv).exec []).2 = .ok 0 ∧
      Complete newDisk (copied ((main smallOutside 4 4 smallArgv).exec []).1) ∧
      Stored newDisk ((main smallOutside 4 4 smallArgv).exec []).1 := by
  have hok : ((main smallOutside 4 4 smallArgv).exec []).2 = .ok 0 := by decide +kernel
  obtain ⟨-, hstored, hreturns⟩ := main_orderly newDisk smallOutside 4 4 smallArgv (by decide)
    (by decide) (by decide) smallWorld_free
  exact ⟨hok, (hreturns hok).2.1, hstored⟩

end Tcb.Mke2Img
