import Tcb.Mke2Img.Disk

/-!
# Inodes without entries

An inode is marked as in use before its entry is made.  It has as many entries
as links, and an entry that was not made leaves the image as it was, in the
runs in which nothing fails between the two: the inode is written, the file
opened on both sides, and the entry made in the end.
-/

namespace Tcb.Orphans

open Function
open Tcb.CString
open Tcb.SourceTree
open Tcb.Ext2fs
open Tcb.TrawlDir (Failure linkBuffer regularInode specialInode)
open Tcb.Traced
open Tcb.Calls

/-- The directory in which the copy began, and the ones that were made. -/
def directories (root : Ino) (h : List Step) : List Ino :=
  root :: h.filterMap fun
    | .request (.mkdir _ ino _) _ true => some ino
    | _ => none

/-- What had happened when the current entry began, while it has not been
made. -/
def unfinished : List Step → Option (List Step)
  | [] => none
  | .entry _ :: h => some h
  | .request _ _ true :: _ => none
  | _ :: h => unfinished h

section Whole

variable (disk : Disk) (h : List Step)

/-- Every inode that was marked has as many entries as links. -/
def Balanced : Prop :=
  ∀ ino ∈ allocated h, (disk.after h).references ino = (disk.after h).links ino

instance : Decidable (Balanced disk h) :=
  inferInstanceAs (Decidable (∀ ino ∈ allocated h, _))

/-- If the entry has not been made, the image is as it was before. -/
def Restored : Prop := ∀ older ∈ unfinished h, disk.after h = disk.after older

/-- What holds whenever an entry or a directory is done. -/
def Whole : Step → Prop
  | .entry _ => Balanced disk h ∧ Restored disk h
  | .closedir => Balanced disk h ∧ Restored disk h
  | _ => True

end Whole

/-- Nothing fails between the inode and its entry, and a directory is not
expanded in vain. -/
def Succeeds : Step → Prop
  | .writeNewInode _ _ done => done = true
  | .openFile _ fd => fd.isSome
  | .fileOpen .file _ f => f.isSome
  | .expandDir (.link _ _ _ _) done => done = true
  | .request _ true done => done = true
  | _ => True

instance : DecidablePred Succeeds
  | .writeNewInode _ _ done => inferInstanceAs (Decidable (done = true))
  | .openFile _ fd => inferInstanceAs (Decidable (fd.isSome = true))
  | .fileOpen .file _ f => inferInstanceAs (Decidable (f.isSome = true))
  | .fileOpen .link _ _ => isTrue trivial
  | .expandDir (.link _ _ _ _) done => inferInstanceAs (Decidable (done = true))
  | .expandDir (.mkdir _ _ _) _ => isTrue trivial
  | .request _ true done => inferInstanceAs (Decidable (done = true))
  | .request _ false _ => isTrue trivial
  | .opendir _ | .entry _ | .closedir | .lstat _ _ | .newInode _ _ _ => isTrue trivial
  | .chdir _ _ | .allocStats _ | .read _ _ _ | .fileWrite _ _ _ _ _ => isTrue trivial
  | .fileFlush _ _ | .fileClose _ _ _ | .close _ | .readlink _ _ | .report _ _ => isTrue trivial

abbrev fine (_ : List Step) : Step → Prop := Succeeds

/-! ## The books -/

/-- Entries and directories are in use, and every inode that was marked has
its entries, but for one that is waiting for its first. -/
structure Accounts (disk : Disk) (root : Ino) (waiting : Option Ino) (h : List Step) : Prop where
  referenced : ∀ entry ∈ (disk.after h).entries, entry.2.ino ∈ (disk.after h).used
  apart : ∀ dir ∈ directories root h, dir ∈ (disk.after h).used ∧ dir ∉ allocated h
  marked : ∀ ino ∈ allocated h, ino ∈ (disk.after h).used
  balanced : ∀ ino ∈ allocated h, some ino ≠ waiting →
    (disk.after h).references ino = (disk.after h).links ino
  waiting : ∀ ino ∈ waiting, ino ∈ allocated h ∧
    (disk.after h).references ino = 0 ∧ (disk.after h).links ino = 1

/-- The steps that leave bitmap, links and entries alone. -/
def Keeps : Step → Prop
  | .request _ _ true => False
  | .writeNewInode _ _ true => False
  | .allocStats _ => False
  | _ => True

section Accounts

variable {disk : Disk} {root new parent : Ino} {waiting : Option Ino} {h : List Step}

theorem Accounts.congr {h' : List Step} (haccounts : Accounts disk root waiting h)
    (hused : (disk.after h').used = (disk.after h).used)
    (hentries : (disk.after h').entries = (disk.after h).entries)
    (hlinks : ∀ ino, (disk.after h').links ino = (disk.after h).links ino)
    (hdirectories : directories root h' = directories root h)
    (hallocated : allocated h' = allocated h) : Accounts disk root waiting h' := by
  have hreferences : ∀ ino, (disk.after h').references ino = (disk.after h).references ino :=
    fun ino => by rw [Image.references, hentries, Image.references]
  constructor
  · rw [hentries, hused]
    exact haccounts.referenced
  · rw [hdirectories, hused, hallocated]
    exact haccounts.apart
  · rw [hallocated, hused]
    exact haccounts.marked
  · intro ino hino hwaiting
    rw [hreferences, hlinks]
    exact haccounts.balanced ino (hallocated ▸ hino) hwaiting
  · intro ino hino
    rw [hallocated, hreferences, hlinks]
    exact haccounts.waiting ino hino

theorem keeps_of_onContent {step : Step} (hkind : step.OnContent) : Keeps step := by
  cases step <;> first | exact hkind.elim | trivial

theorem after_keeps (disk : Disk) (h : List Step) {step : Step} (hkeeps : Keeps step) :
    (disk.after (step :: h)).used = (disk.after h).used ∧
      (disk.after (step :: h)).entries = (disk.after h).entries ∧
      ∀ ino, (disk.after (step :: h)).links ino = (disk.after h).links ino := by
  have hcontent : ∀ {step : Step}, step.OnContent →
      (disk.after (step :: h)).used = (disk.after h).used ∧
        (disk.after (step :: h)).entries = (disk.after h).entries ∧
        ∀ ino, (disk.after (step :: h)).links ino = (disk.after h).links ino := by
    intro step hkind
    obtain ⟨hused, hinodes, hentries⟩ := after_onContent disk h hkind
    exact ⟨hused, hentries, fun ino => by rw [Image.links, hinodes, Image.links]⟩
  cases step with
  | request what again done =>
      cases done with
      | true => exact hkeeps.elim
      | false =>
          rw [after_request_failed]
          exact ⟨rfl, rfl, fun _ => rfl⟩
  | writeNewInode ino inode done =>
      cases done with
      | true => exact hkeeps.elim
      | false => exact ⟨rfl, rfl, fun _ => rfl⟩
  | allocStats ino => exact hkeeps.elim
  | expandDir what done =>
      cases done with
      | true => exact ⟨rfl, rfl, links_expand _ _ _⟩
      | false => exact ⟨rfl, rfl, fun _ => rfl⟩
  | fileFlush f done => exact hcontent trivial
  | fileClose purpose f done => exact hcontent trivial
  | _ => exact ⟨rfl, rfl, fun _ => rfl⟩

theorem Accounts.keeps {step : Step} (haccounts : Accounts disk root waiting h)
    (hkeeps : Keeps step) : Accounts disk root waiting (step :: h) := by
  obtain ⟨hused, hentries, hlinks⟩ := after_keeps disk h hkeeps
  have hlists : directories root (step :: h) = directories root h ∧
      allocated (step :: h) = allocated h := by
    cases step with
    | request what again done =>
        cases done with
        | true => exact hkeeps.elim
        | false => cases what <;> exact ⟨rfl, rfl⟩
    | allocStats ino => exact hkeeps.elim
    | _ => exact ⟨rfl, rfl⟩
  exact haccounts.congr hused hentries hlinks hlists.1 hlists.2

/-- An inode that is not in use has no entries. -/
theorem Accounts.references_new (haccounts : Accounts disk root waiting h)
    (hnew : new ∉ (disk.after h).used) : (disk.after h).references new = 0 :=
  references_eq_zero fun entry hentry hino => hnew (hino ▸ haccounts.referenced entry hentry)

/-- The inode is written. -/
theorem Accounts.write (haccounts : Accounts disk root none h)
    (hnew : new ∉ (disk.after h).used) (inode : Ext2Inode) :
    Accounts disk root none (.writeNewInode new inode true :: h) where
  referenced := haccounts.referenced
  apart := haccounts.apart
  marked := haccounts.marked
  balanced ino hino hwaiting := by
    have hne : ino ≠ new := fun heq => hnew (heq ▸ haccounts.marked ino hino)
    calc (disk.after h).references ino
        = (disk.after h).links ino := haccounts.balanced ino hino hwaiting
      _ = ((disk.after h).writeInode new inode).links ino :=
        (links_writeInode_of_ne _ inode hne).symm
  waiting _ hnone := nomatch hnone

/-- The inode is marked, and waits for its entry. -/
theorem Accounts.allocate (haccounts : Accounts disk root none h)
    (hnew : new ∉ (disk.after h).used) (hlinks : (disk.after h).links new = 1) :
    Accounts disk root (some new) (.allocStats new :: h) where
  referenced entry hentry := List.mem_cons_of_mem _ (haccounts.referenced entry hentry)
  apart dir hdir := by
    obtain ⟨hused, hapart⟩ := haccounts.apart dir hdir
    refine ⟨List.mem_cons_of_mem _ hused, fun hmem => ?_⟩
    rcases List.mem_cons.mp hmem with rfl | hmem
    · exact hnew hused
    · exact hapart hmem
  marked ino hino := by
    rcases List.mem_cons.mp hino with rfl | hino
    · exact List.mem_cons_self
    · exact List.mem_cons_of_mem _ (haccounts.marked ino hino)
  balanced ino hino hwaiting := by
    rcases List.mem_cons.mp hino with rfl | hino
    · exact absurd rfl hwaiting
    · exact haccounts.balanced ino hino (Option.some_ne_none ino)
  waiting ino hino := by
    obtain rfl := Option.mem_some.mp hino
    exact ⟨List.mem_cons_self, haccounts.references_new hnew, hlinks⟩

/-- The entry is made. -/
theorem Accounts.link (haccounts : Accounts disk root (some new) h) (again : Bool) (name : Name)
    (type : FileType) :
    Accounts disk root none (.request (.link parent name new type) again true :: h) := by
  obtain ⟨hmem, hzero, hone⟩ := haccounts.waiting new rfl
  refine ⟨fun entry hentry => ?_, haccounts.apart, haccounts.marked, ?_,
    fun _ hnone => nomatch hnone⟩
  · rcases List.mem_cons.mp hentry with rfl | hentry
    · exact haccounts.marked new hmem
    · exact haccounts.referenced entry hentry
  · intro ino hino _
    have hlinks : (disk.after (.request (.link parent name new type) again true :: h)).links ino =
        (disk.after h).links ino := rfl
    have hafter : disk.after (.request (.link parent name new type) again true :: h) =
        (disk.after h).link parent ⟨name, new, type⟩ := rfl
    rw [hlinks, hafter]
    by_cases heq : ino = new
    · rw [heq, references_link_self, hzero, hone]
    · rw [references_link_of_ne _ _ (Ne.symm heq)]
      exact haccounts.balanced ino hino fun hsome => heq (Option.some.inj hsome)

/-- A directory is made. -/
theorem Accounts.mkdir (haccounts : Accounts disk root none h)
    (hnew : new ∉ (disk.after h).used) (hparent : parent ∈ directories root h)
    (again : Bool) (name : Name) :
    Accounts disk root none (.request (.mkdir parent new name) again true :: h) := by
  obtain ⟨hused, hapart⟩ := haccounts.apart parent hparent
  have hfresh : new ∉ allocated h := fun hmem => hnew (haccounts.marked new hmem)
  refine ⟨fun entry hentry => ?_, fun dir hdir => ?_, fun ino hino => ?_, fun ino hino hwaiting => ?_,
    fun _ hnone => nomatch hnone⟩
  · have hcases : entry = (parent, ⟨name, new, .EXT2_FT_DIR⟩) ∨
        entry = (new, ⟨dot, new, .EXT2_FT_DIR⟩) ∨ entry = (new, ⟨dotDot, parent, .EXT2_FT_DIR⟩) ∨
        entry ∈ (disk.after h).entries := by
      simpa [Disk.after, Step.image, Image.mkdir] using hentry
    rcases hcases with rfl | rfl | rfl | hentry
    · exact List.mem_cons_self
    · exact List.mem_cons_self
    · exact List.mem_cons_of_mem _ hused
    · exact List.mem_cons_of_mem _ (haccounts.referenced entry hentry)
  · have hcases : dir = new ∨ dir ∈ directories root h := by
      have hlist : directories root (.request (.mkdir parent new name) again true :: h) =
          root :: new :: (directories root h).tail := rfl
      rw [hlist] at hdir
      rcases List.mem_cons.mp hdir with rfl | hdir
      · exact .inr List.mem_cons_self
      · rcases List.mem_cons.mp hdir with rfl | hdir
        · exact .inl rfl
        · exact .inr (List.mem_cons_of_mem _ hdir)
    rcases hcases with rfl | hdir
    · exact ⟨List.mem_cons_self, hfresh⟩
    · obtain ⟨hmem, hapart⟩ := haccounts.apart dir hdir
      exact ⟨List.mem_cons_of_mem _ hmem, hapart⟩
  · exact List.mem_cons_of_mem _ (haccounts.marked ino hino)
  · obtain ⟨hreferences, hlinks⟩ := mkdir_of_ne (disk.after h) disk.directory name
      (show ino ≠ new from fun heq => hfresh (heq ▸ hino))
      (show ino ≠ parent from fun heq => hapart (heq ▸ hino))
    exact hreferences.trans ((haccounts.balanced ino hino hwaiting).trans hlinks.symm)

theorem directories_mono {h' : List Step} (hsuffix : h <:+ h') {dir : Ino}
    (hdir : dir ∈ directories root h) : dir ∈ directories root h' := by
  rcases List.mem_cons.mp hdir with rfl | hdir
  · exact List.mem_cons_self
  · exact List.mem_cons_of_mem _ ((hsuffix.filterMap _).subset hdir)

end Accounts

/-! ## One entry -/

/-- The books are right, and the image is as it was or the entry is made. -/
def Resting (disk : Disk) (root : Ino) (h : List Step) : Prop :=
  Accounts disk root none h ∧ Restored disk h

section Entry

variable {disk : Disk} {root new parent : Ino} {waiting : Option Ino} {world : World}
  {h : List Step} {name : Name}

theorem Resting.whole (hresting : Resting disk root h) : Balanced disk h ∧ Restored disk h :=
  ⟨fun ino hino => hresting.1.balanced ino hino (Option.some_ne_none ino), hresting.2⟩

/-- A step that changes nothing. -/
theorem Resting.step (step : Step) (hresting : Resting disk root h) (hkeeps : Keeps step)
    (hafter : disk.after (step :: h) = disk.after h)
    (hunfinished : unfinished (step :: h) = unfinished h) : Resting disk root (step :: h) := by
  refine ⟨hresting.1.keeps hkeeps, fun older holder => ?_⟩
  rw [hunfinished] at holder
  exact hafter.trans (hresting.2 older holder)

theorem Resting.made {what : Request} {again : Bool}
    (haccounts : Accounts disk root none (.request what again true :: h)) :
    Resting disk root (.request what again true :: h) :=
  ⟨haccounts, fun _ hnone => nomatch hnone⟩

theorem report_rests (failure : Failure) (hresting : Resting disk root h) :
    Ensures fine (Whole disk) (report failure name) (fun _ => Resting disk root) h :=
  ensures_emit fun _ => ⟨trivial, hresting.step _ trivial rfl rfl⟩

theorem whole_of_onContent {step : Step} (hkind : step.OnContent) : Whole disk h step := by
  cases step <;> first | exact hkind.elim | trivial

theorem content_accounts {α : Type} {prog : Trace α} (honly : Only Step.OnContent prog)
    (haccounts : Accounts disk root waiting h) :
    Ensures fine (Whole disk) prog (fun _ => Accounts disk root waiting) h :=
  ensures_of_only honly (fun _ _ hkind haccounts _ =>
    ⟨whole_of_onContent hkind, haccounts.keeps (keeps_of_onContent hkind)⟩) haccounts

/-- A call for a directory is made in the end, or nothing has changed. -/
theorem retry_rests (what : Request) {ready : List Step → Prop} (failure : Failure)
    (hkeeps : ∀ h step, ready h → Keeps step → ready (step :: h))
    (hmakes : ∀ h again, ready h → Accounts disk root none (.request what again true :: h))
    (hrests : Succeeds (.expandDir what false) → Resting disk root h) (hready : ready h) :
    Ensures fine (Whole disk) (retry world what failure name)
      (fun made h' => Resting disk root h' ∧
        (made = true → ∃ again older, h' = .request what again true :: older)) h := by
  refine ensures_bind (ensures_call fun _ => ⟨trivial, ?_⟩)
  cases world.request h what with
  | true => exact ensures_pure ⟨.made (hmakes h false hready), fun _ => ⟨false, h, rfl⟩⟩
  | false =>
      have hready' := hkeeps h (.request what false false) hready trivial
      refine ensures_bind (ensures_call fun hexpands => ⟨trivial, ?_⟩)
      cases hexpand : world.expand_dir _ what.dir with
      | true =>
          have hready'' := hkeeps _ (.expandDir what true) hready' trivial
          refine ensures_bind (ensures_call fun hagain => ⟨trivial, ?_⟩)
          have hdone : world.request _ what = true := hagain
          rw [hdone]
          refine ensures_bind (ensures_pure ?_)
          exact ensures_pure ⟨.made (hmakes _ true hready''), fun _ => ⟨true, _, rfl⟩⟩
      | false =>
          rw [hexpand] at hexpands
          have hresting := (hrests hexpands).step (.request what false false) trivial
            (after_request_failed what false) rfl
          have hresting' := hresting.step (.expandDir what false) trivial rfl rfl
          apply (report_rests .expandDir hresting').bind
          intro _ h' _ hresting
          exact ensures_pure ⟨hresting, fun hfalse => nomatch hfalse⟩

theorem linkEntry_rests (type : FileType) (haccounts : Accounts disk root (some new) h) :
    Ensures fine (Whole disk) (linkEntry world parent name new type)
      (fun _ => Resting disk root) h := by
  refine (retry_rests (.link parent name new type) .failedToCopy ?_ ?_ ?_ haccounts).bind
    fun _ h' _ hresting => ensures_pure hresting.1
  · exact fun _ _ haccounts hkeeps => haccounts.keeps hkeeps
  · exact fun _ again haccounts => haccounts.link again name type
  · exact fun hfalse => nomatch hfalse

/-- The inode is written and marked, and what follows makes its entry. -/
theorem mark_rests {next : Trace Unit} (failure : Failure) (inode : Ext2Inode)
    (hlinks : inode.i_links_count = 1) (haccounts : Accounts disk root none h)
    (hnew : new ∉ (disk.after h).used)
    (hnext : ∀ h', Accounts disk root (some new) h' →
      Ensures fine (Whole disk) next (fun _ => Resting disk root) h') :
    Ensures fine (Whole disk)
      (do
        writeNewInode world failure name new inode
        emit (.allocStats new)
        next) (fun _ => Resting disk root) h := by
  refine ensures_bind (ensures_bind (ensures_call fun hwrites => ⟨trivial, ?_⟩))
  have hdone : world.write_new_inode h new inode = true := hwrites
  rw [hdone]
  refine ensures_pure (ensures_bind (ensures_emit fun _ => ⟨trivial, ?_⟩))
  refine hnext _ ((haccounts.write hnew inode).allocate hnew ?_)
  calc ((disk.after h).writeInode new inode).links new
      = inode.i_links_count.toNat := links_writeInode_self _ inode
    _ = 1 := by rw [hlinks]; rfl

theorem copyContent_rests (fuel : ℕ) {fd : Fd} {f : Handle}
    (haccounts : Accounts disk root (some new) h) :
    Ensures fine (Whole disk) (copyContent world fuel parent new name fd f)
      (fun _ => Resting disk root) h := by
  apply (content_accounts (only_copyLoop world fd f name fuel) haccounts).bind
  intro _ h' _ haccounts
  apply (content_accounts (only_fileClose world .file (some f)) haccounts).bind
  intro done h' _ haccounts
  apply (content_accounts (only_reportUnless (fun _ _ => trivial) done .closing name)
    haccounts).bind
  intro _ h' _ haccounts
  exact ensures_bind (ensures_emit fun _ => ⟨trivial, linkEntry_rests _ (haccounts.keeps trivial)⟩)

theorem copyRegular_rests (fuel : ℕ) (info : Stat) (haccounts : Accounts disk root none h)
    (hnew : new ∉ (disk.after h).used) :
    Ensures fine (Whole disk) (copyRegular world fuel parent new name info)
      (fun _ => Resting disk root) h := by
  apply mark_rests .fileAttributes (regularInode info) rfl haccounts hnew
  intro h' haccounts
  refine ensures_bind (ensures_call fun hopens => ⟨trivial, ?_⟩)
  cases hopen : world.openFile h' name with
  | none =>
      rw [hopen] at hopens
      exact absurd hopens Bool.false_ne_true
  | some fd =>
      refine ensures_bind (ensures_call fun hopens => ⟨trivial, ?_⟩)
      cases hopen : world.file_open _ new with
      | none =>
          rw [hopen] at hopens
          exact absurd hopens Bool.false_ne_true
      | some f =>
          have haccounts' := haccounts.keeps (show Keeps (.openFile name (some fd)) from trivial)
          exact copyContent_rests fuel (haccounts'.keeps trivial)

theorem copySpecial_rests (info : Stat) (hresting : Resting disk root h)
    (hnew : new ∉ (disk.after h).used) :
    Ensures fine (Whole disk) (copySpecial world parent new name info)
      (fun _ => Resting disk root) h := by
  rw [copySpecial]
  split
  · exact report_rests .notFileOrDir hresting
  · rename_i type _
    apply mark_rests .deviceInode (specialInode info) rfl hresting.1 hnew
    intro h' haccounts
    apply (content_accounts (only_copySymlink world type new name info) haccounts).bind
    intro _ h' _ haccounts
    exact linkEntry_rests type haccounts

theorem chdir_rests (target : Name) (hresting : Resting disk root h) :
    Ensures fine (Whole disk) (chdir world target) (fun _ => Resting disk root) h :=
  ensures_call fun _ => ⟨trivial, hresting.step _ trivial rfl rfl⟩

variable {trawl : Ino → Trace Unit}

theorem copyDirectory_rests (htrawl : ∀ ino h, Resting disk root h → ino ∈ directories root h →
      Ensures fine (Whole disk) (trawl ino) (fun _ => Resting disk root) h)
    (hresting : Resting disk root h) (hnew : new ∉ (disk.after h).used)
    (hparent : parent ∈ directories root h) :
    Ensures fine (Whole disk) (copyDirectory world trawl parent new name)
      (fun _ => Resting disk root) h := by
  let ready (h : List Step) : Prop :=
    Accounts disk root none h ∧ new ∉ (disk.after h).used ∧ parent ∈ directories root h
  have hretry : Ensures fine (Whole disk) (retry world (.mkdir parent new name) .createDir name)
      (fun made h' => Resting disk root h' ∧
        (made = true → ∃ again older, h' = .request (.mkdir parent new name) again true :: older))
      h := by
    refine @retry_rests _ _ _ _ _ _ ready .createDir ?_ ?_ (fun _ => hresting)
      ⟨hresting.1, hnew, hparent⟩
    · rintro h step ⟨haccounts, hnew, hparent⟩ hkeeps
      refine ⟨haccounts.keeps hkeeps, ?_, directories_mono (List.suffix_cons step h) hparent⟩
      rwa [(after_keeps disk h hkeeps).1]
    · rintro h again ⟨haccounts, hnew, hparent⟩
      exact haccounts.mkdir hnew hparent again name
  apply hretry.bind
  intro made h' _ hmade
  cases made with
  | false => exact ensures_pure hmade.1
  | true =>
      obtain ⟨again, older, rfl⟩ := hmade.2 rfl
      have hmem : new ∈ directories root (.request (.mkdir parent new name) again true :: older) :=
        List.mem_cons_of_mem _ List.mem_cons_self
      apply (chdir_rests name hmade.1).bind
      intro entered h' hsuffix hresting
      cases entered with
      | false => exact report_rests .chdir hresting
      | true =>
          apply (htrawl new h' hresting (directories_mono hsuffix hmem)).bind
          intro _ h' _ hresting
          exact (chdir_rests dotDot hresting).bind fun _ _ _ hresting => ensures_pure hresting

theorem copyEntry_rests (hfree : Free disk world)
    (htrawl : ∀ ino h, Resting disk root h → ino ∈ directories root h →
      Ensures fine (Whole disk) (trawl ino) (fun _ => Resting disk root) h) (fuel : ℕ)
    (hresting : Resting disk root h) (hparent : parent ∈ directories root h) :
    Ensures fine (Whole disk) (copyEntry world trawl fuel parent name)
      (fun _ => Resting disk root) h := by
  refine ensures_bind (ensures_emit fun _ => ⟨hresting.whole, ?_⟩)
  have hbegun : Resting disk root (.entry name :: h) := by
    refine ⟨hresting.1.keeps trivial, fun older holder => ?_⟩
    obtain rfl := Option.mem_some.mp holder
    rfl
  split
  · exact ensures_pure hbegun
  · refine ensures_bind (ensures_call fun _ => ⟨trivial, ?_⟩)
    have hlooked := fun info => hbegun.step (.lstat name info) trivial rfl rfl
    cases world.lstat _ name with
    | none => exact report_rests .lstat (hlooked none)
    | some info =>
        refine ensures_bind (ensures_call fun _ => ⟨trivial, ?_⟩)
        have hasked := fun ino =>
          (hlooked (some info)).step (.newInode parent info.st_mode ino) trivial rfl rfl
        cases hnew : world.new_inode _ parent info.st_mode with
        | none => exact report_rests .newInode (hasked none)
        | some new =>
            have hunused : new ∉ (disk.after
                (.lstat name (some info) :: .entry name :: h)).used := hfree _ _ _ _ hnew
            simp only [copyNew]
            split
            · refine copyDirectory_rests htrawl (hasked (some new)) hunused ?_
              exact directories_mono (List.suffix_append
                [.newInode parent info.st_mode (some new), .lstat name (some info), .entry name] h)
                hparent
            · split
              · exact copyRegular_rests fuel info (hasked (some new)).1 hunused
              · exact copySpecial_rests info (hasked (some new)) hunused

/-- The image is whole when a directory is done. -/
theorem trawlDir_rests (hfree : Free disk world) (depth fuel : ℕ)
    (hresting : Resting disk root h) (hparent : parent ∈ directories root h) :
    Ensures fine (Whole disk) (trawlDir world depth fuel parent)
      (fun _ => Resting disk root) h := by
  have hwalk : Ensures fine (Whole disk) (trawlDir world depth fuel parent)
      (fun _ h' => Resting disk root h' ∧ parent ∈ directories root h') h := by
    apply @ensures_trawlDir world fine (Whole disk)
      (fun parent h => Resting disk root h ∧ parent ∈ directories root h)
    · intro parent h names hinvariant
      exact ⟨trivial, hinvariant.1.step (.opendir names) trivial rfl rfl,
        directories_mono (List.suffix_cons _ h) hinvariant.2⟩
    · intro trawl htrawl parent name h hinvariant
      have hinner : ∀ ino h, Resting disk root h → ino ∈ directories root h →
          Ensures fine (Whole disk) (trawl ino) (fun _ => Resting disk root) h :=
        fun ino h hresting hmem => (htrawl ino h ⟨hresting, hmem⟩).mono fun _ _ _ hdone => hdone.1
      have hentry : Ensures fine (Whole disk) (copyEntry world trawl fuel parent name)
          (fun _ => Resting disk root) h :=
        copyEntry_rests hfree hinner fuel hinvariant.1 hinvariant.2
      exact hentry.mono fun _ h' hsuffix hresting =>
        ⟨hresting, directories_mono hsuffix hinvariant.2⟩
    · intro parent h hinvariant
      exact ⟨hinvariant.1.whole, hinvariant.1.step .closedir trivial rfl rfl,
        directories_mono (List.suffix_cons _ h) hinvariant.2⟩
    · exact ⟨hresting, hparent⟩
  exact hwalk.mono fun _ _ _ hinvariant => hinvariant.1

end Entry

/-! ## Every run -/

/-- In a run in which nothing fails between an inode and its entry, and the
library gives inodes that are free, every inode that was marked has as many
entries as links whenever a directory or an entry is done, and an entry that
was not made has left the image as it was. -/
theorem trawlDir_whole (disk : Disk) (world : World) (depth fuel : ℕ) (root : Ino)
    (hroot : root ∈ disk.image.used)
    (hreferenced : ∀ entry ∈ disk.image.entries, entry.2.ino ∈ disk.image.used)
    (hfree : Free disk world)
    (hsucceeds : ∀ step ∈ ((trawlDir world depth fuel root).exec []).1, Succeeds step) :
    Always (Whole disk) ((trawlDir world depth fuel root).exec []).1 ∧
      (((trawlDir world depth fuel root).exec []).2 = .ok () →
        Balanced disk ((trawlDir world depth fuel root).exec []).1 ∧
          Restored disk ((trawlDir world depth fuel root).exec []).1) := by
  have hfine : Always fine ((trawlDir world depth fuel root).exec []).1 :=
    always_of_forall_mem hsucceeds
  have hstart : Resting disk root [] := by
    refine ⟨⟨hreferenced, ?_, ?_, ?_, ?_⟩, fun _ hnone => nomatch hnone⟩
    · intro dir hdir
      obtain rfl := List.mem_singleton.mp hdir
      exact ⟨hroot, List.not_mem_nil⟩
    · exact fun _ hmem => absurd hmem List.not_mem_nil
    · exact fun _ hmem => absurd hmem List.not_mem_nil
    · exact fun _ hnone => nomatch hnone
  obtain ⟨hwhole, hreturns⟩ :=
    (trawlDir_rests hfree depth fuel hstart List.mem_cons_self).run hfine
  exact ⟨hwhole, fun hok => (hreturns () hok).whole⟩

/-! ## Two runs -/

theorem trawlDir_whole_smallWorld :
    ((trawlDir smallWorld 4 4 2).exec []).2 = .ok () ∧
      allocated ((trawlDir smallWorld 4 4 2).exec []).1 = [14, 13, 12] ∧
      Balanced newDisk ((trawlDir smallWorld 4 4 2).exec []).1 := by
  have hok : ((trawlDir smallWorld 4 4 2).exec []).2 = .ok () := by decide +kernel
  obtain ⟨-, hreturns⟩ := trawlDir_whole newDisk smallWorld 4 4 2 (by decide) (by decide)
    smallWorld_free (by decide +kernel)
  exact ⟨hok, by decide +kernel, (hreturns hok).1⟩

/-- The file of the tree cannot be opened.  The run returns, and the inode of the
file is marked, has a link count of one, and no entry. -/
theorem trawlDir_orphan :
    ((trawlDir { smallWorld with openFile := fun _ _ => none } 4 4 2).exec []).2 = .ok () ∧
      ¬ Balanced newDisk
        ((trawlDir { smallWorld with openFile := fun _ _ => none } 4 4 2).exec []).1 := by
  decide +kernel

end Tcb.Orphans
