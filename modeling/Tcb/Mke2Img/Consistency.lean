import Tcb.Mke2Img.Orphans

/-!
# The image at every moment

Whatever fails, and wherever the run stops: no inode is given away twice, every
entry is that of an inode in use, no inode is named twice, and the directories
that were made form a tree below the one in which the copy began, with entries
for themselves and for the directory that names them.
-/

namespace Tcb.Consistency

open Tcb.SourceTree
open Tcb.Ext2fs
open Tcb.TrawlDir (Failure regularInode specialInode)
open Tcb.Traced
open Tcb.Calls
open Tcb.Orphans (directories directories_mono)

/-- The entries that name an inode, without those for a directory itself and
for the one above. -/
def namings (image : Image) (ino : Ino) : List (Ino × Entry) :=
  image.entries.filter fun entry =>
    entry.2.ino = ino ∧ entry.2.name ≠ dot ∧ entry.2.name ≠ dotDot

/-- A directory is found from the root by its names. -/
inductive Reached (image : Image) (root : Ino) : Ino → Prop
  | root : Reached image root root
  | inside {dir ino : Ino} {name : Name} (habove : Reached image root dir)
      (hentry : (dir, ⟨name, ino, .EXT2_FT_DIR⟩) ∈ image.entries)
      (hname : name ≠ dot ∧ name ≠ dotDot) : Reached image root ino

/-- The image keeps together. -/
structure Consistent (disk : Disk) (root : Ino) (h : List Step) : Prop where
  used : (disk.after h).used.Nodup
  grown : disk.image.used ⊆ (disk.after h).used
  known : directories root h ⊆ (disk.after h).used
  referenced : ∀ entry ∈ (disk.after h).entries, entry.2.ino ∈ (disk.after h).used
  inside : ∀ entry ∈ (disk.after h).entries,
    entry ∈ disk.image.entries ∨ entry.1 ∈ directories root h
  once : ∀ ino, ino ∉ disk.image.used → (namings (disk.after h) ino).length ≤ 1
  directory : ∀ ino ∈ directories root h, ino ≠ root → ∃ dir ∈ directories root h, ∃ name,
    namings (disk.after h) ino = [(dir, ⟨name, ino, .EXT2_FT_DIR⟩)] ∧
      (ino, ⟨dot, ino, .EXT2_FT_DIR⟩) ∈ (disk.after h).entries ∧
      (ino, ⟨dotDot, dir, .EXT2_FT_DIR⟩) ∈ (disk.after h).entries
  reached : ∀ ino ∈ directories root h, Reached (disk.after h) root ino

theorem Reached.mono {image image' : Image} {root ino : Ino}
    (hsubset : image.entries ⊆ image'.entries) (hreached : Reached image root ino) :
    Reached image' root ino := by
  induction hreached with
  | root => exact .root
  | inside habove hentry hname ih => exact .inside ih (hsubset hentry) hname

/-! ## Names -/

section Names

variable {image : Image} {ino dir : Ino} {entry : Entry}

theorem namings_eq_nil (hnone : ∀ entry ∈ image.entries, entry.2.ino ≠ ino) :
    namings image ino = [] := by
  rw [namings, List.filter_eq_nil_iff]
  intro entry hentry hnamed
  exact hnone entry hentry (of_decide_eq_true hnamed).1

theorem namings_link_of_ne (hne : entry.ino ≠ ino) :
    namings (image.link dir entry) ino = namings image ino := by
  simp [namings, Image.link, hne]

theorem namings_link_self (hname : entry.name ≠ dot ∧ entry.name ≠ dotDot) :
    namings (image.link dir entry) entry.ino = (dir, entry) :: namings image entry.ino := by
  simp [namings, Image.link, hname]

variable {new : Ino} {name : Name} {directory : Ext2Inode}

theorem namings_mkdir_of_ne (hne : new ≠ ino) :
    namings (image.mkdir directory dir new name) ino = namings image ino := by
  simp [namings, Image.mkdir, hne]

theorem namings_mkdir_self (hname : name ≠ dot ∧ name ≠ dotDot) :
    namings (image.mkdir directory dir new name) new =
      (dir, ⟨name, new, .EXT2_FT_DIR⟩) :: namings image new := by
  simp [namings, Image.mkdir, hname]

end Names

/-! ## Steps -/

/-- The steps that make no entry and mark no inode. -/
def Idle : Step → Prop
  | .request _ _ true | .allocStats _ => False
  | _ => True

/-- An inode that is marked and has no name yet. -/
structure Waiting (disk : Disk) (root new : Ino) (h : List Step) : Prop where
  consistent : Consistent disk root h
  marked : new ∈ (disk.after h).used
  fresh : new ∉ disk.image.used
  apart : new ∉ directories root h
  unnamed : namings (disk.after h) new = []

section Steps

variable {disk : Disk} {root new parent : Ino} {h : List Step} {name : Name}

theorem after_idle (disk : Disk) (root : Ino) (h : List Step) {step : Step} (hidle : Idle step) :
    (disk.after (step :: h)).used = (disk.after h).used ∧
      (disk.after (step :: h)).entries = (disk.after h).entries ∧
      directories root (step :: h) = directories root h := by
  cases step with
  | request what again done =>
      cases done with
      | true => exact hidle.elim
      | false =>
          rw [after_request_failed]
          cases what <;> exact ⟨rfl, rfl, rfl⟩
  | allocStats ino => exact hidle.elim
  | expandDir what done => cases done <;> exact ⟨rfl, rfl, rfl⟩
  | writeNewInode ino inode done => cases done <;> exact ⟨rfl, rfl, rfl⟩
  | fileFlush f done =>
      obtain ⟨hused, -, hentries⟩ :=
        after_onContent disk h (show (Step.fileFlush f done).OnContent from trivial)
      exact ⟨hused, hentries, rfl⟩
  | fileClose purpose f done =>
      obtain ⟨hused, -, hentries⟩ :=
        after_onContent disk h (show (Step.fileClose purpose f done).OnContent from trivial)
      exact ⟨hused, hentries, rfl⟩
  | _ => exact ⟨rfl, rfl, rfl⟩

theorem namings_congr {image image' : Image} (hentries : image'.entries = image.entries)
    (ino : Ino) : namings image' ino = namings image ino := by
  rw [namings, hentries, namings]

theorem Consistent.idle {step : Step} (hconsistent : Consistent disk root h) (hidle : Idle step) :
    Consistent disk root (step :: h) := by
  obtain ⟨hused, hentries, hdirectories⟩ := after_idle disk root h hidle
  have hnamings := namings_congr hentries
  constructor
  · exact hused ▸ hconsistent.used
  · exact hused ▸ hconsistent.grown
  · rw [hused, hdirectories]
    exact hconsistent.known
  · rw [hused, hentries]
    exact hconsistent.referenced
  · rw [hentries, hdirectories]
    exact hconsistent.inside
  · intro ino hino
    rw [hnamings]
    exact hconsistent.once ino hino
  · intro ino hino hne
    rw [hdirectories] at hino ⊢
    rw [hnamings, hentries]
    exact hconsistent.directory ino hino hne
  · intro ino hino
    rw [hdirectories] at hino
    exact (hconsistent.reached ino hino).mono (hentries ▸ List.Subset.refl _)

theorem Waiting.idle {step : Step} (hwaiting : Waiting disk root new h) (hidle : Idle step) :
    Waiting disk root new (step :: h) := by
  obtain ⟨hused, hentries, hdirectories⟩ := after_idle disk root h hidle
  refine ⟨hwaiting.consistent.idle hidle, ?_, hwaiting.fresh, ?_, ?_⟩
  · exact hused ▸ hwaiting.marked
  · exact hdirectories ▸ hwaiting.apart
  · rw [namings_congr hentries]
    exact hwaiting.unnamed

/-- A free inode is marked. -/
theorem Consistent.allocate (hconsistent : Consistent disk root h)
    (hnew : new ∉ (disk.after h).used) : Waiting disk root new (.allocStats new :: h) := by
  have hsubset : (disk.after h).used ⊆ ((disk.after h).allocate new).used :=
    List.subset_cons_self _ _
  have hentries : (disk.after (.allocStats new :: h)).entries = (disk.after h).entries := rfl
  refine ⟨⟨?_, ?_, ?_, ?_, hconsistent.inside, ?_, ?_, ?_⟩, List.mem_cons_self, ?_, ?_, ?_⟩
  · exact List.nodup_cons.mpr ⟨hnew, hconsistent.used⟩
  · exact List.Subset.trans hconsistent.grown hsubset
  · exact List.Subset.trans hconsistent.known hsubset
  · exact fun entry hentry => hsubset (hconsistent.referenced entry hentry)
  · exact hconsistent.once
  · exact hconsistent.directory
  · intro ino hino
    exact (hconsistent.reached ino hino).mono (hentries ▸ List.Subset.refl _)
  · exact fun hmem => hnew (hconsistent.grown hmem)
  · exact fun hmem => hnew (hconsistent.known hmem)
  · rw [namings_congr hentries]
    exact namings_eq_nil fun entry hentry heq => hnew (heq ▸ hconsistent.referenced entry hentry)

/-- It gets its name. -/
theorem Waiting.link (hwaiting : Waiting disk root new h) (hparent : parent ∈ directories root h)
    (hname : name ≠ dot ∧ name ≠ dotDot) (again : Bool) (type : FileType) :
    Consistent disk root (.request (.link parent name new type) again true :: h) := by
  obtain ⟨hconsistent, hmarked, hfresh, hapart, hunnamed⟩ := hwaiting
  have hafter : disk.after (.request (.link parent name new type) again true :: h) =
      (disk.after h).link parent ⟨name, new, type⟩ := rfl
  have hmore : (disk.after h).entries ⊆
      ((disk.after h).link parent ⟨name, new, type⟩).entries := List.subset_cons_self _ _
  refine ⟨hconsistent.used, hconsistent.grown, hconsistent.known, ?_, ?_, ?_, ?_, ?_⟩
  · intro entry hentry
    rcases List.mem_cons.mp hentry with rfl | hentry
    · exact hmarked
    · exact hconsistent.referenced entry hentry
  · intro entry hentry
    rcases List.mem_cons.mp hentry with rfl | hentry
    · exact .inr hparent
    · exact hconsistent.inside entry hentry
  · intro ino hino
    rw [hafter]
    by_cases heq : new = ino
    · subst heq
      have hself : namings ((disk.after h).link parent ⟨name, new, type⟩) new =
          (parent, ⟨name, new, type⟩) :: namings (disk.after h) new := namings_link_self hname
      rw [hself, hunnamed]
      exact le_rfl
    · rw [namings_link_of_ne heq]
      exact hconsistent.once ino hino
  · intro ino hino hne
    have hother : new ≠ ino := fun heq => hapart (heq ▸ hino)
    obtain ⟨dir, hdir, above, hnamings, hdot, hdotDot⟩ := hconsistent.directory ino hino hne
    refine ⟨dir, hdir, above, ?_, hmore hdot, hmore hdotDot⟩
    rw [hafter, namings_link_of_ne hother]
    exact hnamings
  · exact fun ino hino => (hconsistent.reached ino hino).mono hmore

theorem directories_mkdir (again : Bool) {ino : Ino} :
    ino ∈ directories root (.request (.mkdir parent new name) again true :: h) ↔
      ino = new ∨ ino ∈ directories root h := by
  have hlist : directories root (.request (.mkdir parent new name) again true :: h) =
      root :: new :: (directories root h).tail := rfl
  have hhead : directories root h = root :: (directories root h).tail := rfl
  rw [hlist, hhead]
  simp only [List.mem_cons, List.tail_cons]
  exact or_left_comm

/-- A directory is made. -/
theorem Consistent.mkdir (hconsistent : Consistent disk root h)
    (hnew : new ∉ (disk.after h).used) (hparent : parent ∈ directories root h)
    (hname : name ≠ dot ∧ name ≠ dotDot) (again : Bool) :
    Consistent disk root (.request (.mkdir parent new name) again true :: h) := by
  have hafter : disk.after (.request (.mkdir parent new name) again true :: h) =
      (disk.after h).mkdir disk.directory parent new name := rfl
  have hmore : (disk.after h).entries ⊆
      ((disk.after h).mkdir disk.directory parent new name).entries := by
    intro entry hentry
    exact List.mem_cons_of_mem _ (List.mem_cons_of_mem _ (List.mem_cons_of_mem _ hentry))
  have hunnamed : namings (disk.after h) new = [] :=
    namings_eq_nil fun entry hentry heq => hnew (heq ▸ hconsistent.referenced entry hentry)
  have hself : namings ((disk.after h).mkdir disk.directory parent new name) new =
      [(parent, ⟨name, new, .EXT2_FT_DIR⟩)] := by
    rw [namings_mkdir_self hname, hunnamed]
  have hothers : ∀ {ino}, ino ∈ directories root h → new ≠ ino := by
    rintro ino hino rfl
    exact hnew (hconsistent.known hino)
  have hold : ∀ {ino}, ino ∈ directories root h →
      ino ∈ directories root (.request (.mkdir parent new name) again true :: h) :=
    fun hino => (directories_mkdir again).mpr (.inr hino)
  have hcases : ∀ entry ∈ (disk.after (.request (.mkdir parent new name) again true :: h)).entries,
      entry = (parent, ⟨name, new, .EXT2_FT_DIR⟩) ∨ entry = (new, ⟨dot, new, .EXT2_FT_DIR⟩) ∨
        entry = (new, ⟨dotDot, parent, .EXT2_FT_DIR⟩) ∨ entry ∈ (disk.after h).entries := by
    intro entry hentry
    simpa [Disk.after, Step.image, Image.mkdir] using hentry
  refine ⟨?_, ?_, ?_, ?_, ?_, ?_, ?_, ?_⟩
  · exact List.nodup_cons.mpr ⟨hnew, hconsistent.used⟩
  · exact fun ino hino => List.mem_cons_of_mem _ (hconsistent.grown hino)
  · intro ino hino
    rcases (directories_mkdir again).mp hino with rfl | hino
    · exact List.mem_cons_self
    · exact List.mem_cons_of_mem _ (hconsistent.known hino)
  · intro entry hentry
    rcases hcases entry hentry with rfl | rfl | rfl | hentry
    · exact List.mem_cons_self
    · exact List.mem_cons_self
    · exact List.mem_cons_of_mem _ (hconsistent.known hparent)
    · exact List.mem_cons_of_mem _ (hconsistent.referenced entry hentry)
  · intro entry hentry
    rcases hcases entry hentry with rfl | rfl | rfl | hentry
    · exact .inr (hold hparent)
    · exact .inr ((directories_mkdir again).mpr (.inl rfl))
    · exact .inr ((directories_mkdir again).mpr (.inl rfl))
    · exact (hconsistent.inside entry hentry).imp_right hold
  · intro ino hino
    rw [hafter]
    by_cases heq : new = ino
    · rw [← heq, hself]
      exact le_rfl
    · rw [namings_mkdir_of_ne heq]
      exact hconsistent.once ino hino
  · intro ino hino hne
    rcases (directories_mkdir again).mp hino with rfl | hino
    · refine ⟨parent, hold hparent, name, hself, ?_, ?_⟩
      · exact List.mem_cons_of_mem _ List.mem_cons_self
      · exact List.mem_cons_of_mem _ (List.mem_cons_of_mem _ List.mem_cons_self)
    · obtain ⟨dir, hdir, above, hnamings, hdot, hdotDot⟩ := hconsistent.directory ino hino hne
      refine ⟨dir, hold hdir, above, ?_, hmore hdot, hmore hdotDot⟩
      rw [hafter, namings_mkdir_of_ne (hothers hino)]
      exact hnamings
  · intro ino hino
    rcases (directories_mkdir again).mp hino with rfl | hino
    · exact .inside ((hconsistent.reached parent hparent).mono hmore) List.mem_cons_self hname
    · exact (hconsistent.reached ino hino).mono hmore

end Steps

/-! ## One entry -/

/-- Nothing is asked of the answers. -/
abbrev fine (_ : List Step) (_ : Step) : Prop := True

/-- What holds in front of every step. -/
abbrev Sound (disk : Disk) (root : Ino) (h : List Step) (_ : Step) : Prop :=
  Consistent disk root h

section Entry

variable {disk : Disk} {root new parent : Ino} {world : World} {h : List Step} {name : Name}

theorem idle_of_onContent {step : Step} (hkind : step.OnContent) : Idle step := by
  cases step <;> first | exact hkind.elim | trivial

theorem idle_of_onInode {step : Step} (hkind : step.OnInode) : Idle step := by
  cases step <;> first | exact hkind.elim | trivial

theorem only_idle {α : Type} {kind : Step → Prop} {prog : Trace α} (honly : Only kind prog)
    (hidle : ∀ {step}, kind step → Idle step) : Only Idle prog := by
  intro h
  obtain ⟨newer, hnewer, hkind⟩ := honly h
  exact ⟨newer, hnewer, fun step hstep => hidle (hkind step hstep)⟩

theorem waiting_of_idle {α : Type} {prog : Trace α} (honly : Only Idle prog)
    (hwaiting : Waiting disk root new h) :
    Ensures fine (Sound disk root) prog (fun _ => Waiting disk root new) h :=
  ensures_of_only honly (fun _ _ hidle hwaiting _ => ⟨hwaiting.consistent, hwaiting.idle hidle⟩)
    hwaiting

theorem consistent_of_idle {α : Type} {prog : Trace α} (honly : Only Idle prog)
    (hconsistent : Consistent disk root h) :
    Ensures fine (Sound disk root) prog (fun _ => Consistent disk root) h :=
  ensures_of_only honly (fun _ _ hidle hconsistent _ => ⟨hconsistent, hconsistent.idle hidle⟩)
    hconsistent

theorem idle_report (failure : Failure) : Only Idle (report failure name) :=
  only_emit trivial

theorem idle_of_attempts {what : Request} {step : Step} (hattempts : step.Attempts what) :
    Idle step := by
  cases step with
  | request what' again done =>
      obtain ⟨-, rfl⟩ := hattempts
      trivial
  | expandDir what' done => trivial
  | report failure name => trivial
  | _ => exact hattempts.elim

theorem linkEntry_consistent (hparent : parent ∈ directories root h)
    (hname : name ≠ dot ∧ name ≠ dotDot) (type : FileType)
    (hwaiting : Waiting disk root new h) :
    Ensures fine (Sound disk root) (linkEntry world parent name new type)
      (fun _ => Consistent disk root) h := by
  let ready (h : List Step) : Prop :=
    Waiting disk root new h ∧ parent ∈ directories root h
  have hretry : Ensures fine (Sound disk root)
      (retry world (.link parent name new type) .failedToCopy name)
      (fun made h' => if made then Consistent disk root h' else ready h') h := by
    apply ensures_retry (Consistent disk root) .failedToCopy
    · rintro h step hattempts ⟨hwaiting, hparent⟩ -
      refine ⟨hwaiting.consistent, hwaiting.idle (idle_of_attempts hattempts), ?_⟩
      exact directories_mono (List.suffix_cons step h) hparent
    · rintro h again ⟨hwaiting, hparent⟩ -
      exact ⟨hwaiting.consistent, hwaiting.link hparent hname again type⟩
    · exact ⟨hwaiting, hparent⟩
  apply hretry.bind
  intro made h' _ hmade
  apply ensures_pure
  cases made with
  | true => exact hmade
  | false => exact hmade.1.consistent

/-- The inode is written and marked, and what follows may name it. -/
theorem mark_consistent {next : Trace Unit} (failure : Failure) (inode : Ext2Inode)
    (hconsistent : Consistent disk root h) (hnew : new ∉ (disk.after h).used)
    (hnext : ∀ h', h <:+ h' → Waiting disk root new h' →
      Ensures fine (Sound disk root) next (fun _ => Consistent disk root) h') :
    Ensures fine (Sound disk root)
      (do
        writeNewInode world failure name new inode
        emit (.allocStats new)
        next) (fun _ => Consistent disk root) h := by
  have hwrite : Ensures fine (Sound disk root) (writeNewInode world failure name new inode)
      (fun _ h' => Consistent disk root h' ∧ new ∉ (disk.after h').used) h := by
    apply ensures_of_only (only_idle (only_writeNewInode world failure name new inode)
      idle_of_onInode)
    · rintro h step hidle ⟨hconsistent, hnew⟩ -
      refine ⟨hconsistent, hconsistent.idle hidle, ?_⟩
      rwa [(after_idle disk root h hidle).1]
    · exact ⟨hconsistent, hnew⟩
  apply hwrite.bind
  rintro _ h' hsuffix ⟨hconsistent, hnew⟩
  apply ensures_bind
  apply ensures_emit
  intro _
  exact ⟨hconsistent, hnext _ (hsuffix.trans (List.suffix_cons _ h')) (hconsistent.allocate hnew)⟩

theorem copyContent_consistent (fuel : ℕ) {fd : Fd} {f : Handle}
    (hparent : parent ∈ directories root h) (hname : name ≠ dot ∧ name ≠ dotDot)
    (hwaiting : Waiting disk root new h) :
    Ensures fine (Sound disk root) (copyContent world fuel parent new name fd f)
      (fun _ => Consistent disk root) h := by
  have hloop : Only Idle (copyLoop world fd f name fuel) :=
    only_idle (only_copyLoop world fd f name fuel) idle_of_onContent
  apply (waiting_of_idle hloop hwaiting).bind
  intro _ h₁ hsuffix₁ hwaiting
  have hclosing : Only Idle (fileClose world .file (some f)) :=
    only_idle (only_fileClose world .file (some f)) idle_of_onContent
  apply (waiting_of_idle hclosing hwaiting).bind
  intro done h₂ hsuffix₂ hwaiting
  have hreport : Only Idle (reportUnless done .closing name) :=
    only_reportUnless (fun _ _ => trivial) done .closing name
  apply (waiting_of_idle hreport hwaiting).bind
  intro _ h₃ hsuffix₃ hwaiting
  have hclose : Only Idle (emit (.close fd) : Trace Unit) := only_emit trivial
  apply (waiting_of_idle hclose hwaiting).bind
  intro _ h₄ hsuffix₄ hwaiting
  have hsuffix : h <:+ h₄ := ((hsuffix₁.trans hsuffix₂).trans hsuffix₃).trans hsuffix₄
  exact linkEntry_consistent (directories_mono hsuffix hparent) hname .EXT2_FT_REG_FILE hwaiting

theorem copyRegular_consistent (fuel : ℕ) (info : Stat) (hparent : parent ∈ directories root h)
    (hname : name ≠ dot ∧ name ≠ dotDot) (hconsistent : Consistent disk root h)
    (hnew : new ∉ (disk.after h).used) :
    Ensures fine (Sound disk root) (copyRegular world fuel parent new name info)
      (fun _ => Consistent disk root) h := by
  apply mark_consistent .fileAttributes (regularInode info) hconsistent hnew
  intro h₁ hsuffix₁ hwaiting
  have hopen : Only Idle
      (call (fun h => world.openFile h name) (.openFile name) : Trace (Option Fd)) :=
    only_call fun _ => trivial
  apply (waiting_of_idle hopen hwaiting).bind
  intro fd h₂ hsuffix₂ hwaiting
  cases fd with
  | none => exact consistent_of_idle (idle_report .openFile) hwaiting.consistent
  | some fd =>
      have hcreate : Only Idle
          (call (fun h => world.file_open h new) (.fileOpen .file new) : Trace (Option Handle)) :=
        only_call fun _ => trivial
      apply (waiting_of_idle hcreate hwaiting).bind
      intro f h₃ hsuffix₃ hwaiting
      have hsuffix : h <:+ h₃ := (hsuffix₁.trans hsuffix₂).trans hsuffix₃
      cases f with
      | none => exact consistent_of_idle (idle_report .createFile) hwaiting.consistent
      | some f =>
          exact copyContent_consistent fuel (directories_mono hsuffix hparent) hname hwaiting

theorem copySpecial_consistent (info : Stat) (hparent : parent ∈ directories root h)
    (hname : name ≠ dot ∧ name ≠ dotDot) (hconsistent : Consistent disk root h)
    (hnew : new ∉ (disk.after h).used) :
    Ensures fine (Sound disk root) (copySpecial world parent new name info)
      (fun _ => Consistent disk root) h := by
  rw [copySpecial]
  split
  · exact consistent_of_idle (idle_report .notFileOrDir) hconsistent
  · rename_i type _
    apply mark_consistent .deviceInode (specialInode info) hconsistent hnew
    intro h₁ hsuffix₁ hwaiting
    have hsymlink : Only Idle (copySymlink world type new name info) :=
      only_idle (only_copySymlink world type new name info) idle_of_onContent
    apply (waiting_of_idle hsymlink hwaiting).bind
    intro _ h₂ hsuffix₂ hwaiting
    have hsuffix : h <:+ h₂ := hsuffix₁.trans hsuffix₂
    exact linkEntry_consistent (directories_mono hsuffix hparent) hname type hwaiting

variable {trawl : Ino → Trace Unit}

theorem copyDirectory_consistent
    (htrawl : ∀ ino h, Consistent disk root h ∧ ino ∈ directories root h →
      Ensures fine (Sound disk root) (trawl ino)
        (fun _ h' => Consistent disk root h' ∧ ino ∈ directories root h') h)
    (hparent : parent ∈ directories root h) (hname : name ≠ dot ∧ name ≠ dotDot)
    (hconsistent : Consistent disk root h) (hnew : new ∉ (disk.after h).used) :
    Ensures fine (Sound disk root) (copyDirectory world trawl parent new name)
      (fun _ => Consistent disk root) h := by
  let ready (h : List Step) : Prop :=
    Consistent disk root h ∧ new ∉ (disk.after h).used ∧ parent ∈ directories root h
  let made (h : List Step) : Prop := Consistent disk root h ∧ new ∈ directories root h
  have hretry : Ensures fine (Sound disk root)
      (retry world (.mkdir parent new name) .createDir name)
      (fun done h' => if done then made h' else ready h') h := by
    apply ensures_retry made .createDir
    · rintro h step hattempts ⟨hconsistent, hnew, hparent⟩ -
      have hidle := idle_of_attempts hattempts
      refine ⟨hconsistent, hconsistent.idle hidle, ?_, ?_⟩
      · rwa [(after_idle disk root h hidle).1]
      · exact directories_mono (List.suffix_cons step h) hparent
    · rintro h again ⟨hconsistent, hnew, hparent⟩ -
      refine ⟨hconsistent, hconsistent.mkdir hnew hparent hname again, ?_⟩
      exact (directories_mkdir again).mpr (.inl rfl)
    · exact ⟨hconsistent, hnew, hparent⟩
  have hchdir : ∀ target, Only Idle (chdir world target) := fun _ => only_call fun _ => trivial
  apply hretry.bind
  intro done h' _ hdone
  cases done with
  | false => exact ensures_pure hdone.1
  | true =>
      obtain ⟨hconsistent, hmem⟩ := hdone
      apply (consistent_of_idle (hchdir name) hconsistent).bind
      intro entered h'' hsuffix hconsistent
      cases entered with
      | false => exact consistent_of_idle (idle_report .chdir) hconsistent
      | true =>
          apply (htrawl new h'' ⟨hconsistent, directories_mono hsuffix hmem⟩).bind
          intro _ h₃ _ hback
          apply (consistent_of_idle (hchdir dotDot) hback.1).bind
          exact fun _ _ _ hconsistent => ensures_pure hconsistent

theorem copyEntry_consistent (hfree : Free disk world)
    (htrawl : ∀ ino h, Consistent disk root h ∧ ino ∈ directories root h →
      Ensures fine (Sound disk root) (trawl ino)
        (fun _ h' => Consistent disk root h' ∧ ino ∈ directories root h') h) (fuel : ℕ)
    (hparent : parent ∈ directories root h) (hconsistent : Consistent disk root h) :
    Ensures fine (Sound disk root) (copyEntry world trawl fuel parent name)
      (fun _ => Consistent disk root) h := by
  apply ensures_bind
  apply ensures_emit
  intro _
  refine ⟨hconsistent, ?_⟩
  have hbegun : Consistent disk root (.entry name :: h) := hconsistent.idle trivial
  by_cases hdots : name = dot ∨ name = dotDot
  · rw [if_pos hdots]
    exact ensures_pure hbegun
  · rw [if_neg hdots]
    have hname : name ≠ dot ∧ name ≠ dotDot := not_or.mp hdots
    apply ensures_bind
    apply ensures_call
    intro _
    refine ⟨hbegun, ?_⟩
    generalize world.lstat _ name = found
    have hseen : Consistent disk root (.lstat name found :: .entry name :: h) :=
      hbegun.idle trivial
    cases found with
    | none => exact consistent_of_idle (idle_report .lstat) hseen
    | some info =>
        apply ensures_bind
        apply ensures_call
        intro _
        refine ⟨hseen, ?_⟩
        cases hino : world.new_inode (.lstat name (some info) :: .entry name :: h) parent
            info.st_mode with
        | none => exact consistent_of_idle (idle_report .newInode) (hseen.idle trivial)
        | some new =>
            have hunused := hfree _ _ _ _ hino
            have hgiven : Consistent disk root (.newInode parent info.st_mode (some new) ::
                .lstat name (some info) :: .entry name :: h) := hseen.idle trivial
            have hparent' : parent ∈ directories root (.newInode parent info.st_mode (some new) ::
                .lstat name (some info) :: .entry name :: h) := hparent
            simp only [copyNew]
            split
            · exact copyDirectory_consistent htrawl hparent' hname hgiven hunused
            · split
              · exact copyRegular_consistent fuel info hparent' hname hgiven hunused
              · exact copySpecial_consistent info hparent' hname hgiven hunused

theorem trawlDir_sound (hfree : Free disk world) (depth fuel : ℕ)
    (hparent : parent ∈ directories root h) (hconsistent : Consistent disk root h) :
    Ensures fine (Sound disk root) (trawlDir world depth fuel parent)
      (fun _ h' => Consistent disk root h' ∧ parent ∈ directories root h') h := by
  apply @ensures_trawlDir world fine (Sound disk root)
    (fun parent h => Consistent disk root h ∧ parent ∈ directories root h)
  · rintro parent h names ⟨hconsistent, hparent⟩
    exact ⟨hconsistent, hconsistent.idle trivial, hparent⟩
  · rintro trawl htrawl parent name h ⟨hconsistent, hparent⟩
    apply (copyEntry_consistent hfree htrawl fuel hparent hconsistent).mono
    intro _ h' hsuffix hdone
    exact ⟨hdone, directories_mono hsuffix hparent⟩
  · rintro parent h ⟨hconsistent, hparent⟩
    exact ⟨hconsistent, hconsistent.idle trivial, hparent⟩
  · exact ⟨hconsistent, hparent⟩

end Entry

/-! ## Every run -/

theorem consistent_nil {disk : Disk} {root : Ino} (hused : disk.image.used.Nodup)
    (hroot : root ∈ disk.image.used)
    (hreferenced : ∀ entry ∈ disk.image.entries, entry.2.ino ∈ disk.image.used) :
    Consistent disk root [] := by
  refine ⟨hused, List.Subset.refl _, ?_, hreferenced, fun _ hentry => .inl hentry, ?_, ?_, ?_⟩
  · exact fun ino hino => List.mem_singleton.mp hino ▸ hroot
  · intro ino hino
    have hnone : ∀ entry ∈ disk.image.entries, entry.2.ino ≠ ino := by
      intro entry hentry heq
      exact hino (heq ▸ hreferenced entry hentry)
    rw [Disk.after, namings_eq_nil hnone]
    exact Nat.zero_le 1
  · exact fun ino hino hne => absurd (List.mem_singleton.mp hino) hne
  · exact fun ino hino => List.mem_singleton.mp hino ▸ .root

/-- Whatever the calls answer, as long as the library gives inodes that are
free: the image is consistent in front of every call and at the end. -/
theorem trawlDir_consistent (disk : Disk) (world : World) (depth fuel : ℕ) (root : Ino)
    (hused : disk.image.used.Nodup) (hroot : root ∈ disk.image.used)
    (hreferenced : ∀ entry ∈ disk.image.entries, entry.2.ino ∈ disk.image.used)
    (hfree : Free disk world) :
    Always (Sound disk root) ((trawlDir world depth fuel root).exec []).1 ∧
      (((trawlDir world depth fuel root).exec []).2 = .ok () →
        Consistent disk root ((trawlDir world depth fuel root).exec []).1) := by
  have hstart : Consistent disk root [] := consistent_nil hused hroot hreferenced
  have hfine : Always fine ((trawlDir world depth fuel root).exec []).1 :=
    always_of_forall_mem fun _ _ => trivial
  obtain ⟨hsound, hreturns⟩ :=
    (trawlDir_sound hfree depth fuel List.mem_cons_self hstart).run hfine
  exact ⟨hsound, fun hok => (hreturns () hok).1⟩

theorem trawlDir_consistent_smallWorld :
    Always (Sound newDisk 2) ((trawlDir smallWorld 4 4 2).exec []).1 ∧
      (((trawlDir smallWorld 4 4 2).exec []).2 = .ok () →
        Consistent newDisk 2 ((trawlDir smallWorld 4 4 2).exec []).1) :=
  trawlDir_consistent newDisk smallWorld 4 4 2 (by decide) (by decide) (by decide)
    smallWorld_free

end Tcb.Consistency
