import Tcb.Mke2Img.Calls

/-!
# The way through the tree

Whatever fails, every directory that is opened is read to its end, each of its
names is taken up once, and before the next one an entry has been made for it,
in the inode of the directory that listed it, or a message has been printed with
its name.  The process looks at a name in the directory that listed it, as long
as it has come back from every directory that it went into.
-/

namespace Tcb.Itinerary

open Tcb.CString
open Tcb.Inodes
open Tcb.SourceTree
open Tcb.Ext2fs
open Tcb.TrawlDir (Failure linkBuffer regularInode specialInode specialType)
open Tcb.Traced
open Tcb.Calls

/-! ## Where the copy is -/

/-- A directory that is being read: where the process was when it was opened,
its inode in the image, the entry at hand, and the names behind that. -/
structure Visit where
  place : List Name
  ino : Ino
  entry : Option Name
  names : List Name
  deriving DecidableEq

/-- The working directory, the directories that are being read, the innermost
first, the entry at hand while nothing has been made or said for it, and the
inode of the directory that was made last. -/
structure Route where
  cwd : List Name
  visits : List Visit
  pending : Option Name
  made : Ino
  deriving DecidableEq

def Route.told (route : Route) (name : Name) : Route :=
  if route.pending = some name then { route with pending := none } else route

def Route.begin (route : Route) (name : Name) : Route :=
  match route.visits with
  | [] => route
  | visit :: rest =>
      { route with
        visits := { visit with entry := some name, names := visit.names.tail } :: rest
        pending := if name = dot ∨ name = dotDot then none else some name }

def Step.route : Step → Route → Route
  | .opendir (some names), route =>
      { route with visits := ⟨route.cwd, route.made, none, names⟩ :: route.visits }
  | .entry name, route => route.begin name
  | .closedir, route => { route with visits := route.visits.tail }
  | .chdir name true, route =>
      { route with
        cwd := if name = dotDot then route.cwd.dropLast else route.cwd ++ [name] }
  | .request (.mkdir _ ino name) _ true, route => { route.told name with made := ino }
  | .request (.link _ name _ _) _ true, route => route.told name
  | .report _ name, route => route.told name
  | _, route => route

def route (root : Ino) (h : List Step) : Route :=
  h.foldr Step.route ⟨[], [], none, root⟩

theorem route_cons (root : Ino) (step : Step) (h : List Step) :
    route root (step :: h) = Step.route step (route root h) := rfl

/-- The process has not come back from a directory. -/
def Strayed (h : List Step) : Prop := .chdir dotDot false ∈ h

instance (h : List Step) : Decidable (Strayed h) := inferInstanceAs (Decidable (_ ∈ h))

theorem Strayed.cons {h : List Step} (step : Step) (hstrayed : Strayed h) : Strayed (step :: h) :=
  List.mem_cons_of_mem step hstrayed

theorem Strayed.of_suffix {h h' : List Step} (hstrayed : Strayed h) (hsuffix : h <:+ h') :
    Strayed h' :=
  hsuffix.subset hstrayed

/-- The name for which a request makes an entry. -/
def nameOf : Request → Name
  | .mkdir _ _ name => name
  | .link _ name _ _ => name

/-- A step for the entry at hand, made in the directory that listed it. -/
def AtHand (root : Ino) (h : List Step) (name : Name) : Prop :=
  ∃ visit rest, (route root h).visits = visit :: rest ∧ visit.entry = some name ∧
    (¬ Strayed h → (route root h).cwd = visit.place)

/-- A step for the entry at hand, in the inode of the directory that listed
it. -/
def InInode (root : Ino) (h : List Step) (dir : Ino) (name : Name) : Prop :=
  ∃ visit rest, (route root h).visits = visit :: rest ∧ visit.ino = dir ∧
    visit.entry = some name

/-- What is asked of each step on the way. -/
def OnRoute (root : Ino) (h : List Step) : Step → Prop
  | .opendir _ => ∀ visit ∈ (route root h).visits.head?, ∃ name, visit.entry = some name ∧
      (¬ Strayed h → (route root h).cwd = visit.place ++ [name])
  | .entry name => (route root h).pending = none ∧ ∃ visit rest names,
      (route root h).visits = visit :: rest ∧ visit.names = name :: names
  | .closedir => (route root h).pending = none ∧ ∃ visit rest,
      (route root h).visits = visit :: rest ∧ visit.names = []
  | .lstat name _ | .openFile name _ | .readlink name _ => AtHand root h name
  | .chdir name _ => if name = dotDot then
        ∃ visit rest entry, (route root h).visits = visit :: rest ∧ visit.entry = some entry ∧
          (¬ Strayed h → (route root h).cwd = visit.place ++ [entry])
      else AtHand root h name
  | .newInode dir _ _ => ∃ name, InInode root h dir name
  | .request what _ _ | .expandDir what _ => InInode root h what.dir (nameOf what)
  | .report _ name => ∃ dir, InInode root h dir name
  | _ => True

/-! ## One entry -/

/-- The steps for an entry that is no directory, apart from the ones that begin
it. -/
def Within (dir : Ino) (name : Name) : Step → Prop
  | .request what _ _ => (∃ ino type, what = .link dir name ino type)
  | .expandDir what _ => what.dir = dir ∧ nameOf what = name
  | .openFile name' _ | .readlink name' _ | .report _ name' => name' = name
  | .writeNewInode _ _ _ | .allocStats _ | .fileOpen _ _ _ | .read _ _ _ => True
  | .fileWrite _ _ _ _ _ | .fileFlush _ _ | .fileClose _ _ _ | .close _ => True
  | _ => False

/-- The directory is being read, and nothing or the entry at hand is
pending. -/
structure Reading (root : Ino) (visit : Visit) (rest : List Visit) (h : List Step) : Prop where
  visits : (route root h).visits = visit :: rest
  place : ¬ Strayed h → (route root h).cwd = visit.place
  pending : (route root h).pending = none ∨ (route root h).pending = visit.entry

/-- The same, and the entry at hand has been told. -/
def Told (root : Ino) (visit : Visit) (rest : List Visit) (h : List Step) : Prop :=
  Reading root visit rest h ∧ (route root h).pending = none

section Entry

variable {world : World} {root : Ino} {visit : Visit} {rest : List Visit} {h : List Step}
  {name : Name}

theorem told_visits (route : Route) (name : Name) : (route.told name).visits = route.visits := by
  rw [Route.told]
  split <;> rfl

theorem told_cwd (route : Route) (name : Name) : (route.told name).cwd = route.cwd := by
  rw [Route.told]
  split <;> rfl

theorem Reading.told_pending (hreading : Reading root visit rest h)
    (hentry : visit.entry = some name) : ((route root h).told name).pending = none := by
  rw [Route.told]
  split
  · rfl
  · rename_i hother
    exact hreading.pending.resolve_right fun heq => hother (heq.trans hentry)

theorem Reading.atHand (hreading : Reading root visit rest h) (hentry : visit.entry = some name) :
    AtHand root h name :=
  ⟨visit, rest, hreading.visits, hentry, hreading.place⟩

theorem Reading.inInode (hreading : Reading root visit rest h) (hentry : visit.entry = some name) :
    InInode root h visit.ino name :=
  ⟨visit, rest, hreading.visits, rfl, hentry⟩

/-- A step that leaves the route alone. -/
theorem Reading.quiet {step : Step} (hreading : Reading root visit rest h)
    (hroute : ∀ route, Step.route step route = route) : Reading root visit rest (step :: h) := by
  have hsame : route root (step :: h) = route root h := hroute _
  refine ⟨?_, fun hback => ?_, ?_⟩
  · rw [hsame]
    exact hreading.visits
  · rw [hsame]
    exact hreading.place fun hstrayed => hback (hstrayed.cons step)
  · rw [hsame]
    exact hreading.pending

/-- A step that tells the entry at hand. -/
theorem Reading.telling {step : Step} (hreading : Reading root visit rest h)
    (hentry : visit.entry = some name)
    (hvisits : ∀ route, (Step.route step route).visits = (route.told name).visits)
    (hcwd : ∀ route, (Step.route step route).cwd = (route.told name).cwd)
    (hpending : ∀ route, (Step.route step route).pending = (route.told name).pending) :
    Told root visit rest (step :: h) := by
  have hnone : (route root (step :: h)).pending = none :=
    (hpending _).trans (hreading.told_pending hentry)
  refine ⟨⟨?_, fun hback => ?_, .inl hnone⟩, hnone⟩
  · rw [route_cons, hvisits, told_visits]
    exact hreading.visits
  · rw [route_cons, hcwd, told_cwd]
    exact hreading.place fun hstrayed => hback (hstrayed.cons step)

theorem Reading.report (hreading : Reading root visit rest h) (hentry : visit.entry = some name)
    (failure : Failure) : Told root visit rest (.report failure name :: h) :=
  hreading.telling hentry (fun _ => rfl) (fun _ => rfl) fun _ => rfl

/-- What the steps of an entry keep. -/
theorem within_keeps (hentry : visit.entry = some name) {step : Step}
    (hwithin : Within visit.ino name step) (hreading : Reading root visit rest h) :
    OnRoute root h step ∧ Reading root visit rest (step :: h) := by
  cases step with
  | request what again done =>
      obtain ⟨ino, type, rfl⟩ := hwithin
      refine ⟨hreading.inInode hentry, ?_⟩
      cases done with
      | false => exact hreading.quiet fun _ => rfl
      | true =>
          exact (hreading.telling hentry (fun _ => rfl) (fun _ => rfl) fun _ => rfl).1
  | expandDir what done =>
      obtain ⟨hdir, hname⟩ := hwithin
      refine ⟨?_, hreading.quiet fun _ => rfl⟩
      rw [OnRoute, hdir, hname]
      exact hreading.inInode hentry
  | openFile other fd =>
      obtain rfl : other = name := hwithin
      exact ⟨hreading.atHand hentry, hreading.quiet fun _ => rfl⟩
  | readlink other target =>
      obtain rfl : other = name := hwithin
      exact ⟨hreading.atHand hentry, hreading.quiet fun _ => rfl⟩
  | report failure other =>
      obtain rfl : other = name := hwithin
      exact ⟨⟨_, hreading.inInode hentry⟩, (hreading.report hentry failure).1⟩
  | writeNewInode ino inode done => exact ⟨trivial, hreading.quiet fun _ => rfl⟩
  | allocStats ino => exact ⟨trivial, hreading.quiet fun _ => rfl⟩
  | fileOpen purpose ino f => exact ⟨trivial, hreading.quiet fun _ => rfl⟩
  | read fd count bytes => exact ⟨trivial, hreading.quiet fun _ => rfl⟩
  | fileWrite source f held count out => exact ⟨trivial, hreading.quiet fun _ => rfl⟩
  | fileFlush f done => exact ⟨trivial, hreading.quiet fun _ => rfl⟩
  | fileClose purpose f done => exact ⟨trivial, hreading.quiet fun _ => rfl⟩
  | close fd => exact ⟨trivial, hreading.quiet fun _ => rfl⟩
  | _ => exact hwithin.elim

/-! ## The calls for an entry -/

/-- Nothing is asked of the answers. -/
abbrev fine (_ : List Step) (_ : Step) : Prop := True

theorem reading_of_only {α : Type} {prog : Trace α} (hentry : visit.entry = some name)
    (honly : Only (Within visit.ino name) prog) (hreading : Reading root visit rest h) :
    Ensures fine (OnRoute root) prog (fun _ => Reading root visit rest) h :=
  ensures_of_only honly (fun _ _ hwithin hreading _ => within_keeps hentry hwithin hreading)
    hreading

section Only

variable {dir : Ino}

theorem within_report (failure : Failure) : Only (Within dir name) (report failure name) :=
  only_emit rfl

theorem within_reportUnless (done : Bool) (failure : Failure) :
    Only (Within dir name) (reportUnless done failure name) := by
  rw [reportUnless]
  split
  · exact only_pure ()
  · exact within_report failure

theorem within_writeNewInode (failure : Failure) (ino : Ino) (inode : Ext2Inode) :
    Only (Within dir name) (writeNewInode world failure name ino inode) :=
  only_bind (only_call fun _ => trivial) fun done => within_reportUnless done failure

theorem within_fileClose (purpose : Buffer) (f : Option Handle) :
    Only (Within dir name) (fileClose world purpose f) :=
  only_perform fun _ => trivial

theorem within_copyBlock (f : Handle) (bytes : List Byte) :
    Only (Within dir name) (copyBlock world f name bytes) := by
  apply only_bind (only_perform fun _ => trivial)
  intro out
  split
  · apply only_bind (only_perform fun _ => trivial)
    exact fun done => within_reportUnless done .flushing
  · apply only_bind (within_report .copying)
    exact fun _ => only_bind (within_fileClose .file (some f)) fun _ => only_pure ()

theorem within_copyLoop (fd : Fd) (f : Handle) (fuel : ℕ) :
    Only (Within dir name) (copyLoop world fd f name fuel) := by
  induction fuel with
  | zero => exact only_stop _
  | succ fuel ih =>
      apply only_bind (only_bind (only_perform fun _ => trivial) fun _ => only_pure _)
      intro bytes
      split
      · exact only_pure ()
      · exact only_bind (within_copyBlock f bytes) fun _ => ih

theorem within_copySymlink (type : FileType) (new : Ino) (info : Stat) :
    Only (Within dir name) (copySymlink world type new name info) := by
  rw [copySymlink]
  split
  · rw [copyTarget]
    apply only_bind (only_call fun target => show Within dir name (.readlink name target) from rfl)
    intro target
    cases target with
    | none => exact within_report .readlink
    | some held =>
        apply only_bind (only_call fun _ => trivial)
        intro f
        cases f with
        | none =>
            apply only_bind (within_report .copyingSymlink)
            exact fun _ => only_bind (within_fileClose .link none) fun _ => only_pure ()
        | some f =>
            apply only_bind (only_perform fun _ => trivial)
            intro out
            apply only_bind (within_reportUnless out.isSome .copyingSymlink)
            exact fun _ => only_bind (within_fileClose .link (some f)) fun _ => only_pure ()
  · exact only_pure ()

end Only

theorem report_told (hentry : visit.entry = some name) (failure : Failure)
    (hreading : Reading root visit rest h) :
    Ensures fine (OnRoute root) (report failure name) (fun _ => Told root visit rest) h :=
  ensures_emit fun _ => ⟨⟨_, hreading.inInode hentry⟩, hreading.report hentry failure⟩

/-- An attempt tells the entry when it succeeds. -/
theorem Reading.request {what : Request} (hreading : Reading root visit rest h)
    (hentry : visit.entry = some name) (hname : nameOf what = name) (again : Bool) :
    Told root visit rest (.request what again true :: h) := by
  cases what with
  | mkdir dir ino other =>
      obtain rfl : other = name := hname
      exact hreading.telling hentry (fun _ => rfl) (fun _ => rfl) fun _ => rfl
  | link dir other ino type =>
      obtain rfl : other = name := hname
      exact hreading.telling hentry (fun _ => rfl) (fun _ => rfl) fun _ => rfl

theorem Reading.attempt {what : Request} (hreading : Reading root visit rest h) (again : Bool) :
    Reading root visit rest (.request what again false :: h) := by
  apply hreading.quiet
  cases what <;> exact fun _ => rfl

/-- The directory that a request has made, if it has. -/
def Made (root : Ino) : Request → List Step → Prop
  | .mkdir _ ino _, h => (route root h).made = ino
  | .link _ _ _ _, _ => True

theorem made_request (what : Request) (again : Bool) :
    Made root what (.request what again true :: h) := by
  cases what with
  | mkdir dir ino name => exact rfl
  | link dir name ino type => trivial

/-- Behind a request the entry has been told, and if it was granted, it is the
directory that was made last. -/
theorem retry_told {what : Request} (hentry : visit.entry = some name)
    (hdir : what.dir = visit.ino) (hname : nameOf what = name) (failure : Failure)
    (hreading : Reading root visit rest h) :
    Ensures fine (OnRoute root) (retry world what failure name)
      (fun done h' => Told root visit rest h' ∧ (done = true → Made root what h')) h := by
  have hinode : ∀ {h}, Reading root visit rest h → InInode root h what.dir (nameOf what) := by
    intro h hreading
    rw [hdir, hname]
    exact hreading.inInode hentry
  have hrequest : ∀ h again, Reading root visit rest h → Ensures fine (OnRoute root)
      (call (fun h => world.request h what) (.request what again) : Trace Bool)
      (fun done h' => Reading root visit rest h' ∧
        (done = true → Told root visit rest h' ∧ Made root what h')) h := by
    intro h again hreading
    apply ensures_call
    intro _
    refine ⟨hinode hreading, ?_⟩
    cases world.request h what with
    | true =>
        have htold := hreading.request hentry hname again
        exact ⟨htold.1, fun _ => ⟨htold, made_request what again⟩⟩
    | false => exact ⟨hreading.attempt again, fun hfalse => absurd hfalse Bool.false_ne_true⟩
  apply (hrequest h false hreading).bind
  intro done h' _ hdone
  cases done with
  | true => exact ensures_pure ⟨(hdone.2 rfl).1, fun _ => (hdone.2 rfl).2⟩
  | false =>
      apply ensures_bind
      apply ensures_call
      intro _
      refine ⟨hinode hdone.1, ?_⟩
      have hexpanded : Reading root visit rest
          (.expandDir what (world.expand_dir h' what.dir) :: h') := hdone.1.quiet fun _ => rfl
      cases hexpand : world.expand_dir h' what.dir with
      | true =>
          rw [hexpand] at hexpanded
          apply (hrequest _ true hexpanded).bind
          intro done h' _ hdone
          cases done with
          | true =>
              apply ensures_bind
              apply ensures_pure
              exact ensures_pure ⟨(hdone.2 rfl).1, fun _ => (hdone.2 rfl).2⟩
          | false =>
              apply (report_told hentry failure hdone.1).bind
              intro _ h' _ htold
              exact ensures_pure ⟨htold, fun hfalse => absurd hfalse Bool.false_ne_true⟩
      | false =>
          rw [hexpand] at hexpanded
          apply (report_told hentry .expandDir hexpanded).bind
          intro _ h' _ htold
          exact ensures_pure ⟨htold, fun hfalse => absurd hfalse Bool.false_ne_true⟩

theorem linkEntry_told (hentry : visit.entry = some name) (new : Ino) (type : FileType)
    (hreading : Reading root visit rest h) :
    Ensures fine (OnRoute root) (linkEntry world visit.ino name new type)
      (fun _ => Told root visit rest) h := by
  apply (retry_told hentry rfl rfl .failedToCopy hreading).bind
  exact fun _ _ _ hdone => ensures_pure hdone.1

theorem copyContent_told (hentry : visit.entry = some name) (fuel : ℕ) (new : Ino) (fd : Fd)
    (f : Handle) (hreading : Reading root visit rest h) :
    Ensures fine (OnRoute root) (copyContent world fuel visit.ino new name fd f)
      (fun _ => Told root visit rest) h := by
  apply (reading_of_only hentry (within_copyLoop fd f fuel) hreading).bind
  intro _ h' _ hreading
  apply (reading_of_only hentry (within_fileClose .file (some f)) hreading).bind
  intro done h' _ hreading
  apply (reading_of_only hentry (within_reportUnless done .closing) hreading).bind
  intro _ h' _ hreading
  have hclose : Only (Within visit.ino name) (emit (.close fd) : Trace Unit) := only_emit trivial
  apply (reading_of_only hentry hclose hreading).bind
  exact fun _ _ _ hreading => linkEntry_told hentry new .EXT2_FT_REG_FILE hreading

theorem copyRegular_told (hentry : visit.entry = some name) (fuel : ℕ) (new : Ino) (info : Stat)
    (hreading : Reading root visit rest h) :
    Ensures fine (OnRoute root) (copyRegular world fuel visit.ino new name info)
      (fun _ => Told root visit rest) h := by
  apply (reading_of_only hentry (within_writeNewInode _ _ _) hreading).bind
  intro _ h' _ hreading
  have halloc : Only (Within visit.ino name) (emit (.allocStats new) : Trace Unit) :=
    only_emit trivial
  apply (reading_of_only hentry halloc hreading).bind
  intro _ h' _ hreading
  have hopen : Only (Within visit.ino name)
      (call (fun h => world.openFile h name) (.openFile name) : Trace (Option Fd)) :=
    only_call fun fd => show Within visit.ino name (.openFile name fd) from rfl
  apply (reading_of_only hentry hopen hreading).bind
  intro fd h' _ hreading
  cases fd with
  | none => exact report_told hentry .openFile hreading
  | some fd =>
      have hcreate : Only (Within visit.ino name)
          (call (fun h => world.file_open h new) (.fileOpen .file new) : Trace (Option Handle)) :=
        only_call fun f => show Within visit.ino name (.fileOpen .file new f) from trivial
      apply (reading_of_only hentry hcreate hreading).bind
      intro f h' _ hreading
      cases f with
      | none => exact report_told hentry .createFile hreading
      | some f => exact copyContent_told hentry fuel new fd f hreading

theorem copySpecial_told (hentry : visit.entry = some name) (new : Ino) (info : Stat)
    (hreading : Reading root visit rest h) :
    Ensures fine (OnRoute root) (copySpecial world visit.ino new name info)
      (fun _ => Told root visit rest) h := by
  rw [copySpecial]
  split
  · exact report_told hentry .notFileOrDir hreading
  · rename_i type _
    apply (reading_of_only hentry (within_writeNewInode _ _ _) hreading).bind
    intro _ h' _ hreading
    have halloc : Only (Within visit.ino name) (emit (.allocStats new) : Trace Unit) :=
      only_emit trivial
    apply (reading_of_only hentry halloc hreading).bind
    intro _ h' _ hreading
    apply (reading_of_only hentry (within_copySymlink type new info) hreading).bind
    exact fun _ _ _ hreading => linkEntry_told hentry new type hreading

end Entry

/-! ## Directories inside each other -/

/-- The process stands in the directory that was made last, and has come into it
from the entry at hand. -/
structure Ready (root ino : Ino) (h : List Step) : Prop where
  pending : (route root h).pending = none
  made : (route root h).made = ino
  above : ∀ visit ∈ (route root h).visits.head?, ∃ name, visit.entry = some name ∧
    (¬ Strayed h → (route root h).cwd = visit.place ++ [name])

/-- A directory is done: everything is as it was before. -/
structure Back (root : Ino) (h h' : List Step) : Prop where
  visits : (route root h').visits = (route root h).visits
  pending : (route root h').pending = none
  place : ¬ Strayed h' → (route root h').cwd = (route root h).cwd

section Directories

variable {world : World} {root : Ino} {trawl : Ino → Trace Unit}

/-- What is asked of a copy of a directory. -/
def Returns (root : Ino) (trawl : Ino → Trace Unit) : Prop :=
  ∀ ino h, Ready root ino h → Ensures fine (OnRoute root) (trawl ino) (fun _ => Back root h) h

section Entry

variable {visit : Visit} {rest : List Visit} {h : List Step} {name : Name}

/-- Into a directory. -/
theorem ready_of_chdir (hentry : visit.entry = some name) (hname : name ≠ dotDot) {ino : Ino}
    (htold : Told root visit rest h) (hmade : (route root h).made = ino) :
    Ready root ino (.chdir name true :: h) := by
  refine ⟨htold.2, hmade, ?_⟩
  have hvisits : (route root (.chdir name true :: h)).visits = visit :: rest := htold.1.visits
  intro top htop
  rw [hvisits, List.head?_cons, Option.mem_some_iff] at htop
  refine ⟨name, htop ▸ hentry, fun hback => ?_⟩
  have hcwd : (route root (.chdir name true :: h)).cwd =
      if name = dotDot then (route root h).cwd.dropLast else (route root h).cwd ++ [name] := rfl
  rw [hcwd, if_neg hname, ← htop, htold.1.place fun hstrayed => hback (hstrayed.cons _)]

/-- Out of it again. -/
theorem told_of_chdir (htold : Told root visit rest h) (hname : name ≠ dotDot) {h' : List Step}
    (hsuffix : .chdir name true :: h <:+ h') (hback : Back root (.chdir name true :: h) h')
    (done : Bool) : Told root visit rest (.chdir dotDot done :: h') := by
  have hvisits : (route root h').visits = visit :: rest := hback.visits.trans htold.1.visits
  have hroute : route root (.chdir dotDot done :: h') =
      Step.route (.chdir dotDot done) (route root h') := rfl
  cases done with
  | false =>
      refine ⟨⟨hvisits, fun hnot => ?_, .inl hback.pending⟩, hback.pending⟩
      exact absurd List.mem_cons_self hnot
  | true =>
      refine ⟨⟨hvisits, fun hnot => ?_, .inl hback.pending⟩, hback.pending⟩
      have hhere : ¬ Strayed h' := fun hstrayed => hnot (hstrayed.cons _)
      have hfirst : ¬ Strayed h := fun hstrayed => hhere ((hstrayed.cons _).of_suffix hsuffix)
      have hentered : (route root (.chdir name true :: h)).cwd = (route root h).cwd ++ [name] :=
        if_neg hname
      rw [hroute, Step.route]
      simp only [if_true]
      rw [hback.place hhere, hentered, List.dropLast_concat, htold.1.place hfirst]

variable {trawl : Ino → Trace Unit}

theorem copyDirectory_told (htrawl : Returns root trawl) (hentry : visit.entry = some name)
    (hname : name ≠ dotDot) (new : Ino) (hreading : Reading root visit rest h) :
    Ensures fine (OnRoute root) (copyDirectory world trawl visit.ino new name)
      (fun _ => Told root visit rest) h := by
  apply (retry_told hentry rfl rfl .createDir hreading).bind
  intro made h' _ hdone
  obtain ⟨htold, hmade⟩ := hdone
  cases made with
  | false => exact ensures_pure htold
  | true =>
      apply ensures_bind
      apply ensures_call
      intro _
      have hok : OnRoute root h' (.chdir name (world.chdir h' name)) := by
        rw [OnRoute, if_neg hname]
        exact htold.1.atHand hentry
      refine ⟨hok, ?_⟩
      cases world.chdir h' name with
      | false => exact report_told hentry .chdir (htold.1.quiet fun _ => rfl)
      | true =>
          have hready : Ready root new (.chdir name true :: h') :=
            ready_of_chdir hentry hname htold (hmade rfl)
          apply (htrawl new _ hready).bind
          intro _ h'' hsuffix hback
          apply ensures_bind
          apply ensures_call
          intro _
          refine ⟨?_, ensures_pure (told_of_chdir htold hname hsuffix hback _)⟩
          rw [OnRoute, if_pos rfl]
          refine ⟨visit, rest, name, hback.visits.trans htold.1.visits, hentry, fun hnot => ?_⟩
          have hfirst : ¬ Strayed h' := fun hstrayed => hnot ((hstrayed.cons _).of_suffix hsuffix)
          have hentered : (route root (.chdir name true :: h')).cwd =
              (route root h').cwd ++ [name] := if_neg hname
          rw [hback.place hnot, hentered, htold.1.place hfirst]

/-- The entry is taken up. -/
theorem reading_of_entry {names : List Name} (htold : Told root visit rest h)
    (hnames : visit.names = name :: names) :
    Reading root { visit with entry := some name, names := names } rest (.entry name :: h) := by
  have hroute : route root (.entry name :: h) =
      { route root h with
        visits := { visit with entry := some name, names := visit.names.tail } :: rest
        pending := if name = dot ∨ name = dotDot then none else some name } := by
    rw [route_cons, Step.route, Route.begin, htold.1.visits]
  refine ⟨?_, fun hnot => ?_, ?_⟩
  · rw [hroute, hnames]
    rfl
  · rw [hroute]
    exact htold.1.place fun hstrayed => hnot (hstrayed.cons _)
  · rw [hroute]
    by_cases hdots : name = dot ∨ name = dotDot
    · exact .inl (if_pos hdots)
    · exact .inr (if_neg hdots)

theorem copyEntry_told (htrawl : Returns root trawl) (fuel : ℕ) {names : List Name}
    (htold : Told root visit rest h) (hnames : visit.names = name :: names) :
    Ensures fine (OnRoute root) (copyEntry world trawl fuel visit.ino name)
      (fun _ => Told root { visit with entry := some name, names := names } rest) h := by
  have hreading := reading_of_entry htold hnames
  apply ensures_bind
  apply ensures_emit
  intro _
  refine ⟨⟨htold.2, visit, rest, names, htold.1.visits, hnames⟩, ?_⟩
  by_cases hdots : name = dot ∨ name = dotDot
  · rw [if_pos hdots]
    refine ensures_pure ⟨hreading, ?_⟩
    rw [route_cons, Step.route, Route.begin, htold.1.visits]
    exact if_pos hdots
  · rw [if_neg hdots]
    have hname : name ≠ dotDot := fun heq => hdots (.inr heq)
    apply ensures_bind
    apply ensures_call
    intro _
    refine ⟨hreading.atHand rfl, ?_⟩
    have hseen : Reading root { visit with entry := some name, names := names } rest
        (.lstat name (world.lstat (.entry name :: h) name) :: .entry name :: h) :=
      hreading.quiet fun _ => rfl
    cases hinfo : world.lstat (.entry name :: h) name with
    | none => exact report_told rfl .lstat (hinfo ▸ hseen)
    | some info =>
        rw [hinfo] at hseen
        apply ensures_bind
        apply ensures_call
        intro _
        refine ⟨⟨name, hseen.inInode rfl⟩, ?_⟩
        generalize world.new_inode _ visit.ino info.st_mode = ino
        have hnew : Reading root { visit with entry := some name, names := names } rest
            (.newInode visit.ino info.st_mode ino :: .lstat name (some info) ::
              .entry name :: h) := hseen.quiet fun _ => rfl
        cases ino with
        | none => exact report_told rfl .newInode hnew
        | some new =>
            simp only [copyNew]
            split
            · exact copyDirectory_told htrawl rfl hname new hnew
            · split
              · exact copyRegular_told rfl fuel new info hnew
              · exact copySpecial_told rfl new info hnew

/-- Every name that is left is gone through. -/
theorem copyEntries_told (htrawl : Returns root trawl) (fuel : ℕ) (names : List Name)
    (htold : Told root visit rest h) (hnames : visit.names = names) :
    Ensures fine (OnRoute root) (names.forM (copyEntry world trawl fuel visit.ino))
      (fun _ h' => ∃ entry, Told root { visit with entry := entry, names := [] } rest h') h := by
  induction names generalizing visit h with
  | nil =>
      refine ensures_pure ⟨visit.entry, ?_⟩
      rwa [← hnames]
  | cons name names ih =>
      have hfirst : Ensures fine (OnRoute root) (copyEntry world trawl fuel visit.ino name)
          (fun _ => Told root { visit with entry := some name, names := names } rest) h :=
        copyEntry_told htrawl fuel htold hnames
      apply Ensures.bind hfirst
      intro _ h' _ htold
      have hrest := ih htold rfl
      exact hrest

end Entry

/-- A directory is read to its end and left as it was entered, by induction on
the depth. -/
theorem trawlDir_returns (depth fuel : ℕ) : Returns root (trawlDir world depth fuel) := by
  induction depth with
  | zero => exact fun ino h _ => ensures_stop _
  | succ depth ih =>
      intro ino h hready
      apply ensures_bind
      apply ensures_call
      intro _
      refine ⟨hready.above, ?_⟩
      cases world.opendir h with
      | none => exact ensures_stop _
      | some names =>
          have htold : Told root ⟨(route root h).cwd, ino, none, names⟩ (route root h).visits
              (.opendir (some names) :: h) := by
            refine ⟨⟨?_, fun _ => rfl, .inl hready.pending⟩, hready.pending⟩
            rw [route_cons, Step.route, hready.made]
          apply (copyEntries_told ih fuel names htold rfl).bind
          rintro _ h' hsuffix ⟨entry, hdone⟩
          apply ensures_emit
          intro _
          refine ⟨⟨hdone.2, _, _, hdone.1.visits, rfl⟩, ?_, hdone.2, fun hnot => ?_⟩
          · rw [route_cons, Step.route, hdone.1.visits]
            rfl
          · exact hdone.1.place fun hstrayed => hnot (hstrayed.cons _)

end Directories

/-! ## Every run -/

/-- Whatever the calls answer: every step is made where it should be, every name
of every directory is taken up, told and left behind, and unless the process has
strayed it ends in the directory in which it began. -/
theorem trawlDir_onRoute (world : World) (depth fuel : ℕ) (root : Ino) :
    Always (OnRoute root) ((trawlDir world depth fuel root).exec []).1 ∧
      (((trawlDir world depth fuel root).exec []).2 = .ok () →
        (route root ((trawlDir world depth fuel root).exec []).1).visits = [] ∧
        (route root ((trawlDir world depth fuel root).exec []).1).pending = none ∧
        (¬ Strayed ((trawlDir world depth fuel root).exec []).1 →
          (route root ((trawlDir world depth fuel root).exec []).1).cwd = [])) := by
  have hready : Ready root root [] := ⟨rfl, rfl, fun _ hnone => nomatch hnone⟩
  have hfine : Always fine ((trawlDir world depth fuel root).exec []).1 :=
    always_of_forall_mem fun _ _ => trivial
  obtain ⟨hroute, hreturns⟩ := (trawlDir_returns depth fuel root [] hready).run hfine
  refine ⟨hroute, fun hok => ?_⟩
  have hback := hreturns () hok
  exact ⟨hback.visits, hback.pending, hback.place⟩

end Tcb.Itinerary
