import Tcb.Mke2Img.Disk

/-!
# The buffers of the copy

Blocks of a file and the target of a link pass through buffers of fixed sizes.
The accesses stay inside of them, and each link gets the target of its source,
in the runs in which what is left of a file or the block size is no more than
the first buffer, and a target no more than the second.
-/

namespace Tcb.Buffers

open Function
open Tcb.CString
open Tcb.Inodes
open Tcb.SourceTree
open Tcb.Ext2fs
open Tcb.TrawlDir (Failure fileBuffer linkBuffer regularInode specialInode specialType)
open Tcb.Traced
open Tcb.Calls
open Tcb.TreeCopy (smallTree smallTree_wellFormed longLink longLink_wellFormed)

/-- A message was written for the current entry. -/
def reported : List Step → Bool
  | [] => false
  | .entry _ :: _ => false
  | .report _ _ :: _ => true
  | _ :: h => reported h

/-- The inodes of the links that were made without a message, and the paths of
their sources. -/
def linked : List Step → List (Ino × Path)
  | [] => []
  | .request (.link _ name ino type) _ true :: h =>
      if type = .EXT2_FT_SYMLINK ∧ reported h = false then (ino, cwd h ++ [name]) :: linked h
      else linked h
  | _ :: h => linked h

section Exact

variable (tree : Tree) (disk : Disk) (h : List Step)

/-- The image has the target of the source. -/
def HasTarget (link : Ino × Path) : Prop :=
  ∃ node ∈ tree.node link.2, (disk.after h).content link.1 = node.data

instance (link : Ino × Path) : Decidable (HasTarget tree disk h link) :=
  inferInstanceAs (Decidable (∃ node ∈ tree.node link.2, _))

def Exact : Prop := ∀ link ∈ linked h, HasTarget tree disk h link

instance : Decidable (Exact tree disk h) :=
  inferInstanceAs (Decidable (∀ link ∈ linked h, _))

/-- An access stays inside its buffer, and no more is written from a buffer
than was put there.  Between two entries the links are exact. -/
def Inside : Step → Prop
  | .read _ _ bytes => (bytes.getD []).length ≤ fileBuffer
  | .fileWrite .file _ held count _ => count ≤ held.length ∧ held.length ≤ fileBuffer
  | .readlink _ held => (held.getD []).length ≤ linkBuffer
  | .fileWrite .link _ held count _ => count ≤ held.length ∧ held.length ≤ linkBuffer
  | .entry _ => Exact tree disk h
  | .closedir => Exact tree disk h
  | _ => True

instance : DecidablePred (Inside tree disk h)
  | .read _ _ bytes => inferInstanceAs (Decidable ((bytes.getD []).length ≤ fileBuffer))
  | .fileWrite .file _ _ _ _ => inferInstanceAs (Decidable (_ ∧ _))
  | .readlink _ held => inferInstanceAs (Decidable ((held.getD []).length ≤ linkBuffer))
  | .fileWrite .link _ _ _ _ => inferInstanceAs (Decidable (_ ∧ _))
  | .entry _ => inferInstanceAs (Decidable (Exact tree disk h))
  | .closedir => inferInstanceAs (Decidable (Exact tree disk h))
  | .opendir _ | .lstat _ _ | .newInode _ _ _ | .request _ _ _ | .expandDir _ _ => isTrue trivial
  | .chdir _ _ | .writeNewInode _ _ _ | .allocStats _ | .openFile _ _ => isTrue trivial
  | .fileOpen _ _ _ | .fileFlush _ _ | .fileClose _ _ _ | .close _ => isTrue trivial
  | .report _ _ => isTrue trivial

/-- A block or the rest of the file fits into the first buffer, a target into
the second, and a target that was written without an error is written as a
whole and stays when its file is closed. -/
def Fits : Step → Prop
  | .read fd count _ => count ≤ fileBuffer ∨ ∀ place ∈ source fd h,
      ∀ node ∈ tree.node place.1, node.data.length - place.2 ≤ fileBuffer
  | .readlink name _ => ∀ node ∈ tree.node (cwd h ++ [name]), node.data.length ≤ linkBuffer
  | .fileWrite .link _ _ count out => ∀ written ∈ out, count ≤ written
  | .fileClose .link _ done => done = true
  | _ => True

end Exact

/-! ## What the steps for one inode leave alone -/

/-- The step is about the new inode, if about any; a link that it makes is no
symbolic one. -/
def About (new : Ino) : Step → Prop
  | .writeNewInode ino _ _ => ino = new
  | .fileOpen _ ino _ => ino = new
  | .request (.mkdir _ ino _) _ _ => ino = new
  | .request (.link _ _ _ type) _ true => type ≠ .EXT2_FT_SYMLINK
  | _ => True

/-- The links that were made are in use, apart from the new inode, and only
that one is open. -/
structure Around (tree : Tree) (disk : Disk) (new : Ino) (h : List Step) : Prop where
  kept : ∀ link ∈ linked h, link.1 ∈ (disk.after h).used ∧ link.1 ≠ new ∧
    HasTarget tree disk h link
  own : ∀ file ∈ files h, file.ino = new

/-- Nothing is open, and the links that were made are exact. -/
structure Settled (tree : Tree) (disk : Disk) (h : List Step) : Prop where
  closed : files h = []
  kept : ∀ link ∈ linked h, link.1 ∈ (disk.after h).used ∧ HasTarget tree disk h link

section Around

variable {tree : Tree} {disk : Disk} {new : Ino} {h : List Step}

theorem Settled.exact (hsettled : Settled tree disk h) : Exact tree disk h :=
  fun link hlink => (hsettled.kept link hlink).2

theorem Settled.around (hsettled : Settled tree disk h) (hnew : new ∉ (disk.after h).used) :
    Around tree disk new h where
  kept link hlink := by
    obtain ⟨hused, htarget⟩ := hsettled.kept link hlink
    exact ⟨hused, fun heq => hnew (heq ▸ hused), htarget⟩
  own file hfile := by
    rw [hsettled.closed] at hfile
    exact absurd hfile List.not_mem_nil

theorem Around.settled (haround : Around tree disk new h) (hclosed : files h = []) :
    Settled tree disk h where
  closed := hclosed
  kept link hlink := ⟨(haround.kept link hlink).1, (haround.kept link hlink).2.2⟩

/-- Only the content of the new inode is changed. -/
theorem content_of_ne {step : Step} (habout : About new step)
    (hown : ∀ file ∈ files h, file.ino = new) {ino : Ino} (hne : ino ≠ new) :
    (disk.after (step :: h)).content ino = (disk.after h).content ino := by
  have hsave : ∀ f, ((disk.after h).save (files h) f).content ino = (disk.after h).content ino := by
    intro f
    rw [Image.save]
    split
    · rfl
    · rename_i file hfind
      have hino : file.ino = new := hown file (List.mem_of_find?_eq_some hfind)
      exact update_of_ne (hino ▸ hne) _ _
  cases step with
  | request what again done =>
      cases done with
      | false => rw [after_request_failed]
      | true =>
          cases what with
          | mkdir dir ino' name =>
              have hino : ino' = new := habout
              exact update_of_ne (hino ▸ hne) _ _
          | link dir name ino' type => rfl
  | writeNewInode ino' inode done =>
      have hino : ino' = new := habout
      cases done with
      | true => exact update_of_ne (hino ▸ hne) _ _
      | false => rfl
  | expandDir what done => cases done <;> rfl
  | fileFlush f done =>
      cases done with
      | true => exact hsave f
      | false => rfl
  | fileClose purpose f done =>
      cases f with
      | none => rfl
      | some f =>
          cases done with
          | true => exact hsave f
          | false => rfl
  | _ => rfl

theorem linked_of_about {step : Step} (habout : About new step) :
    linked (step :: h) = linked h := by
  cases step with
  | request what again done =>
      cases what with
      | mkdir dir ino name => rfl
      | link dir name ino type =>
          cases done with
          | false => rfl
          | true => exact if_neg fun hlink => habout hlink.1
  | _ => rfl

theorem own_onHandle {f : Handle} {change : OpenFile → OpenFile} {files : List OpenFile}
    (hchange : ∀ file, (change file).ino = file.ino) (hown : ∀ file ∈ files, file.ino = new) :
    ∀ file ∈ onHandle f change files, file.ino = new := by
  intro file hfile
  obtain ⟨old, hold, rfl⟩ := List.mem_map.mp hfile
  split
  · exact (hchange old).trans (hown old hold)
  · exact hown old hold

theorem own_of_about {step : Step} (habout : About new step)
    (hown : ∀ file ∈ files h, file.ino = new) : ∀ file ∈ files (step :: h), file.ino = new := by
  cases step with
  | fileOpen purpose ino f =>
      cases f with
      | none => exact hown
      | some f =>
          intro file hfile
          rcases List.mem_cons.mp hfile with rfl | hfile
          · exact habout
          · exact hown file hfile
  | fileWrite purpose f held count out =>
      cases out with
      | none => exact hown
      | some out => exact own_onHandle (fun _ => rfl) hown
  | fileFlush f done =>
      cases done with
      | false => exact hown
      | true => exact own_onHandle (fun _ => rfl) hown
  | fileClose purpose f done =>
      cases f with
      | none => exact hown
      | some f => exact fun file hfile => hown file (List.mem_of_mem_eraseP hfile)
  | _ => exact hown

theorem Around.step (step : Step) (haround : Around tree disk new h) (habout : About new step) :
    Around tree disk new (step :: h) where
  kept link hlink := by
    rw [linked_of_about habout] at hlink
    obtain ⟨hused, hne, node, hnode, hcontent⟩ := haround.kept link hlink
    refine ⟨used_subset disk step h hused, hne, node, hnode, ?_⟩
    rw [content_of_ne habout haround.own hne, hcontent]
  own := own_of_about habout haround.own

end Around

/-! ## The parts of an entry -/

section Parts

variable {tree : Tree} {disk : Disk} {world : World} {new parent : Ino} {h : List Step}
  {name : Name} {here : Path} {size : ℕ}

theorem report_settles (failure : Failure) (hsettled : Settled tree disk h) :
    Ensures (Fits tree) (Inside tree disk) (report failure name)
      (fun _ => Settled tree disk) h :=
  ensures_emit fun _ => ⟨trivial, hsettled.closed, hsettled.kept⟩

theorem inside_of_for {what : Request} {step : Step} (hkind : step.For what) :
    Inside tree disk h step := by
  cases step <;> first | exact hkind.elim | trivial

theorem files_of_for {what : Request} {step : Step} (hkind : step.For what) :
    files (step :: h) = files h := by
  cases step <;> first | exact hkind.elim | rfl

/-- What makes an entry that is no symbolic link leaves the links alone. -/
theorem retry_settles (what : Request) (failure : Failure)
    (hwhat : ∀ again done, About new (.request what again done))
    (haround : Around tree disk new h) (hclosed : files h = []) :
    Ensures (Fits tree) (Inside tree disk) (retry world what failure name)
      (fun _ => Settled tree disk) h := by
  have habout : ∀ {step : Step}, step.For what → About new step := by
    intro step hkind
    cases step with
    | request what' again done =>
        obtain rfl : what' = what := hkind
        exact hwhat again done
    | expandDir what' done => trivial
    | report failure name => trivial
    | _ => exact hkind.elim
  have hretry : Ensures (Fits tree) (Inside tree disk) (retry world what failure name)
      (fun _ h' => Around tree disk new h' ∧ files h' = []) h :=
    ensures_of_only (only_retry world what failure name) (fun h step hkind hinvariant _ =>
      ⟨inside_of_for hkind, hinvariant.1.step step (habout hkind),
        (files_of_for hkind).trans hinvariant.2⟩) ⟨haround, hclosed⟩
  exact hretry.mono fun _ h' _ hinvariant => hinvariant.1.settled hinvariant.2

/-- A message was written, or the inode has the target. -/
def Ready (tree : Tree) (disk : Disk) (link : Ino × Path) (h : List Step) : Prop :=
  reported h = true ∨ HasTarget tree disk h link

/-- The inode of a link is closed and marked, and ready for its entry. -/
structure Waiting (tree : Tree) (disk : Disk) (new : Ino) (name : Name) (h : List Step) :
    Prop where
  around : Around tree disk new h
  closed : files h = []
  used : new ∈ (disk.after h).used
  ready : Ready tree disk (new, cwd h ++ [name]) h

/-- The entry of a link is made. -/
theorem Waiting.made (hwaiting : Waiting tree disk new name h) (again : Bool) :
    Settled tree disk (.request (.link parent name new .EXT2_FT_SYMLINK) again true :: h) where
  closed := hwaiting.closed
  kept link hlink := by
    have hold : link ∈ linked h → link.1 ∈ (disk.after h).used ∧ HasTarget tree disk h link :=
      ((hwaiting.around.settled hwaiting.closed).kept link ·)
    by_cases hreported : reported h = false
    · have hlinked : linked (.request (.link parent name new .EXT2_FT_SYMLINK) again true :: h) =
          (new, cwd h ++ [name]) :: linked h := if_pos ⟨rfl, hreported⟩
      rw [hlinked] at hlink
      rcases List.mem_cons.mp hlink with rfl | hlink
      · exact ⟨hwaiting.used, hwaiting.ready.resolve_left (by simp [hreported])⟩
      · exact hold hlink
    · have hlinked : linked (.request (.link parent name new .EXT2_FT_SYMLINK) again true :: h) =
          linked h := if_neg fun hboth => hreported hboth.2
      rw [hlinked] at hlink
      exact hold hlink

theorem linkEntry_symlink (hwaiting : Waiting tree disk new name h) :
    Ensures (Fits tree) (Inside tree disk)
      (linkEntry world parent name new .EXT2_FT_SYMLINK) (fun _ => Settled tree disk) h := by
  refine (ensures_retry (Settled tree disk) .failedToCopy ?_ ?_ hwaiting).bind
    fun made h' _ hmade => ?_
  · intro h step hattempt hwaiting _
    cases step with
    | request what again done =>
        obtain ⟨rfl, rfl⟩ := hattempt
        exact ⟨trivial, hwaiting.around.step _ trivial, hwaiting.closed, hwaiting.used, hwaiting.ready⟩
    | expandDir what done =>
        cases done <;> exact ⟨trivial, hwaiting.around.step _ trivial, hwaiting.closed, hwaiting.used,
          hwaiting.ready⟩
    | report failure name =>
        exact ⟨trivial, hwaiting.around.step _ trivial, hwaiting.closed, hwaiting.used, .inl rfl⟩
    | _ => exact hattempt.elim
  · exact fun h again hwaiting _ => ⟨trivial, hwaiting.made again⟩
  · cases made with
    | true => exact ensures_pure hmade
    | false => exact ensures_pure (hmade.around.settled hmade.closed)

/-! ## The target of a link -/

/-- The inode is written, or a message is, and nothing is open. -/
structure Begun (tree : Tree) (disk : Disk) (new : Ino) (here : Path) (size : ℕ)
    (h : List Step) : Prop where
  around : Around tree disk new h
  closed : files h = []
  place : cwd h = here
  blank : reported h = true ∨ ((disk.after h).content new).length ≤ size

theorem length_blank (image : Image) (ino : Ino) (inode : Ext2Inode) :
    ((image.writeInode ino inode).content ino).length ≤ inode.i_size.toNat := by
  have hcontent : (image.writeInode ino inode).content ino =
      if inode.i_block0 = 0 then List.replicate inode.i_size.toNat 0 else [] := update_self _ _ _
  rw [hcontent]
  split
  · rw [List.length_replicate]
  · exact Nat.zero_le _

theorem writeNewInode_begun (failure : Failure) (inode : Ext2Inode)
    (hsize : inode.i_size.toNat ≤ size) (haround : Around tree disk new h)
    (hclosed : files h = []) :
    Ensures (Fits tree) (Inside tree disk) (writeNewInode world failure name new inode)
      (fun _ => Begun tree disk new (cwd h) size) h := by
  refine ensures_bind (ensures_call fun _ => ⟨trivial, ?_⟩)
  cases world.write_new_inode h new inode with
  | true =>
      exact ensures_pure ⟨haround.step _ rfl, hclosed, rfl,
        .inr ((length_blank (disk.after h) new inode).trans hsize)⟩
  | false =>
      exact ensures_emit fun _ => ⟨trivial,
        (haround.step (.writeNewInode new inode false) rfl).step _ trivial, hclosed, rfl,
        .inl rfl⟩

theorem overwrite_all {old bytes : List Byte} (hlength : old.length ≤ bytes.length) :
    Filesystem.overwrite old 0 bytes = bytes := by
  rw [Filesystem.overwrite, List.take_zero, List.nil_append, Nat.zero_add,
    List.drop_eq_nil_of_le hlength, List.append_nil]

/-- The only file is closed. -/
theorem files_close {file : OpenFile} (hfiles : files h = [file]) (purpose : Buffer) (done : Bool) :
    files (.fileClose purpose (some file.handle) done :: h) = [] := by
  rw [files_cons, hfiles]
  simp [Step.files]

/-- The content of a link is written, or a message is, and nothing is open. -/
structure Filled (tree : Tree) (disk : Disk) (new : Ino) (here : Path) (name : Name)
    (h : List Step) : Prop where
  around : Around tree disk new h
  closed : files h = []
  place : cwd h = here
  ready : Ready tree disk (new, here ++ [name]) h

/-- The whole target is written, or a message is. -/
theorem writeTarget_filled {node : Node} {f : Handle} {info : Stat}
    (hnode : tree.node (here ++ [name]) = some node)
    (hstat : info.st_size = node.data.length) (hfits : node.data.length ≤ linkBuffer)
    (haround : Around tree disk new h) (hfiles : files h = [⟨f, new, 0, []⟩])
    (hplace : cwd h = here)
    (hblank : reported h = true ∨ ((disk.after h).content new).length ≤ node.data.length) :
    Ensures (Fits tree) (Inside tree disk) (writeTarget world name info f node.data)
      (fun _ => Filled tree disk new here name) h := by
  have hcount : info.st_size % 2 ^ 32 = node.data.length := by
    rw [hstat]
    exact Nat.mod_eq_of_lt (hfits.trans_lt (by decide))
  rw [writeTarget, hcount]
  refine ensures_bind (ensures_perform fun hwhole => ⟨⟨le_rfl, hfits⟩, fun _ => ?_⟩)
  generalize world.file_write h f node.data node.data.length = out at hwhole ⊢
  cases out with
  | none =>
      have hwritten : Around tree disk new
          (.fileWrite .link f node.data node.data.length none :: h) := haround.step _ trivial
      have hreported : Around tree disk new (.report .copyingSymlink name ::
          .fileWrite .link f node.data node.data.length none :: h) := hwritten.step _ trivial
      refine ensures_bind (ensures_emit fun _ => ⟨trivial, ?_⟩)
      refine ensures_bind (ensures_perform fun _ => ⟨trivial, fun _ => ensures_pure ?_⟩)
      have hopen : files (.report .copyingSymlink name ::
          .fileWrite .link f node.data node.data.length none :: h) = [⟨f, new, 0, []⟩] := hfiles
      exact ⟨hreported.step _ trivial, files_close hopen .link _, hplace, .inl rfl⟩
  | some out =>
      have hout : node.data.length ≤ out := hwhole out rfl
      have hheld : (node.data.take node.data.length).take out = node.data := by
        rw [List.take_length, List.take_of_length_le hout]
      have hwritten : files (.fileWrite .link f node.data node.data.length (some out) :: h) =
          [⟨f, new, node.data.length, [(0, node.data)]⟩] := by
        have hstep : files (.fileWrite .link f node.data node.data.length (some out) :: h) =
            onHandle f (·.write ((node.data.take node.data.length).take out)) (files h) := rfl
        rw [hstep, hheld, hfiles]
        simp [onHandle, OpenFile.write]
      have haround' : Around tree disk new
          (.fileWrite .link f node.data node.data.length (some out) :: h) := haround.step _ trivial
      refine ensures_bind (ensures_pure ?_)
      refine ensures_bind (ensures_perform fun hcloses => ⟨trivial, fun _ => ensures_pure ?_⟩)
      have hdone : world.file_close _ (some f) = true := hcloses
      rw [hdone]
      refine ⟨haround'.step _ trivial, files_close hwritten .link true, hplace, ?_⟩
      refine hblank.imp id fun hlength => ⟨node, hnode, ?_⟩
      have hsave : disk.after (.fileClose .link (some f) true ::
          .fileWrite .link f node.data node.data.length (some out) :: h) =
          (disk.after h).save [⟨f, new, node.data.length, [(0, node.data)]⟩] f := by
        rw [← hwritten]
        rfl
      rw [hsave]
      simp [Image.save, overwrite_all hlength]

theorem copyTarget_filled (hanswers : Answers tree world) {node : Node} {info : Stat}
    (hnode : tree.node (here ++ [name]) = some node) (hstat : node.info = info)
    (hbegun : Begun tree disk new here info.st_size h) :
    Ensures (Fits tree) (Inside tree disk) (copyTarget world new name info)
      (fun _ => Filled tree disk new here name) h := by
  refine ensures_bind (ensures_call fun hfits => ⟨?_, ?_⟩)
  · cases world.readlink h name with
    | none => exact Nat.zero_le _
    | some target => exact List.length_take_le _ _
  · have hlength : node.data.length ≤ linkBuffer := hfits node (hbegun.place ▸ hnode)
    cases hread : world.readlink h name with
    | none =>
        exact ensures_emit fun _ => ⟨trivial,
          (hbegun.around.step (.readlink name none) trivial).step _ trivial,
          hbegun.closed, hbegun.place, .inl rfl⟩
    | some target =>
        obtain ⟨node', hnode', hlnk, rfl⟩ := hanswers.readlink hread
        obtain rfl : node' = node := by
          rw [hbegun.place, hnode] at hnode'
          exact (Option.some.inj hnode').symm
        have hheld : node'.data.take linkBuffer = node'.data := List.take_of_length_le hlength
        have hsize : info.st_size = node'.data.length :=
          hstat ▸ tree.sized _ _ hnode (.inr hlnk)
        simp only [Option.map_some, hheld]
        have hlooked : Around tree disk new (.readlink name (some node'.data) :: h) :=
          hbegun.around.step _ trivial
        refine ensures_bind (ensures_call fun _ => ⟨trivial, ?_⟩)
        generalize world.file_open _ new = f
        have hopened : Around tree disk new
            (.fileOpen .link new f :: .readlink name (some node'.data) :: h) := hlooked.step _ rfl
        cases f with
        | none =>
            refine ensures_bind (ensures_emit fun _ => ⟨trivial, ?_⟩)
            -- the call of close on the file that was not set is the last
            refine ensures_bind (ensures_perform fun _ => ⟨trivial, fun hset => ?_⟩)
            obtain ⟨_, hnone, -⟩ := hset
            exact nomatch hnone
        | some f =>
            have hfiles : files (.fileOpen .link new (some f) ::
                .readlink name (some node'.data) :: h) = [⟨f, new, 0, []⟩] :=
              congrArg (List.cons (OpenFile.mk f new 0 [])) hbegun.closed
            exact writeTarget_filled hnode hsize hlength hopened hfiles hbegun.place
              (hsize ▸ hbegun.blank)

/-! ## The content of a file -/

/-- No file is open but that of the entry. -/
structure Copying (tree : Tree) (disk : Disk) (new : Ino) (fd : Fd) (f : Handle)
    (h : List Step) : Prop where
  around : Around tree disk new h
  reads : (source fd h).isSome
  single : files h = [] ∨ ∃ file, file.handle = f ∧ files h = [file]

variable {fd : Fd} {f : Handle}

theorem single_of_mem_openFiles {h : List Step}
    (hsingle : files h = [] ∨ ∃ file, file.handle = f ∧ files h = [file])
    (hopen : f ∈ openFiles h) : ∃ file, file.handle = f ∧ files h = [file] := by
  apply hsingle.resolve_left
  intro hnone
  rw [openFiles, hnone] at hopen
  exact absurd hopen List.not_mem_nil

theorem single_onHandle {change : OpenFile → OpenFile} {files : List OpenFile}
    (hchange : ∀ file, (change file).handle = file.handle)
    (hsingle : files = [] ∨ ∃ file, file.handle = f ∧ files = [file]) :
    onHandle f change files = [] ∨ ∃ file, file.handle = f ∧ onHandle f change files = [file] := by
  rcases hsingle with rfl | ⟨file, rfl, rfl⟩
  · exact .inl rfl
  · exact .inr ⟨change file, hchange file, by simp [onHandle]⟩

theorem copyBlock_copying {bytes : List Byte} (hbytes : bytes.length ≤ fileBuffer)
    (hcopying : Copying tree disk new fd f h) :
    Ensures (Fits tree) (Inside tree disk) (copyBlock world f name bytes)
      (fun _ => Copying tree disk new fd f) h := by
  refine ensures_bind (ensures_perform fun _ => ⟨⟨le_rfl, hbytes⟩, fun hdefined => ?_⟩)
  generalize world.file_write h f bytes bytes.length = out
  have hwritten : Copying tree disk new fd f
      (.fileWrite .file f bytes bytes.length out :: h) := by
    refine ⟨hcopying.around.step _ trivial, hcopying.reads, ?_⟩
    cases out with
    | none => exact hcopying.single
    | some out => exact single_onHandle (fun _ => rfl) hcopying.single
  split
  · refine ensures_bind (ensures_perform fun _ => ⟨trivial, fun _ => ?_⟩)
    generalize world.file_flush _ f = done
    have hflushed : Copying tree disk new fd f
        (.fileFlush f done :: .fileWrite .file f bytes bytes.length out :: h) := by
      refine ⟨hwritten.around.step _ trivial, hwritten.reads, ?_⟩
      cases done with
      | false => exact hwritten.single
      | true => exact single_onHandle (fun _ => rfl) hwritten.single
    rw [reportUnless]
    split
    · exact ensures_pure hflushed
    · exact ensures_emit fun _ => ⟨trivial, hflushed.around.step _ trivial, hflushed.reads,
        hflushed.single⟩
  · refine ensures_bind (ensures_emit fun _ => ⟨trivial, ?_⟩)
    have hreported : Around tree disk new
        (.report .copying name :: .fileWrite .file f bytes bytes.length out :: h) :=
      hwritten.around.step _ trivial
    refine ensures_bind (ensures_perform fun _ => ⟨trivial, fun hdefined => ensures_pure ?_⟩)
    obtain ⟨_, hf, hmem⟩ := hdefined
    obtain rfl := Option.mem_some.mp hf
    obtain ⟨file, rfl, hfile⟩ := single_of_mem_openFiles
      (h := .report .copying name :: .fileWrite .file f bytes bytes.length out :: h)
      hwritten.single hmem
    exact ⟨hreported.step _ trivial, hwritten.reads, .inl (files_close hfile .file _)⟩

/-- At most a block is read, and at most what is left of the file. -/
theorem read_copying (hanswers : Answers tree world) (hcopying : Copying tree disk new fd f h) :
    Ensures (Fits tree) (Inside tree disk) (read world fd)
      (fun bytes h' => bytes.length ≤ fileBuffer ∧ Copying tree disk new fd f h') h := by
  refine ensures_bind (ensures_perform fun hfits => ?_)
  obtain ⟨⟨path, pos⟩, hsource⟩ := Option.isSome_iff_exists.mp hcopying.reads
  have hlength : ((world.read h fd world.blocksize).getD []).length ≤ fileBuffer := by
    cases hread : world.read h fd world.blocksize with
    | none => exact Nat.zero_le _
    | some bytes =>
        obtain ⟨node, hnode, hcount, hpart⟩ := hanswers.read hread hsource
        rcases hfits with hblock | hrest
        · exact hcount.trans hblock
        · have hleft : bytes.length ≤ node.data.length - pos := by
            rw [← List.length_drop]
            exact hpart.length_le
          exact hleft.trans (hrest (path, pos) hsource node hnode)
  refine ⟨hlength, fun _ => ensures_pure ⟨hlength, hcopying.around.step _ trivial, ?_,
    hcopying.single⟩⟩
  cases world.read h fd world.blocksize with
  | none => exact hcopying.reads
  | some bytes =>
      have hstep : (source fd (.read fd world.blocksize (some bytes) :: h)).isSome =
          (source fd h).isSome := by
        rw [source, if_pos rfl, Option.isSome_map]
      rw [hstep]
      exact hcopying.reads

theorem copyLoop_copying (hanswers : Answers tree world) (fuel : ℕ)
    (hcopying : Copying tree disk new fd f h) :
    Ensures (Fits tree) (Inside tree disk) (copyLoop world fd f name fuel)
      (fun _ => Copying tree disk new fd f) h := by
  induction fuel generalizing h with
  | zero => exact ensures_stop _
  | succ fuel ih =>
      apply (read_copying hanswers hcopying).bind
      intro bytes h' _ hread
      split
      · exact ensures_pure hread.2
      · exact (copyBlock_copying hread.1 hread.2).bind fun _ _ _ hcopying => ih hcopying

theorem copyContent_settles (hanswers : Answers tree world) (fuel : ℕ)
    (hcopying : Copying tree disk new fd f h) :
    Ensures (Fits tree) (Inside tree disk) (copyContent world fuel parent new name fd f)
      (fun _ => Settled tree disk) h := by
  apply (copyLoop_copying hanswers fuel hcopying).bind
  intro _ h' _ hcopying
  refine ensures_bind (ensures_perform fun _ => ⟨trivial, fun hdefined => ?_⟩)
  obtain ⟨_, hf, hmem⟩ := hdefined
  obtain rfl := Option.mem_some.mp hf
  obtain ⟨file, rfl, hfile⟩ := single_of_mem_openFiles hcopying.single hmem
  generalize world.file_close h' (some file.handle) = done
  have haround : Around tree disk new (.fileClose .file (some file.handle) done :: h') :=
    hcopying.around.step _ trivial
  have hclosing : Ensures (Fits tree) (Inside tree disk) (reportUnless done .closing name)
      (fun _ h'' => Around tree disk new h'' ∧ files h'' = [])
      (.fileClose .file (some file.handle) done :: h') := by
    rw [reportUnless]
    split
    · exact ensures_pure ⟨haround, files_close hfile .file done⟩
    · exact ensures_emit fun _ =>
        ⟨trivial, haround.step _ trivial, files_close hfile .file done⟩
  apply hclosing.bind
  intro _ h'' _ hclosed
  refine ensures_bind (ensures_emit fun _ => ⟨trivial, ?_⟩)
  have hclose : Around tree disk new (.close fd :: h'') := hclosed.1.step _ trivial
  have habout : ∀ again done,
      About new (.request (.link parent name new .EXT2_FT_REG_FILE) again done) := by
    intro again done
    cases done with
    | false => trivial
    | true => exact FileType.noConfusion
  apply (retry_settles _ .failedToCopy habout hclose hclosed.2).bind
  intro _ _ _ hsettled
  exact ensures_pure hsettled

end Parts

/-! ## One entry -/

section Entry

variable {tree : Tree} {disk : Disk} {world : World} {new parent : Ino} {h : List Step}
  {name : Name}

theorem toNat_ofNat_le (size : ℕ) : (BitVec.ofNat 32 size).toNat ≤ size := by
  rw [BitVec.toNat_ofNat]
  exact Nat.mod_le _ _

theorem copyRegular_settles (hanswers : Answers tree world) (fuel : ℕ) (info : Stat)
    (haround : Around tree disk new h) (hclosed : files h = []) :
    Ensures (Fits tree) (Inside tree disk) (copyRegular world fuel parent new name info)
      (fun _ => Settled tree disk) h := by
  apply (writeNewInode_begun .fileAttributes (regularInode info) (toNat_ofNat_le _) haround
    hclosed).bind
  intro _ h' _ hbegun
  refine ensures_bind (ensures_emit fun _ => ⟨trivial, ?_⟩)
  have hmarked : Around tree disk new (.allocStats new :: h') := hbegun.around.step _ trivial
  refine ensures_bind (ensures_call fun _ => ⟨trivial, ?_⟩)
  generalize world.openFile _ name = fd
  have hopened : Around tree disk new (.openFile name fd :: .allocStats new :: h') :=
    hmarked.step _ trivial
  cases fd with
  | none => exact report_settles .openFile (hopened.settled hbegun.closed)
  | some fd =>
      refine ensures_bind (ensures_call fun _ => ⟨trivial, ?_⟩)
      generalize world.file_open _ new = f
      have hcreated : Around tree disk new
          (.fileOpen .file new f :: .openFile name (some fd) :: .allocStats new :: h') :=
        hopened.step _ rfl
      cases f with
      | none => exact report_settles .createFile (hcreated.settled hbegun.closed)
      | some f =>
          have hsource : source fd (.openFile name (some fd) :: .allocStats new :: h') =
              some (cwd h' ++ [name], 0) := if_pos rfl
          refine copyContent_settles hanswers fuel ⟨hcreated, ?_, .inr ⟨⟨f, new, 0, []⟩, rfl, ?_⟩⟩
          · exact Option.isSome_iff_exists.mpr ⟨_, hsource⟩
          · exact congrArg (List.cons (OpenFile.mk f new 0 [])) hbegun.closed

/-- A special file is made, or a link with its target. -/
theorem copySpecial_settles (hanswers : Answers tree world) {node : Node} {info : Stat}
    (hnode : tree.node (cwd h ++ [name]) = some node) (hstat : node.info = info)
    (haround : Around tree disk new h) (hclosed : files h = []) :
    Ensures (Fits tree) (Inside tree disk) (copySpecial world parent new name info)
      (fun _ => Settled tree disk) h := by
  rw [copySpecial]
  split
  · exact report_settles .notFileOrDir (haround.settled hclosed)
  · rename_i type _
    apply (writeNewInode_begun .deviceInode (specialInode info) (toNat_ofNat_le _) haround
      hclosed).bind
    intro _ h' _ hbegun
    refine ensures_bind (ensures_emit fun _ => ⟨trivial, ?_⟩)
    have hmarked : Begun tree disk new (cwd h) info.st_size (.allocStats new :: h') :=
      ⟨hbegun.around.step _ trivial, hbegun.closed, hbegun.place, hbegun.blank⟩
    by_cases hsymlink : type = .EXT2_FT_SYMLINK
    · rw [hsymlink, copySymlink, if_pos rfl]
      apply (copyTarget_filled hanswers hnode hstat hmarked).bind
      intro _ h'' hsuffix hfilled
      refine linkEntry_symlink ⟨hfilled.around, hfilled.closed, ?_, ?_⟩
      · exact used_mono disk hsuffix List.mem_cons_self
      · rw [hfilled.place]
        exact hfilled.ready
    · rw [copySymlink, if_neg hsymlink]
      have habout : ∀ again done, About new (.request (.link parent name new type) again done) := by
        intro again done
        cases done with
        | false => trivial
        | true => exact hsymlink
      refine ensures_bind (ensures_pure ?_)
      apply (retry_settles _ .failedToCopy habout hmarked.around hmarked.closed).bind
      intro _ _ _ hsettled
      exact ensures_pure hsettled

theorem chdir_settles (target : Name) (hsettled : Settled tree disk h) :
    Ensures (Fits tree) (Inside tree disk) (chdir world target) (fun _ => Settled tree disk) h :=
  ensures_call fun _ => ⟨trivial, hsettled.closed, hsettled.kept⟩

variable {trawl : Ino → Trace Unit}

theorem copyDirectory_settles (htrawl : ∀ ino h, Settled tree disk h →
      Ensures (Fits tree) (Inside tree disk) (trawl ino) (fun _ => Settled tree disk) h)
    (haround : Around tree disk new h) (hclosed : files h = []) :
    Ensures (Fits tree) (Inside tree disk) (copyDirectory world trawl parent new name)
      (fun _ => Settled tree disk) h := by
  apply (retry_settles (.mkdir parent new name) .createDir (fun _ _ => rfl) haround hclosed).bind
  intro made h' _ hsettled
  cases made with
  | false => exact ensures_pure hsettled
  | true =>
      apply (chdir_settles name hsettled).bind
      intro entered h' _ hsettled
      cases entered with
      | false => exact report_settles .chdir hsettled
      | true =>
          apply (htrawl new h' hsettled).bind
          intro _ h' _ hsettled
          exact (chdir_settles dotDot hsettled).bind fun _ _ _ hsettled => ensures_pure hsettled

theorem copyEntry_settles (hanswers : Answers tree world) (hfree : Free disk world)
    (htrawl : ∀ ino h, Settled tree disk h →
      Ensures (Fits tree) (Inside tree disk) (trawl ino) (fun _ => Settled tree disk) h)
    (fuel : ℕ) (hsettled : Settled tree disk h) :
    Ensures (Fits tree) (Inside tree disk) (copyEntry world trawl fuel parent name)
      (fun _ => Settled tree disk) h := by
  refine ensures_bind (ensures_emit fun _ => ⟨hsettled.exact, ?_⟩)
  split
  · exact ensures_pure ⟨hsettled.closed, hsettled.kept⟩
  · refine ensures_bind (ensures_call fun _ => ⟨trivial, ?_⟩)
    cases hlstat : world.lstat (.entry name :: h) name with
    | none => exact report_settles .lstat ⟨hsettled.closed, hsettled.kept⟩
    | some info =>
        obtain ⟨node, hnode, hinfo⟩ := hanswers.lstat hlstat
        refine ensures_bind (ensures_call fun _ => ⟨trivial, ?_⟩)
        cases hnew : world.new_inode _ parent info.st_mode with
        | none => exact report_settles .newInode ⟨hsettled.closed, hsettled.kept⟩
        | some new =>
            have hunused : new ∉ (disk.after
                (.lstat name (some info) :: .entry name :: h)).used := hfree _ _ _ _ hnew
            have haround : Around tree disk new (.newInode parent info.st_mode (some new) ::
                .lstat name (some info) :: .entry name :: h) := by
              have hlooked : Settled tree disk (.newInode parent info.st_mode (some new) ::
                  .lstat name (some info) :: .entry name :: h) :=
                ⟨hsettled.closed, hsettled.kept⟩
              exact hlooked.around hunused
            simp only [copyNew]
            split
            · exact copyDirectory_settles htrawl haround hsettled.closed
            · split
              · exact copyRegular_settles hanswers fuel info haround hsettled.closed
              · exact copySpecial_settles hanswers hnode hinfo haround hsettled.closed

/-- The links are exact when a directory is done. -/
theorem trawlDir_settles (hanswers : Answers tree world) (hfree : Free disk world)
    (depth fuel : ℕ) (parent : Ino) (hsettled : Settled tree disk h) :
    Ensures (Fits tree) (Inside tree disk) (trawlDir world depth fuel parent)
      (fun _ => Settled tree disk) h := by
  apply @ensures_trawlDir world (Fits tree) (Inside tree disk) (fun _ => Settled tree disk)
  · exact fun _ _ _ hsettled => ⟨trivial, hsettled.closed, hsettled.kept⟩
  · exact fun trawl htrawl parent name h hsettled =>
      copyEntry_settles hanswers hfree htrawl fuel hsettled
  · exact fun _ _ hsettled => ⟨hsettled.exact, hsettled.closed, hsettled.kept⟩
  · exact hsettled

end Entry

/-! ## Every run -/

/-- In a run in which blocks and targets fit, every access is inside its
buffer, no more is written of a target than was read, and the links that were
made without a message have the targets of their sources. -/
theorem trawlDir_inside (tree : Tree) (disk : Disk) (world : World) (depth fuel : ℕ) (root : Ino)
    (hanswers : Answers tree world) (hfree : Free disk world)
    (hfits : Always (Fits tree) ((trawlDir world depth fuel root).exec []).1) :
    Always (Inside tree disk) ((trawlDir world depth fuel root).exec []).1 ∧
      (((trawlDir world depth fuel root).exec []).2 = .ok () →
        Exact tree disk ((trawlDir world depth fuel root).exec []).1) := by
  have hstart : Settled tree disk [] :=
    ⟨rfl, fun _ hmem => absurd hmem List.not_mem_nil⟩
  obtain ⟨hinside, hreturns⟩ :=
    (trawlDir_settles hanswers hfree depth fuel root hstart).run hfits
  exact ⟨hinside, fun hok => (hreturns () hok).exact⟩

/-! ## Two trees -/

instance (tree : Tree) (h : List Step) : DecidablePred (Fits tree h)
  | .read fd count _ => inferInstanceAs (Decidable (count ≤ fileBuffer ∨
      ∀ place ∈ source fd h, ∀ node ∈ tree.node place.1, node.data.length - place.2 ≤ fileBuffer))
  | .readlink name _ => inferInstanceAs (Decidable (∀ node ∈ tree.node (cwd h ++ [name]), _))
  | .fileWrite .link _ _ count out => inferInstanceAs (Decidable (∀ written ∈ out, count ≤ written))
  | .fileWrite .file _ _ _ _ => isTrue trivial
  | .fileClose .link _ done => inferInstanceAs (Decidable (done = true))
  | .fileClose .file _ _ => isTrue trivial
  | .opendir _ | .entry _ | .closedir | .lstat _ _ | .newInode _ _ _ => isTrue trivial
  | .request _ _ _ | .expandDir _ _ | .chdir _ _ | .writeNewInode _ _ _ => isTrue trivial
  | .allocStats _ | .openFile _ _ | .fileOpen _ _ _ | .fileFlush _ _ => isTrue trivial
  | .close _ | .report _ _ => isTrue trivial

theorem trawlDir_inside_smallWorld :
    ((trawlDir smallWorld 4 4 2).exec []).2 = .ok () ∧
      linked ((trawlDir smallWorld 4 4 2).exec []).1 = [(13, [ascii ['l']])] ∧
      Exact (.ofNodes smallTree smallTree_wellFormed) newDisk
        ((trawlDir smallWorld 4 4 2).exec []).1 := by
  have hok : ((trawlDir smallWorld 4 4 2).exec []).2 = .ok () := by decide +kernel
  obtain ⟨-, hreturns⟩ := trawlDir_inside (.ofNodes smallTree smallTree_wellFormed) newDisk
    smallWorld 4 4 2 (calm_answers _ _) smallWorld_free (by decide +kernel)
  exact ⟨hok, by decide +kernel, hreturns hok⟩

/-- The target of the link has 1025 bytes, and 1025 are written from a buffer
with 1024. -/
theorem trawlDir_behind_buffer :
    ¬ Always (Inside (.ofNodes longLink longLink_wellFormed) newDisk)
      ((trawlDir (calm (.ofNodes longLink longLink_wellFormed) 1024) 2 2 2).exec []).1 := by
  decide +kernel

end Tcb.Buffers
