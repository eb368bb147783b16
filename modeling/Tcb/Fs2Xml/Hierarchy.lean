import Tcb.Fs2Xml.Storage
import Tcb.Fs2Xml.MemberTypes

/-!
# The directories that the walk makes

On a file system where a file can be created in a directory only, and a
directory too, the walk makes every directory before anything is put into it.
So it comes to its end without a file that cannot be created, and afterwards
every directory of the table is there.
-/

namespace Tcb.Hierarchy

open Function
open Tcb.CString
open Tcb.Inodes
open Tcb.Split
open Tcb.MergeFile
open Tcb.TableShape
open Tcb.Paths
open Tcb.WalkDir
open Tcb.Placement
open Tcb.Shell
open Tcb.Storage

/-! ## Data that was copied whole -/

/-- There is as much data as the size says. -/
def Whole (node : Inode) : Prop :=
  0 ≤ node.size ∧ (node.size ≠ 0 → ∃ bytes, node.data = some bytes ∧
    bytes.length = node.size.toNat)

theorem copyData_length {ph : HeaderPtr} {size : ℤ} {bytes : List Byte}
    (hrun : copyData ph size = .ok (some bytes)) :
    0 < size ∧ bytes.length = size.toNat := by
  rw [copyData] at hrun
  split at hrun
  · simp at hrun
  · split at hrun
    · exact absurd hrun (Run.fault_ne_ok _ _)
    · rename_i hzero hneg
      simp only [Run.bind_eq_ok, Run.require_eq_ok, Run.pure_eq_ok, Except.ok.injEq,
        Option.some.injEq] at hrun
      obtain ⟨_, hroom, rfl⟩ := hrun
      refine ⟨by omega, ?_⟩
      rw [List.length_take, List.length_drop]
      omega

theorem newInode_length {ph : HeaderPtr} {component : List Byte} {parentid : ℤ} {node : Inode}
    (hrun : newInode ph component parentid = .ok node) {bytes : List Byte}
    (hdata : node.data = some bytes) : 0 < node.size ∧ bytes.length = node.size.toNat := by
  simp only [newInode, Run.bind_eq_ok] at hrun
  obtain ⟨name, -, link, -, size, -, uid, -, gid, -, mtime, -, mode, -, hswitch⟩ := hrun
  obtain ⟨flag, -, ⟨-, rfl⟩ | ⟨-, data, hcopy, rfl⟩ | ⟨-, link, -, rfl⟩ | ⟨-, rfl⟩⟩ :=
    applyTypeflag_cases hswitch
  · exact absurd hdata.symm (Option.some_ne_none bytes)
  · rw [show data = some bytes from hdata] at hcopy
    exact copyData_length hcopy
  · exact absurd hdata.symm (Option.some_ne_none bytes)
  · exact absurd hdata.symm (Option.some_ne_none bytes)

theorem reachable_length {inodes : Table} (hreach : Reachable inodes) :
    ∀ node ∈ inodes, ∀ bytes, node.data = some bytes →
      0 < node.size ∧ bytes.length = node.size.toNat := by
  refine Reachable.induction (motive := fun inodes => ∀ node ∈ inodes, ∀ bytes,
    node.data = some bytes → 0 < node.size ∧ bytes.length = node.size.toNat) (by simp) ?_ hreach
  intro inodes ph merged hreach ih hrun
  obtain ⟨_, _, _, -, -, ⟨rfl, -⟩ | ⟨node, rfl, -, -, hnode, -⟩⟩ :=
    mergeFile_paths (reachable_shape hreach) hrun
  · exact ih
  · intro other hother bytes hdata
    rcases List.mem_append.mp hother with hold | hnew
    · exact ih other hold bytes hdata
    · rw [List.mem_singleton.mp hnew] at hdata ⊢
      exact newInode_length hnode hdata

/-- The regular files of a reachable table are whole. -/
theorem reachable_whole {inodes : Table} (hreach : Reachable inodes) {node : Inode}
    (hmem : node ∈ inodes) (hreg : node.isReg = true) : Whole node := by
  by_cases hsize : node.size = 0
  · exact ⟨hsize.ge, fun hne => absurd hsize hne⟩
  · obtain ⟨bytes, hdata⟩ := Option.ne_none_iff_exists'.mp
      (MemberTypes.reachable_data hreach node hmem hreg hsize)
    obtain ⟨hpos, hlength⟩ := reachable_length hreach node hmem bytes hdata
    exact ⟨hpos.le, fun _ => ⟨bytes, hdata, hlength⟩⟩

theorem Whole.length_contents {node : Inode} (hwhole : Whole node) :
    (contents node).length = node.size.toNat := by
  rw [contents, List.length_take]
  by_cases hsize : node.size = 0
  · simp [hsize]
  · obtain ⟨bytes, hdata, hlength⟩ := hwhole.2 hsize
    rw [hdata, Option.getD_some, hlength]
    omega

/-! ## One file -/

section File

variable {host : Host} {node : Inode}

theorem startsWith_returns {pattern block : List Byte} (hroom : pattern.length ≤ block.length) :
    Run.Returns (startsWith pattern block : Run ExitReason Bool) := by
  by_cases hbegins : pattern <+: block
  · exact ⟨true, startsWith_eq_true hbegins⟩
  · exact ⟨false, startsWith_eq_false hroom hbegins⟩

theorem shouldBeCompressed_returns (hwhole : Whole node) (name : List Byte) :
    Run.Returns (shouldBeCompressed name node.data node.size) := by
  unfold shouldBeCompressed
  split
  · exact ⟨_, rfl⟩
  split
  · exact ⟨_, rfl⟩
  split
  · exact ⟨_, rfl⟩
  · rename_i hsmall _ _
    obtain ⟨bytes, hdata, hlength⟩ := hwhole.2 (by omega)
    rw [hdata]
    apply startsWith_returns
    have hmagic : elfMagic.length = 4 := rfl
    omega

theorem writeData_returns (hwhole : Whole node) (fp : host.File) (disk : host.Disk) :
    Run.Returns (writeData host fp node disk) := by
  rw [writeData]
  split
  · exact ⟨_, rfl⟩
  · rename_i hsize
    obtain ⟨bytes, hdata, hlength⟩ := hwhole.2 hsize
    simp only [hdata]
    rw [Run.require_pos ⟨hwhole.1, hlength.ge⟩]
    exact ⟨_, rfl⟩

/-- A name that ends inside its field leaves room for everything that the
branch for regular files builds. -/
theorem writeFile_returns {i : ℕ} {state : WalkState host} {path : List Byte} {hidden : Bool}
    (hnode : state.inodes[i]? = some node) (hwhole : Whole node)
    (hpath : getFullPathNotHidden state.inodes fsRoot i = .ok (path, hidden))
    (hnul : 0 ∉ path) (hlength : path.length ≤ 128)
    (hopen : ∃ result, host.fopen path state.disk = some result) :
    Run.Returns (writeFile i state) := by
  obtain ⟨src, hsrc⟩ : Run.Returns (srcOf path hidden node.src) := by
    rw [srcOf]
    split
    · have hfits : 0 ∉ path.drop 3 ∧ (path.drop 3).length < 128 := by
        refine ⟨fun hmem => hnul (List.mem_of_mem_drop hmem), ?_⟩
        rw [List.length_drop]
        omega
      exact ⟨⟨path.drop 3, hfits.1, hfits.2⟩, CArray.strcpy_eq_ok.mpr rfl⟩
    · exact ⟨_, rfl⟩
  obtain ⟨⟨fp, opened⟩, hopen⟩ := hopen
  obtain ⟨disk, hdisk⟩ := writeData_returns hwhole fp opened
  obtain ⟨compress, hcompress⟩ := shouldBeCompressed_returns hwhole (nameOf node)
  have hcommand : (bzip2Command path).length < 1024 := by
    simp only [bzip2Command, ascii, List.length_append, List.length_map, List.length_cons,
      List.length_nil]
    omega
  rw [writeFile, entry_eq_ok.mpr hnode, Run.ok_bind, hpath, Run.ok_bind]
  simp only [hsrc, Run.ok_bind, hopen, hdisk, hcompress, Run.require_pos fun _ => hcommand]
  exact ⟨_, rfl⟩

end File

/-! ## The file system -/

/-- Files and directories are made in directories: `mkdir` makes a directory
where no file is, and a file can be opened for writing where no directory is. -/
structure Tree (host : Host) (view : DiskView host)
    (isDir : host.Disk → List (List Byte) → Prop) : Prop where
  mkdir : ∀ {path disk}, isDir disk (location path).dropLast →
    view.read disk (location path) = none →
      ∀ place, isDir (host.mkdir path disk) place ↔ isDir disk place ∨ place = location path
  fopen : ∀ {path disk}, path.getLast? ≠ some 47 → isDir disk (location path).dropLast →
    ¬ isDir disk (location path) → ∃ result, host.fopen path disk = some result
  opened : ∀ {path disk fp opened}, host.fopen path disk = some (fp, opened) →
    isDir opened = isDir disk
  fwrite : ∀ fp bytes disk, isDir (host.fwrite fp bytes disk) = isDir disk
  fclose : ∀ fp disk, isDir (host.fclose fp disk) = isDir disk
  bzip2 : ∀ {path disk}, quotable path = true →
    isDir (host.system (bzip2Command path) disk) = isDir disk

/-- The program is in a directory in which nothing is called `fs` yet. -/
structure Fresh {host : Host} (view : DiskView host)
    (isDir : host.Disk → List (List Byte) → Prop) (disk : host.Disk) : Prop where
  here : isDir disk []
  noDirectory : ∀ place, ¬ isDir disk (fsRoot :: place)
  noFile : ∀ place, view.read disk (fsRoot :: place) = none

section Walk

variable {host : Host} {view : DiskView host} {isDir : host.Disk → List (List Byte) → Prop}
  {inodes : Table} {state next : WalkState host} {i : ℕ} {node : Inode}
  {names front : List (List Byte)} {path : List Byte}

/-- The place of a directory with a path. -/
def placeOf (names : List (List Byte)) : List (List Byte) := fsRoot :: names.map shown

/-- Below `fs` there are only directories and files of the table. -/
structure Tidy (view : DiskView host) (isDir : host.Disk → List (List Byte) → Prop)
    (inodes : Table) (disk : host.Disk) : Prop where
  here : isDir disk []
  directories : ∀ place, isDir disk (fsRoot :: place) →
    ∃ id names, Directory inodes id ∧ PathTo inodes id names ∧ fsRoot :: place = placeOf names
  files : ∀ place, view.read disk (fsRoot :: place) ≠ none →
    ∃ i node front path, OnDisk inodes i node front path ∧ node.isReg = true ∧
      fsRoot :: place = location (storedPath node path)

/-- Every name fits into its field, and so every path fits into its buffer. -/
def Fits (inodes : Table) : Prop :=
  ∀ (i : ℕ) names, PathTo inodes i names → (joinedPath names).length ≤ 100

theorem fullPath_of_fits (hreach : Reachable inodes) (hfits : Fits inodes) {id : ℤ}
    (hnames : PathTo inodes id names) :
    getFullPathNotHidden inodes fsRoot id =
      .ok (fsRoot ++ shownPath names, isHidden names) := by
  rcases hnames.index_cases with ⟨rfl, rfl⟩ | ⟨index, rfl, -⟩
  · exact (getFullPathNotHidden_eq (reachable_shape hreach) hnames fsRoot).trans (if_pos (by decide))
  · exact (getFullPathNotHidden_fits (reachable_shape hreach) hnames (hfits index names hnames)).1

theorem Tidy.of_fresh {disk : host.Disk} (hfresh : Fresh view isDir disk) :
    Tidy view isDir inodes disk where
  here := hfresh.here
  directories place hplace := absurd hplace (hfresh.noDirectory place)
  files place hplace := absurd (hfresh.noFile place) hplace

/-- No file is in the place of a directory. -/
theorem Tidy.noFile (hreach : Reachable inodes) (hdistinct : DistinctNames inodes)
    (hfits : Fits inodes) {disk : host.Disk} (htidy : Tidy view isDir inodes disk) {id : ℤ}
    (hdirectory : Directory inodes id) (hnames : PathTo inodes id names) :
    view.read disk (placeOf names) = none := by
  by_contra hread
  obtain ⟨i, node, front, path, hdisk, hreg, hplace⟩ := htidy.files _ hread
  have hrun := fullPath_of_fits hreach hfits hnames
  have hlocation : location (fsRoot ++ shownPath names) = placeOf names :=
    hdirectory.location hreach hdistinct.ordinary hnames hrun
  obtain ⟨-, hne⟩ := hdisk.apart hreach hdistinct hreg hdirectory hrun
  rw [hlocation] at hne
  exact hne hplace.symm

/-- No directory is in the place of a file. -/
theorem Tidy.noDirectory (hreach : Reachable inodes) (hdistinct : DistinctNames inodes)
    (hfits : Fits inodes) {disk : host.Disk} (htidy : Tidy view isDir inodes disk)
    (hdisk : OnDisk inodes i node front path) (hreg : node.isReg = true) :
    ¬ isDir disk (location path) := by
  intro hplace
  rw [hdisk.location_path hreach hdistinct.ordinary] at hplace
  obtain ⟨id, names, hdirectory, hnames, heq⟩ := htidy.directories _ hplace
  have hrun := fullPath_of_fits hreach hfits hnames
  obtain ⟨hne, -⟩ := hdisk.apart hreach hdistinct hreg hdirectory hrun
  apply hne
  rw [hdisk.location_path hreach hdistinct.ordinary, heq]
  exact (hdirectory.location hreach hdistinct.ordinary hnames hrun).symm

/-! ### One step of the walk -/

theorem makeDir_returns (htree : Tree host view isDir) (hlawful : Lawful host view)
    (hreach : Reachable inodes) (hdistinct : DistinctNames inodes) (hfits : Fits inodes)
    (hsame : SameTree inodes state.inodes) (htidy : Tidy view isDir inodes state.disk) {id : ℤ}
    (hdirectory : Directory inodes id) (hnames : PathTo inodes id names)
    (hparent : isDir state.disk (placeOf names).dropLast) :
    ∃ next, makeDir id state = .ok next ∧ SameTree inodes next.inodes ∧
      Tidy view isDir inodes next.disk ∧ view.read next.disk = view.read state.disk ∧
      ∀ place, isDir next.disk place ↔ isDir state.disk place ∨ place = placeOf names := by
  have hrun := fullPath_of_fits hreach hfits hnames
  have hlocation : location (fsRoot ++ shownPath names) = placeOf names :=
    hdirectory.location hreach hdistinct.ordinary hnames hrun
  have hnow : getFullPathNotHidden state.inodes fsRoot id =
      .ok (fsRoot ++ shownPath names, isHidden names) :=
    (getFullPathNotHidden_sameTree (reachable_shape hreach) hsame fsRoot hnames).trans hrun
  have hmade := htree.mkdir (hlocation ▸ hparent)
    (hlocation ▸ htidy.noFile hreach hdistinct hfits hdirectory hnames)
  rw [hlocation] at hmade
  refine ⟨_, makeDir_eq_ok.mpr ⟨_, _, hnow, rfl⟩, hsame, ⟨?_, ?_, ?_⟩, hlawful.mkdir _ _, hmade⟩
  · exact (hmade []).mpr (.inl htidy.here)
  · intro place hplace
    rcases (hmade _).mp hplace with hold | heq
    · exact htidy.directories place hold
    · exact ⟨id, names, hdirectory, hnames, heq⟩
  · intro place hplace
    rw [hlawful.mkdir] at hplace
    exact htidy.files place hplace

/-- The path of a file ends with its name. -/
theorem OnDisk.getLast_path (hreach : Reachable inodes) (hdistinct : DistinctNames inodes)
    (hdisk : OnDisk inodes i node front path) : path.getLast? ≠ some 47 := by
  have hordinary := hdisk.made.ordinary_shown hreach hdistinct.ordinary
  have hpath : path = (fsRoot ++ joinedPath (front.map shown) ++ [47]) ++ shownName node := by
    rw [hdisk.hpath, joinedPath_append, joinedPath_singleton]
    simp only [List.append_assoc, List.singleton_append]
  have hlast : path.getLast? = (shownName node).getLast? := by
    rw [hpath, List.getLast?_append_of_ne_nil _ hordinary.nonempty]
  rw [hlast]
  intro hslash
  exact hordinary.noSlash (List.mem_of_getLast? hslash)

theorem shownPath_noNul {id : ℤ} (hnames : PathTo inodes id names) : 0 ∉ shownPath names := by
  induction hnames with
  | root => exact List.not_mem_nil
  | @child index node front hentry hfront ih =>
      rw [shownPath_append, shownPath_singleton, List.mem_append, not_or, List.mem_cons, not_or]
      refine ⟨ih, by decide, fun hnul => ?_⟩
      exact node.name.noNul ((notHidden_suffix _).subset hnul)

theorem writeData_isDir (htree : Tree host view isDir) {fp : host.File}
    {disk written : host.Disk} (hrun : writeData host fp node disk = .ok written) :
    isDir written = isDir disk := by
  rw [writeData] at hrun
  split at hrun
  · rw [Except.ok.injEq] at hrun
    rw [hrun]
  · split at hrun
    · exact absurd hrun (Run.fault_ne_ok _ _)
    · simp only [Run.bind_eq_ok, Run.pure_eq_ok, Except.ok.injEq] at hrun
      obtain ⟨_, _, rfl⟩ := hrun
      exact htree.fwrite _ _ _

/-- A file that is written leaves the directories as they are. -/
theorem written_isDir (htree : Tree host view isDir) {hidden compress : Bool}
    {src : CArray 128} (hwritten : Written i state next node path hidden compress src)
    (hquotable : packed node = true → quotable path = true) :
    isDir next.disk = isDir state.disk := by
  obtain ⟨fp, opened, disk, hopen, hdata, hnext⟩ := hwritten.hstored
  have hclosed : isDir (host.fclose fp disk) = isDir state.disk :=
    calc isDir (host.fclose fp disk)
        = isDir disk := htree.fclose _ _
      _ = isDir opened := writeData_isDir htree hdata
      _ = isDir state.disk := htree.opened hopen
  have hpacked : packed node = compress := by
    rw [packed, hwritten.hcompress]
    cases compress <;> simp
  rw [hnext]
  cases compress with
  | false => rw [if_neg Bool.false_ne_true, hclosed]
  | true => rw [if_pos rfl, htree.bzip2 (hquotable hpacked), hclosed]

theorem writeFile_tidy (htree : Tree host view isDir) (hlawful : Lawful host view)
    (hreach : Reachable inodes) (hdistinct : DistinctNames inodes) (hfits : Fits inodes)
    (hsame : SameTree inodes state.inodes) (htidy : Tidy view isDir inodes state.disk)
    (hnode : inodes[i]? = some node) (hreg : node.isReg = true)
    (hfront : PathTo inodes node.parentid front) (hparent : isDir state.disk (placeOf front)) :
    ∃ next, writeFile i state = .ok next ∧ SameTree inodes next.inodes ∧
      Tidy view isDir inodes next.disk ∧ isDir next.disk = isDir state.disk ∧
      ∀ place, place.head? ≠ some fsRoot →
        view.read next.disk place = view.read state.disk place := by
  have hshape := reachable_shape hreach
  have hmade := hdistinct.reached i node hnode hreg
  have hnames : PathTo inodes i (front ++ [nameOf node]) := .child hnode hfront
  have hrun := fullPath_of_fits hreach hfits hnames
  have hnow := (getFullPathNotHidden_sameTree hshape hsame fsRoot hnames).trans hrun
  obtain ⟨front', hdisk⟩ := hmade.onDisk hreach hrun
  obtain rfl : front' = front := hdisk.hfront.unique hfront
  obtain ⟨entry, hentry, hfixed⟩ := hsame.getElem? hnode
  have hopen : ∃ result, host.fopen (fsRoot ++ shownPath (front' ++ [nameOf node])) state.disk =
      some result := by
    apply htree.fopen (OnDisk.getLast_path hreach hdistinct hdisk)
    · rw [hdisk.location_path hreach hdistinct.ordinary, ← List.cons_append, List.dropLast_concat]
      exact hparent
    · exact htidy.noDirectory hreach hdistinct hfits hdisk hreg
  have hwhole : Whole entry := by
    have hdata : entry.data = node.data := (congrArg Inode.data hfixed :)
    have hsize : entry.size = node.size := (congrArg Inode.size hfixed :)
    rw [Whole, hdata, hsize]
    exact reachable_whole hreach (List.mem_of_getElem? hnode) hreg
  have hnul : 0 ∉ fsRoot ++ shownPath (front' ++ [nameOf node]) := by
    rw [List.mem_append, not_or]
    exact ⟨by decide, shownPath_noNul hnames⟩
  have hlength : (fsRoot ++ shownPath (front' ++ [nameOf node])).length ≤ 128 := by
    have hroot : fsRoot.length = 2 := rfl
    have hshown := shownPath_length_le (front' ++ [nameOf node])
    have hjoined := hfits i _ hnames
    rw [List.length_append]
    omega
  obtain ⟨next, hnext⟩ := writeFile_returns hentry hwhole hnow hnul hlength hopen
  obtain ⟨entry', path', hidden, compress, src, hwritten⟩ := writeFile_written hnext
  obtain rfl : entry' = entry := Option.some.inj (hwritten.hentry.symm.trans hentry)
  have hpath := hwritten.hpath.symm.trans hnow
  rw [Except.ok.injEq, Prod.mk.injEq] at hpath
  have hpacked : packed entry' = packed node := (congrArg packed hfixed :)
  have hquotable : packed entry' = true → quotable path' = true := by
    intro hpack
    rw [hpath.1]
    exact hdisk.quotable_path hdistinct hreg (hpacked ▸ hpack)
  have hdirs := written_isDir htree hwritten hquotable
  have hwriting := hdisk.location_path hreach hdistinct.ordinary
  have hstoring := hdisk.location_stored hreach hdistinct.ordinary
  rw [storedPath, ← hpacked, ← storedPath] at hstoring
  rw [← hpath.1] at hwriting hstoring
  refine ⟨next, hnext, hsame.trans hwritten.sameTree, ⟨?_, ?_, ?_⟩, hdirs, ?_⟩
  · rw [hdirs]
    exact htidy.here
  · rw [hdirs]
    exact htidy.directories
  · intro place hplace
    by_cases hstored : fsRoot :: place = location (storedPath entry' path')
    · refine ⟨i, node, front', _, hdisk, hreg, ?_⟩
      rw [storedPath, ← hpacked, ← storedPath, ← hpath.1]
      exact hstored
    by_cases hwriting : fsRoot :: place = location path'
    · exfalso
      have hpack : packed entry' = true := by
        by_contra hnot
        rw [storedPath, if_neg hnot] at hstored
        exact hstored hwriting
      rw [hwriting] at hplace hstored
      exact hplace ((written_read hlawful hwritten hquotable).2.1 hpack hstored)
    · rw [(written_read hlawful hwritten hquotable).2.2 _ hwriting hstored] at hplace
      exact htidy.files place hplace
  · intro place hhead
    apply (written_read hlawful hwritten hquotable).2.2
    · rintro rfl
      exact hhead (by rw [hwriting]; rfl)
    · rintro rfl
      exact hhead (by rw [hstoring]; rfl)

/-! ### The whole walk -/

/-- What a part of the walk leaves behind, when it has been to some of the
inodes. -/
structure Walked (view : DiskView host) (isDir : host.Disk → List (List Byte) → Prop)
    (inodes : Table) (state next : WalkState host) (seen : ℕ → Prop) : Prop where
  sameTree : SameTree inodes next.inodes
  tidy : Tidy view isDir inodes next.disk
  kept : ∀ place, isDir state.disk place → isDir next.disk place
  elsewhere : ∀ place, place.head? ≠ some fsRoot →
    (isDir next.disk place ↔ isDir state.disk place) ∧
      view.read next.disk place = view.read state.disk place
  made : ∀ (j : ℕ) node names, seen j → inodes[j]? = some node → node.isDir = true →
    PathTo inodes j names → isDir next.disk (placeOf names)

theorem placeOf_concat (front : List (List Byte)) (name : List Byte) :
    (placeOf (front ++ [name])).dropLast = placeOf front := by
  rw [placeOf, List.map_append, List.map_singleton, ← List.cons_append, List.dropLast_concat,
    placeOf]

theorem Walked.trans {middle : WalkState host} {seen seen' : ℕ → Prop}
    (hfirst : Walked view isDir inodes state middle seen)
    (hsecond : Walked view isDir inodes middle next seen') :
    Walked view isDir inodes state next fun j => seen j ∨ seen' j where
  sameTree := hsecond.sameTree
  tidy := hsecond.tidy
  kept place hplace := hsecond.kept place (hfirst.kept place hplace)
  elsewhere place hplace :=
    ⟨(hsecond.elsewhere place hplace).1.trans (hfirst.elsewhere place hplace).1,
      (hsecond.elsewhere place hplace).2.trans (hfirst.elsewhere place hplace).2⟩
  made j node names hseen hnode hdir hnames := by
    rcases hseen with hbefore | hafter
    · exact hsecond.kept _ (hfirst.made j node names hbefore hnode hdir hnames)
    · exact hsecond.made j node names hafter hnode hdir hnames

theorem Walked.weaken {seen seen' : ℕ → Prop} (hwalked : Walked view isDir inodes state next seen)
    (hseen : ∀ j, seen' j → seen j) : Walked view isDir inodes state next seen' where
  sameTree := hwalked.sameTree
  tidy := hwalked.tidy
  kept := hwalked.kept
  elsewhere := hwalked.elsewhere
  made j node names hj := hwalked.made j node names (hseen j hj)

theorem Walked.refl (hsame : SameTree inodes state.inodes)
    (htidy : Tidy view isDir inodes state.disk) :
    Walked view isDir inodes state state fun _ => False where
  sameTree := hsame
  tidy := htidy
  kept _ hplace := hplace
  elsewhere _ _ := ⟨.rfl, rfl⟩
  made _ _ _ hfalse := hfalse.elim

theorem directory_below {i : ℕ} {id : ℤ} (hdirectory : Directory inodes id)
    (hnode : inodes[i]? = some node) (hparentid : node.parentid = id) (hdir : node.isDir = true) :
    Directory inodes i := by
  obtain rfl := hparentid
  generalize hid : node.parentid = id at hdirectory
  cases hdirectory with
  | root => exact .inside hnode hdir (.top hnode hid)
  | inside habove hopens hvisited =>
      exact .inside hnode hdir (.inside hnode hid habove hopens hvisited)

/-- What a walk sees at an inode, and below it. -/
def SeenAt (inodes : Table) (fuel : ℕ) (id : ℤ) (i j : ℕ) : Prop :=
  i ∈ Preorder.children Inode.parentid inodes id ∧
    (j = i ∨ Preorder.opensAt Inode.isDir inodes i = true ∧ j ∈ visits inodes fuel i)

theorem mem_visits_succ {fuel : ℕ} {id : ℤ} {j : ℕ} :
    j ∈ visits inodes (fuel + 1) id ↔ ∃ i, SeenAt inodes fuel id i j :=
  Preorder.mem_preorder_succ

theorem walkDirEntry_returns (htree : Tree host view isDir) (hlawful : Lawful host view)
    (hreach : Reachable inodes) (hdistinct : DistinctNames inodes) (hfits : Fits inodes)
    {fuel : ℕ} {id : ℤ} (hsame : SameTree inodes state.inodes)
    (htidy : Tidy view isDir inodes state.disk) (hnames : PathTo inodes id names)
    (hhere : isDir state.disk (placeOf names)) (hnode : inodes[i]? = some node)
    (hwalk : node.parentid = id → node.isDir = true →
      ∃ next, walkDir fuel i (state.visit i) = .ok next ∧
        isDir next.disk (placeOf (names ++ [nameOf node])) ∧
        Walked view isDir inodes (state.visit i) next (· ∈ visits inodes fuel i)) :
    ∃ next, walkDirEntry (walkDir fuel) id state i = .ok next ∧
      Walked view isDir inodes state next (SeenAt inodes fuel id i) := by
  obtain ⟨entry, hentry, hfixed⟩ := hsame.getElem? hnode
  have hparentid : entry.parentid = node.parentid := (congrArg Inode.parentid hfixed :)
  have hisDir : entry.isDir = node.isDir := (congrArg Inode.isDir hfixed :)
  have hisReg : entry.isReg = node.isReg := (congrArg Inode.isReg hfixed :)
  have hchild : ∀ {j}, SeenAt inodes fuel id i j → node.parentid = id := by
    intro j hseen
    obtain ⟨node', hnode', hparent⟩ := Preorder.mem_children_iff.mp hseen.1
    rwa [Option.some.inj (hnode.symm.trans hnode')]
  simp only [walkDirEntry, entry_eq_ok.mpr hentry, Run.ok_bind, hparentid]
  by_cases hparent : node.parentid = id
  · rw [if_neg (not_not_intro hparent), enterDir, hisDir]
    obtain rfl := hparent
    by_cases hdir : node.isDir = true
    · obtain ⟨next, hrun, hmade, hwalked⟩ := hwalk rfl hdir
      refine ⟨next, ?_, hwalked.sameTree, hwalked.tidy, hwalked.kept, hwalked.elsewhere, ?_⟩
      · rw [if_pos hdir, hrun, Run.ok_bind, hisReg, not_isReg_of_isDir hdir,
          if_neg Bool.false_ne_true]
        rfl
      · rintro j other names' ⟨-, rfl | ⟨-, hbelow⟩⟩ hother hisdir hnames'
        · obtain rfl := Option.some.inj (hnode.symm.trans hother)
          obtain rfl := hnames'.unique (.child hnode hnames)
          exact hmade
        · exact hwalked.made j other names' hbelow hother hisdir hnames'
    · rw [if_neg hdir, Run.ok_bind, hisReg]
      have hfile : ∀ j, SeenAt inodes fuel node.parentid i j → j = i := by
        rintro j ⟨-, rfl | ⟨hopens, -⟩⟩
        · rfl
        · obtain ⟨node', hnode', hdir'⟩ := Preorder.opensAt_iff.mp hopens
          rw [Option.some.inj (hnode'.symm.trans hnode)] at hdir'
          exact absurd hdir' hdir
      have hnone : ∀ {next : WalkState host} (j : ℕ) other names',
          SeenAt inodes fuel node.parentid i j →
          inodes[j]? = some other → other.isDir = true → PathTo inodes j names' →
            isDir next.disk (placeOf names') := by
        intro next j other names' hseen hother hisdir _
        rw [hfile j hseen] at hother
        rw [Option.some.inj (hother.symm.trans hnode)] at hisdir
        exact absurd hisdir hdir
      by_cases hreg : node.isReg = true
      · have hvisitSame : SameTree inodes (state.visit i).inodes := hsame
        have hvisitTidy : Tidy view isDir inodes (state.visit i).disk := htidy
        obtain ⟨next, hrun, hnextSame, hnextTidy, hdirs, hfiles⟩ := writeFile_tidy htree hlawful
          hreach hdistinct hfits hvisitSame hvisitTidy hnode hreg hnames hhere
        refine ⟨next, by rw [if_pos hreg, hrun], hnextSame, hnextTidy, ?_, ?_, hnone⟩
        · rw [hdirs]
          exact fun place hplace => hplace
        · rw [hdirs]
          exact fun place hplace => ⟨.rfl, hfiles place hplace⟩
      · rw [if_neg hreg]
        exact ⟨_, rfl, hsame, htidy, fun place hplace => hplace, fun place _ => ⟨.rfl, rfl⟩, hnone⟩
  · rw [if_pos hparent]
    refine ⟨_, rfl, (Walked.refl hsame htidy).weaken ?_⟩
    exact fun j hseen => hparent (hchild hseen)

/-- The walk below a directory that can be made comes to its end, and makes
every directory there. -/
theorem walkDir_returns (htree : Tree host view isDir) (hlawful : Lawful host view)
    (hreach : Reachable inodes) (hdistinct : DistinctNames inodes) (hfits : Fits inodes)
    {fuel : ℕ} {id : ℤ} (hfuel : (inodes.length : ℤ) ≤ fuel + id)
    (hsame : SameTree inodes state.inodes) (htidy : Tidy view isDir inodes state.disk)
    (hdirectory : Directory inodes id) (hnames : PathTo inodes id names)
    (hparent : isDir state.disk (placeOf names).dropLast) :
    ∃ next, walkDir fuel id state = .ok next ∧ isDir next.disk (placeOf names) ∧
      Walked view isDir inodes state next (· ∈ visits inodes fuel id) := by
  induction fuel generalizing id state names with
  | zero =>
      have hlt : id < inodes.length := by
        rcases hnames.index_cases with ⟨rfl, -⟩ | ⟨index, rfl, hlt⟩ <;> omega
      push_cast at hfuel
      omega
  | succ fuel ih =>
      obtain ⟨made, hmake, hmadeSame, hmadeTidy, hread, hmade⟩ :=
        makeDir_returns htree hlawful hreach hdistinct hfits hsame htidy hdirectory hnames hparent
      have hhere : isDir made.disk (placeOf names) := (hmade _).mpr (.inr rfl)
      have hstart : Walked view isDir inodes made made fun j =>
          ∃ i ∈ ([] : List ℕ), SeenAt inodes fuel id i j :=
        (Walked.refl hmadeSame hmadeTidy).weaken fun j => by
          rintro ⟨i, hi, -⟩
          exact absurd hi List.not_mem_nil
      obtain ⟨next, hloop, hwalked⟩ : ∃ next, (List.range made.inodes.length).foldlM
          (walkDirEntry (walkDir fuel) id) made = .ok next ∧
          Walked view isDir inodes made next fun j =>
            ∃ i ∈ List.range made.inodes.length, SeenAt inodes fuel id i j := by
        apply Run.foldlM_returns_done (fun done reached => Walked view isDir inodes made reached
          fun j => ∃ i ∈ done, SeenAt inodes fuel id i j) hstart
        intro before i after reached hitems hreached
        have hi : i < inodes.length := by
          rw [hmadeSame.length_eq, ← List.mem_range, hitems]
          exact List.mem_append_right before List.mem_cons_self
        have hnode : inodes[i]? = some inodes[i] := List.getElem?_eq_getElem hi
        have hwalk : inodes[i].parentid = id → inodes[i].isDir = true →
            ∃ next, walkDir fuel i (reached.visit i) = .ok next ∧
              isDir next.disk (placeOf (names ++ [nameOf inodes[i]])) ∧
              Walked view isDir inodes (reached.visit i) next (· ∈ visits inodes fuel i) := by
          intro hparentid hdir
          have hreachedSame : SameTree inodes (reached.visit i).inodes := hreached.sameTree
          have hreachedTidy : Tidy view isDir inodes (reached.visit i).disk := hreached.tidy
          have hnames' : PathTo inodes i (names ++ [nameOf inodes[i]]) :=
            .child hnode (hparentid ▸ hnames)
          have hlt : id < (i : ℤ) := by
            rcases (parentsFirst (reachable_shape hreach)) i _ hnode with h | h <;> omega
          apply ih (by push_cast at hfuel; omega) hreachedSame hreachedTidy
            (directory_below hdirectory hnode hparentid hdir) hnames'
          rw [placeOf_concat]
          exact hreached.kept _ hhere
        obtain ⟨after, hrun, hafter⟩ := walkDirEntry_returns htree hlawful hreach hdistinct hfits
          hreached.sameTree hreached.tidy hnames (hreached.kept _ hhere) hnode hwalk
        refine ⟨after, hrun, (hreached.trans hafter).weaken ?_⟩
        rintro j ⟨i', hi', hseen⟩
        rcases List.mem_append.mp hi' with hbefore | hlast
        · exact .inl ⟨i', hbefore, hseen⟩
        · rw [List.mem_singleton.mp hlast] at hseen
          exact .inr hseen
      refine ⟨next, by rw [walkDir, hmake, Run.ok_bind, hloop], hwalked.kept _ hhere, ?_⟩
      refine ⟨hwalked.sameTree, hwalked.tidy, ?_, ?_, ?_⟩
      · exact fun place hplace => hwalked.kept place ((hmade place).mpr (.inl hplace))
      · intro place hplace
        obtain ⟨hdirs, hfiles⟩ := hwalked.elsewhere place hplace
        rw [hdirs, hfiles, hmade, hread]
        refine ⟨or_iff_left fun heq => hplace ?_, rfl⟩
        rw [heq]
        rfl
      · intro j other names' hseen hother hdir hnames'
        obtain ⟨i, hseen⟩ := mem_visits_succ.mp hseen
        obtain ⟨node, hnode, -⟩ := Preorder.mem_children_iff.mp hseen.1
        have hlt := (List.getElem?_eq_some_iff.mp hnode).1
        rw [hmadeSame.length_eq, ← List.mem_range] at hlt
        exact hwalked.made j other names' ⟨i, hlt, hseen⟩ hother hdir hnames'

/-- The inode of a file says afterwards whether the file is packed. -/
theorem createFilesystem_compressed (hreach : Reachable inodes)
    (hdistinct : DistinctNames inodes) {disk : host.Disk} {final : WalkState host}
    (hrun : createFilesystem host inodes disk = .ok final) (hnode : inodes[i]? = some node)
    (hreg : node.isReg = true) {now : Inode} (hnow : final.inodes[i]? = some now) :
    now.compressed = packed node := by
  obtain ⟨path, hidden, compress, hplaced⟩ := createFilesystem_placed (reachable_shape hreach)
    hrun hnode hreg (hdistinct.reached i node hnode hreg).visited
  obtain ⟨now', hnow', -, hcompressed⟩ := hplaced.hnow
  obtain rfl := Option.some.inj (hnow.symm.trans hnow')
  rw [hcompressed, (fresh_of_mem hreach node (List.mem_of_getElem? hnode)).2.1, Bool.or_false,
    packed, hplaced.hcompress]
  cases compress <;> rfl

/-- The walk was completed: below `fs` are the directories of the table and
the stored files, each of which holds its data, and nothing else; elsewhere
nothing has changed. -/
structure Completed (view : DiskView host) (isDir : host.Disk → List (List Byte) → Prop)
    (inodes : Table) (disk : host.Disk) (final : WalkState host) : Prop where
  directories : ∀ place, isDir final.disk (fsRoot :: place) ↔
    ∃ id names, Directory inodes id ∧ PathTo inodes id names ∧ fsRoot :: place = placeOf names
  files : ∀ place, view.read final.disk (fsRoot :: place) ≠ none ↔
    ∃ i node front path, OnDisk inodes i node front path ∧ node.isReg = true ∧
      fsRoot :: place = location (storedPath node path)
  stored : ∀ (i : ℕ) node, inodes[i]? = some node → node.isReg = true →
    Stored view inodes final i node
  elsewhere : ∀ place, place.head? ≠ some fsRoot →
    (isDir final.disk place ↔ isDir disk place) ∧
      view.read final.disk place = view.read disk place

/-- In a directory in which nothing is called `fs` yet the walk comes to its
end, and leaves what the table says. -/
theorem createFilesystem_completed (htree : Tree host view isDir) (hlawful : Lawful host view)
    (hreach : Reachable inodes) (hdistinct : DistinctNames inodes) (hfits : Fits inodes)
    {disk : host.Disk} (hfresh : Fresh view isDir disk) :
    ∃ final, createFilesystem host inodes disk = .ok final ∧
      Completed view isDir inodes disk final := by
  have hfuel : (inodes.length : ℤ) ≤ ((inodes.length + 1 : ℕ) : ℤ) + -1 := by
    push_cast
    omega
  have hstart : SameTree inodes
      ({ inodes := inodes, disk := disk, log := [] } : WalkState host).inodes := .refl _
  obtain ⟨final, hrun, hroot, hwalked⟩ := walkDir_returns htree hlawful hreach hdistinct hfits
    hfuel hstart (Tidy.of_fresh hfresh) .root .root hfresh.here
  have hstored := fun (i : ℕ) node (hnode : inodes[i]? = some node) hreg =>
    createFilesystem_stored hlawful hreach hdistinct hrun hnode hreg
  refine ⟨final, hrun, ?_, ?_, hstored, hwalked.elsewhere⟩
  · intro place
    refine ⟨hwalked.tidy.directories place, ?_⟩
    rintro ⟨id, names, hdirectory, hnames, hplace⟩
    rw [hplace]
    cases hdirectory with
    | root =>
        obtain ⟨-, rfl⟩ | ⟨_, hindex, -⟩ := hnames.index_cases
        · exact hroot
        · omega
    | inside hnode hdir hvisited =>
        refine hwalked.made _ _ names ?_ hnode hdir hnames
        exact ((parentsFirst (reachable_shape hreach)).mem_preorder_root_iff
          (Nat.le_succ inodes.length)).mpr hvisited
  · intro place
    refine ⟨hwalked.tidy.files place, ?_⟩
    rintro ⟨i, node, front, path, hdisk, hreg, hplace⟩
    obtain ⟨path', hidden, now, bytes, hpath, hnow, hread, -⟩ :=
      hstored i node hdisk.made.entry hreg
    rw [createFilesystem_compressed hreach hdistinct hrun hdisk.made.entry hreg hnow] at hread
    have hnamed : PathTo inodes i (front ++ [nameOf node]) :=
      .child hdisk.made.entry hdisk.hfront
    rw [fullPath_of_fits hreach hfits hnamed, Except.ok.injEq, Prod.mk.injEq] at hpath
    have hsame : path' = path := by
      rw [← hpath.1, hdisk.hpath, shownPath_eq_joinedPath, List.map_append]
      rfl
    rw [hplace, storedPath, ← hsame, hread]
    exact Option.some_ne_none _

end Walk

/-! ## Directories in memory -/

/-- Files and directories in memory: a directory can be made, and a file
created, in a directory only. -/
def treeHost : Host where
  Disk := Commands.shellHost.Disk × (List (List Byte) → Bool)
  File := Commands.shellHost.File
  mkdir path disk :=
    if disk.2 (location path).dropLast ∧ (disk.1 (location path)).isNone then
      (disk.1, update disk.2 (location path) true)
    else disk
  fopen path disk :=
    if disk.2 (location path).dropLast ∧ disk.2 (location path) = false then
      (Commands.shellHost.fopen path disk.1).map fun result => (result.1, result.2, disk.2)
    else none
  fwrite fp bytes disk := (Commands.shellHost.fwrite fp bytes disk.1, disk.2)
  fclose fp disk := (Commands.shellHost.fclose fp disk.1, disk.2)
  system command disk := (Commands.shellHost.system command disk.1, disk.2)

def treeView : DiskView treeHost where
  read disk := disk.1
  place := shellView.place
  bunzip2 := unpack

def isDirectory (disk : treeHost.Disk) (place : List (List Byte)) : Prop := disk.2 place = true

/-- A disk with nothing but its root directory. -/
def emptyTree : treeHost.Disk := (emptyDisk, fun place => place = [])

theorem treeHost_mkdir_read (path : List Byte) (disk : treeHost.Disk) :
    treeView.read (treeHost.mkdir path disk) = treeView.read disk := by
  by_cases hguard : disk.2 (location path).dropLast = true ∧
      (disk.1 (location path)).isNone = true
  · have hmade : treeHost.mkdir path disk = (disk.1, update disk.2 (location path) true) :=
      if_pos hguard
    rw [hmade]
    rfl
  · have hleft : treeHost.mkdir path disk = disk := if_neg hguard
    rw [hleft]

theorem treeHost_fopen_eq_some {path : List Byte} {disk opened : treeHost.Disk}
    {fp : treeHost.File} (hopen : treeHost.fopen path disk = some (fp, opened)) :
    Commands.shellHost.fopen path disk.1 = some (fp, opened.1) ∧ opened.2 = disk.2 := by
  simp only [treeHost] at hopen
  split at hopen
  · obtain ⟨result, hresult, heq⟩ := Option.map_eq_some_iff.mp hopen
    cases heq
    exact ⟨hresult, rfl⟩
  · cases hopen

theorem treeHost_lawful : Lawful treeHost treeView where
  mkdir := treeHost_mkdir_read
  fopen hopen := shellHost_lawful.fopen (treeHost_fopen_eq_some hopen).1
  fwrite bytes hempty := shellHost_lawful.fwrite bytes hempty
  fclose fp disk := shellHost_lawful.fclose fp disk.1
  bzip2 hquotable hread := shellHost_lawful.bzip2 hquotable hread

theorem treeHost_tree : Tree treeHost treeView isDirectory where
  mkdir := by
    intro path disk hparent hnone place
    have hguard : disk.2 (location path).dropLast = true ∧
        (disk.1 (location path)).isNone = true := ⟨hparent, Option.isNone_iff_eq_none.mpr hnone⟩
    have hmade : treeHost.mkdir path disk = (disk.1, update disk.2 (location path) true) :=
      if_pos hguard
    rw [isDirectory, isDirectory, hmade]
    by_cases hplace : place = location path
    · simp [hplace]
    · simp [hplace]
  fopen := by
    intro path disk hslash hparent hfree
    have hguard : disk.2 (location path).dropLast = true ∧ disk.2 (location path) = false :=
      ⟨hparent, Bool.eq_false_of_not_eq_true hfree⟩
    simp only [treeHost, if_pos hguard, Commands.shellHost, memoryHost, if_neg hslash]
    exact ⟨_, rfl⟩
  opened hopen := funext fun place => by
    rw [isDirectory, isDirectory, (treeHost_fopen_eq_some hopen).2]
  fwrite _ _ _ := rfl
  fclose _ _ := rfl
  bzip2 _ := rfl

theorem emptyTree_fresh : Fresh treeView isDirectory emptyTree where
  here := rfl
  noDirectory place hplace := by simp [isDirectory, emptyTree] at hplace
  noFile _ := rfl

end Tcb.Hierarchy
