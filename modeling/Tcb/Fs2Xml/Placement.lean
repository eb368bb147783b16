import Tcb.Fs2Xml.WalkDir
import Tcb.Fs2Xml.TarHeader

/-!
# Where the files went

`WalkDir` touches each regular file once.  What it records in the inode and
what it does to the disk for that file are read off the state after the walk:
the file is found under the path without dots and underscores, and `src` holds
that path exactly when it differs from the path of the inode.
-/

namespace Tcb.Placement

open Tcb.CString
open Tcb.Inodes
open Tcb.Split
open Tcb.MergeFile
open Tcb.TableShape
open Tcb.Paths
open Tcb.WalkDir

variable {host : Host}

/-! ## Paths of equal trees -/

theorem getFullPathNotHidden_sameTree {left right : Table} (hshape : Shape left)
    (hsame : SameTree left right) (root : List Byte) {id : ℤ} {names : List (List Byte)}
    (hpath : PathTo left id names) :
    getFullPathNotHidden right root id = getFullPathNotHidden left root id := by
  rw [getFullPathNotHidden_eq hshape hpath,
    getFullPathNotHidden_eq (hsame.shape hshape) (hsame.pathTo hpath)]

/-! ## One file -/

/-- The visit of an inode leaves the other inodes and their files alone. -/
theorem visitInode_frame {state next : WalkState host} {i : ℕ}
    (hrun : visitInode state i = .ok next) {j : ℕ} (hne : i ≠ j) :
    next.inodes[j]? = state.inodes[j]? ∧ next.fileEvents j = state.fileEvents j := by
  obtain ⟨node, -, ⟨-, hdir⟩ | ⟨-, hreg⟩ | ⟨-, -, rfl⟩⟩ := visitInode_eq_ok.mp hrun
  · obtain ⟨path, hidden, -, rfl⟩ := makeDir_eq_ok.mp hdir
    simp [WalkState.visit, WalkState.fileEvents, Event.file]
  · obtain ⟨_, _, _, compress, _, hwritten⟩ := writeFile_written hreg
    rw [WalkState.fileEvents, WalkState.fileEvents, hwritten.hinodes, hwritten.hlog]
    cases compress <;> simp [WalkState.visit, Event.file, hne]
  · simp [WalkState.visit, WalkState.fileEvents, Event.file]

theorem foldlM_visitInode_frame {items : List ℕ} {state next : WalkState host}
    (hrun : items.foldlM visitInode state = .ok next) {j : ℕ} (hnot : j ∉ items) :
    next.inodes[j]? = state.inodes[j]? ∧ next.fileEvents j = state.fileEvents j := by
  refine Run.foldlM_invariant (fun reached => reached.inodes[j]? = state.inodes[j]? ∧
    reached.fileEvents j = state.fileEvents j) hrun ⟨rfl, rfl⟩ ?_
  intro reached i after hi hreached hstep
  have hne : i ≠ j := by
    rintro rfl
    exact hnot hi
  obtain ⟨hinodes, hevents⟩ := visitInode_frame hstep hne
  exact ⟨hinodes.trans hreached.1, hevents.trans hreached.2⟩

/-- A regular file after its turn: the fields that were set, and all that
happened to it. -/
structure Placed (inodes : Table) (state : WalkState host) (i : ℕ) (node : Inode)
    (path : List Byte) (hidden compress : Bool) : Prop where
  hpath : getFullPathNotHidden inodes fsRoot i = .ok (path, hidden)
  hcompress : shouldBeCompressed (nameOf node) node.data node.size = .ok compress
  hnow : ∃ now, state.inodes[i]? = some now ∧
    now.src.bytes = (if hidden then path.drop 3 else node.src.bytes) ∧
    now.compressed = (compress || node.compressed)
  hevents : state.fileEvents i = .opened i path ::
    if compress then [.command i (bzip2Command path)] else []
  hopened : ∃ disk, host.fopen path disk ≠ none

/-- The walk from the root taken apart at one regular file: the state when its
turn comes, in which its inode is still as it was, and the state after it. -/
theorem createFilesystem_split {inodes : Table} {disk : host.Disk} {final : WalkState host}
    (hshape : Shape inodes) (hrun : createFilesystem host inodes disk = .ok final)
    {i : ℕ} {node : Inode} (hnode : inodes[i]? = some node) (hreg : node.isReg = true)
    (hvisited : Preorder.Visited Inode.parentid Inode.isDir inodes i) :
    ∃ before after start middle next, visits inodes (inodes.length + 1) (-1) =
        before ++ i :: after ∧ i ∉ before ∧ i ∉ after ∧
      before.foldlM visitInode start = .ok middle ∧
      writeFile i (middle.visit i) = .ok next ∧
      after.foldlM visitInode next = .ok final ∧
      makeDir (-1) { inodes := inodes, disk := disk, log := [] } = .ok start ∧
      SameTree inodes middle.inodes ∧ middle.inodes[i]? = some node ∧
      middle.fileEvents i = [] := by
  obtain ⟨start, hstart, hloop⟩ := walkDir_eq_ok (.refl _) hrun
  have hmem := ((parentsFirst hshape).mem_preorder_root_iff
    (Nat.le_succ inodes.length)).mpr hvisited
  have hnodup : (visits inodes (inodes.length + 1) (-1)).Nodup :=
    (parentsFirst hshape).nodup_preorder _ _
  obtain ⟨before, after, hsplit⟩ := List.append_of_mem hmem
  rw [visits, hsplit, List.nodup_append, List.nodup_cons] at hnodup
  obtain ⟨-, ⟨hafter, -⟩, hdisjoint⟩ := hnodup
  have hbefore : i ∉ before := fun hi => hdisjoint i hi i (by simp) rfl
  rw [visits, hsplit, List.foldlM_append, Run.bind_eq_ok] at hloop
  obtain ⟨middle, hfront, hrest⟩ := hloop
  rw [List.foldlM_cons, Run.bind_eq_ok] at hrest
  obtain ⟨next, hvisit, hback⟩ := hrest
  have hsame := (makeDir_sameTree hstart).trans (foldlM_visitInode_sameTree hfront)
  obtain ⟨path, hidden, -, hmade⟩ := makeDir_eq_ok.mp hstart
  obtain ⟨hinodes, hevents⟩ := foldlM_visitInode_frame hfront hbefore
  rw [hmade] at hinodes hevents
  have hmiddle : middle.inodes[i]? = some node := hinodes.trans hnode
  have hwrite : writeFile i (middle.visit i) = .ok next := by
    obtain ⟨other, hother, ⟨hdir, -⟩ | ⟨-, hwrite⟩ | ⟨-, hnot, -⟩⟩ :=
      visitInode_eq_ok.mp hvisit
    · rw [hmiddle, Option.some.injEq] at hother
      rw [not_isReg_of_isDir (hother ▸ hdir)] at hreg
      exact absurd hreg Bool.false_ne_true
    · exact hwrite
    · rw [hmiddle, Option.some.injEq] at hother
      rw [hother, hnot] at hreg
      exact absurd hreg Bool.false_ne_true
  exact ⟨before, after, start, middle, next, hsplit, hbefore, hafter, hfront, hwrite, hback,
    hstart, hsame, hmiddle, hevents⟩

/-- Every regular file that the walk reaches has been placed. -/
theorem createFilesystem_placed {inodes : Table} {disk : host.Disk}
    {final : WalkState host} (hshape : Shape inodes)
    (hrun : createFilesystem host inodes disk = .ok final) {i : ℕ} {node : Inode}
    (hnode : inodes[i]? = some node) (hreg : node.isReg = true)
    (hvisited : Preorder.Visited Inode.parentid Inode.isDir inodes i) :
    ∃ path hidden compress, Placed inodes final i node path hidden compress := by
  obtain ⟨before, after, start, middle, next, -, -, hafter, -, hwrite, hback, -, hsame,
    hmiddle, hevents⟩ := createFilesystem_split hshape hrun hnode hreg hvisited
  obtain ⟨other, path, hidden, compress, src, hwritten⟩ := writeFile_written hwrite
  have hother : node = other := Option.some.inj (hmiddle.symm.trans hwritten.hentry)
  subst hother
  obtain ⟨names, hnames⟩ := ParentTable.Shape.pathTo_exists hshape
    (List.getElem?_eq_some_iff.mp hnode).1
  obtain ⟨hinodes, hlater⟩ := foldlM_visitInode_frame hback hafter
  refine ⟨path, hidden, compress, ?_, hwritten.hcompress, ?_, ?_, ?_⟩
  · rw [← getFullPathNotHidden_sameTree hshape hsame fsRoot hnames]
    exact hwritten.hpath
  · refine ⟨{ node with
      src := src
      compressed := compress || node.compressed
      load := shouldBeLoaded (nameOf node) || node.load }, ?_, hwritten.hsrc, rfl⟩
    have hlt := (List.getElem?_eq_some_iff.mp hmiddle).1
    rw [hinodes, hwritten.hinodes]
    simp [WalkState.visit, hlt]
  · have hnow : next.fileEvents i = middle.fileEvents i ++ .opened i path ::
        if compress then [.command i (bzip2Command path)] else [] := by
      rw [WalkState.fileEvents, hwritten.hlog]
      cases compress <;> simp [WalkState.visit, WalkState.fileEvents, Event.file]
    rw [hlater, hnow, hevents, List.nil_append]
  · obtain ⟨fp, opened, disk', hopen, -⟩ := hwritten.hstored
    exact ⟨middle.disk, fun hnone => Option.some_ne_none _ (hopen.symm.trans hnone)⟩

/-! ## How long a path can get -/

/-- The components of a name are no longer together than the name. -/
theorem joinedPath_nameParts_le (text : List Byte) :
    (joinedPath (nameParts text)).length ≤ text.length + 1 := by
  rw [length_joinedPath_nameParts]
  omega

/-- A name that ends inside its field has at most 99 bytes. -/
theorem joinedPath_headerPath_le {ph : HeaderPtr} (hnul : 0 ∈ ph.field .name)
    {path : List (List Byte)} (hpath : HeaderPath ph path) :
    (joinedPath path).length ≤ 100 := by
  obtain ⟨text, last, htext, -, -, -, rfl⟩ := hpath
  obtain ⟨hnot, rest, hfrom⟩ := cString_eq_ok.mp htext
  have hlength : text.length < 100 := by
    by_contra hlong
    rw [HeaderPtr.field, hfrom, Field.width,
      List.take_append_of_le_length (by omega)] at hnul
    exact hnot (List.mem_of_mem_take hnul)
  have hparts := joinedPath_nameParts_le text
  split
  · exact (joinedPath_dropLast_le _).trans (hparts.trans (by omega))
  · exact hparts.trans (by omega)

theorem joinedPath_le {headers : List HeaderPtr} {inodes : Table}
    (hnul : ∀ ph ∈ headers, 0 ∈ ph.field .name) (hrun : mergeAll headers [] = .ok inodes)
    {i : ℕ} {names : List (List Byte)} (hpath : PathTo inodes i names) :
    (joinedPath names).length ≤ 100 := by
  obtain ⟨ph, hph, hheader⟩ := headerPath_of_pathTo hrun hpath
  exact joinedPath_headerPath_le (hnul ph hph) hheader

/-- Then every path fits into its buffers, `src` among them. -/
theorem getFullPathNotHidden_fits {inodes : Table} (hshape : Shape inodes) {i : ℕ}
    {names : List (List Byte)} (hpath : PathTo inodes i names)
    (hlength : (joinedPath names).length ≤ 100) :
    getFullPathNotHidden inodes fsRoot i = .ok (fsRoot ++ shownPath names, isHidden names) ∧
      ((fsRoot ++ shownPath names).drop 3).length < 128 := by
  have hshown := shownPath_length_le names
  have hfs : fsRoot.length = 2 := rfl
  have htotal : (fsRoot ++ shownPath names).length < maxPath := by
    rw [List.length_append, maxPath]
    omega
  refine ⟨by rw [getFullPathNotHidden_eq hshape hpath, if_pos htotal], ?_⟩
  rw [List.length_drop, List.length_append]
  omega

/-! ## What the manifest says -/

/-- The place of a file that the inode records, and what happened to the file
on disk. -/
structure Located (final : WalkState host) (i : ℕ) (names : List (List Byte))
    (now : Inode) : Prop where
  src_iff : now.src.bytes ≠ [] ↔
    ∃ name ∈ names, name.head? = some 46 ∨ name.head? = some 95
  opened_iff : ∀ path, .opened i path ∈ final.log ↔
    path = fsRoot ++ 47 :: if now.src.bytes ≠ [] then now.src.bytes else [47].intercalate names
  compressed_iff : now.compressed = true ↔ ∃ text, .command i text ∈ final.log

theorem mem_fileEvents {state : WalkState host} {i : ℕ} {event : Event}
    (hfile : event.file = some i) : event ∈ state.fileEvents i ↔ event ∈ state.log := by
  simp [WalkState.fileEvents, hfile]

/-- A path below a hidden component is recorded whole: it cannot be empty,
for nothing can be opened under the name of a directory and a slash. -/
theorem Placed.located {inodes : Table} {final : WalkState host} {i : ℕ} {node : Inode}
    {path : List Byte} {hidden compress : Bool}
    (hplaced : Placed inodes final i node path hidden compress) {names : List (List Byte)}
    (hne : names ≠ [])
    (hfullPath : getFullPathNotHidden inodes fsRoot i =
      .ok (fsRoot ++ shownPath names, isHidden names))
    (hsrc : node.src.bytes = []) (hcompressed : node.compressed = false)
    (hfopen : ∀ path disk, path.getLast? = some 47 → host.fopen path disk = none)
    {now : Inode} (hnow : final.inodes[i]? = some now) : Located final i names now := by
  have hpath := hplaced.hpath
  rw [hfullPath, Except.ok.injEq, Prod.mk.injEq] at hpath
  obtain ⟨rfl, rfl⟩ := hpath
  obtain ⟨now', hnow', hnowSrc, hnowCompressed⟩ := hplaced.hnow
  have hsame : now = now' := Option.some.inj (hnow.symm.trans hnow')
  subst hsame
  rw [hsrc] at hnowSrc
  rw [hcompressed, Bool.or_false] at hnowCompressed
  obtain ⟨rest, hrest⟩ : ∃ rest, shownPath names = 47 :: rest := by
    obtain ⟨first, others, rfl⟩ := List.exists_cons_of_ne_nil hne
    exact ⟨_, rfl⟩
  have hdrop : (fsRoot ++ shownPath names).drop 3 = rest := by
    rw [hrest]
    rfl
  have hnonempty : rest ≠ [] := by
    rintro rfl
    obtain ⟨disk, hopen⟩ := hplaced.hopened
    exact hopen (hfopen _ disk (by simp [hrest]))
  rw [hdrop] at hnowSrc
  have hopened : fsRoot ++ shownPath names =
      fsRoot ++ 47 :: if now.src.bytes ≠ [] then now.src.bytes
        else [47].intercalate names := by
    cases hhidden : isHidden names with
    | true => simp [hnowSrc, hhidden, hnonempty, hrest]
    | false =>
        rw [shownPath_of_not_hidden hhidden, joinedPath_eq_cons hne]
        simp [hnowSrc, hhidden]
  constructor
  · rw [← isHidden_iff, hnowSrc]
    cases isHidden names <;> simp [hnonempty]
  · intro path
    rw [← mem_fileEvents rfl, hplaced.hevents, ← hopened]
    cases compress <;> simp
  · rw [hnowCompressed]
    constructor
    · rintro rfl
      refine ⟨bzip2Command (fsRoot ++ shownPath names),
        (mem_fileEvents (by rfl)).mp ?_⟩
      rw [hplaced.hevents]
      exact List.mem_cons_of_mem _ (List.mem_singleton_self _)
    · rintro ⟨text, hcommand⟩
      rw [← mem_fileEvents rfl, hplaced.hevents] at hcommand
      cases compress with
      | true => rfl
      | false => simp at hcommand

/-- For a table merged from headers whose names end inside their fields: the
copies into `src` fit, the walk changes nothing but `src`, `compressed` and
`load`, and every regular file it reaches is recorded where it was written. -/
theorem createFilesystem_located {headers : List HeaderPtr} {inodes : Table}
    (hnul : ∀ ph ∈ headers, 0 ∈ ph.field .name) (hrun : mergeAll headers [] = .ok inodes)
    (hfopen : ∀ path disk, path.getLast? = some 47 → host.fopen path disk = none)
    {disk : host.Disk} {final : WalkState host}
    (hwalk : createFilesystem host inodes disk = .ok final) :
    SameTree inodes final.inodes ∧
    (∀ (i : ℕ), i < inodes.length → ∃ path hidden,
      getFullPathNotHidden inodes fsRoot i = .ok (path, hidden) ∧
        (path.drop 3).length < 128) ∧
    ∀ (i : ℕ) node now names, inodes[i]? = some node → node.isReg = true →
      Preorder.Visited Inode.parentid Inode.isDir inodes i →
      final.inodes[i]? = some now → PathTo inodes i names → Located final i names now := by
  have hreach : Reachable inodes := ⟨headers, hrun⟩
  have hshape := reachable_shape hreach
  refine ⟨walkDir_sameTree hwalk, ?_, ?_⟩
  · intro i hi
    obtain ⟨names, hpath⟩ := ParentTable.Shape.pathTo_exists hshape hi
    obtain ⟨hfullPath, hfits⟩ := getFullPathNotHidden_fits hshape hpath
      (joinedPath_le hnul hrun hpath)
    exact ⟨_, _, hfullPath, hfits⟩
  · intro i node now names hnode hreg hvisited hnow hpath
    obtain ⟨path, hidden, compress, hplaced⟩ :=
      createFilesystem_placed hshape hwalk hnode hreg hvisited
    obtain ⟨hsrc, hcompressed, -⟩ := fresh_of_mem hreach node (List.mem_of_getElem? hnode)
    have hfullPath := (getFullPathNotHidden_fits hshape hpath
      (joinedPath_le hnul hrun hpath)).1
    obtain ⟨_, front, -, rfl, -⟩ := id hpath.cases_nonneg
    exact hplaced.located (by simp) hfullPath hsrc hcompressed hfopen hnow

/-! ## Files in memory -/

/-- The components of a path, after `"."`, `".."` and empty ones are gone. -/
def location (path : List Byte) : List (List Byte) :=
  (path.splitOn 47).foldl (fun above component =>
    if component = [] ∨ component = [46] then above
    else if component = [46, 46] then above.dropLast
    else above ++ [component]) []

/-- A host that keeps the files in memory, by location.  It opens anything but
a path that ends in a slash, and its `bzip2` puts two bytes in front of the
file. -/
def memoryHost : Host where
  Disk := List (List Byte) → Option (List Byte)
  File := List (List Byte)
  mkdir _ disk := disk
  fopen path disk :=
    if path.getLast? = some 47 then none
    else some (location path, Function.update disk (location path) (some []))
  fwrite place bytes disk := Function.update disk place (some bytes)
  fclose _ disk := disk
  system command disk :=
    let path := (command.drop 10).take (command.length - 12)
    match disk (location path) with
    | none => disk
    | some bytes => Function.update (Function.update disk (location path) none)
        (location (path ++ bz2Suffix)) (some (66 :: 90 :: bytes))

def emptyDisk : memoryHost.Disk := fun _ => none

/-! ### A folder -/

/-- Four bytes that make a file a program. -/
def programContent : Members.Content :=
  { TarHeader.fileContent with
    data := elfMagic
    sizeFits := by decide }

/-- The directory `d`. -/
def folder : Members.Member where
  path := [ascii ['d']]
  slash := true
  content := TarHeader.directoryContent
  nonempty := by decide
  depth := by decide
  components := by decide
  notDotted := by decide
  fits := by decide

/-- A hidden file in it, `d/.h`. -/
def hiddenFile : Members.Member where
  path := [ascii ['d'], ascii ['.', 'h']]
  slash := false
  content := TarHeader.fileContent
  nonempty := by decide
  depth := by decide
  components := by decide
  notDotted := by decide
  fits := by decide

/-- A program, `d/p$`. -/
def programFile : Members.Member where
  path := [ascii ['d'], ascii ['p', '$']]
  slash := false
  content := programContent
  nonempty := by decide
  depth := by decide
  components := by decide
  notDotted := by decide
  fits := by decide

/-- A file `d/n`. -/
def plainFile : Members.Member where
  path := [ascii ['d'], ascii ['n']]
  slash := false
  content := TarHeader.fileContent
  nonempty := by decide
  depth := by decide
  components := by decide
  notDotted := by decide
  fits := by decide

/-- A directory `d/s`. -/
def subfolder : Members.Member where
  path := [ascii ['d'], ascii ['s']]
  slash := true
  content := TarHeader.directoryContent
  nonempty := by decide
  depth := by decide
  components := by decide
  notDotted := by decide
  fits := by decide

def folderMembers : List Members.Member :=
  [folder, hiddenFile, programFile, plainFile, subfolder]

def directoryInode (parentid : ℤ) (name : CArray 128) : Inode where
  name := name
  src := ⟨[], CArray.nil_noNul, CArray.nil_fits⟩
  link := ⟨[], CArray.nil_noNul, CArray.nil_fits⟩
  mode := 0o040755
  size := 0
  uid := 0
  gid := 0
  parentid := parentid
  data := none
  compressed := false
  load := false
  mtime := 0

def fileInode (parentid : ℤ) (name : CArray 128) (data : List Byte) : Inode where
  name := name
  src := ⟨[], CArray.nil_noNul, CArray.nil_fits⟩
  link := ⟨[], CArray.nil_noNul, CArray.nil_fits⟩
  mode := 0o100644
  size := data.length
  uid := 1000
  gid := 1000
  parentid := parentid
  data := some data
  compressed := false
  load := false
  mtime := 5

def folderTable : Table :=
  [ directoryInode (-1) ⟨ascii ['d'], by decide, by decide⟩,
    fileInode 0 ⟨ascii ['.', 'h'], by decide, by decide⟩ (ascii ['h', 'i']),
    fileInode 0 ⟨ascii ['p', '$'], by decide, by decide⟩ elfMagic,
    fileInode 0 ⟨ascii ['n'], by decide, by decide⟩ (ascii ['h', 'i']),
    directoryInode 0 ⟨ascii ['s'], by decide, by decide⟩ ]

set_option maxRecDepth 8000 in
theorem mergeAll_folderTable :
    mergeAll (folderMembers.map TarHeader.memberHeader) [] = .ok folderTable := by
  rfl

set_option maxRecDepth 8000 in
theorem createFilesystem_folderTable :
    ∃ final, createFilesystem memoryHost folderTable emptyDisk = .ok final :=
  ⟨_, rfl⟩

theorem nul_mem_name_folder :
    ∀ ph ∈ folderMembers.map TarHeader.memberHeader, 0 ∈ ph.field .name := by
  decide +kernel

/-- The folder in memory. -/
theorem createFilesystem_located_folderTable :
    ∃ final, createFilesystem memoryHost folderTable emptyDisk = .ok final ∧
      SameTree folderTable final.inodes ∧
      (∀ (i : ℕ), i < folderTable.length → ∃ path hidden,
        getFullPathNotHidden folderTable fsRoot i = .ok (path, hidden) ∧
          (path.drop 3).length < 128) ∧
      ∀ (i : ℕ) node now names, folderTable[i]? = some node → node.isReg = true →
        Preorder.Visited Inode.parentid Inode.isDir folderTable i →
        final.inodes[i]? = some now → PathTo folderTable i names →
        Located final i names now := by
  obtain ⟨final, hfinal⟩ := createFilesystem_folderTable
  refine ⟨final, hfinal, createFilesystem_located nul_mem_name_folder
    mergeAll_folderTable ?_ hfinal⟩
  intro path disk hslash
  exact if_pos hslash

end Tcb.Placement
