import Tcb.Fs2Xml.Paths
import Tcb.Fs2Xml.TableShape

/-!
# Writing the files to disk

`WalkDir` makes a directory for every directory inode, writes the data of
every regular file below it, hands some of the files to `bzip2`, and records
in the inode where the file went.  The operating system is a parameter.  The
state carries a log of what was visited, opened and executed, which the program
itself does not keep.
-/

namespace Tcb.WalkDir

open Tcb.CString
open Tcb.Inodes
open Tcb.MergeFile
open Tcb.Paths
open Tcb.TableShape
open Tcb.Preorder

/-- The calls into the operating system.  The results of `mkdir`, `fwrite`,
`fclose` and `system` are ignored by the program. -/
structure Host where
  Disk : Type
  File : Type
  mkdir : List Byte → Disk → Disk
  fopen : List Byte → Disk → Option (File × Disk)
  fwrite : File → List Byte → Disk → Disk
  fclose : File → Disk → Disk
  system : List Byte → Disk → Disk

/-- What the walk does, in the order in which it does it. -/
inductive Event
  | visit (id : ℕ)
  | opened (id : ℕ) (path : List Byte)
  | command (id : ℕ) (text : List Byte)
  deriving DecidableEq

structure WalkState (host : Host) where
  inodes : Table
  disk : host.Disk
  log : List Event

/-- The file that an event is about. -/
def Event.file : Event → Option ℕ
  | visit _ => none
  | opened id _ => some id
  | command id _ => some id

/-- The inode whose turn it was, if the event is about that. -/
def Event.turn : Event → Option ℕ
  | visit id => some id
  | opened _ _ => none
  | command _ _ => none

/-- The inodes whose turn it was. -/
def WalkState.visited {host : Host} (state : WalkState host) : List ℕ :=
  state.log.filterMap Event.turn

/-- What happened to a file so far. -/
def WalkState.fileEvents {host : Host} (state : WalkState host) (id : ℕ) : List Event :=
  state.log.filter (·.file = some id)

/-! ## Choosing the files to compress and to load -/

def shouldBeLoaded (name : List Byte) : Bool :=
  name = ascii ['l', 'i', 'b', 'c', '.', 's', 'o'] ||
  name = ascii ['l', 'i', 'b', 'n', 'c', 'u', 'r', 's', 'e', 's', '.', 's', 'o',
    '.', '5', '.', '9'] ||
  name = ascii ['l', 'i', 'b', 'm', 'e', 'n', 'u', '.', 's', 'o', '.', '5', '.', '9'] ||
  name = ascii ['l', 'i', 'b', 'g', 'c', 'c', '_', 's', '.', 's', 'o', '.', '1']

/-- `EndsWith`. -/
def endsWith (text suffix : List Byte) : Bool := suffix.isSuffixOf text

/-- The suffixes of names that are never compressed; `".png"` is tested
twice. -/
def packedSuffixes : List (List Byte) :=
  [ascii ['.', 'j', 'p', 'g'], ascii ['.', 'p', 'n', 'g'], ascii ['.', 'g', 'z'],
    ascii ['.', 'b', 'z', '2'], ascii ['.', 'z', 'i', 'p'], ascii ['.', 'p', 'n', 'g'],
    ascii ['.', '3', 'g', 'p'], ascii ['.', 'm', 'p', 'g']]

/-- The first four bytes of an ELF file. -/
def elfMagic : List Byte := 0x7F :: ascii ['E', 'L', 'F']

/-- `ShouldBeCompressed`: files of more than 10 KiB and ELF files. -/
def shouldBeCompressed (name : List Byte) (data : Option (List Byte)) (size : ℤ) :
    Run ExitReason Bool :=
  if size < 4 then .ok false
  else if packedSuffixes.any (endsWith name) then .ok false
  else if size > 10 * 1024 then .ok true
  else
    match data with
    | none => Run.fault .nullPointer
    | some bytes => startsWith elfMagic bytes

/-! ## The walk -/

/-- `"fs"`. -/
def fsRoot : List Byte := ascii ['f', 's']

/-- The suffix that `bzip2` appends. -/
def bz2Suffix : List Byte := ascii ['.', 'b', 'z', '2']

/-- `bzip2 -f "path"` and a newline. -/
def bzip2Command (path : List Byte) : List Byte :=
  ascii ['b', 'z', 'i', 'p', '2', ' ', '-', 'f', ' ', '"'] ++ path ++ ascii ['"', '\n']

/-- `fwrite` of the data of an inode, which is skipped for an empty file. -/
def writeData (host : Host) (fp : host.File) (node : Inode) (disk : host.Disk) :
    Run ExitReason host.Disk :=
  if node.size = 0 then .ok disk
  else
    match node.data with
    | none => Run.fault .nullPointer
    | some bytes => do
        Run.require (0 ≤ node.size ∧ node.size.toNat ≤ bytes.length)
        return host.fwrite fp (bytes.take node.size.toNat) disk

/-- The record of the place of a file: `strcpy(inodes[i].src, &path[3])` for a
hidden one. -/
def srcOf (path : List Byte) (hidden : Bool) (src : CArray 128) :
    Run ExitReason (CArray 128) :=
  if hidden then CArray.strcpy (path.drop 3) else .ok src

variable {host : Host}

/-- The branch of `WalkDir` for a regular file. -/
def writeFile (i : ℕ) (state : WalkState host) : Run ExitReason (WalkState host) := do
  let node ← entry state.inodes i
  let (path, hidden) ← getFullPathNotHidden state.inodes fsRoot i
  let src ← srcOf path hidden node.src
  match host.fopen path state.disk with
  | none => Run.exit .cannotCreateFile
  | some (fp, disk) => do
      let disk ← writeData host fp node disk
      let disk := host.fclose fp disk
      let compress ← shouldBeCompressed (nameOf node) node.data node.size
      Run.require (compress = true → (bzip2Command path).length < 1024)
      return {
        inodes := state.inodes.set i { node with
          src := src
          compressed := compress || node.compressed
          load := shouldBeLoaded (nameOf node) || node.load }
        disk := if compress then host.system (bzip2Command path) disk else disk
        log := state.log ++ .opened i path ::
          if compress then [.command i (bzip2Command path)] else [] }

/-- `mkdir` of the directory with the given inode, at the start of a call. -/
def makeDir (parentid : ℤ) (state : WalkState host) :
    Run ExitReason (WalkState host) := do
  let (path, _) ← getFullPathNotHidden state.inodes fsRoot parentid
  return { state with disk := host.mkdir path state.disk }

def WalkState.visit (state : WalkState host) (i : ℕ) : WalkState host :=
  { state with log := state.log ++ [.visit i] }

/-- The branch of `WalkDir` for a directory; `walk` is the recursive call. -/
def enterDir (walk : ℤ → WalkState host → Run ExitReason (WalkState host))
    (node : Inode) (i : ℕ) (state : WalkState host) :
    Run ExitReason (WalkState host) :=
  if node.isDir then walk i state else .ok state

/-- The body of the loop of `WalkDir`. -/
def walkDirEntry (walk : ℤ → WalkState host → Run ExitReason (WalkState host))
    (parentid : ℤ) (state : WalkState host) (i : ℕ) :
    Run ExitReason (WalkState host) := do
  let node ← entry state.inodes i
  if node.parentid ≠ parentid then return state
  else do
    let state ← enterDir walk node i (state.visit i)
    if node.isReg then writeFile i state else return state

/-- `WalkDir(parentid)`. -/
def walkDir : ℕ → ℤ → WalkState host → Run ExitReason (WalkState host)
  | 0, _, _ => Run.outOfFuel
  | fuel + 1, parentid, state => do
      let state ← makeDir parentid state
      (List.range state.inodes.length).foldlM
        (walkDirEntry (walkDir fuel) parentid) state

/-! ## What one file does -/

theorem srcOf_eq_ok {path : List Byte} {hidden : Bool} {src written : CArray 128} :
    srcOf path hidden src = .ok written ↔
      written.bytes = if hidden then path.drop 3 else src.bytes := by
  cases hidden with
  | true => simp [srcOf, CArray.strcpy_eq_ok]
  | false =>
      simp only [srcOf, Bool.false_eq_true, if_false, Except.ok.injEq]
      constructor
      · rintro rfl
        rfl
      · exact fun hbytes => CArray.ext hbytes.symm

/-- A file that was written, with everything the branch of `WalkDir` computed
on the way. -/
structure Written (i : ℕ) (state next : WalkState host) (node : Inode)
    (path : List Byte) (hidden compress : Bool) (src : CArray 128) : Prop where
  hentry : state.inodes[i]? = some node
  hpath : getFullPathNotHidden state.inodes fsRoot i = .ok (path, hidden)
  hsrc : src.bytes = if hidden then path.drop 3 else node.src.bytes
  hcompress : shouldBeCompressed (nameOf node) node.data node.size = .ok compress
  hstored : ∃ fp opened disk, host.fopen path state.disk = some (fp, opened) ∧
    writeData host fp node opened = .ok disk ∧
    next.disk = if compress then host.system (bzip2Command path) (host.fclose fp disk)
      else host.fclose fp disk
  hinodes : next.inodes = state.inodes.set i { node with
    src := src
    compressed := compress || node.compressed
    load := shouldBeLoaded (nameOf node) || node.load }
  hlog : next.log = state.log ++ .opened i path ::
    if compress then [.command i (bzip2Command path)] else []

theorem writeFile_written {i : ℕ} {state next : WalkState host}
    (hrun : writeFile i state = .ok next) :
    ∃ node path hidden compress src,
      Written i state next node path hidden compress src := by
  rw [writeFile, Run.bind_eq_ok] at hrun
  obtain ⟨node, hnode, hrun⟩ := hrun
  rw [Run.bind_eq_ok] at hrun
  obtain ⟨⟨path, hidden⟩, hpath, hrun⟩ := hrun
  simp only [Run.bind_eq_ok] at hrun
  obtain ⟨src, hsrc, hrun⟩ := hrun
  split at hrun
  · simp at hrun
  · rename_i fp opened hopen
    simp only [Run.bind_eq_ok, Run.pure_eq_ok, Except.ok.injEq] at hrun
    obtain ⟨disk, hdisk, compress, hcompress, -, -, rfl⟩ := hrun
    exact ⟨node, path, hidden, compress, src, entry_eq_ok.mp hnode, hpath,
      srcOf_eq_ok.mp hsrc, hcompress, ⟨fp, opened, disk, hopen, hdisk, rfl⟩, rfl, rfl⟩

theorem Written.sameTree {i : ℕ} {state next : WalkState host} {node : Inode}
    {path : List Byte} {hidden compress : Bool} {src : CArray 128}
    (hwritten : Written i state next node path hidden compress src) :
    SameTree state.inodes next.inodes := by
  rw [hwritten.hinodes]
  exact SameTree.set hwritten.hentry rfl

theorem makeDir_eq_ok {parentid : ℤ} {state next : WalkState host} :
    makeDir parentid state = .ok next ↔ ∃ path hidden,
      getFullPathNotHidden state.inodes fsRoot parentid = .ok (path, hidden) ∧
        next = { state with disk := host.mkdir path state.disk } := by
  simp only [makeDir, Run.bind_eq_ok, Prod.exists, Run.pure_eq_ok, Except.ok.injEq]
  simp only [eq_comm (b := next)]

theorem makeDir_sameTree {parentid : ℤ} {state next : WalkState host}
    (hrun : makeDir parentid state = .ok next) :
    SameTree state.inodes next.inodes := by
  obtain ⟨path, hidden, -, rfl⟩ := makeDir_eq_ok.mp hrun
  exact .refl _

/-! ## The walk in one loop -/

theorem not_isReg_of_isDir {node : Inode} (hdir : node.isDir = true) :
    node.isReg = false := by
  simp only [Inode.isDir, Inode.isReg, decide_eq_true_eq, decide_eq_false_iff_not] at *
  rw [hdir]
  decide

/-- What the walk does at an inode whose turn it is, apart from the inodes
below it. -/
def visitInode (state : WalkState host) (i : ℕ) : Run ExitReason (WalkState host) := do
  let node ← entry state.inodes i
  if node.isDir then makeDir i (state.visit i)
  else if node.isReg then writeFile i (state.visit i)
  else return state.visit i

/-- The three kinds of inodes, and what is done at each. -/
theorem visitInode_eq_ok {state next : WalkState host} {i : ℕ} :
    visitInode state i = .ok next ↔ ∃ node, state.inodes[i]? = some node ∧
      (node.isDir = true ∧ makeDir i (state.visit i) = .ok next ∨
        node.isReg = true ∧ writeFile i (state.visit i) = .ok next ∨
        node.isDir = false ∧ node.isReg = false ∧ next = state.visit i) := by
  rw [visitInode, Run.bind_eq_ok]
  apply exists_congr
  intro node
  rw [entry_eq_ok]
  apply and_congr_right
  intro _
  by_cases hdir : node.isDir = true
  · simp [hdir, not_isReg_of_isDir hdir]
  · rw [Bool.not_eq_true] at hdir
    by_cases hreg : node.isReg = true
    · simp [hdir, hreg]
    · rw [Bool.not_eq_true] at hreg
      simp [hdir, hreg, eq_comm]

theorem visitInode_sameTree {state next : WalkState host} {i : ℕ}
    (hrun : visitInode state i = .ok next) : SameTree state.inodes next.inodes := by
  obtain ⟨node, -, ⟨-, hdir⟩ | ⟨-, hreg⟩ | ⟨-, -, rfl⟩⟩ := visitInode_eq_ok.mp hrun
  · exact (makeDir_sameTree hdir :)
  · obtain ⟨_, _, _, _, _, hwritten⟩ := writeFile_written hreg
    exact hwritten.sameTree
  · exact .refl _

theorem foldlM_visitInode_sameTree {state next : WalkState host} {items : List ℕ}
    (hrun : items.foldlM visitInode state = .ok next) :
    SameTree state.inodes next.inodes :=
  Run.foldlM_invariant (fun reached => SameTree state.inodes reached.inodes) hrun
    (.refl _) fun _ _ _ _ hstate hstep => hstate.trans (visitInode_sameTree hstep)

/-- A walk that returns has made the directory it started with and then
visited the inodes below it in preorder. -/
theorem walkDir_eq_ok {inodes : Table} {fuel : ℕ} {parentid : ℤ}
    {state next : WalkState host} (hsame : SameTree inodes state.inodes)
    (hrun : walkDir fuel parentid state = .ok next) :
    ∃ made, makeDir parentid state = .ok made ∧
      (visits inodes fuel parentid).foldlM visitInode made = .ok next := by
  induction fuel generalizing parentid state next with
  | zero => simp [walkDir] at hrun
  | succ fuel ih =>
      rw [walkDir, Run.bind_eq_ok] at hrun
      obtain ⟨made, hmade, hloop⟩ := hrun
      refine ⟨made, hmade, ?_⟩
      have hmadeSame := hsame.trans (makeDir_sameTree hmade)
      rw [visits, preorder, Run.foldlM_flatMap, children, List.foldlM_filter,
        hmadeSame.length_eq]
      apply Run.foldlM_simulates (fun reached => SameTree inodes reached.inodes) hloop
        hmadeSame
      intro reached i after _ hreached hstep
      rw [walkDirEntry, Run.bind_eq_ok] at hstep
      obtain ⟨node, hnode, hstep⟩ := hstep
      rw [entry_eq_ok] at hnode
      obtain ⟨original, horiginal, hfixed⟩ := hreached.symm.getElem? hnode
      have hparent : original.parentid = node.parentid := (congrArg Inode.parentid hfixed :)
      have hisDir : original.isDir = node.isDir := (congrArg Inode.isDir hfixed :)
      rw [horiginal, Option.any_some, hparent]
      by_cases hchild : node.parentid = parentid
      · rw [if_neg (by simpa using hchild)] at hstep
        simp only [hchild, decide_true, if_true, opensAt, horiginal, Option.any_some, hisDir]
        -- the loop body is `visitInode` followed by the walk below a directory
        by_cases hdir : node.isDir = true
        · simp only [enterDir, hdir, if_true, not_isReg_of_isDir hdir,
            Bool.false_eq_true, if_false, bind_pure] at hstep ⊢
          obtain ⟨below, hbelow, hrest⟩ := @ih i (reached.visit i) after hreached hstep
          have hvisit : visitInode reached i = .ok below :=
            visitInode_eq_ok.mpr ⟨node, hnode, .inl ⟨hdir, hbelow⟩⟩
          refine ⟨?_, by rw [List.foldlM_cons, hvisit, Run.ok_bind, hrest]⟩
          exact (hreached.trans (visitInode_sameTree hvisit)).trans
            (foldlM_visitInode_sameTree hrest)
        · have hvisit : visitInode reached i = .ok after := by
            simpa [visitInode, enterDir, entry_eq_ok.mpr hnode, hdir] using hstep
          refine ⟨hreached.trans (visitInode_sameTree hvisit), ?_⟩
          simp [hdir, hvisit]
      · rw [if_pos (by simpa using hchild), Run.pure_eq_ok, Except.ok.injEq] at hstep
        subst hstep
        exact ⟨hreached, by simp [hchild]⟩

theorem walkDir_sameTree {fuel : ℕ} {parentid : ℤ} {state next : WalkState host}
    (hrun : walkDir fuel parentid state = .ok next) :
    SameTree state.inodes next.inodes := by
  obtain ⟨made, hmade, hloop⟩ := walkDir_eq_ok (.refl _) hrun
  exact (makeDir_sameTree hmade).trans (foldlM_visitInode_sameTree hloop)

theorem enterDir_sameTree {fuel i : ℕ} {node : Inode} {state next : WalkState host}
    (hrun : enterDir (walkDir fuel) node i state = .ok next) :
    SameTree state.inodes next.inodes := by
  rw [enterDir] at hrun
  split at hrun
  · exact walkDir_sameTree hrun
  · rw [Except.ok.injEq] at hrun
    exact hrun ▸ .refl _

theorem walkDirEntry_sameTree {fuel i : ℕ} {parentid : ℤ} {state next : WalkState host}
    (hrun : walkDirEntry (walkDir fuel) parentid state i = .ok next) :
    SameTree state.inodes next.inodes := by
  rw [walkDirEntry, Run.bind_eq_ok] at hrun
  obtain ⟨node, -, hrun⟩ := hrun
  split at hrun
  · rw [Run.pure_eq_ok, Except.ok.injEq] at hrun
    exact hrun ▸ .refl _
  · rw [Run.bind_eq_ok] at hrun
    obtain ⟨below, hbelow, hwrite⟩ := hrun
    have hbelowSame : SameTree state.inodes below.inodes := (enterDir_sameTree hbelow :)
    split at hwrite
    · obtain ⟨_, _, _, _, _, hwritten⟩ := writeFile_written hwrite
      exact hbelowSame.trans hwritten.sameTree
    · rw [Run.pure_eq_ok, Except.ok.injEq] at hwrite
      exact hwrite ▸ hbelowSame

theorem visitInode_visited {state next : WalkState host} {i : ℕ}
    (hrun : visitInode state i = .ok next) : next.visited = state.visited ++ [i] := by
  obtain ⟨node, -, ⟨-, hdir⟩ | ⟨-, hreg⟩ | ⟨-, -, rfl⟩⟩ := visitInode_eq_ok.mp hrun
  · obtain ⟨path, hidden, -, rfl⟩ := makeDir_eq_ok.mp hdir
    simp [WalkState.visit, WalkState.visited, Event.turn]
  · obtain ⟨_, _, _, compress, _, hwritten⟩ := writeFile_written hreg
    rw [WalkState.visited, hwritten.hlog]
    cases compress <;> simp [WalkState.visit, WalkState.visited, Event.turn]
  · simp [WalkState.visit, WalkState.visited, Event.turn]

theorem walkDir_visited {fuel : ℕ} {parentid : ℤ} {state next : WalkState host}
    (hrun : walkDir fuel parentid state = .ok next) :
    next.visited = state.visited ++ visits state.inodes fuel parentid := by
  obtain ⟨made, hmade, hloop⟩ := walkDir_eq_ok (.refl _) hrun
  have hlog := Run.foldlM_log WalkState.visited hloop
    fun state i next _ => visitInode_visited
  obtain ⟨path, hidden, -, rfl⟩ := makeDir_eq_ok.mp hmade
  rwa [List.flatMap_singleton'] at hlog

/-- `CreateFilesystem`: the walk from the root, with calls for every inode. -/
def createFilesystem (host : Host) (inodes : Table) (disk : host.Disk) :
    Run ExitReason (WalkState host) :=
  walkDir (inodes.length + 1) (-1) { inodes := inodes, disk := disk, log := [] }

/-! ## Every walk ends -/

theorem ends_shouldBeCompressed (name : List Byte) (data : Option (List Byte)) (size : ℤ) :
    Run.Ends (shouldBeCompressed name data size) := by
  unfold shouldBeCompressed
  split
  · simp
  split
  · simp
  split
  · simp
  cases data with
  | none => simp
  | some bytes => exact ends_startsWith _ _

theorem ends_srcOf (path : List Byte) (hidden : Bool) (src : CArray 128) :
    Run.Ends (srcOf path hidden src) := by
  unfold srcOf CArray.strcpy
  split
  · split <;> simp
  · simp

theorem ends_writeData (fp : host.File) (node : Inode) (disk : host.Disk) :
    Run.Ends (writeData host fp node disk) := by
  rw [writeData]
  split
  · simp
  · split
    · simp
    · exact Run.ends_bind (by simp) (by simp)

theorem ends_writeFile {state : WalkState host} (hshape : Shape state.inodes) (i : ℕ) :
    Run.Ends (writeFile i state) := by
  apply Run.ends_bind (ends_entry _ _)
  intro node hnode
  have hlt := (List.getElem?_eq_some_iff.mp (entry_eq_ok.mp hnode)).1
  refine Run.ends_bind (ends_getFullPathNotHidden hshape _ (by omega) (by omega)) ?_
  rintro ⟨path, hidden⟩ -
  apply Run.ends_bind (ends_srcOf _ _ _)
  intro src _
  cases hopen : host.fopen path state.disk with
  | none => simp
  | some result =>
      apply Run.ends_bind (ends_writeData _ _ _)
      intro disk _
      apply Run.ends_bind (ends_shouldBeCompressed _ _ _)
      intro compress _
      exact Run.ends_bind (by simp) (by simp)

theorem ends_makeDir {state : WalkState host} (hshape : Shape state.inodes) {parentid : ℤ}
    (hroot : -1 ≤ parentid) (hlt : parentid < state.inodes.length) :
    Run.Ends (makeDir parentid state) :=
  Run.ends_bind (ends_getFullPathNotHidden hshape _ hroot hlt) (by simp)

/-- Below an inode there is room for at most as many calls in a row as there
are inodes behind it. -/
theorem ends_walkDir {fuel : ℕ} {parentid : ℤ} {state : WalkState host}
    (hshape : Shape state.inodes) (hroot : -1 ≤ parentid)
    (hlt : parentid < state.inodes.length)
    (hfuel : (state.inodes.length : ℤ) ≤ fuel + parentid) :
    Run.Ends (walkDir fuel parentid state) := by
  induction fuel generalizing parentid state with
  | zero =>
      push_cast at hfuel
      omega
  | succ fuel ih =>
      rw [walkDir]
      apply Run.ends_bind (ends_makeDir hshape hroot hlt)
      intro made hmade
      have hmadeSame := makeDir_sameTree hmade
      refine Run.ends_foldlM (fun reached => SameTree state.inodes reached.inodes)
        hmadeSame ?_ fun reached i after _ hreached hstep =>
          hreached.trans (walkDirEntry_sameTree hstep)
      intro reached i hi hreached
      have hreachedShape := hreached.shape hshape
      rw [walkDirEntry]
      apply Run.ends_bind (ends_entry _ _)
      intro node hnode
      by_cases hchild : node.parentid = parentid
      · rw [if_neg (by simpa using hchild)]
        have hlength := hreached.length_eq
        have hparent := hreachedShape.parent_lt i node (entry_eq_ok.mp hnode)
        rw [List.mem_range, ← hmadeSame.length_eq] at hi
        have hwalk : Run.Ends (walkDir fuel i (reached.visit i)) := by
          refine @ih i (reached.visit i) hreachedShape (by omega) ?_ ?_ <;>
            simp only [WalkState.visit] <;> omega
        have henter : Run.Ends (enterDir (walkDir fuel) node i (reached.visit i)) := by
          rw [enterDir]
          split
          · exact hwalk
          · simp
        apply Run.ends_bind henter
        intro below hbelow
        have hbelowSame : SameTree reached.inodes below.inodes := (enterDir_sameTree hbelow :)
        split
        · exact ends_writeFile (hbelowSame.shape hreachedShape) i
        · simp
      · rw [if_pos (by simpa using hchild)]
        simp

end Tcb.WalkDir
