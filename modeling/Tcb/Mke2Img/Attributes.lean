import Tcb.Mke2Img.TreeCopy

/-!
# Owners and permissions in the image

Each of the three ways to make an entry writes its attributes, or does not: a
directory keeps what `ext2fs_mkdir` gives it, a regular file loses the bits
above the nine permissions, and only the other types are copied as they are.
The owner is cut to sixteen bits and the time to thirty-two.  What was written
stays, whatever the run does later.
-/

namespace Tcb.Attributes

open Tcb.CString
open Tcb.Inodes
open Tcb.SourceTree
open Tcb.Ext2fs
open Tcb.MemoryImage
open Tcb.Logged
open Tcb.TrawlDir
open Tcb.TreeCopy

/-- What the program puts into the inode of a node. -/
def writtenAttributes {lib : Library} (view : View lib) (node : Node) : Ext2fs.Attributes :=
  if node.isDir then view.defaults
  else if node.isReg then (regularInode node.info).toAttributes
  else (specialInode node.info).toAttributes

/-- The inode has the permission bits, the owner and the time of the entry. -/
structure Kept (attributes : Ext2fs.Attributes) (info : Stat) : Prop where
  permissions : attributes.i_mode.setWidth 32 &&& 0o7777 = info.st_mode &&& 0o7777
  uid : attributes.i_uid.toNat = info.st_uid.toNat
  gid : attributes.i_gid.toNat = info.st_gid.toNat
  mtime : (attributes.i_mtime.toNat : ℤ) = info.st_mtime

/-- The owner and the time fit into the members of `struct ext2_inode`. -/
structure Fits (info : Stat) : Prop where
  uid : info.st_uid.toNat < 2 ^ 16
  gid : info.st_gid.toNat < 2 ^ 16
  mtime : 0 ≤ info.st_mtime ∧ info.st_mtime < 2 ^ 32

/-- The attributes that the program keeps: of a directory those that are the
default, of a regular file without the three bits above the permissions. -/
def Keeps {lib : Library} (view : View lib) (node : Node) : Prop :=
  if node.isDir then Kept view.defaults node.info
  else Fits node.info ∧ (node.isReg = true → node.info.st_mode &&& 0o7000 = 0)

/-! ## What is written -/

theorem toNat_setWidth_eq (value : BitVec 32) :
    (value.setWidth 16).toNat = value.toNat ↔ value.toNat < 2 ^ 16 := by
  rw [BitVec.toNat_setWidth]
  exact ⟨fun hsame => hsame ▸ Nat.mod_lt _ (by norm_num), Nat.mod_eq_of_lt⟩

theorem toNat_ofInt_eq (value : ℤ) :
    ((BitVec.ofInt 32 value).toNat : ℤ) = value ↔ 0 ≤ value ∧ value < 2 ^ 32 := by
  have hmod : ((BitVec.ofInt 32 value).toNat : ℤ) = value % 2 ^ 32 := by
    rw [BitVec.toNat_ofInt]
    exact Int.toNat_of_nonneg (Int.emod_nonneg _ (by norm_num))
  rw [hmod]
  omega

/-- The owner and the time are cut off, and nothing else happens to them. -/
theorem kept_cut (mode : BitVec 16) (info : Stat) :
    Kept ⟨mode, info.st_uid.setWidth 16, info.st_gid.setWidth 16,
        BitVec.ofInt 32 info.st_mtime⟩ info ↔
      mode.setWidth 32 &&& 0o7777 = info.st_mode &&& 0o7777 ∧ Fits info := by
  constructor
  · rintro ⟨hmode, huid, hgid, hmtime⟩
    exact ⟨hmode, (toNat_setWidth_eq _).mp huid, (toNat_setWidth_eq _).mp hgid,
      (toNat_ofInt_eq _).mp hmtime⟩
  · rintro ⟨hmode, huid, hgid, hmtime⟩
    exact ⟨hmode, (toNat_setWidth_eq _).mpr huid, (toNat_setWidth_eq _).mpr hgid,
      (toNat_ofInt_eq _).mpr hmtime⟩

theorem kept_writtenAttributes {lib : Library} (view : View lib) (node : Node) :
    Kept (writtenAttributes view node) node.info ↔ Keeps view node := by
  unfold writtenAttributes Keeps
  by_cases hdir : node.isDir = true
  · rw [if_pos hdir, if_pos hdir]
  · rw [if_neg hdir, if_neg hdir]
    by_cases hreg : node.isReg = true
    · rw [if_pos hreg]
      calc Kept (regularInode node.info).toAttributes node.info
          ↔ ((S_IFREG ||| (node.info.st_mode &&& 0o777)).setWidth 16).setWidth 32 &&& 0o7777 =
                node.info.st_mode &&& 0o7777 ∧ Fits node.info := kept_cut _ _
        _ ↔ node.info.st_mode &&& 0o7000 = 0 ∧ Fits node.info := by
            rw [regularMode_permissions]
        _ ↔ Fits node.info ∧ (node.isReg = true → node.info.st_mode &&& 0o7000 = 0) := by
            rw [and_comm, forall_prop_of_true hreg]
    · rw [if_neg hreg]
      calc Kept (specialInode node.info).toAttributes node.info
          ↔ (node.info.st_mode.setWidth 16).setWidth 32 &&& 0o7777 =
                node.info.st_mode &&& 0o7777 ∧ Fits node.info := kept_cut _ _
        _ ↔ Fits node.info := and_iff_right (setWidth_and (by decide) _)
        _ ↔ Fits node.info ∧ (node.isReg = true → node.info.st_mode &&& 0o7000 = 0) :=
            (and_iff_left fun hisreg => absurd hisreg hreg).symm

/-! ## Runs with failures -/

section Returned

variable {lib : Library} {view : View lib} {tree : Tree} {path : Path} {dir new : Ino}
  {before : Filesystem}

theorem writeNewInode_grows (hdoc : Documented lib view) {failure : Failure}
    {image image' : lib.Image} {inode : Ext2Inode}
    (hrun : (writeNewInode lib path failure image new inode).run = .ok image')
    (hgrows : Grows dir before (view.fs image)) (hnew : new ∉ before.used) :
    Grows dir before (view.fs image') := by
  rcases writeNewInode_cases hdoc path failure image new inode with
    ⟨written, hwritten, hwrite⟩ | hwrite
  · rw [hwrite, run_pure, Except.ok.injEq] at hrun
    rw [← hrun, hwritten]
    exact hgrows.writeInode hnew inode
  · rw [hwrite, run_report_bind, run_pure, Except.ok.injEq] at hrun
    exact hrun ▸ hgrows

theorem linkEntry_grows (hdoc : Documented lib view) {name : List Byte} {type : FileType}
    {image image' : lib.Image}
    (hrun : (linkEntry lib dir path name new type image).run = .ok image')
    (hgrows : Grows dir before (view.fs image)) : Grows dir before (view.fs image') := by
  rcases linkEntry_cases hdoc dir path name new type image with
    ⟨linked, hlinked, hlink⟩ | ⟨linked, failed, hsame, hlink⟩
  · rw [hlink, run_report_bind, run_pure, Except.ok.injEq] at hrun
    rw [← hrun, hlinked]
    exact hgrows.link _
  · rw [hlink, run_report_bind, run_pure, Except.ok.injEq] at hrun
    rw [← hrun, hsame]
    exact hgrows

/-- The handle is that of the new inode, as long as there is one. -/
def Handles (view : View lib) (new : Ino) (handle : Option lib.File) : Prop :=
  ∀ f ∈ handle, view.ino f = new

theorem copyBlock_touches (hdoc : Documented lib view) {block : List Byte}
    {state next : lib.Image × Option lib.File}
    (hrun : (copyBlock lib path state block).run = .ok next)
    (hhandle : Handles view new state.2) :
    Touches new (view.fs state.1) (view.fs next.1) ∧ Handles view new next.2 := by
  obtain ⟨image, handle⟩ := state
  have hrun' := hrun
  rw [copyBlock] at hrun'
  obtain ⟨_, hrequire, hrest⟩ := run_bind_eq_ok.mp hrun'
  have hblock := Run.require_eq_ok.mp hrequire
  cases handle with
  | none => exact absurd hrest (Run.fault_ne_ok _ _)
  | some f =>
      obtain rfl := hhandle f rfl
      rcases copyBlock_cases hdoc path image f hblock with
        ⟨image', f', hfs, hino, -, hcopy⟩ | ⟨image', rest, failed, htouches, hrest', hcopy⟩
      · rw [hcopy, run_pure, Except.ok.injEq] at hrun
        rw [← hrun]
        refine ⟨hfs ▸ .write _ _ _ _, ?_⟩
        intro g hg
        rw [← Option.some.inj hg]
        exact hino
      · rw [hcopy, run_report_bind, run_pure, Except.ok.injEq] at hrun
        rw [← hrun]
        exact ⟨htouches, hrest'⟩

theorem copyBlocks_touches (hdoc : Documented lib view) {blocks : List (List Byte)}
    {state final : lib.Image × Option lib.File}
    (hrun : (blocks.foldlM (copyBlock lib path) state).run = .ok final)
    (hhandle : Handles view new state.2) : Touches new (view.fs state.1) (view.fs final.1) := by
  have hloop := foldlM_invariant
    (fun _ reached => Touches new (view.fs state.1) (view.fs reached.1) ∧
      Handles view new reached.2)
    hrun (fun _ _ => not_false) ⟨.refl _ _, hhandle⟩ (by
      rintro _ block _ reached next - ⟨htouches, hhandles⟩ hstep -
      obtain ⟨hblock, hnext⟩ := copyBlock_touches hdoc hstep hhandles
      exact ⟨htouches.trans hblock, hnext⟩)
  exact hloop.1

theorem closeFile_fs (hdoc : Documented lib view) {state : lib.Image × Option lib.File}
    {image : lib.Image} (hrun : (closeFile lib path state).run = .ok image) :
    view.fs image = view.fs state.1 := by
  obtain ⟨copied, handle⟩ := state
  cases handle with
  | none => exact absurd hrun (Run.fault_ne_ok _ _)
  | some f =>
      rcases closeFile_cases hdoc path copied f with ⟨closed, hclosed, hclose⟩ | hclose
      · rw [hclose, run_pure, Except.ok.injEq] at hrun
        rw [← hrun, hclosed]
      · rw [hclose, run_report_bind, run_pure, Except.ok.injEq] at hrun
        rw [← hrun]

/-- The file of an entry is filled, and nothing that was there is changed. -/
theorem copyRegular_grows (hdoc : Documented lib view) {name : List Byte} {info : Stat}
    {state final : State lib} (hnew : new ∉ (view.fs state.image).used)
    (hrun : (copyRegular lib tree dir new name info state).run = .ok final) :
    final.cwd = state.cwd ∧ Grows dir (view.fs state.image) (view.fs final.image) := by
  rw [copyRegular] at hrun
  obtain ⟨written, hwrite, hrun⟩ := run_bind_eq_ok.mp hrun
  have hallocated : Grows dir (view.fs state.image)
      (view.fs (lib.inode_alloc_stats2 written new 1 1)) := by
    rw [hdoc.inode_alloc_stats2]
    exact (writeNewInode_grows hdoc hwrite (.refl _ _) hnew).allocate new
  cases hopen : tree.openFile state.cwd name with
  | none =>
      simp only [hopen, run_report_bind, run_pure, Except.ok.injEq] at hrun
      rw [← hrun]
      exact ⟨rfl, hallocated⟩
  | some bytes =>
      cases hhandle : lib.file_open (lib.inode_alloc_stats2 written new 1 1) new with
      | error _ =>
          simp only [hopen, hhandle, run_report_bind, run_pure, Except.ok.injEq] at hrun
          rw [← hrun]
          exact ⟨rfl, hallocated⟩
      | ok f =>
          simp only [hopen, hhandle] at hrun
          obtain ⟨copied, hcopy, hrun⟩ := run_bind_eq_ok.mp hrun
          obtain ⟨closed, hclose, hrun⟩ := run_bind_eq_ok.mp hrun
          obtain ⟨linked, hlink, hresult⟩ := run_bind_eq_ok.mp hrun
          rw [run_pure, Except.ok.injEq] at hresult
          have hino : Handles view new (some f) := by
            intro g hg
            rw [← Option.some.inj hg]
            exact (hdoc.file_open hhandle).1
          have hfilled := hallocated.touches hnew (copyBlocks_touches hdoc hcopy hino)
          rw [← closeFile_fs hdoc hclose] at hfilled
          rw [← hresult]
          exact ⟨rfl, linkEntry_grows hdoc hlink hfilled⟩

theorem writeTarget_touches (hdoc : Documented lib view) {image : lib.Image} {f : lib.File}
    {bytes : List Byte} {written : lib.Image × lib.File}
    (hrun : (writeTarget lib path image f bytes).run = .ok written) :
    Touches (view.ino f) (view.fs image) (view.fs written.1) := by
  rw [writeTarget] at hrun
  cases hwrite : lib.file_write image f bytes with
  | error _ =>
      simp only [hwrite, run_report_bind, run_pure, Except.ok.injEq] at hrun
      rw [← hrun]
      exact .refl _ _
  | ok result =>
      obtain ⟨out, image', f'⟩ := result
      simp only [hwrite, run_pure, Except.ok.injEq] at hrun
      obtain ⟨-, -, -, hfs⟩ := hdoc.file_write hwrite
      rw [← hrun, hfs]
      exact .write _ _ _ _

theorem closeTarget_fs (hdoc : Documented lib view) {state : lib.Image × lib.File}
    {image : lib.Image} (hrun : (closeTarget lib path state).run = .ok image) :
    view.fs image = view.fs state.1 := by
  rw [closeTarget] at hrun
  cases hclose : lib.file_close state.1 state.2 with
  | error _ =>
      simp only [hclose, run_report_bind, run_pure, Except.ok.injEq] at hrun
      rw [← hrun]
  | ok closed =>
      simp only [hclose, run_pure, Except.ok.injEq] at hrun
      rw [← hrun, hdoc.file_close hclose]

theorem copySymlink_touches (hdoc : Documented lib view) {cwd : Path} {name : List Byte}
    {info : Stat} {type : FileType} {image image' : lib.Image}
    (hrun : (copySymlink lib tree type cwd new name info image).run = .ok image') :
    Touches new (view.fs image) (view.fs image') := by
  rw [copySymlink] at hrun
  split at hrun
  · rw [copyTarget] at hrun
    cases hread : tree.readlink cwd name linkBuffer with
    | none =>
        simp only [hread, run_report_bind, run_pure, Except.ok.injEq] at hrun
        exact hrun ▸ .refl _ _
    | some target =>
        cases hopen : lib.file_open image new with
        | error _ =>
            simp only [hread, hopen, run_report_bind] at hrun
            exact absurd hrun (Run.fault_ne_ok _ _)
        | ok f =>
            simp only [hread, hopen] at hrun
            obtain ⟨_, -, hrun⟩ := run_bind_eq_ok.mp hrun
            obtain ⟨written, hwrite, hclose⟩ := run_bind_eq_ok.mp hrun
            rw [closeTarget_fs hdoc hclose, ← (hdoc.file_open hopen).1]
            exact writeTarget_touches hdoc hwrite
  · rw [run_pure, Except.ok.injEq] at hrun
    exact hrun ▸ .refl _ _

theorem copySpecial_grows (hdoc : Documented lib view) {name : List Byte} {info : Stat}
    {state final : State lib} (hnew : new ∉ (view.fs state.image).used)
    (hrun : (copySpecial lib tree dir new name info state).run = .ok final) :
    final.cwd = state.cwd ∧ Grows dir (view.fs state.image) (view.fs final.image) := by
  rw [copySpecial] at hrun
  cases htype : specialType info.st_mode with
  | none =>
      simp only [htype, run_report_bind, run_pure, Except.ok.injEq] at hrun
      rw [← hrun]
      exact ⟨rfl, .refl _ _⟩
  | some type =>
      simp only [htype] at hrun
      obtain ⟨written, hwrite, hrun⟩ := run_bind_eq_ok.mp hrun
      obtain ⟨filled, hfill, hrun⟩ := run_bind_eq_ok.mp hrun
      obtain ⟨linked, hlink, hresult⟩ := run_bind_eq_ok.mp hrun
      rw [run_pure, Except.ok.injEq] at hresult
      have hallocated : Grows dir (view.fs state.image)
          (view.fs (lib.inode_alloc_stats2 written new 1 1)) := by
        rw [hdoc.inode_alloc_stats2]
        exact (writeNewInode_grows hdoc hwrite (.refl _ _) hnew).allocate new
      have hfilled := hallocated.touches hnew (copySymlink_touches hdoc hfill)
      rw [← hresult]
      exact ⟨rfl, linkEntry_grows hdoc hlink hfilled⟩

end Returned

/-! ## What is reported of an entry -/

/-- Everything that is reported is about one path. -/
def OnlyAbout {α : Type} (path : Path) (run : Trawl α) : Prop :=
  Clean (fun event => event.path ≠ path) run

section Reports

variable {lib : Library} {tree : Tree} {path : Path}

theorem onlyAbout_bind {α β : Type} {first : Trawl α} {next : α → Trawl β}
    (hfirst : OnlyAbout path first) (hnext : ∀ value, OnlyAbout path (next value)) :
    OnlyAbout path (first >>= next) :=
  clean_bind.mpr ⟨hfirst, fun value _ => hnext value⟩

theorem onlyAbout_pure {α : Type} (value : α) : OnlyAbout path (pure value) := clean_pure value

theorem onlyAbout_quiet {α : Type} (run : Run TrawlDir.ExitReason α) : OnlyAbout path (quiet run) :=
  clean_quiet run

theorem onlyAbout_failed {α : Type} (failure : Failure) {next : Unit → Trawl α}
    (hnext : OnlyAbout path (next ())) :
    OnlyAbout path (report (.failed path failure) >>= next) :=
  onlyAbout_bind (clean_report.mpr (not_not.mpr rfl)) fun _ => hnext

theorem onlyAbout_created {α : Type} (ino : Ino) {next : Unit → Trawl α}
    (hnext : OnlyAbout path (next ())) :
    OnlyAbout path (report (.created path ino) >>= next) :=
  onlyAbout_bind (clean_report.mpr (not_not.mpr rfl)) fun _ => hnext

theorem onlyAbout_retry (make : lib.Image → Except lib.Errcode lib.Image) (dir : Ino)
    (failure : Failure) (image : lib.Image) :
    OnlyAbout path (retry lib make dir path failure image) := by
  rw [retry]
  split
  · exact onlyAbout_pure _
  · split
    · exact onlyAbout_failed _ (onlyAbout_pure _)
    · split
      · exact onlyAbout_pure _
      · exact onlyAbout_failed _ (onlyAbout_pure _)

theorem onlyAbout_writeNewInode (failure : Failure) (image : lib.Image) (ino : Ino)
    (inode : Ext2Inode) : OnlyAbout path (writeNewInode lib path failure image ino inode) := by
  rw [writeNewInode]
  split
  · exact onlyAbout_pure _
  · exact onlyAbout_failed _ (onlyAbout_pure _)

theorem onlyAbout_linkEntry (parent : Ino) (name : List Byte) (ino : Ino) (type : FileType)
    (image : lib.Image) : OnlyAbout path (linkEntry lib parent path name ino type image) := by
  refine onlyAbout_bind (onlyAbout_retry _ _ _ _) ?_
  rintro ⟨linked, done⟩
  cases done with
  | true => exact onlyAbout_created _ (onlyAbout_pure _)
  | false => exact onlyAbout_pure _

theorem onlyAbout_copyBlock (state : lib.Image × Option lib.File) (block : List Byte) :
    OnlyAbout path (copyBlock lib path state block) := by
  apply onlyAbout_bind (onlyAbout_quiet _)
  intro _
  split
  · exact onlyAbout_quiet _
  · split
    · exact onlyAbout_failed _ (onlyAbout_pure _)
    · split
      · exact onlyAbout_failed _ (onlyAbout_pure _)
      · split
        · exact onlyAbout_pure _
        · exact onlyAbout_failed _ (onlyAbout_pure _)

theorem onlyAbout_closeFile (state : lib.Image × Option lib.File) :
    OnlyAbout path (closeFile lib path state) := by
  rw [closeFile]
  split
  · exact onlyAbout_quiet _
  · split
    · exact onlyAbout_pure _
    · exact onlyAbout_failed _ (onlyAbout_pure _)

theorem onlyAbout_copyRegular (parent new : Ino) (name : List Byte) (info : Stat)
    (state : State lib) :
    OnlyAbout (state.cwd ++ [name]) (copyRegular lib tree parent new name info state) := by
  apply onlyAbout_bind (onlyAbout_writeNewInode _ _ _ _)
  intro written
  dsimp only
  split
  · exact onlyAbout_failed _ (onlyAbout_pure _)
  · split
    · exact onlyAbout_failed _ (onlyAbout_pure _)
    · apply onlyAbout_bind (clean_foldlM fun state block _ => onlyAbout_copyBlock state block)
      intro copied
      apply onlyAbout_bind (onlyAbout_closeFile _)
      intro closed
      exact onlyAbout_bind (onlyAbout_linkEntry _ _ _ _ _) fun linked => onlyAbout_pure _

theorem onlyAbout_copySymlink (type : FileType) (cwd : Path) (new : Ino) (name : List Byte)
    (info : Stat) (image : lib.Image) :
    OnlyAbout (cwd ++ [name]) (copySymlink lib tree type cwd new name info image) := by
  unfold copySymlink copyTarget
  split
  · split
    · exact onlyAbout_failed _ (onlyAbout_pure _)
    · split
      · exact onlyAbout_failed _ (onlyAbout_quiet _)
      · refine onlyAbout_bind (onlyAbout_quiet _) fun _ => onlyAbout_bind ?_ fun written => ?_
        · rw [writeTarget]
          split
          · exact onlyAbout_pure _
          · exact onlyAbout_failed _ (onlyAbout_pure _)
        · rw [closeTarget]
          split
          · exact onlyAbout_pure _
          · exact onlyAbout_failed _ (onlyAbout_pure _)
  · exact onlyAbout_pure _

theorem onlyAbout_copySpecial (parent new : Ino) (name : List Byte) (info : Stat)
    (state : State lib) :
    OnlyAbout (state.cwd ++ [name]) (copySpecial lib tree parent new name info state) := by
  rw [copySpecial]
  dsimp only
  split
  · exact onlyAbout_failed _ (onlyAbout_pure _)
  · apply onlyAbout_bind (onlyAbout_writeNewInode _ _ _ _)
    intro written
    apply onlyAbout_bind (onlyAbout_copySymlink _ _ _ _ _ _)
    intro filled
    exact onlyAbout_bind (onlyAbout_linkEntry _ _ _ _ _) fun linked => onlyAbout_pure _

/-- No failure is reported of the entry at a path. -/
def Clear (path : Path) (log : List Event) : Prop := ∀ failure, .failed path failure ∉ log

theorem cured_of_clear {α : Type} {run : Trawl α} (honly : OnlyAbout path run)
    (hclear : Clear path run.log) : Cured run := by
  intro event hevent
  cases event with
  | failed path' failure =>
      obtain rfl : path' = path := not_not.mp (honly _ hevent)
      exact absurd hevent (hclear failure)
  | created path' ino => exact not_false

end Reports

/-! ## Whole runs -/

section Run

variable {lib : Library} {view : View lib} {tree : Tree}

/-- The entries that were made without a failure have the attributes that are
written for them, and nothing that was there before is changed. -/
structure Recorded (view : View lib) (tree : Tree) (parent : Ino) (state : State lib)
    (run : Trawl (State lib)) (final : State lib) : Prop where
  cwd : final.cwd = state.cwd
  grows : Grows parent (view.fs state.image) (view.fs final.image)
  created : ∀ path ino, .created path ino ∈ run.log → Clear path run.log →
    ∃ node, tree.node path = some node ∧ ino ∈ (view.fs final.image).used ∧
      (view.fs final.image).attributes ino = writtenAttributes view node

/-- Every run of a way to copy directories is recorded. -/
def Records (view : View lib) (tree : Tree) (trawl : Ino → State lib → Trawl (State lib)) :
    Prop :=
  ∀ parent state final, parent ∈ (view.fs state.image).used →
    (trawl parent state).run = .ok final → Recorded view tree parent state (trawl parent state) final

variable {trawl : Ino → State lib → Trawl (State lib)}

/-- An entry with nothing below it. -/
theorem Recorded.leaf {parent : Ino} {state final : State lib} {name : List Byte}
    {node : Node} {run : Trawl (State lib)}
    (hnode : tree.node (state.cwd ++ [name]) = some node)
    (hcwd : final.cwd = state.cwd)
    (hgrows : Grows parent (view.fs state.image) (view.fs final.image))
    (honly : OnlyAbout (state.cwd ++ [name]) run) (hrun : run.run = .ok final)
    (hcured : Cured run → ∃ image new type,
      run = ⟨[.created (state.cwd ++ [name]) new], .ok ⟨state.cwd, image⟩⟩ ∧
      Added parent ⟨name, new, type⟩ (writtenAttributes view node)
        (view.fs state.image) (view.fs image)) :
    Recorded view tree parent state run final := by
  refine ⟨hcwd, hgrows, ?_⟩
  intro path ino hcreated hclear
  obtain rfl : path = state.cwd ++ [name] := not_not.mp (honly _ hcreated)
  obtain ⟨image, new, type, hvalue, hadded⟩ := hcured (cured_of_clear honly hclear)
  rw [hvalue, List.mem_singleton, Event.created.injEq] at hcreated
  rw [hvalue, Except.ok.injEq] at hrun
  rw [hcreated.2, ← hrun]
  exact ⟨node, hnode, hadded.used, hadded.attributes⟩

theorem Recorded.skipped (parent : Ino) (state : State lib) :
    Recorded view tree parent state (pure state) state where
  cwd := rfl
  grows := .refl _ _
  created _ _ hcreated := absurd hcreated List.not_mem_nil

/-- A failure at the start of an entry, after which nothing has changed. -/
theorem Recorded.failed {parent : Ino} {state final : State lib} {path : Path}
    {failure : Failure} (hcwd : final.cwd = state.cwd)
    (hsame : view.fs final.image = view.fs state.image) :
    Recorded view tree parent state (report (.failed path failure) >>= fun _ => pure final)
      final where
  cwd := hcwd
  grows := hsame ▸ .refl _ _
  created path' ino hcreated := by
    rcases mem_log_bind.mp hcreated with hreported | ⟨_, -, hnone⟩
    · exact absurd (List.mem_singleton.mp hreported) Event.noConfusion
    · exact absurd hnone List.not_mem_nil

theorem Recorded.bind {parent : Ino} {state middle final : State lib}
    {first : Trawl (State lib)} {next : State lib → Trawl (State lib)}
    (hrun : first.run = .ok middle) (hfirst : Recorded view tree parent state first middle)
    (hnext : Recorded view tree parent middle (next middle) final) :
    Recorded view tree parent state (first >>= next) final where
  cwd := hnext.cwd.trans hfirst.cwd
  grows := hfirst.grows.trans hnext.grows
  created path ino hcreated hclear := by
    rw [bind_of_ok hrun] at hcreated hclear
    have hclearFirst : Clear path first.log := fun failure hfailed =>
      hclear failure (List.mem_append_left _ hfailed)
    have hclearNext : Clear path (next middle).log := fun failure hfailed =>
      hclear failure (List.mem_append_right _ hfailed)
    rcases List.mem_append.mp hcreated with hcreated | hcreated
    · obtain ⟨node, hnode, hused, hattributes⟩ := hfirst.created path ino hcreated hclearFirst
      refine ⟨node, hnode, hnext.grows.used hused, ?_⟩
      rw [hnext.grows.attributes ino hused, hattributes]
    · exact hnext.created path ino hcreated hclearNext

theorem copyDirectory_recorded (hdoc : Documented lib view) (htrawl : Records view tree trawl)
    {parent new : Ino} {name : List Byte} {state final : State lib} {node : Node}
    (hnode : tree.node (state.cwd ++ [name]) = some node) (hdir : node.isDir = true)
    (hname : name ≠ dotDot) (hparent : parent ∈ (view.fs state.image).used)
    (hnew : new ∉ (view.fs state.image).used)
    (hrun : (copyDirectory lib tree trawl parent new name state).run = .ok final) :
    Recorded view tree parent state (copyDirectory lib tree trawl parent new name state)
      final := by
  simp only [copyDirectory] at hrun ⊢
  rcases retry_cases hdoc (fun image => lib.mkdir image parent new name) parent
      (state.cwd ++ [name]) .createDir state.image with
    ⟨expanded, made, hexpanded, hmkdir, hretry⟩ | ⟨image, failed, hsame, hretry⟩
  swap
  · rw [hretry, run_bind_eq_ok] at hrun
    obtain ⟨⟨_, _⟩, hfirst, hresult⟩ := hrun
    rw [run_report_bind, run_pure, Except.ok.injEq, Prod.mk.injEq] at hfirst
    obtain ⟨rfl, rfl⟩ := hfirst
    rw [if_neg Bool.false_ne_true, run_pure, Except.ok.injEq] at hresult
    rw [hretry, ← hresult]
    exact .failed rfl hsame
  have hmade : view.fs made =
      (view.fs state.image).mkdir view.defaults parent new name := by
    rw [← hexpanded]
    exact hdoc.mkdir (hexpanded ▸ hparent) (hexpanded ▸ hnew) hmkdir
  have hadded := Added.made hnew hmade
  simp only [hretry, Logged.pure_bind, if_true, Tree.chdir_eq hnode hdir hname] at hrun ⊢
  obtain ⟨_, -, hrun⟩ := run_bind_eq_ok.mp hrun
  obtain ⟨below, hbelow, hresult⟩ := run_bind_eq_ok.mp hrun
  have hrecorded := htrawl new ⟨state.cwd ++ [name], made⟩ below hadded.used hbelow
  rw [run_pure, Except.ok.injEq, hrecorded.cwd, Tree.chdir_dotDot, Option.getD_some] at hresult
  rw [← hresult]
  refine ⟨rfl, hadded.grows.of_new hnew hrecorded.grows, ?_⟩
  intro path ino hcreated hclear
  rw [bind_of_ok (run_report _)] at hcreated hclear
  have hclearBelow : Clear path (trawl new ⟨state.cwd ++ [name], made⟩).log := by
    intro failure hfailed
    exact hclear failure (List.mem_append_right _ (mem_log_bind.mpr (.inl hfailed)))
  rcases List.mem_append.mp hcreated with hown | hcreated
  · rw [log_report, List.mem_singleton, Event.created.injEq] at hown
    obtain ⟨rfl, rfl⟩ := hown
    refine ⟨node, hnode, hrecorded.grows.used hadded.used, ?_⟩
    rw [hrecorded.grows.attributes ino hadded.used, hadded.attributes, writtenAttributes,
      if_pos hdir]
  · rcases mem_log_bind.mp hcreated with hcreated | ⟨_, -, hnone⟩
    · exact hrecorded.created path ino hcreated hclearBelow
    · exact absurd hnone List.not_mem_nil

theorem copyEntry_recorded (hdoc : Documented lib view) (hsize : 0 < lib.blocksize)
    (htrawl : Records view tree trawl) {parent : Ino}
    {name : List Byte} {state final : State lib} (hparent : parent ∈ (view.fs state.image).used)
    (hrun : (copyEntry lib tree trawl parent state name).run = .ok final) :
    Recorded view tree parent state (copyEntry lib tree trawl parent state name) final := by
  unfold copyEntry at hrun ⊢
  by_cases hskip : name = dot ∨ name = dotDot
  · rw [if_pos hskip] at hrun ⊢
    rw [run_pure, Except.ok.injEq] at hrun
    exact hrun ▸ .skipped parent state
  rw [if_neg hskip] at hrun ⊢
  rw [not_or] at hskip
  cases hnode : tree.node (state.cwd ++ [name]) with
  | none =>
      have hlstat : tree.lstat state.cwd name = none := by rw [Tree.lstat, hnode, Option.map_none]
      simp only [hlstat] at hrun ⊢
      rw [run_report_bind, run_pure, Except.ok.injEq] at hrun
      exact hrun ▸ .failed rfl rfl
  | some node =>
      simp only [Tree.lstat_eq hnode] at hrun ⊢
      cases hino : lib.new_inode state.image parent node.info.st_mode with
      | error _ =>
          simp only [hino] at hrun ⊢
          rw [run_report_bind, run_pure, Except.ok.injEq] at hrun
          exact hrun ▸ .failed rfl rfl
      | ok new =>
          have hnew := hdoc.new_inode hino
          simp only [hino] at hrun ⊢
          by_cases hdir : node.info.st_mode &&& S_IFMT = S_IFDIR
          · rw [if_pos hdir] at hrun ⊢
            exact copyDirectory_recorded hdoc htrawl hnode (decide_eq_true hdir) hskip.2 hparent
              hnew hrun
          have hleaf : node.isDir = false := decide_eq_false hdir
          rw [if_neg hdir] at hrun ⊢
          by_cases hreg : node.info.st_mode &&& S_IFMT = S_IFREG
          · have hisreg : node.isReg = true := decide_eq_true hreg
            rw [if_pos hreg] at hrun ⊢
            obtain ⟨hcwd, hgrows⟩ := copyRegular_grows hdoc hnew hrun
            refine .leaf hnode hcwd hgrows (onlyAbout_copyRegular parent new name _ state) hrun ?_
            intro hcured
            obtain ⟨image, hvalue, hadded, -⟩ :=
              copyRegular_cured hdoc hsize hnode hisreg hnew hcured (.inr ⟨final, hrun⟩)
            rw [writtenAttributes, hleaf, hisreg]
            exact ⟨image, new, _, hvalue, hadded⟩
          · have hisreg : node.isReg = false := decide_eq_false hreg
            rw [if_neg hreg] at hrun ⊢
            obtain ⟨hcwd, hgrows⟩ := copySpecial_grows hdoc hnew hrun
            refine .leaf hnode hcwd hgrows (onlyAbout_copySpecial parent new name _ state) hrun ?_
            intro hcured
            obtain ⟨image, type, -, hvalue, hadded, -⟩ :=
              copySpecial_cured hdoc hnode hleaf hisreg hnew hcured (.inr ⟨final, hrun⟩)
            rw [writtenAttributes, hleaf, hisreg]
            exact ⟨image, new, type, hvalue, hadded⟩

/-- The loop over the names of a directory. -/
theorem copyEntries_recorded (hdoc : Documented lib view) (hsize : 0 < lib.blocksize)
    (htrawl : Records view tree trawl) {parent : Ino}
    {names : List (List Byte)} {state final : State lib}
    (hparent : parent ∈ (view.fs state.image).used)
    (hrun : (names.foldlM (copyEntry lib tree trawl parent) state).run = .ok final) :
    Recorded view tree parent state (names.foldlM (copyEntry lib tree trawl parent) state)
      final := by
  induction names generalizing state with
  | nil =>
      rw [List.foldlM_nil, run_pure, Except.ok.injEq] at hrun
      rw [List.foldlM_nil]
      exact hrun ▸ .skipped parent state
  | cons name names ih =>
      rw [List.foldlM_cons] at hrun ⊢
      obtain ⟨middle, hfirst, hrest⟩ := run_bind_eq_ok.mp hrun
      have hrecorded := copyEntry_recorded hdoc hsize htrawl hparent hfirst
      exact .bind hfirst hrecorded (ih (hrecorded.grows.used hparent) hrest)

theorem trawlDir_recorded (hdoc : Documented lib view) (hsize : 0 < lib.blocksize)
    (fuel : ℕ) : Records view tree (trawlDir lib tree fuel) := by
  induction fuel with
  | zero => exact fun _ _ _ _ hrun => absurd hrun (Run.outOfFuel_ne_ok _)
  | succ fuel ih =>
      intro parent state final hparent hrun
      rw [trawlDir] at hrun ⊢
      cases hnames : tree.opendir state.cwd with
      | none =>
          simp only [hnames] at hrun
          exact absurd hrun (Run.exit_ne_ok _ _)
      | some names =>
          simp only [hnames] at hrun ⊢
          exact copyEntries_recorded hdoc hsize ih hparent hrun

/-- An entry that was made without a failure has the permissions, the owner and
the time of its source exactly when they are among those that are kept. -/
theorem trawlDir_attributes_iff (hdoc : Documented lib view) (hsize : 0 < lib.blocksize)
    {fuel : ℕ} {parent : Ino} {state final : State lib}
    (hparent : parent ∈ (view.fs state.image).used)
    (hrun : (trawlDir lib tree fuel parent state).run = .ok final) {path : Path} {ino : Ino}
    (hcreated : .created path ino ∈ (trawlDir lib tree fuel parent state).log)
    (hclear : Clear path (trawlDir lib tree fuel parent state).log) :
    ∃ node, tree.node path = some node ∧
      (Kept ((view.fs final.image).attributes ino) node.info ↔ Keeps view node) := by
  obtain ⟨node, hnode, -, hattributes⟩ :=
    (trawlDir_recorded hdoc hsize fuel parent state final hparent hrun).created path ino
      hcreated hclear
  refine ⟨node, hnode, ?_⟩
  rw [hattributes]
  exact kept_writtenAttributes view node

end Run

/-! ## Two entries -/

instance (path : Path) (log : List Event) : Decidable (Clear path log) :=
  decidable_of_iff (∀ event ∈ log, ¬ (event.IsFailure ∧ event.path = path)) <| by
    constructor
    · exact fun hnone failure hfailed => hnone _ hfailed ⟨trivial, rfl⟩
    · rintro hclear (⟨path', failure⟩ | ⟨path', ino⟩) hevent ⟨hfailure, hpath⟩
      · exact hclear failure (hpath ▸ hevent)
      · exact hfailure

theorem trawlDir_attributes_smallTree :
    ∃ final node, (trawlDir memoryLibrary (.ofNodes smallTree smallTree_wellFormed) 6 2
        ⟨[], emptyImage⟩).run = .ok final ∧
      smallTree.lookup [ascii ['d'], ascii ['f']] = some node ∧
      (Kept ((memoryView.fs final.image).attributes 12) node.info ↔ Keeps memoryView node) := by
  obtain ⟨final, hrun⟩ : ∃ final, (trawlDir memoryLibrary
      (.ofNodes smallTree smallTree_wellFormed) 6 2 ⟨[], emptyImage⟩).run = .ok final := ⟨_, rfl⟩
  obtain ⟨node, hnode, hkept⟩ := @trawlDir_attributes_iff memoryLibrary memoryView
    (.ofNodes smallTree smallTree_wellFormed) memory_documented (by decide) 6 2
    ⟨[], emptyImage⟩ final (List.mem_singleton_self 2) hrun [ascii ['d'], ascii ['f']] 12
    (by decide +kernel) (by decide +kernel)
  exact ⟨final, node, hrun, hnode, hkept⟩

/-- A program `su` that runs as its owner. -/
def setuidProgram : List (Path × Node) :=
  [ ([], directoryOf [ascii ['s', 'u']]),
    ([ascii ['s', 'u']], ⟨userStat 0o104755 1, [], ascii ['x']⟩) ]

theorem setuidProgram_wellFormed : WellFormed setuidProgram :=
  ⟨by decide, by decide, by decide, by decide⟩

/-- It is made without a failure, and its inode has the mode `0755`. -/
theorem trawlDir_setuidProgram :
    ∃ final, (trawlDir memoryLibrary (.ofNodes setuidProgram setuidProgram_wellFormed) 2 2
        ⟨[], emptyImage⟩).run = .ok final ∧
      .created [ascii ['s', 'u']] 11 ∈ (trawlDir memoryLibrary
        (.ofNodes setuidProgram setuidProgram_wellFormed) 2 2 ⟨[], emptyImage⟩).log ∧
      Clear [ascii ['s', 'u']] (trawlDir memoryLibrary
        (.ofNodes setuidProgram setuidProgram_wellFormed) 2 2 ⟨[], emptyImage⟩).log ∧
      ((memoryView.fs final.image).attributes 11).i_mode = 0o100755 ∧
      ¬ Kept ((memoryView.fs final.image).attributes 11) (userStat 0o104755 1) := by
  refine ⟨_, rfl, by decide +kernel, by decide +kernel, by rfl, fun hkept => ?_⟩
  exact absurd hkept.permissions (by decide +kernel)

end Tcb.Attributes
