import Tcb.Core.Shell
import Tcb.Fs2Xml.Placement

/-!
# The command that compresses a file

`WalkDir` puts the path of a file between double quotes and hands the line to
the shell.  The quotes take away the meaning of blanks and of most operators;
a quote, a backquote, a backslash or a dollar sign in front of a name in what an
archive calls a file keeps its own.
-/

namespace Tcb.Commands

open Tcb.CString
open Tcb.Inodes
open Tcb.MergeFile
open Tcb.TableShape
open Tcb.Paths
open Tcb.WalkDir
open Tcb.Shell

variable {host : Host}

/-- `"bzip2"` and `"-f"`. -/
def bzip2Word : List Byte := ascii ['b', 'z', 'i', 'p', '2']
def forceWord : List Byte := ascii ['-', 'f']

/-- The shell reads one simple command, which names the file and no other. -/
def NamesFile (text path : List Byte) : Prop :=
  shellWords text = some [bzip2Word, forceWord, path]

instance (text path : List Byte) : Decidable (NamesFile text path) :=
  inferInstanceAs (Decidable (_ = _))

/-! ## One command -/

theorem shellWords_bzip2Command (path : List Byte) :
    shellWords (bzip2Command path) =
      (lexWords .double (some []) (path ++ [34, 10])).map
        ([bzip2Word, forceWord] ++ ·) := by
  calc shellWords (bzip2Command path)
      = ([bzip2Word] ++ ·) <$> ([forceWord] ++ ·) <$>
          lexWords .double (some []) (path ++ [34, 10]) := rfl
    _ = (lexWords .double (some []) (path ++ [34, 10])).map
          ([bzip2Word, forceWord] ++ ·) := by
        cases lexWords .double (some []) (path ++ [34, 10]) <;> rfl

/-- The command names the file exactly when its path means itself between
double quotes. -/
theorem namesFile_iff (path : List Byte) :
    NamesFile (bzip2Command path) path ↔ quotable path = true := by
  rw [NamesFile, shellWords_bzip2Command, ← @lexWords_double_iff path []]
  cases lexWords .double (some []) (path ++ [34, 10]) with
  | none => simp
  | some words => simp

/-! ## Whole runs -/

/-- The command was given for a file that had been opened, and names it exactly
when its path means itself between double quotes. -/
def Addressed (inodes : Table) (log : List Event) (i : ℕ) (text : List Byte) : Prop :=
  ∃ path hidden, getFullPathNotHidden inodes fsRoot i = .ok (path, hidden) ∧
    .opened i path ∈ log ∧ (NamesFile text path ↔ quotable path = true)

theorem Addressed.append {inodes : Table} {log : List Event} {i : ℕ} {text : List Byte}
    (haddressed : Addressed inodes log i text) (more : List Event) :
    Addressed inodes (log ++ more) i text := by
  obtain ⟨path, hidden, hpath, hopened, hnames⟩ := haddressed
  exact ⟨path, hidden, hpath, List.mem_append_left _ hopened, hnames⟩

/-- A file that is written adds at most one command, which is about it. -/
theorem writeFile_commands {inodes : Table} (hshape : Shape inodes)
    {state next : WalkState host} {i : ℕ} (hsame : SameTree inodes state.inodes)
    (hrun : writeFile i state = .ok next) {j : ℕ} {text : List Byte}
    (hcommand : .command j text ∈ next.log) :
    .command j text ∈ state.log ∨ Addressed inodes next.log j text := by
  obtain ⟨node, path, hidden, compress, src, hwritten⟩ := writeFile_written hrun
  obtain ⟨names, hnames⟩ := ParentTable.Shape.pathTo_exists (hsame.shape hshape)
    (List.getElem?_eq_some_iff.mp hwritten.hentry).1
  have hpath := hwritten.hpath
  rw [Placement.getFullPathNotHidden_sameTree hshape hsame fsRoot
    (hsame.symm.pathTo hnames)] at hpath
  rw [hwritten.hlog, List.mem_append] at hcommand
  rcases hcommand with hold | hnew
  · exact .inl hold
  · cases compress with
    | false => simp at hnew
    | true =>
        have hevent : Event.command j text = .command i (bzip2Command path) := by
          simpa using hnew
        rw [Event.command.injEq] at hevent
        obtain ⟨rfl, rfl⟩ := hevent
        refine .inr ⟨path, hidden, hpath, ?_, namesFile_iff path⟩
        rw [hwritten.hlog]
        simp

theorem visitInode_commands {inodes : Table} (hshape : Shape inodes)
    {state next : WalkState host} {i : ℕ} (hsame : SameTree inodes state.inodes)
    (hcommands : ∀ j text, .command j text ∈ state.log → Addressed inodes state.log j text)
    (hrun : visitInode state i = .ok next) {j : ℕ} {text : List Byte}
    (hcommand : .command j text ∈ next.log) : Addressed inodes next.log j text := by
  have hvisit : ∀ {j : ℕ} {text : List Byte}, .command j text ∈ (state.visit i).log →
      Addressed inodes (state.visit i).log j text := by
    intro j text hmem
    have hold : .command j text ∈ state.log := by simpa [WalkState.visit] using hmem
    exact (hcommands j text hold).append _
  obtain ⟨node, -, ⟨-, hdir⟩ | ⟨-, hreg⟩ | ⟨-, -, rfl⟩⟩ := visitInode_eq_ok.mp hrun
  · obtain ⟨path, hidden, -, rfl⟩ := makeDir_eq_ok.mp hdir
    exact hvisit hcommand
  · have hvisited : SameTree inodes (state.visit i).inodes := hsame
    rcases writeFile_commands hshape hvisited hreg hcommand with hold | hnew
    · obtain ⟨_, path, _, compress, _, hwritten⟩ := writeFile_written hreg
      rw [hwritten.hlog]
      exact (hvisit hold).append _
    · exact hnew
  · exact hvisit hcommand

theorem createFilesystem_commands {inodes : Table} (hshape : Shape inodes)
    {disk : host.Disk} {final : WalkState host}
    (hrun : createFilesystem host inodes disk = .ok final) {i : ℕ} {text : List Byte}
    (hcommand : .command i text ∈ final.log) : Addressed inodes final.log i text := by
  obtain ⟨start, hstart, hloop⟩ := walkDir_eq_ok (.refl _) hrun
  obtain ⟨path, hidden, -, rfl⟩ := makeDir_eq_ok.mp hstart
  have hfinal := Run.foldlM_invariant (fun state => SameTree inodes state.inodes ∧
    ∀ j text, .command j text ∈ state.log → Addressed inodes state.log j text) hloop
    ⟨.refl _, by simp⟩ ?_
  · exact hfinal.2 i text hcommand
  · intro state j next _ hstate hstep
    exact ⟨hstate.1.trans (visitInode_sameTree hstep),
      fun _ _ => visitInode_commands hshape hstate.1 hstate.2 hstep⟩

/-- An inode is marked as compressed only when a command was given for it. -/
theorem createFilesystem_compressed {inodes : Table} (hreach : Reachable inodes)
    {disk : host.Disk} {final : WalkState host}
    (hrun : createFilesystem host inodes disk = .ok final) {i : ℕ} {now : Inode}
    (hnow : final.inodes[i]? = some now) (hcompressed : now.compressed = true) :
    ∃ text, .command i text ∈ final.log := by
  obtain ⟨start, hstart, hloop⟩ := walkDir_eq_ok (.refl _) hrun
  obtain ⟨path, hidden, -, rfl⟩ := makeDir_eq_ok.mp hstart
  have hfinal := Run.foldlM_invariant (fun state : WalkState host =>
    ∀ (j : ℕ) now, state.inodes[j]? = some now → now.compressed = true →
      ∃ text, .command j text ∈ state.log) hloop ?_ ?_
  · exact hfinal i now hnow hcompressed
  · intro j now hnow hcompressed
    rw [(fresh_of_mem hreach now (List.mem_of_getElem? hnow)).2.1] at hcompressed
    exact absurd hcompressed Bool.false_ne_true
  · intro state j next _ hstate hstep k now hnow hcompressed
    obtain ⟨node, -, ⟨-, hdir⟩ | ⟨-, hreg⟩ | ⟨-, -, rfl⟩⟩ := visitInode_eq_ok.mp hstep
    · obtain ⟨path, hidden, -, rfl⟩ := makeDir_eq_ok.mp hdir
      obtain ⟨text, htext⟩ := hstate k now hnow hcompressed
      exact ⟨text, List.mem_append_left _ htext⟩
    · obtain ⟨node, path, hidden, compress, src, hwritten⟩ := writeFile_written hreg
      have hlog : ∀ text, .command k text ∈ state.log → .command k text ∈ next.log := by
        intro text htext
        rw [hwritten.hlog]
        exact List.mem_append_left _ (List.mem_append_left _ htext)
      rw [hwritten.hinodes, List.getElem?_set] at hnow
      split at hnow
      · rename_i hsame
        subst hsame
        have hentry : state.inodes[j]? = some node := hwritten.hentry
        cases compress with
        | true => exact ⟨bzip2Command path, by simp [hwritten.hlog]⟩
        | false =>
            split at hnow
            · rw [Option.some.injEq] at hnow
              subst hnow
              obtain ⟨text, htext⟩ := hstate j node hentry hcompressed
              exact ⟨text, hlog text htext⟩
            · simp at hnow
      · obtain ⟨text, htext⟩ := hstate k now hnow hcompressed
        exact ⟨text, hlog text htext⟩
    · obtain ⟨text, htext⟩ := hstate k now hnow hcompressed
      exact ⟨text, List.mem_append_left _ htext⟩

/-- Every command that a walk gives, whether it returns or gives up later, is
about the file that was opened before, and names it and nothing else exactly
when its path means itself between double quotes. -/
structure CommandsAddressed (host : Host) (inodes : Table) : Prop where
  file : ∀ (state next : WalkState host) i, SameTree inodes state.inodes →
    writeFile i state = .ok next → ∀ j text, .command j text ∈ next.log →
      .command j text ∈ state.log ∨ Addressed inodes next.log j text
  walk : ∀ disk (final : WalkState host), createFilesystem host inodes disk = .ok final →
    ∀ i text, .command i text ∈ final.log → Addressed inodes final.log i text
  compressed : ∀ disk (final : WalkState host),
    createFilesystem host inodes disk = .ok final →
      ∀ (i : ℕ) now, final.inodes[i]? = some now → now.compressed = true →
        ∃ text, .command i text ∈ final.log

theorem reachable_commandsAddressed {inodes : Table} (hreach : Reachable inodes) :
    CommandsAddressed host inodes where
  file _ _ _ hsame hrun _ _ := writeFile_commands (reachable_shape hreach) hsame hrun
  walk _ _ hrun _ _ := createFilesystem_commands (reachable_shape hreach) hrun
  compressed _ _ hrun _ _ := createFilesystem_compressed hreach hrun

/-! ## A name with quotes in it -/

/-- The files in memory, and a `system` that runs `bzip2` on the file that the
command names when it names one. -/
def shellHost : Host where
  Disk := Placement.memoryHost.Disk
  File := Placement.memoryHost.File
  mkdir := Placement.memoryHost.mkdir
  fopen := Placement.memoryHost.fopen
  fwrite := Placement.memoryHost.fwrite
  fclose := Placement.memoryHost.fclose
  system command disk :=
    match shellWords command with
    | some [_, _, path] => Placement.memoryHost.system (bzip2Command path) disk
    | _ => disk

/-- A program `p`. -/
def program : Members.Member where
  path := [ascii ['p']]
  slash := false
  content := Placement.programContent
  nonempty := by decide
  depth := by decide
  components := by decide
  notDotted := by decide
  fits := by decide

/-- A program `";b;"`. -/
def quotedProgram : Members.Member where
  path := [ascii ['"', ';', 'b', ';', '"']]
  slash := false
  content := Placement.programContent
  nonempty := by decide
  depth := by decide
  components := by decide
  notDotted := by decide
  fits := by decide

/-- The table with one program in it. -/
def programTable (name : CArray 128) : Table :=
  [{  name := name
      src := ⟨[], CArray.nil_noNul, CArray.nil_fits⟩
      link := ⟨[], CArray.nil_noNul, CArray.nil_fits⟩
      mode := 0o100644
      size := 4
      uid := 1000
      gid := 1000
      parentid := -1
      data := some elfMagic
      compressed := false
      load := false
      mtime := 5 }]

/-- `fs/";b;"` -/
def quotedPath : List Byte := ascii ['f', 's', '/', '"', ';', 'b', ';', '"']

set_option maxRecDepth 4000 in
theorem mergeAll_program :
    mergeAll [TarHeader.memberHeader program] [] =
      .ok (programTable ⟨ascii ['p'], by decide, by decide⟩) := by
  rfl

set_option maxRecDepth 4000 in
theorem mergeAll_quotedProgram :
    mergeAll [TarHeader.memberHeader quotedProgram] [] =
      .ok (programTable ⟨ascii ['"', ';', 'b', ';', '"'], by decide, by decide⟩) := by
  rfl

theorem programTable_commandsAddressed :
    CommandsAddressed shellHost (programTable ⟨ascii ['p'], by decide, by decide⟩) :=
  reachable_commandsAddressed ⟨_, mergeAll_program⟩

/-- The shell reads three commands, and the file is marked as compressed. -/
theorem quotedProgram_not_addressed :
    Reachable (programTable ⟨ascii ['"', ';', 'b', ';', '"'], by decide, by decide⟩) ∧
      ∃ final now text path, createFilesystem shellHost
          (programTable ⟨ascii ['"', ';', 'b', ';', '"'], by decide, by decide⟩)
          Placement.emptyDisk = .ok final ∧
        .opened 0 path ∈ final.log ∧ .command 0 text ∈ final.log ∧
        final.inodes[0]? = some now ∧ now.compressed = true ∧ ¬ NamesFile text path := by
  refine ⟨⟨_, mergeAll_quotedProgram⟩, _, _, bzip2Command quotedPath, quotedPath, rfl, ?_, ?_,
    rfl, rfl, ?_⟩
  · decide +kernel
  · decide +kernel
  · decide +kernel

end Tcb.Commands
