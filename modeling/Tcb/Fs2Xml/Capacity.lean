import Tcb.Fs2Xml.Main
import Tcb.Fs2Xml.UnionByPath

/-!
# The entries that main allocates

`main` allocates a fixed number of entries, and `MergeFile` writes the next one
for every path that it does not find.  Nothing between the two compares the
counter with the number: a run stays inside the allocation as long as the
headers that it hands on have no more different paths than that.
-/

namespace Tcb.Capacity

open Tcb.CString
open Tcb.Strtol
open Tcb.Inodes
open Tcb.MergeFile
open Tcb.TableShape
open Tcb.Members
open Tcb.TarHeader
open Tcb.UnionByPath
open Tcb.Untar
open Tcb.WalkDir
open Tcb.Main

/-- A moment in the loops over the archives and over the blocks of one: the
arguments that are left, the buffer and the length of the last archive, and the
headers that were handed to `MergeFile` so far. -/
structure Moment where
  names : List (List Byte)
  buf : Buffer
  len : ℤ
  state : UntarState
  headers : List HeaderPtr

/-- The header that the block at the position is taken for. -/
def handed (buf : List Byte) (state : UntarState) : List HeaderPtr :=
  if startsWith ustar (HeaderPtr.from' ⟨buf, state.p.toNat⟩ .magic) =
      (.ok true : Run ExitReason Bool) then [⟨buf, state.p.toNat⟩]
  else []

/-- The moments of a run of `main`: the loop over the arguments opens the next
archive when the loop over the blocks has ended. -/
inductive Passes (lib : Bz2) (buf : Buffer) (names : List (List Byte)) : Moment → Prop
  | start : Passes lib buf names ⟨names, buf, 0, ⟨0, [], []⟩, []⟩
  | opened {now : Moment} {filename : List Byte} {rest : List (List Byte)} {len : ℤ}
      {filled : Buffer} (hbefore : Passes lib buf names now) (hended : now.len ≤ now.state.p)
      (hnames : now.names = filename :: rest)
      (hread : decompress lib filename now.buf = .ok (len, filled)) :
      Passes lib buf names ⟨rest, filled, len, ⟨0, now.state.inodes, []⟩, now.headers⟩
  | block {now : Moment} {next : UntarState} (hbefore : Passes lib buf names now)
      (hlt : now.state.p < now.len) (hblock : untarBlock now.buf.bytes now.state = .ok next) :
      Passes lib buf names { now with
        state := next
        headers := now.headers ++ handed now.buf.bytes now.state }

/-- At this moment a header is handed to `MergeFile`. -/
structure HandsOn (now : Moment) (ph : HeaderPtr) : Prop where
  left : now.state.p < now.len
  inside : 0 ≤ now.state.p
  header : ph = ⟨now.buf.bytes, now.state.p.toNat⟩
  magic : startsWith ustar (ph.from' .magic) = (.ok true : Run ExitReason Bool)
  size : Run.Returns (strtol 8 (ph.from' .size) : Run ExitReason ℤ)
  printed : Run.Returns (printMember ph)

/-- The entry that `MergeFile` writes for a path that it does not find is one
of those that were allocated. -/
def WritesInside (ph : HeaderPtr) (inodes : Table) : Prop :=
  ∀ parentid component, locate ph inodes = .ok (parentid, component) →
    searchInode inodes component parentid = -1 → inodes.length < maxInodes

/-- The paths of a sequence of headers. -/
def pathsOf (headers : List HeaderPtr) : Set (List (List Byte)) :=
  {path | ∃ ph ∈ headers, HeaderPath ph path}

/-- No more paths than entries, when the directories of the last one are
there. -/
def FewPaths (headers : List HeaderPtr) (ph : HeaderPtr) (inodes : Table) : Prop :=
  Run.Returns (locate ph inodes) → (pathsOf (headers ++ [ph])).ncard ≤ maxInodes

/-! ## The number of inodes -/

section Paths

variable {headers : List HeaderPtr} {ph : HeaderPtr} {inodes : Table}

theorem mem_pathsOf {path : List (List Byte)} :
    path ∈ pathsOf headers ↔ ∃ ph ∈ headers, HeaderPath ph path := Iff.rfl

theorem pathsOf_concat {path : List (List Byte)} (hpath : HeaderPath ph path) :
    pathsOf (headers ++ [ph]) = insert path (pathsOf headers) := by
  ext other
  simp only [mem_pathsOf, List.mem_append, List.mem_singleton, Set.mem_insert_iff]
  constructor
  · rintro ⟨ph', hmem | rfl, hother⟩
    · exact .inr ⟨ph', hmem, hother⟩
    · exact .inl (hother.unique hpath)
  · rintro (rfl | ⟨ph', hmem, hother⟩)
    · exact ⟨ph, .inr rfl, hpath⟩
    · exact ⟨ph', .inl hmem, hother⟩

/-- The paths of the table are those of the headers that were merged. -/
theorem paths_eq_pathsOf (hrun : mergeAll headers [] = .ok inodes) :
    ParentTable.paths Inode.parentid nameOf inodes = pathsOf headers := by
  apply Set.Subset.antisymm
  · rintro path ⟨index, hpath⟩
    exact headerPath_of_pathTo hrun hpath
  · rintro path ⟨ph, hmem, hpath⟩
    obtain ⟨before, after, rfl⟩ := List.append_of_mem hmem
    rw [mergeAll_append, Run.bind_eq_ok] at hrun
    obtain ⟨middle, hmiddle, hafter⟩ := hrun
    rw [mergeAll, List.foldlM_cons, Run.bind_eq_ok] at hafter
    obtain ⟨merged, hmerge, hafter⟩ := hafter
    have hshape := mergeAll_shape ParentTable.shape_nil hmiddle
    obtain ⟨front, component, parentid, hheader, hfront, hmerged⟩ :=
      mergeFile_paths hshape hmerge
    obtain rfl := hpath.unique hheader
    have hfound : ∃ id, PathTo merged id (front ++ [component]) := by
      rcases hmerged with ⟨rfl, hfound⟩ | ⟨node, rfl, -, -, -, hfresh⟩
      · exact hfound
      · have hparent := hfront.append [node]
        rw [← hfresh.parentid] at hparent
        rw [← hfresh.name]
        exact ⟨_, .child List.getElem?_concat_length hparent⟩
    obtain ⟨id, hid⟩ := hfound
    have hlater : PathTo inodes id (front ++ [component]) := pathTo_mergeAll hafter hid
    rcases hlater.index_cases with ⟨-, hnil⟩ | ⟨index, rfl, -⟩
    · simp at hnil
    · exact ⟨index, hlater⟩

theorem length_le_maxInodes (hrun : mergeAll headers [] = .ok inodes) :
    inodes.length ≤ maxInodes := by
  refine Run.foldlM_invariant (fun inodes => inodes.length ≤ maxInodes) hrun (Nat.zero_le _) ?_
  intro inodes ph merged _ hle hstep
  obtain ⟨_, _, _, -, -, hmerged⟩ := mergeFile_cases hstep
  cases hmerged with
  | existing => exact hle
  | added hnew hroom hnode =>
      rw [List.length_append, List.length_singleton]
      exact hroom

/-- The next write stays inside exactly when the paths are few enough. -/
theorem writesInside_iff (hrun : mergeAll headers [] = .ok inodes) :
    WritesInside ph inodes ↔ FewPaths headers ph inodes := by
  have hshape := mergeAll_shape ParentTable.shape_nil hrun
  obtain ⟨hfinite, hcard⟩ := ParentTable.Shape.ncard_paths hshape
  rw [paths_eq_pathsOf hrun] at hfinite hcard
  by_cases hreturns : Run.Returns (locate ph inodes)
  swap
  · exact iff_of_true (fun _ _ hlocate => absurd ⟨_, hlocate⟩ hreturns)
      fun hlocate => absurd hlocate hreturns
  obtain ⟨⟨parentid, component⟩, hlocate⟩ := hreturns
  have hwrites : WritesInside ph inodes ↔
      (searchInode inodes component parentid = -1 → inodes.length < maxInodes) := by
    constructor
    · exact fun hwrites => hwrites parentid component hlocate
    · intro hwrites parentid' component' hlocate'
      obtain ⟨rfl, rfl⟩ : parentid = parentid' ∧ component = component' := by
        simpa using hlocate.symm.trans hlocate'
      exact hwrites
  have hfew : FewPaths headers ph inodes ↔
      (pathsOf (headers ++ [ph])).ncard ≤ maxInodes :=
    ⟨fun hfew => hfew ⟨_, hlocate⟩, fun hle _ => hle⟩
  obtain ⟨front, hpath, hresolve⟩ := locate_eq_ok.mp hlocate
  have hknown : front ++ [component] ∈ pathsOf headers ↔
      searchInode inodes component parentid ≠ -1 := by
    rw [← paths_eq_pathsOf hrun]
    constructor
    · rintro ⟨index, hindex⟩ hnew
      have hnone := resolve_eq_none_of_new hresolve hnew
      rw [(resolve_eq_some_iff hshape).mpr hindex] at hnone
      exact Option.some_ne_none _ hnone
    · intro hfound
      obtain ⟨index, node, heq, -⟩ := ParentTable.find_spec hfound
      refine ⟨index, (resolve_eq_some_iff hshape).mp ?_⟩
      exact ParentTable.resolve_concat_eq_some.mpr ⟨parentid, hresolve, heq, by omega⟩
  rw [hwrites, hfew, pathsOf_concat hpath]
  by_cases hnew : searchInode inodes component parentid = -1
  · rw [Set.ncard_insert_of_notMem (fun hmem => hknown.mp hmem hnew) hfinite, hcard]
    exact ⟨fun hwrites => hwrites hnew, fun hle _ => hle⟩
  · rw [Set.insert_eq_of_mem (hknown.mpr hnew), hcard]
    exact iff_of_true (fun hother => absurd hother hnew) (length_le_maxInodes hrun)

end Paths

/-! ## The runs of main -/

section Runs

variable {lib : Bz2} {buf : Buffer} {names : List (List Byte)} {now : Moment}

/-- What an iteration hands on, and what it does to the table. -/
theorem untarBlock_handed {buf : List Byte} {state next : UntarState}
    (hrun : untarBlock buf state = .ok next) :
    mergeAll (handed buf state) state.inodes = .ok next.inodes := by
  simp only [untarBlock, Run.bind_eq_ok] at hrun
  obtain ⟨_, -, p, -, magic, hmagic, hrun⟩ := hrun
  cases magic with
  | false =>
      simp only [if_true, Run.pure_eq_ok, Except.ok.injEq] at hrun
      rw [handed, hmagic, if_neg (by simp), mergeAll_nil, ← hrun]
  | true =>
      simp only [Bool.true_eq_false, if_false, Run.bind_eq_ok, Run.pure_eq_ok,
        Except.ok.injEq] at hrun
      obtain ⟨size, -, _, -, inodes, hmerge, behind, -, rfl⟩ := hrun
      rw [handed, hmagic, if_pos rfl, mergeAll, List.foldlM_cons, hmerge]
      rfl

/-- The table at any moment is that of the headers handed on so far. -/
theorem Passes.mergeAll (hpasses : Passes lib buf names now) :
    mergeAll now.headers [] = .ok now.state.inodes := by
  induction hpasses with
  | start => rfl
  | opened _ _ _ _ ih => exact ih
  | block _ _ hblock ih =>
      rw [mergeAll_append, ih, Run.ok_bind]
      exact untarBlock_handed hblock

/-- The states that the loop of `Untar` passes through are moments of the run. -/
theorem Passes.reaches (hpasses : Passes lib buf names now) {state : UntarState}
    (hreaches : Reaches now.buf.bytes now.len now.state state) :
    ∃ headers, Passes lib buf names { now with
      state := state
      headers := headers } := by
  induction hreaches with
  | start => exact ⟨now.headers, hpasses⟩
  | step _ hlt hblock ih =>
      obtain ⟨headers, hbefore⟩ := ih
      exact ⟨_, hbefore.block hlt hblock⟩

/-- What `main` has read when it leaves the loop over the arguments is the last
of the moments. -/
theorem Passes.foldlM (hpasses : Passes lib buf names now) (hended : now.len ≤ now.state.p)
    {fuel : ℕ} {calls : List (List ℕ)} {read : ReadState}
    (hrun : now.names.foldlM (readArchive lib fuel) ⟨now.buf, now.state.inodes, calls⟩ =
      .ok read) :
    ∃ last, Passes lib buf names last ∧ last.names = [] ∧ last.len ≤ last.state.p ∧
      last.buf = read.buf ∧ last.state.inodes = read.inodes := by
  generalize hleft : now.names = left at hrun
  induction left generalizing now calls with
  | nil =>
      rw [List.foldlM_nil, Run.pure_eq_ok, Except.ok.injEq] at hrun
      exact ⟨now, hpasses, hleft, hended, by rw [← hrun], by rw [← hrun]⟩
  | cons filename rest ih =>
      rw [List.foldlM_cons, Run.bind_eq_ok] at hrun
      obtain ⟨next, hhead, hrest⟩ := hrun
      obtain ⟨len, filled, unpacked, hread, huntar, rfl⟩ := readArchive_eq_ok.mp hhead
      obtain ⟨hreaches, hend⟩ := untarLoop_reaches huntar
      obtain ⟨headers, hlast⟩ := (hpasses.opened hended hleft hread).reaches hreaches
      exact ih hlast hend rfl hrest

/-- A run of the program that succeeds goes through all its archives. -/
theorem main_passes {host : Host} {fuel : ℕ} {disk : host.Disk} {program : List Byte}
    {outcome : Outcome host}
    (hrun : main lib host fuel buf disk (program :: names) = .ok outcome)
    (hstatus : outcome.status = 0) :
    ∃ last, Passes lib buf names last ∧ last.names = [] ∧ last.len ≤ last.state.p := by
  obtain ⟨read, hread, -⟩ := main_eq_ok hrun hstatus
  obtain ⟨last, hlast, hnames, hend, -⟩ :=
    @Passes.foldlM lib buf names _ .start le_rfl _ _ _ hread
  exact ⟨last, hlast, hnames, hend⟩

/-- Every write to the table in a run of `main` goes to an entry that was
allocated, exactly when at each call the headers have at most as many paths as
there are entries. -/
theorem main_writesInside_iff (lib : Bz2) (buf : Buffer) (names : List (List Byte)) :
    (∀ now ph, Passes lib buf names now → HandsOn now ph →
        WritesInside ph now.state.inodes) ↔
      ∀ now ph, Passes lib buf names now → HandsOn now ph →
        FewPaths now.headers ph now.state.inodes := by
  constructor
  · intro hwrites now ph hpasses hhands
    exact (writesInside_iff hpasses.mergeAll).mp (hwrites now ph hpasses hhands)
  · intro hfew now ph hpasses hhands
    exact (writesInside_iff hpasses.mergeAll).mpr (hfew now ph hpasses hhands)

end Runs

/-! ## One directory too many -/

theorem octalDigits_injective {width left right : ℕ} (hleft : left < 8 ^ width)
    (hright : right < 8 ^ width) (hsame : octalDigits width left = octalDigits width right) :
    left = right := by
  have hvalue := congrArg (digitsValue 8) hsame
  rwa [digitsValue_octalDigits, digitsValue_octalDigits, Nat.mod_eq_of_lt hleft,
    Nat.mod_eq_of_lt hright] at hvalue

/-- A directory with a number as its name. -/
def numberedDirectory (number : ℕ) : Member where
  path := [octalDigits 5 number]
  slash := false
  content := directoryContent
  nonempty := List.cons_ne_nil _ _
  depth := by
    change 1 ≤ Split.walkRows
    decide
  components := by
    intro part hpart
    rw [List.mem_singleton.mp hpart]
    refine ⟨List.ne_nil_of_length_eq_add_one (length_octalDigits 5 number), ?_, ?_⟩
    · exact fun hmem => absurd (isDigit_of_mem_octalDigits hmem) (by decide)
    · exact fun hmem => absurd (isDigit_of_mem_octalDigits hmem) (by decide)
  notDotted := by
    intro first hfirst hdot
    rw [List.head?_cons, Option.mem_some_iff] at hfirst
    subst hfirst
    exact absurd (isDigit_of_mem_octalDigits (List.mem_of_mem_head? hdot)) (by decide)
  fits := by
    change (octalDigits 5 number).length < 100
    rw [length_octalDigits]
    decide

theorem writable_numberedDirectory (number : ℕ) : Writable (numberedDirectory number) :=
  (by decide : 0o755 < 8 ^ 7 ∧ (0 : ℕ) < 8 ^ 7 ∧ (0 : ℕ) < 8 ^ 7)

def directories (count : ℕ) : List Member := (List.range count).map numberedDirectory

/-- An archive with one directory more than there are entries. -/
def overfullFile : TarFile where
  members := (directories (maxInodes + 1)).map tarMember
  zeros := 0

theorem map_path_directories (count : ℕ) :
    (directories count).map Member.path =
      (List.range count).map fun number => [octalDigits 5 number] := by
  rw [directories, List.map_map]
  rfl

theorem nodup_directories {count : ℕ} (hcount : count ≤ 8 ^ 5) :
    ((directories count).map Member.path).Nodup := by
  rw [map_path_directories]
  refine List.Nodup.map_on ?_ List.nodup_range
  intro left hleft right hright hsame
  rw [List.mem_range] at hleft hright
  exact octalDigits_injective (hleft.trans_le hcount) (hright.trans_le hcount)
    (List.cons.inj hsame).1

theorem length_directories (count : ℕ) :
    (((directories count).map tarMember).flatMap TarMember.bytes).length = 512 * count := by
  have hlength : ∀ number, (tarMember (numberedDirectory number)).bytes.length = 512 := by
    intro number
    have hsize : (tarMember (numberedDirectory number)).size = 0 := rfl
    rw [TarMember.length_bytes, hsize]
  rw [List.length_flatMap, directories, List.map_map, List.map_map]
  induction count with
  | zero => rfl
  | succ count ih =>
      rw [List.range_succ, List.map_append, List.sum_append, ih, List.map_singleton,
        List.sum_singleton, Nat.mul_succ]
      exact congrArg (512 * count + ·) (hlength count)

theorem ancestorsFirst_directories (earlier : List (List (List Byte))) (numbers : List ℕ) :
    AncestorsFirst earlier (numbers.map numberedDirectory) := by
  induction numbers generalizing earlier with
  | nil => trivial
  | cons number numbers ih =>
      refine ⟨?_, ih _⟩
      intro ancestor hancestor
      rw [properAncestors, List.mem_filter, List.mem_inits, decide_eq_true_iff] at hancestor
      obtain ⟨hfront, hne, hproper⟩ := hancestor
      rcases List.prefix_concat_iff.mp (show ancestor <+: [] ++ [octalDigits 5 number] from hfront)
        with hwhole | hnil
      · exact absurd hwhole hproper
      · exact absurd (List.prefix_nil.mp hnil) hne

/-- The table of the first of these directories, wherever their archive
stands. -/
theorem mergeAll_directories {buf rest : List Byte} {count : ℕ} (hcount : count ≤ maxInodes)
    (hat : buf.drop 0 = ((directories count).map tarMember).flatMap TarMember.bytes ++ rest) :
    ∃ inodes, mergeAll
        ((headerOffsets 0 ((directories count).map tarMember)).map (HeaderPtr.mk buf)) [] =
          .ok inodes ∧
      Refines inodes (FirstWins.union (pairs (directories count))) ∧
      inodes.length = count := by
  have hnodup := nodup_directories (hcount.trans (by decide : maxInodes ≤ 8 ^ 5))
  have hlength : ((directories count).map Member.path).dedup.length = count := by
    rw [hnodup.dedup, List.length_map, directories, List.length_map, List.length_range]
  have hwritable : ∀ member ∈ directories count, Writable member := by
    intro member hmember
    obtain ⟨number, -, rfl⟩ := List.mem_map.mp hmember
    exact writable_numberedDirectory number
  have hfits : ∀ member ∈ directories count, ¬ member.Overflows := by
    intro member hmember
    obtain ⟨number, -, rfl⟩ := List.mem_map.mp hmember
    exact fun hoverflows => Bool.false_ne_true hoverflows.2
  obtain ⟨inodes, hrun, hrefines⟩ := mergeAll_members
    (encodes_headerOffsets hat hwritable) (ancestorsFirst_directories [] _)
    (by rwa [hlength]) hfits
  refine ⟨inodes, hrun, hrefines, ?_⟩
  rw [hrefines.length_eq, FirstWins.length_union, keys_pairs, hlength]

/-- The archive is the one with as many directories as entries, and one more. -/
theorem bytes_overfullFile :
    overfullFile.bytes =
      ((directories maxInodes).map tarMember).flatMap TarMember.bytes ++
        ((tarMember (numberedDirectory maxInodes)).bytes ++ List.replicate 512 0) := by
  have hlast : directories (maxInodes + 1) =
      directories maxInodes ++ [numberedDirectory maxInodes] := by
    rw [directories, List.range_succ, List.map_append, List.map_singleton, ← directories]
  rw [TarFile.bytes, overfullFile, archive, hlast, List.map_append, List.flatMap_append,
    List.map_singleton, List.flatMap_singleton, List.append_assoc]
  rfl

theorem length_overfullFile : overfullFile.bytes.length = 512 * maxInodes + 1024 := by
  have hsize : (tarMember (numberedDirectory maxInodes)).size = 0 := rfl
  rw [bytes_overfullFile, List.length_append, length_directories, List.length_append,
    TarMember.length_bytes, hsize, List.length_replicate]

/-- A file that fits into the buffer is read whole. -/
theorem decompress_storedBz2 {file : TarFile} (hfits : file.bytes.length ≤ bufferSize)
    {filename : List Byte} (hname : filename.length < 256) (buf : Buffer) :
    ∃ filled older, decompress (storedBz2 file) filename buf =
        .ok ((file.bytes.length : ℤ), filled) ∧ filled.bytes = file.bytes ++ older := by
  have hwhole : file.bytes.take bufferSize = file.bytes := List.take_of_length_le hfits
  refine ⟨_, buf.bytes.drop (file.bytes.take bufferSize).length,
    decompress_eq_ok.mpr ⟨hname, (), rfl, ?_, rfl⟩, ?_⟩
  · exact congrArg (fun bytes : List Byte => (bytes.length : ℤ)) hwhole.symm
  · exact congrArg (· ++ buf.bytes.drop (file.bytes.take bufferSize).length) hwhole

/-- A directory that is not among those of the table is new to it. -/
theorem not_writesInside {ph : HeaderPtr} {inodes : Table}
    (henc : Encodes ph (numberedDirectory maxInodes))
    (hrefines : Refines inodes (FirstWins.union (pairs (directories maxInodes))))
    (hfull : inodes.length = maxInodes) : ¬ WritesInside ph inodes := by
  have hheader : HeaderPath ph [octalDigits 5 maxInodes] :=
    henc.headerPath_iff.mpr ⟨rfl, fun hoverflows => Bool.false_ne_true hoverflows.2⟩
  have hlocate : locate ph inodes = .ok (-1, octalDigits 5 maxInodes) :=
    locate_eq_ok.mpr ⟨[], hheader, rfl⟩
  have hnew : searchInode inodes (octalDigits 5 maxInodes) (-1) = -1 := by
    by_contra hfound
    obtain ⟨index, node, heq, -⟩ := ParentTable.find_spec hfound
    have hpath : PathTo inodes index ([] ++ [octalDigits 5 maxInodes]) :=
      (resolve_eq_some_iff hrefines.shape).mp
        (ParentTable.resolve_concat_eq_some.mpr ⟨-1, rfl, heq, by omega⟩)
    have hmem := hrefines.mem_keys_iff.mpr ⟨index, hpath⟩
    rw [FirstWins.mem_keys_union, keys_pairs, map_path_directories] at hmem
    obtain ⟨number, hnumber, hsame⟩ := List.mem_map.mp hmem
    have hlt : number < maxInodes := List.mem_range.mp hnumber
    have hwidth : maxInodes < 8 ^ 5 := by decide
    exact hlt.ne (octalDigits_injective (hlt.trans hwidth) hwidth (List.cons.inj hsame).1)
  intro hwrites
  exact (hwrites _ _ hlocate hnew).ne hfull

theorem passes_overfull (buf : Buffer) :
    ∃ now ph, Passes (storedBz2 overfullFile) buf oneArchive.tail now ∧
      HandsOn now ph ∧ ¬ WritesInside ph now.state.inodes := by
  obtain ⟨filled, older, hread, hfilled⟩ :=
    @decompress_storedBz2 overfullFile (length_overfullFile.trans_le (by decide)) (ascii ['a'])
      (by decide) buf
  have hnul : 0 ∈ List.replicate 512 (0 : Byte) ++ older :=
    List.mem_append_left _ (List.mem_replicate.mpr ⟨by decide, rfl⟩)
  have hat : filled.bytes.drop 0 =
      ((directories maxInodes).map tarMember).flatMap TarMember.bytes ++
        ((tarMember (numberedDirectory maxInodes)).bytes ++
          (List.replicate 512 0 ++ older)) := by
    rw [List.drop_zero, hfilled, bytes_overfullFile, List.append_assoc, List.append_assoc]
  have hlength := length_directories maxInodes
  have htotal := length_overfullFile
  have hmax : maxInodes = 10000 := rfl
  obtain ⟨inodes, hmerge, hrefines, hfull⟩ := mergeAll_directories le_rfl hat
  have hwhole : ∀ member ∈ (directories maxInodes).map tarMember, member.size % 512 = 0 := by
    simp only [directories, List.map_map, List.forall_mem_map]
    exact fun _ _ => rfl
  have hreaches : Reaches filled.bytes overfullFile.bytes.length ⟨(0 : ℕ), [], []⟩ _ :=
    reaches_members hat (List.mem_append_right _ hnul) rfl (by omega) (by omega) hwhole hmerge
  have hstart : Passes (storedBz2 overfullFile) buf oneArchive.tail
      ⟨[], filled, overfullFile.bytes.length, ⟨0, [], []⟩, []⟩ :=
    Passes.start.opened le_rfl rfl hread
  obtain ⟨headers, hnow⟩ := hstart.reaches hreaches
  rw [hlength, Nat.zero_add] at hnow
  have hlast : filled.bytes.drop (512 * maxInodes) =
      (tarMember (numberedDirectory maxInodes)).bytes ++ (List.replicate 512 0 ++ older) := by
    rw [← hlength, ← Nat.zero_add (List.length _), ← List.drop_drop, hat, List.drop_left]
  have hheader := headerRead hlast hnul
  refine ⟨_, ⟨filled.bytes, 512 * maxInodes⟩, hnow, ?_, ?_⟩
  · exact ⟨by simp only; omega, by simp only; omega, rfl, hheader.magic, ⟨_, hheader.size⟩,
      ⟨_, hheader.printed⟩⟩
  · rw [← List.flatMap_singleton TarMember.bytes, ← List.map_singleton] at hlast
    have hencodes := encodes_headerOffsets hlast fun member hmember =>
      List.mem_singleton.mp hmember ▸ writable_numberedDirectory maxInodes
    exact not_writesInside (List.forall₂_cons.mp hencodes).1 hrefines hfull

/-- An archive of one directory more than there are entries: the last one is
written behind them. -/
theorem main_overfull :
    ∃ now ph, Passes (storedBz2 overfullFile) zeroBuffer oneArchive.tail now ∧
      HandsOn now ph ∧ ¬ WritesInside ph now.state.inodes :=
  passes_overfull zeroBuffer

end Tcb.Capacity
