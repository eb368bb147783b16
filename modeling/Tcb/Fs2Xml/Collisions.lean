import Tcb.Fs2Xml.Storage

/-!
# When something is overwritten

The names of siblings have to differ on disk, and not only as a sufficient
condition: where every file lies in directories and something ordinary is left
of every name, a table in which they do not has two inodes in one place, or a
file that is not there after a walk in memory.
-/

namespace Tcb.Storage

open Function
open Tcb.CString
open Tcb.Inodes
open Tcb.Split
open Tcb.MergeFile
open Tcb.TableShape
open Tcb.Paths
open Tcb.WalkDir
open Tcb.Placement
open Tcb.Shell

/-! ## A shell that leaves other files alone -/

/-- A `system` that runs `bzip2` when the command names its file, and does
nothing else. -/
def carefulSystem (command : List Byte) (disk : memoryHost.Disk) : memoryHost.Disk :=
  if Commands.NamesFile command ((command.drop 10).take (command.length - 12)) then
    memoryHost.system command disk
  else disk

def carefulHost : Host where
  Disk := memoryHost.Disk
  File := memoryHost.File
  mkdir := memoryHost.mkdir
  fopen := memoryHost.fopen
  fwrite := memoryHost.fwrite
  fclose := memoryHost.fclose
  system := carefulSystem

def carefulView : DiskView carefulHost where
  read disk := disk
  place fp := fp
  bunzip2 := unpack

theorem carefulSystem_eq (path : List Byte) (disk : memoryHost.Disk) :
    carefulSystem (bzip2Command path) disk =
      if quotable path = true then memoryHost.system (bzip2Command path) disk else disk := by
  rw [carefulSystem, drop_bzip2Command]
  exact if_congr (Commands.namesFile_iff path) rfl rfl

theorem carefulHost_lawful : Lawful carefulHost carefulView where
  mkdir _ _ := rfl
  fopen hopen := shellHost_lawful.fopen hopen
  fwrite bytes hempty := shellHost_lawful.fwrite bytes hempty
  fclose _ _ := rfl
  bzip2 := by
    intro path disk bytes hquotable hread
    refine ⟨66 :: 90 :: bytes, rfl, ?_⟩
    exact (carefulSystem_eq path disk).trans
      ((if_pos hquotable).trans (memoryHost_bzip2 hread))

/-- A command that does not name its file changes nothing. -/
theorem carefulHost_unquotable {path : List Byte} (hquotable : ¬ quotable path = true)
    (disk : carefulHost.Disk) : carefulHost.system (bzip2Command path) disk = disk :=
  (carefulSystem_eq path disk).trans (if_neg hquotable)

/-! ## Tables that can be walked -/

/-- Every regular file lies in directories only, something ordinary is left of
every name, and the walk is not given up. -/
structure PlainTree (inodes : Table) : Prop where
  reached : ∀ (i : ℕ) node, inodes[i]? = some node → node.isReg = true → Made inodes i node
  ordinary : OrdinaryNames inodes
  returns : ∃ final, createFilesystem carefulHost inodes emptyDisk = .ok final

section Walk

variable {inodes : Table} {i j : ℕ} {node left right : Inode} {host : Host}
  {front front' : List (List Byte)} {path path' : List Byte}

/-- The turn of an inode in a walk that returns. -/
theorem createFilesystem_turn (hreach : Reachable inodes) {disk : host.Disk}
    {final : WalkState host} (hrun : createFilesystem host inodes disk = .ok final)
    (hmade : Made inodes i node) :
    ∃ state next : WalkState host, SameTree inodes state.inodes ∧
      visitInode state i = .ok next := by
  have hshape := reachable_shape hreach
  obtain ⟨start, hstart, hloop⟩ := walkDir_eq_ok (.refl _) hrun
  have hmem := ((parentsFirst hshape).mem_preorder_root_iff
    (Nat.le_succ inodes.length)).mpr hmade.visited
  obtain ⟨before, after, hsplit⟩ := List.append_of_mem hmem
  rw [visits, hsplit, List.foldlM_append, Run.bind_eq_ok] at hloop
  obtain ⟨state, hbefore, hrest⟩ := hloop
  rw [List.foldlM_cons, Run.bind_eq_ok] at hrest
  obtain ⟨next, hvisit, -⟩ := hrest
  exact ⟨state, next,
    (makeDir_sameTree hstart).trans (foldlM_visitInode_sameTree hbefore), hvisit⟩

/-- Every directory and every file that is made has a path on disk. -/
theorem Made.path_exists (hreach : Reachable inodes) (hmade : Made inodes i node)
    {disk : host.Disk} {final : WalkState host}
    (hrun : createFilesystem host inodes disk = .ok final) :
    ∃ path hidden, getFullPathNotHidden inodes fsRoot i = .ok (path, hidden) := by
  have hshape := reachable_shape hreach
  obtain ⟨state, next, hsame, hvisit⟩ := createFilesystem_turn hreach hrun hmade
  obtain ⟨names, hnames⟩ := ParentTable.Shape.pathTo_exists hshape
    (List.getElem?_eq_some_iff.mp hmade.entry).1
  have hpaths := getFullPathNotHidden_sameTree hshape hsame fsRoot hnames
  obtain ⟨now, hnow, ⟨-, hmake⟩ | ⟨-, hwrite⟩ | ⟨hdir, hreg, -⟩⟩ := visitInode_eq_ok.mp hvisit
  · obtain ⟨path, hidden, hpath, -⟩ := makeDir_eq_ok.mp hmake
    exact ⟨path, hidden, hpaths.symm.trans hpath⟩
  · obtain ⟨_, path, hidden, _, _, hwritten⟩ := writeFile_written hwrite
    exact ⟨path, hidden, hpaths.symm.trans hwritten.hpath⟩
  · obtain ⟨other, hother, hfixed⟩ := hsame.symm.getElem? hnow
    obtain rfl := Option.some.inj (hmade.entry.symm.trans hother)
    have hisDir : node.isDir = now.isDir := (congrArg Inode.isDir hfixed :)
    have hisReg : node.isReg = now.isReg := (congrArg Inode.isReg hfixed :)
    rcases hmade.kind with hkind | hkind
    · rw [hisDir, hdir] at hkind
      exact absurd hkind Bool.false_ne_true
    · rw [hisReg, hreg] at hkind
      exact absurd hkind Bool.false_ne_true

/-! ## Siblings -/

/-- Siblings with one name on disk are in one place. -/
theorem OnDisk.same_location (hreach : Reachable inodes) (hordinary : OrdinaryNames inodes)
    (hleft : OnDisk inodes i left front path) (hright : OnDisk inodes j right front' path')
    (hparents : left.parentid = right.parentid) :
    (shownName left = shownName right → location path = location path') ∧
      (storedName left = storedName right →
        location (storedPath left path) = location (storedPath right path')) ∧
      (storedName left = shownName right →
        location (storedPath left path) = location path') := by
  have hfronts : front = front' := hleft.hfront.unique (hparents ▸ hright.hfront)
  rw [hleft.location_path hreach hordinary, hright.location_path hreach hordinary,
    hleft.location_stored hreach hordinary, hright.location_stored hreach hordinary, hfronts]
  exact ⟨fun hname => by rw [hname], fun hname => by rw [hname], fun hname => by rw [hname]⟩

/-- Two places are the same only under the same name. -/
theorem last_of_location {one other : List (List Byte)} {component component' : List Byte}
    (hsame : fsRoot :: (one ++ [component]) = fsRoot :: (other ++ [component'])) :
    component = component' :=
  (List.cons.inj (List.append_inj' (List.cons.inj hsame).2 rfl).2).1

/-- `bzip2` moves a file. -/
theorem OnDisk.location_ne_stored (hreach : Reachable inodes) (hordinary : OrdinaryNames inodes)
    (hdisk : OnDisk inodes i node front path) (hpacked : packed node = true) :
    location path ≠ location (storedPath node path) := by
  rw [hdisk.location_path hreach hordinary, hdisk.location_stored hreach hordinary]
  intro hsame
  have hname := last_of_location hsame
  rw [storedName, storedPath, if_pos hpacked] at hname
  have hlength := congrArg List.length hname
  simp [bz2Suffix, ascii] at hlength

/-- The first place of a file that is packed is not where `bzip2` puts one. -/
theorem OnDisk.location_ne_packed (hreach : Reachable inodes) (hordinary : OrdinaryNames inodes)
    (hleft : OnDisk inodes i left front path) (hright : OnDisk inodes j right front' path')
    (hpacked : packed left = true) (hpacked' : packed right = true) :
    location (storedPath left path) ≠ location path' := by
  rw [hleft.location_stored hreach hordinary, hright.location_path hreach hordinary]
  intro hsame
  have hname := last_of_location hsame
  rw [storedName, storedPath, if_pos hpacked] at hname
  have hsuffix : bz2Suffix <:+ shownName right := hname ▸ List.suffix_append _ _
  rw [not_packed_of_suffix (hsuffix.trans (notHidden_suffix _))] at hpacked'
  exact Bool.false_ne_true hpacked'

/-! ## The walk in memory -/

/-- What is put into a place by the turn of an inode is gone when it ends. -/
def Spares (inodes : Table) (place : List (List Byte)) (j : ℕ) : Prop :=
  ∀ other front path, inodes[j]? = some other → other.isReg = true →
    OnDisk inodes j other front path →
      (place = location path → packed other = true ∧ quotable path = true) ∧
      (place = location (storedPath other path) → quotable path = false)

theorem visitInode_spares (hreach : Reachable inodes) (hplain : PlainTree inodes)
    {state next : WalkState carefulHost} (hsame : SameTree inodes state.inodes)
    (hrun : visitInode state j = .ok next) {place : List (List Byte)}
    (hspares : Spares inodes place j) :
    next.disk place = state.disk place ∨ next.disk place = none := by
  obtain ⟨now, hnow, ⟨-, hmake⟩ | ⟨hisReg, hwrite⟩ | ⟨-, -, rfl⟩⟩ := visitInode_eq_ok.mp hrun
  · obtain ⟨_, _, -, rfl⟩ := makeDir_eq_ok.mp hmake
    exact .inl rfl
  · obtain ⟨now', path, hidden, compress, src, hwritten⟩ := writeFile_written hwrite
    obtain rfl : now = now' := Option.some.inj (hnow.symm.trans hwritten.hentry)
    obtain ⟨other, hother, hfixed⟩ := hsame.symm.getElem? hnow
    have hpacked : packed other = packed now := (congrArg packed hfixed :)
    have hreg : other.isReg = true := (congrArg Inode.isReg hfixed :).trans hisReg
    obtain ⟨names, hnames⟩ := ParentTable.Shape.pathTo_exists (reachable_shape hreach)
      (List.getElem?_eq_some_iff.mp hother).1
    have hpath : getFullPathNotHidden inodes fsRoot j = .ok (path, hidden) := by
      rw [← getFullPathNotHidden_sameTree (reachable_shape hreach) hsame fsRoot hnames]
      exact hwritten.hpath
    obtain ⟨front, hdisk⟩ := (hplain.reached j other hother hreg).onDisk hreach hpath
    obtain ⟨hwriting, hstoring⟩ := hspares other front path hother hreg hdisk
    have hstored : storedPath other path = storedPath now path := by
      rw [storedPath, hpacked, ← storedPath]
    by_cases hquotable : packed now = true → quotable path = true
    · obtain ⟨-, hgone, hframe⟩ := written_read carefulHost_lawful hwritten hquotable
      by_cases hhere : place = location path
      · obtain ⟨hpack, -⟩ := hwriting hhere
        have hne := hdisk.location_ne_stored hreach hplain.ordinary hpack
        rw [hpacked] at hpack
        rw [hstored] at hne
        exact .inr (hhere ▸ hgone hpack hne)
      · refine .inl (hframe place hhere fun hthere => ?_)
        have hunquotable := hstoring (hstored ▸ hthere)
        by_cases hpack : packed now = true
        · rw [hquotable hpack] at hunquotable
          exact absurd hunquotable.symm Bool.false_ne_true
        · rw [storedPath, if_neg hpack] at hthere
          exact hhere hthere
    · obtain ⟨hpack, hunquotable⟩ := Classical.not_imp.mp hquotable
      obtain ⟨hcompress, closed, hclosed, hnext⟩ := written_closed carefulHost_lawful hwritten
      rw [hpack] at hcompress
      rw [← hcompress, if_pos rfl, carefulHost_unquotable hunquotable] at hnext
      have hread : next.disk = update state.disk (location path) (some (contents now)) :=
        hnext.trans hclosed
      exact .inl ((congrFun hread place).trans
        (update_of_ne (fun hhere => hunquotable (hwriting hhere).2) _ _))
  · exact .inl rfl

/-- A place that every turn spares stays empty. -/
theorem foldlM_spares (hreach : Reachable inodes) (hplain : PlainTree inodes) {items : List ℕ}
    {state final : WalkState carefulHost} (hsame : SameTree inodes state.inodes)
    (hrun : items.foldlM visitInode state = .ok final) {place : List (List Byte)}
    (hempty : state.disk place = none) (hspares : ∀ j ∈ items, Spares inodes place j) :
    final.disk place = none := by
  refine (Run.foldlM_invariant (fun reached : WalkState carefulHost =>
    SameTree inodes reached.inodes ∧ reached.disk place = none) hrun ⟨hsame, hempty⟩ ?_).2
  rintro reached j next hj ⟨hreached, hstill⟩ hstep
  refine ⟨hreached.trans (visitInode_sameTree hstep), ?_⟩
  rcases visitInode_spares hreach hplain hreached hstep (hspares j hj) with hkept | hgone
  · exact hkept.trans hstill
  · exact hgone

/-- A file is where the inode says after a walk in memory. -/
theorem Safe.read_ne_none (hsafe : Safe inodes) (hreach : Reachable inodes)
    {final : WalkState carefulHost}
    (hrun : createFilesystem carefulHost inodes emptyDisk = .ok final)
    (hdisk : OnDisk inodes i node front path) (hreg : node.isReg = true) {hidden : Bool}
    (hpath : getFullPathNotHidden inodes fsRoot i = .ok (path, hidden)) :
    final.disk (location (storedPath node path)) ≠ none := by
  obtain ⟨path', hidden', now, bytes, hpath', hnow, hread, -⟩ :=
    hsafe.stored _ carefulView carefulHost_lawful emptyDisk final hrun i node hdisk.made.entry hreg
  obtain ⟨there, flag, compress, hplaced⟩ :=
    createFilesystem_placed (reachable_shape hreach) hrun hdisk.made.entry hreg hdisk.made.visited
  obtain ⟨now', hnow', -, hcompressed⟩ := hplaced.hnow
  obtain rfl := Option.some.inj (hnow.symm.trans hnow')
  have hpacked : packed node = now.compressed := by
    rw [hcompressed, (fresh_of_mem hreach node (List.mem_of_getElem? hdisk.made.entry)).2.1,
      Bool.or_false, packed, hplaced.hcompress]
    cases compress <;> rfl
  rw [hpath, Except.ok.injEq, Prod.mk.injEq] at hpath'
  rw [← hpath'.1, ← hpacked, ← storedPath] at hread
  exact fun hnone => Option.some_ne_none _ (hread.symm.trans hnone)

/-- Another file has no way into the place of a file. -/
theorem CollisionFree.stored_ne (hfree : CollisionFree inodes) (hne : i ≠ j)
    (hleft : inodes[i]? = some left) (hright : inodes[j]? = some right)
    (hreg : left.isReg = true) (hreg' : right.isReg = true) {hidden hidden' : Bool}
    (hpath : getFullPathNotHidden inodes fsRoot i = .ok (path, hidden))
    (hpath' : getFullPathNotHidden inodes fsRoot j = .ok (path', hidden')) :
    location (storedPath left path) ≠ location (storedPath right path') ∧
      (packed right = false → location (storedPath left path) ≠ location path') := by
  have hstored : location (storedPath left path) ≠ location (storedPath right path') :=
    fun hsame => hne (hfree.files i j left right path path' hidden hidden' hleft hright hreg hreg'
      hpath hpath' hsame)
  refine ⟨hstored, fun hpacked hsame => hstored ?_⟩
  rw [hsame, storedPath.eq_def right, hpacked, if_neg Bool.false_ne_true]

theorem OnDisk.getFullPath (hreach : Reachable inodes)
    (hdisk : OnDisk inodes i node front path) {disk : host.Disk} {final : WalkState host}
    (hrun : createFilesystem host inodes disk = .ok final) :
    ∃ hidden, getFullPathNotHidden inodes fsRoot i = .ok (path, hidden) := by
  obtain ⟨path', hidden, hpath⟩ := hdisk.made.path_exists hreach hrun
  obtain ⟨front', hdisk'⟩ := hdisk.made.onDisk hreach hpath
  have hsame : path' = path := by
    rw [hdisk'.hpath, hdisk.hpath, hdisk'.hfront.unique hdisk.hfront]
  exact ⟨hidden, hsame ▸ hpath⟩

/-- Where nothing is overwritten, the path of every packed file means itself. -/
theorem Safe.quotable (hsafe : Safe inodes) (hreach : Reachable inodes)
    (hplain : PlainTree inodes) (hdisk : OnDisk inodes i node front path)
    (hreg : node.isReg = true) (hpacked : packed node = true) : quotable path = true := by
  obtain ⟨final, hrun⟩ := hplain.returns
  obtain ⟨hidden, hpath⟩ := hdisk.getFullPath hreach hrun
  by_contra hunquotable
  refine hsafe.read_ne_none hreach hrun hdisk hreg hpath ?_
  obtain ⟨start, hstart, hloop⟩ := walkDir_eq_ok (.refl _) hrun
  obtain ⟨_, _, -, rfl⟩ := makeDir_eq_ok.mp hstart
  refine foldlM_spares hreach hplain (.refl _) hloop rfl ?_
  intro j _ other front' path' hother hreg' hdisk'
  obtain ⟨hidden', hpath'⟩ := hdisk'.getFullPath hreach hrun
  by_cases hsame : i = j
  · subst hsame
    obtain rfl := Option.some.inj (hdisk.made.entry.symm.trans hother)
    rw [hpath, Except.ok.injEq, Prod.mk.injEq] at hpath'
    rw [← hpath'.1]
    refine ⟨fun hplace => ?_, fun _ => (Bool.not_eq_true _).mp hunquotable⟩
    exact absurd hplace.symm (hdisk.location_ne_stored hreach hplain.ordinary hpacked)
  · obtain ⟨hstored, hwriting⟩ := hsafe.collisionFree.stored_ne hsame hdisk.made.entry hother hreg
      hreg' hpath hpath'
    refine ⟨fun hplace => ?_, fun hplace => absurd hplace hstored⟩
    cases hpacked' : packed other with
    | false => exact absurd hplace (hwriting hpacked')
    | true =>
        exact absurd hplace
          (hdisk.location_ne_packed hreach hplain.ordinary hdisk' hpacked hpacked')

/-- Where nothing is overwritten, no file is packed over the place of an
earlier one. -/
theorem Safe.inOrder (hsafe : Safe inodes) (hreach : Reachable inodes)
    (hplain : PlainTree inodes) (hleft : OnDisk inodes i left front path)
    (hright : OnDisk inodes j right front' path') (hparents : left.parentid = right.parentid)
    (hreg : left.isReg = true) (hreg' : right.isReg = true) (hlt : i < j)
    (hnames : shownName left = shownName right) (hpacked : packed right = true) :
    packed left = true := by
  obtain ⟨final, hrun⟩ := hplain.returns
  have hshape := reachable_shape hreach
  obtain ⟨hidden, hpath⟩ := hleft.getFullPath hreach hrun
  obtain ⟨hidden', hpath'⟩ := hright.getFullPath hreach hrun
  by_contra hnot
  refine hsafe.read_ne_none hreach hrun hleft hreg hpath ?_
  have hplace : location (storedPath left path) = location path' := by
    rw [storedPath, if_neg hnot]
    exact (hleft.same_location hreach hplain.ordinary hright hparents).1 hnames
  obtain ⟨before, after, start, middle, written, hsplit, -, -, -, hwrite, hback, -, hsame,
    hmiddle, -⟩ := createFilesystem_split hshape hrun hright.made.entry hreg' hright.made.visited
  obtain ⟨node', here, flag, compress, src, hwritten⟩ := writeFile_written hwrite
  obtain rfl : right = node' := Option.some.inj (hmiddle.symm.trans hwritten.hentry)
  obtain ⟨names, hpathTo⟩ := ParentTable.Shape.pathTo_exists hshape
    (List.getElem?_eq_some_iff.mp hright.made.entry).1
  have hhere := hwritten.hpath.symm.trans
    ((getFullPathNotHidden_sameTree hshape hsame fsRoot hpathTo).trans hpath')
  rw [Except.ok.injEq, Prod.mk.injEq] at hhere
  rw [hhere.1] at hwritten
  have hwrittenSame : SameTree middle.inodes written.inodes := hwritten.sameTree
  -- when the later file has been packed, nothing is left in the place
  have hgone : written.disk (location path') = none :=
    (written_read carefulHost_lawful hwritten fun _ =>
      hsafe.quotable hreach hplain hright hreg' hpacked).2.1 hpacked
      (hright.location_ne_stored hreach hplain.ordinary hpacked)
  rw [hplace]
  refine foldlM_spares hreach hplain (hsame.trans hwrittenSame) hback hgone ?_
  intro k hk other front'' path'' hother hregOther hdisk
  obtain ⟨hidden'', hpath''⟩ := hdisk.getFullPath hreach hrun
  have hne : i ≠ k := by
    rintro rfl
    have horder := @Preorder.ParentsFirst.pairwise_siblings _ _ Inode.isDir _
      (parentsFirst hshape) (inodes.length + 1) (-1)
    rw [← visits, hsplit, List.pairwise_append, List.pairwise_cons] at horder
    exact absurd (horder.2.1.1 i hk right left hright.made.entry hleft.made.entry hparents.symm)
      (Nat.not_lt.mpr hlt.le)
  obtain ⟨hstored, hwriting⟩ := hsafe.collisionFree.stored_ne hne hleft.made.entry hother hreg
    hregOther hpath hpath''
  rw [hplace] at hstored hwriting
  refine ⟨fun hthere => ?_, fun hthere => absurd hthere hstored⟩
  cases hpacked' : packed other with
  | false => exact absurd hthere (hwriting hpacked')
  | true => exact ⟨rfl, hsafe.quotable hreach hplain hdisk hregOther hpacked'⟩

/-- Where nothing is overwritten, the names of siblings differ on disk. -/
theorem distinctNames_of_safe (hreach : Reachable inodes) (hplain : PlainTree inodes)
    (hsafe : Safe inodes) : DistinctNames inodes := by
  obtain ⟨final, hrun⟩ := hplain.returns
  have honDisk : ∀ {i : ℕ} {node : Inode}, Made inodes i node →
      ∃ front path hidden, OnDisk inodes i node front path ∧
        getFullPathNotHidden inodes fsRoot i = .ok (path, hidden) := by
    intro i node hmade
    obtain ⟨path, hidden, hpath⟩ := hmade.path_exists hreach hrun
    obtain ⟨front, hdisk⟩ := hmade.onDisk hreach hpath
    exact ⟨front, path, hidden, hdisk, hpath⟩
  constructor
  · exact hplain.reached
  · exact hplain.ordinary
  · intro i j left right hleft hright hparents hdir hdir' hnames
    obtain ⟨front, path, hidden, hdisk, hpath⟩ := honDisk hleft
    obtain ⟨front', path', hidden', hdisk', hpath'⟩ := honDisk hright
    have hsame := (hdisk.same_location hreach hplain.ordinary hdisk' hparents).1 hnames
    exact Int.ofNat.inj (hsafe.collisionFree.directories i j path path' hidden hidden'
      (.inside hleft.entry hdir hleft.visited) (.inside hright.entry hdir' hright.visited)
      hpath hpath' hsame)
  · intro i j left right hleft hright hparents hreg hreg' hnames
    obtain ⟨front, path, hidden, hdisk, hpath⟩ := honDisk hleft
    obtain ⟨front', path', hidden', hdisk', hpath'⟩ := honDisk hright
    exact hsafe.collisionFree.files i j left right path path' hidden hidden' hleft.entry
      hright.entry hreg hreg' hpath hpath'
      ((hdisk.same_location hreach hplain.ordinary hdisk' hparents).2.1 hnames)
  · intro i j left right hleft hright hparents hreg hdir
    obtain ⟨front, path, hidden, hdisk, hpath⟩ := honDisk hleft
    obtain ⟨front', path', hidden', hdisk', hpath'⟩ := honDisk hright
    obtain ⟨hshown, -, hstored⟩ :=
      hdisk.same_location hreach hplain.ordinary hdisk' hparents
    obtain ⟨hplace, hstoredPlace⟩ := hsafe.collisionFree.apart i j left path path' hidden hidden'
      hleft.entry hreg (.inside hright.entry hdir hright.visited) hpath hpath'
    exact ⟨mt hshown hplace, mt hstored hstoredPlace⟩
  · intro i j left right hleft hright hparents hreg hreg' hlt hnames hpacked
    obtain ⟨front, path, hidden, hdisk, hpath⟩ := honDisk hleft
    obtain ⟨front', path', hidden', hdisk', hpath'⟩ := honDisk hright
    exact hsafe.inOrder hreach hplain hdisk hdisk' hparents hreg hreg' hlt hnames hpacked
  · intro i node names hmade hreg hpacked hnames
    obtain ⟨front, path, hidden, hdisk, hpath⟩ := honDisk hmade
    have hquotable := hsafe.quotable hreach hplain hdisk hreg hpacked
    rwa [hdisk.path_eq hnames] at hquotable

/-- In a table whose siblings keep different names on disk, every directory and
every file has a place of its own, and after a walk each file holds its data;
and where the tree is plain, in no other table. -/
theorem reachable_stored (hreach : Reachable inodes) :
    (DistinctNames inodes → Safe inodes) ∧
      (PlainTree inodes → Safe inodes → DistinctNames inodes) :=
  ⟨safe_of_distinctNames hreach, distinctNames_of_safe hreach⟩

end Walk

/-! ## A folder with everything in it -/

theorem forall_entries {inodes : Table} {property : ℕ → Inode → Prop}
    (hall : ∀ entry ∈ inodes.zipIdx, property entry.2 entry.1) {i : ℕ} {node : Inode}
    (hnode : inodes[i]? = some node) : property i node :=
  hall (node, i) (List.mem_zipIdx_iff_getElem?.mpr hnode)

theorem folderTable_apart {i j : ℕ} {left right : Inode} (hleft : folderTable[i]? = some left)
    (hright : folderTable[j]? = some right) (hparents : left.parentid = right.parentid)
    (hne : i ≠ j) : shownName left ≠ shownName right ∧ storedName left ≠ storedName right ∧
      storedName left ≠ shownName right := by
  have hall : ∀ one ∈ folderTable.zipIdx, ∀ other ∈ folderTable.zipIdx,
      one.1.parentid = other.1.parentid → one.2 ≠ other.2 →
        shownName one.1 ≠ shownName other.1 ∧ storedName one.1 ≠ storedName other.1 ∧
          storedName one.1 ≠ shownName other.1 := by
    decide
  exact hall (left, i) (List.mem_zipIdx_iff_getElem?.mpr hleft) (right, j)
    (List.mem_zipIdx_iff_getElem?.mpr hright) hparents hne

theorem folderTable_made {i : ℕ} {node : Inode} (hnode : folderTable[i]? = some node) :
    Preorder.Visited Inode.parentid Inode.isDir folderTable i := by
  have hparent : node.parentid = -1 ∨ node.parentid = (0 : ℕ) :=
    @forall_entries folderTable (fun _ entry => entry.parentid = -1 ∨ entry.parentid = (0 : ℕ))
      (by decide) i node hnode
  rcases hparent with htop | hinside
  · exact .top hnode htop
  · exact .inside hnode hinside rfl rfl (.top rfl rfl)

/-- A hidden file, a program, a file and a directory side by side. -/
theorem folderTable_distinct : DistinctNames folderTable := by
  have hordinary : OrdinaryNames folderTable := fun i node hmade =>
    @forall_entries folderTable
      (fun _ entry => shownName entry ≠ [] ∧ shownName entry ≠ [46] ∧ shownName entry ≠ [46, 46])
      (by decide) i node hmade.entry
  have happart := @folderTable_apart
  constructor
  · exact fun i node hnode hreg => ⟨hnode, .inr hreg, folderTable_made hnode⟩
  · exact hordinary
  · intro i j left right hleft hright hparents _ _ hnames
    by_contra hne
    exact (happart hleft.entry hright.entry hparents hne).1 hnames
  · intro i j left right hleft hright hparents _ _ hnames
    by_contra hne
    exact (happart hleft.entry hright.entry hparents hne).2.1 hnames
  · intro i j left right hleft hright hparents hreg hdir
    have hne : i ≠ j := by
      rintro rfl
      obtain rfl := Option.some.inj (hleft.entry.symm.trans hright.entry)
      rw [not_isReg_of_isDir hdir] at hreg
      exact Bool.false_ne_true hreg
    obtain ⟨hshown, -, hstored⟩ := happart hleft.entry hright.entry hparents hne
    exact ⟨hshown, hstored⟩
  · intro i j left right hleft hright hparents _ _ hlt hnames
    exact absurd hnames (happart hleft.entry hright.entry hparents hlt.ne).1
  · intro i node names hmade _ hpacked hnames
    have hi : i = 2 := @forall_entries folderTable (fun i entry => packed entry = true → i = 2)
      (by decide) i node hmade.entry hpacked
    subst hi
    obtain ⟨file, front, hfile, rfl, hfront⟩ := hnames.cases_nonneg
    obtain rfl := Option.some.inj hfile
    have hinside : PathTo folderTable (0 : ℕ) front := hfront
    obtain ⟨above, root, habove, rfl, hroot⟩ := hinside.cases_nonneg
    obtain rfl := Option.some.inj habove
    rw [ParentTable.pathTo_neg_one_iff.mp hroot]
    decide

set_option maxRecDepth 8000 in
theorem folderTable_plain : PlainTree folderTable where
  reached := folderTable_distinct.reached
  ordinary := folderTable_distinct.ordinary
  returns := ⟨_, rfl⟩

set_option maxRecDepth 8000 in
theorem createFilesystem_folderTable_shell :
    ∃ final, createFilesystem Commands.shellHost folderTable emptyDisk = .ok final :=
  ⟨_, rfl⟩

/-- Every file of the folder is in its place, the program packed, and the
names of the folder could not be otherwise. -/
theorem folderTable_stored :
    DistinctNames folderTable ∧ CollisionFree folderTable ∧
      ∃ final, createFilesystem Commands.shellHost folderTable emptyDisk = .ok final ∧
        ∀ (i : ℕ) node, folderTable[i]? = some node → node.isReg = true →
          Stored shellView folderTable final i node := by
  obtain ⟨hsafe, hback⟩ := reachable_stored ⟨_, mergeAll_folderTable⟩
  have hfolder := hsafe folderTable_distinct
  obtain ⟨final, hrun⟩ := createFilesystem_folderTable_shell
  exact ⟨hback folderTable_plain hfolder, hfolder.collisionFree, final, hrun,
    hfolder.stored Commands.shellHost shellView shellHost_lawful _ final hrun⟩

/-! ## Two names for one place -/

/-- The file `x`. -/
def rootFile : Members.Member where
  path := [ascii ['x']]
  slash := false
  content := TarHeader.fileContent
  nonempty := by decide
  depth := by decide
  components := by decide
  notDotted := by decide
  fits := by decide

/-- The file `_x` with other data. -/
def underscoredFile : Members.Member where
  path := [ascii ['_', 'x']]
  slash := false
  content := { TarHeader.fileContent with
    data := ascii ['h', 'o']
    sizeFits := by decide }
  nonempty := by decide
  depth := by decide
  components := by decide
  notDotted := by decide
  fits := by decide

/-- The two files. -/
def clashTable : Table :=
  [ fileInode (-1) ⟨ascii ['x'], by decide, by decide⟩ (ascii ['h', 'i']),
    fileInode (-1) ⟨ascii ['_', 'x'], by decide, by decide⟩ (ascii ['h', 'o']) ]

set_option maxRecDepth 4000 in
theorem mergeAll_clashTable :
    mergeAll ([rootFile, underscoredFile].map TarHeader.memberHeader) [] = .ok clashTable := by
  rfl

/-- Both files are `fs/x`, and the first one is lost. -/
theorem clashTable_overwritten :
    Reachable clashTable ∧ ¬ CollisionFree clashTable ∧
      ∃ final, createFilesystem Commands.shellHost clashTable emptyDisk = .ok final ∧
        ¬ Stored shellView clashTable final 0
          (fileInode (-1) ⟨ascii ['x'], by decide, by decide⟩ (ascii ['h', 'i'])) := by
  refine ⟨⟨_, mergeAll_clashTable⟩, ?_, _, rfl, ?_⟩
  · intro hfree
    exact absurd (hfree.files 0 1 _ _ _ _ _ _ rfl rfl (by decide) (by decide) rfl rfl
      (by decide)) (by decide)
  · rintro ⟨path, hidden, now, bytes, hpath, hnow, hread, hbytes⟩
    cases hpath
    cases hnow
    cases hread
    exact absurd hbytes (by decide)

end Tcb.Storage
