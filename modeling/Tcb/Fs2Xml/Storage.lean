import Tcb.Fs2Xml.Commands

/-!
# What is on the disk after the walk

Two inodes with different paths can have the same name on disk: a dot or
underscores in front of a component are gone, and `bzip2` renames what it
packs.  As long as the names that are left of siblings differ, every directory
and every file has a place of its own, and the data of a file is there when the
walk has ended.
-/

namespace Tcb.Storage

open Function
open Tcb.CString
open Tcb.Inodes
open Tcb.Split
open Tcb.MergeFile
open Tcb.TableShape
open Tcb.Paths
open Tcb.WalkDir
open Tcb.Placement
open Tcb.Shell

/-! ## Names on disk -/

/-- A component of a path as it appears on disk. -/
def shown (name : List Byte) : List Byte := (notHidden name).1

/-- The name under which an inode is made. -/
def shownName (node : Inode) : List Byte := shown (nameOf node)

/-- `bzip2` is run on the file. -/
def packed (node : Inode) : Bool :=
  shouldBeCompressed (nameOf node) node.data node.size = (.ok true : Run ExitReason Bool)

/-- What `bzip2` leaves of the path of a file. -/
def storedPath (node : Inode) (path : List Byte) : List Byte :=
  if packed node then path ++ bz2Suffix else path

def storedName (node : Inode) : List Byte := storedPath node (shownName node)

/-- A component that stands for itself in a location. -/
structure Ordinary (component : List Byte) : Prop where
  nonempty : component ≠ []
  notDot : component ≠ [46]
  notDotDot : component ≠ [46, 46]
  noSlash : 47 ∉ component

/-- The directories that the walk makes, the root among them. -/
inductive Directory (inodes : Table) : ℤ → Prop
  | root : Directory inodes (-1)
  | inside {i : ℕ} {node : Inode} (hnode : inodes[i]? = some node) (hdir : node.isDir = true)
      (hvisited : Preorder.Visited Inode.parentid Inode.isDir inodes i) : Directory inodes i

/-- The inodes other than the root that the walk makes something for. -/
structure Made (inodes : Table) (i : ℕ) (node : Inode) : Prop where
  entry : inodes[i]? = some node
  kind : node.isDir = true ∨ node.isReg = true
  visited : Preorder.Visited Inode.parentid Inode.isDir inodes i

/-- Something is left of every name, and it is no reference to a directory. -/
def OrdinaryNames (inodes : Table) : Prop :=
  ∀ i node, Made inodes i node →
    shownName node ≠ [] ∧ shownName node ≠ [46] ∧ shownName node ≠ [46, 46]

/-- The names that siblings have on disk differ, also while a file is packed,
and every regular file lies in directories only. -/
structure DistinctNames (inodes : Table) : Prop where
  reached : ∀ (i : ℕ) node, inodes[i]? = some node → node.isReg = true → Made inodes i node
  ordinary : OrdinaryNames inodes
  directories : ∀ i j left right, Made inodes i left → Made inodes j right →
    left.parentid = right.parentid → left.isDir = true → right.isDir = true →
      shownName left = shownName right → i = j
  files : ∀ i j left right, Made inodes i left → Made inodes j right →
    left.parentid = right.parentid → left.isReg = true → right.isReg = true →
      storedName left = storedName right → i = j
  apart : ∀ i j left right, Made inodes i left → Made inodes j right →
    left.parentid = right.parentid → left.isReg = true → right.isDir = true →
      shownName left ≠ shownName right ∧ storedName left ≠ shownName right
  inOrder : ∀ i j left right, Made inodes i left → Made inodes j right →
    left.parentid = right.parentid → left.isReg = true → right.isReg = true → i < j →
      shownName left = shownName right → packed right = true → packed left = true
  quotable : ∀ (i : ℕ) node names, Made inodes i node → node.isReg = true →
    packed node = true → PathTo inodes i names → quotable (fsRoot ++ shownPath names) = true

/-- Every directory and every file has a place of its own. -/
structure CollisionFree (inodes : Table) : Prop where
  files : ∀ (i j : ℕ) left right path path' hidden hidden', inodes[i]? = some left →
    inodes[j]? = some right → left.isReg = true → right.isReg = true →
      getFullPathNotHidden inodes fsRoot i = .ok (path, hidden) →
      getFullPathNotHidden inodes fsRoot j = .ok (path', hidden') →
        location (storedPath left path) = location (storedPath right path') → i = j
  apart : ∀ (i : ℕ) (id : ℤ) node path path' hidden hidden', inodes[i]? = some node →
    node.isReg = true → Directory inodes id →
      getFullPathNotHidden inodes fsRoot i = .ok (path, hidden) →
      getFullPathNotHidden inodes fsRoot id = .ok (path', hidden') →
        location path ≠ location path' ∧ location (storedPath node path) ≠ location path'
  directories : ∀ (left right : ℤ) path path' hidden hidden', Directory inodes left →
    Directory inodes right → getFullPathNotHidden inodes fsRoot left = .ok (path, hidden) →
      getFullPathNotHidden inodes fsRoot right = .ok (path', hidden') →
        location path = location path' → left = right

/-! ## Places -/

theorem shownPath_eq_joinedPath (names : List (List Byte)) :
    shownPath names = joinedPath (names.map shown) := by
  rw [joinedPath, List.flatMap_map]
  rfl

theorem joined_under (components : List (List Byte)) :
    fsRoot ++ joinedPath components = [47].intercalate (fsRoot :: components) := by
  cases components with
  | nil => rfl
  | cons part parts =>
      rw [joinedPath_eq_cons (List.cons_ne_nil part parts), List.intercalate_cons_cons]
      rfl

theorem location_intercalate {components : List (List Byte)} (hne : components ≠ [])
    (hordinary : ∀ component ∈ components, Ordinary component) :
    location ([47].intercalate components) = components := by
  have hfold : ∀ (rest above : List (List Byte)), (∀ component ∈ rest, Ordinary component) →
      rest.foldl (fun above component =>
        if component = [] ∨ component = [46] then above
        else if component = [46, 46] then above.dropLast
        else above ++ [component]) above = above ++ rest := by
    intro rest
    induction rest with
    | nil => simp
    | cons component rest ih =>
        intro above hrest
        obtain ⟨hcomponent, hrest⟩ := List.forall_mem_cons.mp hrest
        rw [List.foldl_cons, if_neg (not_or.mpr ⟨hcomponent.nonempty, hcomponent.notDot⟩),
          if_neg hcomponent.notDotDot, ih _ hrest, List.append_assoc]
        rfl
  rw [location, List.splitOn_intercalate 47 (fun part hpart => (hordinary part hpart).noSlash) hne]
  exact hfold components [] hordinary

theorem ordinary_fsRoot : Ordinary fsRoot := ⟨by decide, by decide, by decide, by decide⟩

theorem location_joined {components : List (List Byte)}
    (hordinary : ∀ component ∈ components, Ordinary component) :
    location (fsRoot ++ joinedPath components) = fsRoot :: components := by
  rw [joined_under]
  exact location_intercalate (List.cons_ne_nil _ _)
    (List.forall_mem_cons.mpr ⟨ordinary_fsRoot, hordinary⟩)

/-- The suffix makes an ordinary component of anything without a slash. -/
theorem ordinary_packed {component : List Byte} (hslash : 47 ∉ component) :
    Ordinary (component ++ bz2Suffix) where
  nonempty := by simp [bz2Suffix, ascii]
  notDot := fun heq => by simpa [bz2Suffix, ascii] using congrArg List.length heq
  notDotDot := fun heq => by simpa [bz2Suffix, ascii] using congrArg List.length heq
  noSlash := by
    rw [List.mem_append, not_or]
    exact ⟨hslash, by decide⟩

section Places

variable {inodes : Table} {i j : ℕ} {node left right : Inode}

theorem shownName_noSlash (hreach : Reachable inodes) (hnode : inodes[i]? = some node) :
    47 ∉ shownName node := by
  intro hslash
  exact name_of_mem hreach (List.mem_of_getElem? hnode) ((notHidden_suffix _).subset hslash)

theorem Made.ordinary_shown (hreach : Reachable inodes) (hordinary : OrdinaryNames inodes)
    (hmade : Made inodes i node) : Ordinary (shownName node) := by
  obtain ⟨hnonempty, hdot, hdotdot⟩ := hordinary i node hmade
  exact ⟨hnonempty, hdot, hdotdot, shownName_noSlash hreach hmade.entry⟩

theorem Made.ordinary_stored (hreach : Reachable inodes) (hordinary : OrdinaryNames inodes)
    (hmade : Made inodes i node) : Ordinary (storedName node) := by
  unfold storedName storedPath
  split
  · exact ordinary_packed (shownName_noSlash hreach hmade.entry)
  · exact hmade.ordinary_shown hreach hordinary

theorem Made.parent (hmade : Made inodes i node) : Directory inodes node.parentid := by
  have hsame : ∀ {entry : Inode}, inodes[i]? = some entry → entry = node :=
    fun hentry => Option.some.inj (hentry.symm.trans hmade.entry)
  cases hmade.visited with
  | top hentry hparent => exact hsame hentry ▸ hparent ▸ .root
  | inside hentry hparent habove hopens hup =>
      exact hsame hentry ▸ hparent ▸ .inside habove hopens hup

theorem Directory.made (hdirectory : Directory inodes (i : ℤ)) (hnode : inodes[i]? = some node) :
    Made inodes i node ∧ node.isDir = true := by
  generalize hid : (i : ℤ) = id at hdirectory
  cases hdirectory with
  | root => omega
  | inside hnode' hdir hvisited =>
      obtain rfl := Int.ofNat.inj hid
      obtain rfl := Option.some.inj (hnode.symm.trans hnode')
      exact ⟨⟨hnode, .inl hdir, hvisited⟩, hdir⟩

theorem Directory.ordinary (hreach : Reachable inodes) (hordinary : OrdinaryNames inodes)
    {id : ℤ} {names : List (List Byte)} (hdirectory : Directory inodes id)
    (hpath : PathTo inodes id names) : ∀ component ∈ names.map shown, Ordinary component := by
  induction hpath with
  | root => simp
  | child hentry hfront ih =>
      have hmade := (hdirectory.made hentry).1
      rw [List.map_append, List.map_singleton]
      intro component hcomponent
      rcases List.mem_append.mp hcomponent with hfront | hlast
      · exact ih hmade.parent component hfront
      · rw [List.mem_singleton.mp hlast]
        exact hmade.ordinary_shown hreach hordinary

/-- Directories with the same names on disk all the way are the same. -/
theorem Directory.injective (hdistinct : DistinctNames inodes) {one other : ℤ}
    {names names' : List (List Byte)} (hone : Directory inodes one)
    (hother : Directory inodes other) (hpath : PathTo inodes one names)
    (hpath' : PathTo inodes other names') (hsame : names.map shown = names'.map shown) :
    one = other := by
  induction hpath generalizing other names' with
  | root =>
      rcases hpath'.index_cases with ⟨rfl, -⟩ | ⟨index, rfl, -⟩
      · rfl
      · obtain ⟨_, _, -, rfl, -⟩ := hpath'.cases_nonneg
        simp at hsame
  | @child index entry front hentry hfront ih =>
      rcases hpath'.index_cases with ⟨rfl, rfl⟩ | ⟨index', rfl, -⟩
      · simp at hsame
      · obtain ⟨entry', front', hentry', rfl, hfront'⟩ := hpath'.cases_nonneg
        rw [List.map_append, List.map_append] at hsame
        obtain ⟨hfronts, hlasts⟩ := List.append_inj' hsame rfl
        obtain ⟨hmade, hdir⟩ := hone.made hentry
        obtain ⟨hmade', hdir'⟩ := hother.made hentry'
        have hparents := ih hmade.parent hmade'.parent hfront' hfronts
        rw [hdistinct.directories index index' entry entry' hmade hmade' hparents hdir hdir'
          (List.cons.inj hlasts).1]

/-- An inode and the path under which it is made. -/
structure OnDisk (inodes : Table) (i : ℕ) (node : Inode) (front : List (List Byte))
    (path : List Byte) : Prop where
  made : Made inodes i node
  hfront : PathTo inodes node.parentid front
  hpath : path = fsRoot ++ joinedPath (front.map shown ++ [shownName node])

theorem Made.onDisk (hreach : Reachable inodes) (hmade : Made inodes i node) {path : List Byte}
    {hidden : Bool} (hrun : getFullPathNotHidden inodes fsRoot i = .ok (path, hidden)) :
    ∃ front, OnDisk inodes i node front path := by
  have hshape := reachable_shape hreach
  obtain ⟨names, hnames⟩ := ParentTable.Shape.pathTo_exists hshape
    (List.getElem?_eq_some_iff.mp hmade.entry).1
  obtain ⟨entry, front, hentry, rfl, hfront⟩ := id hnames.cases_nonneg
  obtain rfl := Option.some.inj (hmade.entry.symm.trans hentry)
  rw [getFullPathNotHidden_eq hshape hnames] at hrun
  split at hrun
  · rw [Except.ok.injEq, Prod.mk.injEq] at hrun
    refine ⟨front, hmade, hfront, ?_⟩
    rw [← hrun.1, shownPath_eq_joinedPath, List.map_append]
    rfl
  · exact absurd hrun (Run.fault_ne_ok _ _)

variable {front front' : List (List Byte)} {path path' : List Byte}

theorem OnDisk.location_below (hreach : Reachable inodes) (hordinary : OrdinaryNames inodes)
    (hdisk : OnDisk inodes i node front path) {component : List Byte}
    (hcomponent : Ordinary component) :
    location (fsRoot ++ joinedPath (front.map shown ++ [component])) =
      fsRoot :: (front.map shown ++ [component]) := by
  apply location_joined
  intro other hother
  rcases List.mem_append.mp hother with hfront | hlast
  · exact hdisk.made.parent.ordinary hreach hordinary hdisk.hfront other hfront
  · rw [List.mem_singleton.mp hlast]
    exact hcomponent

theorem OnDisk.location_path (hreach : Reachable inodes) (hordinary : OrdinaryNames inodes)
    (hdisk : OnDisk inodes i node front path) :
    location path = fsRoot :: (front.map shown ++ [shownName node]) := by
  rw [hdisk.hpath]
  exact hdisk.location_below hreach hordinary (hdisk.made.ordinary_shown hreach hordinary)

theorem OnDisk.location_stored (hreach : Reachable inodes) (hordinary : OrdinaryNames inodes)
    (hdisk : OnDisk inodes i node front path) :
    location (storedPath node path) = fsRoot :: (front.map shown ++ [storedName node]) := by
  have hstored : storedPath node path =
      fsRoot ++ joinedPath (front.map shown ++ [storedName node]) := by
    unfold storedName storedPath
    split <;> simp [hdisk.hpath]
  rw [hstored]
  exact hdisk.location_below hreach hordinary (hdisk.made.ordinary_stored hreach hordinary)

/-- What is in the same place lies in the same directory under the same name. -/
theorem OnDisk.siblings (hdistinct : DistinctNames inodes)
    (hleft : OnDisk inodes i left front path) (hright : OnDisk inodes j right front' path')
    {component component' : List Byte}
    (hsame : fsRoot :: (front.map shown ++ [component]) =
      fsRoot :: (front'.map shown ++ [component'])) :
    left.parentid = right.parentid ∧ component = component' := by
  obtain ⟨hfronts, hlast⟩ := List.append_inj' (List.cons.inj hsame).2 rfl
  exact ⟨hleft.made.parent.injective hdistinct hright.made.parent hleft.hfront hright.hfront
    hfronts, (List.cons.inj hlast).1⟩

theorem Directory.location (hreach : Reachable inodes) (hordinary : OrdinaryNames inodes) {id : ℤ}
    {names : List (List Byte)} (hdirectory : Directory inodes id) (hnames : PathTo inodes id names)
    {hidden : Bool} (hrun : getFullPathNotHidden inodes fsRoot id = .ok (path, hidden)) :
    location path = fsRoot :: names.map shown := by
  rw [getFullPathNotHidden_eq (reachable_shape hreach) hnames] at hrun
  split at hrun
  · rw [Except.ok.injEq, Prod.mk.injEq] at hrun
    rw [← hrun.1, shownPath_eq_joinedPath]
    exact location_joined (hdirectory.ordinary hreach hordinary hnames)
  · exact absurd hrun (Run.fault_ne_ok _ _)

theorem Directory.pathTo_exists (hreach : Reachable inodes) {id : ℤ}
    (hdirectory : Directory inodes id) : ∃ names, PathTo inodes id names := by
  cases hdirectory with
  | root => exact ⟨[], .root⟩
  | inside hnode =>
      exact ParentTable.Shape.pathTo_exists (reachable_shape hreach)
        (List.getElem?_eq_some_iff.mp hnode).1

/-- A file is not in the place of a directory, and `bzip2` does not put it
there. -/
theorem OnDisk.apart (hreach : Reachable inodes) (hdistinct : DistinctNames inodes)
    (hdisk : OnDisk inodes i node front path) (hreg : node.isReg = true) {id : ℤ}
    (hdirectory : Directory inodes id) {hidden : Bool}
    (hrun : getFullPathNotHidden inodes fsRoot id = .ok (path', hidden)) :
    location path ≠ location path' ∧ location (storedPath node path) ≠ location path' := by
  rw [hdisk.location_path hreach hdistinct.ordinary,
    hdisk.location_stored hreach hdistinct.ordinary]
  cases hdirectory with
  | root =>
      rw [Directory.root.location hreach hdistinct.ordinary .root hrun]
      simp
  | @inside j right hnode hdir hvisited =>
      have hmade : Made inodes j right := ⟨hnode, .inl hdir, hvisited⟩
      obtain ⟨front', hdisk'⟩ := hmade.onDisk hreach hrun
      rw [hdisk'.location_path hreach hdistinct.ordinary]
      constructor
      · intro hsame
        obtain ⟨hparents, hnames⟩ := hdisk.siblings hdistinct hdisk' hsame
        exact (hdistinct.apart i j node right hdisk.made hmade hparents hreg hdir).1 hnames
      · intro hsame
        obtain ⟨hparents, hnames⟩ := hdisk.siblings hdistinct hdisk' hsame
        exact (hdistinct.apart i j node right hdisk.made hmade hparents hreg hdir).2 hnames

theorem collisionFree (hreach : Reachable inodes) (hdistinct : DistinctNames inodes) :
    CollisionFree inodes where
  files i j left right path path' hidden hidden' hleft hright hreg hreg' hrun hrun' hsame := by
    have hmade := hdistinct.reached i left hleft hreg
    have hmade' := hdistinct.reached j right hright hreg'
    obtain ⟨front, hdisk⟩ := hmade.onDisk hreach hrun
    obtain ⟨front', hdisk'⟩ := hmade'.onDisk hreach hrun'
    rw [hdisk.location_stored hreach hdistinct.ordinary,
      hdisk'.location_stored hreach hdistinct.ordinary] at hsame
    obtain ⟨hparents, hnames⟩ := hdisk.siblings hdistinct hdisk' hsame
    exact hdistinct.files i j left right hmade hmade' hparents hreg hreg' hnames
  apart i id node path path' hidden hidden' hnode hreg hdirectory hrun hrun' := by
    obtain ⟨front, hdisk⟩ := (hdistinct.reached i node hnode hreg).onDisk hreach hrun
    exact hdisk.apart hreach hdistinct hreg hdirectory hrun'
  directories left right path path' hidden hidden' hleft hright hrun hrun' hsame := by
    obtain ⟨names, hnames⟩ := hleft.pathTo_exists hreach
    obtain ⟨names', hnames'⟩ := hright.pathTo_exists hreach
    rw [hleft.location hreach hdistinct.ordinary hnames hrun,
      hright.location hreach hdistinct.ordinary hnames' hrun'] at hsame
    exact hleft.injective hdistinct hright hnames hnames' (List.cons.inj hsame).2

theorem OnDisk.path_eq (hdisk : OnDisk inodes i node front path) {names : List (List Byte)}
    (hnames : PathTo inodes i names) : path = fsRoot ++ shownPath names := by
  rw [hdisk.hpath, hnames.unique (.child hdisk.made.entry hdisk.hfront),
    shownPath_eq_joinedPath, List.map_append]
  rfl

theorem OnDisk.quotable_path (hdistinct : DistinctNames inodes)
    (hdisk : OnDisk inodes i node front path) (hreg : node.isReg = true)
    (hpacked : packed node = true) : quotable path = true := by
  have hnames : PathTo inodes i (front ++ [nameOf node]) := .child hdisk.made.entry hdisk.hfront
  rw [hdisk.path_eq hnames]
  exact hdistinct.quotable i node _ hdisk.made hreg hpacked hnames

/-- `bzip2` is not run on what it has made. -/
theorem not_packed_of_suffix (hsuffix : bz2Suffix <:+ nameOf node) : packed node = false := by
  have hany : packedSuffixes.any (endsWith (nameOf node)) = true := by
    rw [List.any_eq_true]
    exact ⟨bz2Suffix, by decide, List.isSuffixOf_iff_suffix.mpr hsuffix⟩
  have hrun : shouldBeCompressed (nameOf node) node.data node.size = .ok false := by
    rw [shouldBeCompressed.eq_def, if_pos hany, ite_self]
  rw [packed, hrun]
  rfl

/-- A file that is written later is written elsewhere, whether or not it is
packed then. -/
theorem OnDisk.elsewhere (hreach : Reachable inodes) (hdistinct : DistinctNames inodes)
    (hdisk : OnDisk inodes i left front path) (hdisk' : OnDisk inodes j right front' path')
    (hreg : left.isReg = true) (hreg' : right.isReg = true) (hne : i ≠ j)
    (hlater : left.parentid = right.parentid → i < j) :
    location (storedPath left path) ≠ location path' ∧
      location (storedPath left path) ≠ location (storedPath right path') := by
  rw [hdisk.location_stored hreach hdistinct.ordinary,
    hdisk'.location_stored hreach hdistinct.ordinary,
    hdisk'.location_path hreach hdistinct.ordinary]
  have hstored : left.parentid = right.parentid → storedName left ≠ storedName right :=
    fun hparents hnames => hne (hdistinct.files i j left right hdisk.made hdisk'.made hparents
      hreg hreg' hnames)
  constructor
  · intro hsame
    obtain ⟨hparents, hnames⟩ := hdisk.siblings hdistinct hdisk' hsame
    -- the later file would be packed, and its name is free again afterwards
    have hpacked' : packed right = true := by
      by_contra hnot
      apply hstored hparents
      rw [hnames, storedName, storedPath, if_neg hnot]
    cases hpacked : packed left with
    | false =>
        rw [storedName, storedPath, hpacked, if_neg Bool.false_ne_true] at hnames
        have hfirst := hdistinct.inOrder i j left right hdisk.made hdisk'.made hparents hreg hreg'
          (hlater hparents) hnames hpacked'
        rw [hpacked] at hfirst
        exact Bool.false_ne_true hfirst
    | true =>
        rw [storedName, storedPath, hpacked, if_pos rfl] at hnames
        have hsuffix : bz2Suffix <:+ shownName right := hnames ▸ List.suffix_append _ _
        rw [not_packed_of_suffix (hsuffix.trans (notHidden_suffix _))] at hpacked'
        exact Bool.false_ne_true hpacked'
  · intro hsame
    obtain ⟨hparents, hnames⟩ := hdisk.siblings hdistinct hdisk' hsame
    exact hstored hparents hnames

end Places

/-! ## Files -/

/-- How a disk is seen: the file at a place, the place of an open file, and
what a packed file is unpacked to. -/
structure DiskView (host : Host) where
  read : host.Disk → List (List Byte) → Option (List Byte)
  place : host.File → List (List Byte)
  bunzip2 : List Byte → Option (List Byte)

/-- The calls do what their names say. -/
structure Lawful (host : Host) (view : DiskView host) : Prop where
  mkdir : ∀ path disk, view.read (host.mkdir path disk) = view.read disk
  fopen : ∀ {path disk fp opened}, host.fopen path disk = some (fp, opened) →
    view.place fp = location path ∧
      view.read opened = update (view.read disk) (location path) (some [])
  fwrite : ∀ {fp disk} bytes, view.read disk (view.place fp) = some [] →
    view.read (host.fwrite fp bytes disk) = update (view.read disk) (view.place fp) (some bytes)
  fclose : ∀ fp disk, view.read (host.fclose fp disk) = view.read disk
  bzip2 : ∀ {path disk bytes}, quotable path = true →
    view.read disk (location path) = some bytes → ∃ packed, view.bunzip2 packed = some bytes ∧
      view.read (host.system (bzip2Command path) disk) =
        update (update (view.read disk) (location path) none) (location (path ++ bz2Suffix))
          (some packed)

/-- `data[0..size)`. -/
def contents (node : Inode) : List Byte := (node.data.getD []).take node.size.toNat

/-- The bytes are the data of an inode, or unpack to them. -/
def Holds {host : Host} (view : DiskView host) (node : Inode) (bytes : List Byte) : Prop :=
  if packed node then view.bunzip2 bytes = some (contents node) else bytes = contents node

section Files

variable {host : Host} {view : DiskView host} {inodes : Table} {i j : ℕ} {node : Inode}
  {state next : WalkState host} {path : List Byte}

theorem writeData_read (hlawful : Lawful host view) {fp : host.File} {disk written : host.Disk}
    (hempty : view.read disk (view.place fp) = some [])
    (hrun : writeData host fp node disk = .ok written) :
    view.read written = update (view.read disk) (view.place fp) (some (contents node)) := by
  rw [writeData] at hrun
  split at hrun
  · rename_i hsize
    rw [Except.ok.injEq] at hrun
    rw [← hrun, contents, hsize]
    exact (update_eq_self_iff.mpr hempty.symm).symm
  · cases hdata : node.data with
    | none =>
        simp only [hdata] at hrun
        exact absurd hrun (Run.fault_ne_ok _ _)
    | some bytes =>
        simp only [hdata, Run.bind_eq_ok, Run.pure_eq_ok, Except.ok.injEq] at hrun
        obtain ⟨_, -, rfl⟩ := hrun
        rw [hlawful.fwrite _ hempty, contents, hdata]
        rfl

/-- What the visit of a file does to the disk before `bzip2` is run. -/
theorem written_closed (hlawful : Lawful host view) {hidden compress : Bool} {src : CArray 128}
    (hwritten : Written i state next node path hidden compress src) :
    packed node = compress ∧ ∃ closed,
      view.read closed = update (view.read state.disk) (location path) (some (contents node)) ∧
      next.disk = if compress then host.system (bzip2Command path) closed else closed := by
  obtain ⟨fp, opened, disk, hopen, hdata, hnext⟩ := hwritten.hstored
  obtain ⟨hplace, hopened⟩ := hlawful.fopen hopen
  have hempty : view.read opened (view.place fp) = some [] := by
    rw [hopened, hplace, update_self]
  constructor
  · rw [packed, hwritten.hcompress]
    cases compress <;> simp
  · refine ⟨host.fclose fp disk, ?_, hnext⟩
    rw [hlawful.fclose, writeData_read hlawful hempty hdata, hopened, hplace, update_idem]

/-- A file that was written is in its place, its first place is free when it
was packed, and everything else is as it was. -/
theorem written_read (hlawful : Lawful host view) {hidden compress : Bool} {src : CArray 128}
    (hwritten : Written i state next node path hidden compress src)
    (hquotable : packed node = true → quotable path = true) :
    (∃ bytes, view.read next.disk (location (storedPath node path)) = some bytes ∧
      Holds view node bytes) ∧
    (packed node = true → location path ≠ location (storedPath node path) →
      view.read next.disk (location path) = none) ∧
    ∀ place, place ≠ location path → place ≠ location (storedPath node path) →
      view.read next.disk place = view.read state.disk place := by
  obtain ⟨hpacked, closed, hclosed, hnext⟩ := written_closed hlawful hwritten
  rw [hnext]
  cases compress with
  | false =>
      rw [if_neg Bool.false_ne_true, hclosed, storedPath, hpacked, if_neg Bool.false_ne_true]
      refine ⟨⟨contents node, update_self _ _ _, ?_⟩, fun hfalse => absurd hfalse
        Bool.false_ne_true, fun place hne _ => update_of_ne hne _ _⟩
      rw [Holds, hpacked, if_neg Bool.false_ne_true]
  | true =>
      rw [if_pos rfl, storedPath, hpacked, if_pos rfl]
      obtain ⟨bytes, hunpacked, hread⟩ :=
        hlawful.bzip2 (hquotable hpacked) (hclosed ▸ update_self _ _ _)
      rw [hread, hclosed]
      refine ⟨⟨bytes, update_self _ _ _, ?_⟩, fun _ hne => ?_, fun place hne hne' => ?_⟩
      · rw [Holds, hpacked, if_pos rfl]
        exact hunpacked
      · rw [update_of_ne hne, update_self]
      · rw [update_of_ne hne', update_of_ne hne, update_of_ne hne]

/-- What is stored stays there while another inode is visited. -/
theorem visitInode_read (hlawful : Lawful host view) (hreach : Reachable inodes)
    (hdistinct : DistinctNames inodes) (hsame : SameTree inodes state.inodes)
    (hrun : visitInode state j = .ok next)
    {front : List (List Byte)} (hdisk : OnDisk inodes i node front path)
    (hreg : node.isReg = true) (hne : i ≠ j)
    (hlater : ∀ other, inodes[j]? = some other → node.parentid = other.parentid → i < j) :
    view.read next.disk (location (storedPath node path)) =
      view.read state.disk (location (storedPath node path)) := by
  obtain ⟨now, hnow, ⟨-, hmake⟩ | ⟨hisreg, hwrite⟩ | ⟨-, -, rfl⟩⟩ := visitInode_eq_ok.mp hrun
  · obtain ⟨_, _, -, rfl⟩ := makeDir_eq_ok.mp hmake
    exact congrFun (hlawful.mkdir _ _) _
  · obtain ⟨now', path', hidden, compress, src, hwritten⟩ := writeFile_written hwrite
    obtain rfl : now = now' := Option.some.inj (hnow.symm.trans hwritten.hentry)
    obtain ⟨other, hother, hfixed⟩ := hsame.symm.getElem? hnow
    have hpacked : packed other = packed now := (congrArg packed hfixed :)
    have hotherReg : other.isReg = true := (congrArg Inode.isReg hfixed :).trans hisreg
    have hmade := hdistinct.reached j other hother hotherReg
    obtain ⟨names, hnames⟩ := ParentTable.Shape.pathTo_exists (reachable_shape hreach)
      (List.getElem?_eq_some_iff.mp hother).1
    have hpath : getFullPathNotHidden inodes fsRoot j = .ok (path', hidden) := by
      rw [← getFullPathNotHidden_sameTree (reachable_shape hreach) hsame fsRoot hnames]
      exact hwritten.hpath
    obtain ⟨front', hdisk'⟩ := hmade.onDisk hreach hpath
    obtain ⟨hwriting, hstored⟩ :=
      hdisk.elsewhere hreach hdistinct hdisk' hreg hotherReg hne (hlater other hother)
    have hquotable : packed now = true → quotable path' = true :=
      fun hnow => hdisk'.quotable_path hdistinct hotherReg (hpacked.trans hnow)
    have hplace : storedPath other path' = storedPath now path' := by
      rw [storedPath, hpacked, ← storedPath]
    rw [hplace] at hstored
    exact (written_read hlawful hwritten hquotable).2.2 _ hwriting hstored
  · rfl

/-- After the walk the file of an inode holds its data, packed when the inode
says so. -/
def Stored (view : DiskView host) (inodes : Table) (final : WalkState host) (i : ℕ)
    (node : Inode) : Prop :=
  ∃ path hidden now bytes, getFullPathNotHidden inodes fsRoot i = .ok (path, hidden) ∧
    final.inodes[i]? = some now ∧
    view.read final.disk (location (if now.compressed then path ++ bz2Suffix else path)) =
      some bytes ∧
    if now.compressed then view.bunzip2 bytes = some (contents node) else bytes = contents node

theorem createFilesystem_stored (hlawful : Lawful host view) (hreach : Reachable inodes)
    (hdistinct : DistinctNames inodes) {disk : host.Disk} {final : WalkState host}
    (hrun : createFilesystem host inodes disk = .ok final) (hnode : inodes[i]? = some node)
    (hreg : node.isReg = true) : Stored view inodes final i node := by
  have hshape := reachable_shape hreach
  have hmade := hdistinct.reached i node hnode hreg
  obtain ⟨path, hidden, compress, hplaced⟩ :=
    createFilesystem_placed hshape hrun hnode hreg hmade.visited
  obtain ⟨front, hdisk⟩ := hmade.onDisk hreach hplaced.hpath
  obtain ⟨before, after, start, middle, written, hsplit, -, hafter, -, hwrite, hback, -, hsame,
    hmiddle, -⟩ := createFilesystem_split hshape hrun hnode hreg hmade.visited
  -- the file is stored when its turn comes
  obtain ⟨node', path', hidden', compress', src, hwritten⟩ := writeFile_written hwrite
  obtain rfl : node = node' := Option.some.inj (hmiddle.symm.trans hwritten.hentry)
  obtain ⟨names, hnames⟩ := ParentTable.Shape.pathTo_exists hshape
    (List.getElem?_eq_some_iff.mp hnode).1
  have hpath := hwritten.hpath.symm.trans
    ((getFullPathNotHidden_sameTree hshape hsame fsRoot hnames).trans hplaced.hpath)
  rw [Except.ok.injEq, Prod.mk.injEq] at hpath
  rw [hpath.1] at hwritten
  have hwrittenSame : SameTree middle.inodes written.inodes := hwritten.sameTree
  obtain ⟨⟨bytes, hread, hholds⟩, -⟩ :=
    written_read hlawful hwritten fun hpacked => hdisk.quotable_path hdistinct hreg hpacked
  -- and no later one is put in its place
  have hlater : ∀ j ∈ after, ∀ other, inodes[j]? = some other →
      node.parentid = other.parentid → i < j := by
    have horder := @Preorder.ParentsFirst.pairwise_siblings _ _ Inode.isDir _
      (parentsFirst hshape) (inodes.length + 1) (-1)
    rw [← visits, hsplit, List.pairwise_append, List.pairwise_cons] at horder
    exact fun j hj other hother => horder.2.1.1 j hj node other hnode hother
  have hfinal := Run.foldlM_invariant (fun reached => SameTree inodes reached.inodes ∧
    view.read reached.disk (location (storedPath node path)) = some bytes) hback
    ⟨hsame.trans hwrittenSame, hread⟩ (by
      rintro reached j next hj ⟨hreached, hstill⟩ hstep
      have hne : i ≠ j := fun heq => hafter (heq ▸ hj)
      refine ⟨hreached.trans (visitInode_sameTree hstep), ?_⟩
      rw [visitInode_read hlawful hreach hdistinct hreached hstep hdisk hreg hne (hlater j hj),
        hstill])
  obtain ⟨now, hnow, -, hcompressed⟩ := hplaced.hnow
  have hpacked : packed node = now.compressed := by
    rw [hcompressed, (fresh_of_mem hreach node (List.mem_of_getElem? hnode)).2.1, Bool.or_false,
      packed, hplaced.hcompress]
    cases compress <;> rfl
  rw [Holds, hpacked] at hholds
  rw [storedPath, hpacked] at hfinal
  exact ⟨path, hidden, now, bytes, hplaced.hpath, hnow, hfinal.2, hholds⟩

/-- Nothing is overwritten: every directory and every file has a place of its
own, and after a walk each file holds its data. -/
structure Safe (inodes : Table) : Prop where
  collisionFree : CollisionFree inodes
  stored : ∀ (host : Host) (view : DiskView host), Lawful host view →
    ∀ (disk : host.Disk) (final : WalkState host),
      createFilesystem host inodes disk = .ok final →
        ∀ (i : ℕ) node, inodes[i]? = some node → node.isReg = true →
          Stored view inodes final i node

theorem safe_of_distinctNames (hreach : Reachable inodes) (hdistinct : DistinctNames inodes) :
    Safe inodes where
  collisionFree := collisionFree hreach hdistinct
  stored _ _ hlawful _ _ hrun _ _ hnode hreg :=
    createFilesystem_stored hlawful hreach hdistinct hrun hnode hreg

end Files

/-! ## Files in memory -/

/-- A file that the `bzip2` in memory has packed starts with two bytes more. -/
def unpack : List Byte → Option (List Byte)
  | 66 :: 90 :: bytes => some bytes
  | _ => none

def shellView : DiskView Commands.shellHost where
  read disk := disk
  place fp := fp
  bunzip2 := unpack

theorem drop_bzip2Command (path : List Byte) :
    ((bzip2Command path).drop 10).take ((bzip2Command path).length - 12) = path := by
  have hlength : (bzip2Command path).length - 12 = path.length := by
    simp [bzip2Command, ascii]
  rw [hlength, bzip2Command, List.append_assoc]
  exact List.take_left

theorem memoryHost_bzip2 {path bytes : List Byte} {disk : memoryHost.Disk}
    (hread : disk (location path) = some bytes) :
    memoryHost.system (bzip2Command path) disk =
      update (update disk (location path) none) (location (path ++ bz2Suffix))
        (some (66 :: 90 :: bytes)) := by
  simp only [memoryHost, drop_bzip2Command, hread]

theorem shellHost_lawful : Lawful Commands.shellHost shellView where
  mkdir _ _ := rfl
  fopen := by
    intro path disk fp opened hopen
    simp only [Commands.shellHost, memoryHost] at hopen
    split at hopen
    · cases hopen
    · cases hopen
      exact ⟨rfl, rfl⟩
  fwrite _ _ := rfl
  fclose _ _ := rfl
  bzip2 := by
    intro path disk bytes hquotable hread
    have hwords : shellWords (bzip2Command path) = some [_, _, path] :=
      (Commands.namesFile_iff path).mpr hquotable
    refine ⟨66 :: 90 :: bytes, rfl, ?_⟩
    rw [← memoryHost_bzip2 hread]
    simp only [Commands.shellHost, hwords]
    rfl

end Tcb.Storage
