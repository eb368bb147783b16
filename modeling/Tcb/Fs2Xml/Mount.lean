import Tcb.Core.FirstWins
import Tcb.Fs2Xml.ManifestText
import Tcb.Fs2Xml.Hierarchy
import Tcb.Fs2Xml.Main

/-!
# Mounting what was written

Somebody who has a manifest and the files below `fs`, but none of the archives,
reads the manifest, looks every file up where the manifest says that it is, and
unpacks it when the manifest says that it is compressed.  What he gets is the
table, without what no manifest tells.
-/

namespace Tcb.Mount

open Function
open Tcb.CString
open Tcb.Literals
open Tcb.Numerals
open Tcb.Inodes
open Tcb.Split
open Tcb.MergeFile
open Tcb.TableShape
open Tcb.Paths
open Tcb.Members
open Tcb.WalkDir
open Tcb.Placement
open Tcb.Manifest
open Tcb.Forest
open Tcb.Storage
open Tcb.Hierarchy
open Tcb.ManifestText

/-! ## The reader -/

/-- What there is to be seen under a path. -/
structure Item where
  mode : Mode
  uid : ℤ
  gid : ℤ
  target : List Byte
  bytes : List Byte
  deriving DecidableEq

/-- What can be seen of an inode: neither its time nor the owner of a link. -/
def visible (attributes : Attributes) : Item where
  mode := attributes.mode
  uid := if attributes.mode &&& S_IFMT = S_IFLNK then 0 else attributes.uid
  gid := if attributes.mode &&& S_IFMT = S_IFLNK then 0 else attributes.gid
  target := if attributes.mode &&& S_IFMT = S_IFLNK then attributes.link else []
  bytes := if attributes.mode &&& S_IFMT = S_IFREG then
    (attributes.data.getD []).take attributes.size.toNat else []

mutual

/-- The entries of a manifest with their paths, every directory in front of
what is inside it. -/
def listTree (above : List (List Byte)) : Tree → List (List (List Byte) × Label)
  | .node label inside =>
      (above ++ [label.name], label) :: listTrees (above ++ [label.name]) inside

def listTrees (above : List (List Byte)) : List Tree → List (List (List Byte) × Label)
  | [] => []
  | tree :: rest => listTree above tree ++ listTrees above rest

end

section Reader

variable {host : Host} (view : DiskView host)

/-- The bytes of a file: `src`, or else the path in the manifest, says where
they are. -/
def fileAt (disk : host.Disk) (folder : List Byte) (names : List (List Byte)) (label : Label) :
    Option (List Byte) :=
  let path := folder ++ if label.src ≠ [] then label.src else [47].intercalate names
  if label.compressed = one then
    (view.read disk (location (path ++ bz2Suffix))).bind view.bunzip2
  else view.read disk (location path)

def bytesAt (disk : host.Disk) (folder : List Byte) (names : List (List Byte)) (label : Label) :
    Option (List Byte) :=
  if label.kind = .file then fileAt view disk folder names label else some []

/-- One entry; a file must have the size that the manifest says. -/
def readItem (disk : host.Disk) (folder : List Byte) (entry : List (List Byte) × Label) :
    Option (List (List Byte) × Item) := do
  let mode ← numeral 8 entry.2.mode
  let uid ← integer entry.2.uid
  let gid ← integer entry.2.gid
  let size ← integer entry.2.size
  let bytes ← bytesAt view disk folder entry.1 entry.2
  if (bytes.length : ℤ) = size then
    return (entry.1, {
      mode := BitVec.ofNat 32 mode
      uid := uid
      gid := gid
      target := entry.2.path
      bytes := bytes })
  else none

/-- Everything that a manifest lists; `read` understands its format. -/
def mount (read : List Byte → Option (List Byte × List Tree)) (manifest : List Byte)
    (disk : host.Disk) : Option (List (List (List Byte) × Item)) := do
  let text ← view.read disk (location manifest)
  let (folder, trees) ← read text
  (listTrees [] trees).mapM (readItem view disk folder)

end Reader

/-- The items are the inodes, each under its path. -/
structure Shows (inodes : Table) (items : List (List (List Byte) × Item)) : Prop where
  length : items.length = inodes.length
  lookup : ∀ path item, items.lookup path = some item ↔ ∃ (i : ℕ) (node : Inode),
    inodes[i]? = some node ∧ PathTo inodes i path ∧ visible (attributes node) = item

/-! ## The entries of the forest -/

section Listing

variable {inodes : Table} {i : ℕ} {node : Inode}

def kindOf (node : Inode) : Forest.Kind :=
  if node.isDir then .dir else if node.isReg then .file else .link

/-- The entry of an inode. -/
def Lists (inodes : Table) (i : ℕ) (entry : List (List Byte) × Label) : Prop :=
  ∃ node, inodes[i]? = some node ∧ PathTo inodes i entry.1 ∧
    entry.2 = labelOf (kindOf node) node

theorem listTrees_append (above : List (List Byte)) (left right : List Tree) :
    listTrees above (left ++ right) = listTrees above left ++ listTrees above right := by
  induction left with
  | nil => rfl
  | cons tree rest ih => rw [List.cons_append, listTrees, listTrees, ih, List.append_assoc]

theorem listTrees_flatMap {α : Type} (above : List (List Byte)) (trees : α → List Tree)
    (items : List α) :
    listTrees above (items.flatMap trees) =
      items.flatMap fun item => listTrees above (trees item) := by
  induction items with
  | nil => rfl
  | cons item rest ih => rw [List.flatMap_cons, List.flatMap_cons, listTrees_append, ih]

theorem listTrees_singleton (above : List (List Byte)) (label : Label) (inside : List Tree) :
    listTrees above [.node label inside] =
      (above ++ [label.name], label) :: listTrees (above ++ [label.name]) inside := by
  rw [listTrees, listTree, listTrees, List.append_nil]

theorem treesOf_known (hknown : node.isDir = true ∨ node.isReg = true ∨ node.isLnk = true)
    (inside : List Tree) :
    treesOf node inside =
      [.node (labelOf (kindOf node) node) (if node.isDir then inside else [])] := by
  rw [treesOf, kindOf]
  by_cases hdir : node.isDir = true
  · rw [if_pos hdir, if_pos hdir, if_pos hdir]
  · rw [if_neg hdir, if_neg hdir, if_neg hdir]
    by_cases hreg : node.isReg = true
    · rw [if_pos hreg, if_pos hreg]
    · rw [if_neg hreg, if_neg hreg, if_pos ((hknown.resolve_left hdir).resolve_left hreg)]

theorem forall₂_flatMap {α β γ : Type} {related : β → γ → Prop} {left : α → List β}
    {right : α → List γ} {items : List α}
    (hitems : ∀ item ∈ items, List.Forall₂ related (left item) (right item)) :
    List.Forall₂ related (items.flatMap left) (items.flatMap right) := by
  have hsame : List.Forall₂ (fun item other => List.Forall₂ related (left item) (right other))
      items items := List.forall₂_same.mpr hitems
  exact List.rel_flatMap hsame fun _ _ hrelated => hrelated

/-- The entries are those of the inodes, in the order of the walk. -/
theorem lists_forest
    (hknown : ∀ node ∈ inodes, node.isDir = true ∨ node.isReg = true ∨ node.isLnk = true)
    {fuel : ℕ} {under : ℤ} {above : List (List Byte)} (hpath : PathTo inodes under above) :
    List.Forall₂ (Lists inodes) (visits inodes fuel under)
      (listTrees above (forest inodes fuel under)) := by
  induction fuel generalizing under above with
  | zero => exact .nil
  | succ fuel ih =>
      rw [Agreement.forest_eq_flatMap, listTrees_flatMap, visits, Preorder.preorder]
      apply forall₂_flatMap
      intro i hi
      obtain ⟨node, hnode, hparent⟩ := Preorder.mem_children_iff.mp hi
      have hnames : PathTo inodes i (above ++ [nameOf node]) := .child hnode (hparent ▸ hpath)
      rw [Agreement.treesAt, hnode, Option.elim_some,
        treesOf_known (hknown node (List.mem_of_getElem? hnode)), listTrees_singleton,
        Preorder.opensAt, hnode, Option.any_some]
      refine .cons ⟨node, hnode, hnames, rfl⟩ ?_
      by_cases hdir : node.isDir = true
      · rw [if_pos hdir, if_pos hdir]
        exact ih hnames
      · rw [if_neg hdir, if_neg hdir]
        exact .nil

end Listing

/-! ## One entry -/

section Entry

variable {host : Host} {view : DiskView host} {disk : host.Disk} {folder : List Byte}
  {names : List (List Byte)} {node : Inode}

/-- The numbers of an entry are read back as they were printed. -/
theorem readItem_printed {label : Label} {mode : Mode} {uid gid size : ℤ} {bytes : List Byte}
    (hmode : label.mode = octal mode) (huid : label.uid = decimal uid)
    (hgid : label.gid = decimal gid) (hsize : label.size = decimal size)
    (hbytes : bytesAt view disk folder names label = some bytes)
    (hlength : (bytes.length : ℤ) = size) :
    readItem view disk folder (names, label) =
      some (names, ⟨mode, uid, gid, label.path, bytes⟩) := by
  have hoctal : numeral 8 (octal mode) = some mode.toNat :=
    numeral_toDigits (by decide) (by decide) mode.toNat
  have hdecimal : ∀ value : ℤ, integer (decimal value) = some value := integer_printed
  simp only [readItem, hmode, huid, hgid, hsize, hoctal, hdecimal, hbytes,
    Option.bind_eq_bind, Option.bind_some, if_pos hlength, BitVec.ofNat_toNat,
    BitVec.setWidth_eq]
  rfl

theorem visible_dir (hdir : node.isDir = true) :
    visible (attributes node) = ⟨node.mode, node.uid, node.gid, [], []⟩ := by
  have hmode : node.mode &&& S_IFMT = S_IFDIR := of_decide_eq_true hdir
  simp only [visible, attributes, hmode]
  rw [if_neg (by decide), if_neg (by decide), if_neg (by decide), if_neg (by decide)]

theorem visible_reg (hreg : node.isReg = true) :
    visible (attributes node) = ⟨node.mode, node.uid, node.gid, [], contents node⟩ := by
  have hmode : node.mode &&& S_IFMT = S_IFREG := of_decide_eq_true hreg
  simp only [visible, attributes, hmode, if_true]
  rw [if_neg (by decide), if_neg (by decide), if_neg (by decide), contents]

theorem visible_lnk (hlnk : node.isLnk = true) :
    visible (attributes node) = ⟨node.mode, 0, 0, node.link.bytes, []⟩ := by
  have hmode : node.mode &&& S_IFMT = S_IFLNK := of_decide_eq_true hlnk
  simp only [visible, attributes, hmode, if_true]
  rw [if_neg (by decide)]

/-- The entry of an inode is read back when the data of a file is found. -/
theorem readItem_label
    (hknown : node.isDir = true ∨ node.isReg = true ∨ node.isLnk = true)
    (hfile : node.isReg = true → Whole node ∧
      fileAt view disk folder names (labelOf .file node) = some (contents node)) :
    readItem view disk folder (names, labelOf (kindOf node) node) =
      some (names, visible (attributes node)) := by
  by_cases hdir : node.isDir = true
  · have hkind : kindOf node = .dir := if_pos hdir
    rw [visible_dir hdir, hkind]
    exact readItem_printed rfl rfl rfl rfl rfl rfl
  by_cases hreg : node.isReg = true
  · have hkind : kindOf node = .file := (if_neg hdir).trans (if_pos hreg)
    obtain ⟨hwhole, hbytes⟩ := hfile hreg
    have hlength : ((contents node).length : ℤ) = node.size := by
      rw [hwhole.length_contents]
      exact Int.toNat_of_nonneg hwhole.1
    rw [visible_reg hreg, hkind]
    exact readItem_printed rfl rfl rfl rfl hbytes hlength
  · have hkind : kindOf node = .link := (if_neg hdir).trans (if_neg hreg)
    rw [visible_lnk ((hknown.resolve_left hdir).resolve_left hreg), hkind]
    exact readItem_printed rfl rfl rfl rfl rfl rfl

end Entry

/-! ## The file of an entry -/

section Files

variable {host : Host} {view : DiskView host} {inodes : Table} {disk after : host.Disk}
  {final : WalkState host} {i : ℕ} {node now : Inode} {names : List (List Byte)}

/-- What the inode records of the path is enough to find it again. -/
theorem recorded_path (hreach : Reachable inodes) (hdistinct : DistinctNames inodes)
    (hfits : Fits inodes) (hrun : createFilesystem host inodes disk = .ok final)
    (hnode : inodes[i]? = some node) (hreg : node.isReg = true)
    (hnow : final.inodes[i]? = some now) (hnames : PathTo inodes i names) :
    fsSlash ++ (if now.src.bytes ≠ [] then now.src.bytes else [47].intercalate names) =
      fsRoot ++ shownPath names := by
  have hmade := hdistinct.reached i node hnode hreg
  obtain ⟨path, hidden, compress, hplaced⟩ :=
    createFilesystem_placed (reachable_shape hreach) hrun hnode hreg hmade.visited
  have hpath := hplaced.hpath.symm.trans (fullPath_of_fits hreach hfits hnames)
  rw [Except.ok.injEq, Prod.mk.injEq] at hpath
  obtain ⟨now', hnow', hsrc, -⟩ := hplaced.hnow
  obtain rfl := Option.some.inj (hnow.symm.trans hnow')
  rw [(fresh_of_mem hreach node (List.mem_of_getElem? hnode)).1, hpath.1, hpath.2] at hsrc
  obtain ⟨entry, front, hentry, rfl, -⟩ := hnames.cases_nonneg
  obtain rfl := Option.some.inj (hnode.symm.trans hentry)
  obtain ⟨rest, hrest⟩ : ∃ rest, shownPath (front ++ [nameOf node]) = 47 :: rest := by
    cases front <;> exact ⟨_, rfl⟩
  have hslash : ∀ text : List Byte, fsSlash ++ text = fsRoot ++ 47 :: text := fun _ => rfl
  have hdrop : (fsRoot ++ shownPath (front ++ [nameOf node])).drop 3 = rest := by
    rw [hrest]
    rfl
  rw [hdrop] at hsrc
  cases hhidden : isHidden (front ++ [nameOf node]) with
  | false =>
      rw [hhidden, if_neg Bool.false_ne_true] at hsrc
      rw [if_neg (not_not_intro hsrc), hslash, shownPath_of_not_hidden hhidden,
        joinedPath_eq_cons (by simp)]
  | true =>
      rw [hhidden, if_pos rfl] at hsrc
      have hne : rest ≠ [] := by
        rintro rfl
        have hlength := congrArg List.length hrest
        have hordinary := (hmade.ordinary_shown hreach hdistinct.ordinary).nonempty
        have hlast : 0 < (notHidden (nameOf node)).1.length :=
          List.length_pos_of_ne_nil hordinary
        simp only [shownPath_append, shownPath_singleton, List.length_append,
          List.length_cons, List.length_nil] at hlength
        omega
      rw [hsrc, if_pos hne, hslash, hrest]

/-- The manifest leads to the data of a file, on a disk on which everything
below `fs` is as the walk left it. -/
theorem fileAt_label (hlawful : Lawful host view) (hreach : Reachable inodes)
    (hdistinct : DistinctNames inodes) (hfits : Fits inodes)
    (hrun : createFilesystem host inodes disk = .ok final)
    (hafter : ∀ place, view.read after (fsRoot :: place) = view.read final.disk (fsRoot :: place))
    (hnode : inodes[i]? = some node) (hreg : node.isReg = true)
    (hnow : final.inodes[i]? = some now) (hnames : PathTo inodes i names) :
    fileAt view after fsSlash names (labelOf .file now) = some (contents node) := by
  obtain ⟨path, hidden, now', bytes, hpath, hnow', hread, hbytes⟩ :=
    createFilesystem_stored hlawful hreach hdistinct hrun hnode hreg
  obtain rfl := Option.some.inj (hnow.symm.trans hnow')
  have hsame := hpath.symm.trans (fullPath_of_fits hreach hfits hnames)
  rw [Except.ok.injEq, Prod.mk.injEq] at hsame
  obtain ⟨front, hdisk⟩ := (hdistinct.reached i node hnode hreg).onDisk hreach hpath
  have hcompressed :=
    createFilesystem_compressed hreach hdistinct hrun hnode hreg hnow
  have hrecorded := recorded_path hreach hdistinct hfits hrun hnode hreg hnow hnames
  have hstored := hdisk.location_stored hreach hdistinct.ordinary
  rw [storedPath, ← hcompressed] at hstored
  rw [hstored, ← hafter, ← hstored] at hread
  have hsrc : (labelOf .file now).src = now.src.bytes := rfl
  have hflag : (labelOf .file now).compressed = if now.compressed then one else zero := rfl
  rw [fileAt, hsrc, hrecorded, ← hsame.1, hflag]
  cases hpacked : now.compressed with
  | true =>
      simp only [hpacked, if_true] at hread hbytes ⊢
      rw [hread, Option.bind_some, hbytes]
  | false =>
      simp only [hpacked, Bool.false_eq_true, if_false] at hread hbytes ⊢
      rw [if_neg (by decide), hread, hbytes]

end Files

/-! ## Plain strings -/

section Plain

variable {property : ℕ → Prop}

theorem allChars_append {left right : List Byte} (hleft : AllChars property left)
    (hright : AllChars property right) : AllChars property (left ++ right) := by
  induction hleft with
  | nil => exact hright
  | cons htake hproperty _ ih =>
      obtain ⟨rfl, -, hagain⟩ := takeChar_eq_some htake
      rw [List.append_assoc]
      exact .cons (hagain _) hproperty ih

theorem allChars_tail {byte : Byte} {rest : List Byte} (hascii : byte.toNat < 0x80)
    (hall : AllChars property (byte :: rest)) : AllChars property rest := by
  cases hall with
  | cons htake _ hrest =>
      rw [takeChar_ascii hascii, Option.some.injEq, Prod.mk.injEq, Prod.mk.injEq] at htake
      exact htake.2.2 ▸ hrest

/-- A dot or underscores in front of a name can be taken away. -/
theorem allChars_notHidden {name : List Byte} (hname : AllChars property name) :
    AllChars property (notHidden name).1 := by
  have hdrop : ∀ {byte : Byte} {rest : List Byte}, rest.head? = some byte → byte.toNat < 0x80 →
      AllChars property rest → AllChars property (rest.drop 1) := by
    intro byte rest hhead hascii hrest
    obtain ⟨tail, rfl⟩ := List.head?_eq_some_iff.mp hhead
    exact allChars_tail hascii hrest
  rw [notHidden]
  split
  · rename_i hdot
    exact hdrop hdot (by decide) hname
  split
  · rename_i htwice
    have hone := hdrop htwice.1 (by decide) hname
    have hsecond : (name.drop 1).head? = some 95 := by
      rw [List.head?_drop]
      exact htwice.2
    have htwo := hdrop hsecond (by decide) hone
    rwa [List.drop_drop] at htwo
  split
  · rename_i honce
    exact hdrop honce (by decide) hname
  · exact hname

variable {host : Host} {inodes : Table} {disk : host.Disk} {final : WalkState host}

theorem shownPath_plain (hslash : property 47)
    (hnames : ∀ node ∈ inodes, AllChars property (nameOf node)) {id : ℤ}
    {names : List (List Byte)} (hpath : PathTo inodes id names) :
    AllChars property (shownPath names) := by
  induction hpath with
  | root => exact .nil
  | child hnode hfront ih =>
      rw [shownPath_append, shownPath_singleton]
      have hname := allChars_notHidden (hnames _ (List.mem_of_getElem? hnode))
      exact allChars_append ih (.cons (takeChar_ascii (by decide) _) hslash hname)

/-- What is recorded of the path of a file is plain. -/
theorem src_plain (hslash : property 47) (hreach : Reachable inodes)
    (hdistinct : DistinctNames inodes) (hfits : Fits inodes)
    (hnames : ∀ node ∈ inodes, AllChars property (nameOf node))
    (hrun : createFilesystem host inodes disk = .ok final) {i : ℕ} {node now : Inode}
    (hnode : inodes[i]? = some node) (hreg : node.isReg = true)
    (hnow : final.inodes[i]? = some now) : AllChars property now.src.bytes := by
  obtain ⟨path, hidden, compress, hplaced⟩ := createFilesystem_placed (reachable_shape hreach)
    hrun hnode hreg (hdistinct.reached i node hnode hreg).visited
  obtain ⟨names, hpath⟩ := ParentTable.Shape.pathTo_exists (reachable_shape hreach)
    (List.getElem?_eq_some_iff.mp hnode).1
  have hsame := hplaced.hpath.symm.trans (fullPath_of_fits hreach hfits hpath)
  rw [Except.ok.injEq, Prod.mk.injEq] at hsame
  obtain ⟨now', hnow', hsrc, -⟩ := hplaced.hnow
  obtain rfl := Option.some.inj (hnow.symm.trans hnow')
  rw [hsrc, (fresh_of_mem hreach node (List.mem_of_getElem? hnode)).1, hsame.1]
  split
  · have hshown := shownPath_plain hslash hnames hpath
    obtain ⟨entry, front, -, rfl, -⟩ := hpath.cases_nonneg
    obtain ⟨rest, hrest⟩ : ∃ rest, shownPath (front ++ [nameOf entry]) = 47 :: rest := by
      cases front <;> exact ⟨_, rfl⟩
    have hdrop : (fsRoot ++ shownPath (front ++ [nameOf entry])).drop 3 = rest := by
      rw [hrest]
      rfl
    rw [hdrop]
    exact allChars_tail (by decide) (hrest ▸ hshown)
  · exact .nil

/-- The strings of the inodes are plain after the walk when they were plain
before it. -/
theorem plain_walked (hslash : property 47) (hreach : Reachable inodes)
    (hdistinct : DistinctNames inodes) (hfits : Fits inodes)
    (hknown : ∀ node ∈ inodes, node.isDir = true ∨ node.isReg = true ∨ node.isLnk = true)
    (hplain : Plain property inodes) (hrun : createFilesystem host inodes disk = .ok final) :
    Plain property final.inodes := by
  have hnames : ∀ node ∈ inodes, AllChars property (nameOf node) :=
    fun node hnode => hplain node hnode _ (shown_name node (hknown node hnode))
  intro now hnow pair hpair
  obtain ⟨i, hi⟩ := List.mem_iff_getElem?.mp hnow
  obtain ⟨node, hnode, hfixed⟩ := (walkDir_sameTree hrun).symm.getElem? hi
  have hmem := List.mem_of_getElem? hnode
  have hname : nameOf node = nameOf now := (congrArg nameOf hfixed :)
  have hlink : node.link = now.link := (congrArg Inode.link hfixed :)
  have hdir : node.isDir = now.isDir := (congrArg Inode.isDir hfixed :)
  have hreg : node.isReg = now.isReg := (congrArg Inode.isReg hfixed :)
  have hlnk : node.isLnk = now.isLnk := (congrArg Inode.isLnk hfixed :)
  by_cases hisDir : now.isDir = true
  · apply hplain node hmem pair
    rw [Strings.shown, if_pos hisDir] at hpair
    rw [Strings.shown, hdir, if_pos hisDir, hname]
    exact hpair
  by_cases hisReg : now.isReg = true
  · rw [Strings.shown, if_neg hisDir, if_pos hisReg] at hpair
    rcases List.mem_cons.mp hpair with rfl | hsrc
    · exact hname ▸ hnames node hmem
    · split at hsrc
      · rw [List.mem_singleton.mp hsrc]
        exact src_plain hslash hreach hdistinct hfits hnames hrun hnode (hreg ▸ hisReg) hi
      · exact absurd hsrc List.not_mem_nil
  · apply hplain node hmem pair
    rw [Strings.shown, if_neg hisDir, if_neg hisReg] at hpair
    rw [Strings.shown, hdir, if_neg hisDir, hreg, if_neg hisReg, hlnk, hname, hlink]
    exact hpair

end Plain

/-! ## The whole manifest -/

section Mount

variable {host : Host} {view : DiskView host} {inodes : Table} {disk after : host.Disk}
  {final : WalkState host}

/-- An item and the inode it was read back from. -/
def Recovers (inodes : Table) (i : ℕ) (item : List (List Byte) × Item) : Prop :=
  ∃ node, inodes[i]? = some node ∧ PathTo inodes i item.1 ∧ item.2 = visible (attributes node)

theorem mapM_forall₂ {α β γ : Type} {related : α → β → Prop} {recovers : α → γ → Prop}
    {read : β → Option γ} {keys : List α} {entries : List β}
    (hrelated : List.Forall₂ related keys entries)
    (hread : ∀ key entry, related key entry →
      ∃ item, read entry = some item ∧ recovers key item) :
    ∃ items, entries.mapM read = some items ∧ List.Forall₂ recovers keys items := by
  induction hrelated with
  | nil => exact ⟨[], rfl, .nil⟩
  | cons hhead _ ih =>
      obtain ⟨item, hitem, hrecovers⟩ := hread _ _ hhead
      obtain ⟨items, hitems, hforall⟩ := ih
      refine ⟨item :: items, ?_, .cons hrecovers hforall⟩
      rw [List.mapM_cons, hitem, hitems]
      rfl

/-- On a disk that is as the walk left it below `fs`, the entries of a manifest
are read back as the inodes. -/
theorem entries_recovered (hlawful : Lawful host view) (hreach : Reachable inodes)
    (hdistinct : DistinctNames inodes) (hfits : Fits inodes)
    (hknown : ∀ node ∈ inodes, node.isDir = true ∨ node.isReg = true ∨ node.isLnk = true)
    (hrun : createFilesystem host inodes disk = .ok final)
    (hafter : ∀ place, view.read after (fsRoot :: place) = view.read final.disk (fsRoot :: place)) :
    ∃ items, (listTrees [] (forestOf final.inodes (-1))).mapM (readItem view after fsSlash) =
        some items ∧
      List.Forall₂ (Recovers inodes) (visits inodes (inodes.length + 1) (-1)) items := by
  have hsame : SameTree inodes final.inodes := walkDir_sameTree hrun
  have hlists : List.Forall₂ (Lists final.inodes)
      (visits final.inodes (final.inodes.length + 1) (-1))
      (listTrees [] (forestOf final.inodes (-1))) :=
    lists_forest (MemberTypes.known_of_sameTree hsame hknown) .root
  have hvisits : visits final.inodes (final.inodes.length + 1) (-1) =
      visits inodes (inodes.length + 1) (-1) := by
    rw [visits, hsame.symm.length_eq]
    apply Preorder.preorder_of_map_eq
    exact hsame.symm.map_eq fun _ => rfl
  rw [hvisits] at hlists
  apply mapM_forall₂ hlists
  rintro i ⟨names, label⟩ ⟨now, hnow, hnames, rfl⟩
  obtain ⟨node, hnode, hfixed⟩ := hsame.symm.getElem? hnow
  have hattributes : attributes node = attributes now := (congrArg attributes hfixed :)
  have hpath : PathTo inodes i names := hsame.symm.pathTo hnames
  have hcontents : contents node = contents now := (congrArg contents hfixed :)
  refine ⟨(names, visible (attributes now)), ?_, node, hnode, hpath, by rw [hattributes]⟩
  apply readItem_label (MemberTypes.known_of_sameTree hsame hknown now (List.mem_of_getElem? hnow))
  intro hreg
  have hisReg : node.isReg = now.isReg := (congrArg Inode.isReg hfixed :)
  have hdata : node.data = now.data := (congrArg Inode.data hfixed :)
  have hsize : node.size = now.size := (congrArg Inode.size hfixed :)
  constructor
  · rw [Whole, ← hdata, ← hsize]
    exact reachable_whole hreach (List.mem_of_getElem? hnode) (hisReg ▸ hreg)
  · rw [← hcontents]
    exact fileAt_label hlawful hreach hdistinct hfits hrun hafter hnode (hisReg ▸ hreg) hnow hpath

theorem exists_of_mem_left {α β : Type} {related : α → β → Prop} {left : List α}
    {right : List β} (hrelated : List.Forall₂ related left right) {key : α} (hkey : key ∈ left) :
    ∃ item ∈ right, related key item := by
  induction hrelated with
  | nil => exact absurd hkey List.not_mem_nil
  | cons hhead _ ih =>
      rcases List.mem_cons.mp hkey with rfl | hrest
      · exact ⟨_, List.mem_cons_self, hhead⟩
      · obtain ⟨item, hitem, hitsKey⟩ := ih hrest
        exact ⟨item, List.mem_cons_of_mem _ hitem, hitsKey⟩

/-- When every inode is visited, the items that are read back are the table. -/
theorem shows_of_recovers (hreach : Reachable inodes)
    (hparents : Visits.ParentsAreDirectories inodes) {items : List (List (List Byte) × Item)}
    (hitems : List.Forall₂ (Recovers inodes) (visits inodes (inodes.length + 1) (-1)) items) :
    Shows inodes items := by
  have hshape := reachable_shape hreach
  have hperm := Visits.visits_perm hshape hparents
  -- what is found under a path was read back from the inode there
  have hfound : ∀ {path item}, items.lookup path = some item → ∃ (i : ℕ) (node : Inode),
      inodes[i]? = some node ∧ PathTo inodes i path ∧ visible (attributes node) = item := by
    intro path item hlookup
    obtain ⟨i, -, node, hnode, hpath, hitem⟩ :=
      exists_of_mem_left hitems.flip (FirstWins.mem_of_lookup hlookup)
    exact ⟨i, node, hnode, hpath, hitem.symm⟩
  refine ⟨?_, fun path item => ⟨hfound, ?_⟩⟩
  · rw [← hitems.length_eq, hperm.length_eq, List.length_range]
  · rintro ⟨i, node, hnode, hpath, rfl⟩
    have hi : i ∈ visits inodes (inodes.length + 1) (-1) :=
      hperm.mem_iff.mpr (List.mem_range.mpr (List.getElem?_eq_some_iff.mp hnode).1)
    obtain ⟨⟨path', item⟩, hmem, other, hother, hpath', -⟩ := exists_of_mem_left hitems hi
    obtain rfl : path' = path := hpath'.unique hpath
    have hkey : path' ∈ FirstWins.keys items := List.mem_map.mpr ⟨_, hmem, rfl⟩
    obtain ⟨value, hlookup⟩ := Option.ne_none_iff_exists'.mp
      (mt FirstWins.lookup_eq_none_iff.mp (not_not_intro hkey))
    obtain ⟨j, found, hfound, hjpath, rfl⟩ := hfound hlookup
    have hsame : (j : ℤ) = i := ParentTable.PathTo.injective hshape hjpath hpath
    rw [Int.ofNat.inj hsame, hnode, Option.some.injEq] at hfound
    rw [hlookup, hfound]

/-! ## What the program writes -/

theorem location_manifest {filename : List Byte} (hordinary : Ordinary filename) :
    location filename = [filename] := by
  have hlocation : location ([47].intercalate [filename]) = [filename] :=
    location_intercalate (by simp) (by simpa using hordinary)
  rwa [List.intercalate_singleton] at hlocation

theorem ordinary_xmlName : Ordinary Main.xmlName :=
  ⟨by decide, by decide, by decide, by decide⟩

theorem ordinary_jsonName : Ordinary Main.jsonName :=
  ⟨by decide, by decide, by decide, by decide⟩

/-- A manifest is written to its file and nowhere else. -/
theorem writeManifest_read (hlawful : Lawful host view) {filename text : List Byte}
    {reason : ExitReason} {print : Run ExitReason (List Byte)} (hordinary : Ordinary filename)
    (hprint : print = .ok text)
    (hrun : Main.writeManifest host filename reason print disk = .ok after) :
    view.read after = update (view.read disk) [filename] (some text) := by
  rw [Main.writeManifest] at hrun
  split at hrun
  · exact absurd hrun (Run.exit_ne_ok _ _)
  · rename_i fp opened hopen
    rw [hprint, Run.ok_bind, Run.pure_eq_ok, Except.ok.injEq] at hrun
    obtain ⟨hplace, hopened⟩ := hlawful.fopen hopen
    rw [location_manifest hordinary] at hplace hopened
    have hempty : view.read opened (view.place fp) = some [] := by
      rw [hopened, hplace, update_self]
    rw [← hrun, hlawful.fclose, hlawful.fwrite _ hempty, hopened, hplace, update_idem]

theorem below_ne {filename : List Byte} (hne : fsRoot ≠ filename) (place : List (List Byte)) :
    fsRoot :: place ≠ [filename] := fun heq => hne (List.cons.inj heq).1

/-- Both manifests are mounted to the same items, which are the table. -/
structure Mounts (view : DiskView host) (inodes : Table) (after : host.Disk)
    (items : List (List (List Byte) × Item)) : Prop where
  json : mount view readJSON Main.jsonName after = some items
  xml : mount view readXML Main.xmlName after = some items
  shows : Shows inodes items

theorem mount_eq {read : List Byte → Option (List Byte × List Tree)} {manifest text : List Byte}
    {folder : List Byte} {trees : List Tree} (hordinary : Ordinary manifest)
    (htext : view.read after [manifest] = some text) (hread : read text = some (folder, trees)) :
    mount view read manifest after = (listTrees [] trees).mapM (readItem view after folder) := by
  rw [mount, location_manifest hordinary, htext]
  simp only [Option.bind_eq_bind, Option.bind_some, hread]

/-- What can be printed into both manifests. -/
structure Printable (inodes : Table) : Prop where
  known : ∀ node ∈ inodes, node.isDir = true ∨ node.isReg = true ∨ node.isLnk = true
  json : Plain Literals.plainJson inodes
  xml : Plain Literals.plainXml inodes

/-- After the walk and the two manifests the table can be mounted from either
of them. -/
theorem mounts_written (hlawful : Lawful host view) (hreach : Reachable inodes)
    (hdistinct : DistinctNames inodes) (hfits : Fits inodes)
    (hparents : Visits.ParentsAreDirectories inodes) (hprintable : Printable inodes)
    (hrun : createFilesystem host inodes disk = .ok final) {middle : host.Disk}
    (hxml : Main.writeManifest host Main.xmlName .cannotCreateXML (Main.textXML final.inodes)
      final.disk = .ok middle)
    (hjson : Main.writeManifest host Main.jsonName .cannotCreateJSON (Main.textJSON final.inodes)
      middle = .ok after) :
    ∃ items, Mounts view inodes after items := by
  have hsame : SameTree inodes final.inodes := walkDir_sameTree hrun
  have hplainJSON : Plain Literals.plainJson final.inodes := plain_walked ⟨by decide, by decide,
    by decide⟩ hreach hdistinct hfits hprintable.known hprintable.json hrun
  have hplainXML : Plain Literals.plainXml final.inodes := plain_walked ⟨by decide, by decide,
    by decide, by decide, by decide, by decide⟩ hreach hdistinct hfits hprintable.known
    hprintable.xml hrun
  obtain ⟨xml, hprintXML⟩ := Visits.createXML_returns (hsame.shape (reachable_shape hreach))
  obtain ⟨json, hprintJSON⟩ := Visits.createJSON_returns
    (hsame.shape (reachable_shape hreach)) (MemberTypes.known_of_sameTree hsame hprintable.known)
  have hafterXML := writeManifest_read hlawful ordinary_xmlName
    (Run.map_eq_ok.mpr ⟨xml, hprintXML, rfl⟩) hxml
  have hafterJSON := writeManifest_read hlawful ordinary_jsonName
    (Run.map_eq_ok.mpr ⟨json, hprintJSON, rfl⟩) hjson
  have hbelow : ∀ place, view.read after (fsRoot :: place) =
      view.read final.disk (fsRoot :: place) := by
    intro place
    rw [hafterJSON, hafterXML, update_of_ne (below_ne (by decide) place),
      update_of_ne (below_ne (by decide) place)]
  obtain ⟨items, hmapM, hrecovers⟩ := entries_recovered hlawful hreach hdistinct hfits
    hprintable.known hrun hbelow
  refine ⟨items, ?_, ?_, shows_of_recovers hreach hparents hrecovers⟩
  · have htext : view.read after [Main.jsonName] = some (Strings.textJSON json) := by
      rw [hafterJSON, update_self]
      rfl
    rw [mount_eq ordinary_jsonName htext (readJSON_text hplainJSON hprintJSON)]
    exact hmapM
  · have htext : view.read after [Main.xmlName] = some (Strings.textXML xml) := by
      rw [hafterJSON, update_of_ne (by decide), hafterXML, update_self]
      rfl
    rw [mount_eq ordinary_xmlName htext (readXML_text hplainXML hprintXML)]
    exact hmapM

variable {isDir : host.Disk → List (List Byte) → Prop}

theorem writeManifest_returns (htree : Tree host view isDir) {filename text : List Byte}
    {reason : ExitReason} {print : Run ExitReason (List Byte)} (hordinary : Ordinary filename)
    (hprint : print = .ok text) (hhere : isDir disk []) (hfree : ¬ isDir disk [filename]) :
    ∃ after, Main.writeManifest host filename reason print disk = .ok after ∧
      isDir after = isDir disk := by
  have hslash : filename.getLast? ≠ some 47 :=
    fun hlast => hordinary.noSlash (List.mem_of_getLast? hlast)
  obtain ⟨⟨fp, opened⟩, hopen⟩ : ∃ result, host.fopen filename disk = some result := by
    apply htree.fopen hslash
    · rw [location_manifest hordinary]
      exact hhere
    · rw [location_manifest hordinary]
      exact hfree
  refine ⟨host.fclose fp (host.fwrite fp text opened), ?_, ?_⟩
  · simp only [Main.writeManifest, hopen, hprint, Run.ok_bind]
    rfl
  · rw [htree.fclose, htree.fwrite, htree.opened hopen]

/-- Nothing is in the way of the program: there is no `fs` yet, and the
manifests are not directories. -/
structure Clear (view : DiskView host) (isDir : host.Disk → List (List Byte) → Prop)
    (disk : host.Disk) : Prop where
  fresh : Fresh view isDir disk
  xml : ¬ isDir disk [Main.xmlName]
  json : ¬ isDir disk [Main.jsonName]

/-- Nothing is changed but what the table and the manifests are about. -/
structure Confined (view : DiskView host) (isDir : host.Disk → List (List Byte) → Prop)
    (inodes : Table) (disk after : host.Disk) : Prop where
  directories : ∀ place, isDir after place ↔ isDir disk place ∨
    ∃ id names, Directory inodes id ∧ PathTo inodes id names ∧ place = placeOf names
  files : ∀ place, place ≠ [Main.xmlName] → place ≠ [Main.jsonName] →
    view.read after place = view.read disk place ∨
      ∃ i node front path, OnDisk inodes i node front path ∧ node.isReg = true ∧
        place = location (storedPath node path)

theorem confined_of_completed (hclear : Clear view isDir disk)
    (hcompleted : Completed view isDir inodes disk final) (hdirs : isDir after = isDir final.disk)
    (hfiles : ∀ place, place ≠ [Main.xmlName] → place ≠ [Main.jsonName] →
      view.read after place = view.read final.disk place) :
    Confined view isDir inodes disk after where
  directories place := by
    rw [hdirs]
    by_cases hhead : place.head? = some fsRoot
    · obtain ⟨below, rfl⟩ := List.head?_eq_some_iff.mp hhead
      rw [hcompleted.directories, or_iff_right (hclear.fresh.noDirectory below)]
    · rw [(hcompleted.elsewhere place hhead).1, or_iff_left]
      rintro ⟨id, names, -, -, rfl⟩
      exact hhead rfl
  files place hxml hjson := by
    rw [hfiles place hxml hjson]
    by_cases hhead : place.head? = some fsRoot
    · obtain ⟨below, rfl⟩ := List.head?_eq_some_iff.mp hhead
      by_cases hread : view.read final.disk (fsRoot :: below) = none
      · left
        rw [hread, hclear.fresh.noFile]
      · right
        exact (hcompleted.files below).mp hread
    · exact .inl (hcompleted.elsewhere place hhead).2

/-- From a table whose names keep apart on disk and can be printed, everything
is written, and the table can be mounted again. -/
theorem writes_mountable (htree : Tree host view isDir) (hlawful : Lawful host view)
    (hreach : Reachable inodes) (hdistinct : DistinctNames inodes) (hfits : Fits inodes)
    (hparents : Visits.ParentsAreDirectories inodes) (hprintable : Printable inodes)
    (hclear : Clear view isDir disk) :
    ∃ final middle after items, createFilesystem host inodes disk = .ok final ∧
      Main.writeManifest host Main.xmlName .cannotCreateXML (Main.textXML final.inodes)
        final.disk = .ok middle ∧
      Main.writeManifest host Main.jsonName .cannotCreateJSON (Main.textJSON final.inodes)
        middle = .ok after ∧
      Mounts view inodes after items ∧ Confined view isDir inodes disk after := by
  obtain ⟨final, hrun, hcompleted⟩ := createFilesystem_completed htree hlawful hreach hdistinct
    hfits hclear.fresh
  have hsame : SameTree inodes final.inodes := walkDir_sameTree hrun
  obtain ⟨xml, hprintXML⟩ := Visits.createXML_returns (hsame.shape (reachable_shape hreach))
  obtain ⟨json, hprintJSON⟩ := Visits.createJSON_returns
    (hsame.shape (reachable_shape hreach)) (MemberTypes.known_of_sameTree hsame hprintable.known)
  have htextXML : Main.textXML final.inodes = .ok (Strings.textXML xml) :=
    Run.map_eq_ok.mpr ⟨xml, hprintXML, rfl⟩
  have htextJSON : Main.textJSON final.inodes = .ok (Strings.textJSON json) :=
    Run.map_eq_ok.mpr ⟨json, hprintJSON, rfl⟩
  have hhere : isDir final.disk [] := (hcompleted.elsewhere [] (by simp)).1.mpr hclear.fresh.here
  have hfree : ∀ filename, [filename].head? ≠ some fsRoot → ¬ isDir disk [filename] →
      ¬ isDir final.disk [filename] := by
    intro filename hhead hnot hdir
    exact hnot ((hcompleted.elsewhere [filename] hhead).1.mp hdir)
  obtain ⟨middle, hxml, hmiddle⟩ := writeManifest_returns htree ordinary_xmlName htextXML hhere
    (hfree _ (by decide) hclear.xml)
  obtain ⟨after, hjson, hafter⟩ := writeManifest_returns htree ordinary_jsonName htextJSON
    (hmiddle ▸ hhere) (hmiddle ▸ hfree _ (by decide) hclear.json)
  obtain ⟨items, hmounts⟩ := mounts_written hlawful hreach hdistinct hfits hparents hprintable
    hrun hxml hjson
  refine ⟨final, middle, after, items, hrun, hxml, hjson, hmounts, ?_⟩
  apply confined_of_completed hclear hcompleted (hafter.trans hmiddle)
  intro place hnotXML hnotJSON
  rw [writeManifest_read hlawful ordinary_jsonName htextJSON hjson, update_of_ne hnotJSON,
    writeManifest_read hlawful ordinary_xmlName htextXML hxml, update_of_ne hnotXML]

end Mount

end Tcb.Mount
