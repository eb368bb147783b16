import Tcb.Fs2Xml.UnionByPath
import Tcb.Fs2Xml.Mount

/-!
# From the archives to the mounted files

`main` as a whole: archives that are read whole are merged, the files and both
manifests are written, and what can be mounted from either manifest is the
first-wins union of the members.  The conditions are on the archives and on the
directory in which the program is started, and none is on what happens inside.
-/

namespace Tcb.Pipeline

open Tcb.CString
open Tcb.Literals
open Tcb.Inodes
open Tcb.Split
open Tcb.MergeFile
open Tcb.TableShape
open Tcb.Paths
open Tcb.Members
open Tcb.Untar
open Tcb.FirstWins
open Tcb.UnionByPath
open Tcb.WalkDir
open Tcb.Storage
open Tcb.Hierarchy
open Tcb.ManifestText
open Tcb.Mount

/-! ## Conditions on the members -/

/-- The last component of the path. -/
def base (member : Member) : List Byte := member.path.getLast member.nonempty

/-- Directories and files are made on disk, links are not. -/
def OnHost (member : Member) : Prop :=
  member.content.kind = .dir ∨ member.content.kind = .file

instance (member : Member) : Decidable (OnHost member) :=
  inferInstanceAs (Decidable (_ ∨ _))

/-- What is left of the names of siblings on disk differs, also when `bzip2`
puts its suffix behind one of them, and the shell can be told the paths of the
files. -/
structure KeepsApart (members : List Member) : Prop where
  ordinary : ∀ member ∈ members, OnHost member →
    shown (base member) ≠ [] ∧ shown (base member) ≠ [46] ∧ shown (base member) ≠ [46, 46]
  siblings : ∀ left ∈ members, ∀ right ∈ members, OnHost left → OnHost right →
    left.path.dropLast = right.path.dropLast → left.path ≠ right.path →
      shown (base left) ≠ shown (base right) ∧
        shown (base left) ++ bz2Suffix ≠ shown (base right)
  quotable : ∀ member ∈ members, member.content.kind = .file →
    Shell.quotable (fsRoot ++ shownPath member.path) = true

/-- What a member is put under is a directory. -/
def InDirectories (members : List Member) : Prop :=
  ∀ member ∈ members, ∀ above, members.find? (·.path = member.path.dropLast) = some above →
    above.content.kind = .dir

/-- The names of the members, and the targets of the links, are plain. -/
def PlainMembers (plain : ℕ → Prop) (members : List Member) : Prop :=
  ∀ member ∈ members, (∀ part ∈ member.path, AllChars plain part) ∧
    AllChars plain member.content.attributes.link

/-- The mode fields hold permissions and no file-type bits. -/
def OnlyPermissions (members : List Member) : Prop :=
  ∀ member ∈ members, member.content.mode ≤ 0o7777

/-- Members that can be unpacked, stored and listed. -/
structure WellBehaved (members : List Member) : Prop where
  ancestors : AncestorsFirst [] members
  room : (members.map Member.path).dedup.length ≤ maxInodes
  rows : ∀ member ∈ members, ¬ member.Overflows
  permissions : OnlyPermissions members
  apart : KeepsApart members
  directories : InDirectories members
  json : PlainMembers plainJson members
  xml : PlainMembers plainXml members
  total : ((union (pairs members)).map fun pair => pair.2.size).sum < 2 ^ 31

/-! ## The table of the members -/

section Table

variable {members : List Member} {inodes : Table} {i j : ℕ} {node : Inode}
  {path : List (List Byte)} {member : Member}

theorem permissions_and_S_IFMT {mode : ℕ} (hmode : mode ≤ 0o7777) :
    BitVec.ofNat 32 mode &&& S_IFMT = 0 := by
  have hlow : mode % 2 ^ 12 = mode := Nat.mod_eq_of_lt (by omega)
  have hmask : BitVec.ofNat 32 mode = BitVec.ofNat 32 mode &&& 0o7777 := by
    apply BitVec.eq_of_toNat_eq
    rw [BitVec.toNat_and, BitVec.toNat_ofNat, Nat.mod_eq_of_lt (by omega)]
    exact (Nat.and_two_pow_sub_one_eq_mod mode 12 ▸ hlow).symm
  rw [hmask, BitVec.and_assoc]
  exact BitVec.and_zero

/-- The type of the inode of a member. -/
theorem attributes_type {content : Content} (hmode : content.mode ≤ 0o7777) :
    content.attributes.mode &&& S_IFMT = content.kind.bits := by
  rw [Content.attributes, MemberTypes.or_and_S_IFMT, permissions_and_S_IFMT hmode]
  exact BitVec.zero_or

/-- The inode that was made for a member. -/
structure MadeOf (members : List Member) (inodes : Table) (i : ℕ) (node : Inode)
    (member : Member) : Prop where
  entry : inodes[i]? = some node
  mem : member ∈ members
  pathTo : PathTo inodes i member.path
  first : members.find? (·.path = member.path) = some member
  same : attributes node = member.content.attributes

theorem madeOf (href : Refines inodes (union (pairs members))) (hnode : inodes[i]? = some node) :
    ∃ member, MadeOf members inodes i node member := by
  obtain ⟨path, hpath, -⟩ := href.entry i node hnode
  obtain ⟨member, hfind, hsame⟩ := href.firstWinsUnion.first i node path hnode hpath
  obtain rfl : member.path = path := by simpa using List.find?_some hfind
  exact ⟨member, hnode, List.mem_of_find?_eq_some hfind, hpath, hfind, hsame⟩

/-- The first member with a path has an inode. -/
theorem madeOf_first (href : Refines inodes (union (pairs members)))
    (hfirst : members.find? (·.path = member.path) = some member) :
    ∃ i node, MadeOf members inodes i node member := by
  have hkey : member.path ∈ keys (union (pairs members)) := by
    rw [mem_keys_union, keys_pairs]
    exact List.mem_map_of_mem (List.mem_of_find?_eq_some hfirst)
  obtain ⟨i, hpath⟩ := href.mem_keys_iff.mp hkey
  obtain ⟨node, front, hnode, -, -⟩ := id hpath.cases_nonneg
  obtain ⟨other, hmade⟩ := madeOf href hnode
  have hsame : other.path = member.path := hmade.pathTo.unique hpath
  obtain rfl : other = member :=
    Option.some.inj (hmade.first.symm.trans (hsame ▸ hfirst))
  exact ⟨i, node, hmade⟩

namespace MadeOf

variable (hmade : MadeOf members inodes i node member)

include hmade

theorem type (hmodes : OnlyPermissions members) :
    node.mode &&& S_IFMT = member.content.kind.bits := by
  have hmode : node.mode = member.content.attributes.mode :=
    congrArg Attributes.mode hmade.same
  rw [hmode, attributes_type (hmodes member hmade.mem)]

theorem known (hmodes : OnlyPermissions members) :
    node.isDir = true ∨ node.isReg = true ∨ node.isLnk = true :=
  MemberTypes.known_of_bits (hmade.type hmodes)

theorem kind_dir (hmodes : OnlyPermissions members) (hdir : node.isDir = true) :
    member.content.kind = .dir := by
  rw [Inode.isDir, hmade.type hmodes, decide_eq_true_eq] at hdir
  revert hdir
  cases member.content.kind <;> decide

theorem isDir_of_kind (hmodes : OnlyPermissions members)
    (hkind : member.content.kind = .dir) : node.isDir = true := by
  rw [Inode.isDir, hmade.type hmodes, hkind]
  decide

theorem kind_file (hmodes : OnlyPermissions members) (hreg : node.isReg = true) :
    member.content.kind = .file := by
  rw [Inode.isReg, hmade.type hmodes, decide_eq_true_eq] at hreg
  revert hreg
  cases member.content.kind <;> decide

theorem base_eq : base member = nameOf node := by
  obtain ⟨entry, front, hentry, hpath, -⟩ := hmade.pathTo.cases_nonneg
  obtain rfl := Option.some.inj (hmade.entry.symm.trans hentry)
  simp only [base, hpath, List.getLast_concat]

theorem parent : PathTo inodes node.parentid member.path.dropLast := by
  obtain ⟨entry, front, hentry, hpath, hfront⟩ := hmade.pathTo.cases_nonneg
  obtain rfl := Option.some.inj (hmade.entry.symm.trans hentry)
  rwa [hpath, List.dropLast_concat]

end MadeOf

theorem onHost (hmodes : OnlyPermissions members) (hmade : MadeOf members inodes i node member)
    (hkind : node.isDir = true ∨ node.isReg = true) : OnHost member := by
  rcases hkind with hdir | hreg
  · exact .inl (hmade.kind_dir hmodes hdir)
  · exact .inr (hmade.kind_file hmodes hreg)

/-- Two inodes that are put on disk in the same directory under related names
are one. -/
theorem same_of_clash (hmodes : OnlyPermissions members) (hmembers : KeepsApart members)
    (hshape : Shape inodes)
    {left right : Inode} {one other : Member} (hone : MadeOf members inodes i left one)
    (hother : MadeOf members inodes j right other)
    (hleft : left.isDir = true ∨ left.isReg = true)
    (hright : right.isDir = true ∨ right.isReg = true)
    (hparents : left.parentid = right.parentid)
    (hclash : shownName left = shownName right ∨ shownName left ++ bz2Suffix = shownName right ∨
      shownName right ++ bz2Suffix = shownName left) : i = j := by
  by_contra hne
  have hpaths : one.path ≠ other.path := by
    intro hsame
    have hindex := ParentTable.PathTo.injective hshape hone.pathTo (hsame ▸ hother.pathTo)
    exact hne (Int.ofNat.inj hindex)
  have hfronts : one.path.dropLast = other.path.dropLast :=
    hone.parent.unique (hparents ▸ hother.parent)
  have hapart := hmembers.siblings one hone.mem other hother.mem (onHost hmodes hone hleft)
    (onHost hmodes hother hright) hfronts hpaths
  have hapart' := hmembers.siblings other hother.mem one hone.mem (onHost hmodes hother hright)
    (onHost hmodes hone hleft) hfronts.symm hpaths.symm
  rw [hone.base_eq, hother.base_eq] at hapart hapart'
  rcases hclash with heq | heq | heq
  · exact hapart.1 heq
  · exact hapart.2 heq
  · exact hapart'.2 heq

theorem parentsAreDirectories (href : Refines inodes (union (pairs members)))
    (hmodes : OnlyPermissions members) (hdirectories : InDirectories members) :
    Visits.ParentsAreDirectories inodes := by
  intro i node hnode hroot
  obtain ⟨member, hmade⟩ := madeOf href hnode
  rcases href.shape.parent_lt i node hnode with hnone | ⟨hnonneg, hlt⟩
  · exact absurd hnone hroot
  · obtain ⟨up, hup⟩ := Int.eq_ofNat_of_zero_le hnonneg
    have hlength := (List.getElem?_eq_some_iff.mp hnode).1
    have hupLt : up < inodes.length := by omega
    have habove : inodes[up]? = some inodes[up] := List.getElem?_eq_getElem hupLt
    obtain ⟨above, hmadeAbove⟩ := madeOf href habove
    have hpath : above.path = member.path.dropLast :=
      hmadeAbove.pathTo.unique (hup ▸ hmade.parent)
    refine ⟨up, inodes[up], hup, habove, hmadeAbove.isDir_of_kind hmodes ?_⟩
    exact hdirectories member hmade.mem above (hpath ▸ hmadeAbove.first)

/-- Then every inode is reached. -/
theorem visited (href : Refines inodes (union (pairs members)))
    (hmodes : OnlyPermissions members) (hdirectories : InDirectories members)
    (hnode : inodes[i]? = some node) :
    Preorder.Visited Inode.parentid Inode.isDir inodes i := by
  have hperm := Visits.visits_perm href.shape (parentsAreDirectories href hmodes hdirectories)
  have hmem := hperm.mem_iff.mpr (List.mem_range.mpr (List.getElem?_eq_some_iff.mp hnode).1)
  exact ((parentsFirst href.shape).mem_preorder_root_iff (Nat.le_succ inodes.length)).mp hmem

theorem distinctNames (href : Refines inodes (union (pairs members)))
    (hmodes : OnlyPermissions members) (hmembers : KeepsApart members)
    (hdirectories : InDirectories members) :
    DistinctNames inodes where
  reached i node hnode hreg := ⟨hnode, .inr hreg, visited href hmodes hdirectories hnode⟩
  ordinary i node hmade := by
    obtain ⟨member, hof⟩ := madeOf href hmade.entry
    have hordinary := hmembers.ordinary member hof.mem (onHost hmodes hof hmade.kind)
    rwa [hof.base_eq] at hordinary
  directories i j left right hleft hright hparents hdir hdir' hnames := by
    obtain ⟨one, hone⟩ := madeOf href hleft.entry
    obtain ⟨other, hother⟩ := madeOf href hright.entry
    exact same_of_clash hmodes hmembers href.shape hone hother (.inl hdir) (.inl hdir') hparents
      (.inl hnames)
  files i j left right hleft hright hparents hreg hreg' hnames := by
    obtain ⟨one, hone⟩ := madeOf href hleft.entry
    obtain ⟨other, hother⟩ := madeOf href hright.entry
    apply same_of_clash hmodes hmembers href.shape hone hother (.inr hreg) (.inr hreg') hparents
    rw [storedName, storedName, storedPath, storedPath] at hnames
    split at hnames <;> split at hnames
    · exact .inl (List.append_cancel_right hnames)
    · exact .inr (.inl hnames)
    · exact .inr (.inr hnames.symm)
    · exact .inl hnames
  apart i j left right hleft hright hparents hreg hdir := by
    obtain ⟨one, hone⟩ := madeOf href hleft.entry
    obtain ⟨other, hother⟩ := madeOf href hright.entry
    have hdiffer : i ≠ j := by
      rintro rfl
      obtain rfl := Option.some.inj (hleft.entry.symm.trans hright.entry)
      rw [not_isReg_of_isDir hdir] at hreg
      exact Bool.false_ne_true hreg
    constructor
    · intro hnames
      exact hdiffer (same_of_clash hmodes hmembers href.shape hone hother (.inr hreg) (.inl hdir)
        hparents (.inl hnames))
    · intro hnames
      apply hdiffer
      apply same_of_clash hmodes hmembers href.shape hone hother (.inr hreg) (.inl hdir) hparents
      rw [storedName, storedPath] at hnames
      split at hnames
      · exact .inr (.inl hnames)
      · exact .inl hnames
  inOrder i j left right hleft hright hparents hreg hreg' hlt hnames _ := by
    obtain ⟨one, hone⟩ := madeOf href hleft.entry
    obtain ⟨other, hother⟩ := madeOf href hright.entry
    exact absurd (same_of_clash hmodes hmembers href.shape hone hother (.inr hreg) (.inr hreg') hparents
      (.inl hnames)) hlt.ne
  quotable i node names hmade hreg _ hnames := by
    obtain ⟨member, hof⟩ := madeOf href hmade.entry
    rw [hnames.unique hof.pathTo]
    exact hmembers.quotable member hof.mem (hof.kind_file hmodes hreg)

theorem fits (href : Refines inodes (union (pairs members))) : Fits inodes := by
  intro i names hnames
  obtain ⟨entry, front, hentry, -, -⟩ := id hnames.cases_nonneg
  obtain ⟨member, hmade⟩ := madeOf href hentry
  obtain rfl := hnames.unique hmade.pathTo
  have hlength := congrArg List.length member.cons_name
  have hname := member.fits
  have hrows : (joinedPath member.path).length ≤
      (joinedPath (rowsOf member.path member.slash)).length := by
    rw [rowsOf]
    split
    · rw [joinedPath_append, List.length_append]
      exact Nat.le_add_right _ _
    · exact le_rfl
  rw [List.length_cons, Member.name] at hlength
  omega

theorem plain {property : ℕ → Prop} (hreach : Reachable inodes)
    (href : Refines inodes (union (pairs members))) (hplain : PlainMembers property members) :
    Plain property inodes := by
  intro node hmem pair hpair
  obtain ⟨i, hnode⟩ := List.mem_iff_getElem?.mp hmem
  obtain ⟨member, hmade⟩ := madeOf href hnode
  obtain ⟨hparts, hlink⟩ := hplain member hmade.mem
  have hname : AllChars property (nameOf node) := by
    rw [← hmade.base_eq]
    exact hparts _ (List.getLast_mem _)
  have htarget : AllChars property node.link.bytes := by
    have hsame : node.link.bytes = member.content.attributes.link :=
      congrArg Attributes.link hmade.same
    rw [hsame]
    exact hlink
  rw [Strings.shown, if_neg (not_not_intro (fresh_of_mem hreach node hmem).1)] at hpair
  split at hpair
  · exact List.mem_singleton.mp hpair ▸ hname
  split at hpair
  · exact List.mem_singleton.mp hpair ▸ hname
  split at hpair
  · rcases List.mem_cons.mp hpair with rfl | hpair
    · exact hname
    · exact List.mem_singleton.mp hpair ▸ htarget
  · exact absurd hpair List.not_mem_nil

theorem printable (hreach : Reachable inodes) (href : Refines inodes (union (pairs members)))
    (hmembers : WellBehaved members) : Printable inodes where
  known node hmem := by
    obtain ⟨i, hnode⟩ := List.mem_iff_getElem?.mp hmem
    obtain ⟨member, hmade⟩ := madeOf href hnode
    exact hmade.known hmembers.permissions
  json := plain hreach href hmembers.json
  xml := plain hreach href hmembers.xml

theorem map_attributes (href : Refines inodes (union (pairs members))) :
    inodes.map attributes = (union (pairs members)).map Prod.snd := by
  apply List.ext_getElem?
  intro i
  rw [List.getElem?_map, List.getElem?_map]
  by_cases hi : i < inodes.length
  · have hnode : inodes[i]? = some inodes[i] := List.getElem?_eq_getElem hi
    obtain ⟨path, -, hkept⟩ := href.entry i _ hnode
    rw [hkept, hnode]
    rfl
  · rw [List.getElem?_eq_none (by omega), List.getElem?_eq_none (by rw [← href.length_eq]; omega)]
    rfl

/-- The sum that is printed does not overflow. -/
theorem totalSize_returns (href : Refines inodes (union (pairs members)))
    (htotal : ((union (pairs members)).map fun pair => pair.2.size).sum < 2 ^ 31) :
    Run.Returns (Main.totalSize inodes) := by
  have hnonneg : ∀ node ∈ inodes, 0 ≤ node.size := by
    intro node hmem
    obtain ⟨i, hnode⟩ := List.mem_iff_getElem?.mp hmem
    obtain ⟨member, hmade⟩ := madeOf href hnode
    have hsize : node.size = member.content.attributes.size :=
      congrArg Attributes.size hmade.same
    rw [hsize]
    exact Int.natCast_nonneg _
  have hsum : (inodes.map Inode.size).sum < 2 ^ 31 := by
    have hsizes : inodes.map Inode.size =
        (union (pairs members)).map fun pair => pair.2.size := by
      have hmap := congrArg (List.map Attributes.size) (map_attributes href)
      rwa [List.map_map, List.map_map] at hmap
    rwa [hsizes]
  obtain ⟨total, hrun, -⟩ : ∃ total, Main.totalSize inodes = .ok total ∧
      0 ≤ total ∧ total ≤ (inodes.map Inode.size).sum := by
    apply Run.foldlM_returns_done
      (fun done total => 0 ≤ total ∧ total ≤ (done.map Inode.size).sum) ⟨le_rfl, le_rfl⟩
    rintro before node after total hsplit ⟨hlow, hhigh⟩
    have hnode := hnonneg node (by rw [hsplit]; exact List.mem_append_right _ List.mem_cons_self)
    have hafter : 0 ≤ (after.map Inode.size).sum := by
      apply List.sum_nonneg
      intro size hsize
      obtain ⟨other, hother, rfl⟩ := List.mem_map.mp hsize
      apply hnonneg other
      rw [hsplit]
      exact List.mem_append_right _ (List.mem_cons_of_mem _ hother)
    have hall : (inodes.map Inode.size).sum =
        (before.map Inode.size).sum + (node.size + (after.map Inode.size).sum) := by
      rw [hsplit, List.map_append, List.sum_append, List.map_cons, List.sum_cons]
    have hdone : ((before ++ [node]).map Inode.size).sum =
        (before.map Inode.size).sum + node.size := by
      rw [List.map_append, List.sum_append, List.map_singleton, List.sum_singleton]
    rw [hdone]
    split
    · refine ⟨total + node.size, addInt_eq (by omega) (by omega), by omega, by omega⟩
    · exact ⟨total, rfl, hlow, by omega⟩
  exact ⟨total, hrun⟩

end Table

/-! ## Reading the archives -/

section Reading

variable {buf rest : List Byte} {pos : ℕ} {tar : TarMember} {member : Member}

/-- What stands in an archive spells a member. -/
def Spells (tar : TarMember) (member : Member) : Prop := Encodes ⟨tar.bytes, 0⟩ member

/-- A member is spelled wherever it stands. -/
theorem encodes_at (hspells : Spells tar member) (hat : buf.drop pos = tar.bytes ++ rest) :
    Encodes ⟨buf, pos⟩ member := by
  have hlength := tar.length_bytes
  have hbytes : HeaderPtr.bytes ⟨buf, pos⟩ = HeaderPtr.bytes ⟨tar.bytes, 0⟩ ++ rest := hat
  have hheader : 512 ≤ (HeaderPtr.bytes ⟨tar.bytes, 0⟩).length := by
    rw [show HeaderPtr.bytes ⟨tar.bytes, 0⟩ = tar.bytes from rfl, hlength]
    exact Nat.le_add_right _ _
  have hfield : ∀ field, HeaderPtr.field ⟨buf, pos⟩ field =
      HeaderPtr.field ⟨tar.bytes, 0⟩ field := by
    intro field
    have hoffset := field.offset_add_width_le
    rw [HeaderPtr.field, HeaderPtr.field, HeaderPtr.from', HeaderPtr.from', hbytes,
      List.drop_append_of_le_length (by omega)]
    apply List.take_append_of_le_length
    rw [List.length_drop]
    omega
  have hroom := hspells.room
  constructor
  · rw [hbytes, List.length_append]
    omega
  · rw [hfield]
    exact hspells.name
  · rw [hfield]
    exact hspells.mode
  · rw [hfield]
    exact hspells.uid
  · rw [hfield]
    exact hspells.gid
  · rw [hfield]
    exact hspells.size
  · rw [hfield]
    exact hspells.mtime
  · rw [hfield]
    exact hspells.typeflag
  · rw [hfield]
    exact hspells.linkname
  · rw [hbytes, List.drop_append_of_le_length (by omega), List.take_append_of_le_length]
    · exact hspells.data
    · rw [List.length_drop]
      omega

theorem encodes_archive {tars : List TarMember} {members : List Member}
    (hspells : List.Forall₂ Spells tars members)
    (hat : buf.drop pos = tars.flatMap TarMember.bytes ++ rest) :
    List.Forall₂ Encodes ((headerOffsets pos tars).map (HeaderPtr.mk buf)) members := by
  induction hspells generalizing pos with
  | nil => exact .nil
  | cons hhead _ ih =>
      rw [List.flatMap_cons, List.append_assoc] at hat
      rw [headerOffsets, List.map_cons]
      refine .cons (encodes_at hhead hat) (ih ?_)
      rw [← List.drop_drop, hat, List.drop_left]

/-- More fuel changes nothing. -/
theorem untarLoop_mono {len : ℤ} {fuel more : ℕ} {state final : UntarState}
    (hrun : untarLoop buf len fuel state = .ok final) (hmore : fuel ≤ more) :
    untarLoop buf len more state = .ok final := by
  induction fuel generalizing state more with
  | zero =>
      rw [untarLoop] at hrun
      split at hrun
      · exact absurd hrun (Run.outOfFuel_ne_ok _)
      · rename_i hend
        rw [untarLoop_stop (not_lt.mp hend), hrun]
  | succ fuel ih =>
      obtain ⟨more, rfl⟩ := Nat.exists_eq_add_of_le' (Nat.one_le_of_lt hmore)
      rw [untarLoop] at hrun ⊢
      split at hrun
      · rename_i hlt
        rw [Run.bind_eq_ok] at hrun
        obtain ⟨next, hblock, hrest⟩ := hrun
        rw [if_pos hlt, hblock, Run.ok_bind]
        exact ih hrest (Nat.le_of_succ_le_succ hmore)
      · rename_i hend
        rw [if_neg hend, hrun]

variable {lib : Main.Bz2} {filename : List Byte} {file : Main.TarFile} {members : List Member}
  {state : Main.ReadState} {earlier : List (List (List Byte) × Attributes)}

/-- What is known of an archive that the program is given. -/
structure Given (lib : Main.Bz2) (filename : List Byte) (file : Main.TarFile)
    (members : List Member) : Prop where
  named : filename.length < 256
  obtained : Main.Obtained lib filename file
  spelled : List.Forall₂ Spells file.members members
  quiet : ∀ tar ∈ file.members, ¬ tar.Misfires

/-- One archive: its members are added to the union. -/
theorem readArchive_members (hgiven : Given lib filename file members)
    (hrows : ∀ member ∈ members, ¬ member.Overflows) (hreach : Reachable state.inodes)
    (href : Refines state.inodes (union earlier)) (hfirst : AncestorsFirst (keys earlier) members)
    (hroom : (union (earlier ++ pairs members)).length ≤ maxInodes) :
    ∃ next enough, Reachable next.inodes ∧ Refines next.inodes (union (earlier ++ pairs members)) ∧
      ∀ fuel, enough ≤ fuel → Main.readArchive lib fuel state filename = .ok next := by
  obtain ⟨fp, hopen, hread⟩ := hgiven.obtained
  have hmost := lib.atMost fp Main.bufferSize
  have hdecompress : Main.decompress lib filename state.buf = .ok
      ((lib.BZ2_bzread fp Main.bufferSize).1,
        state.buf.fill (lib.BZ2_bzread fp Main.bufferSize).2 hmost) :=
    Main.decompress_eq_ok.mpr ⟨hgiven.named, fp, hopen, rfl, rfl⟩
  generalize hbuf : state.buf.fill (lib.BZ2_bzread fp Main.bufferSize).2 hmost = buf at hdecompress
  have hat : buf.bytes = archive file.members file.zeros ++
      state.buf.bytes.drop (archive file.members file.zeros).length := by
    rw [← hbuf]
    simp only [hread, Main.Buffer.fill, Main.TarFile.bytes]
  have hsmall : 0 + (archive file.members file.zeros).length < 2 ^ 31 := by
    rw [hread, Main.TarFile.bytes] at hmost
    rw [Nat.zero_add]
    exact hmost.trans_lt (by decide)
  -- the headers stand in the buffer, and are merged one after the other
  have hencodes : List.Forall₂ Encodes
      ((headerOffsets 0 file.members).map (HeaderPtr.mk buf.bytes)) members := by
    apply encodes_archive hgiven.spelled
    rw [List.drop_zero, hat, archive, List.append_assoc]
  obtain ⟨merged, hmerge, hrefMerged⟩ := mergeAll_refines hencodes hrows href hfirst hroom
  have hloop : ∃ fuel, untarLoop buf.bytes
      (0 + (archive file.members file.zeros).length : ℕ) fuel ⟨(0 : ℕ), state.inodes, []⟩ =
      .ok ⟨(0 + (archive file.members file.zeros).length : ℕ), merged,
        [] ++ headerOffsets 0 file.members⟩ :=
    untarLoop_members hat rfl hsmall hgiven.quiet hmerge
  obtain ⟨enough, hloop⟩ := hloop
  have hreachMerged : Reachable merged := by
    obtain ⟨headers, hheaders⟩ := hreach
    refine ⟨headers ++ (headerOffsets 0 file.members).map (HeaderPtr.mk buf.bytes), ?_⟩
    rw [mergeAll, List.foldlM_append, ← mergeAll, hheaders, Run.ok_bind]
    exact hmerge
  refine ⟨⟨buf, merged, state.calls ++ [headerOffsets 0 file.members]⟩, enough, hreachMerged,
    hrefMerged, fun fuel hfuel => ?_⟩
  apply Main.readArchive_eq_ok.mpr
  rw [Nat.zero_add, List.nil_append] at hloop
  refine ⟨_, buf, ⟨((archive file.members file.zeros).length : ℕ), merged,
    headerOffsets 0 file.members⟩, hdecompress, ?_, rfl⟩
  rw [hread]
  exact untarLoop_mono hloop hfuel

/-- The members of all archives, in the order of the arguments. -/
def allMembers (names : List (List Byte)) (members : List Byte → List Member) : List Member :=
  names.flatMap members

theorem AncestorsFirst.of_append {earlier : List (List (List Byte))} {left right : List Member}
    (hfirst : AncestorsFirst earlier (left ++ right)) :
    AncestorsFirst earlier left ∧ AncestorsFirst (earlier ++ left.map Member.path) right := by
  induction left generalizing earlier with
  | nil => exact ⟨trivial, by simpa using hfirst⟩
  | cons member left ih =>
      obtain ⟨hleft, hright⟩ := ih hfirst.2
      rw [List.append_assoc] at hright
      exact ⟨⟨hfirst.1, hleft⟩, hright⟩

theorem pairs_append (left right : List Member) :
    pairs (left ++ right) = pairs left ++ pairs right := List.map_append

/-- All archives: what is collected is the union of their members. -/
theorem readArchives_members {names : List (List Byte)} {holds : List Byte → Main.TarFile}
    {members : List Byte → List Member}
    (hgiven : ∀ filename ∈ names, Given lib filename (holds filename) (members filename))
    (hrows : ∀ member ∈ allMembers names members, ¬ member.Overflows)
    (hreach : Reachable state.inodes) (href : Refines state.inodes (union earlier))
    (hfirst : AncestorsFirst (keys earlier) (allMembers names members))
    (hroom : (union (earlier ++ pairs (allMembers names members))).length ≤ maxInodes) :
    ∃ final enough, Reachable final.inodes ∧
      Refines final.inodes (union (earlier ++ pairs (allMembers names members))) ∧
      ∀ fuel, enough ≤ fuel → names.foldlM (Main.readArchive lib fuel) state = .ok final := by
  induction names generalizing state earlier with
  | nil => exact ⟨state, 0, hreach, by simpa [allMembers, pairs] using href, fun _ _ => rfl⟩
  | cons filename names ih =>
      obtain ⟨hhead, htail⟩ := List.forall_mem_cons.mp hgiven
      have hall : allMembers (filename :: names) members =
          members filename ++ allMembers names members := rfl
      rw [hall] at hrows hfirst hroom ⊢
      obtain ⟨hrowsHead, hrowsTail⟩ := List.forall_mem_append.mp hrows
      obtain ⟨hfirstHead, hfirstTail⟩ := AncestorsFirst.of_append hfirst
      rw [pairs_append, ← List.append_assoc] at hroom ⊢
      have hroomHead := (union_isPrefix (earlier ++ pairs (members filename))
        (pairs (allMembers names members))).length_le
      obtain ⟨next, enough, hreachNext, hrefNext, hnext⟩ := readArchive_members hhead hrowsHead
        hreach href hfirstHead (hroomHead.trans hroom)
      have hkeys : keys (earlier ++ pairs (members filename)) =
          keys earlier ++ (members filename).map Member.path := by
        rw [keys, List.map_append, ← keys, ← keys, keys_pairs]
      obtain ⟨final, more, hreachFinal, hrefFinal, hfinal⟩ := ih htail hrowsTail hreachNext hrefNext
        (hkeys ▸ hfirstTail) hroom
      refine ⟨final, max enough more, hreachFinal, hrefFinal, fun fuel hfuel => ?_⟩
      rw [List.foldlM_cons, hnext fuel ((le_max_left _ _).trans hfuel), Run.ok_bind]
      exact hfinal fuel ((le_max_right _ _).trans hfuel)

end Reading

/-! ## The program -/

section Program

variable {lib : Main.Bz2} {host : Host} {view : DiskView host}
  {isDir : host.Disk → List (List Byte) → Prop} {disk : host.Disk}
  {names : List (List Byte)} {holds : List Byte → Main.TarFile}
  {members : List Byte → List Member}

/-- What can be mounted is the union of the members. -/
structure MountsUnion (view : DiskView host) (members : List Member) (after : host.Disk) :
    Prop where
  json : ∃ items, mount view readJSON Main.jsonName after = some items ∧
    ∀ path, items.lookup path = ((pairs members).lookup path).map visible
  xml : mount view readXML Main.xmlName after = mount view readJSON Main.jsonName after

theorem lookup_shows {inodes : Table} {members : List Member}
    {items : List (List (List Byte) × Item)} (href : Refines inodes (union (pairs members)))
    (hshows : Shows inodes items) (path : List (List Byte)) :
    items.lookup path = ((pairs members).lookup path).map visible := by
  apply Option.ext
  intro item
  rw [hshows.lookup, Option.map_eq_some_iff, ← lookup_union]
  constructor
  · rintro ⟨i, node, hnode, hpath, rfl⟩
    refine ⟨attributes node, ?_, rfl⟩
    exact (href.lookup_iff (nodup_keys_union _)).mpr ⟨i, node, hnode, hpath, rfl⟩
  · rintro ⟨value, hlookup, rfl⟩
    obtain ⟨i, node, hnode, hpath, rfl⟩ := (href.lookup_iff (nodup_keys_union _)).mp hlookup
    exact ⟨i, node, hnode, hpath, rfl⟩

/-- Given archives whose members are well behaved, in a directory in which
nothing is in the way, the program succeeds with the table of the members. -/
theorem main_runs (htree : Tree host view isDir) (hlawful : Lawful host view)
    (hclear : Clear view isDir disk) (hne : names ≠ [])
    (hgiven : ∀ filename ∈ names, Given lib filename (holds filename) (members filename))
    (hmembers : WellBehaved (allMembers names members)) (buf : Main.Buffer)
    (program : List Byte) :
    ∃ enough inodes items outcome, (∀ fuel, enough ≤ fuel →
        Main.main lib host fuel buf disk (program :: names) = .ok outcome) ∧
      outcome.status = 0 ∧ Reachable inodes ∧
      Refines inodes (union (pairs (allMembers names members))) ∧
      Mounts view inodes outcome.disk items ∧ Confined view isDir inodes disk outcome.disk := by
  have hempty : Reachable (Main.ReadState.mk buf [] []).inodes := ⟨[], rfl⟩
  have hstart : Refines (Main.ReadState.mk buf [] []).inodes (union []) := refines_nil
  have hroom : (union ([] ++ pairs (allMembers names members))).length ≤ maxInodes := by
    rw [List.nil_append, length_union, keys_pairs]
    exact hmembers.room
  obtain ⟨read, enough, hreach, href, hread⟩ :=
    readArchives_members hgiven hmembers.rows hempty hstart hmembers.ancestors hroom
  rw [List.nil_append] at href
  obtain ⟨total, htotal⟩ := totalSize_returns href hmembers.total
  have hparents := parentsAreDirectories href hmembers.permissions hmembers.directories
  have hdistinct := distinctNames href hmembers.permissions hmembers.apart hmembers.directories
  obtain ⟨final, middle, after, items, hwalk, hxml, hjson, hmounts, hconfined⟩ :=
    writes_mountable htree hlawful hreach hdistinct (fits href) hparents
      (printable hreach href hmembers) hclear
  refine ⟨enough, read.inodes, items, ⟨0, read.calls, after⟩, fun fuel hfuel => ?_, rfl, hreach,
    href, hmounts, hconfined⟩
  have hargs : ¬ (program :: names).length < 2 := by
    have hpos := List.length_pos_of_ne_nil hne
    rw [List.length_cons]
    omega
  rw [Main.main, if_neg hargs]
  simp only [List.tail_cons, hread fuel hfuel, Run.ok_bind, htotal, hwalk, hxml, hjson]
  rfl

/-- What can be mounted after such a run is, under every path, what the first
member with that path says. -/
theorem main_mounts (htree : Tree host view isDir) (hlawful : Lawful host view)
    (hclear : Clear view isDir disk) (hne : names ≠ [])
    (hgiven : ∀ filename ∈ names, Given lib filename (holds filename) (members filename))
    (hmembers : WellBehaved (allMembers names members)) (buf : Main.Buffer)
    (program : List Byte) :
    ∃ enough outcome, (∀ fuel, enough ≤ fuel →
        Main.main lib host fuel buf disk (program :: names) = .ok outcome) ∧
      outcome.status = 0 ∧ MountsUnion view (allMembers names members) outcome.disk := by
  obtain ⟨enough, inodes, items, outcome, hrun, hstatus, -, href, hmounts, -⟩ :=
    main_runs htree hlawful hclear hne hgiven hmembers buf program
  refine ⟨enough, outcome, hrun, hstatus, ⟨items, hmounts.json, ?_⟩, ?_⟩
  · exact lookup_shows href hmounts.shows
  · rw [hmounts.xml, hmounts.json]

/-- A run changes nothing else: directories are made for `fs` and for the
directories among the members, and files only for the files among them, under
the names that are left of theirs. -/
structure ConfinedTo (view : DiskView host) (isDir : host.Disk → List (List Byte) → Prop)
    (members : List Member) (disk after : host.Disk) : Prop where
  directories : ∀ place, isDir after place ↔ isDir disk place ∨ place = [fsRoot] ∨
    ∃ member, members.find? (·.path = member.path) = some member ∧
      member.content.kind = .dir ∧ place = placeOf member.path
  files : ∀ place, place ≠ [Main.xmlName] → place ≠ [Main.jsonName] →
    view.read after place = view.read disk place ∨
      ∃ member, members.find? (·.path = member.path) = some member ∧
        member.content.kind = .file ∧ (place = placeOf member.path ∨
          place = placeOf member.path.dropLast ++ [shown (base member) ++ bz2Suffix])

theorem main_confined (htree : Tree host view isDir) (hlawful : Lawful host view)
    (hclear : Clear view isDir disk) (hne : names ≠ [])
    (hgiven : ∀ filename ∈ names, Given lib filename (holds filename) (members filename))
    (hmembers : WellBehaved (allMembers names members)) (buf : Main.Buffer)
    (program : List Byte) :
    ∃ enough outcome, (∀ fuel, enough ≤ fuel →
        Main.main lib host fuel buf disk (program :: names) = .ok outcome) ∧
      outcome.status = 0 ∧
      ConfinedTo view isDir (allMembers names members) disk outcome.disk := by
  obtain ⟨enough, inodes, items, outcome, hrun, hstatus, hreach, href, -, hconfined⟩ :=
    main_runs htree hlawful hclear hne hgiven hmembers buf program
  have hdistinct := distinctNames href hmembers.permissions hmembers.apart hmembers.directories
  refine ⟨enough, outcome, hrun, hstatus, ?_, ?_⟩
  · intro place
    rw [hconfined.directories]
    apply or_congr_right
    constructor
    · rintro ⟨id, path, hdirectory, hpath, rfl⟩
      cases hdirectory with
      | root =>
          obtain rfl := ParentTable.pathTo_neg_one_iff.mp hpath
          exact .inl rfl
      | inside hnode hdir hvisited =>
          obtain ⟨member, hmade⟩ := madeOf href hnode
          rw [hpath.unique hmade.pathTo]
          exact .inr ⟨member, hmade.first, hmade.kind_dir hmembers.permissions hdir, rfl⟩
    · rintro (rfl | ⟨member, hfirst, hkind, rfl⟩)
      · exact ⟨-1, [], .root, .root, rfl⟩
      · obtain ⟨i, node, hmade⟩ := madeOf_first href hfirst
        exact ⟨i, member.path, .inside hmade.entry (hmade.isDir_of_kind hmembers.permissions hkind)
          (visited href hmembers.permissions hmembers.directories hmade.entry), hmade.pathTo, rfl⟩
  · intro place hxml hjson
    rcases hconfined.files place hxml hjson with hsame | ⟨i, node, front, path, hdisk, hreg, rfl⟩
    · exact .inl hsame
    · right
      obtain ⟨member, hmade⟩ := madeOf href hdisk.made.entry
      have hpath : member.path = front ++ [nameOf node] :=
        hmade.pathTo.unique (.child hdisk.made.entry hdisk.hfront)
      refine ⟨member, hmade.first, hmade.kind_file hmembers.permissions hreg, ?_⟩
      rw [hdisk.location_stored hreach hdistinct.ordinary, hmade.base_eq, hpath, List.dropLast_concat,
        storedName, storedPath]
      split
      · exact .inr rfl
      · exact .inl (by rw [placeOf, List.map_append]; rfl)

end Program

/-! ## The same archive twice -/

/-- A directory and a file in it. -/
def smallMembers : List Member := [TarHeader.nestedDirectory 0, TarHeader.smallFile]

def smallTarFile : Main.TarFile where
  members := smallMembers.map tarMember
  zeros := 1

def twoNames : List (List Byte) := [ascii ['a'], ascii ['b']]

theorem spells_tarMember {member : Member} (hwritable : TarHeader.Writable member) :
    Spells (tarMember member) member := by
  have hencodes := TarHeader.encodes_tarHeader hwritable []
    (List.replicate ((member.content.data.length + 511) / 512 * 512 -
      member.content.data.length) 0)
  rwa [List.nil_append] at hencodes

theorem smallTarFile_given {filename : List Byte} (hnamed : filename.length < 256) :
    Given (Main.storedBz2 smallTarFile) filename smallTarFile smallMembers where
  named := hnamed
  obtained := by
    refine ⟨(), rfl, ?_⟩
    have hlength : smallTarFile.bytes.length ≤ Main.bufferSize := by decide +kernel
    simp only [Main.storedBz2, List.take_of_length_le hlength]
  spelled := .cons (spells_tarMember (TarHeader.writable_nestedDirectory 0))
    (.cons (spells_tarMember TarHeader.writable_smallFile) .nil)
  quiet := by decide +kernel

theorem smallMembers_plain {property : ℕ → Prop} (hletter : property 97 ∧ property 98) :
    PlainMembers property (allMembers twoNames fun _ => smallMembers) := by
  have hpart : ∀ {part : List Byte}, part = ascii ['a'] ∨ part = ascii ['b'] →
      AllChars property part := by
    rintro part (rfl | rfl) <;> apply allChars_ascii
    · exact List.forall_mem_singleton.mpr ⟨by decide, hletter.1⟩
    · exact List.forall_mem_singleton.mpr ⟨by decide, hletter.2⟩
  intro member hmem
  have hmember : (∀ part ∈ member.path, part = ascii ['a'] ∨ part = ascii ['b']) ∧
      member.content.attributes.link = [] := by
    revert member
    decide
  rw [hmember.2]
  exact ⟨fun part hmem => hpart (hmember.1 part hmem), .nil⟩

theorem smallMembers_wellBehaved :
    WellBehaved (allMembers twoNames fun _ => smallMembers) where
  ancestors := by decide
  room := by decide
  rows := by decide
  permissions := by
    unfold OnlyPermissions
    decide
  apart := ⟨by decide, by decide, by decide⟩
  directories := by
    have hall : ∀ member ∈ allMembers twoNames fun _ => smallMembers,
        ((allMembers twoNames fun _ => smallMembers).find?
          (·.path = member.path.dropLast)).all (·.content.kind = .dir) = true := by
      decide
    intro member hmem above habove
    have hkind := hall member hmem
    rwa [habove, Option.all_some, decide_eq_true_eq] at hkind
  json := smallMembers_plain (by decide)
  xml := smallMembers_plain (by decide)
  total := by decide

theorem emptyTree_clear : Clear treeView isDirectory emptyTree where
  fresh := emptyTree_fresh
  xml := by simp [isDirectory, emptyTree]
  json := by simp [isDirectory, emptyTree]

theorem twoNames_given : ∀ filename ∈ twoNames,
    Given (Main.storedBz2 smallTarFile) filename smallTarFile smallMembers := by
  intro filename hmem
  apply smallTarFile_given
  revert filename
  decide

/-- Two archives with the same members. -/
theorem main_mounts_twoNames :
    ∃ enough outcome, (∀ fuel, enough ≤ fuel → Main.main (Main.storedBz2 smallTarFile) treeHost fuel
        Main.zeroBuffer emptyTree (ascii ['f'] :: twoNames) = .ok outcome) ∧
      outcome.status = 0 ∧
      MountsUnion treeView (allMembers twoNames fun _ => smallMembers) outcome.disk :=
  main_mounts treeHost_tree treeHost_lawful emptyTree_clear (by decide) twoNames_given
    smallMembers_wellBehaved Main.zeroBuffer _

theorem main_confined_twoNames :
    ∃ enough outcome, (∀ fuel, enough ≤ fuel → Main.main (Main.storedBz2 smallTarFile) treeHost fuel
        Main.zeroBuffer emptyTree (ascii ['f'] :: twoNames) = .ok outcome) ∧
      outcome.status = 0 ∧
      ConfinedTo treeView isDirectory (allMembers twoNames fun _ => smallMembers) emptyTree
        outcome.disk :=
  main_confined treeHost_tree treeHost_lawful emptyTree_clear (by decide) twoNames_given
    smallMembers_wellBehaved Main.zeroBuffer _

end Tcb.Pipeline
