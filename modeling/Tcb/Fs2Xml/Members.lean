import Tcb.Fs2Xml.TableShape

/-!
# The members of well-behaved archives

The archives that `finishfs` writes hold members with plain relative names,
terminated fields and modes of twelve bits.  A member is given here by what it
means; `Encodes` says that a header in a buffer spells it, `tarHeader` writes
one, and the inode that `MergeFile` builds from it is computed.
-/

namespace Tcb.Members

open Tcb.CString
open Tcb.Strtol
open Tcb.Inodes
open Tcb.Split
open Tcb.MergeFile

inductive Kind
  | file | hardLink | symLink | dir
  deriving DecidableEq, Repr

def Kind.typeflag : Kind → Byte
  | file => 48
  | hardLink => 49
  | symLink => 50
  | dir => 53

/-- The bits that `MergeFile` adds to the mode. -/
def Kind.bits : Kind → Mode
  | file => S_IFREG
  | hardLink | symLink => S_IFLNK
  | dir => S_IFDIR

/-- What a member carries beside its name.  The mode may have file-type bits
above the permissions, and any member may have data behind its header. -/
structure Content where
  kind : Kind
  mode : ℕ
  uid : ℕ
  gid : ℕ
  mtime : ℕ
  linkname : List Byte
  data : List Byte
  modeFits : mode < 2 ^ 31
  uidFits : uid < 2 ^ 31
  gidFits : gid < 2 ^ 31
  mtimeFits : mtime < 2 ^ 31
  sizeFits : data.length < 2 ^ 31
  linknameNoNul : 0 ∉ linkname
  linknameFits : linkname.length ≤ 100
  linkGiven : kind = .hardLink ∨ kind = .symLink → linkname ≠ []
  deriving DecidableEq

/-- The rows that a name takes up in `walk`: a trailing slash is an empty last
component. -/
def rowsOf (path : List (List Byte)) (slash : Bool) : List (List Byte) :=
  if slash then path ++ [[]] else path

def nameText (path : List (List Byte)) (slash : Bool) : List Byte :=
  [47].intercalate (rowsOf path slash)

/-- A member with a name of the form `c1/../ck`, with or without a slash at
its end. -/
structure Member where
  path : List (List Byte)
  slash : Bool
  content : Content
  nonempty : path ≠ []
  depth : path.length ≤ walkRows
  components : ∀ part ∈ path, part ≠ [] ∧ 0 ∉ part ∧ 47 ∉ part
  notDotted : ∀ first ∈ path.head?, first.head? ≠ some 46
  fits : (nameText path slash).length < 100

def Member.name (member : Member) : List Byte := nameText member.path member.slash

/-- `Split` would need a thirteenth row for the empty component behind the
slash. -/
def Member.Overflows (member : Member) : Prop :=
  member.path.length = walkRows ∧ member.slash = true

instance (member : Member) : Decidable member.Overflows :=
  inferInstanceAs (Decidable (_ ∧ _))

/-- The header and the data behind it spell the member. -/
structure Encodes (ph : HeaderPtr) (member : Member) : Prop where
  room : 512 + member.content.data.length ≤ ph.bytes.length
  name : ∃ rest, ph.field .name = member.name ++ 0 :: rest
  mode : NumericField 8 (ph.field .mode) member.content.mode
  uid : NumericField 8 (ph.field .uid) member.content.uid
  gid : NumericField 8 (ph.field .gid) member.content.gid
  size : NumericField 8 (ph.field .size) member.content.data.length
  mtime : NumericField 8 (ph.field .mtime) member.content.mtime
  typeflag : ph.field .typeflag = [member.content.kind.typeflag]
  linkname : (ph.field .linkname).takeWhile (· ≠ 0) = member.content.linkname
  data : (ph.bytes.drop 512).take member.content.data.length = member.content.data

/-! ## What the table keeps of a member -/

/-- The attributes, the link and the data of an inode. -/
structure Attributes where
  mode : Mode
  size : ℤ
  uid : ℤ
  gid : ℤ
  mtime : ℕ
  link : List Byte
  data : Option (List Byte)
  deriving DecidableEq

def attributes (node : Inode) : Attributes where
  mode := node.mode
  size := node.size
  uid := node.uid
  gid := node.gid
  mtime := node.mtime
  link := node.link.bytes
  data := node.data

/-- The owners that are kept are root and the first ordinary user. -/
def Content.known (content : Content) : Bool := content.uid = 0 ∨ content.uid = 1000

/-- The attributes that `MergeFile` stores for a member: its mode and the bits of
its type, the target of a hard link behind a slash, no owner but the known
ones, and the data of a file only. -/
def Content.attributes (content : Content) : Attributes where
  mode := BitVec.ofNat 32 content.mode ||| content.kind.bits
  size := content.data.length
  uid := if content.known then content.uid else 0
  gid := if content.known then content.gid else 0
  mtime := content.mtime
  link := if content.kind = .hardLink then 47 :: content.linkname else content.linkname
  data := if content.kind = .file ∧ content.data ≠ [] then some content.data else none

/-! ## Names -/

section Names

variable {path : List (List Byte)} {slash : Bool}

theorem rowsOf_ne_nil (hne : path ≠ []) (slash : Bool) :
    rowsOf path slash ≠ [] := by
  cases slash <;> simp [rowsOf, hne]

theorem mem_rowsOf {part : List Byte} (hpart : part ∈ rowsOf path slash) :
    part = [] ∨ part ∈ path := by
  cases slash with
  | false => exact .inr hpart
  | true => simpa [rowsOf, or_comm] using hpart

theorem cons_nameText (hne : path ≠ []) (slash : Bool) :
    47 :: nameText path slash = joinedPath (rowsOf path slash) :=
  (joinedPath_eq_cons (rowsOf_ne_nil hne _)).symm

theorem nul_not_mem_nameText (hne : path ≠ []) (hparts : ∀ part ∈ path, 0 ∉ part) :
    0 ∉ nameText path slash := by
  intro hmem
  have hjoined : (0 : Byte) ∈ joinedPath (rowsOf path slash) := by
    rw [← cons_nameText hne]
    simp [hmem]
  simp only [joinedPath, List.mem_flatMap] at hjoined
  obtain ⟨part, hpart, hzero⟩ := hjoined
  rcases mem_rowsOf hpart with rfl | hpath
  · simp at hzero
  · simp [hparts part hpath] at hzero

/-- Cutting a name at its slashes gives the rows it was built from. -/
theorem splitOn_nameText (hne : path ≠ []) (hparts : ∀ part ∈ path, 47 ∉ part) :
    (nameText path slash).splitOn 47 = rowsOf path slash := by
  rw [nameText, List.splitOn_intercalate 47 ?_ (rowsOf_ne_nil hne _)]
  intro part hpart
  rcases mem_rowsOf hpart with rfl | hpath
  · simp
  · exact hparts part hpath

/-- A name starts with its first component. -/
theorem nameText_cons (first : List Byte) (others : List (List Byte)) (slash : Bool) :
    ∃ rest, nameText (first :: others) slash = first ++ rest := by
  have hrows : ∃ more, rowsOf (first :: others) slash = first :: more := by
    cases slash <;> simp [rowsOf]
  obtain ⟨more, hmore⟩ := hrows
  have hcons : 47 :: nameText (first :: others) slash = _ := cons_nameText (by simp) slash
  rw [hmore, joinedPath, List.flatMap_cons, List.cons_append, List.cons.injEq] at hcons
  exact ⟨_, hcons.2⟩

theorem getLast?_nameText (hne : path ≠ []) (hparts : ∀ part ∈ path, part ≠ [] ∧ 47 ∉ part) :
    ∃ last, (nameText path slash).getLast? = some last ∧ (last = 47 ↔ slash = true) := by
  obtain ⟨front, final, rfl⟩ := (List.eq_nil_or_concat' _).resolve_left hne
  have hfinal := hparts final (by simp)
  have hjoined := cons_nameText hne slash
  have hnonempty : nameText (front ++ [final]) slash ≠ [] := by
    intro hnil
    have hsplit : (nameText (front ++ [final]) slash).splitOn 47 = _ :=
      splitOn_nameText hne fun part hpart => (hparts part hpart).2
    rw [hnil, List.splitOn_nil] at hsplit
    have hmem : final ∈ rowsOf (front ++ [final]) slash := by
      cases slash <;> simp [rowsOf]
    rw [← hsplit, List.mem_singleton] at hmem
    exact hfinal.1 hmem
  have hlast : ∀ text : List Byte, 47 :: nameText (front ++ [final]) slash = text →
      (nameText (front ++ [final]) slash).getLast? = text.getLast? := by
    rintro text rfl
    rw [List.getLast?_cons_of_ne_nil hnonempty]
  cases slash with
  | true =>
      refine ⟨47, ?_, by simp⟩
      rw [hlast _ hjoined, rowsOf, if_pos rfl, joinedPath_append, joinedPath_singleton,
        List.getLast?_concat]
  | false =>
      obtain ⟨byte, hbyte⟩ := Option.ne_none_iff_exists'.mp
        (mt List.getLast?_eq_none_iff.mp hfinal.1)
      refine ⟨byte, ?_, ?_⟩
      · rw [hlast _ hjoined]
        simp [rowsOf, List.getLast?_cons, hbyte]
      · simp only [Bool.false_eq_true, iff_false]
        rintro rfl
        exact hfinal.2 (List.mem_of_getLast? hbyte)

end Names

namespace Member

variable (member : Member)

theorem cons_name : 47 :: member.name = joinedPath (rowsOf member.path member.slash) :=
  cons_nameText member.nonempty _

/-- A name starts with the first byte of its first component. -/
theorem head_name : ∃ byte rest, member.name = byte :: rest ∧ byte ≠ 46 ∧ byte ≠ 47 := by
  obtain ⟨first, others, hpath⟩ := List.exists_cons_of_ne_nil member.nonempty
  have hfirst := member.components first (by simp [hpath])
  obtain ⟨byte, tail, rfl⟩ := List.exists_cons_of_ne_nil hfirst.1
  obtain ⟨rest, hrest⟩ := nameText_cons (byte :: tail) others member.slash
  refine ⟨byte, tail ++ rest, by rw [name, hpath, hrest, List.cons_append], ?_, ?_⟩
  · simpa [hpath] using member.notDotted (byte :: tail) (by simp [hpath])
  · rintro rfl
    simp at hfirst

theorem nul_not_mem_name : 0 ∉ member.name :=
  nul_not_mem_nameText member.nonempty fun part hpart => (member.components part hpart).2.1

/-- The parts of the name are the rows it was built from. -/
theorem nameParts_name : nameParts member.name = rowsOf member.path member.slash := by
  obtain ⟨byte, rest, hname, hdot, hslash⟩ := member.head_name
  have hstart : startOffset member.name = 0 := by
    simp [startOffset, hname, hdot, hslash]
  rw [nameParts, hstart, List.drop_zero, name,
    splitOn_nameText member.nonempty fun part hpart => (member.components part hpart).2.2]

theorem getLast?_name : ∃ last, member.name.getLast? = some last ∧
    (last = 47 ↔ member.slash = true) :=
  getLast?_nameText member.nonempty fun part hpart =>
    ⟨(member.components part hpart).1, (member.components part hpart).2.2⟩

theorem length_lt_of_mem {part : List Byte}
    (hpart : part ∈ rowsOf member.path member.slash) : part.length < walkColumns := by
  have hlength : part.length ≤ (joinedPath (rowsOf member.path member.slash)).length := by
    have hsub := List.sublist_flatten_of_mem
      (List.mem_map_of_mem (f := fun name : List Byte => 47 :: name) hpart)
    rw [← List.flatMap_def] at hsub
    exact Nat.le_of_succ_le hsub.length_le
  rw [← member.cons_name, List.length_cons] at hlength
  have hfits := member.fits
  rw [name] at hlength
  simp only [walkColumns]
  omega

theorem length_rowsOf : (rowsOf member.path member.slash).length ≤ walkRows ↔
    ¬ member.Overflows := by
  have hdepth := member.depth
  rw [Overflows]
  cases member.slash with
  | false => simpa [rowsOf] using hdepth
  | true =>
      simp only [rowsOf, if_true, List.length_append, List.length_singleton, and_true]
      omega

end Member

/-! ## What `MergeFile` reads from a header -/

namespace Encodes

variable {ph : HeaderPtr} {member : Member} (henc : Encodes ph member)

include henc

theorem cString_name :
    (cString (ph.from' .name) : Run ExitReason _) = .ok member.name := by
  obtain ⟨rest, hname⟩ := henc.name
  rw [ph.from'_eq_field_append, hname, List.append_assoc, List.cons_append]
  exact cString_terminated member.nul_not_mem_name _

/-- The name fits into `walk` unless its components fill all rows and a slash
follows them. -/
theorem headerPath_iff {path : List (List Byte)} :
    HeaderPath ph path ↔ path = member.path ∧ ¬ member.Overflows := by
  obtain ⟨last, hlast, hslash⟩ := member.getLast?_name
  have hlastByte : lastByte ph member.name = .ok last := by rw [lastByte, hlast]
  have hpath : (if last = 47 then (nameParts member.name).dropLast
      else nameParts member.name) = member.path := by
    rw [member.nameParts_name]
    cases hvalue : member.slash <;> simp [hslash, hvalue, rowsOf]
  constructor
  · rintro ⟨text, last', htext, hlast', hrows, -, rfl⟩
    rw [henc.cString_name, Except.ok.injEq] at htext
    subst htext
    rw [hlastByte, Except.ok.injEq] at hlast'
    subst hlast'
    rw [member.nameParts_name, member.length_rowsOf] at hrows
    exact ⟨hpath, hrows⟩
  · rintro ⟨rfl, hrows⟩
    refine ⟨member.name, last, henc.cString_name, hlastByte, ?_, ?_, hpath.symm⟩
    · rwa [member.nameParts_name, member.length_rowsOf]
    · rw [member.nameParts_name]
      exact fun part => member.length_lt_of_mem

omit henc in
theorem strtol_field {field : Field} {value : ℕ}
    (hfield : NumericField 8 (ph.field field) value) (hint : value < 2 ^ 31) :
    (strtol 8 (ph.from' field) : Run ExitReason ℤ) = .ok (value : ℤ) := by
  rw [ph.from'_eq_field_append]
  exact strtol_numericField hfield (by omega) _

theorem typeflag_eq : ph.typeflag = .ok member.content.kind.typeflag := by
  have hfield := ph.from'_eq_field_append .typeflag
  rw [henc.typeflag] at hfield
  rw [HeaderPtr.typeflag, hfield]
  rfl

theorem linkname_room : 100 ≤ (ph.from' .linkname).length := by
  have hroom := henc.room
  simp only [HeaderPtr.from', Field.offset, List.length_drop]
  omega

theorem strncpy_linkname {capacity : ℕ} (hcount : 100 < capacity) :
    ∃ link : CArray capacity,
      (CArray.strncpy 100 hcount (ph.from' .linkname) : Run ExitReason _) = .ok link ∧
        link.bytes = member.content.linkname := by
  obtain ⟨link, hlink⟩ := CArray.strncpy_returns (ε := ExitReason) hcount
    (.inr henc.linkname_room)
  exact ⟨link, hlink, (CArray.strncpy_bytes hlink).trans henc.linkname⟩

theorem hardLink_eq :
    ∃ link, hardLink ph = .ok link ∧ link.bytes = 47 :: member.content.linkname := by
  obtain ⟨target, htarget, hbytes⟩ := henc.strncpy_linkname (by decide : 100 < 127)
  refine ⟨_, by rw [hardLink, htarget]; rfl, ?_⟩
  rw [← hbytes]

theorem linkname_given (hlink : member.content.linkname ≠ []) :
    (ph.from' .linkname).head? ≠ some 0 := by
  intro hhead
  apply hlink
  rw [← henc.linkname, HeaderPtr.field]
  cases hfrom : ph.from' .linkname with
  | nil => simp
  | cons byte rest =>
      rw [hfrom, List.head?_cons, Option.some.injEq] at hhead
      simp [Field.width, hhead]

theorem copyData_eq :
    copyData ph member.content.data.length =
      .ok (if member.content.data = [] then none else some member.content.data) := by
  rw [copyData]
  by_cases hdata : member.content.data = []
  · simp [hdata]
  · have hlength : member.content.data.length ≠ 0 := by simpa using hdata
    rw [if_neg (by omega), if_neg (by omega), Int.toNat_natCast,
      Run.require_pos henc.room, Run.ok_bind, henc.data, if_neg hdata]
    rfl

/-- The type flag completes an inode as the member's kind says. -/
theorem applyTypeflag_eq {node : Inode}
    (hsize : node.size = member.content.data.length)
    (hlink : node.link.bytes = member.content.linkname) (hdata : node.data = none) :
    ∃ filled, applyTypeflag ph node = .ok filled ∧ attributes filled =
      { attributes node with
        mode := node.mode ||| member.content.kind.bits
        link := member.content.attributes.link
        data := member.content.attributes.data } := by
  rw [applyTypeflag, henc.typeflag_eq, Run.ok_bind]
  cases hkind : member.content.kind with
  | file =>
      simp only [Kind.typeflag, Kind.bits, hsize, henc.copyData_eq]
      refine ⟨_, rfl, ?_⟩
      by_cases hempty : member.content.data = [] <;>
        simp [attributes, Content.attributes, hkind, hlink, hsize, hempty]
  | dir =>
      refine ⟨_, rfl, ?_⟩
      simp [attributes, Content.attributes, hkind, hlink, hdata, Kind.bits]
  | symLink =>
      have hgiven := henc.linkname_given (member.content.linkGiven (.inr hkind))
      simp only [Kind.typeflag, hgiven]
      refine ⟨_, rfl, ?_⟩
      simp [attributes, Content.attributes, hkind, hlink, hdata, Kind.bits]
  | hardLink =>
      have hgiven := henc.linkname_given (member.content.linkGiven (.inl hkind))
      obtain ⟨link, htarget, hbytes⟩ := henc.hardLink_eq
      simp only [Kind.typeflag, hgiven, htarget]
      refine ⟨_, rfl, ?_⟩
      simp [attributes, Content.attributes, hkind, hbytes, hdata, Kind.bits]

/-- A member becomes an inode with its attributes. -/
theorem newInode_eq {component : List Byte} (hcomponent : component ∈ member.path)
    (parentid : ℤ) :
    ∃ node, newInode ph component parentid = .ok node ∧
      Fresh node component parentid ∧ attributes node = member.content.attributes := by
  have hrows : component ∈ rowsOf member.path member.slash := by
    cases hslash : member.slash <;> simp [rowsOf, hcomponent]
  have hlength := member.length_lt_of_mem hrows
  obtain ⟨-, hnul, -⟩ := member.components component hcomponent
  obtain ⟨name, hname, -⟩ := CArray.strncpy_whole (ε := ExitReason)
    (by decide : 127 < 128) hnul (Nat.le_of_lt_succ hlength) []
  obtain ⟨link, hlink, hlinkBytes⟩ := henc.strncpy_linkname (by decide : 100 < 128)
  have hmode := strtol_field henc.mode member.content.modeFits
  have huid := strtol_field henc.uid member.content.uidFits
  have hgid := strtol_field henc.gid member.content.gidFits
  have hsize := strtol_field henc.size member.content.sizeFits
  have hmtime := strtol_field henc.mtime member.content.mtimeFits
  have hmtimeFits := member.content.mtimeFits
  have hrun : ∃ node, newInode ph component parentid = .ok node ∧
      attributes node = member.content.attributes := by
    simp only [newInode, hname, hlink, hsize, huid, hgid, hmtime, hmode, Run.ok_bind,
      toInt_of_lt member.content.uidFits, toInt_of_lt member.content.gidFits,
      toInt_of_lt member.content.sizeFits,
      toUnsigned_of_lt (show member.content.mtime < 2 ^ 32 by omega)]
    refine Exists.imp (fun filled hfilled => ⟨hfilled.1, hfilled.2.trans ?_⟩)
      (henc.applyTypeflag_eq rfl hlinkBytes rfl)
    have hforeign : (decide ((member.content.uid : ℤ) ≠ 0 ∧
        (member.content.uid : ℤ) ≠ 1000)) = !member.content.known := by
      rw [Bool.eq_iff_iff, Content.known]
      simp
      omega
    simp only [attributes, Content.attributes, BitVec.ofInt_natCast]
    cases hknown : member.content.known <;> simp_all
  obtain ⟨node, hnode, hattributes⟩ := hrun
  exact ⟨node, hnode, newInode_fresh hnul hlength hnode, hattributes⟩

end Encodes

end Tcb.Members
