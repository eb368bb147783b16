import Tcb.Fs2Xml.Members

/-!
# Writing tar headers

A member is written as a 512-byte header in the layout of `posix_header` and
its data.  The numbers are octal digits with a NUL behind them, and the texts
are filled up with NULs.  A header that was written this way spells its member
wherever it stands in a buffer.
-/

namespace Tcb.TarHeader

open Tcb.CString
open Tcb.Strtol
open Tcb.Inodes
open Tcb.Split
open Tcb.MergeFile
open Tcb.Members

/-! ## Numbers and texts -/

/-- The last `width` octal digits of a number. -/
def octalDigits : ℕ → ℕ → List Byte
  | 0, _ => []
  | width + 1, value => octalDigits width (value / 8) ++ [(48 + value % 8).toUInt8]

def numericText (width value : ℕ) : List Byte := octalDigits (width - 1) value ++ [0]

def paddedText (width : ℕ) (text : List Byte) : List Byte :=
  text ++ List.replicate (width - text.length) 0

@[simp]
theorem length_octalDigits (width value : ℕ) : (octalDigits width value).length = width := by
  induction width generalizing value with
  | zero => rfl
  | succ width ih => simp [octalDigits, ih]

theorem digit_toNat (value : ℕ) : ((48 + value % 8).toUInt8).toNat = 48 + value % 8 := by
  have hlt := Nat.mod_lt value (by decide : 0 < 8)
  simp only [Nat.toUInt8, UInt8.toNat_ofNat']
  omega

theorem isDigit_of_mem_octalDigits {width value : ℕ} {digit : Byte}
    (hdigit : digit ∈ octalDigits width value) : isDigit 8 digit = true := by
  induction width generalizing value with
  | zero => simp [octalDigits] at hdigit
  | succ width ih =>
      rcases List.mem_append.mp hdigit with hfront | hlast
      · exact ih hfront
      · rw [List.mem_singleton] at hlast
        have hlt := Nat.mod_lt value (by decide : 0 < 8)
        rw [hlast, isDigit, digit_toNat]
        simp only [Bool.and_eq_true, decide_eq_true_eq]
        omega

theorem digitsValue_octalDigits (width value : ℕ) :
    digitsValue 8 (octalDigits width value) = value % 8 ^ width := by
  induction width generalizing value with
  | zero => simp [octalDigits, digitsValue, Nat.mod_one]
  | succ width ih =>
      have hfront := ih (value / 8)
      rw [digitsValue] at hfront ⊢
      rw [octalDigits, List.foldl_append, hfront, List.foldl_cons, List.foldl_nil,
        digitValue, digit_toNat, Nat.pow_succ, Nat.mul_comm (8 ^ width) 8, Nat.mod_mul]
      omega

theorem numericField_numericText {width value : ℕ} (hwidth : 2 ≤ width)
    (hvalue : value < 8 ^ (width - 1)) : NumericField 8 (numericText width value) value := by
  refine ⟨0, octalDigits (width - 1) value, 0, [], rfl, ?_, ?_, .inl rfl, ?_⟩
  · rw [← List.length_pos_iff, length_octalDigits]
    omega
  · exact fun digit => isDigit_of_mem_octalDigits
  · rw [digitsValue_octalDigits, Nat.mod_eq_of_lt hvalue]

/-! ## The header -/

/-- The members of `posix_header` in their order. -/
def allFields : List Field :=
  [.name, .mode, .uid, .gid, .size, .mtime, .chksum, .typeflag, .linkname, .magic,
    .version, .uname, .gname, .devmajor, .devminor, .namePrefix]

/-- The text of a member of the header.  Nothing reads the checksum. -/
def fieldText (member : Member) : Field → List Byte
  | .name => paddedText 100 member.name
  | .mode => numericText 8 member.content.mode
  | .uid => numericText 8 member.content.uid
  | .gid => numericText 8 member.content.gid
  | .size => numericText 12 member.content.data.length
  | .mtime => numericText 12 member.content.mtime
  | .typeflag => [member.content.kind.typeflag]
  | .linkname => paddedText 100 member.content.linkname
  | .magic => ascii ['u', 's', 't', 'a', 'r'] ++ [0]
  | .version => ascii ['0', '0']
  | field => List.replicate field.width 0

def tarHeader (member : Member) : List Byte :=
  allFields.flatMap (fieldText member) ++ List.replicate 12 0

@[simp]
theorem length_fieldText (member : Member) (field : Field) :
    (fieldText member field).length = field.width := by
  have hname := member.fits
  have hlink := member.content.linknameFits
  cases field <;>
    simp [fieldText, paddedText, numericText, Field.width, ascii, Member.name] <;> omega

theorem length_flatMap_fieldText (member : Member) (fields : List Field) :
    (fields.flatMap (fieldText member)).length = (fields.map Field.width).sum := by
  induction fields with
  | nil => rfl
  | cons field rest ih => simp [ih]

@[simp]
theorem length_tarHeader (member : Member) : (tarHeader member).length = 512 := by
  rw [tarHeader, List.length_append, length_flatMap_fieldText, List.length_replicate]
  decide

/-- The fields before a field fill the bytes up to its offset. -/
theorem exists_split_allFields (field : Field) : ∃ before after,
    allFields = before ++ field :: after ∧ (before.map Field.width).sum = field.offset := by
  refine ⟨allFields.take (allFields.idxOf field), allFields.drop (allFields.idxOf field + 1),
    ?_⟩
  cases field <;> decide

theorem field_eq {ph : HeaderPtr} {member : Member} {rest : List Byte}
    (hbytes : ph.bytes = tarHeader member ++ rest) (field : Field) :
    ph.field field = fieldText member field := by
  obtain ⟨before, after, hfields, hoffset⟩ := exists_split_allFields field
  have hlength : (before.flatMap (fieldText member)).length = field.offset := by
    rw [length_flatMap_fieldText, hoffset]
  rw [HeaderPtr.field, HeaderPtr.from', hbytes, tarHeader, hfields, List.flatMap_append,
    List.append_assoc, List.append_assoc, ← hlength, List.drop_left, List.flatMap_cons,
    List.append_assoc, ← length_fieldText member, List.take_left]

/-- The mode and the owner fit into seven octal digits. -/
def Writable (member : Member) : Prop :=
  member.content.mode < 8 ^ 7 ∧ member.content.uid < 8 ^ 7 ∧ member.content.gid < 8 ^ 7

instance (member : Member) : Decidable (Writable member) :=
  inferInstanceAs (Decidable (_ ∧ _ ∧ _))

theorem takeWhile_paddedText {text : List Byte} (hnul : 0 ∉ text) (width : ℕ) :
    (paddedText width text).takeWhile (· ≠ 0) = text := by
  have hhead : ∀ byte ∈ text, (decide (byte ≠ 0)) = true := by
    intro byte hbyte
    simpa using fun hzero : byte = 0 => hnul (hzero ▸ hbyte)
  rw [paddedText, List.takeWhile_append_of_pos hhead]
  cases width - text.length <;> simp [List.replicate_succ]

/-- A member that was written is what its header spells. -/
theorem encodes_tarHeader {member : Member} (hwritable : Writable member)
    (before after : List Byte) :
    Encodes ⟨before ++ (tarHeader member ++ (member.content.data ++ after)), before.length⟩
      member := by
  have hbytes : HeaderPtr.bytes ⟨before ++ (tarHeader member ++ (member.content.data ++ after)),
      before.length⟩ = tarHeader member ++ (member.content.data ++ after) := by
    simp [HeaderPtr.bytes]
  have hfield := field_eq hbytes
  have hsize := member.content.sizeFits
  have hmtime := member.content.mtimeFits
  constructor
  · simp [hbytes]
  · have hfits := member.fits
    rw [← Member.name] at hfits
    obtain ⟨more, hmore⟩ : ∃ more, 100 - member.name.length = more + 1 :=
      ⟨99 - member.name.length, by omega⟩
    exact ⟨List.replicate more 0, by
      simp [hfield, fieldText, paddedText, hmore, List.replicate_succ]⟩
  · exact hfield .mode ▸ numericField_numericText (by decide) hwritable.1
  · exact hfield .uid ▸ numericField_numericText (by decide) hwritable.2.1
  · exact hfield .gid ▸ numericField_numericText (by decide) hwritable.2.2
  · exact hfield .size ▸ numericField_numericText (by decide) (by omega)
  · exact hfield .mtime ▸ numericField_numericText (by decide) (by omega)
  · exact hfield .typeflag
  · rw [hfield .linkname]
    exact takeWhile_paddedText member.content.linknameNoNul 100
  · rw [hbytes, ← length_tarHeader member, List.drop_left, List.take_left]

/-- A header at the start of a buffer, with its data behind it. -/
def memberHeader (member : Member) : HeaderPtr :=
  ⟨tarHeader member ++ member.content.data, 0⟩

theorem encodes_memberHeader {member : Member} (hwritable : Writable member) :
    Encodes (memberHeader member) member := by
  simpa [memberHeader] using encodes_tarHeader hwritable [] []

/-! ## Some members -/

def directoryContent : Content where
  kind := .dir
  mode := 0o755
  uid := 0
  gid := 0
  mtime := 0
  linkname := []
  data := []
  modeFits := by decide
  uidFits := by decide
  gidFits := by decide
  mtimeFits := by decide
  sizeFits := by decide
  linknameNoNul := CArray.nil_noNul
  linknameFits := by decide
  linkGiven := by decide

/-- The directory `a/a/../a/` at a given depth below the first. -/
def nestedDirectory (depth : Fin walkRows) : Member where
  path := List.replicate (depth + 1) (ascii ['a'])
  slash := true
  content := directoryContent
  nonempty := by simp
  depth := by
    have hlt := depth.isLt
    simp only [List.length_replicate]
    omega
  components := by
    intro part hpart
    rw [List.eq_of_mem_replicate hpart]
    decide
  notDotted := by
    intro first hfirst
    rw [List.eq_of_mem_replicate (List.mem_of_mem_head? hfirst)]
    decide
  fits := by
    revert depth
    decide

def fileContent : Content where
  kind := .file
  mode := 0o644
  uid := 1000
  gid := 1000
  mtime := 5
  linkname := []
  data := ascii ['h', 'i']
  modeFits := by decide
  uidFits := by decide
  gidFits := by decide
  mtimeFits := by decide
  sizeFits := by decide
  linknameNoNul := CArray.nil_noNul
  linknameFits := by decide
  linkGiven := by decide

/-- An ordinary file in the first of these directories. -/
def smallFile : Member where
  path := [ascii ['a'], ascii ['b']]
  slash := false
  content := fileContent
  nonempty := by decide
  depth := by decide
  components := by decide
  notDotted := by decide
  fits := by decide

theorem writable_nestedDirectory (depth : Fin walkRows) : Writable (nestedDirectory depth) := by
  revert depth
  decide

theorem writable_smallFile : Writable smallFile := by decide

/-- The table that holds the first directory and the file in it. -/
def smallTable : Table :=
  [{  name := ⟨ascii ['a'], by decide, by decide⟩
      src := ⟨[], CArray.nil_noNul, CArray.nil_fits⟩
      link := ⟨[], CArray.nil_noNul, CArray.nil_fits⟩
      mode := 0o040755
      size := 0
      uid := 0
      gid := 0
      parentid := -1
      data := none
      compressed := false
      load := false
      mtime := 0 },
    { name := ⟨ascii ['b'], by decide, by decide⟩
      src := ⟨[], CArray.nil_noNul, CArray.nil_fits⟩
      link := ⟨[], CArray.nil_noNul, CArray.nil_fits⟩
      mode := 0o100644
      size := 2
      uid := 1000
      gid := 1000
      parentid := 0
      data := some (ascii ['h', 'i'])
      compressed := false
      load := false
      mtime := 5 }]

set_option maxRecDepth 4000 in
theorem mergeAll_smallTable :
    mergeAll ([nestedDirectory 0, smallFile].map memberHeader) [] = .ok smallTable := by
  rfl

end Tcb.TarHeader
