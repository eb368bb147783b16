import Tcb.Core.Strtol

/-!
# The data of fs2xml

The inode table that collects the members of all archives, the tar header that
`fs2xml` overlays on the decompressed buffer, and the reasons for which the
program gives up.  A table is the list of its first `ninodes` entries.
-/

namespace Tcb.Inodes

open Tcb.CString

/-- Why the program calls `exit(1)`. -/
inductive ExitReason
  | cannotOpenBz2
  | noInode (walkPosition : ℕ)
  | noLink
  | unknownTypeflag (typeflag : Byte)
  | unknownFileTyp
  | cannotCreateFile
  | cannotCreateXML
  | cannotCreateJSON
  deriving DecidableEq, Repr

/-- What the program prints before it exits; the file name behind "Cannot
create file" is left out. -/
def ExitReason.message : ExitReason → String
  | .cannotOpenBz2 => "Error: Cannot open bz2 file"
  | .noInode walkPosition =>
      "Error: Could not find inode. But it should be there. Walk position: " ++
        toString walkPosition
  | .noLink => "Error: no link given"
  | .unknownTypeflag typeflag => "Error:type " ++ toString typeflag ++ " unknown"
  | .unknownFileTyp => "Unknown file typ"
  | .cannotCreateFile => "Error: Cannot create file"
  | .cannotCreateXML => "Error: Cannot create file fs.xml"
  | .cannotCreateJSON => "Error: Cannot create file fs.json"

/-! ## Inodes -/

abbrev Mode := BitVec 32

/-- The file-type bits of a mode, and the three types that are written. -/
def S_IFMT : Mode := 0o170000
def S_IFDIR : Mode := 0o040000
def S_IFREG : Mode := 0o100000
def S_IFLNK : Mode := 0o120000

structure Inode where
  name : CArray 128
  src : CArray 128
  link : CArray 128
  mode : Mode
  size : ℤ
  uid : ℤ
  gid : ℤ
  parentid : ℤ
  /-- `none` is the null pointer that a zeroed entry starts with. -/
  data : Option (List Byte)
  compressed : Bool
  load : Bool
  mtime : ℕ
  deriving DecidableEq

def Inode.isDir (node : Inode) : Bool := node.mode &&& S_IFMT = S_IFDIR
def Inode.isReg (node : Inode) : Bool := node.mode &&& S_IFMT = S_IFREG
def Inode.isLnk (node : Inode) : Bool := node.mode &&& S_IFMT = S_IFLNK

abbrev Table := List Inode

/-- The number of entries that `main` allocates. -/
def maxInodes : ℕ := 10000

/-! ## Tar headers -/

/-- The members of `struct posix_header`; the last one is `prefix`. -/
inductive Field
  | name | mode | uid | gid | size | mtime | chksum | typeflag | linkname
  | magic | version | uname | gname | devmajor | devminor | namePrefix
  deriving DecidableEq

/-- The byte offset of a member in the packed structure. -/
def Field.offset : Field → ℕ
  | name => 0
  | mode => 100
  | uid => 108
  | gid => 116
  | size => 124
  | mtime => 136
  | chksum => 148
  | typeflag => 156
  | linkname => 157
  | magic => 257
  | version => 263
  | uname => 265
  | gname => 297
  | devmajor => 329
  | devminor => 337
  | namePrefix => 345

def Field.width : Field → ℕ
  | name => 100
  | mode | uid | gid => 8
  | size | mtime => 12
  | chksum => 8
  | typeflag => 1
  | linkname => 100
  | magic => 6
  | version => 2
  | uname | gname => 32
  | devmajor | devminor => 8
  | namePrefix => 155

theorem Field.offset_add_width_le (field : Field) :
    field.offset + field.width ≤ 500 := by
  cases field <;> decide

/-- A `struct posix_header *`: a position in the buffer the archive was
decompressed into. -/
structure HeaderPtr where
  buf : List Byte
  pos : ℕ

namespace HeaderPtr

/-- The bytes behind the header pointer, up to the end of the buffer. -/
def bytes (ph : HeaderPtr) : List Byte := ph.buf.drop ph.pos

/-- The bytes from a member of the header on.  C strings and numbers are read
from here without regard to the width of the member. -/
def from' (ph : HeaderPtr) (field : Field) : List Byte :=
  ph.bytes.drop field.offset

/-- The bytes of a member of the header alone. -/
def field (ph : HeaderPtr) (field : Field) : List Byte :=
  (ph.from' field).take field.width

theorem from'_eq_field_append (ph : HeaderPtr) (field : Field) :
    ph.from' field = ph.field field ++ (ph.from' field).drop field.width :=
  (List.take_append_drop _ _).symm

/-- `ph->typeflag`. -/
def typeflag (ph : HeaderPtr) : Run ExitReason Byte :=
  match ph.from' .typeflag with
  | [] => Run.fault .outOfBounds
  | byte :: _ => .ok byte

end HeaderPtr

end Tcb.Inodes
