import Tcb.Fs2Xml.Untar
import Tcb.Fs2Xml.Manifest
import Tcb.Fs2Xml.Placement

/-!
# The program

`main` decompresses every archive into one buffer and unpacks it from there,
then writes the files and the two manifests.  Between `decompress` and `Untar`
only the length is passed on, and nothing looks at it: an archive that could
not be decompressed has a negative length, and its loop ends before it starts.
-/

namespace Tcb.Main

open Tcb.CString
open Tcb.Inodes
open Tcb.MergeFile
open Tcb.Members
open Tcb.TarHeader
open Tcb.Untar
open Tcb.WalkDir
open Tcb.Manifest

/-- The size of the buffer, and of what is asked for. -/
def bufferSize : ℕ := 60 * 1024 * 1024

/-- The functions of libbz2 that are used.  A call of `BZ2_bzread` gives its
result and the bytes that it put into the buffer. -/
structure Bz2 where
  File : Type
  BZ2_bzopen : List Byte → Option File
  BZ2_bzread : File → ℕ → ℤ × List Byte
  delivered : ∀ fp count, 0 ≤ (BZ2_bzread fp count).1 →
    (BZ2_bzread fp count).1 = (BZ2_bzread fp count).2.length
  atMost : ∀ fp count, (BZ2_bzread fp count).2.length ≤ count

/-- The buffer that the archives are decompressed into. -/
structure Buffer where
  bytes : List Byte
  size : bytes.length = bufferSize

/-- The first bytes of the buffer replaced. -/
def Buffer.fill (buf : Buffer) (front : List Byte) (hfits : front.length ≤ bufferSize) :
    Buffer where
  bytes := front ++ buf.bytes.drop front.length
  size := by
    rw [List.length_append, List.length_drop, buf.size]
    omega

/-- `decompress(filename, buf)`: the length that `BZ2_bzread` returns, whatever
it is. -/
def decompress (lib : Bz2) (filename : List Byte) (buf : Buffer) :
    Run ExitReason (ℤ × Buffer) := do
  Run.require (filename.length < 256)
  match lib.BZ2_bzopen filename with
  | none => Run.exit .cannotOpenBz2
  | some fp =>
      let read := lib.BZ2_bzread fp bufferSize
      return (read.1, buf.fill read.2 (lib.atMost fp bufferSize))

/-- The state of the loop over the arguments; for every archive the offsets of
the headers that were handed to `MergeFile` are logged. -/
structure ReadState where
  buf : Buffer
  inodes : Table
  calls : List (List ℕ)

def readArchive (lib : Bz2) (fuel : ℕ) (state : ReadState) (filename : List Byte) :
    Run ExitReason ReadState := do
  let (len, buf) ← decompress lib filename state.buf
  let unpacked ← untar buf.bytes len fuel state.inodes
  return {
    buf := buf
    inodes := unpacked.inodes
    calls := state.calls ++ [unpacked.calls] }

/-- The sum of the sizes of the regular files, which is only printed. -/
def totalSize (inodes : Table) : Run ExitReason ℤ :=
  inodes.foldlM (fun size node => if node.isReg then addInt size node.size else .ok size) 0

/-- `fopen`, the printing and `fclose` of a manifest. -/
def writeManifest (host : Host) (filename : List Byte) (reason : ExitReason)
    (print : Run ExitReason (List Byte)) (disk : host.Disk) : Run ExitReason host.Disk :=
  match host.fopen filename disk with
  | none => Run.exit reason
  | some (fp, disk) => do
      let text ← print
      return host.fclose fp (host.fwrite fp text disk)

/-- `"fs.xml"` and `"fs.json"`. -/
def xmlName : List Byte := ascii ['f', 's', '.', 'x', 'm', 'l']
def jsonName : List Byte := ascii ['f', 's', '.', 'j', 's', 'o', 'n']

def textXML (inodes : Table) : Run ExitReason (List Byte) :=
  (fun fp => fp.out.flatMap Xml.Token.bytes) <$> createXML inodes

def textJSON (inodes : Table) : Run ExitReason (List Byte) :=
  (fun fp => fp.out.flatMap Json.Token.bytes) <$> createJSON inodes

structure Outcome (host : Host) where
  status : ℕ
  calls : List (List ℕ)
  disk : host.Disk

/-- `main`.  The bytes of the buffer that `malloc` gives are unknown. -/
def main (lib : Bz2) (host : Host) (fuel : ℕ) (buf : Buffer) (disk : host.Disk)
    (argv : List (List Byte)) : Run ExitReason (Outcome host) :=
  if argv.length < 2 then .ok { status := 1, calls := [], disk := disk }
  else do
    let read ← argv.tail.foldlM (readArchive lib fuel) { buf := buf, inodes := [], calls := [] }
    let _ ← totalSize read.inodes
    let walked ← createFilesystem host read.inodes disk
    let disk ← writeManifest host xmlName .cannotCreateXML (textXML walked.inodes) walked.disk
    let disk ← writeManifest host jsonName .cannotCreateJSON (textJSON walked.inodes) disk
    return { status := 0, calls := read.calls, disk := disk }

/-! ## Archives that are read whole -/

/-- What a file given to the program holds. -/
structure TarFile where
  members : List TarMember
  zeros : ℕ

namespace TarFile

def bytes (file : TarFile) : List Byte := archive file.members file.zeros

def headers (file : TarFile) : List ℕ := headerOffsets 0 file.members

end TarFile

/-- The whole content of the file is delivered. -/
def Obtained (lib : Bz2) (filename : List Byte) (file : TarFile) : Prop :=
  ∃ fp, lib.BZ2_bzopen filename = some fp ∧
    lib.BZ2_bzread fp bufferSize = ((file.bytes.length : ℤ), file.bytes)

section Reading

variable {lib : Bz2} {fuel : ℕ} {filename : List Byte}

theorem decompress_eq_ok {buf next : Buffer} {len : ℤ} :
    decompress lib filename buf = .ok (len, next) ↔
      filename.length < 256 ∧ ∃ fp, lib.BZ2_bzopen filename = some fp ∧
        len = (lib.BZ2_bzread fp bufferSize).1 ∧
        next = buf.fill (lib.BZ2_bzread fp bufferSize).2 (lib.atMost fp bufferSize) := by
  rw [decompress]
  by_cases hlength : filename.length < 256
  · rw [Run.require_pos hlength, Run.ok_bind]
    cases hopen : lib.BZ2_bzopen filename with
    | none => simp
    | some fp => simp [hlength, eq_comm]
  · simp [Run.require, hlength]

theorem readArchive_eq_ok {state next : ReadState} :
    readArchive lib fuel state filename = .ok next ↔
      ∃ len buf unpacked, decompress lib filename state.buf = .ok (len, buf) ∧
        untar buf.bytes len fuel state.inodes = .ok unpacked ∧
        next = ⟨buf, unpacked.inodes, state.calls ++ [unpacked.calls]⟩ := by
  simp only [readArchive, Run.bind_eq_ok, Prod.exists, Run.pure_eq_ok, Except.ok.injEq]
  constructor
  · rintro ⟨len, buf, hread, unpacked, hunpacked, rfl⟩
    exact ⟨len, buf, unpacked, hread, hunpacked, rfl⟩
  · rintro ⟨len, buf, unpacked, hread, hunpacked, rfl⟩
    exact ⟨len, buf, hread, unpacked, hunpacked, rfl⟩

end Reading

/-! ## Success -/

section Success

variable {lib : Bz2} {host : Host} {fuel : ℕ} {buf : Buffer} {disk : host.Disk}
  {names : List (List Byte)}

theorem main_eq_ok {program : List Byte} {outcome : Outcome host}
    (hrun : main lib host fuel buf disk (program :: names) = .ok outcome)
    (hstatus : outcome.status = 0) :
    ∃ read, names.foldlM (readArchive lib fuel) ⟨buf, [], []⟩ = .ok read ∧
      outcome.calls = read.calls := by
  rw [main] at hrun
  split at hrun
  · rw [Except.ok.injEq] at hrun
    subst hrun
    simp at hstatus
  · simp only [Run.bind_eq_ok, List.tail_cons, Run.pure_eq_ok, Except.ok.injEq] at hrun
    obtain ⟨read, hread, size, -, walked, -, xml, -, json, -, rfl⟩ := hrun
    exact ⟨read, hread, rfl⟩

end Success

/-! ## Libraries that give every file the same content -/

/-- The content is delivered as far as it was asked for. -/
def storedBz2 (file : TarFile) : Bz2 where
  File := Unit
  BZ2_bzopen _ := some ()
  BZ2_bzread _ count := ((file.bytes.take count).length, file.bytes.take count)
  delivered _ _ _ := rfl
  atMost _ _ := List.length_take_le _ _

/-- Every file can be opened, and none can be decompressed. -/
def corruptBz2 : Bz2 where
  File := Unit
  BZ2_bzopen _ := some ()
  BZ2_bzread _ _ := (-1, [])
  delivered _ _ hnonneg := absurd hnonneg (by decide)
  atMost _ _ := Nat.zero_le _

def zeroBuffer : Buffer where
  bytes := List.replicate bufferSize 0
  size := List.length_replicate

/-- The name of the program and of one archive. -/
def oneArchive : List (List Byte) := [ascii ['f', 's', '2', 'x', 'm', 'l'], ascii ['a']]

end Tcb.Main
