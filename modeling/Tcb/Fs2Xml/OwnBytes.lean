import Tcb.Fs2Xml.Untar

/-!
# The bytes that belong to an archive

All archives are decompressed into one buffer, so behind the end of an archive
stand the bytes of the ones before it.  The loop of `Untar` compares only the
position of a header with the length.  As long as the header, its strings and
numbers, and the data end below the length, the bytes behind it have no effect.
-/

namespace Tcb.OwnBytes

open Tcb.CString
open Tcb.Strtol
open Tcb.Inodes
open Tcb.Split
open Tcb.MergeFile
open Tcb.Untar

/-- What is read of every header ends inside the buffer. -/
structure HeaderInside (ph : HeaderPtr) : Prop where
  name : Run.Returns (cString (ph.from' .name) : Run ExitReason _)
  mode : Run.Returns (cString (ph.from' .mode) : Run ExitReason _)
  size : Run.Returns (strtol 8 (ph.from' .size) : Run ExitReason ℤ)
  typeflag : Run.Returns ph.typeflag

/-- What is read for a new inode ends inside the buffer. -/
structure ContentInside (ph : HeaderPtr) : Prop where
  numbers : ∀ field ∈ [Field.uid, .gid, .mtime, .mode],
    Run.Returns (strtol 8 (ph.from' field) : Run ExitReason ℤ)
  linkname : 0 ∈ ph.from' .linkname ∨ 100 ≤ (ph.from' .linkname).length
  data : ph.typeflag = .ok 48 → ∀ size,
    (strtol 8 (ph.from' .size) : Run ExitReason ℤ) = .ok size → 0 < toInt size →
      512 + (toInt size).toNat ≤ ph.bytes.length

/-- The directory of the header is in the table, and its last component is not
in the directory. -/
def NewTo (ph : HeaderPtr) (inodes : Table) : Prop :=
  ∃ front component parentid, HeaderPath ph (front ++ [component]) ∧
    resolve inodes (-1) front = some parentid ∧
    resolve inodes (-1) (front ++ [component]) = none

/-- What an iteration reads ends inside the buffer. -/
structure BlockInside (buf : List Byte) (state : UntarState) : Prop where
  magic : Run.Returns
    (startsWith ustar (HeaderPtr.from' ⟨buf, state.p.toNat⟩ .magic) : Run ExitReason Bool)
  header : ustar <+: HeaderPtr.from' ⟨buf, state.p.toNat⟩ .magic →
    HeaderInside ⟨buf, state.p.toNat⟩
  content : ustar <+: HeaderPtr.from' ⟨buf, state.p.toNat⟩ .magic →
    NewTo ⟨buf, state.p.toNat⟩ state.inodes → ContentInside ⟨buf, state.p.toNat⟩

/-- Every iteration of a run on these bytes alone stays inside them. -/
def StaysInside (own : List Byte) (len : ℤ) (inodes : Table) : Prop :=
  ∀ state, Reaches own len ⟨0, inodes, []⟩ state → state.p < len → BlockInside own state

/-! ## Reading a header with more bytes behind the buffer -/

section Header

variable {own rest : List Byte} {pos : ℕ} {inodes : Table}

theorem from'_append (field : Field) :
    HeaderPtr.from' ⟨own ++ rest, pos⟩ field =
      HeaderPtr.from' ⟨own, pos⟩ field ++ rest.drop (pos + field.offset - own.length) := by
  rw [from'_eq_drop, from'_eq_drop, List.drop_append]

theorem typeflag_append (htypeflag : Run.Returns (HeaderPtr.typeflag ⟨own, pos⟩)) :
    HeaderPtr.typeflag ⟨own ++ rest, pos⟩ = HeaderPtr.typeflag ⟨own, pos⟩ := by
  obtain ⟨flag, hflag⟩ := htypeflag
  rw [HeaderPtr.typeflag] at hflag ⊢
  rw [HeaderPtr.typeflag, from'_append]
  cases hbytes : HeaderPtr.from' ⟨own, pos⟩ .typeflag with
  | nil => simp [hbytes] at hflag
  | cons byte more => rfl

theorem cString_field (field : Field)
    (hreturns : Run.Returns
      (cString (HeaderPtr.from' ⟨own, pos⟩ field) : Run ExitReason _)) :
    (cString (HeaderPtr.from' ⟨own ++ rest, pos⟩ field) : Run ExitReason _) =
      cString (HeaderPtr.from' ⟨own, pos⟩ field) := by
  rw [from'_append, cString_append hreturns]

theorem strtol_field (field : Field)
    (hreturns : Run.Returns
      (strtol 8 (HeaderPtr.from' ⟨own, pos⟩ field) : Run ExitReason ℤ)) :
    (strtol 8 (HeaderPtr.from' ⟨own ++ rest, pos⟩ field) : Run ExitReason ℤ) =
      strtol 8 (HeaderPtr.from' ⟨own, pos⟩ field) := by
  rw [from'_append, strtol_append hreturns]

theorem printMember_append (hinside : HeaderInside ⟨own, pos⟩) :
    printMember ⟨own ++ rest, pos⟩ = printMember ⟨own, pos⟩ := by
  rw [printMember, printMember, typeflag_append hinside.typeflag,
    cString_field .mode hinside.mode, cString_field .name hinside.name]

theorem lastByte_append (hpos : pos < own.length) (text : List Byte) :
    lastByte ⟨own ++ rest, pos⟩ text = lastByte ⟨own, pos⟩ text := by
  rw [lastByte, lastByte, List.getElem?_append_left (show pos - 1 < own.length by omega)]

theorem locate_append (hinside : HeaderInside ⟨own, pos⟩) :
    locate ⟨own ++ rest, pos⟩ inodes = locate ⟨own, pos⟩ inodes := by
  have hpos : pos < own.length := by
    by_contra hend
    obtain ⟨text, htext⟩ := hinside.name
    rw [from'_eq_drop, List.drop_of_length_le (by simp [Field.offset]; omega)] at htext
    simp [cString] at htext
  have hlast : ∀ text, lastByte ⟨own ++ rest, pos⟩ text = lastByte ⟨own, pos⟩ text :=
    lastByte_append hpos
  simp only [locate, split, cString_field .name hinside.name, hlast]

theorem applyTypeflag_append {node : Inode}
    (htypeflag : Run.Returns (HeaderPtr.typeflag ⟨own, pos⟩))
    (hlinkname : 0 ∈ HeaderPtr.from' ⟨own, pos⟩ .linkname ∨
      100 ≤ (HeaderPtr.from' ⟨own, pos⟩ .linkname).length)
    (hdata : HeaderPtr.typeflag ⟨own, pos⟩ = .ok 48 → 0 < node.size →
      512 + node.size.toNat ≤ (HeaderPtr.bytes ⟨own, pos⟩).length) :
    applyTypeflag ⟨own ++ rest, pos⟩ node = applyTypeflag ⟨own, pos⟩ node := by
  have hhead : (HeaderPtr.from' ⟨own ++ rest, pos⟩ .linkname).head? =
      (HeaderPtr.from' ⟨own, pos⟩ .linkname).head? := by
    rw [from'_append]
    cases hbytes : HeaderPtr.from' ⟨own, pos⟩ .linkname with
    | nil => simp [hbytes] at hlinkname
    | cons byte more => rfl
  have hlink : hardLink ⟨own ++ rest, pos⟩ = hardLink ⟨own, pos⟩ := by
    rw [hardLink, hardLink, from'_append, CArray.strncpy_append hlinkname]
  have hcopy : HeaderPtr.typeflag ⟨own, pos⟩ = .ok 48 →
      copyData ⟨own ++ rest, pos⟩ node.size = copyData ⟨own, pos⟩ node.size := by
    intro hfile
    rw [copyData, copyData]
    split
    · rfl
    · split
      · rfl
      · rename_i hzero hnegative
        have hroom : 512 + node.size.toNat ≤ (own.drop pos).length := hdata hfile (by omega)
        have hbytes : HeaderPtr.bytes ⟨own ++ rest, pos⟩ =
            own.drop pos ++ rest.drop (pos - own.length) := List.drop_append
        have hlonger : 512 + node.size.toNat ≤
            (own.drop pos ++ rest.drop (pos - own.length)).length := by
          rw [List.length_append]
          exact Nat.le_add_right_of_le hroom
        have hcopied : ((own.drop pos ++ rest.drop (pos - own.length)).drop 512).take
            node.size.toNat = ((own.drop pos).drop 512).take node.size.toNat := by
          rw [List.drop_append_of_le_length (by omega),
            List.take_append_of_le_length (by rw [List.length_drop]; omega)]
        rw [hbytes, Run.require_pos hlonger, hcopied, HeaderPtr.bytes, Run.require_pos hroom]
  rw [applyTypeflag, applyTypeflag, typeflag_append htypeflag, hhead, hlink]
  obtain ⟨flag, hflag⟩ := htypeflag
  rw [hflag, Run.ok_bind, Run.ok_bind]
  split
  · rfl
  · split
    · rename_i hfile
      rw [hcopy (hfile ▸ hflag)]
    · rfl

theorem newInode_append {component : List Byte} {parentid : ℤ}
    (hinside : HeaderInside ⟨own, pos⟩) (hcontent : ContentInside ⟨own, pos⟩) :
    newInode ⟨own ++ rest, pos⟩ component parentid = newInode ⟨own, pos⟩ component parentid := by
  have hnumber : ∀ field ∈ [Field.uid, .gid, .mtime, .mode],
      (strtol 8 (HeaderPtr.from' ⟨own ++ rest, pos⟩ field) : Run ExitReason ℤ) =
        strtol 8 (HeaderPtr.from' ⟨own, pos⟩ field) :=
    fun field hfield => strtol_field field (hcontent.numbers field hfield)
  have hlink : (CArray.strncpy 100 (by decide) (HeaderPtr.from' ⟨own ++ rest, pos⟩ .linkname) :
      Run ExitReason (CArray 128)) =
        CArray.strncpy 100 (by decide) (HeaderPtr.from' ⟨own, pos⟩ .linkname) := by
    rw [from'_append, CArray.strncpy_append hcontent.linkname]
  rw [newInode, newInode, hlink, strtol_field .size hinside.size,
    hnumber .uid (by simp), hnumber .gid (by simp), hnumber .mtime (by simp),
    hnumber .mode (by simp)]
  obtain ⟨size, hsize⟩ := hinside.size
  rw [hsize]
  -- everything but the switch is equal, and the switch sees the size that was read
  congr 1
  funext name
  congr 1
  funext link
  simp only [Run.ok_bind]
  congr 1
  funext uid
  congr 1
  funext gid
  congr 1
  funext mtime
  congr 1
  funext mode
  exact applyTypeflag_append hinside.typeflag hcontent.linkname
    fun hfile => hcontent.data hfile size hsize

/-- A call of `MergeFile` on a header inside the buffer is the same with more
bytes behind the buffer. -/
theorem mergeFile_append (hinside : HeaderInside ⟨own, pos⟩)
    (hcontent : NewTo ⟨own, pos⟩ inodes → ContentInside ⟨own, pos⟩) :
    mergeFile ⟨own ++ rest, pos⟩ inodes = mergeFile ⟨own, pos⟩ inodes := by
  rw [mergeFile, mergeFile, locate_append hinside, typeflag_append hinside.typeflag]
  cases hlocate : locate ⟨own, pos⟩ inodes with
  | error stop => simp only [Run.error_bind]
  | ok found =>
      obtain ⟨parentid, component⟩ := found
      simp only [Run.ok_bind]
      congr 1
      funext flag
      by_cases hnew : searchInode inodes component parentid = -1
      · obtain ⟨front, hpath, hfront⟩ := locate_eq_ok.mp hlocate
        have hnone : resolve inodes (-1) (front ++ [component]) = none :=
          resolve_eq_none_of_new hfront hnew
        rw [newInode_append hinside (hcontent ⟨front, component, parentid, hpath, hfront, hnone⟩)]
      · by_cases hflag : flag = 53 <;> simp [hnew, hflag]

end Header

/-! ## The loop -/

section Loop

variable {own rest : List Byte}

theorem untarBlock_append {state : UntarState} (hinside : BlockInside own state) :
    untarBlock (own ++ rest) state = untarBlock own state := by
  have hmagic : (startsWith ustar (HeaderPtr.from' ⟨own ++ rest, state.p.toNat⟩ .magic) :
      Run ExitReason Bool) = startsWith ustar (HeaderPtr.from' ⟨own, state.p.toNat⟩ .magic) := by
    rw [from'_append, startsWith_append hinside.magic]
  simp only [untarBlock]
  rw [hmagic]
  by_cases hustar : ustar <+: HeaderPtr.from' ⟨own, state.p.toNat⟩ .magic
  · have hheader := hinside.header hustar
    rw [strtol_field .size hheader.size, printMember_append hheader,
      mergeFile_append hheader (hinside.content hustar)]
  · obtain ⟨found, hfound⟩ := hinside.magic
    have hfalse : found = false := by
      cases found with
      | false => rfl
      | true => exact absurd (isPrefix_of_startsWith hfound) hustar
    simp only [hfound, hfalse, Run.ok_bind, if_true]

theorem untarLoop_append {len : ℤ} {start : UntarState}
    (hinside : ∀ state, Reaches own len start state → state.p < len → BlockInside own state)
    (fuel : ℕ) :
    untarLoop (own ++ rest) len fuel start = untarLoop own len fuel start := by
  induction fuel generalizing start with
  | zero => rw [untarLoop, untarLoop]
  | succ fuel ih =>
      rw [untarLoop, untarLoop]
      split
      · rename_i hlt
        rw [untarBlock_append (hinside start .start hlt)]
        cases hblock : untarBlock own start with
        | error stop => rw [Run.error_bind, Run.error_bind]
        | ok next =>
            rw [Run.ok_bind, Run.ok_bind]
            exact ih fun state hreaches => hinside state (.head hlt hblock hreaches)
      · rfl

end Loop

/-- Two buffers that agree up to the length of the archive give the same table
and the same outcome, when every iteration of a run on the archive alone stays
inside it. -/
theorem untar_own_bytes {buf other : List Byte} {len : ℤ}
    (hagree : buf.take len.toNat = other.take len.toNat) {inodes : Table}
    (hinside : StaysInside (buf.take len.toNat) len inodes) (fuel : ℕ) :
    untar buf len fuel inodes = untar other len fuel inodes := by
  have hown : ∀ rest, untar (buf.take len.toNat ++ rest) len fuel inodes =
      untar (buf.take len.toNat) len fuel inodes :=
    fun rest => untarLoop_append hinside fuel
  calc untar buf len fuel inodes
      = untar (buf.take len.toNat ++ buf.drop len.toNat) len fuel inodes := by
        rw [List.take_append_drop]
    _ = untar (buf.take len.toNat) len fuel inodes := hown _
    _ = untar (buf.take len.toNat ++ other.drop len.toNat) len fuel inodes := (hown _).symm
    _ = untar other len fuel inodes := by rw [hagree, List.take_append_drop]

/-! ## A file with other bytes behind it -/

/-- A file whose data fills a block. -/
def blockFile : Members.Member :=
  { storedFile with
    content := { TarHeader.fileContent with
      data := List.replicate 512 104
      sizeFits := by
        rw [List.length_replicate]
        decide } }

/-- The archive that ends with the data of the file. -/
def blockArchive : List Byte := TarHeader.tarHeader blockFile ++ blockFile.content.data

theorem length_blockArchive : blockArchive.length = 1024 := by
  have hdata : blockFile.content.data.length = 512 := List.length_replicate
  rw [blockArchive, List.length_append, TarHeader.length_tarHeader, hdata]

theorem headerInside_blockFile : HeaderInside ⟨blockArchive, 0⟩ where
  name := by decide +kernel
  mode := by decide +kernel
  size := by decide +kernel
  typeflag := by decide +kernel

theorem contentInside_blockFile : ContentInside ⟨blockArchive, 0⟩ where
  numbers := by decide +kernel
  linkname := by decide +kernel
  data _ size hsize _ := by
    have hread : (strtol 8 (HeaderPtr.from' ⟨blockArchive, 0⟩ .size) : Run ExitReason ℤ) =
        .ok 512 := by
      decide +kernel
    rw [hread, Except.ok.injEq] at hsize
    have hbytes : (HeaderPtr.bytes ⟨blockArchive, 0⟩).length = 1024 := length_blockArchive
    rw [hbytes, ← hsize]
    decide

theorem staysInside_blockArchive : StaysInside blockArchive 1024 [] := by
  intro state hreaches hlt
  rcases hreaches.cases_head with rfl | ⟨-, next, hblock, hrest⟩
  · exact ⟨by decide +kernel, fun _ => headerInside_blockFile, fun _ _ => contentInside_blockFile⟩
  · -- behind the data the loop has come to its end
    have hnext : UntarState.p <$> untarBlock blockArchive ⟨0, [], []⟩ = .ok 1024 := by
      decide +kernel
    rw [hblock, Run.map_ok, Except.ok.injEq] at hnext
    rcases hrest.cases_head with rfl | ⟨hbefore, -⟩
    · omega
    · omega

theorem untar_own_bytes_blockFile :
    untar (blockArchive ++ ascii ['h', 'i']) 1024 1 [] =
      untar (blockArchive ++ ascii ['h', 'o']) 1024 1 [] := by
  have htake : ∀ older, (blockArchive ++ older).take (1024 : ℤ).toNat = blockArchive :=
    fun older => List.take_left' length_blockArchive
  refine untar_own_bytes ?_ ?_ 1
  · rw [htake, htake]
  · rw [htake]
    exact staysInside_blockArchive

/-- A header, and the bytes of an earlier archive behind it. -/
def headerBefore (member : Members.Member) (older : List Byte) : List Byte :=
  TarHeader.tarHeader member ++ older

/-- The archive ends behind the header of a file, and the file gets the bytes
that stand there. -/
theorem untar_older_bytes :
    (headerBefore storedFile (ascii ['h', 'i'])).take 512 =
        (headerBefore storedFile (ascii ['h', 'o'])).take 512 ∧
      UntarState.inodes <$> untar (headerBefore storedFile (ascii ['h', 'i'])) 512 1 [] ≠
        UntarState.inodes <$> untar (headerBefore storedFile (ascii ['h', 'o'])) 512 1 [] := by
  decide +kernel

end Tcb.OwnBytes
