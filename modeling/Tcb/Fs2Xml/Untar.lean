import Tcb.Fs2Xml.TarHeader

/-!
# Reading an archive block by block

`Untar` steps through the decompressed buffer, hands every block that carries
the magic text to `MergeFile`, and skips the data behind it.  It rounds the
position behind the data down to a block, so the last block of a file that does
not fill it is looked at as if it could be a header.  The state logs the
offsets of the headers that were handed on.
-/

namespace Tcb.Untar

open Tcb.CString
open Tcb.Strtol
open Tcb.Inodes
open Tcb.MergeFile
open Tcb.Members
open Tcb.TarHeader

/-- Addition of two values of type `int`. -/
def addInt (left right : ℤ) : Run ExitReason ℤ :=
  if -2 ^ 31 ≤ left + right ∧ left + right < 2 ^ 31 then .ok (left + right)
  else Run.fault .overflow

/-- `"ustar"`. -/
def ustar : List Byte := ascii ['u', 's', 't', 'a', 'r']

structure UntarState where
  p : ℤ
  inodes : Table
  calls : List ℕ

/-- The line that is printed for a member reads two strings of the header. -/
def printMember (ph : HeaderPtr) : Run ExitReason Unit := do
  let _ ← ph.typeflag
  let _ ← cString (ph.from' .mode)
  let _ ← cString (ph.from' .name)
  return ()

/-- The position behind the data of a member: the comment in the source says
"round up", and the addition of a block is commented out. -/
def skipData (p size : ℤ) : Run ExitReason ℤ :=
  if size ≠ 0 then do
    let p ← addInt p size
    if p % 512 ≠ 0 then return p - p % 512 else return p
  else .ok p

/-- One iteration of the loop. -/
def untarBlock (buf : List Byte) (state : UntarState) : Run ExitReason UntarState := do
  Run.require (0 ≤ state.p)
  let ph : HeaderPtr := ⟨buf, state.p.toNat⟩
  let p ← addInt state.p 0x200
  let magic ← startsWith ustar (ph.from' .magic)
  if magic = false then return { state with p := p }
  else do
    let size ← strtol 8 (ph.from' .size)
    printMember ph
    let inodes ← mergeFile ph state.inodes
    let p ← skipData p (toInt size)
    return { p := p, inodes := inodes, calls := state.calls ++ [ph.pos] }

/-- The `while` loop.  A negative size can move the position back, so nothing
bounds the number of iterations. -/
def untarLoop (buf : List Byte) (len : ℤ) : ℕ → UntarState → Run ExitReason UntarState
  | 0, state => if state.p < len then Run.outOfFuel else .ok state
  | fuel + 1, state =>
      if state.p < len then do
        let state ← untarBlock buf state
        untarLoop buf len fuel state
      else .ok state

/-- `Untar(buf, len)`. -/
def untar (buf : List Byte) (len : ℤ) (fuel : ℕ) (inodes : Table) :
    Run ExitReason UntarState :=
  untarLoop buf len fuel { p := 0, inodes := inodes, calls := [] }

/-! ## Archives -/

/-- A member as it stands in an archive: a header block with the magic text
and a size, and data of any content filled up to whole blocks. -/
structure TarMember where
  header : List Byte
  size : ℕ
  body : List Byte
  headerLength : header.length = 512
  magic : ustar <+: header.drop 257
  sizeField : NumericField 8 ((header.drop 124).take 12) size
  sizeFits : size < 2 ^ 31
  bodyLength : body.length = (size + 511) / 512 * 512

def TarMember.bytes (member : TarMember) : List Byte := member.header ++ member.body

/-- The members and one or more zero blocks. -/
def archive (members : List TarMember) (zeros : ℕ) : List Byte :=
  members.flatMap TarMember.bytes ++ List.replicate (512 * (zeros + 1)) 0

/-- Where the headers stand, when the first one stands at `pos`. -/
def headerOffsets (pos : ℕ) : List TarMember → List ℕ
  | [] => []
  | member :: rest => pos :: headerOffsets (pos + member.bytes.length) rest

/-- The last block of the data is not full, and carries the magic text where a
header has it. -/
def TarMember.Misfires (member : TarMember) : Prop :=
  member.size % 512 ≠ 0 ∧ ustar <+: member.body.drop (member.size / 512 * 512 + 257)

instance (member : TarMember) : Decidable member.Misfires :=
  inferInstanceAs (Decidable (_ ∧ _))

/-! ## The loop -/

theorem untarLoop_stop {buf : List Byte} {len : ℤ} {state : UntarState}
    (hlen : len ≤ state.p) (fuel : ℕ) : untarLoop buf len fuel state = .ok state := by
  cases fuel <;> rw [untarLoop, if_neg (by omega)]

theorem untarLoop_step {buf : List Byte} {len : ℤ} {state next final : UntarState}
    (hlt : state.p < len) (hblock : untarBlock buf state = .ok next)
    (hrest : ∃ fuel, untarLoop buf len fuel next = .ok final) :
    ∃ fuel, untarLoop buf len fuel state = .ok final := by
  obtain ⟨fuel, hfuel⟩ := hrest
  exact ⟨fuel + 1, by rw [untarLoop, if_pos hlt, hblock, Run.ok_bind, hfuel]⟩

theorem untarLoop_cases {buf : List Byte} {len : ℤ} {state final : UntarState} {fuel : ℕ}
    (hlt : state.p < len) (hrun : untarLoop buf len fuel state = .ok final) :
    ∃ rest next, untarBlock buf state = .ok next ∧
      untarLoop buf len rest next = .ok final := by
  cases fuel with
  | zero => simp [untarLoop, hlt] at hrun
  | succ rest =>
      rw [untarLoop, if_pos hlt, Run.bind_eq_ok] at hrun
      obtain ⟨next, hblock, hrest⟩ := hrun
      exact ⟨rest, next, hblock, hrest⟩

/-- The fuel decides whether the loop is cut off, and nothing else. -/
theorem untarLoop_deterministic {buf : List Byte} {len : ℤ} {state left right : UntarState}
    {fuel more : ℕ} (hleft : untarLoop buf len fuel state = .ok left)
    (hright : untarLoop buf len more state = .ok right) : left = right := by
  induction fuel generalizing state more with
  | zero =>
      rw [untarLoop] at hleft
      split at hleft
      · simp at hleft
      · rename_i hend
        rw [untarLoop_stop (by omega)] at hright
        exact Except.ok.inj (hleft.symm.trans hright)
  | succ fuel ih =>
      rw [untarLoop] at hleft
      split at hleft
      · rename_i hlt
        obtain ⟨rest, next, hblock, hrest⟩ := untarLoop_cases hlt hright
        rw [hblock, Run.ok_bind] at hleft
        exact ih hleft hrest
      · rename_i hend
        rw [untarLoop_stop (by omega)] at hright
        exact Except.ok.inj (hleft.symm.trans hright)

/-- The states that the loop passes through. -/
inductive Reaches (buf : List Byte) (len : ℤ) (start : UntarState) : UntarState → Prop
  | start : Reaches buf len start start
  | step {state next : UntarState} (hbefore : Reaches buf len start state)
      (hlt : state.p < len) (hblock : untarBlock buf state = .ok next) :
      Reaches buf len start next

theorem Reaches.head {buf : List Byte} {len : ℤ} {start next state : UntarState}
    (hlt : start.p < len) (hblock : untarBlock buf start = .ok next)
    (hreaches : Reaches buf len next state) : Reaches buf len start state := by
  induction hreaches with
  | start => exact .step .start hlt hblock
  | step _ hlt hblock ih => exact ih.step hlt hblock

/-- A state is the start of the loop, or it is reached from the state behind
the first iteration. -/
theorem Reaches.cases_head {buf : List Byte} {len : ℤ} {start state : UntarState}
    (hreaches : Reaches buf len start state) :
    state = start ∨ start.p < len ∧
      ∃ next, untarBlock buf start = .ok next ∧ Reaches buf len next state := by
  induction hreaches with
  | start => exact .inl rfl
  | @step state next _ hlt hblock ih =>
      rcases ih with rfl | ⟨hstart, second, hsecond, hrest⟩
      · exact .inr ⟨hlt, next, hblock, .start⟩
      · exact .inr ⟨hstart, second, hsecond, hrest.step hlt hblock⟩

/-- A loop that returns has come to the end of the archive. -/
theorem untarLoop_reaches {buf : List Byte} {len : ℤ} {fuel : ℕ} {state final : UntarState}
    (hrun : untarLoop buf len fuel state = .ok final) :
    Reaches buf len state final ∧ len ≤ final.p := by
  induction fuel generalizing state with
  | zero =>
      rw [untarLoop] at hrun
      split at hrun
      · simp at hrun
      · rename_i hend
        rw [← Except.ok.inj hrun]
        exact ⟨.start, not_lt.mp hend⟩
  | succ fuel ih =>
      rw [untarLoop] at hrun
      split at hrun
      · rename_i hlt
        rw [Run.bind_eq_ok] at hrun
        obtain ⟨next, hblock, hrest⟩ := hrun
        exact ⟨(ih hrest).1.head hlt hblock, (ih hrest).2⟩
      · rename_i hend
        rw [← Except.ok.inj hrun]
        exact ⟨.start, not_lt.mp hend⟩

theorem untarBlock_calls {buf : List Byte} {state next : UntarState}
    (hrun : untarBlock buf state = .ok next) : state.calls <+: next.calls := by
  simp only [untarBlock, Run.bind_eq_ok] at hrun
  obtain ⟨_, -, p, -, magic, -, hrun⟩ := hrun
  split at hrun
  · rw [Run.pure_eq_ok, Except.ok.injEq] at hrun
    rw [← hrun]
  · simp only [Run.bind_eq_ok, Run.pure_eq_ok, Except.ok.injEq] at hrun
    obtain ⟨size, -, _, -, inodes, -, p, -, rfl⟩ := hrun
    exact List.prefix_append _ _

/-- Calls are never taken back. -/
theorem untarLoop_calls {buf : List Byte} {len : ℤ} {fuel : ℕ} {state final : UntarState}
    (hrun : untarLoop buf len fuel state = .ok final) : state.calls <+: final.calls := by
  induction fuel generalizing state with
  | zero =>
      rw [untarLoop] at hrun
      split at hrun
      · simp at hrun
      · rw [Except.ok.injEq] at hrun
        rw [hrun]
  | succ fuel ih =>
      rw [untarLoop] at hrun
      split at hrun
      · rw [Run.bind_eq_ok] at hrun
        obtain ⟨next, hblock, hrest⟩ := hrun
        exact (untarBlock_calls hblock).trans (ih hrest)
      · rw [Except.ok.injEq] at hrun
        rw [hrun]

/-! ## One block -/

section Block

variable {buf : List Byte} {pos : ℕ} {inodes : Table} {calls : List ℕ}

theorem addInt_eq {left right : ℤ} (hlow : 0 ≤ left + right)
    (hhigh : left + right < 2 ^ 31) : addInt left right = .ok (left + right) :=
  if_pos ⟨by omega, hhigh⟩

theorem from'_eq_drop (field : Field) :
    HeaderPtr.from' ⟨buf, pos⟩ field = buf.drop (pos + field.offset) := by
  rw [HeaderPtr.from', HeaderPtr.bytes, List.drop_drop]

/-- A block without the magic text is passed over. -/
theorem untarBlock_skip (hroom : (pos : ℤ) + 512 < 2 ^ 31)
    (hbuf : pos + 512 ≤ buf.length) (hmagic : ¬ ustar <+: buf.drop (pos + 257)) :
    untarBlock buf ⟨pos, inodes, calls⟩ = .ok ⟨(pos + 512 : ℕ), inodes, calls⟩ := by
  have hlength : ustar.length ≤ (buf.drop (pos + 257)).length := by
    rw [List.length_drop]
    have hustar : ustar.length = 5 := rfl
    omega
  simp only [untarBlock, Run.require_pos (Int.natCast_nonneg pos), Run.ok_bind,
    addInt_eq (show (0 : ℤ) ≤ pos + 0x200 by omega) hroom, Int.toNat_natCast,
    from'_eq_drop, Field.offset, startsWith_eq_false hlength hmagic]
  rfl

/-- A block with the magic text is handed to `MergeFile`, whatever it is. -/
theorem untarBlock_call {next : UntarState} (hmagic : ustar <+: buf.drop (pos + 257))
    (hrun : untarBlock buf ⟨pos, inodes, calls⟩ = .ok next) :
    next.calls = calls ++ [pos] := by
  simp only [untarBlock, Run.bind_eq_ok, Int.toNat_natCast, from'_eq_drop, Field.offset,
    startsWith_eq_true hmagic, Except.ok.injEq] at hrun
  obtain ⟨_, -, p, -, magic, rfl, hrun⟩ := hrun
  simp only [Bool.true_eq_false, if_false, Run.bind_eq_ok, Run.pure_eq_ok,
    Except.ok.injEq] at hrun
  obtain ⟨size, -, _, -, merged, -, p, -, rfl⟩ := hrun
  rfl

/-- From a position on a block boundary the data is left at the boundary below
its end. -/
theorem skipData_eq {size : ℕ} (haligned : pos % 512 = 0)
    (hroom : pos + size < 2 ^ 31) :
    skipData pos size = .ok ((pos + size / 512 * 512 : ℕ) : ℤ) := by
  rw [skipData]
  by_cases hsize : size = 0
  · simp [hsize]
  · have hadd : addInt (pos : ℤ) size = .ok ((pos : ℤ) + size) :=
      addInt_eq (by omega) (by omega)
    rw [if_pos (by exact_mod_cast hsize), hadd, Run.ok_bind]
    have hround : ((pos : ℤ) + size) - ((pos : ℤ) + size) % 512 =
        ((pos + size / 512 * 512 : ℕ) : ℤ) := by
      omega
    split
    · rw [hround]
      rfl
    · rename_i hfull
      rw [← hround]
      simp only [ne_eq, not_not] at hfull
      rw [hfull, sub_zero]
      rfl

end Block

/-! ## One member -/

section Member

variable {buf rest : List Byte} {pos : ℕ} {inodes : Table} {calls : List ℕ}
  {member : TarMember}

namespace TarMember

theorem length_bytes (member : TarMember) :
    member.bytes.length = 512 + (member.size + 511) / 512 * 512 := by
  rw [bytes, List.length_append, member.headerLength, member.bodyLength]

/-- What stands behind the header and the full blocks of the data. -/
theorem drop_last (hat : buf.drop pos = member.bytes ++ rest)
    (hnotFull : member.size % 512 ≠ 0) {offset : ℕ} (hoffset : offset ≤ 512) :
    buf.drop (pos + 512 + member.size / 512 * 512 + offset) =
      member.body.drop (member.size / 512 * 512 + offset) ++ rest := by
  have hlength := member.bodyLength
  have hheader : (member.header ++ (member.body ++ rest)).drop 512 = member.body ++ rest := by
    rw [← member.headerLength, List.drop_left]
  calc buf.drop (pos + 512 + member.size / 512 * 512 + offset)
      = ((buf.drop pos).drop 512).drop (member.size / 512 * 512 + offset) := by
        rw [List.drop_drop, List.drop_drop, Nat.add_assoc (pos + 512),
          Nat.add_assoc pos]
    _ = (member.body ++ rest).drop (member.size / 512 * 512 + offset) := by
        rw [hat, bytes, List.append_assoc, hheader]
    _ = member.body.drop (member.size / 512 * 512 + offset) ++ rest :=
        List.drop_append_of_le_length (by omega)

/-- The block that the loop looks at behind the header and the full blocks of
the data. -/
theorem last_block_iff (hat : buf.drop pos = member.bytes ++ rest)
    (hnotFull : member.size % 512 ≠ 0) :
    ustar <+: buf.drop (pos + 512 + member.size / 512 * 512 + 257) ↔ member.Misfires := by
  have hroom : ustar.length ≤ (member.body.drop (member.size / 512 * 512 + 257)).length := by
    have hustar : ustar.length = 5 := rfl
    rw [List.length_drop, member.bodyLength]
    omega
  rw [drop_last hat hnotFull (by omega), List.isPrefix_append_of_length hroom, Misfires]
  exact (and_iff_right hnotFull).symm

theorem header_magic (hat : member.header <+: buf.drop pos) :
    ustar <+: buf.drop (pos + 257) := by
  obtain ⟨behind, hbehind⟩ := hat
  rw [← List.drop_drop, ← hbehind,
    List.drop_append_of_le_length (by rw [member.headerLength]; omega)]
  exact member.magic.trans (List.prefix_append _ _)

theorem header_size (hat : member.header <+: buf.drop pos) :
    (strtol 8 (buf.drop (pos + 124)) : Run ExitReason ℤ) = .ok (member.size : ℤ) := by
  have hfits := member.sizeFits
  obtain ⟨behind, hbehind⟩ := hat
  rw [← List.drop_drop, ← hbehind,
    List.drop_append_of_le_length (by rw [member.headerLength]; omega),
    ← List.take_append_drop 12 (member.header.drop 124), List.append_assoc]
  exact strtol_numericField member.sizeField (by omega) _

end TarMember

theorem printMember_returns (hroom : pos + 512 ≤ buf.length)
    (hnul : 0 ∈ buf.drop (pos + 512)) : printMember ⟨buf, pos⟩ = .ok () := by
  have hstring : ∀ field : Field,
      Run.Returns (cString (HeaderPtr.from' ⟨buf, pos⟩ field) : Run ExitReason _) := by
    intro field
    apply cString_returns
    have hoffset := field.offset_add_width_le
    rw [from'_eq_drop]
    apply List.mem_of_mem_drop (i := 512 - field.offset)
    rwa [List.drop_drop, show pos + field.offset + (512 - field.offset) = pos + 512 by omega]
  obtain ⟨mode, hmode⟩ := hstring .mode
  obtain ⟨name, hname⟩ := hstring .name
  have hflag : ∃ flag, HeaderPtr.typeflag ⟨buf, pos⟩ = .ok flag := by
    rw [HeaderPtr.typeflag, from'_eq_drop]
    cases hbytes : buf.drop (pos + Field.offset .typeflag) with
    | nil =>
        rw [List.drop_eq_nil_iff, Field.offset] at hbytes
        omega
    | cons byte more => exact ⟨byte, rfl⟩
  obtain ⟨flag, hflag⟩ := hflag
  simp only [printMember, hflag, hmode, hname, Run.ok_bind]
  rfl

/-- What the loop reads of the header of a member before the call. -/
structure HeaderRead (buf : List Byte) (pos : ℕ) (member : TarMember) : Prop where
  magic : startsWith ustar (HeaderPtr.from' ⟨buf, pos⟩ .magic) =
    (.ok true : Run ExitReason Bool)
  size : (strtol 8 (HeaderPtr.from' ⟨buf, pos⟩ .size) : Run ExitReason ℤ) =
    .ok (member.size : ℤ)
  printed : printMember ⟨buf, pos⟩ = .ok ()

theorem headerRead (hat : buf.drop pos = member.bytes ++ rest) (hnul : 0 ∈ rest) :
    HeaderRead buf pos member := by
  have hat' : buf.drop pos = member.header ++ (member.body ++ rest) := by
    rw [hat, TarMember.bytes, List.append_assoc]
  have hheader : member.header <+: buf.drop pos := ⟨_, hat'.symm⟩
  have hlength := member.length_bytes
  have hbuf : pos + member.bytes.length ≤ buf.length := by
    have htotal := congrArg List.length hat
    rw [List.length_drop, List.length_append] at htotal
    have hpos : 0 < member.bytes.length := by omega
    omega
  constructor
  · rw [from'_eq_drop, Field.offset]
    exact startsWith_eq_true (TarMember.header_magic hheader)
  · rw [from'_eq_drop, Field.offset]
    exact TarMember.header_size hheader
  · apply printMember_returns (by omega)
    rw [← List.drop_drop, hat', List.drop_left' member.headerLength]
    simp [hnul]

/-- The header of a member is handed to `MergeFile`, and the position behind
it is rounded down to a block. -/
theorem untarBlock_header (hat : buf.drop pos = member.bytes ++ rest) (hnul : 0 ∈ rest)
    (haligned : pos % 512 = 0) (hroom : pos + member.bytes.length < 2 ^ 31) :
    untarBlock buf ⟨pos, inodes, calls⟩ =
      mergeFile ⟨buf, pos⟩ inodes >>= fun merged =>
        .ok ⟨(pos + 512 + member.size / 512 * 512 : ℕ), merged, calls ++ [pos]⟩ := by
  have hlength := member.length_bytes
  have hread := headerRead hat hnul
  have hskip : skipData ((pos : ℤ) + 0x200) (member.size : ℤ) =
      .ok ((pos + 512 + member.size / 512 * 512 : ℕ) : ℤ) := by
    have haligned' : (pos + 512) % 512 = 0 := by omega
    exact_mod_cast skipData_eq haligned' (show pos + 512 + member.size < 2 ^ 31 by omega)
  simp only [untarBlock, Run.require_pos (Int.natCast_nonneg pos), Run.ok_bind,
    addInt_eq (show (0 : ℤ) ≤ pos + 0x200 by omega) (show (pos : ℤ) + 0x200 < 2 ^ 31 by omega),
    Int.toNat_natCast, hread.magic, Bool.true_eq_false, if_false, hread.size, hread.printed,
    toInt_of_lt member.sizeFits, hskip]
  rfl

/-- The position behind the header and the full blocks of the data is the end
of the member, or one block before it. -/
theorem TarMember.behind_data (member : TarMember) :
    pos + 512 + member.size / 512 * 512 =
      if member.size % 512 = 0 then pos + member.bytes.length
      else pos + member.bytes.length - 512 := by
  have hlength := member.length_bytes
  split <;> omega

/-- The last block of a member that does not misfire is passed over. -/
theorem untarBlock_last (hat : buf.drop pos = member.bytes ++ rest)
    (hroom : pos + member.bytes.length < 2 ^ 31) (hnotFull : member.size % 512 ≠ 0)
    (hmisfire : ¬ member.Misfires) :
    untarBlock buf ⟨(pos + 512 + member.size / 512 * 512 : ℕ), inodes, calls⟩ =
      .ok ⟨(pos + member.bytes.length : ℕ), inodes, calls⟩ := by
  have hlength := member.length_bytes
  have htotal := congrArg List.length hat
  rw [List.length_drop, List.length_append] at htotal
  have hend : pos + 512 + member.size / 512 * 512 + 512 = pos + member.bytes.length := by
    omega
  have hmagic : ¬ ustar <+: buf.drop (pos + 512 + member.size / 512 * 512 + 257) := by
    rwa [TarMember.last_block_iff hat hnotFull]
  rw [untarBlock_skip (by omega) (by omega) hmagic, hend]

end Member

/-! ## Whole archives -/

section Archive

variable {buf tail : List Byte} {pos zeros : ℕ} {inodes : Table} {calls : List ℕ}
  {member : TarMember} {members : List TarMember}

theorem archive_cons (member : TarMember) (members : List TarMember) (zeros : ℕ) :
    archive (member :: members) zeros = member.bytes ++ archive members zeros := by
  rw [archive, List.flatMap_cons, List.append_assoc, archive]

theorem length_archive_pos (members : List TarMember) (zeros : ℕ) :
    512 ≤ (archive members zeros).length := by
  rw [archive, List.length_append, List.length_replicate]
  omega

theorem zero_mem_archive (members : List TarMember) (zeros : ℕ) :
    0 ∈ archive members zeros ++ tail := by
  simp [archive]

theorem drop_member (hat : buf.drop pos = archive (member :: members) zeros ++ tail) :
    buf.drop (pos + member.bytes.length) = archive members zeros ++ tail := by
  rw [← List.drop_drop, hat, archive_cons, List.append_assoc, List.drop_left]

theorem le_of_mem_headerOffsets {offset : ℕ} (hmem : offset ∈ headerOffsets pos members) :
    pos ≤ offset := by
  induction members generalizing pos with
  | nil => simp [headerOffsets] at hmem
  | cons member members ih =>
      rw [headerOffsets, List.mem_cons] at hmem
      rcases hmem with rfl | hmem
      · exact le_rfl
      · exact (Nat.le_add_right _ _).trans (ih hmem)

/-- The blocks at the end of the archive are passed over. -/
theorem untarLoop_zeros {count : ℕ} (hat : buf.drop pos = List.replicate (512 * count) 0 ++ tail)
    (hroom : pos + 512 * count < 2 ^ 31) :
    ∃ fuel, untarLoop buf (pos + 512 * count : ℕ) fuel ⟨pos, inodes, calls⟩ =
      .ok ⟨(pos + 512 * count : ℕ), inodes, calls⟩ := by
  induction count generalizing pos with
  | zero => exact ⟨0, untarLoop_stop (by simp) 0⟩
  | succ count ih =>
      have hinside : 257 < 512 * (count + 1) :=
        calc 257 < 512 := by norm_num
          _ ≤ 512 * (count + 1) := Nat.le_mul_of_pos_right 512 count.succ_pos
      have hsplit : List.replicate (512 * (count + 1)) (0 : Byte) =
          List.replicate 512 0 ++ List.replicate (512 * count) 0 := by
        rw [List.replicate_append_replicate, Nat.mul_succ, Nat.add_comm]
      have hnext : buf.drop (pos + 512) = List.replicate (512 * count) 0 ++ tail := by
        rw [← List.drop_drop, hat, hsplit, List.append_assoc]
        exact List.drop_left' List.length_replicate
      have htotal := congrArg List.length hat
      rw [List.length_drop, List.length_append, List.length_replicate] at htotal
      have hmagic : ¬ ustar <+: buf.drop (pos + 257) := by
        have hzero : (buf.drop (pos + 257))[0]? = some 0 := by
          rw [← List.drop_drop, hat, List.getElem?_drop, Nat.add_zero,
            List.getElem?_append_left (by rwa [List.length_replicate]),
            List.getElem?_replicate, if_pos hinside]
        rintro ⟨more, hmore⟩
        rw [← hmore] at hzero
        simp [ustar, ascii] at hzero
      have hend : pos + 512 * (count + 1) = pos + 512 + 512 * count := by ring
      rw [hend] at hroom ⊢
      exact untarLoop_step (by push_cast; omega)
        (untarBlock_skip (by omega) (by omega) hmagic) (ih hnext hroom)

/-- When no member misfires, the loop hands on the headers and nothing else. -/
theorem untarLoop_members {final : Table} (hat : buf.drop pos = archive members zeros ++ tail)
    (haligned : pos % 512 = 0) (hroom : pos + (archive members zeros).length < 2 ^ 31)
    (hmisfire : ∀ member ∈ members, ¬ member.Misfires)
    (hmerge : mergeAll ((headerOffsets pos members).map (HeaderPtr.mk buf)) inodes =
      .ok final) :
    ∃ fuel, untarLoop buf (pos + (archive members zeros).length : ℕ) fuel
        ⟨pos, inodes, calls⟩ =
      .ok ⟨(pos + (archive members zeros).length : ℕ), final,
        calls ++ headerOffsets pos members⟩ := by
  induction members generalizing pos inodes calls with
  | nil =>
      rw [headerOffsets, List.map_nil, mergeAll, List.foldlM_nil, Run.pure_eq_ok,
        Except.ok.injEq] at hmerge
      rw [headerOffsets, List.append_nil, ← hmerge]
      simp only [archive, List.flatMap_nil, List.nil_append, List.length_replicate] at hat hroom ⊢
      exact untarLoop_zeros hat hroom
  | cons member members ih =>
      have hat' : buf.drop pos = member.bytes ++ (archive members zeros ++ tail) := by
        rw [hat, archive_cons, List.append_assoc]
      have hlength := member.length_bytes
      have hzeros := length_archive_pos members zeros
      rw [archive_cons, List.length_append, ← Nat.add_assoc] at hroom ⊢
      rw [headerOffsets, List.map_cons, mergeAll, List.foldlM_cons, Run.bind_eq_ok] at hmerge
      obtain ⟨merged, hhead, hmerge⟩ := hmerge
      have hrest : ∃ fuel, untarLoop buf
          (pos + member.bytes.length + (archive members zeros).length : ℕ) fuel
            ⟨(pos + member.bytes.length : ℕ), merged, calls ++ [pos]⟩ =
          .ok ⟨(pos + member.bytes.length + (archive members zeros).length : ℕ), final,
            calls ++ [pos] ++ headerOffsets (pos + member.bytes.length) members⟩ :=
        ih (drop_member hat) (by omega) hroom
          (fun member hmem => hmisfire member (List.mem_cons_of_mem _ hmem)) hmerge
      rw [List.append_assoc, List.singleton_append] at hrest
      have hheader : untarBlock buf ⟨pos, inodes, calls⟩ =
          .ok ⟨(pos + 512 + member.size / 512 * 512 : ℕ), merged, calls ++ [pos]⟩ := by
        rw [untarBlock_header hat' (zero_mem_archive members zeros) haligned (by omega), hhead,
          Run.ok_bind]
      refine untarLoop_step (by push_cast; omega) hheader ?_
      by_cases hnotFull : member.size % 512 = 0
      · rw [TarMember.behind_data, if_pos hnotFull]
        exact hrest
      · refine untarLoop_step (by push_cast; omega) ?_ hrest
        exact untarBlock_last hat' (by omega) hnotFull (hmisfire member List.mem_cons_self)

/-- Members whose data fills its blocks are passed one after the other. -/
theorem reaches_members {rest : List Byte} {len : ℤ} {final : Table}
    (hat : buf.drop pos = members.flatMap TarMember.bytes ++ rest) (hnul : 0 ∈ rest)
    (haligned : pos % 512 = 0)
    (hroom : pos + (members.flatMap TarMember.bytes).length < 2 ^ 31)
    (hlen : ((pos + (members.flatMap TarMember.bytes).length : ℕ) : ℤ) ≤ len)
    (hwhole : ∀ member ∈ members, member.size % 512 = 0)
    (hmerge : mergeAll ((headerOffsets pos members).map (HeaderPtr.mk buf)) inodes =
      .ok final) :
    Reaches buf len ⟨pos, inodes, calls⟩
      ⟨(pos + (members.flatMap TarMember.bytes).length : ℕ), final,
        calls ++ headerOffsets pos members⟩ := by
  induction members generalizing pos inodes calls with
  | nil =>
      rw [headerOffsets, List.map_nil, mergeAll_nil, Except.ok.injEq] at hmerge
      rw [headerOffsets, List.append_nil, ← hmerge]
      exact .start
  | cons member members ih =>
      have hlength := member.length_bytes
      rw [List.flatMap_cons, List.append_assoc] at hat
      rw [List.flatMap_cons, List.length_append, ← Nat.add_assoc] at hroom hlen ⊢
      rw [headerOffsets, List.map_cons, mergeAll, List.foldlM_cons, Run.bind_eq_ok] at hmerge
      obtain ⟨merged, hhead, hmerge⟩ := hmerge
      have hdrop : buf.drop (pos + member.bytes.length) =
          members.flatMap TarMember.bytes ++ rest := by
        rw [← List.drop_drop, hat, List.drop_left]
      have hheader : untarBlock buf ⟨pos, inodes, calls⟩ =
          .ok ⟨(pos + member.bytes.length : ℕ), merged, calls ++ [pos]⟩ := by
        rw [untarBlock_header hat (by simp [hnul]) haligned (by omega), hhead, Run.ok_bind,
          TarMember.behind_data, if_pos (hwhole member List.mem_cons_self)]
      have hrest : Reaches buf len ⟨(pos + member.bytes.length : ℕ), merged, calls ++ [pos]⟩
          ⟨(pos + member.bytes.length + (members.flatMap TarMember.bytes).length : ℕ), final,
            calls ++ [pos] ++ headerOffsets (pos + member.bytes.length) members⟩ :=
        ih hdrop (by omega) hroom hlen
          (fun member hmem => hwhole member (List.mem_cons_of_mem _ hmem)) hmerge
      rw [List.append_assoc, List.singleton_append] at hrest
      exact hrest.head (by push_cast at hlen ⊢; omega) hheader

/-- A run that returns has passed the first member, or has handed on a block of
its data. -/
theorem untarLoop_cons {fuel : ℕ} {final : UntarState}
    (hat : buf.drop pos = archive (member :: members) zeros ++ tail)
    (haligned : pos % 512 = 0)
    (hroom : pos + (archive (member :: members) zeros).length < 2 ^ 31)
    (hrun : untarLoop buf (pos + (archive (member :: members) zeros).length : ℕ) fuel
      ⟨pos, inodes, calls⟩ = .ok final) :
    (¬ member.Misfires ∧ ∃ rest merged,
      untarLoop buf (pos + member.bytes.length + (archive members zeros).length : ℕ) rest
        ⟨(pos + member.bytes.length : ℕ), merged, calls ++ [pos]⟩ = .ok final) ∨
    (member.Misfires ∧ ∃ offset, offset < pos + member.bytes.length ∧
      calls ++ [pos] ++ [offset] <+: final.calls) := by
  have hat' : buf.drop pos = member.bytes ++ (archive members zeros ++ tail) := by
    rw [hat, archive_cons, List.append_assoc]
  have hlength := member.length_bytes
  have hzeros := length_archive_pos members zeros
  rw [archive_cons, List.length_append, ← Nat.add_assoc] at hroom hrun
  obtain ⟨rest, next, hheader, hrest⟩ := untarLoop_cases (by push_cast; omega) hrun
  rw [untarBlock_header hat' (zero_mem_archive members zeros) haligned (by omega),
    Run.bind_eq_ok] at hheader
  obtain ⟨merged, -, hheader⟩ := hheader
  rw [Except.ok.injEq] at hheader
  subst hheader
  by_cases hnotFull : member.size % 512 = 0
  · rw [TarMember.behind_data, if_pos hnotFull] at hrest
    exact .inl ⟨fun hmisfire => hmisfire.1 hnotFull, rest, merged, hrest⟩
  · obtain ⟨rest, last, hlast, hrest⟩ := untarLoop_cases (by push_cast; omega) hrest
    by_cases hmisfire : member.Misfires
    · have hcall := untarBlock_call ((TarMember.last_block_iff hat' hnotFull).mpr hmisfire)
        hlast
      have hlog := untarLoop_calls hrest
      rw [hcall] at hlog
      exact .inr ⟨hmisfire, _, by omega, hlog⟩
    · rw [untarBlock_last hat' (by omega) hnotFull hmisfire, Except.ok.injEq] at hlast
      subst hlast
      exact .inl ⟨hmisfire, rest, merged, hrest⟩

/-- When the loop hands on the headers and nothing else, no member misfired. -/
theorem untarLoop_calls_iff {fuel : ℕ} {final : UntarState}
    (hat : buf.drop pos = archive members zeros ++ tail)
    (haligned : pos % 512 = 0) (hroom : pos + (archive members zeros).length < 2 ^ 31)
    (hrun : untarLoop buf (pos + (archive members zeros).length : ℕ) fuel
      ⟨pos, inodes, calls⟩ = .ok final) :
    final.calls = calls ++ headerOffsets pos members ↔
      ∀ member ∈ members, ¬ member.Misfires := by
  induction members generalizing pos inodes calls fuel with
  | nil =>
      simp only [archive, List.flatMap_nil, List.nil_append, List.length_replicate]
        at hat hroom hrun
      have hzeros : ∃ more, untarLoop buf (pos + 512 * (zeros + 1) : ℕ) more
          ⟨pos, inodes, calls⟩ = .ok ⟨(pos + 512 * (zeros + 1) : ℕ), inodes, calls⟩ :=
        untarLoop_zeros hat hroom
      obtain ⟨_, hzeros⟩ := hzeros
      rw [untarLoop_deterministic hrun hzeros]
      simp [headerOffsets]
  | cons member members ih =>
      have hlength := member.length_bytes
      have hroom' : pos + member.bytes.length + (archive members zeros).length < 2 ^ 31 := by
        rwa [archive_cons, List.length_append, ← Nat.add_assoc] at hroom
      rw [headerOffsets, ← List.singleton_append, ← List.append_assoc, List.forall_mem_cons]
      rcases untarLoop_cons hat haligned hroom hrun with
        ⟨hmisfire, rest, merged, hrest⟩ | ⟨hmisfire, offset, hoffset, hlog⟩
      · rw [ih (drop_member hat) (by omega) hroom' hrest]
        exact (and_iff_right hmisfire).symm
      · refine iff_of_false ?_ (fun hnone => hnone.1 hmisfire)
        intro hcalls
        rw [hcalls, List.prefix_append_right_inj] at hlog
        have hbound := le_of_mem_headerOffsets (hlog.subset List.mem_cons_self)
        omega

end Archive

theorem take_field_tarHeader (member : Member) (field : Field) :
    ((tarHeader member).drop field.offset).take field.width = fieldText member field :=
  @field_eq ⟨tarHeader member, 0⟩ member [] (List.append_nil _).symm field

/-- What an archive holds of a member that was written. -/
def tarMember (member : Member) : TarMember where
  header := tarHeader member
  size := member.content.data.length
  body := member.content.data ++
    List.replicate ((member.content.data.length + 511) / 512 * 512 -
      member.content.data.length) 0
  headerLength := length_tarHeader member
  magic := by
    have hustar : ustar <+: fieldText member .magic := List.prefix_append _ _
    rw [← take_field_tarHeader] at hustar
    exact hustar.trans (List.take_prefix _ _)
  sizeField := by
    have hsize := member.content.sizeFits
    rw [show 124 = Field.size.offset from rfl, show 12 = Field.size.width from rfl,
      take_field_tarHeader]
    exact numericField_numericText (by decide) (by omega)
  sizeFits := member.content.sizeFits
  bodyLength := by
    rw [List.length_append, List.length_replicate]
    omega

/-- The headers of members that were written spell them where they stand. -/
theorem encodes_headerOffsets {buf rest : List Byte} {pos : ℕ} {members : List Member}
    (hat : buf.drop pos = (members.map tarMember).flatMap TarMember.bytes ++ rest)
    (hwritable : ∀ member ∈ members, Writable member) :
    List.Forall₂ Encodes
      ((headerOffsets pos (members.map tarMember)).map (HeaderPtr.mk buf)) members := by
  induction members generalizing pos with
  | nil => exact .nil
  | cons member members ih =>
      rw [List.map_cons, List.flatMap_cons, List.append_assoc] at hat
      have hdrop : buf.drop (pos + (tarMember member).bytes.length) =
          (members.map tarMember).flatMap TarMember.bytes ++ rest := by
        rw [← List.drop_drop, hat, List.drop_left]
      have hpos : (buf.take pos).length = pos := by
        have hlength := (tarMember member).length_bytes
        have htotal := congrArg List.length hat
        rw [List.length_drop, List.length_append] at htotal
        rw [List.length_take]
        omega
      have hencodes := encodes_tarHeader (hwritable member List.mem_cons_self) (buf.take pos)
        (List.replicate ((member.content.data.length + 511) / 512 * 512 -
          member.content.data.length) 0 ++
            ((members.map tarMember).flatMap TarMember.bytes ++ rest))
      have hbuf : buf.take pos ++ (tarHeader member ++ (member.content.data ++
          (List.replicate ((member.content.data.length + 511) / 512 * 512 -
            member.content.data.length) 0 ++
              ((members.map tarMember).flatMap TarMember.bytes ++ rest)))) = buf := by
        rw [← List.append_assoc member.content.data, ← List.append_assoc (tarHeader member)]
        exact (congrArg (buf.take pos ++ ·) hat).symm.trans (List.take_append_drop pos buf)
      rw [hpos, hbuf] at hencodes
      rw [List.map_cons, headerOffsets, List.map_cons]
      exact .cons hencodes
        (ih hdrop fun member hmem => hwritable member (List.mem_cons_of_mem _ hmem))

/-- `Untar` hands on the headers of the archive, each once and in order, and no
block of any data, exactly when no member misfires. -/
theorem untar_calls_iff (members : List TarMember) (zeros : ℕ) (tail : List Byte)
    (inodes : Table) (hroom : (archive members zeros).length < 2 ^ 31)
    (hmerge : Run.Returns
      (mergeAll
        ((headerOffsets 0 members).map (HeaderPtr.mk (archive members zeros ++ tail)))
        inodes)) :
    (∃ fuel final,
        untar (archive members zeros ++ tail) (archive members zeros).length fuel inodes =
          .ok final ∧
        final.calls = headerOffsets 0 members) ↔
      ∀ member ∈ members, ¬ member.Misfires := by
  have hat : (archive members zeros ++ tail).drop 0 = archive members zeros ++ tail := rfl
  have hroom' : 0 + (archive members zeros).length < 2 ^ 31 := by rwa [Nat.zero_add]
  constructor
  · rintro ⟨fuel, final, hrun, hcalls⟩
    rw [untar] at hrun
    rw [← Nat.zero_add (archive members zeros).length] at hrun
    exact (untarLoop_calls_iff hat rfl hroom' hrun).mp hcalls
  · intro hmisfire
    obtain ⟨final, hmerge⟩ := hmerge
    have hrun : ∃ fuel, untarLoop (archive members zeros ++ tail)
        (0 + (archive members zeros).length : ℕ) fuel ⟨(0 : ℕ), inodes, []⟩ =
        .ok ⟨(0 + (archive members zeros).length : ℕ), final, headerOffsets 0 members⟩ :=
      untarLoop_members hat rfl hroom' hmisfire hmerge
    rw [Nat.zero_add] at hrun
    obtain ⟨fuel, hrun⟩ := hrun
    exact ⟨fuel, _, hrun, rfl⟩

theorem untar_calls_smallArchive :
    (∃ fuel final,
        untar (archive ([nestedDirectory 0, smallFile].map tarMember) 1 ++ [])
            (archive ([nestedDirectory 0, smallFile].map tarMember) 1).length fuel [] =
          .ok final ∧
        final.calls = headerOffsets 0 ([nestedDirectory 0, smallFile].map tarMember)) ↔
      ∀ member ∈ [nestedDirectory 0, smallFile].map tarMember, ¬ member.Misfires :=
  untar_calls_iff _ 1 [] [] (by decide +kernel) ⟨smallTable, by decide +kernel⟩

/-! ## An archive inside an archive -/

def storedFile : Member where
  path := [ascii ['c']]
  slash := false
  content := fileContent
  nonempty := by decide
  depth := by decide
  components := by decide
  notDotted := by decide
  fits := by decide

/-- A file that holds the first 500 bytes of a header. -/
def storedHeader : Member where
  path := [ascii ['f']]
  slash := false
  content :=
    { fileContent with
      data := (tarHeader storedFile).take 500
      sizeFits := by
        rw [List.length_take, length_tarHeader]
        decide }
  nonempty := by decide
  depth := by decide
  components := by decide
  notDotted := by decide
  fits := by decide

/-- The one member is a file, and the block of its data is merged as a second
one. -/
theorem untar_storedHeader :
    Run.Returns
        (mergeAll
          ((headerOffsets 0 [tarMember storedHeader]).map
            (HeaderPtr.mk (archive [tarMember storedHeader] 1))) []) ∧
      headerOffsets 0 [tarMember storedHeader] = [0] ∧
      UntarState.calls <$> untar (archive [tarMember storedHeader] 1)
        (archive [tarMember storedHeader] 1).length 4 [] = .ok [0, 512] := by
  decide +kernel

end Tcb.Untar
