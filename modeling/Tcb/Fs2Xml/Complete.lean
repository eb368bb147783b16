import Tcb.Fs2Xml.Progress
import Tcb.Fs2Xml.Pipeline

/-!
# Archives that are passed on whole

`decompress` hands on the length that `BZ2_bzread` returned and nothing looks
at it, so an archive that is cut short ends the loop early and no more.  A
block of data that is taken for a header costs the next member only when the
size that is read from it is a block or more, or negative.
-/

namespace Tcb.Complete

open Tcb.CString
open Tcb.Strtol
open Tcb.Inodes
open Tcb.MergeFile
open Tcb.TarHeader
open Tcb.Untar
open Tcb.Progress
open Tcb.WalkDir
open Tcb.Main

/-- The header and the data of a member, without what fills up the block. -/
def written (member : TarMember) : List Byte := member.header ++ member.body.take member.size

/-- What is delivered of a file is the beginning of what it holds. -/
def Delivers (lib : Bz2) (filename : List Byte) (file : TarFile) : Prop :=
  ∀ fp, lib.BZ2_bzopen filename = some fp → 0 ≤ (lib.BZ2_bzread fp bufferSize).1 →
    (lib.BZ2_bzread fp bufferSize).2 <+: file.bytes

/-- Every member is passed to `MergeFile`: its header was handed on where it
stands, and it was delivered up to the end of its data. -/
def Passed (lib : Bz2) (filename : List Byte) (file : TarFile) (calls : List ℕ) : Prop :=
  ∀ fp, lib.BZ2_bzopen filename = some fp →
    List.Forall₂ (fun offset member => offset ∈ calls ∧
        written member <+: (lib.BZ2_bzread fp bufferSize).2.drop offset)
      file.headers file.members

/-- The data of every member ends at `limit` or before it. -/
def EndBefore (limit : ℤ) (offsets : List ℕ) (members : List TarMember) : Prop :=
  List.Forall₂ (fun offset member => ((offset + 512 + member.size : ℕ) : ℤ) ≤ limit)
    offsets members

/-- The size in the last block of the data, when that is taken for a header. -/
def lastSize (member : TarMember) : Run ExitReason ℤ :=
  toInt <$> strtol 8 (member.body.drop (member.size / 512 * 512 + 124))

/-- The last block of the data is not taken for a header, or it is taken for
one of a member with less than a block of data. -/
def Harmless (member : TarMember) : Prop :=
  member.Misfires → ∃ size, lastSize member = .ok size ∧ 0 ≤ size ∧ size < 512

/-- The length that is returned reaches the end of the data of every member,
and no member but the last leads the loop astray. -/
structure Whole (lib : Bz2) (filename : List Byte) (file : TarFile) : Prop where
  reaches : ∀ fp, lib.BZ2_bzopen filename = some fp →
    EndBefore (lib.BZ2_bzread fp bufferSize).1 file.headers file.members
  harmless : ∀ member ∈ file.members.dropLast, Harmless member

/-! ## One block -/

section Block

variable {buf : List Byte} {pos : ℕ} {inodes : Table} {calls : List ℕ} {next : UntarState}

/-- A block that was passed over. -/
theorem untarBlock_quiet (hmagic : ¬ ustar <+: buf.drop (pos + 257))
    (hrun : untarBlock buf ⟨pos, inodes, calls⟩ = .ok next) :
    next = ⟨(pos + 512 : ℕ), inodes, calls⟩ := by
  simp only [untarBlock, Run.bind_eq_ok, addInt_eq_ok, Int.toNat_natCast, from'_eq_drop,
    Field.offset] at hrun
  obtain ⟨_, -, p, ⟨-, rfl⟩, magic, hstarts, hrun⟩ := hrun
  cases magic with
  | true => exact absurd (isPrefix_of_startsWith hstarts) hmagic
  | false =>
      rw [if_pos rfl, Run.pure_eq_ok, Except.ok.injEq] at hrun
      rw [← hrun]
      rfl

/-- A block that was taken for a header: the position is left behind the full
blocks of the size that is read. -/
theorem untarBlock_taken (haligned : pos % 512 = 0) (hmagic : ustar <+: buf.drop (pos + 257))
    (hrun : untarBlock buf ⟨pos, inodes, calls⟩ = .ok next) :
    ∃ size merged, toInt <$> (strtol 8 (buf.drop (pos + 124)) : Run ExitReason ℤ) = .ok size ∧
      next = ⟨pos + 512 + (size - size % 512), merged, calls ++ [pos]⟩ := by
  simp only [untarBlock, Run.bind_eq_ok, addInt_eq_ok, Int.toNat_natCast, from'_eq_drop,
    Field.offset, startsWith_eq_true hmagic, Except.ok.injEq] at hrun
  obtain ⟨_, -, p, ⟨-, rfl⟩, magic, rfl, hrun⟩ := hrun
  simp only [Bool.true_eq_false, if_false, Run.bind_eq_ok, skipData_eq_ok, Run.pure_eq_ok,
    Except.ok.injEq] at hrun
  obtain ⟨size, hsize, _, -, merged, -, p, hp, rfl⟩ := hrun
  have hbehind : p = pos + 512 + (toInt size - toInt size % 512) := by omega
  exact ⟨toInt size, merged, by rw [hsize, Run.map_ok], by rw [hbehind]⟩

/-- A header leaves the position behind the full blocks of its data. -/
theorem untarBlock_of_header {member : TarMember} (haligned : pos % 512 = 0)
    (hat : member.header <+: buf.drop pos)
    (hrun : untarBlock buf ⟨pos, inodes, calls⟩ = .ok next) :
    ∃ merged, next = ⟨(pos + 512 + member.size / 512 * 512 : ℕ), merged, calls ++ [pos]⟩ := by
  obtain ⟨size, merged, hsize, rfl⟩ :=
    untarBlock_taken haligned (TarMember.header_magic hat) hrun
  rw [TarMember.header_size hat, Run.map_ok, Except.ok.injEq, toInt_of_lt member.sizeFits] at hsize
  have hbehind : (pos : ℤ) + 512 + (size - size % 512) =
      ((pos + 512 + member.size / 512 * 512 : ℕ) : ℤ) := by
    omega
  exact ⟨merged, by rw [hbehind]⟩

end Block

/-! ## The next header -/

section Loop

variable {buf : List Byte} {len : ℤ} {fuel : ℕ}

theorem untarBlock_nonneg {state next : UntarState} (hrun : untarBlock buf state = .ok next) :
    ∃ pos : ℕ, state.p = pos :=
  Int.eq_ofNat_of_zero_le (merged_of_untarBlock hrun).1

/-- The next block that is handed on is the first one behind the position that
looks like a header. -/
theorem untarLoop_first {state final : UntarState} {block : ℕ} (haligned : state.p % 512 = 0)
    (hrun : untarLoop buf len fuel state = .ok final) :
    final.calls = state.calls ∨
      ∃ (call : ℕ) (more : List ℕ), final.calls = state.calls ++ call :: more ∧ state.p ≤ call ∧
        (state.p ≤ block → block % 512 = 0 → ustar <+: buf.drop (block + 257) →
          call ≤ block) := by
  induction fuel generalizing state with
  | zero =>
      rw [untarLoop] at hrun
      split at hrun
      · simp at hrun
      · exact .inl (congrArg UntarState.calls (Except.ok.inj hrun)).symm
  | succ fuel ih =>
      by_cases hlt : state.p < len
      · obtain ⟨p, inodes, calls⟩ := state
        rw [untarLoop, if_pos hlt, Run.bind_eq_ok] at hrun
        obtain ⟨next, hblock, hrest⟩ := hrun
        obtain ⟨pos, hpos⟩ := untarBlock_nonneg hblock
        simp only at hpos haligned ⊢
        subst hpos
        by_cases hmagic : ustar <+: buf.drop (pos + 257)
        · obtain ⟨more, hmore⟩ := untarLoop_calls hrest
          rw [untarBlock_call hmagic hblock, List.append_assoc, List.singleton_append] at hmore
          exact .inr ⟨pos, more, hmore.symm, le_rfl, fun hle _ _ => by exact_mod_cast hle⟩
        · rw [untarBlock_quiet hmagic hblock] at hrest
          rcases ih (by push_cast; omega) hrest with hnone | ⟨call, more, hmore, hle, hfirst⟩
          · exact .inl hnone
          · simp only at hle hfirst
            refine .inr ⟨call, more, hmore, by omega, ?_⟩
            intro hbefore hblockAligned hblockMagic
            have hother : block ≠ pos := by
              rintro rfl
              exact hmagic hblockMagic
            exact hfirst (by omega) hblockAligned hblockMagic
      · rw [untarLoop_stop (by omega), Except.ok.injEq] at hrun
        exact .inl (congrArg UntarState.calls hrun).symm

/-- When the calls are in order, the end of a block that was taken for a header
is handed on only if the size in it is less than a block. -/
theorem size_of_inOrder {size : ℤ} {block : ℕ} {inodes : Table} {calls : List ℕ}
    {final : UntarState} (haligned : block % 512 = 0)
    (hmagic : ustar <+: buf.drop (block + 257))
    (hrun : untarLoop buf len fuel
      ⟨block + 512 + (size - size % 512), inodes, calls ++ [block]⟩ = .ok final)
    (hordered : final.calls.Pairwise (· < ·)) (hpassed : block + 512 ∈ final.calls) :
    0 ≤ size ∧ size < 512 := by
  obtain ⟨more, hmore⟩ := untarLoop_calls hrun
  simp only at hmore
  rw [← hmore] at hordered hpassed
  have hbefore : ∀ call ∈ calls ++ [block], call ≤ block := by
    intro call hmem
    rcases List.mem_append.mp hmem with hmem | hmem
    · have hlt := (List.pairwise_append.mp (List.pairwise_append.mp hordered).1).2.2
      exact (hlt call hmem block List.mem_cons_self).le
    · exact (List.mem_singleton.mp hmem).le
  have hbehind : block + 512 ∈ more := by
    rcases List.mem_append.mp hpassed with hmem | hmem
    · exact absurd (hbefore _ hmem) (by omega)
    · exact hmem
  have hnext := @untarLoop_first _ _ _ _ _ block (by simp only; omega) hrun
  rcases hnext with hnone | ⟨call, later, hlater, hle, hfirst⟩
  · rw [← hmore, List.append_right_eq_self] at hnone
    simp [hnone] at hbehind
  · rw [← hmore, List.append_cancel_left_eq] at hlater
    subst hlater
    obtain ⟨-, hordered, hacross⟩ := List.pairwise_append.mp hordered
    have hcall : call ≤ block + 512 := by
      rcases List.mem_cons.mp hbehind with hmem | hmem
      · exact hmem.ge
      · exact (List.rel_of_pairwise_cons hordered hmem).le
    have hafter : block < call :=
      hacross block (by simp) call List.mem_cons_self
    simp only at hle hfirst
    constructor
    · by_contra hnegative
      exact absurd (hfirst (by omega) haligned hmagic) (by omega)
    · omega

end Loop

/-! ## One member -/

section Member

variable {buf : List Byte} {len : ℤ} {pos fuel : ℕ} {inodes : Table} {calls : List ℕ}
  {member : TarMember} {final : UntarState}

/-- The magic text ends the number in the block that carries it. -/
theorem returns_lastSize (hmisfires : member.Misfires) :
    Run.Returns (strtol 8 (member.body.drop (member.size / 512 * 512 + 124)) :
      Run ExitReason ℤ) := by
  have hmem : (117 : Byte) ∈ member.body.drop (member.size / 512 * 512 + 124) := by
    obtain ⟨behind, hbehind⟩ := hmisfires.2
    apply List.mem_of_mem_drop (i := 133)
    rw [List.drop_drop, ← hbehind]
    exact List.mem_append_left _ List.mem_cons_self
  exact strtol_returns hmem (by decide) (by decide) (by decide) (by decide)

/-- Behind a member the loop goes on, and where it does is decided by the last
block of the data. -/
theorem untarLoop_member (haligned : pos % 512 = 0) (hat : member.bytes <+: buf.drop pos)
    (hinside : ((pos + member.bytes.length : ℕ) : ℤ) < len)
    (hrun : untarLoop buf len fuel ⟨pos, inodes, calls⟩ = .ok final) :
    (¬ member.Misfires ∧ ∃ rest merged,
      untarLoop buf len rest ⟨(pos + member.bytes.length : ℕ), merged, calls ++ [pos]⟩ =
        .ok final) ∨
    (member.Misfires ∧ ∃ size block rest merged, lastSize member = .ok size ∧
      block + 512 = pos + member.bytes.length ∧ block % 512 = 0 ∧
      ustar <+: buf.drop (block + 257) ∧
      untarLoop buf len rest
        ⟨block + 512 + (size - size % 512), merged, calls ++ [pos] ++ [block]⟩ = .ok final) := by
  have hlength := member.length_bytes
  obtain ⟨behind, hbehind⟩ := hat
  have hheader : member.header <+: buf.drop pos :=
    ⟨member.body ++ behind, by rw [← hbehind, TarMember.bytes, List.append_assoc]⟩
  obtain ⟨rest, next, hblock, hrest⟩ := untarLoop_cases (by push_cast at hinside ⊢; omega) hrun
  obtain ⟨merged, rfl⟩ := untarBlock_of_header haligned hheader hblock
  by_cases hfull : member.size % 512 = 0
  · rw [TarMember.behind_data, if_pos hfull] at hrest
    exact .inl ⟨fun hmisfires => hmisfires.1 hfull, rest, merged, hrest⟩
  · have hend : pos + 512 + member.size / 512 * 512 + 512 = pos + member.bytes.length := by
      omega
    obtain ⟨rest, next, hblock, hrest⟩ :=
      untarLoop_cases (by push_cast at hinside ⊢; omega) hrest
    by_cases hmisfires : member.Misfires
    · have hmagic := (TarMember.last_block_iff hbehind.symm hfull).mpr hmisfires
      obtain ⟨size, merged, hsize, rfl⟩ := untarBlock_taken (by omega) hmagic hblock
      rw [TarMember.drop_last hbehind.symm hfull (by omega),
        strtol_append (returns_lastSize hmisfires)] at hsize
      exact .inr ⟨hmisfires, size, _, rest, merged, hsize, hend, by omega, hmagic, hrest⟩
    · rw [← TarMember.last_block_iff hbehind.symm hfull] at hmisfires
      rw [untarBlock_quiet hmisfires hblock, hend] at hrest
      rw [TarMember.last_block_iff hbehind.symm hfull] at hmisfires
      exact .inl ⟨hmisfires, rest, merged, hrest⟩

/-- A member that leads nowhere is followed by what stands behind it. -/
theorem untarLoop_harmless (haligned : pos % 512 = 0) (hat : member.bytes <+: buf.drop pos)
    (hinside : ((pos + member.bytes.length : ℕ) : ℤ) < len) (hharmless : Harmless member)
    (hrun : untarLoop buf len fuel ⟨pos, inodes, calls⟩ = .ok final) :
    ∃ rest merged later,
      untarLoop buf len rest ⟨(pos + member.bytes.length : ℕ), merged, later⟩ = .ok final := by
  rcases untarLoop_member haligned hat hinside hrun with
    ⟨-, rest, merged, hrest⟩ | ⟨hmisfires, size, block, rest, merged, hsize, hend, -, -, hrest⟩
  · exact ⟨rest, merged, _, hrest⟩
  · obtain ⟨other, hother, hlow, hhigh⟩ := hharmless hmisfires
    rw [hsize, Except.ok.injEq] at hother
    have hp : (block : ℤ) + 512 + (size - size % 512) =
        ((pos + member.bytes.length : ℕ) : ℤ) := by
      rw [← hend]
      push_cast
      omega
    rw [hp] at hrest
    exact ⟨rest, merged, _, hrest⟩

/-- When the calls are in order and the next header is among them, the member
led nowhere. -/
theorem harmless_of_inOrder (haligned : pos % 512 = 0) (hat : member.bytes <+: buf.drop pos)
    (hinside : ((pos + member.bytes.length : ℕ) : ℤ) < len)
    (hrun : untarLoop buf len fuel ⟨pos, inodes, calls⟩ = .ok final)
    (hordered : final.calls.Pairwise (· < ·))
    (hpassed : pos + member.bytes.length ∈ final.calls) : Harmless member := by
  rcases untarLoop_member haligned hat hinside hrun with
    ⟨hquiet, -⟩ | ⟨-, size, block, rest, merged, hsize, hend, hblock, hmagic, hrest⟩
  · exact fun hmisfires => absurd hmisfires hquiet
  · rw [← hend] at hpassed
    exact fun _ => ⟨size, hsize, size_of_inOrder hblock hmagic hrest hordered hpassed⟩

end Member

/-! ## The members of one archive -/

section Members

variable {buf front : List Byte} {len : ℤ} {pos fuel : ℕ} {inodes : Table} {calls : List ℕ}
  {member : TarMember} {members : List TarMember} {final : UntarState}

/-- From the position on the buffer holds the beginning of an archive, and
ends with it. -/
structure Holds (buf : List Byte) (len : ℤ) (pos : ℕ) (members : List TarMember)
    (front : List Byte) : Prop where
  aligned : pos % 512 = 0
  stored : front <+: buf.drop pos
  begins : ∃ zeros, front <+: archive members zeros
  ends : len = (pos + front.length : ℕ)

theorem Holds.header (hholds : Holds buf len pos (member :: members) front)
    (hroom : 512 ≤ front.length) : member.header <+: buf.drop pos := by
  obtain ⟨zeros, hbegins⟩ := hholds.begins
  have hheader : member.header <+: archive (member :: members) zeros := by
    rw [archive_cons, TarMember.bytes, List.append_assoc]
    exact List.prefix_append _ _
  exact (List.prefix_of_prefix_length_le hheader hbegins
    (member.headerLength.trans_le hroom)).trans hholds.stored

/-- The member is in the buffer as a whole when anything behind it is. -/
theorem Holds.behind (hholds : Holds buf len pos (member :: members) front)
    (hroom : member.bytes.length ≤ front.length) :
    member.bytes <+: buf.drop pos ∧ ∃ rest, front = member.bytes ++ rest ∧
      Holds buf len (pos + member.bytes.length) members rest := by
  have hlength := member.length_bytes
  have haligned := hholds.aligned
  obtain ⟨zeros, hbegins⟩ := hholds.begins
  rw [archive_cons] at hbegins
  obtain ⟨rest, rfl⟩ : member.bytes <+: front :=
    List.prefix_of_prefix_length_le (List.prefix_append _ _) hbegins hroom
  refine ⟨(List.prefix_append _ _).trans hholds.stored, rest, rfl, ?_⟩
  constructor
  · omega
  · have hdrop := hholds.stored.drop member.bytes.length
    rwa [List.drop_left, List.drop_drop] at hdrop
  · exact ⟨zeros, (List.prefix_append_right_inj _).mp hbegins⟩
  · rw [hholds.ends, List.length_append, Nat.add_assoc]

/-- The header of the first member is handed on. -/
theorem Holds.called (hholds : Holds buf len pos (member :: members) front)
    (hroom : 512 ≤ front.length)
    (hrun : untarLoop buf len fuel ⟨pos, inodes, calls⟩ = .ok final) : pos ∈ final.calls := by
  have hends := hholds.ends
  obtain ⟨rest, next, hblock, hrest⟩ := untarLoop_cases (by push_cast at hends ⊢; omega) hrun
  have hcall := untarBlock_call (TarMember.header_magic (hholds.header hroom)) hblock
  have hlog := untarLoop_calls hrest
  rw [hcall] at hlog
  exact hlog.subset (by simp)

/-- Where the next header stands inside what was read, the member does. -/
theorem Holds.next {second : TarMember}
    (hholds : Holds buf len pos (member :: second :: members) front)
    (hends : EndBefore len (headerOffsets pos (member :: second :: members))
      (member :: second :: members)) :
    ((pos + member.bytes.length : ℕ) : ℤ) < len ∧ member.bytes <+: buf.drop pos ∧
      ∃ rest, Holds buf len (pos + member.bytes.length) (second :: members) rest ∧
        EndBefore len (headerOffsets (pos + member.bytes.length) (second :: members))
          (second :: members) := by
  obtain ⟨-, hbehind⟩ := List.forall₂_cons.mp hends
  have hsecond := (List.forall₂_cons.mp hbehind).1
  have hlen := hholds.ends
  push_cast at hsecond hlen
  obtain ⟨hat, rest, -, hrest⟩ := hholds.behind (by omega)
  exact ⟨by push_cast; omega, hat, rest, hrest, hbehind⟩

/-- When no member but the last leads the loop astray, every header is handed
on. -/
theorem called_of_harmless (hholds : Holds buf len pos members front)
    (hends : EndBefore len (headerOffsets pos members) members)
    (hharmless : ∀ member ∈ members.dropLast, Harmless member)
    (hrun : untarLoop buf len fuel ⟨pos, inodes, calls⟩ = .ok final) :
    ∀ offset ∈ headerOffsets pos members, offset ∈ final.calls := by
  induction members generalizing pos front fuel inodes calls with
  | nil => simp [headerOffsets]
  | cons member members ih =>
      have hfirst := (List.forall₂_cons.mp hends).1
      have hlen := hholds.ends
      push_cast at hfirst hlen
      rw [headerOffsets, List.forall_mem_cons]
      refine ⟨hholds.called (by omega) hrun, ?_⟩
      cases members with
      | nil => simp [headerOffsets]
      | cons second members =>
          obtain ⟨hinside, hat, rest, hrest, hbehind⟩ := hholds.next hends
          rw [List.dropLast_cons_cons, List.forall_mem_cons] at hharmless
          obtain ⟨_, _, _, hloop⟩ :=
            untarLoop_harmless hholds.aligned hat hinside hharmless.1 hrun
          exact ih hrest hbehind hharmless.2 hloop

/-- When every header is handed on and the calls are in order, no member but
the last led the loop astray. -/
theorem harmless_of_called (hholds : Holds buf len pos members front)
    (hends : EndBefore len (headerOffsets pos members) members)
    (hordered : final.calls.Pairwise (· < ·))
    (hcalled : ∀ offset ∈ headerOffsets pos members, offset ∈ final.calls)
    (hrun : untarLoop buf len fuel ⟨pos, inodes, calls⟩ = .ok final) :
    ∀ member ∈ members.dropLast, Harmless member := by
  induction members generalizing pos front fuel inodes calls with
  | nil => simp
  | cons member members ih =>
      cases members with
      | nil => simp
      | cons second members =>
          obtain ⟨hinside, hat, rest, hrest, hbehind⟩ := hholds.next hends
          rw [headerOffsets, List.forall_mem_cons] at hcalled
          have hharmless : Harmless member :=
            harmless_of_inOrder hholds.aligned hat hinside hrun hordered
              (hcalled.2 _ List.mem_cons_self)
          obtain ⟨_, _, _, hloop⟩ := untarLoop_harmless hholds.aligned hat hinside hharmless hrun
          rw [List.dropLast_cons_cons, List.forall_mem_cons]
          exact ⟨hharmless, ih hrest hbehind hcalled.2 hloop⟩

/-- A member that was delivered up to the end of its data. -/
theorem written_iff {whole : List Byte} {zeros : ℕ} (hfront : front <+: whole)
    (hat : whole.drop pos = archive members zeros) :
    List.Forall₂ (fun offset member => written member <+: front.drop offset)
        (headerOffsets pos members) members ↔
      EndBefore front.length (headerOffsets pos members) members := by
  induction members generalizing pos with
  | nil => simp [headerOffsets, EndBefore]
  | cons member members ih =>
      have hlength : (written member).length = 512 + member.size := by
        rw [written, List.length_append, member.headerLength, List.length_take,
          member.bodyLength]
        omega
      rw [archive_cons] at hat
      have hbehind : whole.drop (pos + member.bytes.length) = archive members zeros := by
        rw [← List.drop_drop, hat, List.drop_left]
      have hmember : written member <+: whole.drop pos := by
        rw [hat, written, TarMember.bytes, List.append_assoc]
        exact List.prefix_append_right_inj _ |>.mpr
          ((List.take_prefix _ _).trans (List.prefix_append _ _))
      have hhead : written member <+: front.drop pos ↔
          ((pos + 512 + member.size : ℕ) : ℤ) ≤ front.length := by
        constructor
        · intro hwritten
          have hle := hwritten.length_le
          rw [hlength, List.length_drop] at hle
          push_cast
          omega
        · intro hle
          push_cast at hle
          exact List.prefix_of_prefix_length_le hmember (hfront.drop pos)
            (by rw [hlength, List.length_drop]; omega)
      rw [headerOffsets, EndBefore, List.forall₂_cons, List.forall₂_cons, hhead, ih hbehind,
        EndBefore]

end Members

/-! ## One archive -/

/-- One round of the loop over the arguments, and what it handed to
`MergeFile`. -/
def ReadFrom (lib : Bz2) (fuel : ℕ) (filename : List Byte) (calls : List ℕ) : Prop :=
  ∃ start next, readArchive lib fuel start filename = .ok next ∧
    next.calls = start.calls ++ [calls]

section Reading

variable {lib : Bz2} {fuel : ℕ} {filename : List Byte} {file : TarFile} {calls : List ℕ}

theorem ReadFrom.untarLoop (hread : ReadFrom lib fuel filename calls) :
    ∃ fp tail inodes final, lib.BZ2_bzopen filename = some fp ∧
      Untar.untarLoop ((lib.BZ2_bzread fp bufferSize).2 ++ tail) (lib.BZ2_bzread fp bufferSize).1
        fuel ⟨(0 : ℕ), inodes, []⟩ = .ok final ∧ final.calls = calls := by
  obtain ⟨start, next, hread, hcalls⟩ := hread
  obtain ⟨len, buf, unpacked, hdecompress, huntar, rfl⟩ := readArchive_eq_ok.mp hread
  rw [List.append_cancel_left_eq, List.cons.injEq] at hcalls
  obtain ⟨-, fp, hopen, rfl, rfl⟩ := decompress_eq_ok.mp hdecompress
  exact ⟨fp, _, _, unpacked, hopen, huntar, hcalls.1⟩

/-- Nothing of an archive that could not be decompressed is handed on, and the
program goes on. -/
theorem ReadFrom.calls_of_error (hread : ReadFrom lib fuel filename calls)
    {fp : lib.File} (hopen : lib.BZ2_bzopen filename = some fp)
    (herror : (lib.BZ2_bzread fp bufferSize).1 < 0) : calls = [] := by
  obtain ⟨fp', tail, inodes, final, hopen', hrun, hcalls⟩ := hread.untarLoop
  rw [hopen, Option.some.injEq] at hopen'
  subst hopen'
  rw [untarLoop_stop (by simp only; omega), Except.ok.injEq] at hrun
  rw [← hcalls, ← hrun]

/-- Without an error the members are passed exactly when their headers are
handed on and they are delivered up to the end of their data. -/
theorem passed_iff (hdelivers : Delivers lib filename file) {fp : lib.File}
    (hopen : lib.BZ2_bzopen filename = some fp)
    (hread : 0 ≤ (lib.BZ2_bzread fp bufferSize).1) :
    Passed lib filename file calls ↔ (∀ offset ∈ file.headers, offset ∈ calls) ∧
      EndBefore (lib.BZ2_bzread fp bufferSize).1 file.headers file.members := by
  have hwhole : file.bytes.drop 0 = archive file.members file.zeros := rfl
  have hwritten := written_iff (hdelivers fp hopen hread) hwhole
  rw [lib.delivered fp bufferSize hread, TarFile.headers, ← hwritten, ← List.forall₂_and_left,
    Passed]
  constructor
  · exact fun hpassed => hpassed fp hopen
  · intro hpassed other hother
    rw [hopen, Option.some.injEq] at hother
    exact hother ▸ hpassed

theorem endBefore_of_error {limit : ℤ} {offsets : List ℕ} {members : List TarMember}
    (herror : limit < 0) (hends : EndBefore limit offsets members) : members = [] := by
  cases hends with
  | nil => rfl
  | cons hhead _ => exact absurd hhead (by omega)

/-- What the loop finds of an archive that was read without an error. -/
theorem holds_of_delivers (hdelivers : Delivers lib filename file) {fp : lib.File}
    (hopen : lib.BZ2_bzopen filename = some fp)
    (hread : 0 ≤ (lib.BZ2_bzread fp bufferSize).1) (tail : List Byte) :
    Holds ((lib.BZ2_bzread fp bufferSize).2 ++ tail) (lib.BZ2_bzread fp bufferSize).1 0
      file.members (lib.BZ2_bzread fp bufferSize).2 where
  aligned := rfl
  stored := List.prefix_append _ _
  begins := ⟨file.zeros, hdelivers fp hopen hread⟩
  ends := by rw [lib.delivered fp bufferSize hread, Nat.zero_add]

theorem ReadFrom.passed_of_whole (hread : ReadFrom lib fuel filename calls)
    (hdelivers : Delivers lib filename file) (hwhole : Whole lib filename file) :
    Passed lib filename file calls := by
  obtain ⟨fp, tail, inodes, final, hopen, hrun, rfl⟩ := hread.untarLoop
  have hreaches := hwhole.reaches fp hopen
  by_cases herror : (lib.BZ2_bzread fp bufferSize).1 < 0
  · have hnone := endBefore_of_error herror hreaches
    intro other hother
    rw [TarFile.headers, hnone]
    exact .nil
  · rw [passed_iff hdelivers hopen (by omega)]
    exact ⟨called_of_harmless (holds_of_delivers hdelivers hopen (by omega) tail) hreaches
      hwhole.harmless hrun, hreaches⟩

theorem ReadFrom.whole_of_passed (hread : ReadFrom lib fuel filename calls)
    (hdelivers : Delivers lib filename file) (hordered : calls.Pairwise (· < ·))
    (hpassed : Passed lib filename file calls) : Whole lib filename file := by
  obtain ⟨fp, tail, inodes, final, hopen, hrun, hcalls⟩ := hread.untarLoop
  have hopens : ∀ {other}, lib.BZ2_bzopen filename = some other → other = fp := by
    intro other hother
    rw [hopen, Option.some.injEq] at hother
    exact hother.symm
  by_cases herror : (lib.BZ2_bzread fp bufferSize).1 < 0
  · have hnone : file.members = [] := by
      have hpassed := hpassed fp hopen
      rw [hread.calls_of_error hopen herror] at hpassed
      cases hmembers : file.members with
      | nil => rfl
      | cons member members =>
          rw [TarFile.headers, hmembers, headerOffsets, List.forall₂_cons] at hpassed
          simp at hpassed
    constructor
    · intro other hother
      rw [TarFile.headers, hnone]
      exact .nil
    · simp [hnone]
  · obtain ⟨hcalled, hreaches⟩ := (passed_iff hdelivers hopen (by omega)).mp hpassed
    subst hcalls
    exact ⟨fun other hother => hopens hother ▸ hreaches,
      harmless_of_called (holds_of_delivers hdelivers hopen (by omega) tail) hreaches hordered
        hcalled hrun⟩

theorem readArchives_calls {names : List (List Byte)} {state final : ReadState}
    (hrun : names.foldlM (readArchive lib fuel) state = .ok final) :
    ∃ logs, final.calls = state.calls ++ logs ∧
      List.Forall₂ (ReadFrom lib fuel) names logs := by
  induction names generalizing state with
  | nil =>
      rw [List.foldlM_nil, Run.pure_eq_ok, Except.ok.injEq] at hrun
      exact ⟨[], by rw [hrun, List.append_nil], .nil⟩
  | cons filename names ih =>
      rw [List.foldlM_cons, Run.bind_eq_ok] at hrun
      obtain ⟨next, hhead, hrest⟩ := hrun
      obtain ⟨len, buf, unpacked, -, -, hnext⟩ := readArchive_eq_ok.mp hhead
      obtain ⟨logs, hlogs, hforall⟩ := ih hrest
      have hcalls : next.calls = state.calls ++ [unpacked.calls] := by rw [hnext]
      refine ⟨unpacked.calls :: logs, ?_, .cons ⟨state, next, hhead, hcalls⟩ hforall⟩
      rw [hlogs, hcalls, List.append_assoc, List.singleton_append]

end Reading

/-! ## Success -/

section Success

variable {lib : Bz2} {host : Host} {fuel : ℕ} {buf : Buffer} {disk : host.Disk}
  {names : List (List Byte)} {logs : List (List ℕ)} {holds : List Byte → TarFile}

/-- Every member of every archive is passed to `MergeFile`. -/
def AllPassed (lib : Bz2) (holds : List Byte → TarFile) (names : List (List Byte))
    (logs : List (List ℕ)) : Prop :=
  List.Forall₂ (fun filename calls => Passed lib filename (holds filename) calls) names logs

theorem allPassed_of_whole (hforall : List.Forall₂ (ReadFrom lib fuel) names logs)
    (hdelivers : ∀ filename ∈ names, Delivers lib filename (holds filename))
    (hwhole : ∀ filename ∈ names, Whole lib filename (holds filename)) :
    AllPassed lib holds names logs := by
  induction hforall with
  | nil => exact .nil
  | cons hread _ ih =>
      rw [List.forall_mem_cons] at hdelivers hwhole
      exact .cons (hread.passed_of_whole hdelivers.1 hwhole.1) (ih hdelivers.2 hwhole.2)

theorem whole_of_allPassed (hforall : List.Forall₂ (ReadFrom lib fuel) names logs)
    (hdelivers : ∀ filename ∈ names, Delivers lib filename (holds filename))
    (hordered : ∀ calls ∈ logs, calls.Pairwise (· < ·))
    (hpassed : AllPassed lib holds names logs) :
    ∀ filename ∈ names, Whole lib filename (holds filename) := by
  induction hforall with
  | nil => simp
  | cons hread _ ih =>
      rw [List.forall_mem_cons] at hdelivers hordered ⊢
      obtain ⟨hhead, hrest⟩ := List.forall₂_cons.mp hpassed
      exact ⟨hread.whole_of_passed hdelivers.1 hordered.1 hhead,
        ih hdelivers.2 hordered.2 hrest⟩

/-- When the program succeeds, every member was passed to `MergeFile` if every
archive was read up to the end of its data and no block of data led the loop
astray; and only then, when the loop never went back. -/
theorem main_complete_iff {program : List Byte} {outcome : Outcome host}
    (hdelivers : ∀ filename ∈ names, Delivers lib filename (holds filename))
    (hrun : main lib host fuel buf disk (program :: names) = .ok outcome)
    (hstatus : outcome.status = 0) :
    ((∀ filename ∈ names, Whole lib filename (holds filename)) →
        AllPassed lib holds names outcome.calls) ∧
      ((∀ calls ∈ outcome.calls, calls.Pairwise (· < ·)) →
        (AllPassed lib holds names outcome.calls ↔
          ∀ filename ∈ names, Whole lib filename (holds filename))) := by
  obtain ⟨read, hread, hcalls⟩ := main_eq_ok hrun hstatus
  obtain ⟨logs, hlogs, hforall⟩ := readArchives_calls hread
  rw [hcalls, hlogs, List.nil_append]
  have hpassed := allPassed_of_whole hforall hdelivers
  exact ⟨hpassed, fun hordered => ⟨whole_of_allPassed hforall hdelivers hordered, hpassed⟩⟩

end Success

/-! ## Two archives, whole and corrupt -/

open Tcb.Pipeline (twoNames)
open Tcb.Hierarchy (treeHost emptyTree)

theorem delivers_storedBz2 (file : TarFile) (filename : List Byte) :
    Delivers (storedBz2 file) filename file :=
  fun _ _ _ => List.take_prefix _ _

/-- Two archives with a directory and a file in it each. -/
theorem main_complete_twoNames :
    ∃ fuel outcome, main (storedBz2 Pipeline.smallTarFile) treeHost fuel zeroBuffer
        emptyTree (ascii ['f'] :: twoNames) = .ok outcome ∧ outcome.status = 0 ∧
      ((∀ filename ∈ twoNames,
          Whole (storedBz2 Pipeline.smallTarFile) filename Pipeline.smallTarFile) →
        AllPassed (storedBz2 Pipeline.smallTarFile) (fun _ => Pipeline.smallTarFile) twoNames
          outcome.calls) ∧
      ((∀ calls ∈ outcome.calls, calls.Pairwise (· < ·)) →
        (AllPassed (storedBz2 Pipeline.smallTarFile) (fun _ => Pipeline.smallTarFile) twoNames
            outcome.calls ↔
          ∀ filename ∈ twoNames,
            Whole (storedBz2 Pipeline.smallTarFile) filename Pipeline.smallTarFile)) := by
  obtain ⟨fuel, -, -, outcome, hrun, hstatus, -⟩ :=
    Pipeline.main_runs Hierarchy.treeHost_tree Hierarchy.treeHost_lawful Pipeline.emptyTree_clear
      (by decide) Pipeline.twoNames_given Pipeline.smallMembers_wellBehaved zeroBuffer
      (ascii ['f'])
  exact ⟨fuel, outcome, hrun fuel le_rfl, hstatus,
    main_complete_iff (fun filename _ => delivers_storedBz2 Pipeline.smallTarFile filename)
      (hrun fuel le_rfl) hstatus⟩

/-- The decompression of an archive fails, and the program succeeds with none
of its members in the manifests. -/
theorem main_corruptBz2 :
    ∃ outcome, main corruptBz2 Placement.memoryHost 0 zeroBuffer Placement.emptyDisk
        oneArchive = .ok outcome ∧ outcome.status = 0 ∧
      ¬ AllPassed corruptBz2 (fun _ => Pipeline.smallTarFile) oneArchive.tail outcome.calls := by
  have hrun : (fun outcome => (outcome.status, outcome.calls)) <$> main corruptBz2
      Placement.memoryHost 0 zeroBuffer Placement.emptyDisk oneArchive = .ok (0, [[]]) := by
    decide +kernel
  obtain ⟨outcome, hrun, hvalues⟩ := Run.map_eq_ok.mp hrun
  rw [Prod.mk.injEq] at hvalues
  refine ⟨outcome, hrun, hvalues.1, ?_⟩
  intro hpassed
  rw [hvalues.2] at hpassed
  have hmembers := (List.forall₂_cons.mp hpassed).1 () rfl
  exact List.not_mem_nil (List.forall₂_cons.mp hmembers).1.1

end Tcb.Complete
