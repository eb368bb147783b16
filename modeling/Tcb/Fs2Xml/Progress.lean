import Tcb.Fs2Xml.Untar

/-!
# The loop over an archive moves on

The step of the loop is the block of the header and the size that the header
gives.  The size is a number read from the archive: a negative one moves the
position back or leaves it where it is, and a large one takes the sum out of
the range of an `int`.
-/

namespace Tcb.Progress

open Tcb.CString
open Tcb.Strtol
open Tcb.Inodes
open Tcb.Split
open Tcb.MergeFile
open Tcb.Untar

/-- The size that is added to the position: none in a block without the magic
text. -/
def blockSize (buf : List Byte) (state : UntarState) : Run ExitReason ℤ := do
  let magic ← startsWith ustar (HeaderPtr.from' ⟨buf, state.p.toNat⟩ .magic)
  if magic = false then return 0
  else toInt <$> strtol 8 (HeaderPtr.from' ⟨buf, state.p.toNat⟩ .size)

/-- `MergeFile` has returned in this iteration, or was not called. -/
def Merged (buf : List Byte) (state : UntarState) : Prop :=
  0 ≤ state.p ∧
    (startsWith ustar (HeaderPtr.from' ⟨buf, state.p.toNat⟩ .magic) =
        (.ok false : Run ExitReason Bool) ∨
      (startsWith ustar (HeaderPtr.from' ⟨buf, state.p.toNat⟩ .magic) =
          (.ok true : Run ExitReason Bool) ∧
        Run.Returns (strtol 8 (HeaderPtr.from' ⟨buf, state.p.toNat⟩ .size) : Run ExitReason ℤ) ∧
        Run.Returns (printMember ⟨buf, state.p.toNat⟩) ∧
        Run.Returns (mergeFile ⟨buf, state.p.toNat⟩ state.inodes)))

/-- The iteration leaves the position larger, and does not overflow. -/
def Advances (buf : List Byte) (state : UntarState) : Prop :=
  ∃ next, untarBlock buf state = .ok next ∧ state.p < next.p

/-- The size is not negative, and the position behind the data is an `int`. -/
def SizeFits (buf : List Byte) (state : UntarState) : Prop :=
  ∀ size, blockSize buf state = .ok size → 0 ≤ size ∧ state.p + 512 + size < 2 ^ 31

/-! ## One iteration -/

section Step

variable {buf : List Byte} {state next : UntarState}

theorem addInt_eq_ok {left right sum : ℤ} :
    addInt left right = .ok sum ↔
      (-2 ^ 31 ≤ left + right ∧ left + right < 2 ^ 31) ∧ left + right = sum := by
  by_cases hrange : -2 ^ 31 ≤ left + right ∧ left + right < 2 ^ 31
  · rw [addInt, if_pos hrange, Except.ok.injEq]
    exact (and_iff_right hrange).symm
  · rw [addInt, if_neg hrange]
    exact iff_of_false (Run.fault_ne_ok _ _) fun hsum => hrange hsum.1

/-- The position behind the data is a multiple of a block below its end. -/
theorem skipData_eq_ok {p size behind : ℤ} :
    skipData p size = .ok behind ↔
      size = 0 ∧ behind = p ∨ size ≠ 0 ∧ (-2 ^ 31 ≤ p + size ∧ p + size < 2 ^ 31) ∧
        behind = p + size - (p + size) % 512 := by
  rw [skipData]
  by_cases hsize : size = 0
  · simp [hsize, eq_comm]
  · rw [if_pos hsize, Run.bind_eq_ok]
    simp only [addInt_eq_ok, hsize, false_and, false_or, ne_eq, not_false_eq_true, true_and]
    constructor
    · rintro ⟨sum, ⟨hrange, rfl⟩, hround⟩
      refine ⟨hrange, ?_⟩
      split at hround
      · exact (Except.ok.inj hround).symm
      · rename_i hzero
        rw [Run.pure_eq_ok, Except.ok.injEq] at hround
        rw [← hround, not_not.mp hzero, sub_zero]
    · rintro ⟨hrange, rfl⟩
      refine ⟨_, ⟨hrange, rfl⟩, ?_⟩
      split
      · rfl
      · rename_i hzero
        rw [not_not.mp hzero, sub_zero]
        rfl

/-- An iteration in which `MergeFile` returns moves by a block and the size. -/
theorem untarBlock_merged (hmerged : Merged buf state) :
    ∃ size inodes calls, blockSize buf state = .ok size ∧
      untarBlock buf state = addInt state.p 0x200 >>= fun p =>
        (fun behind => ⟨behind, inodes, calls⟩) <$> skipData p size := by
  obtain ⟨hp, hmagic | ⟨hmagic, ⟨size, hsize⟩, ⟨_, hprint⟩, merged, hmerge⟩⟩ := hmerged
  · refine ⟨0, state.inodes, state.calls, ?_, ?_⟩
    · rw [blockSize, hmagic]
      rfl
    · simp only [untarBlock, Run.require_pos hp, hmagic, Run.ok_bind]
      rfl
  · refine ⟨toInt size, merged, state.calls ++ [state.p.toNat], ?_, ?_⟩
    · rw [blockSize, hmagic, hsize]
      rfl
    · simp only [untarBlock, Run.require_pos hp, hmagic, hsize, hprint, hmerge, Run.ok_bind,
        Bool.true_eq_false, if_false, map_eq_pure_bind]

/-- On a block boundary the position grows, without an overflow, exactly when
the size is in its range. -/
theorem advances_iff (hmerged : Merged buf state) (haligned : state.p % 512 = 0) :
    Advances buf state ↔ SizeFits buf state := by
  obtain ⟨size, inodes, calls, hsize, hblock⟩ := untarBlock_merged hmerged
  have hp := hmerged.1
  have hadvances : Advances buf state ↔ 0 ≤ size ∧ state.p + 512 + size < 2 ^ 31 := by
    simp only [Advances, hblock, Run.bind_eq_ok, Run.map_eq_ok, addInt_eq_ok, skipData_eq_ok]
    constructor
    · rintro ⟨next, ⟨p, ⟨hrange, rfl⟩, behind, hbehind, rfl⟩, hlt⟩
      simp only at hlt
      omega
    · intro hfits
      by_cases hzero : size = 0
      · refine ⟨⟨state.p + 512, inodes, calls⟩, ⟨_, ⟨by omega, rfl⟩, _, .inl ⟨hzero, rfl⟩, rfl⟩, ?_⟩
        simp only
        omega
      · refine ⟨⟨state.p + 512 + size - (state.p + 512 + size) % 512, inodes, calls⟩,
          ⟨_, ⟨by omega, rfl⟩, _, .inr ⟨hzero, by omega, rfl⟩, rfl⟩, ?_⟩
        simp only
        omega
  rw [hadvances]
  constructor
  · intro hfits other hother
    rw [hsize, Except.ok.injEq] at hother
    exact hother ▸ hfits
  · exact fun hfits => hfits size hsize

/-- The loop stays on block boundaries. -/
theorem untarBlock_aligned (haligned : state.p % 512 = 0)
    (hrun : untarBlock buf state = .ok next) : next.p % 512 = 0 := by
  simp only [untarBlock, Run.bind_eq_ok, addInt_eq_ok] at hrun
  obtain ⟨_, -, p, ⟨-, rfl⟩, magic, -, hrun⟩ := hrun
  split at hrun
  · rw [Run.pure_eq_ok, Except.ok.injEq] at hrun
    rw [← hrun]
    simp only
    omega
  · simp only [Run.bind_eq_ok, skipData_eq_ok, Run.pure_eq_ok, Except.ok.injEq] at hrun
    obtain ⟨size, -, _, -, inodes, -, behind, hbehind, rfl⟩ := hrun
    simp only
    omega

theorem reaches_aligned {len : ℤ} {start : UntarState} (hstart : start.p % 512 = 0)
    (hreaches : Reaches buf len start state) : state.p % 512 = 0 := by
  induction hreaches with
  | start => exact hstart
  | step _ _ hblock ih => exact untarBlock_aligned ih hblock

/-- An iteration that returns has merged its header, if it has one. -/
theorem merged_of_untarBlock (hrun : untarBlock buf state = .ok next) :
    Merged buf state := by
  simp only [untarBlock, Run.bind_eq_ok] at hrun
  obtain ⟨_, hp, p, -, magic, hmagic, hrun⟩ := hrun
  refine ⟨Run.require_eq_ok.mp hp, ?_⟩
  cases magic with
  | false => exact .inl hmagic
  | true =>
      simp only [Bool.true_eq_false, if_false, Run.bind_eq_ok] at hrun
      obtain ⟨size, hsize, _, hprint, inodes, hmerge, -⟩ := hrun
      exact .inr ⟨hmagic, ⟨size, hsize⟩, ⟨_, hprint⟩, inodes, hmerge⟩

end Step

/-! ## Every iteration ends -/

theorem ends_store (walk : Walk) (row column : ℕ) (byte : Byte) :
    Run.Ends (walk.store row column byte) :=
  Run.ends_bind (Run.ends_require _) (by simp)

theorem ends_row (walk : Walk) (row : ℤ) : Run.Ends (walk.row row) :=
  Run.ends_bind (Run.ends_require _) fun _ _ => ends_cString _

theorem ends_splitLoop (text : List Byte) (pn p : ℕ) (walk : Walk) :
    Run.Ends (splitLoop text pn p walk) := by
  induction text generalizing pn p walk with
  | nil => simp [splitLoop]
  | cons byte rest ih =>
      rw [splitLoop]
      split <;> exact Run.ends_bind (ends_store _ _ _ _) fun walk _ => ih _ _ walk

theorem ends_lastByte (ph : HeaderPtr) (text : List Byte) : Run.Ends (lastByte ph text) := by
  rw [lastByte]
  split
  · simp
  · split
    · simp
    · split <;> simp

theorem ends_split (ph : HeaderPtr) (walk : Walk) : Run.Ends (split ph walk) := by
  apply Run.ends_bind (ends_cString _)
  intro text _
  apply Run.ends_bind (ends_splitLoop _ _ _ _)
  intro filled _
  apply Run.ends_bind (ends_store _ _ _ _)
  intro walk _
  exact Run.ends_bind (ends_lastByte _ _) (by simp)

theorem ends_walkStep (inodes : Table) (walk : Walk) (parentid : ℤ) (i : ℕ) :
    Run.Ends (walkStep inodes walk parentid i) := by
  apply Run.ends_bind (ends_row _ _)
  intro component _
  split <;> simp

theorem ends_locate (ph : HeaderPtr) (inodes : Table) : Run.Ends (locate ph inodes) := by
  apply Run.ends_bind (ends_split _ _)
  intro filled _
  refine Run.ends_bind ?_ fun parentid _ => Run.ends_bind (ends_row _ _) (by simp)
  exact Run.ends_foldlM (fun _ => True) trivial
    (fun parentid i _ _ => ends_walkStep inodes filled.2 parentid i) (by simp)

theorem ends_typeflag (ph : HeaderPtr) : Run.Ends ph.typeflag := by
  rw [HeaderPtr.typeflag]
  split <;> simp

theorem ends_strncpy {capacity count : ℕ} (hcount : count < capacity) (source : List Byte) :
    Run.Ends (CArray.strncpy count hcount source : Run ExitReason (CArray capacity)) :=
  Run.ends_bind (Run.ends_require _) (by simp)

theorem ends_copyData (ph : HeaderPtr) (size : ℤ) : Run.Ends (copyData ph size) := by
  rw [copyData]
  split
  · simp
  · split
    · simp
    · exact Run.ends_bind (Run.ends_require _) (by simp)

theorem ends_applyTypeflag (ph : HeaderPtr) (node : Inode) :
    Run.Ends (applyTypeflag ph node) := by
  apply Run.ends_bind (ends_typeflag ph)
  intro flag _
  split
  · simp
  · split
    · exact Run.ends_bind (ends_copyData _ _) (by simp)
    · split
      · split
        · simp
        · split
          · refine Run.ends_bind ?_ (by simp)
            exact Run.ends_bind (ends_strncpy _ _) (by simp)
          · simp
      · simp

theorem ends_newInode (ph : HeaderPtr) (component : List Byte) (parentid : ℤ) :
    Run.Ends (newInode ph component parentid) := by
  apply Run.ends_bind (ends_strncpy _ _)
  intro name _
  apply Run.ends_bind (ends_strncpy _ _)
  intro link _
  apply Run.ends_bind (ends_strtol _ _)
  intro size _
  apply Run.ends_bind (ends_strtol _ _)
  intro uid _
  apply Run.ends_bind (ends_strtol _ _)
  intro gid _
  apply Run.ends_bind (ends_strtol _ _)
  intro mtime _
  exact Run.ends_bind (ends_strtol _ _) fun mode _ => ends_applyTypeflag _ _

theorem ends_mergeFile (ph : HeaderPtr) (inodes : Table) : Run.Ends (mergeFile ph inodes) := by
  apply Run.ends_bind (ends_locate ph inodes)
  intro found _
  apply Run.ends_bind (ends_typeflag ph)
  intro flag _
  split
  · simp
  · split
    · simp
    · apply Run.ends_bind (Run.ends_require _)
      intro _ _
      exact Run.ends_bind (ends_newInode _ _ _) (by simp)

theorem ends_addInt (left right : ℤ) : Run.Ends (addInt left right) := by
  rw [addInt]
  split <;> simp

theorem ends_skipData (p size : ℤ) : Run.Ends (skipData p size) := by
  rw [skipData]
  split
  · apply Run.ends_bind (ends_addInt _ _)
    intro sum _
    split <;> simp
  · simp

theorem ends_printMember (ph : HeaderPtr) : Run.Ends (printMember ph) := by
  apply Run.ends_bind (ends_typeflag ph)
  intro _ _
  apply Run.ends_bind (ends_cString _)
  intro _ _
  exact Run.ends_bind (ends_cString _) (by simp)

theorem ends_untarBlock (buf : List Byte) (state : UntarState) :
    Run.Ends (untarBlock buf state) := by
  apply Run.ends_bind (Run.ends_require _)
  intro _ _
  apply Run.ends_bind (ends_addInt _ _)
  intro p _
  apply Run.ends_bind (ends_startsWith _ _)
  intro magic _
  split
  · simp
  · apply Run.ends_bind (ends_strtol _ _)
    intro size _
    apply Run.ends_bind (ends_printMember _)
    intro _ _
    apply Run.ends_bind (ends_mergeFile _ _)
    intro inodes _
    exact Run.ends_bind (ends_skipData _ _) (by simp)

/-! ## The loop -/

/-- From a block boundary a loop that always advances takes no more iterations
than there are blocks left. -/
theorem ends_untarLoop {buf : List Byte} {len : ℤ} {fuel : ℕ} {state : UntarState}
    (haligned : state.p % 512 = 0) (hfuel : len ≤ state.p + 512 * fuel)
    (hadvances : ∀ other, Reaches buf len state other → other.p < len → Merged buf other →
      Advances buf other) : Run.Ends (untarLoop buf len fuel state) := by
  induction fuel generalizing state with
  | zero => simp [untarLoop_stop (show len ≤ state.p by simpa using hfuel)]
  | succ fuel ih =>
      rw [untarLoop]
      split
      · rename_i hlt
        apply Run.ends_bind (ends_untarBlock buf state)
        intro next hblock
        have hnext := untarBlock_aligned haligned hblock
        have hlarger : state.p < next.p := by
          obtain ⟨other, hother, hlarger⟩ :=
            hadvances state .start hlt (merged_of_untarBlock hblock)
          rw [hblock, Except.ok.injEq] at hother
          exact hother ▸ hlarger
        apply ih hnext (by push_cast at hfuel; omega)
        intro other hreaches
        exact hadvances other (.head hlt hblock hreaches)
      · simp

/-- Every iteration of a run moves the position on without an overflow, and the
run stops within one iteration for each block and one more, exactly when the
sizes of the headers it merges are in their range. -/
theorem untar_progress_iff (buf : List Byte) (len : ℤ) (inodes : Table) :
    (∀ state, Reaches buf len ⟨0, inodes, []⟩ state → state.p < len → Merged buf state →
        Advances buf state) ∧ Run.Ends (untar buf len (len.toNat / 512 + 1) inodes) ↔
      ∀ state, Reaches buf len ⟨0, inodes, []⟩ state → state.p < len → Merged buf state →
        SizeFits buf state := by
  have hstep : ∀ {state}, Reaches buf len ⟨0, inodes, []⟩ state → Merged buf state →
      (Advances buf state ↔ SizeFits buf state) :=
    fun hreaches hmerged => advances_iff hmerged (reaches_aligned (by simp) hreaches)
  constructor
  · rintro ⟨hadvances, -⟩ state hreaches hlt hmerged
    exact (hstep hreaches hmerged).mp (hadvances state hreaches hlt hmerged)
  · intro hfits
    have hadvances : ∀ state, Reaches buf len ⟨0, inodes, []⟩ state → state.p < len →
        Merged buf state → Advances buf state :=
      fun state hreaches hlt hmerged =>
        (hstep hreaches hmerged).mpr (hfits state hreaches hlt hmerged)
    refine ⟨hadvances, ends_untarLoop (by simp) ?_ hadvances⟩
    simp only [zero_add]
    push_cast
    omega

/-! ## A negative size -/

/-- The header of a directory with the size `-1000`, which is octal. -/
def negativeHeader : List Byte :=
  (TarHeader.tarHeader (TarHeader.nestedDirectory 0)).take 124 ++
    (TarHeader.paddedText 12 (ascii ['-', '1', '0', '0', '0']) ++
      (TarHeader.tarHeader (TarHeader.nestedDirectory 0)).drop 136)

/-- The directory, which keeps the size. -/
def negativeTable : Table :=
  (TarHeader.smallTable.take 1).map fun node => { node with size := -512 }

set_option maxRecDepth 4000 in
theorem mergeFile_negativeHeader :
    mergeFile ⟨negativeHeader, 0⟩ [] = .ok negativeTable ∧
      mergeFile ⟨negativeHeader, 0⟩ negativeTable = .ok negativeTable :=
  ⟨rfl, rfl⟩

set_option maxRecDepth 4000 in
theorem untarBlock_negativeHeader {inodes : Table}
    (hmerge : mergeFile ⟨negativeHeader, 0⟩ inodes = .ok negativeTable) (calls : List ℕ) :
    untarBlock negativeHeader ⟨0, inodes, calls⟩ =
      .ok ⟨0, negativeTable, calls ++ [0]⟩ := by
  have hmagic : startsWith ustar (HeaderPtr.from' ⟨negativeHeader, 0⟩ .magic) =
      (.ok true : Run ExitReason Bool) := by rfl
  have hsize : (strtol 8 (HeaderPtr.from' ⟨negativeHeader, 0⟩ .size) : Run ExitReason ℤ) =
      .ok (-512) := by rfl
  have hprint : printMember ⟨negativeHeader, 0⟩ = .ok () := by rfl
  have hadd : addInt 0 0x200 = .ok 512 := rfl
  have hskip : skipData 512 (toInt (-512)) = .ok 0 := rfl
  simp only [untarBlock, Int.toNat_zero, Run.require_pos (le_refl (0 : ℤ)), hadd, hmagic, hsize,
    hprint, hmerge, hskip, Run.ok_bind, Bool.true_eq_false, if_false]
  rfl

/-- The loop merges the same header over and over again. -/
theorem untar_negativeHeader :
    (∃ state, Reaches negativeHeader 512 ⟨0, [], []⟩ state ∧ state.p < 512 ∧
      Merged negativeHeader state ∧ ¬ Advances negativeHeader state) ∧
    ∀ fuel, untar negativeHeader 512 fuel [] = Run.outOfFuel := by
  constructor
  · refine ⟨_, .start, by decide,
      merged_of_untarBlock (untarBlock_negativeHeader mergeFile_negativeHeader.1 []), ?_⟩
    rintro ⟨next, hnext, hlarger⟩
    rw [untarBlock_negativeHeader mergeFile_negativeHeader.1, Except.ok.injEq] at hnext
    rw [← hnext] at hlarger
    exact absurd hlarger (lt_irrefl _)
  · have hrest : ∀ fuel calls, untarLoop negativeHeader 512 fuel
        ⟨0, negativeTable, calls⟩ = Run.outOfFuel := by
      intro fuel
      induction fuel with
      | zero =>
          intro calls
          rw [untarLoop]
          rfl
      | succ fuel ih =>
          intro calls
          rw [untarLoop, if_pos (show (0 : ℤ) < 512 by decide),
            untarBlock_negativeHeader mergeFile_negativeHeader.2, Run.ok_bind]
          exact ih _
    intro fuel
    cases fuel with
    | zero => rfl
    | succ fuel =>
        rw [untar, untarLoop, if_pos (by decide),
          untarBlock_negativeHeader mergeFile_negativeHeader.1, Run.ok_bind]
        exact hrest fuel _

end Tcb.Progress
