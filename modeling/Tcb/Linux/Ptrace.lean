import Mathlib.Data.Int.Notation
import Mathlib.Data.Nat.Notation
import Mathlib.Tactic
import Tcb.Core.LastWrite

/-!
# The registers of a traced task

With the patch a tracer can read and write the registers of its child one at a
time, by their offsets.  Over a run of such requests a register has what was
written to it last, however the requests for the registers are mixed and
whichever of them are refused.
-/

namespace Tcb.Ptrace

/-- `unsigned long`. -/
abbrev Ulong := BitVec 32

/-- The registers that the requests reach. -/
structure PtRegs where
  gpr : Fin 32 → Ulong
  pc : Ulong
  orig_gpr11 : Ulong

/-- What the headers define. -/
def PT_PC : Ulong := 128
def PT_ORIG_GPR11 : Ulong := 132
def EIO : ℤ := 5
def EFAULT : ℤ := 14

inductive Request
  | PTRACE_PEEKUSR
  | PTRACE_POKEUSR
  | other (request : ℤ)

/-- The child, and the words of the tracer. -/
structure State where
  regs : PtRegs
  user : Ulong → Ulong

section Code

variable (writable : Ulong → Bool) (ptrace_request : ℤ → Ulong → Ulong → State → ℤ × State)

/-- `addr>>2` for the offsets 0 to 127. -/
def gprIndex (addr : Ulong) (hgpr : addr.toNat ≤ 127) : Fin 32 :=
  ⟨(addr >>> 2).toNat, by
    rw [BitVec.toNat_ushiftRight, Nat.shiftRight_eq_div_pow]
    omega⟩

/-- `put_user(value, datalp)`. -/
def putUser (value datalp : Ulong) (state : State) : ℤ × State :=
  if writable datalp then (0, { state with user := Function.update state.user datalp value })
  else (-EFAULT, state)

/-- `arch_ptrace(child, request, addr, data)`. -/
def archPtrace (request : Request) (addr data : Ulong) (state : State) : ℤ × State :=
  match request with
  | .PTRACE_PEEKUSR =>
      if hgpr : addr.toNat ≤ 127 then
        putUser writable (state.regs.gpr (gprIndex addr hgpr)) data state
      else if addr = PT_PC then putUser writable state.regs.pc data state
      else if addr = PT_ORIG_GPR11 then putUser writable state.regs.orig_gpr11 data state
      else (- EIO, state)
  | .PTRACE_POKEUSR =>
      if hgpr : addr.toNat ≤ 127 then
        (0, { state with
          regs.gpr := Function.update state.regs.gpr (gprIndex addr hgpr) data })
      else if addr = PT_PC then (0, { state with regs.pc := data })
      else if addr = PT_ORIG_GPR11 then (0, { state with regs.orig_gpr11 := data })
      else (- EIO, state)
  | .other request => ptrace_request request addr data state

end Code

/-! ## The registers by name -/

inductive Register
  | gpr (index : Fin 32)
  | pc
  | orig_gpr11
  deriving DecidableEq

/-- The register that a request is about.  The four offsets inside of a general
register are all taken for it. -/
def registerAt (addr : Ulong) : Option Register :=
  if hgpr : addr.toNat ≤ 127 then some (.gpr (gprIndex addr hgpr))
  else if addr = PT_PC then some .pc
  else if addr = PT_ORIG_GPR11 then some .orig_gpr11
  else none

def PtRegs.contents (regs : PtRegs) : Register → Ulong
  | .gpr index => regs.gpr index
  | .pc => regs.pc
  | .orig_gpr11 => regs.orig_gpr11

/-- A request for one register. -/
inductive Access
  | peek (addr datalp : Ulong)
  | poke (addr data : Ulong)

section Access

variable (writable : Ulong → Bool) (ptrace_request : ℤ → Ulong → Ulong → State → ℤ × State)

def Access.perform (state : State) : Access → ℤ × State
  | .peek addr datalp => archPtrace writable ptrace_request .PTRACE_PEEKUSR addr datalp state
  | .poke addr data => archPtrace writable ptrace_request .PTRACE_POKEUSR addr data state

def run (state : State) (accesses : List Access) : State :=
  accesses.foldl (fun state access => (access.perform writable ptrace_request state).2) state

end Access

/-- What a request writes. -/
def Access.pokes : Access → List (Register × Ulong)
  | .peek _ _ => []
  | .poke addr data =>
      match registerAt addr with
      | none => []
      | some register => [(register, data)]

def pokes (accesses : List Access) : List (Register × Ulong) := accesses.flatMap Access.pokes

section Run

variable (writable : Ulong → Bool) (ptrace_request : ℤ → Ulong → Ulong → State → ℤ × State)

theorem putUser_regs (value datalp : Ulong) (state : State) :
    (putUser writable value datalp state).2.regs = state.regs := by
  rw [putUser]
  split <;> rfl

theorem peek_eq (addr datalp : Ulong) (state : State) :
    archPtrace writable ptrace_request .PTRACE_PEEKUSR addr datalp state =
      match registerAt addr with
      | none => (- EIO, state)
      | some register => putUser writable (state.regs.contents register) datalp state := by
  rw [archPtrace, registerAt]
  split_ifs with hgpr hpc horig
  · rfl
  · rfl
  · rfl
  · rfl

/-- A write that is refused leaves everything as it is. -/
theorem poke_none {addr : Ulong} (hnone : registerAt addr = none) (data : Ulong) (state : State) :
    archPtrace writable ptrace_request .PTRACE_POKEUSR addr data state = (- EIO, state) := by
  rw [registerAt] at hnone
  rw [archPtrace]
  split_ifs at hnone ⊢ with hgpr hpc horig
  rfl

theorem contents_gpr (regs : PtRegs) (index : Fin 32) (data : Ulong) :
    { regs with gpr := Function.update regs.gpr index data }.contents =
      LastWrite.write regs.contents (.gpr index, data) := by
  funext register
  cases register with
  | gpr other =>
      rw [LastWrite.write]
      by_cases heq : other = index
      · rw [heq, Function.update_self]
        exact Function.update_self _ _ _
      · rw [Function.update_of_ne (fun hsame => heq (Register.gpr.inj hsame))]
        exact Function.update_of_ne heq _ _
  | pc => rfl
  | orig_gpr11 => rfl

/-- One that is not changes the register that it is about, and no other. -/
theorem poke_some {addr : Ulong} {register : Register} (hsome : registerAt addr = some register)
    (data : Ulong) (state : State) :
    ∃ regs, archPtrace writable ptrace_request .PTRACE_POKEUSR addr data state =
        (0, { state with regs }) ∧
      regs.contents = LastWrite.write state.regs.contents (register, data) := by
  rw [registerAt] at hsome
  rw [archPtrace]
  split_ifs at hsome ⊢ with hgpr hpc horig
  · obtain rfl := Option.some.inj hsome
    exact ⟨_, rfl, contents_gpr state.regs _ data⟩
  · obtain rfl := Option.some.inj hsome
    exact ⟨_, rfl, by funext register; cases register <;> rfl⟩
  · obtain rfl := Option.some.inj hsome
    exact ⟨_, rfl, by funext register; cases register <;> rfl⟩

theorem perform_contents (state : State) (access : Access) :
    (access.perform writable ptrace_request state).2.regs.contents =
      LastWrite.writes state.regs.contents access.pokes := by
  cases access with
  | peek addr datalp =>
      rw [Access.perform, peek_eq]
      cases registerAt addr with
      | none => rfl
      | some register => exact congrArg PtRegs.contents (putUser_regs _ _ _ _)
  | poke addr data =>
      rw [Access.perform, Access.pokes]
      rcases hregister : registerAt addr with _ | register
      · rw [poke_none writable ptrace_request hregister]
        rfl
      · obtain ⟨regs, hresult, hcontents⟩ :=
          poke_some writable ptrace_request hregister data state
        rw [hresult]
        exact hcontents

theorem run_contents (state : State) (accesses : List Access) :
    (run writable ptrace_request state accesses).regs.contents =
      LastWrite.writes state.regs.contents (pokes accesses) := by
  induction accesses generalizing state with
  | nil => rfl
  | cons access accesses ih =>
      rw [pokes, List.flatMap_cons, LastWrite.writes, List.foldl_append]
      calc (run writable ptrace_request state (access :: accesses)).regs.contents
          = LastWrite.writes (access.perform writable ptrace_request state).2.regs.contents
              (pokes accesses) := ih _
        _ = LastWrite.writes (LastWrite.writes state.regs.contents access.pokes)
              (pokes accesses) := by rw [perform_contents]

/-- After any run of reads and writes, a read gives the tracer what was written
last to the register, or what the child had when nothing was; a request for any
other offset is refused, and changes neither the registers nor the tracer. -/
theorem peek_run (state : State) (accesses : List Access) (addr : Ulong) :
    let state' := run writable ptrace_request state accesses
    match registerAt addr with
    | none => ∀ data,
        archPtrace writable ptrace_request .PTRACE_PEEKUSR addr data state' = (- EIO, state') ∧
        archPtrace writable ptrace_request .PTRACE_POKEUSR addr data state' = (- EIO, state')
    | some register => ∀ datalp,
        archPtrace writable ptrace_request .PTRACE_PEEKUSR addr datalp state' =
          putUser writable
            ((LastWrite.last (pokes accesses) register).getD (state.regs.contents register))
            datalp state' := by
  intro state'
  rcases hregister : registerAt addr with _ | register
  · intro data
    refine ⟨?_, poke_none writable ptrace_request hregister data _⟩
    rw [peek_eq, hregister]
  · intro datalp
    have hvalue : state'.regs.contents register =
        (LastWrite.last (pokes accesses) register).getD (state.regs.contents register) := by
      rw [run_contents, LastWrite.writes_apply]
    rw [peek_eq, hregister, ← hvalue]

end Run

end Tcb.Ptrace
