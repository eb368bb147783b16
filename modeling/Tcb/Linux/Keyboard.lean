import Mathlib.Tactic
import Tcb.Core.Returning

/-!
# The keyboard driver

The driver is bound to the keyboard and unbound again, and from the moment its
handler is installed an interrupt may come in between any two of its calls.
Nothing is said about the answers of the kernel: every call that can fail may
do so.  The calls that were made say what the driver holds.
-/

namespace Tcb.Keyboard

open Tcb.Traced

/-- An address in the kernel. -/
abbrev Ptr := ℕ

structure Resource where
  start : ℕ
  size : ℕ
  deriving DecidableEq

/-- `struct opencores_kbd`. -/
structure OpencoresKbd where
  input : Option Ptr
  addr_res : Option Resource
  addr : Option Ptr
  irq : ℤ
  keycodes : ℕ → ℕ

/-- What `kzalloc` gives. -/
def OpencoresKbd.zero : OpencoresKbd := ⟨none, none, none, 0, fun _ => 0⟩

/-- Of `struct input_dev`, the kinds of events and the keys. -/
structure InputDev where
  evbit : ℕ → Bool
  keybit : ℕ → Bool

def InputDev.blank : InputDev := ⟨fun _ => false, fun _ => false⟩

def EV_KEY : ℕ := 1
def KEY_RESERVED : ℕ := 0
def EINVAL : ℤ := 22
def ENOMEM : ℤ := 12
def EBUSY : ℤ := 16
def ENXIO : ℤ := 6

/-- An assignment to a field of `struct opencores_kbd`. -/
inductive Field
  | addr_res (res : Resource)
  | addr (addr : Option Ptr)
  | input (input : Ptr)
  | irq (irq : ℤ)
  | keycode (i code : ℕ)

def OpencoresKbd.assign (kbd : OpencoresKbd) : Field → OpencoresKbd
  | .addr_res res => { kbd with addr_res := some res }
  | .addr addr => { kbd with addr }
  | .input input => { kbd with input := some input }
  | .irq irq => { kbd with irq }
  | .keycode i code => { kbd with keycodes := Function.update kbd.keycodes i code }

/-- A change to the bits of an input device. -/
inductive Bit
  | event (type : ℕ)
  | key (code : ℕ)
  | noKey (code : ℕ)

def InputDev.change (dev : InputDev) : Bit → InputDev
  | .event type => { dev with evbit := Function.update dev.evbit type true }
  | .key code => { dev with keybit := Function.update dev.keybit code true }
  | .noKey code => { dev with keybit := Function.update dev.keybit code false }

theorem InputDev.keybit_key (dev : InputDev) (key code : ℕ) :
    (dev.change (.key key)).keybit code = if code = key then true else dev.keybit code :=
  Function.update_apply _ _ _ _

theorem InputDev.keybit_noKey (dev : InputDev) (key code : ℕ) :
    (dev.change (.noKey key)).keybit code = if code = key then false else dev.keybit code :=
  Function.update_apply _ _ _ _

/-- A call with its answer, or an access to memory of the driver. -/
inductive Step
  | platform_get_resource (res : Option Resource)
  | platform_get_irq (irq : ℤ)
  | dev_err (message : String)
  | kzalloc (kbd : Option Ptr)
  | input_allocate_device (input : Option Ptr)
  | request_mem_region (res : Resource) (granted : Bool)
  | ioremap (res : Resource) (addr : Option Ptr)
  | store (kbd : Ptr) (field : Field)
  | load (kbd : Ptr)
  | set_bit (input : Ptr) (bit : Bit)
  | request_irq (irq : ℤ) (kbd : Ptr) (error : ℤ)
  | input_register_device (input : Ptr) (error : ℤ)
  | platform_set_drvdata (kbd : Ptr)
  | platform_get_drvdata (kbd : Option Ptr)
  | free_irq (irq : ℤ) (kbd : Ptr)
  | iounmap (addr : Option Ptr)
  | release_mem_region (res : Option Resource)
  | input_unregister_device (input : Option Ptr)
  | input_free_device (input : Option Ptr)
  | kfree (kbd : Option Ptr)
  | readb (addr : Option Ptr) (c : BitVec 8)
  | input_report_key (input : Option Ptr) (code value : ℕ)
  | input_sync (input : Option Ptr)

/-- The answers, and how many interrupts come in. -/
structure World where
  platform_get_resource : List Step → Option Resource
  platform_get_irq : List Step → ℤ
  kzalloc : List Step → Option Ptr
  input_allocate_device : List Step → Option Ptr
  request_mem_region : List Step → Resource → Bool
  ioremap : List Step → Resource → Option Ptr
  request_irq : List Step → ℤ → ℤ
  input_register_device : List Step → ℤ
  readb : List Step → BitVec 8
  interrupts : List Step → ℕ

/-! ## What the driver holds -/

structure Held where
  kbds : List (Ptr × OpencoresKbd)
  inputs : List (Ptr × InputDev)
  regions : List Resource
  mappings : List Ptr
  handlers : List (ℤ × Ptr)
  registered : List Ptr
  drvdata : Option Ptr

def Step.apply : Step → Held → Held
  | .kzalloc (some kbd), held => { held with kbds := (kbd, .zero) :: held.kbds }
  | .kfree (some kbd), held => { held with kbds := held.kbds.filter (·.1 ≠ kbd) }
  | .store kbd field, held =>
      { held with
        kbds := held.kbds.map fun at' => if at'.1 = kbd then (kbd, at'.2.assign field) else at' }
  | .input_allocate_device (some input), held =>
      { held with inputs := (input, .blank) :: held.inputs }
  | .input_free_device (some input), held =>
      { held with inputs := held.inputs.filter (·.1 ≠ input) }
  | .input_unregister_device (some input), held =>
      { held with
        inputs := held.inputs.filter (·.1 ≠ input)
        registered := held.registered.erase input }
  | .set_bit input bit, held =>
      { held with
        inputs := held.inputs.map fun at' =>
          if at'.1 = input then (input, at'.2.change bit) else at' }
  | .request_mem_region res true, held => { held with regions := res :: held.regions }
  | .release_mem_region (some res), held => { held with regions := held.regions.erase res }
  | .ioremap _ (some addr), held => { held with mappings := addr :: held.mappings }
  | .iounmap (some addr), held => { held with mappings := held.mappings.erase addr }
  | .request_irq irq kbd error, held =>
      if error = 0 then { held with handlers := (irq, kbd) :: held.handlers } else held
  | .free_irq irq kbd, held => { held with handlers := held.handlers.erase (irq, kbd) }
  | .input_register_device input error, held =>
      if error = 0 then { held with registered := input :: held.registered } else held
  | .platform_set_drvdata kbd, held => { held with drvdata := some kbd }
  | _, held => held

def held (h : List Step) : Held := h.foldr Step.apply ⟨[], [], [], [], [], [], none⟩

/-! ## The driver -/

abbrev Trace := Traced Step Empty

section Driver

variable (world : World)

/-- A read of `*opencores_kbd`. -/
def load (kbd : Ptr) : Trace OpencoresKbd :=
  perform (fun h _ => ((held h).kbds.lookup kbd).isSome)
    (fun h => ((held h).kbds.lookup kbd).getD .zero) fun _ => .load kbd

def opencoresKbdIsr (kbd : Ptr) : Trace Unit := do
  let input := (← load kbd).input
  let addr := (← load kbd).addr
  let c ← call world.readb (.readb addr)
  emit (.input_report_key input (c &&& 0x7f).toNat (if c &&& 0x80 = 0 then 1 else 0))
  emit (.input_sync input)

/-- The interrupts that come in before the next step of the driver. -/
def serve : Trace Unit := do
  let pending ← inspect world.interrupts
  let handlers ← inspect fun h => (held h).handlers
  (List.replicate pending ()).forM fun _ =>
    handlers.forM fun handler => opencoresKbdIsr world handler.2

/-- A call of the driver. -/
def ask {α : Type} (answer : List Step → α) (step : α → Step) : Trace α := do
  serve world
  call answer step

def act (step : Step) : Trace Unit := ask world (fun _ => ()) fun _ => step

/-- A read in the driver. -/
def read (kbd : Ptr) : Trace OpencoresKbd := do
  serve world
  load kbd

/-! ### The labels at the end of `opencores_kbd_probe` -/

def errFreeMem (kbd input : Option Ptr) (error : ℤ) : Trace ℤ := do
  act world (.input_free_device input)
  act world (.kfree kbd)
  pure error

def errRelMem (kbd input : Ptr) (res : Resource) (error : ℤ) : Trace ℤ := do
  act world (.release_mem_region (some res))
  errFreeMem world (some kbd) (some input) error

def errUnmapMem (kbd input : Ptr) (res : Resource) (error : ℤ) : Trace ℤ := do
  act world (.iounmap (← read world kbd).addr)
  errRelMem world kbd input res error

def errFreeIrq (kbd input : Ptr) (res : Resource) (irq : ℤ) (error : ℤ) : Trace ℤ := do
  act world (.free_irq irq kbd)
  errUnmapMem world kbd input res error

/-! ### Its body -/

/-- From `opencores_kbd->input = input` to `__clear_bit`. -/
def describe (kbd input : Ptr) (irq : ℤ) : Trace Unit := do
  act world (.store kbd (.input input))
  act world (.store kbd (.irq irq))
  act world (.set_bit input (.event EV_KEY))
  (List.range 128).forM fun i => do
    act world (.store kbd (.keycode i i))
    let keycodes := (← read world kbd).keycodes
    act world (.set_bit input (.key (keycodes i)))
  act world (.set_bit input (.noKey KEY_RESERVED))

/-- From `request_irq` on. -/
def install (kbd input : Ptr) (res : Resource) (irq : ℤ) : Trace ℤ := do
  let error ← ask world (world.request_irq · irq) (.request_irq irq kbd)
  if error ≠ 0 then
    act world (.dev_err s!"unable to claim irq {irq}\n")
    errUnmapMem world kbd input res error
  else
    let error ← ask world world.input_register_device (.input_register_device input)
    if error ≠ 0 then
      act world (.dev_err "unable to register input device\n")
      errFreeIrq world kbd input res irq error
    else
      act world (.platform_set_drvdata kbd)
      pure 0

/-- From the two allocations on. -/
def setUp (kbd input : Ptr) (res : Resource) (irq : ℤ) : Trace ℤ := do
  act world (.store kbd (.addr_res res))
  let granted ← ask world (world.request_mem_region · res) (.request_mem_region res)
  if granted = false then
    act world (.dev_err "failed to request I/O memory\n")
    errFreeMem world (some kbd) (some input) (-EBUSY)
  else
    let addr ← ask world (world.ioremap · res) (.ioremap res)
    act world (.store kbd (.addr addr))
    if (← read world kbd).addr = none then
      act world (.dev_err "failed to remap I/O memory\n")
      errRelMem world kbd input res (- ENXIO)
    else
      describe world kbd input irq
      install world kbd input res irq

def opencoresKbdProbe : Trace ℤ := do
  match ← ask world world.platform_get_resource .platform_get_resource with
  | none =>
      act world (.dev_err "missing board memory resource\n")
      pure (-EINVAL)
  | some res =>
      let irq ← ask world world.platform_get_irq .platform_get_irq
      if irq < 0 then
        act world (.dev_err "missing board IRQ resource\n")
        pure (-EINVAL)
      else
        let kbd ← ask world world.kzalloc .kzalloc
        let input ← ask world world.input_allocate_device .input_allocate_device
        match kbd, input with
        | some kbd, some input => setUp world kbd input res irq
        | kbd, input =>
            act world (.dev_err "failed to allocate device structures\n")
            errFreeMem world kbd input (-ENOMEM)

def opencoresKbdRemove : Trace ℤ := do
  match ← ask world (fun h => (held h).drvdata) .platform_get_drvdata with
  | none => Traced.stop (.fault .nullPointer)
  | some kbd =>
      act world (.free_irq (← read world kbd).irq kbd)
      act world (.iounmap (← read world kbd).addr)
      act world (.release_mem_region (← read world kbd).addr_res)
      act world (.input_unregister_device (← read world kbd).input)
      act world (.kfree (some kbd))
      pure 0

/-- The driver is bound and, when that succeeds, unbound. -/
def bindUnbind : Trace Unit := do
  let error ← opencoresKbdProbe world
  if error = 0 then
    let _ ← opencoresKbdRemove world

/-- As often as the user asks for it. -/
def bindings (times : ℕ) : Trace Unit :=
  (List.range times).forM fun _ => bindUnbind world

end Driver

/-! ## Calls on what is held -/

/-- The call is made on something that the driver holds, and a key that is
reported is one of the device, or the reserved one. -/
def Proper (h : List Step) : Step → Prop
  | .store kbd _ => ((held h).kbds.lookup kbd).isSome
  | .load kbd => ((held h).kbds.lookup kbd).isSome
  | .set_bit input _ => ((held h).inputs.lookup input).isSome
  | .request_irq _ kbd _ => ((held h).kbds.lookup kbd).isSome
  | .input_register_device input _ =>
      ((held h).inputs.lookup input).isSome ∧ input ∉ (held h).registered
  | .free_irq irq kbd => (irq, kbd) ∈ (held h).handlers
  | .iounmap addr => ∃ mapped ∈ addr, mapped ∈ (held h).mappings
  | .release_mem_region res => ∃ region ∈ res, region ∈ (held h).regions
  | .input_unregister_device input => ∃ device ∈ input, device ∈ (held h).registered
  | .input_free_device input =>
      ∀ device ∈ input, ((held h).inputs.lookup device).isSome ∧ device ∉ (held h).registered
  | .kfree kbd => ∀ allocated ∈ kbd, ((held h).kbds.lookup allocated).isSome
  | .readb addr _ => ∃ mapped ∈ addr, mapped ∈ (held h).mappings
  | .input_report_key input code _ =>
      ∃ device ∈ input, ∃ dev, (held h).inputs.lookup device = some dev ∧
        (dev.keybit code = true ∨ code = KEY_RESERVED)
  | .input_sync input => ∃ device ∈ input, ((held h).inputs.lookup device).isSome
  | _ => True

/-- Nothing is held. -/
def Clear (held : Held) : Prop :=
  held.kbds = [] ∧ held.inputs = [] ∧ held.regions = [] ∧ held.mappings = [] ∧
    held.handlers = [] ∧ held.registered = []

/-- An interrupt may come in: what each handler uses is there. -/
def Safe (held : Held) : Prop :=
  ∀ handler ∈ held.handlers, ∃ kbd addr input dev, held.kbds.lookup handler.2 = some kbd ∧
    kbd.addr = some addr ∧ addr ∈ held.mappings ∧ kbd.input = some input ∧
    held.inputs.lookup input = some dev ∧
    ∀ code < 128, code ≠ KEY_RESERVED → dev.keybit code = true

section Calls

variable {world : World} {state : Held} {h : List Step}

theorem load_held {kbd : Ptr} {content : OpencoresKbd} (hheld : held h = state)
    (hkbd : state.kbds.lookup kbd = some content) :
    Does Proper (load kbd) (fun value h' => value = content ∧ held h' = state) h := by
  have hlookup : (held h).kbds.lookup kbd = some content := hheld ▸ hkbd
  apply does_perform
  · rw [hlookup, Option.isSome_some]
  · rw [Proper, hlookup, Option.isSome_some]
  · exact ⟨by rw [hlookup, Option.getD_some], hheld⟩

theorem opencoresKbdIsr_held (hsafe : Safe state) (hheld : held h = state) {handler : ℤ × Ptr}
    (hhandler : handler ∈ state.handlers) :
    Does Proper (opencoresKbdIsr world handler.2) (fun _ h' => held h' = state) h := by
  obtain ⟨kbd, addr, input, dev, hkbd, haddr, hmapped, hinput, hdev, hkeys⟩ :=
    hsafe handler hhandler
  apply (load_held hheld hkbd).bind
  rintro value h ⟨rfl, hheld⟩
  apply (load_held hheld hkbd).bind
  rintro value' h ⟨rfl, hheld⟩
  apply does_bind
  apply does_call
  · exact ⟨addr, haddr, hheld ▸ hmapped⟩
  · apply does_bind
    apply does_emit
    · refine ⟨input, hinput, dev, hheld ▸ hdev, ?_⟩
      by_cases hreserved : (world.readb h &&& 0x7f).toNat = KEY_RESERVED
      · exact .inr hreserved
      · refine .inl (hkeys _ ?_ hreserved)
        rw [BitVec.toNat_and]
        exact Nat.and_lt_two_pow (n := 7) _ (by decide)
    · apply does_emit
      · have hlookup : (held h).inputs.lookup input = some dev := hheld ▸ hdev
        exact ⟨input, hinput, Option.isSome_of_eq_some hlookup⟩
      · exact hheld

theorem serve_held (hsafe : Safe state) (hheld : held h = state) :
    Does Proper (serve world) (fun _ h' => held h' = state) h := by
  apply does_bind
  apply does_inspect
  apply does_bind
  apply does_inspect
  apply does_forM fun _ h' => held h' = state
  · intro _ _ _ _ h' hheld'
    apply does_forM fun _ h' => held h' = state
    · intro done handler rest hhandlers h' hheld'
      have hmem : handler ∈ state.handlers := by
        rw [← hheld, hhandlers]
        exact List.mem_append_right _ List.mem_cons_self
      exact opencoresKbdIsr_held hsafe hheld' hmem
    · exact hheld'
  · exact hheld

theorem ask_held {α : Type} {answer : List Step → α} {step : α → Step} (hsafe : Safe state)
    (hheld : held h = state) (hproper : ∀ h' value, held h' = state → Proper h' (step value)) :
    Does Proper (ask world answer step)
      (fun value h' => held h' = (step value).apply state) h := by
  apply (serve_held hsafe hheld).bind
  intro _ h' hheld'
  apply does_call
  · exact hproper h' _ hheld'
  · rw [← hheld']
    rfl

theorem act_held {step : Step} (hsafe : Safe state) (hheld : held h = state)
    (hproper : ∀ h', held h' = state → Proper h' step) :
    Does Proper (act world step) (fun _ h' => held h' = step.apply state) h :=
  ask_held hsafe hheld fun h' _ => hproper h'

theorem dev_err_held (message : String) (hsafe : Safe state) (hheld : held h = state) :
    Does Proper (act world (.dev_err message)) (fun _ h' => held h' = state) h :=
  act_held hsafe hheld fun _ _ => trivial

theorem read_held {kbd : Ptr} {content : OpencoresKbd} (hsafe : Safe state) (hheld : held h = state)
    (hkbd : state.kbds.lookup kbd = some content) :
    Does Proper (read world kbd) (fun value h' => value = content ∧ held h' = state) h :=
  (serve_held hsafe hheld).bind fun _ _ hheld' => load_held hheld' hkbd

theorem drvdata_held (hsafe : Safe state) (hheld : held h = state) :
    Does Proper (ask world (fun h => (held h).drvdata) .platform_get_drvdata)
      (fun found h' => found = state.drvdata ∧ held h' = state) h := by
  apply (serve_held hsafe hheld).bind
  intro _ h' hheld'
  apply does_call
  · trivial
  · exact ⟨congrArg Held.drvdata hheld', hheld'⟩

end Calls

/-! ## Binding and unbinding -/

section Bind

variable {world : World} {h : List Step} {kbd input : Ptr} {content : OpencoresKbd}
  {dev : InputDev} {res : Resource} {irq : ℤ} {addr : Ptr} {drvdata : Option Ptr}

theorem safe_of_no_handler {state : Held} (hnone : state.handlers = []) : Safe state := by
  intro handler hhandler
  rw [hnone] at hhandler
  exact absurd hhandler List.not_mem_nil

/-- What a part of the driver leaves when it gives up. -/
def Failed (error result : ℤ) (h : List Step) : Prop := result = error ∧ Clear (held h)

theorem errFreeMem_failed {kbd : Option Ptr} {input : Option Ptr} (error : ℤ)
    (hheld : held h = ⟨(kbd.map (·, content)).toList, (input.map (·, dev)).toList, [], [], [], [],
      drvdata⟩) :
    Does Proper (errFreeMem world kbd input error) (Failed error) h := by
  apply (act_held (safe_of_no_handler rfl) hheld ?_).bind
  · intro _ h hheld
    apply (act_held (safe_of_no_handler ?_) hheld ?_).bind
    · intro _ h hheld
      apply does_pure
      refine ⟨rfl, ?_⟩
      rw [hheld]
      cases kbd <;> cases input <;> simp [Step.apply, Clear]
    · cases input <;> rfl
    · intro h' hheld' allocated hallocated
      rw [hheld']
      cases hallocated
      cases input <;> simp [Step.apply]
  · intro h' hheld' device hdevice
    rw [hheld']
    cases hdevice
    simp

theorem errRelMem_failed (error : ℤ)
    (hheld : held h = ⟨[(kbd, content)], [(input, dev)], [res], [], [], [], drvdata⟩) :
    Does Proper (errRelMem world kbd input res error) (Failed error) h := by
  apply (act_held (safe_of_no_handler rfl) hheld ?_).bind
  · intro _ h hheld
    have hnext : held h = ⟨[(kbd, content)], [(input, dev)], [], [], [], [], drvdata⟩ := by
      rw [hheld]
      simp [Step.apply]
    exact errFreeMem_failed error hnext
  · intro h' hheld'
    exact ⟨res, rfl, by rw [hheld']; exact List.mem_singleton_self res⟩

theorem errUnmapMem_failed (error : ℤ) (haddr : content.addr = some addr)
    (hheld : held h = ⟨[(kbd, content)], [(input, dev)], [res], [addr], [], [], drvdata⟩) :
    Does Proper (errUnmapMem world kbd input res error) (Failed error) h := by
  apply (read_held (safe_of_no_handler rfl) hheld List.lookup_cons_self).bind
  rintro value h ⟨rfl, hheld⟩
  apply (act_held (safe_of_no_handler rfl) hheld ?_).bind
  · intro _ h hheld
    have hnext : held h = ⟨[(kbd, value)], [(input, dev)], [res], [], [], [], drvdata⟩ := by
      rw [hheld, haddr]
      simp [Step.apply]
    exact errRelMem_failed error hnext
  · intro h' hheld'
    exact ⟨addr, haddr, by rw [hheld']; exact List.mem_singleton_self addr⟩

/-- The handler can run on the two structures. -/
structure Ready (content : OpencoresKbd) (dev : InputDev) (input : Ptr) (res : Resource)
    (addr : Ptr) (irq : ℤ) : Prop where
  addr_res : content.addr_res = some res
  addr : content.addr = some addr
  input : content.input = some input
  irq : content.irq = irq
  keys : ∀ code < 128, code ≠ KEY_RESERVED → dev.keybit code = true

theorem Ready.safe (hready : Ready content dev input res addr irq) (regions : List Resource)
    (registered : List Ptr) (drvdata : Option Ptr) :
    Safe ⟨[(kbd, content)], [(input, dev)], regions, [addr], [(irq, kbd)], registered,
      drvdata⟩ := by
  intro handler hhandler
  obtain rfl := List.mem_singleton.mp hhandler
  exact ⟨content, addr, input, dev, List.lookup_cons_self, hready.addr,
    List.mem_singleton_self addr, hready.input, List.lookup_cons_self, hready.keys⟩

theorem errFreeIrq_failed (error : ℤ) (hready : Ready content dev input res addr irq)
    (hheld : held h = ⟨[(kbd, content)], [(input, dev)], [res], [addr], [(irq, kbd)], [],
      drvdata⟩) :
    Does Proper (errFreeIrq world kbd input res irq error) (Failed error) h := by
  apply (act_held (hready.safe [res] [] drvdata) hheld ?_).bind
  · intro _ h hheld
    have hnext : held h = ⟨[(kbd, content)], [(input, dev)], [res], [addr], [], [], drvdata⟩ := by
      rw [hheld]
      simp [Step.apply]
    exact errUnmapMem_failed error hready.addr hnext
  · intro h' hheld'
    rw [Proper, hheld']
    exact List.mem_singleton_self (irq, kbd)

theorem store_held (field : Field) {inputs : List (Ptr × InputDev)} {regions : List Resource}
    {mappings registered : List Ptr}
    (hheld : held h = ⟨[(kbd, content)], inputs, regions, mappings, [], registered, drvdata⟩) :
    Does Proper (act world (.store kbd field))
      (fun _ h' => held h' =
        ⟨[(kbd, content.assign field)], inputs, regions, mappings, [], registered, drvdata⟩) h := by
  apply (act_held (safe_of_no_handler rfl) hheld ?_).mono
  · intro _ h' hheld'
    rw [hheld']
    simp [Step.apply]
  · intro h' hheld'
    rw [Proper, hheld', List.lookup_cons_self, Option.isSome_some]

theorem set_bit_held (bit : Bit) {kbds : List (Ptr × OpencoresKbd)} {regions : List Resource}
    {mappings registered : List Ptr}
    (hheld : held h = ⟨kbds, [(input, dev)], regions, mappings, [], registered, drvdata⟩) :
    Does Proper (act world (.set_bit input bit))
      (fun _ h' => held h' =
        ⟨kbds, [(input, dev.change bit)], regions, mappings, [], registered, drvdata⟩) h := by
  apply (act_held (safe_of_no_handler rfl) hheld ?_).mono
  · intro _ h' hheld'
    rw [hheld']
    simp [Step.apply]
  · intro h' hheld'
    rw [Proper, hheld', List.lookup_cons_self, Option.isSome_some]

/-- The two structures while they are described. -/
def Describing (kbd input : Ptr) (res : Resource) (addr : Ptr) (irq : ℤ) (drvdata : Option Ptr)
    (done : List ℕ) (h : List Step) : Prop :=
  ∃ content dev,
    held h = ⟨[(kbd, content)], [(input, dev)], [res], [addr], [], [], drvdata⟩ ∧
    content.addr_res = some res ∧ content.addr = some addr ∧ content.input = some input ∧
    content.irq = irq ∧ ∀ code ∈ done, dev.keybit code = true

theorem describe_ready
    (hheld : held h = ⟨[(kbd, content)], [(input, dev)], [res], [addr], [], [], drvdata⟩)
    (hres : content.addr_res = some res) (haddr : content.addr = some addr) :
    Does Proper (describe world kbd input irq)
      (fun _ h' => ∃ content' dev', held h' =
          ⟨[(kbd, content')], [(input, dev')], [res], [addr], [], [], drvdata⟩ ∧
        Ready content' dev' input res addr irq) h := by
  apply (store_held (.input input) hheld).bind
  intro _ h hheld
  apply (store_held (.irq irq) hheld).bind
  intro _ h hheld
  apply (set_bit_held (.event EV_KEY) hheld).bind
  intro _ h hheld
  have hstart : Describing kbd input res addr irq drvdata [] h :=
    ⟨_, _, hheld, hres, haddr, rfl, rfl, fun _ hcode => absurd hcode List.not_mem_nil⟩
  apply (does_forM (Describing kbd input res addr irq drvdata) ?_ hstart).bind
  · rintro _ h ⟨content', dev', hheld, hres', haddr', hinput', hirq', hkeys⟩
    apply (set_bit_held (.noKey KEY_RESERVED) hheld).mono
    intro _ h hheld
    refine ⟨_, _, hheld, hres', haddr', hinput', hirq', fun code hcode hreserved => ?_⟩
    rw [InputDev.keybit_noKey, if_neg hreserved]
    exact hkeys code (List.mem_range.mpr hcode)
  · rintro done i - - h ⟨content', dev', hheld, hres', haddr', hinput', hirq', hkeys⟩
    apply (store_held (.keycode i i) hheld).bind
    intro _ h hheld
    apply (read_held (safe_of_no_handler rfl) hheld List.lookup_cons_self).bind
    rintro value h ⟨rfl, hheld⟩
    apply (set_bit_held _ hheld).mono
    intro _ h hheld
    refine ⟨_, _, hheld, hres', haddr', hinput', hirq', fun code hcode => ?_⟩
    have hkeycode : (content'.assign (.keycode i i)).keycodes i = i := Function.update_self _ _ _
    rw [hkeycode, InputDev.keybit_key]
    rcases List.mem_append.mp hcode with hdone | hlast
    · rw [hkeys code hdone, ite_self]
    · rw [if_pos (List.mem_singleton.mp hlast)]

/-- What `opencores_kbd_probe` leaves: nothing when it fails, and otherwise all
that the handler and `opencores_kbd_remove` need. -/
def Probed (result : ℤ) (h : List Step) : Prop :=
  if result = 0 then
    ∃ kbd content input dev res addr irq,
      held h = ⟨[(kbd, content)], [(input, dev)], [res], [addr], [(irq, kbd)], [input],
        some kbd⟩ ∧ Ready content dev input res addr irq
  else Clear (held h)

theorem Failed.probed {error result : ℤ} (hfailed : Failed error result h) (herror : error ≠ 0) :
    Probed result h := by
  rw [Probed, hfailed.1, if_neg herror]
  exact hfailed.2

theorem install_probed (hready : Ready content dev input res addr irq)
    (hheld : held h = ⟨[(kbd, content)], [(input, dev)], [res], [addr], [], [], drvdata⟩) :
    Does Proper (install world kbd input res irq) Probed h := by
  apply (ask_held (safe_of_no_handler rfl) hheld ?_).bind
  · intro error h hheld
    rw [Step.apply] at hheld
    by_cases herror : error = 0
    · rw [if_pos herror] at hheld
      rw [if_neg (not_not.mpr herror)]
      apply (ask_held (hready.safe [res] [] drvdata) hheld ?_).bind
      · intro error h hheld
        rw [Step.apply] at hheld
        by_cases herror : error = 0
        · rw [if_pos herror] at hheld
          rw [if_neg (not_not.mpr herror)]
          apply (act_held (hready.safe [res] [input] drvdata) hheld (by intros; trivial)).bind
          intro _ h hheld
          apply does_pure
          rw [Probed, if_pos rfl]
          exact ⟨kbd, content, input, dev, res, addr, irq, hheld, hready⟩
        · rw [if_neg herror] at hheld
          rw [if_pos herror]
          apply (dev_err_held _ (hready.safe [res] [] drvdata) hheld).bind
          intro _ h hheld
          exact (errFreeIrq_failed error hready hheld).mono fun _ _ hfailed =>
            hfailed.probed herror
      · intro h' _ hheld'
        rw [Proper, hheld', List.lookup_cons_self, Option.isSome_some]
        exact ⟨rfl, List.not_mem_nil⟩
    · rw [if_neg herror] at hheld
      rw [if_pos herror]
      apply (dev_err_held _ (safe_of_no_handler rfl) hheld).bind
      intro _ h hheld
      exact (errUnmapMem_failed error hready.addr hheld).mono fun _ _ hfailed =>
        hfailed.probed herror
  · intro h' _ hheld'
    rw [Proper, hheld', List.lookup_cons_self, Option.isSome_some]

theorem setUp_probed
    (hheld : held h = ⟨[(kbd, content)], [(input, dev)], [], [], [], [], drvdata⟩) :
    Does Proper (setUp world kbd input res irq) Probed h := by
  apply (store_held (.addr_res res) hheld).bind
  intro _ h hheld
  apply (ask_held (safe_of_no_handler rfl) hheld (by intros; trivial)).bind
  intro granted h hheld
  cases granted with
  | false =>
      rw [if_pos rfl]
      apply (dev_err_held _ (safe_of_no_handler rfl) hheld).bind
      intro _ h hheld
      exact (errFreeMem_failed (-EBUSY) hheld).mono fun _ _ hfailed =>
        hfailed.probed (by decide)
  | true =>
      rw [if_neg (Ne.symm Bool.false_ne_true)]
      apply (ask_held (safe_of_no_handler rfl) hheld (by intros; trivial)).bind
      intro addr h hheld
      cases addr with
      | none =>
          apply (store_held (.addr none) hheld).bind
          intro _ h hheld
          apply (read_held (safe_of_no_handler rfl) hheld List.lookup_cons_self).bind
          rintro value h ⟨rfl, hheld⟩
          have haddr : ∀ kbd : OpencoresKbd, (kbd.assign (.addr none)).addr = none := fun _ => rfl
          rw [if_pos (haddr _)]
          apply (dev_err_held _ (safe_of_no_handler rfl) hheld).bind
          intro _ h hheld
          exact (errRelMem_failed (- ENXIO) hheld).mono fun _ _ hfailed =>
            hfailed.probed (by decide)
      | some addr =>
          apply (store_held (.addr (some addr)) hheld).bind
          intro _ h hheld
          apply (read_held (safe_of_no_handler rfl) hheld List.lookup_cons_self).bind
          rintro value h ⟨rfl, hheld⟩
          have haddr : ∀ kbd : OpencoresKbd, (kbd.assign (.addr (some addr))).addr ≠ none :=
            fun _ => Option.some_ne_none addr
          rw [if_neg (haddr _)]
          apply (describe_ready hheld rfl rfl).bind
          rintro _ h ⟨content', dev', hheld, hready⟩
          exact install_probed hready hheld

theorem eq_of_clear {state : Held} (hclear : Clear state) :
    state = ⟨[], [], [], [], [], [], state.drvdata⟩ := by
  obtain ⟨hkbds, hinputs, hregions, hmappings, hhandlers, hregistered⟩ := hclear
  cases state
  simp_all

theorem opencoresKbdProbe_probed (hclear : Clear (held h)) :
    Does Proper (opencoresKbdProbe world) Probed h := by
  have hsafe : ∀ drvdata, Safe ⟨[], [], [], [], [], [], drvdata⟩ :=
    fun _ => safe_of_no_handler rfl
  have hfailed : ∀ drvdata h, held h = ⟨[], [], [], [], [], [], drvdata⟩ →
      Probed (-EINVAL) h := by
    intro drvdata h hheld
    rw [Probed, if_neg (by decide), hheld]
    exact ⟨rfl, rfl, rfl, rfl, rfl, rfl⟩
  apply (ask_held (hsafe _) (eq_of_clear hclear) (by intros; trivial)).bind
  rintro (_ | res) h hheld
  · apply (dev_err_held _ (hsafe _) hheld).bind
    intro _ h hheld
    exact does_pure (hfailed _ h hheld)
  · apply (ask_held (hsafe _) hheld (by intros; trivial)).bind
    intro irq h hheld
    by_cases hirq : irq < 0
    · rw [if_pos hirq]
      apply (dev_err_held _ (hsafe _) hheld).bind
      intro _ h hheld
      exact does_pure (hfailed _ h hheld)
    · rw [if_neg hirq]
      apply (ask_held (hsafe _) hheld (by intros; trivial)).bind
      intro kbd h hheld
      have hkbd : held h = ⟨(kbd.map (·, .zero)).toList, [], [], [], [], [], (held h).drvdata⟩ := by
        rw [hheld]
        cases kbd <;> rfl
      apply (ask_held (safe_of_no_handler rfl) hkbd (by intros; trivial)).bind
      intro input h hheld
      have hboth : held h = ⟨(kbd.map (·, .zero)).toList, (input.map (·, .blank)).toList, [], [],
          [], [], (held h).drvdata⟩ := by
        rw [hheld]
        cases input <;> rfl
      have hnone : Does Proper (do
          act world (.dev_err "failed to allocate device structures\n")
          errFreeMem world kbd input (-ENOMEM)) Probed h := by
        apply (dev_err_held _ (safe_of_no_handler rfl) hboth).bind
        intro _ h hheld
        exact (errFreeMem_failed (-ENOMEM) hheld).mono fun _ _ hfailed =>
          hfailed.probed (by decide)
      rcases kbd with _ | kbd
      · exact hnone
      · rcases input with _ | input
        · exact hnone
        · exact setUp_probed hboth

/-- What was bound is released, the handler first. -/
theorem opencoresKbdRemove_clear
    (hheld : held h = ⟨[(kbd, content)], [(input, dev)], [res], [addr], [(irq, kbd)], [input],
      some kbd⟩)
    (hready : Ready content dev input res addr irq) :
    Does Proper (opencoresKbdRemove world) (fun _ h' => Clear (held h')) h := by
  have hsafe : Safe ⟨[(kbd, content)], [(input, dev)], [res], [addr], [(irq, kbd)], [input],
      some kbd⟩ := hready.safe [res] [input] (some kbd)
  apply (drvdata_held hsafe hheld).bind
  rintro found h ⟨rfl, hheld⟩
  apply (read_held hsafe hheld List.lookup_cons_self).bind
  rintro value h ⟨rfl, hheld⟩
  rw [hready.irq]
  refine (act_held hsafe hheld ?_).bind ?_
  · intro h' hheld'
    rw [Proper, hheld']
    exact List.mem_singleton_self (irq, kbd)
  intro _ h hheld
  have hfreed : held h = ⟨[(kbd, value)], [(input, dev)], [res], [addr], [], [input],
      some kbd⟩ := by
    rw [hheld]
    simp [Step.apply]
  apply (read_held (safe_of_no_handler rfl) hfreed List.lookup_cons_self).bind
  rintro value h ⟨rfl, hheld⟩
  rw [hready.addr]
  refine (act_held (safe_of_no_handler rfl) hheld ?_).bind ?_
  · intro h' hheld'
    exact ⟨addr, rfl, by rw [hheld']; exact List.mem_singleton_self addr⟩
  intro _ h hheld
  have hunmapped : held h = ⟨[(kbd, value)], [(input, dev)], [res], [], [], [input],
      some kbd⟩ := by
    rw [hheld]
    simp [Step.apply]
  apply (read_held (safe_of_no_handler rfl) hunmapped List.lookup_cons_self).bind
  rintro value h ⟨rfl, hheld⟩
  rw [hready.addr_res]
  refine (act_held (safe_of_no_handler rfl) hheld ?_).bind ?_
  · intro h' hheld'
    exact ⟨res, rfl, by rw [hheld']; exact List.mem_singleton_self res⟩
  intro _ h hheld
  have hreleased : held h = ⟨[(kbd, value)], [(input, dev)], [], [], [], [input], some kbd⟩ := by
    rw [hheld]
    simp [Step.apply]
  apply (read_held (safe_of_no_handler rfl) hreleased List.lookup_cons_self).bind
  rintro value h ⟨rfl, hheld⟩
  rw [hready.input]
  refine (act_held (safe_of_no_handler rfl) hheld ?_).bind ?_
  · intro h' hheld'
    exact ⟨input, rfl, by rw [hheld']; exact List.mem_singleton_self input⟩
  intro _ h hheld
  have hunregistered : held h = ⟨[(kbd, value)], [], [], [], [], [], some kbd⟩ := by
    rw [hheld]
    simp [Step.apply]
  refine (act_held (safe_of_no_handler rfl) hunregistered ?_).bind ?_
  · intro h' hheld' allocated hallocated
    obtain rfl := Option.some.inj hallocated
    rw [hheld', List.lookup_cons_self, Option.isSome_some]
  intro _ h hheld
  apply does_pure
  rw [hheld]
  simp [Step.apply, Clear]

theorem bindUnbind_clear (hclear : Clear (held h)) :
    Does Proper (bindUnbind world) (fun _ h' => Clear (held h')) h := by
  apply (opencoresKbdProbe_probed hclear).bind
  intro error h hprobed
  by_cases herror : error = 0
  · rw [Probed, if_pos herror] at hprobed
    obtain ⟨kbd, content, input, dev, res, addr, irq, hheld, hready⟩ := hprobed
    rw [if_pos herror]
    apply (opencoresKbdRemove_clear hheld hready).bind
    intro _ h hclear
    exact does_pure hclear
  · rw [Probed, if_neg herror] at hprobed
    rw [if_neg herror]
    exact does_pure hprobed

end Bind

/-- However often the driver is bound and unbound, whatever the kernel answers,
and whenever interrupts come in: every call is made on something that is held
then, also those of the handler; the driver returns; and it holds nothing in
the end. -/
theorem bindings_proper (world : World) (times : ℕ) :
    Always Proper ((bindings world times).exec []).1 ∧
      ((bindings world times).exec []).2 = .ok () ∧
      Clear (held ((bindings world times).exec []).1) := by
  have hstart : Clear (held []) := ⟨rfl, rfl, rfl, rfl, rfl, rfl⟩
  have hall : Does Proper (bindings world times) (fun _ h => Clear (held h)) [] :=
    does_forM (fun _ h => Clear (held h)) (fun _ _ _ _ _ hclear => bindUnbind_clear hclear) hstart
  obtain ⟨halways, _, hresult, hclear⟩ := hall.run
  exact ⟨halways, hresult, hclear⟩

end Tcb.Keyboard
