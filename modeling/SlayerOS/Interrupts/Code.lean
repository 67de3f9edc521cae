import Mathlib.Logic.Function.Basic
import Mathlib.Algebra.Order.Group.Nat

/-!
# Interrupt tables (`idt.cc`, `irq.cc`, `acpi_kapi.cc`, the list of stubs in `isr.s`)

Integers are `Nat`. Function pointers to handlers are an enumeration, and a null pointer
is `none`. The addresses of the stubs come from the linker.
-/

namespace SlayerOS.Interrupts

/-! ## `isr.s` -/

/-- The macro behind a label `isr<num>`. -/
inductive Stub where
  | ISR_NOERR (num : Nat)
  | ISR_ERR (num : Nat)
  | IRQ (num irq : Nat)
deriving DecidableEq, Repr

def Stub.num : Stub → Nat
  | .ISR_NOERR num => num
  | .ISR_ERR num => num
  | .IRQ num _ => num

def isr_s : List Stub :=
  [.ISR_NOERR 0, .ISR_NOERR 1, .ISR_NOERR 2, .ISR_NOERR 3, .ISR_NOERR 4, .ISR_NOERR 5, .ISR_NOERR 6,
   .ISR_NOERR 7, .ISR_ERR 8, .ISR_NOERR 9, .ISR_ERR 10, .ISR_ERR 11, .ISR_ERR 12, .ISR_ERR 13,
   .ISR_ERR 14, .ISR_NOERR 15, .ISR_NOERR 16, .ISR_NOERR 17, .ISR_NOERR 18, .ISR_NOERR 19,
   .ISR_NOERR 20, .ISR_NOERR 21, .ISR_NOERR 22, .ISR_NOERR 23, .ISR_NOERR 24, .ISR_NOERR 25,
   .ISR_NOERR 26, .ISR_NOERR 27, .ISR_NOERR 28, .ISR_NOERR 29, .ISR_NOERR 30, .ISR_NOERR 31,
   .IRQ 32 0, .IRQ 33 1, .IRQ 34 2, .IRQ 35 3, .IRQ 36 4, .IRQ 37 5, .IRQ 38 6, .IRQ 39 7, .IRQ 40 8,
   .IRQ 41 9, .IRQ 42 10, .IRQ 43 11, .IRQ 44 12, .IRQ 45 13, .IRQ 46 14, .IRQ 47 15,
   .ISR_NOERR 0xF0, .ISR_NOERR 0xFF]

/-- There is a label `isr<v>`. -/
def HasStub (v : Nat) : Prop := v < 48 ∨ v = 0xF0 ∨ v = 0xFF

instance (v : Nat) : Decidable (HasStub v) := inferInstanceAs (Decidable (_ ∨ _))

/-- Where the linker puts the stubs. No two of them have the same address. -/
structure Symbols where
  isr : Nat → Nat
  pos : ∀ v, HasStub v → isr v ≠ 0
  lt : ∀ v, isr v < 2 ^ 64
  inj : ∀ u v, HasStub u → HasStub v → isr u = isr v → u = v

/-! ## The tables -/

/-- `IDT::Gate`. -/
structure Gate where
  offset_low : Nat
  selector : Nat
  ist : Nat
  type_attr : Nat
  offset_mid : Nat
  offset_high : Nat
  zero : Nat
deriving DecidableEq, Repr

/-- The functions that `irq_handlers` can point to. -/
inductive Handler where
  | Timer_Handle
  | uacpi_irq_bridge
  | other (id : Nat)
deriving DecidableEq, Repr

/-- `struct uacpi_irq_handler`. The handler is a function of uACPI. -/
structure UacpiIrqHandler where
  handler : Option Nat
  ctx : Nat
  irq : Nat
  installed : Bool
deriving DecidableEq, Repr

structure State where
  idt : Nat → Gate
  isr_handlers : Nat → Nat
  irq_handlers : Nat → Option Handler
  uacpi_handlers : Nat → UacpiIrqHandler

/-- The tables as the loader leaves them: `isr_handlers` has an initializer. -/
def loaded (sym : Symbols) : State where
  idt := fun _ => ⟨0, 0, 0, 0, 0, 0, 0⟩
  isr_handlers := fun v => if v < 48 then sym.isr v else 0
  irq_handlers := fun _ => none
  uacpi_handlers := fun _ => ⟨none, 0, 0, false⟩

/-! ## `idt.cc` -/

def INT_GATE : Nat := 0x8E

def IST_EXCEPTION : Nat := 1
def IST_IRQ : Nat := 2

def register_entry_with_ist (s : State) (index offset selector type ist : Nat) : State :=
  { s with
    idt := Function.update s.idt index
      { offset_low := offset &&& 0xFFFF
        selector := selector
        ist := ist
        type_attr := type ||| 0x80
        offset_mid := (offset >>> 16) &&& 0xFFFF
        offset_high := (offset >>> 32) &&& 0xFFFFFFFF
        zero := 0 } }

/-- One gate of `IDT::init`, where the stub is there. -/
def init_gate (s : State) (i : Nat) : State :=
  if s.isr_handlers i = 0 then s
  else register_entry_with_ist s i (s.isr_handlers i) 0x08 INT_GATE IST_EXCEPTION

/-- `IDT::init`. -/
def idt_init (sym : Symbols) (s : State) : State :=
  let s := { s with isr_handlers := Function.update s.isr_handlers 0xF0 (sym.isr 0xF0) }
  let s := { s with isr_handlers := Function.update s.isr_handlers 0xFF (sym.isr 0xFF) }
  let s := (List.range 32).foldl init_gate s
  init_gate (init_gate s 0xF0) 0xFF

/-! ## `irq.cc` -/

/-- `IRQ::register_entry`. -/
def register_entry (s : State) (irq : Nat) (handler : Option Handler) : State :=
  let s := { s with irq_handlers := Function.update s.irq_handlers irq handler }
  register_entry_with_ist s irq (s.isr_handlers irq) 0x08 INT_GATE IST_IRQ

/-- `IRQ::init`. -/
def irq_init (s : State) : State :=
  let s := register_entry s 0x20 (some .Timer_Handle)
  { s with irq_handlers := Function.update s.irq_handlers 0 (some .Timer_Handle) }

/-- What happens while an interrupt is served. -/
inductive Event where
  /-- `irq_handler` calls a handler. -/
  | call (h : Handler)
  /-- `uacpi_irq_bridge` calls a handler of uACPI with its context. -/
  | uacpi (handler ctx : Nat)
  /-- `LAPIC::eoi`. -/
  | eoi
  /-- `isr_handler`. -/
  | exception (num : Nat)
deriving DecidableEq, Repr

def uacpi_irq_bridge (s : State) (error : Nat) : List Event :=
  let irq := error % 2 ^ 32
  if irq ≥ 256 then []
  else
    let handler := s.uacpi_handlers irq
    if !handler.installed then []
    else match handler.handler with
      | none => []
      | some f => [.uacpi f handler.ctx]

/-- The body of a handler, as far as it is in the tables. -/
def Handler.body (s : State) (error : Nat) : Handler → List Event
  | .uacpi_irq_bridge => Interrupts.uacpi_irq_bridge s error
  | _ => []

def irq_handler (s : State) (error : Nat) : List Event :=
  match s.irq_handlers error with
  | none => [.eoi]
  | some h => .call h :: h.body s error ++ [.eoi]

/-! ## `acpi_kapi.cc` -/

inductive UacpiStatus where
  | OK
  | INVALID_ARGUMENT
  | ALREADY_EXISTS
deriving DecidableEq, Repr

/-- `out_irq_handle` is only tested for null. The handle that the call stores there is the
address of `uacpi_handlers[irq]`. -/
def uacpi_kernel_install_interrupt_handler (s : State) (irq : Nat) (handler : Option Nat) (ctx : Nat)
    (out_irq_handle : Bool) : UacpiStatus × State :=
  match handler with
  | none => (.INVALID_ARGUMENT, s)
  | some f =>
    if irq ≥ 256 ∨ out_irq_handle = false then (.INVALID_ARGUMENT, s)
    else if (s.uacpi_handlers irq).installed then (.ALREADY_EXISTS, s)
    else
      let s := { s with uacpi_handlers := Function.update s.uacpi_handlers irq ⟨some f, ctx, irq, true⟩ }
      (.OK, register_entry s (irq % 2 ^ 8) (some .uacpi_irq_bridge))

/-- A handle is null or `&uacpi_handlers[i]`, where `i` may be out of the array. -/
def uacpi_kernel_uninstall_interrupt_handler (s : State) (handler : Option Nat) (irq_handle : Option Int) :
    UacpiStatus × State :=
  match handler, irq_handle with
  | some f, some i =>
    if i < 0 ∨ i ≥ 256 ∨ (s.uacpi_handlers i.toNat).installed = false ∨
        (s.uacpi_handlers i.toNat).handler ≠ some f then (.INVALID_ARGUMENT, s)
    else
      let entry := s.uacpi_handlers i.toNat
      (.OK, { s with
        uacpi_handlers := Function.update s.uacpi_handlers i.toNat ⟨none, 0, entry.irq, false⟩ })
  | _, _ => (.INVALID_ARGUMENT, s)

/-! ## The processor -/

/-- The offset of a gate. -/
def Gate.offset (g : Gate) : Nat := g.offset_low ||| (g.offset_mid <<< 16) ||| (g.offset_high <<< 32)

def Gate.present (g : Gate) : Bool := g.type_attr &&& 0x80 != 0

/-- An interrupt on vector `v`: the processor goes through the gate to a stub, and the stub
to its handler. There is none if the gate is not present or does not lead to a stub. -/
def deliver (sym : Symbols) (s : State) (v : Nat) : Option (List Event) :=
  if (s.idt v).present then
    (isr_s.find? fun stub => sym.isr stub.num = (s.idt v).offset).map fun
      | .IRQ _ irq => irq_handler s irq
      | .ISR_NOERR num => [.exception num]
      | .ISR_ERR num => [.exception num]
  else none

end SlayerOS.Interrupts
