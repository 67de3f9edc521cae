import SlayerOS.Interrupts.Code

/-!
# What the interrupt tables are for

Drivers register handlers and uACPI installs and removes its own. An interrupt should
come out at the handler of its vector, and exceptions should not notice any of this.
-/

namespace SlayerOS.Interrupts

inductive Call where
  | register (v : Nat) (handler : Option Handler)
  | install (irq : Nat) (handler : Option Nat) (ctx : Nat) (out_irq_handle : Bool)
  | uninstall (handler : Option Nat) (irq_handle : Option Int)
deriving DecidableEq, Repr

def next (s : State) : Call → State
  | .register v handler => register_entry s v handler
  | .install irq handler ctx out => (uacpi_kernel_install_interrupt_handler s irq handler ctx out).2
  | .uninstall handler irq_handle => (uacpi_kernel_uninstall_interrupt_handler s handler irq_handle).2

/-- The vector is a `u8`, and uACPI names an interrupt line. -/
def Call.Ok : Call → Prop
  | .register v _ => v < 256
  | .install irq _ _ _ => irq < 256
  | .uninstall _ _ => True

/-- The entry of `idt` and `irq_handlers` that a call asks for: uACPI has to give a handler
and a place for the handle. -/
def Call.target : Call → Option Nat
  | .register v _ => some v
  | .install irq (some _) _ true => some irq
  | _ => none

def afterIdt (sym : Symbols) (calls : List Call) : State := calls.foldl next (idt_init sym (loaded sym))

def afterIrq (sym : Symbols) (calls : List Call) : State :=
  calls.foldl next (irq_init (idt_init sym (loaded sym)))

/-! ## Gates -/

/-- Every present gate leads to the stub of its own vector. -/
def GatesLead (s : State) : Prop :=
  ∀ v, v < 256 → (s.idt v).present = true → s.isr_handlers v ≠ 0 ∧ (s.idt v).offset = s.isr_handlers v

/-! ## Drivers -/

/-- The handler that was registered last for a vector. `IRQ::init` is the first to register
one. -/
def latest (regs : List (Nat × Option Handler)) (v : Nat) : Option Handler :=
  (((0x20, some Handler.Timer_Handle) :: regs).reverse.find? fun r => r.1 = v).bind Prod.snd

def registerAll (regs : List (Nat × Option Handler)) : List Call := regs.map fun r => .register r.1 r.2

/-- The handlers that `irq_handler` called. -/
def called (events : List Event) : List Handler :=
  events.filterMap fun
    | .call h => some h
    | _ => none

/-- An interrupt on `v` calls the handler that was registered last for `v`, and nothing else. -/
def Dispatches (sym : Symbols) (s : State) (v : Nat) (handler : Option Handler) : Prop :=
  ∀ events, deliver sym s v = some events → called events = handler.toList

/-! ## uACPI -/

/-- The gate of the line is present, and an interrupt there reaches the handler of uACPI. -/
def LineReaches (sym : Symbols) (s : State) (n : Nat) : Prop :=
  (s.idt (32 + n)).present = true ∧
  ∃ f events, (s.uacpi_handlers n).handler = some f ∧ deliver sym s (32 + n) = some events ∧
    .uacpi f (s.uacpi_handlers n).ctx ∈ events

/-- The gate still has the offset and the stack that `IDT::init` gave it. -/
def GateKept (sym : Symbols) (s : State) (v : Nat) : Prop :=
  (s.idt v).offset = ((idt_init sym (loaded sym)).idt v).offset ∧
  (s.idt v).ist = ((idt_init sym (loaded sym)).idt v).ist

/-- The installed lines work, and the exceptions are as they were. -/
def Undisturbed (sym : Symbols) (s : State) : Prop :=
  (∀ n, n < 16 → (s.uacpi_handlers n).installed = true → LineReaches sym s n) ∧
  ∀ v, v < 32 → GateKept sym s v

end SlayerOS.Interrupts
