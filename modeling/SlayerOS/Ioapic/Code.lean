import SlayerOS.Lib.Bytes
import SlayerOS.Lib.Fuel

/-!
# The IOAPICs (`ioapic.cc`)

`init` walks through the MADT and keeps its IOAPICs and its overrides, `set` routes an
interrupt line to a core, and `dump_entries` prints the routes. The tables of uACPI are
packed as in the ACPI specification. An address in the MADT is counted from `entries` on, and
an IOAPIC is named by its physical address.
-/

open SlayerOS.Bytes SlayerOS.Fuel SlayerOS.Fuel.Comp

namespace SlayerOS.Ioapic

structure acpi_entry_hdr where
  type : BitVec 8
  length : BitVec 8
deriving DecidableEq, Repr

structure acpi_madt_ioapic where
  hdr : acpi_entry_hdr
  id : BitVec 8
  rsvd : BitVec 8
  address : BitVec 32
  gsi_base : BitVec 32
deriving DecidableEq, Repr

structure acpi_madt_interrupt_source_override where
  hdr : acpi_entry_hdr
  bus : BitVec 8
  source : BitVec 8
  gsi : BitVec 32
  flags : BitVec 16
deriving DecidableEq, Repr

/-- The variables of the file. The arrays go on behind their ends. -/
structure State where
  apics : Nat → acpi_madt_ioapic
  iso : Nat → acpi_madt_interrupt_source_override
  apic_ent : BitVec 8
  iso_ent : BitVec 8

/-! ## Registers -/

/-- The IOAPICs by their addresses: the index register, the registers that it selects, and the
data writes so far, the last one first. -/
structure Devices where
  index : BitVec 64 → BitVec 32
  register : BitVec 64 → BitVec 32 → BitVec 32
  written : List (BitVec 64 × BitVec 32)

/-- `*(volatile u32*)virt = reg` -/
def Devices.select (d : Devices) (base : BitVec 64) (reg : BitVec 32) : Devices :=
  { d with index := Function.update d.index base reg }

/-- `*(volatile u32*)(virt + 0x10) = value` -/
def Devices.store (d : Devices) (base : BitVec 64) (value : BitVec 32) : Devices :=
  { d with
    register := Function.update d.register base (Function.update (d.register base) (d.index base) value)
    written := (base, d.index base) :: d.written }

/-- `*(volatile u32*)(virt + 0x10)` -/
def Devices.load (d : Devices) (base : BitVec 64) : BitVec 32 := d.register base (d.index base)

def write (base : BitVec 64) (reg value : BitVec 32) (d : Devices) : Devices := (d.select base reg).store base value

def read (base : BitVec 64) (reg : BitVec 32) (d : Devices) : BitVec 32 × Devices :=
  ((d.select base reg).load base, d.select base reg)

/-! ## `init` -/

def ACPI_MADT_ENTRY_TYPE_IOAPIC : BitVec 8 := 1

def ACPI_MADT_ENTRY_TYPE_INTERRUPT_SOURCE_OVERRIDE : BitVec 8 := 2

def sizeof_acpi_madt : Nat := 44

def sizeof_acpi_madt_ioapic : Nat := 12

def sizeof_acpi_madt_interrupt_source_override : Nat := 10

structure acpi_madt where
  length : Nat
  entries : Mem

def hdr_at (m : Mem) (a : Nat) : acpi_entry_hdr := ⟨m a, m (a + 1)⟩

def ioapic_at (m : Mem) (a : Nat) : acpi_madt_ioapic :=
  ⟨hdr_at m a, m (a + 2), m (a + 3), BitVec.ofNat 32 (Bytes.read 4 m (a + 4)),
    BitVec.ofNat 32 (Bytes.read 4 m (a + 8))⟩

def iso_at (m : Mem) (a : Nat) : acpi_madt_interrupt_source_override :=
  ⟨hdr_at m a, m (a + 2), m (a + 3), BitVec.ofNat 32 (Bytes.read 4 m (a + 4)),
    BitVec.ofNat 16 (Bytes.read 2 m (a + 8))⟩

/-- The variables of the entry loop, the physical addresses that it maps, the places of the two
arrays that it writes, and the bytes of the table that it reads, by the first one and their
number. The last one is first. -/
structure Walk where
  current : Nat
  state : State
  mapped : List (BitVec 32)
  apics_written : List Nat
  iso_written : List Nat
  touched : List (Nat × Nat)

def Walk.touch (w : Walk) (a n : Nat) : Walk := { w with touched := (a, n) :: w.touched }

/-- `apics[apic_ent++] = *cur_ioapic` -/
def Walk.keep_ioapic (w : Walk) (cur_ioapic : acpi_madt_ioapic) : Walk :=
  { w with
    state := { w.state with
      apics := Function.update w.state.apics w.state.apic_ent.toNat cur_ioapic
      apic_ent := w.state.apic_ent + 1 }
    mapped := cur_ioapic.address :: w.mapped
    apics_written := w.state.apic_ent.toNat :: w.apics_written }

/-- `iso[iso_ent++] = *cur_iso` -/
def Walk.keep_iso (w : Walk) (cur_iso : acpi_madt_interrupt_source_override) : Walk :=
  { w with
    state := { w.state with
      iso := Function.update w.state.iso w.state.iso_ent.toNat cur_iso
      iso_ent := w.state.iso_ent + 1 }
    iso_written := w.state.iso_ent.toNat :: w.iso_written }

/-- The switch. Both structures are copied whole. -/
def keep_entry (m : Mem) (w : Walk) : Walk :=
  if m w.current = ACPI_MADT_ENTRY_TYPE_IOAPIC then
    (w.touch w.current sizeof_acpi_madt_ioapic).keep_ioapic (ioapic_at m w.current)
  else if m w.current = ACPI_MADT_ENTRY_TYPE_INTERRUPT_SOURCE_OVERRIDE then
    (w.touch w.current sizeof_acpi_madt_interrupt_source_override).keep_iso (iso_at m w.current)
  else w

/-- One round of the entry loop. It reads the type, and at its end the length. -/
def init_entry (m : Mem) (w : Walk) : Walk :=
  let w := (keep_entry m (w.touch w.current 1)).touch (w.current + 1) 1
  { w with current := w.current + (m (w.current + 1)).toNat }

/-- The entry loop, from the first entry on, with both arrays empty. -/
def entry_loop (apic : acpi_madt) (s : State) : Comp Walk :=
  while_ (fun w => pure (decide (w.current < apic.length - sizeof_acpi_madt)))
    (fun w => pure (init_entry apic.entries w))
    ⟨0, { s with apic_ent := 0, iso_ent := 0 }, [], [], [], []⟩

/-- The reads of the registers 1 and 0 of each IOAPIC from `i` on, with `n` rounds left. -/
def probe (s : State) : Nat → Nat → Devices → Devices
  | 0, _, d => d
  | n + 1, i, d =>
    let base := (s.apics i).address.setWidth 64
    probe s n (i + 1) (read base 0 (read base 1 d).2).2

/-- Without a MADT, the code goes on with a table that nothing has filled in. That is a
fault. -/
def init (apic_table : Option acpi_madt) (s : State) (d : Devices) : Comp (Walk × Devices) := do
  let apic ← lift apic_table
  let w ← entry_loop apic s
  pure (w, probe w.state w.state.apic_ent.toNat 0 d)

/-! ## `set` -/

/-- The loop over the overrides from `i` on, with `n` rounds left. -/
def find_iso (iso : Nat → acpi_madt_interrupt_source_override) (irq : BitVec 8) :
    Nat → Nat → Option acpi_madt_interrupt_source_override
  | 0, _ => none
  | n + 1, i => if (iso i).source = irq then some (iso i) else find_iso iso irq n (i + 1)

/-- The override that `set` uses. -/
def State.ciso (s : State) (irq : BitVec 8) : Option acpi_madt_interrupt_source_override :=
  find_iso s.iso irq s.iso_ent.toNat 0

/-- `actual_irq` is a `u8`. -/
def State.actual_irq (s : State) (irq : BitVec 8) : BitVec 8 :=
  match s.ciso irq with
  | some ciso => ciso.gsi.setWidth 8
  | none => irq

def c_flags (ciso : Option acpi_madt_interrupt_source_override) (vec : BitVec 8) (flags lapic : BitVec 64) : BitVec 64 :=
  match ciso with
  | none => (lapic <<< 56) ||| flags ||| (vec &&& 0xFF).setWidth 64
  | some ciso =>
    let pol : BitVec 8 := if ciso.flags &&& 0b11 = 0b11 then 1 else 0
    let mode : BitVec 8 := if (ciso.flags >>> 2) &&& 0b11 = 0b11 then 1 else 0
    (lapic <<< 56) ||| (mode.setWidth 32 <<< 15).setWidth 64 ||| (pol.setWidth 32 <<< 13).setWidth 64 |||
      (vec &&& 0xFF).setWidth 64 ||| flags

/-- The test for the range of an IOAPIC, with its version register. -/
def takes (apic : acpi_madt_ioapic) (ver : BitVec 32) (actual_irq : BitVec 8) : Bool :=
  let max := ver >>> 16
  decide (apic.gsi_base ≤ actual_irq.setWidth 32) && decide (actual_irq.setWidth 32 < apic.gsi_base + max)

/-- The loop over the IOAPICs from `i` on, with `n` rounds left. The pointer stays at the last
one that the loop has looked at. -/
def find_apic (apics : Nat → acpi_madt_ioapic) (actual_irq : BitVec 8) :
    Nat → Nat → Option acpi_madt_ioapic → Devices → Option acpi_madt_ioapic × Devices
  | 0, _, apic, d => (apic, d)
  | n + 1, i, _, d =>
    let (ver, d) := read ((apics i).address.setWidth 64) 1 d
    if takes (apics i) ver actual_irq then (some (apics i), d)
    else find_apic apics actual_irq n (i + 1) (some (apics i)) d

/-- The first register of the entry. -/
def irqreg (apic : acpi_madt_ioapic) (actual_irq : BitVec 8) : BitVec 32 :=
  (actual_irq.setWidth 32 - apic.gsi_base) * 2 + 0x10

def set (s : State) (vec irq : BitVec 8) (flags lapic : BitVec 64) (d : Devices) : Devices :=
  let c_flags := c_flags (s.ciso irq) vec flags lapic
  match find_apic s.apics (s.actual_irq irq) s.apic_ent.toNat 0 none d with
  | (none, d) => d
  | (some apic, d) =>
    let reg := irqreg apic (s.actual_irq irq)
    let base := apic.address.setWidth 64
    write base (reg + 1) ((c_flags >>> 32).setWidth 32) (write base reg (c_flags.setWidth 32) d)

/-! ## `dump_entries` -/

/-- What is printed of an entry. -/
structure Redirection where
  vector : BitVec 8
  delivery_mode : BitVec 8
  dest_mode : BitVec 8
  polarity : BitVec 8
  trigger : BitVec 8
  mask : BitVec 8
  dest : BitVec 8
deriving DecidableEq, Repr

def decode (low high : BitVec 32) : Redirection where
  vector := (low &&& 0xFF).setWidth 8
  delivery_mode := ((low >>> 8) &&& 0x7).setWidth 8
  dest_mode := ((low >>> 11) &&& 0x1).setWidth 8
  polarity := ((low >>> 13) &&& 0x1).setWidth 8
  trigger := ((low >>> 15) &&& 0x1).setWidth 8
  mask := ((low >>> 16) &&& 0x1).setWidth 8
  dest := ((high >>> 24) &&& 0xFF).setWidth 8

/-- The number of the last entry, from the version register. -/
def max_entry (ver : BitVec 32) : BitVec 32 := (ver >>> 16) &&& 0xFF

inductive Line where
  | title
  | ioapic (i : Nat) (address max : BitVec 32)
  | entry (entry : BitVec 32) (fields : Redirection)
deriving DecidableEq, Repr

/-- The entries of an IOAPIC from `entry` on, with `n` rounds left. -/
def dump_from (base : BitVec 64) : Nat → BitVec 32 → List Line × Devices → List Line × Devices
  | 0, _, p => p
  | n + 1, entry, (lines, d) =>
    let reg := entry * 2 + 0x10
    let (low, d) := read base reg d
    let (high, d) := read base (reg + 1) d
    let fields := decode low high
    let lines := if fields.vector ≠ 0 ∨ fields.mask = 0 then lines ++ [.entry entry fields] else lines
    dump_from base n (entry + 1) (lines, d)

/-- The IOAPICs from `i` on, with `n` rounds left. -/
def dump_apics (apics : Nat → acpi_madt_ioapic) : Nat → Nat → List Line × Devices → List Line × Devices
  | 0, _, p => p
  | n + 1, i, (lines, d) =>
    let base := (apics i).address.setWidth 64
    let (ver, d) := read base 1 d
    let max := max_entry ver
    dump_apics apics n (i + 1) (dump_from base (max.toNat + 1) 0 (lines ++ [.ioapic i (apics i).address max], d))

def dump_entries (s : State) (d : Devices) : List Line × Devices :=
  dump_apics s.apics s.apic_ent.toNat 0 ([.title], d)

end SlayerOS.Ioapic
