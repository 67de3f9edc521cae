import SlayerOS.Heap.Code
import SlayerOS.Interrupts.Code

/-!
# The host interface for ACPI (`acpi_kapi.cc`)

The handle of a port range or of a PCI device is the address of a record in the heap. What
reaches the devices is a list here, and what they give to each read is an input.
-/

open SlayerOS.Bytes SlayerOS.Interrupts

namespace SlayerOS.Kapi

inductive Width where
  | byte
  | word
  | dword
deriving DecidableEq, Repr

def Width.bits : Width → Nat
  | .byte => 8
  | .word => 16
  | .dword => 32

/-- `uacpi_pci_address` of uACPI: its size, and where its one-byte fields are. -/
structure PciLayout where
  size : Nat
  bus : Nat
  device : Nat
  function : Nat
deriving DecidableEq, Repr

inductive Access where
  | port_read (width : Width) (port : BitVec 16)
  | port_write (width : Width) (port : BitVec 16) (value : BitVec width.bits)
  | pci_read (width : Width) (bus device function : BitVec 8) (offset : BitVec 64)
  | pci_write (width : Width) (bus device function : BitVec 8) (offset : BitVec 64) (value : BitVec width.bits)

structure State where
  h : Heap.State
  /-- What reached the devices, the last access first. -/
  accesses : List Access
  /-- What the devices give to each read, and the reads so far. -/
  answers : Nat → BitVec 32
  reads : Nat

def reach (access : Access) (s : State) : State := { s with accesses := access :: s.accesses }

def answer (width : Width) (s : State) : BitVec width.bits × State :=
  ((s.answers s.reads).setWidth width.bits, { s with reads := s.reads + 1 })

/-! ## Memory -/

def uacpi_kernel_alloc (fuel : Nat) (size : Nat) (s : State) : Option (Nat × State) := do
  let r ← Heap.kmalloc fuel s.h size
  some (r.1, { s with h := r.2 })

/-- The result of `kfree` is not looked at. -/
def uacpi_kernel_free (fuel : Nat) (mem : Nat) (s : State) : Option State := do
  let r ← Heap.kfree fuel s.h mem
  some { s with h := r.2 }

/-! ## PCI devices -/

/-- `*pci = address`, where the address is given by its bytes. -/
def copy (size : Nat) (bytes : Nat → BitVec 8) (a : Nat) (m : Mem) : Mem :=
  fun x => if a ≤ x ∧ x < a + size then bytes (x - a) else m x

def uacpi_kernel_pci_device_open (fuel : Nat) (layout : PciLayout) (address : Nat → BitVec 8) (s : State) :
    Option (UacpiStatus × Nat × State) := do
  let pci ← Heap.kmalloc fuel s.h layout.size
  let h := { pci.2 with mem := copy layout.size address pci.1 pci.2.mem }
  some (.OK, pci.1, { s with h })

def uacpi_kernel_pci_device_close (fuel : Nat) (hnd : Nat) (s : State) : Option State := uacpi_kernel_free fuel hnd s

/-- `Drivers::PCI::Config` takes the fields of the record one by one. -/
def pci_read (width : Width) (layout : PciLayout) (device : Nat) (offset : BitVec 64) (s : State) :
    UacpiStatus × BitVec width.bits × State :=
  let field := fun k => s.h.mem (device + k)
  (.OK, answer width
    (reach (.pci_read width (field layout.bus) (field layout.device) (field layout.function) offset) s))

def uacpi_kernel_pci_read8 := pci_read .byte
def uacpi_kernel_pci_read16 := pci_read .word
def uacpi_kernel_pci_read32 := pci_read .dword

def pci_write (width : Width) (layout : PciLayout) (device : Nat) (offset : BitVec 64) (value : BitVec width.bits)
    (s : State) : UacpiStatus × State :=
  let field := fun k => s.h.mem (device + k)
  (.OK,
    reach (.pci_write width (field layout.bus) (field layout.device) (field layout.function) offset value) s)

def uacpi_kernel_pci_write8 := pci_write .byte
def uacpi_kernel_pci_write16 := pci_write .word
def uacpi_kernel_pci_write32 := pci_write .dword

/-! ## Ports -/

/-- `sizeof(uacpi_io)`: `base` and `len` at 0 and 8. -/
def UACPI_IO : Nat := 16

def uacpi_kernel_io_map (fuel : Nat) (base len : BitVec 64) (s : State) : Option (UacpiStatus × Nat × State) := do
  let iomap ← Heap.kmalloc fuel s.h UACPI_IO
  let mem := write 8 iomap.2.mem (iomap.1 + 0) base.toNat
  let mem := write 8 mem (iomap.1 + 8) len.toNat
  some (.OK, iomap.1, { s with h := { iomap.2 with mem } })

def uacpi_kernel_io_unmap (fuel : Nat) (handle : Nat) (s : State) : Option State := uacpi_kernel_free fuel handle s

/-- `*(u16*)hnd + offset`, of which `Drivers::IO` takes 16 bits. -/
def io_port (hnd : Nat) (offset : BitVec 64) (s : State) : BitVec 16 :=
  (BitVec.ofNat 64 (read 2 s.h.mem hnd) + offset).setWidth 16

def io_read (width : Width) (hnd : Nat) (offset : BitVec 64) (s : State) :
    UacpiStatus × BitVec width.bits × State :=
  (.OK, answer width (reach (.port_read width (io_port hnd offset s)) s))

def uacpi_kernel_io_read8 := io_read .byte
def uacpi_kernel_io_read16 := io_read .word
def uacpi_kernel_io_read32 := io_read .dword

def io_write (width : Width) (hnd : Nat) (offset : BitVec 64) (in_value : BitVec width.bits) (s : State) :
    UacpiStatus × State :=
  (.OK, reach (.port_write width (io_port hnd offset s) in_value) s)

def uacpi_kernel_io_write8 := io_write .byte
def uacpi_kernel_io_write16 := io_write .word
def uacpi_kernel_io_write32 := io_write .dword

end SlayerOS.Kapi
