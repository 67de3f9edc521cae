import SlayerOS.Kapi.Code
import SlayerOS.Heap.Spec

/-!
# What the host interface is for

The abstract interface is a table of objects: blocks of bytes, port ranges and PCI devices.
An access to an object goes to the place it was opened for. No memory is involved.
-/

open SlayerOS.Bytes

namespace SlayerOS.Kapi

inductive Object where
  | block (size : Nat) (bytes : Nat → BitVec 8)
  | ports (base len : BitVec 64)
  | device (address : Nat → BitVec 8)

def Object.isBlock : Object → Bool
  | .block _ _ => true
  | _ => false

/-- The size of the record of an object. -/
def Object.size (layout : PciLayout) : Object → Nat
  | .block size _ => size
  | .ports _ _ => UACPI_IO
  | .device _ => layout.size

/-- Handle to object, and what reached the devices, the last access first. -/
structure Table where
  objects : Nat → Option Object
  accesses : List Access

inductive Call where
  | alloc (size : Nat)
  | free (mem : Nat)
  /-- A client writes a byte of a block of its own. -/
  | store (addr : Nat) (byte : BitVec 8)
  | pci_open (address : Nat → BitVec 8)
  | pci_close (handle : Nat)
  | pci_read (width : Width) (handle : Nat) (offset : BitVec 64)
  | pci_write (width : Width) (handle : Nat) (offset : BitVec 64) (value : BitVec width.bits)
  | io_map (base len : BitVec 64)
  | io_unmap (handle : Nat)
  | io_read (width : Width) (handle : Nat) (offset : BitVec 64)
  | io_write (width : Width) (handle : Nat) (offset : BitVec 64) (value : BitVec width.bits)

/-- The port at an offset of a range. -/
def portAt (base offset : BitVec 64) : BitVec 16 := (base + offset).setWidth 16

def Table.put (t : Table) (handle : Nat) (o : Object) : Table :=
  { t with objects := Function.update t.objects handle (some o) }

def Table.drop (t : Table) (handle : Nat) : Table := { t with objects := Function.update t.objects handle none }

def Table.reach (t : Table) (a : Access) : Table := { t with accesses := a :: t.accesses }

/-- The block at `handle` holds `addr`. -/
def Table.Owns (t : Table) (handle addr : Nat) : Prop :=
  ∃ size bytes, t.objects handle = some (.block size bytes) ∧ handle ≤ addr ∧ addr < handle + size

/-- A byte of a block. A store to no block changes nothing. -/
def Object.poke (handle addr : Nat) (byte : BitVec 8) : Object → Object
  | .block size bytes =>
    if handle ≤ addr ∧ addr < handle + size then .block size (Function.update bytes (addr - handle) byte)
    else .block size bytes
  | o => o

/-- The call on objects. `result` is the handle that it returned, and `initial` what a new
block holds. -/
def Table.next (layout : PciLayout) (t : Table) (result : Nat) (initial : Nat → BitVec 8) : Call → Table
  | .alloc size => t.put result (.block size initial)
  | .free mem => t.drop mem
  | .store addr byte => { t with objects := fun a => (t.objects a).map (Object.poke a addr byte) }
  | .pci_open address => t.put result (.device address)
  | .pci_close handle => t.drop handle
  | .pci_read width handle offset =>
    match t.objects handle with
    | some (.device address) =>
      t.reach (.pci_read width (address layout.bus) (address layout.device) (address layout.function) offset)
    | _ => t
  | .pci_write width handle offset value =>
    match t.objects handle with
    | some (.device address) =>
      t.reach (.pci_write width (address layout.bus) (address layout.device) (address layout.function) offset value)
    | _ => t
  | .io_map base len => t.put result (.ports base len)
  | .io_unmap handle => t.drop handle
  | .io_read width handle offset =>
    match t.objects handle with
    | some (.ports base _) => t.reach (.port_read width (portAt base offset))
    | _ => t
  | .io_write width handle offset value =>
    match t.objects handle with
    | some (.ports base _) => t.reach (.port_write width (portAt base offset) value)
    | _ => t

/-! ## Runs -/

/-- The interface in memory beside the abstract one. -/
structure World where
  s : State
  table : Table

/-- The call in memory: the handle that it returns, or zero. -/
def perform (fuel : Nat) (layout : PciLayout) (s : State) : Call → Option (Nat × State)
  | .alloc size => uacpi_kernel_alloc fuel size s
  | .free mem => (uacpi_kernel_free fuel mem s).map fun s => (0, s)
  | .store addr byte => some (0, { s with h := { s.h with mem := Function.update s.h.mem addr byte } })
  | .pci_open address => (uacpi_kernel_pci_device_open fuel layout address s).map Prod.snd
  | .pci_close handle => (uacpi_kernel_pci_device_close fuel handle s).map fun s => (0, s)
  | .pci_read width handle offset => some (0, (pci_read width layout handle offset s).2.2)
  | .pci_write width handle offset value => some (0, (pci_write width layout handle offset value s).2)
  | .io_map base len => (uacpi_kernel_io_map fuel base len s).map Prod.snd
  | .io_unmap handle => (uacpi_kernel_io_unmap fuel handle s).map fun s => (0, s)
  | .io_read width handle offset => some (0, (io_read width handle offset s).2.2)
  | .io_write width handle offset value => some (0, (io_write width handle offset value s).2)

def step (fuel : Nat) (layout : PciLayout) (w : World) (c : Call) : Option World := do
  let r ← perform fuel layout w.s c
  some ⟨r.2, w.table.next layout r.1 (fun k => r.2.h.mem (r.1 + k)) c⟩

/-- Before any call, over memory with any contents. -/
def boot (mem : Mem) (allocs : Nat → Nat) (answers : Nat → BitVec 32) : World :=
  ⟨⟨(Heap.boot mem allocs).h, [], answers, 0⟩, ⟨fun _ => none, []⟩⟩

/-- The heap gets a fresh region when it asks for one. -/
def Room (fuel : Nat) (s : State) (size : Nat) : Prop :=
  size < 2 ^ 32 - 64 ∧ (Heap.NeedsPage fuel s.h size → Heap.FreshRegion s.h (Heap.num_pages size))

/-- What uACPI and the frame allocator promise: a handle is used for what it was opened for
and until it is closed, and stores stay inside blocks. -/
def Legal (fuel : Nat) (layout : PciLayout) (w : World) : Call → Prop
  | .alloc size => Room fuel w.s size
  | .free mem => w.s.h.heap ≠ 0 ∧ ∀ o, w.table.objects mem = some o → o.isBlock = true
  | .store addr _ => ∃ handle, w.table.Owns handle addr
  | .pci_open _ => Room fuel w.s layout.size
  | .pci_close handle => ∃ address, w.table.objects handle = some (.device address)
  | .pci_read _ handle _ => ∃ address, w.table.objects handle = some (.device address)
  | .pci_write _ handle _ _ => ∃ address, w.table.objects handle = some (.device address)
  | .io_map _ _ => Room fuel w.s UACPI_IO
  | .io_unmap handle => ∃ base len, w.table.objects handle = some (.ports base len)
  | .io_read _ handle _ => ∃ base len, w.table.objects handle = some (.ports base len)
  | .io_write _ handle _ _ => ∃ base len, w.table.objects handle = some (.ports base len)

/-- The record of an object at `a`. -/
def Holds (m : Mem) (layout : PciLayout) (a : Nat) : Object → Prop
  | .block size bytes => ∀ k, k < size → m (a + k) = bytes k
  | .ports base len => read 8 m a = base.toNat ∧ read 8 m (a + 8) = len.toNat
  | .device address => ∀ k, k < layout.size → m (a + k) = address k

/-- The fields of `uacpi_pci_address` lie inside it. -/
structure PciLayout.Ok (layout : PciLayout) : Prop where
  bus : layout.bus < layout.size
  device : layout.device < layout.size
  function : layout.function < layout.size

/-- Memory and the devices show what the table says. -/
structure Shows (layout : PciLayout) (w : World) : Prop where
  objects : ∀ a o, w.table.objects a = some o → Holds w.s.h.mem layout a o
  accesses : w.s.accesses = w.table.accesses

/-- The call ends, what it does is what it does to the table, and a new handle is not one
that is in use. -/
def Faithful (fuel : Nat) (layout : PciLayout) (w : World) (c : Call) : Prop :=
  ∃ r, perform fuel layout w.s c = some r ∧
    Shows layout ⟨r.2, w.table.next layout r.1 (fun k => r.2.h.mem (r.1 + k)) c⟩ ∧
    (r.1 ≠ 0 → w.table.objects r.1 = none)

end SlayerOS.Kapi
