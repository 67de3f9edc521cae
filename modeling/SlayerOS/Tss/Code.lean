import SlayerOS.Frames.Code

/-!
# The task state segment and the segment descriptors (`tss.cc`, `gdt.cc`)

Both structures are packed. The TSS is a variable of the kernel, and its address comes from the
linker.
-/

open SlayerOS.Bytes

namespace SlayerOS.Tss

/-! ## `tss.cc` -/

structure TaskStateSegment where
  reserved1 : Nat
  rsp0 : Nat
  rsp1 : Nat
  rsp2 : Nat
  reserved2 : Nat
  ist1 : Nat
  ist2 : Nat
  ist3 : Nat
  ist4 : Nat
  ist5 : Nat
  ist6 : Nat
  ist7 : Nat
  reserved3 : Nat
  reserved4 : Nat
  iopb_offset : Nat
deriving DecidableEq, Repr

/-- The fields in order, each with its size. -/
def TaskStateSegment.fields (t : TaskStateSegment) : List (Nat × Nat) :=
  [(4, t.reserved1), (8, t.rsp0), (8, t.rsp1), (8, t.rsp2), (8, t.reserved2), (8, t.ist1), (8, t.ist2), (8, t.ist3),
    (8, t.ist4), (8, t.ist5), (8, t.ist6), (8, t.ist7), (8, t.reserved3), (2, t.reserved4), (2, t.iopb_offset)]

/-- Fields one behind the other from `a` on. -/
def pack : List (Nat × Nat) → Nat → Mem → Mem
  | [], _, m => m
  | (size, value) :: fields, a, m => write size (pack fields (a + size) m) a value

def sizeof_TaskStateSegment : Nat := 104

/-- `TSS::init` -/
def init : TaskStateSegment := ⟨0, 0, 0, 0, 0, 0, 0, 0, 0, 0, 0, 0, 0, 0, sizeof_TaskStateSegment⟩

/-- The `switch` of `TSS::init_stacks`. -/
def set_ist (t : TaskStateSegment) (i stack_top : Nat) : TaskStateSegment :=
  match i with
  | 1 => { t with ist1 := stack_top }
  | 2 => { t with ist2 := stack_top }
  | 3 => { t with ist3 := stack_top }
  | 4 => { t with ist4 := stack_top }
  | 5 => { t with ist5 := stack_top }
  | 6 => { t with ist6 := stack_top }
  | 7 => { t with ist7 := stack_top }
  | _ => t

/-- The tops of the stacks from number `i` on. -/
def set_ists (t : TaskStateSegment) : Nat → List Nat → TaskStateSegment
  | _, [] => t
  | i, stack_top :: rest => set_ists (set_ist t i stack_top) (i + 1) rest

/-- `TSS::init_stacks` -/
def init_stacks (t : TaskStateSegment) (s : Frames.State) : TaskStateSegment × Frames.State :=
  let r := Frames.init_stacks s
  (set_ists t 1 r.1.ist, r.2)

def set_kernel_stack (t : TaskStateSegment) (stack_ptr : Nat) : TaskStateSegment := { t with rsp0 := stack_ptr }

def get_ist_stack (t : TaskStateSegment) (index : Nat) : Nat :=
  if index < 1 ∨ 7 < index then 0
  else
    match index with
    | 1 => t.ist1
    | 2 => t.ist2
    | _ => 0

/-- `TSS::Descriptor` -/
structure Descriptor where
  limit_low : BitVec 16
  base_low : BitVec 16
  base_mid : BitVec 8
  access : BitVec 8
  granularity : BitVec 8
  base_high : BitVec 8
  base_ext : BitVec 32
  reserved : BitVec 32
deriving DecidableEq, Repr

def describe (tss_addr : BitVec 64) : Descriptor :=
  let limit := BitVec.ofNat 32 (sizeof_TaskStateSegment - 1)
  { base_low := (tss_addr &&& 0xFFFF).setWidth 16
    base_mid := ((tss_addr >>> 16) &&& 0xFF).setWidth 8
    base_high := ((tss_addr >>> 24) &&& 0xFF).setWidth 8
    base_ext := ((tss_addr >>> 32) &&& 0xFFFFFFFF).setWidth 32
    limit_low := (limit &&& 0xFFFF).setWidth 16
    granularity := ((limit >>> 16) &&& 0x0F).setWidth 8
    access := 0x89
    reserved := 0 }

def create_tss_descriptor (tss_addr : BitVec 64) : BitVec 64 :=
  let desc := describe tss_addr
  desc.limit_low.setWidth 64 ||| desc.base_low.setWidth 64 <<< 16 ||| desc.base_mid.setWidth 64 <<< 32 |||
    desc.access.setWidth 64 <<< 40 ||| desc.granularity.setWidth 64 <<< 48 ||| desc.base_high.setWidth 64 <<< 56

def create_tss_descriptor_high (tss_addr : BitVec 64) : BitVec 64 := (tss_addr >>> 32) &&& 0xFFFFFFFF

/-! ## `gdt.cc` -/

def ENTRIES_NUM : Nat := 7

def table : List (BitVec 64) :=
  [0x00, 0xaf9a000000ffff, 0xaf92000000ffff, 0xcffa000000ffff, 0xcff2000000ffff, 0x00, 0x00]

/-- What `GDT::init` gives to the processor: the limit of the table, the table, and the selector
of the TSS. -/
structure Loaded where
  limit : Nat
  table : List (BitVec 64)
  tr : Nat
deriving DecidableEq

def gdt_init (tss_addr : BitVec 64) : Loaded :=
  { limit := 8 * ENTRIES_NUM - 1
    table := (table.set 5 (create_tss_descriptor tss_addr)).set 6 (create_tss_descriptor_high tss_addr)
    tr := 0x28 }

/-! ## The processor -/

/-- A descriptor of 16 bytes, taken apart. -/
structure SystemSegment where
  base : BitVec 64
  limit : BitVec 20
  access : BitVec 8
  granularity : BitVec 4
deriving DecidableEq, Repr

def decode (low high : BitVec 64) : SystemSegment :=
  { base := high.extractLsb' 0 32 ++ (low.extractLsb' 56 8 ++ low.extractLsb' 16 24 : BitVec 32)
    limit := low.extractLsb' 48 4 ++ low.extractLsb' 0 16
    access := low.extractLsb' 40 8
    granularity := low.extractLsb' 52 4 }

/-- The TSS that the task register selects, if its descriptor is in the table and says that it is a
TSS of 64 bits that is present. -/
def task_segment (g : Loaded) : Option SystemSegment := do
  if g.limit < g.tr + 15 then none
  else
    let low ← g.table[g.tr / 8]?
    let high ← g.table[g.tr / 8 + 1]?
    if (decode low high).access = 0x89 then some (decode low high) else none

/-- The stack of number `ist` in the TSS. -/
def entry_stack (g : Loaded) (m : Mem) (ist : Nat) : Option Nat := do
  let segment ← task_segment g
  if ist = 0 ∨ 7 < ist ∨ segment.limit.toNat < 36 + 8 * (ist - 1) + 7 then none
  else some (read 8 m (segment.base.toNat + 36 + 8 * (ist - 1)))

end SlayerOS.Tss
