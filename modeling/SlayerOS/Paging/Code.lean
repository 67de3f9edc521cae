import SlayerOS.Frames.Code

/-!
# The page tables (`paging.cc`)

A table is 512 entries of eight bytes. The result of each `Mem::Frame::alloc` call is an
input here, and so is what the processor caches: between any two accesses it may add
the translations of some pages to the TLB.
-/

open SlayerOS.Bytes SlayerOS.Frames

namespace SlayerOS.Paging

def PTE_MASK : Nat := 0x0000FFFFFFFFF000

def PAGE_PRESENT : Nat := 0x1 <<< 0
def PAGE_WRITE : Nat := 0x1 <<< 1

def PHYS2VIRT (hhdm_addr addr : Nat) : Nat := (hhdm_addr + addr) % 2 ^ 64
def VIRT2PHYS (hhdm_addr addr : Nat) : Nat := sub64 addr hhdm_addr

def pml4_index (virt : Nat) : Nat := (virt >>> 39) &&& 0x1ff
def pml3_index (virt : Nat) : Nat := (virt >>> 30) &&& 0x1ff
def pml2_index (virt : Nat) : Nat := (virt >>> 21) &&& 0x1ff
def pml1_index (virt : Nat) : Nat := (virt >>> 12) &&& 0x1ff

/-- `table[index]`. -/
def entry (m : Mem) (table index : Nat) : Nat := read 8 m (table + 8 * index)

def present (e : Nat) : Bool := e &&& PAGE_PRESENT != 0

structure State where
  mem : Mem
  pml4 : Nat
  hhdm_addr : Nat
  /-- The results of `Mem::Frame::alloc`, in the order of the calls. -/
  frames : Nat → Nat
  /-- The calls so far: the memory at that moment, and the result. -/
  calls : List (Mem × Nat)
  /-- Pages and their cached leaf entries. -/
  tlb : List (Nat × Nat)
  /-- The pages that the processor looks up at each moment. -/
  fills : Nat → List Nat
  clock : Nat

/-! ## The processor -/

/-- The table that an entry refers to. -/
def walk_table (hhdm_addr : Nat) (m : Mem) (table index : Nat) : Option Nat :=
  let e := entry m table index
  if present e then some (PHYS2VIRT hhdm_addr (e &&& PTE_MASK)) else none

/-- The leaf entry of a page, if the three tables above it are there. -/
def walk (hhdm_addr : Nat) (m : Mem) (pml4 page : Nat) : Option Nat := do
  let virt := page * FRAME_SIZE
  let pml3 ← walk_table hhdm_addr m pml4 (pml4_index virt)
  let pml2 ← walk_table hhdm_addr m pml3 (pml3_index virt)
  let pml1 ← walk_table hhdm_addr m pml2 (pml2_index virt)
  some (entry m pml1 (pml1_index virt))

/-- The present translation of a page. -/
def translate (w : State) (page : Nat) : Option Nat :=
  (walk w.hhdm_addr w.mem w.pml4 page).filter present

def fill_page (w : State) (page : Nat) : Option (Nat × Nat) :=
  (translate w page).map fun e => (page, e)

/-- A moment in which the processor may cache translations. -/
def tick (w : State) : State :=
  { w with tlb := (w.fills w.clock).filterMap (fill_page w) ++ w.tlb, clock := w.clock + 1 }

def load (w : State) (table index : Nat) : Nat × State :=
  let w := tick w
  (entry w.mem table index, w)

def store (w : State) (table index v : Nat) : State :=
  let w := tick w
  { w with mem := write 8 w.mem (table + 8 * index) v }

def flush_tlb (w : State) : State := { tick w with tlb := [] }

/-- `Mem::Frame::alloc`, which clears the frame that it hands out. -/
def frame_alloc (w : State) : Nat × State :=
  let w := tick w
  let frame := w.frames w.calls.length
  (frame,
    { w with
      calls := w.calls ++ [(w.mem, frame)]
      mem := if frame = 0 then w.mem else fill w.mem frame FRAME_SIZE 0 })

/-! ## `Mem::Paging::map` -/

/-- The next table down, which is made if it is not there. -/
def next_table (w : State) (table index : Nat) : Nat × State :=
  let r := load w table index
  if present r.1 then
    let r := load r.2 table index
    (PHYS2VIRT w.hhdm_addr (r.1 &&& PTE_MASK), r.2)
  else
    let r := frame_alloc r.2
    (r.1, store r.2 table index (VIRT2PHYS w.hhdm_addr r.1 ||| PAGE_PRESENT ||| PAGE_WRITE))

def map (w : State) (phys virt flags : Nat) : State :=
  let pml3 := next_table w w.pml4 (pml4_index virt)
  let pml2 := next_table pml3.2 pml3.1 (pml3_index virt)
  let pml1 := next_table pml2.2 pml2.1 (pml2_index virt)
  let old := load pml1.2 pml1.1 (pml1_index virt)
  let perm_mod := present old.1
  let w := store old.2 pml1.1 (pml1_index virt) (phys ||| flags)
  if perm_mod then flush_tlb w else w

/-! ## `Mem::Paging::unmap` -/

/-- The next table down, or null where `unmap` returns. -/
def find_table (w : State) (table index : Nat) : Option Nat × State :=
  let r := load w table index
  if present r.1 then
    let r := load r.2 table index
    (some (PHYS2VIRT w.hhdm_addr (r.1 &&& PTE_MASK)), r.2)
  else (none, r.2)

def unmap (w : State) (virt : Nat) : State :=
  match find_table w w.pml4 (pml4_index virt) with
  | (none, w) => w
  | (some pml3, w) =>
    match find_table w pml3 (pml3_index virt) with
    | (none, w) => w
    | (some pml2, w) =>
      match find_table w pml2 (pml2_index virt) with
      | (none, w) => w
      | (some pml1, w) => flush_tlb (store w pml1 (pml1_index virt) 0)

end SlayerOS.Paging
