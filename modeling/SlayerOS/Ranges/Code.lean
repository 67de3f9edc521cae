import SlayerOS.Mapper.Spec

/-!
# Ranges of memory (`paging.cc`, `acpi_kapi.cc`)

Devices and ACPI tables start anywhere in a page. Both callers round the length up to
whole pages, from the start of the first one.
-/

open SlayerOS.Frames (FRAME_SIZE sub64)
open SlayerOS.Paging SlayerOS.Mapper

namespace SlayerOS.Ranges

def PAGE_UNCACHE : Nat := 0x1 <<< 4

/-- `x & ~(0x1000 - 1)`. -/
def ROUND_DOWN (x : Nat) : Nat := x &&& 0xFFFFFFFFFFFFF000

/-- `for (u64 i = 0; i < size; i += FRAME_SIZE)`. The counter does not wrap for a size up to
`2 ^ 64 - FRAME_SIZE`, and `ALIGN_UP` gives no other. The result is a `u32`. -/
def map_range (w : State) (phys virt size flags : Nat) : Nat × State :=
  (size / FRAME_SIZE % 2 ^ 32,
    (List.range ((size + (FRAME_SIZE - 1)) / FRAME_SIZE)).foldl (fun w i =>
      next w (.map ((phys + i * FRAME_SIZE) % 2 ^ 64) ((virt + i * FRAME_SIZE) % 2 ^ 64) flags)) w)

def map_mmio (w : State) (phys_addr size : Nat) : Nat × State :=
  let aligned_phys := ROUND_DOWN phys_addr
  let offset := sub64 phys_addr aligned_phys
  let aligned_size := ALIGN_UP ((size + offset) % 2 ^ 64) 0x1000
  let virt_addr := PHYS2VIRT w.hhdm_addr aligned_phys
  let flags := PAGE_PRESENT ||| PAGE_WRITE ||| PAGE_UNCACHE
  let r := map_range w aligned_phys virt_addr aligned_size flags
  ((virt_addr + offset) % 2 ^ 64, r.2)

def uacpi_kernel_map (w : State) (addr len : Nat) : Nat × State :=
  let offset := sub64 addr (ROUND_DOWN addr)
  let total_len := ALIGN_UP ((len + offset) % 2 ^ 64) 0x1000
  let virt := PHYS2VIRT w.hhdm_addr addr
  let r := map_range w addr virt total_len (PAGE_PRESENT ||| PAGE_WRITE)
  (virt, r.2)

/-! ## What the calls are for -/

/-- Where a byte goes, and with which flags. -/
def translateByte (w : State) (virt : Nat) : Option (Nat × Nat) :=
  (translation w (pageOf virt)).map fun t => (t.1 + virt % FRAME_SIZE, t.2)

/-- The page of the direct map holds a byte of the range. -/
def Overlaps (w : State) (addr len page : Nat) : Prop :=
  ∃ b, addr ≤ b ∧ b < addr + len ∧ page = pageOf (PHYS2VIRT w.hhdm_addr b)

/-- Every byte of the range is in its place of the direct map, and no other page has changed. -/
structure MapsRange (w w' : State) (addr len flags : Nat) : Prop where
  bytes : ∀ b, addr ≤ b → b < addr + len → translateByte w' (PHYS2VIRT w.hhdm_addr b) = some (b, flags)
  others : ∀ page, page < 2 ^ 36 → ¬ Overlaps w addr len page → pageEntry w' page = pageEntry w page

/-- The calls of `Mem::Paging::map`. -/
def rangeCalls (w : State) (addr len flags : Nat) : List Op :=
  pageCalls addr (PHYS2VIRT w.hhdm_addr addr) flags ((addr % FRAME_SIZE + len + (FRAME_SIZE - 1)) / FRAME_SIZE)

end SlayerOS.Ranges
