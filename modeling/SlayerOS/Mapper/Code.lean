import SlayerOS.Paging.Spec

/-!
# The first map (`mapper.cc`)

The loops call `Mem::Paging::map` once for each page. The section boundaries are symbols
of the linker script.
-/

open SlayerOS.Frames (FRAME_SIZE sub64)
open SlayerOS.Paging

namespace SlayerOS.Mapper

def PAGE_USER : Nat := 0x1 <<< 2
def PAGE_NX : Nat := 0x1 <<< 63

/-- The values of `LIMINE_MEMMAP_*`. -/
inductive MemmapType where
  | USABLE
  | RESERVED
  | ACPI_RECLAIMABLE
  | ACPI_NVS
  | BAD_MEMORY
  | BOOTLOADER_RECLAIMABLE
  | KERNEL_AND_MODULES
  | FRAMEBUFFER
deriving DecidableEq, Repr

/-- `struct limine_memmap_entry`. -/
structure MemmapEntry where
  base : Nat
  length : Nat
  type : MemmapType
deriving DecidableEq, Repr

/-- The fields of `boot_ctx` that the mapper reads. -/
structure BootCtx where
  memmap_entries : List MemmapEntry
  hhdm_addr : Nat
  kern_address_phys : Nat
  kern_address_virt : Nat
deriving DecidableEq, Repr

/-- The symbols of `linkage.ld`. -/
structure Linkage where
  text_start_ld : Nat
  text_end_ld : Nat
  rodata_start_ld : Nat
  rodata_end_ld : Nat
  data_start_ld : Nat
  data_end_ld : Nat
deriving DecidableEq, Repr

def ALIGN_UP (x y : Nat) : Nat := (x + (y - 1)) % 2 ^ 64 / y * y
def ALIGN_DOWN (x y : Nat) : Nat := x / y * y

/-! ## Memory -/

/-- The loop over the pages of one entry. -/
def map_entry (w : State) (ctx : BootCtx) (entry : MemmapEntry) : State :=
  let vaddr := PHYS2VIRT ctx.hhdm_addr entry.base
  let paddr := entry.base
  let pages := entry.length / FRAME_SIZE
  (List.range pages).foldl (fun w page =>
    next w (.map ((paddr + page * FRAME_SIZE) % 2 ^ 64) ((vaddr + page * FRAME_SIZE) % 2 ^ 64)
      (PAGE_PRESENT ||| PAGE_WRITE ||| PAGE_USER))) w

/-- The loop over the entries of one type. -/
def map_memory (type : MemmapType) (w : State) (ctx : BootCtx) : State :=
  ctx.memmap_entries.foldl (fun w entry => if entry.type = type then map_entry w ctx entry else w) w

def map_found_memory : State → BootCtx → State := map_memory .USABLE
def map_hhdm_memory : State → BootCtx → State := map_memory .USABLE
def map_bootloader_memory : State → BootCtx → State := map_memory .BOOTLOADER_RECLAIMABLE
def map_framebuffer_memory : State → BootCtx → State := map_memory .FRAMEBUFFER

/-! ## The kernel -/

/-- `for (u64 p = start; p < end; p += FRAME_SIZE)`, where both are multiples of
`FRAME_SIZE`, so that `p` does not wrap. -/
def map_section (w : State) (ctx : BootCtx) (start stop flags : Nat) : State :=
  (List.range ((stop - start) / FRAME_SIZE)).foldl (fun w i =>
    let p := start + i * FRAME_SIZE
    next w (.map ((sub64 p ctx.kern_address_virt + ctx.kern_address_phys) % 2 ^ 64) p flags)) w

def map_kernel_code (w : State) (ctx : BootCtx) (ld : Linkage) : State :=
  let text_start := ALIGN_DOWN ld.text_start_ld FRAME_SIZE
  let text_end := ALIGN_UP ld.text_end_ld FRAME_SIZE
  let rodata_start := ALIGN_DOWN ld.rodata_start_ld FRAME_SIZE
  let rodata_end := ALIGN_UP ld.rodata_end_ld FRAME_SIZE
  let data_start := ALIGN_DOWN ld.data_start_ld FRAME_SIZE
  let data_end := ALIGN_UP ld.data_end_ld FRAME_SIZE
  let w := map_section w ctx text_start text_end (PAGE_PRESENT ||| PAGE_USER)
  let w := map_section w ctx rodata_start rodata_end (PAGE_PRESENT ||| PAGE_NX ||| PAGE_USER)
  map_section w ctx data_start data_end (PAGE_PRESENT ||| PAGE_WRITE ||| PAGE_NX ||| PAGE_USER)

/-- `Mem::Mapper::full_map`. -/
def full_map (w : State) (ctx : BootCtx) (ld : Linkage) : State :=
  let w := map_bootloader_memory w ctx
  let w := map_framebuffer_memory w ctx
  let w := map_found_memory w ctx
  let w := map_hhdm_memory w ctx
  map_kernel_code w ctx ld

end SlayerOS.Mapper
