import SlayerOS.Mapper.Code

/-!
# What the first map is for

Memory is mapped into the direct map, and the sections of the kernel to where they are
linked. Nothing else is mapped, and code and constants cannot be written.
-/

open SlayerOS.Bytes SlayerOS.Run
open SlayerOS.Frames (FRAME_SIZE)
open SlayerOS.Paging

namespace SlayerOS.Mapper

/-! ## The processor's view -/

/-- The address in a leaf entry, and the other bits. -/
def ADDR_MASK : Nat := 0x000FFFFFFFFFF000
def FLAG_MASK : Nat := 0xFFF0000000000FFF

/-- Where a page goes, and with which flags. -/
def translation (w : State) (page : Nat) : Option (Nat × Nat) :=
  let e := pageEntry w page
  if present e then some (e &&& ADDR_MASK, e &&& FLAG_MASK) else none

/-! ## What is mapped -/

/-- Entries that overlap no other entry. -/
def MemmapEntry.Exclusive (e : MemmapEntry) : Prop := e.type = .USABLE ∨ e.type = .BOOTLOADER_RECLAIMABLE

def MemmapEntry.Mapped (e : MemmapEntry) : Prop := e.Exclusive ∨ e.type = .FRAMEBUFFER

/-- A section of the kernel, from page boundary to page boundary. -/
structure Section where
  start : Nat
  stop : Nat
  flags : Nat
deriving DecidableEq, Repr

/-- The page boundary before an address, and the one behind it. -/
def pageDown (x : Nat) : Nat := x / FRAME_SIZE * FRAME_SIZE
def pageUp (x : Nat) : Nat := (x + (FRAME_SIZE - 1)) / FRAME_SIZE * FRAME_SIZE

def text (ld : Linkage) : Section :=
  ⟨pageDown ld.text_start_ld, pageUp ld.text_end_ld, PAGE_PRESENT ||| PAGE_USER⟩

def rodata (ld : Linkage) : Section :=
  ⟨pageDown ld.rodata_start_ld, pageUp ld.rodata_end_ld, PAGE_PRESENT ||| PAGE_NX ||| PAGE_USER⟩

def data (ld : Linkage) : Section :=
  ⟨pageDown ld.data_start_ld, pageUp ld.data_end_ld, PAGE_PRESENT ||| PAGE_WRITE ||| PAGE_NX ||| PAGE_USER⟩

def sections (ld : Linkage) : List Section := [text ld, rodata ld, data ld]

/-- `v` is the address of a page of the section. -/
def Section.Page (s : Section) (v : Nat) : Prop := s.start ≤ v ∧ v < s.stop ∧ v % FRAME_SIZE = 0

/-- Where the boot loader has put the page at `v` of the kernel. -/
def physOf (ctx : BootCtx) (v : Nat) : Nat := v - ctx.kern_address_virt + ctx.kern_address_phys

/-- The tables translate the pages of memory and of the kernel, and nothing else. -/
structure Maps (w : State) (ctx : BootCtx) (ld : Linkage) : Prop where
  memory : ∀ e ∈ ctx.memmap_entries, e.Mapped → ∀ k, k < e.length / FRAME_SIZE →
    translation w (pageOf (ctx.hhdm_addr + e.base + FRAME_SIZE * k)) =
      some (e.base + FRAME_SIZE * k, PAGE_PRESENT ||| PAGE_WRITE ||| PAGE_USER)
  kernel : ∀ s ∈ sections ld, ∀ v, s.Page v →
    translation w (pageOf v) = some (physOf ctx v, s.flags)
  nothing : ∀ page, page < 2 ^ 36 → translation w page ≠ none →
    (∃ e ∈ ctx.memmap_entries, e.Mapped ∧ ∃ k, k < e.length / FRAME_SIZE ∧
      page = pageOf (ctx.hhdm_addr + e.base + FRAME_SIZE * k)) ∨
    ∃ s ∈ sections ld, ∃ v, s.Page v ∧ page = pageOf v

/-- No page that can be written leads to code or constants of the kernel. -/
def WriteProtected (w : State) (ctx : BootCtx) (ld : Linkage) : Prop :=
  ∀ s ∈ [text ld, rodata ld], ∀ v, s.Page v → ∀ page, page < 2 ^ 36 → ∀ p flags,
    translation w page = some (p, flags) → flags &&& PAGE_WRITE ≠ 0 → p ≠ physOf ctx v

/-! ## What the boot loader promises -/

structure Booted (w : State) (ctx : BootCtx) (ld : Linkage) : Prop where
  hhdm : w.hhdm_addr = ctx.hhdm_addr
  /-- The direct map and the kernel are in the higher half. -/
  half : 2 ^ 64 - 2 ^ 47 ≤ ctx.hhdm_addr ∧ 2 ^ 64 - 2 ^ 47 ≤ ctx.kern_address_virt
  physical : ∀ e ∈ ctx.memmap_entries, e.base + e.length ≤ 2 ^ 52
  direct : ∀ e ∈ ctx.memmap_entries, e.Mapped →
    e.base % FRAME_SIZE = 0 ∧ ctx.hhdm_addr + e.base + e.length ≤ 2 ^ 64
  exclusive : ctx.memmap_entries.Pairwise fun a b =>
    a.Exclusive ∨ b.Exclusive → Apart a.base a.length b.base b.length
  bases : ctx.kern_address_phys % FRAME_SIZE = 0 ∧ ctx.kern_address_virt % FRAME_SIZE = 0
  linked : ∀ s ∈ sections ld, ctx.kern_address_virt ≤ s.start ∧ s.stop ≤ 2 ^ 64
  disjoint : (sections ld).Pairwise fun s t => s.stop ≤ t.start ∨ t.stop ≤ s.start
  apart : ∀ e ∈ ctx.memmap_entries, e.Mapped → ∀ s ∈ sections ld,
    ctx.hhdm_addr + e.base + e.length ≤ s.start ∨ s.stop ≤ ctx.hhdm_addr + e.base
  /-- The image of the kernel is in an entry of another type. -/
  image : ∃ k ∈ ctx.memmap_entries, ¬ k.Exclusive ∧ ∀ s ∈ sections ld, ∀ v, s.Page v →
    k.base < physOf ctx v + FRAME_SIZE ∧ physOf ctx v < k.base + k.length

/-- No frame buffer lies over the image of the kernel. -/
def FramebufferApart (ctx : BootCtx) (ld : Linkage) : Prop :=
  ∀ e ∈ ctx.memmap_entries, e.type = .FRAMEBUFFER → ∀ s ∈ sections ld, ∀ v, s.Page v →
    Apart e.base e.length (physOf ctx v) FRAME_SIZE

/-- No section of the kernel ends in the last page, behind which addresses start again. -/
def EndsEarly (ld : Linkage) : Prop := ∀ s ∈ sections ld, s.stop < 2 ^ 64

instance (ld : Linkage) : Decidable (EndsEarly ld) :=
  inferInstanceAs (Decidable (∀ s ∈ sections ld, s.stop < 2 ^ 64))

/-! ## The calls -/

def pageCalls (paddr vaddr flags pages : Nat) : List Op :=
  (List.range pages).map fun page =>
    .map ((paddr + page * FRAME_SIZE) % 2 ^ 64) ((vaddr + page * FRAME_SIZE) % 2 ^ 64) flags

def memoryCalls (type : MemmapType) (ctx : BootCtx) : List Op :=
  ctx.memmap_entries.flatMap fun e =>
    if e.type = type then pageCalls e.base (PHYS2VIRT ctx.hhdm_addr e.base)
      (PAGE_PRESENT ||| PAGE_WRITE ||| PAGE_USER) (e.length / FRAME_SIZE)
    else []

def sectionCalls (ctx : BootCtx) (s : Section) : List Op :=
  (List.range ((s.stop - s.start) / FRAME_SIZE)).map fun i =>
    .map ((Frames.sub64 (s.start + i * FRAME_SIZE) ctx.kern_address_virt + ctx.kern_address_phys) % 2 ^ 64)
      (s.start + i * FRAME_SIZE) s.flags

/-- The calls of `Mem::Paging::map` that `full_map` makes, in order. -/
def fullCalls (ctx : BootCtx) (ld : Linkage) : List Op :=
  memoryCalls .BOOTLOADER_RECLAIMABLE ctx ++ memoryCalls .FRAMEBUFFER ctx ++ memoryCalls .USABLE ctx ++
  memoryCalls .USABLE ctx ++ (sections ld).flatMap (sectionCalls ctx)

/-- The call for page `k` of an entry, and for the page at `v` of a section. -/
def entryCall (ctx : BootCtx) (e : MemmapEntry) (k : Nat) : Op :=
  .map (e.base + FRAME_SIZE * k) (ctx.hhdm_addr + e.base + FRAME_SIZE * k)
    (PAGE_PRESENT ||| PAGE_WRITE ||| PAGE_USER)

def sectionCall (ctx : BootCtx) (s : Section) (v : Nat) : Op := .map (physOf ctx v) v s.flags

/-- There are enough frames: every one that is handed out for a table is fresh. -/
def EnoughFrames (w : State) (ctx : BootCtx) (ld : Linkage) : Prop := Along step Legal w (fullCalls ctx ld)

end SlayerOS.Mapper
