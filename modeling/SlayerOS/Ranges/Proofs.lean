import SlayerOS.Ranges.Code
import SlayerOS.Mapper.Proofs

/-!
# The pages of a range

Each call takes one page more, from the page of the first byte to that of the last one.
-/

open SlayerOS.Frames (FRAME_SIZE sub64)
open SlayerOS.Paging SlayerOS.Mapper SlayerOS.Run

namespace SlayerOS.Ranges

/-! ## Rounding -/

theorem round_down_eq (x : Nat) (h : x < 2 ^ 64) : ROUND_DOWN x = x / FRAME_SIZE * FRAME_SIZE := by
  unfold ROUND_DOWN FRAME_SIZE
  rw [show (0xFFFFFFFFFFFFF000 : Nat) = (2 ^ 52 - 1) <<< 12 from rfl, land_shifted]
  omega

theorem offset_eq (x : Nat) (h : x < 2 ^ 64) : sub64 x (ROUND_DOWN x) = x % FRAME_SIZE := by
  rw [round_down_eq x h]
  unfold sub64 FRAME_SIZE
  omega

theorem pages_eq (len offset : Nat) (h : len + offset < 2 ^ 63) :
    (ALIGN_UP ((len + offset) % 2 ^ 64) 0x1000 + (FRAME_SIZE - 1)) / FRAME_SIZE =
      (offset + len + (FRAME_SIZE - 1)) / FRAME_SIZE := by
  unfold ALIGN_UP FRAME_SIZE
  omega

theorem uacpi_kernel_map_eq (w : State) (addr len : Nat) (h : addr + len < 2 ^ 46) :
    (uacpi_kernel_map w addr len).2 =
      (rangeCalls w addr len (PAGE_PRESENT ||| PAGE_WRITE)).foldl next w := by
  have hoffset : addr % FRAME_SIZE < FRAME_SIZE := Nat.mod_lt _ (by decide)
  unfold uacpi_kernel_map map_range rangeCalls
  simp only [offset_eq addr (by omega), foldl_pageCalls]
  rw [pages_eq len (addr % FRAME_SIZE) (by unfold FRAME_SIZE at *; omega)]

theorem map_mmio_eq (w : State) (phys_addr size : Nat) (h : phys_addr + size < 2 ^ 46) :
    map_mmio w phys_addr size = (PHYS2VIRT w.hhdm_addr phys_addr,
      (rangeCalls w (pageDown phys_addr) (phys_addr % FRAME_SIZE + size)
        (PAGE_PRESENT ||| PAGE_WRITE ||| PAGE_UNCACHE)).foldl next w) := by
  have hoffset : phys_addr % FRAME_SIZE < FRAME_SIZE := Nat.mod_lt _ (by decide)
  have hdown : pageDown phys_addr % FRAME_SIZE = 0 := Nat.mul_mod_left _ _
  unfold map_mmio map_range rangeCalls
  simp only [offset_eq phys_addr (by omega), foldl_pageCalls]
  rw [pages_eq size (phys_addr % FRAME_SIZE) (by unfold FRAME_SIZE at *; omega), hdown, Nat.zero_add,
    round_down_eq phys_addr (by omega)]
  refine Prod.ext ?_ rfl
  unfold PHYS2VIRT FRAME_SIZE
  omega

/-! ## Which pages -/

theorem mem_rangeCalls (w : State) (addr len flags : Nat) (op : Op) (hh : w.hhdm_addr % FRAME_SIZE = 0)
    (h : addr + len < 2 ^ 46) (hop : op ∈ rangeCalls w addr len flags) :
    ∃ k, k < (addr % FRAME_SIZE + len + (FRAME_SIZE - 1)) / FRAME_SIZE ∧
      op.page = (w.hhdm_addr / FRAME_SIZE + (addr / FRAME_SIZE + k)) % 2 ^ 36 ∧
      value op = (addr + k * FRAME_SIZE) ||| flags :=
  mem_pageCalls _ _ _ _ op hh (by unfold FRAME_SIZE; omega) hop

theorem rangeCalls_pages (w : State) (addr len flags page : Nat) (hh : w.hhdm_addr % FRAME_SIZE = 0)
    (h : addr + len < 2 ^ 46) (hlen : 0 < len) :
    (∃ op ∈ rangeCalls w addr len flags, op.page = page) ↔ Overlaps w addr len page := by
  constructor
  · rintro ⟨op, hop, rfl⟩
    obtain ⟨k, hk, hpage, -⟩ := mem_rangeCalls w addr len flags op hh h hop
    -- The first byte of the range in this page.
    refine ⟨max addr ((addr / FRAME_SIZE + k) * FRAME_SIZE), le_max_left _ _, ?_, ?_⟩
    · unfold FRAME_SIZE at *
      omega
    · rw [hpage, pageOf_direct _ _ hh]
      congr 2
      unfold FRAME_SIZE at *
      omega
  · rintro ⟨b, hle, hlt, rfl⟩
    refine ⟨_, List.mem_map.mpr ⟨b / FRAME_SIZE - addr / FRAME_SIZE, List.mem_range.mpr ?_, rfl⟩, ?_⟩
    · unfold FRAME_SIZE at *
      omega
    · rw [pageOf_direct _ _ hh, Op.page, pageOf_call _ _ _ hh]
      congr 2
      unfold FRAME_SIZE at *
      omega

/-! ## What is behind the calls -/

theorem rangeCalls_spec (w : State) (addr len flags : Nat) (hw : Tables w) (h : addr + len < 2 ^ 46)
    (hlen : 0 < len) (hlegal : Along step Legal w (rangeCalls w addr len flags)) :
    (∀ b, addr ≤ b → b < addr + len →
      pageEntry ((rangeCalls w addr len flags).foldl next w) (pageOf (PHYS2VIRT w.hhdm_addr b)) =
        (pageDown b + addr % FRAME_SIZE) ||| flags) ∧
    ∀ page, page < 2 ^ 36 → ¬ Overlaps w addr len page →
      pageEntry ((rangeCalls w addr len flags).foldl next w) page = pageEntry w page := by
  obtain ⟨-, hentries⟩ := foldl_next_agrees w (pageEntry w) _ ⟨hw, fun _ _ => rfl⟩ hlegal
  refine ⟨?_, ?_⟩
  · intro b hle hlt
    rw [hentries (pageOf (PHYS2VIRT w.hhdm_addr b)) (Nat.mod_lt _ (by decide))]
    apply foldl_apply_agree
    · exact (rangeCalls_pages w addr len flags _ hw.hhdm h hlen).mpr ⟨b, hle, hlt, rfl⟩
    · intro op hop hpage
      obtain ⟨k, hk, hpage', hvalue⟩ := mem_rangeCalls w addr len flags op hw.hhdm h hop
      rw [hpage', pageOf_direct _ _ hw.hhdm] at hpage
      rw [hvalue]
      congr 1
      unfold pageDown FRAME_SIZE at *
      omega
  · intro page hpage hno
    rw [hentries page hpage]
    apply foldl_apply_other
    intro op hop heq
    exact hno ((rangeCalls_pages w addr len flags page hw.hhdm h hlen).mp ⟨op, hop, heq⟩)

/-! ## Bytes -/

/-- The bytes of a range behind the calls: the flags have the offset of the first byte in them. -/
theorem rangeCalls_byte (w : State) (addr len flags : Nat) (hw : Tables w) (h : addr + len < 2 ^ 46)
    (hlen : 0 < len) (hlegal : Along step Legal w (rangeCalls w addr len flags)) (hflags : flags < FRAME_SIZE)
    (hpresent : flags % 2 = 1) (b : Nat) (hle : addr ≤ b) (hlt : b < addr + len) :
    translateByte ((rangeCalls w addr len flags).foldl next w) (PHYS2VIRT w.hhdm_addr b) =
      some (b, addr % FRAME_SIZE ||| flags) := by
  have hentry := (rangeCalls_spec w addr len flags hw h hlen hlegal).1 b hle hlt
  have hhdm := hw.hhdm
  have hbyte : pageDown b + PHYS2VIRT w.hhdm_addr b % FRAME_SIZE = b := by
    unfold pageDown PHYS2VIRT FRAME_SIZE at *
    omega
  have htranslation := translation_low _ _ (pageDown b) (addr % FRAME_SIZE) flags (Nat.mul_mod_left _ _)
    (by unfold pageDown FRAME_SIZE; omega) (Nat.mod_lt _ (by decide)) hflags hpresent hentry
  rw [translateByte, htranslation, Option.map_some, hbyte]

/-! ## The two callers -/

/-- `uacpi_kernel_map` does not round the address down, so that its offset is in the leaf
entries: they are right for the first four bytes of a page only. -/
theorem uacpi_kernel_map_iff (w : State) (addr len : Nat) (hw : Tables w) (hlen : 0 < len)
    (h : addr + len < 2 ^ 46)
    (hlegal : Along step Legal w (rangeCalls w addr len (PAGE_PRESENT ||| PAGE_WRITE))) :
    MapsRange w (uacpi_kernel_map w addr len).2 addr len (PAGE_PRESENT ||| PAGE_WRITE) ↔
      addr % FRAME_SIZE < 4 := by
  have hbyte := rangeCalls_byte w addr len _ hw h hlen hlegal (by decide) (by decide)
  rw [uacpi_kernel_map_eq w addr len h]
  constructor
  · intro hmaps
    have hfirst := hmaps.bytes addr (le_refl _) (by omega)
    rw [hbyte addr (le_refl _) (by omega), Option.some.injEq, Prod.mk.injEq] at hfirst
    exact (or_ones_iff (addr % FRAME_SIZE) 2).mp hfirst.2
  · intro hsmall
    refine ⟨?_, (rangeCalls_spec w addr len _ hw h hlen hlegal).2⟩
    intro b hle hlt
    rw [hbyte b hle hlt]
    exact congrArg (fun flags => some (b, flags)) ((or_ones_iff (addr % FRAME_SIZE) 2).mpr hsmall)

theorem clearTables_pageCalls (phys virt flags n : Nat) (hflags : flags < 2 ^ 64) (hn : n ≤ 2 ^ 18) :
    Along step Legal clearTables (pageCalls phys virt flags n) := by
  apply supply_legal _ _ clearTables_start rfl
  · apply clearTables_supply
    rw [pageCalls, List.length_map, List.length_range]
    omega
  · intro op hop
    obtain ⟨k, -, rfl⟩ := List.mem_map.mp hop
    exact ⟨Nat.mod_lt _ (by decide), hflags⟩

theorem clearTables_range (addr len flags : Nat) (hflags : flags < 2 ^ 64) (hlen : addr + len < 2 ^ 28) :
    Along step Legal clearTables (rangeCalls clearTables addr len flags) :=
  clearTables_pageCalls _ _ flags _ hflags (by unfold FRAME_SIZE; omega)

theorem uacpi_kernel_map_iff_low :
    MapsRange clearTables (uacpi_kernel_map clearTables 0x5002 0x1ffe).2 0x5002 0x1ffe 3 := by
  have hlegal := clearTables_range 0x5002 0x1ffe 3 (by decide) (by decide)
  exact (uacpi_kernel_map_iff clearTables 0x5002 0x1ffe clearTables_start.tables.1 (by decide) (by decide)
    hlegal).mpr (by decide)

/-- An ACPI table at `0x5018`: its page is uncached and written through. -/
theorem uacpi_kernel_map_extra_flags :
    Tables clearTables ∧ Along step Legal clearTables (rangeCalls clearTables 0x5018 0x24 3) ∧
    translateByte (uacpi_kernel_map clearTables 0x5018 0x24).2 (PHYS2VIRT clearTables.hhdm_addr 0x5018) =
      some (0x5018, 0x1b) ∧
    ¬ MapsRange clearTables (uacpi_kernel_map clearTables 0x5018 0x24).2 0x5018 0x24 3 := by
  have hlegal := clearTables_range 0x5018 0x24 3 (by decide) (by decide)
  have hbyte : translateByte (uacpi_kernel_map clearTables 0x5018 0x24).2
      (PHYS2VIRT clearTables.hhdm_addr 0x5018) = some (0x5018, 0x1b) := by
    rw [uacpi_kernel_map_eq clearTables 0x5018 0x24 (by decide)]
    exact rangeCalls_byte clearTables 0x5018 0x24 3 clearTables_start.tables.1 (by decide) (by decide) hlegal
      (by decide) (by decide) 0x5018 (le_refl _) (by decide)
  refine ⟨clearTables_start.tables.1, hlegal, hbyte, ?_⟩
  intro hmaps
  have := hbyte.symm.trans (hmaps.bytes 0x5018 (le_refl _) (by decide))
  exact absurd this (by decide)

theorem overlaps_pageDown (w : State) (addr len page : Nat) (hh : w.hhdm_addr % FRAME_SIZE = 0) (hlen : 0 < len) :
    Overlaps w (pageDown addr) (addr % FRAME_SIZE + len) page ↔ Overlaps w addr len page := by
  have hsplit : pageDown addr + addr % FRAME_SIZE = addr := by unfold pageDown FRAME_SIZE; omega
  constructor
  · rintro ⟨b, hle, hlt, hpage⟩
    refine ⟨max b addr, le_max_right _ _, by omega, ?_⟩
    rw [hpage, pageOf_direct _ _ hh, pageOf_direct _ _ hh]
    congr 2
    unfold pageDown FRAME_SIZE at *
    omega
  · rintro ⟨b, hle, hlt, hpage⟩
    exact ⟨b, by omega, by omega, hpage⟩

/-- `map_mmio` maps every byte of the range to where its pointer says, uncached, and it
writes the pages of the range and no others. -/
theorem map_mmio_maps (w : State) (phys_addr size : Nat) (hw : Tables w) (hsize : 0 < size)
    (h : phys_addr + size < 2 ^ 46)
    (hlegal : Along step Legal w (rangeCalls w (pageDown phys_addr) (phys_addr % FRAME_SIZE + size)
      (PAGE_PRESENT ||| PAGE_WRITE ||| PAGE_UNCACHE))) :
    (∀ k, k < size →
      translateByte (map_mmio w phys_addr size).2 (((map_mmio w phys_addr size).1 + k) % 2 ^ 64) =
        some (phys_addr + k, PAGE_PRESENT ||| PAGE_WRITE ||| PAGE_UNCACHE)) ∧
    (∃ ops : List Op, (map_mmio w phys_addr size).2 = ops.foldl next w ∧
      ∀ page, (∃ op ∈ ops, op.page = page) ↔ Overlaps w phys_addr size page) ∧
    ∀ page, page < 2 ^ 36 → ¬ Overlaps w phys_addr size page →
      pageEntry (map_mmio w phys_addr size).2 page = pageEntry w page := by
  have hsplit : pageDown phys_addr + phys_addr % FRAME_SIZE = phys_addr := by unfold pageDown FRAME_SIZE; omega
  have hdown : pageDown phys_addr % FRAME_SIZE = 0 := Nat.mul_mod_left _ _
  have hbyte := rangeCalls_byte w _ _ _ hw (by omega) (by omega) hlegal (by decide) (by decide)
  rw [map_mmio_eq w phys_addr size h]
  refine ⟨?_, ⟨_, rfl, ?_⟩, ?_⟩
  · intro k hk
    have hvirt : (PHYS2VIRT w.hhdm_addr phys_addr + k) % 2 ^ 64 = PHYS2VIRT w.hhdm_addr (phys_addr + k) := by
      unfold PHYS2VIRT
      omega
    rw [hvirt, hbyte (phys_addr + k) (by omega) (by omega), hdown, Nat.zero_or]
  · intro page
    rw [rangeCalls_pages w _ _ _ page hw.hhdm (by omega) (by omega), overlaps_pageDown w _ _ _ hw.hhdm hsize]
  · intro page hpage hno
    apply (rangeCalls_spec w _ _ _ hw (by omega) (by omega) hlegal).2 page hpage
    rw [overlaps_pageDown w _ _ _ hw.hhdm hsize]
    exact hno

theorem map_mmio_maps_straddling :
    translateByte (map_mmio clearTables 0x1fffff8 16).2 (((map_mmio clearTables 0x1fffff8 16).1 + 15) % 2 ^ 64) =
      some (0x2000007, 0x13) := by
  have hlegal := clearTables_range (pageDown 0x1fffff8) (0x1fffff8 % FRAME_SIZE + 16) 0x13 (by decide) (by decide)
  exact (map_mmio_maps clearTables 0x1fffff8 16 clearTables_start.tables.1 (by decide) (by decide) hlegal).1 15
    (by decide)

end SlayerOS.Ranges
