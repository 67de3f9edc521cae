import SlayerOS.Mapper.Protection
import SlayerOS.Paging.Tlb
import SlayerOS.Ranges.Proofs

/-!
# Device windows (`lapic.cc`, `ioapic.cc`, `acpi_kapi.cc`)

Behind the first map, the kernel maps devices and ACPI tables into the direct map, and never unmaps
any. However many there are, an address of the direct map leads to its own byte or nowhere.
-/

open SlayerOS.Bytes SlayerOS.Run
open SlayerOS.Frames (FRAME_SIZE)
open SlayerOS.Paging SlayerOS.Mapper

namespace SlayerOS.Ranges

/-- The callers that map something. -/
inductive Use where
  | map_mmio (phys_addr size : Nat)
  | uacpi_kernel_map (addr len : Nat)
  | uacpi_kernel_unmap (virt len : Nat)
  /-- `LAPIC::init`, with what the register of the base holds. -/
  | lapic_init (msr_val : Nat)
  /-- One IOAPIC of `Sys::IOAPIC::init`. -/
  | ioapic_init (address : Nat)
deriving DecidableEq, Repr

def lapic_phys (msr_val : Nat) : Nat := msr_val &&& 0xFFFFF000

/-- A call for the page of one device. -/
def map_device (w : State) (phys_addr : Nat) : State :=
  next w (.map phys_addr (PHYS2VIRT w.hhdm_addr phys_addr) (PAGE_PRESENT ||| PAGE_WRITE))

def perform (w : State) : Use → State
  | .map_mmio phys_addr size => (map_mmio w phys_addr size).2
  | .uacpi_kernel_map addr len => (uacpi_kernel_map w addr len).2
  | .uacpi_kernel_unmap _ _ => w
  | .lapic_init msr_val => map_device w (lapic_phys msr_val)
  | .ioapic_init address => map_device w address

def perform_all (w : State) (uses : List Use) : State := uses.foldl perform w

/-- The bytes of the pages that hold what a caller is going to use. -/
def Use.Covers : Use → Nat → Prop
  | .map_mmio phys_addr size, b => pageDown phys_addr ≤ b ∧ b < pageUp (phys_addr + size)
  | .uacpi_kernel_map addr len, b => pageDown addr ≤ b ∧ b < pageUp (addr + len)
  | .uacpi_kernel_unmap _ _, _ => False
  | .lapic_init msr_val, b => pageDown b = lapic_phys msr_val
  | .ioapic_init address, b => pageDown b = pageDown address

/-- Physical addresses of 46 bits. The address of an IOAPIC is a `u32`. -/
def Use.Ok : Use → Prop
  | .map_mmio phys_addr size => phys_addr + size < 2 ^ 46
  | .uacpi_kernel_map addr len => addr + len < 2 ^ 46
  | .uacpi_kernel_unmap _ _ => True
  | .lapic_init _ => True
  | .ioapic_init address => address < 2 ^ 32

/-- The calls of `Mem::Paging::map`. -/
def Use.calls (hhdm_addr : Nat) : Use → List Op
  | .map_mmio phys_addr size =>
    pageCalls (pageDown phys_addr) (PHYS2VIRT hhdm_addr (pageDown phys_addr))
      (PAGE_PRESENT ||| PAGE_WRITE ||| PAGE_UNCACHE) ((phys_addr % FRAME_SIZE + size + (FRAME_SIZE - 1)) / FRAME_SIZE)
  | .uacpi_kernel_map addr len =>
    pageCalls addr (PHYS2VIRT hhdm_addr addr) (PAGE_PRESENT ||| PAGE_WRITE)
      ((addr % FRAME_SIZE + len + (FRAME_SIZE - 1)) / FRAME_SIZE)
  | .uacpi_kernel_unmap _ _ => []
  | .lapic_init msr_val =>
    pageCalls (lapic_phys msr_val) (PHYS2VIRT hhdm_addr (lapic_phys msr_val)) (PAGE_PRESENT ||| PAGE_WRITE) 1
  | .ioapic_init address => pageCalls address (PHYS2VIRT hhdm_addr address) (PAGE_PRESENT ||| PAGE_WRITE) 1

def allCalls (hhdm_addr : Nat) (uses : List Use) : List Op := uses.flatMap (Use.calls hhdm_addr)

/-! ## The direct map -/

/-- The frames of the first 2 ^ 46 bytes. -/
def FRAMES : Nat := 2 ^ 34

def directPage (hhdm_addr k : Nat) : Nat := (hhdm_addr / FRAME_SIZE + k) % 2 ^ 36

/-- A call for a page of the direct map, to the frame of the same number. -/
structure Direct (hhdm_addr : Nat) (op : Op) (k : Nat) : Prop where
  lt : k < FRAMES
  page : op.page = directPage hhdm_addr k
  value : ∃ offset flags, offset < FRAME_SIZE ∧ flags < FRAME_SIZE ∧ flags % 2 = 1 ∧
    Mapper.value op = (FRAME_SIZE * k + offset) ||| flags

theorem directPage_inj {hhdm_addr k j : Nat} (hk : k < FRAMES) (hj : j < FRAMES)
    (h : directPage hhdm_addr k = directPage hhdm_addr j) : k = j := by
  unfold directPage FRAMES at *
  omega

theorem pageCalls_direct {hhdm_addr addr flags n : Nat} {op : Op} (hh : hhdm_addr % FRAME_SIZE = 0)
    (h : addr / FRAME_SIZE + n ≤ FRAMES) (hflags : flags < FRAME_SIZE) (hpresent : flags % 2 = 1)
    (hop : op ∈ pageCalls addr (PHYS2VIRT hhdm_addr addr) flags n) :
    ∃ k < n, Direct hhdm_addr op (addr / FRAME_SIZE + k) := by
  obtain ⟨k, hk, hpage, hvalue⟩ := mem_pageCalls hhdm_addr addr flags n op hh (by
    unfold FRAMES FRAME_SIZE at *
    omega) hop
  refine ⟨k, hk, by omega, hpage, addr % FRAME_SIZE, flags, Nat.mod_lt _ (by decide), hflags, hpresent, ?_⟩
  rw [hvalue]
  congr 1
  unfold FRAME_SIZE
  omega

theorem Use.Ok.covers_lt {u : Use} (hu : u.Ok) {b : Nat} (hb : u.Covers b) : b < 2 ^ 46 := by
  cases u with
  | map_mmio phys_addr size =>
    have hok : phys_addr + size < 2 ^ 46 := hu
    have hhi := hb.2
    unfold pageUp FRAME_SIZE at hhi
    omega
  | uacpi_kernel_map addr len =>
    have hok : addr + len < 2 ^ 46 := hu
    have hhi := hb.2
    unfold pageUp FRAME_SIZE at hhi
    omega
  | uacpi_kernel_unmap virt len => exact hb.elim
  | lapic_init msr_val =>
    have hsmall : lapic_phys msr_val ≤ 0xFFFFF000 := Nat.and_le_right
    have hpage : pageDown b = lapic_phys msr_val := hb
    unfold pageDown FRAME_SIZE at hpage
    omega
  | ioapic_init address =>
    have hok : address < 2 ^ 32 := hu
    have hpage : pageDown b = pageDown address := hb
    unfold pageDown FRAME_SIZE at hpage
    omega

/-- What a caller maps is in the direct map, and it is what it covers. -/
theorem calls_direct {hhdm_addr : Nat} (hh : hhdm_addr % FRAME_SIZE = 0) {u : Use} (hu : u.Ok) {op : Op}
    (hop : op ∈ u.calls hhdm_addr) : ∃ k, Direct hhdm_addr op k ∧ u.Covers (FRAME_SIZE * k) := by
  cases u with
  | map_mmio phys_addr size =>
    have hok : phys_addr + size < 2 ^ 46 := hu
    obtain ⟨k, hk, hdirect⟩ :=
      pageCalls_direct hh (by unfold FRAMES pageDown FRAME_SIZE; omega) (by decide) (by decide) hop
    refine ⟨_, hdirect, ?_, ?_⟩
    · unfold pageDown FRAME_SIZE
      omega
    · unfold pageDown pageUp FRAME_SIZE at *
      omega
  | uacpi_kernel_map addr len =>
    have hok : addr + len < 2 ^ 46 := hu
    obtain ⟨k, hk, hdirect⟩ := pageCalls_direct hh (by unfold FRAMES FRAME_SIZE; omega) (by decide) (by decide) hop
    refine ⟨_, hdirect, ?_, ?_⟩
    · unfold pageDown FRAME_SIZE
      omega
    · unfold pageUp FRAME_SIZE at *
      omega
  | uacpi_kernel_unmap virt len => cases hop
  | lapic_init msr_val =>
    have hsmall : lapic_phys msr_val ≤ 0xFFFFF000 := Nat.and_le_right
    obtain ⟨k, hk, hdirect⟩ := pageCalls_direct hh (by unfold FRAMES FRAME_SIZE; omega) (by decide) (by decide) hop
    have haligned : lapic_phys msr_val % FRAME_SIZE = 0 := by
      unfold lapic_phys
      rw [show (0xFFFFF000 : Nat) = (2 ^ 20 - 1) <<< 12 from rfl, land_shifted]
      exact Nat.mul_mod_left _ _
    refine ⟨_, hdirect, ?_⟩
    unfold Use.Covers pageDown FRAME_SIZE at *
    omega
  | ioapic_init address =>
    have hok : address < 2 ^ 32 := hu
    obtain ⟨k, hk, hdirect⟩ := pageCalls_direct hh (by unfold FRAMES FRAME_SIZE; omega) (by decide) (by decide) hop
    refine ⟨_, hdirect, ?_⟩
    unfold Use.Covers pageDown FRAME_SIZE at *
    omega

theorem directPage_byte (hhdm_addr b : Nat) (hh : hhdm_addr % FRAME_SIZE = 0) :
    pageOf (PHYS2VIRT hhdm_addr b) = directPage hhdm_addr (b / FRAME_SIZE) := pageOf_direct hhdm_addr b hh

theorem covers_call {hhdm_addr : Nat} (hh : hhdm_addr % FRAME_SIZE = 0) {u : Use} {b : Nat} (hb : u.Covers b) :
    ∃ op ∈ u.calls hhdm_addr, op.page = directPage hhdm_addr (b / FRAME_SIZE) := by
  have hcall : ∀ addr flags n k, k < n → b / FRAME_SIZE = addr / FRAME_SIZE + k →
      ∃ op ∈ pageCalls addr (PHYS2VIRT hhdm_addr addr) flags n, op.page = directPage hhdm_addr (b / FRAME_SIZE) := by
    intro addr flags n k hk hpage
    refine ⟨_, List.mem_map.mpr ⟨k, List.mem_range.mpr hk, rfl⟩, ?_⟩
    rw [hpage]
    exact pageOf_call hhdm_addr addr k hh
  cases u with
  | map_mmio phys_addr size =>
    obtain ⟨hlo, hhi⟩ := hb
    unfold pageDown at hlo
    unfold pageUp at hhi
    refine hcall _ _ _ (b / FRAME_SIZE - phys_addr / FRAME_SIZE) ?_ ?_ <;> unfold pageDown FRAME_SIZE at * <;> omega
  | uacpi_kernel_map addr len =>
    obtain ⟨hlo, hhi⟩ := hb
    unfold pageDown at hlo
    unfold pageUp at hhi
    refine hcall _ _ _ (b / FRAME_SIZE - addr / FRAME_SIZE) ?_ ?_ <;> unfold FRAME_SIZE at * <;> omega
  | uacpi_kernel_unmap virt len => exact hb.elim
  | lapic_init msr_val =>
    have hpage : pageDown b = lapic_phys msr_val := hb
    refine hcall _ _ 1 0 (by decide) ?_
    unfold pageDown FRAME_SIZE at *
    omega
  | ioapic_init address =>
    have hpage : pageDown b = pageDown address := hb
    refine hcall _ _ 1 0 (by decide) ?_
    unfold pageDown FRAME_SIZE at *
    omega

/-! ## The calls of all callers -/

theorem foldl_next_hhdm (w : State) (ops : List Op) : (ops.foldl next w).hhdm_addr = w.hhdm_addr := by
  induction ops generalizing w with
  | nil => rfl
  | cons op ops ih => rw [List.foldl_cons, ih, (next_later w op).hhdm]

theorem map_device_eq (w : State) (phys_addr : Nat) (h : phys_addr < 2 ^ 64) :
    map_device w phys_addr =
      (pageCalls phys_addr (PHYS2VIRT w.hhdm_addr phys_addr) (PAGE_PRESENT ||| PAGE_WRITE) 1).foldl next w := by
  have hvirt : PHYS2VIRT w.hhdm_addr phys_addr < 2 ^ 64 := Nat.mod_lt _ (by decide)
  change _ = next w (.map ((phys_addr + 0 * FRAME_SIZE) % 2 ^ 64)
    ((PHYS2VIRT w.hhdm_addr phys_addr + 0 * FRAME_SIZE) % 2 ^ 64) (PAGE_PRESENT ||| PAGE_WRITE))
  rw [Nat.zero_mul, Nat.add_zero, Nat.add_zero, Nat.mod_eq_of_lt h, Nat.mod_eq_of_lt hvirt]
  rfl

theorem perform_eq (w : State) (u : Use) (hu : u.Ok) : perform w u = (u.calls w.hhdm_addr).foldl next w := by
  cases u with
  | map_mmio phys_addr size =>
    have hdown : pageDown phys_addr % FRAME_SIZE = 0 := Nat.mul_mod_left _ _
    rw [perform, map_mmio_eq w phys_addr size hu, rangeCalls, hdown, Nat.zero_add]
    rfl
  | uacpi_kernel_map addr len =>
    rw [perform, uacpi_kernel_map_eq w addr len hu]
    rfl
  | uacpi_kernel_unmap virt len => rfl
  | lapic_init msr_val =>
    have hsmall : lapic_phys msr_val ≤ 0xFFFFF000 := Nat.and_le_right
    exact map_device_eq w _ (by omega)
  | ioapic_init address => exact map_device_eq w _ (Nat.lt_trans hu (by decide))

theorem perform_all_eq (w : State) (uses : List Use) (huses : ∀ u ∈ uses, u.Ok) :
    perform_all w uses = (allCalls w.hhdm_addr uses).foldl next w := by
  induction uses generalizing w with
  | nil => rfl
  | cons u uses ih =>
    have hu := perform_eq w u (huses u (by simp))
    have hrest := ih (perform w u) fun u' hu' => huses u' (List.mem_cons_of_mem u hu')
    change perform_all (perform w u) uses = _
    rw [hrest, hu, foldl_next_hhdm, ← List.foldl_append]
    rfl

theorem foldl_apply_last (ops : List Op) (f : Nat → Nat) (page : Nat) :
    ((∀ op ∈ ops, op.page ≠ page) ∧ ops.foldl Op.apply f page = f page) ∨
      ∃ op ∈ ops, op.page = page ∧ ops.foldl Op.apply f page = value op := by
  induction ops generalizing f with
  | nil => exact Or.inl ⟨by simp, rfl⟩
  | cons op ops ih =>
    rw [List.foldl_cons]
    rcases ih (op.apply f) with ⟨hnone, hsame⟩ | ⟨o, ho, hpage, hvalue⟩
    · by_cases hpage : op.page = page
      · right
        refine ⟨op, by simp, hpage, ?_⟩
        rw [hsame, apply_eq, hpage, Function.update_self]
      · left
        refine ⟨?_, ?_⟩
        · intro o ho
          rcases List.mem_cons.mp ho with rfl | ho
          · exact hpage
          · exact hnone o ho
        · rw [hsame, apply_eq]
          exact Function.update_of_ne (Ne.symm hpage) _ _
    · exact Or.inr ⟨o, List.mem_cons_of_mem op ho, hpage, hvalue⟩

theorem translation_congr {w w' : State} {page : Nat} (h : pageEntry w' page = pageEntry w page) :
    translation w' page = translation w page := by
  unfold translation
  rw [h]

section

variable {w : State} {uses : List Use} (hw : Tables w) (huses : ∀ u ∈ uses, u.Ok)
  (hlegal : Along step Legal w (allCalls w.hhdm_addr uses))

include hw huses hlegal

theorem perform_all_entry (page : Nat) (hpage : page < 2 ^ 36) :
    pageEntry (perform_all w uses) page = (allCalls w.hhdm_addr uses).foldl Op.apply (pageEntry w) page := by
  rw [perform_all_eq w uses huses]
  exact (foldl_next_agrees w (pageEntry w) _ ⟨hw, fun _ _ => rfl⟩ hlegal).2 page hpage

/-- A page that no caller maps keeps its translation. Any other one leads to the frame of its
number from then on. -/
theorem perform_all_page (page : Nat) (hpage : page < 2 ^ 36) :
    ((∀ op ∈ allCalls w.hhdm_addr uses, op.page ≠ page) ∧
        translation (perform_all w uses) page = translation w page) ∨
      ∃ k flags, k < FRAMES ∧ page = directPage w.hhdm_addr k ∧ (∃ u ∈ uses, u.Covers (FRAME_SIZE * k)) ∧
        translation (perform_all w uses) page = some (FRAME_SIZE * k, flags) := by
  have hentry := perform_all_entry hw huses hlegal page hpage
  rcases foldl_apply_last (allCalls w.hhdm_addr uses) (pageEntry w) page with ⟨hnone, hsame⟩ | ⟨op, hop, hon, hvalue⟩
  · exact Or.inl ⟨hnone, translation_congr (hentry.trans hsame)⟩
  · right
    obtain ⟨u, hu, hcall⟩ := List.mem_flatMap.mp hop
    obtain ⟨k, hk, hcovers⟩ := calls_direct hw.hhdm (huses u hu) hcall
    obtain ⟨offset, flags, hoffset, hflags, hpresent, hop'⟩ := hk.value
    have hlt := hk.lt
    refine ⟨k, offset ||| flags, hlt, hon ▸ hk.page, ⟨u, hu, hcovers⟩, ?_⟩
    apply translation_low _ _ _ _ _ (Nat.mul_mod_right _ _) _ hoffset hflags hpresent
    · rw [hentry, hvalue, hop']
    · unfold FRAMES FRAME_SIZE at *
      omega

theorem perform_all_covered (u : Use) (hu : u ∈ uses) (b : Nat) (hb : u.Covers b) :
    ∃ flags, translation (perform_all w uses) (directPage w.hhdm_addr (b / FRAME_SIZE)) = some (pageDown b, flags) := by
  obtain ⟨op, hop, hpage⟩ := covers_call hw.hhdm hb
  have hsmall := (huses u hu).covers_lt hb
  have hlt : b / FRAME_SIZE < FRAMES := by
    unfold FRAMES FRAME_SIZE
    omega
  rcases perform_all_page hw huses hlegal (directPage w.hhdm_addr (b / FRAME_SIZE)) (Nat.mod_lt _ (by decide)) with
    ⟨hnone, -⟩ | ⟨k, flags, hk, hsame, -, htranslation⟩
  · exact absurd hpage (hnone op (List.mem_flatMap.mpr ⟨u, hu, hop⟩))
  · obtain rfl := directPage_inj hlt hk hsame
    refine ⟨flags, ?_⟩
    rw [htranslation, pageDown, Nat.mul_comm]

end

/-! ## From the boot on -/

/-- What holds behind the first map, however much is mapped then. -/
structure Kept (w : State) (ctx : BootCtx) (ld : Linkage) (uses : List Use) : Prop where
  /-- An address of the direct map leads to its own byte, or nowhere. -/
  straight : ∀ b < 2 ^ 46, ∀ p flags, translateByte w (PHYS2VIRT ctx.hhdm_addr b) = some (p, flags) → p = b
  /-- What a caller has mapped stays there. -/
  covered : ∀ u ∈ uses, ∀ b, u.Covers b → ∃ flags, translateByte w (PHYS2VIRT ctx.hhdm_addr b) = some (b, flags)
  /-- No page of the memory goes away. -/
  memory : ∀ e ∈ ctx.memmap_entries, e.Mapped → ∀ k, k < e.length / FRAME_SIZE →
    translation w (pageOf (ctx.hhdm_addr + e.base + FRAME_SIZE * k)) ≠ none
  kernel : ∀ s ∈ sections ld, ∀ v, s.Page v → translation w (pageOf v) = some (physOf ctx v, s.flags)

/-- No device lies over the code or the constants of the kernel. -/
def UsesApart (ctx : BootCtx) (ld : Linkage) (uses : List Use) : Prop :=
  ∀ u ∈ uses, ∀ s ∈ [text ld, rodata ld], ∀ v, s.Page v → ¬ u.Covers (physOf ctx v)

section

variable {w : State} {ctx : BootCtx} {ld : Linkage} {uses : List Use}

theorem full_map_straight (hb : Booted w ctx ld) (hh : ctx.hhdm_addr % FRAME_SIZE = 0)
    (hroom : ctx.hhdm_addr + 2 ^ 46 ≤ ctx.kern_address_virt) {u : State} (hmaps : Maps u ctx ld) (k : Nat)
    (hk : k < FRAMES) (p flags : Nat) (h : translation u (directPage ctx.hhdm_addr k) = some (p, flags)) :
    p = FRAME_SIZE * k := by
  have hhalf := hb.half
  rcases hmaps.nothing (directPage ctx.hhdm_addr k) (Nat.mod_lt _ (by decide)) (by simp [h]) with
    ⟨e, he, hm, i, hi, hpage⟩ | ⟨s, hs, v, hv, hpage⟩
  · obtain ⟨hbase, hle, -, hdirect⟩ := hb.entry_bounds he hm hi
    rw [hpage, hmaps.memory e he hm i hi] at h
    obtain ⟨rfl, -⟩ := Prod.mk.inj (Option.some.inj h)
    unfold directPage pageOf FRAMES FRAME_SIZE at *
    omega
  · obtain ⟨hlow, hvirt, hhigh, -, -⟩ := hb.page_bounds hs hv
    unfold directPage pageOf FRAMES FRAME_SIZE at *
    omega

theorem section_not_direct (hb : Booted w ctx ld) (hh : ctx.hhdm_addr % FRAME_SIZE = 0)
    (hroom : ctx.hhdm_addr + 2 ^ 46 ≤ ctx.kern_address_virt) {s : Section} (hs : s ∈ sections ld) {v : Nat}
    (hv : s.Page v) (k : Nat) (hk : k < FRAMES) : pageOf v ≠ directPage ctx.hhdm_addr k := by
  obtain ⟨hlow, hvirt, hhigh, -, -⟩ := hb.page_bounds hs hv
  have hhalf := hb.half
  intro hpage
  unfold directPage pageOf FRAMES FRAME_SIZE at *
  omega

end

/-- The direct map stays straight over any number of device windows: no page that was mapped goes
away or leads elsewhere, and the kernel's own pages do not change. Code and constants stay
protected as long as no window is over them. -/
theorem perform_all_keeps (w : State) (ctx : BootCtx) (ld : Linkage) (uses : List Use) (hw : Start w)
    (hb : Booted w ctx ld) (hlast : EndsEarly ld) (hroom : ctx.hhdm_addr + 2 ^ 46 ≤ ctx.kern_address_virt)
    (huses : ∀ u ∈ uses, u.Ok) (hframes : Along step Legal w (fullCalls ctx ld ++ allCalls ctx.hhdm_addr uses)) :
    Kept (perform_all (full_map w ctx ld) uses) ctx ld uses ∧
      (FramebufferApart ctx ld → UsesApart ctx ld uses →
        WriteProtected (perform_all (full_map w ctx ld) uses) ctx ld) := by
  obtain ⟨hfull, hrest⟩ := (along_append w _ _).mp hframes
  have hmaps := full_map_maps hw hb hlast hfull
  have heq := full_map_eq w ctx ld hlast
  have htables : Tables (full_map w ctx ld) := by
    rw [heq]
    exact (foldl_next_agrees w _ (fullCalls ctx ld) hw.agrees hfull).1
  have hhdm : (full_map w ctx ld).hhdm_addr = ctx.hhdm_addr := by rw [heq, foldl_next_hhdm, hb.hhdm]
  have hh : ctx.hhdm_addr % FRAME_SIZE = 0 := hb.hhdm ▸ hw.hhdm
  have hlegal : Along step Legal (full_map w ctx ld) (allCalls (full_map w ctx ld).hhdm_addr uses) := by
    rw [hhdm, heq]
    exact hrest _ (run_next w _)
  have hpage := perform_all_page htables huses hlegal
  have hcovered := perform_all_covered htables huses hlegal
  rw [hhdm] at hpage hcovered
  have hbyte : ∀ b, pageDown b + PHYS2VIRT ctx.hhdm_addr b % FRAME_SIZE = b := by
    intro b
    unfold pageDown PHYS2VIRT FRAME_SIZE at *
    omega
  have hsection : ∀ s ∈ sections ld, ∀ v, s.Page v →
      translation (perform_all (full_map w ctx ld) uses) (pageOf v) = some (physOf ctx v, s.flags) := by
    intro s hs v hv
    rcases hpage (pageOf v) (Nat.mod_lt _ (by decide)) with ⟨-, hsame⟩ | ⟨k, flags, hk, hdirect, -⟩
    · rw [hsame, hmaps.kernel s hs v hv]
    · exact absurd hdirect (section_not_direct hb hh hroom hs hv k hk)
  refine ⟨⟨?_, ?_, ?_, hsection⟩, ?_⟩
  · intro b hb' p flags htranslation
    obtain ⟨⟨q, f⟩, hq, hp⟩ := Option.map_eq_some_iff.mp htranslation
    obtain ⟨rfl, -⟩ := Prod.mk.inj hp
    have hk : b / FRAME_SIZE < FRAMES := by
      unfold FRAMES FRAME_SIZE
      omega
    have hframe : q = FRAME_SIZE * (b / FRAME_SIZE) := by
      rw [directPage_byte _ b hh] at hq
      rcases hpage (directPage ctx.hhdm_addr (b / FRAME_SIZE)) (Nat.mod_lt _ (by decide)) with
        ⟨-, hsame⟩ | ⟨j, flags', hj, hdirect, -, hnew⟩
      · rw [hsame] at hq
        exact full_map_straight hb hh hroom hmaps _ hk q f hq
      · rw [hnew, ← directPage_inj hk hj hdirect] at hq
        exact (Prod.mk.inj (Option.some.inj hq)).1.symm
    have := hbyte b
    rw [hframe, Nat.mul_comm]
    exact this
  · intro u hu b hcovers
    obtain ⟨flags, htranslation⟩ := hcovered u hu b hcovers
    refine ⟨flags, ?_⟩
    rw [translateByte, directPage_byte _ b hh, htranslation, Option.map_some, hbyte b]
  · intro e he hm k hk
    rcases hpage (pageOf (ctx.hhdm_addr + e.base + FRAME_SIZE * k)) (Nat.mod_lt _ (by decide)) with
      ⟨-, hsame⟩ | ⟨j, flags, -, -, -, hnew⟩
    · rw [hsame, hmaps.memory e he hm k hk]
      simp
    · rw [hnew]
      simp
  · intro hfb hapart s hs v hv page hpage' p flags htranslation hwrite
    rcases hpage page hpage' with ⟨-, hsame⟩ | ⟨k, flags', -, -, ⟨u, hu, hcovers⟩, hnew⟩
    · rw [hsame] at htranslation
      exact hmaps.write_protected hb hfb s hs v hv page hpage' p flags htranslation hwrite
    · rw [hnew] at htranslation
      obtain ⟨rfl, -⟩ := Prod.mk.inj (Option.some.inj htranslation)
      rintro hphys
      rw [hphys] at hcovers
      exact hapart u hu s hs v hv hcovers

/-! ## A machine -/

/-- The local APIC, an IOAPIC, a table of ACPI in the middle of a page, and the HPET. -/
def machine_uses : List Use :=
  [.uacpi_kernel_map 0x1ffe0014 36, .ioapic_init 0xfec00000, .lapic_init 0xfee00900, .map_mmio 0xfed00000 0x400]

theorem machine_uses_ok (op : Op) (hop : op ∈ allCalls 0xffff800000000000 machine_uses) : op.Ok := by
  have hpages : ∀ addr virt flags n, flags < 2 ^ 64 → op ∈ pageCalls addr virt flags n → op.Ok := by
    intro addr virt flags n hflags hmem
    obtain ⟨k, -, rfl⟩ := List.mem_map.mp hmem
    exact ⟨Nat.mod_lt _ (by decide), hflags⟩
  obtain ⟨u, hu, hcall⟩ := List.mem_flatMap.mp hop
  simp only [machine_uses, List.mem_cons, List.not_mem_nil, or_false] at hu
  rcases hu with rfl | rfl | rfl | rfl <;> exact hpages _ _ _ _ (by decide) hcall

/-- Every register of the local APIC is where `LAPIC::read` looks for it. -/
theorem perform_all_keeps_machine :
    ∃ flags, translateByte
      (perform_all (full_map clearTables (bootCtx 0xfd000000 0x5000) (linkage 0xffffffff80003000 0xffffffff80004800))
        machine_uses) (PHYS2VIRT 0xffff800000000000 0xfee00320) = some (0xfee00320, flags) := by
  have hb : Booted clearTables (bootCtx 0xfd000000 0x5000) (linkage 0xffffffff80003000 0xffffffff80004800) :=
    bootCtx_booted _ _ _ _ (by decide) (by decide) (by decide)
  have hframes : Along step Legal clearTables
      (fullCalls (bootCtx 0xfd000000 0x5000) (linkage 0xffffffff80003000 0xffffffff80004800) ++
        allCalls 0xffff800000000000 machine_uses) := by
    refine supply_legal clearTables _ clearTables_start rfl (clearTables_supply _ (by decide)) ?_
    intro op hop
    rcases List.mem_append.mp hop with hop | hop
    · exact fullCalls_ok hb op hop
    · exact machine_uses_ok op hop
  have huses : ∀ u ∈ machine_uses, u.Ok := by simp [machine_uses, Use.Ok]
  exact (perform_all_keeps _ _ _ machine_uses clearTables_start hb (by decide) (by decide) huses hframes).1.covered
    (.lapic_init 0xfee00900) (by decide) 0xfee00320 (by unfold Use.Covers; decide)

end SlayerOS.Ranges
