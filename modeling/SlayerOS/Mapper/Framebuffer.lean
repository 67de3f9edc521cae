import SlayerOS.Mapper.Protection

/-!
# Frame buffers that do not fill their pages

The boot loader aligns usable and reclaimable memory only. A frame buffer may start and end
inside a page. `map_framebuffer_memory` counts whole pages, and gives its start to `map`
as it is, so that a last page can be missing and the flags can have the start in them.
-/

open SlayerOS.Bytes SlayerOS.Run
open SlayerOS.Frames (FRAME_SIZE sub64)
open SlayerOS.Paging

namespace SlayerOS.Mapper

/-- What the boot loader promises: whole pages of usable and reclaimable memory that no
other entry overlaps, and a direct map that is apart from the kernel. -/
structure Promised (w : State) (ctx : BootCtx) (ld : Linkage) : Prop where
  hhdm : w.hhdm_addr = ctx.hhdm_addr
  half : 2 ^ 64 - 2 ^ 47 ≤ ctx.hhdm_addr
  direct : ∀ e ∈ ctx.memmap_entries, e.Mapped → ctx.hhdm_addr + e.base + e.length ≤ 2 ^ 64
  aligned : ∀ e ∈ ctx.memmap_entries, e.Exclusive → e.base % FRAME_SIZE = 0 ∧ e.length % FRAME_SIZE = 0
  exclusive : ctx.memmap_entries.Pairwise fun a b =>
    a.Exclusive ∨ b.Exclusive → Apart a.base a.length b.base b.length
  linked : ∀ s ∈ sections ld, 2 ^ 64 - 2 ^ 47 ≤ s.start ∧ s.stop ≤ 2 ^ 64
  apart : ∀ e ∈ ctx.memmap_entries, e.Mapped → ∀ s ∈ sections ld,
    ctx.hhdm_addr + e.base + e.length ≤ s.start ∨ s.stop ≤ ctx.hhdm_addr + e.base

/-- `a` is a byte of a frame buffer. -/
def ScreenByte (ctx : BootCtx) (a : Nat) : Prop :=
  ∃ e ∈ ctx.memmap_entries, e.type = .FRAMEBUFFER ∧ e.base ≤ a ∧ a < e.base + e.length

/-- Every byte of every frame buffer is in the direct map, and can be written by all. -/
def ScreenMapped (w : State) (ctx : BootCtx) : Prop :=
  ∀ a, ScreenByte ctx a → translation w (pageOf (ctx.hhdm_addr + a)) =
    some (pageDown a, PAGE_PRESENT ||| PAGE_WRITE ||| PAGE_USER)

/-- The loop over a frame buffer comes to the page of `a`. -/
def Paints (a : Nat) (e : MemmapEntry) : Prop :=
  e.type = .FRAMEBUFFER ∧ e.base / FRAME_SIZE ≤ a / FRAME_SIZE ∧
    a / FRAME_SIZE < e.base / FRAME_SIZE + e.length / FRAME_SIZE

instance (a : Nat) (e : MemmapEntry) : Decidable (Paints a e) := inferInstanceAs (Decidable (_ ∧ _ ∧ _))

/-- The last frame buffer of the map whose loop comes to the page of `a`. -/
def lastPainter (entries : List MemmapEntry) (a : Nat) : Option MemmapEntry :=
  entries.reverse.find? (Paints a ·)

/-! ## The calls -/

/-- The sections, with the ends as the code computes them. -/
def codeSections (ld : Linkage) : List Section :=
  [⟨ALIGN_DOWN ld.text_start_ld FRAME_SIZE, ALIGN_UP ld.text_end_ld FRAME_SIZE, PAGE_PRESENT ||| PAGE_USER⟩,
    ⟨ALIGN_DOWN ld.rodata_start_ld FRAME_SIZE, ALIGN_UP ld.rodata_end_ld FRAME_SIZE,
      PAGE_PRESENT ||| PAGE_NX ||| PAGE_USER⟩,
    ⟨ALIGN_DOWN ld.data_start_ld FRAME_SIZE, ALIGN_UP ld.data_end_ld FRAME_SIZE,
      PAGE_PRESENT ||| PAGE_WRITE ||| PAGE_NX ||| PAGE_USER⟩]

/-- The calls of `full_map` behind those for the frame buffers. -/
def laterCalls (ctx : BootCtx) (ld : Linkage) : List Op :=
  memoryCalls .USABLE ctx ++ memoryCalls .USABLE ctx ++ (codeSections ld).flatMap (sectionCalls ctx)

def bootCalls (ctx : BootCtx) (ld : Linkage) : List Op :=
  memoryCalls .BOOTLOADER_RECLAIMABLE ctx ++ memoryCalls .FRAMEBUFFER ctx ++ laterCalls ctx ld

theorem full_map_calls (w : State) (ctx : BootCtx) (ld : Linkage) :
    full_map w ctx ld = (bootCalls ctx ld).foldl next w := by
  have hkernel : ∀ w, map_kernel_code w ctx ld =
      ((codeSections ld).flatMap (sectionCalls ctx)).foldl next w := by
    intro w
    rw [List.foldl_flatMap]
    simp only [← map_section_eq]
    rfl
  unfold full_map bootCalls laterCalls map_bootloader_memory map_framebuffer_memory map_found_memory map_hhdm_memory
  simp only [map_memory_eq, hkernel, List.foldl_append]

theorem codeSections_sub (ld : Linkage) (s : Section) (hs : s ∈ codeSections ld) :
    ∃ t ∈ sections ld, s.start = t.start ∧ s.stop ≤ t.stop := by
  have hup : ∀ x, ALIGN_UP x FRAME_SIZE ≤ pageUp x := by
    intro x
    unfold ALIGN_UP pageUp FRAME_SIZE
    omega
  simp only [codeSections, List.mem_cons, List.not_mem_nil, or_false] at hs
  rcases hs with rfl | rfl | rfl
  · exact ⟨text ld, mem_sections.mpr (Or.inl rfl), rfl, hup _⟩
  · exact ⟨rodata ld, mem_sections.mpr (Or.inr (Or.inl rfl)), rfl, hup _⟩
  · exact ⟨data ld, mem_sections.mpr (Or.inr (Or.inr rfl)), rfl, hup _⟩

section Pages

variable {w : State} {ctx : BootCtx} {ld : Linkage} (hb : Promised w ctx ld)
  (hh : ctx.hhdm_addr % FRAME_SIZE = 0)

include hb hh

theorem exclusive_page (type : MemmapType) (htype : type = .USABLE ∨ type = .BOOTLOADER_RECLAIMABLE) (a : Nat)
    (ha : ScreenByte ctx a) (op : Op) (hop : op ∈ memoryCalls type ctx) :
    op.page ≠ pageOf (ctx.hhdm_addr + a) := by
  obtain ⟨e, he, hfb, hle, hlt⟩ := ha
  obtain ⟨f, hf, hop⟩ := List.mem_flatMap.mp hop
  split at hop
  case isFalse => exact absurd hop (by simp)
  case isTrue hftype =>
  have hex : f.Exclusive := by
    rw [← hftype] at htype
    exact htype
  obtain ⟨hbase, hlength⟩ := hb.aligned f hf hex
  have hhalf := hb.half
  have hdirect := hb.direct f hf (Or.inl hex)
  have hdirect' := hb.direct e he (Or.inr hfb)
  have hne : f ≠ e := by
    rintro rfl
    rw [← hftype, hfb] at htype
    exact absurd htype (by decide)
  have hsymm : Std.Symm fun a b : MemmapEntry =>
      a.Exclusive ∨ b.Exclusive → Apart a.base a.length b.base b.length :=
    ⟨fun _ _ h hor => (h hor.symm).symm⟩
  have hapart := hb.exclusive.forall hf he hne (Or.inl hex)
  obtain ⟨k, hk, hpage, -⟩ := mem_pageCalls _ _ _ _ op hh (by unfold FRAME_SIZE; omega) hop
  rw [hpage]
  unfold Apart pageOf FRAME_SIZE at *
  omega

theorem section_page (a : Nat) (ha : ScreenByte ctx a) (op : Op)
    (hop : op ∈ (codeSections ld).flatMap (sectionCalls ctx)) : op.page ≠ pageOf (ctx.hhdm_addr + a) := by
  obtain ⟨e, he, hfb, hle, hlt⟩ := ha
  obtain ⟨s, hs, hop⟩ := List.mem_flatMap.mp hop
  obtain ⟨i, hi, rfl⟩ := List.mem_map.mp hop
  have hi := List.mem_range.mp hi
  obtain ⟨t, ht, hstart, hstop⟩ := codeSections_sub ld s hs
  have hhalf := hb.half
  have hdirect := hb.direct e he (Or.inr hfb)
  have hlinked := hb.linked t ht
  have hapart := hb.apart e he (Or.inr hfb) t ht
  have haligned : t.start % FRAME_SIZE = 0 ∧ t.stop % FRAME_SIZE = 0 := by
    rcases mem_sections.mp ht with rfl | rfl | rfl <;> exact ⟨Nat.mul_mod_left _ _, Nat.mul_mod_left _ _⟩
  simp only [Op.page]
  unfold pageOf FRAME_SIZE at *
  omega

end Pages

/-! ## The last call for a page -/

theorem lastPainter_snoc (es : List MemmapEntry) (e : MemmapEntry) (a : Nat) :
    lastPainter (es ++ [e]) a = if Paints a e then some e else lastPainter es a := by
  unfold lastPainter
  rw [List.reverse_append, List.reverse_singleton, List.singleton_append, List.find?_cons]
  by_cases h : Paints a e <;> simp [h]

theorem foldl_entry (ctx : BootCtx) (e : MemmapEntry) (f : Nat → Nat) (a : Nat)
    (hh : ctx.hhdm_addr % FRAME_SIZE = 0) (hhalf : 2 ^ 64 - 2 ^ 47 ≤ ctx.hhdm_addr)
    (ha : ctx.hhdm_addr + a < 2 ^ 64) (htype : e.type = .FRAMEBUFFER)
    (hdirect : ctx.hhdm_addr + e.base + e.length ≤ 2 ^ 64) :
    (pageCalls e.base (PHYS2VIRT ctx.hhdm_addr e.base) (PAGE_PRESENT ||| PAGE_WRITE ||| PAGE_USER)
        (e.length / FRAME_SIZE)).foldl (fun f op => op.apply f) f (pageOf (ctx.hhdm_addr + a)) =
      if Paints a e then (pageDown a + e.base % FRAME_SIZE) ||| (PAGE_PRESENT ||| PAGE_WRITE ||| PAGE_USER)
      else f (pageOf (ctx.hhdm_addr + a)) := by
  have hbound : e.base + e.length / FRAME_SIZE * FRAME_SIZE ≤ 2 ^ 64 := by unfold FRAME_SIZE; omega
  have hpage : pageOf (ctx.hhdm_addr + a) = (ctx.hhdm_addr / FRAME_SIZE + a / FRAME_SIZE) % 2 ^ 36 := by
    unfold pageOf FRAME_SIZE at *
    omega
  rw [hpage]
  split
  case isTrue hpaints =>
    obtain ⟨-, hle, hlt⟩ := hpaints
    apply foldl_apply_agree
    · refine ⟨_, List.mem_map.mpr ⟨a / FRAME_SIZE - e.base / FRAME_SIZE, List.mem_range.mpr (by omega), rfl⟩, ?_⟩
      rw [Op.page, pageOf_call _ _ _ hh]
      congr 2
      omega
    · intro op hop hop_page
      obtain ⟨k, hk, hk_page, hvalue⟩ := mem_pageCalls _ _ _ _ op hh hbound hop
      rw [hk_page] at hop_page
      rw [hvalue]
      congr 1
      unfold pageDown FRAME_SIZE at *
      omega
  case isFalse hno =>
    apply foldl_apply_other
    intro op hop hop_page
    obtain ⟨k, hk, hk_page, -⟩ := mem_pageCalls _ _ _ _ op hh hbound hop
    rw [hk_page] at hop_page
    refine hno ⟨htype, ?_⟩
    unfold FRAME_SIZE at *
    omega

/-- All the calls for frame buffers leave what the last of them for a page has written. -/
theorem foldl_framebuffers (ctx : BootCtx) (f : Nat → Nat) (a : Nat) (hh : ctx.hhdm_addr % FRAME_SIZE = 0)
    (hhalf : 2 ^ 64 - 2 ^ 47 ≤ ctx.hhdm_addr) (ha : ctx.hhdm_addr + a < 2 ^ 64)
    (hdirect : ∀ e ∈ ctx.memmap_entries, e.type = .FRAMEBUFFER → ctx.hhdm_addr + e.base + e.length ≤ 2 ^ 64) :
    (memoryCalls .FRAMEBUFFER ctx).foldl (fun f op => op.apply f) f (pageOf (ctx.hhdm_addr + a)) =
      match lastPainter ctx.memmap_entries a with
      | some e => (pageDown a + e.base % FRAME_SIZE) ||| (PAGE_PRESENT ||| PAGE_WRITE ||| PAGE_USER)
      | none => f (pageOf (ctx.hhdm_addr + a)) := by
  unfold memoryCalls
  generalize ctx.memmap_entries = entries at hdirect ⊢
  induction entries using List.reverseRecOn with
  | nil => rfl
  | append_singleton es e ih =>
    have ih := ih fun e he => hdirect e (List.mem_append_left _ he)
    rw [List.flatMap_append, List.foldl_append, lastPainter_snoc, List.flatMap_singleton]
    by_cases htype : e.type = .FRAMEBUFFER
    · have hdirect := hdirect e (List.mem_append_right _ (List.mem_singleton_self _)) htype
      rw [if_pos htype, foldl_entry ctx e _ a hh hhalf ha htype hdirect, ih]
      split <;> rfl
    · have hno : ¬ Paints a e := fun h => htype h.1
      rw [if_neg htype, if_neg hno]
      exact ih

/-! ## The screen -/

section Screen

variable {w : State} {ctx : BootCtx} {ld : Linkage} (hw : Start w) (hb : Promised w ctx ld)
  (hframes : Along step Legal w (bootCalls ctx ld))

include hw hb hframes

theorem screen_entry (a : Nat) (ha : ScreenByte ctx a) :
    pageEntry (full_map w ctx ld) (pageOf (ctx.hhdm_addr + a)) =
      match lastPainter ctx.memmap_entries a with
      | some e => (pageDown a + e.base % FRAME_SIZE) ||| (PAGE_PRESENT ||| PAGE_WRITE ||| PAGE_USER)
      | none => 0 := by
  have hh : ctx.hhdm_addr % FRAME_SIZE = 0 := hb.hhdm ▸ hw.hhdm
  have hsmall : ctx.hhdm_addr + a < 2 ^ 64 := by
    obtain ⟨e, he, hfb, -, hlt⟩ := ha
    have := hb.direct e he (Or.inr hfb)
    omega
  obtain ⟨-, hentries⟩ := foldl_next_agrees w _ (bootCalls ctx ld) hw.agrees hframes
  rw [full_map_calls, hentries (pageOf (ctx.hhdm_addr + a)) (Nat.mod_lt _ (by decide)), bootCalls, List.foldl_append,
    List.foldl_append]
  -- Usable memory and the kernel come later, and are elsewhere.
  rw [foldl_apply_other (laterCalls ctx ld)]
  · rw [foldl_framebuffers ctx _ a hh hb.half hsmall fun e he hfb => hb.direct e he (Or.inr hfb),
      foldl_apply_other _ _ _ fun op hop =>
        exclusive_page hb hh .BOOTLOADER_RECLAIMABLE (Or.inr rfl) a ha op hop]
  · intro op hop
    rw [laterCalls, List.mem_append, List.mem_append, or_self] at hop
    rcases hop with hop | hop
    · exact exclusive_page hb hh .USABLE (Or.inl rfl) a ha op hop
    · exact section_page hb hh a ha op hop

theorem screen_translation (a : Nat) (ha : ScreenByte ctx a) :
    translation (full_map w ctx ld) (pageOf (ctx.hhdm_addr + a)) =
      (lastPainter ctx.memmap_entries a).map fun e =>
        (pageDown a, e.base % FRAME_SIZE ||| (PAGE_PRESENT ||| PAGE_WRITE ||| PAGE_USER)) := by
  have hentry := screen_entry hw hb hframes a ha
  cases hlast : lastPainter ctx.memmap_entries a with
  | none =>
    rw [hlast] at hentry
    exact translation_zero _ _ hentry
  | some e =>
    rw [hlast] at hentry
    obtain ⟨f, hf, hfb, -, hlt⟩ := ha
    have hdirect := hb.direct f hf (Or.inr hfb)
    have hhalf := hb.half
    exact translation_low _ _ _ _ _ (Nat.mul_mod_left _ _) (by unfold pageDown FRAME_SIZE; omega)
      (Nat.mod_lt _ (by decide)) (by decide) (by decide) hentry

end Screen

/-- The screen is mapped exactly when the loops come to every page of it, and the last loop
that comes to a page starts in the first eight bytes of a page. -/
theorem screenMapped_iff (w : State) (ctx : BootCtx) (ld : Linkage) (hw : Start w) (hb : Promised w ctx ld)
    (hframes : Along step Legal w (bootCalls ctx ld)) :
    ScreenMapped (full_map w ctx ld) ctx ↔
      ∀ a, ScreenByte ctx a → ∃ e, lastPainter ctx.memmap_entries a = some e ∧ e.base % FRAME_SIZE < 8 := by
  unfold ScreenMapped
  refine forall_congr' fun a => forall_congr' fun ha => ?_
  rw [screen_translation hw hb hframes a ha, Option.map_eq_some_iff]
  refine exists_congr fun e => and_congr_right fun _ => ?_
  rw [Prod.mk.injEq, and_iff_right rfl]
  exact or_ones_iff (e.base % FRAME_SIZE) 3

theorem painted_of_whole (ctx : BootCtx) (a : Nat) (ha : ScreenByte ctx a)
    (hwhole : ∀ e ∈ ctx.memmap_entries, e.type = .FRAMEBUFFER → e.base % FRAME_SIZE = 0 ∧ e.length % FRAME_SIZE = 0) :
    ∃ e, lastPainter ctx.memmap_entries a = some e ∧ e.base % FRAME_SIZE < 8 := by
  obtain ⟨e, he, hfb, hle, hlt⟩ := ha
  have hpaints : Paints a e := by
    have := hwhole e he hfb
    refine ⟨hfb, ?_⟩
    unfold FRAME_SIZE at *
    omega
  have hsome : (lastPainter ctx.memmap_entries a).isSome := by
    unfold lastPainter
    rw [List.find?_isSome]
    exact ⟨e, List.mem_reverse.mpr he, decide_eq_true hpaints⟩
  obtain ⟨f, hf⟩ := Option.isSome_iff_exists.mp hsome
  have hmem : f ∈ ctx.memmap_entries := List.mem_reverse.mp (List.mem_of_find?_eq_some hf)
  have hfpaints : Paints a f := by
    have := List.find?_some hf
    exact of_decide_eq_true this
  refine ⟨f, hf, ?_⟩
  rw [(hwhole f hmem hfpaints.1).1]
  decide

/-! ## Two screens -/

/-- The machine with a frame buffer of `length` bytes. -/
def screenCtx (length : Nat) : BootCtx :=
  { bootCtx 0xfd000000 0x5000 with
    memmap_entries :=
      [⟨0x1000, 0x20000, .USABLE⟩, ⟨0x21000, 0x2000, .BOOTLOADER_RECLAIMABLE⟩,
        ⟨0x200000, 0x5000, .KERNEL_AND_MODULES⟩, ⟨0xfd000000, length, .FRAMEBUFFER⟩] }

theorem screenCtx_promised (length : Nat) (h : length < 2 ^ 32) :
    Promised clearTables (screenCtx length) (linkage 0xffffffff80003000 0xffffffff80004800) := by
  have hhdm : (screenCtx length).hhdm_addr = 0xffff800000000000 := rfl
  have hentries : ∀ e ∈ (screenCtx length).memmap_entries, e.base + e.length < 2 ^ 33 := by
    simp only [screenCtx, List.forall_mem_cons, List.not_mem_nil, false_imp_iff, implies_true, and_true]
    omega
  have hlinked : ∀ s ∈ sections (linkage 0xffffffff80003000 0xffffffff80004800),
      0xffffffff80000000 ≤ s.start ∧ s.stop ≤ 0xffffffff80000000 + 0x5000 ∧ s.stop ≤ 2 ^ 64 :=
    fun s hs => linkage_bounds (by decide) hs
  refine ⟨rfl, by rw [hhdm]; decide, ?_, ?_, ?_, ?_, ?_⟩
  · intro e he _
    have := hentries e he
    omega
  · intro e he hex
    simp only [screenCtx, List.mem_cons, List.not_mem_nil, or_false] at he
    rcases he with rfl | rfl | rfl | rfl
    · decide
    · decide
    · exact absurd hex (by unfold MemmapEntry.Exclusive; decide)
    · exact absurd hex (by simp [MemmapEntry.Exclusive])
  · simp [screenCtx, MemmapEntry.Exclusive, Apart]
  · intro s hs
    have := hlinked s hs
    omega
  · intro e he _ s hs
    have := hentries e he
    have := hlinked s hs
    omega

theorem bootCalls_ok (ctx : BootCtx) (ld : Linkage) (op : Op) (hop : op ∈ bootCalls ctx ld) : op.Ok := by
  have hmemory : ∀ type, op ∈ memoryCalls type ctx → op.Ok := by
    intro type hop
    obtain ⟨e, -, hop⟩ := List.mem_flatMap.mp hop
    split at hop
    · obtain ⟨k, -, rfl⟩ := List.mem_map.mp hop
      exact ⟨Nat.mod_lt _ (by decide), by decide⟩
    · exact absurd hop (by simp)
  simp only [bootCalls, laterCalls, List.mem_append] at hop
  rcases hop with (hop | hop) | (hop | hop) | hop
  · exact hmemory _ hop
  · exact hmemory _ hop
  · exact hmemory _ hop
  · exact hmemory _ hop
  · obtain ⟨s, hs, hop⟩ := List.mem_flatMap.mp hop
    obtain ⟨i, -, rfl⟩ := List.mem_map.mp hop
    refine ⟨Nat.mod_lt _ (by decide), ?_⟩
    simp only [codeSections, List.mem_cons, List.not_mem_nil, or_false] at hs
    rcases hs with rfl | rfl | rfl <;> simp only <;> decide

theorem clearTables_boot (ctx : BootCtx) (ld : Linkage) (h : (bootCalls ctx ld).length ≤ 2 ^ 16) :
    Along step Legal clearTables (bootCalls ctx ld) :=
  supply_legal clearTables _ clearTables_start rfl (clearTables_supply _ (by omega)) (bootCalls_ok ctx ld)

theorem screenMapped_iff_two_pages :
    ScreenMapped (full_map clearTables (screenCtx 0x2000) (linkage 0xffffffff80003000 0xffffffff80004800))
      (screenCtx 0x2000) := by
  refine (screenMapped_iff clearTables (screenCtx 0x2000) _ clearTables_start (screenCtx_promised _ (by decide))
    (clearTables_boot _ _ (by decide))).mpr ?_
  intro a ha
  exact painted_of_whole _ a ha (by decide)

/-- A screen of a page and a half: the loop leaves out the second page. -/
theorem half_page_unmapped :
    Start clearTables ∧
    Promised clearTables (screenCtx 0x1800) (linkage 0xffffffff80003000 0xffffffff80004800) ∧
    Along step Legal clearTables (bootCalls (screenCtx 0x1800) (linkage 0xffffffff80003000 0xffffffff80004800)) ∧
    ¬ ScreenMapped (full_map clearTables (screenCtx 0x1800) (linkage 0xffffffff80003000 0xffffffff80004800))
      (screenCtx 0x1800) := by
  have hb := screenCtx_promised 0x1800 (by decide)
  have hframes := clearTables_boot (screenCtx 0x1800) (linkage 0xffffffff80003000 0xffffffff80004800) (by decide)
  refine ⟨clearTables_start, hb, hframes, ?_⟩
  intro hmapped
  have hbyte : ScreenByte (screenCtx 0x1800) 0xfd001000 :=
    ⟨⟨0xfd000000, 0x1800, .FRAMEBUFFER⟩, by decide, rfl, by decide, by decide⟩
  have hnone := screen_translation clearTables_start hb hframes 0xfd001000 hbyte
  rw [hmapped _ hbyte] at hnone
  exact absurd hnone (by decide)

end SlayerOS.Mapper
