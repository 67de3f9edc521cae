import SlayerOS.Mapper.Proofs

/-!
# Order and protection

The tables depend on what is in the memory map and not on its order. Code and constants
cannot be written, unless a frame buffer lies over them.
-/

open SlayerOS.Bytes
open SlayerOS.Frames (FRAME_SIZE)
open SlayerOS.Paging

namespace SlayerOS.Mapper

variable {w : State} {ctx : BootCtx} {ld : Linkage}

/-! ## The order of the entries -/

theorem Maps.unique {v w : State} (hv : Maps v ctx ld) (hw : Maps w ctx ld) (page : Nat) (hpage : page < 2 ^ 36) :
    translation v page = translation w page := by
  have hsame : ∀ {v w : State}, Maps v ctx ld → Maps w ctx ld → translation v page ≠ none →
      translation v page = translation w page := by
    intro v w hv hw hsome
    rcases hv.nothing page hpage hsome with ⟨e, he, hm, k, hk, rfl⟩ | ⟨s, hs, a, ha, rfl⟩
    · rw [hv.memory e he hm k hk, hw.memory e he hm k hk]
    · rw [hv.kernel s hs a ha, hw.kernel s hs a ha]
  by_cases hsome : translation v page = none
  · by_contra hne
    exact hne (hsame hw hv fun hnone => hne (hsome.trans hnone.symm)).symm
  · exact hsame hv hw hsome

theorem Maps.perm (hw : Maps w ctx ld) {entries : List MemmapEntry} (hperm : entries.Perm ctx.memmap_entries) :
    Maps w { ctx with memmap_entries := entries } ld := by
  refine ⟨fun e he => hw.memory e (hperm.mem_iff.mp he), hw.kernel, ?_⟩
  intro page hpage hsome
  rcases hw.nothing page hpage hsome with ⟨e, he, hk⟩ | hs
  · exact Or.inl ⟨e, hperm.mem_iff.mpr he, hk⟩
  · exact Or.inr hs

theorem Booted.perm (hb : Booted w ctx ld) {entries : List MemmapEntry} (hperm : entries.Perm ctx.memmap_entries) :
    Booted w { ctx with memmap_entries := entries } ld := by
  have hexclusive := hperm.pairwise_iff (R := fun a b : MemmapEntry =>
    a.Exclusive ∨ b.Exclusive → Apart a.base a.length b.base b.length) fun h hab => (h hab.symm).symm
  obtain ⟨k, hk, himage⟩ := hb.image
  exact
    { hb with
      physical := fun e he => hb.physical e (hperm.mem_iff.mp he)
      direct := fun e he => hb.direct e (hperm.mem_iff.mp he)
      exclusive := hexclusive.mpr hb.exclusive
      apart := fun e he => hb.apart e (hperm.mem_iff.mp he)
      image := ⟨k, hperm.mem_iff.mpr hk, himage⟩ }

/-! ## Protection -/

theorem Booted.entry_apart (hb : Booted w ctx ld) (hfb : FramebufferApart ctx ld) {e : MemmapEntry} {k : Nat}
    {s : Section} {v : Nat} (he : e ∈ ctx.memmap_entries) (hm : e.Mapped) (hk : k < e.length / FRAME_SIZE)
    (hs : s ∈ sections ld) (hv : s.Page v) : e.base + FRAME_SIZE * k ≠ physOf ctx v := by
  obtain ⟨hbase, hle, -, -⟩ := hb.entry_bounds he hm hk
  obtain ⟨-, -, -, ha, -⟩ := hb.page_bounds hs hv
  rcases hm with hm | hm
  · obtain ⟨image, himage, hother, hpages⟩ := hb.image
    have hpage := hpages s hs v hv
    have hsymm : Std.Symm fun a b : MemmapEntry =>
        a.Exclusive ∨ b.Exclusive → Apart a.base a.length b.base b.length :=
      ⟨fun _ _ h hab => (h hab.symm).symm⟩
    have hne : e ≠ image := by
      rintro rfl
      exact hother hm
    have hapart := hb.exclusive.forall he himage hne (Or.inl hm)
    unfold Apart FRAME_SIZE at *
    omega
  · have hapart := hfb e he hm s hs v hv
    unfold Apart FRAME_SIZE at *
    omega

theorem Booted.section_apart (hb : Booted w ctx ld) {s t : Section} {u v : Nat} (hs : s ∈ sections ld)
    (ht : t ∈ sections ld) (hu : s.Page u) (hv : t.Page v) (h : physOf ctx u = physOf ctx v) : s = t := by
  obtain ⟨-, hu', -⟩ := hb.page_bounds hs hu
  obtain ⟨-, hv', -⟩ := hb.page_bounds ht hv
  obtain rfl : u = v := by
    unfold physOf at h
    omega
  exact hb.section_eq hs ht hu hv

theorem Maps.write_protected {u : State} (hu : Maps u ctx ld) (hb : Booted w ctx ld)
    (hfb : FramebufferApart ctx ld) : WriteProtected u ctx ld := by
  intro s hs v hv page hpage p flags htranslation hwrite
  have hs' : s ∈ sections ld := List.dropLast_subset (sections ld) hs
  have hflags : s.flags &&& PAGE_WRITE = 0 := by
    simp only [List.mem_cons, List.not_mem_nil, or_false] at hs
    rcases hs with rfl | rfl <;> simp only [text, rodata] <;> decide
  rcases hu.nothing page hpage (by simp [htranslation]) with ⟨e, he, hm, k, hk, rfl⟩ | ⟨t, ht, a, ha, rfl⟩
  · rw [hu.memory e he hm k hk] at htranslation
    obtain ⟨rfl, -⟩ := Prod.mk.inj (Option.some.inj htranslation)
    exact hb.entry_apart hfb he hm hk hs' hv
  · rw [hu.kernel t ht a ha] at htranslation
    obtain ⟨rfl, rfl⟩ := Prod.mk.inj (Option.some.inj htranslation)
    intro h
    rw [hb.section_apart ht hs' ha hv h] at hwrite
    exact hwrite hflags

/-- The tables translate memory and the kernel and nothing else, in whatever order the
entries come, and code and constants cannot be written. -/
theorem full_map_translates (w : State) (ctx : BootCtx) (ld : Linkage) (hw : Start w) (hb : Booted w ctx ld)
    (hfb : FramebufferApart ctx ld) (hlast : EndsEarly ld) (hframes : EnoughFrames w ctx ld) :
    Maps (full_map w ctx ld) ctx ld ∧ WriteProtected (full_map w ctx ld) ctx ld ∧
      ∀ entries, entries.Perm ctx.memmap_entries → EnoughFrames w { ctx with memmap_entries := entries } ld →
        ∀ page, page < 2 ^ 36 →
          translation (full_map w { ctx with memmap_entries := entries } ld) page =
            translation (full_map w ctx ld) page := by
  have hmaps := full_map_maps hw hb hlast hframes
  refine ⟨hmaps, hmaps.write_protected hb hfb, ?_⟩
  intro entries hperm hframes' page hpage
  exact (full_map_maps hw (hb.perm hperm) hlast hframes').unique (hmaps.perm hperm) page hpage

/-! ## A machine -/

/-- A memory map with `image` bytes for the kernel, and a frame buffer at `framebuffer`. -/
def bootCtx (framebuffer image : Nat) : BootCtx :=
  { memmap_entries :=
      [⟨0x1000, 0x20000, .USABLE⟩, ⟨0x21000, 0x2000, .BOOTLOADER_RECLAIMABLE⟩,
        ⟨0x200000, image, .KERNEL_AND_MODULES⟩, ⟨framebuffer, 0x1000, .FRAMEBUFFER⟩]
    hhdm_addr := 0xffff800000000000
    kern_address_phys := 0x200000
    kern_address_virt := 0xffffffff80000000 }

/-- A kernel of two pages of code, a page of constants, and data. -/
def linkage (data_start data_end : Nat) : Linkage :=
  { text_start_ld := 0xffffffff80000000
    text_end_ld := 0xffffffff80001234
    rodata_start_ld := 0xffffffff80002000
    rodata_end_ld := 0xffffffff80002010
    data_start_ld := data_start
    data_end_ld := data_end }

/-- The kernel fits into its entry, and the data are behind the constants. -/
def Fits (image data_start data_end : Nat) : Prop :=
  0x3000 ≤ image ∧ 0xffffffff80003000 ≤ data_start ∧ pageUp data_end ≤ 0xffffffff80000000 + image ∧
    pageUp data_end ≤ 2 ^ 64

instance (image data_start data_end : Nat) : Decidable (Fits image data_start data_end) :=
  inferInstanceAs (Decidable (_ ∧ _))

theorem linkage_bounds {image data_start data_end : Nat} (h : Fits image data_start data_end) {s : Section}
    (hs : s ∈ sections (linkage data_start data_end)) :
    0xffffffff80000000 ≤ s.start ∧ s.stop ≤ 0xffffffff80000000 + image ∧ s.stop ≤ 2 ^ 64 := by
  unfold Fits at h
  rcases mem_sections.mp hs with rfl | rfl | rfl
  all_goals
    simp only [text, rodata, data, linkage, pageUp, pageDown, FRAME_SIZE] at *
    omega

theorem linkage_image (framebuffer : Nat) {image data_start data_end : Nat} (h : Fits image data_start data_end)
    {s : Section} (hs : s ∈ sections (linkage data_start data_end)) {v : Nat} (hv : s.Page v) :
    0x200000 ≤ physOf (bootCtx framebuffer image) v ∧ physOf (bootCtx framebuffer image) v < 0x200000 + image := by
  obtain ⟨hstart, hstop, -⟩ := hv
  have hbounds := linkage_bounds h hs
  simp only [physOf, bootCtx]
  omega

theorem bootCtx_booted (framebuffer image data_start data_end : Nat)
    (hfb : framebuffer % FRAME_SIZE = 0 ∧ 0x23000 ≤ framebuffer ∧ framebuffer < 2 ^ 32)
    (himage : image < 2 ^ 32) (hfits : Fits image data_start data_end) :
    Booted clearTables (bootCtx framebuffer image) (linkage data_start data_end) := by
  have hphys : (bootCtx framebuffer image).kern_address_phys = 0x200000 := rfl
  have hvirt : (bootCtx framebuffer image).kern_address_virt = 0xffffffff80000000 := rfl
  have hhdm : (bootCtx framebuffer image).hhdm_addr = 0xffff800000000000 := rfl
  have hentries : ∀ e ∈ (bootCtx framebuffer image).memmap_entries,
      e.base % FRAME_SIZE = 0 ∧ e.base + e.length < 2 ^ 33 := by
    simp only [bootCtx, List.forall_mem_cons, List.not_mem_nil, false_imp_iff, implies_true, and_true]
    unfold FRAME_SIZE at *
    omega
  refine
    { hhdm := rfl
      half := ?_
      physical := ?_
      direct := ?_
      exclusive := ?_
      bases := ?_
      linked := ?_
      disjoint := ?_
      apart := ?_
      image := ?_ }
  · omega
  · intro e he
    have := hentries e he
    omega
  · intro e he _
    have := hentries e he
    omega
  · simp [bootCtx, MemmapEntry.Exclusive, Apart]
    omega
  · rw [hphys, hvirt]
    decide
  · intro s hs
    have := linkage_bounds hfits hs
    omega
  · unfold Fits at hfits
    simp only [sections, List.pairwise_cons, List.forall_mem_cons, List.not_mem_nil, false_imp_iff, implies_true,
      and_true, List.Pairwise.nil, text, rodata, data, linkage]
    simp only [pageUp, pageDown, FRAME_SIZE] at *
    omega
  · intro e he _ s hs
    have := hentries e he
    have := linkage_bounds hfits hs
    omega
  · refine ⟨⟨0x200000, image, .KERNEL_AND_MODULES⟩, by simp [bootCtx], by simp [MemmapEntry.Exclusive], ?_⟩
    intro s hs v hv
    obtain ⟨hle, hlt⟩ := linkage_image framebuffer hfits hs hv
    exact ⟨Nat.lt_add_right_iff_pos.mpr (by decide) |>.trans_le' hle, hlt⟩

theorem bootCtx_apart (framebuffer image data_start data_end : Nat) (hfb : 0x200000 + image ≤ framebuffer)
    (himage : image % FRAME_SIZE = 0) (hfits : Fits image data_start data_end) :
    FramebufferApart (bootCtx framebuffer image) (linkage data_start data_end) := by
  intro e he htype s hs v hv
  obtain ⟨hle, hlt⟩ := linkage_image framebuffer hfits hs hv
  obtain ⟨-, -, hv⟩ := hv
  simp only [bootCtx, List.mem_cons, List.not_mem_nil, or_false] at he
  rcases he with rfl | rfl | rfl | rfl
  · cases htype
  · cases htype
  · cases htype
  · simp only [physOf, bootCtx, Apart, FRAME_SIZE] at *
    omega

theorem fullCalls_ok (hb : Booted w ctx ld) (op : Op) (hop : op ∈ fullCalls ctx ld) : op.Ok := by
  rcases (mem_fullCalls hb op).mp hop with ⟨e, he, hm, k, hk, rfl⟩ | ⟨s, hs, v, hv, rfl⟩
  · obtain ⟨-, hle, hphysical, -⟩ := hb.entry_bounds he hm hk
    refine ⟨?_, by decide⟩
    unfold FRAME_SIZE at *
    omega
  · obtain ⟨-, -, -, -, hphysical⟩ := hb.page_bounds hs hv
    refine ⟨by omega, ?_⟩
    rcases mem_sections.mp hs with rfl | rfl | rfl <;> simp only [text, rodata, data] <;> decide

theorem clearTables_enough (hb : Booted clearTables ctx ld) (h : (fullCalls ctx ld).length ≤ 2 ^ 16) :
    EnoughFrames clearTables ctx ld :=
  supply_legal clearTables _ clearTables_start rfl (clearTables_supply _ (by omega)) (fullCalls_ok hb)

theorem full_map_translates_machine :
    Maps (full_map clearTables (bootCtx 0xfd000000 0x5000) (linkage 0xffffffff80003000 0xffffffff80004800))
        (bootCtx 0xfd000000 0x5000) (linkage 0xffffffff80003000 0xffffffff80004800) ∧
      WriteProtected (full_map clearTables (bootCtx 0xfd000000 0x5000) (linkage 0xffffffff80003000 0xffffffff80004800))
        (bootCtx 0xfd000000 0x5000) (linkage 0xffffffff80003000 0xffffffff80004800) := by
  have hb : Booted clearTables (bootCtx 0xfd000000 0x5000) (linkage 0xffffffff80003000 0xffffffff80004800) :=
    bootCtx_booted _ _ _ _ (by decide) (by decide) (by decide)
  have hfb : FramebufferApart (bootCtx 0xfd000000 0x5000) (linkage 0xffffffff80003000 0xffffffff80004800) :=
    bootCtx_apart _ _ _ _ (by decide) (by decide) (by decide)
  obtain ⟨hmaps, hprotected, -⟩ :=
    full_map_translates _ _ _ clearTables_start hb hfb (by decide) (clearTables_enough hb (by decide))
  exact ⟨hmaps, hprotected⟩

/-! ## Two machines on which it goes wrong -/

theorem map_section_empty (w : State) (ctx : BootCtx) (start stop flags : Nat) (h : stop ≤ start) :
    map_section w ctx start stop flags = w := by
  unfold map_section
  rw [Nat.sub_eq_zero_of_le h, Nat.zero_div]
  rfl

/-- The end of the data wraps around to 0, and no page of the data is mapped. -/
theorem full_map_last (w : State) (ctx : BootCtx) :
    full_map w ctx (linkage 0xfffffffffffff000 0xffffffffffffffff) =
      full_map w ctx (linkage 0xfffffffffffff000 0xfffffffffffff000) := by
  unfold full_map map_kernel_code
  simp only [linkage]
  rw [map_section_empty _ _ (ALIGN_DOWN 0xfffffffffffff000 FRAME_SIZE) (ALIGN_UP 0xffffffffffffffff FRAME_SIZE) _
      (by decide),
    map_section_empty _ _ (ALIGN_DOWN 0xfffffffffffff000 FRAME_SIZE) (ALIGN_UP 0xfffffffffffff000 FRAME_SIZE) _
      (by decide)]

theorem last_page_unmapped (framebuffer image : Nat)
    (hb : Booted clearTables (bootCtx framebuffer image) (linkage 0xfffffffffffff000 0xffffffffffffffff))
    (hmaps : Maps w (bootCtx framebuffer image) (linkage 0xfffffffffffff000 0xfffffffffffff000)) :
    ¬ Maps w (bootCtx framebuffer image) (linkage 0xfffffffffffff000 0xffffffffffffffff) := by
  intro h
  have hs : data (linkage 0xfffffffffffff000 0xffffffffffffffff) ∈
      sections (linkage 0xfffffffffffff000 0xffffffffffffffff) := mem_sections.mpr (Or.inr (Or.inr rfl))
  have hv : (data (linkage 0xfffffffffffff000 0xffffffffffffffff)).Page 0xfffffffffffff000 := by
    unfold Section.Page
    decide
  have hsome : translation w (pageOf 0xfffffffffffff000) ≠ none := by
    rw [h.kernel _ hs _ hv]
    exact Option.some_ne_none _
  rcases hmaps.nothing _ (Nat.mod_lt _ (by decide)) hsome with
    ⟨e, he, hm, k, hk, hpage⟩ | ⟨t, ht, v, ⟨hstart, hstop, -⟩, hpage⟩
  · exact entry_section hb (hb.hhdm ▸ clearTables_start.hhdm) he hm hk hs hv hpage.symm
  · unfold pageOf at hpage
    rcases mem_sections.mp ht with rfl | rfl | rfl
    all_goals
      simp only [text, rodata, data, linkage, pageUp, pageDown, FRAME_SIZE] at *
      omega

theorem framebuffer_writes_text :
    Start clearTables ∧
    (Booted clearTables (bootCtx 0x200000 0x5000) (linkage 0xffffffff80003000 0xffffffff80004800) ∧
      EnoughFrames clearTables (bootCtx 0x200000 0x5000) (linkage 0xffffffff80003000 0xffffffff80004800) ∧
      ¬ WriteProtected
        (full_map clearTables (bootCtx 0x200000 0x5000) (linkage 0xffffffff80003000 0xffffffff80004800))
        (bootCtx 0x200000 0x5000) (linkage 0xffffffff80003000 0xffffffff80004800)) ∧
    Booted clearTables (bootCtx 0xfd000000 0x80000000) (linkage 0xfffffffffffff000 0xffffffffffffffff) ∧
      EnoughFrames clearTables (bootCtx 0xfd000000 0x80000000) (linkage 0xfffffffffffff000 0xffffffffffffffff) ∧
      ¬ Maps (full_map clearTables (bootCtx 0xfd000000 0x80000000) (linkage 0xfffffffffffff000 0xffffffffffffffff))
        (bootCtx 0xfd000000 0x80000000) (linkage 0xfffffffffffff000 0xffffffffffffffff) := by
  have hb : Booted clearTables (bootCtx 0x200000 0x5000) (linkage 0xffffffff80003000 0xffffffff80004800) :=
    bootCtx_booted _ _ _ _ (by decide) (by decide) (by decide)
  have hframes := clearTables_enough hb (by decide)
  have hlast : Booted clearTables (bootCtx 0xfd000000 0x80000000) (linkage 0xfffffffffffff000 0xffffffffffffffff) :=
    bootCtx_booted _ _ _ _ (by decide) (by decide) (by decide)
  have hshort : Booted clearTables (bootCtx 0xfd000000 0x80000000) (linkage 0xfffffffffffff000 0xfffffffffffff000) :=
    bootCtx_booted _ _ _ _ (by decide) (by decide) (by decide)
  refine ⟨clearTables_start, ⟨hb, hframes, ?_⟩, hlast, clearTables_enough hlast (by decide), ?_⟩
  · intro hprotected
    have hmaps := full_map_maps clearTables_start hb (by decide) hframes
    have hwritable := hmaps.memory ⟨0x200000, 0x1000, .FRAMEBUFFER⟩ (by decide) (Or.inr rfl) 0 (by decide)
    exact hprotected _ List.mem_cons_self 0xffffffff80000000 (by unfold Section.Page; decide) _
      (Nat.mod_lt _ (by decide)) _ _ hwritable (by decide) (by decide)
  · rw [full_map_last]
    exact last_page_unmapped _ _ hlast
      (full_map_maps clearTables_start hshort (by decide) (clearTables_enough hshort (by decide)))

end SlayerOS.Mapper
