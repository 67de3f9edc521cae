import SlayerOS.Mapper.Spec
import SlayerOS.Paging.Proofs
import Mathlib.Data.List.Pairwise

/-!
# What `full_map` leaves behind

The loops write many pages twice, but always the same entry. So the order of the calls does
not matter, and the tables hold what any one of the calls says.
-/

open SlayerOS.Bytes SlayerOS.Run
open SlayerOS.Frames (FRAME_SIZE sub64)
open SlayerOS.Paging

namespace SlayerOS.Mapper

theorem mem_sections {ld : Linkage} {s : Section} : s ∈ sections ld ↔ s = text ld ∨ s = rodata ld ∨ s = data ld := by
  simp [sections]

/-! ## The loops are lists of calls -/

theorem foldl_pageCalls (w : State) (paddr vaddr flags pages : Nat) :
    (pageCalls paddr vaddr flags pages).foldl next w =
      (List.range pages).foldl (fun w page =>
        next w (.map ((paddr + page * FRAME_SIZE) % 2 ^ 64) ((vaddr + page * FRAME_SIZE) % 2 ^ 64) flags)) w :=
  List.foldl_map

theorem map_memory_eq (type : MemmapType) (w : State) (ctx : BootCtx) :
    map_memory type w ctx = (memoryCalls type ctx).foldl next w := by
  unfold map_memory memoryCalls
  rw [List.foldl_flatMap]
  congr 1
  funext w e
  split
  · exact (foldl_pageCalls _ _ _ _ _).symm
  · rfl

theorem map_section_eq (w : State) (ctx : BootCtx) (s : Section) :
    map_section w ctx s.start s.stop s.flags = (sectionCalls ctx s).foldl next w := by
  unfold sectionCalls
  rw [List.foldl_map]
  rfl

theorem align_up_eq (x : Nat) (h : pageUp x < 2 ^ 64) : ALIGN_UP x FRAME_SIZE = pageUp x := by
  unfold ALIGN_UP pageUp FRAME_SIZE at *
  omega

theorem map_kernel_code_eq (w : State) (ctx : BootCtx) (ld : Linkage) (h : EndsEarly ld) :
    map_kernel_code w ctx ld = ((sections ld).flatMap (sectionCalls ctx)).foldl next w := by
  have htext := align_up_eq _ (h (text ld) (mem_sections.mpr (Or.inl rfl)))
  have hrodata := align_up_eq _ (h (rodata ld) (mem_sections.mpr (Or.inr (Or.inl rfl))))
  have hdata := align_up_eq _ (h (data ld) (mem_sections.mpr (Or.inr (Or.inr rfl))))
  unfold map_kernel_code
  simp only [htext, hrodata, hdata]
  rw [List.foldl_flatMap]
  simp only [← map_section_eq]
  rfl

theorem full_map_eq (w : State) (ctx : BootCtx) (ld : Linkage) (h : EndsEarly ld) :
    full_map w ctx ld = (fullCalls ctx ld).foldl next w := by
  unfold full_map fullCalls map_bootloader_memory map_framebuffer_memory map_found_memory map_hhdm_memory
  simp only [map_memory_eq, map_kernel_code_eq _ ctx ld h, List.foldl_append]

theorem run_next (w : State) (ops : List Op) : run step w ops = some (ops.foldl next w) := by
  induction ops generalizing w with
  | nil => rfl
  | cons op ops ih => exact ih (next w op)

theorem foldl_next_agrees (w : State) (f : Nat → Nat) (ops : List Op) (hw : Agrees w f)
    (hlegal : Along step Legal w ops) :
    Agrees (ops.foldl next w) (ops.foldl (fun f op => op.apply f) f) := by
  obtain ⟨-, w', hrun, hagrees⟩ := run_foldl (fun f op => op.apply f) next_agrees w f ops hw hlegal
  obtain rfl : ops.foldl next w = w' := Option.some.inj ((run_next _ _).symm.trans hrun)
  exact hagrees

/-! ## Writes that agree -/

/-- The entry that an operation writes. -/
def value : Op → Nat
  | .map phys _ flags => phys ||| flags
  | .unmap _ => 0

theorem apply_eq (f : Nat → Nat) (op : Op) : op.apply f = Function.update f op.page (value op) := by
  cases op <;> rfl

theorem foldl_apply_other (ops : List Op) (f : Nat → Nat) (page : Nat) (h : ∀ op ∈ ops, op.page ≠ page) :
    ops.foldl (fun f op => op.apply f) f page = f page := by
  induction ops generalizing f with
  | nil => rfl
  | cons op ops ih =>
    rw [List.foldl_cons, ih _ fun a ha => h a (List.mem_cons_of_mem _ ha), apply_eq]
    exact Function.update_of_ne (h op List.mem_cons_self).symm _ _

theorem foldl_apply_agree (ops : List Op) (f : Nat → Nat) (page v : Nat) (hsome : ∃ op ∈ ops, op.page = page)
    (hagree : ∀ op ∈ ops, op.page = page → value op = v) :
    ops.foldl (fun f op => op.apply f) f page = v := by
  induction ops generalizing f with
  | nil => simp at hsome
  | cons a ops ih =>
    rw [List.foldl_cons]
    by_cases hlater : ∃ op ∈ ops, op.page = page
    · exact ih _ hlater fun op hop => hagree op (List.mem_cons_of_mem _ hop)
    · push Not at hlater
      have ha : a.page = page := by
        obtain ⟨op, hop, hpage⟩ := hsome
        rcases List.mem_cons.mp hop with rfl | hop
        · exact hpage
        · exact absurd hpage (hlater op hop)
      rw [foldl_apply_other ops _ _ hlater, apply_eq, ha, Function.update_self]
      exact hagree a List.mem_cons_self ha

/-! ## Entries -/

theorem land_addr (e : Nat) : e &&& ADDR_MASK = e / 2 ^ 12 % 2 ^ 40 * 2 ^ 12 := land_shifted e 40

theorem addr_eq (phys : Nat) (ha : phys % FRAME_SIZE = 0) (hp : phys < 2 ^ 52) : phys &&& ADDR_MASK = phys := by
  rw [land_addr]
  unfold FRAME_SIZE at ha
  omega

theorem addr_land_flags (phys : Nat) (ha : phys % FRAME_SIZE = 0) (hp : phys < 2 ^ 52) :
    phys &&& FLAG_MASK = 0 := by
  rw [← addr_eq phys ha hp, Nat.and_assoc, show ADDR_MASK &&& FLAG_MASK = 0 by decide, Nat.and_zero]

theorem translation_eq (w : State) (page phys flags : Nat) (ha : phys % FRAME_SIZE = 0) (hp : phys < 2 ^ 52)
    (hflags : flags &&& ADDR_MASK = 0 ∧ flags &&& FLAG_MASK = flags ∧ flags % 2 = 1)
    (h : pageEntry w page = phys ||| flags) : translation w page = some (phys, flags) := by
  have hpresent : present (phys ||| flags) = true := by
    rw [present_iff, ← Nat.and_one_is_mod, Nat.and_or_distrib_right, Nat.and_one_is_mod, Nat.and_one_is_mod,
      hflags.2.2]
    unfold FRAME_SIZE at ha
    rw [show phys % 2 = 0 by omega]
    rfl
  unfold translation
  simp only [h, hpresent, if_true, Nat.and_or_distrib_right, addr_eq phys ha hp, addr_land_flags phys ha hp,
    hflags.1, hflags.2.1, Nat.or_zero, Nat.zero_or]

/-- The low bits of the address end up among the flags. -/
theorem translation_low (w : State) (page p offset flags : Nat) (ha : p % FRAME_SIZE = 0) (hp : p < 2 ^ 52)
    (hoffset : offset < FRAME_SIZE) (hflags : flags < FRAME_SIZE) (hpresent : flags % 2 = 1)
    (h : pageEntry w page = (p + offset) ||| flags) : translation w page = some (p, offset ||| flags) := by
  have hsmall : offset ||| flags < 2 ^ 12 := Nat.or_lt_two_pow hoffset hflags
  have hsplit : p + offset = p ||| offset := by
    obtain ⟨q, rfl⟩ : ∃ q, p = 2 ^ 12 * q := ⟨p / FRAME_SIZE, by unfold FRAME_SIZE at *; omega⟩
    exact Nat.two_pow_add_eq_or_of_lt hoffset q
  apply translation_eq w page p (offset ||| flags) ha hp
  · refine ⟨?_, ?_, ?_⟩
    · rw [land_addr]
      omega
    · rw [← Nat.and_two_pow_sub_one_of_lt_two_pow hsmall, Nat.and_assoc,
        show (2 ^ 12 - 1) &&& FLAG_MASK = 2 ^ 12 - 1 by decide]
    · rw [← Nat.and_one_is_mod, Nat.and_or_distrib_right, Nat.and_one_is_mod, Nat.and_one_is_mod, hpresent]
      rcases Nat.mod_two_eq_zero_or_one offset with ho | ho <;> rw [ho] <;> rfl
  · rw [h, hsplit, Nat.or_assoc]

theorem or_ones_iff (offset n : Nat) : offset ||| (2 ^ n - 1) = 2 ^ n - 1 ↔ offset < 2 ^ n := by
  have hpos : 0 < 2 ^ n := Nat.two_pow_pos n
  constructor
  · intro h
    have := Nat.left_le_or (n := offset) (m := 2 ^ n - 1)
    omega
  · intro h
    have hle := Nat.right_le_or (n := offset) (m := 2 ^ n - 1)
    have hlt : offset ||| (2 ^ n - 1) < 2 ^ n := Nat.or_lt_two_pow h (by omega)
    omega

theorem translation_zero (w : State) (page : Nat) (h : pageEntry w page = 0) : translation w page = none := by
  unfold translation
  rw [h]
  rfl

/-! ## Pages of the higher half -/

theorem pageOf_inj (a b : Nat) (ha : 2 ^ 64 - 2 ^ 47 ≤ a ∧ a < 2 ^ 64) (hb : 2 ^ 64 - 2 ^ 47 ≤ b ∧ b < 2 ^ 64)
    (ha' : a % FRAME_SIZE = 0) (hb' : b % FRAME_SIZE = 0) (h : pageOf a = pageOf b) : a = b := by
  unfold pageOf FRAME_SIZE at *
  omega

/-! ## Pages of the direct map -/

theorem pageOf_direct (hhdm b : Nat) (hh : hhdm % FRAME_SIZE = 0) :
    pageOf (PHYS2VIRT hhdm b) = (hhdm / FRAME_SIZE + b / FRAME_SIZE) % 2 ^ 36 := by
  unfold pageOf PHYS2VIRT FRAME_SIZE at *
  omega

theorem pageOf_call (hhdm addr k : Nat) (hh : hhdm % FRAME_SIZE = 0) :
    pageOf ((PHYS2VIRT hhdm addr + k * FRAME_SIZE) % 2 ^ 64) =
      (hhdm / FRAME_SIZE + (addr / FRAME_SIZE + k)) % 2 ^ 36 := by
  unfold pageOf PHYS2VIRT FRAME_SIZE at *
  omega

theorem mem_pageCalls (hhdm addr flags n : Nat) (op : Op) (hh : hhdm % FRAME_SIZE = 0)
    (h : addr + n * FRAME_SIZE ≤ 2 ^ 64) (hop : op ∈ pageCalls addr (PHYS2VIRT hhdm addr) flags n) :
    ∃ k, k < n ∧ op.page = (hhdm / FRAME_SIZE + (addr / FRAME_SIZE + k)) % 2 ^ 36 ∧
      value op = (addr + k * FRAME_SIZE) ||| flags := by
  obtain ⟨k, hk, rfl⟩ := List.mem_map.mp hop
  have hk := List.mem_range.mp hk
  refine ⟨k, hk, pageOf_call hhdm addr k hh, ?_⟩
  rw [value, Nat.mod_eq_of_lt (by unfold FRAME_SIZE at *; omega)]

/-! ## Which calls are made -/

variable {w : State} {ctx : BootCtx} {ld : Linkage}

theorem Booted.entry_bounds (hb : Booted w ctx ld) {e : MemmapEntry} {k : Nat} (he : e ∈ ctx.memmap_entries)
    (hm : e.Mapped) (hk : k < e.length / FRAME_SIZE) :
    e.base % FRAME_SIZE = 0 ∧ FRAME_SIZE * (k + 1) ≤ e.length ∧ e.base + e.length ≤ 2 ^ 52 ∧
      ctx.hhdm_addr + e.base + e.length ≤ 2 ^ 64 := by
  obtain ⟨ha, hdirect⟩ := hb.direct e he hm
  refine ⟨ha, ?_, hb.physical e he, hdirect⟩
  rw [Nat.mul_comm]
  exact (Nat.le_div_iff_mul_le (by decide)).mp hk

theorem Booted.page_bounds (hb : Booted w ctx ld) {s : Section} {v : Nat} (hs : s ∈ sections ld) (hv : s.Page v) :
    2 ^ 64 - 2 ^ 47 ≤ v ∧ ctx.kern_address_virt ≤ v ∧ v < 2 ^ 64 ∧ physOf ctx v % FRAME_SIZE = 0 ∧
      physOf ctx v < 2 ^ 52 := by
  obtain ⟨k, hk, -, himage⟩ := hb.image
  have hphysical := hb.physical k hk
  have himage := himage s hs v hv
  obtain ⟨hstart, hstop⟩ := hb.linked s hs
  have hhalf := hb.half
  have hbases := hb.bases
  obtain ⟨hle, hlt, hv⟩ := hv
  unfold physOf FRAME_SIZE at *
  omega

theorem pageCall_eq (hb : Booted w ctx ld) {e : MemmapEntry} {k : Nat} (he : e ∈ ctx.memmap_entries)
    (hm : e.Mapped) (hk : k < e.length / FRAME_SIZE) :
    Op.map ((e.base + k * FRAME_SIZE) % 2 ^ 64)
      ((PHYS2VIRT ctx.hhdm_addr e.base + k * FRAME_SIZE) % 2 ^ 64) (PAGE_PRESENT ||| PAGE_WRITE ||| PAGE_USER) =
      entryCall ctx e k := by
  obtain ⟨-, hle, hphysical, hdirect⟩ := hb.entry_bounds he hm hk
  have hphys : (e.base + k * FRAME_SIZE) % 2 ^ 64 = e.base + FRAME_SIZE * k := by
    unfold FRAME_SIZE at *
    omega
  have hvirt : (PHYS2VIRT ctx.hhdm_addr e.base + k * FRAME_SIZE) % 2 ^ 64 =
      ctx.hhdm_addr + e.base + FRAME_SIZE * k := by
    unfold PHYS2VIRT FRAME_SIZE at *
    omega
  rw [entryCall, hphys, hvirt]

theorem mem_memoryCalls (hb : Booted w ctx ld) (type : MemmapType)
    (htype : ∀ e : MemmapEntry, e.type = type → e.Mapped) (op : Op) :
    op ∈ memoryCalls type ctx ↔ ∃ e ∈ ctx.memmap_entries, e.type = type ∧
      ∃ k, k < e.length / FRAME_SIZE ∧ op = entryCall ctx e k := by
  unfold memoryCalls
  rw [List.mem_flatMap]
  refine exists_congr fun e => and_congr_right fun he => ?_
  split
  next h =>
    rw [pageCalls, List.mem_map]
    constructor
    · rintro ⟨k, hk, rfl⟩
      have hk := List.mem_range.mp hk
      exact ⟨h, k, hk, pageCall_eq hb he (htype e h) hk⟩
    · rintro ⟨-, k, hk, rfl⟩
      exact ⟨k, List.mem_range.mpr hk, pageCall_eq hb he (htype e h) hk⟩
  next h => simp [h]

theorem mem_sectionCalls (hb : Booted w ctx ld) {s : Section} (hs : s ∈ sections ld) (op : Op) :
    op ∈ sectionCalls ctx s ↔ ∃ v, s.Page v ∧ op = sectionCall ctx s v := by
  have haligned : s.start % FRAME_SIZE = 0 ∧ s.stop % FRAME_SIZE = 0 := by
    rcases mem_sections.mp hs with rfl | rfl | rfl <;> exact ⟨Nat.mul_mod_left _ _, Nat.mul_mod_left _ _⟩
  have hphys : ∀ v, s.Page v → (sub64 v ctx.kern_address_virt + ctx.kern_address_phys) % 2 ^ 64 = physOf ctx v := by
    intro v hv
    obtain ⟨-, hvirt, hlt, -, hphysical⟩ := hb.page_bounds hs hv
    unfold sub64 physOf at *
    omega
  rw [sectionCalls, List.mem_map]
  constructor
  · rintro ⟨i, hi, rfl⟩
    have hi := List.mem_range.mp hi
    have hv : s.Page (s.start + i * FRAME_SIZE) := by
      unfold Section.Page FRAME_SIZE at *
      omega
    exact ⟨_, hv, by rw [sectionCall, hphys _ hv]⟩
  · rintro ⟨v, hv, rfl⟩
    have hi : (v - s.start) / FRAME_SIZE < (s.stop - s.start) / FRAME_SIZE ∧
        s.start + (v - s.start) / FRAME_SIZE * FRAME_SIZE = v := by
      unfold Section.Page FRAME_SIZE at *
      omega
    refine ⟨(v - s.start) / FRAME_SIZE, List.mem_range.mpr hi.1, ?_⟩
    rw [hi.2, sectionCall, hphys v hv]

theorem mem_fullCalls (hb : Booted w ctx ld) (op : Op) :
    op ∈ fullCalls ctx ld ↔
      (∃ e ∈ ctx.memmap_entries, e.Mapped ∧ ∃ k, k < e.length / FRAME_SIZE ∧ op = entryCall ctx e k) ∨
      ∃ s ∈ sections ld, ∃ v, s.Page v ∧ op = sectionCall ctx s v := by
  have hsections : op ∈ (sections ld).flatMap (sectionCalls ctx) ↔
      ∃ s ∈ sections ld, ∃ v, s.Page v ∧ op = sectionCall ctx s v := by
    rw [List.mem_flatMap]
    exact exists_congr fun s => and_congr_right fun hs => mem_sectionCalls hb hs op
  unfold fullCalls
  rw [List.mem_append, hsections]
  refine or_congr_left ?_
  simp only [List.mem_append, or_assoc, or_self,
    mem_memoryCalls hb .USABLE (fun e h => Or.inl (Or.inl h)),
    mem_memoryCalls hb .BOOTLOADER_RECLAIMABLE (fun e h => Or.inl (Or.inr h)),
    mem_memoryCalls hb .FRAMEBUFFER (fun e h => Or.inr h)]
  constructor
  · rintro (⟨e, he, h, hk⟩ | ⟨e, he, h, hk⟩ | ⟨e, he, h, hk⟩)
    · exact ⟨e, he, Or.inl (Or.inr h), hk⟩
    · exact ⟨e, he, Or.inr h, hk⟩
    · exact ⟨e, he, Or.inl (Or.inl h), hk⟩
  · rintro ⟨e, he, (h | h) | h, hk⟩
    · exact Or.inr (Or.inr ⟨e, he, h, hk⟩)
    · exact Or.inl ⟨e, he, h, hk⟩
    · exact Or.inr (Or.inl ⟨e, he, h, hk⟩)

/-! ## Calls for the same page agree -/

theorem Booted.entry_page (hb : Booted w ctx ld) {e : MemmapEntry} {k : Nat} (he : e ∈ ctx.memmap_entries)
    (hm : e.Mapped) (hk : k < e.length / FRAME_SIZE) {v : Nat} (hv : 2 ^ 64 - 2 ^ 47 ≤ v ∧ v < 2 ^ 64)
    (ha : v % FRAME_SIZE = 0) (hhdm : ctx.hhdm_addr % FRAME_SIZE = 0)
    (h : pageOf (ctx.hhdm_addr + e.base + FRAME_SIZE * k) = pageOf v) :
    ctx.hhdm_addr + e.base + FRAME_SIZE * k = v := by
  obtain ⟨hbase, hle, -, hdirect⟩ := hb.entry_bounds he hm hk
  have hhalf := hb.half
  apply pageOf_inj _ _ _ hv _ ha h
  · unfold FRAME_SIZE at *
    omega
  · unfold FRAME_SIZE at *
    omega

theorem entry_entry (hb : Booted w ctx ld) (hhdm : ctx.hhdm_addr % FRAME_SIZE = 0) {e f : MemmapEntry} {i k : Nat}
    (he : e ∈ ctx.memmap_entries) (hem : e.Mapped) (hi : i < e.length / FRAME_SIZE)
    (hf : f ∈ ctx.memmap_entries) (hfm : f.Mapped) (hk : k < f.length / FRAME_SIZE)
    (h : (entryCall ctx e i).page = (entryCall ctx f k).page) : entryCall ctx e i = entryCall ctx f k := by
  obtain ⟨hbase, hle, -, hdirect⟩ := hb.entry_bounds hf hfm hk
  have hhalf := hb.half
  have hvirt := hb.entry_page he hem hi (v := ctx.hhdm_addr + f.base + FRAME_SIZE * k)
    (by unfold FRAME_SIZE at *; omega) (by unfold FRAME_SIZE at *; omega) hhdm h
  have hphys : e.base + FRAME_SIZE * i = f.base + FRAME_SIZE * k := by omega
  rw [entryCall, entryCall, hvirt, hphys]

theorem entry_section (hb : Booted w ctx ld) (hhdm : ctx.hhdm_addr % FRAME_SIZE = 0) {e : MemmapEntry} {k : Nat}
    {s : Section} {v : Nat} (he : e ∈ ctx.memmap_entries) (hm : e.Mapped) (hk : k < e.length / FRAME_SIZE)
    (hs : s ∈ sections ld) (hv : s.Page v) : (entryCall ctx e k).page ≠ (sectionCall ctx s v).page := by
  intro h
  obtain ⟨hhalf, -, hlt, -⟩ := hb.page_bounds hs hv
  obtain ⟨-, hle, -, -⟩ := hb.entry_bounds he hm hk
  have hvirt := hb.entry_page he hm hk ⟨hhalf, hlt⟩ hv.2.2 hhdm h
  have hapart := hb.apart e he hm s hs
  obtain ⟨hstart, hstop, -⟩ := hv
  unfold FRAME_SIZE at *
  omega

theorem Booted.section_eq (hb : Booted w ctx ld) {s t : Section} {v : Nat} (hs : s ∈ sections ld)
    (ht : t ∈ sections ld) (hsv : s.Page v) (htv : t.Page v) : s = t := by
  by_contra hne
  have hsymm : Std.Symm fun s t : Section => s.stop ≤ t.start ∨ t.stop ≤ s.start := ⟨fun _ _ => Or.symm⟩
  have hdisjoint := hb.disjoint.forall hs ht hne
  obtain ⟨hs1, hs2, -⟩ := hsv
  obtain ⟨ht1, ht2, -⟩ := htv
  omega

theorem section_section (hb : Booted w ctx ld) {s t : Section} {u v : Nat} (hs : s ∈ sections ld) (hu : s.Page u)
    (ht : t ∈ sections ld) (hv : t.Page v) (h : (sectionCall ctx s u).page = (sectionCall ctx t v).page) :
    sectionCall ctx s u = sectionCall ctx t v := by
  obtain ⟨hu1, -, hu2, -⟩ := hb.page_bounds hs hu
  obtain ⟨hv1, -, hv2, -⟩ := hb.page_bounds ht hv
  obtain rfl := pageOf_inj u v ⟨hu1, hu2⟩ ⟨hv1, hv2⟩ hu.2.2 hv.2.2 h
  rw [hb.section_eq hs ht hu hv]

theorem calls_agree (hb : Booted w ctx ld) (hhdm : ctx.hhdm_addr % FRAME_SIZE = 0) (a b : Op)
    (ha : a ∈ fullCalls ctx ld) (hbc : b ∈ fullCalls ctx ld) (h : a.page = b.page) : a = b := by
  rcases (mem_fullCalls hb a).mp ha with ⟨e, he, hem, i, hi, rfl⟩ | ⟨s, hs, u, hu, rfl⟩
  · rcases (mem_fullCalls hb b).mp hbc with ⟨f, hf, hfm, k, hk, rfl⟩ | ⟨t, ht, v, hv, rfl⟩
    · exact entry_entry hb hhdm he hem hi hf hfm hk h
    · exact absurd h (entry_section hb hhdm he hem hi ht hv)
  · rcases (mem_fullCalls hb b).mp hbc with ⟨f, hf, hfm, k, hk, rfl⟩ | ⟨t, ht, v, hv, rfl⟩
    · exact absurd h.symm (entry_section hb hhdm hf hfm hk hs hu)
    · exact section_section hb hs hu ht hv h

/-! ## The tables at the end -/

theorem full_map_entries (hw : Start w) (hlast : EndsEarly ld) (hframes : EnoughFrames w ctx ld) (page : Nat)
    (hpage : page < 2 ^ 36) :
    pageEntry (full_map w ctx ld) page = (fullCalls ctx ld).foldl (fun f op => op.apply f) (fun _ => 0) page := by
  rw [full_map_eq w ctx ld hlast]
  exact (foldl_next_agrees w _ (fullCalls ctx ld) hw.agrees hframes).2 page hpage

theorem full_map_call (hw : Start w) (hb : Booted w ctx ld) (hlast : EndsEarly ld)
    (hframes : EnoughFrames w ctx ld) (op : Op) (hop : op ∈ fullCalls ctx ld) :
    pageEntry (full_map w ctx ld) op.page = value op := by
  have hhdm : ctx.hhdm_addr % FRAME_SIZE = 0 := hb.hhdm ▸ hw.hhdm
  have hpage : op.page < 2 ^ 36 := by
    cases op <;> exact Nat.mod_lt _ (by decide)
  rw [full_map_entries hw hlast hframes _ hpage]
  apply foldl_apply_agree _ _ _ _ ⟨op, hop, rfl⟩
  intro a ha h
  rw [calls_agree hb hhdm a op ha hop h]

theorem section_flags {s : Section} (hs : s ∈ sections ld) :
    s.flags &&& ADDR_MASK = 0 ∧ s.flags &&& FLAG_MASK = s.flags ∧ s.flags % 2 = 1 := by
  rcases mem_sections.mp hs with rfl | rfl | rfl <;> simp only [text, rodata, data] <;> decide

theorem full_map_maps (hw : Start w) (hb : Booted w ctx ld) (hlast : EndsEarly ld)
    (hframes : EnoughFrames w ctx ld) : Maps (full_map w ctx ld) ctx ld := by
  refine ⟨?_, ?_, ?_⟩
  · intro e he hm k hk
    have hcall := (mem_fullCalls hb (entryCall ctx e k)).mpr (Or.inl ⟨e, he, hm, k, hk, rfl⟩)
    have hentry := full_map_call hw hb hlast hframes _ hcall
    obtain ⟨ha, hle, hphysical, -⟩ := hb.entry_bounds he hm hk
    apply translation_eq _ _ _ _ _ _ (by decide) hentry
    · unfold FRAME_SIZE at *
      omega
    · unfold FRAME_SIZE at *
      omega
  · intro s hs v hv
    have hcall := (mem_fullCalls hb (sectionCall ctx s v)).mpr (Or.inr ⟨s, hs, v, hv, rfl⟩)
    have hentry := full_map_call hw hb hlast hframes _ hcall
    obtain ⟨-, -, -, ha, hphysical⟩ := hb.page_bounds hs hv
    exact translation_eq _ _ _ _ ha hphysical (section_flags hs) hentry
  · intro page hpage hsome
    by_contra hnone
    push Not at hnone
    apply hsome
    apply translation_zero
    rw [full_map_entries hw hlast hframes page hpage]
    apply foldl_apply_other
    intro op hop h
    rcases (mem_fullCalls hb op).mp hop with ⟨e, he, hm, k, hk, rfl⟩ | ⟨s, hs, v, hv, rfl⟩
    · exact hnone.1 e he hm k hk h.symm
    · exact hnone.2 s hs v hv h.symm

end SlayerOS.Mapper
