import SlayerOS.Paging.Proofs

/-!
# Out of frames

`Mem::Frame::alloc` returns null when no frame is left, and `map` does not look. It writes
an entry that is present and leads to address 0, and then it goes on to the table at
address 0. Nothing is mapped there, so that the call ends in a page fault.
-/

open SlayerOS.Bytes SlayerOS.Frames SlayerOS.Radix

namespace SlayerOS.Paging

/-! ## The call, up to its fault -/

/-- One level of `map`. A look at a null table faults, in the state of that moment. -/
def next_table_or_fault (w : State) (table index : Nat) : Except State (Nat × State) :=
  if table = 0 then .error w else .ok (next_table w table index)

/-- `map`, or the state in which it faults. -/
def map_or_fault (w : State) (phys virt flags : Nat) : Except State State := do
  let pml3 ← next_table_or_fault w w.pml4 (pml4_index virt)
  let pml2 ← next_table_or_fault pml3.2 pml3.1 (pml3_index virt)
  let pml1 ← next_table_or_fault pml2.2 pml2.1 (pml2_index virt)
  if pml1.1 = 0 then .error pml1.2
  else
    let old := load pml1.2 pml1.1 (pml1_index virt)
    let perm_mod := present old.1
    let w := store old.2 pml1.1 (pml1_index virt) (phys ||| flags)
    .ok (if perm_mod then flush_tlb w else w)

/-- What the call leaves behind, whether it returns or faults. -/
def left : Except State State → State
  | .error w => w
  | .ok w => w

/-- The results of `Mem::Frame::alloc` that the call saw, each with the memory of that moment. -/
def taken (w : State) (phys virt flags : Nat) : List (Mem × Nat) :=
  (left (map_or_fault w phys virt flags)).calls.drop w.calls.length

/-- Every page goes where it went before, and the entries above the leaves lead to frames
that `Mem::Frame::alloc` has handed out. -/
structure Harmless (w w' : State) : Prop where
  pages : ∀ page, page < 2 ^ 36 → translate w' page = translate w page
  entries : ∀ p k i, p.length < 3 → tableOf w' p = some k → present (cells w'.mem k i) = true →
    ∃ c ∈ w'.calls, c.2 ≠ 0 ∧ PHYS2VIRT w'.hhdm_addr (cells w'.mem k i &&& PTE_MASK) = c.2

theorem map_or_fault_eq (w : State) (phys virt flags : Nat) :
    map_or_fault w phys virt flags =
      let r3 := next_table w w.pml4 (pml4_index virt)
      let r2 := next_table r3.2 r3.1 (pml3_index virt)
      let r1 := next_table r2.2 r2.1 (pml2_index virt)
      if w.pml4 = 0 then .error w
      else if r3.1 = 0 then .error r3.2
      else if r2.1 = 0 then .error r2.2
      else if r1.1 = 0 then .error r1.2
      else .ok (map w phys virt flags) := by
  unfold map_or_fault next_table_or_fault
  simp only
  by_cases h4 : w.pml4 = 0
  · rw [if_pos h4, if_pos h4]
    rfl
  · rw [if_neg h4, if_neg h4]
    simp only [bind, Except.bind]
    generalize hr3 : next_table w w.pml4 (pml4_index virt) = r3
    by_cases h3 : r3.1 = 0
    · rw [if_pos h3, if_pos h3]
    · rw [if_neg h3, if_neg h3]
      simp only
      generalize hr2 : next_table r3.2 r3.1 (pml3_index virt) = r2
      by_cases h2 : r2.1 = 0
      · rw [if_pos h2, if_pos h2]
      · rw [if_neg h2, if_neg h2, map_eq, lastTable]
        simp only [hr3, hr2]
        rfl

/-! ## The entry that leads to address 0 -/

/-- An entry above the leaves leads to address 0. -/
def Damaged (w : State) : Prop :=
  ∃ p k i, p.length < 3 ∧ tableOf w p = some k ∧ present (cells w.mem k i) = true ∧
    PHYS2VIRT w.hhdm_addr (cells w.mem k i &&& PTE_MASK) = 0

theorem Damaged.not_harmless {w w' : State} (h : Damaged w') : ¬ Harmless w w' := by
  obtain ⟨p, k, i, hp, ht, hpresent, hzero⟩ := h
  intro hharmless
  obtain ⟨c, -, hpos, hc⟩ := hharmless.entries p k i hp ht hpresent
  exact hpos (hc.symm.trans hzero)

theorem null_entry (hhdm e : Nat) (hh : hhdm % FRAME_SIZE = 0) (hhalf : 2 ^ 64 - 2 ^ 47 ≤ hhdm)
    (htop : hhdm < 2 ^ 64) (he : e = VIRT2PHYS hhdm 0 ||| PAGE_PRESENT ||| PAGE_WRITE) :
    e < 2 ^ 64 ∧ present e = true ∧ PHYS2VIRT hhdm (e &&& PTE_MASK) = 0 := by
  have hv : VIRT2PHYS hhdm 0 = 2 ^ 64 - hhdm := by unfold VIRT2PHYS sub64; omega
  rw [hv, lor_flags _ (by unfold FRAME_SIZE at *; omega)] at he
  unfold FRAME_SIZE at hh
  refine ⟨by omega, (present_iff e).mpr (by omega), ?_⟩
  rw [land_mask, PHYS2VIRT]
  omega

theorem next_table_null (w : State) (k : Nat) (p : List (Fin 512)) (i : Fin 512) (hw : Tables w)
    (hhalf : 2 ^ 64 - 2 ^ 47 ≤ w.hhdm_addr) (htop : w.hhdm_addr < 2 ^ 64) (ht : tableOf w p = some k)
    (hp : p.length < 3) (habsent : ¬ present (cells w.mem k i) = true) (hnull : w.frames w.calls.length = 0) :
    (next_table w (FRAME_SIZE * k) i).1 = 0 ∧ Damaged (next_table w (FRAME_SIZE * k) i).2 := by
  obtain ⟨hsmall, hpresent, hzero⟩ := null_entry w.hhdm_addr _ hw.hhdm hhalf htop rfl
  have hcells : cells (next_table w (FRAME_SIZE * k) i).2.mem =
      set (cells w.mem) k i (VIRT2PHYS w.hhdm_addr 0 ||| PAGE_PRESENT ||| PAGE_WRITE) := by
    rw [next_table_absent w _ _ habsent, ← Nat.mod_eq_of_lt hsmall, ← cells_write]
    simp [frame_alloc, store, hnull]
  have hlater := next_table_later w (FRAME_SIZE * k) i
  refine ⟨?_, p, k, i, hp, ?_, ?_, ?_⟩
  · rw [next_table_absent w _ _ habsent]
    exact hnull
  · unfold tableOf at ht ⊢
    rw [hlater.hhdm, hlater.pml4, hcells]
    exact follow_set_of_none _ _ _ _ (if_neg habsent) _ _ _ ht
  · rw [hcells, set_same]
    exact hpresent
  · rw [hcells, set_same, hlater.hhdm]
    exact hzero

theorem next_table_prefix (w : State) (table index : Nat) :
    w.calls <+: (next_table w table index).2.calls := by
  by_cases h : present (entry w.mem table index) = true
  · rw [next_table_present w table index h]
    exact List.prefix_refl _
  · rw [next_table_absent w table index h]
    exact List.prefix_append _ _

/-- The part of a call from `w` on has seen a null result, and the other frames were fresh. -/
def RunsOut (w final : State) : Prop :=
  (∃ c ∈ final.calls.drop w.calls.length, c.2 = 0) ∧
  ∀ c ∈ final.calls.drop w.calls.length, c.2 ≠ 0 → FreshFrame w c

theorem not_runsOut (w final : State) (h : final.calls = w.calls) : ¬ RunsOut w final := by
  rintro ⟨⟨c, hc, -⟩, -⟩
  rw [h, List.drop_length] at hc
  exact absurd hc (by simp)

/-- What the rest of the call sees, where the first level down has not seen null. -/
theorem RunsOut.rest {w w' final : State} (h : RunsOut w final) (hlater : Later w w')
    (hpre : w.calls <+: w'.calls) (hrest : w'.calls <+: final.calls)
    (hnew : ∀ c ∈ w'.calls.drop w.calls.length, c.2 ≠ 0) : RunsOut w' final := by
  obtain ⟨new, hnew'⟩ := hpre
  obtain ⟨rest, hrest'⟩ := hrest
  obtain ⟨⟨c, hc, hzero⟩, hfresh⟩ := h
  rw [← hrest', ← hnew', List.append_assoc, List.drop_left] at hc hfresh
  rw [← hnew', List.drop_left] at hnew
  unfold RunsOut
  rw [← hrest', List.drop_left]
  refine ⟨⟨c, ?_, hzero⟩, ?_⟩
  · rcases List.mem_append.mp hc with hc | hc
    · exact absurd hzero (hnew c hc)
    · exact hc
  · intro c hc hpos
    exact (hlater.fresh_iff c).mpr (hfresh c (List.mem_append_right _ hc) hpos)

/-- One level down: the tree is damaged at the end, or the next table is there and the
rest of the call runs out. -/
theorem next_table_exhausted (w final : State) (k : Nat) (p : List (Fin 512)) (i : Fin 512) (r : Nat × State)
    (hw : Tables w) (hhalf : 2 ^ 64 - 2 ^ 47 ≤ w.hhdm_addr) (htop : w.hhdm_addr < 2 ^ 64)
    (ht : tableOf w p = some k) (hp : p.length < 3) (hr : next_table w (FRAME_SIZE * k) i = r)
    (hfault : r.1 = 0 → final = r.2) (hrest : r.2.calls <+: final.calls) (hout : RunsOut w final) :
    Damaged final ∨
    RunsOut r.2 final ∧ ∃ k', r.1 = FRAME_SIZE * k' ∧ Tables r.2 ∧ tableOf r.2 (p ++ [i]) = some k' := by
  have hlater : Later w r.2 := hr ▸ next_table_later _ _ _
  have hpre : w.calls <+: r.2.calls := hr ▸ next_table_prefix _ _ _
  by_cases hpresent : present (cells w.mem k i) = true
  · right
    have hsame : r.2.calls = w.calls := by
      rw [← hr, next_table_present w _ _ hpresent]
      rfl
    obtain ⟨k', hk', hw', ht', -⟩ := next_table_made w k p i r hw ht hp hr (absurd hpresent)
    exact ⟨hout.rest hlater hpre hrest (by simp [hsame]), k', hk', hw', ht'⟩
  · have hcalls : r.2.calls = w.calls ++ [(w.mem, w.frames w.calls.length)] :=
      hr ▸ next_table_call w k i hpresent
    by_cases hnull : w.frames w.calls.length = 0
    · left
      obtain ⟨hzero, hdamaged⟩ := next_table_null w k p i hw hhalf htop ht hp hpresent hnull
      rw [hr] at hzero hdamaged
      rw [hfault hzero]
      exact hdamaged
    · right
      have hfresh : FreshFrame w (w.mem, w.frames w.calls.length) := by
        obtain ⟨rest, hrest'⟩ := hrest
        apply hout.2 _ _ hnull
        rw [← hrest', hcalls, List.append_assoc, List.drop_left]
        exact List.mem_append_left _ (List.mem_singleton_self _)
      obtain ⟨k', hk', hw', ht', -⟩ := next_table_made w k p i r hw ht hp hr fun _ => hfresh
      exact ⟨hout.rest hlater hpre hrest (by simpa [hcalls] using hnull), k', hk', hw', ht'⟩

/-! ## Calls -/

theorem map_exhausted_damages (w : State) (phys virt flags : Nat) (hw : Tables w)
    (hhalf : 2 ^ 64 - 2 ^ 47 ≤ w.hhdm_addr) (htop : w.hhdm_addr < 2 ^ 64)
    (hout : RunsOut w (left (map_or_fault w phys virt flags))) :
    Damaged (left (map_or_fault w phys virt flags)) := by
  obtain ⟨h4, h3, h2, -⟩ := index_eq virt
  have hroot := root_eq w hw.pml4
  have hmap := map_calls w phys virt flags
  unfold lastTable at hmap
  rw [map_or_fault_eq] at hout ⊢
  simp only [h4, h3, h2] at hout hmap ⊢
  generalize hr3 : next_table w w.pml4 (index4 (virt / FRAME_SIZE)) = r3 at *
  generalize hr2 : next_table r3.2 r3.1 (index3 (virt / FRAME_SIZE)) = r2 at *
  generalize hr1 : next_table r2.2 r2.1 (index2 (virt / FRAME_SIZE)) = r1 at *
  have hl3 : Later w r3.2 := hr3 ▸ next_table_later _ _ _
  have hl2 : Later w r2.2 := hl3.trans (hr2 ▸ next_table_later _ _ _)
  have hp2 : r3.2.calls <+: r2.2.calls := hr2 ▸ next_table_prefix _ _ _
  have hp1 : r2.2.calls <+: r1.2.calls := hr1 ▸ next_table_prefix _ _ _
  by_cases h0 : w.pml4 = 0
  · rw [if_pos h0] at hout
    exact absurd hout (not_runsOut w w rfl)
  rw [if_neg h0] at hout ⊢
  generalize hfinal : left _ = final at *
  -- Each level either faults, and the call is over, or leaves the rest to the levels below.
  have hrest1 : r3.1 ≠ 0 → r2.1 ≠ 0 → r1.2.calls <+: final.calls := by
    intro h3 h2
    rw [← hfinal, if_neg h3, if_neg h2]
    split
    · exact List.prefix_refl _
    · exact hmap ▸ List.prefix_refl _
  have hrest2 : r3.1 ≠ 0 → r2.2.calls <+: final.calls := by
    intro h3
    by_cases h2 : r2.1 = 0
    · rw [← hfinal, if_neg h3, if_pos h2]
      exact List.prefix_refl _
    · exact hp1.trans (hrest1 h3 h2)
  have hrest3 : r3.2.calls <+: final.calls := by
    by_cases h3 : r3.1 = 0
    · rw [← hfinal, if_pos h3]
      exact List.prefix_refl _
    · exact hp2.trans (hrest2 h3)
  rw [hroot] at hr3
  rcases next_table_exhausted w final _ [] _ r3 hw hhalf htop rfl (by simp) hr3
    (fun h => by rw [← hfinal, if_pos h]; rfl) hrest3 hout with hdone | ⟨hout3, k3, hk3, hw3, ht3⟩
  · exact hdone
  by_cases h3 : r3.1 = 0
  · rw [if_pos h3] at hfinal
    exact absurd hout3 (not_runsOut _ _ (by rw [← hfinal]; rfl))
  rw [hk3] at hr2
  rcases next_table_exhausted r3.2 final _ _ _ r2 hw3 (hl3.hhdm ▸ hhalf) (hl3.hhdm ▸ htop) ht3 (by simp) hr2
    (fun h => by rw [← hfinal, if_neg h3, if_pos h]; rfl) (hrest2 h3) hout3 with hdone | ⟨hout2, k2, hk2, hw2, ht2⟩
  · exact hdone
  by_cases h2 : r2.1 = 0
  · rw [if_neg h3, if_pos h2] at hfinal
    exact absurd hout2 (not_runsOut _ _ (by rw [← hfinal]; rfl))
  rw [hk2] at hr1
  rcases next_table_exhausted r2.2 final _ _ _ r1 hw2 (hl2.hhdm ▸ hhalf) (hl2.hhdm ▸ htop) ht2 (by simp) hr1
    (fun h => by rw [← hfinal, if_neg h3, if_neg h2, if_pos h]; rfl) (hrest1 h3 h2) hout2 with hdone | ⟨hout1, -⟩
  · exact hdone
  refine absurd hout1 (not_runsOut _ _ ?_)
  rw [← hfinal, if_neg h3, if_neg h2]
  split
  · rfl
  · exact hmap

/-- A call that sees a null result is never harmless: it leaves an entry behind that leads
to address 0. -/
theorem exhausted_not_harmless (w : State) (phys virt flags : Nat) (hw : Tables w)
    (hhalf : 2 ^ 64 - 2 ^ 47 ≤ w.hhdm_addr) (htop : w.hhdm_addr < 2 ^ 64)
    (hfresh : ∀ c ∈ taken w phys virt flags, c.2 ≠ 0 → FreshFrame w c)
    (hnull : ∃ c ∈ taken w phys virt flags, c.2 = 0) :
    ¬ Harmless w (left (map_or_fault w phys virt flags)) :=
  (map_exhausted_damages w phys virt flags hw hhalf htop ⟨hnull, hfresh⟩).not_harmless

/-- Cleared tables, and frames for the first `n` calls only. -/
def lastFrames (n : Nat) : State :=
  { clearTables with frames := fun i => if i < n then clearTables.frames i else 0 }

theorem lastFrames_start (n : Nat) : Start (lastFrames n) :=
  ⟨clearTables_start.hhdm, clearTables_start.pml4, clearTables_start.clear⟩

theorem lastFrames_fresh : FreshFrame (lastFrames 1) (fun _ => 0, 0xffff800000002000) := by
  refine ⟨by decide, by decide, by decide, ?_⟩
  rintro ⟨p, -, hp⟩
  obtain rfl := (lastFrames_start 1).tableOf_nil p _ hp
  exact absurd hp (by decide)

theorem exhausted_not_harmless_second_level :
    (taken (lastFrames 1) 0x5000 0x400000 3).map Prod.snd = [0xffff800000002000, 0] ∧
    ¬ Harmless (lastFrames 1) (left (map_or_fault (lastFrames 1) 0x5000 0x400000 3)) := by
  obtain ⟨m, htaken⟩ : ∃ m, taken (lastFrames 1) 0x5000 0x400000 3 =
      [(fun _ => 0, 0xffff800000002000), (m, 0)] := ⟨_, rfl⟩
  refine ⟨by rw [htaken]; rfl,
    exhausted_not_harmless _ _ _ _ (lastFrames_start 1).tables.1 (by decide) (by decide) ?_ ⟨(m, 0), ?_, rfl⟩⟩
  · rw [htaken]
    intro c hc hpos
    rcases List.mem_cons.mp hc with rfl | hc
    · exact lastFrames_fresh
    · obtain rfl := List.mem_singleton.mp hc
      exact absurd rfl hpos
  · rw [htaken]
    exact List.mem_cons_of_mem _ (List.mem_singleton_self _)

/-- No frame is left, and the first table is missing. -/
theorem exhausted_first_level :
    Tables (lastFrames 0) ∧ (taken (lastFrames 0) 0x5000 0x400000 3).map Prod.snd = [0] ∧
    ¬ Harmless (lastFrames 0) (left (map_or_fault (lastFrames 0) 0x5000 0x400000 3)) := by
  obtain ⟨m, htaken⟩ : ∃ m, taken (lastFrames 0) 0x5000 0x400000 3 = [(m, 0)] := ⟨_, rfl⟩
  refine ⟨(lastFrames_start 0).tables.1, by rw [htaken]; rfl, Damaged.not_harmless ?_⟩
  apply map_exhausted_damages _ _ _ _ (lastFrames_start 0).tables.1 (by decide) (by decide)
  change (∃ c ∈ taken _ _ _ _, c.2 = 0) ∧ ∀ c ∈ taken _ _ _ _, c.2 ≠ 0 → FreshFrame _ c
  rw [htaken]
  refine ⟨⟨(m, 0), List.mem_singleton_self _, rfl⟩, ?_⟩
  intro c hc hpos
  obtain rfl := List.mem_singleton.mp hc
  exact absurd rfl hpos

end SlayerOS.Paging
