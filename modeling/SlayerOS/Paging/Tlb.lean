import SlayerOS.Paging.Proofs

/-!
# The TLB says what the tables say

A write to an entry that was not present changes no translation that could be cached. A
write to one that was present is followed by a flush.
-/

open SlayerOS.Bytes SlayerOS.Frames SlayerOS.Radix SlayerOS.Run

namespace SlayerOS.Paging

/-- The direct map and the `pml4` are on frame boundaries. -/
structure Aligned (w : State) : Prop where
  hhdm : w.hhdm_addr % FRAME_SIZE = 0
  pml4 : w.pml4 % FRAME_SIZE = 0

theorem Later.aligned {w w' : State} (h : Later w w') (hw : Aligned w) : Aligned w' :=
  ⟨by rw [h.hhdm]; exact hw.hhdm, by rw [h.pml4]; exact hw.pml4⟩

theorem translate_eq_some (w : State) (page e : Nat) (hw : Aligned w) :
    translate w page = some e ↔
      ∃ k, tableOf w (path page) = some k ∧ cells w.mem k (index1 page) = e ∧ present e = true := by
  unfold translate
  rw [walk_eq w page hw.hhdm hw.pml4, Option.filter_eq_some_iff, Option.map_eq_some_iff]
  constructor
  · rintro ⟨⟨k, hk, he⟩, hp⟩
    exact ⟨k, hk, he, hp⟩
  · rintro ⟨k, hk, he, hp⟩
    exact ⟨⟨k, hk, he⟩, hp⟩

theorem tick_coherent (w : State) (hw : Coherent w) : Coherent (tick w) := by
  intro page e h
  simp only [tick, List.mem_append, List.mem_filterMap] at h
  rcases h with ⟨p, -, hp⟩ | h
  · obtain ⟨e', he', heq⟩ := Option.map_eq_some_iff.mp hp
    obtain ⟨rfl, rfl⟩ := Prod.mk.inj heq
    exact he'
  · exact hw page e h

theorem ticks_coherent (w : State) (n : Nat) (hw : Coherent w) : Coherent (tick^[n] w) := by
  induction n with
  | zero => exact hw
  | succ n ih =>
    rw [Function.iterate_succ_apply']
    exact tick_coherent _ ih

theorem Coherent.keep {w w' : State} (hw : Coherent w) (haligned : Aligned w) (hlater : Later w w')
    (htlb : w'.tlb = (tick w).tlb)
    (hkeep : ∀ page t, tableOf w (path page) = some t → present (cells w.mem t (index1 page)) = true →
      tableOf w' (path page) = some t ∧ cells w'.mem t (index1 page) = cells w.mem t (index1 page)) :
    Coherent w' := by
  intro page e h
  rw [htlb] at h
  obtain ⟨t, ht, rfl, hp⟩ := (translate_eq_some w page e haligned).mp (tick_coherent w hw page e h)
  obtain ⟨ht', hcell⟩ := hkeep page t ht hp
  exact (translate_eq_some w' page _ (hlater.aligned haligned)).mpr ⟨t, ht', hcell, hp⟩

theorem store_coherent (w : State) (k : Nat) (i : Fin 512) (v : Nat) (haligned : Aligned w)
    (habsent : ¬ present (cells w.mem k i) = true) (hw : Coherent w) :
    Coherent (store w (FRAME_SIZE * k) i v) := by
  have hcells : cells (store w (FRAME_SIZE * k) i v).mem = set (cells w.mem) k i (v % 2 ^ 64) :=
    cells_write w.mem k i v
  have hlater : Later w (store w (FRAME_SIZE * k) i v) := ⟨rfl, rfl, rfl, fun _ hc => hc⟩
  refine hw.keep haligned hlater rfl ?_
  intro page t ht hp
  constructor
  · unfold tableOf at ht ⊢
    rw [hlater.hhdm, hlater.pml4, hcells]
    exact follow_set_of_none _ k i _ (if_neg habsent) _ t _ ht
  · rw [hcells, set_other]
    by_contra hcell
    push Not at hcell
    obtain ⟨rfl, hi⟩ := hcell
    rw [hi] at hp
    exact habsent hp

theorem frame_alloc_cells (w : State) (hc : NullOrUnused w (w.mem, w.frames w.calls.length)) :
    ∃ u, (frame_alloc w).1 = FRAME_SIZE * u ∧ (cells (frame_alloc w).2.mem = cells w.mem ∨
      cells (frame_alloc w).2.mem = Function.update (cells w.mem) u (fun _ => 0) ∧
        ¬ Reach (child w.hhdm_addr) (cells w.mem) (w.pml4 / FRAME_SIZE) 3 u) := by
  by_cases hnull : w.frames w.calls.length = 0
  · refine ⟨0, hnull, Or.inl ?_⟩
    simp [frame_alloc, hnull]
  · obtain ⟨hal, hunused⟩ := hc.resolve_left hnull
    simp only at hal hunused
    have hu : w.frames w.calls.length = FRAME_SIZE * (w.frames w.calls.length / FRAME_SIZE) := by
      unfold FRAME_SIZE at *
      omega
    refine ⟨_, hu, Or.inr ⟨?_, hunused⟩⟩
    rw [← cells_fill, ← hu]
    simp [frame_alloc, hnull]

theorem frame_alloc_coherent (w : State) (haligned : Aligned w) (hw : Coherent w)
    (hc : NullOrUnused w (w.mem, w.frames w.calls.length)) : Coherent (frame_alloc w).2 := by
  have hlater : Later w (frame_alloc w).2 := ⟨rfl, rfl, rfl, List.subset_append_left _ _⟩
  obtain ⟨u, -, hcells⟩ := frame_alloc_cells w hc
  refine hw.keep haligned hlater rfl ?_
  intro page t ht _
  unfold tableOf at ht ⊢
  rw [hlater.hhdm, hlater.pml4]
  rcases hcells with hcells | ⟨hcells, hunused⟩
  · rw [hcells]
    exact ⟨ht, rfl⟩
  · have htu : t ≠ u := by
      rintro rfl
      exact hunused ⟨path page, by simp [path], ht⟩
    rw [hcells, Function.update_of_ne htu, follow_clear _ _ 3 u 0 hunused _ (by simp [path])]
    exact ⟨ht, rfl⟩

theorem Later.nullOrUnused {w w' : State} (h : Later w w') (c : Mem × Nat) :
    NullOrUnused w' c ↔ NullOrUnused w c := by
  unfold NullOrUnused InUse
  rw [h.hhdm, h.pml4]

theorem next_table_coherent (w : State) (k : Nat) (i : Fin 512) (r : Nat × State) (haligned : Aligned w)
    (hw : Coherent w) (hr : next_table w (FRAME_SIZE * k) i = r)
    (hcalls : ∀ c ∈ r.2.calls, NullOrUnused w c) : (∃ k', r.1 = FRAME_SIZE * k') ∧ Coherent r.2 := by
  by_cases hpresent : present (cells w.mem k i) = true
  · rw [next_table_present w _ _ hpresent] at hr
    rw [← hr]
    exact ⟨⟨_, phys2virt_aligned _ _ haligned.hhdm⟩, tick_coherent _ (tick_coherent w hw)⟩
  · rw [next_table_absent w _ _ hpresent] at hr
    have hc : NullOrUnused (tick w) (w.mem, w.frames w.calls.length) := by
      apply hcalls
      rw [← hr]
      simp [frame_alloc, store]
    have haligned' : Aligned (tick w) := ⟨haligned.hhdm, haligned.pml4⟩
    obtain ⟨u, hu, hcells⟩ := frame_alloc_cells (tick w) hc
    have hcoherent := frame_alloc_coherent (tick w) haligned' (tick_coherent w hw) hc
    rw [← hr]
    refine ⟨⟨u, hu⟩, store_coherent _ k i _ ⟨haligned.hhdm, haligned.pml4⟩ ?_ hcoherent⟩
    -- The entry is what it was, or the frame is its own table and it is 0 now.
    rcases hcells with hcells | ⟨hcells, -⟩
    · rw [hcells]
      exact hpresent
    · rw [hcells]
      by_cases hku : k = u
      · rw [hku, Function.update_self]
        decide
      · rw [Function.update_of_ne hku]
        exact hpresent

theorem flush_tlb_coherent (w : State) : Coherent (flush_tlb w) := by
  intro page e h
  simp [flush_tlb] at h

theorem lastTable_coherent (w : State) (virt : Nat) (haligned : Aligned w) (hw : Coherent w)
    (hcalls : ∀ c ∈ (lastTable w virt).2.calls, NullOrUnused w c) :
    (∃ k, (lastTable w virt).1 = FRAME_SIZE * k) ∧ Coherent (lastTable w virt).2 := by
  obtain ⟨h4, h3, h2, -⟩ := index_eq virt
  have hroot := root_eq w haligned.pml4
  simp only [lastTable, h4, h3, h2] at hcalls ⊢
  generalize hr3 : next_table w w.pml4 (index4 (virt / FRAME_SIZE)) = r3 at *
  generalize hr2 : next_table r3.2 r3.1 (index3 (virt / FRAME_SIZE)) = r2 at *
  generalize hr1 : next_table r2.2 r2.1 (index2 (virt / FRAME_SIZE)) = r1 at *
  have hl3 : Later w r3.2 := hr3 ▸ next_table_later _ _ _
  have hl2 : Later r3.2 r2.2 := hr2 ▸ next_table_later _ _ _
  have hl1 : Later r2.2 r1.2 := hr1 ▸ next_table_later _ _ _
  rw [hroot] at hr3
  obtain ⟨⟨k3, hk3⟩, hw3⟩ := next_table_coherent w _ _ r3 haligned hw hr3
    fun c hc => hcalls c (hl1.calls (hl2.calls hc))
  rw [hk3] at hr2
  obtain ⟨⟨k2, hk2⟩, hw2⟩ := next_table_coherent r3.2 _ _ r2 (hl3.aligned haligned) hw3 hr2
    fun c hc => (hl3.nullOrUnused c).mpr (hcalls c (hl1.calls hc))
  rw [hk2] at hr1
  exact next_table_coherent r2.2 _ _ r1 ((hl3.trans hl2).aligned haligned) hw2 hr1
    fun c hc => ((hl3.trans hl2).nullOrUnused c).mpr (hcalls c hc)

theorem map_coherent (w : State) (phys virt flags : Nat) (haligned : Aligned w) (hw : Coherent w)
    (hcalls : ∀ c ∈ (map w phys virt flags).calls, NullOrUnused w c) :
    Coherent (map w phys virt flags) := by
  rw [map_calls] at hcalls
  obtain ⟨⟨k, hk⟩, hw1⟩ := lastTable_coherent w virt haligned hw hcalls
  have haligned1 := (lastTable_later w virt).aligned haligned
  obtain ⟨-, -, -, h1⟩ := index_eq virt
  rw [map_eq, h1]
  simp only
  generalize lastTable w virt = r at *
  rw [hk]
  split
  case isTrue => exact flush_tlb_coherent _
  case isFalse habsent =>
    exact store_coherent (tick r.2) k _ _ ⟨haligned1.hhdm, haligned1.pml4⟩ habsent (tick_coherent _ hw1)

theorem unmap_coherent (w : State) (virt : Nat) (hw : Coherent w) : Coherent (unmap w virt) := by
  obtain ⟨n, hn⟩ := unmap_spec w virt
  rw [hn]
  cases walk_tables w virt with
  | none => exact ticks_coherent w n hw
  | some pml1 => exact flush_tlb_coherent _

/-! ## Runs -/

theorem next_later (w : State) (op : Op) : Later w (next w op) := by
  cases op with
  | map phys virt flags =>
    have h := (lastTable_later w virt).trans (map_later w phys virt flags)
    exact ⟨h.hhdm, h.pml4, h.frames, h.calls⟩
  | unmap virt =>
    obtain ⟨n, hn⟩ := unmap_spec w virt
    obtain ⟨-, -, h⟩ := ticks_same w n
    rw [next, hn]
    cases walk_tables w virt <;> exact ⟨h.hhdm, h.pml4, h.frames, h.calls⟩

theorem next_coherent (w : State) (op : Op) (haligned : Aligned w) (hw : Coherent w)
    (hop : Unaliased w op) : Coherent (next w op) := by
  cases op with
  | map phys virt flags => exact tick_coherent _ (map_coherent w phys virt flags haligned hw hop)
  | unmap virt => exact tick_coherent _ (unmap_coherent w virt hw)

/-- After each call, the TLB holds nothing but what the tables say, whatever the processor
cached on the way. -/
theorem run_coherent (w : State) (ops : List Op) (hhhdm : w.hhdm_addr % FRAME_SIZE = 0)
    (hpml4 : w.pml4 % FRAME_SIZE = 0) (hw : Coherent w) (hops : Along step Unaliased w ops) :
    ∃ w', run step w ops = some w' ∧ Coherent w' := by
  have hstep : ∀ w op, (Aligned w ∧ Coherent w) → Unaliased w op →
      ∃ w', step w op = some w' ∧ Aligned w' ∧ Coherent w' := by
    rintro w op ⟨haligned, hw⟩ hop
    exact ⟨next w op, rfl, (next_later w op).aligned haligned, next_coherent w op haligned hw hop⟩
  obtain ⟨w', hrun, -, hcoherent⟩ := run_inv hstep w ops ⟨⟨hhhdm, hpml4⟩, hw⟩ hops
  exact ⟨w', hrun, hcoherent⟩

theorem Legal.unaliased {w : State} {op : Op} (h : Legal w op) : Unaliased w op :=
  fun c hc => Or.inr ⟨(h.2 c hc).aligned, (h.2 c hc).unused⟩

theorem run_coherent_three :
    ∃ w', run step clearTables [.map 0x5000 0x400000 3, .map 0x6000 0x400000 1, .unmap 0x400000] = some w' ∧
      Coherent w' := by
  have hlegal := supply_legal clearTables
    [.map 0x5000 0x400000 3, .map 0x6000 0x400000 1, .unmap 0x400000] clearTables_start rfl
    (clearTables_supply 9 (by decide)) (by simp [Op.Ok])
  apply run_coherent clearTables _ (by decide) (by decide)
  · intro page e h
    exact absurd h (by simp [clearTables])
  · exact Along.mono (fun _ _ h => h.unaliased) _ _ hlegal

end SlayerOS.Paging
