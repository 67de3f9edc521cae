import Mathlib.Data.List.Nodup
import SlayerOS.Heap.Sizes

/-!
# What a call does to the blocks of its clients

`kmalloc` adds one block, inside the regions of the heap. `kfree` takes a block out if it is
on the first page, and no other one.
-/

open SlayerOS.Bytes SlayerOS.Frames SlayerOS.Run

namespace SlayerOS.Heap

/-- `kmalloc`, and the block that it gives to a client. -/
def kmalloc_block (fuel : Nat) (w : World) (size : Nat) : Option (Nat × World) := do
  let r ← kmalloc fuel { w.h with written := [] } size
  some (r.1, ⟨r.2, (r.1, size) :: w.live⟩)

/-- A region of frames between `lo` and `hi`. -/
def Between (lo hi : Nat) (r : Nat × Nat) : Prop := lo ≤ r.1 ∧ r.1 + r.2 * FRAME_SIZE ≤ hi

/-- If `kmalloc` will ask for frames, the answer is a fresh region between `lo` and `hi`. -/
def Supplied (lo hi fuel : Nat) (h : State) (size : Nat) : Prop :=
  NeedsPage fuel h size →
    FreshRegion h (num_pages size) ∧ Between lo hi (h.allocs h.regions.length, num_pages size)

/-- The bytes of the live blocks are the same. -/
def BlocksKept (w w' : World) : Prop := ∀ b ∈ w.live, ∀ x, b.1 ≤ x → x < b.1 + b.2 → w'.h.mem x = w.h.mem x

theorem HeapInv.unique {w : World} {pages : List Page} (hw : HeapInv w pages) (b c : Nat × Nat) (hb : b ∈ w.live)
    (hc : c ∈ w.live) (heq : b.1 = c.1) : b = c := by
  have hnodup : (w.live.map Prod.fst).Nodup := List.pairwise_map.mpr hw.distinct
  exact List.inj_on_of_nodup_map hnodup hb hc heq

theorem HeapInv.block_apart {w : World} {pages : List Page} (hw : HeapInv w pages) (b c : Nat × Nat)
    (hb : b ∈ w.live) (hc : c ∈ w.live) (hne : b.1 ≠ c.1) : Apart b.1 b.2 c.1 c.2 :=
  InSegment.apart hw.holds b c (hw.live b hb) (hw.live c hc) hne

theorem HeapInv.heap_ne {w : World} {pages : List Page} (hw : HeapInv w pages) (b : Nat × Nat)
    (hb : b ∈ w.live) : w.h.heap ≠ 0 := by
  obtain ⟨p, hp, -⟩ := hw.live b hb
  exact hw.holds.chain.heap_ne (List.ne_nil_of_mem hp)

/-! ## `kmalloc` -/

theorem step_kmalloc (fuel : Nat) (w : World) (size : Nat) :
    step fuel w (.kmalloc size) = (kmalloc_block fuel w size).map Prod.snd := by
  simp only [step, kmalloc_block, Option.bind_eq_bind, Option.map_bind, Function.comp_def, Option.map_some]

theorem Served.regions {pages pages' : List Page} {size q : Nat} (hs : Served pages pages' size q) :
    pages'.map Page.region = pages.map Page.region := by
  obtain ⟨ps, p, qs, pre, g, post, rfl, -, -, -, rfl, -⟩ := hs
  simp [Page.region, Page.serve]

theorem InSegment.region {h : State} {pages : List Page} (hh : Holds h pages) (b : Nat × Nat)
    (hb : InSegment pages b) : ∃ r ∈ h.regions, r.1 + 64 ≤ b.1 ∧ b.1 + b.2 ≤ r.1 + r.2 * FRAME_SIZE := by
  obtain ⟨p, hp, a, g, hag, hb1, -, hb2⟩ := hb
  have hpl := hh.placed p hp a g hag
  simp only [segment_bytes] at hb1
  refine ⟨p.region, by rw [hh.regions]; exact List.mem_map_of_mem hp, ?_⟩
  simp only [Page.region]
  omega

theorem kmalloc_answer (fuel : Nat) (h : State) (pages old pages' : List Page) (size : Nat) (c : Nat × State)
    (hh : Holds h pages) (hc : kmalloc fuel h size = some c) (hall : Allocated h pages old pages' size c)
    (hold : old = pages ∨ old = pages ++ [newPage h size]) (hfuel : weight pages < fuel) :
    c.2.regions = h.regions ∨
    NeedsPage fuel h size ∧ c.2.regions = h.regions ++ [(h.allocs h.regions.length, num_pages size)] := by
  have hregions : c.2.regions = old.map Page.region := by rw [hall.holds.regions, hall.served.regions]
  by_cases hno : NoFit size pages
  · rw [hregions]
    rcases hold with rfl | rfl
    · exact Or.inl hh.regions.symm
    · refine Or.inr ⟨needsPage_of_noFit fuel h pages size hh.chain hno hfuel, ?_⟩
      rw [List.map_append, ← hh.regions]
      rfl
  · obtain ⟨p, a, g, -, -, -, hd⟩ := kmalloc_found (weight pages + 1) h pages size hh.chain (by omega) hno
    rw [kmalloc_agree _ _ h size c _ hc hd, alloc_segment_regions]
    exact Or.inl rfl

/-- What `kmalloc` does to the blocks: a new one, between `lo` and `hi`. -/
structure Gives (lo hi size : Nat) (w : World) (r : Nat × World) : Prop where
  live : r.2.live = (r.1, size) :: w.live
  data : BlocksKept w r.2
  regions : w.h.regions <+: r.2.h.regions
  between : ∀ q ∈ r.2.h.regions, Between lo hi q
  pos : r.1 ≠ 0
  lo : lo ≤ r.1
  hi : r.1 + size ≤ hi

theorem kmalloc_gives (lo hi fuel : Nat) (w : World) (pages : List Page) (size : Nat) (hw : HeapInv w pages)
    (hbetween : ∀ q ∈ w.h.regions, Between lo hi q) (hsize : size < 2 ^ 32)
    (hroom : Supplied lo hi fuel w.h size) (hfuel : weight pages + 5 ≤ fuel) :
    ∃ r pages', kmalloc_block fuel w size = some r ∧ HeapInv r.2 pages' ∧
      weight pages' ≤ weight pages + 3 ∧ Gives lo hi size w r := by
  have hh : Holds { w.h with written := [] } pages := hw.holds.unwritten
  obtain ⟨c, old, pages', hc, hall, hold⟩ := kmalloc_spec fuel _ pages size hh hsize
    (fun hn => ⟨(hroom hn).1.ok, (hroom hn).1.apart⟩) hfuel
  have hanswer := kmalloc_answer fuel _ pages old pages' size c hh hc hall hold (by omega)
  have hinv := hall.inv hw hold
  have hregions : ∀ q ∈ c.2.regions, Between lo hi q := by
    rcases hanswer with heq | ⟨hneeds, heq⟩
    · rw [heq]
      exact hbetween
    · rw [heq]
      intro q hq
      rcases List.mem_append.mp hq with hq | hq
      · exact hbetween q hq
      · rw [List.mem_singleton.mp hq]
        exact (hroom hneeds).2
  obtain ⟨q, hq, hlo, hhi⟩ := InSegment.region hall.holds (c.1, size) hall.served.new
  have hq' := hregions q hq
  unfold Between at hq'
  simp only at hlo hhi
  refine ⟨(c.1, ⟨c.2, (c.1, size) :: w.live⟩), pages', ?_, hinv, ?_, rfl, ?_, ?_, hregions, ?_, ?_, ?_⟩
  · simp only [kmalloc_block, hc, Option.bind_eq_bind, Option.bind_some]
  · have hwt := hall.served.weight
    have : weight old ≤ weight pages + 2 := by
      rcases hold with rfl | rfl
      · omega
      · simp [weight_append, weight, newPage]
    omega
  · intro b hb x h1 h2
    exact hall.data.block b (hw.live b hb) x h1 h2
  · rcases hanswer with heq | ⟨-, heq⟩
    · exact heq ▸ List.prefix_refl _
    · exact heq ▸ List.prefix_append _ _
  · simp only
    omega
  · simp only
    omega
  · simp only
    omega

/-! ## `kfree` -/

/-- What `kfree` does to the blocks, whatever the address. -/
structure Takes (addr : Nat) (w w' : World) : Prop where
  subset : w'.live ⊆ w.live
  live : ∀ b ∈ w.live, b ∈ w'.live ↔ (b.1 = addr → ¬ OnFirstPage w.h addr)
  data : BlocksKept w w'
  heap : w'.h.heap = w.h.heap
  regions : w'.h.regions = w.h.regions

theorem kfree_takes (fuel : Nat) (w : World) (pages : List Page) (addr : Nat) (hw : HeapInv w pages)
    (hheap : w.h.heap ≠ 0) (hfuel : weight pages + 5 ≤ fuel) :
    ∃ w' pages', step fuel w (.kfree addr) = some w' ∧ HeapInv w' pages' ∧ weight pages' ≤ weight pages ∧
      Takes addr w w' := by
  obtain ⟨p, ps, rfl⟩ := hw.cons hheap
  have hh : Holds { w.h with written := [] } (p :: ps) := hw.holds.unwritten
  rcases kfree_spec fuel _ p ps addr hh (by omega) with ⟨c, pre, g, post, hc, hr⟩ | ⟨-, hc⟩
  · have hregions : c.regions = w.h.regions := by
      rw [hr.holds.regions, hw.holds.regions]
      rfl
    have hfirst : OnFirstPage w.h addr := by
      have hpl := hh.placed p List.mem_cons_self _ g ((p.mem_placed _ g).mpr ⟨pre, post, hr.segs, rfl⟩)
      have hhead : w.h.heap = p.base := hw.holds.head
      refine ⟨p.count, ?_, ?_⟩
      · rw [hw.holds.regions, hhead]
        rfl
      · rw [hr.addr, Nat.add_sub_cancel, hhead]
        omega
    refine ⟨⟨c, w.live.filter fun b => b.1 != addr⟩, _, ?_, hr.inv hw, ?_, List.filter_subset_self _, ?_, ?_, ?_,
      hregions⟩
    · simp only [step, hc, Option.bind_eq_bind, Option.bind_some, if_true]
    · have := joined_length g post
      simp only [weight_cons, Page.release, hr.segs, List.length_append, List.length_singleton]
      omega
    · intro b hb
      simp only [List.mem_filter, hb, true_and, bne_iff_ne, hfirst, not_true_eq_false, imp_false]
    · intro b hb x h1 h2
      exact hr.data.block b (hw.live b hb) x h1 h2
    · rw [hr.holds.head, hw.holds.head]
      rfl
  · have hinv : HeapInv ⟨{ w.h with written := [] }, w.live⟩ (p :: ps) := ⟨hh, hw.live, hw.distinct⟩
    refine ⟨⟨{ w.h with written := [] }, w.live⟩, p :: ps, ?_, hinv, le_refl _, List.Subset.refl _, ?_, ?_, rfl,
      rfl⟩
    · simp only [step, hc, Option.bind_eq_bind, Option.bind_some, Bool.false_eq_true, if_false]
    · intro b hb
      refine iff_of_true hb ?_
      rintro rfl hfirst
      obtain ⟨h', pages', htrue, -⟩ := (hinv.takes_back_iff fuel (by omega) b hb).mpr hfirst
      rw [hc] at htrue
      simp at htrue
    · exact fun _ _ _ _ _ => rfl

/-- `kfree` of several addresses, one after the other. -/
structure TakesAll (addrs : List Nat) (w w' : World) : Prop where
  subset : w'.live ⊆ w.live
  live : ∀ b ∈ w.live, b ∈ w'.live ↔ (b.1 ∈ addrs → ¬ OnFirstPage w.h b.1)
  data : ∀ b ∈ w.live, b.1 ∉ addrs → ∀ x, b.1 ≤ x → x < b.1 + b.2 → w'.h.mem x = w.h.mem x
  heap : w'.h.heap = w.h.heap
  regions : w'.h.regions = w.h.regions

theorem onFirstPage_congr {h h' : State} (hheap : h'.heap = h.heap) (hregions : h'.regions = h.regions)
    (addr : Nat) : OnFirstPage h' addr ↔ OnFirstPage h addr := by
  unfold OnFirstPage
  rw [hheap, hregions]

theorem kfree_all_takes (fuel : Nat) (w : World) (pages : List Page) (addrs : List Nat) (hw : HeapInv w pages)
    (hheap : addrs ≠ [] → w.h.heap ≠ 0) (hfuel : weight pages + 5 ≤ fuel) :
    ∃ w' pages', run (step fuel) w (addrs.map .kfree) = some w' ∧ HeapInv w' pages' ∧
      weight pages' ≤ weight pages ∧ TakesAll addrs w w' := by
  induction addrs generalizing w pages with
  | nil => exact ⟨w, pages, rfl, hw, le_refl _, List.Subset.refl _, by simp, fun _ _ _ _ _ _ => rfl, rfl, rfl⟩
  | cons addr addrs ih =>
    have hheap' := hheap (List.cons_ne_nil _ _)
    obtain ⟨w1, pages1, h1, hw1, hweight1, ht⟩ := kfree_takes fuel w pages addr hw hheap' hfuel
    obtain ⟨w', pages', h', hw', hweight', ht'⟩ := ih w1 pages1 hw1 (fun _ => by rw [ht.heap]; exact hheap') (by omega)
    have hpage := onFirstPage_congr ht.heap ht.regions
    refine ⟨w', pages', ?_, hw', by omega, List.Subset.trans ht'.subset ht.subset, ?_, ?_,
      ht'.heap.trans ht.heap, ht'.regions.trans ht.regions⟩
    · rw [List.map_cons, run_cons, h1, Option.bind_some, h']
    · intro b hb
      by_cases hlive : b ∈ w1.live
      · rw [ht'.live b hlive, hpage, List.mem_cons]
        have := (ht.live b hb).mp hlive
        constructor
        · rintro hrest (rfl | hmem)
          · exact this rfl
          · exact hrest hmem
        · exact fun hall hmem => hall (Or.inr hmem)
      · -- A block that is taken back stays out.
        refine iff_of_false (fun h => hlive (ht'.subset h)) ?_
        rw [ht.live b hb] at hlive
        push Not at hlive
        obtain ⟨rfl, hfirst⟩ := hlive
        exact fun h => h List.mem_cons_self hfirst
    · intro b hb hnot x h1 h2
      rw [List.mem_cons, not_or] at hnot
      have hlive := (ht.live b hb).mpr fun heq => absurd heq hnot.1
      rw [ht'.data b hlive hnot.2 x h1 h2, ht.data b hb x h1 h2]

theorem HeapInv.first_page_fits {w : World} {pages : List Page} (hw : HeapInv w pages) (b : Nat × Nat)
    (hb : b ∈ w.live) (hfirst : OnFirstPage w.h b.1) :
    ∃ r, w.h.regions.head? = some r ∧ b.2 < r.2 * FRAME_SIZE := by
  obtain ⟨count, hhead, hlo, hhi⟩ := hfirst
  obtain ⟨q, hq, a, g, hag, hb1, -, hb2⟩ := hw.live b hb
  obtain ⟨p, ps, rfl⟩ : ∃ p ps, pages = p :: ps := List.exists_cons_of_ne_nil (List.ne_nil_of_mem hq)
  have hh := hw.holds
  have hpl := hh.placed q hq a g hag
  rw [hh.regions, List.map_cons, List.head?_cons, Option.some.injEq, Page.region, Prod.mk.injEq] at hhead
  obtain ⟨hbase, rfl⟩ := hhead
  rw [hb1, Nat.add_sub_cancel, ← hbase] at hlo hhi
  refine ⟨p.region, by rw [hh.regions]; rfl, ?_⟩
  simp only [Page.region]
  rcases List.mem_cons.mp hq with rfl | hq
  · omega
  · have hap := hh.first_apart q hq
    unfold Apart at hap
    omega

end SlayerOS.Heap
