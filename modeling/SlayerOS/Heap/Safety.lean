import SlayerOS.Heap.Kfree

/-!
# Runs of the heap

Every call keeps the invariant, so every run does. A block comes back to the heap
exactly when it is on the first page.
-/

open SlayerOS.Bytes SlayerOS.Frames SlayerOS.Run

namespace SlayerOS.Heap

/-! ## Blocks -/

theorem InSegment.apart_record {h : State} {pages : List Page} (hh : Holds h pages) (r : Nat)
    (hr : IsRecord pages r) (b : Nat × Nat) (hb : InSegment pages b) : Apart r SEGMENT b.1 b.2 := by
  obtain ⟨p, hp, a, g, hag, hb1, -, hb2⟩ := hb
  have := hh.record_apart r hr p hp a g hag
  simp only [Apart, segment_bytes] at this hb1 ⊢
  omega

theorem InSegment.apart {h : State} {pages : List Page} (hh : Holds h pages) (b c : Nat × Nat)
    (hb : InSegment pages b) (hc : InSegment pages c) (hne : b.1 ≠ c.1) : Apart b.1 b.2 c.1 c.2 := by
  obtain ⟨p, hp, a, g, hag, hb1, -, hb2⟩ := hb
  obtain ⟨q, hq, d, k, hdk, hc1, -, hc2⟩ := hc
  simp only [segment_bytes] at hb1 hc1
  unfold Apart
  rcases hh.segs_apart p q hp hq a d g k hag hdk with ⟨-, rfl, -⟩ | h
  · omega
  · omega

theorem HeapInv.pairwise {w : World} {pages : List Page} (hw : HeapInv w pages) :
    w.live.Pairwise fun b c => Apart b.1 b.2 c.1 c.2 :=
  hw.distinct.imp_of_mem fun hb hc hne =>
    InSegment.apart hw.holds _ _ (hw.live _ hb) (hw.live _ hc) hne

theorem DataKept.block {m m' : Mem} {pages : List Page} (h : DataKept m m' pages) (b : Nat × Nat)
    (hb : InSegment pages b) (x : Nat) (h1 : b.1 ≤ x) (h2 : x < b.1 + b.2) : m' x = m x := by
  obtain ⟨p, hp, a, g, hag, hb1, hfree, hb2⟩ := hb
  exact h p hp a g hag hfree x (by omega) (by omega)

/-! ## `kmalloc` and the live blocks -/

theorem Served.live {pages pages' : List Page} {size q : Nat} (hs : Served pages pages' size q)
    (b : Nat × Nat) (hb : InSegment pages b) : InSegment pages' b := by
  obtain ⟨ps, p, qs, pre, g, post, rfl, hsegs, hgfree, -, rfl, -⟩ := hs
  obtain ⟨x, hx, a, k, hak, hb1, hk, hb2⟩ := hb
  by_cases hxp : x = p
  · subst hxp
    refine ⟨x.serve pre g size post, by simp, a, k, ?_, hb1, hk, hb2⟩
    exact serve_other x pre post g size hsegs a k hak (by rw [hk, hgfree]; decide)
  · refine ⟨x, ?_, a, k, hak, hb1, hk, hb2⟩
    simp only [List.mem_append, List.mem_cons, hxp, false_or] at hx ⊢
    tauto

theorem Served.new {pages pages' : List Page} {size q : Nat} (hs : Served pages pages' size q) :
    InSegment pages' (q, size) := by
  obtain ⟨ps, p, qs, pre, g, post, rfl, -, -, hsize, rfl, rfl⟩ := hs
  obtain ⟨k, hk, hfree, hle⟩ := serve_head p pre post g size
  exact ⟨p.serve pre g size post, by simp, _, k, hk, rfl, hfree, hle hsize⟩

/-- No live block is where the new one is: the segment was free. -/
theorem Served.fresh {h : State} {pages pages' : List Page} {size q : Nat} (hh : Holds h pages)
    (hs : Served pages pages' size q) (b : Nat × Nat) (hb : InSegment pages b) : q ≠ b.1 := by
  obtain ⟨ps, p, qs, pre, g, post, rfl, hsegs, hgfree, -, -, rfl⟩ := hs
  obtain ⟨x, hx, a, k, hak, hb1, hk, -⟩ := hb
  have hg : (p.base + PAGE + span pre, g) ∈ p.placed :=
    (p.mem_placed _ g).mpr ⟨pre, post, hsegs, rfl⟩
  intro heq
  rcases hh.segs_apart p x (by simp) hx _ a g k hg hak with ⟨-, -, rfl⟩ | h
  · rw [hgfree] at hk
    exact absurd hk (by decide)
  · simp only [segment_bytes] at heq hb1
    omega

theorem Served.length {pages pages' : List Page} {size q : Nat} (hs : Served pages pages' size q) :
    pages'.length = pages.length := by
  obtain ⟨ps, p, qs, pre, g, post, rfl, -, -, -, rfl, -⟩ := hs
  simp

theorem InSegment.append {pages : List Page} {b : Nat × Nat} (hb : InSegment pages b) (qs : List Page) :
    InSegment (pages ++ qs) b := by
  obtain ⟨p, hp, h⟩ := hb
  exact ⟨p, by simp [hp], h⟩

theorem Allocated.inv {w : World} {h : State} {pages old pages' : List Page} {size : Nat} {c : Nat × State}
    (hw : HeapInv w pages) (hall : Allocated h pages old pages' size c)
    (hold : old = pages ∨ old = pages ++ [newPage h size]) :
    HeapInv ⟨c.2, (c.1, size) :: w.live⟩ pages' := by
  have hlive : ∀ b ∈ w.live, InSegment old b := by
    intro b hb
    rcases hold with rfl | rfl
    · exact hw.live b hb
    · exact (hw.live b hb).append _
  obtain ⟨h1, hbefore⟩ := hall.before
  refine ⟨hall.holds, ?_, ?_⟩
  · intro b hb
    rcases List.mem_cons.mp hb with rfl | hb
    · exact hall.served.new
    · exact hall.served.live b (hlive b hb)
  · rw [List.pairwise_cons]
    exact ⟨fun b hb => hall.served.fresh hbefore b (hlive b hb), hw.distinct⟩

theorem kmalloc_step (fuel : Nat) (w : World) (pages : List Page) (size : Nat) (hw : HeapInv w pages)
    (hlegal : Legal fuel w (.kmalloc size)) (hfuel : weight pages + 5 ≤ fuel) :
    ∃ w' pages', step fuel w (.kmalloc size) = some w' ∧ HeapInv w' pages' ∧
      weight pages' ≤ weight pages + 3 ∧ Clean w (.kmalloc size) w' := by
  obtain ⟨hsize, hfresh⟩ := hlegal
  have hh : Holds { w.h with written := [] } pages := hw.holds.unwritten
  obtain ⟨c, old, pages', hc, hall, hold⟩ := kmalloc_spec fuel _ pages size hh (by omega)
    (fun hn => ⟨(hfresh hn).ok, (hfresh hn).apart⟩) hfuel
  have hinv := hall.inv hw hold
  refine ⟨⟨c.2, (c.1, size) :: w.live⟩, pages', ?_, hinv, ?_, ?_, ?_, ?_⟩
  · simp only [step, hc, Option.bind_eq_bind, Option.bind_some]
  · have hwt := hall.served.weight
    have : weight old ≤ weight pages + 2 := by
      rcases hold with rfl | rfl
      · omega
      · simp [weight_append, weight, newPage]
    omega
  · intro r hr b hb
    have hrec : IsRecord pages' r := (hall.written r hr).resolve_left (by simp)
    refine InSegment.apart_record hall.holds r hrec b (hinv.live b ?_)
    rcases hb with hb | hb
    · exact List.mem_cons_of_mem _ hb
    · exact hb
  · intro _ b hb x h1 h2
    exact hall.data.block b (hw.live b hb) x h1 h2
  · rw [hall.holds.regions, hw.holds.regions, List.length_map, List.length_map, hall.served.length]
    rcases hold with rfl | rfl <;> simp

/-! ## `kfree` and the live blocks -/

theorem release_self (p : Page) (pre post : List Seg) (g : Seg) :
    ∃ k, (p.base + PAGE + span pre, k) ∈ (p.release pre g post).placed ∧ k.free = true ∧ g.size ≤ k.size := by
  obtain ⟨k, ks, hk, hfree, hle⟩ : ∃ k ks, joined g post = k :: ks ∧ k.free = true ∧ g.size ≤ k.size := by
    cases post with
    | nil => exact ⟨⟨g.size, true⟩, [], rfl, rfl, le_refl _⟩
    | cons x xs =>
      by_cases hx : x.free = true
      · exact ⟨⟨g.size + SEGMENT + x.size, true⟩, xs, by rw [joined, if_pos hx], rfl, by simp only; omega⟩
      · exact ⟨⟨g.size, true⟩, x :: xs, by rw [joined, if_neg hx], rfl, le_refl _⟩
  exact ⟨k, (mem_placed_iff _ _ _ _).mpr ⟨pre, ks, by rw [Page.release, hk], rfl⟩, hfree, hle⟩

theorem joined_used (s : Nat) (g : Seg) (post : List Seg) (a : Nat) (k : Seg) (hk : k.free = false) :
    (a, k) ∈ placed s (joined g post) ↔ (a, k) ∈ placed (s + SEGMENT + g.size) post := by
  have hne : ∀ n, k ≠ ⟨n, true⟩ := by
    rintro n rfl
    simp at hk
  cases post with
  | nil => simp [joined, placed, hne]
  | cons x xs =>
    by_cases hx : x.free = true
    · have hkx : k ≠ x := by
        rintro rfl
        rw [hk] at hx
        exact absurd hx (by decide)
      have hend : s + SEGMENT + (g.size + SEGMENT + x.size) = s + SEGMENT + g.size + SEGMENT + x.size := by
        omega
      rw [joined, if_pos hx, placed, placed, List.mem_cons, List.mem_cons, hend]
      simp [hne, hkx]
    · rw [joined, if_neg hx, placed, List.mem_cons]
      simp [hne]

theorem mem_release (p : Page) (pre post : List Seg) (g : Seg)
    (a : Nat) (k : Seg) (hk : k.free = false) :
    (a, k) ∈ (p.release pre g post).placed ↔
      (a, k) ∈ Heap.placed (p.base + PAGE) pre ∨
      (a, k) ∈ Heap.placed (p.base + PAGE + span pre + SEGMENT + g.size) post := by
  rw [Page.placed, Page.release, placed_append, List.mem_append, joined_used _ _ _ _ _ hk]

theorem mem_middle (p : Page) (pre post : List Seg) (g : Seg) (hsegs : p.segs = pre ++ [g] ++ post)
    (a : Nat) (k : Seg) :
    (a, k) ∈ p.placed ↔ (a, k) ∈ Heap.placed (p.base + PAGE) pre ∨
      (a = p.base + PAGE + span pre ∧ k = g) ∨
      (a, k) ∈ Heap.placed (p.base + PAGE + span pre + SEGMENT + g.size) post := by
  rw [Page.placed, hsegs, List.append_assoc, placed_append, List.mem_append, List.singleton_append, placed,
    List.mem_cons, Prod.mk.injEq]

theorem release_other (p : Page) (pre post : List Seg) (g : Seg) (hsegs : p.segs = pre ++ [g] ++ post)
    (a : Nat) (k : Seg) (hak : (a, k) ∈ p.placed) (hk : k.free = false)
    (hne : a ≠ p.base + PAGE + span pre) : (a, k) ∈ (p.release pre g post).placed := by
  rw [mem_release p pre post g a k hk]
  rcases (mem_middle p pre post g hsegs a k).mp hak with hak | ⟨rfl, -⟩ | hak
  · exact Or.inl hak
  · exact absurd rfl hne
  · exact Or.inr hak

theorem Released.live {h c : State} {p : Page} {ps : List Page} {addr : Nat} {pre post : List Seg} {g : Seg}
    (hr : Released h p ps addr pre g post c) (b : Nat × Nat) (hb : InSegment (p :: ps) b)
    (hne : b.1 ≠ addr) : InSegment (p.release pre g post :: ps) b := by
  obtain ⟨x, hx, a, k, hak, hb1, hk, hb2⟩ := hb
  rcases List.mem_cons.mp hx with rfl | hx
  · refine ⟨_, List.mem_cons_self, a, k, ?_, hb1, hk, hb2⟩
    refine release_other x pre post g hr.segs a k hak hk ?_
    rintro rfl
    exact hne (by rw [hb1, hr.addr])
  · exact ⟨x, List.mem_cons_of_mem _ hx, a, k, hak, hb1, hk, hb2⟩

theorem Released.inv {w : World} {h c : State} {p : Page} {ps : List Page} {addr : Nat} {pre post : List Seg}
    {g : Seg} (hw : HeapInv w (p :: ps)) (hr : Released h p ps addr pre g post c) :
    HeapInv ⟨c, w.live.filter fun b => b.1 != addr⟩ (p.release pre g post :: ps) := by
  refine ⟨hr.holds, ?_, hw.distinct.filter _⟩
  intro b hb
  simp only [List.mem_filter, bne_iff_ne] at hb
  exact hr.live b (hw.live b hb.1) hb.2

theorem HeapInv.cons {w : World} {pages : List Page} (hw : HeapInv w pages) (hheap : w.h.heap ≠ 0) :
    ∃ p ps, pages = p :: ps := by
  cases pages with
  | nil => exact absurd hw.holds.head hheap
  | cons p ps => exact ⟨p, ps, rfl⟩

theorem kfree_step (fuel : Nat) (w : World) (pages : List Page) (addr : Nat) (hw : HeapInv w pages)
    (hlegal : Legal fuel w (.kfree addr)) (hfuel : weight pages + 5 ≤ fuel) :
    ∃ w' pages', step fuel w (.kfree addr) = some w' ∧ HeapInv w' pages' ∧
      weight pages' ≤ weight pages + 3 ∧ Clean w (.kfree addr) w' := by
  obtain ⟨p, ps, rfl⟩ := hw.cons hlegal
  have hh : Holds { w.h with written := [] } (p :: ps) := hw.holds.unwritten
  rcases kfree_spec fuel _ p ps addr hh (by omega) with ⟨c, pre, g, post, hc, hr⟩ | ⟨-, hc⟩
  · refine ⟨⟨c, w.live.filter fun b => b.1 != addr⟩, p.release pre g post :: ps, ?_, hr.inv hw,
      ?_, ?_, ?_, ?_⟩
    · simp only [step, hc, Option.bind_eq_bind, Option.bind_some, if_true]
    · have := joined_length g post
      simp only [weight_cons, Page.release, hr.segs, List.length_append, List.length_singleton]
      omega
    · intro r hwr b hb
      have hrec : IsRecord (p :: ps) r := (hr.written r hwr).resolve_left (by simp)
      refine InSegment.apart_record hh r hrec b (hw.live b ?_)
      rcases hb with hb | hb
      · exact hb
      · exact (List.mem_filter.mp hb).1
    · intro _ b hb x h1 h2
      exact hr.data.block b (hw.live b hb) x h1 h2
    · rw [hr.holds.regions, hw.holds.regions]
      simp
  · refine ⟨⟨{ w.h with written := [] }, w.live⟩, p :: ps, ?_, ⟨hh, hw.live, hw.distinct⟩, by omega, ?_, ?_, ?_⟩
    · simp only [step, hc, Option.bind_eq_bind, Option.bind_some, Bool.false_eq_true, if_false]
    · intro r hr
      simp at hr
    · intro _ b _ x _ _
      rfl
    · simp

/-! ## Client stores -/

theorem HeapInv.store {w : World} {pages : List Page} (hw : HeapInv w pages) (addr : Nat) (byte : BitVec 8)
    (hown : ∃ b ∈ w.live, b.1 ≤ addr ∧ addr < b.1 + b.2) :
    HeapInv { w with h := { w.h with mem := Function.update w.h.mem addr byte, written := [] } } pages := by
  obtain ⟨b, hb, h1, h2⟩ := hown
  refine ⟨⟨hw.holds.head, ?_, hw.holds.regions, hw.holds.apart⟩, hw.live, hw.distinct⟩
  apply hw.holds.rep.congr_records
  intro r hr x h3 h4
  have := InSegment.apart_record hw.holds r hr b (hw.live b hb)
  simp only [Apart, segment_bytes] at this
  exact Function.update_of_ne (by omega) _ _

theorem store_step (fuel : Nat) (w : World) (pages : List Page) (addr : Nat) (byte : BitVec 8)
    (hw : HeapInv w pages) (hlegal : Legal fuel w (.store addr byte)) :
    ∃ w' pages', step fuel w (.store addr byte) = some w' ∧ HeapInv w' pages' ∧
      weight pages' ≤ weight pages + 3 ∧ Clean w (.store addr byte) w' := by
  refine ⟨_, pages, rfl, hw.store addr byte hlegal, by omega, ?_, ?_, ?_⟩
  · intro r hr
    simp at hr
  · intro hno
    exact absurd rfl (hno addr byte)
  · simp

/-! ## Runs -/

theorem heap_step (fuel : Nat) (w : World) (pages : List Page) (e : Event) (hw : HeapInv w pages)
    (hlegal : Legal fuel w e) (hfuel : weight pages + 5 ≤ fuel) :
    ∃ w' pages', step fuel w e = some w' ∧ HeapInv w' pages' ∧
      weight pages' ≤ weight pages + 3 ∧ Clean w e w' := by
  cases e with
  | kmalloc size => exact kmalloc_step fuel w pages size hw hlegal hfuel
  | kfree addr => exact kfree_step fuel w pages addr hw hlegal hfuel
  | store addr byte => exact store_step fuel w pages addr byte hw hlegal

theorem boot_inv (mem : Mem) (allocs : Nat → Nat) : HeapInv (boot mem allocs) [] :=
  ⟨⟨rfl, trivial, rfl, List.Pairwise.nil⟩, by simp [boot], List.Pairwise.nil⟩

/-- Each call leaves at most three more steps for the next search. -/
theorem heap_run (mem : Mem) (allocs : Nat → Nat) (es : List Event) (fuel : Nat)
    (hfuel : 3 * es.length + 5 ≤ fuel) (hes : Along (step fuel) (Legal fuel) (boot mem allocs) es) :
    Along (step fuel) (CleanStep fuel) (boot mem allocs) es ∧
    ∃ w pages, run (step fuel) (boot mem allocs) es = some w ∧ HeapInv w pages ∧
      weight pages ≤ 3 * es.length := by
  have hcount := run_count (fun n w => ∃ pages, HeapInv w pages ∧ weight pages ≤ 3 * n)
    (Q := CleanStep fuel) es.length ?_ 0 (boot mem allocs) es (by omega)
    ⟨[], boot_inv mem allocs, by simp [weight]⟩ hes
  · obtain ⟨hclean, w, hw, pages, hinv, hweight⟩ := hcount
    exact ⟨hclean, w, pages, hw, hinv, by omega⟩
  · rintro n w e hn ⟨pages, hinv, hweight⟩ hlegal
    obtain ⟨w', pages', hw', hinv', hweight', hclean⟩ := heap_step fuel w pages e hinv hlegal (by omega)
    exact ⟨⟨w', hw', hclean⟩, w', hw', pages', hinv', by omega⟩

/-- In every run the segments tile their pages, the live blocks have segments of their own
and share no byte, and no call writes a record over a live block or adds two pages. -/
theorem run_heap_sound (mem : Mem) (allocs : Nat → Nat) (es : List Event) (fuel : Nat)
    (hfuel : 3 * es.length + 5 ≤ fuel) (hes : Along (step fuel) (Legal fuel) (boot mem allocs) es) :
    Along (step fuel) (CleanStep fuel) (boot mem allocs) es ∧
    ∃ w pages, run (step fuel) (boot mem allocs) es = some w ∧ Holds w.h pages ∧
      (∀ b ∈ w.live, InSegment pages b) ∧ w.live.Pairwise fun b c => Apart b.1 b.2 c.1 c.2 := by
  obtain ⟨hclean, w, pages, hw, hinv, -⟩ := heap_run mem allocs es fuel hfuel hes
  exact ⟨hclean, w, pages, hw, hinv.holds, hinv.live, hinv.pairwise⟩

/-- Empty memory, and regions that start sixteen frames apart. -/
def spacedBoot : World := boot (fun _ => 0) fun i => 0x100000 + i * 0x10000

/-- The second request does not fit in the first page. -/
theorem spacedBoot_legal :
    Along (step 20) (Legal 20) spacedBoot [.kmalloc 100, .kmalloc 4000, .kfree 0x100040] := by
  refine ⟨⟨by decide, fun _ => ⟨⟨by decide, by decide, by decide⟩, by decide⟩⟩, fun w hw => ?_⟩
  have h1 : (step 20 spacedBoot (.kmalloc 100)).map
      (fun w => (w.h.regions, w.h.allocs w.h.regions.length)) = some ([(0x100000, 1)], 0x110000) := by
    decide +kernel
  have h2 : ((step 20 spacedBoot (.kmalloc 100)).bind fun w => step 20 w (.kmalloc 4000)).map
      (fun w => w.h.heap) = some 0x100000 := by
    decide +kernel
  rw [hw, Option.map_some, Option.some.injEq, Prod.mk.injEq] at h1
  rw [hw, Option.bind_some] at h2
  refine ⟨⟨by decide, fun _ => ⟨⟨?_, ?_, ?_⟩, ?_⟩⟩, fun w' hw' => ⟨?_, fun _ _ => trivial⟩⟩
  · rw [h1.2]; decide
  · rw [h1.2]; decide
  · rw [h1.2]; decide
  · rw [h1.2, h1.1]; decide
  · rw [hw', Option.map_some, Option.some.injEq] at h2
    rw [Legal, h2]
    decide

theorem run_heap_sound_two_pages :
    Along (step 20) (CleanStep 20) spacedBoot [.kmalloc 100, .kmalloc 4000, .kfree 0x100040] ∧
    ∃ w pages, run (step 20) spacedBoot [.kmalloc 100, .kmalloc 4000, .kfree 0x100040] = some w ∧
      Holds w.h pages ∧ (∀ b ∈ w.live, InSegment pages b) ∧
      w.live.Pairwise fun b c => Apart b.1 b.2 c.1 c.2 :=
  run_heap_sound _ _ _ 20 (by decide) spacedBoot_legal

/-! ## `kfree` of a live block -/

theorem HeapInv.takes_back_iff {w : World} {pages : List Page} (hw : HeapInv w pages) (fuel : Nat)
    (hfuel : weight pages + 2 ≤ fuel) (b : Nat × Nat) (hb : b ∈ w.live) :
    TakesBack fuel w.h b ↔ OnFirstPage w.h b.1 := by
  obtain ⟨q, hq, a, g, hag, hb1, hg, hb2⟩ := hw.live b hb
  obtain ⟨p, ps, rfl⟩ : ∃ p ps, pages = p :: ps := List.exists_cons_of_ne_nil (List.ne_nil_of_mem hq)
  have hh := hw.holds
  have hp : p ∈ p :: ps := List.mem_cons_self
  have hhead : w.h.heap = p.base := hh.head
  have hfirst : OnFirstPage w.h b.1 ↔ p.base ≤ a ∧ a < p.base + p.count * FRAME_SIZE := by
    simp only [OnFirstPage, hh.regions, hhead, List.map_cons, List.head?_cons, Page.region, Option.some.injEq,
      Prod.mk.injEq, true_and, hb1, Nat.add_sub_cancel]
    constructor
    · rintro ⟨count, rfl, h⟩
      exact h
    · intro h
      exact ⟨p.count, rfl, h⟩
  rw [hfirst]
  rcases kfree_spec fuel w.h p ps b.1 hh hfuel with ⟨c, pre, k, post, hc, hr⟩ | ⟨hno, hc⟩
  · have hpk : (p.base + PAGE + span pre, k) ∈ p.placed :=
      (p.mem_placed _ k).mpr ⟨pre, post, hr.segs, rfl⟩
    have haddr := hr.addr
    -- The block has one segment only.
    obtain ⟨ha, rfl⟩ : a = p.base + PAGE + span pre ∧ g = k := by
      refine ⟨by omega, ?_⟩
      rcases hh.segs_apart q p hq hp a _ g k hag hpk with ⟨-, -, h⟩ | h
      · exact h
      · simp only [segment_bytes, page_bytes] at h haddr hb1
        omega
    have hpl := hh.placed p hp _ g hpk
    refine iff_of_true ⟨c, _, hc, hr.holds, ?_⟩ (by omega)
    obtain ⟨l, hl, hfree, hle⟩ := release_self p pre post g
    exact ⟨_, List.mem_cons_self, _, l, hl, haddr, hfree, by omega⟩
  · refine iff_of_false ?_ ?_
    · rintro ⟨c, pages', hc', -, -⟩
      rw [hc] at hc'
      simp at hc'
    · rcases List.mem_cons.mp hq with rfl | hq'
      · exact absurd hb1 (hno a g hag)
      · have hpq := hh.first_apart q hq'
        have hpl := hh.placed q hq a g hag
        unfold Apart at hpq
        omega

/-- In every reachable heap, `kfree` takes back the live blocks of the first page, and no
others. -/
theorem run_takes_back_iff (mem : Mem) (allocs : Nat → Nat) (es : List Event) (fuel : Nat) (w : World)
    (b : Nat × Nat) (hfuel : 3 * es.length + 5 ≤ fuel)
    (hes : Along (step fuel) (Legal fuel) (boot mem allocs) es)
    (hrun : run (step fuel) (boot mem allocs) es = some w) (hb : b ∈ w.live) :
    TakesBack fuel w.h b ↔ OnFirstPage w.h b.1 := by
  obtain ⟨-, w', pages, hw', hinv, hweight⟩ := heap_run mem allocs es fuel hfuel hes
  obtain rfl : w = w' := Option.some.inj (hrun.symm.trans hw')
  exact hinv.takes_back_iff fuel (by omega) b hb

theorem spacedBoot_two :
    Along (step 20) (Legal 20) spacedBoot [.kmalloc 100, .kmalloc 4000] ∧
    ∃ w, run (step 20) spacedBoot [.kmalloc 100, .kmalloc 4000] = some w ∧
      w.live = [(0x110040, 4000), (0x100040, 100)] ∧ (kfree 20 w.h 0x110040).map Prod.fst = some false := by
  refine ⟨((along_append _ [Event.kmalloc 100, .kmalloc 4000] _).mp spacedBoot_legal).1, ?_⟩
  have h : (run (step 20) spacedBoot [.kmalloc 100, .kmalloc 4000]).map
      (fun w => (w.live, (kfree 20 w.h 0x110040).map Prod.fst)) =
      some ([(0x110040, 4000), (0x100040, 100)], some false) := by
    decide +kernel
  obtain ⟨w, hw, heq⟩ := Option.map_eq_some_iff.mp h
  exact ⟨w, hw, congrArg Prod.fst heq, congrArg Prod.snd heq⟩

theorem run_takes_back_iff_first_block :
    ∃ w, run (step 20) spacedBoot [.kmalloc 100, .kmalloc 4000] = some w ∧
      (TakesBack 20 w.h (0x100040, 100) ↔ OnFirstPage w.h 0x100040) := by
  obtain ⟨hlegal, w, hw, hlive, -⟩ := spacedBoot_two
  exact ⟨w, hw, run_takes_back_iff _ _ _ 20 w (0x100040, 100) (by decide) hlegal hw (by simp [hlive])⟩

/-- The block on the second page is live, and `kfree` does not find it. -/
theorem second_page_leaks :
    ¬ ∀ (mem : Mem) (allocs : Nat → Nat) (es : List Event) (fuel : Nat) (w : World) (b : Nat × Nat),
      3 * es.length + 5 ≤ fuel → Along (step fuel) (Legal fuel) (boot mem allocs) es →
      run (step fuel) (boot mem allocs) es = some w → b ∈ w.live → TakesBack fuel w.h b := by
  intro hall
  obtain ⟨hlegal, w, hw, hlive, hfalse⟩ := spacedBoot_two
  obtain ⟨h', pages, hfree, -⟩ :=
    hall _ _ _ 20 w (0x110040, 4000) (by decide) hlegal hw (by simp [hlive])
  rw [hfree] at hfalse
  simp at hfalse

end SlayerOS.Heap
