import SlayerOS.Heap.Accounts

/-!
# The alignment of blocks and records

A page starts on a frame, and its first block is aligned. From there on the address of a
block is a sum of the sizes in front of it, and `kmalloc` takes a size as it comes.
-/

open SlayerOS.Bytes SlayerOS.Frames SlayerOS.Run

namespace SlayerOS.Heap

/-- Every record that the step writes and every pointer that a client holds is aligned. -/
def AlignedStep (fuel : Nat) (w : World) (e : Event) : Prop :=
  ∃ w', step fuel w e = some w' ∧ (∀ r ∈ w'.h.written, r % 8 = 0) ∧ ∀ b ∈ w'.live, b.1 % 8 = 0

/-- A request that splits a segment is for a multiple of eight bytes. -/
def EvenSplit (fuel : Nat) (w : World) : Event → Prop
  | .kmalloc size => size % 8 = 0 ∨ TakesWhole fuel w.h size
  | _ => True

/-- The records of all segments are aligned. -/
def AlignedPages (pages : List Page) : Prop := ∀ p ∈ pages, ∀ a g, (a, g) ∈ p.placed → a % 8 = 0

/-! ## What follows from aligned segments -/

theorem Holds.base_aligned {h : State} {pages : List Page} (hh : Holds h pages) (p : Page) (hp : p ∈ pages) :
    p.base % 8 = 0 := by
  have hbase := (hh.sound p hp).region.aligned
  unfold FRAME_SIZE at hbase
  omega

theorem AlignedPages.record {h : State} {pages : List Page} (hal : AlignedPages pages) (hh : Holds h pages)
    (r : Nat) (hr : IsRecord pages r) : r % 8 = 0 := by
  obtain ⟨p, hp, rfl | ⟨g, hg⟩⟩ := hr
  · exact hh.base_aligned p hp
  · exact hal p hp r g hg

theorem AlignedPages.live {w : World} {pages : List Page} (hal : AlignedPages pages) (hw : HeapInv w pages) :
    ∀ b ∈ w.live, b.1 % 8 = 0 := by
  intro b hb
  obtain ⟨p, hp, a, g, hag, hba, -, -⟩ := hw.live b hb
  have ha := hal p hp a g hag
  rw [segment_bytes] at hba
  omega

/-! ## `kmalloc` -/

theorem Ready.aligned {h h1 : State} {pages old : List Page} {size : Nat} (hr : Ready h pages size h1 old)
    (hh : Holds h1 old) (hal : AlignedPages pages) : AlignedPages old := by
  cases hr with
  | same _ => exact hal
  | more _ _ _ =>
    intro p hp a g hag
    rcases List.mem_append.mp hp with hp' | hp'
    · exact hal p hp' a g hag
    · have hbase := hh.base_aligned p hp
      rw [List.mem_singleton.mp hp'] at hag hbase
      have hnew : (a, g) = (h.allocs h.regions.length + PAGE, ⟨firstSize size, true⟩) := by
        simpa [newPage, Page.placed, placed] using hag
      have ha : a = h.allocs h.regions.length + PAGE := congrArg Prod.fst hnew
      rw [page_bytes] at ha
      simp only [newPage] at hbase
      omega

theorem carve_aligned (g : Seg) (size s : Nat) (hs : s % 8 = 0) (heven : size % 8 = 0 ∨ g.size ≤ size + SEGMENT)
    (a : Nat) (k : Seg) (hak : (a, k) ∈ placed s (carve g size)) : a % 8 = 0 := by
  unfold carve at hak
  split at hak
  · rename_i hsplit
    simp only [placed, List.mem_cons, Prod.mk.injEq, List.not_mem_nil, or_false] at hak
    rcases hak with ⟨rfl, -⟩ | ⟨rfl, -⟩
    · exact hs
    · rw [segment_bytes] at hsplit heven ⊢
      omega
  · simp only [placed, List.mem_singleton, Prod.mk.injEq] at hak
    rw [hak.1]
    exact hs

theorem serve_aligned (ps qs : List Page) (p : Page) (pre post : List Seg) (g : Seg) (size : Nat)
    (hsegs : p.segs = pre ++ [g] ++ post) (heven : size % 8 = 0 ∨ g.size ≤ size + SEGMENT)
    (hal : AlignedPages (ps ++ p :: qs)) : AlignedPages (ps ++ p.serve pre g size post :: qs) := by
  have hp := hal p (by simp)
  intro q hq a k hak
  have hcase : q = p.serve pre g size post ∨ q ∈ ps ++ p :: qs := by
    simp only [List.mem_append, List.mem_cons] at hq ⊢
    tauto
  rcases hcase with rfl | hq
  · have hg := hp _ g ((p.mem_placed _ g).mpr ⟨pre, post, hsegs, rfl⟩)
    simp only [Page.placed, hsegs, placed_append, span_append, List.mem_append] at hp
    simp only [Page.placed, Page.serve, placed_append, span_append, span_carve, List.mem_append] at hak
    rcases hak with (hak | hak) | hak
    · exact hp a k (Or.inl (Or.inl hak))
    · exact carve_aligned g size _ hg heven a k hak
    · exact hp a k (Or.inr hak)
  · exact hal q hq a k hak

/-- A split writes the record of the rest, which lies behind the bytes of the request. -/
theorem split_writes (h : State) (page a size next : Nat) (g : Seg) (hseg : SegAt h.mem a g next)
    (hlong : size + SEGMENT < g.size) (htop : a + SEGMENT + g.size ≤ 2 ^ 64) :
    a + SEGMENT + size ∈ (alloc_segment h page a size).2.written := by
  have hsplit : segment_size h.mem a > (size + SEGMENT) % 2 ^ 64 := by
    rw [hseg.size, Nat.mod_eq_of_lt (by omega)]
    exact hlong
  have hfragment : (segment_addr h.mem a + size) % 2 ^ 64 = a + SEGMENT + size := by
    rw [hseg.addr, Nat.mod_eq_of_lt (by omega)]
  unfold alloc_segment
  rw [if_pos hsplit]
  simp only [split_segment, set_segment_free, set_page_free_size, set_segment_next, set_segment_size,
    set_segment_addr, put, hfragment]
  simp

/-- A request that takes a whole segment or a multiple of eight bytes keeps the segments
aligned. Any other one writes a record that is not. -/
theorem kmalloc_aligned (fuel : Nat) (h : State) (pages : List Page) (size : Nat) (hh : Holds h pages)
    (hsize : size < 2 ^ 32) (hfresh : NeedsPage fuel h size → FreshRegion h (num_pages size))
    (hfuel : weight pages + 5 ≤ fuel) (hal : AlignedPages pages) :
    ∃ c pages', kmalloc fuel h size = some c ∧ Holds c.2 pages' ∧
      (size % 8 = 0 ∨ TakesWhole fuel h size → AlignedPages pages') ∧
      ((∀ r ∈ c.2.written, r % 8 = 0) → size % 8 = 0 ∨ TakesWhole fuel h size) := by
  obtain ⟨h1, old, n, p, a, g, hready, hold, hp, hfit, hs, hc⟩ :=
    kmalloc_served fuel h pages size hh hsize hfresh hfuel
  have hal1 := hready.aligned hold hal
  have hwhole := takesWhole_iff fuel n h h1 pages old size p a g hh (by omega) hready hp hfit hs
  obtain ⟨hag, hgfree, hle⟩ := hfit
  obtain ⟨pre, post, hsegs, ha⟩ := (p.mem_placed a g).mp hag
  have hpl := hold.placed p hp a g hag
  obtain ⟨next, hrep⟩ := hold.rep.page p hp
  obtain ⟨e, hseg⟩ := hrep.tile.seg a g hag
  have haligned := hal1 p hp a g hag
  obtain ⟨ps, qs, rfl⟩ := List.append_of_mem hp
  obtain ⟨hholds, -⟩ := serve_at h1 ps qs p pre post g size a _ hold hsegs hgfree hle ha rfl
  refine ⟨_, _, hc, hholds, ?_, ?_⟩
  · rw [hwhole]
    intro heven
    exact serve_aligned ps qs p pre post g size hsegs heven hal1
  · rw [hwhole]
    intro hwritten
    by_contra hodd
    simp only [not_or, not_le] at hodd
    have hfragment := hwritten _ (split_writes h1 p.base a size e g hseg hodd.2 (by
      rw [segment_bytes]
      omega))
    rw [segment_bytes] at hfragment
    omega

/-! ## `kfree` -/

theorem joined_placed (s : Nat) (g : Seg) (post : List Seg) (a : Nat) (k : Seg) (hak : (a, k) ∈ placed s (joined g post)) :
    a = s ∨ ∃ l, (a, l) ∈ placed (s + SEGMENT + g.size) post := by
  cases post with
  | nil =>
    simp only [joined, placed, List.mem_singleton, Prod.mk.injEq] at hak
    exact Or.inl hak.1
  | cons x xs =>
    rw [joined] at hak
    split at hak
    · have hend : s + SEGMENT + (g.size + SEGMENT + x.size) = s + SEGMENT + g.size + SEGMENT + x.size := by
        omega
      rw [placed, List.mem_cons, Prod.mk.injEq, hend] at hak
      rcases hak with ⟨rfl, -⟩ | hak
      · exact Or.inl rfl
      · exact Or.inr ⟨k, by rw [placed]; exact List.mem_cons_of_mem _ hak⟩
    · rw [placed, List.mem_cons, Prod.mk.injEq] at hak
      rcases hak with ⟨rfl, -⟩ | hak
      · exact Or.inl rfl
      · exact Or.inr ⟨k, hak⟩

theorem release_aligned (ps : List Page) (p : Page) (pre post : List Seg) (g : Seg)
    (hsegs : p.segs = pre ++ [g] ++ post) (hal : AlignedPages (p :: ps)) :
    AlignedPages (p.release pre g post :: ps) := by
  have hp := hal p List.mem_cons_self
  intro q hq a k hak
  rcases List.mem_cons.mp hq with rfl | hq
  · rw [Page.placed, Page.release, placed_append, List.mem_append] at hak
    rcases hak with hak | hak
    · exact hp a k ((mem_middle p pre post g hsegs a k).mpr (Or.inl hak))
    · rcases joined_placed _ g post a k hak with rfl | ⟨l, hl⟩
      · exact hp _ g ((mem_middle p pre post g hsegs _ g).mpr (Or.inr (Or.inl ⟨rfl, rfl⟩)))
      · exact hp a l ((mem_middle p pre post g hsegs a l).mpr (Or.inr (Or.inr hl)))
  · exact hal q (List.mem_cons_of_mem _ hq) a k hak

/-! ## Runs -/

/-- What a step keeps of aligned segments: they stay aligned behind a request that splits
evenly, and the step is an aligned one exactly then. -/
theorem step_aligned (fuel : Nat) (w : World) (pages : List Page) (e : Event) (hw : HeapInv w pages)
    (hlegal : Legal fuel w e) (hfuel : weight pages + 5 ≤ fuel) (hal : AlignedPages pages) :
    ∃ w' pages', step fuel w e = some w' ∧ HeapInv w' pages' ∧ weight pages' ≤ weight pages + 3 ∧
      (EvenSplit fuel w e → AlignedPages pages') ∧ (AlignedStep fuel w e ↔ EvenSplit fuel w e) := by
  obtain ⟨w', pages', hs, hinv, hweight, -⟩ := heap_step fuel w pages e hw hlegal hfuel
  refine ⟨w', pages', hs, hinv, hweight, ?_⟩
  have hh : Holds { w.h with written := [] } pages := hw.holds.unwritten
  cases e with
  | kmalloc size =>
    obtain ⟨hsize, hfresh⟩ := hlegal
    have hfresh' : NeedsPage fuel { w.h with written := [] } size →
        FreshRegion { w.h with written := [] } (num_pages size) :=
      fun hn => ⟨(hfresh hn).ok, (hfresh hn).apart⟩
    obtain ⟨c, qs, hc, hholds, heven, hodd⟩ :=
      kmalloc_aligned fuel _ pages size hh (by omega) hfresh' hfuel hal
    obtain ⟨d, old, rs, hd, hall, -⟩ := kmalloc_spec fuel _ pages size hh (by omega) hfresh' hfuel
    obtain rfl : c = d := Option.some.inj (hc.symm.trans hd)
    obtain rfl := hholds.unique hall.holds
    have hw' : some ⟨c.2, (c.1, size) :: w.live⟩ = some w' := by
      rw [← hs, step, hc]
      rfl
    obtain rfl := Option.some.inj hw'
    obtain rfl := hinv.holds.unique hholds
    refine ⟨heven, ?_, ?_⟩
    · rintro ⟨u, hu, hwritten, -⟩
      obtain rfl := Option.some.inj (hs.symm.trans hu)
      exact hodd hwritten
    · intro he
      refine ⟨_, hs, ?_, (heven he).live hinv⟩
      intro r hr
      exact (heven he).record hholds r ((hall.written r hr).resolve_left (by simp))
  | kfree addr =>
    obtain ⟨p, ps, rfl⟩ := hw.cons hlegal
    have hkeep : AlignedPages pages' ∧ ∀ r ∈ w'.h.written, r % 8 = 0 := by
      rcases kfree_spec fuel _ p ps addr hh (by omega) with ⟨c, pre, g, post, hc, hrel⟩ | ⟨-, hc⟩
      · have hw' : some ⟨c, w.live.filter fun b => b.1 != addr⟩ = some w' := by
          rw [← hs, step, hc]
          rfl
        obtain rfl := Option.some.inj hw'
        obtain rfl := hinv.holds.unique hrel.holds
        refine ⟨release_aligned ps p pre post g hrel.segs hal, ?_⟩
        intro r hr
        exact hal.record hw.holds r ((hrel.written r hr).resolve_left (by simp))
      · have hw' : some ⟨{ w.h with written := [] }, w.live⟩ = some w' := by
          rw [← hs, step, hc]
          rfl
        obtain rfl := Option.some.inj hw'
        obtain rfl := hinv.holds.unique hh
        exact ⟨hal, by simp⟩
    exact ⟨fun _ => hkeep.1, iff_of_true ⟨w', hs, hkeep.2, hkeep.1.live hinv⟩ trivial⟩
  | store addr byte =>
    obtain rfl := Option.some.inj hs
    obtain rfl := hinv.holds.unique (hw.store addr byte hlegal).holds
    exact ⟨fun _ => hal, iff_of_true ⟨_, hs, by simp, hal.live hinv⟩ trivial⟩

/-- In every run, all pointers and records are aligned if and only if each request that
splits a segment is for a multiple of eight bytes. -/
theorem run_aligned_iff (mem : Mem) (allocs : Nat → Nat) (es : List Event) (fuel : Nat)
    (hfuel : 3 * es.length + 5 ≤ fuel) (hes : Along (step fuel) (Legal fuel) (boot mem allocs) es) :
    Along (step fuel) (AlignedStep fuel) (boot mem allocs) es ↔
      Along (step fuel) (EvenSplit fuel) (boot mem allocs) es := by
  refine along_iff_count (fun n w => ∃ pages, HeapInv w pages ∧ weight pages ≤ 3 * n ∧ AlignedPages pages)
    es.length ?_ ?_ 0 (boot mem allocs) es (by omega) ?_ hes
  · rintro n w e hn ⟨pages, hinv, hweight, hal⟩ hlegal
    obtain ⟨-, -, -, -, -, -, hiff⟩ := step_aligned fuel w pages e hinv hlegal (by omega) hal
    exact hiff
  · rintro n w e u hn ⟨pages, hinv, hweight, hal⟩ hlegal haligned hu
    obtain ⟨w', pages', hs, hinv', hweight', hal', hiff⟩ :=
      step_aligned fuel w pages e hinv hlegal (by omega) hal
    obtain rfl : w' = u := Option.some.inj (hs.symm.trans hu)
    exact ⟨pages', hinv', by omega, hal' (hiff.mp haligned)⟩
  · exact ⟨[], boot_inv mem allocs, by simp [weight], fun p hp => by simp at hp⟩

theorem run_aligned_iff_odd_request :
    Along (step 20) (AlignedStep 20) spacedBoot [.kmalloc 100] ↔
      Along (step 20) (EvenSplit 20) spacedBoot [.kmalloc 100] :=
  run_aligned_iff _ _ _ 20 (by decide) ⟨spacedBoot_live.1, fun _ _ => trivial⟩

/-- The rest behind a block of a hundred bytes gets its record at an address that is no
multiple of eight. -/
theorem odd_request_misaligns :
    ¬ ∀ (mem : Mem) (allocs : Nat → Nat) (es : List Event) (fuel : Nat), 3 * es.length + 5 ≤ fuel →
      Along (step fuel) (Legal fuel) (boot mem allocs) es →
      Along (step fuel) (AlignedStep fuel) (boot mem allocs) es := by
  intro hall
  obtain ⟨⟨w, hw, hwritten, -⟩, -⟩ := hall _ _ [.kmalloc 100] 20 (by decide) ⟨spacedBoot_live.1, fun _ _ => trivial⟩
  have hfragment : (step 20 spacedBoot (.kmalloc 100)).map (fun w => decide (0x1000a4 ∈ w.h.written)) = some true := by
    decide +kernel
  rw [show boot (fun _ => 0) (fun i => 0x100000 + i * 0x10000) = spacedBoot from rfl] at hw
  rw [hw, Option.map_some, Option.some.injEq, decide_eq_true_iff] at hfragment
  exact absurd (hwritten _ hfragment) (by decide)

end SlayerOS.Heap
