import SlayerOS.Heap.Growth

/-!
# `kmalloc` on the whole heap

It adds at most one page, and then a free segment serves the request.
-/

open SlayerOS.Bytes SlayerOS.Frames

namespace SlayerOS.Heap

/-! ## A segment for the request -/

/-- The page with the segment `g` carved up for the request. -/
def Page.serve (p : Page) (pre : List Seg) (g : Seg) (size : Nat) (post : List Seg) : Page :=
  { p with segs := pre ++ carve g size ++ post }

/-- A free segment serves the request, and `q` is its block. -/
def Served (pages pages' : List Page) (size q : Nat) : Prop :=
  ∃ ps p qs pre g post, pages = ps ++ p :: qs ∧ p.segs = pre ++ [g] ++ post ∧ g.free = true ∧
    size ≤ g.size ∧ pages' = ps ++ p.serve pre g size post :: qs ∧
    q = p.base + PAGE + span pre + SEGMENT

theorem carve_head (g : Seg) (size : Nat) :
    ∃ k ks, carve g size = k :: ks ∧ k.free = false ∧ (size ≤ g.size → size ≤ k.size) := by
  unfold carve
  by_cases h : size + SEGMENT < g.size
  · rw [if_pos h]
    exact ⟨_, _, rfl, rfl, fun _ => le_refl _⟩
  · rw [if_neg h]
    exact ⟨_, _, rfl, rfl, fun h => h⟩

theorem serve_head (p : Page) (pre post : List Seg) (g : Seg) (size : Nat) :
    ∃ k, (p.base + PAGE + span pre, k) ∈ (p.serve pre g size post).placed ∧ k.free = false ∧
      (size ≤ g.size → size ≤ k.size) := by
  obtain ⟨k, ks, hk, hfree, hsize⟩ := carve_head g size
  refine ⟨k, ?_, hfree, hsize⟩
  refine (mem_placed_iff _ _ _ _).mpr ⟨pre, ks ++ post, ?_, rfl⟩
  simp [Page.serve, hk]

theorem serve_records (p : Page) (pre post : List Seg) (g : Seg) (size r : Nat)
    (hr : r ∈ carveRecords (p.base + PAGE + span pre) g size) :
    ∃ k, (r, k) ∈ (p.serve pre g size post).placed := by
  obtain ⟨⟨q, k⟩, hk, rfl⟩ := List.mem_map.mp hr
  refine ⟨k, ?_⟩
  simp only [Page.placed, Page.serve, placed_append, List.mem_append]
  exact Or.inl (Or.inr hk)

theorem serve_other (p : Page) (pre post : List Seg) (g : Seg) (size : Nat)
    (hsegs : p.segs = pre ++ [g] ++ post) (a : Nat) (k : Seg) (hak : (a, k) ∈ p.placed)
    (hne : k.free ≠ g.free) : (a, k) ∈ (p.serve pre g size post).placed := by
  simp only [Page.placed, Page.serve, hsegs, placed_append, span_append, span_carve,
    List.mem_append] at hak ⊢
  rcases hak with (hak | hak) | hak
  · exact Or.inl (Or.inl hak)
  · simp only [placed, List.mem_singleton, Prod.mk.injEq] at hak
    exact absurd (congrArg Seg.free hak.2) hne
  · exact Or.inr hak

theorem serve_at (h : State) (ps qs : List Page) (p : Page) (pre post : List Seg) (g : Seg) (size a : Nat)
    (c : Nat × State) (hh : Holds h (ps ++ p :: qs)) (hsegs : p.segs = pre ++ [g] ++ post)
    (hgfree : g.free = true) (hsize : size ≤ g.size) (ha : a = p.base + PAGE + span pre)
    (hc : alloc_segment h p.base a size = c) :
    Holds c.2 (ps ++ p.serve pre g size post :: qs) ∧ c.1 = a + SEGMENT ∧
      DataKept h.mem c.2.mem (ps ++ p :: qs) ∧
      (∀ r ∈ c.2.written, r ∈ h.written ∨ IsRecord (ps ++ p.serve pre g size post :: qs) r) ∧
      c.2.allocs = h.allocs ∧ c.2.regions = h.regions := by
  have hp : p ∈ ps ++ p :: qs := by simp
  have hag : (a, g) ∈ p.placed := (p.mem_placed a g).mpr ⟨pre, post, hsegs, ha⟩
  have hpl := hh.placed p hp a g hag
  have hrecord := hh.record_apart p.base ⟨p, hp, Or.inl rfl⟩
  have hother : ∀ q ∈ ps ++ p :: qs, ∀ b k, (b, k) ∈ q.placed → k.free = false →
      a + 32 + g.size ≤ b ∨ b + 32 + k.size ≤ a := by
    intro q hq b k hbk hk
    rcases hh.segs_apart p q hp hq a b g k hag hbk with ⟨-, -, rfl⟩ | h
    · rw [hgfree] at hk
      exact absurd hk (by decide)
    · exact h
  obtain ⟨next, hrep⟩ := hh.rep.page p hp
  have hspec := fun next hrep => alloc_segment_spec h p next pre post g size a c hrep hsegs hsize ha hc
  obtain ⟨hq, -, htouch⟩ := hspec next hrep
  have hout : ∀ x, (x < p.base ∨ p.base + 32 ≤ x) → (x < a ∨ a + 32 ≤ x) →
      (x < a + 32 + size ∨ a + 32 + g.size ≤ x) → c.2.mem x = h.mem x := fun x h1 h2 h3 =>
    htouch.mem x (List.forall_mem_cons.mpr ⟨h1, outside_carve a size x g h2 h3⟩)
  refine ⟨⟨?_, ?_, ?_, ?_⟩, hq, ?_, ?_, htouch.allocs, htouch.regions⟩
  · rw [htouch.heap, hh.head]
    cases ps <;> rfl
  · refine hh.rep.replace rfl ?_ fun next hrep => (hspec next hrep).2.1
    intro q hq x h1 h2
    have hap := hh.other_apart q hq
    unfold Apart at hap
    exact hout x (by omega) (by omega) (by omega)
  · rw [htouch.regions, hh.regions]
    simp [Page.serve, Page.region]
  · rw [htouch.regions]
    exact hh.apart
  · intro q hq b k hbk hk x h1 h2
    have h3 := hother q hq b k hbk hk
    have h4 := hrecord q hq b k hbk
    simp only [segment_bytes] at h1 h2
    unfold Apart at h4
    exact hout x (by omega) (by omega) (by omega)
  · intro r hr
    rcases htouch.written r hr with hr | hr
    · refine Or.inr ⟨p.serve pre g size post, by simp, ?_⟩
      rcases List.mem_cons.mp hr with rfl | hr
      · exact Or.inl rfl
      · rw [ha] at hr
        exact Or.inr (serve_records p pre post g size r hr)
    · exact Or.inl hr

theorem serve_spec (h : State) (pages : List Page) (size : Nat) (p : Page) (a : Nat) (g : Seg)
    (c : Nat × State) (hh : Holds h pages) (hp : p ∈ pages) (hfit : Fits size p a g)
    (hc : alloc_segment h p.base a size = c) :
    ∃ pages', Served pages pages' size c.1 ∧ Holds c.2 pages' ∧ DataKept h.mem c.2.mem pages ∧
      (∀ r ∈ c.2.written, r ∈ h.written ∨ IsRecord pages' r) ∧
      c.2.allocs = h.allocs ∧ c.2.regions = h.regions := by
  obtain ⟨hag, hgfree, hsize⟩ := hfit
  obtain ⟨pre, post, hsegs, ha⟩ := (p.mem_placed a g).mp hag
  obtain ⟨ps, qs, rfl⟩ := List.append_of_mem hp
  obtain ⟨hholds, hq, hrest⟩ := serve_at h ps qs p pre post g size a c hh hsegs hgfree hsize ha hc
  refine ⟨ps ++ p.serve pre g size post :: qs, ?_, hholds, hrest⟩
  exact ⟨ps, p, qs, pre, g, post, rfl, hsegs, hgfree, hsize, rfl, by rw [hq, ha]⟩

/-! ## The whole call -/

theorem Served.record {pages pages' : List Page} {size q : Nat} (hs : Served pages pages' size q) (r : Nat)
    (hr : IsRecord pages r) : IsRecord pages' r := by
  obtain ⟨ps, p, qs, pre, g, post, rfl, hsegs, -, -, rfl, -⟩ := hs
  obtain ⟨x, hx, hr⟩ := hr
  have hcase : x = p ∨ x ∈ ps ++ p.serve pre g size post :: qs := by
    simp only [List.mem_append, List.mem_cons] at hx ⊢
    rcases hx with hx | hx | hx <;> simp [hx]
  rcases hcase with rfl | hx
  · refine ⟨x.serve pre g size post, by simp, ?_⟩
    rcases hr with rfl | ⟨k, hk⟩
    · exact Or.inl rfl
    · right
      simp only [Page.placed, hsegs, placed_append, List.mem_append] at hk
      rcases hk with (hk | hk) | hk
      · refine ⟨k, ?_⟩
        simp only [Page.placed, Page.serve, placed_append, List.mem_append]
        exact Or.inl (Or.inl hk)
      · simp only [placed, List.mem_singleton, Prod.mk.injEq] at hk
        obtain ⟨k', hk', -⟩ := serve_head x pre post g size
        exact ⟨k', by rw [hk.1]; exact hk'⟩
      · refine ⟨k, ?_⟩
        simp only [Page.placed, Page.serve, placed_append, span_append, span_carve, List.mem_append] at hk ⊢
        exact Or.inr hk
  · exact ⟨x, hx, hr⟩

theorem Served.weight {pages pages' : List Page} {size q : Nat} (hs : Served pages pages' size q) :
    weight pages' ≤ weight pages + 1 := by
  obtain ⟨ps, p, qs, pre, g, post, rfl, hsegs, -, -, rfl, -⟩ := hs
  have hcarve : (carve g size).length ≤ 2 := by
    unfold carve
    split <;> simp
  simp only [weight_append, weight_cons, hsegs, Page.serve, List.length_append, List.length_singleton]
  omega

/-- What a call of `kmalloc` does, when it starts with `pages` and there are `old` pages at the
time of the search that finds the segment. -/
structure Allocated (h : State) (pages old pages' : List Page) (size : Nat) (c : Nat × State) :
    Prop where
  before : ∃ h1, Holds h1 old
  served : Served old pages' size c.1
  holds : Holds c.2 pages'
  data : DataKept h.mem c.2.mem pages
  written : ∀ r ∈ c.2.written, r ∈ h.written ∨ IsRecord pages' r
  allocs : c.2.allocs = h.allocs

theorem Chain.heap_ne {h : State} {pages : List Page} (hc : Chain h pages) (hne : pages ≠ []) : h.heap ≠ 0 := by
  obtain ⟨p, ps, rfl⟩ := List.exists_cons_of_ne_nil hne
  rw [hc.head]
  exact hc.linked.1.pos

theorem ensure_heap_eq (h : State) (size : Nat) (hheap : h.heap ≠ 0) : ensure_heap h size = h := by
  rw [ensure_heap, if_neg hheap]

/-- No free segment is large enough for the request. -/
def NoFit (size : Nat) (pages : List Page) : Prop := ∀ p ∈ pages, ∀ a g, ¬ Fits size p a g

theorem kmalloc_found (fuel : Nat) (h : State) (pages : List Page) (size : Nat) (hc : Chain h pages)
    (hfuel : weight pages < fuel) (hfit : ¬ NoFit size pages) :
    ∃ p a g, p ∈ pages ∧ Fits size p a g ∧ search h.mem size fuel h.heap = some (.found p.base a) ∧
      kmalloc (fuel + 1) h size = some (alloc_segment h p.base a size) := by
  have hne : pages ≠ [] := by
    rintro rfl
    exact hfit fun p hp => by simp at hp
  rcases search_spec h.mem size fuel pages hc.linked hne hfuel with ⟨p, a, g, hp, hpf, hs⟩ | ⟨hnone, -⟩
  · rw [← hc.head] at hs
    refine ⟨p, a, g, hp, hpf, hs, ?_⟩
    simp only [kmalloc, ensure_heap_eq h size (hc.heap_ne hne), hs]
  · exact absurd hnone hfit

theorem search_last (fuel : Nat) (h : State) (pages : List Page) (size : Nat) (hc : Chain h pages)
    (hne : pages ≠ []) (hno : NoFit size pages) (hfuel : weight pages < fuel) :
    ∃ last, pages.getLast? = some last ∧ search h.mem size fuel h.heap = some (.last last.base) := by
  rcases search_spec h.mem size fuel pages hc.linked hne hfuel
    with ⟨p, a, g, hp, hfit, -⟩ | ⟨-, init, last, rfl, hs⟩
  · exact absurd hfit (hno p hp a g)
  · exact ⟨last, by simp, by rw [hc.head]; exact hs⟩

theorem kmalloc_first (fuel : Nat) (h : State) (size : Nat) (hheap : (ensure_heap h size).heap ≠ 0) :
    kmalloc fuel h size = kmalloc fuel (ensure_heap h size) size := by
  cases fuel with
  | zero => rfl
  | succ fuel =>
    conv_rhs => rw [kmalloc, ensure_heap_eq (ensure_heap h size) size hheap]
    rw [kmalloc]

theorem kmalloc_next (fuel : Nat) (h : State) (pages : List Page) (size : Nat) (last : Page)
    (hheap : h.heap ≠ 0) (hlast : pages.getLast? = some last)
    (hs : search h.mem size fuel h.heap = some (.last last.base)) :
    kmalloc (fuel + 1) h size = kmalloc fuel (grown h pages size) size := by
  conv_lhs => rw [kmalloc]
  simp only [ensure_heap_eq h size hheap, hs, grown, hlast]

theorem kmalloc_of_grown (fuel : Nat) (h : State) (pages : List Page) (size : Nat) (hc : Chain h pages)
    (hno : NoFit size pages) (hg : Grown h (grown h pages size) pages size) (hfuel : weight pages < fuel) :
    ∃ n, fuel ≤ n ∧ kmalloc (fuel + 1) h size = kmalloc n (grown h pages size) size := by
  by_cases hne : pages = []
  · subst hne
    refine ⟨fuel + 1, by omega, kmalloc_first (fuel + 1) h size ?_⟩
    exact hg.chain.heap_ne (by simp)
  · obtain ⟨last, hlast, hs⟩ := search_last fuel h pages size hc hne hno hfuel
    exact ⟨fuel, le_refl _, kmalloc_next fuel h pages size last (hc.heap_ne hne) hlast hs⟩

/-- The heap that the last search of a call sees: the heap as it was, or with one more page. -/
inductive Ready (h : State) (pages : List Page) (size : Nat) : State → List Page → Prop where
  | same : ¬ NoFit size pages → Ready h pages size h pages
  | more : NoFit size pages → Grown h (grown h pages size) pages size →
      Extended h (grown h pages size) pages (newPage h size) →
      Ready h pages size (grown h pages size) (pages ++ [newPage h size])

theorem needsPage_of_noFit (fuel : Nat) (h : State) (pages : List Page) (size : Nat) (hc : Chain h pages)
    (hno : NoFit size pages) (hfuel : weight pages < fuel) : NeedsPage fuel h size := by
  by_cases hne : pages = []
  · left
    rw [hc.head, hne]
    rfl
  · obtain ⟨last, -, hs⟩ := search_last fuel h pages size hc hne hno hfuel
    exact Or.inr ⟨last.base, hs⟩

theorem kmalloc_served (fuel : Nat) (h : State) (pages : List Page) (size : Nat) (hh : Holds h pages)
    (hsize : size < 2 ^ 32) (hfresh : NeedsPage fuel h size → FreshRegion h (num_pages size))
    (hfuel : weight pages + 5 ≤ fuel) :
    ∃ h1 old n p a g, Ready h pages size h1 old ∧ Holds h1 old ∧ p ∈ old ∧ Fits size p a g ∧
      search h1.mem size n h1.heap = some (.found p.base a) ∧
      kmalloc fuel h size = some (alloc_segment h1 p.base a size) := by
  obtain ⟨f, rfl⟩ : ∃ f, fuel = f + 1 := ⟨fuel - 1, by omega⟩
  by_cases hno : NoFit size pages
  · have hneeds := needsPage_of_noFit (f + 1) h pages size hh.chain hno (by omega)
    have hlog := (hh.fresh_answer size).mpr (by rw [num_pages_pos size hsize]; exact hfresh hneeds)
    have hg := chain_grown h pages size hh.chain hlog
    have he := hg.extended hh hsize
    have hfit : ¬ NoFit size (pages ++ [newPage h size]) := fun hall =>
      hall (newPage h size) (by simp) _ _ (fits_newPage h size hsize)
    have hweight : weight (pages ++ [newPage h size]) = weight pages + 2 := by
      simp [weight_append, weight, newPage]
    obtain ⟨n, hn, hk⟩ := kmalloc_of_grown f h pages size hh.chain hno hg (by omega)
    obtain ⟨n, rfl⟩ : ∃ k, n = k + 1 := ⟨n - 1, by omega⟩
    obtain ⟨p, a, g, hp, hpf, hs, hc⟩ := kmalloc_found n _ _ size he.holds.chain (by omega) hfit
    exact ⟨_, _, n, p, a, g, .more hno hg he, he.holds, hp, hpf, hs, by rw [hk, hc]⟩
  · obtain ⟨p, a, g, hp, hpf, hs, hc⟩ := kmalloc_found f h pages size hh.chain (by omega) hno
    exact ⟨_, _, f, p, a, g, .same hno, hh, hp, hpf, hs, hc⟩

theorem Ready.allocated {h h1 : State} {pages old : List Page} {size : Nat} (hr : Ready h pages size h1 old)
    (hh : Holds h1 old) (p : Page) (a : Nat) (g : Seg) (hp : p ∈ old) (hfit : Fits size p a g) :
    ∃ pages', Allocated h pages old pages' size (alloc_segment h1 p.base a size) ∧
      (old = pages ∨ old = pages ++ [newPage h size]) := by
  obtain ⟨pages', hserved, hholds, hdata, hwr, hallocs, -⟩ := serve_spec h1 old size p a g _ hh hp hfit rfl
  cases hr with
  | same _ => exact ⟨pages', ⟨⟨h, hh⟩, hserved, hholds, hdata, hwr, hallocs⟩, Or.inl rfl⟩
  | more _ _ he =>
    refine ⟨pages', ⟨⟨_, hh⟩, hserved, hholds, he.data.trans ?_, ?_, hallocs.trans he.allocs⟩, Or.inr rfl⟩
    · intro q hq
      exact hdata q (by simp [hq])
    · intro r hr
      rcases hwr r hr with hr | hr
      · rcases he.written r hr with hr | hr
        · exact Or.inl hr
        · exact Or.inr (hserved.record r hr)
      · exact Or.inr hr

theorem kmalloc_spec (fuel : Nat) (h : State) (pages : List Page) (size : Nat) (hh : Holds h pages)
    (hsize : size < 2 ^ 32) (hfresh : NeedsPage fuel h size → FreshRegion h (num_pages size))
    (hfuel : weight pages + 5 ≤ fuel) :
    ∃ c old pages', kmalloc fuel h size = some c ∧ Allocated h pages old pages' size c ∧
      (old = pages ∨ old = pages ++ [newPage h size]) := by
  obtain ⟨h1, old, -, p, a, g, hready, hold, hp, hfit, -, hc⟩ :=
    kmalloc_served fuel h pages size hh hsize hfresh hfuel
  obtain ⟨pages', hall, hcase⟩ := hready.allocated hold p a g hp hfit
  exact ⟨_, old, pages', hc, hall, hcase⟩

end SlayerOS.Heap
