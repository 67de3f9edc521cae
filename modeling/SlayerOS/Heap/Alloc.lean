import SlayerOS.Heap.Layout

/-!
# `kmalloc`

The search, a new page, and the segment that a request gets.
-/

open SlayerOS.Bytes SlayerOS.Frames SlayerOS.Run

namespace SlayerOS.Heap

/-! ## The search -/

/-- An upper bound on the steps of a search. -/
def weight : List Page → Nat
  | [] => 0
  | p :: ps => p.segs.length + 1 + weight ps

theorem weight_cons (p : Page) (ps : List Page) : weight (p :: ps) = p.segs.length + 1 + weight ps := rfl

theorem weight_append (xs ys : List Page) : weight (xs ++ ys) = weight xs + weight ys := by
  induction xs with
  | nil => simp [weight]
  | cons p xs ih =>
    rw [List.cons_append, weight_cons, weight_cons, ih]
    omega

/-- The segment at `a` is free and large enough for the request. -/
def Fits (size : Nat) (p : Page) (a : Nat) (g : Seg) : Prop :=
  (a, g) ∈ p.placed ∧ g.free = true ∧ size ≤ g.size

theorem find_segment_spec (m : Mem) (size fuel : Nat) (p : Page) (next : Nat) (h : Linked m p next)
    (hfuel : p.segs.length < fuel) :
    (∃ a g, Fits size p a g ∧ find_segment m size fuel (page_first m p.base) = some a) ∨
    ((∀ a g, ¬ Fits size p a g) ∧ find_segment m size fuel (page_first m p.base) = some 0) := by
  have hpos : p.base + PAGE ≠ 0 := by simp
  have hw := walk_spec m (fun s => segment_free m s && decide (segment_size m s ≥ size)) fuel
    (p.base + PAGE) p.segs h.tile hpos hfuel
  have htest : ∀ a g, (a, g) ∈ p.placed →
      ((segment_free m a && decide (segment_size m a ≥ size)) = true ↔ g.free = true ∧ size ≤ g.size) := by
    intro a g hag
    obtain ⟨next, hseg⟩ := h.tile.seg a g hag
    simp [hseg.free, hseg.size]
  rw [if_neg h.segs] at hw
  rw [h.first]
  rcases hw with ⟨a, g, hag, ht, hw⟩ | ⟨hall, hw⟩
  · exact Or.inl ⟨a, g, ⟨hag, (htest a g hag).mp ht⟩, hw⟩
  · refine Or.inr ⟨?_, hw⟩
    rintro a g ⟨hag, hfit⟩
    have := hall a g hag
    rw [(htest a g hag).mpr hfit] at this
    exact absurd this (by decide)

theorem search_spec (m : Mem) (size fuel : Nat) (pages : List Page) (h : PagesLinked m pages 0)
    (hne : pages ≠ []) (hfuel : weight pages < fuel) :
    (∃ p a g, p ∈ pages ∧ Fits size p a g ∧
      search m size fuel (headBase pages) = some (.found p.base a)) ∨
    ((∀ p ∈ pages, ∀ a g, ¬ Fits size p a g) ∧ ∃ init last, pages = init ++ [last] ∧
      search m size fuel (headBase pages) = some (.last last.base)) := by
  induction pages generalizing fuel with
  | nil => exact absurd rfl hne
  | cons p ps ih =>
    rw [weight_cons] at hfuel
    obtain ⟨f, rfl⟩ : ∃ f, fuel = f + 1 := ⟨fuel - 1, by omega⟩
    have hbase := h.1.pos
    simp only [headBase, search, hbase, if_false]
    rcases find_segment_spec m size f p _ h.1 (by omega) with ⟨a, g, hfit, hfind⟩ | ⟨hno, hfind⟩
    · left
      have ha : a ≠ 0 := by
        have := (placed_lo _ _ _ _ hfit.1).1
        simp only [page_bytes] at this
        omega
      obtain ⟨k, rfl⟩ := Nat.exists_eq_succ_of_ne_zero ha
      exact ⟨p, k + 1, g, List.mem_cons_self, hfit, by simp only [hfind]⟩
    · simp only [hfind, h.1.next]
      cases ps with
      | nil =>
        right
        refine ⟨?_, [], p, rfl, by simp⟩
        intro q hq
        rw [List.mem_singleton] at hq
        rw [hq]
        exact hno
      | cons q ps =>
        have hq : q.base ≠ 0 := h.2.1.pos
        simp only [List.cons_ne_nil, if_false, headBase, hq]
        rcases ih f h.2 (List.cons_ne_nil _ _) (by omega)
          with ⟨r, a, g, hr, hfit, hs⟩ | ⟨hnone, init, last, heq, hs⟩
        · exact Or.inl ⟨r, a, g, List.mem_cons_of_mem _ hr, hfit, hs⟩
        · right
          refine ⟨?_, p :: init, last, by rw [heq]; rfl, hs⟩
          intro r hr
          rcases List.mem_cons.mp hr with rfl | hr
          · exact hno
          · exact hnone r hr

theorem walk_mono (m : Mem) (test : Nat → Bool) (fuel segment r : Nat)
    (h : walk m test fuel segment = some r) : walk m test (fuel + 1) segment = some r := by
  induction fuel generalizing segment with
  | zero => simp [walk] at h
  | succ fuel ih =>
    rw [walk] at h ⊢
    split_ifs at h ⊢ with h1 h2
    · exact h
    · exact h
    · exact ih _ h

theorem search_mono (m : Mem) (size fuel page : Nat) (r : Search) (h : search m size fuel page = some r) :
    search m size (fuel + 1) page = some r := by
  induction fuel generalizing page with
  | zero => simp [search] at h
  | succ fuel ih =>
    rw [search] at h ⊢
    by_cases h1 : page = 0
    · rw [if_pos h1] at h ⊢
      exact h
    rw [if_neg h1] at h ⊢
    cases hf : find_segment m size fuel (page_first m page) with
    | none => simp [hf] at h
    | some s =>
      have hf' : find_segment m size (fuel + 1) (page_first m page) = some s := walk_mono _ _ _ _ _ hf
      rw [hf] at h
      rw [hf']
      cases s with
      | zero =>
        simp only at h ⊢
        by_cases h2 : page_next m page = 0
        · rw [if_pos h2] at h ⊢
          exact h
        · rw [if_neg h2] at h ⊢
          exact ih _ h
      | succ s => exact h

theorem search_agree (m : Mem) (size page n k : Nat) (r q : Search) (h1 : search m size n page = some r)
    (h2 : search m size k page = some q) : r = q :=
  fuel_agree (fun fuel => search m size fuel page) (fun fuel r => search_mono m size fuel page r) n k r q h1 h2

/-! ## A new page -/

/-- The size of the first segment of a page that was made for a request. -/
def firstSize (size : Nat) : Nat := alloc_size size - PAGE - SEGMENT

/-- The page that a request of this size adds. Its free size is a `u32`. -/
def grownPage (h : State) (size : Nat) : Page :=
  ⟨h.allocs h.regions.length, num_pages size, [⟨firstSize size % 2 ^ 32, true⟩]⟩

/-- The bytes of the frames that a page has for itself. A request for no frames is
answered with a frame too. -/
def Page.held (p : Page) : Nat := max 1 p.count * FRAME_SIZE

theorem alloc_size_eq (size : Nat) : alloc_size size = firstSize size + 64 ∧ alloc_size size < 2 ^ 64 := by
  have hsum : size + PAGE + SEGMENT = size + 64 := rfl
  have hsum' : PAGE + SEGMENT + size = size + 64 := by simp only [page_bytes, segment_bytes]; omega
  unfold firstSize alloc_size fits_frame
  rw [hsum, hsum']
  by_cases hfit : (size + 64) % 2 ^ 64 ≤ FRAME_SIZE
  · simp only [hfit, decide_true, if_true, page_bytes, segment_bytes]
    unfold FRAME_SIZE
    omega
  · simp only [hfit, decide_false, if_false, Bool.false_eq_true, page_bytes, segment_bytes]
    unfold FRAME_SIZE at hfit
    omega

theorem num_pages_bytes (size : Nat) : num_pages size * FRAME_SIZE < 2 ^ 64 := by
  unfold num_pages FRAME_SIZE
  split <;> omega

theorem firstSize_eq (size : Nat) (h : size < 2 ^ 32) : firstSize size = max 4032 size := by
  have hwrap : (size + PAGE + SEGMENT) % 2 ^ 64 = size + 64 := Nat.mod_eq_of_lt (by simp; omega)
  have hwrap' : (PAGE + SEGMENT + size) % 2 ^ 64 = size + 64 := by
    rw [Nat.mod_eq_of_lt] <;> simp <;> omega
  unfold firstSize alloc_size fits_frame
  rw [hwrap, hwrap']
  by_cases hfit : size + 64 ≤ FRAME_SIZE
  · simp only [hfit, decide_true, if_true, page_bytes, segment_bytes]
    unfold FRAME_SIZE at *
    omega
  · simp only [hfit, decide_false, if_false, Bool.false_eq_true, page_bytes, segment_bytes]
    unfold FRAME_SIZE at *
    omega

theorem page_sizes (size : Nat) (h : size < 2 ^ 32) :
    size ≤ firstSize size ∧ 0 < firstSize size ∧ firstSize size < 2 ^ 32 ∧
    firstSize size + 64 ≤ num_pages size * FRAME_SIZE := by
  have hfirst := firstSize_eq size h
  have halloc := (alloc_size_eq size).1
  refine ⟨by omega, by omega, by omega, ?_⟩
  unfold num_pages
  by_cases hfit : fits_frame size = true
  · rw [if_pos hfit]
    rw [alloc_size, if_pos hfit] at halloc
    unfold FRAME_SIZE at *
    omega
  · rw [if_neg hfit, halloc]
    unfold FRAME_SIZE
    omega

theorem num_pages_pos (size : Nat) (h : size < 2 ^ 32) : max 1 (num_pages size) = num_pages size := by
  have := (page_sizes size h).2.2.2
  unfold FRAME_SIZE at this
  omega

theorem page_segments_init_spec (h : State) (page f v : Nat) (haddr : page_addr h.mem page = page + 32)
    (hf : page_free_size h.mem page = f) (hv : v = sub64 f 32 % 2 ^ 32) (htop : page + 64 < 2 ^ 64) :
    let h' := page_segments_init h page
    SegAt h'.mem (page + 32) ⟨v, true⟩ 0 ∧ page_first h'.mem page = page + 32 ∧
    page_free_size h'.mem page = v ∧ Touches [page, page + 32] h h' := by
  intro h'
  have hmod : sub64 f 32 % 256 ^ 4 = v := hv.symm
  have hmod8 : v % 256 ^ 8 = v := Nat.mod_eq_of_lt (by omega)
  have ha : (page + 32 + 32) % 256 ^ 8 = page + 32 + 32 := Nat.mod_eq_of_lt (by omega)
  have hb : (page + 32) % 256 ^ 8 = page + 32 := Nat.mod_eq_of_lt (by omega)
  have hh : h' = put (put (put (put (put (put h page 16 4 (sub64 f 32)) (page + 32) 0 8 (page + 32 + 32))
      (page + 32) 8 8 v) (page + 32) 16 1 1) (page + 32) 24 8 0) page 8 8 (page + 32) := by
    simp only [h', page_segments_init, haddr, hf, segment_bytes]
    simp only [set_page_free_size, set_segment_addr, set_segment_size, set_segment_free,
      set_segment_next, set_page_first, page_free_size, Bool.toNat_true]
    simp (disch := omega) only [read_put_apart, read_put_same, hmod]
  rw [hh]
  refine ⟨⟨?_, ?_, ?_, ?_⟩, ?_, ?_, ?_⟩
  · simp (disch := omega) only [segment_addr, read_put_apart, read_put_same, ha, segment_bytes]
  · simp (disch := omega) only [segment_size, read_put_apart, read_put_same, hmod8]
  · simp (disch := omega) [segment_free, read_put_apart, read_put_same]
  · simp (disch := omega) only [segment_next, read_put_apart, read_put_same, Nat.zero_mod]
  · simp (disch := omega) only [page_first, read_put_same, hb]
  · simp (disch := omega) only [page_free_size, read_put_apart, read_put_same, hmod]
  · repeat refine Touches.put ?_ _ _ _ _ (by simp) (by omega)
    exact Touches.refl _ h

theorem create_heap_page_regions (h : State) (size : Nat) :
    (create_heap_page h size).2.regions = h.regions ++ [(grownPage h size).region] := by
  unfold create_heap_page frame_allocs page_segments_init
  simp only [set_page_addr, set_page_free_size, set_page_next, set_page_first, set_segment_addr,
    set_segment_size, set_segment_free, set_segment_next, put_regions]
  split <;> rfl

theorem create_heap_page_spec (h : State) (size : Nat) (hpos : (grownPage h size).base ≠ 0)
    (htop : (grownPage h size).base + FRAME_SIZE ≤ 2 ^ 64) :
    let new := grownPage h size
    let h' := (create_heap_page h size).2
    (create_heap_page h size).1 = new.base ∧ Linked h'.mem new 0 ∧
    page_free_size h'.mem new.base = firstSize size % 2 ^ 32 ∧
    (∀ x, x < new.base ∨ new.base + new.held ≤ x → h'.mem x = h.mem x) ∧
    (∀ a ∈ h'.written, a = new.base ∨ a = new.base + 32 ∨ a ∈ h.written) ∧
    h'.heap = h.heap ∧ h'.allocs = h.allocs := by
  intro new h'
  obtain ⟨hsizes, hbig⟩ := alloc_size_eq size
  have hfill : num_pages size * FRAME_SIZE % 2 ^ 64 = num_pages size * FRAME_SIZE :=
    Nat.mod_eq_of_lt (num_pages_bytes size)
  have hsub : sub64 (alloc_size size) PAGE = firstSize size + 32 := by
    rw [hsizes]; unfold sub64; simp only [page_bytes]; omega
  have hheld : 64 ≤ new.held ∧ num_pages size * FRAME_SIZE ≤ new.held := by
    simp only [new, Page.held, grownPage, FRAME_SIZE]
    omega
  obtain ⟨r, hr⟩ : ∃ r, h.allocs h.regions.length = r := ⟨_, rfl⟩
  have hnew : new.base = r := hr
  rw [show (grownPage h size).base = r from hr] at hpos htop
  unfold FRAME_SIZE at htop
  have haddr : (r + 32) % 256 ^ 8 = r + 32 := Nat.mod_eq_of_lt (by omega)
  have hfirstsize : firstSize size % 2 ^ 32 = sub64 ((firstSize size + 32) % 2 ^ 32) 32 % 2 ^ 32 := by
    unfold sub64
    omega
  -- The state when `page_segments_init` starts.
  let h0 : State := { h with
    regions := h.regions ++ [(r, num_pages size)]
    mem := fill h.mem r (num_pages size * FRAME_SIZE) 0 }
  let h1 : State := put (put h0 r 0 8 (r + 32)) r 16 4 (firstSize size + 32)
  have hcreate : create_heap_page h size = (r, set_page_next (page_segments_init h1 r) r 0) := by
    simp only [create_heap_page, frame_allocs, hsub, hfill, hr, hpos, if_false]
    rfl
  have h1addr : page_addr h1.mem r = r + 32 := by
    simp (disch := omega) only [h1, page_addr, read_put_apart, read_put_same, haddr]
  have h1free : page_free_size h1.mem r = (firstSize size + 32) % 2 ^ 32 := by
    simp only [h1, page_free_size, read_put_same]
    rfl
  obtain ⟨hseg, hfirst, hfree, htouch⟩ :=
    page_segments_init_spec h1 r _ _ h1addr h1free hfirstsize (by omega)
  have hh' : h' = put (page_segments_init h1 r) r 24 8 0 := by
    simp only [h', hcreate, set_page_next]
  have hall : Touches [r, r + 32] h0 h' := by
    rw [hh']
    refine Touches.put (Touches.trans ?_ htouch) _ _ _ _ (by simp) (by omega)
    repeat refine Touches.put ?_ _ _ _ _ (by simp) (by omega)
    exact Touches.refl _ h0
  rw [hcreate, hnew]
  refine ⟨rfl, ⟨by rw [hnew]; exact hpos, ?_, ?_, List.cons_ne_nil _ _, ⟨?_, trivial⟩⟩, ?_, ?_, ?_,
    hall.heap, hall.allocs⟩
  · rw [hnew]
    simp (disch := omega) only [hh', page_first, read_put_apart, page_bytes]
    exact hfirst
  · rw [hnew]
    simp only [hh', page_next, read_put_same, Nat.zero_mod]
  · rw [if_pos rfl, hnew, hh']
    apply hseg.congr
    intro x hx _
    exact put_outside _ _ _ _ _ _ (Or.inr hx)
  · simp (disch := omega) only [hh', page_free_size, read_put_apart]
    exact hfree
  · intro x hx
    rw [hall.mem x (by simp only [List.forall_mem_cons]; exact ⟨by omega, by omega, by simp⟩)]
    exact fill_outside _ _ _ _ _ (by omega)
  · intro a ha
    simpa [or_assoc] using hall.written a ha

/-! ## The segment of a request -/

/-- What becomes of a segment that serves a request. -/
def carve (g : Seg) (size : Nat) : List Seg :=
  if size + SEGMENT < g.size then [⟨size, false⟩, ⟨g.size - size - SEGMENT, true⟩]
  else [⟨g.size, false⟩]

theorem span_carve (g : Seg) (size : Nat) : span (carve g size) = span [g] := by
  unfold carve
  by_cases h : size + SEGMENT < g.size
  · rw [if_pos h]
    simp only [span_cons, span_nil, segment_bytes] at h ⊢
    omega
  · rw [if_neg h]
    simp only [span_cons]

theorem carve_ne_nil (g : Seg) (size : Nat) : carve g size ≠ [] := by
  unfold carve
  split <;> simp

/-- The records of the segments that a request makes of one at `a`. -/
def carveRecords (a : Nat) (g : Seg) (size : Nat) : List Nat := (placed a (carve g size)).map Prod.fst

theorem carveRecords_eq (a : Nat) (g : Seg) (size : Nat) :
    carveRecords a g size = if size + 32 < g.size then [a, a + 32 + size] else [a] := by
  unfold carveRecords carve
  rw [segment_bytes]
  split <;> rfl

theorem SegAt.set_free {h : State} {a : Nat} {g : Seg} {next : Nat} (hseg : SegAt h.mem a g next)
    (b : Bool) : SegAt (set_segment_free h a b).mem a ⟨g.size, b⟩ next := by
  refine ⟨?_, ?_, ?_, ?_⟩
  · rw [← hseg.addr]
    simp (disch := omega) only [set_segment_free, segment_addr, read_put_apart]
  · simp only [← hseg.size]
    simp (disch := omega) only [set_segment_free, segment_size, read_put_apart]
  · simp only [set_segment_free, segment_free, read_put_same]
    cases b <;> rfl
  · rw [← hseg.next]
    simp (disch := omega) only [set_segment_free, segment_next, read_put_apart]

theorem split_segment_spec (h : State) (a size : Nat) (g : Seg) (next : Nat) (hseg : SegAt h.mem a g next)
    (hsize : size + 32 < g.size) (htop : a + 32 + g.size ≤ 2 ^ 64) :
    let h' := split_segment h a size
    SegAt h'.mem a ⟨size, g.free⟩ (a + 32 + size) ∧
    SegAt h'.mem (a + 32 + size) ⟨g.size - size - 32, true⟩ next ∧
    Touches [a, a + 32 + size] h h' := by
  intro h'
  have haddr := hseg.addr
  have hfrag : (a + 32 + size) % 2 ^ 64 = a + 32 + size := Nat.mod_eq_of_lt (by omega)
  have hfrag' : (a + 32 + size) % 256 ^ 8 = a + 32 + size := Nat.mod_eq_of_lt (by omega)
  have hdata : (a + 32 + size + 32) % 256 ^ 8 = a + 32 + size + 32 := Nat.mod_eq_of_lt (by omega)
  have hsub : sub64 (sub64 g.size size) 32 = g.size - size - 32 := by unfold sub64; omega
  have hrest : (g.size - size - 32) % 256 ^ 8 = g.size - size - 32 := Nat.mod_eq_of_lt (by omega)
  have hsz : size % 256 ^ 8 = size := Nat.mod_eq_of_lt (by omega)
  have hnext : next % 256 ^ 8 = next := by
    rw [← hseg.next]
    exact Nat.mod_eq_of_lt (read_lt _ _ _)
  have hsize' := hseg.size
  have hnext' := hseg.next
  have hfree' := hseg.free
  simp only [segment_addr, segment_size, segment_next, segment_free, segment_bytes] at haddr hsize' hnext' hfree'
  have hh : h' = put (put (put (put (put (put h (a + 32 + size) 0 8 (a + 32 + size + 32))
      (a + 32 + size) 8 8 (g.size - size - 32)) (a + 32 + size) 16 1 1) (a + 32 + size) 24 8 next)
      a 8 8 size) a 24 8 (a + 32 + size) := by
    simp only [h', split_segment, set_segment_addr, set_segment_size, set_segment_free,
      set_segment_next, segment_addr, segment_size, segment_next, haddr, hfrag, Bool.toNat_true,
      segment_bytes]
    simp (disch := omega) only [read_put_apart, hsize', hnext', hsub]
  rw [hh]
  refine ⟨⟨?_, ?_, ?_, ?_⟩, ⟨?_, ?_, ?_, ?_⟩, ?_⟩
  · simp (disch := omega) only [segment_addr, read_put_apart, haddr, segment_bytes]
  · simp (disch := omega) only [segment_size, read_put_apart, read_put_same, hsz]
  · simp (disch := omega) only [segment_free, read_put_apart, hfree']
  · simp (disch := omega) only [segment_next, read_put_same, hfrag']
  · simp (disch := omega) only [segment_addr, read_put_apart, read_put_same, hdata, segment_bytes]
  · simp (disch := omega) only [segment_size, read_put_apart, read_put_same, hrest]
  · simp (disch := omega) [segment_free, read_put_apart, read_put_same]
  · simp (disch := omega) only [segment_next, read_put_apart, read_put_same, hnext]
  · repeat refine Touches.put ?_ _ _ _ _ (by simp) (by omega)
    exact Touches.refl _ h

/-- The state after the split, if there is one. -/
def splitIf (h : State) (segment size : Nat) : State :=
  if segment_size h.mem segment > (size + SEGMENT) % 2 ^ 64 then split_segment h segment size else h

theorem splitIf_spec (h : State) (a size : Nat) (g : Seg) (next : Nat) (hseg : SegAt h.mem a g next)
    (hpos : 0 < a) (hsize : size ≤ g.size) (htop : a + 32 + g.size ≤ 2 ^ 64) :
    let h' := splitIf h a size
    Tile (set_segment_free h' a false).mem a (carve g size) next ∧ Touches (carveRecords a g size) h h' := by
  intro h'
  have hmod : (size + SEGMENT) % 2 ^ 64 = size + 32 := Nat.mod_eq_of_lt (by simp only [segment_bytes]; omega)
  rw [carveRecords_eq]
  by_cases hlt : size + 32 < g.size
  · have hh : h' = split_segment h a size := by
      simp only [h', splitIf, hmod, hseg.size, gt_iff_lt, hlt, if_true]
    obtain ⟨h1, h2, htouch⟩ := split_segment_spec h a size g next hseg hlt htop
    rw [hh, if_pos hlt]
    refine ⟨?_, htouch⟩
    rw [carve, segment_bytes, if_pos hlt]
    refine ⟨h1.set_free false, ?_, trivial⟩
    rw [if_pos rfl]
    apply h2.congr
    intro x hx _
    exact put_outside _ _ _ _ _ _ (by omega)
  · have hh : h' = h := by
      simp only [h', splitIf, hmod, hseg.size, gt_iff_lt, hlt, if_false]
    rw [hh, if_neg hlt]
    refine ⟨?_, Touches.refl _ h⟩
    rw [carve, segment_bytes, if_neg hlt]
    exact ⟨hseg.set_free false, trivial⟩

theorem outside_carve (a size x : Nat) (g : Seg) (h1 : x < a ∨ a + 32 ≤ x)
    (h2 : x < a + 32 + size ∨ a + 32 + g.size ≤ x) : ∀ r ∈ carveRecords a g size, x < r ∨ r + 32 ≤ x := by
  intro r hr
  rw [carveRecords_eq] at hr
  split at hr
  · rcases List.mem_pair.mp hr with rfl | rfl
    · exact h1
    · omega
  · rw [List.mem_singleton.mp hr]
    exact h1

theorem splitIf_in_page (h : State) (p : Page) (next : Nat) (pre post : List Seg) (g : Seg) (size a : Nat)
    (hp : PageRep h.mem p next) (hsegs : p.segs = pre ++ [g] ++ post) (hsize : size ≤ g.size)
    (ha : a = p.base + PAGE + span pre) :
    p.base + 32 ≤ a ∧ a + 32 + g.size ≤ 2 ^ 64 ∧
    Tile (set_segment_free (splitIf h a size) a false).mem a (carve g size)
      (if post = [] then 0 else a + 32 + g.size) ∧
    Touches (carveRecords a g size) h (splitIf h a size) := by
  have hseg := hp.seg pre post g hsegs
  obtain ⟨htop, htop'⟩ := hp.top pre [g] post hsegs
  rw [← ha] at hseg htop
  simp only [span_cons, span_nil, segment_bytes] at htop hseg
  have hlo : p.base + 32 ≤ a := by rw [ha, page_bytes]; omega
  have hhi : a + 32 + g.size ≤ 2 ^ 64 := by omega
  exact ⟨hlo, hhi, splitIf_spec h a size g _ hseg (by omega) hsize hhi⟩

theorem alloc_segment_spec (h : State) (p : Page) (next : Nat) (pre post : List Seg) (g : Seg)
    (size a : Nat) (c : Nat × State) (hp : PageRep h.mem p next) (hsegs : p.segs = pre ++ [g] ++ post)
    (hsize : size ≤ g.size) (ha : a = p.base + PAGE + span pre) (hc : alloc_segment h p.base a size = c) :
    c.1 = a + SEGMENT ∧ PageRep c.2.mem { p with segs := pre ++ carve g size ++ post } next ∧
    Touches (p.base :: carveRecords a g size) h c.2 := by
  obtain ⟨hlo, htop, htile, htouch⟩ := splitIf_in_page h p next pre post g size a hp hsegs hsize ha
  have hmem : a ∈ carveRecords a g size := by
    rw [carveRecords_eq]
    split <;> simp
  -- The free size of the page is written between the split and the flag.
  obtain ⟨v, hh, hc1⟩ : ∃ v, c.2 = put (put (splitIf h a size) p.base 16 4 v) a 16 1 0 ∧
      c.1 = segment_addr c.2.mem a := by
    rw [← hc]
    exact ⟨_, rfl, rfl⟩
  clear hc
  generalize c.2 = h' at *
  have hagree : ∀ x, x < p.base ∨ p.base + 32 ≤ x →
      h'.mem x = (set_segment_free (splitIf h a size) a false).mem x := by
    intro x hx
    rw [hh, set_segment_free]
    by_cases hflag : x = a + 16
    · subst hflag
      simp [put, write]
    · rw [put_outside _ _ _ _ _ _ (by omega), put_outside _ _ _ _ _ _ (by omega),
        put_outside _ _ _ _ _ _ (by omega)]
  have htile' : Tile h'.mem a (carve g size) (if post = [] then 0 else a + span [g]) := by
    refine Tile.congr ?_ (fun x h1 _ => hagree x (by omega))
    convert htile using 2
    simp only [span_cons, span_nil, segment_bytes]
    omega
  have hkeep : ∀ x, (x < p.base + 16 ∨ p.base + 24 ≤ x) → (x < a ∨ a + 32 ≤ x) →
      (x < a + 32 + size ∨ a + 32 + g.size ≤ x) → h'.mem x = h.mem x := by
    intro x h1 h2 h3
    rw [hh, put_outside _ _ _ _ _ _ (by omega), put_outside _ _ _ _ _ _ (by omega),
      htouch.mem x (outside_carve a size x g h2 h3)]
  refine ⟨?_, ?_, ?_⟩
  · obtain ⟨k, ks, hk⟩ := List.exists_cons_of_ne_nil (carve_ne_nil g size)
    rw [hk] at htile'
    rw [hc1]
    exact htile'.1.addr
  · refine hp.update pre [g] (carve g size) post hsegs (span_carve g size) (by simp)
      (carve_ne_nil g size) ?_ ?_ (by rw [← ha]; exact htile')
    · intro x h1 h2 h3
      exact hkeep x h2 (by omega) (by omega)
    · intro x h1 h2
      rw [← ha] at h2
      simp only [span_cons, span_nil, segment_bytes] at h2
      exact hkeep x (by omega) (by omega) (by omega)
  · rw [hh]
    have hall := htouch.mono (List.subset_cons_self p.base _)
    exact (hall.put p.base 16 4 v (by simp) (by omega)).put a 16 1 0 (by simp [hmem]) (by omega)

end SlayerOS.Heap
