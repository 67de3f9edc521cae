import SlayerOS.Heap.Safety

/-!
# The free size of a page

A page counts the bytes of its free segments. A split makes a record out of such bytes,
and the count does not go down for it.
-/

open SlayerOS.Bytes SlayerOS.Frames SlayerOS.Run

namespace SlayerOS.Heap

/-- The free size of every page is the number of bytes in its free segments. -/
def Books (m : Mem) (pages : List Page) : Prop :=
  ∀ p ∈ pages, page_free_size m p.base = freeBytes p.segs

def Counted (h : State) : Prop := ∃ pages, Holds h pages ∧ Books h.mem pages

/-- The step ends, and the free sizes are right behind it. -/
def CountedStep (fuel : Nat) (w : World) (e : Event) : Prop :=
  ∃ w', step fuel w e = some w' ∧ Counted w'.h

/-- What clients promise that free only blocks of their own. -/
def LegalLive (fuel : Nat) (w : World) (e : Event) : Prop :=
  Legal fuel w e ∧ ∀ addr, e = .kfree addr → ∃ b ∈ w.live, b.1 = addr

/-- The request takes the whole segment: the first one that fits is at most a record longer,
or there is none and the segment of a new page will be so. -/
def TakesWhole (fuel : Nat) (h : State) (size : Nat) : Prop :=
  (NeedsPage fuel h size → firstSize size ≤ size + SEGMENT) ∧
  ∀ n page segment, search h.mem size n h.heap = some (.found page segment) →
    segment_size h.mem segment ≤ size + SEGMENT

/-- The step splits no segment. -/
def NoSplit (fuel : Nat) (w : World) : Event → Prop
  | .kmalloc size => TakesWhole fuel w.h size
  | _ => True

/-! ## Memory holds one list of pages -/

theorem tile_unique (m : Mem) (s : Nat) (gs ks : List Seg) (h : Tile m s gs 0) (h' : Tile m s ks 0)
    (hgs : gs ≠ []) (hks : ks ≠ []) : gs = ks := by
  induction gs generalizing s ks with
  | nil => exact absurd rfl hgs
  | cons g gs ih =>
    obtain ⟨k, ks, rfl⟩ := List.exists_cons_of_ne_nil hks
    have hsize : g.size = k.size := h.1.size.symm.trans h'.1.size
    have hfree : g.free = k.free := h.1.free.symm.trans h'.1.free
    have hgk : g = k := by
      cases g
      cases k
      simp only at hsize hfree
      rw [hsize, hfree]
    subst hgk
    have hnext := h.1.next.symm.trans h'.1.next
    congr 1
    by_cases h1 : gs = []
    · by_cases h2 : ks = []
      · rw [h1, h2]
      · rw [if_pos h1, if_neg h2, segment_bytes] at hnext
        omega
    · by_cases h2 : ks = []
      · rw [if_neg h1, if_pos h2, segment_bytes] at hnext
        omega
      · exact ih _ ks h.2 h'.2 h1 h2

theorem linked_unique (m : Mem) (ps qs : List Page) (hps : ∀ p ∈ ps, ∃ next, PageRep m p next)
    (hqs : ∀ q ∈ qs, ∃ next, PageRep m q next) (hregions : ps.map Page.region = qs.map Page.region) :
    ps = qs := by
  induction ps generalizing qs with
  | nil => simpa using hregions.symm
  | cons p ps ih =>
    obtain ⟨q, qs, rfl⟩ := List.exists_cons_of_ne_nil (l := qs) (by rintro rfl; simp at hregions)
    rw [List.map_cons, List.map_cons, List.cons.injEq] at hregions
    obtain ⟨n, hp⟩ := hps p List.mem_cons_self
    obtain ⟨n', hq⟩ := hqs q List.mem_cons_self
    have hbase : p.base = q.base := congrArg Prod.fst hregions.1
    have hcount : p.count = q.count := congrArg Prod.snd hregions.1
    have hsegs : p.segs = q.segs := by
      have htile := hq.tile
      rw [← hbase] at htile
      exact tile_unique m _ _ _ hp.tile htile hp.segs hq.segs
    have hpq : p = q := by
      cases p
      cases q
      simp only at hbase hcount hsegs
      rw [hbase, hcount, hsegs]
    rw [hpq, ih qs (fun x hx => hps x (List.mem_cons_of_mem _ hx)) (fun x hx => hqs x (List.mem_cons_of_mem _ hx))
      hregions.2]

theorem Holds.unique {h : State} {ps qs : List Page} (hh : Holds h ps) (hh' : Holds h qs) : ps = qs :=
  linked_unique h.mem ps qs hh.rep.page hh'.rep.page (hh.regions.symm.trans hh'.regions)

theorem Holds.counted_iff {h : State} {pages : List Page} (hh : Holds h pages) :
    Counted h ↔ Books h.mem pages := by
  constructor
  · rintro ⟨qs, hqs, hb⟩
    rw [hh.unique hqs]
    exact hb
  · intro hb
    exact ⟨pages, hh, hb⟩

/-! ## Free bytes -/

theorem freeBytes_append (xs ys : List Seg) : freeBytes (xs ++ ys) = freeBytes xs + freeBytes ys := by
  induction xs with
  | nil => simp [freeBytes]
  | cons g xs ih =>
    rw [List.cons_append, freeBytes, freeBytes, ih]
    omega

theorem freeBytes_le_span (gs : List Seg) : freeBytes gs ≤ span gs := by
  induction gs with
  | nil => simp [freeBytes]
  | cons g gs ih =>
    rw [freeBytes, span_cons]
    split <;> omega

theorem freeBytes_carve (g : Seg) (size : Nat) :
    freeBytes (carve g size) = if size + SEGMENT < g.size then g.size - size - SEGMENT else 0 := by
  unfold carve
  split <;> simp [freeBytes]

theorem span_joined (g : Seg) (post : List Seg) : span (joined g post) = SEGMENT + g.size + span post := by
  cases post with
  | nil => simp [joined, span_cons]
  | cons k ks =>
    rw [joined]
    split
    · simp only [span_cons]
      omega
    · rfl

/-! ## The count of one page -/

theorem free_size_congr (m m' : Mem) (page : Nat) (h : ∀ x, page ≤ x → x < page + 32 → m' x = m x) :
    page_free_size m' page = page_free_size m page :=
  read_congr 4 m m' (page + 16) fun x h1 h2 => h x (by omega) (by omega)

theorem alloc_segment_free_size (h : State) (p : Page) (next : Nat) (pre post : List Seg) (g : Seg)
    (size a : Nat) (hp : PageRep h.mem p next) (hsegs : p.segs = pre ++ [g] ++ post) (hsize : size ≤ g.size)
    (ha : a = p.base + PAGE + span pre) :
    page_free_size (alloc_segment h p.base a size).2.mem p.base =
      sub64 (page_free_size h.mem p.base) (if size + SEGMENT < g.size then size else g.size) % 2 ^ 32 := by
  obtain ⟨hlo, htop, htile, htouch⟩ := splitIf_in_page h p next pre post g size a hp hsegs hsize ha
  have halloc : (alloc_segment h p.base a size).2 =
      put (put (splitIf h a size) p.base 16 4 (sub64 (page_free_size (splitIf h a size).mem p.base)
        (segment_size (splitIf h a size).mem a))) a 16 1 0 := rfl
  have hkept : segment_size (splitIf h a size).mem a = if size + SEGMENT < g.size then size else g.size := by
    have hsame : segment_size (set_segment_free (splitIf h a size) a false).mem a =
        segment_size (splitIf h a size).mem a := by
      simp (disch := omega) only [set_segment_free, segment_size, read_put_apart]
    rw [← hsame]
    unfold carve at htile
    split at htile
    · rw [if_pos ‹_›]
      exact htile.1.size
    · rw [if_neg ‹_›]
      exact htile.1.size
  have hfree : page_free_size (splitIf h a size).mem p.base = page_free_size h.mem p.base := by
    apply free_size_congr
    intro x h1 h2
    exact htouch.mem x (outside_carve a size x g (by omega) (by omega))
  rw [halloc, hkept, hfree]
  simp (disch := omega) only [page_free_size, read_put_apart, read_put_same]
  rfl

/-! ## The counts of a heap -/

/-- The segments of every page lie in less than 2^32 bytes. -/
def Small (pages : List Page) : Prop := ∀ p ∈ pages, span p.segs < 2 ^ 32

theorem Books.replace {m m' : Mem} {ps qs : List Page} {p p' : Page} (hb : Books m (ps ++ p :: qs))
    (hkeep : ∀ q ∈ ps ++ qs, page_free_size m' q.base = page_free_size m q.base) :
    Books m' (ps ++ p' :: qs) ↔ page_free_size m' p'.base = freeBytes p'.segs := by
  constructor
  · intro hb'
    exact hb' p' (by simp)
  · intro hp' q hq
    rcases List.mem_append.mp hq with hq | hq
    · rw [hkeep q (by simp [hq])]
      exact hb q (by simp [hq])
    · rcases List.mem_cons.mp hq with rfl | hq
      · exact hp'
      · rw [hkeep q (by simp [hq])]
        exact hb q (by simp [hq])

theorem Holds.other_free_size {h : State} {ps qs : List Page} {p : Page} (hh : Holds h (ps ++ p :: qs))
    (rs : List Nat) (c : State) (htouch : Touches rs h c)
    (hrs : ∀ r ∈ rs, p.base ≤ r ∧ r + 32 ≤ p.base + p.count * FRAME_SIZE) (q : Page) (hq : q ∈ ps ++ qs) :
    page_free_size c.mem q.base = page_free_size h.mem q.base := by
  have hap := hh.other_apart q hq
  have hq' : q ∈ ps ++ p :: qs := by
    simp only [List.mem_append, List.mem_cons] at hq ⊢
    tauto
  have hin := (hh.sound q hq').inside
  rw [page_bytes] at hin
  unfold Apart at hap
  apply free_size_congr
  intro x h1 h2
  apply htouch.mem x
  intro r hr
  have := hrs r hr
  omega

/-- A call that serves a request keeps the counts right if and only if it splits nothing. -/
theorem serve_books (h : State) (ps qs : List Page) (p : Page) (pre post : List Seg) (g : Seg) (size a : Nat)
    (hh : Holds h (ps ++ p :: qs)) (hsegs : p.segs = pre ++ [g] ++ post) (hgfree : g.free = true)
    (hsize : size ≤ g.size) (ha : a = p.base + PAGE + span pre) (hb : Books h.mem (ps ++ p :: qs)) :
    Books (alloc_segment h p.base a size).2.mem (ps ++ p.serve pre g size post :: qs) ↔
      g.size ≤ size + SEGMENT := by
  obtain ⟨next, hrep⟩ := hh.rep.page p (by simp)
  have hag : (a, g) ∈ p.placed := (p.mem_placed a g).mpr ⟨pre, post, hsegs, ha⟩
  have hpl := hh.placed p (by simp) a g hag
  obtain ⟨-, -, htouch⟩ := alloc_segment_spec h p next pre post g size a _ hrep hsegs hsize ha rfl
  have hcount := hb p (by simp)
  have hfree := alloc_segment_free_size h p next pre post g size a hrep hsegs hsize ha
  have hlt := free_size_lt h.mem p.base
  rw [hb.replace ?_]
  · simp only [Page.serve, hfree, freeBytes_append, freeBytes_carve]
    rw [hsegs, freeBytes_append, freeBytes_append, freeBytes, if_pos hgfree, freeBytes] at hcount
    unfold sub64
    by_cases hsplit : size + SEGMENT < g.size
    · rw [if_pos hsplit, if_pos hsplit]
      simp only [segment_bytes] at hsplit ⊢
      omega
    · rw [if_neg hsplit, if_neg hsplit]
      simp only [segment_bytes] at hsplit ⊢
      omega
  · intro q hq
    refine hh.other_free_size _ _ htouch ?_ q hq
    intro r hr
    rw [carveRecords_eq] at hr
    rcases List.mem_cons.mp hr with rfl | hr
    · omega
    · split at hr
      · rcases List.mem_pair.mp hr with rfl | rfl <;> omega
      · rw [List.mem_singleton.mp hr]
        omega

theorem small_serve (ps qs : List Page) (p : Page) (pre post : List Seg) (g : Seg) (size : Nat)
    (hsegs : p.segs = pre ++ [g] ++ post) (hsmall : Small (ps ++ p :: qs)) :
    Small (ps ++ p.serve pre g size post :: qs) := by
  have hp := hsmall p (by simp)
  intro q hq
  rcases List.mem_append.mp hq with hq | hq
  · exact hsmall q (by simp [hq])
  · rcases List.mem_cons.mp hq with rfl | hq
    · simp only [Page.serve, span_append, span_carve]
      rw [hsegs, span_append, span_append] at hp
      exact hp
    · exact hsmall q (by simp [hq])

theorem release_books (h : State) (p : Page) (ps : List Page) (pre post : List Seg) (g : Seg) (a : Nat)
    (hh : Holds h (p :: ps)) (hsegs : p.segs = pre ++ [g] ++ post) (hused : g.free = false)
    (ha : a = p.base + PAGE + span pre) (hb : Books h.mem (p :: ps)) (hsmall : Small (p :: ps)) :
    Books (free_segment h p.base a).mem (p.release pre g post :: ps) ∧ Small (p.release pre g post :: ps) := by
  have hag : (a, g) ∈ p.placed := (p.mem_placed a g).mpr ⟨pre, post, hsegs, ha⟩
  have hpl := hh.placed p List.mem_cons_self a g hag
  obtain ⟨-, hfree, htouch⟩ := free_segment_spec h p _ pre post g a hh.rep.1 hsegs ha
  have hcount := hb p List.mem_cons_self
  have hspan : span (pre ++ joined g post) = span p.segs := by
    rw [hsegs, span_append, span_append, span_append, span_joined, span_cons, span_nil]
    omega
  have hlt : freeBytes (pre ++ joined g post) < 2 ^ 32 := by
    have := freeBytes_le_span (pre ++ joined g post)
    have := hsmall p List.mem_cons_self
    omega
  refine ⟨?_, ?_⟩
  · have hb' : Books h.mem ([] ++ p :: ps) := hb
    have hh' : Holds h ([] ++ p :: ps) := hh
    refine (hb'.replace ?_).mpr ?_
    · intro q hq
      refine hh'.other_free_size _ _ htouch ?_ q hq
      intro r hr
      rcases List.mem_pair.mp hr with rfl | rfl <;> omega
    · simp only [Page.release]
      rw [hsegs, freeBytes_append, freeBytes_append, freeBytes, hused, freeBytes] at hcount
      rw [freeBytes_append, freeBytes_joined] at hlt ⊢
      simp only [Bool.false_eq_true, if_false] at hcount
      rw [hfree, Nat.mod_eq_of_lt (by omega)]
      omega
  · intro q hq
    rcases List.mem_cons.mp hq with rfl | hq
    · simp only [Page.release, hspan]
      exact hsmall p List.mem_cons_self
    · exact hsmall q (List.mem_cons_of_mem _ hq)

/-! ## `kmalloc` -/

theorem Grown.free_size {h h' : State} {pages : List Page} {size : Nat} (hg : Grown h h' pages size)
    (hh : Holds h pages) (p : Page) (hp : p ∈ pages) :
    page_free_size h'.mem p.base = page_free_size h.mem p.base := by
  have hap := (List.pairwise_append.mp hg.chain.held_apart).2.2 p hp (grownPage h size) (by simp)
  have hheld := p.held_pos
  unfold Apart at hap
  apply read_congr
  intro x h1 h2
  refine hg.mem x (by omega) ?_
  intro q hq
  have hregs : RegionsApart (pages.map Page.region) := by rw [← hh.regions]; exact hh.apart
  have hpin := (hh.sound p hp).inside
  have hqin := (hh.sound q hq).inside
  simp only [page_bytes] at hpin hqin
  rcases hregs.pages p q hp hq with rfl | hpq
  · omega
  · unfold Apart at hpq
    omega

theorem Ready.books {h h1 : State} {pages old : List Page} {size : Nat} (hr : Ready h pages size h1 old)
    (hh : Holds h pages) (hsize : size < 2 ^ 32 - 64) (hb : Books h.mem pages) (hsmall : Small pages) :
    Books h1.mem old ∧ Small old := by
  cases hr with
  | same _ => exact ⟨hb, hsmall⟩
  | more _ hg _ =>
    have hfirst := firstSize_eq size (by omega)
    refine ⟨?_, ?_⟩
    · intro p hp
      rcases List.mem_append.mp hp with hp | hp
      · rw [hg.free_size hh p hp]
        exact hb p hp
      · rw [List.mem_singleton.mp hp]
        have hfree := hg.free
        rw [Nat.mod_eq_of_lt (by omega)] at hfree
        have hbytes : freeBytes (newPage h size).segs = firstSize size := by simp [newPage, freeBytes]
        rw [hbytes]
        exact hfree
    · intro p hp
      rcases List.mem_append.mp hp with hp | hp
      · exact hsmall p hp
      · rw [List.mem_singleton.mp hp]
        simp only [newPage, span_cons, span_nil, segment_bytes]
        omega

theorem noFit_not_found (h : State) (pages : List Page) (size n page segment : Nat) (hc : Chain h pages)
    (hno : NoFit size pages) : search h.mem size n h.heap ≠ some (.found page segment) := by
  intro hs
  by_cases hne : pages = []
  · have hnull : h.heap = 0 := by rw [hc.head, hne]; rfl
    rw [hnull] at hs
    cases n <;> simp [search] at hs
  · obtain ⟨last, -, hl⟩ := search_last (weight pages + 1) h pages size hc hne hno (by omega)
    have := search_agree _ _ _ _ _ _ _ hs hl
    simp at this

theorem found_not_needsPage (fuel n : Nat) (h : State) (size page segment : Nat)
    (hs : search h.mem size n h.heap = some (.found page segment)) : ¬ NeedsPage fuel h size := by
  rintro (hnull | ⟨last, hl⟩)
  · rw [hnull] at hs
    cases n <;> simp [search] at hs
  · have := search_agree _ _ _ _ _ _ _ hs hl
    simp at this

theorem takesWhole_iff (fuel n : Nat) (h h1 : State) (pages old : List Page) (size : Nat) (p : Page) (a : Nat)
    (g : Seg) (hh : Holds h pages) (hfuel : weight pages < fuel) (hr : Ready h pages size h1 old) (hp : p ∈ old)
    (hfit : Fits size p a g) (hs : search h1.mem size n h1.heap = some (.found p.base a)) :
    TakesWhole fuel h size ↔ g.size ≤ size + SEGMENT := by
  cases hr with
  | same _ =>
    obtain ⟨next, hrep⟩ := hh.rep.page p hp
    obtain ⟨e, hseg⟩ := hrep.tile.seg a g hfit.1
    constructor
    · intro hw
      rw [← hseg.size]
      exact hw.2 n p.base a hs
    · intro hle
      refine ⟨fun hn => absurd hn (found_not_needsPage fuel n h size _ _ hs), ?_⟩
      intro k page segment hk
      have hsame := search_agree _ _ _ _ _ _ _ hk hs
      rw [Search.found.injEq] at hsame
      rw [hsame.2, hseg.size]
      exact hle
  | more hno _ _ =>
    have hg : g = ⟨firstSize size, true⟩ := by
      rcases List.mem_append.mp hp with hp | hp
      · exact absurd hfit (hno p hp a g)
      · have hag := hfit.1
        rw [List.mem_singleton.mp hp] at hag
        have hnew : (a, g) = (h.allocs h.regions.length + PAGE, ⟨firstSize size, true⟩) := by
          simpa [newPage, Page.placed, placed] using hag
        exact congrArg Prod.snd hnew
    rw [hg]
    constructor
    · intro hw
      exact hw.1 (needsPage_of_noFit fuel h pages size hh.chain hno hfuel)
    · intro hle
      exact ⟨fun _ => hle, fun k page segment hk =>
        absurd hk (noFit_not_found h pages size k page segment hh.chain hno)⟩

theorem kmalloc_books (fuel : Nat) (h : State) (pages : List Page) (size : Nat) (hh : Holds h pages)
    (hsize : size < 2 ^ 32 - 64) (hfresh : NeedsPage fuel h size → FreshRegion h (num_pages size))
    (hfuel : weight pages + 5 ≤ fuel) (hb : Books h.mem pages) (hsmall : Small pages) :
    ∃ c pages', kmalloc fuel h size = some c ∧ Holds c.2 pages' ∧ Small pages' ∧
      (Books c.2.mem pages' ↔ TakesWhole fuel h size) := by
  obtain ⟨h1, old, n, p, a, g, hready, hold, hp, hfit, hs, hc⟩ :=
    kmalloc_served fuel h pages size hh (by omega) hfresh hfuel
  obtain ⟨hb1, hsmall1⟩ := hready.books hh hsize hb hsmall
  have hwhole := takesWhole_iff fuel n h h1 pages old size p a g hh (by omega) hready hp hfit hs
  obtain ⟨hag, hgfree, hle⟩ := hfit
  obtain ⟨pre, post, hsegs, ha⟩ := (p.mem_placed a g).mp hag
  obtain ⟨ps, qs, rfl⟩ := List.append_of_mem hp
  obtain ⟨hholds, -⟩ := serve_at h1 ps qs p pre post g size a _ hold hsegs hgfree hle ha rfl
  refine ⟨_, _, hc, hholds, small_serve ps qs p pre post g size hsegs hsmall1, ?_⟩
  rw [hwhole]
  exact serve_books h1 ps qs p pre post g size a hold hsegs hgfree hle ha hb1

/-! ## `kfree` -/

theorem kfree_books (fuel : Nat) (w : World) (h : State) (p : Page) (ps : List Page) (addr : Nat)
    (hh : Holds h (p :: ps)) (hlive : ∃ b ∈ w.live, b.1 = addr) (hin : ∀ b ∈ w.live, InSegment (p :: ps) b)
    (hfuel : weight (p :: ps) + 2 ≤ fuel) (hb : Books h.mem (p :: ps)) (hsmall : Small (p :: ps)) :
    ∃ r c pages', kfree fuel h addr = some (r, c) ∧ Holds c pages' ∧ Small pages' ∧ Books c.mem pages' := by
  rcases kfree_cases fuel h p ps addr hh hfuel with ⟨pre, g, post, a, hsegs, ha, haddr, hc⟩ | ⟨-, hc⟩
  · -- The segment at the address is the one of the live block, so it is in use.
    obtain ⟨b, hbl, hba⟩ := hlive
    obtain ⟨q, hq, d, k, hdk, hb1, hk, -⟩ := hin b hbl
    have hag : (a, g) ∈ p.placed := (p.mem_placed a g).mpr ⟨pre, post, hsegs, ha⟩
    have hused : g.free = false := by
      rcases hh.segs_apart p q List.mem_cons_self hq a d g k hag hdk with ⟨-, -, rfl⟩ | hap
      · exact hk
      · simp only [segment_bytes] at hb1 haddr
        omega
    obtain ⟨hb', hsmall'⟩ := release_books h p ps pre post g a hh hsegs hused ha hb hsmall
    have hrel := free_released h p ps pre post g a hh hsegs ha
    exact ⟨_, _, p.release pre g post :: ps, hc, hrel.holds, hsmall', hb'⟩
  · exact ⟨_, _, p :: ps, hc, hh, hsmall, hb⟩

/-! ## Runs -/

theorem store_books (w : World) (pages : List Page) (addr : Nat) (byte : BitVec 8) (hw : HeapInv w pages)
    (hown : ∃ b ∈ w.live, b.1 ≤ addr ∧ addr < b.1 + b.2) (hb : Books w.h.mem pages) :
    Books (Function.update w.h.mem addr byte) pages := by
  obtain ⟨b, hbl, h1, h2⟩ := hown
  intro p hp
  rw [← hb p hp]
  apply free_size_congr
  intro x h3 h4
  have := InSegment.apart_record hw.holds p.base ⟨p, hp, Or.inl rfl⟩ b (hw.live b hbl)
  simp only [Apart, segment_bytes] at this
  exact Function.update_of_ne (by omega) _ _

/-- Right counts stay right over a step if and only if it splits no segment. -/
theorem step_books (fuel : Nat) (w : World) (pages : List Page) (e : Event) (hw : HeapInv w pages)
    (hlegal : LegalLive fuel w e) (hfuel : weight pages + 5 ≤ fuel) (hb : Books w.h.mem pages)
    (hsmall : Small pages) :
    ∃ w' pages', step fuel w e = some w' ∧ HeapInv w' pages' ∧ weight pages' ≤ weight pages + 3 ∧
      Small pages' ∧ (Books w'.h.mem pages' ↔ NoSplit fuel w e) := by
  obtain ⟨w', pages', hs, hinv, hweight, -⟩ := heap_step fuel w pages e hw hlegal.1 hfuel
  refine ⟨w', pages', hs, hinv, hweight, ?_⟩
  have hh : Holds { w.h with written := [] } pages := hw.holds.unwritten
  cases e with
  | kmalloc size =>
    obtain ⟨hsize, hfresh⟩ := hlegal.1
    obtain ⟨c, qs, hc, hholds, hsmall', hiff⟩ := kmalloc_books fuel _ pages size hh hsize
      (fun hn => ⟨(hfresh hn).ok, (hfresh hn).apart⟩) hfuel hb hsmall
    have hw' : some ⟨c.2, (c.1, size) :: w.live⟩ = some w' := by
      rw [← hs, step, hc]
      rfl
    obtain rfl := Option.some.inj hw'
    obtain rfl := hinv.holds.unique hholds
    exact ⟨hsmall', hiff⟩
  | kfree addr =>
    obtain ⟨p, ps, rfl⟩ := hw.cons hlegal.1
    obtain ⟨r, c, qs, hr, hholds, hsmall', hb'⟩ := kfree_books fuel w _ p ps addr hh (hlegal.2 addr rfl) hw.live
      (by omega) hb hsmall
    have hw' : some ⟨c, if r then w.live.filter fun b => b.1 != addr else w.live⟩ = some w' := by
      rw [← hs, step, hr]
      rfl
    obtain rfl := Option.some.inj hw'
    obtain rfl := hinv.holds.unique hholds
    exact ⟨hsmall', iff_of_true hb' trivial⟩
  | store addr byte =>
    obtain rfl := Option.some.inj hs
    have hinv' := hw.store addr byte hlegal.1
    obtain rfl := hinv.holds.unique hinv'.holds
    exact ⟨hsmall, iff_of_true (store_books w _ addr byte hw hlegal.1 hb) trivial⟩

/-- In a run of `kmalloc` and `kfree` of live blocks, the free sizes are right in every state
reached if and only if no request splits a segment. -/
theorem run_counted_iff (mem : Mem) (allocs : Nat → Nat) (es : List Event) (fuel : Nat)
    (hfuel : 3 * es.length + 5 ≤ fuel) (hes : Along (step fuel) (LegalLive fuel) (boot mem allocs) es) :
    Along (step fuel) (CountedStep fuel) (boot mem allocs) es ↔
      Along (step fuel) (NoSplit fuel) (boot mem allocs) es := by
  refine along_iff_count (fun n w => ∃ pages, HeapInv w pages ∧ weight pages ≤ 3 * n ∧ Small pages ∧
    Books w.h.mem pages) es.length ?_ ?_ 0 (boot mem allocs) es (by omega) ?_ hes
  · rintro n w e hn ⟨pages, hinv, hweight, hsmall, hb⟩ hlegal
    obtain ⟨w', pages', hs, hinv', -, -, hiff⟩ :=
      step_books fuel w pages e hinv hlegal (by omega) hb hsmall
    rw [← hiff, ← hinv'.holds.counted_iff]
    constructor
    · rintro ⟨u, hu, hcounted⟩
      obtain rfl : w' = u := Option.some.inj (hs.symm.trans hu)
      exact hcounted
    · intro hcounted
      exact ⟨w', hs, hcounted⟩
  · rintro n w e u hn ⟨pages, hinv, hweight, hsmall, hb⟩ hlegal ⟨u', hu', hcounted⟩ hu
    obtain ⟨w', pages', hs, hinv', hweight', hsmall', -⟩ :=
      step_books fuel w pages e hinv hlegal (by omega) hb hsmall
    obtain rfl : w' = u := Option.some.inj (hs.symm.trans hu)
    obtain rfl : w' = u' := Option.some.inj (hs.symm.trans hu')
    exact ⟨pages', hinv', by omega, hsmall', hinv'.holds.counted_iff.mp hcounted⟩
  · exact ⟨[], boot_inv mem allocs, by simp [weight], fun p hp => by simp at hp, fun p hp => by simp at hp⟩

theorem spacedBoot_live : LegalLive 20 spacedBoot (.kmalloc 100) :=
  ⟨⟨by decide, fun _ => ⟨⟨by decide, by decide, by decide⟩, by decide⟩⟩, fun _ he => by simp at he⟩

theorem run_counted_iff_one_request :
    Along (step 20) (CountedStep 20) spacedBoot [.kmalloc 100] ↔
      Along (step 20) (NoSplit 20) spacedBoot [.kmalloc 100] :=
  run_counted_iff _ _ _ 20 (by decide) ⟨spacedBoot_live, fun _ _ => trivial⟩

/-- The first request splits the segment of the new page, and the record of the rest is still
counted as free. -/
theorem split_not_counted :
    ¬ ∀ (mem : Mem) (allocs : Nat → Nat) (es : List Event) (fuel : Nat), 3 * es.length + 5 ≤ fuel →
      Along (step fuel) (LegalLive fuel) (boot mem allocs) es →
      Along (step fuel) (CountedStep fuel) (boot mem allocs) es := by
  intro hall
  obtain ⟨⟨u, hu, hcounted⟩, -⟩ := hall _ _ [.kmalloc 100] 20 (by decide) ⟨spacedBoot_live, fun _ _ => trivial⟩
  obtain ⟨w, pages, hw, hinv, -, -, hiff⟩ := step_books 20 spacedBoot [] (.kmalloc 100) (boot_inv _ _)
    spacedBoot_live (by decide) (fun p hp => by simp at hp) (fun p hp => by simp at hp)
  obtain rfl : w = u := Option.some.inj (hw.symm.trans hu)
  have hwhole := hiff.mp (hinv.holds.counted_iff.mp hcounted)
  have hlong : firstSize 100 ≤ 100 + SEGMENT := hwhole.1 (Or.inl rfl)
  exact absurd hlong (by decide)

end SlayerOS.Heap
