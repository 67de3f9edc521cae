import SlayerOS.Heap.Alloc
import Mathlib.Data.List.Pairwise

/-!
# A page more

What holds of the pages that the loops go through, and what a new page at their end
does to the heap. The frames of a page hold its segment where the request is below 2^32.
-/

open SlayerOS.Bytes SlayerOS.Frames

namespace SlayerOS.Heap

/-! ## Records and blocks of a heap -/

/-- The bytes of the used segments are the same in both memories. -/
def DataKept (m m' : Mem) (pages : List Page) : Prop :=
  ∀ p ∈ pages, ∀ a g, (a, g) ∈ p.placed → g.free = false →
    ∀ x, a + SEGMENT ≤ x → x < a + SEGMENT + g.size → m' x = m x

theorem DataKept.trans {m m' m'' : Mem} {pages : List Page} (h : DataKept m m' pages)
    (h' : DataKept m' m'' pages) : DataKept m m'' pages := by
  intro p hp a g hag hg x h1 h2
  rw [h' p hp a g hag hg x h1 h2, h p hp a g hag hg x h1 h2]

theorem RegionsApart.pages {pages : List Page} (h : RegionsApart (pages.map Page.region)) (p q : Page)
    (hp : p ∈ pages) (hq : q ∈ pages) :
    p = q ∨ Apart p.base (p.count * FRAME_SIZE) q.base (q.count * FRAME_SIZE) := by
  rw [RegionsApart, List.pairwise_map] at h
  have : Std.Symm fun p q : Page => Apart p.region.1 (p.region.2 * FRAME_SIZE) q.region.1
      (q.region.2 * FRAME_SIZE) := ⟨fun _ _ hab => hab.symm⟩
  by_cases heq : p = q
  · exact Or.inl heq
  · exact Or.inr (h.forall hp hq heq)

theorem Holds.unwritten {h : State} {pages : List Page} (hh : Holds h pages) :
    Holds { h with written := [] } pages :=
  ⟨hh.head, hh.rep, hh.regions, hh.apart⟩

theorem Holds.other_apart {h : State} {ps qs : List Page} {p : Page} (hh : Holds h (ps ++ p :: qs)) (q : Page)
    (hq : q ∈ ps ++ qs) : Apart p.base (p.count * FRAME_SIZE) q.base (q.count * FRAME_SIZE) := by
  have hap := hh.apart
  rw [hh.regions, RegionsApart, List.pairwise_map, List.pairwise_append, List.pairwise_cons] at hap
  rcases List.mem_append.mp hq with hq | hq
  · exact (hap.2.2 q hq p List.mem_cons_self).symm
  · exact hap.2.1.1 q hq

theorem Holds.first_apart {h : State} {p : Page} {ps : List Page} (hh : Holds h (p :: ps)) (q : Page)
    (hq : q ∈ ps) : Apart p.base (p.count * FRAME_SIZE) q.base (q.count * FRAME_SIZE) := by
  have hh' : Holds h ([] ++ p :: ps) := hh
  exact hh'.other_apart q hq

theorem Holds.placed {h : State} {pages : List Page} (hh : Holds h pages) (p : Page) (hp : p ∈ pages)
    (a : Nat) (g : Seg) (hag : (a, g) ∈ p.placed) :
    p.base + 32 ≤ a ∧ a + 32 + g.size ≤ p.base + p.count * FRAME_SIZE ∧
    p.base + p.count * FRAME_SIZE ≤ 2 ^ 64 := by
  obtain ⟨next, hrep⟩ := hh.rep.page p hp
  have hlo := placed_lo _ _ _ _ hag
  have hin := hrep.inside
  simp only [page_bytes, segment_bytes] at hlo hin
  exact ⟨hlo.1, by omega, hrep.region.top⟩

theorem Holds.segs_apart {h : State} {pages : List Page} (hh : Holds h pages) (p q : Page) (hp : p ∈ pages)
    (hq : q ∈ pages) (a b : Nat) (g k : Seg) (hag : (a, g) ∈ p.placed) (hbk : (b, k) ∈ q.placed) :
    (p = q ∧ a = b ∧ g = k) ∨ a + 32 + g.size ≤ b ∨ b + 32 + k.size ≤ a := by
  have hap := hh.apart
  rw [hh.regions] at hap
  rcases hap.pages p q hp hq with rfl | hap
  · rcases placed_apart _ _ _ _ _ _ hag hbk with ⟨rfl, rfl⟩ | h
    · exact Or.inl ⟨rfl, rfl, rfl⟩
    · exact Or.inr h
  · right
    have h1 := hh.placed p hp a g hag
    have h2 := hh.placed q hq b k hbk
    unfold Apart at hap
    omega

theorem Holds.record_apart {h : State} {pages : List Page} (hh : Holds h pages) (r : Nat)
    (hr : IsRecord pages r) (q : Page) (hq : q ∈ pages) (b : Nat) (k : Seg) (hbk : (b, k) ∈ q.placed) :
    Apart r 32 (b + 32) k.size := by
  obtain ⟨p, hp, rfl | ⟨g, hrg⟩⟩ := hr
  · have hap := hh.apart
    rw [hh.regions] at hap
    have h2 := hh.placed q hq b k hbk
    rcases hap.pages p q hp hq with rfl | hap
    · unfold Apart
      omega
    · obtain ⟨next, hrep⟩ := hh.rep.page p hp
      have hin := hrep.inside
      simp only [page_bytes] at hin
      unfold Apart at hap ⊢
      omega
  · unfold Apart
    rcases hh.segs_apart p q hp hq r b g k hrg hbk with ⟨-, rfl, -⟩ | h
    · omega
    · omega

/-! ## Linked pages -/

/-- The pages are linked, and their records lie in frames of their own. -/
structure Chain (h : State) (pages : List Page) : Prop where
  head : h.heap = headBase pages
  linked : PagesLinked h.mem pages 0
  regions : h.regions = pages.map Page.region
  records : ∀ p ∈ pages, ∀ a g, (a, g) ∈ p.placed → a + SEGMENT ≤ p.base + p.held
  fresh : FreshLog h.regions

theorem FreshLog.mono {rs qs : List (Nat × Nat)} (h : FreshLog qs) (hsub : rs <+: qs) : FreshLog rs :=
  ⟨fun r hr => h.ok r (hsub.subset hr), h.apart.sublist hsub.sublist⟩

theorem freshLog_append (rs : List (Nat × Nat)) (r : Nat × Nat) :
    FreshLog (rs ++ [r]) ↔ FreshLog rs ∧ RegionOk r.1 (max 1 r.2) ∧
      ∀ q ∈ rs, Apart q.1 (max 1 q.2 * FRAME_SIZE) r.1 (max 1 r.2 * FRAME_SIZE) := by
  constructor
  · intro h
    have hap := h.apart
    rw [List.pairwise_append] at hap
    refine ⟨h.mono (List.prefix_append _ _), h.ok r (by simp), ?_⟩
    intro q hq
    exact hap.2.2 q hq r (by simp)
  · rintro ⟨h, hr, hap⟩
    refine ⟨?_, ?_⟩
    · intro q hq
      rcases List.mem_append.mp hq with hq | hq
      · exact h.ok q hq
      · rw [List.mem_singleton.mp hq]
        exact hr
    · rw [List.pairwise_append]
      refine ⟨h.apart, List.pairwise_singleton _ _, ?_⟩
      intro q hq s hs
      rw [List.mem_singleton.mp hs]
      exact hap q hq

theorem Page.Sound.held {p : Page} (h : p.Sound) : max 1 p.count = p.count := by
  have := h.inside
  simp only [page_bytes, FRAME_SIZE] at this
  omega

theorem Page.Sound.records {p : Page} (h : p.Sound) (a : Nat) (g : Seg) (hag : (a, g) ∈ p.placed) :
    a + SEGMENT ≤ p.base + p.held := by
  have hin := h.inside
  have hlo := placed_lo _ _ _ _ hag
  rw [Page.held, h.held]
  omega

theorem Holds.sound {h : State} {pages : List Page} (hh : Holds h pages) : ∀ p ∈ pages, p.Sound :=
  ((pagesRep_iff _ _ _).mp hh.rep).2

theorem Holds.count {h : State} {pages : List Page} (hh : Holds h pages) (r : Nat × Nat) (hr : r ∈ h.regions) :
    RegionOk r.1 r.2 ∧ max 1 r.2 = r.2 := by
  rw [hh.regions] at hr
  obtain ⟨p, hp, rfl⟩ := List.mem_map.mp hr
  exact ⟨(hh.sound p hp).region, (hh.sound p hp).held⟩

theorem Holds.fresh {h : State} {pages : List Page} (hh : Holds h pages) : FreshLog h.regions := by
  refine ⟨?_, ?_⟩
  · intro r hr
    rw [(hh.count r hr).2]
    exact (hh.count r hr).1
  · refine List.Pairwise.imp_of_mem ?_ hh.apart
    intro r q hr hq hap
    rw [(hh.count r hr).2, (hh.count q hq).2]
    exact hap

theorem Holds.chain {h : State} {pages : List Page} (hh : Holds h pages) : Chain h pages :=
  ⟨hh.head, hh.rep.linked, hh.regions, fun p hp => (hh.sound p hp).records, hh.fresh⟩

theorem Holds.fresh_answer {h : State} {pages : List Page} (hh : Holds h pages) (size : Nat) :
    FreshLog (h.regions ++ [(grownPage h size).region]) ↔ FreshRegion h (max 1 (num_pages size)) := by
  rw [freshLog_append]
  constructor
  · rintro ⟨-, hok, hap⟩
    refine ⟨hok, ?_⟩
    intro r hr
    have := hap r hr
    rw [(hh.count r hr).2] at this
    exact this
  · intro hfresh
    refine ⟨hh.fresh, hfresh.ok, ?_⟩
    intro q hq
    rw [(hh.count q hq).2]
    exact hfresh.apart q hq

theorem Chain.held_apart {h : State} {pages : List Page} (hc : Chain h pages) :
    pages.Pairwise fun p q => Apart p.base p.held q.base q.held := by
  have hap := hc.fresh.apart
  rw [hc.regions, List.pairwise_map] at hap
  exact hap

theorem Page.held_pos (p : Page) : 4096 ≤ p.held := by
  simp only [Page.held, FRAME_SIZE]
  omega

theorem Chain.record {h : State} {pages : List Page} (hc : Chain h pages) (p : Page) (hp : p ∈ pages) (r : Nat)
    (hr : r = p.base ∨ ∃ g, (r, g) ∈ p.placed) : p.base ≤ r ∧ r + 32 ≤ p.base + p.held := by
  rcases hr with rfl | ⟨g, hg⟩
  · have := p.held_pos
    omega
  · have hlo := (placed_lo _ _ _ _ hg).1
    have hhi := hc.records p hp r g hg
    simp only [page_bytes, segment_bytes] at hlo hhi
    omega

theorem Chain.before_last {h : State} {init : List Page} {last : Page} (hc : Chain h (init ++ [last])) (p : Page)
    (hp : p ∈ init) (r : Nat) (hr : r = p.base ∨ ∃ g, (r, g) ∈ p.placed) : Apart last.base 32 r 32 := by
  have hap := (List.pairwise_append.mp hc.held_apart).2.2 p hp last (by simp)
  have hrec := hc.record p (by simp [hp]) r hr
  have hheld := last.held_pos
  unfold Apart at hap ⊢
  omega

/-! ## A page at the end -/

/-- The heap with a page for the request behind its pages. -/
def grown (h : State) (pages : List Page) (size : Nat) : State :=
  match pages.getLast? with
  | none => ensure_heap h size
  | some last => set_page_next (create_heap_page h size).2 last.base (create_heap_page h size).1

/-- What a new page does to the heap. -/
structure Grown (h h' : State) (pages : List Page) (size : Nat) : Prop where
  chain : Chain h' (pages ++ [grownPage h size])
  allocs : h'.allocs = h.allocs
  mem : ∀ x, (x < (grownPage h size).base ∨ (grownPage h size).base + (grownPage h size).held ≤ x) →
    (∀ p ∈ pages, x < p.base + 24 ∨ p.base + 32 ≤ x) → h'.mem x = h.mem x
  free : page_free_size h'.mem (grownPage h size).base = firstSize size % 2 ^ 32
  written : ∀ r ∈ h'.written, r ∈ h.written ∨ IsRecord (pages ++ [grownPage h size]) r

theorem mem_grownPage (h : State) (size a : Nat) (g : Seg) :
    (a, g) ∈ (grownPage h size).placed ↔ a = (grownPage h size).base + 32 ∧ g = ⟨firstSize size % 2 ^ 32, true⟩ := by
  simp [grownPage, Page.placed, placed]

theorem grownPage_records (h : State) (size a : Nat) (g : Seg) (hag : (a, g) ∈ (grownPage h size).placed) :
    a + SEGMENT ≤ (grownPage h size).base + (grownPage h size).held := by
  rw [mem_grownPage] at hag
  have := (grownPage h size).held_pos
  simp only [segment_bytes, hag.1]
  omega

theorem grownPage_written (h : State) (pages : List Page) (size r : Nat) (written : List Nat)
    (hr : r = (grownPage h size).base ∨ r = (grownPage h size).base + 32 ∨ r ∈ written) :
    r ∈ written ∨ IsRecord (pages ++ [grownPage h size]) r := by
  rcases hr with rfl | rfl | hr
  · exact Or.inr ⟨grownPage h size, by simp, Or.inl rfl⟩
  · exact Or.inr ⟨grownPage h size, by simp, Or.inr ⟨_, (mem_grownPage _ _ _ _).mpr ⟨rfl, rfl⟩⟩⟩
  · exact Or.inl hr

theorem grownPage_record (h : State) (size r : Nat)
    (hr : r = (grownPage h size).base ∨ ∃ g, (r, g) ∈ (grownPage h size).placed) :
    (grownPage h size).base ≤ r ∧ r + 32 ≤ (grownPage h size).base + (grownPage h size).held := by
  have hheld := (grownPage h size).held_pos
  rcases hr with rfl | ⟨g, hg⟩
  · omega
  · rw [mem_grownPage] at hg
    omega

theorem answer_top {rs : List (Nat × Nat)} {p : Page} (hlog : FreshLog (rs ++ [p.region])) :
    p.base ≠ 0 ∧ p.base + FRAME_SIZE ≤ 2 ^ 64 := by
  obtain ⟨-, hok, -⟩ := (freshLog_append _ _).mp hlog
  have htop : p.base + max 1 p.count * FRAME_SIZE ≤ 2 ^ 64 := hok.top
  refine ⟨hok.pos, ?_⟩
  unfold FRAME_SIZE at *
  omega

theorem answer_apart {rs : List (Nat × Nat)} {p q : Page} (hlog : FreshLog (rs ++ [q.region]))
    (hp : p.region ∈ rs) : Apart p.base p.held q.base q.held :=
  ((freshLog_append _ _).mp hlog).2.2 p.region hp

theorem first_page_grown (h : State) (size : Nat) (hc : Chain h [])
    (hlog : FreshLog (h.regions ++ [(grownPage h size).region])) : Grown h (ensure_heap h size) [] size := by
  obtain ⟨hpos, htop⟩ := answer_top hlog
  have hspec := create_heap_page_spec h size hpos htop
  have hregions := create_heap_page_regions h size
  have he : ensure_heap h size =
      { (create_heap_page h size).2 with heap := (create_heap_page h size).1 } := by
    rw [ensure_heap, if_pos (by rw [hc.head]; rfl)]
  rw [he]
  generalize create_heap_page h size = c at hspec hregions
  obtain ⟨hr, hrep, hfree, hout, hwr, -, hallocs⟩ := hspec
  refine ⟨⟨hr, ⟨hrep, trivial⟩, ?_, ?_, ?_⟩, hallocs, fun x hx _ => hout x hx, hfree, ?_⟩
  · rw [hregions, hc.regions]
    rfl
  · intro p hp a g hag
    rw [List.mem_singleton.mp hp] at hag ⊢
    exact grownPage_records h size a g hag
  · rw [hregions]
    exact hlog
  · intro r hrw
    exact grownPage_written h [] size r h.written (hwr r hrw)

theorem link_page_spec (h : State) (init : List Page) (last new : Page)
    (hpages : PagesLinked h.mem (init ++ [last]) 0) (hnew : Linked h.mem new 0) (hbase : new.base < 2 ^ 64)
    (hout : ∀ r, IsRecord (init ++ [new]) r → Apart last.base 32 r 32) :
    PagesLinked (set_page_next h last.base new.base).mem (init ++ [last] ++ [new]) 0 := by
  have hlink : ∀ x, x < last.base + 24 ∨ last.base + 32 ≤ x →
      (put h last.base 24 8 new.base).mem x = h.mem x := fun x hx => put_outside _ _ _ _ _ _ hx
  have hmod : new.base % 256 ^ 8 = new.base := Nat.mod_eq_of_lt (by omega)
  have hkeep : ∀ r, IsRecord (init ++ [new]) r → ∀ x, r ≤ x → x < r + 32 →
      (put h last.base 24 8 new.base).mem x = h.mem x := by
    intro r hr x h1 h2
    have := hout r hr
    unfold Apart at this
    exact hlink x (by omega)
  rw [pagesLinked_append] at hpages
  obtain ⟨hp1, hp2, -⟩ := hpages
  rw [set_page_next, pagesLinked_append, pagesLinked_append]
  refine ⟨⟨?_, ?_, trivial⟩, ?_⟩
  · simp only [List.cons_ne_nil, if_false, headBase] at hp1 ⊢
    apply hp1.congr_records
    rintro r ⟨p, hp, hr⟩
    exact hkeep r ⟨p, by simp [hp], hr⟩
  · simp only [List.cons_ne_nil, if_false, if_true, headBase]
    refine ⟨hp2.pos, ?_, ?_, hp2.segs, hp2.tile.congr ?_⟩
    · rw [← hp2.first]
      simp (disch := omega) only [page_first, read_put_apart]
    · simp only [page_next, read_put_same, hmod]
    · intro x h1 _
      simp only [page_bytes] at h1
      exact hlink x (by omega)
  · have hlinked : PagesLinked h.mem [new] 0 := ⟨hnew, trivial⟩
    apply hlinked.congr_records
    rintro r ⟨p, hp, hr⟩
    exact hkeep r ⟨p, by simp at hp; simp [hp], hr⟩

theorem next_page_grown (h : State) (size : Nat) (init : List Page) (last : Page)
    (hc : Chain h (init ++ [last])) (hlog : FreshLog (h.regions ++ [(grownPage h size).region])) :
    Grown h (set_page_next (create_heap_page h size).2 last.base (create_heap_page h size).1)
      (init ++ [last]) size := by
  obtain ⟨hpos, htop⟩ := answer_top hlog
  obtain ⟨hr, hrep, hfree, hout, hwr, hheap, hallocs⟩ := create_heap_page_spec h size hpos htop
  have hregions := create_heap_page_regions h size
  have hbelow : ∀ p ∈ init ++ [last], Apart p.base p.held (grownPage h size).base (grownPage h size).held := by
    intro p hp
    exact answer_apart hlog (by rw [hc.regions]; exact List.mem_map_of_mem hp)
  have hlast : last ∈ init ++ [last] := by simp
  have hlheld := last.held_pos
  have hnheld := (grownPage h size).held_pos
  unfold Apart at hbelow
  rw [hr]
  generalize (create_heap_page h size).2 = h1 at *
  -- The new page does not touch the old ones.
  have hold : PagesLinked h1.mem (init ++ [last]) 0 := by
    apply hc.linked.congr_records
    rintro r ⟨p, hp, hrp⟩ x h1 h2
    have := hc.record p hp r hrp
    have := hbelow p hp
    exact hout x (by omega)
  have hapart : ∀ r, IsRecord (init ++ [grownPage h size]) r → Apart last.base 32 r 32 := by
    rintro r ⟨p, hp, hrp⟩
    rcases List.mem_append.mp hp with hp | hp
    · exact hc.before_last p hp r hrp
    · rw [List.mem_singleton.mp hp] at hrp
      have := grownPage_record h size r hrp
      have := hbelow last hlast
      unfold Apart
      omega
  have hpages := link_page_spec h1 init last (grownPage h size) hold hrep (by unfold FRAME_SIZE at htop; omega) hapart
  refine ⟨⟨?_, hpages, ?_, ?_, ?_⟩, ?_, ?_, ?_, ?_⟩
  · rw [set_page_next, put_heap, hheap, hc.head, headBase_append _ [grownPage h size] (by simp)]
  · rw [set_page_next, put_regions, hregions]
    conv_rhs => rw [List.map_append, ← hc.regions]
    rfl
  · intro p hp a g hag
    rcases List.mem_append.mp hp with hp | hp
    · exact hc.records p hp a g hag
    · rw [List.mem_singleton.mp hp] at hag ⊢
      exact grownPage_records h size a g hag
  · rw [set_page_next, put_regions, hregions]
    exact hlog
  · rw [set_page_next, put_allocs, hallocs]
  · intro x h2 h3
    rw [set_page_next, put_outside _ _ _ _ _ _ (by have := h3 last hlast; omega), hout x h2]
  · have := hbelow last hlast
    simp (disch := omega) only [set_page_next, page_free_size, read_put_apart]
    exact hfree
  · intro r hrw
    rw [set_page_next, put_written, List.mem_cons] at hrw
    rcases hrw with rfl | hrw
    · exact Or.inr ⟨last, by simp, Or.inl rfl⟩
    · exact grownPage_written h (init ++ [last]) size r h.written (hwr r hrw)

theorem chain_grown (h : State) (pages : List Page) (size : Nat) (hc : Chain h pages)
    (hlog : FreshLog (h.regions ++ [(grownPage h size).region])) :
    Grown h (grown h pages size) pages size := by
  unfold grown
  cases hlast : pages.getLast? with
  | none =>
    obtain rfl := List.getLast?_eq_none_iff.mp hlast
    exact first_page_grown h size hc hlog
  | some last =>
    obtain ⟨init, rfl⟩ := List.getLast?_eq_some_iff.mp hlast
    exact next_page_grown h size init last hc hlog

/-- The page that a request of this size adds. -/
def newPage (h : State) (size : Nat) : Page :=
  ⟨h.allocs h.regions.length, num_pages size, [⟨firstSize size, true⟩]⟩

theorem grownPage_eq (h : State) (size : Nat) (hsize : size < 2 ^ 32) : grownPage h size = newPage h size := by
  unfold grownPage newPage
  rw [Nat.mod_eq_of_lt (page_sizes size hsize).2.2.1]

theorem fits_newPage (h : State) (size : Nat) (hsize : size < 2 ^ 32) :
    Fits size (newPage h size) (h.allocs h.regions.length + 32) ⟨firstSize size, true⟩ :=
  ⟨by simp [newPage, Page.placed, placed], rfl, (page_sizes size hsize).1⟩

/-- A heap with one more page, and what that leaves alone. -/
structure Extended (h h' : State) (pages : List Page) (new : Page) : Prop where
  holds : Holds h' (pages ++ [new])
  allocs : h'.allocs = h.allocs
  data : DataKept h.mem h'.mem pages
  written : ∀ r ∈ h'.written, r ∈ h.written ∨ IsRecord (pages ++ [new]) r

theorem newPage_sound (h : State) (size : Nat) (hsize : size < 2 ^ 32)
    (hok : RegionOk (newPage h size).base (max 1 (newPage h size).count)) : (newPage h size).Sound := by
  have hroom := (page_sizes size hsize).2.2.2
  simp only [newPage, num_pages_pos size hsize] at hok
  refine ⟨hok, ?_⟩
  simp only [newPage, span_cons, span_nil, page_bytes, segment_bytes]
  omega

theorem Grown.extended {h h' : State} {pages : List Page} {size : Nat} (hg : Grown h h' pages size)
    (hh : Holds h pages) (hsize : size < 2 ^ 32) : Extended h h' pages (newPage h size) := by
  obtain ⟨hchain, hallocs, hmem, -, hwr⟩ := hg
  rw [grownPage_eq h size hsize] at hchain hmem hwr
  have hlog := hchain.fresh
  have hregions := hchain.regions
  rw [hregions] at hlog
  have hnew : (newPage h size).Sound := by
    apply newPage_sound h size hsize
    exact hlog.ok (newPage h size).region (List.mem_map_of_mem (by simp))
  have hsound : ∀ p ∈ pages ++ [newPage h size], p.Sound := by
    intro p hp
    rcases List.mem_append.mp hp with hp | hp
    · exact hh.sound p hp
    · rw [List.mem_singleton.mp hp]
      exact hnew
  refine ⟨⟨hchain.head, (pagesRep_iff _ _ _).mpr ⟨hchain.linked, hsound⟩, hregions, ?_⟩, hallocs, ?_, hwr⟩
  · rw [hregions]
    refine List.Pairwise.imp_of_mem ?_ hlog.apart
    intro r q hr hq hap
    obtain ⟨p, hp, rfl⟩ := List.mem_map.mp hr
    obtain ⟨p', hp', rfl⟩ := List.mem_map.mp hq
    have h1 : max 1 p.region.2 = p.region.2 := (hsound p hp).held
    have h2 : max 1 p'.region.2 = p'.region.2 := (hsound p' hp').held
    rw [h1, h2] at hap
    exact hap
  · intro p hp a g hag _ x h1 h2
    have hpl := hh.placed p hp a g hag
    have hap := List.pairwise_append.mp hchain.held_apart |>.2.2 p hp (newPage h size) (by simp)
    have hheld : p.held = p.count * FRAME_SIZE := by rw [Page.held, (hh.sound p hp).held]
    unfold Apart at hap
    simp only [segment_bytes] at h1 h2
    refine hmem x (by omega) ?_
    intro q hq
    have := hh.record_apart q.base ⟨q, hq, Or.inl rfl⟩ p hp a g hag
    unfold Apart at this
    omega

end SlayerOS.Heap
