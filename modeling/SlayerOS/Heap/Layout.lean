import SlayerOS.Heap.Spec

/-!
# Segments and pages in memory

How the lists of `Spec.lean` split and join, and which bytes they depend on.
-/

open SlayerOS.Bytes SlayerOS.Frames

namespace SlayerOS.Heap

@[simp] theorem segment_bytes : SEGMENT = 32 := rfl
@[simp] theorem page_bytes : PAGE = 32 := rfl

/-! ## One store -/

theorem read_put_same (h : State) (record k n v : Nat) :
    read n (put h record k n v).mem (record + k) = v % 256 ^ n := read_write_same n h.mem _ v

theorem read_put_apart (h : State) (record k n v a i : Nat)
    (hap : record + k + n ≤ a ∨ a + i ≤ record + k) :
    read i (put h record k n v).mem a = read i h.mem a := read_write_apart n i h.mem _ a v hap

theorem put_outside (h : State) (record k n v x : Nat) (hx : x < record + k ∨ record + k + n ≤ x) :
    (put h record k n v).mem x = h.mem x := write_outside n h.mem _ v x hx

@[simp] theorem put_heap (h : State) (record k n v : Nat) : (put h record k n v).heap = h.heap := rfl
@[simp] theorem put_allocs (h : State) (record k n v : Nat) :
    (put h record k n v).allocs = h.allocs := rfl
@[simp] theorem put_regions (h : State) (record k n v : Nat) :
    (put h record k n v).regions = h.regions := rfl
@[simp] theorem put_written (h : State) (record k n v : Nat) :
    (put h record k n v).written = record :: h.written := rfl

/-! ## The records that a function writes -/

/-- Between `h` and `c` only the records at `rs` are written. -/
structure Touches (rs : List Nat) (h c : State) : Prop where
  mem : ∀ x, (∀ r ∈ rs, x < r ∨ r + 32 ≤ x) → c.mem x = h.mem x
  written : ∀ r ∈ c.written, r ∈ rs ∨ r ∈ h.written
  heap : c.heap = h.heap
  allocs : c.allocs = h.allocs
  regions : c.regions = h.regions

theorem Touches.refl (rs : List Nat) (h : State) : Touches rs h h :=
  ⟨fun _ _ => rfl, fun _ hr => Or.inr hr, rfl, rfl, rfl⟩

theorem Touches.trans {rs : List Nat} {h c d : State} (h1 : Touches rs h c) (h2 : Touches rs c d) :
    Touches rs h d := by
  refine ⟨?_, ?_, h2.heap.trans h1.heap, h2.allocs.trans h1.allocs, h2.regions.trans h1.regions⟩
  · intro x hx
    rw [h2.mem x hx, h1.mem x hx]
  · intro r hr
    rcases h2.written r hr with hr | hr
    · exact Or.inl hr
    · exact h1.written r hr

theorem Touches.mono {rs qs : List Nat} {h c : State} (ht : Touches rs h c) (hsub : rs ⊆ qs) :
    Touches qs h c :=
  ⟨fun x hx => ht.mem x fun r hr => hx r (hsub hr), fun r hr => (ht.written r hr).imp (@hsub r) id,
    ht.heap, ht.allocs, ht.regions⟩

theorem Touches.put {rs : List Nat} {h c : State} (ht : Touches rs h c) (record k n v : Nat)
    (hr : record ∈ rs) (hk : k + n ≤ 32) : Touches rs h (put c record k n v) := by
  refine ⟨?_, ?_, ht.heap, ht.allocs, ht.regions⟩
  · intro x hx
    have hx' := hx record hr
    rw [put_outside _ _ _ _ _ _ (by omega), ht.mem x hx]
  · intro r hr'
    rw [put_written, List.mem_cons] at hr'
    rcases hr' with rfl | hr'
    · exact Or.inl hr
    · exact ht.written r hr'

/-! ## Spans -/

@[simp] theorem span_nil : span [] = 0 := rfl

theorem span_cons (g : Seg) (gs : List Seg) : span (g :: gs) = SEGMENT + g.size + span gs := rfl

theorem span_append (xs ys : List Seg) : span (xs ++ ys) = span xs + span ys := by
  induction xs with
  | nil => simp
  | cons g xs ih => simp only [List.cons_append, span_cons, ih]; omega

theorem placed_append (s : Nat) (xs ys : List Seg) :
    placed s (xs ++ ys) = placed s xs ++ placed (s + span xs) ys := by
  induction xs generalizing s with
  | nil => simp [placed]
  | cons g xs ih =>
    simp only [List.cons_append, placed, ih, span_cons]
    rw [show s + SEGMENT + g.size + span xs = s + (SEGMENT + g.size + span xs) by omega]

theorem mem_placed_iff (s : Nat) (gs : List Seg) (a : Nat) (g : Seg) :
    (a, g) ∈ placed s gs ↔ ∃ pre post, gs = pre ++ g :: post ∧ a = s + span pre := by
  induction gs generalizing s with
  | nil => simp [placed]
  | cons x xs ih =>
    simp only [placed, List.mem_cons, Prod.mk.injEq, ih]
    constructor
    · rintro (⟨rfl, rfl⟩ | ⟨pre, post, rfl, rfl⟩)
      · exact ⟨[], xs, rfl, rfl⟩
      · exact ⟨x :: pre, post, rfl, by rw [span_cons]; omega⟩
    · rintro ⟨pre, post, heq, rfl⟩
      cases pre with
      | nil =>
        obtain ⟨rfl, rfl⟩ := List.cons.inj heq
        exact Or.inl ⟨rfl, rfl⟩
      | cons y pre =>
        obtain ⟨rfl, rfl⟩ := List.cons.inj heq
        exact Or.inr ⟨pre, post, rfl, by rw [span_cons]; omega⟩

theorem Page.mem_placed (p : Page) (a : Nat) (g : Seg) :
    (a, g) ∈ p.placed ↔ ∃ pre post, p.segs = pre ++ [g] ++ post ∧ a = p.base + PAGE + span pre := by
  rw [Page.placed, mem_placed_iff]
  simp only [List.append_assoc, List.singleton_append]

theorem placed_lo (s : Nat) (gs : List Seg) (a : Nat) (g : Seg) (h : (a, g) ∈ placed s gs) :
    s ≤ a ∧ a + SEGMENT + g.size ≤ s + span gs := by
  obtain ⟨pre, post, rfl, rfl⟩ := (mem_placed_iff s gs a g).mp h
  rw [span_append, span_cons]
  omega

theorem placed_apart (s : Nat) (gs : List Seg) (a b : Nat) (g k : Seg)
    (ha : (a, g) ∈ placed s gs) (hb : (b, k) ∈ placed s gs) :
    (a = b ∧ g = k) ∨ a + SEGMENT + g.size ≤ b ∨ b + SEGMENT + k.size ≤ a := by
  induction gs generalizing s with
  | nil => simp [placed] at ha
  | cons x xs ih =>
    simp only [placed, List.mem_cons, Prod.mk.injEq] at ha hb
    rcases ha with ⟨rfl, rfl⟩ | ha <;> rcases hb with ⟨rfl, rfl⟩ | hb
    · exact Or.inl ⟨rfl, rfl⟩
    · exact Or.inr (Or.inl (placed_lo _ _ _ _ hb).1)
    · exact Or.inr (Or.inr (placed_lo _ _ _ _ ha).1)
    · exact ih _ ha hb

/-! ## Tiles -/

theorem SegAt.congr {m m' : Mem} {s : Nat} {g : Seg} {next : Nat} (h : SegAt m s g next)
    (hm : ∀ x, s ≤ x → x < s + SEGMENT → m' x = m x) : SegAt m' s g next := by
  have hread : ∀ n k, k + n ≤ 32 → read n m' (s + k) = read n m (s + k) := fun n k hk =>
    read_congr n m m' (s + k) (fun x h1 h2 => hm x (by omega) (by simp only [segment_bytes]; omega))
  refine ⟨?_, ?_, ?_, ?_⟩
  · rw [← h.addr]; exact hread 8 0 (by omega)
  · rw [← h.size]; exact hread 8 8 (by omega)
  · rw [← h.free, segment_free, segment_free, hread 1 16 (by omega)]
  · rw [← h.next]; exact hread 8 24 (by omega)

theorem Tile.congr_records {m m' : Mem} {s : Nat} {gs : List Seg} {e : Nat} (h : Tile m s gs e)
    (hm : ∀ a g, (a, g) ∈ placed s gs → ∀ x, a ≤ x → x < a + SEGMENT → m' x = m x) :
    Tile m' s gs e := by
  induction gs generalizing s with
  | nil => trivial
  | cons g gs ih =>
    exact ⟨h.1.congr (hm s g List.mem_cons_self),
      ih h.2 fun a k hak => hm a k (List.mem_cons_of_mem _ hak)⟩

theorem Tile.congr {m m' : Mem} {s : Nat} {gs : List Seg} {e : Nat} (h : Tile m s gs e)
    (hm : ∀ x, s ≤ x → x < s + span gs → m' x = m x) : Tile m' s gs e := by
  apply h.congr_records
  intro a g hag x h1 h2
  have := placed_lo _ _ _ _ hag
  exact hm x (by omega) (by omega)

theorem tile_append (m : Mem) (s : Nat) (xs ys : List Seg) (e : Nat) :
    Tile m s (xs ++ ys) e ↔
      Tile m s xs (if ys = [] then e else s + span xs) ∧ Tile m (s + span xs) ys e := by
  induction xs generalizing s with
  | nil => simp [Tile]
  | cons g xs ih =>
    simp only [List.cons_append, Tile, ih, span_cons, List.append_eq_nil_iff]
    rw [show s + SEGMENT + g.size + span xs = s + (SEGMENT + g.size + span xs) by omega]
    cases xs with
    | nil =>
      by_cases hys : ys = []
      · simp [hys, Tile]
      · simp [hys, Tile, Nat.add_assoc]
    | cons k xs => simp [and_assoc]

theorem Tile.replace {m m' : Mem} {s : Nat} {pre mid post mid' : List Seg}
    (h : Tile m s (pre ++ mid ++ post) 0) (hspan : span mid' = span mid)
    (hpre : ∀ x, s ≤ x → x < s + span pre → m' x = m x)
    (hpost : ∀ x, s + span pre + span mid ≤ x → x < s + span pre + span mid + span post → m' x = m x)
    (hne : mid ≠ []) (hne' : mid' ≠ [])
    (hmid : Tile m' (s + span pre) mid' (if post = [] then 0 else s + span pre + span mid)) :
    Tile m' s (pre ++ mid' ++ post) 0 := by
  rw [List.append_assoc, tile_append, tile_append] at h ⊢
  obtain ⟨h1, h2, h3⟩ := h
  simp only [List.append_eq_nil_iff, hne, hne', false_and, if_false, hspan] at h1 ⊢
  exact ⟨h1.congr hpre, hmid, h3.congr hpost⟩

theorem Tile.seg {m : Mem} {s : Nat} {gs : List Seg} {e : Nat} (h : Tile m s gs e) (a : Nat) (g : Seg)
    (hag : (a, g) ∈ placed s gs) : ∃ next, SegAt m a g next := by
  induction gs generalizing s with
  | nil => simp [placed] at hag
  | cons k gs ih =>
    simp only [placed, List.mem_cons, Prod.mk.injEq] at hag
    rcases hag with ⟨rfl, rfl⟩ | hag
    · exact ⟨_, h.1⟩
    · exact ih h.2 hag

theorem walk_spec (m : Mem) (test : Nat → Bool) (fuel s : Nat) (gs : List Seg) (h : Tile m s gs 0)
    (hpos : s ≠ 0) (hfuel : gs.length < fuel) :
    (∃ a g, (a, g) ∈ placed s gs ∧ test a = true ∧
      walk m test fuel (if gs = [] then 0 else s) = some a) ∨
    ((∀ a g, (a, g) ∈ placed s gs → test a = false) ∧
      walk m test fuel (if gs = [] then 0 else s) = some 0) := by
  induction gs generalizing s fuel with
  | nil =>
    obtain ⟨f, rfl⟩ : ∃ f, fuel = f + 1 := ⟨fuel - 1, by simp at hfuel; omega⟩
    right
    simp [placed, walk]
  | cons k gs ih =>
    obtain ⟨f, rfl⟩ : ∃ f, fuel = f + 1 := ⟨fuel - 1, by simp at hfuel; omega⟩
    simp only [List.cons_ne_nil, if_false, walk, if_neg hpos, placed, List.mem_cons, Prod.mk.injEq]
    by_cases ht : test s = true
    · left
      exact ⟨s, k, Or.inl ⟨rfl, rfl⟩, ht, by rw [if_pos ht]⟩
    · rw [if_neg ht, h.1.next]
      rcases ih f (s + SEGMENT + k.size) h.2 (by omega) (by simp at hfuel; omega)
        with ⟨a, g, hag, hta, hw⟩ | ⟨hall, hw⟩
      · left
        exact ⟨a, g, Or.inr hag, hta, hw⟩
      · right
        refine ⟨?_, hw⟩
        rintro a g (⟨rfl, rfl⟩ | hag)
        · simpa using ht
        · exact hall a g hag

/-! ## Pages -/

/-- What the loops read of a page: its links and its segments. -/
structure Linked (m : Mem) (p : Page) (next : Nat) : Prop where
  pos : p.base ≠ 0
  first : page_first m p.base = p.base + PAGE
  next : page_next m p.base = next
  segs : p.segs ≠ []
  tile : Tile m (p.base + PAGE) p.segs 0

/-- The frames of the page are a region that holds its segments. -/
structure Page.Sound (p : Page) : Prop where
  region : RegionOk p.base p.count
  inside : PAGE + span p.segs ≤ p.count * FRAME_SIZE

theorem PageRep.linked {m : Mem} {p : Page} {next : Nat} (h : PageRep m p next) : Linked m p next :=
  ⟨h.region.pos, h.first, h.next, h.segs, h.tile⟩

theorem PageRep.sound {m : Mem} {p : Page} {next : Nat} (h : PageRep m p next) : p.Sound :=
  ⟨h.region, h.inside⟩

theorem Linked.rep {m : Mem} {p : Page} {next : Nat} (h : Linked m p next) (hp : p.Sound) :
    PageRep m p next :=
  ⟨hp.region, h.first, h.next, h.segs, h.tile, hp.inside⟩

theorem Linked.congr_records {m m' : Mem} {p : Page} {next : Nat} (h : Linked m p next)
    (hpage : ∀ x, p.base ≤ x → x < p.base + PAGE → m' x = m x)
    (hsegs : ∀ a g, (a, g) ∈ p.placed → ∀ x, a ≤ x → x < a + SEGMENT → m' x = m x) :
    Linked m' p next := by
  simp only [page_bytes] at hpage
  have hread : ∀ k, k + 8 ≤ 32 → read 8 m' (p.base + k) = read 8 m (p.base + k) := fun k hk =>
    read_congr 8 m m' (p.base + k) (fun x h1 h2 => hpage x (by omega) (by omega))
  refine ⟨h.pos, ?_, ?_, h.segs, h.tile.congr_records hsegs⟩
  · rw [← h.first]; exact hread 8 (by omega)
  · rw [← h.next]; exact hread 24 (by omega)

theorem PageRep.congr {m m' : Mem} {p : Page} {next : Nat} (h : PageRep m p next)
    (hm : ∀ x, p.base ≤ x → x < p.base + p.count * FRAME_SIZE → m' x = m x) :
    PageRep m' p next := by
  have hin := h.inside
  refine (h.linked.congr_records ?_ ?_).rep h.sound
  · intro x h1 h2
    exact hm x h1 (by omega)
  · intro a g hag x h1 h2
    have := placed_lo _ _ _ _ hag
    exact hm x (by omega) (by omega)

theorem PageRep.seg {m : Mem} {p : Page} {next : Nat} (h : PageRep m p next) (pre post : List Seg)
    (g : Seg) (hsegs : p.segs = pre ++ [g] ++ post) :
    SegAt m (p.base + PAGE + span pre) g
      (if post = [] then 0 else p.base + PAGE + span pre + SEGMENT + g.size) := by
  have ht := h.tile
  rw [hsegs, List.append_assoc, tile_append] at ht
  exact ht.2.1

theorem PageRep.top {m : Mem} {p : Page} {next : Nat} (h : PageRep m p next) (pre mid post : List Seg)
    (hsegs : p.segs = pre ++ mid ++ post) :
    p.base + PAGE + span pre + span mid ≤ p.base + p.count * FRAME_SIZE ∧
    p.base + p.count * FRAME_SIZE ≤ 2 ^ 64 := by
  have hin := h.inside
  rw [hsegs, span_append, span_append] at hin
  exact ⟨by omega, h.region.top⟩

theorem PageRep.update {m m' : Mem} {p : Page} {next : Nat} (h : PageRep m p next)
    (pre mid mid' post : List Seg) (hsegs : p.segs = pre ++ mid ++ post)
    (hspan : span mid' = span mid) (hne : mid ≠ []) (hne' : mid' ≠ [])
    (hrec : ∀ x, p.base ≤ x → x < p.base + 16 ∨ p.base + 24 ≤ x → x < p.base + 32 → m' x = m x)
    (hrest : ∀ x, p.base + 32 ≤ x →
      x < p.base + PAGE + span pre ∨ p.base + PAGE + span pre + span mid ≤ x → m' x = m x)
    (hmid : Tile m' (p.base + PAGE + span pre) mid'
      (if post = [] then 0 else p.base + PAGE + span pre + span mid)) :
    PageRep m' { p with segs := pre ++ mid' ++ post } next := by
  have hin := h.inside
  have ht := h.tile
  rw [hsegs] at ht
  rw [hsegs, span_append, span_append] at hin
  refine ⟨h.region, ?_, ?_, ?_, ?_, ?_⟩
  · rw [← h.first]
    refine read_congr 8 m m' (p.base + 8) fun x h1 h2 => ?_
    exact hrec x (by omega) (by omega) (by omega)
  · rw [← h.next]
    refine read_congr 8 m m' (p.base + 24) fun x h1 h2 => ?_
    exact hrec x (by omega) (by omega) (by omega)
  · simp [hne']
  · refine ht.replace hspan ?_ ?_ hne hne' hmid
    · intro x h1 h2
      exact hrest x h1 (by omega)
    · intro x h1 h2
      exact hrest x (by simp only [page_bytes] at h1; omega) (by omega)
  · simp only [span_append, hspan]
    exact hin

theorem PagesRep.congr {m m' : Mem} {ps : List Page} {e : Nat} (h : PagesRep m ps e)
    (hm : ∀ p ∈ ps, ∀ x, p.base ≤ x → x < p.base + p.count * FRAME_SIZE → m' x = m x) :
    PagesRep m' ps e := by
  induction ps with
  | nil => trivial
  | cons p ps ih =>
    exact ⟨h.1.congr (hm p List.mem_cons_self),
      ih h.2 fun q hq => hm q (List.mem_cons_of_mem _ hq)⟩

theorem headBase_append (xs ys : List Page) (h : xs ≠ []) : headBase (xs ++ ys) = headBase xs := by
  cases xs with
  | nil => exact absurd rfl h
  | cons => rfl

/-- The pages are linked in order, and the last one links to `e`. -/
def PagesLinked (m : Mem) : List Page → Nat → Prop
  | [], _ => True
  | p :: ps, e => Linked m p (if ps = [] then e else headBase ps) ∧ PagesLinked m ps e

theorem pagesRep_iff (m : Mem) (ps : List Page) (e : Nat) :
    PagesRep m ps e ↔ PagesLinked m ps e ∧ ∀ p ∈ ps, p.Sound := by
  induction ps with
  | nil => simp [PagesRep, PagesLinked]
  | cons p ps ih =>
    rw [PagesRep, PagesLinked, ih, List.forall_mem_cons]
    constructor
    · rintro ⟨h1, h2, h3⟩
      exact ⟨⟨h1.linked, h2⟩, h1.sound, h3⟩
    · rintro ⟨⟨h1, h2⟩, h3, h4⟩
      exact ⟨h1.rep h3, h2, h4⟩

theorem PagesRep.linked {m : Mem} {ps : List Page} {e : Nat} (h : PagesRep m ps e) : PagesLinked m ps e :=
  ((pagesRep_iff m ps e).mp h).1

theorem pagesLinked_append (m : Mem) (xs ys : List Page) (e : Nat) :
    PagesLinked m (xs ++ ys) e ↔
      PagesLinked m xs (if ys = [] then e else headBase ys) ∧ PagesLinked m ys e := by
  induction xs with
  | nil => simp [PagesLinked]
  | cons p xs ih =>
    simp only [List.cons_append, PagesLinked, ih, List.append_eq_nil_iff]
    cases xs with
    | nil =>
      by_cases hys : ys = []
      · simp [hys, PagesLinked]
      · simp [hys, PagesLinked]
    | cons q xs => simp [headBase, and_assoc]

theorem pagesRep_append (m : Mem) (xs ys : List Page) (e : Nat) :
    PagesRep m (xs ++ ys) e ↔
      PagesRep m xs (if ys = [] then e else headBase ys) ∧ PagesRep m ys e := by
  simp only [pagesRep_iff, pagesLinked_append, List.forall_mem_append]
  tauto

/-- The address of a page record or of a segment record. -/
def IsRecord (pages : List Page) (r : Nat) : Prop :=
  ∃ p ∈ pages, r = p.base ∨ ∃ g, (r, g) ∈ p.placed

theorem PagesLinked.congr_records {m m' : Mem} {ps : List Page} {e : Nat} (h : PagesLinked m ps e)
    (hm : ∀ r, IsRecord ps r → ∀ x, r ≤ x → x < r + 32 → m' x = m x) : PagesLinked m' ps e := by
  induction ps with
  | nil => trivial
  | cons p ps ih =>
    refine ⟨h.1.congr_records ?_ ?_, ih h.2 ?_⟩
    · exact hm p.base ⟨p, List.mem_cons_self, Or.inl rfl⟩
    · intro a g hag
      exact hm a ⟨p, List.mem_cons_self, Or.inr ⟨g, hag⟩⟩
    · rintro r ⟨q, hq, hr⟩
      exact hm r ⟨q, List.mem_cons_of_mem _ hq, hr⟩

theorem PagesRep.congr_records {m m' : Mem} {ps : List Page} {e : Nat} (h : PagesRep m ps e)
    (hm : ∀ r, IsRecord ps r → ∀ x, r ≤ x → x < r + 32 → m' x = m x) : PagesRep m' ps e := by
  rw [pagesRep_iff] at h ⊢
  exact ⟨h.1.congr_records hm, h.2⟩

theorem PagesRep.page {m : Mem} {ps : List Page} {e : Nat} (h : PagesRep m ps e) (p : Page)
    (hp : p ∈ ps) : ∃ next, PageRep m p next := by
  induction ps with
  | nil => simp at hp
  | cons q ps ih =>
    rcases List.mem_cons.mp hp with rfl | hp
    · exact ⟨_, h.1⟩
    · exact ih h.2 hp

theorem PagesRep.replace {m m' : Mem} {pre post : List Page} {p p' : Page}
    (h : PagesRep m (pre ++ p :: post) 0) (hbase : p'.base = p.base)
    (hrest : ∀ q ∈ pre ++ post, ∀ x, q.base ≤ x → x < q.base + q.count * FRAME_SIZE → m' x = m x)
    (hp : ∀ next, PageRep m p next → PageRep m' p' next) :
    PagesRep m' (pre ++ p' :: post) 0 := by
  rw [pagesRep_append] at h ⊢
  obtain ⟨h1, h2, h3⟩ := h
  refine ⟨?_, hp _ h2, h3.congr fun q hq => hrest q (by simp [hq])⟩
  simp only [List.cons_ne_nil, if_false, headBase, hbase] at h1 ⊢
  exact h1.congr fun q hq => hrest q (by simp [hq])

end SlayerOS.Heap
