import SlayerOS.Heap.Kmalloc

/-!
# `kfree`

It looks at the segments of the first page only. There it frees the segment of the
address, which swallows the segment behind it if that is free.
-/

open SlayerOS.Bytes SlayerOS.Frames

namespace SlayerOS.Heap

/-! ## One segment -/

/-- A freed segment and what is behind it. -/
def joined (g : Seg) : List Seg → List Seg
  | [] => [⟨g.size, true⟩]
  | k :: ks => if k.free then ⟨g.size + SEGMENT + k.size, true⟩ :: ks else ⟨g.size, true⟩ :: k :: ks

/-- The bytes of the record that a merge gives back. -/
def merged : List Seg → Nat
  | [] => 0
  | k :: _ => if k.free then SEGMENT else 0

theorem freeBytes_joined (g : Seg) (post : List Seg) :
    freeBytes (joined g post) = g.size + merged post + freeBytes post := by
  cases post with
  | nil => simp [joined, merged, freeBytes]
  | cons k ks =>
    by_cases hk : k.free = true
    · rw [joined, merged, if_pos hk, if_pos hk]
      simp only [freeBytes, hk, if_true]
      omega
    · rw [joined, merged, if_neg hk, if_neg hk]
      simp [freeBytes, hk]

def Page.release (p : Page) (pre : List Seg) (g : Seg) (post : List Seg) : Page :=
  { p with segs := pre ++ joined g post }

theorem joined_length (g : Seg) (post : List Seg) : (joined g post).length ≤ post.length + 1 := by
  cases post with
  | nil => simp [joined]
  | cons k ks =>
    rw [joined]
    split <;> simp

theorem SegAt.freed {h : State} {a : Nat} {g : Seg} {next : Nat} (hseg : SegAt h.mem a g next)
    (page v : Nat) (hlo : page + 32 ≤ a) :
    SegAt (put (set_segment_free h a true) page 16 4 v).mem a ⟨g.size, true⟩ next := by
  apply (hseg.set_free true).congr
  intro x h1 _
  exact put_outside _ _ _ _ _ _ (by omega)

theorem free_segment_keeps (h : State) (p : Page) (next : Nat) (pre post : List Seg) (g : Seg) (a : Nat)
    (hp : PageRep h.mem p next) (hsegs : p.segs = pre ++ [g] ++ post)
    (ha : a = p.base + PAGE + span pre) (v : Nat) :
    PageRep (put (set_segment_free h a true) p.base 16 4 v).mem
      { p with segs := pre ++ [⟨g.size, true⟩] ++ post } next := by
  have hseg := hp.seg pre post g hsegs
  rw [← ha] at hseg
  have hlo : p.base + 32 ≤ a := by rw [ha, page_bytes]; omega
  have hkeep : ∀ x, (x < p.base + 16 ∨ p.base + 24 ≤ x) → (x < a ∨ a + 32 ≤ x) →
      (put (set_segment_free h a true) p.base 16 4 v).mem x = h.mem x := by
    intro x h1 h2
    rw [put_outside _ _ _ _ _ _ (by omega), set_segment_free, put_outside _ _ _ _ _ _ (by omega)]
  refine hp.update pre [g] [⟨g.size, true⟩] post hsegs rfl (by simp) (by simp) ?_ ?_ ?_
  · intro x h1 h2 h3
    exact hkeep x h2 (by omega)
  · intro x h1 h2
    rw [← ha] at h2
    simp only [span_cons, span_nil, segment_bytes] at h2
    exact hkeep x (by omega) (by omega)
  · rw [← ha]
    refine ⟨?_, trivial⟩
    rw [if_pos rfl]
    convert hseg.freed p.base v hlo using 2
    simp only [span_cons, span_nil]
    omega

theorem PageRep.behind {m : Mem} {p : Page} {next : Nat} (hp : PageRep m p next) (pre ks : List Seg) (g k : Seg)
    (a : Nat) (hsegs : p.segs = pre ++ [⟨g.size, true⟩] ++ k :: ks) (ha : a = p.base + PAGE + span pre) :
    segment_next m a = a + 32 + g.size ∧
    SegAt m (a + 32 + g.size) k (if ks = [] then 0 else a + 32 + g.size + 32 + k.size) := by
  have hseg := hp.seg pre (k :: ks) ⟨g.size, true⟩ hsegs
  have hk := hp.seg (pre ++ [⟨g.size, true⟩]) ks k (by simpa using hsegs)
  rw [← ha] at hseg
  rw [show p.base + PAGE + span (pre ++ [⟨g.size, true⟩]) = a + 32 + g.size by
    rw [ha, span_append]; simp only [span_cons, span_nil, segment_bytes]; omega] at hk
  refine ⟨?_, hk⟩
  rw [hseg.next, if_neg (by simp), segment_bytes]

theorem try_segment_merge_joins (h : State) (p : Page) (next : Nat) (pre ks : List Seg) (g k : Seg) (a : Nat)
    (hp : PageRep h.mem p next) (hsegs : p.segs = pre ++ [⟨g.size, true⟩] ++ k :: ks)
    (ha : a = p.base + PAGE + span pre) (hfree : k.free = true) :
    PageRep (try_segment_merge h p.base a).mem
      { p with segs := pre ++ [⟨g.size + SEGMENT + k.size, true⟩] ++ ks } next ∧
    page_free_size (try_segment_merge h p.base a).mem p.base = (page_free_size h.mem p.base + 32) % 2 ^ 32 ∧
    Touches [p.base, a] h (try_segment_merge h p.base a) := by
  have hseg := hp.seg pre (k :: ks) _ hsegs
  obtain ⟨hnext, hk⟩ := hp.behind pre ks g k a hsegs ha
  obtain ⟨htop, htop'⟩ := hp.top pre [⟨g.size, true⟩, k] ks (by simpa using hsegs)
  rw [← ha] at hseg htop
  have hlo : p.base + 32 ≤ a := by rw [ha, page_bytes]; omega
  simp only [span_cons, span_nil, segment_bytes] at htop hk
  have haddr := hseg.addr
  have hgsize := hseg.size
  have hgfree := hseg.free
  have hksize := hk.size
  have hknext := hk.next
  simp only [segment_addr, segment_size, segment_next, segment_free, segment_bytes] at haddr hgsize hgfree hksize hknext
  have hmod : (g.size + (k.size + 32)) % 256 ^ 8 = g.size + (k.size + 32) := Nat.mod_eq_of_lt (by omega)
  have hlast : (if ks = [] then 0 else a + 32 + g.size + 32 + k.size) % 256 ^ 8 =
      if ks = [] then 0 else a + 32 + g.size + 32 + k.size := by
    rw [← hknext]
    exact Nat.mod_eq_of_lt (read_lt _ _ _)
  have hh : try_segment_merge h p.base a = put (put (put h a 8 8 (g.size + (k.size + 32))) a 24 8
      (if ks = [] then 0 else a + 32 + g.size + 32 + k.size)) p.base 16 4
      (page_free_size h.mem p.base + 32) := by
    rw [try_segment_merge, if_pos ⟨by rw [hnext]; omega, by rw [hnext, hk.free, hfree]⟩, hnext]
    simp only [set_segment_size, set_segment_next, segment_size, segment_next, set_page_free_size,
      page_free_size, segment_bytes, hgsize, hksize]
    simp (disch := omega) only [read_put_apart, hknext]
  rw [hh]
  refine ⟨?_, ?_, ?_⟩
  · refine hp.update pre [⟨g.size, true⟩, k] [⟨g.size + SEGMENT + k.size, true⟩] ks
      (by simpa using hsegs) ?_ (by simp) (by simp) ?_ ?_ ?_
    · simp only [span_cons, span_nil, segment_bytes]
      omega
    · intro x h1 h2 h3
      simp (disch := omega) only [put_outside]
    · intro x h1 h2
      rw [← ha] at h2
      simp only [span_cons, span_nil, segment_bytes] at h2
      simp (disch := omega) only [put_outside]
    · rw [← ha]
      refine ⟨⟨?_, ?_, ?_, ?_⟩, trivial⟩
      · simp (disch := omega) only [segment_addr, read_put_apart, haddr, segment_bytes]
      · simp (disch := omega) only [segment_size, read_put_apart, read_put_same, hmod, segment_bytes]
        omega
      · simp (disch := omega) only [segment_free, read_put_apart, hgfree]
      · simp (disch := omega) only [segment_next, read_put_apart, read_put_same, hlast, if_true,
          span_cons, span_nil, segment_bytes]
        split <;> omega
  · exact read_put_same _ p.base 16 4 _
  · repeat refine Touches.put ?_ _ _ _ _ (by simp) (by omega)
    exact Touches.refl _ h

theorem free_size_lt (m : Mem) (page : Nat) : page_free_size m page < 2 ^ 32 := read_lt 4 m _

theorem try_segment_merge_spec (h : State) (p : Page) (next : Nat) (pre post : List Seg) (g : Seg) (a : Nat)
    (hp : PageRep h.mem p next) (hsegs : p.segs = pre ++ [⟨g.size, true⟩] ++ post)
    (ha : a = p.base + PAGE + span pre) :
    PageRep (try_segment_merge h p.base a).mem { p with segs := pre ++ joined g post } next ∧
    page_free_size (try_segment_merge h p.base a).mem p.base =
      (page_free_size h.mem p.base + merged post) % 2 ^ 32 ∧
    Touches [p.base, a] h (try_segment_merge h p.base a) := by
  have hstay : joined g post = ⟨g.size, true⟩ :: post → merged post = 0 → try_segment_merge h p.base a = h →
      PageRep (try_segment_merge h p.base a).mem { p with segs := pre ++ joined g post } next ∧
      page_free_size (try_segment_merge h p.base a).mem p.base =
        (page_free_size h.mem p.base + merged post) % 2 ^ 32 ∧
      Touches [p.base, a] h (try_segment_merge h p.base a) := by
    intro hjoined hmerged hsame
    have hsame' : pre ++ joined g post = p.segs := by rw [hjoined, hsegs]; simp
    rw [hsame, hsame', hmerged]
    exact ⟨hp, (Nat.mod_eq_of_lt (free_size_lt _ _)).symm, Touches.refl _ h⟩
  cases post with
  | nil =>
    have hseg := hp.seg pre [] _ hsegs
    rw [← ha] at hseg
    have hnull : segment_next h.mem a = 0 := hseg.next
    apply hstay rfl rfl
    simp only [try_segment_merge, hnull, ne_eq, not_true_eq_false, false_and, if_false]
  | cons k ks =>
    obtain ⟨hnext, hk⟩ := hp.behind pre ks g k a hsegs ha
    by_cases hfree : k.free = true
    · have hjoins := try_segment_merge_joins h p next pre ks g k a hp hsegs ha hfree
      rw [joined, merged, if_pos hfree, if_pos hfree, List.append_cons]
      exact hjoins
    · apply hstay
      · rw [joined, if_neg hfree]
      · rw [merged, if_neg hfree]
      · rw [try_segment_merge, if_neg]
        rw [hnext, hk.free]
        simp [hfree]

theorem free_segment_spec (h : State) (p : Page) (next : Nat) (pre post : List Seg) (g : Seg) (a : Nat)
    (hp : PageRep h.mem p next) (hsegs : p.segs = pre ++ [g] ++ post) (ha : a = p.base + PAGE + span pre) :
    PageRep (free_segment h p.base a).mem (p.release pre g post) next ∧
    page_free_size (free_segment h p.base a).mem p.base =
      (page_free_size h.mem p.base + g.size + merged post) % 2 ^ 32 ∧
    Touches [p.base, a] h (free_segment h p.base a) := by
  have hseg := hp.seg pre post g hsegs
  rw [← ha] at hseg
  have hlo : p.base + 32 ≤ a := by rw [ha, page_bytes]; omega
  have hsize := hseg.size
  simp only [segment_size] at hsize
  have hv : free_segment h p.base a =
      try_segment_merge (put (set_segment_free h a true) p.base 16 4 (page_free_size h.mem p.base + g.size))
        p.base a := by
    simp only [free_segment, set_page_free_size, set_segment_free, page_free_size, segment_size]
    simp (disch := omega) only [read_put_apart, hsize]
  have hp1 := free_segment_keeps h p next pre post g a hp hsegs ha (page_free_size h.mem p.base + g.size)
  obtain ⟨hrep, hfree, htouch⟩ :=
    try_segment_merge_spec _ { p with segs := pre ++ [⟨g.size, true⟩] ++ post } next pre post g a hp1 rfl ha
  rw [hv]
  refine ⟨hrep, ?_, Touches.trans ?_ htouch⟩
  · rw [hfree, page_free_size, read_put_same]
    exact Nat.mod_add_mod _ _ _
  · repeat refine Touches.put ?_ _ _ _ _ (by simp) (by omega)
    exact Touches.refl _ h

/-! ## The search for an address -/

theorem find_addr_spec (m : Mem) (addr fuel : Nat) (p : Page) (next : Nat) (h : PageRep m p next)
    (hfuel : p.segs.length < fuel) :
    (∃ a g, (a, g) ∈ p.placed ∧ addr = a + SEGMENT ∧
      find_addr m addr fuel (page_first m p.base) = some a) ∨
    ((∀ a g, (a, g) ∈ p.placed → addr ≠ a + SEGMENT) ∧
      find_addr m addr fuel (page_first m p.base) = some 0) := by
  have hpos : p.base + PAGE ≠ 0 := by simp
  have hw := walk_spec m (fun s => decide (segment_addr m s = addr)) fuel
    (p.base + PAGE) p.segs h.tile hpos hfuel
  have htest : ∀ a g, (a, g) ∈ p.placed → (segment_addr m a = addr ↔ addr = a + SEGMENT) := by
    intro a g hag
    obtain ⟨next, hseg⟩ := h.tile.seg a g hag
    rw [hseg.addr, eq_comm]
  rw [if_neg h.segs] at hw
  rw [h.first]
  rcases hw with ⟨a, g, hag, ht, hw⟩ | ⟨hall, hw⟩
  · exact Or.inl ⟨a, g, hag, (htest a g hag).mp (of_decide_eq_true ht), hw⟩
  · refine Or.inr ⟨?_, hw⟩
    intro a g hag haddr
    exact of_decide_eq_false (hall a g hag) ((htest a g hag).mpr haddr)

theorem kfree_from_null (h : State) (addr fuel : Nat) (pages : List Page) (hrep : PagesRep h.mem pages 0)
    (hfuel : pages.length + 1 < fuel) :
    kfree_from h addr fuel (headBase pages) 0 = some (false, h) := by
  induction pages generalizing fuel with
  | nil =>
    obtain ⟨f, rfl⟩ : ∃ f, fuel = f + 1 := ⟨fuel - 1, by omega⟩
    simp [headBase, kfree_from]
  | cons p ps ih =>
    simp only [List.length_cons] at hfuel
    obtain ⟨f, rfl⟩ : ∃ f, fuel = f + 2 := ⟨fuel - 2, by omega⟩
    have hnull : find_addr h.mem addr (f + 1) 0 = some 0 := by simp [find_addr, walk]
    have hnext : page_next h.mem p.base = headBase ps := by
      rw [hrep.1.next]
      cases ps <;> rfl
    rw [headBase, kfree_from, if_neg hrep.1.region.pos, hnull]
    simp only [hnext]
    exact ih (f + 1) hrep.2 (by omega)

theorem kfree_from_found (h : State) (addr fuel page segment a : Nat) (hpage : page ≠ 0) (ha : a ≠ 0)
    (hfind : find_addr h.mem addr fuel segment = some a) :
    kfree_from h addr (fuel + 1) page segment = some (true, free_segment h page a) := by
  obtain ⟨n, rfl⟩ := Nat.exists_eq_succ_of_ne_zero ha
  rw [kfree_from, if_neg hpage, hfind]
  rfl

theorem length_le_weight (pages : List Page) : pages.length ≤ weight pages := by
  induction pages with
  | nil => simp
  | cons p ps ih => rw [weight_cons, List.length_cons]; omega

/-! ## The whole call -/

/-- What a call of `kfree` does when it frees the segment `g` of the first page. -/
structure Released (h : State) (p : Page) (ps : List Page) (addr : Nat) (pre : List Seg) (g : Seg)
    (post : List Seg) (c : State) : Prop where
  segs : p.segs = pre ++ [g] ++ post
  addr : addr = p.base + PAGE + span pre + SEGMENT
  holds : Holds c (p.release pre g post :: ps)
  data : DataKept h.mem c.mem (p :: ps)
  written : ∀ r ∈ c.written, r ∈ h.written ∨ IsRecord (p :: ps) r

theorem free_released (h : State) (p : Page) (ps : List Page) (pre post : List Seg) (g : Seg) (a : Nat)
    (hh : Holds h (p :: ps)) (hsegs : p.segs = pre ++ [g] ++ post) (ha : a = p.base + PAGE + span pre) :
    Released h p ps (a + SEGMENT) pre g post (free_segment h p.base a) := by
  have hp : p ∈ p :: ps := List.mem_cons_self
  have hag : (a, g) ∈ p.placed := (p.mem_placed a g).mpr ⟨pre, post, hsegs, ha⟩
  have hpl := hh.placed p hp a g hag
  obtain ⟨hrep, -, htouch⟩ := free_segment_spec h p _ pre post g a hh.rep.1 hsegs ha
  have hout : ∀ x, (x < p.base ∨ p.base + 32 ≤ x) → (x < a ∨ a + 32 ≤ x) →
      (free_segment h p.base a).mem x = h.mem x := fun x h1 h2 =>
    htouch.mem x (by simpa using ⟨h1, h2⟩)
  generalize free_segment h p.base a = c at *
  refine ⟨hsegs, by rw [ha], ⟨?_, ⟨?_, ?_⟩, ?_, ?_⟩, ?_, ?_⟩
  · rw [htouch.heap, hh.head]; rfl
  · exact hrep
  · apply hh.rep.2.congr
    intro q hq x h1 h2
    have hap := hh.first_apart q hq
    unfold Apart at hap
    exact hout x (by omega) (by omega)
  · rw [htouch.regions, hh.regions]; rfl
  · rw [htouch.regions]; exact hh.apart
  · intro q hq b k hbk _ x h1 h2
    have h3 := hh.record_apart p.base ⟨p, hp, Or.inl rfl⟩ q hq b k hbk
    have h4 := hh.record_apart a ⟨p, hp, Or.inr ⟨g, hag⟩⟩ q hq b k hbk
    simp only [Apart, segment_bytes] at h1 h2 h3 h4
    exact hout x (by omega) (by omega)
  · intro r hr
    rcases htouch.written r hr with hr | hr
    · rcases List.mem_pair.mp hr with rfl | rfl
      · exact Or.inr ⟨p, hp, Or.inl rfl⟩
      · exact Or.inr ⟨p, hp, Or.inr ⟨g, hag⟩⟩
    · exact Or.inl hr

theorem kfree_cases (fuel : Nat) (h : State) (p : Page) (ps : List Page) (addr : Nat)
    (hh : Holds h (p :: ps)) (hfuel : weight (p :: ps) + 2 ≤ fuel) :
    (∃ pre g post a, p.segs = pre ++ [g] ++ post ∧ a = p.base + PAGE + span pre ∧ addr = a + SEGMENT ∧
      kfree fuel h addr = some (true, free_segment h p.base a)) ∨
    ((∀ a g, (a, g) ∈ p.placed → addr ≠ a + SEGMENT) ∧ kfree fuel h addr = some (false, h)) := by
  rw [weight_cons] at hfuel
  have hlen := length_le_weight ps
  obtain ⟨f, rfl⟩ : ∃ f, fuel = f + 1 := ⟨fuel - 1, by omega⟩
  have hpos : p.base ≠ 0 := hh.rep.1.region.pos
  have hhead : h.heap = p.base := hh.head
  rw [kfree, hhead]
  rcases find_addr_spec h.mem addr f p _ hh.rep.1 (by omega) with ⟨a, g, hag, haddr, hfind⟩ | ⟨hno, hfind⟩
  · left
    have hpl := hh.placed p List.mem_cons_self a g hag
    obtain ⟨pre, post, hsegs, ha⟩ := (p.mem_placed a g).mp hag
    refine ⟨pre, g, post, a, hsegs, ha, haddr, ?_⟩
    exact kfree_from_found h addr f p.base _ a hpos (by omega) hfind
  · right
    refine ⟨hno, ?_⟩
    have hnext : page_next h.mem p.base = headBase ps := by
      rw [hh.rep.1.next]
      cases ps <;> rfl
    rw [kfree_from, if_neg hpos, hfind]
    simp only [hnext]
    exact kfree_from_null h addr f ps hh.rep.2 (by omega)

/-- `kfree` frees a segment of the first page, or it changes nothing. -/
theorem kfree_spec (fuel : Nat) (h : State) (p : Page) (ps : List Page) (addr : Nat)
    (hh : Holds h (p :: ps)) (hfuel : weight (p :: ps) + 2 ≤ fuel) :
    (∃ c pre g post, kfree fuel h addr = some (true, c) ∧ Released h p ps addr pre g post c) ∨
    ((∀ a g, (a, g) ∈ p.placed → addr ≠ a + SEGMENT) ∧ kfree fuel h addr = some (false, h)) := by
  rcases kfree_cases fuel h p ps addr hh hfuel with ⟨pre, g, post, a, hsegs, ha, rfl, hc⟩ | hno
  · exact Or.inl ⟨_, pre, g, post, hc, free_released h p ps pre post g a hh hsegs ha⟩
  · exact Or.inr hno

end SlayerOS.Heap
