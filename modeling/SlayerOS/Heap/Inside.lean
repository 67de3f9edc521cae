import SlayerOS.Heap.Blocks

/-!
# What the heap writes lies in its frames

A call of `kmalloc` or `kfree` changes bytes of the regions that the frame allocator gave to
the heap, and no others.
-/

open SlayerOS.Bytes SlayerOS.Frames SlayerOS.Run

namespace SlayerOS.Heap

/-- The byte at `x` is in none of the regions. -/
def OutsideOf (rs : List (Nat × Nat)) (x : Nat) : Prop := ∀ r ∈ rs, x < r.1 ∨ r.1 + r.2 * FRAME_SIZE ≤ x

/-- The call changes bytes of its own regions only. It may have asked for one more of them. -/
structure Within (fuel : Nat) (w : World) (e : Event) (w' : World) : Prop where
  outside : ∀ x, OutsideOf w'.h.regions x → w'.h.mem x = w.h.mem x
  regions : w'.h.regions = w.h.regions ∨
    ∃ size, e = .kmalloc size ∧ NeedsPage fuel w.h size ∧
      w'.h.regions = w.h.regions ++ [(w.h.allocs w.h.regions.length, num_pages size)]

theorem OutsideOf.page {h : State} {pages : List Page} {x : Nat} (hx : OutsideOf h.regions x)
    (hregions : h.regions = pages.map Page.region) (p : Page) (hp : p ∈ pages) :
    x < p.base ∨ p.base + p.count * FRAME_SIZE ≤ x :=
  hx p.region (by rw [hregions]; exact List.mem_map_of_mem hp)

/-! ## `kmalloc` -/

theorem serve_outside (h : State) (pages : List Page) (p : Page) (a : Nat) (g : Seg) (size x : Nat)
    (hh : Holds h pages) (hp : p ∈ pages) (hfit : Fits size p a g) (hx : OutsideOf h.regions x) :
    (alloc_segment h p.base a size).2.mem x = h.mem x := by
  obtain ⟨hag, -, hsize⟩ := hfit
  obtain ⟨pre, post, hsegs, ha⟩ := (p.mem_placed a g).mp hag
  obtain ⟨next, hrep⟩ := hh.rep.page p hp
  obtain ⟨-, -, htouch⟩ := alloc_segment_spec h p next pre post g size a _ hrep hsegs hsize ha rfl
  have hpl := hh.placed p hp a g hag
  have hout := hx.page hh.regions p hp
  refine htouch.mem x (List.forall_mem_cons.mpr ⟨by omega, ?_⟩)
  exact outside_carve a size x g (by omega) (by omega)

theorem Grown.outside {h h' : State} {pages : List Page} {size x : Nat} (hg : Grown h h' pages size)
    (he : Extended h h' pages (newPage h size)) (hh : Holds h pages) (hsize : size < 2 ^ 32)
    (hx : OutsideOf h'.regions x) : h'.mem x = h.mem x := by
  have hnew := he.holds.sound (newPage h size) (by simp)
  have hout := hx.page he.holds.regions
  refine hg.mem x ?_ ?_
  · have := hout (newPage h size) (by simp)
    rw [grownPage_eq h size hsize, Page.held, hnew.held]
    exact this
  · intro p hp
    have := hout p (by simp [hp])
    obtain ⟨next, hrep⟩ := hh.rep.page p hp
    have hin := hrep.inside
    rw [page_bytes] at hin
    omega

theorem kmalloc_outside (fuel : Nat) (h : State) (pages : List Page) (size : Nat) (c : Nat × State)
    (hh : Holds h pages) (hsize : size < 2 ^ 32) (hfresh : NeedsPage fuel h size → FreshRegion h (num_pages size))
    (hfuel : weight pages + 5 ≤ fuel) (hc : kmalloc fuel h size = some c) (x : Nat)
    (hx : OutsideOf c.2.regions x) : c.2.mem x = h.mem x := by
  obtain ⟨h1, old, n, p, a, g, hready, hold, hp, hfit, -, hc'⟩ := kmalloc_served fuel h pages size hh hsize hfresh hfuel
  obtain rfl := Option.some.inj (hc.symm.trans hc')
  rw [alloc_segment_regions] at hx
  rw [serve_outside h1 old p a g size x hold hp hfit hx]
  cases hready with
  | same => rfl
  | more _ hg he => exact hg.outside he hh hsize hx

/-! ## `kfree` -/

theorem kfree_outside (fuel : Nat) (h : State) (p : Page) (ps : List Page) (addr : Nat) (r : Bool × State)
    (hh : Holds h (p :: ps)) (hfuel : weight (p :: ps) + 2 ≤ fuel) (hr : kfree fuel h addr = some r) (x : Nat)
    (hx : OutsideOf h.regions x) : r.2.mem x = h.mem x := by
  rcases kfree_cases fuel h p ps addr hh hfuel with ⟨pre, g, post, a, hsegs, ha, -, hc⟩ | ⟨-, hc⟩
  · obtain ⟨next, hrep⟩ := hh.rep.page p List.mem_cons_self
    obtain ⟨-, -, htouch⟩ := free_segment_spec h p next pre post g a hrep hsegs ha
    have hpl := hh.placed p List.mem_cons_self a g ((p.mem_placed a g).mpr ⟨pre, post, hsegs, ha⟩)
    have hout := hx.page hh.regions p List.mem_cons_self
    generalize free_segment h p.base a = c at hc htouch
    rw [Option.some.inj (hr.symm.trans hc)]
    apply htouch.mem x
    intro q hq
    rcases List.mem_pair.mp hq with rfl | rfl
    · omega
    · omega
  · obtain rfl := Option.some.inj (hr.symm.trans hc)
    rfl

/-! ## One call -/

theorem kmalloc_within (fuel : Nat) (w w' : World) (pages : List Page) (size : Nat) (hw : HeapInv w pages)
    (hlegal : Legal fuel w (.kmalloc size)) (hfuel : weight pages + 5 ≤ fuel)
    (hstep : step fuel w (.kmalloc size) = some w') : Within fuel w (.kmalloc size) w' := by
  obtain ⟨hsize, hfresh⟩ := hlegal
  have hh : Holds { w.h with written := [] } pages := hw.holds.unwritten
  have hfresh' : NeedsPage fuel { w.h with written := [] } size →
      FreshRegion { w.h with written := [] } (num_pages size) := fun hn => ⟨(hfresh hn).ok, (hfresh hn).apart⟩
  obtain ⟨c, old, pages', hc, hall, hold⟩ := kmalloc_spec fuel _ pages size hh (by omega) hfresh' hfuel
  have hanswer := kmalloc_answer fuel _ pages old pages' size c hh hc hall hold (by omega)
  simp only [step, hc, Option.bind_eq_bind, Option.bind_some, Option.some.injEq] at hstep
  subst hstep
  refine ⟨?_, ?_⟩
  · intro x hx
    exact kmalloc_outside fuel _ pages size c hh (by omega) hfresh' hfuel hc x hx
  · rcases hanswer with hsame | ⟨hneeds, heq⟩
    · exact Or.inl hsame
    · exact Or.inr ⟨size, rfl, hneeds, heq⟩

theorem kfree_within (fuel : Nat) (w w' : World) (pages : List Page) (addr : Nat) (hw : HeapInv w pages)
    (hheap : w.h.heap ≠ 0) (hfuel : weight pages + 5 ≤ fuel) (hstep : step fuel w (.kfree addr) = some w') :
    Within fuel w (.kfree addr) w' := by
  obtain ⟨p, ps, rfl⟩ := hw.cons hheap
  have hh : Holds { w.h with written := [] } (p :: ps) := hw.holds.unwritten
  obtain ⟨u, pages', hu, -, -, htakes⟩ := kfree_takes fuel w (p :: ps) addr hw hheap hfuel
  obtain rfl : u = w' := Option.some.inj (hu.symm.trans hstep)
  refine ⟨?_, Or.inl htakes.regions⟩
  intro x hx
  rw [htakes.regions] at hx
  obtain ⟨r, hr, heq⟩ := Option.bind_eq_some_iff.mp hu
  rw [← Option.some.inj heq]
  exact kfree_outside fuel _ p ps addr r hh (by omega) hr x hx

theorem store_within (fuel : Nat) (w : World) (pages : List Page) (addr : Nat) (byte : BitVec 8)
    (hw : HeapInv w pages) (hlegal : Legal fuel w (.store addr byte)) (w' : World)
    (hstep : step fuel w (.store addr byte) = some w') : Within fuel w (.store addr byte) w' := by
  obtain rfl := Option.some.inj hstep
  refine ⟨?_, Or.inl rfl⟩
  intro x hx
  obtain ⟨b, hb, hlo, hhi⟩ := hlegal
  obtain ⟨r, hr, h1, h2⟩ := InSegment.region hw.holds b (hw.live b hb)
  have := hx r hr
  exact Function.update_of_ne (by omega) _ _

theorem step_within (fuel : Nat) (w w' : World) (pages : List Page) (e : Event) (hw : HeapInv w pages)
    (hlegal : Legal fuel w e) (hfuel : weight pages + 5 ≤ fuel) (hstep : step fuel w e = some w') :
    Within fuel w e w' := by
  cases e with
  | kmalloc size => exact kmalloc_within fuel w w' pages size hw hlegal hfuel hstep
  | kfree addr => exact kfree_within fuel w w' pages addr hw hlegal hfuel hstep
  | store addr byte => exact store_within fuel w pages addr byte hw hlegal w' hstep

theorem HeapInv.other_writes {w : World} {pages : List Page} (hw : HeapInv w pages) (m : Mem)
    (hm : ∀ x, m x ≠ w.h.mem x → OutsideOf w.h.regions x) :
    HeapInv ⟨{ w.h with mem := m }, w.live⟩ pages := by
  refine ⟨⟨hw.holds.head, ?_, hw.holds.regions, hw.holds.apart⟩, hw.live, hw.distinct⟩
  apply hw.holds.rep.congr
  intro p hp x h1 h2
  by_contra hne
  have := (hm x hne).page hw.holds.regions p hp
  omega

end SlayerOS.Heap
