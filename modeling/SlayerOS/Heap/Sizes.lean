import SlayerOS.Heap.Safety

/-!
# Requests of any size

The free size of a page is a `u32`, so the page of a request of 2^32 bytes or more has a
segment that is too small for it. Such a request adds page after page, unless a segment
that is there already serves it.
-/

open SlayerOS.Bytes SlayerOS.Frames SlayerOS.Run

namespace SlayerOS.Heap

/-! ## More fuel -/

theorem kmalloc_mono (fuel : Nat) (h : State) (size : Nat) (c : Nat × State)
    (hc : kmalloc fuel h size = some c) : kmalloc (fuel + 1) h size = some c := by
  induction fuel generalizing h with
  | zero => simp [kmalloc] at hc
  | succ fuel ih =>
    rw [kmalloc] at hc ⊢
    cases hs : search (ensure_heap h size).mem size fuel (ensure_heap h size).heap with
    | none => simp [hs] at hc
    | some r =>
      simp only [hs] at hc
      simp only [search_mono _ _ _ _ _ hs]
      cases r with
      | found page segment => exact hc
      | last page => exact ih _ hc

theorem kmalloc_le (n k : Nat) (h : State) (size : Nat) (c : Nat × State) (hle : n ≤ k)
    (hc : kmalloc n h size = some c) : kmalloc k h size = some c :=
  fuel_le (fun fuel => kmalloc fuel h size) (fun fuel c => kmalloc_mono fuel h size c) n k c hle hc

theorem kmalloc_agree (n k : Nat) (h : State) (size : Nat) (c d : Nat × State)
    (hc : kmalloc n h size = some c) (hd : kmalloc k h size = some d) : c = d :=
  fuel_agree (fun fuel => kmalloc fuel h size) (fun fuel c => kmalloc_mono fuel h size c) n k c d hc hd

/-! ## The calls of `Mem::Frame::allocs` -/

theorem alloc_segment_regions (h : State) (page segment size : Nat) :
    (alloc_segment h page segment size).2.regions = h.regions := by
  unfold alloc_segment split_segment
  simp only [set_page_free_size, set_segment_addr, set_segment_size, set_segment_free, set_segment_next,
    put_regions]
  split <;> rfl

theorem ensure_heap_regions (h : State) (size : Nat) : h.regions <+: (ensure_heap h size).regions := by
  unfold ensure_heap
  split
  · rw [create_heap_page_regions]
    exact List.prefix_append _ _
  · exact List.prefix_refl _

theorem kmalloc_regions (fuel : Nat) (h : State) (size : Nat) (c : Nat × State)
    (hc : kmalloc fuel h size = some c) : (ensure_heap h size).regions <+: c.2.regions := by
  induction fuel generalizing h with
  | zero => simp [kmalloc] at hc
  | succ fuel ih =>
    rw [kmalloc] at hc
    cases hs : search (ensure_heap h size).mem size fuel (ensure_heap h size).heap with
    | none => simp [hs] at hc
    | some r =>
      simp only [hs] at hc
      cases r with
      | found page segment =>
        have hsame : c.2.regions = (ensure_heap h size).regions := by
          rw [← Option.some.inj hc, alloc_segment_regions]
        exact hsame ▸ List.prefix_refl _
      | last page =>
        refine List.IsPrefix.trans ?_ (ih _ hc)
        refine List.IsPrefix.trans ?_ (ensure_heap_regions _ size)
        rw [set_page_next, put_regions, create_heap_page_regions]
        exact List.prefix_append _ _

theorem grown_regions (h : State) (pages : List Page) (size : Nat) (hc : Chain h pages) :
    (grown h pages size).regions = h.regions ++ [(grownPage h size).region] := by
  unfold grown
  cases hlast : pages.getLast? with
  | none =>
    have hheap : h.heap = 0 := by
      rw [hc.head, List.getLast?_eq_none_iff.mp hlast]
      rfl
    simp only [ensure_heap, if_pos hheap]
    exact create_heap_page_regions h size
  | some last =>
    simp only [set_page_next, put_regions]
    exact create_heap_page_regions h size

theorem kmalloc_asks (fuel : Nat) (h : State) (pages : List Page) (size : Nat) (c : Nat × State)
    (hchain : Chain h pages) (hno : NoFit size pages) (hc : kmalloc fuel h size = some c) :
    h.regions ++ [(grownPage h size).region] <+: c.2.regions := by
  rw [← grown_regions h pages size hchain]
  by_cases hne : pages = []
  · subst hne
    exact kmalloc_regions fuel h size c hc
  · have hbig := kmalloc_le fuel (fuel + weight pages + 1 + 1) h size c (by omega) hc
    obtain ⟨last, hlast, hs⟩ := search_last (fuel + weight pages + 1) h pages size hchain hne hno (by omega)
    rw [kmalloc_next _ h pages size last (hchain.heap_ne hne) hlast hs] at hbig
    exact (ensure_heap_regions _ size).trans (kmalloc_regions _ _ size c hbig)

/-! ## Requests that end nowhere -/

theorem noFit_grown (h : State) (pages : List Page) (size : Nat) (hno : NoFit size pages)
    (hbig : 2 ^ 32 ≤ size) : NoFit size (pages ++ [grownPage h size]) := by
  intro p hp a g hfit
  rcases List.mem_append.mp hp with hp | hp
  · exact hno p hp a g hfit
  · rw [List.mem_singleton.mp hp] at hfit
    obtain ⟨hag, -, hsize⟩ := hfit
    rw [((mem_grownPage h size a g).mp hag).2] at hsize
    simp only at hsize
    omega

/-- The induction is on the pages that the call still adds: each of them is too small, so
there is always one more. -/
theorem kmalloc_hopeless (k fuel : Nat) (h : State) (pages : List Page) (size : Nat) (c : Nat × State)
    (hchain : Chain h pages) (hno : NoFit size pages) (hbig : 2 ^ 32 ≤ size)
    (hc : kmalloc fuel h size = some c) (hk : c.2.regions.length ≤ h.regions.length + k) :
    ¬ FreshLog c.2.regions := by
  induction k generalizing fuel h pages with
  | zero =>
    have := (kmalloc_asks fuel h pages size c hchain hno hc).length_le
    simp at this
    omega
  | succ k ih =>
    intro hlog
    have hg := chain_grown h pages size hchain (hlog.mono (kmalloc_asks fuel h pages size c hchain hno hc))
    obtain ⟨n, -, hn⟩ :=
      kmalloc_of_grown (fuel + weight pages + 1) h pages size hchain hno hg (by omega)
    have hmore := kmalloc_le fuel (fuel + weight pages + 1 + 1) h size c (by omega) hc
    rw [hn] at hmore
    refine ih n (grown h pages size) _ hg.chain (noFit_grown h pages size hno hbig) hmore ?_ hlog
    rw [grown_regions h pages size hchain, List.length_append, List.length_singleton]
    omega

/-! ## The requests that are served -/

/-- The call ends, adds at most one page, and returns a block of `size` bytes inside the
frames of a page. -/
def Serves (h : State) (size : Nat) : Prop :=
  ∃ fuel q h', kmalloc fuel h size = some (q, h') ∧ h'.regions.length ≤ h.regions.length + 1 ∧
    ∃ r ∈ h'.regions, r.1 ≤ q ∧ q + size ≤ r.1 + r.2 * FRAME_SIZE

theorem Allocated.serves {h : State} {pages old pages' : List Page} {size fuel : Nat} {c : Nat × State}
    (hall : Allocated h pages old pages' size c) (hh : Holds h pages)
    (hold : old = pages ∨ old = pages ++ [newPage h size]) (hc : kmalloc fuel h size = some c) :
    Serves h size := by
  obtain ⟨p, hp, a, g, hag, hq, -, hsize⟩ := hall.served.new
  have hpl := hall.holds.placed p hp a g hag
  simp only [segment_bytes] at hq hsize
  refine ⟨fuel, c.1, c.2, hc, ?_, p.region, ?_, ?_⟩
  · rw [hall.holds.regions, hh.regions, List.length_map, List.length_map, hall.served.length]
    rcases hold with rfl | rfl <;> simp
  · rw [hall.holds.regions]
    exact List.mem_map_of_mem hp
  · unfold Page.region
    simp only
    omega

theorem serves_of_fit (h : State) (pages : List Page) (size : Nat) (hh : Holds h pages)
    (hfit : ¬ NoFit size pages) : Serves h size := by
  obtain ⟨p, a, g, hp, hpf, -, hc⟩ := kmalloc_found (weight pages + 1) h pages size hh.chain (by omega) hfit
  obtain ⟨pages', hall, hold⟩ := (Ready.same hfit).allocated hh p a g hp hpf
  exact hall.serves hh hold hc

theorem serves_small (h : State) (pages : List Page) (size : Nat) (hh : Holds h pages) (hsize : size < 2 ^ 32)
    (hfresh : ∀ fuel, NeedsPage fuel h size → FreshRegion h (max 1 (num_pages size))) : Serves h size := by
  rw [num_pages_pos size hsize] at hfresh
  obtain ⟨c, old, pages', hc, hall, hold⟩ :=
    kmalloc_spec (weight pages + 5) h pages size hh hsize (hfresh _) (le_refl _)
  exact hall.serves hh hold hc

theorem not_serves_big (h : State) (pages : List Page) (size : Nat) (hh : Holds h pages) (hbig : 2 ^ 32 ≤ size)
    (hno : NoFit size pages) (hfresh : FreshRegion h (max 1 (num_pages size))) : ¬ Serves h size := by
  rintro ⟨fuel, q, h', hc, hlen, -⟩
  have hasks := kmalloc_asks fuel h pages size _ hh.chain hno hc
  refine kmalloc_hopeless 1 fuel h pages size _ hh.chain hno hbig hc hlen ?_
  rw [← hasks.eq_of_length_le (by simpa using hlen)]
  exact (hh.fresh_answer size).mpr hfresh

/-- Where frames are fresh, `kmalloc` serves a request if and only if it is below 2^32 bytes or
a free segment is large enough already. -/
theorem serves_iff (h : State) (pages : List Page) (size : Nat) (hh : Holds h pages)
    (hfresh : ∀ fuel, NeedsPage fuel h size → FreshRegion h (max 1 (num_pages size))) :
    Serves h size ↔ size < 2 ^ 32 ∨ ∃ p ∈ pages, ∃ a g, Fits size p a g := by
  have hfit : (∃ p ∈ pages, ∃ a g, Fits size p a g) ↔ ¬ NoFit size pages := by simp [NoFit]
  rw [hfit]
  constructor
  · intro hs
    by_contra hcon
    rw [not_or, not_not, Nat.not_lt] at hcon
    refine not_serves_big h pages size hh hcon.1 hcon.2 (hfresh (weight pages + 1) ?_) hs
    exact needsPage_of_noFit _ h pages size hh.chain hcon.2 (by omega)
  · rintro (hsmall | hfits)
    · exact serves_small h pages size hh hsmall hfresh
    · exact serves_of_fit h pages size hh hfits

theorem serves_iff_first_request :
    Serves spacedBoot.h 100 ↔ 100 < 2 ^ 32 ∨ ∃ p ∈ ([] : List Page), ∃ a g, Fits 100 p a g :=
  serves_iff spacedBoot.h [] 100 (boot_inv _ _).holds fun _ _ =>
    ⟨⟨by decide, by decide, by decide⟩, by decide⟩

/-- On an empty heap, a request of 2^32 bytes adds a page whose segment has no bytes, and then
a second page like it. -/
theorem four_gib_not_served :
    ¬ ∀ (h : State) (pages : List Page) (size : Nat), Holds h pages → size < 2 ^ 64 →
      FreshLog (h.regions ++ (List.range 2).map fun i => (h.allocs (h.regions.length + i), num_pages size)) →
      Serves h size := by
  intro hall
  let h := (boot (fun _ => 0) fun i => 2 ^ 40 + i * 2 ^ 40).h
  have hh : Holds h [] := (boot_inv _ _).holds
  refine not_serves_big h [] (2 ^ 32) hh (le_refl _) (fun p hp => by simp at hp) ?_ (hall h [] (2 ^ 32) hh ?_ ?_)
  · exact ⟨⟨by decide, by decide, by decide⟩, by decide⟩
  · decide
  · refine ⟨?_, by decide⟩
    intro r hr
    have hcases : r = (2 ^ 40, num_pages (2 ^ 32)) ∨ r = (2 ^ 41, num_pages (2 ^ 32)) := by
      simpa [h, boot, List.range_succ] using hr
    rcases hcases with rfl | rfl
    · exact ⟨by decide, by decide, by decide⟩
    · exact ⟨by decide, by decide, by decide⟩

end SlayerOS.Heap
