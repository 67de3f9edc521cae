import Mathlib.Data.List.Chain
import SlayerOS.Heap.Accounts
import SlayerOS.Heap.Refuse

/-!
# Freed segments and their neighbours

`kfree` joins a segment with the free one behind it, and never with the one in front.
So what becomes of a page depends on the order in which its blocks are freed.
-/

open SlayerOS.Bytes SlayerOS.Frames SlayerOS.Run

namespace SlayerOS.Heap

/-- No two free segments are neighbours. -/
def Coalesced (gs : List Seg) : Prop := gs.IsChain fun g k => ¬ (g.free = true ∧ k.free = true)

/-- The heap is one page with one free segment. -/
def Whole (h : State) (size : Nat) : Prop := ∃ base count, Holds h [⟨base, count, [⟨size, true⟩]⟩]

/-- The step ends, and no page has two free neighbours behind it. -/
def CoalescedStep (fuel : Nat) (w : World) (e : Event) : Prop :=
  ∃ w', step fuel w e = some w' ∧ ∃ pages, Holds w'.h pages ∧ ∀ p ∈ pages, Coalesced p.segs

/-- What clients promise that free only blocks of their own. A request from 2^32 bytes on never
ends. -/
def LegalOwn (fuel : Nat) (w : World) : Event → Prop
  | .kmalloc size => size < 2 ^ 32 ∧ (NeedsPage fuel w.h size → FreshRegion w.h (num_pages size))
  | .kfree addr => ∃ b ∈ w.live, b.1 = addr
  | .store addr _ => ∃ b ∈ w.live, b.1 ≤ addr ∧ addr < b.1 + b.2

/-- The same, while the heap has one page. -/
def LegalSingle (fuel : Nat) (w : World) (e : Event) : Prop :=
  LegalOwn fuel w e ∧ ∀ w', step fuel w e = some w' → w'.h.regions.length ≤ 1

/-- No block is freed right behind a free segment. -/
def BehindUsed (w : World) : Event → Prop
  | .kfree addr => ∀ pages, Holds w.h pages → ∀ p ∈ pages, ∀ a g, (a, g) ∈ p.placed → g.free = true →
      a + SEGMENT + g.size + SEGMENT ≠ addr
  | _ => True

/-- A request for `size` bytes ends, and asks for no frames. -/
def ServedInPlace (h : State) (size : Nat) : Prop :=
  ∃ fuel c, kmalloc fuel h size = some c ∧ c.2.regions = h.regions

/-! ## Lists of segments -/

theorem Coalesced.carve {pre post : List Seg} {g : Seg} (hc : Coalesced (pre ++ [g] ++ post)) (hg : g.free = true)
    (size : Nat) : Coalesced (pre ++ Heap.carve g size ++ post) := by
  unfold Coalesced at hc ⊢
  rw [List.append_assoc, List.isChain_append, List.singleton_append, List.isChain_cons] at hc
  obtain ⟨hpre, ⟨hpost, htail⟩, -⟩ := hc
  have hnext : ∀ k ∈ post.head?, k.free = false := by
    intro k hk
    simpa [hg] using hpost k hk
  unfold Heap.carve
  split
  · -- The rest of the segment stands where the segment stood, behind a used one.
    rw [List.append_assoc, List.isChain_append]
    refine ⟨hpre, ?_, ?_⟩
    · simp only [List.cons_append, List.nil_append, List.isChain_cons]
      refine ⟨by simp, ?_, htail⟩
      intro k hk
      simp [hnext k hk]
    · intro x _ y hy
      obtain rfl : _ = y := Option.some.inj hy
      simp
  · rw [List.append_assoc, List.isChain_append, List.singleton_append, List.isChain_cons]
    refine ⟨hpre, ⟨by simp, htail⟩, ?_⟩
    intro x _ y hy
    obtain rfl : _ = y := Option.some.inj hy
    simp

theorem joined_head (g : Seg) (post : List Seg) : ∃ k ks, joined g post = k :: ks ∧ k.free = true := by
  cases post with
  | nil => exact ⟨_, _, rfl, rfl⟩
  | cons x xs =>
    rw [joined]
    split
    · exact ⟨_, _, rfl, rfl⟩
    · exact ⟨_, _, rfl, rfl⟩

theorem coalesced_behind (g : Seg) (post : List Seg) (hc : Coalesced post) : Coalesced (joined g post) := by
  unfold Coalesced at hc ⊢
  cases post with
  | nil => exact List.isChain_singleton _
  | cons x xs =>
    rw [List.isChain_cons] at hc
    rw [joined]
    split
    · rename_i hx
      rw [List.isChain_cons]
      refine ⟨?_, hc.2⟩
      intro k hk
      simpa [hx] using hc.1 k hk
    · rename_i hx
      rw [List.isChain_cons_cons, List.isChain_cons]
      exact ⟨by simp [hx], hc⟩

/-- Freeing a segment makes two free neighbours exactly when the one in front is free. -/
theorem coalesced_joined (pre post : List Seg) (g : Seg) (hc : Coalesced (pre ++ [g] ++ post)) :
    Coalesced (pre ++ joined g post) ↔ ∀ k ∈ pre.getLast?, k.free = false := by
  have hall := hc
  unfold Coalesced at hall
  rw [List.append_assoc, List.isChain_append, List.singleton_append, List.isChain_cons] at hall
  obtain ⟨hpre, ⟨-, hpost⟩, -⟩ := hall
  obtain ⟨l, ls, hl, hfree⟩ := joined_head g post
  have hbehind := coalesced_behind g post hpost
  unfold Coalesced at hbehind ⊢
  rw [List.isChain_append]
  constructor
  · rintro ⟨-, -, hlast⟩ k hk
    have := hlast k hk l (by rw [hl]; rfl)
    simpa [hfree] using this
  · intro hlast
    refine ⟨hpre, hbehind, ?_⟩
    intro k hk y _
    simp [hlast k hk]

theorem Coalesced.one {gs : List Seg} (hc : Coalesced gs) (hne : gs ≠ []) (hall : ∀ g ∈ gs, g.free = true) :
    ∃ size, gs = [⟨size, true⟩] := by
  cases gs with
  | nil => exact absurd rfl hne
  | cons g gs =>
    cases gs with
    | nil =>
      refine ⟨g.size, ?_⟩
      rw [← hall g (by simp)]
    | cons k ks =>
      unfold Coalesced at hc
      rw [List.isChain_cons_cons] at hc
      exact absurd ⟨hall g (by simp), hall k (by simp)⟩ hc.1

theorem placed_end (s : Nat) (pre : List Seg) (a : Nat) (g : Seg) (h : (a, g) ∈ placed s pre)
    (hend : a + SEGMENT + g.size = s + span pre) : pre.getLast? = some g := by
  obtain ⟨xs, ys, rfl, rfl⟩ := (mem_placed_iff s pre a g).mp h
  rw [span_append, span_cons] at hend
  cases ys with
  | nil => simp
  | cons y ys =>
    rw [span_cons, segment_bytes] at hend
    omega

theorem placed_last (s : Nat) (pre : List Seg) (g : Seg) (h : pre.getLast? = some g) :
    ∃ a, (a, g) ∈ placed s pre ∧ a + SEGMENT + g.size = s + span pre := by
  obtain ⟨xs, rfl⟩ := List.getLast?_eq_some_iff.mp h
  refine ⟨s + span xs, (mem_placed_iff _ _ _ _).mpr ⟨xs, [], rfl, rfl⟩, ?_⟩
  rw [span_append, span_cons, span_nil]
  omega

/-! ## One page -/

/-- The heap is the page `p`, whose segments take `total` bytes, and every used segment is a
live block. -/
structure Single (w : World) (total : Nat) (p : Page) : Prop where
  inv : HeapInv w [p]
  owned : Owned w [p]
  total : span p.segs = total

theorem Single.holds {w : World} {total : Nat} {p : Page} (hs : Single w total p) :
    Holds { w.h with written := [] } [p] :=
  ⟨hs.inv.holds.head, hs.inv.holds.rep, hs.inv.holds.regions, hs.inv.holds.apart⟩

theorem Single.all_free {w : World} {total : Nat} {p : Page} (hs : Single w total p) (hlive : w.live = []) :
    ∀ g ∈ p.segs, g.free = true := by
  intro g hg
  obtain ⟨pre, post, hsegs⟩ := List.append_of_mem hg
  by_contra hused
  have hag : (p.base + PAGE + span pre, g) ∈ p.placed := by
    refine (p.mem_placed _ g).mpr ⟨pre, post, ?_, rfl⟩
    rw [hsegs, List.append_assoc, List.singleton_append]
  obtain ⟨b, hb, -⟩ := hs.owned p (by simp) _ g hag (by simpa using hused)
  rw [hlive] at hb
  simp at hb

theorem Single.whole {w : World} {size : Nat} {p : Page} (hs : Single w (SEGMENT + size) p) (hlive : w.live = [])
    (hc : Coalesced p.segs) : Whole w.h size := by
  obtain ⟨k, hk⟩ := hc.one (hs.inv.holds.rep.1.segs) (hs.all_free hlive)
  have htotal := hs.total
  rw [hk] at htotal
  simp only [span_cons, span_nil] at htotal
  obtain rfl : k = size := by omega
  refine ⟨p.base, p.count, ?_⟩
  rw [← hk]
  exact hs.inv.holds

theorem Whole.served {h : State} {size : Nat} (hw : Whole h size) : ServedInPlace h size := by
  obtain ⟨base, count, hh⟩ := hw
  have hfit : ¬ NoFit size [⟨base, count, [⟨size, true⟩]⟩] := fun hno =>
    hno _ (List.mem_singleton_self _) (base + PAGE) ⟨size, true⟩ ⟨List.mem_cons_self, rfl, le_refl _⟩
  obtain ⟨p, a, g, -, -, -, hk⟩ := kmalloc_found _ h _ size hh.chain (Nat.lt_succ_self _) hfit
  exact ⟨_, _, hk, alloc_segment_regions h p.base a size⟩

/-! ## Steps -/

/-- What one step does to the page: it stays the only one, and free neighbours appear
exactly when a block is freed behind a free segment. -/
def SingleStep (fuel : Nat) (w : World) (e : Event) (total : Nat) (p : Page) : Prop :=
  ∃ w' p', step fuel w e = some w' ∧ Single w' total p' ∧ weight [p'] ≤ weight [p] + 3 ∧
    (Coalesced p.segs → (Coalesced p'.segs ↔ BehindUsed w e))

theorem single_kmalloc (fuel : Nat) (w : World) (total : Nat) (p : Page) (size : Nat) (hs : Single w total p)
    (hlegal : LegalSingle fuel w (.kmalloc size)) (hfuel : weight [p] + 5 ≤ fuel) :
    SingleStep fuel w (.kmalloc size) total p := by
  obtain ⟨⟨hsize, hfresh⟩, hone⟩ := hlegal
  obtain ⟨c, old, pages', hc, hall, hold⟩ := kmalloc_spec fuel _ [p] size hs.holds hsize
    (fun hn => ⟨(hfresh hn).ok, (hfresh hn).apart⟩) hfuel
  have hstep : step fuel w (.kmalloc size) = some ⟨c.2, (c.1, size) :: w.live⟩ := by
    rw [step, hc]
    rfl
  have hlen := hone _ hstep
  rw [hall.holds.regions, List.length_map, hall.served.length] at hlen
  -- A second page would be a second region.
  obtain rfl : old = [p] := by
    rcases hold with rfl | rfl
    · rfl
    · simp at hlen
  have hinv := hall.inv hs.inv (Or.inl rfl)
  have howned := owned_kmalloc hs.owned hall (Or.inl rfl)
  have hweight := hall.served.weight
  obtain ⟨ps, q, qs, pre, g, post, hpq, hsegs, hgfree, -, rfl, -⟩ := hall.served
  obtain ⟨rfl, rfl, rfl⟩ : ps = [] ∧ q = p ∧ qs = [] := by
    cases ps with
    | nil => simpa [eq_comm] using hpq
    | cons x xs => simp at hpq
  refine ⟨_, q.serve pre g size post, hstep, ⟨hinv, howned, ?_⟩, ?_, ?_⟩
  · rw [← hs.total, hsegs]
    simp only [Page.serve, span_append, span_carve]
  · rw [List.nil_append] at hweight
    omega
  · intro hco
    rw [hsegs] at hco
    exact iff_of_true (hco.carve hgfree size) trivial

theorem behindUsed_iff (w : World) (p : Page) (pre post : List Seg) (g : Seg) (hh : Holds w.h [p])
    (hsegs : p.segs = pre ++ [g] ++ post) :
    BehindUsed w (.kfree (p.base + PAGE + span pre + SEGMENT)) ↔ ∀ k ∈ pre.getLast?, k.free = false := by
  constructor
  · intro hb k hk
    obtain ⟨a, hak, hend⟩ := placed_last (p.base + PAGE) pre k hk
    by_contra hfree
    refine hb [p] hh p (by simp) a k ((mem_middle p pre post g hsegs a k).mpr (Or.inl hak)) ?_ (by omega)
    simpa using hfree
  · intro hlast pages hpages q hq a k hak hfree hend
    obtain rfl := hh.unique hpages
    obtain rfl := List.mem_singleton.mp hq
    rcases (mem_middle q pre post g hsegs a k).mp hak with hak | ⟨rfl, rfl⟩ | hak
    · have hk := placed_end _ pre a k hak (by omega)
      rw [hlast k hk] at hfree
      exact absurd hfree (by decide)
    · rw [segment_bytes] at hend
      omega
    · have := placed_lo _ _ _ _ hak
      rw [segment_bytes] at hend this
      omega

theorem single_kfree (fuel : Nat) (w : World) (total : Nat) (p : Page) (addr : Nat) (hs : Single w total p)
    (hlegal : LegalSingle fuel w (.kfree addr)) (hfuel : weight [p] + 5 ≤ fuel) :
    SingleStep fuel w (.kfree addr) total p := by
  obtain ⟨b, hb, hba⟩ := hlegal.1
  obtain ⟨q, hq, d, k, hdk, hb1, hk, -⟩ := hs.inv.live b hb
  obtain rfl := List.mem_singleton.mp hq
  rcases kfree_spec fuel _ q [] addr hs.holds (by omega) with ⟨c, pre, g, post, hc, hrel⟩ | ⟨hno, -⟩
  · have hstep : step fuel w (.kfree addr) = some ⟨c, w.live.filter fun b => b.1 != addr⟩ := by
      rw [step, hc]
      rfl
    have hinv : HeapInv ⟨c, w.live.filter fun b => b.1 != addr⟩ [q.release pre g post] := hrel.inv hs.inv
    have howned := owned_kfree hs.holds hs.owned hrel
    have hsegs := hrel.segs
    refine ⟨_, q.release pre g post, hstep, ⟨hinv, howned, ?_⟩, ?_, ?_⟩
    · rw [← hs.total, hsegs]
      simp only [Page.release, span_append, span_joined, span_cons, span_nil]
      omega
    · have := joined_length g post
      simp only [weight_cons, Page.release, hsegs, List.length_append, List.length_singleton]
      omega
    · intro hco
      rw [hsegs] at hco
      rw [hrel.addr, behindUsed_iff w q pre post g hs.inv.holds hsegs]
      exact coalesced_joined pre post g hco
  · exact absurd (hba.symm.trans hb1) (hno d k hdk)

theorem single_step (fuel : Nat) (w : World) (total : Nat) (p : Page) (e : Event) (hs : Single w total p)
    (hlegal : LegalSingle fuel w e) (hfuel : weight [p] + 5 ≤ fuel) : SingleStep fuel w e total p := by
  cases e with
  | kmalloc size => exact single_kmalloc fuel w total p size hs hlegal hfuel
  | kfree addr => exact single_kfree fuel w total p addr hs hlegal hfuel
  | store addr byte =>
    have hinv := hs.inv.store addr byte hlegal.1
    exact ⟨_, p, rfl, ⟨hinv, hs.owned, hs.total⟩, by omega, fun hco => iff_of_true hco trivial⟩

/-! ## Runs -/

theorem first_page (mem : Mem) (allocs : Nat → Nat) (size fuel : Nat) (hfuel : 5 ≤ fuel)
    (hlegal : LegalOwn fuel (boot mem allocs) (.kmalloc size)) :
    ∃ w p, step fuel (boot mem allocs) (.kmalloc size) = some w ∧ Single w (SEGMENT + firstSize size) p ∧
      weight [p] ≤ 3 ∧ Coalesced p.segs := by
  obtain ⟨hsize, hfresh⟩ := hlegal
  have hinv := boot_inv mem allocs
  have hno : Owned (boot mem allocs) [] := fun p hp => by simp at hp
  obtain ⟨c, old, pages', hc, hall, hold⟩ := kmalloc_spec fuel (boot mem allocs).h [] size hinv.holds hsize
    hfresh hfuel
  have hstep : step fuel (boot mem allocs) (.kmalloc size) = some ⟨c.2, (c.1, size) :: (boot mem allocs).live⟩ := by
    have hsame : { (boot mem allocs).h with written := [] } = (boot mem allocs).h := rfl
    rw [step, hsame, hc]
    rfl
  have hweight := hall.served.weight
  have hinv' := hall.inv hinv hold
  have howned := owned_kmalloc hno hall hold
  obtain ⟨ps, q, qs, pre, g, post, hpq, hsegs, hgfree, -, rfl, -⟩ := hall.served
  rcases hold with rfl | rfl
  · simp at hpq
  · obtain ⟨rfl, rfl, rfl⟩ : ps = [] ∧ q = newPage (boot mem allocs).h size ∧ qs = [] := by
      cases ps with
      | nil => simpa [eq_comm] using hpq
      | cons x xs => simp at hpq
    refine ⟨_, _, hstep, ⟨hinv', howned, ?_⟩, ?_, ?_⟩
    · have htotal : span (newPage (boot mem allocs).h size).segs = SEGMENT + firstSize size := by
        simp only [newPage, span_cons, span_nil, Nat.add_zero]
      rw [← htotal, hsegs]
      simp only [Page.serve, span_append, span_carve]
    · simpa [newPage, weight] using hweight
    · refine Coalesced.carve ?_ hgfree size
      rw [← hsegs]
      exact List.isChain_singleton _

theorem run_single (mem : Mem) (allocs : Nat → Nat) (size : Nat) (es : List Event) (fuel : Nat)
    (hfuel : 3 * (es.length + 1) + 5 ≤ fuel)
    (hes : Along (step fuel) (LegalSingle fuel) (boot mem allocs) (.kmalloc size :: es)) :
    ∃ w p, run (step fuel) (boot mem allocs) (.kmalloc size :: es) = some w ∧
      Single w (SEGMENT + firstSize size) p := by
  obtain ⟨w, p, hw, hs, hweight, -⟩ := first_page mem allocs size fuel (by omega) hes.1.1
  have hcount := run_count (Q := fun _ _ => True)
    (fun n w => ∃ p, Single w (SEGMENT + firstSize size) p ∧ weight [p] ≤ 3 * n) (es.length + 1) ?_ 1 w es
    (by omega) ⟨p, hs, by omega⟩ (hes.2 w hw)
  · obtain ⟨-, w', hw', p', hs', -⟩ := hcount
    exact ⟨w', p', by rw [run_cons, hw, Option.bind_some, hw'], hs'⟩
  · rintro n u e hn ⟨q, hq, hqw⟩ hlegal
    obtain ⟨u', q', hu, hq', hw', -⟩ := single_step fuel u _ q e hq hlegal (by omega)
    exact ⟨trivial, u', hu, q', hq', by omega⟩

theorem run_coalesced_iff (mem : Mem) (allocs : Nat → Nat) (size : Nat) (es : List Event) (fuel : Nat)
    (hfuel : 3 * (es.length + 1) + 5 ≤ fuel)
    (hes : Along (step fuel) (LegalSingle fuel) (boot mem allocs) (.kmalloc size :: es)) :
    Along (step fuel) (CoalescedStep fuel) (boot mem allocs) (.kmalloc size :: es) ↔
      Along (step fuel) BehindUsed (boot mem allocs) (.kmalloc size :: es) := by
  obtain ⟨w, p, hw, hs, hweight, hco⟩ := first_page mem allocs size fuel (by omega) hes.1.1
  have hrest : Along (step fuel) (CoalescedStep fuel) w es ↔ Along (step fuel) BehindUsed w es := by
    refine along_iff_count (fun n w => ∃ p, Single w (SEGMENT + firstSize size) p ∧ weight [p] ≤ 3 * n ∧
      Coalesced p.segs) (es.length + 1) ?_ ?_ 1 w es (by omega) ⟨p, hs, by omega, hco⟩ (hes.2 w hw)
    · rintro n u e hn ⟨q, hq, hqw, hqc⟩ hlegal
      obtain ⟨u', q', hu, hq', -, hiff⟩ := single_step fuel u _ q e hq hlegal (by omega)
      rw [← hiff hqc]
      constructor
      · rintro ⟨v, hv, pages, hpages, hall⟩
        obtain rfl : u' = v := Option.some.inj (hu.symm.trans hv)
        obtain rfl := hq'.inv.holds.unique hpages
        exact hall q' (by simp)
      · intro hc
        exact ⟨u', hu, [q'], hq'.inv.holds, by simpa using hc⟩
    · rintro n u e v hn ⟨q, hq, hqw, hqc⟩ hlegal ⟨v', hv', pages, hpages, hall⟩ hv
      obtain ⟨u', q', hu, hq', hw', -⟩ := single_step fuel u _ q e hq hlegal (by omega)
      obtain rfl : u' = v := Option.some.inj (hu.symm.trans hv)
      obtain rfl : u' = v' := Option.some.inj (hu.symm.trans hv')
      obtain rfl := hq'.inv.holds.unique hpages
      exact ⟨q', hq', by omega, hall q' (by simp)⟩
  constructor
  · intro h
    exact along_cons _ w _ _ trivial hw (hrest.mp (h.2 w hw))
  · intro h
    exact along_cons _ w _ _ ⟨w, hw, [p], hs.inv.holds, by simpa using hco⟩ hw (hrest.mpr (h.2 w hw))

/-- In every run on one page, free neighbours never appear if and only if no block is freed
right behind a free segment. In such a run the page is whole again whenever no block is
live, and serves a request of its first size. -/
theorem run_heals_iff (mem : Mem) (allocs : Nat → Nat) (size : Nat) (es : List Event) (fuel : Nat)
    (hfuel : 3 * (es.length + 1) + 5 ≤ fuel)
    (hes : Along (step fuel) (LegalSingle fuel) (boot mem allocs) (.kmalloc size :: es)) :
    (Along (step fuel) (CoalescedStep fuel) (boot mem allocs) (.kmalloc size :: es) ↔
      Along (step fuel) BehindUsed (boot mem allocs) (.kmalloc size :: es)) ∧
    (Along (step fuel) BehindUsed (boot mem allocs) (.kmalloc size :: es) →
      ∀ w, run (step fuel) (boot mem allocs) (.kmalloc size :: es) = some w → w.live = [] →
        Whole w.h (firstSize size) ∧ ServedInPlace w.h (firstSize size)) := by
  have hiff := run_coalesced_iff mem allocs size es fuel hfuel hes
  refine ⟨hiff, ?_⟩
  intro hbehind w hw hlive
  obtain ⟨u, p, hu, hs⟩ := run_single mem allocs size es fuel hfuel hes
  obtain rfl : u = w := Option.some.inj (hu.symm.trans hw)
  obtain ⟨pages, hpages, hall⟩ := Along.end (boot mem allocs) u _
    ⟨[], (boot_inv mem allocs).holds, fun p hp => by simp at hp⟩ (hiff.mpr hbehind) hw
  obtain rfl := hs.inv.holds.unique hpages
  have hwhole := hs.whole hlive (hall p (by simp))
  exact ⟨hwhole, hwhole.served⟩

/-- Two blocks next to each other, freed in the order of their addresses. -/
def inOrder : List Event := [.kmalloc 100, .kfree 0x100040, .kfree 0x1000c4]

theorem spacedBoot_inOrder :
    Along (step 20) (LegalSingle 20) spacedBoot (.kmalloc 100 :: inOrder) ∧
    ∃ w, run (step 20) spacedBoot (.kmalloc 100 :: inOrder) = some w ∧ w.live = [] ∧
      (kmalloc 20 w.h 4032).map (fun c => c.2.regions.length) = some 2 := by
  have h1 : (run (step 20) spacedBoot [.kmalloc 100]).map
      (fun w => (w.h.regions, w.h.allocs w.h.regions.length)) = some ([(0x100000, 1)], 0x110000) := by
    decide +kernel
  have h2 : (run (step 20) spacedBoot [.kmalloc 100, .kmalloc 100]).map
      (fun w => (w.live, w.h.regions)) = some ([(0x1000c4, 100), (0x100040, 100)], [(0x100000, 1)]) := by
    decide +kernel
  have h3 : (run (step 20) spacedBoot [.kmalloc 100, .kmalloc 100, .kfree 0x100040]).map
      (fun w => (w.live, w.h.regions)) = some ([(0x1000c4, 100)], [(0x100000, 1)]) := by
    decide +kernel
  have h4 : (run (step 20) spacedBoot (.kmalloc 100 :: inOrder)).map
      (fun w => (w.live, w.h.regions, (kmalloc 20 w.h 4032).map fun c => c.2.regions.length)) =
      some ([], [(0x100000, 1)], some 2) := by
    decide +kernel
  -- The state behind one more event, as the next fact sees it.
  have hnext : ∀ (es : List Event) (e : Event) (w w' : World), run (step 20) spacedBoot es = some w →
      step 20 w e = some w' → run (step 20) spacedBoot (es ++ [e]) = some w' := by
    intro es e w w' hw hw'
    rw [run_snoc, hw, Option.bind_some, hw']
  have hone : Along (step 20) (LegalSingle 20) spacedBoot [.kmalloc 100] := by
    refine ⟨⟨⟨by decide, spacedBoot_live.1.2⟩, ?_⟩, fun _ _ => trivial⟩
    intro w hw
    have heq := run_seen h1 (hnext [] _ _ w rfl hw)
    rw [(Prod.mk.inj heq).1]
    decide
  have htwo : Along (step 20) (LegalSingle 20) spacedBoot [.kmalloc 100, .kmalloc 100] := by
    refine (along_snoc spacedBoot [Event.kmalloc 100] _).mpr ⟨hone, ?_⟩
    intro w hw
    have heq := run_seen h1 hw
    obtain ⟨hregions, hallocs⟩ := Prod.mk.inj heq
    refine ⟨⟨by decide, fun _ => ⟨?_, ?_⟩⟩, ?_⟩
    · rw [hallocs]
      exact ⟨by decide, by decide, by decide⟩
    · rw [hallocs, hregions]
      decide
    · intro w' hw'
      have heq' := run_seen h2 (hnext [.kmalloc 100] _ w w' hw hw')
      rw [(Prod.mk.inj heq').2]
      decide
  have hthree : Along (step 20) (LegalSingle 20) spacedBoot [.kmalloc 100, .kmalloc 100, .kfree 0x100040] := by
    refine (along_snoc spacedBoot [Event.kmalloc 100, .kmalloc 100] _).mpr ⟨htwo, ?_⟩
    intro w hw
    have heq := run_seen h2 hw
    obtain ⟨hlive, -⟩ := Prod.mk.inj heq
    refine ⟨⟨(0x100040, 100), by rw [hlive]; decide, rfl⟩, ?_⟩
    intro w' hw'
    have heq' := run_seen h3 (hnext [.kmalloc 100, .kmalloc 100] _ w w' hw hw')
    rw [(Prod.mk.inj heq').2]
    decide
  refine ⟨?_, ?_⟩
  · refine (along_snoc spacedBoot [Event.kmalloc 100, .kmalloc 100, .kfree 0x100040] _).mpr ⟨hthree, ?_⟩
    intro w hw
    have heq := run_seen h3 hw
    obtain ⟨hlive, -⟩ := Prod.mk.inj heq
    refine ⟨⟨(0x1000c4, 100), by rw [hlive]; decide, rfl⟩, ?_⟩
    intro w' hw'
    have heq' := run_seen h4 (hnext [.kmalloc 100, .kmalloc 100, .kfree 0x100040] _ w w' hw hw')
    rw [(Prod.mk.inj (Prod.mk.inj heq').2).1]
    decide
  · obtain ⟨w, hw, heq⟩ := Option.map_eq_some_iff.mp h4
    rw [Prod.mk.injEq, Prod.mk.injEq] at heq
    exact ⟨w, hw, heq.1, heq.2.2⟩

theorem run_heals_iff_in_order :
    (Along (step 20) (CoalescedStep 20) spacedBoot (.kmalloc 100 :: inOrder) ↔
      Along (step 20) BehindUsed spacedBoot (.kmalloc 100 :: inOrder)) ∧
    (Along (step 20) BehindUsed spacedBoot (.kmalloc 100 :: inOrder) →
      ∀ w, run (step 20) spacedBoot (.kmalloc 100 :: inOrder) = some w → w.live = [] →
        Whole w.h (firstSize 100) ∧ ServedInPlace w.h (firstSize 100)) :=
  run_heals_iff _ _ 100 inOrder 20 (by decide) spacedBoot_inOrder.1

/-- The first block is not joined with the second one, and the next long request takes a
new page. -/
theorem freed_in_order_fragments :
    ¬ ∀ (mem : Mem) (allocs : Nat → Nat) (size : Nat) (es : List Event) (fuel : Nat) (w : World),
      3 * (es.length + 1) + 5 ≤ fuel →
      Along (step fuel) (LegalSingle fuel) (boot mem allocs) (.kmalloc size :: es) →
      run (step fuel) (boot mem allocs) (.kmalloc size :: es) = some w → w.live = [] →
      Whole w.h (firstSize size) ∧ ServedInPlace w.h (firstSize size) := by
  intro hall
  obtain ⟨hlegal, w, hw, hlive, htwo⟩ := spacedBoot_inOrder
  obtain ⟨⟨base, count, hh⟩, fuel, c, hc, hregions⟩ := hall _ _ 100 inOrder 20 w (by decide) hlegal hw hlive
  rw [show firstSize 100 = 4032 by decide] at hc
  obtain ⟨d, hd, hlen⟩ := Option.map_eq_some_iff.mp htwo
  rw [kmalloc_agree _ _ _ _ d c hd hc, hregions, hh.regions] at hlen
  simp at hlen

end SlayerOS.Heap
