import SlayerOS.Heap.Sizes

/-!
# `kfree` of what is no block

`kfree` compares addresses and does not look at the flag. So it takes a freed block back
once more, as long as no merge has swallowed the segment.
-/

open SlayerOS.Bytes SlayerOS.Frames SlayerOS.Run

namespace SlayerOS.Heap

/-- `page->first` is read before `page` is tested, so without a page the call does not come
back. -/
def kfree_entry (fuel : Nat) (h : State) (addr : Nat) : Option (Bool × State) :=
  if h.heap = 0 then none else kfree fuel h addr

/-- `kfree` returns false and leaves memory as it was. -/
def Refuses (h : State) (addr : Nat) : Prop :=
  ∃ fuel h', kfree_entry fuel h addr = some (false, h') ∧ h'.heap = h.heap ∧ h'.mem = h.mem

/-- The data of a free segment of the first page starts at the address. -/
def StartsFree (h : State) (addr : Nat) : Prop :=
  ∃ p ps a g, Holds h (p :: ps) ∧ (a, g) ∈ p.placed ∧ g.free = true ∧ addr = a + SEGMENT

/-- What the frame allocator and the clients promise for requests of any size: each answer
that the call gets is fresh. -/
def Granted (fuel : Nat) (w : World) : Event → Prop
  | .kmalloc size => size < 2 ^ 64 ∧
      ∀ c, kmalloc fuel { w.h with written := [] } size = some c → FreshLog c.2.regions
  | .kfree _ => w.h.heap ≠ 0
  | .store addr _ => ∃ b ∈ w.live, b.1 ≤ addr ∧ addr < b.1 + b.2

/-- Every used segment is a live block. -/
def Owned (w : World) (pages : List Page) : Prop :=
  ∀ p ∈ pages, ∀ a g, (a, g) ∈ p.placed → g.free = false → ∃ b ∈ w.live, b.1 = a + SEGMENT

/-! ## More fuel -/

theorem kfree_from_mono (h : State) (addr fuel page segment : Nat) (r : Bool × State)
    (hr : kfree_from h addr fuel page segment = some r) :
    kfree_from h addr (fuel + 1) page segment = some r := by
  induction fuel generalizing page segment with
  | zero => simp [kfree_from] at hr
  | succ fuel ih =>
    rw [kfree_from] at hr ⊢
    by_cases h1 : page = 0
    · rw [if_pos h1] at hr ⊢
      exact hr
    rw [if_neg h1] at hr ⊢
    cases hf : find_addr h.mem addr fuel segment with
    | none => simp [hf] at hr
    | some s =>
      have hf' : find_addr h.mem addr (fuel + 1) segment = some s := walk_mono _ _ _ _ _ hf
      rw [hf] at hr
      rw [hf']
      cases s with
      | zero => exact ih _ _ hr
      | succ s => exact hr

theorem kfree_agree (n k : Nat) (h : State) (addr : Nat) (r q : Bool × State)
    (hr : kfree n h addr = some r) (hq : kfree k h addr = some q) : r = q :=
  fuel_agree (fun fuel => kfree fuel h addr) (fun fuel r => kfree_from_mono h addr fuel _ _ r) n k r q hr hq

/-! ## The used segments -/

theorem carve_used (g : Seg) (size a s : Nat) (k : Seg) (hk : (a, k) ∈ placed s (carve g size))
    (hused : k.free = false) : a = s := by
  unfold carve at hk
  split at hk
  · simp only [placed, List.mem_cons, Prod.mk.injEq, List.not_mem_nil, or_false] at hk
    rcases hk with ⟨rfl, -⟩ | ⟨-, rfl⟩
    · rfl
    · simp at hused
  · simp only [placed, List.mem_singleton, Prod.mk.injEq] at hk
    exact hk.1

theorem serve_used (p : Page) (pre post : List Seg) (g : Seg) (size : Nat)
    (hsegs : p.segs = pre ++ [g] ++ post) (a : Nat) (k : Seg)
    (hak : (a, k) ∈ (p.serve pre g size post).placed) (hk : k.free = false) :
    (a, k) ∈ p.placed ∨ a = p.base + PAGE + span pre := by
  simp only [Page.placed, Page.serve, hsegs, placed_append, span_append, span_carve, List.mem_append] at hak ⊢
  rcases hak with (hak | hak) | hak
  · exact Or.inl (Or.inl (Or.inl hak))
  · exact Or.inr (carve_used g size a _ k hak hk)
  · exact Or.inl (Or.inr hak)

theorem Served.used {pages pages' : List Page} {size q : Nat} (hs : Served pages pages' size q) (p' : Page)
    (hp' : p' ∈ pages') (a : Nat) (k : Seg) (hak : (a, k) ∈ p'.placed) (hk : k.free = false) :
    (∃ p ∈ pages, (a, k) ∈ p.placed) ∨ q = a + SEGMENT := by
  obtain ⟨ps, p, qs, pre, g, post, rfl, hsegs, -, -, rfl, rfl⟩ := hs
  have hcase : p' = p.serve pre g size post ∨ p' ∈ ps ++ p :: qs := by
    simp only [List.mem_append, List.mem_cons] at hp' ⊢
    tauto
  rcases hcase with rfl | hp'
  · rcases serve_used p pre post g size hsegs a k hak hk with hak | rfl
    · exact Or.inl ⟨p, by simp, hak⟩
    · exact Or.inr rfl
  · exact Or.inl ⟨p', hp', hak⟩

theorem release_used (p : Page) (pre post : List Seg) (g : Seg) (hsegs : p.segs = pre ++ [g] ++ post)
    (a : Nat) (k : Seg) (hak : (a, k) ∈ (p.release pre g post).placed) (hk : k.free = false) :
    (a, k) ∈ p.placed ∧ a ≠ p.base + PAGE + span pre := by
  rw [mem_middle p pre post g hsegs]
  rcases (mem_release p pre post g a k hk).mp hak with hak | hak
  · have hlo := placed_lo _ _ _ _ hak
    simp only [segment_bytes] at hlo
    exact ⟨Or.inl hak, by omega⟩
  · have hlo := placed_lo _ _ _ _ hak
    simp only [segment_bytes] at hlo
    exact ⟨Or.inr (Or.inr hak), by omega⟩

/-! ## The calls of a run -/

theorem kmalloc_allocated (fuel : Nat) (h : State) (pages : List Page) (size : Nat) (c : Nat × State)
    (hh : Holds h pages) (hc : kmalloc fuel h size = some c) (hlog : FreshLog c.2.regions) :
    ∃ old pages', Allocated h pages old pages' size c ∧ (old = pages ∨ old = pages ++ [newPage h size]) := by
  by_cases hno : NoFit size pages
  · have hsize : size < 2 ^ 32 := by
      by_contra hbig
      exact kmalloc_hopeless c.2.regions.length fuel h pages size c hh.chain hno (by omega) hc (by omega) hlog
    have hfresh := (hh.fresh_answer size).mp (hlog.mono (kmalloc_asks fuel h pages size c hh.chain hno hc))
    rw [num_pages_pos size hsize] at hfresh
    obtain ⟨d, old, pages', hd, hall, hold⟩ :=
      kmalloc_spec (weight pages + 5) h pages size hh hsize (fun _ => hfresh) (le_refl _)
    rw [kmalloc_agree _ _ h size c d hc hd]
    exact ⟨old, pages', hall, hold⟩
  · obtain ⟨p, a, g, hp, hfit, -, hd⟩ := kmalloc_found (weight pages + 1) h pages size hh.chain (by omega) hno
    obtain ⟨pages', hall, hold⟩ := (Ready.same hno).allocated hh p a g hp hfit
    rw [kmalloc_agree _ _ h size c _ hc hd]
    exact ⟨pages, pages', hall, hold⟩

theorem owned_kmalloc {w : World} {h : State} {pages old pages' : List Page} {size : Nat} {c : Nat × State}
    (ho : Owned w pages) (hall : Allocated h pages old pages' size c)
    (hold : old = pages ∨ old = pages ++ [newPage h size]) : Owned ⟨c.2, (c.1, size) :: w.live⟩ pages' := by
  intro p' hp' a k hak hk
  rcases hall.served.used p' hp' a k hak hk with ⟨p, hp, hak⟩ | hq
  · have hpages : p ∈ pages := by
      rcases hold with rfl | rfl
      · exact hp
      · rcases List.mem_append.mp hp with hp | hp
        · exact hp
        · rw [List.mem_singleton.mp hp] at hak
          have hnew : (a, k) = (h.allocs h.regions.length + PAGE, ⟨firstSize size, true⟩) := by
            simpa [newPage, Page.placed, placed] using hak
          rw [(Prod.mk.inj hnew).2] at hk
          simp at hk
    obtain ⟨b, hb, hba⟩ := ho p hpages a k hak hk
    exact ⟨b, List.mem_cons_of_mem _ hb, hba⟩
  · exact ⟨(c.1, size), List.mem_cons_self, hq⟩

theorem owned_kfree {w : World} {h c : State} {p : Page} {ps : List Page} {addr : Nat} {pre post : List Seg}
    {g : Seg} (hh : Holds h (p :: ps)) (ho : Owned w (p :: ps)) (hr : Released h p ps addr pre g post c) :
    Owned ⟨c, w.live.filter fun b => b.1 != addr⟩ (p.release pre g post :: ps) := by
  have hg : (p.base + PAGE + span pre, g) ∈ p.placed :=
    (p.mem_placed _ g).mpr ⟨pre, post, hr.segs, rfl⟩
  intro q hq a k hak hk
  -- The freed segment is the only one whose data starts at the address.
  obtain ⟨x, hx, hak, hne⟩ : ∃ x ∈ p :: ps, (a, k) ∈ x.placed ∧ a + SEGMENT ≠ addr := by
    rcases List.mem_cons.mp hq with rfl | hq
    · obtain ⟨hak, hne⟩ := release_used p pre post g hr.segs a k hak hk
      refine ⟨p, List.mem_cons_self, hak, ?_⟩
      rw [hr.addr]
      simp only [segment_bytes]
      omega
    · refine ⟨q, List.mem_cons_of_mem _ hq, hak, ?_⟩
      have hap := hh.first_apart q hq
      have hpl := hh.placed p List.mem_cons_self _ g hg
      have hql := hh.placed q (List.mem_cons_of_mem _ hq) a k hak
      have haddr := hr.addr
      unfold Apart at hap
      simp only [segment_bytes, page_bytes] at hpl haddr ⊢
      omega
  obtain ⟨b, hb, hba⟩ := ho x hx a k hak hk
  refine ⟨b, ?_, hba⟩
  simp only [List.mem_filter, bne_iff_ne]
  exact ⟨hb, by rw [hba]; exact hne⟩

/-- What holds between the calls of a run. -/
def Kept (w : World) : Prop := ∃ pages, HeapInv w pages ∧ Owned w pages

theorem granted_step (fuel : Nat) (w : World) (e : Event) (w' : World) (hw : Kept w) (hg : Granted fuel w e)
    (hs : step fuel w e = some w') : Kept w' := by
  obtain ⟨pages, hinv, ho⟩ := hw
  have hh : Holds { w.h with written := [] } pages := hinv.holds.unwritten
  cases e with
  | kmalloc size =>
    obtain ⟨c, hc, hw'⟩ := Option.bind_eq_some_iff.mp hs
    obtain ⟨old, pages', hall, hold⟩ := kmalloc_allocated fuel _ pages size c hh hc (hg.2 c hc)
    rw [← Option.some.inj hw']
    exact ⟨pages', hall.inv hinv hold, owned_kmalloc ho hall hold⟩
  | kfree addr =>
    obtain ⟨r, hr, hw'⟩ := Option.bind_eq_some_iff.mp hs
    obtain ⟨p, ps, rfl⟩ := hinv.cons hg
    rw [← Option.some.inj hw']
    rcases kfree_spec (weight (p :: ps) + 2) _ p ps addr hh (le_refl _)
      with ⟨c, pre, g, post, hc, hrel⟩ | ⟨-, hc⟩
    · rw [kfree_agree _ _ _ addr r _ hr hc]
      exact ⟨_, hrel.inv hinv, owned_kfree hh ho hrel⟩
    · rw [kfree_agree _ _ _ addr r _ hr hc]
      exact ⟨p :: ps, ⟨hh, hinv.live, hinv.distinct⟩, ho⟩
  | store addr byte =>
    rw [← Option.some.inj hs]
    exact ⟨pages, hinv.store addr byte hg, ho⟩

/-! ## What is refused -/

theorem kfree_entry_some (fuel : Nat) (h h' : State) (addr : Nat) (b : Bool)
    (hk : kfree_entry fuel h addr = some (b, h')) : h.heap ≠ 0 ∧ kfree fuel h addr = some (b, h') := by
  unfold kfree_entry at hk
  by_cases h0 : h.heap = 0
  · rw [if_pos h0] at hk
    exact absurd hk (by simp)
  · rw [if_neg h0] at hk
    exact ⟨h0, hk⟩

theorem not_refuses_free (h : State) (addr : Nat) (hfree : StartsFree h addr) : ¬ Refuses h addr := by
  rintro ⟨fuel, h', hk, -, -⟩
  obtain ⟨p, ps, a, g, hh, hag, -, haddr⟩ := hfree
  obtain ⟨-, hk⟩ := kfree_entry_some fuel h h' addr false hk
  rcases kfree_spec (weight (p :: ps) + 2) h p ps addr hh (le_refl _)
    with ⟨c, pre, k, post, hc, -⟩ | ⟨hno, -⟩
  · have := kfree_agree _ _ h addr _ _ hk hc
    simp at this
  · exact hno a g hag haddr

theorem Kept.refuses {w : World} (hw : Kept w) (addr : Nat) (hdead : ∀ b ∈ w.live, b.1 ≠ addr)
    (hheap : w.h.heap ≠ 0) (hfree : ¬ StartsFree w.h addr) : Refuses w.h addr := by
  obtain ⟨pages, hinv, ho⟩ := hw
  obtain ⟨p, ps, rfl⟩ := hinv.cons hheap
  have hh := hinv.holds
  have hentry : ∀ fuel, kfree_entry fuel w.h addr = kfree fuel w.h addr := fun _ => if_neg hheap
  rcases kfree_spec (weight (p :: ps) + 2) w.h p ps addr hh (le_refl _)
    with ⟨c, pre, g, post, -, hrel⟩ | ⟨-, hc⟩
  · -- The segment that starts there is free, or a live block.
    have hg : (p.base + PAGE + span pre, g) ∈ p.placed :=
      (p.mem_placed _ g).mpr ⟨pre, post, hrel.segs, rfl⟩
    cases hflag : g.free with
    | true => exact absurd ⟨p, ps, _, g, hh, hg, hflag, hrel.addr⟩ hfree
    | false =>
      obtain ⟨b, hb, hba⟩ := ho p List.mem_cons_self _ g hg hflag
      exact absurd (hba.trans hrel.addr.symm) (hdead b hb)
  · exact ⟨_, w.h, (hentry _).trans hc, rfl, rfl⟩

/-- In every reachable heap, `kfree` refuses an address that is no live block if and only if
there is a page, and no free segment of the first page starts at the address. -/
theorem run_refuses_iff (mem : Mem) (allocs : Nat → Nat) (es : List Event) (fuel : Nat) (w : World) (addr : Nat)
    (hes : Along (step fuel) (Granted fuel) (boot mem allocs) es)
    (hrun : run (step fuel) (boot mem allocs) es = some w) (hdead : ∀ b ∈ w.live, b.1 ≠ addr) :
    Refuses w.h addr ↔ w.h.heap ≠ 0 ∧ ¬ StartsFree w.h addr := by
  have hboot : Kept (boot mem allocs) := ⟨[], boot_inv mem allocs, fun p hp => by simp at hp⟩
  have hw := run_keeps (granted_step fuel) (boot mem allocs) w es hboot hes hrun
  constructor
  · intro hr
    refine ⟨?_, fun hfree => not_refuses_free w.h addr hfree hr⟩
    obtain ⟨n, h', hk, -, -⟩ := hr
    exact (kfree_entry_some n w.h h' addr false hk).1
  · rintro ⟨hheap, hfree⟩
    exact hw.refuses addr hdead hheap hfree

theorem spacedBoot_freed :
    Along (step 20) (Granted 20) spacedBoot [.kmalloc 100, .kfree 0x100040] ∧
    ∃ w, run (step 20) spacedBoot [.kmalloc 100, .kfree 0x100040] = some w ∧ w.live = [] ∧
      (kfree 20 w.h 0x100040).map Prod.fst = some true := by
  have h1 : (kmalloc 20 { spacedBoot.h with written := [] } 100).map (fun c => c.2.regions) =
      some [(0x100000, 1)] := by
    decide +kernel
  have h2 : (step 20 spacedBoot (.kmalloc 100)).map (fun w => w.h.heap) = some 0x100000 := by
    decide +kernel
  have h3 : (run (step 20) spacedBoot [.kmalloc 100, .kfree 0x100040]).map
      (fun w => (w.live, (kfree 20 w.h 0x100040).map Prod.fst)) = some ([], some true) := by
    decide +kernel
  refine ⟨⟨⟨by decide, ?_⟩, fun w hw => ⟨?_, fun _ _ => trivial⟩⟩, ?_⟩
  · intro c hc
    rw [hc, Option.map_some, Option.some.injEq] at h1
    rw [h1]
    refine ⟨?_, List.pairwise_singleton _ _⟩
    intro r hr
    rw [List.mem_singleton.mp hr]
    exact ⟨by decide, by decide, by decide⟩
  · rw [hw, Option.map_some, Option.some.injEq] at h2
    rw [Granted, h2]
    decide
  · obtain ⟨w, hw, heq⟩ := Option.map_eq_some_iff.mp h3
    exact ⟨w, hw, congrArg Prod.fst heq, congrArg Prod.snd heq⟩

theorem run_refuses_iff_freed :
    ∃ w, run (step 20) spacedBoot [.kmalloc 100, .kfree 0x100040] = some w ∧
      (Refuses w.h 0x100040 ↔ w.h.heap ≠ 0 ∧ ¬ StartsFree w.h 0x100040) := by
  obtain ⟨hgranted, w, hw, hlive, -⟩ := spacedBoot_freed
  exact ⟨w, hw, run_refuses_iff _ _ _ 20 w 0x100040 hgranted hw (by simp [hlive])⟩

/-- A block that is freed twice is taken back twice. -/
theorem double_free_accepted :
    ¬ ∀ (mem : Mem) (allocs : Nat → Nat) (es : List Event) (fuel : Nat) (w : World) (addr : Nat),
      Along (step fuel) (Granted fuel) (boot mem allocs) es →
      run (step fuel) (boot mem allocs) es = some w → (∀ b ∈ w.live, b.1 ≠ addr) → Refuses w.h addr := by
  intro hall
  obtain ⟨hgranted, w, hw, hlive, htrue⟩ := spacedBoot_freed
  obtain ⟨fuel, h', hk, -, -⟩ := hall _ _ _ 20 w 0x100040 hgranted hw (by simp [hlive])
  obtain ⟨r, hr, hfst⟩ := Option.map_eq_some_iff.mp htrue
  have hk' := (kfree_entry_some fuel w.h h' 0x100040 false hk).2
  rw [kfree_agree _ _ w.h 0x100040 r _ hr hk'] at hfst
  simp at hfst

end SlayerOS.Heap
