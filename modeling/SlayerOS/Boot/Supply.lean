import Mathlib.Data.List.Chain
import SlayerOS.Boot.Memory
import SlayerOS.Heap.Accounts
import SlayerOS.Heap.Inside

/-!
# The heap over the frame allocator

`kmalloc` grows the heap with `Mem::Frame::allocs`, and `map` takes a frame for each table with
`Mem::Frame::alloc`. After `allocs` the cursor is one frame further, however many frames it
handed out, and the next `alloc` takes it behind them. Nothing calls `Mem::Frame::free`.
-/

open SlayerOS.Bytes SlayerOS.Frames SlayerOS.Run
open SlayerOS.Boot (FreeFrom)
open SlayerOS.Heap (HeapInv Holds InSegment NeedsPage OutsideOf num_pages weight)

namespace SlayerOS.Supply

/-! ## The system -/

/-- Frames that were handed out by one call, and if the call was `Mem::Frame::alloc`. -/
structure Grant where
  frame : Nat
  count : Nat
  single : Bool
deriving DecidableEq, Repr

/-- The frame allocator, the heap over the same memory, and what was handed out, in order. -/
structure Kernel where
  frames : Frames.State
  heap : Heap.World
  grants : List Grant

inductive Event where
  | heap (e : Heap.Event)
  /-- `map` takes a frame for a table. -/
  | frame
  /-- Someone who is no client of the heap writes a byte. -/
  | write (addr : Nat) (byte : BitVec 8)

/-- The results of the `allocs` calls from `s` on, with 0 for null. -/
def answers (count : Nat) (s : Frames.State) : Nat → Nat
  | 0 => (allocs s count).1.getD 0
  | i + 1 => answers count (allocs s count).2 i

/-- The heap with the allocator `s` behind `Mem::Frame::allocs`. -/
def supplied (h : Heap.State) (s : Frames.State) (count : Nat) : Heap.State :=
  { h with allocs := fun i => answers count s (i - h.regions.length) }

/-- The frames that a call asks for, if it asks for some. -/
def asked : Heap.Event → Nat
  | .kmalloc size => num_pages size
  | _ => 0

def step (fuel : Nat) (k : Kernel) : Event → Option Kernel
  | .heap e => do
    let w ← Heap.step fuel { k.heap with h := supplied k.heap.h k.frames (asked e) } e
    let new := w.h.regions.drop k.heap.h.regions.length
    -- The record of a page at null is written through a null pointer, which does not come back.
    if new.any fun r => r.1 = 0 then none
    else
      let s := (fun s => (allocs s (asked e)).2)^[new.length] k.frames
      some ⟨{ s with mem := w.h.mem }, w, k.grants ++ new.map fun r => ⟨r.1, r.2, false⟩⟩
  | .frame =>
    match alloc k.frames with
    | (none, _) => none
    | (some frame, s) =>
      some ⟨s, { k.heap with h := { k.heap.h with mem := s.mem } }, k.grants ++ [⟨frame, 1, true⟩]⟩
  | .write addr byte =>
    let mem := Function.update k.heap.h.mem addr byte
    some ⟨{ k.frames with mem }, { k.heap with h := { k.heap.h with mem } }, k.grants⟩

/-- No two calls handed out one frame. -/
def GrantsApart (gs : List Grant) : Prop :=
  gs.Pairwise fun g g' => Apart g.frame (g.count * FRAME_SIZE) g'.frame (g'.count * FRAME_SIZE)

/-- Behind a grant of several frames comes one of `alloc`. -/
def Spaced (gs : List Grant) : Prop := gs.IsChain fun g g' => g.count = 1 ∨ g'.single = true

instance (gs : List Grant) : Decidable (Spaced gs) := inferInstanceAs (Decidable (gs.IsChain _))

/-- The last grant was a single frame, or there was none. -/
def Settled (gs : List Grant) : Prop := ∀ g ∈ gs.getLast?, g.count = 1

/-- The area of the allocator, in the direct map. -/
structure Sited (s : Frames.State) : Prop where
  pos : s.base_addr ≠ 0
  aligned : s.base_addr % FRAME_SIZE = 0
  top : frameAddr s s.available_frames ≤ 2 ^ 64

/-- The heap is not in use yet, and all frames from the cursor on are free, as they are after the
first `alloc` of the boot. -/
structure Booted (k : Kernel) : Prop where
  sited : Sited k.frames
  free : FreeFrom k.frames k.frames.latest_frame
  cursor : k.frames.latest_frame ≤ k.frames.available_frames
  mem : k.heap.h.mem = k.frames.mem
  heap : k.heap.h.heap = 0
  regions : k.heap.h.regions = []
  live : k.heap.live = []
  grants : k.grants = []

/-- What clients promise. -/
def Asks (k : Kernel) : Event → Prop
  | .heap (.kmalloc size) => size < 2 ^ 32 - 64
  | .heap (.kfree _) => k.heap.h.heap ≠ 0
  | .heap (.store addr _) => ∃ b ∈ k.heap.live, b.1 ≤ addr ∧ addr < b.1 + b.2
  | .frame => True
  | .write addr _ => OutsideOf k.heap.h.regions addr

/-- There are frames for the call, and the heap does not grow twice in a row by several frames. -/
def Room (fuel : Nat) (k : Kernel) : Event → Prop
  | .heap (.kmalloc size) => NeedsPage fuel k.heap.h size →
      Settled k.grants ∧ k.frames.latest_frame + num_pages size ≤ k.frames.available_frames
  | .frame => (alloc k.frames).1 ≠ none
  | _ => True

/-- The heap writes into its own frames only, and nobody else into its blocks. -/
structure Contained (k : Kernel) (e : Event) (k' : Kernel) : Prop where
  others : ∀ c, e = .heap c → ∀ x, OutsideOf k'.heap.h.regions x → k'.heap.h.mem x = k.heap.h.mem x
  blocks : (∀ addr byte, e ≠ .heap (.store addr byte)) →
    ∀ b ∈ k.heap.live, ∀ x, b.1 ≤ x → x < b.1 + b.2 → k'.heap.h.mem x = k.heap.h.mem x

/-- The step ends, and it is a contained one. -/
def ContainedStep (fuel : Nat) (k : Kernel) (e : Event) : Prop :=
  ∃ k', step fuel k e = some k' ∧ Contained k e k'

/-! ## Grants one behind the other -/

/-- The grants lie between the frames `first` and `m`, and the frames from `m` on are free. The
cursor is one frame behind the start of the last grant. -/
structure Lined (s : Frames.State) (first m : Nat) (gs : List Grant) : Prop where
  free : FreeFrom s m
  room : m ≤ s.available_frames
  low : first ≤ m
  placed : ∀ g ∈ gs, ∃ j, g.frame = frameAddr s j ∧ first ≤ j ∧ 1 ≤ g.count ∧ j + g.count ≤ m
  apart : GrantsApart gs
  start : gs = [] → s.latest_frame = m
  last : ∀ g ∈ gs.getLast?, ∃ j, g.frame = frameAddr s j ∧ j + g.count = m ∧ s.latest_frame = j + 1

theorem Lined.settled {s : Frames.State} {first m : Nat} {gs : List Grant} (h : Lined s first m gs)
    (hs : Settled gs) : s.latest_frame = m := by
  cases hlast : gs.getLast? with
  | none => exact h.start (List.getLast?_eq_none_iff.mp hlast)
  | some g =>
    obtain ⟨j, -, hm, hcur⟩ := h.last g hlast
    have := hs g hlast
    omega

theorem Lined.grant {s s' : Frames.State} {first m n : Nat} {gs : List Grant} (h : Lined s first m gs) (b : Bool)
    (hn : 1 ≤ n) (hroom : m + n ≤ s.available_frames) (hfree : FreeFrom s' (m + n))
    (havail : s'.available_frames = s.available_frames) (hbase : s'.base_addr = s.base_addr)
    (hcursor : s'.latest_frame = m + 1) : Lined s' first (m + n) (gs ++ [⟨frameAddr s m, n, b⟩]) := by
  have hfirst := h.low
  have haddr : ∀ j, frameAddr s' j = frameAddr s j := fun j => by rw [frameAddr, hbase, frameAddr]
  refine ⟨hfree, by omega, by omega, ?_, ?_, by simp, ?_⟩
  · intro g hg
    rcases List.mem_append.mp hg with hg | hg
    · obtain ⟨j, hj, hlo, hpos, hhi⟩ := h.placed g hg
      exact ⟨j, by rw [haddr, hj], hlo, hpos, by omega⟩
    · rw [List.mem_singleton.mp hg]
      exact ⟨m, (haddr m).symm, hfirst, hn, le_refl _⟩
  · refine List.pairwise_append.mpr ⟨h.apart, List.pairwise_singleton _ _, ?_⟩
    intro g hg g' hg'
    obtain ⟨j, hj, -, -, hhi⟩ := h.placed g hg
    rw [List.mem_singleton.mp hg']
    simp only [hj, Apart, frameAddr, FRAME_SIZE]
    omega
  · intro g hg
    rw [List.getLast?_concat, Option.mem_some_iff] at hg
    rw [← hg]
    exact ⟨m, (haddr m).symm, rfl, hcursor⟩

theorem Lined.area {s : Frames.State} {first m : Nat} {gs : List Grant} (h : Lined s first m gs) (g : Grant)
    (hg : g ∈ gs) : frameAddr s first ≤ g.frame ∧
      g.frame + g.count * FRAME_SIZE ≤ frameAddr s s.available_frames := by
  obtain ⟨j, hj, hlo, -, hhi⟩ := h.placed g hg
  have hroom := h.room
  rw [hj]
  unfold frameAddr FRAME_SIZE
  omega

/-! ## `alloc` and `allocs` behind the grants -/

theorem Lined.alloc {s s' : Frames.State} {first m p : Nat} {gs : List Grant} (h : Lined s first m gs)
    (heq : alloc s = (some p, s')) :
    p = frameAddr s m ∧ m < s.available_frames ∧ s'.mem = fill s.mem p FRAME_SIZE 0 ∧
      s'.available_frames = s.available_frames ∧ s'.base_addr = s.base_addr ∧
      Lined s' first (m + 1) (gs ++ [⟨p, 1, true⟩]) := by
  have hm : m < s.available_frames := by
    rcases alloc_spec s (lt_of_le_of_lt h.free.small (by decide)) (le_trans h.free.cursor h.room) with
      ⟨k, hlo, hk, hfree, -, -⟩ | ⟨-, hnone⟩
    · have := (h.free.flags k hlo hk).not.mp (by simp [hfree])
      omega
    · rw [heq] at hnone
      cases hnone
  have hnext := h.free.next hm
  have halloc := h.free.alloc hm
  rw [heq] at hnext halloc
  obtain ⟨hp, hs'⟩ := Prod.mk.inj halloc
  obtain rfl := Option.some.inj hp
  subst hs'
  exact ⟨rfl, hm, rfl, rfl, rfl, h.grant true (le_refl 1) hm hnext rfl rfl rfl⟩

/-- The scan takes used frames at the start of a run only, and from `m` on all frames are free. -/
theorem Lined.hit {s : Frames.State} {first m n p : Nat} {gs : List Grant} (h : Lined s first m gs)
    (hhit : Hit s n p) (hn : 1 ≤ n) : p = s.latest_frame ∨ p < m := by
  obtain ⟨hlo, hend, hstart, -⟩ := hhit
  rcases hstart with rfl | hp
  · exact Or.inl rfl
  · exact Or.inr ((h.free.flags p hlo (by omega)).mp hp)

/-- Behind a single frame, `allocs` takes the frames at the cursor. -/
theorem Lined.allocs {s : Frames.State} {first m n : Nat} {gs : List Grant} (h : Lined s first m gs)
    (hs : Settled gs) (hn : 1 ≤ n) (hroom : m + n ≤ s.available_frames) :
    allocs s n = (some (frameAddr s m), taken s n m) ∧
      Lined (taken s n m) first (m + n) (gs ++ [⟨frameAddr s m, n, false⟩]) := by
  have hcur := h.settled hs
  have hsmall := h.free.small
  have hclear : ClearAhead s n := by
    refine ⟨by omega, ?_⟩
    intro q hlo hhi
    simpa using (h.free.flags q hlo (by omega)).not.mpr (by omega)
  have heq : Frames.allocs s n = (some (frameAddr s m), taken s n m) := by
    rcases allocs_spec s n hn hsmall (by omega) with ⟨p, hhit, -, heq⟩ | ⟨hnone, -⟩
    · obtain rfl : p = m := by
        have := h.hit hhit hn
        have := hhit.1
        omega
      exact heq
    · exact absurd hclear.hit (hnone _)
  refine ⟨heq, h.grant false hn hroom ⟨hsmall, by simp only [taken]; omega, ?_⟩ rfl rfl (by simp only [taken, hcur])⟩
  intro q hlo hhi
  simp only [taken, set_run] at hlo hhi ⊢
  have := h.free.flags q (by omega) hhi
  split
  · simp only [true_iff]
    omega
  · rw [this]
    omega

/-- Behind several frames at once, `allocs` takes one of them again. -/
theorem Lined.allocs_again {s s' : Frames.State} {first m n p : Nat} {gs : List Grant} (h : Lined s first m gs)
    (hs : ¬ Settled gs) (hn : 1 ≤ n) (heq : Frames.allocs s n = (some p, s')) (b : Bool) :
    ¬ GrantsApart (gs ++ [⟨p, n, b⟩]) := by
  have hroom := h.room
  have hcur := h.free.cursor
  rcases allocs_spec s n hn h.free.small (by omega) with ⟨k, hhit, -, hk⟩ | ⟨-, hnone⟩
  · obtain rfl : p = frameAddr s k := by
      rw [heq, Prod.mk.injEq, Option.some.injEq] at hk
      exact hk.1
    unfold Settled at hs
    push Not at hs
    obtain ⟨g, hg, hcount⟩ := hs
    obtain ⟨j, hj, hm, hcursor⟩ := h.last g hg
    obtain ⟨-, -, hpos, -⟩ := (h.placed g (List.mem_of_getLast? hg)).choose_spec
    have hlt := h.hit hhit hn
    have hlo := hhit.1
    intro hap
    have := (List.pairwise_append.mp hap).2.2 g (List.mem_of_getLast? hg) _ (List.mem_singleton_self _)
    simp only [hj] at this
    unfold Apart frameAddr FRAME_SIZE at this
    omega
  · rw [heq] at hnone
    cases hnone

/-! ## The heap behind the grants -/

/-- The heap that a call sees: the answers come from the allocator. -/
def Kernel.world (k : Kernel) (e : Heap.Event) : Heap.World :=
  { k.heap with h := supplied k.heap.h k.frames (asked e) }

/-- The heap is sound, its regions are grants of `allocs`, and the grants lie one behind the other
from the cursor of `s` on. After `n` steps a search takes up to `3 * n` rounds. -/
structure Good (s : Frames.State) (n : Nat) (k : Kernel) : Prop where
  sited : Sited k.frames
  available : k.frames.available_frames = s.available_frames
  base : k.frames.base_addr = s.base_addr
  mem : k.heap.h.mem = k.frames.mem
  spaced : Spaced k.grants
  regions : ∀ r ∈ k.heap.h.regions, ⟨r.1, r.2, false⟩ ∈ k.grants
  lined : ∃ m, Lined k.frames s.latest_frame m k.grants
  heap : ∃ pages, HeapInv k.heap pages ∧ weight pages ≤ 3 * n

theorem Sited.congr {s s' : Frames.State} (h : Sited s) (havail : s'.available_frames = s.available_frames)
    (hbase : s'.base_addr = s.base_addr) : Sited s' := by
  refine ⟨by rw [hbase]; exact h.pos, by rw [hbase]; exact h.aligned, ?_⟩
  rw [frameAddr, havail, hbase]
  exact h.top

theorem Lined.other_writes {s : Frames.State} {first m : Nat} {gs : List Grant} (h : Lined s first m gs)
    (mem : Mem) : Lined { s with mem } first m gs :=
  ⟨⟨h.free.small, h.free.cursor, h.free.flags⟩, h.room, h.low, h.placed, h.apart, h.start, h.last⟩

theorem world_inv {k : Kernel} {pages : List Heap.Page} (hw : HeapInv k.heap pages) (e : Heap.Event) :
    HeapInv (k.world e) pages :=
  ⟨⟨hw.holds.head, hw.holds.rep, hw.holds.regions, hw.holds.apart⟩, hw.live, hw.distinct⟩

theorem supplied_answer (h : Heap.State) (s : Frames.State) (count : Nat) :
    (supplied h s count).allocs h.regions.length = (allocs s count).1.getD 0 := by
  simp only [supplied, Nat.sub_self, answers]

theorem step_heap_same (fuel : Nat) (k : Kernel) (e : Heap.Event) (w : Heap.World)
    (hw : Heap.step fuel (k.world e) e = some w) (hregions : w.h.regions = k.heap.h.regions) :
    step fuel k (.heap e) = some ⟨{ k.frames with mem := w.h.mem }, w, k.grants⟩ := by
  rw [Kernel.world] at hw
  simp only [step, hw, Option.bind_eq_bind, Option.bind_some, hregions, List.drop_length, List.any_nil,
    Bool.false_eq_true, if_false, List.length_nil, Function.iterate_zero, id_eq, List.map_nil, List.append_nil]

theorem step_heap_more (fuel : Nat) (k : Kernel) (e : Heap.Event) (w : Heap.World) (p n : Nat)
    (hw : Heap.step fuel (k.world e) e = some w) (hregions : w.h.regions = k.heap.h.regions ++ [(p, n)])
    (hp : p ≠ 0) :
    step fuel k (.heap e) = some ⟨{ (allocs k.frames (asked e)).2 with mem := w.h.mem }, w,
      k.grants ++ [⟨p, n, false⟩]⟩ := by
  rw [Kernel.world] at hw
  simp only [step, hw, Option.bind_eq_bind, Option.bind_some, hregions, List.drop_left, List.any_cons, hp,
    decide_false, List.any_nil, Bool.or_self, Bool.false_eq_true, if_false, List.length_singleton,
    Function.iterate_one, List.map_cons, List.map_nil]

theorem Good.region {s : Frames.State} {n m : Nat} {k : Kernel} (hk : Good s n k)
    (hl : Lined k.frames s.latest_frame m k.grants) (r : Nat × Nat) (hr : r ∈ k.heap.h.regions) :
    r.1 + r.2 * FRAME_SIZE ≤ frameAddr k.frames m := by
  obtain ⟨j, hj, -, -, hhi⟩ := hl.placed _ (hk.regions r hr)
  have hj' : r.1 = frameAddr k.frames j := hj
  rw [hj', frameAddr, frameAddr, Nat.add_assoc, ← Nat.add_mul]
  exact Nat.add_le_add_left (Nat.mul_le_mul_right _ hhi) _

theorem Good.legal {s : Frames.State} {n fuel : Nat} {k : Kernel} (hk : Good s n k) (e : Heap.Event)
    (ha : Asks k (.heap e)) (hr : Room fuel k (.heap e)) : Heap.Legal fuel (k.world e) e := by
  cases e with
  | kfree addr => exact ha
  | store addr byte => exact ha
  | kmalloc size =>
    have hsize : size < 2 ^ 32 - 64 := ha
    refine ⟨ha, ?_⟩
    intro hneeds
    obtain ⟨hsettled, hroom⟩ := hr hneeds
    obtain ⟨m, hl⟩ := hk.lined
    have hpos := Heap.num_pages_pos size (by omega)
    rw [hl.settled hsettled] at hroom
    have hanswer : (supplied k.heap.h k.frames (num_pages size)).allocs k.heap.h.regions.length =
        frameAddr k.frames m := by
      rw [supplied_answer, (hl.allocs hsettled (by omega) hroom).1]
      rfl
    have hsited := hk.sited
    refine ⟨⟨?_, ?_, ?_⟩, ?_⟩
    · have := hsited.pos
      refine ne_of_eq_of_ne hanswer ?_
      rw [frameAddr]
      omega
    · have := hsited.aligned
      refine (congrArg (· % FRAME_SIZE) hanswer).trans ?_
      rw [frameAddr, Nat.add_mul_mod_self_right, this]
    · have := hsited.top
      refine le_trans (le_of_eq (congrArg (· + _) hanswer)) (le_trans ?_ this)
      rw [frameAddr, frameAddr, Nat.add_assoc, ← Nat.add_mul]
      exact Nat.add_le_add_left (Nat.mul_le_mul_right _ hroom) _
    · intro r hmem
      exact Or.inl (le_trans (hk.region hl r hmem) (le_of_eq hanswer.symm))

/-! ## One step -/

theorem spaced_append {gs : List Grant} {g : Grant} (h : Spaced gs) (hg : g.single = true ∨ Settled gs) :
    Spaced (gs ++ [g]) := by
  refine List.isChain_append.mpr ⟨h, List.isChain_singleton _, ?_⟩
  intro x hx y hy
  rw [List.head?_cons, Option.mem_some_iff] at hy
  rw [← hy]
  exact hg.symm.imp (fun hs => hs x hx) id

theorem Good.heap_step {s : Frames.State} {n fuel : Nat} {k : Kernel} (hk : Good s n k) (e : Heap.Event)
    (ha : Asks k (.heap e)) (hr : Room fuel k (.heap e)) (hfuel : 3 * n + 5 ≤ fuel) :
    ∃ k', step fuel k (.heap e) = some k' ∧ Good s (n + 1) k' ∧ Contained k (.heap e) k' := by
  obtain ⟨pages, hw, hweight⟩ := hk.heap
  obtain ⟨m, hl⟩ := hk.lined
  have hlegal := hk.legal e ha hr
  obtain ⟨w, pages', hstep, hinv, hweight', hclean⟩ :=
    Heap.heap_step fuel (k.world e) pages e (world_inv hw e) hlegal (by omega)
  have hwithin := Heap.step_within fuel (k.world e) w pages e (world_inv hw e) hlegal (by omega) hstep
  have hcontained : ∀ fs gs, Contained k (.heap e) ⟨fs, w, gs⟩ := fun fs gs =>
    ⟨fun c _ => hwithin.outside, fun hno => hclean.data fun addr byte heq => hno addr byte (heq ▸ rfl)⟩
  rcases hwithin.regions with hsame | ⟨size, rfl, hneeds, hmore⟩
  · refine ⟨_, step_heap_same fuel k e w hstep hsame, ?_, hcontained _ _⟩
    exact ⟨hk.sited.congr rfl rfl, hk.available, hk.base, rfl, hk.spaced, fun r hmem => hk.regions r (hsame ▸ hmem),
      ⟨m, hl.other_writes w.h.mem⟩, pages', hinv, by omega⟩
  · obtain ⟨hsettled, hroom⟩ := hr hneeds
    rw [hl.settled hsettled] at hroom
    have hsize : size < 2 ^ 32 - 64 := ha
    have hpos := Heap.num_pages_pos size (by omega)
    obtain ⟨halloc, hl'⟩ := hl.allocs hsettled (by omega) hroom
    have hsited := hk.sited
    have hanswer : (k.world (.kmalloc size)).h.allocs (k.world (.kmalloc size)).h.regions.length =
        frameAddr k.frames m := by
      refine (supplied_answer _ _ _).trans ?_
      rw [asked, halloc]
      rfl
    have hpos' : frameAddr k.frames m ≠ 0 := by
      have := hsited.pos
      rw [frameAddr]
      omega
    rw [hanswer] at hmore
    refine ⟨_, step_heap_more fuel k _ w _ _ hstep hmore hpos', ?_, hcontained _ _⟩
    refine ⟨?_, ?_, ?_, rfl, spaced_append hk.spaced (Or.inr hsettled), ?_, ⟨m + num_pages size, ?_⟩, pages', hinv,
      by omega⟩
    · rw [asked, halloc]
      exact hsited.congr rfl rfl
    · rw [asked, halloc]
      exact hk.available
    · rw [asked, halloc]
      exact hk.base
    · intro r hmem
      rw [hmore] at hmem
      rcases List.mem_append.mp hmem with hmem | hmem
      · exact List.mem_append_left _ (hk.regions r hmem)
      · rw [List.mem_singleton.mp hmem]
        exact List.mem_append_right _ (List.mem_singleton_self _)
    · rw [asked, halloc]
      exact hl'.other_writes w.h.mem

theorem Good.frame_step {s : Frames.State} {n fuel : Nat} {k : Kernel} (hk : Good s n k) (p : Nat)
    (fs : Frames.State) (heq : alloc k.frames = (some p, fs)) :
    ∃ k', step fuel k .frame = some k' ∧ Good s (n + 1) k' ∧ Contained k .frame k' := by
  obtain ⟨pages, hw, hweight⟩ := hk.heap
  obtain ⟨m, hl⟩ := hk.lined
  obtain ⟨hp, hm, hmem, havail, hbase, hl'⟩ := hl.alloc heq
  -- The frame is behind all regions of the heap.
  have hout : ∀ x, fs.mem x ≠ k.heap.h.mem x → OutsideOf k.heap.h.regions x := by
    intro x hx r hr
    have := hk.region hl r hr
    by_contra hin
    refine hx ?_
    rw [hmem, hk.mem]
    exact fill_outside _ _ _ _ _ (by omega)
  refine ⟨⟨fs, { k.heap with h := { k.heap.h with mem := fs.mem } }, k.grants ++ [⟨p, 1, true⟩]⟩,
    by simp only [step, heq], ⟨hk.sited.congr havail hbase,
    havail.trans hk.available, hbase.trans hk.base, rfl, spaced_append hk.spaced (Or.inl rfl), ?_,
    ⟨m + 1, hl'⟩, pages, hw.other_writes fs.mem hout, by omega⟩, ?_⟩
  · intro r hr
    exact List.mem_append_left _ (hk.regions r hr)
  · refine ⟨by simp, ?_⟩
    intro _ b hb x h1 h2
    obtain ⟨r, hr, hlo, hhi⟩ := InSegment.region hw.holds b (hw.live b hb)
    by_contra hne
    have := hout x hne r hr
    omega

theorem Good.write_step {s : Frames.State} {n fuel : Nat} {k : Kernel} (hk : Good s n k) (addr : Nat) (byte : BitVec 8)
    (ha : OutsideOf k.heap.h.regions addr) :
    ∃ k', step fuel k (.write addr byte) = some k' ∧ Good s (n + 1) k' ∧ Contained k (.write addr byte) k' := by
  obtain ⟨pages, hw, hweight⟩ := hk.heap
  obtain ⟨m, hl⟩ := hk.lined
  have hout : ∀ x, Function.update k.heap.h.mem addr byte x ≠ k.heap.h.mem x → OutsideOf k.heap.h.regions x := by
    intro x hx
    by_cases heq : x = addr
    · exact heq ▸ ha
    · exact absurd (Function.update_of_ne heq _ _) hx
  refine ⟨_, rfl, ⟨hk.sited.congr rfl rfl, hk.available, hk.base, rfl, hk.spaced, hk.regions,
    ⟨m, hl.other_writes _⟩, pages, hw.other_writes _ hout, by omega⟩, by simp, ?_⟩
  intro _ b hb x h1 h2
  obtain ⟨r, hr, hlo, hhi⟩ := InSegment.region hw.holds b (hw.live b hb)
  by_contra hne
  have := hout x hne r hr
  omega

theorem Good.keeps {s : Frames.State} {n fuel : Nat} {k : Kernel} (hk : Good s n k) (e : Event) (ha : Asks k e)
    (hr : Room fuel k e) (hfuel : 3 * n + 5 ≤ fuel) :
    ∃ k', step fuel k e = some k' ∧ Good s (n + 1) k' ∧ Contained k e k' := by
  cases e with
  | heap e => exact hk.heap_step e ha hr hfuel
  | write addr byte => exact hk.write_step addr byte ha
  | frame =>
    obtain ⟨p, hp⟩ := Option.ne_none_iff_exists'.mp hr
    exact hk.frame_step p (alloc k.frames).2 (Prod.ext hp rfl)

/-! ## A growth without room -/

/-- Frames were handed out twice, and two growths were too close. -/
def Broken (k : Kernel) : Prop := ¬ GrantsApart k.grants ∧ ¬ Spaced k.grants

theorem step_heap_grants {fuel : Nat} {k k' : Kernel} {e : Heap.Event} (hstep : step fuel k (.heap e) = some k') :
    ∃ w, Heap.step fuel (k.world e) e = some w ∧
      (∀ r ∈ w.h.regions.drop k.heap.h.regions.length, r.1 ≠ 0) ∧
      k'.grants = k.grants ++ (w.h.regions.drop k.heap.h.regions.length).map fun r => ⟨r.1, r.2, false⟩ := by
  obtain ⟨w, hw, heq⟩ := Option.bind_eq_some_iff.mp hstep
  dsimp only at heq
  split at heq
  · cases heq
  · rename_i hnull
    refine ⟨w, hw, ?_, by rw [← Option.some.inj heq]⟩
    intro r hr hzero
    exact hnull (List.any_eq_true.mpr ⟨r, hr, decide_eq_true hzero⟩)

theorem step_grants {fuel : Nat} {k k' : Kernel} {e : Event} (hstep : step fuel k e = some k') :
    k.grants <+: k'.grants := by
  cases e with
  | heap e =>
    obtain ⟨w, -, -, hgrants⟩ := step_heap_grants hstep
    exact hgrants ▸ List.prefix_append _ _
  | write addr byte => exact Option.some.inj hstep ▸ List.prefix_refl _
  | frame =>
    simp only [step] at hstep
    split at hstep
    · cases hstep
    · exact Option.some.inj hstep ▸ List.prefix_append _ _

theorem Broken.later {gs : List Grant} {k : Kernel} (h : ¬ GrantsApart gs ∧ ¬ Spaced gs)
    (hgs : gs <+: k.grants) : Broken k := by
  obtain ⟨rest, hrest⟩ := hgs
  refine ⟨fun hap => h.1 ?_, fun hsp => h.2 ?_⟩
  · rw [← hrest] at hap
    exact (List.pairwise_append.mp hap).1
  · rw [← hrest] at hsp
    exact (List.isChain_append.mp hsp).1

theorem broken_run (fuel : Nat) (k k' : Kernel) (es : List Event) (hk : Broken k)
    (hrun : run (step fuel) k es = some k') : Broken k' := by
  induction es generalizing k with
  | nil => exact Option.some.inj hrun ▸ hk
  | cons e es ih =>
    obtain ⟨k1, hstep, hrest⟩ := Option.bind_eq_some_iff.mp hrun
    exact ih k1 (Broken.later hk (step_grants hstep)) hrest

theorem asks_first {fuel : Nat} {k : Kernel} {pages : List Heap.Page} {size : Nat} {w : Heap.World}
    (hw : HeapInv k.heap pages) (hfuel : weight pages + 5 ≤ fuel) (hneeds : NeedsPage fuel k.heap.h size)
    (hstep : Heap.step fuel (k.world (.kmalloc size)) (.kmalloc size) = some w) :
    k.heap.h.regions ++ [((allocs k.frames (num_pages size)).1.getD 0, num_pages size)] <+: w.h.regions := by
  obtain ⟨c, hc, heq⟩ := Option.bind_eq_some_iff.mp hstep
  obtain rfl := Option.some.inj heq
  have hh := (world_inv hw (.kmalloc size)).holds.unwritten
  have hno : Heap.NoFit size pages := by
    by_contra hfit
    obtain ⟨f, rfl⟩ : ∃ f, fuel = f + 1 := ⟨fuel - 1, by omega⟩
    obtain ⟨p, a, g, -, -, hs, -⟩ := Heap.kmalloc_found f _ pages size hh.chain (by omega) hfit
    exact Heap.found_not_needsPage (f + 1) f _ size p.base a hs hneeds
  have hasks := Heap.kmalloc_asks fuel _ pages size c hh.chain hno hc
  rw [← supplied_answer]
  exact hasks

theorem Good.tight_step {s : Frames.State} {n fuel : Nat} {k k' : Kernel} (hk : Good s n k) (size : Nat)
    (hsize : size < 2 ^ 32 - 64) (hr : ¬ Room fuel k (.heap (.kmalloc size))) (hfuel : 3 * n + 5 ≤ fuel)
    (hstep : step fuel k (.heap (.kmalloc size)) = some k') : Broken k' := by
  obtain ⟨pages, hw, hweight⟩ := hk.heap
  obtain ⟨m, hl⟩ := hk.lined
  obtain ⟨hneeds, htight⟩ := Classical.not_imp.mp hr
  obtain ⟨w, hw', hnull, hgrants⟩ := step_heap_grants hstep
  have hpos := Heap.num_pages_pos size (by omega)
  obtain ⟨rest, hrest⟩ := asks_first hw (by omega) hneeds hw'
  rw [← hrest, List.append_assoc, List.drop_left] at hnull hgrants
  cases heq : (allocs k.frames (num_pages size)).1 with
  | none =>
    rw [heq] at hnull
    exact absurd rfl (hnull _ List.mem_cons_self)
  | some p =>
    rw [heq] at hgrants
    have heq' : allocs k.frames (num_pages size) = (some p, (allocs k.frames (num_pages size)).2) := Prod.ext heq rfl
    have hns : ¬ Settled k.grants := by
      intro hs
      have hcur := hl.settled hs
      have hroom := hl.room
      rcases allocs_spec k.frames (num_pages size) (by omega) hl.free.small (by omega) with ⟨q, hhit, -⟩ | ⟨-, hnone⟩
      · have hlo := hhit.1
        have hend := hhit.2.1
        exact htight ⟨hs, by omega⟩
      · rw [hnone] at heq
        cases heq
    refine Broken.later ⟨hl.allocs_again hns (by omega) heq' false, ?_⟩
      ⟨rest.map fun r => ⟨r.1, r.2, false⟩, by rw [hgrants]; simp⟩
    intro hsp
    refine hns fun g hg => ?_
    have := (List.isChain_append.mp hsp).2.2 g hg _ rfl
    simpa using this

/-! ## Runs -/

theorem good_or_broken_run (s : Frames.State) (n fuel : Nat) (k k' : Kernel) (es : List Event) (hk : Good s n k)
    (hfuel : 3 * (n + es.length) + 5 ≤ fuel) (hes : Along (step fuel) Asks k es)
    (hrun : run (step fuel) k es = some k') : (∃ n, Good s n k') ∨ Broken k' := by
  induction es generalizing n k with
  | nil => exact Or.inl ⟨n, Option.some.inj hrun ▸ hk⟩
  | cons e es ih =>
    rw [List.length_cons] at hfuel
    obtain ⟨ha, hrest⟩ := hes
    obtain ⟨k1, hstep, hrun'⟩ := Option.bind_eq_some_iff.mp hrun
    by_cases hr : Room fuel k e
    · obtain ⟨k2, hstep', hk2, -⟩ := hk.keeps e ha hr (by omega)
      obtain rfl : k2 = k1 := Option.some.inj (hstep'.symm.trans hstep)
      exact ih (n + 1) k2 hk2 (by omega) (hrest k2 hstep) hrun'
    · right
      refine broken_run fuel k1 k' es ?_ hrun'
      cases e with
      | write addr byte => exact absurd trivial hr
      | frame =>
        rw [Room, not_not] at hr
        simp only [step] at hstep
        split at hstep
        · cases hstep
        · rename_i heq
          rw [heq] at hr
          cases hr
      | heap e =>
        cases e with
        | kmalloc size => exact hk.tight_step size ha hr (by omega) hstep
        | kfree addr => exact absurd trivial hr
        | store addr byte => exact absurd trivial hr

theorem Booted.good {k : Kernel} (h : Booted k) : Good k.frames 0 k := by
  refine ⟨h.sited, rfl, rfl, h.mem, ?_, ?_, ⟨k.frames.latest_frame, h.free, h.cursor, le_refl _, ?_, ?_, ?_, ?_⟩,
    [], ⟨⟨h.heap, trivial, h.regions, ?_⟩, ?_, ?_⟩, by simp [weight]⟩
  · rw [h.grants]
    exact List.isChain_nil
  · rw [h.regions]
    simp
  · rw [h.grants]
    simp
  · rw [h.grants]
    exact List.Pairwise.nil
  · exact fun _ => rfl
  · rw [h.grants]
    simp
  · rw [h.regions]
    exact List.Pairwise.nil
  · rw [h.live]
    simp
  · rw [h.live]
    exact List.Pairwise.nil

/-! ## Behind the boot -/

/-- The heap over the allocator that the interrupt stacks and the `pml4` leave. -/
def afterBoot (s : Frames.State) : Kernel :=
  let s := (alloc (init_stacks s).2).2
  ⟨s, Heap.boot s.mem fun _ => 0, []⟩

theorem afterBoot_booted (s : Frames.State) (hs : Sited s) (hsmall : s.available_frames ≤ 2 ^ 20)
    (hcur : s.latest_frame = 0) (hclear : ∀ q, q < s.available_frames → s.frames q = false)
    (hroom : 23 ≤ s.available_frames) : Booted (afterBoot s) := by
  obtain ⟨-, hfree, havail, hbase, -⟩ := Boot.init_stacks_all s hsmall hcur hclear (by omega)
  have hlt : 22 < (init_stacks s).2.available_frames := by omega
  have halloc := hfree.alloc hlt
  have hnext := hfree.next hlt
  unfold afterBoot
  rw [halloc] at hnext ⊢
  exact ⟨hs.congr havail hbase, hnext, hlt, rfl, rfl, rfl, rfl, rfl⟩

/-! ## The theorems -/

/-- In every run of heap calls, page table frames and other writes that finds frames, and in which
no growth of the heap comes right behind one of several frames, each call ends and the heap shares
no byte with anyone else: it writes into its own frames only, nobody else writes into its blocks,
and no frame is handed out twice. -/
theorem run_supplied (fuel : Nat) (k : Kernel) (es : List Event) (hk : Booted k)
    (hfuel : 3 * es.length + 5 ≤ fuel)
    (hes : Along (step fuel) (fun k e => Asks k e ∧ Room fuel k e) k es) :
    Along (step fuel) (ContainedStep fuel) k es ∧
    ∃ k' pages, run (step fuel) k es = some k' ∧ Holds k'.heap.h pages ∧
      (∀ b ∈ k'.heap.live, InSegment pages b) ∧
      (k'.heap.live.Pairwise fun b c => Apart b.1 b.2 c.1 c.2) ∧ GrantsApart k'.grants ∧
      (∀ r ∈ k'.heap.h.regions, ⟨r.1, r.2, false⟩ ∈ k'.grants) ∧
      ∀ g ∈ k'.grants, frameAddr k.frames k.frames.latest_frame ≤ g.frame ∧
        g.frame + g.count * FRAME_SIZE ≤ frameAddr k.frames k.frames.available_frames := by
  have hcount := run_count (Good k.frames) (Q := ContainedStep fuel) es.length ?_ 0 k es (by omega)
    hk.good hes
  · obtain ⟨hsteps, k', hrun, hgood⟩ := hcount
    obtain ⟨pages, hinv, -⟩ := hgood.heap
    obtain ⟨m, hl⟩ := hgood.lined
    refine ⟨hsteps, k', pages, hrun, hinv.holds, hinv.live, hinv.pairwise, hl.apart, hgood.regions, ?_⟩
    rw [frameAddr, frameAddr, ← hgood.base, ← hgood.available]
    exact hl.area
  · rintro n j e hn hj ⟨ha, hr⟩
    obtain ⟨j', hstep, hgood, hcontained⟩ := hj.keeps e ha hr (by omega)
    exact ⟨⟨j', hstep, hcontained⟩, j', hstep, hgood⟩

/-- Forty frames at 0x100000, of which the boot leaves the last seventeen. -/
def small : Kernel := afterBoot (cleared 40 0x100000 fun _ => 0)

theorem small_booted : Booted small :=
  afterBoot_booted _ ⟨by decide, by decide, by decide⟩ (by decide) rfl (fun _ _ => rfl) (by decide)

/-- What the allocator sees before a call. -/
def seen (k : Kernel) : List Grant × Nat × Nat :=
  (k.grants, k.frames.latest_frame, k.frames.available_frames)

theorem asks_kmalloc (k : Kernel) (size : Nat) (hsize : size < 2 ^ 32 - 64) : Asks k (.heap (.kmalloc size)) := hsize

theorem room_of_seen {fuel size : Nat} {k : Kernel} (gs : List Grant) (latest available : Nat)
    (hseen : seen k = (gs, latest, available)) (hs : Settled gs) (hroom : latest + num_pages size ≤ available) :
    Room fuel k (.heap (.kmalloc size)) := by
  obtain ⟨rfl, h⟩ := Prod.mk.inj hseen
  obtain ⟨rfl, rfl⟩ := Prod.mk.inj h
  exact fun _ => ⟨hs, hroom⟩

/-- Two growths by three frames, with a table between them. -/
def tableBetween : List Event := [.heap (.kmalloc 100), .heap (.kmalloc 9000), .frame, .heap (.kmalloc 9000)]

theorem tableBetween_legal : Along (step 20) (fun k e => Asks k e ∧ Room 20 k e) small tableBetween := by
  have h1 : (run (step 20) small (tableBetween.take 1)).map seen = some ([⟨0x117000, 1, false⟩], 24, 40) := by
    decide +kernel
  have h2 : (run (step 20) small (tableBetween.take 2)).map (fun k => (alloc k.frames).1) = some (some 0x11b000) := by
    decide +kernel
  have h3 : (run (step 20) small (tableBetween.take 3)).map seen =
      some ([⟨0x117000, 1, false⟩, ⟨0x118000, 3, false⟩, ⟨0x11b000, 1, true⟩], 28, 40) := by
    decide +kernel
  refine ⟨⟨asks_kmalloc _ _ (by decide), ?_⟩, fun k1 hk1 => ⟨⟨asks_kmalloc _ _ (by decide), ?_⟩, fun k2 hk2 =>
    ⟨⟨trivial, ?_⟩, fun k3 hk3 => ⟨⟨asks_kmalloc _ _ (by decide), ?_⟩, fun _ _ => trivial⟩⟩⟩⟩
  · exact fun _ => ⟨by rintro g ⟨⟩, by decide⟩
  · refine room_of_seen _ _ _ (run_seen h1 ?_) (by rintro g ⟨⟩; rfl) (by decide)
    simp only [tableBetween, List.take_succ_cons, List.take_zero, run_cons, hk1, Option.bind_some, run_nil]
  · have halloc := run_seen h2 (t := k2) ?_
    · rw [Room, halloc]
      simp
    · simp only [tableBetween, List.take_succ_cons, List.take_zero, run_cons, hk1, hk2, Option.bind_some, run_nil]
  · refine room_of_seen _ _ _ (run_seen h3 ?_) (by rintro g ⟨⟩; rfl) (by decide)
    simp only [tableBetween, List.take_succ_cons, List.take_zero, run_cons, hk1, hk2, hk3, Option.bind_some, run_nil]

theorem run_supplied_tableBetween :
    Along (step 20) (ContainedStep 20) small tableBetween ∧
    ∃ k pages, run (step 20) small tableBetween = some k ∧ Holds k.heap.h pages ∧ GrantsApart k.grants := by
  obtain ⟨hsteps, k, pages, hrun, hholds, -, -, hapart, -⟩ :=
    run_supplied 20 small tableBetween small_booted (by decide) tableBetween_legal
  exact ⟨hsteps, k, pages, hrun, hholds, hapart⟩

/-- Whatever the clients ask for: no frame is handed out twice if and only if no growth of the heap
comes right behind one of several frames. -/
theorem run_apart_iff (fuel : Nat) (k k' : Kernel) (es : List Event) (hk : Booted k)
    (hfuel : 3 * es.length + 5 ≤ fuel) (hes : Along (step fuel) Asks k es)
    (hrun : run (step fuel) k es = some k') : GrantsApart k'.grants ↔ Spaced k'.grants := by
  rcases good_or_broken_run k.frames 0 fuel k k' es hk.good (by omega) hes hrun with ⟨n, hgood⟩ | hbroken
  · obtain ⟨m, hl⟩ := hgood.lined
    exact iff_of_true hl.apart hgood.spaced
  · exact iff_of_false hbroken.1 hbroken.2

/-- Without the table, the second growth starts in the last frame of the first one. -/
theorem run_apart_iff_overlap :
    ∃ k, run (step 20) small [.heap (.kmalloc 100), .heap (.kmalloc 9000), .heap (.kmalloc 9000)] = some k ∧
      k.grants = [⟨0x117000, 1, false⟩, ⟨0x118000, 3, false⟩, ⟨0x11a000, 3, false⟩] ∧ ¬ GrantsApart k.grants := by
  have h : (run (step 20) small [.heap (.kmalloc 100), .heap (.kmalloc 9000), .heap (.kmalloc 9000)]).map
      (fun k => k.grants) = some [⟨0x117000, 1, false⟩, ⟨0x118000, 3, false⟩, ⟨0x11a000, 3, false⟩] := by
    decide +kernel
  obtain ⟨k, hrun, hgrants⟩ := Option.map_eq_some_iff.mp h
  refine ⟨k, hrun, hgrants, ?_⟩
  rw [run_apart_iff 20 small k _ small_booted (by decide) ?_ hrun, hgrants]
  · decide
  · exact ⟨asks_kmalloc _ _ (by decide), fun _ _ => ⟨asks_kmalloc _ _ (by decide), fun _ _ =>
      ⟨asks_kmalloc _ _ (by decide), fun _ _ => trivial⟩⟩⟩

end SlayerOS.Supply
