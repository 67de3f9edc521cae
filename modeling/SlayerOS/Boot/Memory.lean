import SlayerOS.Frames.Init
import SlayerOS.Frames.Stacks
import SlayerOS.Mapper.Protection
import SlayerOS.Paging.Demand
import SlayerOS.Paging.Owners

/-!
# The memory at the boot (`kern.cc`)

The kernel starts the frame allocator, takes the interrupt stacks and then the page tables.
All of them come from the first entry of the memory map, one behind the other.
-/

open SlayerOS.Bytes SlayerOS.Frames SlayerOS.Mapper SlayerOS.Paging SlayerOS.Run
open SlayerOS.Owners (results)

namespace SlayerOS.Boot

/-- The next frames that `alloc` hands out are those from `k` on. -/
structure FreeFrom (s : Frames.State) (k : Nat) : Prop where
  small : s.available_frames ≤ 2 ^ 20
  cursor : s.latest_frame ≤ k
  flags : ∀ q, s.latest_frame ≤ q → q < s.available_frames → (s.frames q = true ↔ q < k)

theorem FreeFrom.alloc {s : Frames.State} {k : Nat} (h : FreeFrom s k) (hk : k < s.available_frames) :
    alloc s = (some (frameAddr s k),
      { s with
        frames := Function.update s.frames k true
        latest_frame := k + 1
        mem := fill s.mem (frameAddr s k) FRAME_SIZE 0 }) := by
  have hsmall := h.small
  have hcursor := h.cursor
  have hfree : s.frames k = false := by simpa using (h.flags k hcursor hk).not.mpr (lt_irrefl k)
  rcases alloc_spec s (by omega) (by omega) with ⟨j, hlo, hhi, hj, hused, heq⟩ | ⟨hused, -⟩
  · obtain rfl : j = k := by
      by_contra hne
      have hlt : ¬ k < j := by
        intro hlt
        rw [hused k hcursor hlt] at hfree
        cases hfree
      rw [(h.flags j hlo hhi).mpr (by omega)] at hj
      cases hj
    rw [heq, handed_eq s j (by omega)]
  · rw [hused k hcursor hk] at hfree
    cases hfree

theorem FreeFrom.next {s : Frames.State} {k : Nat} (h : FreeFrom s k) (hk : k < s.available_frames) :
    FreeFrom (Frames.alloc s).2 (k + 1) := by
  rw [h.alloc hk]
  refine ⟨h.small, le_refl _, ?_⟩
  intro q hlo hhi
  simp only at hlo hhi ⊢
  have hflag := h.flags q (by have := h.cursor; omega) hhi
  rw [Function.update_of_ne (by omega), hflag]
  omega

theorem FreeFrom.results {s : Frames.State} {k : Nat} (h : FreeFrom s k) (i : Nat) (hi : k + i < s.available_frames) :
    results s i = frameAddr s (k + i) := by
  induction i generalizing s k with
  | zero =>
    rw [Owners.results, h.alloc (by omega)]
    rfl
  | succ i ih =>
    have hnext := ih (h.next (by omega))
    rw [h.alloc (by omega)] at hnext
    rw [Owners.results, h.alloc (by omega), hnext (by simp only; omega), Nat.add_right_comm, Nat.add_assoc]
    rfl

/-! ## The stacks -/

theorem stackFrames_mono (i j : Nat) (h : i ≤ j) : stackFrames i ≤ stackFrames j := by
  unfold stackFrames
  split <;> split <;> omega

theorem init_stacks_from_outside {s : Frames.State} (hsmall : s.available_frames ≤ 2 ^ 20) (n j : Nat)
    (t : Frames.State) (h : Stacked s j t) (hj : j ≤ stackCount s.available_frames) (x : Nat)
    (hx : x < s.base_addr ∨ frameAddr s (stackFrames (j + min n (stackCount s.available_frames - j))) ≤ x) :
    (init_stacks_from n (j + 1) t).2.mem x = t.mem x := by
  induction n generalizing j t with
  | zero => rfl
  | succ n ih =>
    have hcursor : t.latest_frame ≤ t.available_frames := by
      rw [h.cursor, h.available]
      unfold stackCount at hj
      omega
    rw [init_stacks_step]
    rcases allocs_spec t 4 (by decide) (by rw [h.available]; exact hsmall) hcursor with ⟨k, hhit, -, heq⟩ | ⟨-, heq⟩
    · obtain ⟨rfl, hroom⟩ := (h.hit_iff k).mp hhit
      have hfits := (stackCount_le_iff s.available_frames j).mpr hroom
      have hmin : j + min (n + 1) (stackCount s.available_frames - j) =
          j + 1 + min n (stackCount s.available_frames - (j + 1)) := by omega
      rw [hmin] at hx
      have hstacks := stackFrames_mono (j + 1) (j + 1 + min n (stackCount s.available_frames - (j + 1))) (by omega)
      rw [heq]
      dsimp only
      rw [ih (j + 1) (taken t 4 (3 * j)) (h.next hroom) hfits hx]
      apply fill_outside
      rw [show stackFrames (j + 1) = 3 * (j + 1) + 1 from rfl] at hstacks
      unfold frameAddr FRAME_SIZE at *
      rw [h.base]
      omega
    · rw [heq]

theorem stacked_freeFrom {s t : Frames.State} {j : Nat} (h : Stacked s j t) (hsmall : s.available_frames ≤ 2 ^ 20) :
    FreeFrom t (stackFrames j) := by
  refine ⟨by rw [h.available]; exact hsmall, ?_, ?_⟩
  · rw [h.cursor]
    unfold stackFrames
    split <;> omega
  · intro q _ hq
    rw [h.available] at hq
    exact h.flags q hq

/-! ## The tables -/

/-- The area of the allocator is the memory of an entry, where the direct map has it. -/
structure Area (s : Frames.State) (ctx : BootCtx) (e : MemmapEntry) : Prop where
  entry : e ∈ ctx.memmap_entries
  usable : e.type = .USABLE
  base : s.base_addr = ctx.hhdm_addr + e.base
  frames : s.available_frames ≤ e.length / FRAME_SIZE

variable {s : Frames.State} {p : Paging.State} {ctx : BootCtx} {ld : Linkage} {e : MemmapEntry}

/-- What the allocator relies on: the first two entries are memory of the map, the second one has a
byte for each frame of the first one, and the flags that are not cleared are clear already. -/
structure Allocatable (mem : Mem) (ctx : BootCtx) (alloc_entry bitmap_entry : MemmapEntry) : Prop where
  first : alloc_entry ∈ ctx.memmap_entries
  second : bitmap_entry ∈ ctx.memmap_entries
  usable : alloc_entry.type = .USABLE
  mapped : bitmap_entry.Mapped
  small : alloc_entry.length / FRAME_SIZE ≤ 2 ^ 20
  fit : alloc_entry.length / FRAME_SIZE ≤ bitmap_entry.length
  clear : ∀ i, bitmap_entry.length / FRAME_SIZE ≤ i → i < alloc_entry.length / FRAME_SIZE →
    mem (PHYS2VIRT ctx.hhdm_addr bitmap_entry.base + i) = 0

variable {mem : Mem} {alloc_entry bitmap_entry : MemmapEntry}

theorem Allocatable.available (h : Allocatable mem ctx alloc_entry bitmap_entry) :
    (init mem ctx.hhdm_addr alloc_entry bitmap_entry).available_frames = alloc_entry.length / FRAME_SIZE := by
  have hsmall := h.small
  exact Nat.mod_eq_of_lt (by omega)

theorem Allocatable.area (h : Allocatable mem ctx alloc_entry bitmap_entry) (hb : Booted p ctx ld)
    (hpos : 0 < alloc_entry.length / FRAME_SIZE) :
    Area (init mem ctx.hhdm_addr alloc_entry bitmap_entry).state ctx alloc_entry := by
  have hend := (hb.direct alloc_entry h.first (Or.inl (Or.inl h.usable))).2
  refine ⟨h.first, h.usable, ?_, le_of_eq h.available⟩
  exact Nat.mod_eq_of_lt (by unfold FRAME_SIZE at *; omega)

theorem Allocatable.unused (h : Allocatable mem ctx alloc_entry bitmap_entry) (hb : Booted p ctx ld) (q : Nat)
    (hq : q < (init mem ctx.hhdm_addr alloc_entry bitmap_entry).available_frames) :
    (init mem ctx.hhdm_addr alloc_entry bitmap_entry).state.frames q = false := by
  obtain ⟨-, hdirect⟩ := hb.direct bitmap_entry h.second h.mapped
  have havail := h.available
  apply (flag_iff hdirect (by rw [havail]; exact h.fit) q hq).mpr
  intro hle
  exact h.clear q hle (by rw [← havail]; exact hq)

theorem init_stacks_all (s : Frames.State) (hsmall : s.available_frames ≤ 2 ^ 20) (hcur : s.latest_frame = 0)
    (hclear : ∀ q, q < s.available_frames → s.frames q = false) (hroom : 22 ≤ s.available_frames) :
    (init_stacks s).1.ist_stacks = (List.range 7).map (stackBase s) ∧ FreeFrom (init_stacks s).2 22 ∧
      (init_stacks s).2.available_frames = s.available_frames ∧ (init_stacks s).2.base_addr = s.base_addr ∧
      ∀ x, x < s.base_addr ∨ frameAddr s 22 ≤ x → (init_stacks s).2.mem x = s.mem x := by
  have hcount : min 7 (stackCount s.available_frames) = 7 := by
    unfold stackCount
    omega
  have hstart : Stacked s 0 s := by
    refine ⟨rfl, rfl, hcur, Nat.zero_le _, ?_⟩
    intro q hq
    rw [hclear q hq]
    simp [stackFrames]
  obtain ⟨hstacks, hstacked⟩ := init_stacks_stacked s (by omega) hcur hclear
  rw [hcount] at hstacks hstacked
  refine ⟨by rw [hstacks], stacked_freeFrom hstacked hsmall, hstacked.available, hstacked.base, ?_⟩
  intro x hx
  apply init_stacks_from_outside hsmall 7 0 s hstart (Nat.zero_le _)
  rw [Nat.sub_zero, Nat.zero_add, hcount]
  exact hx

end SlayerOS.Boot
