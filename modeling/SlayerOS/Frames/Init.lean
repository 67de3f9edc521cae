import SlayerOS.Frames.Proofs
import SlayerOS.Mapper.Code
import Mathlib.Data.List.Nodup

/-!
# The start of the frame allocator (`frames.cc`)

The flags are bytes in the second entry of the memory map, one for each frame of the first
entry. `init` clears as many of them as the second entry has frames, not as many as there
are flags.
-/

open SlayerOS.Bytes SlayerOS.Paging
open SlayerOS.Mapper (MemmapEntry MemmapType)

namespace SlayerOS.Frames

/-- The globals of `frames.cc` with the flags where they are: in memory, from `frames` on. -/
structure Globals where
  frames : Nat
  nframes : Nat
  latest_frame : Nat
  available_frames : Nat
  base_addr : Nat
  mem : Mem

/-- `Mem::Frame::init`, with `memmap_entries[0]` and `memmap_entries[1]`. -/
def init (mem : Mem) (hhdm_addr : Nat) (alloc_entry bitmap_entry : MemmapEntry) : Globals :=
  let nframes := bitmap_entry.length / FRAME_SIZE
  let frames := PHYS2VIRT hhdm_addr bitmap_entry.base
  { frames
    nframes
    latest_frame := 0
    available_frames := alloc_entry.length / FRAME_SIZE % 2 ^ 32
    base_addr := PHYS2VIRT hhdm_addr alloc_entry.base
    mem := fill mem frames nframes 0 }

/-- The address of `frames[i]`. -/
def Globals.flagAddr (g : Globals) (i : Nat) : Nat := (g.frames + i) % 2 ^ 64

/-- The allocator, with the flags that are in memory. -/
def Globals.state (g : Globals) : State :=
  { frames := fun i => decide (g.mem (g.flagAddr i) ≠ 0)
    latest_frame := g.latest_frame
    available_frames := g.available_frames
    base_addr := g.base_addr
    mem := g.mem }

/-- The results of the first `n` calls of `alloc`. -/
def allocResults : Nat → State → List (Option Nat)
  | 0, _ => []
  | n + 1, s => (alloc s).1 :: allocResults n (alloc s).2

/-- The flags are in the second entry and clear, so that every frame can be handed out once. -/
structure Ready (g : Globals) (hhdm_addr : Nat) (bitmap_entry : MemmapEntry) : Prop where
  inside : ∀ i, i < g.available_frames → ∃ b, bitmap_entry.base ≤ b ∧ b < bitmap_entry.base + bitmap_entry.length ∧
    g.flagAddr i = PHYS2VIRT hhdm_addr b
  clear : ∀ i, i < g.available_frames → g.state.frames i = false
  calls : g.available_frames ≤ 2 ^ 20 →
    (∀ r ∈ allocResults g.available_frames g.state, r ≠ none) ∧ (allocResults g.available_frames g.state).Nodup

/-! ## Calls of `alloc` on clear flags -/

theorem allocResults_clear (n : Nat) (s : State) (hsmall : s.available_frames ≤ 2 ^ 20)
    (hend : s.latest_frame + n ≤ s.available_frames)
    (hclear : ∀ i, s.latest_frame ≤ i → i < s.available_frames → s.frames i = false) :
    allocResults n s = (List.range' s.latest_frame n).map fun i => some (frameAddr s i) := by
  induction n generalizing s with
  | zero => rfl
  | succ n ih =>
    rcases alloc_spec s (by omega) (by omega) with ⟨k, hle, hlt, -, hused, heq⟩ | ⟨hused, -⟩
    · obtain rfl : k = s.latest_frame := by
        by_contra hne
        have := hused s.latest_frame (le_refl _) (by omega)
        rw [hclear s.latest_frame (le_refl _) (by omega)] at this
        exact absurd this (by simp)
      rw [handed_eq s _ (by omega)] at heq
      rw [allocResults, heq, List.range'_succ, List.map_cons]
      have hrest := ih (alloc s).2
      rw [heq] at hrest
      refine congrArg _ (hrest hsmall (by simp only; omega) ?_)
      intro i hle' hlt'
      simp only at hle' hlt' ⊢
      rw [Function.update_of_ne (by omega)]
      exact hclear i (by omega) hlt'
    · have := hused s.latest_frame (le_refl _) (by omega)
      rw [hclear s.latest_frame (le_refl _) (by omega)] at this
      exact absurd this (by simp)

theorem allocResults_ready (s : State) (hstart : s.latest_frame = 0) (hsmall : s.available_frames ≤ 2 ^ 20)
    (hclear : ∀ i, i < s.available_frames → s.frames i = false) :
    (∀ r ∈ allocResults s.available_frames s, r ≠ none) ∧ (allocResults s.available_frames s).Nodup := by
  rw [allocResults_clear s.available_frames s hsmall (by omega) fun i _ hi => hclear i hi]
  constructor
  · intro r hr
    obtain ⟨i, -, rfl⟩ := List.mem_map.mp hr
    exact Option.some_ne_none _
  · apply List.Nodup.map _ List.nodup_range'
    intro i j h
    exact frameAddr_inj s i j (Option.some.inj h)

/-! ## The flags -/

section Flags

variable {mem : Mem} {hhdm_addr : Nat} {alloc_entry bitmap_entry : MemmapEntry}
  (hdirect : hhdm_addr + bitmap_entry.base + bitmap_entry.length ≤ 2 ^ 64)

include hdirect

theorem flagAddr_inside (i : Nat) (hi : i < bitmap_entry.length) :
    (init mem hhdm_addr alloc_entry bitmap_entry).flagAddr i = hhdm_addr + bitmap_entry.base + i := by
  simp only [init, Globals.flagAddr, PHYS2VIRT]
  omega

theorem inside_iff (hlength : bitmap_entry.length < 2 ^ 64) :
    (∀ i, i < (init mem hhdm_addr alloc_entry bitmap_entry).available_frames →
      ∃ b, bitmap_entry.base ≤ b ∧ b < bitmap_entry.base + bitmap_entry.length ∧
        (init mem hhdm_addr alloc_entry bitmap_entry).flagAddr i = PHYS2VIRT hhdm_addr b) ↔
      (init mem hhdm_addr alloc_entry bitmap_entry).available_frames ≤ bitmap_entry.length := by
  constructor
  · intro h
    by_contra hlt
    -- The flag behind the last byte of the entry.
    obtain ⟨b, hle, hlt, heq⟩ := h bitmap_entry.length (by omega)
    simp only [init, Globals.flagAddr, PHYS2VIRT] at heq
    omega
  · intro h i hi
    refine ⟨bitmap_entry.base + i, by omega, by omega, ?_⟩
    rw [flagAddr_inside hdirect i (by omega), PHYS2VIRT]
    omega

theorem flag_iff (h : (init mem hhdm_addr alloc_entry bitmap_entry).available_frames ≤ bitmap_entry.length) (i : Nat)
    (hi : i < (init mem hhdm_addr alloc_entry bitmap_entry).available_frames) :
    (init mem hhdm_addr alloc_entry bitmap_entry).state.frames i = false ↔
      (bitmap_entry.length / FRAME_SIZE ≤ i → mem (PHYS2VIRT hhdm_addr bitmap_entry.base + i) = 0) := by
  have haddr : PHYS2VIRT hhdm_addr bitmap_entry.base = hhdm_addr + bitmap_entry.base := by
    unfold PHYS2VIRT
    omega
  have hbyte : (init mem hhdm_addr alloc_entry bitmap_entry).state.frames i =
      decide (fill mem (hhdm_addr + bitmap_entry.base) (bitmap_entry.length / FRAME_SIZE) 0
        (hhdm_addr + bitmap_entry.base + i) ≠ 0) := by
    have hflag : (init mem hhdm_addr alloc_entry bitmap_entry).flagAddr i = hhdm_addr + bitmap_entry.base + i :=
      flagAddr_inside hdirect i (by omega)
    simp only [Globals.state, hflag]
    rw [← haddr]
    rfl
  rw [hbyte, decide_eq_false_iff_not, not_not, haddr]
  by_cases hcleared : i < bitmap_entry.length / FRAME_SIZE
  · rw [fill, if_pos (by omega)]
    exact iff_of_true rfl fun hle => by omega
  · rw [fill, if_neg (by omega)]
    exact ⟨fun hzero _ => hzero, fun hzero => hzero (by omega)⟩

end Flags

/-! ## The start -/

/-- The allocator is ready exactly when the second entry has a byte for each frame of the
first one, and the flags that are not cleared were clear before. -/
theorem init_ready_iff (mem : Mem) (hhdm_addr : Nat) (alloc_entry bitmap_entry : MemmapEntry)
    (hdirect : hhdm_addr + bitmap_entry.base + bitmap_entry.length ≤ 2 ^ 64)
    (hlength : bitmap_entry.length < 2 ^ 64) :
    Ready (init mem hhdm_addr alloc_entry bitmap_entry) hhdm_addr bitmap_entry ↔
      alloc_entry.length / FRAME_SIZE % 2 ^ 32 ≤ bitmap_entry.length ∧
      ∀ i, bitmap_entry.length / FRAME_SIZE ≤ i → i < alloc_entry.length / FRAME_SIZE % 2 ^ 32 →
        mem (PHYS2VIRT hhdm_addr bitmap_entry.base + i) = 0 := by
  constructor
  · rintro ⟨hinside, hclear, -⟩
    have h := (inside_iff hdirect hlength).mp hinside
    exact ⟨h, fun i hle hi => (flag_iff hdirect h i hi).mp (hclear i hi) hle⟩
  · rintro ⟨h, hzero⟩
    have hclear : ∀ i, i < (init mem hhdm_addr alloc_entry bitmap_entry).available_frames →
        (init mem hhdm_addr alloc_entry bitmap_entry).state.frames i = false :=
      fun i hi => (flag_iff hdirect h i hi).mpr fun hle => hzero i hle hi
    exact ⟨(inside_iff hdirect hlength).mpr h, hclear, fun hsmall =>
      allocResults_ready (init mem hhdm_addr alloc_entry bitmap_entry).state rfl hsmall hclear⟩

theorem init_ready_iff_sixteen :
    Ready (init (fun _ => 0xcc) 0xffff800000000000 ⟨0x100000, 0x10000, .USABLE⟩ ⟨0x200000, 0x10000, .USABLE⟩)
      0xffff800000000000 ⟨0x200000, 0x10000, .USABLE⟩ := by
  refine (init_ready_iff (fun _ => 0xcc) 0xffff800000000000 ⟨0x100000, 0x10000, .USABLE⟩
    ⟨0x200000, 0x10000, .USABLE⟩ (by decide) (by decide)).mpr ⟨by decide, ?_⟩
  intro i hle hlt
  simp only [FRAME_SIZE] at hle hlt
  omega

/-- Three frames for the flags of 32 MiB. The flags fit, but only three of them are cleared, and
the next one is what was in memory before. -/
theorem dirty_flags :
    ¬ Ready (init (fun _ => 0xcc) 0xffff800000000000 ⟨0x100000, 0x2000000, .USABLE⟩ ⟨0x4000000, 0x3000, .USABLE⟩)
      0xffff800000000000 ⟨0x4000000, 0x3000, .USABLE⟩ := by
  intro h
  have := h.clear 3 (by decide)
  exact absurd this (by decide)

end SlayerOS.Frames
