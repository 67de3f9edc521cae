import SlayerOS.Frames.Proofs

/-!
# Where the interrupt stacks are

At the boot no frame is used yet. Each stack takes four frames, and starts with the last frame of
the one before it.
-/

namespace SlayerOS.Frames

/-- The frames of the first `j` stacks. -/
def stackFrames (j : Nat) : Nat := if j = 0 then 0 else 3 * j + 1

/-- The number of stacks that fit. -/
def stackCount (available_frames : Nat) : Nat := (available_frames - 1) / 3

def stackBase (s : State) (i : Nat) : Nat := frameAddr s (3 * i)

def stackTop (s : State) (i : Nat) : Nat := frameAddr s (3 * i + 4)

/-- The allocator behind `j` stacks, where it started with clear flags in `s`. -/
structure Stacked (s : State) (j : Nat) (t : State) : Prop where
  available : t.available_frames = s.available_frames
  base : t.base_addr = s.base_addr
  cursor : t.latest_frame = j
  room : stackFrames j ≤ s.available_frames
  flags : ∀ q, q < s.available_frames → (t.frames q = true ↔ q < stackFrames j)

theorem Stacked.hit_iff {s t : State} {j : Nat} (h : Stacked s j t) (p : Nat) :
    Hit t 4 p ↔ p = 3 * j ∧ 3 * j + 4 ≤ s.available_frames := by
  have hflags := h.flags
  unfold Hit
  rw [h.cursor, h.available]
  constructor
  · rintro ⟨hlo, hend, hfirst, hfree⟩
    have hp : p = 3 * j := by
      by_contra hne
      rcases Nat.lt_or_ge p (3 * j) with hlt | hge
      · -- The frame behind `p` is used.
        have hused := (hflags (p + 1) (by omega)).mpr (by unfold stackFrames; split <;> omega)
        rw [hfree (p + 1) (by omega) (by omega)] at hused
        cases hused
      · rcases hfirst with rfl | hused
        · omega
        · have hlast := (hflags p (by omega)).mp hused
          unfold stackFrames at hlast
          split at hlast <;> omega
    exact ⟨hp, by omega⟩
  · rintro ⟨rfl, hend⟩
    refine ⟨by omega, hend, ?_, ?_⟩
    · rcases Nat.eq_zero_or_pos j with rfl | hpos
      · exact Or.inl rfl
      · right
        refine (hflags (3 * j) (by omega)).mpr ?_
        unfold stackFrames
        split <;> omega
    · intro q hlo hhi
      have hfree := (hflags q (by omega)).not.mpr (by unfold stackFrames; split <;> omega)
      simpa using hfree

theorem Stacked.next {s t : State} {j : Nat} (h : Stacked s j t) (hroom : 3 * j + 4 ≤ s.available_frames) :
    Stacked s (j + 1) (taken t 4 (3 * j)) := by
  refine ⟨h.available, h.base, congrArg (· + 1) h.cursor, ?_, ?_⟩
  · unfold stackFrames
    split <;> omega
  · intro q hq
    have hbefore := h.flags q hq
    simp only [taken, set_run]
    unfold stackFrames at *
    split
    · simp
      omega
    · rw [hbefore]
      split <;> simp <;> omega

/-- The first stacks are where the products of frame numbers and sizes have 32 bits. -/
theorem Stacked.allocs {s t : State} {j : Nat} (h : Stacked s j t) (hlt : s.available_frames < 2 ^ 32) (hj : j < 7)
    (hcur : t.latest_frame ≤ t.available_frames) :
    (∃ k, Hit t 4 k ∧ Frames.allocs t 4 = (some (frameAddr t k), taken t 4 k)) ∨
      ((∀ p, ¬ Hit t 4 p) ∧ Frames.allocs t 4 = (none, t)) := by
  rcases allocs_first_hit t 4 (by decide) (by rw [h.available]; exact hlt) hcur with ⟨k, hhit, -, heq⟩ | hnone
  · obtain ⟨rfl, -⟩ := (h.hit_iff k).mp hhit
    refine Or.inl ⟨3 * j, hhit, ?_⟩
    rw [heq, handed_eq t (3 * j) (by omega), taken]
  · exact Or.inr hnone

theorem stackCount_le_iff (n j : Nat) : j + 1 ≤ stackCount n ↔ 3 * j + 4 ≤ n := by
  unfold stackCount
  omega

theorem init_stacks_from_layout {s : State} (hlt : s.available_frames < 2 ^ 32) (n j : Nat) (t : State)
    (h : Stacked s j t) (hj : j ≤ stackCount s.available_frames) (hseven : j + n ≤ 7) :
    (init_stacks_from n (j + 1) t).1 =
        ⟨(List.range' j (min n (stackCount s.available_frames - j))).map (stackBase s),
          (List.range' j (min n (stackCount s.available_frames - j))).map (stackTop s),
          if n ≤ stackCount s.available_frames - j then .success "TSS IST stacks allocated and configured"
          else .critical s!"Failed to allocate IST stack {stackCount s.available_frames + 1}"⟩ ∧
      Stacked s (j + min n (stackCount s.available_frames - j)) (init_stacks_from n (j + 1) t).2 := by
  induction n generalizing j t with
  | zero =>
    rw [Nat.zero_min, if_pos (Nat.zero_le _)]
    exact ⟨rfl, h⟩
  | succ n ih =>
    have hcursor : t.latest_frame ≤ t.available_frames := by
      rw [h.cursor, h.available]
      unfold stackCount at hj
      omega
    rw [init_stacks_step]
    rcases h.allocs hlt (by omega) hcursor with ⟨k, hhit, heq⟩ | ⟨hnone, heq⟩
    · obtain ⟨rfl, hroom⟩ := (h.hit_iff k).mp hhit
      have hfits := (stackCount_le_iff s.available_frames j).mpr hroom
      obtain ⟨hstacks, hstacked⟩ := ih (j + 1) (taken t 4 (3 * j)) (h.next hroom) hfits (by omega)
      have hmin : min (n + 1) (stackCount s.available_frames - j) =
          min n (stackCount s.available_frames - (j + 1)) + 1 := by omega
      have hbase : frameAddr t (3 * j) = stackBase s j := by
        unfold stackBase frameAddr
        rw [h.base]
      have htop : stackBase s j + IST_STACK_SIZE = stackTop s j := by
        unfold stackBase stackTop frameAddr IST_STACK_SIZE FRAME_SIZE
        omega
      rw [heq]
      dsimp only
      rw [hstacks, hmin, List.range'_succ, List.map_cons, List.map_cons, hbase, htop]
      refine ⟨?_, ?_⟩
      · congr 1
        refine if_congr ?_ rfl rfl
        omega
      · rw [← Nat.add_assoc, Nat.add_right_comm]
        exact hstacked
    · rw [heq]
      have hfull : stackCount s.available_frames = j := by
        by_contra hne
        exact hnone (3 * j) ((h.hit_iff _).mpr ⟨rfl, (stackCount_le_iff _ _).mp (by omega)⟩)
      have hzero : min (n + 1) (stackCount s.available_frames - j) = 0 := by omega
      rw [hzero, if_neg (by omega), hfull]
      exact ⟨rfl, h⟩

theorem init_stacks_stacked (s : State) (hlt : s.available_frames < 2 ^ 32) (hcur : s.latest_frame = 0)
    (hclear : ∀ q, q < s.available_frames → s.frames q = false) :
    (init_stacks s).1 =
        ⟨(List.range (min 7 (stackCount s.available_frames))).map (stackBase s),
          (List.range (min 7 (stackCount s.available_frames))).map (stackTop s),
          if 7 ≤ stackCount s.available_frames then .success "TSS IST stacks allocated and configured"
          else .critical s!"Failed to allocate IST stack {stackCount s.available_frames + 1}"⟩ ∧
      Stacked s (min 7 (stackCount s.available_frames)) (init_stacks s).2 := by
  have hstart : Stacked s 0 s := by
    refine ⟨rfl, rfl, hcur, Nat.zero_le _, ?_⟩
    intro q hq
    rw [hclear q hq]
    simp [stackFrames]
  obtain ⟨hstacks, hstacked⟩ := init_stacks_from_layout hlt 7 0 s hstart (Nat.zero_le _) (le_refl _)
  rw [Nat.sub_zero, ← List.range_eq_range'] at hstacks
  rw [Nat.sub_zero, Nat.zero_add] at hstacked
  exact ⟨hstacks, hstacked⟩

/-- What `init_stacks` does with an unused area: each stack lies on the last frame of the one before
it, the first one that does not fit is reported, and the frame that is handed out next is the first
one behind them all. -/
theorem init_stacks_layout (s : State) (hlt : s.available_frames < 2 ^ 32) (hcur : s.latest_frame = 0)
    (hclear : ∀ q, q < s.available_frames → s.frames q = false) :
    (init_stacks s).1 =
        ⟨(List.range (min 7 (stackCount s.available_frames))).map (stackBase s),
          (List.range (min 7 (stackCount s.available_frames))).map (stackTop s),
          if 7 ≤ stackCount s.available_frames then .success "TSS IST stacks allocated and configured"
          else .critical s!"Failed to allocate IST stack {stackCount s.available_frames + 1}"⟩ ∧
      (∀ q, q < s.available_frames →
        ((init_stacks s).2.frames q = true ↔ q < stackFrames (min 7 (stackCount s.available_frames)))) ∧
      (alloc (init_stacks s).2).1 =
        if stackFrames (min 7 (stackCount s.available_frames)) < s.available_frames then
          some (frameAddr s (stackFrames (min 7 (stackCount s.available_frames))))
        else none := by
  obtain ⟨hstacks, hstacked⟩ := init_stacks_stacked s hlt hcur hclear
  refine ⟨hstacks, hstacked.flags, ?_⟩
  have hseven : min 7 (stackCount s.available_frames) ≤ 7 := Nat.min_le_left _ _
  generalize (init_stacks s).2 = t at *
  generalize min 7 (stackCount s.available_frames) = k at *
  have hlow : stackFrames k ≤ 22 := by
    unfold stackFrames
    split <;> omega
  have hcursor : t.latest_frame ≤ stackFrames k := by
    rw [hstacked.cursor]
    unfold stackFrames
    split <;> omega
  have hroom := hstacked.room
  have hflags := hstacked.flags
  rcases alloc_spec t (by rw [hstacked.available]; omega) (by rw [hstacked.available]; omega) with
    ⟨j, hlo, hhi, hfree, hused, heq⟩ | ⟨hused, heq⟩
  · rw [hstacked.available] at hhi
    have hnot := (hflags j hhi).not.mp (by rw [hfree]; decide)
    have hnext : j = stackFrames k := by
      by_contra hne
      have htaken := (hflags (stackFrames k) (by omega)).mp (hused _ hcursor (by omega))
      omega
    have haddr : frameAddr t (stackFrames k) = frameAddr s (stackFrames k) := by
      unfold frameAddr
      rw [hstacked.base]
    rw [heq, hnext, handed_eq t (stackFrames k) (by omega), haddr, if_pos (by omega)]
  · rw [heq, if_neg]
    intro hlt
    have htaken := (hflags (stackFrames k) hlt).mp (hused _ hcursor (by rw [hstacked.available]; exact hlt))
    omega

/-- Twelve frames: the fourth stack does not fit. -/
theorem init_stacks_layout_twelve :
    (init_stacks (cleared 12 0x100000 (fun _ => 0))).1 =
      ⟨[0x100000, 0x103000, 0x106000], [0x104000, 0x107000, 0x10A000],
        .critical "Failed to allocate IST stack 4"⟩ := by
  rw [(init_stacks_layout (cleared 12 0x100000 (fun _ => 0)) (by decide) rfl (fun _ _ => rfl)).1]
  rfl

end SlayerOS.Frames
