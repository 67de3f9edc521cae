import SlayerOS.Frames.Proofs

/-!
# Frames and their addresses

`alloc` and `allocs` go from the number of a frame to its address, and `free` goes back.
Both ways are cut to 32 bits, so they are good for the first 4 GiB of the area.
-/

open SlayerOS.Bytes

namespace SlayerOS.Frames

/-! ## Bounds -/

/-- Cursor and owned frames stay inside the area, whatever the flags are. -/
structure Bounded (w : World) : Prop where
  lt : w.s.available_frames < 2 ^ 32
  cursor : w.s.latest_frame ≤ w.s.available_frames
  inside : ∀ k ∈ w.owned, k < w.s.available_frames

theorem frameOf_handed (s : State) (k : Nat) : frameOf s (handed s k) = k % 2 ^ 20 := by
  unfold frameOf handed FRAME_SIZE
  omega

theorem free_eq (s : State) (k : Nat) :
    free s (frameAddr s k) =
      { s with frames := Function.update s.frames (k % 2 ^ 20) false, latest_frame := k % 2 ^ 20 } := by
  have hnum : sub64 (frameAddr s k) s.base_addr % 2 ^ 32 / FRAME_SIZE = k % 2 ^ 20 := by
    unfold sub64 frameAddr FRAME_SIZE
    omega
  unfold free
  simp only [hnum]

theorem Bounded.grant {w : World} (hw : Bounded w) (s' : State) (n k : Nat)
    (havail : s'.available_frames = w.s.available_frames) (hcur : s'.latest_frame ≤ w.s.available_frames)
    (hend : k + n ≤ w.s.available_frames) :
    Bounded ⟨s', List.range' (k % 2 ^ 20) n ++ w.owned⟩ := by
  refine ⟨by simpa only [havail] using hw.lt, by simpa only [havail] using hcur, ?_⟩
  intro q hq
  simp only [havail]
  rcases List.mem_append.mp hq with hq | hq
  · rw [List.mem_range'_1] at hq
    omega
  · exact hw.inside q hq

theorem next_bounded (w : World) (c : Call) (hw : Bounded w) (hc : Legal w c) : Bounded (next w c) := by
  have hlt := hw.lt
  cases c with
  | alloc =>
    rcases alloc_spec w.s hw.lt hw.cursor with ⟨k, -, hk, -, -, heq⟩ | ⟨-, heq⟩
    · simp only [next, after, granted, result, heq, frameOf_handed, Call.size]
      exact hw.grant _ 1 k rfl hk hk
    · simp only [next, after, granted, result, heq, List.nil_append]
      exact ⟨hw.lt, le_refl _, hw.inside⟩
  | allocs n =>
    have hn : 1 ≤ n := hc
    rcases allocs_first_hit w.s n hc hw.lt hw.cursor with ⟨k, hhit, -, heq⟩ | ⟨-, heq⟩
    · have hlo := hhit.1
      have hend := hhit.2.1
      simp only [next, after, granted, result, heq, frameOf_handed, Call.size]
      exact hw.grant _ n k rfl (by simp only [taken]; omega) hend
    · simp only [next, after, granted, result, heq, List.nil_append]
      exact hw
  | free k =>
    have hk := hw.inside k hc
    simp only [next, after, free_eq]
    refine ⟨hw.lt, by simp only; omega, ?_⟩
    intro q hq
    exact hw.inside q (List.mem_of_mem_erase hq)

theorem cleared_bounded (n base : Nat) (mem : Mem) (hn : n < 2 ^ 32) : Bounded ⟨cleared n base mem, []⟩ :=
  ⟨hn, Nat.zero_le _, by simp⟩

/-! ## The states of an allocator -/

/-- The states that calls of the clients lead to, over `n` frames at `base`. -/
inductive Reached (n base : Nat) : World → Prop
  | start (mem : Mem) : Reached n base ⟨cleared n base mem, []⟩
  | call (w : World) (c : Call) : Reached n base w → Legal w c → Reached n base (next w c)

theorem after_area (s : State) (c : Call) :
    (after s c).available_frames = s.available_frames ∧ (after s c).base_addr = s.base_addr := by
  cases c with
  | alloc =>
    simp only [after, alloc]
    split <;> exact ⟨rfl, rfl⟩
  | allocs n =>
    simp only [after, allocs]
    split <;> exact ⟨rfl, rfl⟩
  | free k => exact ⟨rfl, rfl⟩

theorem Reached.bounded {n base : Nat} {w : World} (h : Reached n base w) (hn : n < 2 ^ 32) :
    Bounded w ∧ w.s.available_frames = n ∧ w.s.base_addr = base := by
  induction h with
  | start mem => exact ⟨cleared_bounded n base mem hn, rfl, rfl⟩
  | call w c _ hc ih =>
    obtain ⟨hw, havail, hbase⟩ := ih
    obtain ⟨h1, h2⟩ := after_area w.s c
    exact ⟨next_bounded w c hw hc, h1.trans havail, h2.trans hbase⟩

/-- The first `i` frames are in use, the others are free, and the cursor is between them. -/
def FilledTo (s : State) (i : Nat) : Prop :=
  s.latest_frame = i ∧ ∀ q, s.frames q = true ↔ q < i

theorem FilledTo.alloc {s : State} {i : Nat} (h : FilledTo s i) (hlt : s.available_frames < 2 ^ 32)
    (hi : i < s.available_frames) : FilledTo (alloc s).2 (i + 1) := by
  obtain ⟨hcur, hused⟩ := h
  have hfree : s.frames i = false := by simpa using (hused i).not.mpr (lt_irrefl i)
  rcases alloc_spec s hlt (by omega) with ⟨k, hlo, -, -, hbefore, heq⟩ | ⟨hfull, -⟩
  · have hk : k = i := by
      by_contra hne
      have := hbefore i (by omega) (by omega)
      simp [hfree] at this
    simp only [heq, hk]
    refine ⟨rfl, ?_⟩
    intro q
    by_cases hq : q = i
    · simp [hq]
    · simp only [Function.update_of_ne hq, hused]
      omega
  · have := hfull i (by omega) hi
    simp [hfree] at this

theorem reached_filled (n base i : Nat) (hn : n < 2 ^ 32) (hi : i ≤ n) :
    ∃ w, Reached n base w ∧ FilledTo w.s i := by
  induction i with
  | zero => exact ⟨_, .start fun _ => 0, rfl, by simp [cleared]⟩
  | succ i ih =>
    obtain ⟨w, hw, hfilled⟩ := ih (by omega)
    obtain ⟨-, havail, -⟩ := hw.bounded hn
    exact ⟨_, hw.call w .alloc trivial, hfilled.alloc (by omega) (by omega)⟩

/-! ## Numbers and addresses -/

/-- `alloc` takes frame `i`: it is the first free one from the cursor on. -/
def AllocTakes (s : State) (i : Nat) : Prop :=
  s.latest_frame ≤ i ∧ i < s.available_frames ∧ s.frames i = false ∧
  ∀ q, s.latest_frame ≤ q → q < i → s.frames q = true

/-- `allocs` takes the `n` frames from `i` on: there is no hit before. -/
def AllocsTakes (s : State) (n i : Nat) : Prop :=
  1 ≤ n ∧ Hit s n i ∧ ∀ p, p < i → ¬ Hit s n p

/-- Whenever frame `i` is handed out, its address is the right one. To free that address
clears the flag of frame `i`, and no other, and puts the cursor on it. -/
def Exact (n base i : Nat) : Prop :=
  ∀ w, Reached n base w →
    (AllocTakes w.s i → (alloc w.s).1 = some (base + 4096 * i)) ∧
    (∀ count, AllocsTakes w.s count i → (allocs w.s count).1 = some (base + 4096 * i)) ∧
    free w.s (base + 4096 * i) =
      { w.s with frames := Function.update w.s.frames i false, latest_frame := i }

/-- Different frames are handed out at different addresses. -/
def Distinct (n base : Nat) : Prop :=
  ∀ w w' i j, Reached n base w → Reached n base w' → AllocTakes w.s i → AllocTakes w'.s j → i ≠ j →
    (alloc w.s).1 ≠ (alloc w'.s).1

theorem alloc_address (s : State) (i : Nat) (hlt : s.available_frames < 2 ^ 32)
    (hi : AllocTakes s i) : (alloc s).1 = some (handed s i) := by
  obtain ⟨hlo, hend, hfree, hbefore⟩ := hi
  rcases alloc_spec s hlt (by omega) with ⟨k, hk, -, hkfree, hkbefore, heq⟩ | ⟨hfull, -⟩
  · have hki : k = i := by
      rcases Nat.lt_trichotomy k i with h | h | h
      · simp [hbefore k hk h] at hkfree
      · exact h
      · simp [hkbefore i hlo h] at hfree
    rw [heq, hki]
  · simp [hfull i hlo hend] at hfree

theorem allocs_address (s : State) (n i : Nat) (hlt : s.available_frames < 2 ^ 32)
    (hcur : s.latest_frame ≤ s.available_frames) (hi : AllocsTakes s n i) :
    (allocs s n).1 = some (handed s i) := by
  obtain ⟨hn, hhit, hfirst⟩ := hi
  rcases allocs_first_hit s n hn hlt hcur with ⟨k, hk, hkfirst, heq⟩ | ⟨hnone, -⟩
  · have hki : k = i := by
      rcases Nat.lt_trichotomy k i with h | h | h
      · exact absurd hk (hfirst k h)
      · exact h
      · exact absurd hhit (hkfirst i h)
    rw [heq, hki]
  · exact absurd hhit (hnone i)

theorem exact_of_lt (n base i : Nat) (hn : n < 2 ^ 32) (hi : i < 2 ^ 20) : Exact n base i := by
  intro w hw
  obtain ⟨hbounded, havail, hbase⟩ := hw.bounded hn
  have haddr : base + 4096 * i = frameAddr w.s i := by
    rw [frameAddr, hbase, FRAME_SIZE]
    omega
  rw [haddr]
  refine ⟨?_, ?_, free_spec w.s i hi⟩
  · intro htakes
    rw [alloc_address w.s i hbounded.lt htakes, handed_eq w.s i hi]
  · intro count htakes
    rw [allocs_address w.s count i hbounded.lt hbounded.cursor htakes, handed_eq w.s i hi]

/-- The address of a later frame is too low by a multiple of 4 GiB. -/
theorem not_exact_of_le (n base i : Nat) (hn : n < 2 ^ 32) (hi : i < n) (hbig : 2 ^ 20 ≤ i) :
    ¬ Exact n base i := by
  intro hexact
  obtain ⟨w, hw, hcur, hused⟩ := reached_filled n base i hn (by omega)
  obtain ⟨hbounded, havail, hbase⟩ := hw.bounded hn
  have htakes : AllocTakes w.s i := by
    refine ⟨by omega, by omega, by simpa using (hused i).not.mpr (lt_irrefl i), ?_⟩
    intro q h1 h2
    omega
  have := (hexact w hw).1 htakes
  rw [alloc_address w.s i hbounded.lt htakes, Option.some.injEq, handed, hbase, FRAME_SIZE] at this
  omega

theorem distinct_of_le (n base : Nat) (hn : n ≤ 2 ^ 20) : Distinct n base := by
  intro w w' i j hw hw' hi hj hij heq
  obtain ⟨hbounded, havail, hbase⟩ := hw.bounded (by omega)
  obtain ⟨hbounded', havail', hbase'⟩ := hw'.bounded (by omega)
  have hin := hi.2.1
  have hjn := hj.2.1
  rw [alloc_address w.s i hbounded.lt hi, alloc_address w'.s j hbounded'.lt hj, Option.some.injEq,
    handed, handed, hbase, hbase', FRAME_SIZE] at heq
  omega

/-- A frame has the right address exactly when its number has 20 bits, and all of them do
exactly when the area has at most that many frames. -/
theorem exact_iff_small (n base : Nat) (hn : n < 2 ^ 32) :
    (∀ i, i < n → (Exact n base i ↔ i < 2 ^ 20)) ∧
    ((∀ i, i < n → Exact n base i) ∧ Distinct n base ↔ n ≤ 2 ^ 20) := by
  have hiff : ∀ i, i < n → (Exact n base i ↔ i < 2 ^ 20) := by
    intro i hi
    constructor
    · intro hexact
      by_contra hbig
      exact not_exact_of_le n base i hn hi (by omega) hexact
    · exact exact_of_lt n base i hn
  refine ⟨hiff, ?_, ?_⟩
  · rintro ⟨hexact, -⟩
    by_contra hbig
    exact not_exact_of_le n base (2 ^ 20) hn (by omega) (le_refl _) (hexact _ (by omega))
  · intro hsmall
    exact ⟨fun i hi => exact_of_lt n base i hn (by omega), distinct_of_le n base hsmall⟩

theorem exact_iff_small_thousand :
    Exact 1000 0xffff800000100000 999 ∧ Distinct 1000 0xffff800000100000 := by
  obtain ⟨hframe, harea⟩ := exact_iff_small 1000 0xffff800000100000 (by decide)
  exact ⟨(hframe 999 (by decide)).mpr (by decide), (harea.mpr (by decide)).2⟩

/-- An area of 4 GiB and one frame: the last frame is handed out at the address of the
first one. -/
theorem last_frame_wraps :
    ∃ w, Reached (2 ^ 20 + 1) 0xffff800000100000 w ∧ AllocTakes w.s (2 ^ 20) ∧
      (alloc w.s).1 = some 0xffff800000100000 ∧ ¬ Exact (2 ^ 20 + 1) 0xffff800000100000 (2 ^ 20) := by
  obtain ⟨w, hw, hcur, hused⟩ := reached_filled (2 ^ 20 + 1) 0xffff800000100000 (2 ^ 20) (by omega) (by omega)
  obtain ⟨hbounded, havail, hbase⟩ := hw.bounded (by omega)
  have htakes : AllocTakes w.s (2 ^ 20) := by
    refine ⟨by omega, by omega, by simpa using (hused (2 ^ 20)).not.mpr (lt_irrefl _), ?_⟩
    intro q h1 h2
    omega
  refine ⟨w, hw, htakes, ?_, not_exact_of_le _ _ _ (by omega) (by omega) (le_refl _)⟩
  rw [alloc_address w.s _ hbounded.lt htakes, handed, hbase, FRAME_SIZE]
  exact congrArg some (by omega)

end SlayerOS.Frames
