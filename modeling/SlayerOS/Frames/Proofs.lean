import SlayerOS.Frames.Spec
import Mathlib.Tactic.IntervalCases

/-!
# The frame allocator and its owners

One spec per function of `frames.cc`, then runs of any length.
-/

open SlayerOS.Bytes SlayerOS.Run

namespace SlayerOS.Frames

/-! ## `alloc` -/

theorem skip_used_spec (frames : Nat → Bool) (n i : Nat) :
    i ≤ skip_used frames n i ∧ skip_used frames n i ≤ i + n ∧
    (∀ q, i ≤ q → q < skip_used frames n i → frames q = true) ∧
    (skip_used frames n i < i + n → frames (skip_used frames n i) = false) := by
  induction n generalizing i with
  | zero => exact ⟨le_refl _, le_refl _, fun q h1 h2 => absurd h2 (by simp [skip_used]; omega), by simp [skip_used]⟩
  | succ n ih =>
    rw [skip_used]
    by_cases hi : frames i = true
    · obtain ⟨h1, h2, h3, h4⟩ := ih (i + 1)
      rw [if_pos hi]
      refine ⟨by omega, by omega, ?_, fun h => h4 (by omega)⟩
      intro q hq1 hq2
      rcases Nat.eq_or_lt_of_le hq1 with rfl | hq
      · exact hi
      · exact h3 q hq hq2
    · rw [if_neg hi]
      exact ⟨le_refl _, by omega, fun q h1 h2 => absurd h2 (by omega), fun _ => by simpa using hi⟩

theorem handed_eq (s : State) (k : Nat) (hk : k < 2 ^ 20) : handed s k = frameAddr s k := by
  unfold handed frameAddr FRAME_SIZE
  omega

theorem alloc_spec (s : State) (hlt : s.available_frames < 2 ^ 32)
    (hcur : s.latest_frame ≤ s.available_frames) :
    (∃ k, s.latest_frame ≤ k ∧ k < s.available_frames ∧ s.frames k = false ∧
      (∀ q, s.latest_frame ≤ q → q < k → s.frames q = true) ∧
      alloc s = (some (handed s k),
        { s with
          frames := Function.update s.frames k true
          latest_frame := k + 1
          mem := fill s.mem (handed s k) FRAME_SIZE 0 })) ∨
    ((∀ q, s.latest_frame ≤ q → q < s.available_frames → s.frames q = true) ∧
      alloc s = (none, { s with latest_frame := s.available_frames })) := by
  obtain ⟨h1, h2, h3, h4⟩ :=
    skip_used_spec s.frames (s.available_frames - s.latest_frame) s.latest_frame
  unfold alloc
  generalize skip_used s.frames (s.available_frames - s.latest_frame) s.latest_frame = k at *
  by_cases hk : k = s.available_frames
  · right
    rw [hk] at h3
    exact ⟨h3, by simp [hk]⟩
  · left
    have hnext : (k + 1) % 2 ^ 32 = k + 1 := Nat.mod_eq_of_lt (by omega)
    refine ⟨k, h1, by omega, h4 (by omega), h3, ?_⟩
    simp only [if_neg hk, hnext, handed]

/-! ## `allocs` -/

/-- The scan at index `i`: the run has counted `start .. i`, and nothing before fits. -/
structure ScanInv (s : State) (n i start count : Nat) : Prop where
  count_eq : start + count = i
  short : count < n
  lo : s.latest_frame ≤ start
  first : start = s.latest_frame ∨ s.frames start = true
  free : ∀ q, start < q → q < i → s.frames q = false
  missed : ∀ p, p + n ≤ i → ¬ Hit s n p

theorem ScanInv.used {s : State} {n i start count : Nat} (h : ScanInv s n i start count)
    (hi : s.frames i = true) (hn : 1 < n) : ScanInv s n (i + 1) i 1 where
  count_eq := rfl
  short := hn
  lo := by have := h.lo; have := h.count_eq; omega
  first := Or.inr hi
  free := fun q h1 h2 => absurd h2 (by omega)
  missed := by
    intro p hp hhit
    by_cases hpi : p + n ≤ i
    · exact h.missed p hpi hhit
    · have := hhit.2.2.2 i (by omega) (by omega)
      simp [hi] at this

theorem ScanInv.unused {s : State} {n i start count : Nat} (h : ScanInv s n i start count)
    (hi : s.frames i = false) (hn : count + 1 < n) : ScanInv s n (i + 1) start (count + 1) where
  count_eq := by have := h.count_eq; omega
  short := hn
  lo := h.lo
  first := h.first
  free := by
    intro q h1 h2
    by_cases hq : q = i
    · rw [hq, hi]
    · exact h.free q h1 (by omega)
  missed := by
    intro p hp hhit
    have hc := h.count_eq
    by_cases hpi : p + n ≤ i
    · exact h.missed p hpi hhit
    · -- The run would end at `i`, and so start before `start`, which is used.
      rcases h.first with hs | hs
      · have := hhit.1
        omega
      · have := hhit.2.2.2 start (by omega) (by omega)
        simp [hs] at this

theorem find_run_spec (s : State) (n m i start count : Nat) (hend : i + m = s.available_frames)
    (h : ScanInv s n i start count) :
    (Hit s n (find_run s.frames n m i start count).1 ∧
      (find_run s.frames n m i start count).2 = n ∧
      ∀ p, p < (find_run s.frames n m i start count).1 → ¬ Hit s n p) ∨
    ((find_run s.frames n m i start count).2 < n ∧ ∀ p, ¬ Hit s n p) := by
  induction m generalizing i start count with
  | zero =>
    right
    exact ⟨h.short, fun p hp => h.missed p (by have := hp.2.1; omega) hp⟩
  | succ m ih =>
    have hc := h.count_eq
    have hlo := h.lo
    rw [find_run]
    cases hi : s.frames i with
    | true =>
      simp only [if_true]
      by_cases hn : 1 = n
      · left
        rw [if_pos hn]
        refine ⟨⟨by omega, by omega, Or.inr hi, fun q h1 h2 => absurd h2 (by omega)⟩, hn, ?_⟩
        intro p hp
        exact h.missed p (by simp only at hp; omega)
      · rw [if_neg hn]
        exact ih (i + 1) i 1 (by omega) (h.used hi (by have := h.short; omega))
    | false =>
      simp only [Bool.false_eq_true, if_false]
      by_cases hn : count + 1 = n
      · left
        rw [if_pos hn]
        refine ⟨⟨hlo, by simp only; omega, h.first, ?_⟩, hn, ?_⟩
        · intro q h1 h2
          simp only at h1 h2
          by_cases hq : q = i
          · rw [hq, hi]
          · exact h.free q h1 (by omega)
        · intro p hp
          exact h.missed p (by simp only at hp; omega)
      · rw [if_neg hn]
        exact ih (i + 1) start (count + 1) (by omega) (h.unused hi (by have := h.short; omega))

theorem scan_start (s : State) (n : Nat) (hn : 1 ≤ n) :
    ScanInv s n s.latest_frame s.latest_frame 0 where
  count_eq := rfl
  short := hn
  lo := le_refl _
  first := Or.inl rfl
  free := fun q h1 h2 => absurd h2 (by omega)
  missed := fun p hp hhit => absurd hhit.1 (by omega)

/-- The state after `allocs` has taken the run at `k`. -/
def taken (s : State) (n k : Nat) : State :=
  { s with
    frames := set_run s.frames k n
    latest_frame := s.latest_frame + 1
    mem := fill s.mem (frameAddr s k) (n * FRAME_SIZE) 0 }

theorem allocs_first_hit (s : State) (n : Nat) (hn : 1 ≤ n) (hlt : s.available_frames < 2 ^ 32)
    (hcur : s.latest_frame ≤ s.available_frames) :
    (∃ k, Hit s n k ∧ (∀ p, p < k → ¬ Hit s n p) ∧
      allocs s n = (some (handed s k),
        { taken s n k with mem := fill s.mem (handed s k) (n * FRAME_SIZE) 0 })) ∨
    ((∀ p, ¬ Hit s n p) ∧ allocs s n = (none, s)) := by
  have h := find_run_spec s n (s.available_frames - s.latest_frame) s.latest_frame s.latest_frame 0
    (by omega) (scan_start s n hn)
  unfold allocs
  generalize find_run s.frames n (s.available_frames - s.latest_frame) s.latest_frame
    s.latest_frame 0 = r at *
  rcases h with ⟨hhit, hr, hfirst⟩ | ⟨hr, hnone⟩
  · left
    have hend := hhit.2.1
    have hlo := hhit.1
    have hlen : n * FRAME_SIZE % 2 ^ 64 = n * FRAME_SIZE :=
      Nat.mod_eq_of_lt (by unfold FRAME_SIZE; omega)
    have hnext : (s.latest_frame + 1) % 2 ^ 32 = s.latest_frame + 1 := Nat.mod_eq_of_lt (by omega)
    refine ⟨r.1, hhit, hfirst, ?_⟩
    simp only [if_neg (by omega : ¬ r.2 < n), hlen, hnext, handed, taken]
  · right
    exact ⟨hnone, by simp only [if_pos hr]⟩

theorem allocs_spec (s : State) (n : Nat) (hn : 1 ≤ n) (hsmall : s.available_frames ≤ 2 ^ 20)
    (hcur : s.latest_frame ≤ s.available_frames) :
    (∃ k, Hit s n k ∧ (∀ p, p < k → ¬ Hit s n p) ∧
      allocs s n = (some (frameAddr s k), taken s n k)) ∨
    ((∀ p, ¬ Hit s n p) ∧ allocs s n = (none, s)) := by
  rcases allocs_first_hit s n hn (by omega) hcur with ⟨k, hhit, hfirst, heq⟩ | hnone
  · left
    have hend := hhit.2.1
    refine ⟨k, hhit, hfirst, ?_⟩
    rw [heq, handed_eq s k (by omega), taken]
  · exact Or.inr hnone

theorem Hit.clear {s : State} {n k : Nat} (h : Hit s n k) (hk : s.frames k = false) :
    k = s.latest_frame ∧ ClearAhead s n := by
  have heq : k = s.latest_frame := h.2.2.1.resolve_right (by simp [hk])
  refine ⟨heq, by have := h.2.1; omega, ?_⟩
  intro q h1 h2
  by_cases hq : q = k
  · rw [hq, hk]
  · exact h.2.2.2 q (by omega) (by omega)

theorem ClearAhead.hit {s : State} {n : Nat} (h : ClearAhead s n) : Hit s n s.latest_frame :=
  ⟨le_refl _, h.1, Or.inl rfl, fun q h1 h2 => h.2 q (by omega) h2⟩

theorem first_hit_free_iff (s : State) (n k : Nat) (hn : 1 ≤ n) (hhit : Hit s n k)
    (hfirst : ∀ p, p < k → ¬ Hit s n p) :
    s.frames k = false ↔ ClearAhead s n ∨ NoUsedStart s n := by
  constructor
  · intro hk
    exact Or.inl (hhit.clear hk).2
  · rintro (hclear | hno)
    · have hlo := hhit.1
      have : ¬ s.latest_frame < k := fun h => hfirst _ h hclear.hit
      exact hclear.2 k hlo (by omega)
    · cases hk : s.frames k with
      | false => rfl
      | true =>
        obtain ⟨q, h1, h2, hq⟩ := hno k hhit.1 hhit.2.1 hk
        rw [hhit.2.2.2 q h1 h2] at hq
        exact absurd hq (by decide)

/-! ## `free` -/

theorem frame_num_eq (s : State) (k : Nat) (hk : k < 2 ^ 20) :
    sub64 (frameAddr s k) s.base_addr % 2 ^ 32 / FRAME_SIZE = k := by
  unfold sub64 frameAddr FRAME_SIZE
  omega

theorem free_spec (s : State) (k : Nat) (hk : k < 2 ^ 20) :
    free s (frameAddr s k) =
      { s with frames := Function.update s.frames k false, latest_frame := k } := by
  unfold free
  simp only [frame_num_eq s k hk]

/-! ## One call -/

@[simp] theorem frameOf_frameAddr (s : State) (k : Nat) : frameOf s (frameAddr s k) = k := by
  unfold frameOf frameAddr FRAME_SIZE
  omega

theorem frameAddr_inj (s : State) (j k : Nat) (h : frameAddr s j = frameAddr s k) : j = k := by
  rw [← frameOf_frameAddr s j, h, frameOf_frameAddr]

theorem frame_apart (s : State) (j k n x : Nat) (hj : j < k ∨ k + n ≤ j)
    (h1 : frameAddr s j ≤ x) (h2 : x < frameAddr s j + FRAME_SIZE) :
    x < frameAddr s k ∨ frameAddr s k + n * FRAME_SIZE ≤ x := by
  unfold frameAddr FRAME_SIZE at *
  omega

theorem Inv.not_owned {w : World} (hw : Inv w) {q : Nat} (hq : q < w.s.available_frames)
    (hfree : w.s.frames q = false) : q ∉ w.owned := by
  rw [← hw.flags q hq, hfree]
  decide

theorem Hit.not_owned {w : World} {n k : Nat} (hhit : Hit w.s n k) (hw : Inv w) (hk : w.s.frames k = false)
    (q : Nat) (h1 : k ≤ q) (h2 : q < k + n) : q ∉ w.owned := by
  obtain ⟨-, hend, -, hrest⟩ := hhit
  apply hw.not_owned (by omega)
  by_cases hq : q = k
  · rw [hq, hk]
  · exact hrest q (by omega) h2

theorem fresh_alloc (w : World) (hw : Inv w) : Fresh w .alloc := by
  have hsmall := hw.small
  rcases alloc_spec w.s (by omega) hw.cursor with ⟨k, hlo, hk, hfree, -, heq⟩ | ⟨-, heq⟩
  · rw [handed_eq w.s k (by omega)] at heq
    have hown := hw.not_owned hk hfree
    constructor
    · intro p hp
      simp only [result, heq, Option.some.injEq] at hp
      refine ⟨k, hp.symm, hk, ?_⟩
      intro i hi
      simp only [Call.size, Nat.lt_one_iff] at hi
      simpa [hi] using hown
    · intro j hj x h1 h2
      have hjk : j ≠ k := fun h => hown (h ▸ hj)
      simp only [after, heq]
      exact fill_outside _ _ _ _ _ (by simpa using frame_apart w.s j k 1 x (by omega) h1 h2)
  · exact ⟨by simp [result, heq], by simp [after, heq]⟩

theorem fresh_free (w : World) (k : Nat) : Fresh w (.free k) :=
  ⟨by simp [result], fun _ _ _ _ _ => rfl⟩

theorem fresh_taken_iff (w : World) (hw : Inv w) (n k : Nat) (hn : 1 ≤ n) (hhit : Hit w.s n k)
    (heq : allocs w.s n = (some (frameAddr w.s k), taken w.s n k)) :
    Fresh w (.allocs n) ↔ w.s.frames k = false := by
  have hend := hhit.2.1
  constructor
  · rintro ⟨hfresh, -⟩
    obtain ⟨j, hj, -, hown⟩ := hfresh (frameAddr w.s k) (by simp [result, heq])
    obtain rfl := frameAddr_inj w.s k j hj
    have := hown 0 hn
    rw [Nat.add_zero, ← hw.flags k (by omega)] at this
    simpa using this
  · intro hk
    have hrun := hhit.not_owned hw hk
    constructor
    · intro p hp
      simp only [result, heq, Option.some.injEq] at hp
      exact ⟨k, hp.symm, hend, fun i hi => hrun (k + i) (by omega) (by simpa [Call.size] using hi)⟩
    · intro j hj x h1 h2
      have hjk : j < k ∨ k + n ≤ j := by
        by_contra h
        exact hrun j (by omega) (by omega) hj
      simp only [after, heq, taken]
      exact fill_outside _ _ _ _ _ (frame_apart w.s j k n x hjk h1 h2)

theorem fresh_iff_guarded (w : World) (c : Call) (hw : Inv w) (hc : Legal w c) :
    Fresh w c ↔ Guarded w c := by
  cases c with
  | alloc => exact iff_of_true (fresh_alloc w hw) trivial
  | free k => exact iff_of_true (fresh_free w k) trivial
  | allocs n =>
    rcases allocs_spec w.s n hc hw.small hw.cursor with ⟨k, hhit, hfirst, heq⟩ | ⟨hnone, heq⟩
    · rw [fresh_taken_iff w hw n k hc hhit heq, first_hit_free_iff w.s n k hc hhit hfirst]
      rfl
    · apply iff_of_true ⟨by simp [result, heq], by simp [after, heq]⟩
      right
      intro p hlo hend hp
      by_contra hno
      refine hnone p ⟨hlo, hend, Or.inr hp, ?_⟩
      intro q h1 h2
      by_contra hq
      exact hno ⟨q, h1, h2, by simpa using hq⟩

/-! ## Runs -/

theorem Inv.grant {w : World} (hw : Inv w) (s' : State) (n k : Nat)
    (havail : s'.available_frames = w.s.available_frames)
    (hcur : s'.latest_frame ≤ w.s.available_frames)
    (hend : k + n ≤ w.s.available_frames)
    (hfresh : ∀ q, k ≤ q → q < k + n → q ∉ w.owned)
    (hflags : ∀ q, s'.frames q = true ↔ (k ≤ q ∧ q < k + n) ∨ w.s.frames q = true) :
    Inv ⟨s', List.range' k n ++ w.owned⟩ where
  small := by rw [havail]; exact hw.small
  cursor := by rw [havail]; exact hcur
  flags := by
    intro q hq
    rw [havail] at hq
    rw [hflags, hw.flags q hq, List.mem_append, List.mem_range'_1]
  inside := by
    intro q hq
    simp only [havail]
    rcases List.mem_append.mp hq with hq | hq
    · rw [List.mem_range'_1] at hq
      omega
    · exact hw.inside q hq
  nodup := by
    refine List.nodup_append.mpr ⟨List.nodup_range', hw.nodup, ?_⟩
    rintro q hq _ hown rfl
    rw [List.mem_range'_1] at hq
    exact hfresh q hq.1 hq.2 hown

theorem next_inv (w : World) (c : Call) (hw : Inv w) (hc : Legal w c) (hf : Fresh w c) :
    Inv (next w c) := by
  cases c with
  | alloc =>
    have hsmall := hw.small
    rcases alloc_spec w.s (by omega) hw.cursor with ⟨k, hlo, hk, hfree, -, heq⟩ | ⟨-, heq⟩
    · rw [handed_eq w.s k (by omega)] at heq
      simp only [next, after, granted, result, heq, frameOf_frameAddr, Call.size]
      refine hw.grant _ 1 k rfl ?_ hk ?_ ?_
      · exact hk
      · intro q h1 h2
        obtain rfl : q = k := by omega
        exact hw.not_owned hk hfree
      · intro q
        by_cases hq : q = k
        · simp [hq]
        · simp only [Function.update_of_ne hq]
          exact ⟨Or.inr, fun h => h.resolve_left (by omega)⟩
    · simp only [next, after, granted, result, heq, List.nil_append]
      exact ⟨hw.small, le_refl _, hw.flags, hw.inside, hw.nodup⟩
  | allocs n =>
    rcases allocs_spec w.s n hc hw.small hw.cursor with ⟨k, hhit, -, heq⟩ | ⟨-, heq⟩
    · have hend := hhit.2.1
      have hlo := hhit.1
      simp only [next, after, granted, result, heq, frameOf_frameAddr, Call.size]
      have hk := (fresh_taken_iff w hw n k hc hhit heq).mp hf
      refine hw.grant _ n k rfl ?_ hend (hhit.not_owned hw hk) ?_
      · have hn : 1 ≤ n := hc
        simp only [taken]
        omega
      · intro q
        simp only [taken, set_run]
        split
        · simp [*]
        · simp [*]
    · simp only [next, after, granted, result, heq, List.nil_append]
      exact hw
  | free k =>
    have hk := hw.inside k hc
    have hsmall := hw.small
    simp only [next, after, free_spec w.s k (by omega)]
    refine ⟨hw.small, by simp only; omega, ?_, ?_, hw.nodup.erase k⟩
    · intro q hq
      rw [hw.nodup.mem_erase_iff]
      by_cases hqk : q = k
      · simp [hqk]
      · simp only [Function.update_of_ne hqk, hw.flags q hq, ne_eq, hqk, not_false_eq_true, true_and]
    · intro q hq
      exact hw.inside q (List.mem_of_mem_erase hq)

/-! ## The interrupt stacks -/

/-- The flags after one stack of four frames at the cursor `l`: the next scan stops at
the last frame of that stack. -/
theorem second_stack_hit (s : State) (l : Nat) (hl : s.latest_frame = l)
    (hclear : ∀ k, k < s.available_frames → s.frames k = false) (p : Nat) :
    Hit (taken s 4 l) 4 p ↔ p = l + 3 ∧ l + 7 ≤ s.available_frames := by
  have hflag : ∀ q, q < s.available_frames →
      ((taken s 4 l).frames q = true ↔ l ≤ q ∧ q < l + 4) := by
    intro q hq
    simp only [taken, set_run]
    split
    · simp [*]
    · simp [*, hclear q hq]
  simp only [Hit, show (taken s 4 l).latest_frame = l + 1 by simp [taken, hl],
    show (taken s 4 l).available_frames = s.available_frames from rfl]
  constructor
  · rintro ⟨hlo, hend, hfirst, hfree⟩
    have hused : l ≤ p ∧ p < l + 4 := by
      rcases hfirst with rfl | hp
      · omega
      · exact (hflag p (by omega)).mp hp
    have hlast : ¬ p < l + 3 := by
      intro hp
      have := (hflag (p + 1) (by omega)).mpr (by omega)
      rw [hfree (p + 1) (by omega) (by omega)] at this
      exact absurd this (by decide)
    omega
  · rintro ⟨rfl, hend⟩
    refine ⟨by omega, by omega, Or.inr ((hflag _ (by omega)).mpr (by omega)), ?_⟩
    intro q h1 h2
    have := (hflag q (by omega)).not.mpr (by omega)
    simpa using this

theorem init_stacks_step (n i : Nat) (s : State) :
    init_stacks_from (n + 1) i s =
      match allocs s 4 with
      | (none, s) => (⟨[], [], .critical s!"Failed to allocate IST stack {i}"⟩, s)
      | (some stack, s) =>
        let r := init_stacks_from n (i + 1) s
        (⟨stack :: r.1.ist_stacks, (stack + IST_STACK_SIZE) :: r.1.ist, r.1.log⟩, r.2) := rfl

/-- The second stack lies on the last frame of the first one, so the stacks are apart
only where there is no room for a second one. -/
theorem init_stacks_apart_iff (s : State) (hsmall : s.available_frames ≤ 2 ^ 20)
    (hcur : s.latest_frame ≤ s.available_frames)
    (hclear : ∀ k, k < s.available_frames → s.frames k = false) :
    StacksApart (init_stacks s).1.ist_stacks ↔ s.available_frames < s.latest_frame + 7 := by
  unfold init_stacks
  rw [init_stacks_step]
  rcases allocs_spec s 4 (by decide) hsmall hcur with ⟨k, hhit, -, heq⟩ | ⟨hnone, heq⟩
  · have hend := hhit.2.1
    obtain ⟨rfl, -⟩ := hhit.clear (hclear k (by omega))
    have hhit2 := second_stack_hit s s.latest_frame rfl hclear
    simp only [heq]
    rw [init_stacks_step]
    rcases allocs_spec (taken s 4 s.latest_frame) 4 (by decide) hsmall (by simp only [taken]; omega)
      with ⟨j, hj, -, heq2⟩ | ⟨hnone2, heq2⟩
    · obtain ⟨rfl, hroom⟩ := (hhit2 j).mp hj
      simp only [heq2, StacksApart]
      refine iff_of_false ?_ (by omega)
      intro h
      have := List.rel_of_pairwise_cons h List.mem_cons_self
      simp only [Apart, frameAddr, taken, FRAME_SIZE, IST_STACK_SIZE] at this
      omega
    · simp only [heq2, StacksApart, List.pairwise_singleton, true_iff]
      by_contra h
      exact hnone2 _ ((hhit2 _).mpr ⟨rfl, by omega⟩)
  · simp only [heq, StacksApart, List.Pairwise.nil, true_iff]
    by_contra h
    refine hnone s.latest_frame (ClearAhead.hit ⟨by omega, ?_⟩)
    intro q h1 h2
    exact hclear q (by omega)

/-! ## The theorem -/

/-- In a run that starts with all flags clear, no call touches an owned frame exactly
when every `allocs` meets the guard. The interrupt stacks are apart exactly when the
area has no room for a second one. -/
theorem run_fresh_iff_guarded (s : State) (calls : List Call)
    (hsmall : s.available_frames ≤ 2 ^ 20) (hcur : s.latest_frame ≤ s.available_frames)
    (hclear : ∀ k, k < s.available_frames → s.frames k = false)
    (hlegal : Along step Legal ⟨s, []⟩ calls) :
    (Along step Fresh ⟨s, []⟩ calls ↔
      Along step Guarded ⟨s, []⟩ calls) ∧
    (StacksApart (init_stacks s).1.ist_stacks ↔ s.available_frames < s.latest_frame + 7) := by
  refine ⟨?_, init_stacks_apart_iff s hsmall hcur hclear⟩
  apply along_iff _ (fun w c hw hc => fresh_iff_guarded w c hw hc) _ _ _ _ hlegal
  · rintro w c w' hw hc hf ⟨⟩
    exact next_inv w c hw hc hf
  · exact ⟨hsmall, hcur, by simpa using hclear, by simp, List.nodup_nil⟩

theorem run_fresh_iff_guarded_alloc_free :
    Along step Fresh ⟨cleared 8 0x100000 (fun _ => 0), []⟩ [.alloc, .allocs 2, .free 0] ↔
      Along step Guarded ⟨cleared 8 0x100000 (fun _ => 0), []⟩ [.alloc, .allocs 2, .free 0] := by
  refine (run_fresh_iff_guarded (cleared 8 0x100000 (fun _ => 0)) [.alloc, .allocs 2, .free 0]
    (by decide) (by decide) (fun _ _ => rfl) ⟨trivial, ?_⟩).1
  rintro _ ⟨⟩
  refine ⟨by decide, ?_⟩
  rintro _ ⟨⟩
  exact ⟨by decide, fun _ _ => trivial⟩

/-- Two calls for four frames each: the second one gets frame 3 again. -/
theorem second_run_overlaps :
    Along step Legal ⟨cleared 8 0x100000 (fun _ => 0), []⟩ [.allocs 4, .allocs 4] ∧
    ¬ Along step Fresh ⟨cleared 8 0x100000 (fun _ => 0), []⟩ [.allocs 4, .allocs 4] ∧
    ¬ StacksApart (init_stacks (cleared 8 0x100000 (fun _ => 0))).1.ist_stacks := by
  refine ⟨⟨by decide, ?_⟩, ?_, ?_⟩
  · rintro _ ⟨⟩
    exact ⟨by decide, fun _ _ => trivial⟩
  · rintro ⟨-, h⟩
    obtain ⟨⟨hfresh, -⟩, -⟩ := h _ rfl
    obtain ⟨k, hk, -, hown⟩ := hfresh 0x103000 (by decide)
    obtain rfl : k = 3 := by
      simp only [frameAddr, next, after, cleared, FRAME_SIZE] at hk
      change 0x103000 = 0x100000 + k * 0x1000 at hk
      omega
    exact hown 0 (by decide) (by decide)
  · rw [init_stacks_apart_iff _ (by decide) (by decide) (fun _ _ => rfl)]
    decide

end SlayerOS.Frames
