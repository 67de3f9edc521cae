import SlayerOS.Frames.Address

/-!
# Frames that no search finds again

Both searches go from the cursor to the end, and neither of them wraps around. So a free
frame below the cursor is lost until a call of `free` moves the cursor back.
-/

open SlayerOS.Bytes SlayerOS.Run

namespace SlayerOS.Frames

/-! ## What a null result should mean -/

/-- `n` free frames from `p` on. -/
def FreeRun (s : State) (n p : Nat) : Prop :=
  p + n ≤ s.available_frames ∧ ∀ q, p ≤ q → q < p + n → s.frames q = false

/-- A null result says that there is nothing left to hand out. -/
def NullMeansFull (s : State) : Prop :=
  ((alloc s).1 = none → ∀ q, q < s.available_frames → s.frames q = true) ∧
  ∀ n, 1 ≤ n → (allocs s n).1 = none → ∀ p, ¬ FreeRun s n p

/-- The same now and after any number of further `alloc` calls. -/
def Lasting (s : State) : Prop := ∀ m, NullMeansFull ((fun s => (alloc s).2)^[m] s)

/-- No free frame is below the cursor. -/
def NoneBehind (s : State) : Prop := ∀ q, q < s.latest_frame → s.frames q = true

/-- The call leaves no free frame behind. A call of `allocs` steps over the frame at the
cursor. A call of `free` puts the cursor on its frame, whose number is 20 bits long. -/
def Keeps (w : World) : Call → Prop
  | .alloc => True
  | .allocs n => w.s.frames w.s.latest_frame = true ∨ Hit w.s n w.s.latest_frame ∨ ∀ p, ¬ Hit w.s n p
  | .free k => ∀ q, q < k % 2 ^ 20 → w.s.frames q = true

/-! ## The searches find what is ahead -/

/-- A free run ahead of the cursor gives the scan of `allocs` something to take: go back
from its start to the first used frame, or to the cursor. -/
theorem FreeRun.hit {s : State} {n p : Nat} (h : FreeRun s n p) (hp : s.latest_frame ≤ p) :
    ∃ k, Hit s n k := by
  obtain ⟨d, rfl⟩ := Nat.exists_eq_add_of_le hp
  induction d with
  | zero => exact ⟨s.latest_frame, ClearAhead.hit h⟩
  | succ d ih =>
    obtain ⟨hend, hfree⟩ := h
    cases hd : s.frames (s.latest_frame + d) with
    | true =>
      refine ⟨s.latest_frame + d, by omega, by omega, Or.inr hd, ?_⟩
      intro q h1 h2
      exact hfree q (by omega) (by omega)
    | false =>
      refine ih ⟨by omega, ?_⟩ (by omega)
      intro q h1 h2
      by_cases hq : q = s.latest_frame + d
      · rw [hq, hd]
      · exact hfree q (by omega) (by omega)

theorem NoneBehind.nullMeansFull {s : State} (h : NoneBehind s) (hlt : s.available_frames < 2 ^ 32)
    (hcur : s.latest_frame ≤ s.available_frames) : NullMeansFull s := by
  constructor
  · intro hnull q hq
    rcases alloc_spec s hlt hcur with ⟨k, -, -, -, -, heq⟩ | ⟨hfull, -⟩
    · simp [heq] at hnull
    · by_cases hbehind : q < s.latest_frame
      · exact h q hbehind
      · exact hfull q (by omega) hq
  · intro n hn hnull p hrun
    have hahead : s.latest_frame ≤ p := by
      by_contra hp
      have := h p (by omega)
      rw [hrun.2 p (le_refl _) (by omega)] at this
      exact absurd this (by decide)
    obtain ⟨k, hk⟩ := hrun.hit hahead
    rcases allocs_first_hit s n hn hlt hcur with ⟨j, -, -, heq⟩ | ⟨hnone, -⟩
    · simp [heq] at hnull
    · exact hnone k hk

/-! ## One step of the cursor -/

theorem alloc_bounds (s : State) (hlt : s.available_frames < 2 ^ 32)
    (hcur : s.latest_frame ≤ s.available_frames) :
    (alloc s).2.available_frames = s.available_frames ∧
    (alloc s).2.latest_frame ≤ s.available_frames := by
  rcases alloc_spec s hlt hcur with ⟨k, -, hk, -, -, heq⟩ | ⟨-, heq⟩
  · simp only [heq]
    exact ⟨trivial, hk⟩
  · simp only [heq]
    exact ⟨trivial, le_refl _⟩

theorem alloc_noneBehind (s : State) (hlt : s.available_frames < 2 ^ 32)
    (hcur : s.latest_frame ≤ s.available_frames) (h : NoneBehind s) : NoneBehind (alloc s).2 := by
  rcases alloc_spec s hlt hcur with ⟨k, -, -, -, hused, heq⟩ | ⟨hfull, heq⟩
  · simp only [heq]
    intro q hq
    simp only at hq ⊢
    by_cases hqk : q = k
    · rw [hqk, Function.update_self]
    · rw [Function.update_of_ne hqk]
      by_cases hbehind : q < s.latest_frame
      · exact h q hbehind
      · exact hused q (by omega) (by omega)
  · simp only [heq]
    intro q hq
    by_cases hbehind : q < s.latest_frame
    · exact h q hbehind
    · exact hfull q (by omega) hq

theorem NoneBehind.lasting {s : State} (h : NoneBehind s) (hlt : s.available_frames < 2 ^ 32)
    (hcur : s.latest_frame ≤ s.available_frames) : Lasting s := by
  intro m
  induction m generalizing s with
  | zero => exact h.nullMeansFull hlt hcur
  | succ m ih =>
    obtain ⟨havail, hcur'⟩ := alloc_bounds s hlt hcur
    rw [Function.iterate_succ_apply]
    exact ih (alloc_noneBehind s hlt hcur h) (by omega) (by omega)

/-- A frame that is left behind stays there, and in the end `alloc` fails beside it. -/
theorem lost_not_lasting (s : State) (j : Nat) (hlt : s.available_frames < 2 ^ 32)
    (hcur : s.latest_frame ≤ s.available_frames) (hj : j < s.latest_frame) (hfree : s.frames j = false) :
    ¬ Lasting s := by
  induction hd : s.available_frames - s.latest_frame using Nat.strong_induction_on generalizing s with
  | _ d ih =>
    intro hlast
    rcases alloc_spec s hlt hcur with ⟨k, hk, hkend, -, -, heq⟩ | ⟨-, heq⟩
    · refine ih (s.available_frames - (k + 1)) (by omega) (alloc s).2 ?_ ?_ ?_ ?_ ?_ ?_
      · simpa only [heq] using hlt
      · simp only [heq]
        omega
      · simp only [heq]
        omega
      · simp only [heq]
        rw [Function.update_of_ne (by omega), hfree]
      · simp only [heq]
      · intro m
        exact hlast (m + 1)
    · have := (hlast 0).1 (by rw [Function.iterate_zero_apply, heq]) j (by
        rw [Function.iterate_zero_apply]; omega)
      rw [Function.iterate_zero_apply, hfree] at this
      exact absurd this (by decide)

theorem lasting_iff (s : State) (hlt : s.available_frames < 2 ^ 32)
    (hcur : s.latest_frame ≤ s.available_frames) : Lasting s ↔ NoneBehind s := by
  constructor
  · intro h q hq
    by_contra hfree
    exact lost_not_lasting s q hlt hcur hq (by simpa using hfree) h
  · intro h
    exact h.lasting hlt hcur

theorem next_noneBehind_iff (w : World) (c : Call) (hw : Bounded w) (hc : Legal w c) (h : NoneBehind w.s) :
    NoneBehind (next w c).s ↔ Keeps w c := by
  cases c with
  | alloc => exact iff_of_true (alloc_noneBehind w.s hw.lt hw.cursor h) trivial
  | allocs n =>
    have hn : 1 ≤ n := hc
    rcases allocs_first_hit w.s n hc hw.lt hw.cursor with ⟨k, hhit, hfirst, heq⟩ | ⟨hnone, heq⟩
    · have hlo := hhit.1
      simp only [next, after, heq, NoneBehind, Keeps, taken, set_run]
      constructor
      · intro hbehind
        have hcur := hbehind w.s.latest_frame (by omega)
        split at hcur
        case isTrue hin =>
          obtain rfl : k = w.s.latest_frame := le_antisymm hin.1 hhit.1
          exact Or.inr (Or.inl hhit)
        case isFalse => exact Or.inl hcur
      · rintro hkeeps q hq
        split
        case isTrue => rfl
        case isFalse hout =>
          by_cases hqc : q = w.s.latest_frame
          · rcases hkeeps with hused | hcur | hnone
            · rw [hqc, hused]
            · -- The first hit is at the cursor or before it, so the run covers the cursor.
              have : ¬ w.s.latest_frame < k := fun hlt => hfirst _ hlt hcur
              omega
            · exact absurd hhit (hnone k)
          · exact h q (by omega)
    · simp only [next, after, heq]
      exact iff_of_true h (Or.inr (Or.inr hnone))
  | free k =>
    simp only [next, after, free_eq, NoneBehind, Keeps]
    constructor
    · intro hbehind q hq
      have := hbehind q hq
      rwa [Function.update_of_ne (by omega)] at this
    · intro hkeeps q hq
      rw [Function.update_of_ne (by omega)]
      exact hkeeps q hq

/-! ## Runs -/

/-- From clear flags on, null results mean a full area in every state that a run reaches,
and however many frames are taken from there, exactly when no call of the run leaves a
free frame behind. -/
theorem run_lasting_iff_keeps (n base : Nat) (mem : Mem) (calls : List Call) (hn : n < 2 ^ 32)
    (hlegal : Along step Legal ⟨cleared n base mem, []⟩ calls) :
    Lasting (cleared n base mem) ∧
    (Along step (fun w c => Lasting (next w c).s) ⟨cleared n base mem, []⟩ calls ↔
      Along step Keeps ⟨cleared n base mem, []⟩ calls) := by
  have hstart : NoneBehind (cleared n base mem) := fun q hq => absurd hq (Nat.not_lt_zero q)
  refine ⟨hstart.lasting hn (Nat.zero_le n), ?_⟩
  refine along_iff (fun w => Bounded w ∧ NoneBehind w.s) ?_ ?_ _ _
    ⟨cleared_bounded n base mem hn, hstart⟩ hlegal
  · rintro w c ⟨hw, hbehind⟩ hc
    have hw' := next_bounded w c hw hc
    rw [lasting_iff _ hw'.lt hw'.cursor, next_noneBehind_iff w c hw hc hbehind]
  · rintro w c w' ⟨hw, hbehind⟩ hc hlast ⟨⟩
    have hw' := next_bounded w c hw hc
    exact ⟨hw', (lasting_iff _ hw'.lt hw'.cursor).mp hlast⟩

theorem run_lasting_iff_keeps_four :
    Along step (fun w c => Lasting (next w c).s) ⟨cleared 3 0x100000 (fun _ => 0), []⟩
      [.alloc, .allocs 2, .free 1, .free 0] := by
  refine ((run_lasting_iff_keeps 3 0x100000 (fun _ => 0) [.alloc, .allocs 2, .free 1, .free 0]
    (by decide) ?_).2).mpr ?_
  · refine along_cons _ _ _ _ trivial rfl (along_cons _ _ _ _ (by decide) rfl
      (along_cons _ _ _ _ (by decide) rfl (along_cons _ _ _ _ (by decide) rfl trivial)))
  · refine along_cons _ _ _ _ trivial rfl (along_cons _ _ _ _ (Or.inr (Or.inl ?_)) rfl
      (along_cons _ _ _ _ (fun q hq => ?_) rfl (along_cons _ _ _ _ (fun q hq => ?_) rfl trivial)))
    · refine ⟨le_refl _, by decide, Or.inl rfl, ?_⟩
      intro q h1 h2
      obtain rfl : q = 2 := le_antisymm (Nat.le_of_lt_succ h2) h1
      decide
    · obtain rfl : q = 0 := Nat.lt_one_iff.mp hq
      decide
    · exact absurd hq (Nat.not_lt_zero q)

/-- Two frames are freed in rising order. The lower one is free from then on, and the
allocator says that it is out of frames. -/
theorem freed_frame_is_lost :
    Along step Legal ⟨cleared 3 0x100000 (fun _ => 0), []⟩
      [.alloc, .alloc, .free 0, .free 1, .alloc, .alloc] ∧
    ∃ w, run step ⟨cleared 3 0x100000 (fun _ => 0), []⟩
        [.alloc, .alloc, .free 0, .free 1, .alloc, .alloc] = some w ∧
      (alloc w.s).1 = none ∧ (allocs w.s 1).1 = none ∧ w.s.frames 0 = false ∧ ¬ NullMeansFull w.s := by
  refine ⟨?_, _, rfl, by decide, by decide, by decide, ?_⟩
  · refine along_cons _ _ _ _ trivial rfl (along_cons _ _ _ _ trivial rfl
      (along_cons _ _ _ _ (by decide) rfl (along_cons _ _ _ _ (by decide) rfl
        (along_cons _ _ _ _ trivial rfl (along_cons _ _ _ _ trivial rfl trivial)))))
  · rintro ⟨hfull, -⟩
    exact absurd (hfull (by decide) 0 (by decide)) (by decide)

end SlayerOS.Frames
