import SlayerOS.Pit.Code

/-!
# Loops that wait for ticks

A loop ends at the first reading that is not below its target.
-/

open SlayerOS.Fuel SlayerOS.Fuel.Comp

namespace SlayerOS.Pit

theorem ticks_ticks (n : Nat) (s : State) :
    tick^[n] s = { s with ticks_since_boot := s.ticks_since_boot + BitVec.ofNat 64 n } := by
  induction n with
  | zero => simp
  | succ n ih =>
    rw [Function.iterate_succ_apply', ih, tick]
    simp only [BitVec.ofNat_add, BitVec.add_assoc]
    rfl

theorem arrive_eq (s : State) :
    arrive s = { s with
      ticks_since_boot := s.ticks_since_boot + BitVec.ofNat 64 (s.interrupts s.readings)
      readings := s.readings + 1 } := by
  rw [arrive, ticks_ticks]

theorem arrive_timer_frequency (n : Nat) (s : State) : (arrive^[n] s).timer_frequency = s.timer_frequency := by
  induction n with
  | zero => rfl
  | succ n ih => rw [Function.iterate_succ_apply', arrive_eq, ih]

/-! ## The end of a wait -/

theorem wait_loop_iff (target : BitVec 64) (s r : State) :
    (wait_loop target s).Ends r ↔ ∃ n, r = arrive^[n] s ∧ target.toNat ≤ r.ticks_since_boot.toNat ∧
      ∀ k, k < n → (arrive^[k] s).ticks_since_boot.toNat < target.toNat := by
  unfold wait_loop
  rw [while_iterate_iff]
  simp only [decide_eq_false_iff_not, decide_eq_true_eq, BitVec.lt_def, Nat.not_lt]

theorem wait_loop_returns (target : BitVec 64) (s : State) (n : Nat)
    (h : target.toNat ≤ (arrive^[n] s).ticks_since_boot.toNat) : ∃ r, (wait_loop target s).Ends r := by
  refine while_iterate_ends _ _ s n (decide_eq_false ?_)
  rw [BitVec.lt_def]
  omega

theorem wait_loop_le (a b : BitVec 64) (hab : a.toNat ≤ b.toNat) (s q r : State) (hq : (wait_loop a s).Ends q)
    (hr : (wait_loop b s).Ends r) : q.ticks_since_boot.toNat ≤ r.ticks_since_boot.toNat := by
  obtain ⟨i, rfl, hqend, hqbefore⟩ := (wait_loop_iff a s q).mp hq
  obtain ⟨j, rfl, hrend, hrbefore⟩ := (wait_loop_iff b s r).mp hr
  rcases Nat.lt_trichotomy i j with hlt | rfl | hgt
  · have := hrbefore i hlt
    omega
  · exact Nat.le_refl _
  · have := hqbefore j hgt
    omega

theorem arrive_steady (s : State) (hsteady : ∀ k, s.readings ≤ k → s.interrupts k = 1) (k : Nat)
    (hk : s.ticks_since_boot.toNat + k < 2 ^ 64) :
    (arrive^[k] s).ticks_since_boot.toNat = s.ticks_since_boot.toNat + k := by
  have hstate : arrive^[k] s =
      { s with ticks_since_boot := s.ticks_since_boot + BitVec.ofNat 64 k, readings := s.readings + k } := by
    clear hk
    induction k with
    | zero => simp
    | succ k ih =>
      rw [Function.iterate_succ_apply', ih, arrive_eq]
      simp only [hsteady _ (Nat.le_add_right _ k), BitVec.ofNat_add, BitVec.add_assoc]
      rfl
  rw [hstate, BitVec.toNat_add, BitVec.toNat_ofNat, Nat.add_mod_mod, Nat.mod_eq_of_lt hk]

/-- Where a tick comes before every reading, a wait ends with its target, or at once. -/
theorem wait_loop_steady (target : BitVec 64) (s : State) (hsteady : ∀ k, s.readings ≤ k → s.interrupts k = 1) :
    ∃ r, (wait_loop target s).Ends r ∧
      r.ticks_since_boot.toNat = max s.ticks_since_boot.toNat target.toNat := by
  have htarget := target.isLt
  have hstart := s.ticks_since_boot.isLt
  have hticks := arrive_steady s hsteady
  have hend := hticks (target.toNat - s.ticks_since_boot.toNat) (by omega)
  refine ⟨arrive^[target.toNat - s.ticks_since_boot.toNat] s,
    (wait_loop_iff target s _).mpr ⟨_, rfl, by omega, ?_⟩, by omega⟩
  intro k hk
  rw [hticks k (by omega)]
  omega

end SlayerOS.Pit
