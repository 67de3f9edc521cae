import SlayerOS.Lapic.Calibrate
import Mathlib.Tactic.IntervalCases

/-!
# The rate of the timer

Calibration takes at least ten ticks, and that bounds the frequency. The bound is why the
search for a divider finds one, and why its products fit into 32 bits.
-/

open SlayerOS.Fuel SlayerOS.Fuel.Comp
open SlayerOS.Pit (Line div)

namespace SlayerOS.Lapic

/-! ## The frequency -/

/-- The ticks of the PIT never go back, and the end of the calibration is before they wrap
around. -/
structure NoWrap (p : Pit.State) : Prop where
  mono : ∀ k, (ticksAt p k).toNat ≤ (ticksAt p (k + 1)).toNat
  target : (ticksAt p 0).toNat + 10 < 2 ^ 64

def MAX_FREQUENCY : Nat := 429496729500

theorem frequencyOf_le (apic_ticks : BitVec 32) (ticks : BitVec 64) (h : 10 ≤ ticks.toNat) :
    (frequencyOf apic_ticks ticks).toNat ≤ MAX_FREQUENCY := by
  have hcounts := apic_ticks.isLt
  have hproduct : (apic_ticks.setWidth 64 * 1000).toNat = apic_ticks.toNat * 1000 := by
    rw [BitVec.toNat_mul, BitVec.toNat_setWidth, show (1000 : BitVec 64).toNat = 1000 from rfl]
    omega
  unfold frequencyOf
  rw [if_neg (by rintro rfl; exact absurd h (by decide)), BitVec.toNat_udiv, hproduct]
  calc apic_ticks.toNat * 1000 / ticks.toNat
    _ ≤ apic_ticks.toNat * 1000 / 10 := Nat.div_le_div_left h (by decide)
    _ ≤ MAX_FREQUENCY := by unfold MAX_FREQUENCY; omega

theorem NoWrap.elapsed {p : Pit.State} (h : NoWrap p) (n : Nat)
    (hend : (ticksAt p 0 + 10).toNat ≤ (ticksAt p (n + 1)).toNat) : 10 ≤ (elapsed p (n + 2)).toNat := by
  have htarget := h.target
  have hmono : (ticksAt p (n + 1)).toNat ≤ (ticksAt p (n + 2)).toNat := h.mono (n + 1)
  have hstart : (ticksAt p 0 + 10).toNat = (ticksAt p 0).toNat + 10 := by
    rw [BitVec.toNat_add, show (10 : BitVec 64).toNat = 10 from rfl]
    exact Nat.mod_eq_of_lt htarget
  rw [hstart] at hend
  unfold Lapic.elapsed
  rw [BitVec.toNat_sub]
  omega

theorem calibrate_le (s s' : State) (f : BitVec 64) (hs : NoWrap s.pit)
    (h : (calibrate_frequency s).Ends (f, s')) : f.toNat ≤ MAX_FREQUENCY := by
  obtain ⟨-, n, hend, rfl⟩ := calibrate_ends s s' f h
  exact frequencyOf_le _ _ (hs.elapsed n hend)

/-! ## The divider -/

def Divider.shift : Divider → Nat
  | .DIV_BY_1 => 0
  | .DIV_BY_2 => 1
  | .DIV_BY_4 => 2
  | .DIV_BY_8 => 3
  | .DIV_BY_16 => 4
  | .DIV_BY_32 => 5
  | .DIV_BY_64 => 6
  | .DIV_BY_128 => 7

def Divider.value (d : Divider) : Nat := 2 ^ d.shift

def countFor (f : BitVec 64) (target_hz : BitVec 32) (d : Nat) : Nat := f.toNat / (target_hz.toNat * d)

/-- From `2 ^ k` on, `2 ^ d` is the first divider whose count fits into 32 bits. -/
structure FirstFit (f : BitVec 64) (target_hz : BitVec 32) (k d : Nat) : Prop where
  lo : k ≤ d
  hi : d ≤ 7
  fits : countFor f target_hz (2 ^ d) < 2 ^ 32
  before : ∀ j, k ≤ j → j < d → 2 ^ 32 ≤ countFor f target_hz (2 ^ j)

theorem divider_of_pow (d : Nat) (hd : d ≤ 7) : (divider_of (BitVec.ofNat 32 (2 ^ d))).value = 2 ^ d := by
  interval_cases d <;> rfl

section

variable {f : BitVec 64} {target_hz : BitVec 32}

theorem FirstFit.missed {k d : Nat} (h : FirstFit f target_hz (k + 1) d)
    (hmiss : ¬ countFor f target_hz (2 ^ k) < 2 ^ 32) : FirstFit f target_hz k d where
  lo := Nat.le_of_succ_le h.lo
  hi := h.hi
  fits := h.fits
  before := by
    intro j h1 h2
    by_cases hj : j = k
    · rw [hj]
      exact Nat.le_of_not_lt hmiss
    · exact h.before j (by omega) h2

theorem div_round (k : Nat) (hpos : 0 < target_hz.toNat) (hk : k ≤ 7) (hproduct : target_hz.toNat * 2 ^ k < 2 ^ 32) :
    ∃ count, div f ((target_hz * BitVec.ofNat 32 (2 ^ k)).setWidth 64) = some count ∧
      count.toNat = countFor f target_hz (2 ^ k) := by
  have hpow : 2 ^ k < 2 ^ 32 := Nat.pow_lt_pow_right (by decide) (by omega)
  have hnat : ((target_hz * BitVec.ofNat 32 (2 ^ k)).setWidth 64).toNat = target_hz.toNat * 2 ^ k := by
    rw [BitVec.toNat_setWidth, BitVec.toNat_mul, BitVec.toNat_ofNat, Nat.mod_eq_of_lt hpow,
      Nat.mod_eq_of_lt hproduct, Nat.mod_eq_of_lt (by omega)]
  have hne : (target_hz * BitVec.ofNat 32 (2 ^ k)).setWidth 64 ≠ 0 := by
    intro h
    have hzero := congrArg BitVec.toNat h
    rw [hnat] at hzero
    exact absurd hzero (Nat.mul_pos hpos (Nat.two_pow_pos k)).ne'
  exact ⟨_, if_neg hne, by rw [BitVec.toNat_udiv, hnat, countFor]⟩

theorem fits_iff (count : BitVec 64) : count ≤ 0xFFFFFFFF ↔ count.toNat < 2 ^ 32 :=
  BitVec.le_def.trans Nat.le_iff_lt_add_one

theorem over_iff (count : BitVec 64) : 0xFFFFFFFF < count ↔ 2 ^ 32 ≤ count.toNat := BitVec.lt_def

theorem search_divider_spec (hpos : 0 < target_hz.toNat) (hproduct : target_hz.toNat * 2 ^ 7 < 2 ^ 32)
    (hlast : countFor f target_hz (2 ^ 7) < 2 ^ 32) (n k : Nat) (hn : n + k = 8) (hk : k ≤ 7) (c : BitVec 64) :
    ∃ d count, FirstFit f target_hz k d ∧ count.toNat = countFor f target_hz (2 ^ d) ∧
      search_divider f target_hz n (BitVec.ofNat 32 (2 ^ k)) c = some (BitVec.ofNat 32 (2 ^ d), count) := by
  induction n generalizing k c with
  | zero => omega
  | succ n ih =>
    have hle : target_hz.toNat * 2 ^ k ≤ target_hz.toNat * 2 ^ 7 :=
      Nat.mul_le_mul_left _ (Nat.pow_le_pow_right (by decide) hk)
    obtain ⟨count, hdiv, hcount⟩ := div_round (f := f) k hpos hk (by omega)
    rw [search_divider, hdiv]
    simp only [Option.bind_eq_bind, Option.bind_some]
    by_cases hfits : countFor f target_hz (2 ^ k) < 2 ^ 32
    · refine ⟨k, count, ⟨le_refl k, hk, hfits, fun j h1 h2 => absurd h2 (by omega)⟩, hcount, if_pos ?_⟩
      rwa [fits_iff, hcount]
    · have hk' : k ≠ 7 := by
        rintro rfl
        exact hfits hlast
      obtain ⟨d, count', hfirst, hcount', hsearch⟩ := ih (k + 1) (by omega) (by omega) count
      have hnot : ¬ count ≤ 0xFFFFFFFF := by rwa [fits_iff, hcount]
      have hnext : BitVec.ofNat 32 (2 ^ k) * 2 = BitVec.ofNat 32 (2 ^ (k + 1)) := by
        rw [pow_succ, BitVec.ofNat_mul]
        rfl
      exact ⟨d, count', hfirst.missed hfits, hcount', by rw [if_neg hnot, hnext, hsearch]⟩

theorem target_small (hf : f.toNat ≤ MAX_FREQUENCY) (hpos : 0 < target_hz.toNat)
    (hlarge : 2 ^ 32 ≤ countFor f target_hz 1) : target_hz.toNat < 100 := by
  have hle := (Nat.le_div_iff_mul_le (by omega)).mp hlarge
  unfold MAX_FREQUENCY at hf
  omega

theorem countFor_last (hf : f.toNat ≤ MAX_FREQUENCY) (hpos : 0 < target_hz.toNat) :
    countFor f target_hz (2 ^ 7) < 2 ^ 32 := by
  unfold MAX_FREQUENCY at hf
  unfold countFor
  rw [Nat.div_lt_iff_lt_mul (by omega)]
  omega

theorem find_divider_spec (hf : f.toNat ≤ MAX_FREQUENCY) (hpos : 0 < target_hz.toNat) :
    ∃ d count, FirstFit f target_hz 0 d ∧ count.toNat = countFor f target_hz (2 ^ d) ∧
      find_divider f target_hz = some (BitVec.ofNat 32 (2 ^ d), count) := by
  obtain ⟨count, hdiv, hcount⟩ := div_round (f := f) 0 hpos (by decide) (by have := target_hz.isLt; omega)
  rw [show BitVec.ofNat 32 (2 ^ 0) = 1#32 from rfl, BitVec.mul_one] at hdiv
  rw [pow_zero] at hcount
  rw [find_divider, hdiv]
  simp only [Option.bind_eq_bind, Option.bind_some]
  by_cases hfits : countFor f target_hz 1 < 2 ^ 32
  · refine ⟨0, count, ⟨le_refl 0, by decide, hfits, fun j _ h2 => absurd h2 (by omega)⟩, hcount, if_neg ?_⟩
    rw [over_iff, hcount]
    omega
  · have hsmall := target_small hf hpos (by omega)
    obtain ⟨d, count', hfirst, hcount', hsearch⟩ :=
      search_divider_spec hpos (by omega) (countFor_last hf hpos) 8 0 rfl (by decide) count
    refine ⟨d, count', hfirst, hcount', ?_⟩
    rw [if_pos, ← hsearch]
    · rfl
    · rw [over_iff, hcount]
      omega

end

/-! ## `set_frequency` -/

/-- What `set_frequency` has done: the smallest divider whose count fits, its code, and that
count. No product of the search was cut, and no line is a warning. -/
structure Programmed (s s' : State) (target_hz : BitVec 32) (divider : Divider) : Prop where
  products : 2 ^ 32 ≤ countFor s.apic_timer_frequency target_hz 1 →
    ∀ d : Divider, target_hz.toNat * d.value < 2 ^ 32
  fits : countFor s.apic_timer_frequency target_hz divider.value < 2 ^ 32
  smallest : ∀ d : Divider, d.value < divider.value →
    2 ^ 32 ≤ countFor s.apic_timer_frequency target_hz d.value
  count : (s'.registers LAPIC_TIMER_INITIAL_COUNT).toNat =
    countFor s.apic_timer_frequency target_hz divider.value
  divide : s'.registers LAPIC_TIMER_DIVIDE_CONFIG = divider.code
  lines : ∃ lines, s'.log = lines ++ s.log ∧ ∀ line ∈ lines, ∃ format args, line = .info format args

/-- The call ends, without a division by zero, and the timer has the rate. -/
def Programs (s : State) (target_hz : BitVec 32) : Prop :=
  ∃ s' divider, set_frequency target_hz s = some s' ∧ Programmed s s' target_hz divider

theorem program_timer_spec (target_hz divider_value : BitVec 32) (count : BitVec 64) (s : State) :
    (program_timer target_hz divider_value count s).registers LAPIC_TIMER_INITIAL_COUNT = count.setWidth 32 ∧
    (program_timer target_hz divider_value count s).registers LAPIC_TIMER_DIVIDE_CONFIG =
      (divider_of divider_value).code ∧
    ∃ lines, (program_timer target_hz divider_value count s).log = lines ++ s.log ∧
      ∀ line ∈ lines, ∃ format args, line = .info format args := by
  refine ⟨rfl, rfl, [_, _, _, _], rfl, ?_⟩
  simp

theorem set_frequency_spec (s : State) (target_hz : BitVec 32) (hf : s.apic_timer_frequency.toNat ≤ MAX_FREQUENCY)
    (hne : s.apic_timer_frequency ≠ 0) (hpos : 0 < target_hz.toNat) : Programs s target_hz := by
  obtain ⟨d, count, hfirst, hcount, hfind⟩ := find_divider_spec hf hpos
  obtain ⟨hinitial, hdivide, hlines⟩ := program_timer_spec target_hz (BitVec.ofNat 32 (2 ^ d)) count s
  have hvalue := divider_of_pow d hfirst.hi
  have hfits := hfirst.fits
  refine ⟨program_timer target_hz (BitVec.ofNat 32 (2 ^ d)) count s, divider_of (BitVec.ofNat 32 (2 ^ d)), ?_,
    ?_, ?_, ?_, ?_, hdivide, hlines⟩
  · have hnot : ¬ 0xFFFFFFFF < count := by
      rw [over_iff, hcount]
      omega
    rw [set_frequency, if_neg hne, hfind]
    exact if_neg hnot
  · intro hlarge e
    have hsmall := target_small hf hpos hlarge
    have he : e.value ≤ 128 := by cases e <;> decide
    calc target_hz.toNat * e.value
      _ ≤ 100 * 128 := Nat.mul_le_mul (by omega) he
      _ < 2 ^ 32 := by decide
  · rw [hvalue]
    exact hfits
  · intro e he
    rw [hvalue] at he
    exact hfirst.before e.shift (Nat.zero_le _) ((Nat.pow_lt_pow_iff_right (by decide)).mp he)
  · rw [hinitial, hvalue, BitVec.toNat_setWidth, hcount, Nat.mod_eq_of_lt hfits]

/-- Whatever the two readings of the count and the ticks of the PIT are, the calibrated
frequency is bounded, and the timer can be set to every rate. -/
theorem calibrated_programs (s : State) (hs : NoWrap s.pit) :
    (∀ f s', (calibrate_frequency s).Ends (f, s') → f.toNat ≤ 429496729500 ∧
      ∀ u, u.apic_timer_frequency = f → f ≠ 0 → ∀ target_hz : BitVec 32, 1 ≤ target_hz.toNat →
        Programs u target_hz) ∧
    ∀ vector mode divider s', (init vector mode divider s).Ends s' →
      s'.apic_timer_frequency.toNat ≤ 429496729500 ∧
      (s'.apic_timer_frequency ≠ 0 → ∀ target_hz : BitVec 32, 1 ≤ target_hz.toNat → Programs s' target_hz) := by
  refine ⟨?_, ?_⟩
  · intro f s' h
    have hf := calibrate_le s s' f hs h
    refine ⟨hf, ?_⟩
    rintro u rfl hne target_hz hpos
    exact set_frequency_spec u target_hz hf hne hpos
  · intro vector mode divider s' h
    obtain ⟨f, u, hu, -, rfl⟩ := init_ends vector mode divider s s' h
    -- Masking the timer and its divider have nothing to do with the ticks.
    have hf := calibrate_le (prepared vector mode divider s) u _ hs hu
    exact ⟨hf, fun hne target_hz hpos => set_frequency_spec s' target_hz hf hne hpos⟩

theorem started_arrive (n k : Nat) (divide : BitVec 32) :
    Pit.arrive^[k] (started 0 n divide).pit =
      { (started 0 n divide).pit with ticks_since_boot := BitVec.ofNat 64 (n * min k 8), readings := k } := by
  induction k with
  | zero => simp [started]
  | succ k ih =>
    rw [Function.iterate_succ_apply', ih, Pit.arrive_eq]
    have hticks : n * min k 8 + (if k < 8 then n else 0) = n * min (k + 1) 8 := by
      split
      case isTrue h => rw [min_eq_left (by omega), min_eq_left (by omega), Nat.mul_succ]
      case isFalse h => rw [min_eq_right (by omega), min_eq_right (by omega), Nat.add_zero]
    simp only [started, ← BitVec.ofNat_add, hticks]

theorem started_noWrap (n : Nat) (hn : n ≤ 100) (divide : BitVec 32) : NoWrap (started 0 n divide).pit := by
  have hticks : ∀ k, (ticksAt (started 0 n divide).pit k).toNat = n * min (k + 1) 8 := by
    intro k
    have hle : n * min (k + 1) 8 ≤ 100 * 8 := Nat.mul_le_mul hn (min_le_right _ _)
    rw [ticksAt, started_arrive, BitVec.toNat_ofNat, Nat.mod_eq_of_lt (by omega)]
  refine ⟨?_, ?_⟩
  · intro k
    rw [hticks, hticks]
    exact Nat.mul_le_mul_left _ (by omega)
  · rw [hticks, show min (0 + 1) 8 = 1 from rfl]
    omega

/-- The largest difference that the counter can have, and a rate of 1 Hz: the divider is 128. -/
theorem calibrated_programs_slow :
    ∃ s', (init 0x20 .PERIODIC .DIV_BY_1 (started 0 3 0)).Ends s' ∧
      s'.apic_timer_frequency.toNat ≤ 429496729500 ∧ Programs s' 1 := by
  have hs' : (init 0x20 .PERIODIC .DIV_BY_1 (started 0 3 0)).Ends _ := ⟨8, rfl⟩
  obtain ⟨hle, hprograms⟩ := (calibrated_programs (started 0 3 0) (started_noWrap 3 (by decide) 0)).2 _ _ _ _ hs'
  exact ⟨_, hs', hle, hprograms (by decide) 1 (by decide)⟩

end SlayerOS.Lapic
