import SlayerOS.Lapic.Code
import SlayerOS.Pit.Wait

/-!
# What calibration measures and what it leaves behind

It takes the current count twice, and the ticks of the PIT in between. The LVT register is
put back at the end, and the divide register is not.
-/

open SlayerOS.Fuel SlayerOS.Fuel.Comp

namespace SlayerOS.Lapic

/-! ## Registers -/

theorem read_lvt (s : State) : read LAPIC_TIMER_LVT s = (s.registers LAPIC_TIMER_LVT, s) := if_neg (by decide)

theorem enable_registers (s : State) :
    (enable s).registers = Function.update s.registers LAPIC_TIMER_LVT
      (s.registers LAPIC_TIMER_LVT &&& ~~~((1 : BitVec 32) <<< 16)) := by
  rw [enable, read_lvt]
  rfl

/-! ## The wait -/

theorem get_ticks_iterate (n : Nat) (s : State) :
    (fun now : BitVec 64 × State => get_ticks now.2)^[n] (get_ticks s) =
      ((Pit.arrive^[n + 1] s.pit).ticks_since_boot, { s with pit := Pit.arrive^[n + 1] s.pit }) := by
  induction n with
  | zero => rfl
  | succ n ih =>
    rw [Function.iterate_succ_apply', ih, Function.iterate_succ_apply' Pit.arrive (n + 1)]
    rfl

theorem wait_loop_ends (target : BitVec 64) (s : State) (now : BitVec 64 × State)
    (h : (wait_loop target (get_ticks s)).Ends now) :
    ∃ n, now = ((Pit.arrive^[n + 1] s.pit).ticks_since_boot, { s with pit := Pit.arrive^[n + 1] s.pit }) ∧
      target.toNat ≤ (Pit.arrive^[n + 1] s.pit).ticks_since_boot.toNat := by
  obtain ⟨n, hnow, hend, -⟩ := (while_iterate_iff _ _ _ _).mp h
  rw [get_ticks_iterate] at hnow
  refine ⟨n, hnow, ?_⟩
  rw [hnow, decide_eq_false_iff_not, BitVec.lt_def] at hend
  exact Nat.le_of_not_lt hend

/-! ## `calibrate_frequency` -/

/-- The registers behind the calibration. -/
def calibrated (r : BitVec 32 → BitVec 32) : BitVec 32 → BitVec 32 :=
  Function.update (Function.update (Function.update (Function.update r
    LAPIC_TIMER_DIVIDE_CONFIG Divider.DIV_BY_1.code) LAPIC_TIMER_LVT ((1 : BitVec 32) <<< 16))
    LAPIC_TIMER_INITIAL_COUNT MAX_COUNT) LAPIC_TIMER_LVT (r LAPIC_TIMER_LVT)

/-- Reading `k` of the ticks, from 0 on. -/
def ticksAt (p : Pit.State) (k : Nat) : BitVec 64 := (Pit.arrive^[k + 1] p).ticks_since_boot

/-- The ticks that go by between the first reading and reading `k`. -/
def elapsed (p : Pit.State) (k : Nat) : BitVec 64 := ticksAt p k - ticksAt p 0

def frequencyOf (apic_ticks : BitVec 32) (actual_pit_ticks : BitVec 64) : BitVec 64 :=
  if actual_pit_ticks = 0 then 0 else apic_ticks.setWidth 64 * 1000 / actual_pit_ticks

theorem end_calibration_eq (lvt_backup apic_ticks : BitVec 32) (actual_pit_ticks : BitVec 64) (s : State) :
    (end_calibration lvt_backup apic_ticks actual_pit_ticks s).1 = frequencyOf apic_ticks actual_pit_ticks ∧
    (end_calibration lvt_backup apic_ticks actual_pit_ticks s).2.registers =
      Function.update s.registers LAPIC_TIMER_LVT lvt_backup := by
  unfold end_calibration frequencyOf
  split <;> exact ⟨rfl, rfl⟩

theorem calibrate_ends (s s' : State) (f : BitVec 64) (h : (calibrate_frequency s).Ends (f, s')) :
    s'.registers = calibrated s.registers ∧
    ∃ n, (ticksAt s.pit 0 + 10).toNat ≤ (ticksAt s.pit (n + 1)).toNat ∧
      f = frequencyOf (s.counts s.readings - s.counts (s.readings + 1)) (elapsed s.pit (n + 2)) := by
  unfold calibrate_frequency at h
  simp only [ends_bind, ends_pure] at h
  obtain ⟨now, hnow, hend⟩ := h
  obtain ⟨n, rfl, htarget⟩ := wait_loop_ends _ _ _ hnow
  have hresult := congrArg Prod.fst hend
  have hregisters := congrArg (fun r => r.2.registers) hend
  simp only [end_calibration_eq] at hresult hregisters
  refine ⟨hregisters.symm, n, htarget, ?_⟩
  have hlast : Pit.arrive (Pit.arrive^[n] (Pit.arrive^[2] s.pit)) = Pit.arrive^[n + 2 + 1] s.pit :=
    (Function.iterate_succ_apply' _ _ _).symm
  rw [← hresult, elapsed, ticksAt, ← hlast]
  rfl

/-! ## What is left behind -/

/-- The two registers that configure the timer are as they were. -/
def KeepsConfig (s s' : State) : Prop :=
  s'.registers LAPIC_TIMER_LVT = s.registers LAPIC_TIMER_LVT ∧
  s'.registers LAPIC_TIMER_DIVIDE_CONFIG = s.registers LAPIC_TIMER_DIVIDE_CONFIG

def Mode.code : Mode → BitVec 32
  | .ONE_SHOT => 0
  | .PERIODIC => 1
  | .TSC_DEADLINE => 2

/-- The timer is set up as `init` was asked to. -/
structure Configured (s : State) (vector : BitVec 8) (mode : Mode) (divider : Divider) : Prop where
  divide : s.registers LAPIC_TIMER_DIVIDE_CONFIG = divider.code
  lvt : s.registers LAPIC_TIMER_LVT = vector.setWidth 32 ||| mode.code <<< 17
  unmasked : (s.registers LAPIC_TIMER_LVT).getLsbD 16 = false

theorem calibrated_config (r : BitVec 32 → BitVec 32) :
    calibrated r LAPIC_TIMER_LVT = r LAPIC_TIMER_LVT ∧
    calibrated r LAPIC_TIMER_DIVIDE_CONFIG = Divider.DIV_BY_1.code := ⟨rfl, rfl⟩

theorem calibrate_keeps_iff (s s' : State) (f : BitVec 64) (h : (calibrate_frequency s).Ends (f, s')) :
    KeepsConfig s s' ↔ s.registers LAPIC_TIMER_DIVIDE_CONFIG = Divider.DIV_BY_1.code := by
  obtain ⟨hlvt, hdivide⟩ := calibrated_config s.registers
  rw [KeepsConfig, (calibrate_ends s s' f h).1, hlvt, hdivide]
  exact ⟨fun hkeeps => hkeeps.2.symm, fun hone => ⟨rfl, hone.symm⟩⟩

theorem lvt_value_eq (vector : BitVec 8) (mode : Mode) :
    lvt_value vector mode = vector.setWidth 32 ||| mode.code <<< 17 := by
  cases mode
  case ONE_SHOT => exact (BitVec.or_zero).symm
  all_goals rfl

theorem lvt_value_unmasked (vector : BitVec 8) (mode : Mode) : (lvt_value vector mode).getLsbD 16 = false := by
  have hvector : (vector.setWidth 32).getLsbD 16 = false := by
    rw [BitVec.getLsbD_setWidth, BitVec.getLsbD_of_ge _ _ (by decide), Bool.and_false]
  rw [lvt_value_eq, BitVec.getLsbD_or, hvector, Bool.false_or]
  cases mode <;> rfl

theorem unmask_eq (x : BitVec 32) (h : x.getLsbD 16 = false) : x &&& ~~~((1 : BitVec 32) <<< 16) = x := by
  apply BitVec.eq_of_getLsbD_eq
  intro i hi
  by_cases heq : i = 16
  · rw [heq, BitVec.getLsbD_and, h, Bool.false_and]
  · have hone : ((1 : BitVec 32) <<< 16).getLsbD i = false := by
      rw [show (1 : BitVec 32) <<< 16 = BitVec.twoPow 32 16 from rfl, BitVec.getLsbD_twoPow]
      simp [Ne.symm heq]
    rw [BitVec.getLsbD_and, BitVec.getLsbD_not, hone, decide_eq_true hi, Bool.not_false, Bool.and_self, Bool.and_true]

/-- The registers before the calibration in `init`. -/
def prepared (vector : BitVec 8) (mode : Mode) (divider : Divider) (s : State) : State :=
  write LAPIC_TIMER_LVT (lvt_value vector mode) (set_divider divider (disable s))

theorem prepared_registers (vector : BitVec 8) (mode : Mode) (divider : Divider) (s : State) :
    (prepared vector mode divider s).registers LAPIC_TIMER_LVT = lvt_value vector mode := rfl

theorem init_ends (vector : BitVec 8) (mode : Mode) (divider : Divider) (s s' : State)
    (h : (init vector mode divider s).Ends s') :
    ∃ f u, (calibrate_frequency (prepared vector mode divider s)).Ends (f, u) ∧
      s'.registers = (enable u).registers ∧ s'.apic_timer_frequency = f := by
  unfold init at h
  simp only [ends_bind, ends_pure] at h
  obtain ⟨⟨f, u⟩, hu, rfl⟩ := h
  exact ⟨f, u, hu, rfl, rfl⟩

theorem init_registers (vector : BitVec 8) (mode : Mode) (divider : Divider) (s s' : State)
    (h : (init vector mode divider s).Ends s') :
    s'.registers LAPIC_TIMER_LVT = lvt_value vector mode ∧
    s'.registers LAPIC_TIMER_DIVIDE_CONFIG = Divider.DIV_BY_1.code := by
  obtain ⟨f, u, hu, hregisters, -⟩ := init_ends vector mode divider s s' h
  obtain ⟨hlvt, hdivide⟩ := calibrated_config (prepared vector mode divider s).registers
  rw [hregisters, enable_registers, (calibrate_ends _ u f hu).1, hlvt, prepared_registers,
    unmask_eq _ (lvt_value_unmasked vector mode)]
  exact ⟨Function.update_self _ _ _, hdivide⟩

theorem init_configured_iff (vector : BitVec 8) (mode : Mode) (divider : Divider) (s s' : State)
    (h : (init vector mode divider s).Ends s') : Configured s' vector mode divider ↔ divider = .DIV_BY_1 := by
  obtain ⟨hlvt, hdivide⟩ := init_registers vector mode divider s s' h
  constructor
  · intro hconfigured
    have hcode := hconfigured.divide.symm.trans hdivide
    cases divider
    case DIV_BY_1 => rfl
    all_goals exact absurd hcode (by decide)
  · rintro rfl
    exact ⟨hdivide, hlvt.trans (lvt_value_eq vector mode), by rw [hlvt]; exact lvt_value_unmasked vector mode⟩

/-- The calibration keeps the configuration, on both of its exits, exactly where the divider
was one before, and `init` sets up the timer exactly for that divider. -/
theorem calibration_keeps_iff (s : State) :
    (∀ f s', (calibrate_frequency s).Ends (f, s') →
      (KeepsConfig s s' ↔ s.registers LAPIC_TIMER_DIVIDE_CONFIG = Divider.DIV_BY_1.code)) ∧
    ∀ vector mode divider s', (init vector mode divider s).Ends s' →
      (Configured s' vector mode divider ↔ divider = .DIV_BY_1) :=
  ⟨fun f s' => calibrate_keeps_iff s s' f,
    fun vector mode divider s' => init_configured_iff vector mode divider s s'⟩

/-- A timer that has counted down to zero at its second reading, and a PIT that ticks `n`
times before each of its first eight readings. -/
def started (ticks : BitVec 64) (n : Nat) (divide : BitVec 32) : State :=
  { registers := fun reg => if reg = LAPIC_TIMER_DIVIDE_CONFIG then divide else 0
    counts := fun k => if k = 0 then MAX_COUNT else 0
    readings := 0
    apic_timer_frequency := 0
    apic_timer_ticks_per_ms := 0
    pit :=
      { ticks_since_boot := ticks
        timer_frequency := 1000
        ports := []
        log := []
        interrupts := fun k => if k < 8 then n else 0
        readings := 0 }
    log := [] }

theorem calibration_keeps_iff_one :
    (∃ f s', (calibrate_frequency (started 0 3 0b1011)).Ends (f, s') ∧ KeepsConfig (started 0 3 0b1011) s') ∧
    ∃ s', (init 0x20 .PERIODIC .DIV_BY_1 (started 0 3 0)).Ends s' ∧ Configured s' 0x20 .PERIODIC .DIV_BY_1 := by
  have hcalibrate := (calibration_keeps_iff (started 0 3 0b1011)).1
  have hinit := (calibration_keeps_iff (started 0 3 0)).2
  obtain ⟨⟨f, s'⟩, hs'⟩ := ends_of_run (calibrate_frequency (started 0 3 0b1011)) 8 rfl
  obtain ⟨u, hu⟩ := ends_of_run (init 0x20 .PERIODIC .DIV_BY_1 (started 0 3 0)) 8 rfl
  exact ⟨⟨f, s', hs', (hcalibrate _ _ hs').mpr rfl⟩, u, hu, (hinit _ _ _ _ hu).mpr rfl⟩

/-- A timer that was set up with a divider of 16 runs with a divider of 1. So does one whose
calibration took the other exit. -/
theorem calibration_loses_divider :
    (∃ s', (init 0x20 .PERIODIC .DIV_BY_16 (started 0 3 0)).Ends s' ∧
      s'.registers LAPIC_TIMER_DIVIDE_CONFIG = 0b1011 ∧ ¬ Configured s' 0x20 .PERIODIC .DIV_BY_16) ∧
    ∃ s', (calibrate_frequency (started 0xFFFFFFFFFFFFFFFF 0 0b0011)).Ends (0, s') ∧
      ¬ KeepsConfig (started 0xFFFFFFFFFFFFFFFF 0 0b0011) s' := by
  obtain ⟨u, hu⟩ := ends_of_run (init 0x20 .PERIODIC .DIV_BY_16 (started 0 3 0)) 8 rfl
  have hs' : (calibrate_frequency (started 0xFFFFFFFFFFFFFFFF 0 0b0011)).Ends (0, _) := ⟨2, rfl⟩
  have hdivide := (init_registers _ _ _ _ _ hu).2
  refine ⟨⟨u, hu, hdivide, ?_⟩, _, hs', ?_⟩
  · exact fun h => absurd ((init_configured_iff _ _ _ _ _ hu).mp h) (by decide)
  · exact fun h => absurd ((calibrate_keeps_iff _ _ _ hs').mp h) (by decide)

end SlayerOS.Lapic
