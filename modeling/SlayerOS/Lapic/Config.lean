import SlayerOS.Lapic.Frequency

/-!
# The configuration of the timer

Three registers hold what the timer is set up for. Every function of `LAPIC::Timer` changes some of
it, and the registers show the rest unchanged.
-/

open SlayerOS.Fuel SlayerOS.Fuel.Comp
open SlayerOS.Pit (Line div)

namespace SlayerOS.Lapic

def mask (s : State) : State := disable s

def unmask (s : State) : State := enable s

/-! ## The abstract timer -/

/-- What the timer is set up for, and the frequency that `init` has measured. -/
structure Config where
  vector : BitVec 8
  mode : Mode
  masked : Bool
  divider : Divider
  initial_count : BitVec 32
  frequency : BitVec 64
deriving DecidableEq

def Config.lvt (c : Config) : BitVec 32 :=
  lvt_value c.vector c.mode ||| if c.masked then (1 : BitVec 32) <<< 16 else 0

/-- The registers show the configuration. -/
structure Shows (s : State) (c : Config) : Prop where
  lvt : s.registers LAPIC_TIMER_LVT = c.lvt
  divide : s.registers LAPIC_TIMER_DIVIDE_CONFIG = c.divider.code
  count : s.registers LAPIC_TIMER_INITIAL_COUNT = c.initial_count
  frequency : s.apic_timer_frequency = c.frequency

inductive Op where
  | init (vector : BitVec 8) (mode : Mode) (divider : Divider)
  | enable
  | disable
  | mask
  | unmask
  | set_divider (divider : Divider)
  | set_initial_count (count : BitVec 32)
  | calibrate_frequency
  | set_frequency (target_hz : BitVec 32)
deriving DecidableEq

/-- A count that comes to the target, as near as whole counts do. -/
def Near (f : BitVec 64) (target_hz : BitVec 32) (divider : Divider) (count : BitVec 32) : Prop :=
  count.toNat * (target_hz.toNat * divider.value) ≤ f.toNat ∧
    f.toNat < (count.toNat + 1) * (target_hz.toNat * divider.value)

/-- What each function makes of the configuration. A calibration leaves its own divider and count
behind, and `set_frequency` takes its own vector. -/
def Config.Next (c : Config) (op : Op) (c' : Config) : Prop :=
  match op with
  | .init vector mode _ =>
    ∃ f, f.toNat ≤ MAX_FREQUENCY ∧ c' = ⟨vector, mode, false, .DIV_BY_1, MAX_COUNT, f⟩
  | .enable => c' = { c with masked := false }
  | .disable => c' = { c with masked := true }
  | .mask => c' = { c with masked := true }
  | .unmask => c' = { c with masked := false }
  | .set_divider divider => c' = { c with divider }
  | .set_initial_count count => c' = { c with initial_count := count }
  | .calibrate_frequency => c' = { c with divider := .DIV_BY_1, initial_count := MAX_COUNT }
  | .set_frequency target_hz =>
    (c.frequency = 0 ∧ c' = c) ∨
      ∃ divider count, Near c.frequency target_hz divider count ∧
        (∀ d : Divider, d.value < divider.value → 2 ^ 32 ≤ countFor c.frequency target_hz d.value) ∧
        c' = ⟨0x21, .PERIODIC, false, divider, count, c.frequency⟩

/-- The configurations on the way through the calls. -/
inductive Config.Steps : Config → List Op → Config → Prop where
  | nil (c : Config) : Config.Steps c [] c
  | cons {c d e : Config} {op : Op} {ops : List Op} : c.Next op d → Config.Steps d ops e → Config.Steps c (op :: ops) e

/-! ## The calls -/

def perform (s : State) : Op → Comp State
  | .init vector mode divider => init vector mode divider s
  | .enable => pure (enable s)
  | .disable => pure (disable s)
  | .mask => pure (mask s)
  | .unmask => pure (unmask s)
  | .set_divider divider => pure (set_divider divider s)
  | .set_initial_count count => pure (set_initial_count count s)
  | .calibrate_frequency => do
    let r ← calibrate_frequency s
    pure r.2
  | .set_frequency target_hz => lift (set_frequency target_hz s)

def perform_all (s : State) : List Op → Comp State
  | [] => pure s
  | op :: ops => do
    let s ← perform s op
    perform_all s ops

/-- The ticks never go back and do not wrap around, however long it takes. -/
def NeverWraps (p : Pit.State) : Prop := ∀ k, NoWrap (Pit.arrive^[k] p)

/-! ## The mask -/

theorem mask_set (x : BitVec 32) (masked : Bool) :
    (x ||| if masked then (1 : BitVec 32) <<< 16 else 0) ||| (1 : BitVec 32) <<< 16 = x ||| (1 : BitVec 32) <<< 16 := by
  cases masked with
  | false => simp
  | true => rw [if_pos rfl, BitVec.or_assoc, BitVec.or_self]

theorem mask_clear (x : BitVec 32) (masked : Bool) (h : x.getLsbD 16 = false) :
    (x ||| if masked then (1 : BitVec 32) <<< 16 else 0) &&& ~~~((1 : BitVec 32) <<< 16) = x := by
  cases masked with
  | false =>
    rw [if_neg Bool.false_ne_true, show x ||| 0 = x from BitVec.or_zero]
    exact unmask_eq x h
  | true =>
    rw [if_pos rfl]
    have hdrop : (x ||| (1 : BitVec 32) <<< 16) &&& ~~~((1 : BitVec 32) <<< 16) = x &&& ~~~((1 : BitVec 32) <<< 16) := by
      ext i hi
      simp only [BitVec.getElem_and, BitVec.getElem_or, BitVec.getElem_not]
      generalize ((1 : BitVec 32) <<< 16)[i] = bit
      cases bit <;> simp
    rw [hdrop]
    exact unmask_eq x h

section

variable {s : State} {c : Config} (h : Shows s c)

include h

theorem enable_shows : Shows (enable s) { c with masked := false } := by
  refine ⟨?_, h.divide, h.count, h.frequency⟩
  rw [enable_registers, Function.update_self, h.lvt, Config.lvt, mask_clear _ _ (lvt_value_unmasked c.vector c.mode)]
  exact (BitVec.or_zero).symm

theorem disable_shows : Shows (disable s) { c with masked := true } := by
  refine ⟨?_, h.divide, h.count, h.frequency⟩
  rw [disable, read_lvt]
  change Function.update s.registers LAPIC_TIMER_LVT _ LAPIC_TIMER_LVT = _
  rw [Function.update_self, h.lvt, Config.lvt, mask_set]
  rfl

theorem set_divider_shows (divider : Divider) : Shows (set_divider divider s) { c with divider } :=
  ⟨h.lvt, rfl, h.count, h.frequency⟩

theorem set_initial_count_shows (count : BitVec 32) :
    Shows (set_initial_count count s) { c with initial_count := count } :=
  ⟨h.lvt, h.divide, rfl, h.frequency⟩

end

/-! ## The other calls -/

theorem calibrate_pit {s s' : State} {f : BitVec 64} (h : (calibrate_frequency s).Ends (f, s')) :
    (∃ k, s'.pit = Pit.arrive^[k] s.pit) ∧ s'.apic_timer_frequency = s.apic_timer_frequency := by
  unfold calibrate_frequency at h
  simp only [ends_bind, ends_pure] at h
  obtain ⟨now, hnow, hend⟩ := h
  obtain ⟨n, rfl, -⟩ := wait_loop_ends _ _ _ hnow
  have hkept : ∀ (lvt apic : BitVec 32) (ticks : BitVec 64) (u : State),
      (end_calibration lvt apic ticks u).2.pit = u.pit ∧
        (end_calibration lvt apic ticks u).2.apic_timer_frequency = u.apic_timer_frequency := by
    intro lvt apic ticks u
    unfold end_calibration
    split <;> exact ⟨rfl, rfl⟩
  have hs' := congrArg Prod.snd hend
  dsimp only at hs'
  rw [← hs', (hkept _ _ _ _).1, (hkept _ _ _ _).2]
  exact ⟨⟨n + 2 + 1, (Function.iterate_succ_apply' Pit.arrive (n + 2) s.pit).symm⟩, rfl⟩

theorem calibrate_shows {s s' : State} {c : Config} {f : BitVec 64} (h : Shows s c)
    (hs' : (calibrate_frequency s).Ends (f, s')) :
    Shows s' { c with divider := .DIV_BY_1, initial_count := MAX_COUNT } := by
  obtain ⟨hregisters, -⟩ := calibrate_ends s s' f hs'
  obtain ⟨hlvt, hdivide⟩ := calibrated_config s.registers
  rw [← hregisters] at hlvt hdivide
  refine ⟨hlvt.trans h.lvt, hdivide, ?_, (calibrate_pit hs').2.trans h.frequency⟩
  rw [hregisters]
  rfl

theorem init_shows {s s' : State} {vector : BitVec 8} {mode : Mode} {divider : Divider} (hs : NoWrap s.pit)
    (h : (init vector mode divider s).Ends s') :
    (∃ k, s'.pit = Pit.arrive^[k] s.pit) ∧
      ∃ f, f.toNat ≤ MAX_FREQUENCY ∧ Shows s' ⟨vector, mode, false, .DIV_BY_1, MAX_COUNT, f⟩ := by
  obtain ⟨hlvt, hdivide⟩ := init_registers vector mode divider s s' h
  unfold init at h
  simp only [ends_bind, ends_pure] at h
  obtain ⟨⟨f, u⟩, hu, rfl⟩ := h
  refine ⟨(calibrate_pit hu).1, f, calibrate_le (prepared vector mode divider s) u f hs hu, ?_, hdivide, ?_, rfl⟩
  · rw [hlvt]
    exact (BitVec.or_zero).symm
  · have hcount : (enable u).registers LAPIC_TIMER_INITIAL_COUNT = u.registers LAPIC_TIMER_INITIAL_COUNT := rfl
    change (enable u).registers LAPIC_TIMER_INITIAL_COUNT = MAX_COUNT
    rw [hcount, (calibrate_ends _ u f hu).1]
    rfl

theorem near_countFor (f : BitVec 64) (target_hz : BitVec 32) (divider : Divider) (count : BitVec 32)
    (hpos : 0 < target_hz.toNat) (hcount : count.toNat = countFor f target_hz divider.value) :
    Near f target_hz divider count := by
  have hdivisor : 0 < target_hz.toNat * divider.value := Nat.mul_pos hpos (Nat.two_pow_pos divider.shift)
  unfold Near
  rw [hcount, countFor]
  exact ⟨Nat.div_mul_le_self _ _, Nat.lt_mul_of_div_lt (Nat.lt_succ_self _) hdivisor⟩

theorem program_timer_shows (target_hz divider_value : BitVec 32) (count : BitVec 64) (s : State) :
    Shows (program_timer target_hz divider_value count s)
      ⟨0x21, .PERIODIC, false, divider_of divider_value, count.setWidth 32, s.apic_timer_frequency⟩ := by
  refine ⟨?_, rfl, rfl, rfl⟩
  change (0x21 ||| (1 : BitVec 32) <<< 17) &&& ~~~((1 : BitVec 32) <<< 16) = lvt_value 0x21 .PERIODIC ||| 0
  decide

theorem set_frequency_pos {s s' : State} {target_hz : BitVec 32} (hne : s.apic_timer_frequency ≠ 0)
    (h : set_frequency target_hz s = some s') : 0 < target_hz.toNat := by
  by_contra hzero
  obtain rfl : target_hz = 0 := BitVec.eq_of_toNat_eq (Nat.le_zero.mp (Nat.le_of_not_lt hzero))
  rw [set_frequency, if_neg hne] at h
  cases h

theorem set_frequency_shows {s s' : State} {c : Config} {target_hz : BitVec 32} (h : Shows s c)
    (hf : c.frequency.toNat ≤ MAX_FREQUENCY) (hs' : set_frequency target_hz s = some s') :
    s'.pit = s.pit ∧ ∃ c', c.Next (.set_frequency target_hz) c' ∧ Shows s' c' := by
  by_cases hzero : s.apic_timer_frequency = 0
  · rw [set_frequency, if_pos hzero] at hs'
    obtain rfl := Option.some.inj hs'
    exact ⟨rfl, c, Or.inl ⟨h.frequency ▸ hzero, rfl⟩, h.lvt, h.divide, h.count, h.frequency⟩
  · have hpos := set_frequency_pos hzero hs'
    rw [← h.frequency] at hf
    obtain ⟨d, count, hfirst, hcount, hfind⟩ := find_divider_spec hf hpos
    have hvalue := divider_of_pow d hfirst.hi
    have hfits := hfirst.fits
    have hnot : ¬ 0xFFFFFFFF < count := by
      rw [over_iff, hcount]
      omega
    rw [set_frequency, if_neg hzero, hfind] at hs'
    simp only [Option.bind_eq_bind, Option.bind_some, if_neg hnot, Option.some.injEq] at hs'
    subst hs'
    refine ⟨rfl, _, Or.inr ⟨divider_of (BitVec.ofNat 32 (2 ^ d)), count.setWidth 32, ?_, ?_, rfl⟩, ?_⟩
    · rw [← h.frequency]
      refine near_countFor _ _ _ _ hpos ?_
      rw [hvalue, BitVec.toNat_setWidth, hcount, Nat.mod_eq_of_lt hfits]
    · intro e he
      rw [hvalue] at he
      rw [← h.frequency]
      exact hfirst.before e.shift (Nat.zero_le _) ((Nat.pow_lt_pow_iff_right (by decide)).mp he)
    · rw [← h.frequency]
      exact program_timer_shows target_hz (BitVec.ofNat 32 (2 ^ d)) count s

/-! ## Runs -/

theorem Config.next_frequency {c c' : Config} {op : Op} (h : c.Next op c') (hf : c.frequency.toNat ≤ MAX_FREQUENCY) :
    c'.frequency.toNat ≤ MAX_FREQUENCY := by
  cases op with
  | init vector mode divider =>
    obtain ⟨f, hle, rfl⟩ := h
    exact hle
  | set_frequency target_hz =>
    rcases h with ⟨-, rfl⟩ | ⟨divider, count, -, -, rfl⟩ <;> exact hf
  | enable | disable | mask | unmask | set_divider | set_initial_count | calibrate_frequency =>
    subst h
    exact hf

theorem perform_shows {s s' : State} {c : Config} {op : Op} (hs : NoWrap s.pit) (h : Shows s c)
    (hf : c.frequency.toNat ≤ MAX_FREQUENCY) (hs' : (perform s op).Ends s') :
    (∃ k, s'.pit = Pit.arrive^[k] s.pit) ∧ ∃ c', c.Next op c' ∧ Shows s' c' := by
  cases op with
  | init vector mode divider =>
    obtain ⟨hpit, f, hle, hshows⟩ := init_shows hs hs'
    exact ⟨hpit, _, ⟨f, hle, rfl⟩, hshows⟩
  | enable | unmask =>
    obtain rfl := (ends_pure _ _).mp hs'
    exact ⟨⟨0, rfl⟩, _, rfl, enable_shows h⟩
  | disable | mask =>
    obtain rfl := (ends_pure _ _).mp hs'
    exact ⟨⟨0, rfl⟩, _, rfl, disable_shows h⟩
  | set_divider divider =>
    obtain rfl := (ends_pure _ _).mp hs'
    exact ⟨⟨0, rfl⟩, _, rfl, set_divider_shows h divider⟩
  | set_initial_count count =>
    obtain rfl := (ends_pure _ _).mp hs'
    exact ⟨⟨0, rfl⟩, _, rfl, set_initial_count_shows h count⟩
  | calibrate_frequency =>
    obtain ⟨⟨f, u⟩, hu, hend⟩ := (ends_bind _ _ _).mp hs'
    obtain rfl := (ends_pure _ _).mp hend
    exact ⟨(calibrate_pit hu).1, _, rfl, calibrate_shows h hu⟩
  | set_frequency target_hz =>
    obtain ⟨hpit, hnext⟩ := set_frequency_shows h hf ((ends_lift _ _).mp hs')
    exact ⟨⟨0, hpit⟩, hnext⟩

/-- Any calls in any order: the registers show a configuration that the calls lead to, one after the
other. -/
theorem perform_all_shows (s s' : State) (c : Config) (ops : List Op) (hs : NeverWraps s.pit) (h : Shows s c)
    (hf : c.frequency.toNat ≤ MAX_FREQUENCY) (hs' : (perform_all s ops).Ends s') :
    ∃ c', Config.Steps c ops c' ∧ Shows s' c' := by
  induction ops generalizing s c with
  | nil =>
    obtain rfl := (ends_pure _ _).mp hs'
    exact ⟨c, .nil c, h⟩
  | cons op ops ih =>
    obtain ⟨u, hu, hrest⟩ := (ends_bind _ _ _).mp hs'
    obtain ⟨⟨k, hpit⟩, d, hnext, hd⟩ := perform_shows (hs 0) h hf hu
    have hu' : NeverWraps u.pit := by
      intro i
      rw [hpit, ← Function.iterate_add_apply]
      exact hs (i + k)
    obtain ⟨c', hsteps, hshows⟩ := ih u d hu' hd (Config.next_frequency hnext hf) hrest
    exact ⟨c', .cons hnext hsteps, hshows⟩

theorem started_neverWraps (n : Nat) (hn : n ≤ 100) (divide : BitVec 32) : NeverWraps (started 0 n divide).pit := by
  have hticks : ∀ k j, (ticksAt (Pit.arrive^[k] (started 0 n divide).pit) j).toNat = n * min (j + 1 + k) 8 := by
    intro k j
    have hle : n * min (j + 1 + k) 8 ≤ 100 * 8 := Nat.mul_le_mul hn (min_le_right _ _)
    rw [ticksAt, ← Function.iterate_add_apply, started_arrive, BitVec.toNat_ofNat, Nat.mod_eq_of_lt (by omega)]
  intro k
  refine ⟨?_, ?_⟩
  · intro j
    rw [hticks, hticks]
    exact Nat.mul_le_mul_left _ (by omega)
  · have hle : n * min (0 + 1 + k) 8 ≤ 100 * 8 := Nat.mul_le_mul hn (min_le_right _ _)
    rw [hticks]
    omega

/-- The timer is set up, masked, and set to 100 Hz. -/
theorem perform_all_shows_masked :
    ∃ s' c', (perform_all (started 0 3 0) [.init 0x20 .PERIODIC .DIV_BY_16, .mask, .set_frequency 100]).Ends s' ∧
      Config.Steps ⟨0, .ONE_SHOT, false, .DIV_BY_2, 0, 0⟩ [.init 0x20 .PERIODIC .DIV_BY_16, .mask, .set_frequency 100]
        c' ∧ Shows s' c' := by
  obtain ⟨s', hs'⟩ := ends_of_run
    (perform_all (started 0 3 0) [.init 0x20 .PERIODIC .DIV_BY_16, .mask, .set_frequency 100]) 8 rfl
  obtain ⟨c', hsteps, hshows⟩ := perform_all_shows (started 0 3 0) s' ⟨0, .ONE_SHOT, false, .DIV_BY_2, 0, 0⟩ _
    (started_neverWraps 3 (by decide) 0) ⟨rfl, rfl, rfl, rfl⟩ (by decide) hs'
  exact ⟨s', c', hs', hsteps, hshows⟩

end SlayerOS.Lapic
