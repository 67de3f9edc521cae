import SlayerOS.Timer.Sleep
import Mathlib.Algebra.GroupWithZero.Nat

/-!
# Reading the time (`pit.cc`, `timer.cc`)

The uptime is counted in ticks, and every reading turns the ticks into its own unit with a product
of 64 bits.
-/

open SlayerOS.Fuel SlayerOS.Fuel.Comp

namespace SlayerOS.Pit

/-- `PIT::get_uptime_ms` and `PIT::get_uptime_us`, where a second has `unit` of what they give. -/
def get_uptime (unit : BitVec 64) (s : State) : BitVec 64 × State :=
  if s.timer_frequency = 0 then (0, s)
  else ((arrive s).ticks_since_boot * unit / s.timer_frequency.setWidth 64, arrive s)

def get_uptime_ms (s : State) : BitVec 64 × State := get_uptime 1000 s

def get_uptime_us (s : State) : BitVec 64 × State := get_uptime 1000000 s

/-! ## The count of the ticks -/

/-- The ticks before the next `k` readings. -/
def arrivals (s : State) (k : Nat) : Nat := ((List.range k).map fun i => s.interrupts (s.readings + i)).sum

theorem arrive_iterate (s : State) (k : Nat) :
    arrive^[k] s = { s with
      ticks_since_boot := s.ticks_since_boot + BitVec.ofNat 64 (arrivals s k)
      readings := s.readings + k } := by
  induction k with
  | zero => simp [arrivals]
  | succ k ih =>
    have hsum : arrivals s (k + 1) = arrivals s k + s.interrupts (s.readings + k) := by
      unfold arrivals
      rw [List.range_succ, List.map_append, List.sum_append]
      simp
    rw [Function.iterate_succ_apply', ih, arrive_eq, hsum]
    simp only [BitVec.ofNat_add, BitVec.add_assoc]
    rfl

theorem arrivals_add (s : State) (i k : Nat) : arrivals s (i + k) = arrivals s i + arrivals (arrive^[i] s) k := by
  rw [arrive_iterate]
  unfold arrivals
  rw [List.range_add, List.map_append, List.sum_append, List.map_map]
  simp only [Function.comp_def, Nat.add_assoc]

theorem arrive_ticks (s : State) (k : Nat) (hroom : s.ticks_since_boot.toNat + arrivals s k < 2 ^ 64) :
    (arrive^[k] s).ticks_since_boot.toNat = s.ticks_since_boot.toNat + arrivals s k := by
  rw [arrive_iterate, BitVec.toNat_add, BitVec.toNat_ofNat, Nat.add_mod_mod, Nat.mod_eq_of_lt hroom]

end SlayerOS.Pit

namespace SlayerOS.Timer

def get_active_timer (s : State) : TimerType := s.active_timer

def get_frequency (s : State) : BitVec 64 := s.timer_frequency

def get_timer_name (s : State) : String :=
  match s.active_timer with
  | .PIT => "PIT"
  | .APIC_TIMER => "APIC"
  | .HPET => "HPET"
  | .NONE => "None"

/-- The `switch` over the active timer. Only the PIT can be read. -/
def switch_read (pit_read : Pit.State → BitVec 64 × Pit.State) (s : State) : BitVec 64 × State :=
  match s.active_timer with
  | .PIT => ((pit_read s.pit).1, { s with pit := (pit_read s.pit).2 })
  | _ => (0, s)

def get_counter (s : State) : BitVec 64 × State := switch_read Pit.get_ticks s

def get_uptime_ns (s : State) : BitVec 64 × State :=
  switch_read (fun p => ((Pit.get_uptime_us p).1 * 1000, (Pit.get_uptime_us p).2)) s

def get_uptime_us (s : State) : BitVec 64 × State := switch_read Pit.get_uptime_us s

def get_uptime_ms (s : State) : BitVec 64 × State := switch_read Pit.get_uptime_ms s

/-! ## A program that reads the time and sleeps -/

inductive Reading where
  | counter
  | ms
  | us
  | ns
deriving DecidableEq, Repr

def Reading.call : Reading → State → BitVec 64 × State
  | .counter => get_counter
  | .ms => get_uptime_ms
  | .us => get_uptime_us
  | .ns => get_uptime_ns

/-- What a tick is worth. -/
def Reading.tick : Reading → Nat
  | .counter => 1
  | .ms => 1
  | .us => 1000
  | .ns => 1000000

inductive Op where
  | read (r : Reading)
  | sleep_ms (milliseconds : BitVec 64)
deriving DecidableEq, Repr

inductive Stamp where
  | time (r : Reading) (value : BitVec 64)
  | slept (milliseconds : BitVec 64)
deriving DecidableEq, Repr

def perform (s : State) : Op → Comp (Stamp × State)
  | .read r => pure (.time r (r.call s).1, (r.call s).2)
  | .sleep_ms n => do
    let s ← sleep_ms n s
    pure (.slept n, s)

def perform_all (s : State) : List Op → Comp (List Stamp × State)
  | [] => pure ([], s)
  | op :: ops => do
    let (stamp, s) ← perform s op
    let (stamps, s) ← perform_all s ops
    pure (stamp :: stamps, s)

/-- From tick `t` on, a reading is a number of whole ticks that is not before the last reading and
all sleeps since then. -/
def Spaced : Nat → List Stamp → Prop
  | _, [] => True
  | t, .time r value :: stamps => r.tick ∣ value.toNat ∧ t ≤ value.toNat / r.tick ∧ Spaced (value.toNat / r.tick) stamps
  | t, .slept n :: stamps => Spaced (t + n.toNat) stamps

/-- The last tick whose nanoseconds fit into a `u64`. -/
def last_tick : Nat := 18446744073709

/-! ## One operation -/

def after (s : State) (k : Nat) : State := { s with pit := Pit.arrive^[k] s.pit }

theorem after_ready {s : State} (hs : Ready s) (k : Nat) : Ready (after s k) :=
  ⟨hs.active, (Pit.arrive_timer_frequency k s.pit).trans hs.frequency⟩

theorem after_after (s : State) (i k : Nat) : after (after s i) k = after s (i + k) := by
  unfold after
  dsimp only
  rw [← Function.iterate_add_apply, Nat.add_comm k i]

theorem uptime_toNat (unit ticks : BitVec 64) (hroom : ticks.toNat * unit.toNat < 2 ^ 64) :
    (ticks * unit / (1000 : BitVec 32).setWidth 64).toNat = ticks.toNat * unit.toNat / 1000 := by
  rw [BitVec.toNat_udiv, BitVec.toNat_mul, Nat.mod_eq_of_lt hroom]
  rfl

theorem call_after (r : Reading) {s : State} (hs : Ready s) : (r.call s).2 = after s 1 := by
  cases r <;>
    simp [Reading.call, get_counter, get_uptime_ms, get_uptime_us, get_uptime_ns, switch_read, hs.active, Pit.get_ticks,
      Pit.get_uptime_ms, Pit.get_uptime_us, Pit.get_uptime, hs.frequency, after]

theorem call_toNat (r : Reading) {s : State} (hs : Ready s)
    (hroom : (after s 1).pit.ticks_since_boot.toNat ≤ last_tick) :
    (r.call s).1.toNat = (after s 1).pit.ticks_since_boot.toNat * r.tick := by
  have hfrequency : ¬ s.pit.timer_frequency = 0 := by
    rw [hs.frequency]
    decide
  change (Pit.arrive s.pit).ticks_since_boot.toNat ≤ last_tick at hroom
  change _ = (Pit.arrive s.pit).ticks_since_boot.toNat * r.tick
  unfold last_tick at hroom
  unfold Reading.call Reading.tick
  cases r with
  | counter =>
    simp only [get_counter, switch_read, hs.active, Pit.get_ticks]
    omega
  | ms =>
    simp only [get_uptime_ms, switch_read, hs.active, Pit.get_uptime_ms, Pit.get_uptime, if_neg hfrequency]
    rw [hs.frequency, uptime_toNat _ _ (by simp; omega)]
    simp
  | us =>
    simp only [get_uptime_us, switch_read, hs.active, Pit.get_uptime_us, Pit.get_uptime, if_neg hfrequency]
    rw [hs.frequency, uptime_toNat _ _ (by simp; omega)]
    simp
    omega
  | ns =>
    simp only [get_uptime_ns, switch_read, hs.active, Pit.get_uptime_us, Pit.get_uptime, if_neg hfrequency]
    rw [hs.frequency, BitVec.toNat_mul, uptime_toNat _ _ (by simp; omega)]
    simp
    omega

theorem sleep_after {s r : State} (hs : Ready s) (n : BitVec 64) (hr : (sleep_ms n s).Ends r) : ∃ k, r = after s k := by
  obtain ⟨p, hp, rfl⟩ := (sleep_ms_waitsFor n s.pit.ticks_since_boot s r hs rfl).mp hr
  obtain ⟨k, rfl, -⟩ := (Pit.wait_loop_iff _ _ p).mp hp
  exact ⟨k + 1, rfl⟩

theorem perform_after {s s' : State} {op : Op} {stamp : Stamp} (hs : Ready s)
    (h : (perform s op).Ends (stamp, s')) : ∃ k, s' = after s k := by
  cases op with
  | read r =>
    obtain ⟨-, hafter⟩ := Prod.mk.inj ((ends_pure _ _).mp h)
    exact ⟨1, by rw [← hafter, call_after r hs]⟩
  | sleep_ms n =>
    obtain ⟨r, hr, hend⟩ := (ends_bind _ _ _).mp h
    obtain ⟨-, rfl⟩ := Prod.mk.inj ((ends_pure _ _).mp hend)
    exact sleep_after hs n hr

/-- No sleep is cut to 32 bits. -/
def Op.Short : Op → Prop
  | .read _ => True
  | .sleep_ms n => n.toNat ≤ 4294967

theorem Spaced.mono {t u : Nat} {stamps : List Stamp} (hle : t ≤ u) (h : Spaced u stamps) : Spaced t stamps := by
  induction stamps generalizing t u with
  | nil => trivial
  | cons stamp stamps ih =>
    cases stamp with
    | time r value =>
      obtain ⟨hwhole, hlate, hrest⟩ := h
      exact ⟨hwhole, Nat.le_trans hle hlate, hrest⟩
    | slept n => exact ih (Nat.add_le_add_right hle n.toNat) h

theorem perform_spaced {s s' : State} {op : Op} {stamp : Stamp} {stamps : List Stamp} (hs : Ready s)
    (h : (perform s op).Ends (stamp, s')) (hop : op.Short) (hbefore : s.pit.ticks_since_boot.toNat ≤ last_tick)
    (hroom : s.pit.ticks_since_boot.toNat ≤ s'.pit.ticks_since_boot.toNat)
    (hlast : s'.pit.ticks_since_boot.toNat ≤ last_tick) (hrest : Spaced s'.pit.ticks_since_boot.toNat stamps) :
    Spaced s.pit.ticks_since_boot.toNat (stamp :: stamps) := by
  cases op with
  | read r =>
    obtain ⟨rfl, rfl⟩ := Prod.mk.inj ((ends_pure _ _).mp h)
    rw [call_after r hs] at hroom hlast hrest
    have hpos : 0 < r.tick := by cases r <;> decide
    have hvalue := call_toNat r hs hlast
    have htick : (r.call s).1.toNat / r.tick = (after s 1).pit.ticks_since_boot.toNat := by
      rw [hvalue, Nat.mul_div_cancel _ hpos]
    refine ⟨?_, ?_, ?_⟩
    · rw [hvalue]
      exact Nat.dvd_mul_left _ _
    · rw [htick]
      exact hroom
    · rw [htick]
      exact hrest
  | sleep_ms n =>
    obtain ⟨r, hr, hend⟩ := (ends_bind _ _ _).mp h
    obtain ⟨rfl, rfl⟩ := Prod.mk.inj ((ends_pure _ _).mp hend)
    unfold last_tick at hbefore
    have hshort : n.toNat ≤ 4294967 := hop
    have hfull := (sleep_ms_waitsFor n s.pit.ticks_since_boot).end_le s r hs rfl hr
    rw [ms_target n s.pit.ticks_since_boot (by omega) hshort] at hfull
    have hspaced : Spaced (s.pit.ticks_since_boot.toNat + n.toNat) stamps := hrest.mono hfull
    exact hspaced

/-! ## The program -/

theorem perform_all_after {s s' : State} {ops : List Op} {stamps : List Stamp} (hs : Ready s)
    (h : (perform_all s ops).Ends (stamps, s')) : ∃ k, s' = after s k := by
  induction ops generalizing s s' stamps with
  | nil =>
    obtain ⟨-, rfl⟩ := Prod.mk.inj ((ends_pure _ _).mp h)
    exact ⟨0, rfl⟩
  | cons op ops ih =>
    obtain ⟨⟨stamp, u⟩, hu, hrest⟩ := (ends_bind _ _ _).mp h
    obtain ⟨⟨stamps', v⟩, hv, hend⟩ := (ends_bind _ _ _).mp hrest
    obtain ⟨-, rfl⟩ := Prod.mk.inj ((ends_pure _ _).mp hend)
    obtain ⟨i, rfl⟩ := perform_after hs hu
    obtain ⟨k, rfl⟩ := ih (after_ready hs i) hv
    exact ⟨i + k, after_after s i k⟩

/-- Readings of the time in any units, with sleeps between them: each one shows at least the last
one and the sleeps since then. This is so until the ticks no longer fit into the nanoseconds. -/
theorem perform_all_spaced (s s' : State) (ops : List Op) (stamps : List Stamp) (hs : Ready s)
    (hops : ∀ op ∈ ops, op.Short) (h : (perform_all s ops).Ends (stamps, s'))
    (hroom : s.pit.ticks_since_boot.toNat + Pit.arrivals s.pit (s'.pit.readings - s.pit.readings) ≤ last_tick) :
    Spaced s.pit.ticks_since_boot.toNat stamps := by
  induction ops generalizing s s' stamps with
  | nil =>
    obtain ⟨rfl, -⟩ := Prod.mk.inj ((ends_pure _ _).mp h)
    trivial
  | cons op ops ih =>
    obtain ⟨⟨stamp, u⟩, hu, hrest⟩ := (ends_bind _ _ _).mp h
    obtain ⟨⟨stamps', v⟩, hv, hend⟩ := (ends_bind _ _ _).mp hrest
    obtain ⟨rfl, rfl⟩ := Prod.mk.inj ((ends_pure _ _).mp hend)
    obtain ⟨i, rfl⟩ := perform_after hs hu
    obtain ⟨k, rfl⟩ := perform_all_after (after_ready hs i) hv
    have hreadings : ((after (after s i) k).pit.readings - s.pit.readings) = i + k := by
      rw [after_after]
      unfold after
      rw [Pit.arrive_iterate]
      dsimp only
      omega
    have hleft : ((after (after s i) k).pit.readings - (after s i).pit.readings) = k := by
      unfold after
      dsimp only
      rw [Pit.arrive_iterate (Pit.arrive^[i] s.pit)]
      dsimp only
      omega
    rw [hreadings, Pit.arrivals_add] at hroom
    have hcount : (after s i).pit.ticks_since_boot.toNat = s.pit.ticks_since_boot.toNat + Pit.arrivals s.pit i :=
      Pit.arrive_ticks s.pit i (by unfold last_tick at hroom; omega)
    have hspaced := ih (after s i) _ stamps' (after_ready hs i) (fun o ho => hops o (List.mem_cons_of_mem op ho)) hv (by
      rw [hleft, hcount, Nat.add_assoc]
      exact hroom)
    exact perform_spaced hs hu (hops op (by simp)) (by omega) (by omega) (by omega) hspaced

/-- The test of the boot, with a sleep of two milliseconds. -/
theorem perform_all_spaced_boot :
    ∃ stamps s', (perform_all (quiet 5) [.read .ms, .sleep_ms 2, .read .ms, .read .us, .read .ns]).Ends (stamps, s') ∧
      Spaced 5 stamps := by
  obtain ⟨⟨stamps, s'⟩, hs', hreadings⟩ : ∃ p,
      (perform_all (quiet 5) [.read .ms, .sleep_ms 2, .read .ms, .read .us, .read .ns]).Ends p ∧
        p.2.pit.readings = 6 := ⟨_, ⟨8, rfl⟩, rfl⟩
  refine ⟨stamps, s', hs', perform_all_spaced (quiet 5) s' _ stamps (quiet_ready 5) (by simp [Op.Short]) hs' ?_⟩
  rw [hreadings]
  decide

end SlayerOS.Timer
