import SlayerOS.Pit.Code

/-!
# The system timer (`timer.cc`, `acpi_kapi.cc`)

It hands everything on to the timer that is in use, which is the PIT or none. Durations are
`u64` values here and `u32` values there.
-/

open SlayerOS.Fuel SlayerOS.Fuel.Comp

namespace SlayerOS.Timer

/-- `Sys::Timer::Type`. -/
inductive TimerType where
  | NONE
  | PIT
  | APIC_TIMER
  | HPET
deriving DecidableEq, Repr

structure State where
  active_timer : TimerType
  timer_frequency : BitVec 64
  pit : Pit.State

def PIT_TARGET_FREQUENCY : BitVec 32 := 1000

def init (s : State) : Option (Bool × State) := do
  let pit ← Pit.init PIT_TARGET_FREQUENCY s.pit
  some (true, ⟨.PIT, PIT_TARGET_FREQUENCY.setWidth 64, pit⟩)

/-- The `switch` over the active timer. Only the PIT can sleep. -/
def switch_timer (pit_sleep : Pit.State → Comp Pit.State) (s : State) : Comp State :=
  match s.active_timer with
  | .PIT => do
    let pit ← pit_sleep s.pit
    pure { s with pit }
  | _ => pure s

def sleep_ns (nanoseconds : BitVec 64) (s : State) : Comp State :=
  let microseconds := (nanoseconds + 999) / 1000
  let microseconds := if microseconds = 0 then 1 else microseconds
  switch_timer (Pit.sleep_us (microseconds.setWidth 32)) s

def sleep_us (microseconds : BitVec 64) (s : State) : Comp State :=
  switch_timer (Pit.sleep_us (microseconds.setWidth 32)) s

def sleep_ms (milliseconds : BitVec 64) (s : State) : Comp State :=
  switch_timer (Pit.sleep_ms (milliseconds.setWidth 32)) s

/-! ## What uACPI calls -/

def uacpi_kernel_stall (usec : BitVec 8) (s : State) : Comp State := sleep_us (usec.setWidth 64) s

def uacpi_kernel_sleep (msec : BitVec 64) (s : State) : Comp State := sleep_ms msec s

/-! ## What a sleep is for -/

/-- The state behind `init`, at any count. -/
structure Ready (s : State) : Prop where
  active : s.active_timer = .PIT
  frequency : s.pit.timer_frequency = 1000

/-- A sleep from tick `t` on does not end before tick `t + n`, however the interrupts come. -/
def NotEarly (sleep : State → Comp State) (t : BitVec 64) (n : Nat) : Prop :=
  ∀ s r, Ready s → s.pit.ticks_since_boot = t → (sleep s).Ends r →
    t.toNat + n ≤ r.pit.ticks_since_boot.toNat

/-- A sleep of `n` ticks ends no earlier than it should, nor earlier than a shorter one. -/
structure SleepsFull (sleep : BitVec 64 → State → Comp State) (t n : BitVec 64) : Prop where
  full : NotEarly (sleep n) t n.toNat
  longer : ∀ m, m ≤ n → ∀ s q r, Ready s → s.pit.ticks_since_boot = t → (sleep m s).Ends q →
    (sleep n s).Ends r → q.pit.ticks_since_boot.toNat ≤ r.pit.ticks_since_boot.toNat

end SlayerOS.Timer
