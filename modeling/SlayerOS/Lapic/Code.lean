import SlayerOS.Pit.Code
import Mathlib.Logic.Function.Basic

/-!
# The timer of the local APIC (`lapic.cc`)

A register holds what was written to it last. The current count is different: what each
reading of it gives is an input here, and so are the ticks of the PIT.
-/

open SlayerOS.Fuel SlayerOS.Fuel.Comp
open SlayerOS.Pit (Line div)

namespace SlayerOS.Lapic

def LAPIC_TIMER_LVT : BitVec 32 := 0x320

def LAPIC_TIMER_INITIAL_COUNT : BitVec 32 := 0x380

def LAPIC_TIMER_CURRENT_COUNT : BitVec 32 := 0x390

def LAPIC_TIMER_DIVIDE_CONFIG : BitVec 32 := 0x3E0

inductive Mode where
  | ONE_SHOT
  | PERIODIC
  | TSC_DEADLINE
deriving DecidableEq, Repr

inductive Divider where
  | DIV_BY_1
  | DIV_BY_2
  | DIV_BY_4
  | DIV_BY_8
  | DIV_BY_16
  | DIV_BY_32
  | DIV_BY_64
  | DIV_BY_128
deriving DecidableEq, Repr

/-- The value of the enumeration, which is the code of the divide register. -/
def Divider.code : Divider → BitVec 32
  | .DIV_BY_2 => 0b0000
  | .DIV_BY_4 => 0b0001
  | .DIV_BY_8 => 0b0010
  | .DIV_BY_16 => 0b0011
  | .DIV_BY_32 => 0b1000
  | .DIV_BY_64 => 0b1001
  | .DIV_BY_128 => 0b1010
  | .DIV_BY_1 => 0b1011

structure State where
  registers : BitVec 32 → BitVec 32
  /-- What each reading of the current count gives, and the readings so far. -/
  counts : Nat → BitVec 32
  readings : Nat
  apic_timer_frequency : BitVec 64
  apic_timer_ticks_per_ms : BitVec 32
  pit : Pit.State
  /-- The lines of this file, the last one first. -/
  log : List Line

def logged (line : Line) (s : State) : State := { s with log := line :: s.log }

/-! ## Registers -/

def read (reg : BitVec 32) (s : State) : BitVec 32 × State :=
  if reg = LAPIC_TIMER_CURRENT_COUNT then (s.counts s.readings, { s with readings := s.readings + 1 })
  else (s.registers reg, s)

def write (reg value : BitVec 32) (s : State) : State :=
  { s with registers := Function.update s.registers reg value }

def set_initial_count (count : BitVec 32) (s : State) : State := write LAPIC_TIMER_INITIAL_COUNT count s

def get_current_count (s : State) : BitVec 32 × State := read LAPIC_TIMER_CURRENT_COUNT s

def set_divider (divider : Divider) (s : State) : State := write LAPIC_TIMER_DIVIDE_CONFIG divider.code s

def enable (s : State) : State :=
  let lvt := read LAPIC_TIMER_LVT s
  write LAPIC_TIMER_LVT (lvt.1 &&& ~~~((1 : BitVec 32) <<< 16)) lvt.2

def disable (s : State) : State :=
  let lvt := read LAPIC_TIMER_LVT s
  write LAPIC_TIMER_LVT (lvt.1 ||| (1 : BitVec 32) <<< 16) lvt.2

/-! ## `LAPIC::Timer::calibrate_frequency` -/

def CALIBRATION_MS : BitVec 32 := 10

def MAX_COUNT : BitVec 32 := 0xFFFFFFFF

/-- `PIT::get_ticks` -/
def get_ticks (s : State) : BitVec 64 × State :=
  let r := Pit.get_ticks s.pit
  (r.1, { s with pit := r.2 })

/-- `while (PIT::get_ticks() < target_pit_ticks)`, from the reading and the state before its
first comparison. -/
def wait_loop (target_pit_ticks : BitVec 64) (now : BitVec 64 × State) : Comp (BitVec 64 × State) :=
  while_ (fun now => pure (decide (now.1 < target_pit_ticks))) (fun now => pure (get_ticks now.2)) now

/-- The two exits of `calibrate_frequency`. -/
def end_calibration (lvt_backup apic_ticks : BitVec 32) (actual_pit_ticks : BitVec 64) (s : State) :
    BitVec 64 × State :=
  if actual_pit_ticks = 0 then
    let s := logged (.warning "PIT ticks didn't advance during calibration" []) s
    (0, write LAPIC_TIMER_LVT lvt_backup s)
  else
    let frequency := apic_ticks.setWidth 64 * 1000 / actual_pit_ticks
    let s := logged (.info "APIC Timer calibration: %d ticks in %lld ms = %lld Hz"
      [apic_ticks.toNat, actual_pit_ticks.toNat, frequency.toNat]) s
    (frequency, write LAPIC_TIMER_LVT lvt_backup s)

def calibrate_frequency (s : State) : Comp (BitVec 64 × State) := do
  let s := set_divider .DIV_BY_1 s
  let lvt_backup := read LAPIC_TIMER_LVT s
  let s := write LAPIC_TIMER_LVT ((1 : BitVec 32) <<< 16) lvt_backup.2
  let s := set_initial_count MAX_COUNT s
  let start_count := get_current_count s
  let start_pit_ticks := get_ticks start_count.2
  let target_pit_ticks := start_pit_ticks.1 + CALIBRATION_MS.setWidth 64
  let now ← wait_loop target_pit_ticks (get_ticks start_pit_ticks.2)
  let end_count := get_current_count now.2
  let last := get_ticks end_count.2
  pure (end_calibration lvt_backup.1 (start_count.1 - end_count.1) (last.1 - start_pit_ticks.1) last.2)

/-! ## `LAPIC::Timer::init` -/

def lvt_value (vector : BitVec 8) (mode : Mode) : BitVec 32 :=
  match mode with
  | .ONE_SHOT => vector.setWidth 32
  | .PERIODIC => vector.setWidth 32 ||| (1 : BitVec 32) <<< 17
  | .TSC_DEADLINE => vector.setWidth 32 ||| (2 : BitVec 32) <<< 17

def init (vector : BitVec 8) (mode : Mode) (divider : Divider) (s : State) : Comp State := do
  let s := set_divider divider (disable s)
  let s := write LAPIC_TIMER_LVT (lvt_value vector mode) s
  let r ← calibrate_frequency s
  let s := { r.2 with
    apic_timer_frequency := r.1
    apic_timer_ticks_per_ms := (r.1 / 1000).setWidth 32 }
  pure (logged (.success "APIC Timer initialized - Frequency: %lld Hz" [r.1.toNat]) (enable s))

/-! ## `LAPIC::Timer::set_frequency` -/

/-- `for (int i = 1; i <= 128; i *= 2)`, from `i` with `n` rounds left. The result is
`divider_value` and `count`, or a fault. The product is a `u32`. -/
def search_divider (apic_timer_frequency : BitVec 64) (target_hz : BitVec 32) :
    Nat → BitVec 32 → BitVec 64 → Option (BitVec 32 × BitVec 64)
  | 0, _, count => some (1, count)
  | n + 1, i, _ => do
    let count ← div apic_timer_frequency ((target_hz * i).setWidth 64)
    if count ≤ 0xFFFFFFFF then some (i, count)
    else search_divider apic_timer_frequency target_hz n (i * 2) count

def find_divider (apic_timer_frequency : BitVec 64) (target_hz : BitVec 32) : Option (BitVec 32 × BitVec 64) := do
  let count ← div apic_timer_frequency (target_hz.setWidth 64)
  if 0xFFFFFFFF < count then search_divider apic_timer_frequency target_hz 8 1 count else some (1, count)

/-- The `switch` over `divider_value`. -/
def divider_of (divider_value : BitVec 32) : Divider :=
  match divider_value.toNat with
  | 1 => .DIV_BY_1
  | 2 => .DIV_BY_2
  | 4 => .DIV_BY_4
  | 8 => .DIV_BY_8
  | 16 => .DIV_BY_16
  | 32 => .DIV_BY_32
  | 64 => .DIV_BY_64
  | 128 => .DIV_BY_128
  | _ => .DIV_BY_1

/-- What `set_frequency` does with `divider_value` and `count`. -/
def program_timer (target_hz divider_value : BitVec 32) (count : BitVec 64) (s : State) : State :=
  let s := logged (.info "APIC Timer config: freq=%lld Hz, target=%d Hz, div=%d, count=%lld"
    [s.apic_timer_frequency.toNat, target_hz.toNat, divider_value.toNat, count.toNat]) s
  let s := set_divider (divider_of divider_value) (disable s)
  let s := set_initial_count (count.setWidth 32) s
  let new_lvt := 0x21 ||| (1 : BitVec 32) <<< 17
  let s := enable (write LAPIC_TIMER_LVT new_lvt s)
  let s := logged (.info "APIC Timer LVT configured: 0x%x" [new_lvt.toNat]) s
  let lvt := read LAPIC_TIMER_LVT s
  let s := logged (.info "Timer enabled - LVT after enable: 0x%x" [lvt.1.toNat]) lvt.2
  logged (.info "Initial count set to: %d" [(count.setWidth 32).toNat]) s

def set_frequency (target_hz : BitVec 32) (s : State) : Option State :=
  if s.apic_timer_frequency = 0 then some (logged (.critical "APIC Timer not calibrated" []) s)
  else do
    let found ← find_divider s.apic_timer_frequency target_hz
    if 0xFFFFFFFF < found.2 then
      let s := logged (.warning "APIC Timer count too large even with max divider: %lld" [found.2.toNat]) s
      some (program_timer target_hz 128 0xFFFFFFFF s)
    else some (program_timer target_hz found.1 found.2 s)

end SlayerOS.Lapic
