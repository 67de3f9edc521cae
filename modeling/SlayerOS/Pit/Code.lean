import SlayerOS.Lib.Fuel
import Mathlib.Logic.Function.Iterate
import Mathlib.Algebra.Order.Group.Nat

/-!
# The programmable interval timer (`pit.cc`)

The timer interrupt counts ticks. How many interrupts arrive before each reading of the
count is an input here, so that a loop around `hlt` sees any sequence of counts.
-/

open SlayerOS.Fuel SlayerOS.Fuel.Comp

namespace SlayerOS.Pit

def PIT_FREQUENCY : BitVec 32 := 1193182

def PIT_COMMAND_PORT : BitVec 16 := 0x43

def PIT_DATA_PORT_0 : BitVec 16 := 0x40

/-- A line that the logger prints: the format and its arguments. -/
inductive Line where
  | success (format : String) (args : List Nat)
  | info (format : String) (args : List Nat)
  | warning (format : String) (args : List Nat)
  | critical (format : String) (args : List Nat)
deriving DecidableEq, Repr

structure State where
  ticks_since_boot : BitVec 64
  timer_frequency : BitVec 32
  /-- The bytes that went out to the ports, the last one first. -/
  ports : List (BitVec 16 × BitVec 8)
  /-- The lines of this file, the last one first. -/
  log : List Line
  /-- The timer interrupts before each reading of the count, and the readings so far. -/
  interrupts : Nat → Nat
  readings : Nat

def outb (port : BitVec 16) (value : BitVec 8) (s : State) : State := { s with ports := (port, value) :: s.ports }

/-- `a / b`, which faults for zero. -/
def div {w : Nat} (a b : BitVec w) : Option (BitVec w) := if b = 0 then none else some (a / b)

/-! ## `PIT::init` -/

def set_frequency (frequency : BitVec 32) (s : State) : Option State := do
  let divisor ← div PIT_FREQUENCY frequency
  let s := outb PIT_COMMAND_PORT 0x36 s
  let s := outb PIT_DATA_PORT_0 ((divisor &&& 0xFF).setWidth 8) s
  some (outb PIT_DATA_PORT_0 (((divisor >>> 8) &&& 0xFF).setWidth 8) s)

def init (frequency : BitVec 32) (s : State) : Option State := do
  let s ← set_frequency frequency { s with timer_frequency := frequency }
  some { s with log := .success "PIT timer initialized at %d Hz" [frequency.toNat] :: s.log }

/-! ## Ticks -/

/-- `PIT::tick`, which the timer interrupt calls. -/
def tick (s : State) : State := { s with ticks_since_boot := s.ticks_since_boot + 1 }

/-- The time up to the next reading. -/
def arrive (s : State) : State := { tick^[s.interrupts s.readings] s with readings := s.readings + 1 }

def get_ticks (s : State) : BitVec 64 × State := ((arrive s).ticks_since_boot, arrive s)

/-! ## `PIT::sleep_ms` and `PIT::sleep_us` -/

/-- `while (ticks_since_boot < target_ticks)`, with a `hlt` in each round. -/
def wait_loop (target_ticks : BitVec 64) (s : State) : Comp State :=
  while_ (fun s => pure (decide (s.ticks_since_boot < target_ticks))) (fun s => pure (arrive s)) s

/-- Both functions, where a second has `unit` of what they are given. The product is a `u32`. -/
def sleep (unit duration : BitVec 32) (s : State) : Comp State :=
  if s.timer_frequency = 0 then pure s
  else
    let target_ticks := s.ticks_since_boot + (duration * s.timer_frequency / unit).setWidth 64
    wait_loop target_ticks (arrive s)

def sleep_ms (milliseconds : BitVec 32) (s : State) : Comp State := sleep 1000 milliseconds s

def sleep_us (microseconds : BitVec 32) (s : State) : Comp State := sleep 1000000 microseconds s

end SlayerOS.Pit
