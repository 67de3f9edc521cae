import SlayerOS.Lib.Bytes

/-!
# The frame allocator and its first user (`frames.cc`, `tss.cc`)

`u32`, `u64` and `usize` values are `Nat`, with the wrap written out where the code
computes in the type. A pointer is an address, and a null result is `none`.
-/

open SlayerOS.Bytes

namespace SlayerOS.Frames

def FRAME_SIZE : Nat := 0x1000

/-- `a - b` in `u64`. -/
def sub64 (a b : Nat) : Nat := (a + 2 ^ 64 - b % 2 ^ 64) % 2 ^ 64

/-- The globals of `frames.cc`. The bitmap is kept apart from the memory that `memset`
writes: it lives in a memory map entry of its own. -/
structure State where
  frames : Nat → Bool
  latest_frame : Nat
  available_frames : Nat
  base_addr : Nat
  mem : Mem

/-! ## `Mem::Frame::alloc` -/

/-- The `while` loop: `n` is `available_frames - latest_frame`. -/
def skip_used (frames : Nat → Bool) : Nat → Nat → Nat
  | 0, latest_frame => latest_frame
  | n + 1, latest_frame =>
    if frames latest_frame then skip_used frames n (latest_frame + 1) else latest_frame

def alloc (s : State) : Option Nat × State :=
  let latest_frame := skip_used s.frames (s.available_frames - s.latest_frame) s.latest_frame
  if latest_frame = s.available_frames then
    (none, { s with latest_frame })
  else
    -- `latest_frame * FRAME_SIZE` is a `u32` product.
    let frame := s.base_addr + latest_frame * FRAME_SIZE % 2 ^ 32
    (some frame,
      { s with
        frames := Function.update s.frames latest_frame true
        latest_frame := (latest_frame + 1) % 2 ^ 32
        mem := fill s.mem frame FRAME_SIZE 0 })

/-! ## `Mem::Frame::allocs` -/

/-- The first `for` loop, from `i` on with `n` frames left. The result is `start_frame`
and `frame_count`. -/
def find_run (frames : Nat → Bool) (count : Nat) : Nat → Nat → Nat → Nat → Nat × Nat
  | 0, _, start_frame, frame_count => (start_frame, frame_count)
  | n + 1, i, start_frame, frame_count =>
    -- A used frame restarts the run at itself, with a count of one.
    let start_frame := if frames i then i else start_frame
    let frame_count := if frames i then 1 else frame_count + 1
    if frame_count = count then (start_frame, frame_count)
    else find_run frames count n (i + 1) start_frame frame_count

def set_run (frames : Nat → Bool) (start count : Nat) : Nat → Bool :=
  fun i => if start ≤ i ∧ i < start + count then true else frames i

def allocs (s : State) (count : Nat) : Option Nat × State :=
  let r := find_run s.frames count (s.available_frames - s.latest_frame) s.latest_frame
    s.latest_frame 0
  if r.2 < count then
    (none, s)
  else
    let frame := s.base_addr + r.1 * FRAME_SIZE % 2 ^ 32
    (some frame,
      { s with
        frames := set_run s.frames r.1 count
        latest_frame := (s.latest_frame + 1) % 2 ^ 32
        mem := fill s.mem frame (count * FRAME_SIZE % 2 ^ 64) 0 })

/-! ## `Mem::Frame::free` -/

def free (s : State) (frame : Nat) : State :=
  -- The cast to `u32` comes before the division.
  let frame_num := sub64 frame s.base_addr % 2 ^ 32 / FRAME_SIZE
  { s with frames := Function.update s.frames frame_num false, latest_frame := frame_num }

/-! ## `TSS::init_stacks` -/

def IST_STACK_SIZE : Nat := 16384

/-- A line that the logger prints. -/
inductive Log where
  | critical (text : String)
  | success (text : String)
deriving DecidableEq, Repr

/-- What `init_stacks` fills in: `ist_stacks[i]` and `tss.ist<i>` for each stack it got,
in order, and what it logged. -/
structure Stacks where
  ist_stacks : List Nat
  ist : List Nat
  log : Log
deriving DecidableEq, Repr

/-- The `for` loop from `i`, with `n` rounds left. -/
def init_stacks_from : Nat → Nat → State → Stacks × State
  | 0, _, s => (⟨[], [], .success "TSS IST stacks allocated and configured"⟩, s)
  | n + 1, i, s =>
    let frames_per_stack := IST_STACK_SIZE / FRAME_SIZE
    match allocs s frames_per_stack with
    | (none, s) => (⟨[], [], .critical s!"Failed to allocate IST stack {i}"⟩, s)
    | (some stack, s) =>
      let r := init_stacks_from n (i + 1) s
      (⟨stack :: r.1.ist_stacks, (stack + IST_STACK_SIZE) :: r.1.ist, r.1.log⟩, r.2)

def init_stacks (s : State) : Stacks × State := init_stacks_from 7 1 s

end SlayerOS.Frames
