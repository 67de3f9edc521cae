import SlayerOS.Frames.Code
import SlayerOS.Lib.Run

/-!
# What the frame allocator is for

Its clients own frames. A frame is owned from the call that hands it out to the call
that frees it. Frames are numbered here, from 0 up to `available_frames`.
-/

open SlayerOS.Bytes

namespace SlayerOS.Frames

inductive Call where
  | alloc
  | allocs (count : Nat)
  | free (k : Nat)
deriving DecidableEq, Repr

/-- The allocator and the frames that its clients own. A frame that was handed out
twice is in the list twice. -/
structure World where
  s : State
  owned : List Nat

/-- The address of frame `k`. -/
def frameAddr (s : State) (k : Nat) : Nat := s.base_addr + k * FRAME_SIZE

/-- The address that the code computes for frame `k`: the product is a `u32`. -/
def handed (s : State) (k : Nat) : Nat := s.base_addr + k * FRAME_SIZE % 2 ^ 32

def frameOf (s : State) (p : Nat) : Nat := (p - s.base_addr) / FRAME_SIZE

/-- The frames that a call asks for. -/
def Call.size : Call → Nat
  | .alloc => 1
  | .allocs n => n
  | .free _ => 0

def result (s : State) : Call → Option Nat
  | .alloc => (alloc s).1
  | .allocs n => (allocs s n).1
  | .free _ => none

def after (s : State) : Call → State
  | .alloc => (alloc s).2
  | .allocs n => (allocs s n).2
  | .free k => free s (frameAddr s k)

/-- The frames that a call hands out. -/
def granted (s : State) (c : Call) : List Nat :=
  match result s c with
  | none => []
  | some p => List.range' (frameOf s p) c.size

def next (w : World) (c : Call) : World :=
  { s := after w.s c
    owned := match c with
      | .free k => w.owned.erase k
      | c => granted w.s c ++ w.owned }

def step (w : World) (c : Call) : Option World := some (next w c)

/-- An allocator over `n` frames at `base`, with all flags clear. -/
def cleared (n base : Nat) (mem : Mem) : State :=
  { frames := fun _ => false, latest_frame := 0, available_frames := n, base_addr := base, mem }

/-- Clients ask for at least one frame and free only what they own. -/
def Legal (w : World) : Call → Prop
  | .alloc => True
  | .allocs n => 1 ≤ n
  | .free k => k ∈ w.owned

instance (w : World) : (c : Call) → Decidable (Legal w c)
  | .alloc => inferInstanceAs (Decidable True)
  | .allocs n => inferInstanceAs (Decidable (1 ≤ n))
  | .free k => inferInstanceAs (Decidable (k ∈ w.owned))

/-- The call hands out frames of the area that nobody owns, and leaves every byte of an
owned frame as it is. -/
def Fresh (w : World) (c : Call) : Prop :=
  (∀ p, result w.s c = some p → ∃ k, p = frameAddr w.s k ∧ k + c.size ≤ w.s.available_frames ∧
    ∀ i, i < c.size → k + i ∉ w.owned) ∧
  ∀ k ∈ w.owned, ∀ x, frameAddr w.s k ≤ x → x < frameAddr w.s k + FRAME_SIZE →
    (after w.s c).mem x = w.s.mem x

/-! ## Where the scan of `allocs` stops -/

/-- `n` frames from `p` on that the scan takes for a free run. The run starts at the
cursor or at a used frame, and only the frames behind the first one are free. -/
def Hit (s : State) (n p : Nat) : Prop :=
  s.latest_frame ≤ p ∧ p + n ≤ s.available_frames ∧
  (p = s.latest_frame ∨ s.frames p = true) ∧ ∀ q, p < q → q < p + n → s.frames q = false

/-- The `n` frames at the cursor are there, and free. -/
def ClearAhead (s : State) (n : Nat) : Prop :=
  s.latest_frame + n ≤ s.available_frames ∧
  ∀ q, s.latest_frame ≤ q → q < s.latest_frame + n → s.frames q = false

/-- No used frame from the cursor on has `n - 1` free ones right behind it. -/
def NoUsedStart (s : State) (n : Nat) : Prop :=
  ∀ p, s.latest_frame ≤ p → p + n ≤ s.available_frames → s.frames p = true →
    ∃ q, p < q ∧ q < p + n ∧ s.frames q = true

/-- The condition under which a call cannot hand out a used frame. -/
def Guarded (w : World) : Call → Prop
  | .allocs n => ClearAhead w.s n ∨ NoUsedStart w.s n
  | _ => True

/-- The interrupt stacks share no byte. -/
def StacksApart (bases : List Nat) : Prop :=
  bases.Pairwise fun a b => Apart a IST_STACK_SIZE b IST_STACK_SIZE

/-- Flags and owners agree, and no frame has two owners. -/
structure Inv (w : World) : Prop where
  small : w.s.available_frames ≤ 2 ^ 20
  cursor : w.s.latest_frame ≤ w.s.available_frames
  flags : ∀ k, k < w.s.available_frames → (w.s.frames k = true ↔ k ∈ w.owned)
  inside : ∀ k ∈ w.owned, k < w.s.available_frames
  nodup : w.owned.Nodup

end SlayerOS.Frames
