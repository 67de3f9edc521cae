import SlayerOS.Paging.Code
import SlayerOS.Lib.Radix
import SlayerOS.Lib.Run

/-!
# What the page tables are for

They hold a map from pages, which are 36-bit numbers, to leaf entries. In memory they
are a tree of frames, and frame `k` is the 4096 bytes from `4096 * k` on.
-/

open SlayerOS.Bytes SlayerOS.Frames SlayerOS.Radix

namespace SlayerOS.Paging

def pageOf (virt : Nat) : Nat := virt / FRAME_SIZE % 2 ^ 36

inductive Op where
  | map (phys virt flags : Nat)
  | unmap (virt : Nat)
deriving DecidableEq, Repr

def Op.page : Op → Nat
  | .map _ virt _ => pageOf virt
  | .unmap virt => pageOf virt

/-- The abstract map: the leaf entry of each page, or 0. -/
def Op.apply (entries : Nat → Nat) : Op → Nat → Nat
  | .map phys virt flags => Function.update entries (pageOf virt) (phys ||| flags)
  | .unmap virt => Function.update entries (pageOf virt) 0

/-- The code, and a last moment for the processor after the call. -/
def next (w : State) : Op → State
  | .map phys virt flags => tick (map w phys virt flags)
  | .unmap virt => tick (unmap w virt)

def step (w : State) (op : Op) : Option State := some (next w op)

/-- The entry of a page in the tables, or 0. -/
def pageEntry (w : State) (page : Nat) : Nat := (walk w.hhdm_addr w.mem w.pml4 page).getD 0

/-! ## The tables as a tree of frames -/

/-- The entries of frame `k`. -/
def cells (m : Mem) (k : Nat) (i : Fin 512) : Nat := read 8 m (FRAME_SIZE * k + 8 * i)

/-- The frame that an entry refers to. -/
def child (hhdm_addr e : Nat) : Option Nat :=
  if present e then some (PHYS2VIRT hhdm_addr (e &&& PTE_MASK) / FRAME_SIZE) else none

/-- The frame is a table: three steps from the `pml4` lead to it, or fewer. -/
def InUse (w : State) (m : Mem) (k : Nat) : Prop :=
  Reach (child w.hhdm_addr) (cells m) (w.pml4 / FRAME_SIZE) 3 k

/-- A result of `Mem::Frame::alloc` that is a fresh frame of the direct map. -/
structure FreshFrame (w : State) (c : Mem × Nat) : Prop where
  pos : c.2 ≠ 0
  aligned : c.2 % FRAME_SIZE = 0
  direct : w.hhdm_addr ≤ c.2 ∧ c.2 < 2 ^ 64 ∧ c.2 - w.hhdm_addr < 2 ^ 48
  unused : ¬ InUse w c.1 (c.2 / FRAME_SIZE)

/-- The arguments are `u64` values. -/
def Op.Ok : Op → Prop
  | .map phys _ flags => phys < 2 ^ 64 ∧ flags < 2 ^ 64
  | .unmap _ => True

/-- The arguments are fine, and every frame that was handed out so far was fresh. -/
def Legal (w : State) (op : Op) : Prop := op.Ok ∧ ∀ c ∈ (next w op).calls, FreshFrame w c

/-- A direct map and a `pml4` on frame boundaries, and the `pml4` cleared. -/
structure Start (w : State) : Prop where
  hhdm : w.hhdm_addr % FRAME_SIZE = 0
  pml4 : w.pml4 % FRAME_SIZE = 0
  clear : ∀ x, w.pml4 ≤ x → x < w.pml4 + FRAME_SIZE → w.mem x = 0

/-- The first `n` results of `Mem::Frame::alloc` are frames of the direct map, no two of
them the same, and none of them the `pml4`. -/
structure Supply (w : State) (n : Nat) : Prop where
  good : ∀ i, i < n → w.frames i ≠ 0 ∧ w.frames i % FRAME_SIZE = 0 ∧ w.hhdm_addr ≤ w.frames i ∧
    w.frames i < 2 ^ 64 ∧ w.frames i - w.hhdm_addr < 2 ^ 48
  root : ∀ i, i < n → w.frames i ≠ w.pml4
  inj : ∀ i j, i < n → j < n → w.frames i = w.frames j → i = j

/-- The pages that an operation does not name keep their entries. -/
def Frame (w : State) (op : Op) : Prop :=
  ∀ w', step w op = some w' → ∀ page, page < 2 ^ 36 → page ≠ op.page → pageEntry w' page = pageEntry w page

/-! ## The TLB -/

/-- Null, or a frame on its boundary that is not a table. -/
def NullOrUnused (w : State) (c : Mem × Nat) : Prop :=
  c.2 = 0 ∨ c.2 % FRAME_SIZE = 0 ∧ ¬ InUse w c.1 (c.2 / FRAME_SIZE)

def Unaliased (w : State) (op : Op) : Prop := ∀ c ∈ (next w op).calls, NullOrUnused w c

/-- Every cached pair is what the tables say now. -/
def Coherent (w : State) : Prop := ∀ page e, (page, e) ∈ w.tlb → translate w page = some e

end SlayerOS.Paging
