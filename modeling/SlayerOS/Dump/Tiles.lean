import SlayerOS.Dump.Code
import Mathlib.Combinatorics.Enumerative.Composition

/-!
# A symbol and its instructions

The instructions of a symbol lie one behind the other, and Zydis decodes them at their starts.
Their lengths are a composition of the size of the symbol.
-/

open SlayerOS.Fuel SlayerOS.Fuel.Comp SlayerOS.Text SlayerOS.Resolver

namespace SlayerOS.Dump

variable {m : Machine} {entry : symbol_entry} {instructions : List ZydisDisassembledInstruction}

/-- The distance of the instruction `k` from the symbol. -/
def offset_of (instructions : List ZydisDisassembledInstruction) (k : Nat) : Nat :=
  ((instructions.map fun i => i.length.toNat).take k).sum

def address_of (entry : symbol_entry) (instructions : List ZydisDisassembledInstruction) (k : Nat) : BitVec 64 :=
  entry.address + BitVec.ofNat 64 (offset_of instructions k)

/-- The symbol lies in the address space and is made of the instructions. Zydis decodes each
of them at its start, from the bytes that are left of the symbol, and fails at the end. -/
structure Tiled (m : Machine) (entry : symbol_entry) (instructions : List ZydisDisassembledInstruction) : Prop where
  lengths : ∀ i ∈ instructions, 1 ≤ i.length.toNat ∧ i.length.toNat ≤ 15
  sum_eq : offset_of instructions instructions.length = entry.size
  fits : entry.address.toNat + entry.size ≤ 2 ^ 64
  size_lt : entry.size < 2 ^ 64
  decodes : ∀ k (hk : k < instructions.length),
    m.ZydisDisassembleIntel (address_of entry instructions k) (address_of entry instructions k)
      (BitVec.ofNat 64 (entry.size - offset_of instructions k)) = some instructions[k]
  fails : m.ZydisDisassembleIntel (address_of entry instructions instructions.length)
    (address_of entry instructions instructions.length) 0 = none

/-- The instruction `k` has the byte at `target`. -/
def Contains (entry : symbol_entry) (instructions : List ZydisDisassembledInstruction) (k : Nat)
    (target : BitVec 64) : Prop :=
  k < instructions.length ∧ entry.address.toNat + offset_of instructions k ≤ target.toNat ∧
    target.toNat < entry.address.toNat + offset_of instructions (k + 1)

instance (k : Nat) (target : BitVec 64) : Decidable (Contains entry instructions k target) :=
  inferInstanceAs (Decidable (_ ∧ _))

namespace Tiled

/-- The lengths of the instructions. -/
def layout (h : Tiled m entry instructions) : Composition entry.size where
  blocks := instructions.map fun i => i.length.toNat
  blocks_pos := by
    intro n hn
    obtain ⟨i, hi, rfl⟩ := List.mem_map.mp hn
    exact (h.lengths i hi).1
  blocks_sum := by
    rw [← h.sum_eq, offset_of, List.take_of_length_le (by simp)]

theorem layout_length (h : Tiled m entry instructions) : h.layout.length = instructions.length := by
  unfold layout Composition.length
  simp

theorem sizeUpTo_layout (h : Tiled m entry instructions) (k : Nat) : h.layout.sizeUpTo k = offset_of instructions k := rfl

theorem offset_succ (h : Tiled m entry instructions) {k : Nat} (hk : k < instructions.length) :
    offset_of instructions (k + 1) = offset_of instructions k + instructions[k].length.toNat := by
  rw [← h.sizeUpTo_layout, h.layout.sizeUpTo_succ (by rwa [h.layout_length]), sizeUpTo_layout]
  simp [layout]

theorem offset_le (h : Tiled m entry instructions) (k : Nat) : offset_of instructions k ≤ entry.size := h.layout.sizeUpTo_le k

theorem offset_mono (h : Tiled m entry instructions) {j k : Nat} (hjk : j ≤ k) :
    offset_of instructions j ≤ offset_of instructions k := h.layout.monotone_sizeUpTo hjk

theorem offset_lt (h : Tiled m entry instructions) {j k : Nat} (hjk : j < k) (hj : j < instructions.length) :
    offset_of instructions j < offset_of instructions k :=
  Nat.lt_of_lt_of_le (h.layout.sizeUpTo_strict_mono (by rwa [h.layout_length])) (h.offset_mono hjk)

theorem offset_lt_size (h : Tiled m entry instructions) {k : Nat} (hk : k < instructions.length) :
    offset_of instructions k < entry.size := by
  have := h.offset_lt hk hk
  rwa [h.sum_eq] at this

theorem offset_le_mul (h : Tiled m entry instructions) (k : Nat) : offset_of instructions k ≤ 15 * k := by
  have hle : offset_of instructions k ≤ ((instructions.map fun i => i.length.toNat).take k).length • 15 := by
    apply List.sum_le_card_nsmul
    intro n hn
    obtain ⟨i, hi, rfl⟩ := List.mem_map.mp (List.mem_of_mem_take hn)
    exact (h.lengths i hi).2
  rw [List.length_take, smul_eq_mul] at hle
  have : min k (instructions.map fun i => i.length.toNat).length ≤ k := Nat.min_le_left _ _
  omega

theorem toNat_address (h : Tiled m entry instructions) {k : Nat} (hk : k < instructions.length) :
    (address_of entry instructions k).toNat = entry.address.toNat + offset_of instructions k := by
  have := h.offset_lt_size hk
  have := h.fits
  unfold address_of
  rw [BitVec.toNat_add, BitVec.toNat_ofNat]
  omega

theorem address_succ (h : Tiled m entry instructions) {k : Nat} (hk : k < instructions.length) :
    address_of entry instructions k + instructions[k].length.setWidth 64 = address_of entry instructions (k + 1) := by
  unfold address_of
  rw [h.offset_succ hk, BitVec.ofNat_add, BitVec.add_assoc]
  congr 2
  simp

theorem exists_contains (h : Tiled m entry instructions) {target : BitVec 64}
    (hlow : entry.address.toNat ≤ target.toNat) (hhigh : target.toNat < entry.address.toNat + entry.size) :
    ∃ k, Contains entry instructions k target := by
  have hlt : target.toNat - entry.address.toNat < entry.size := by omega
  obtain ⟨k, hk, hle, hgt⟩ : ∃ k < h.layout.length, h.layout.sizeUpTo k ≤ target.toNat - entry.address.toNat ∧
      target.toNat - entry.address.toNat < h.layout.sizeUpTo (k + 1) :=
    ⟨h.layout.index ⟨_, hlt⟩, (h.layout.index ⟨_, hlt⟩).isLt, h.layout.sizeUpTo_index_le ⟨_, hlt⟩,
      h.layout.lt_sizeUpTo_index_succ ⟨_, hlt⟩⟩
  rw [h.layout_length] at hk
  rw [sizeUpTo_layout] at hle hgt
  exact ⟨k, hk, by omega, by omega⟩

end Tiled

theorem Contains.unique (h : Tiled m entry instructions) {j k : Nat} {target : BitVec 64}
    (hj : Contains entry instructions j target) (hk : Contains entry instructions k target) : j = k := by
  obtain ⟨hjn, hj1, hj2⟩ := hj
  obtain ⟨hkn, hk1, hk2⟩ := hk
  rcases Nat.lt_trichotomy j k with hlt | heq | hlt
  · have := h.offset_mono (show j + 1 ≤ k from hlt)
    omega
  · exact heq
  · have := h.offset_mono (show k + 1 ≤ j from hlt)
    omega

end SlayerOS.Dump
