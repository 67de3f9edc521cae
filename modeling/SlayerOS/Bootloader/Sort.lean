import SlayerOS.Bootloader.Code
import SlayerOS.Lib.Exchange

/-!
# What the sort puts in front

The comparison looks at the type of one of the two entries only. A pass ends as soon as it
holds usable memory, however short, and it goes past usable memory that is no longer than
what it holds.
-/

open SlayerOS.Mapper SlayerOS.Exchange

namespace SlayerOS.Bootloader

def usable (e : MemmapEntry) : Bool := decide (e.type = .USABLE)

/-- What `Mem::Frame::init` relies on: no entry is lost, and the two longest pieces of usable
memory are in front. -/
def FrontUsable (memmap_entries sorted : List MemmapEntry) : Prop :=
  sorted.Perm memmap_entries ∧ TopTwo usable MemmapEntry.length memmap_entries sorted

/-! ## The loops -/

theorem compare_exchange_eq : compare_exchange = exchange usable MemmapEntry.length := by
  funext i memmap_entries j
  unfold compare_exchange exchange usable
  cases memmap_entries[i]? with
  | none => rfl
  | some a =>
    cases memmap_entries[j]? with
    | none => rfl
    | some b => simp

theorem sort_from_eq : sort_from = passAt usable MemmapEntry.length := by
  funext memmap_entries i
  unfold sort_from passAt
  rw [compare_exchange_eq]

/-- The loops over the array are the exchange sort of its entries. -/
theorem sort_memmap_eq (memmap_entries : List MemmapEntry) :
    sort_memmap memmap_entries = sort usable MemmapEntry.length memmap_entries := by
  rw [sort_memmap, List.range_eq_range', sort_from_eq, passAt_sort]

/-! ## The entries in front -/

/-- The sort does what the allocator relies on exactly when the first usable entry that is
longer than all in front of it is a longest usable one, and the first of the others that has
at most one entry as long in front of it is a longest one of the others. -/
theorem sort_memmap_frontUsable_iff (memmap_entries : List MemmapEntry) :
    FrontUsable memmap_entries (sort_memmap memmap_entries) ↔
      ∃ a q b r,
        first usable MemmapEntry.length 0 none memmap_entries = some (a, q) ∧
        (∀ e ∈ memmap_entries, usable e = true → e.length ≤ a.length) ∧
        first usable MemmapEntry.length 1 (some q) memmap_entries = some (b, r) ∧
        ∀ k e, k ≠ q → memmap_entries[k]? = some e → usable e = true → e.length ≤ b.length := by
  unfold FrontUsable
  rw [sort_memmap_eq, and_iff_right (sort_perm memmap_entries)]
  exact sort_topTwo_iff memmap_entries

/-- Two pieces of usable memory, the shorter one first: the sort leaves them so. -/
theorem shorter_stays_in_front :
    ([⟨0x1000, 0x9f000, .USABLE⟩, ⟨0x100000, 0x7fe0000, .USABLE⟩] : List MemmapEntry).countP usable = 2 ∧
    sort_memmap [⟨0x1000, 0x9f000, .USABLE⟩, ⟨0x100000, 0x7fe0000, .USABLE⟩] =
      [⟨0x1000, 0x9f000, .USABLE⟩, ⟨0x100000, 0x7fe0000, .USABLE⟩] ∧
    ¬ FrontUsable [⟨0x1000, 0x9f000, .USABLE⟩, ⟨0x100000, 0x7fe0000, .USABLE⟩]
      (sort_memmap [⟨0x1000, 0x9f000, .USABLE⟩, ⟨0x100000, 0x7fe0000, .USABLE⟩]) := by
  have hsort : sort_memmap [⟨0x1000, 0x9f000, .USABLE⟩, ⟨0x100000, 0x7fe0000, .USABLE⟩] =
      [⟨0x1000, 0x9f000, .USABLE⟩, ⟨0x100000, 0x7fe0000, .USABLE⟩] := by decide
  refine ⟨by decide, hsort, ?_⟩
  rw [hsort]
  rintro ⟨-, a, b, rest, heq, -, hlongest, -⟩
  obtain ⟨rfl, -⟩ := List.cons.inj heq
  exact absurd (hlongest ⟨0x100000, 0x7fe0000, .USABLE⟩ (by simp) rfl) (by decide)

end SlayerOS.Bootloader
