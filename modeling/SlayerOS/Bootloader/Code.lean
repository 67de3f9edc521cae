import SlayerOS.Mapper.Code

/-!
# The memory map of the boot loader (`limine.cc`)

`BootloaderCtx::gather` sorts the array of entries in place. The frame allocator takes the
first two.
-/

open SlayerOS.Mapper

namespace SlayerOS.Bootloader

/-- The body of the inner loop: `memmap_entries[i]` and `memmap_entries[j]` change places. -/
def compare_exchange (i : Nat) (memmap_entries : List MemmapEntry) (j : Nat) : List MemmapEntry :=
  match memmap_entries[i]?, memmap_entries[j]? with
  | some a, some b =>
    if a.type ≠ .USABLE ∧ a.length < b.length then (memmap_entries.set i b).set j a else memmap_entries
  | _, _ => memmap_entries

/-- The inner loop, from `i + 1` on. -/
def sort_from (memmap_entries : List MemmapEntry) (i : Nat) : List MemmapEntry :=
  (List.range' (i + 1) (memmap_entries.length - (i + 1))).foldl (compare_exchange i) memmap_entries

def sort_memmap (memmap_entries : List MemmapEntry) : List MemmapEntry :=
  (List.range memmap_entries.length).foldl sort_from memmap_entries

end SlayerOS.Bootloader
