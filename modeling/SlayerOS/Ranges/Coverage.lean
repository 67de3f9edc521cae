import SlayerOS.Ranges.Proofs
import Mathlib.Data.List.Dedup

/-!
# What `map_range` covers

The loop goes on from the first byte in steps of a page. A range that starts inside a page
ends in a page that the loop does not reach.
-/

open SlayerOS.Frames (FRAME_SIZE)
open SlayerOS.Paging SlayerOS.Mapper SlayerOS.Run

namespace SlayerOS.Ranges

/-- The calls of `Mem::Paging::map` that `map_range` makes. -/
def mapCalls (phys virt size flags : Nat) : List Op :=
  pageCalls phys virt flags ((size + (FRAME_SIZE - 1)) / FRAME_SIZE)

/-- The pages of the calls, each of them once. -/
def mappedPages (phys virt size flags : Nat) : List Nat := ((mapCalls phys virt size flags).map Op.page).dedup

/-- The page is translated to the frame at `phys`, with some flags. -/
def LeadsTo (w : State) (page phys : Nat) : Prop := ∃ flags, translation w page = some (phys, flags)

/-- Every byte of the range is in its place behind `map_range`, and the result is the
number of the pages that it has mapped. -/
structure Covers (w : State) (phys virt size flags : Nat) : Prop where
  bytes : ∀ k, k < size →
    LeadsTo (map_range w phys virt size flags).2 (pageOf (virt + k)) (pageDown (phys + k))
  count : (map_range w phys virt size flags).1 = (mappedPages phys virt size flags).length

/-- The flags have no bit of an address that is not in the addresses of the rounds. -/
def FlagsApart (phys size flags : Nat) : Prop :=
  ∀ i, i * FRAME_SIZE < size →
    ((phys + i * FRAME_SIZE) ||| flags) &&& ADDR_MASK = (phys + i * FRAME_SIZE) &&& ADDR_MASK

/-- Whole pages that entries can refer to. They start at a page boundary, or the page of the
last byte is in its place already. -/
def Coverable (w : State) (phys virt size flags : Nat) : Prop :=
  size % FRAME_SIZE = 0 ∧
    (size = 0 ∨ present (phys ||| flags) = true ∧ phys + size ≤ 2 ^ 52 ∧ FlagsApart phys size flags ∧
      (phys % FRAME_SIZE = 0 ∨ LeadsTo w (pageOf (virt + (size - 1))) (pageDown (phys + (size - 1)))))

theorem map_range_eq (w : State) (phys virt size flags : Nat) :
    (map_range w phys virt size flags).2 = (mapCalls phys virt size flags).foldl next w :=
  (foldl_pageCalls w phys virt flags _).symm

/-! ## The calls -/

theorem mem_mapCalls (phys virt size flags : Nat) (hphys : phys + size ≤ 2 ^ 64) (hvirt : virt + size ≤ 2 ^ 64)
    (op : Op) : op ∈ mapCalls phys virt size flags ↔
      ∃ i, i * FRAME_SIZE < size ∧ op = .map (phys + i * FRAME_SIZE) (virt + i * FRAME_SIZE) flags := by
  have hbound : ∀ i, i < (size + (FRAME_SIZE - 1)) / FRAME_SIZE ↔ i * FRAME_SIZE < size := by
    intro i
    unfold FRAME_SIZE
    omega
  unfold mapCalls pageCalls
  rw [List.mem_map]
  refine exists_congr fun i => ?_
  rw [List.mem_range, hbound]
  refine and_congr_right fun hi => ?_
  rw [Nat.mod_eq_of_lt (by omega), Nat.mod_eq_of_lt (by omega)]
  exact eq_comm

theorem pageOf_offset (virt k : Nat) :
    pageOf (virt + k) = (virt / FRAME_SIZE + (virt % FRAME_SIZE + k) / FRAME_SIZE) % 2 ^ 36 := by
  unfold pageOf FRAME_SIZE
  omega

theorem pageOf_round (virt i : Nat) : pageOf (virt + i * FRAME_SIZE) = (virt / FRAME_SIZE + i) % 2 ^ 36 := by
  unfold pageOf FRAME_SIZE
  omega

theorem mappedPages_length (phys virt size flags : Nat) (hsize : size + FRAME_SIZE < 2 ^ 32) :
    (mappedPages phys virt size flags).length = (size + (FRAME_SIZE - 1)) / FRAME_SIZE := by
  have hnodup : ((mapCalls phys virt size flags).map Op.page).Nodup := by
    unfold mapCalls pageCalls
    rw [List.map_map]
    refine (List.nodup_map_iff_inj_on List.nodup_range).mpr fun i hi j hj h => ?_
    rw [List.mem_range] at hi hj
    simp only [Function.comp, Op.page, pageOf] at h
    unfold FRAME_SIZE at *
    omega
  rw [mappedPages, List.dedup_eq_self.mpr hnodup, List.length_map, mapCalls, pageCalls, List.length_map,
    List.length_range]

/-! ## Translations -/

theorem leadsTo_iff (w : State) (page phys : Nat) :
    LeadsTo w page phys ↔ present (pageEntry w page) = true ∧ pageEntry w page &&& ADDR_MASK = phys := by
  unfold LeadsTo translation
  simp only
  split
  case isTrue h => simp [h]
  case isFalse h => simp [h]

theorem LeadsTo.lt {w : State} {page phys : Nat} (h : LeadsTo w page (pageDown phys)) : phys < 2 ^ 52 := by
  have haddr := ((leadsTo_iff w page _).mp h).2
  rw [land_addr, pageDown, FRAME_SIZE] at haddr
  omega

theorem leadsTo_round (w : State) (page phys k i flags : Nat) (hi : i = (phys % FRAME_SIZE + k) / FRAME_SIZE)
    (h : pageEntry w page = (phys + i * FRAME_SIZE) ||| flags) :
    LeadsTo w page (pageDown (phys + k)) ↔ present (phys ||| flags) = true ∧ phys + k < 2 ^ 52 ∧
      ((phys + i * FRAME_SIZE) ||| flags) &&& ADDR_MASK = (phys + i * FRAME_SIZE) &&& ADDR_MASK := by
  have hbit : (phys + i * FRAME_SIZE) % 2 = phys % 2 := by
    unfold FRAME_SIZE
    omega
  have hpresent : present ((phys + i * FRAME_SIZE) ||| flags) = true ↔ present (phys ||| flags) = true := by
    rw [present_iff, present_iff, Nat.or_mod_two_eq_one, Nat.or_mod_two_eq_one, hbit]
  have hpage : phys + k < 2 ^ 52 → (phys + i * FRAME_SIZE) &&& ADDR_MASK = pageDown (phys + k) := by
    intro hlt
    rw [land_addr]
    unfold pageDown FRAME_SIZE at *
    omega
  constructor
  · intro hleads
    have hlt := hleads.lt
    obtain ⟨hp, haddr⟩ := (leadsTo_iff w page _).mp hleads
    rw [h] at hp haddr
    exact ⟨hpresent.mp hp, hlt, haddr.trans (hpage hlt).symm⟩
  · rintro ⟨hp, hlt, haddr⟩
    rw [leadsTo_iff, h]
    exact ⟨hpresent.mpr hp, haddr.trans (hpage hlt)⟩

section

variable {w : State} {phys virt size flags : Nat} (hw : Tables w)
  (hphys : phys + size ≤ 2 ^ 64) (hvirt : virt + size ≤ 2 ^ 64)
  (hlegal : Along step Legal w (mapCalls phys virt size flags))

include hw hphys hvirt hlegal

theorem map_range_reached (i : Nat) (hsize : size + FRAME_SIZE < 2 ^ 32) (hi : i * FRAME_SIZE < size) :
    pageEntry (map_range w phys virt size flags).2 ((virt / FRAME_SIZE + i) % 2 ^ 36) =
      (phys + i * FRAME_SIZE) ||| flags := by
  have hentries := (foldl_next_agrees w (pageEntry w) _ ⟨hw, fun _ _ => rfl⟩ hlegal).2
  rw [map_range_eq, hentries _ (Nat.mod_lt _ (by decide))]
  apply foldl_apply_agree
  · exact ⟨_, (mem_mapCalls phys virt size flags hphys hvirt _).mpr ⟨i, hi, rfl⟩, pageOf_round virt i⟩
  · intro op hop hpage
    obtain ⟨j, hj, rfl⟩ := (mem_mapCalls phys virt size flags hphys hvirt op).mp hop
    rw [Op.page, pageOf_round] at hpage
    have hij : j = i := by
      unfold FRAME_SIZE at *
      omega
    rw [hij, value]

theorem map_range_other (i : Nat) (hsmall : i < 2 ^ 36) (hi : size ≤ i * FRAME_SIZE) :
    pageEntry (map_range w phys virt size flags).2 ((virt / FRAME_SIZE + i) % 2 ^ 36) =
      pageEntry w ((virt / FRAME_SIZE + i) % 2 ^ 36) := by
  have hentries := (foldl_next_agrees w (pageEntry w) _ ⟨hw, fun _ _ => rfl⟩ hlegal).2
  rw [map_range_eq, hentries _ (Nat.mod_lt _ (by decide))]
  apply foldl_apply_other
  intro op hop hpage
  obtain ⟨j, hj, rfl⟩ := (mem_mapCalls phys virt size flags hphys hvirt op).mp hop
  rw [Op.page, pageOf_round] at hpage
  unfold FRAME_SIZE at *
  omega

theorem byte_reached (k : Nat) (hsize : size + FRAME_SIZE < 2 ^ 32) (hoffset : phys % FRAME_SIZE = virt % FRAME_SIZE)
    (i : Nat) (hi : i = (phys % FRAME_SIZE + k) / FRAME_SIZE) (hround : i * FRAME_SIZE < size) :
    LeadsTo (map_range w phys virt size flags).2 (pageOf (virt + k)) (pageDown (phys + k)) ↔
      present (phys ||| flags) = true ∧ phys + k < 2 ^ 52 ∧
        ((phys + i * FRAME_SIZE) ||| flags) &&& ADDR_MASK = (phys + i * FRAME_SIZE) &&& ADDR_MASK := by
  rw [pageOf_offset, ← hoffset, ← hi]
  exact leadsTo_round _ _ phys k i flags hi (map_range_reached hw hphys hvirt hlegal i hsize hround)

theorem byte_other (k : Nat) (hk : k < size) (hsize : size + FRAME_SIZE < 2 ^ 32)
    (hoffset : phys % FRAME_SIZE = virt % FRAME_SIZE)
    (hlast : size ≤ (phys % FRAME_SIZE + k) / FRAME_SIZE * FRAME_SIZE) (p : Nat) :
    LeadsTo (map_range w phys virt size flags).2 (pageOf (virt + k)) p ↔ LeadsTo w (pageOf (virt + k)) p := by
  rw [leadsTo_iff, leadsTo_iff, pageOf_offset, ← hoffset,
    map_range_other hw hphys hvirt hlegal _ (by unfold FRAME_SIZE at *; omega) hlast]

end

/-! ## The range -/

theorem count_iff (w : State) (phys virt size flags : Nat) (hsize : size + FRAME_SIZE < 2 ^ 32) :
    (map_range w phys virt size flags).1 = (mappedPages phys virt size flags).length ↔ size % FRAME_SIZE = 0 := by
  rw [mappedPages_length phys virt size flags hsize, map_range]
  unfold FRAME_SIZE at *
  omega

/-- `map_range` covers its range, and counts its pages, exactly for whole pages that start
at a boundary or end in a page that was mapped before. -/
theorem map_range_covers_iff (w : State) (phys virt size flags : Nat) (hw : Tables w)
    (hoffset : phys % FRAME_SIZE = virt % FRAME_SIZE) (hsize : size + FRAME_SIZE < 2 ^ 32)
    (hphys : phys + size ≤ 2 ^ 64) (hvirt : virt + size ≤ 2 ^ 64)
    (hlegal : Along step Legal w (mapCalls phys virt size flags)) :
    Covers w phys virt size flags ↔ Coverable w phys virt size flags := by
  have hreached := byte_reached hw hphys hvirt hlegal
  have hother := byte_other hw hphys hvirt hlegal
  constructor
  · rintro ⟨hbytes, hcount⟩
    have hwhole := (count_iff w phys virt size flags hsize).mp hcount
    refine ⟨hwhole, ?_⟩
    by_cases hzero : size = 0
    · exact Or.inl hzero
    · -- The first byte of the range in the page of round `i`.
      have hround := fun i (hi : i * FRAME_SIZE < size) =>
        (hreached (i * FRAME_SIZE - phys % FRAME_SIZE) hsize hoffset i (by unfold FRAME_SIZE at *; omega) hi).mp
          (hbytes _ (by omega))
      have hlast := hbytes (size - 1) (by omega)
      have hspace := hlast.lt
      refine Or.inr ⟨(hround 0 (by omega)).1, by omega, fun i hi => (hround i hi).2.2, ?_⟩
      by_cases haligned : phys % FRAME_SIZE = 0
      · exact Or.inl haligned
      · -- The last byte is in the page behind the last round.
        exact Or.inr ((hother (size - 1) (by omega) hsize hoffset (by unfold FRAME_SIZE at *; omega) _).mp hlast)
  · rintro ⟨hwhole, hrest⟩
    refine ⟨?_, (count_iff w phys virt size flags hsize).mpr hwhole⟩
    intro k hk
    rcases hrest with hzero | ⟨hpresent, hspace, hflags, hedge⟩
    · omega
    · by_cases hround : (phys % FRAME_SIZE + k) / FRAME_SIZE * FRAME_SIZE < size
      · exact (hreached k hsize hoffset _ rfl hround).mpr ⟨hpresent, by omega, hflags _ hround⟩
      · rw [hother k hk hsize hoffset (by omega)]
        rcases hedge with haligned | hlast
        · unfold FRAME_SIZE at *
          omega
        · -- Every byte that is not reached is in the page of the last one.
          have hpage : pageOf (virt + k) = pageOf (virt + (size - 1)) := by
            unfold pageOf FRAME_SIZE at *
            omega
          have hdown : pageDown (phys + k) = pageDown (phys + (size - 1)) := by
            unfold pageDown FRAME_SIZE at *
            omega
          rw [hpage, hdown]
          exact hlast

theorem flagsApart_of_low (phys size flags : Nat) (h : flags &&& ADDR_MASK = 0) : FlagsApart phys size flags := by
  intro i _
  rw [Nat.and_or_distrib_right, h, Nat.or_zero]

theorem clearTables_mapCalls (phys virt size flags : Nat) (hflags : flags < 2 ^ 64) (hsize : size < 2 ^ 28) :
    Along step Legal clearTables (mapCalls phys virt size flags) :=
  clearTables_pageCalls phys virt flags _ hflags (by unfold FRAME_SIZE; omega)

theorem map_range_covers_iff_two : Covers clearTables 0x5000 0x400000 0x2000 3 := by
  have hlegal := clearTables_mapCalls 0x5000 0x400000 0x2000 3 (by decide) (by decide)
  exact (map_range_covers_iff clearTables 0x5000 0x400000 0x2000 3 clearTables_start.tables.1 (by decide)
    (by decide) (by decide) (by decide) hlegal).mpr
    ⟨by decide, Or.inr ⟨by decide, by decide, flagsApart_of_low _ _ 3 (by decide), Or.inl (by decide)⟩⟩

/-- A page of bytes from the middle of a page on: the second half is not mapped. A range of
one byte is mapped, and not counted. -/
theorem map_range_half_mapped :
    Tables clearTables ∧ Along step Legal clearTables (mapCalls 0x5800 0x400800 0x1000 3) ∧
    ¬ LeadsTo (map_range clearTables 0x5800 0x400800 0x1000 3).2 (pageOf 0x401000) 0x6000 ∧
    ¬ Covers clearTables 0x5800 0x400800 0x1000 3 ∧
    (map_range clearTables 0x5000 0x400000 1 3).1 = 0 ∧ (mappedPages 0x5000 0x400000 1 3).length = 1 := by
  have hlegal := clearTables_mapCalls 0x5800 0x400800 0x1000 3 (by decide) (by decide)
  obtain ⟨htables, hclear⟩ := clearTables_start.tables
  have hsecond : ¬ LeadsTo (map_range clearTables 0x5800 0x400800 0x1000 3).2 (pageOf (0x400800 + 0x800))
      (pageDown (0x5800 + 0x800)) := by
    rw [byte_other htables (by decide) (by decide) hlegal 0x800 (by decide) (by decide) (by decide) (by decide),
      leadsTo_iff, hclear]
    decide
  exact ⟨htables, hlegal, hsecond, fun hcovers => hsecond (hcovers.bytes 0x800 (by decide)), rfl, by decide⟩

end SlayerOS.Ranges
