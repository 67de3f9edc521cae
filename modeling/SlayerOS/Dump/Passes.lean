import SlayerOS.Dump.Names
import SlayerOS.Dump.Tiles

/-!
# The three passes

The first pass notes the addresses of the instructions and keeps the last 32 of them. The
second one finds the offset of the address that was picked, and the third one prints.
-/

open SlayerOS.Fuel SlayerOS.Fuel.Comp SlayerOS.Text SlayerOS.Resolver

namespace SlayerOS.Dump

variable {m : Machine} {entry : symbol_entry} {instructions : List ZydisDisassembledInstruction} {k : Nat}
  {disas_address : BitVec 64}

/-- The cursor at the instruction `k`, or at the end of the symbol. -/
def cursor_at (entry : symbol_entry) (instructions : List ZydisDisassembledInstruction) (k : Nat) : Cursor :=
  ⟨address_of entry instructions k, BitVec.ofNat 64 (offset_of instructions k), false⟩

theorem start_eq (entry : symbol_entry) (instructions : List ZydisDisassembledInstruction) :
    Cursor.start entry = cursor_at entry instructions 0 := by
  simp [Cursor.start, cursor_at, address_of, offset_of]

namespace Tiled

theorem decode_at (h : Tiled m entry instructions) {k : Nat} (hk : k < instructions.length) :
    (cursor_at entry instructions k).decode m entry = some instructions[k] := by
  have hle := h.offset_le k
  have hlt := h.size_lt
  rw [← h.decodes k hk]
  unfold Cursor.decode cursor_at
  congr 1
  apply BitVec.eq_of_toNat_eq
  rw [BitVec.toNat_sub, BitVec.toNat_ofNat, BitVec.toNat_ofNat, BitVec.toNat_ofNat]
  omega

theorem decode_end (h : Tiled m entry instructions) :
    (cursor_at entry instructions instructions.length).decode m entry = none := by
  rw [← h.fails]
  unfold Cursor.decode cursor_at
  dsimp only
  rw [h.sum_eq, BitVec.sub_self]
  unfold address_of
  rw [h.sum_eq]
  rfl

theorem advance_at (h : Tiled m entry instructions) {k : Nat} (hk : k < instructions.length) :
    (cursor_at entry instructions k).advance instructions[k] = cursor_at entry instructions (k + 1) := by
  have hsucc : BitVec.ofNat 64 (offset_of instructions k) + instructions[k].length.setWidth 64 =
      BitVec.ofNat 64 (offset_of instructions (k + 1)) := by
    rw [h.offset_succ hk, BitVec.ofNat_add]
    congr 1
    simp
  unfold Cursor.advance cursor_at
  dsimp only
  rw [h.address_succ hk, hsucc]

end Tiled

/-! ## The first pass -/

/-- The first instruction that is not in front of the address to disassemble, which is in the
instruction `k`. -/
def stop (entry : symbol_entry) (instructions : List ZydisDisassembledInstruction) (k : Nat) (disas_address : BitVec 64) :
    Nat :=
  if disas_address = address_of entry instructions k then k else k + 1

/-- The number of addresses that the first pass notes. -/
def recorded (entry : symbol_entry) (instructions : List ZydisDisassembledInstruction) (k : Nat)
    (disas_address : BitVec 64) : Nat :=
  min (stop entry instructions k disas_address + 1) instructions.length

theorem reached_iff (h : Tiled m entry instructions) (hk : Contains entry instructions k disas_address) {i : Nat}
    (hi : i < instructions.length) :
    disas_address ≤ address_of entry instructions i ↔ stop entry instructions k disas_address ≤ i := by
  obtain ⟨hkn, hlow, hhigh⟩ := hk
  have haddress := h.toNat_address hi
  have hstart := h.toNat_address hkn
  have hbefore : ∀ j, j ≤ i → offset_of instructions j ≤ offset_of instructions i := fun j hj => h.offset_mono hj
  rw [BitVec.le_def, haddress]
  unfold stop
  split
  · rename_i heq
    have hexact : disas_address.toNat = entry.address.toNat + offset_of instructions k := by rw [heq, hstart]
    constructor
    · intro hle
      by_contra hlt
      have := h.offset_lt (show i < k by omega) hi
      omega
    · intro hle
      have := hbefore k hle
      omega
  · rename_i hne
    have hinside : entry.address.toNat + offset_of instructions k ≠ disas_address.toNat := by
      intro heq
      exact hne (BitVec.eq_of_toNat_eq (by rw [hstart, heq]))
    constructor
    · intro hle
      by_contra hlt
      have := h.offset_mono (show i ≤ k by omega)
      omega
    · intro hle
      have := hbefore (k + 1) hle
      omega

/-- The ring holds the last 32 of the addresses noted so far. -/
structure Scanned (entry : symbol_entry) (instructions : List ZydisDisassembledInstruction) (count : Nat) (s : Scan) :
    Prop where
  count_eq : s.instruction_count = count
  ring : ∀ j < count, count ≤ j + 32 → s.instruction_addresses (j % 32) = address_of entry instructions j

theorem Scanned.push {s : Scan} {i : Nat} (h : Scanned entry instructions i s) (cursor : Cursor) :
    Scanned entry instructions (i + 1)
      ⟨cursor, Function.update s.instruction_addresses (i % 32) (address_of entry instructions i), i + 1⟩ := by
  refine ⟨rfl, ?_⟩
  intro j hj hnear
  dsimp only
  rcases Nat.lt_succ_iff_lt_or_eq.mp hj with hlt | rfl
  · have hslot : j % 32 ≠ i % 32 := by omega
    rw [Function.update_of_ne hslot]
    exact h.ring j hlt (by omega)
  · exact Function.update_self ..

theorem scan_round_ends (h : Tiled m entry instructions) (hk : Contains entry instructions k disas_address) {i : Nat}
    (hi : i < instructions.length) {s s' : Scan} (hcursor : s.cursor = cursor_at entry instructions i)
    (hcount : s.instruction_count = i) :
    (scan_round m entry disas_address s).Ends s' ↔
      i + 1 < 2 ^ 31 ∧
        s' = ⟨if stop entry instructions k disas_address ≤ i then { cursor_at entry instructions i with stopped := true }
              else cursor_at entry instructions (i + 1),
          Function.update s.instruction_addresses (i % 32) (address_of entry instructions i), i + 1⟩ := by
  have hreached := reached_iff h hk hi
  unfold scan_round increment
  rw [hcursor, hcount, h.decode_at hi]
  constructor
  · intro hends
    obtain ⟨_, hdecode, hends⟩ := (ends_bind _ _ _).mp hends
    obtain rfl := Option.some.inj ((ends_lift _ _).mp hdecode)
    obtain ⟨count, hcount', hends⟩ := (ends_bind _ _ _).mp hends
    rw [ends_lift] at hcount'
    split at hcount'
    · rename_i hroom
      obtain rfl := Option.some.inj hcount'
      refine ⟨hroom, ?_⟩
      by_cases hstop : stop entry instructions k disas_address ≤ i
      · rw [if_pos hstop]
        rw [if_pos (show (cursor_at entry instructions i).runtime_address ≥ disas_address from hreached.mpr hstop)] at hends
        exact ((ends_pure _ _).mp hends).symm
      · rw [if_neg hstop]
        rw [if_neg (show ¬ (cursor_at entry instructions i).runtime_address ≥ disas_address from
          fun hle => hstop (hreached.mp hle)), h.advance_at hi] at hends
        exact ((ends_pure _ _).mp hends).symm
    · cases hcount'
  · rintro ⟨hroom, rfl⟩
    refine (ends_bind _ _ _).mpr ⟨instructions[i], (ends_lift _ _).mpr rfl,
      (ends_bind _ _ _).mpr ⟨i + 1, (ends_lift _ _).mpr (if_pos hroom), ?_⟩⟩
    by_cases hstop : stop entry instructions k disas_address ≤ i
    · rw [if_pos hstop, if_pos (show (cursor_at entry instructions i).runtime_address ≥ disas_address from
        hreached.mpr hstop), ends_pure]
      rfl
    · rw [if_neg hstop, if_neg (show ¬ (cursor_at entry instructions i).runtime_address ≥ disas_address from
        fun hle => hstop (hreached.mp hle)), h.advance_at hi, ends_pure]
      rfl

/-- The first pass from the instruction `i` on: it ends unless the count overflows. -/
theorem scan_from (h : Tiled m entry instructions) (hk : Contains entry instructions k disas_address) (n i : Nat)
    (hn : i + n = min (stop entry instructions k disas_address) instructions.length) (hsmall : i < 2 ^ 31) (s : Scan)
    (hcursor : s.cursor = cursor_at entry instructions i) (hscanned : Scanned entry instructions i s) :
    (recorded entry instructions k disas_address < 2 ^ 31 →
      ∃ s', (while_ (fun s => pure (!s.cursor.stopped && (s.cursor.decode m entry).isSome))
        (scan_round m entry disas_address) s).Ends s' ∧
        Scanned entry instructions (recorded entry instructions k disas_address) s') ∧
    (2 ^ 31 ≤ recorded entry instructions k disas_address →
      ∀ s', ¬ (while_ (fun s => pure (!s.cursor.stopped && (s.cursor.decode m entry).isSome))
        (scan_round m entry disas_address) s).Ends s') := by
  have hrecorded : recorded entry instructions k disas_address =
    min (stop entry instructions k disas_address + 1) instructions.length := rfl
  have hpushed := fun cursor => hscanned.push cursor
  by_cases hi : i < instructions.length
  · have hround := fun s' =>
      @scan_round_ends m entry instructions k disas_address h hk i hi s s' hcursor hscanned.count_eq
    have hgo : (pure (!s.cursor.stopped && (s.cursor.decode m entry).isSome) : Comp Bool).Ends true := by
      rw [ends_pure, hcursor, h.decode_at hi]
      rfl
    by_cases hroom : i + 1 < 2 ^ 31
    · have hstep := (hround _).mpr ⟨hroom, rfl⟩
      by_cases hstop : stop entry instructions k disas_address ≤ i
      · -- The last round: the break leaves the loop.
        have hlast : recorded entry instructions k disas_address = i + 1 := by omega
        rw [if_pos hstop] at hstep
        rw [hlast]
        refine ⟨fun _ => ⟨_, while_round hgo hstep (while_stop ((ends_pure _ _).mpr rfl)), ?_⟩, fun hmany => by omega⟩
        exact hpushed { cursor_at entry instructions i with stopped := true }
      · obtain ⟨n, rfl⟩ : ∃ j, n = j + 1 := ⟨n - 1, by omega⟩
        rw [if_neg hstop] at hstep
        obtain ⟨hends, hnever⟩ := scan_from h hk n (i + 1) (by omega) hroom _ rfl (hpushed _)
        constructor
        · intro hfew
          obtain ⟨s', hs', hfinal⟩ := hends hfew
          exact ⟨s', while_round hgo hstep hs', hfinal⟩
        · intro hmany s' hs'
          obtain ⟨u, hu, hrest⟩ := while_next hs' hgo
          obtain rfl := hu.unique hstep
          exact hnever hmany s' hrest
    · -- The count overflows in this round.
      refine ⟨fun hfew => by omega, fun _ s' hs' => ?_⟩
      obtain ⟨u, hu, -⟩ := while_next hs' hgo
      exact hroom ((hround u).mp hu).1
  · -- No instruction is left: the disassembly fails.
    have hend : i = instructions.length := by omega
    have hlast : recorded entry instructions k disas_address = i := by omega
    rw [hlast]
    refine ⟨fun _ => ⟨s, while_stop ?_, hscanned⟩, fun hmany => by omega⟩
    rw [ends_pure, hcursor, hend, h.decode_end]
    rfl

theorem start_address_eq {s : Scan} {count : Nat} (h : Scanned entry instructions count s) (hcount : 4 ≤ count) :
    start_address s = address_of entry instructions (count - 4) := by
  unfold start_address
  rw [h.count_eq, if_pos hcount]
  exact h.ring (count - 4) (by omega) (by omega)

/-! ## The second pass -/

theorem seek_from (h : Tiled m entry instructions) {target : Nat} (htarget : target < instructions.length) (n j : Nat)
    (hj : j + n = target) :
    (while_ (fun c => pure (decide (c.runtime_address < address_of entry instructions target) && (c.decode m entry).isSome))
      (fun c => do
        let instruction ← lift (c.decode m entry)
        pure (c.advance instruction)) (cursor_at entry instructions j)).Ends (cursor_at entry instructions target) := by
  induction n generalizing j with
  | zero =>
    obtain rfl : j = target := by omega
    refine while_stop ?_
    rw [ends_pure]
    have hirrefl : ¬ address_of entry instructions j < address_of entry instructions j := BitVec.lt_irrefl _
    simp [cursor_at, hirrefl]
  | succ n ih =>
    have hlt : j < instructions.length := by omega
    have hbefore : address_of entry instructions j < address_of entry instructions target := by
      rw [BitVec.lt_def, h.toNat_address hlt, h.toNat_address htarget]
      have := h.offset_lt (show j < target by omega) hlt
      omega
    refine while_round ?_ ?_ (ih (j + 1) (by omega))
    · rw [ends_pure, h.decode_at hlt]
      simp [cursor_at, hbefore]
    · refine (ends_bind _ _ _).mpr ⟨instructions[j], ?_, ?_⟩
      · rw [ends_lift, h.decode_at hlt]
      · rw [ends_pure, h.advance_at hlt]

/-! ## The third pass -/

/-- All the instructions of the symbol with their addresses. -/
def placed (entry : symbol_entry) (instructions : List ZydisDisassembledInstruction) :
    List (BitVec 64 × ZydisDisassembledInstruction) :=
  instructions.mapIdx fun k i => (address_of entry instructions k, i)

/-- The lines of the instructions `window`. -/
def ShownAs (m : Machine) (disas_address : BitVec 64) (window : List (BitVec 64 × ZydisDisassembledInstruction))
    (lines : List Line) : Prop :=
  EndsAll (fun p => instruction_line m disas_address p.1 p.2) window lines

theorem list_round_ends (h : Tiled m entry instructions) {j : Nat} (hj : j < instructions.length) (i : Nat)
    (lines : List Line) (s : Listing) :
    (list_round m entry disas_address ⟨cursor_at entry instructions j, i, lines⟩).Ends s ↔
      ∃ line, (instruction_line m disas_address (address_of entry instructions j) instructions[j]).Ends line ∧
        s = if i ≥ 6 then ⟨{ cursor_at entry instructions (j + 1) with stopped := true }, i, lines ++ [line]⟩
          else ⟨cursor_at entry instructions (j + 1), i + 1, lines ++ [line]⟩ := by
  have hlast : instructions_to_show - 1 = 6 := rfl
  unfold list_round
  rw [h.decode_at hj]
  simp only [ends_bind, ends_lift, Option.some.injEq, exists_eq_left', h.advance_at hj, hlast]
  refine exists_congr fun line => and_congr_right fun _ => ?_
  split
  · rw [ends_pure, eq_comm]
  · rw [ends_pure, eq_comm]

theorem list_from (h : Tiled m entry instructions) (n j : Nat) (hj : j ≤ instructions.length) (i : Nat)
    (hn : i + n = 6) (lines shown : List Line) :
    (∃ t, (while_ (fun s => pure (!s.cursor.stopped && (s.cursor.decode m entry).isSome))
        (list_round m entry disas_address) ⟨cursor_at entry instructions j, i, lines⟩).Ends t ∧ t.lines = shown) ↔
      ∃ rest, ShownAs m disas_address (((placed entry instructions).drop j).take (n + 1)) rest ∧
        shown = lines ++ rest := by
  have hlength : (placed entry instructions).length = instructions.length := List.length_mapIdx
  by_cases hlt : j < instructions.length
  · have hlt' : j < (placed entry instructions).length := by omega
    have hplaced : (placed entry instructions)[j] = (address_of entry instructions j, instructions[j]) :=
      List.getElem_mapIdx ..
    have hgo : (pure (!(cursor_at entry instructions j).stopped &&
        ((cursor_at entry instructions j).decode m entry).isSome) : Comp Bool).Ends true := by
      rw [ends_pure, h.decode_at hlt]
      rfl
    have hround := @list_round_ends m entry instructions disas_address h j hlt i lines
    rw [List.drop_eq_getElem_cons hlt', List.take_succ_cons, hplaced]
    unfold ShownAs
    simp only [endsAll_cons_iff]
    cases n with
    | zero =>
      -- The last round: the break leaves the loop.
      obtain rfl : i = 6 := by omega
      simp only [ge_iff_le, le_refl, if_true] at hround
      constructor
      · rintro ⟨t, ht, rfl⟩
        obtain ⟨u, hu, hstop⟩ := while_next ht hgo
        obtain ⟨line, hline, rfl⟩ := (hround u).mp hu
        obtain rfl := hstop.unique (while_stop ((ends_pure _ _).mpr rfl))
        exact ⟨[line], ⟨line, [], hline, List.Forall₂.nil, rfl⟩, rfl⟩
      · rintro ⟨_, ⟨line, _, hline, ⟨⟩, rfl⟩, rfl⟩
        exact ⟨_, while_round hgo ((hround _).mpr ⟨line, hline, rfl⟩) (while_stop ((ends_pure _ _).mpr rfl)), rfl⟩
    | succ n =>
      have hmore : ¬ i ≥ 6 := by omega
      simp only [hmore, if_false] at hround
      have ih := fun line => list_from h n (j + 1) hlt (i + 1) (by omega) (lines ++ [line]) shown
      constructor
      · rintro ⟨t, ht, hlines⟩
        obtain ⟨u, hu, hnext⟩ := while_next ht hgo
        obtain ⟨line, hline, rfl⟩ := (hround u).mp hu
        obtain ⟨rest, hrest, rfl⟩ := (ih line).mp ⟨t, hnext, hlines⟩
        exact ⟨line :: rest, ⟨line, rest, hline, hrest, rfl⟩, List.append_assoc lines [line] rest⟩
      · rintro ⟨_, ⟨line, rest, hline, hrest, rfl⟩, rfl⟩
        obtain ⟨t, hnext, hlines⟩ := (ih line).mpr ⟨rest, hrest, (List.append_assoc lines [line] rest).symm⟩
        exact ⟨t, while_round hgo ((hround _).mpr ⟨line, hline, rfl⟩) hnext, hlines⟩
  · obtain rfl : j = instructions.length := by omega
    have hstop : (pure (!(cursor_at entry instructions instructions.length).stopped &&
        ((cursor_at entry instructions instructions.length).decode m entry).isSome) : Comp Bool).Ends false := by
      rw [ends_pure, h.decode_end]
      rfl
    have hnil : ((placed entry instructions).drop instructions.length).take (n + 1) = [] := by
      rw [← hlength, List.drop_length, List.take_nil]
    rw [hnil]
    constructor
    · rintro ⟨t, ht, rfl⟩
      obtain rfl := ht.unique (while_stop hstop)
      exact ⟨[], List.Forall₂.nil, (List.append_nil _).symm⟩
    · rintro ⟨_, ⟨⟩, rfl⟩
      exact ⟨_, while_stop hstop, (List.append_nil _).symm⟩

end SlayerOS.Dump
