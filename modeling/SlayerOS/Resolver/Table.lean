import SlayerOS.Resolver.Code
import SlayerOS.Lib.Exchange

/-!
# The table is sorted, and the search finds the nearest function

The sort puts the entry with the lowest address in front: it is the exchange sort of the
library, with nothing good in it. The search keeps the last entry that is not above the
address. Both are right on a full table too, where no null stands behind the entries.
-/

open SlayerOS.Fuel SlayerOS.Fuel.Comp SlayerOS.Exchange

namespace SlayerOS.Resolver

/-- The table holds `entries` from its first place on, and nulls behind them. -/
structure Rows (symbol_table : Nat → Option symbol_entry) (entries : List symbol_entry) : Prop where
  fits : entries.length ≤ MAX_SYMBOLS
  at_place : ∀ k < MAX_SYMBOLS, symbol_table k = entries[k]?

/-- What a search for `address` has to answer: the entry with the greatest address that is not
above it, and whether that is the address itself. -/
structure Nearest (entries : List symbol_entry) (address : BitVec 64) (r : search_result) : Prop where
  none_iff : r.entry = none ↔ ∀ e ∈ entries, address < e.address
  nearest : ∀ e, r.entry = some e →
    e ∈ entries ∧ e.address ≤ address ∧ ∀ e' ∈ entries, e'.address ≤ address → e'.address ≤ e.address
  exact_iff : r.exact = true ↔ ∃ e ∈ entries, e.address = address

/-- How far an entry is from the end of the address space. -/
def room (e : symbol_entry) : Nat := 2 ^ 64 - e.address.toNat

/-- The sort puts the entry with the most room in front. -/
def sorted (entries : List symbol_entry) : List symbol_entry := sort (fun _ => false) room entries

theorem room_lt_iff (a b : symbol_entry) : room a < room b ↔ b.address < a.address := by
  have ha := a.address.isLt
  have hb := b.address.isLt
  unfold room
  rw [BitVec.lt_def]
  omega

theorem room_le_iff (a b : symbol_entry) : room a ≤ room b ↔ b.address ≤ a.address := by
  have ha := a.address.isLt
  have hb := b.address.isLt
  unfold room
  rw [BitVec.le_def]
  omega

/-! ## The sort -/

theorem Rows.none_iff {t : Nat → Option symbol_entry} {l : List symbol_entry} (h : Rows t l) {k : Nat}
    (hk : k < MAX_SYMBOLS) : t k = none ↔ l.length ≤ k := by
  rw [h.at_place k hk, List.getElem?_eq_none_iff]

theorem Rows.exchange {s : Symbols} {l : List symbol_entry} (h : Rows s.symbol_table l) {i j : Nat}
    (hi : i < l.length) (hj : j < l.length) :
    Rows (compare_exchange i j s).symbol_table (exchange (fun _ => false) room i l j) := by
  have hfits := h.fits
  refine ⟨by rw [length_exchange]; exact hfits, ?_⟩
  intro k hk
  unfold compare_exchange Exchange.exchange
  rw [h.at_place i (by omega), h.at_place j (by omega), List.getElem?_eq_getElem hi, List.getElem?_eq_getElem hj]
  simp only [Bool.not_false, Bool.true_and, decide_eq_true_eq, room_lt_iff]
  split
  · have hbefore := h.at_place k hk
    simp only [Symbols.put, Function.update_apply, List.getElem?_set, List.length_set]
    by_cases hkj : k = j
    · simp [hkj, hj]
    · by_cases hki : k = i
      · have hij : j ≠ i := fun h => hkj (hki.trans h.symm)
        simp [hki, hi, hij, Ne.symm hij]
      · rw [if_neg hkj, if_neg hki, if_neg (Ne.symm hkj), if_neg (Ne.symm hki), hbefore]
  · exact h.at_place k hk

theorem range'_unfold {j m : Nat} (h : j < m) :
    List.range' j (m - j) = j :: List.range' (j + 1) (m - (j + 1)) := by
  rw [show m - j = (m - (j + 1)) + 1 by omega, List.range'_succ]

theorem Rows.sort_from {s : Symbols} {l : List symbol_entry} (h : Rows s.symbol_table l) {i n j : Nat}
    (hi : i < l.length) (hlow : l.length ≤ j + n) (hhigh : j + n ≤ MAX_SYMBOLS) :
    Rows (sort_from i n j s).symbol_table
      ((List.range' j (l.length - j)).foldl (Exchange.exchange (fun _ => false) room i) l) := by
  induction n generalizing j s l with
  | zero =>
    rw [Nat.sub_eq_zero_of_le (by omega)]
    exact h
  | succ n ih =>
    rw [Resolver.sort_from]
    split
    · rename_i hnone
      rw [Nat.sub_eq_zero_of_le ((h.none_iff (by omega)).mp hnone)]
      exact h
    · rename_i hsome
      have hj : j < l.length := Nat.lt_of_not_le fun hle => hsome ((h.none_iff (by omega)).mpr hle)
      have hlength := @length_exchange _ (fun _ => false) room i l j
      have hrest := ih (h.exchange hi hj) (j := j + 1) (by omega) (by omega) (by omega)
      rw [hlength] at hrest
      rw [range'_unfold hj, List.foldl_cons]
      exact hrest

theorem Rows.sort_rows {s : Symbols} {l : List symbol_entry} (h : Rows s.symbol_table l) {n i : Nat}
    (hend : i + n = MAX_SYMBOLS) :
    Rows (sort_rows n i s).symbol_table
      ((List.range' i (l.length - i)).foldl (passAt (fun _ => false) room) l) := by
  have hfits := h.fits
  induction n generalizing i s l with
  | zero =>
    rw [Nat.sub_eq_zero_of_le (by omega)]
    exact h
  | succ n ih =>
    rw [Resolver.sort_rows]
    split
    · rename_i hnone
      rw [Nat.sub_eq_zero_of_le ((h.none_iff (by omega)).mp hnone)]
      exact h
    · rename_i hsome
      have hi : i < l.length := Nat.lt_of_not_le fun hle => hsome ((h.none_iff (by omega)).mpr hle)
      have hpass : Rows (Resolver.sort_from i (MAX_SYMBOLS - (i + 1)) (i + 1) s).symbol_table
          (passAt (fun _ => false) room l i) := h.sort_from hi (by omega) (by omega)
      have hlength : (passAt (fun _ => false) room l i).length = l.length := length_passAt l i
      have hrest := ih hpass (i := i + 1) (by omega) (by omega)
      rw [hlength] at hrest
      rw [range'_unfold hi, List.foldl_cons]
      exact hrest

/-- The loops over the table are the exchange sort of its entries. -/
theorem Rows.sorted {s : Symbols} {l : List symbol_entry} (h : Rows s.symbol_table l) :
    Rows (sort_symbol_table s).symbol_table (sorted l) := by
  have hrows := h.sort_rows (n := MAX_SYMBOLS) (i := 0) (Nat.zero_add _)
  rw [Nat.sub_zero, passAt_sort] at hrows
  exact hrows

theorem sorted_perm (l : List symbol_entry) : (sorted l).Perm l := sort_perm l

theorem sorted_pairwise (l : List symbol_entry) : (sorted l).Pairwise fun a b => a.address ≤ b.address := by
  have hroom : (sorted l).Pairwise fun a b => room b ≤ room a := sort_sorted l
  exact hroom.imp fun {a b} h => (room_le_iff b a).mp h

/-! ## The search -/

theorem Nearest.snoc {pre : List symbol_entry} {e : symbol_entry} {address : BitVec 64}
    (hsorted : ∀ e' ∈ pre, e'.address ≤ e.address) (hlt : e.address < address) :
    Nearest (pre ++ [e]) address ⟨some e, false⟩ := by
  have hmem : e ∈ pre ++ [e] := List.mem_append_right pre (List.mem_singleton_self e)
  have hle : ∀ e' ∈ pre ++ [e], e'.address ≤ e.address := by
    intro e' he'
    rcases List.mem_append.mp he' with he' | he'
    · exact hsorted e' he'
    · rw [List.mem_singleton.mp he']
      exact BitVec.le_refl _
  refine ⟨?_, ?_, ?_⟩
  · refine ⟨nofun, fun h => ?_⟩
    have := h e hmem
    bv_omega
  · intro e' he'
    obtain rfl := Option.some.inj he'
    exact ⟨hmem, by bv_omega, fun e' he' _ => hle e' he'⟩
  · refine ⟨nofun, ?_⟩
    rintro ⟨e', he', heq⟩
    have := hle e' he'
    bv_omega

theorem nearest_found {entries : List symbol_entry} {e : symbol_entry} (hmem : e ∈ entries) :
    Nearest entries e.address ⟨some e, true⟩ := by
  refine ⟨?_, ?_, ?_⟩
  · refine ⟨nofun, fun h => ?_⟩
    have := h e hmem
    bv_omega
  · intro e' he'
    obtain rfl := Option.some.inj he'
    exact ⟨hmem, BitVec.le_refl _, fun _ _ h => h⟩
  · exact ⟨fun _ => ⟨e, hmem, rfl⟩, fun _ => rfl⟩

theorem Nearest.append {pre above : List symbol_entry} {address : BitVec 64} {r : search_result}
    (h : Nearest pre address r) (habove : ∀ e ∈ above, address < e.address) :
    Nearest (pre ++ above) address r := by
  have hnot : ∀ e ∈ above, ¬ e.address ≤ address := by
    intro e he
    have := habove e he
    bv_omega
  refine ⟨?_, ?_, ?_⟩
  · rw [h.none_iff, List.forall_mem_append]
    exact (and_iff_left habove).symm
  · intro e he
    obtain ⟨hmem, hle, hnearest⟩ := h.nearest e he
    refine ⟨List.mem_append_left above hmem, hle, ?_⟩
    intro e' he' hle'
    rcases List.mem_append.mp he' with he' | he'
    · exact hnearest e' he' hle'
    · exact absurd hle' (hnot e' he')
  · rw [h.exact_iff]
    constructor
    · rintro ⟨e, he, heq⟩
      exact ⟨e, List.mem_append_left above he, heq⟩
    · rintro ⟨e, he, heq⟩
      rcases List.mem_append.mp he with he | he
      · exact ⟨e, he, heq⟩
      · exact absurd (heq ▸ BitVec.le_refl _) (hnot e he)

theorem Nearest.perm {l l' : List symbol_entry} {address : BitVec 64} {r : search_result}
    (h : Nearest l address r) (hperm : l.Perm l') : Nearest l' address r := by
  refine ⟨?_, ?_, ?_⟩
  · simpa only [← hperm.mem_iff] using h.none_iff
  · simpa only [← hperm.mem_iff] using h.nearest
  · simpa only [← hperm.mem_iff] using h.exact_iff

theorem resolve_from_nearest {t : Nat → Option symbol_entry} {l pre rest : List symbol_entry} (h : Rows t l)
    (hl : l = pre ++ rest) (hsorted : l.Pairwise fun a b => a.address ≤ b.address) {address : BitVec 64}
    {r : search_result} (hexact : r.exact = false) (hr : Nearest pre address r) {n : Nat}
    (hend : pre.length + n = MAX_SYMBOLS) :
    Nearest l address (resolve_from t address n pre.length r) := by
  have hfits := h.fits
  induction rest generalizing pre r n with
  | nil =>
    have hpre : l = pre := by rw [hl, List.append_nil]
    subst hpre
    cases n with
    | zero => exact hr
    | succ n =>
      rw [resolve_from, (h.none_iff (by omega)).mpr (Nat.le_refl _)]
      exact hr
  | cons e rest ih =>
    have hlength : l.length = pre.length + (rest.length + 1) := by rw [hl, List.length_append, List.length_cons]
    obtain ⟨n, rfl⟩ : ∃ m, n = m + 1 := ⟨n - 1, by omega⟩
    have hrow : t pre.length = some e := by rw [h.at_place _ (by omega), hl]; simp
    have hmem : e ∈ l := by simp [hl]
    have hpairs := hsorted
    rw [hl, List.pairwise_append, List.pairwise_cons] at hpairs
    obtain ⟨-, ⟨hbehind, -⟩, hbefore⟩ := hpairs
    rw [resolve_from, hrow]
    dsimp only
    split
    · rename_i heq
      exact heq ▸ nearest_found hmem
    · rename_i hne
      split
      · rename_i habove
        rw [hl]
        refine hr.append fun e' he' => ?_
        rcases List.mem_cons.mp he' with rfl | he'
        · exact habove
        · have := hbehind e' he'
          bv_omega
      · rename_i hbelow
        have hpre : (pre ++ [e]).length = pre.length + 1 := by simp
        have hcandidate := Nearest.snoc (fun e' he' => hbefore e' he' e (List.mem_cons_self ..))
          (show e.address < address by bv_omega)
        have hrest := ih (by rw [hl, List.append_assoc]; rfl) rfl hcandidate (n := n) (by omega)
        rw [hpre] at hrest
        rw [hexact]
        exact hrest

theorem resolve_address_nearest {t : Nat → Option symbol_entry} {l : List symbol_entry} (h : Rows t l)
    (hsorted : l.Pairwise fun a b => a.address ≤ b.address) (address : BitVec 64) :
    Nearest l address (resolve_address t address) := by
  have hnone : Nearest [] address ⟨none, false⟩ := ⟨by simp, nofun, by simp⟩
  have hloop := resolve_from_nearest h (List.nil_append l).symm hsorted rfl hnone (Nat.zero_add MAX_SYMBOLS)
  rw [List.length_nil] at hloop
  unfold resolve_address
  generalize resolve_from t address MAX_SYMBOLS 0 ⟨none, false⟩ = r at *
  dsimp only
  split
  · rename_i hempty
    have habove := hloop.none_iff.mp (Option.isNone_iff_eq_none.mp hempty)
    refine ⟨⟨fun _ => habove, fun _ => rfl⟩, nofun, nofun, ?_⟩
    rintro ⟨e, he, heq⟩
    have := habove e he
    bv_omega
  · exact hloop

/-- The sort permutes the entries of a table into the order of their addresses, and then the
search finds the nearest one for every address. -/
theorem sort_symbol_table_resolves (s : Symbols) (entries : List symbol_entry) (h : Rows s.symbol_table entries) :
    ∃ sorted : List symbol_entry,
      Rows (sort_symbol_table s).symbol_table sorted ∧
      sorted.Perm entries ∧
      (sorted.Pairwise fun a b => a.address ≤ b.address) ∧
      ∀ address, Nearest entries address (resolve_address (sort_symbol_table s).symbol_table address) := by
  refine ⟨Resolver.sorted entries, h.sorted, sorted_perm entries, sorted_pairwise entries, ?_⟩
  intro address
  exact (resolve_address_nearest h.sorted (sorted_pairwise entries) address).perm (sorted_perm entries)

/-- A table with two entries at one address. -/
def ties : List symbol_entry := [⟨0x30, plus, 8⟩, ⟨0x10, plus, 8⟩, ⟨0x20, plus, 8⟩, ⟨0x10, plus, 4⟩]

theorem sort_symbol_table_resolves_ties :
    ∃ sorted : List symbol_entry,
      Rows (sort_symbol_table ⟨fun k => ties[k]?, []⟩).symbol_table sorted ∧
      sorted.Perm ties ∧
      (sorted.Pairwise fun a b => a.address ≤ b.address) ∧
      ∀ address, Nearest ties address
        (resolve_address (sort_symbol_table ⟨fun k => ties[k]?, []⟩).symbol_table address) :=
  sort_symbol_table_resolves ⟨fun k => ties[k]?, []⟩ ties ⟨by decide, fun _ _ => rfl⟩

/-! ## What the sort writes -/

/-- The writes of a part of the sort: all of them are inside the table. -/
def WritesInside (s t : Symbols) : Prop := ∃ places, t.written = places ++ s.written ∧ ∀ i ∈ places, i < MAX_SYMBOLS

theorem WritesInside.refl (s : Symbols) : WritesInside s s := ⟨[], rfl, nofun⟩

theorem WritesInside.trans {s t u : Symbols} (hst : WritesInside s t) (htu : WritesInside t u) : WritesInside s u := by
  obtain ⟨ps, hps, hpin⟩ := hst
  obtain ⟨qs, hqs, hqin⟩ := htu
  exact ⟨qs ++ ps, by rw [hqs, hps, List.append_assoc], List.forall_mem_append.mpr ⟨hqin, hpin⟩⟩

theorem writesInside_compare_exchange {i j : Nat} (hi : i < MAX_SYMBOLS) (hj : j < MAX_SYMBOLS) (s : Symbols) :
    WritesInside s (compare_exchange i j s) := by
  unfold compare_exchange
  split
  · split
    · exact ⟨[j, i], rfl, by simp [hi, hj]⟩
    · exact WritesInside.refl s
  · exact WritesInside.refl s

theorem writesInside_sort_from {i : Nat} (hi : i < MAX_SYMBOLS) (n j : Nat) (hend : j + n ≤ MAX_SYMBOLS) (s : Symbols) :
    WritesInside s (sort_from i n j s) := by
  induction n generalizing j s with
  | zero => exact WritesInside.refl s
  | succ n ih =>
    rw [sort_from]
    split
    · exact WritesInside.refl s
    · exact (writesInside_compare_exchange hi (by omega) s).trans (ih (j + 1) (by omega) _)

theorem writesInside_sort_rows (n i : Nat) (hend : i + n ≤ MAX_SYMBOLS) (s : Symbols) :
    WritesInside s (sort_rows n i s) := by
  induction n generalizing i s with
  | zero => exact WritesInside.refl s
  | succ n ih =>
    rw [sort_rows]
    split
    · exact WritesInside.refl s
    · exact (writesInside_sort_from (by omega) _ (i + 1) (by omega) s).trans (ih (i + 1) (by omega) _)

theorem writesInside_sort (s : Symbols) : WritesInside s (sort_symbol_table s) :=
  writesInside_sort_rows MAX_SYMBOLS 0 (Nat.le_of_eq (Nat.zero_add _)) s

end SlayerOS.Resolver
