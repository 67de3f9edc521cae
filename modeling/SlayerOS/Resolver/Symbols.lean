import SlayerOS.Resolver.Table
import SlayerOS.Mangle.Spec

/-!
# What `init_symbols` copies

The loop copies each function symbol of the kernel into the next place of the table, and
does not look for the end of the table.
-/

open SlayerOS.Fuel SlayerOS.Fuel.Comp SlayerOS.Mangle

namespace SlayerOS.Resolver

/-- The number of symbols, by the sizes in the section header. -/
def elf_desc.count (d : elf_desc) : Nat := d.sh_size / d.sh_entsize

def isFunction (sym : elf_sym) : Bool := sym.st_name != 0 && ELF64_ST_TYPE sym.st_info == STT_FUNC

/-- The entries of the function symbols among the first `n`, in the order of the symbols. -/
def functionsTo (d : elf_desc) (n : Nat) : List symbol_entry :=
  (((List.range n).map d.symtab).filter isFunction).map d.entry

def functions (d : elf_desc) : List symbol_entry := functionsTo d d.count

/-- What the crash handler relies on: the copy stays inside the table, each function symbol
has its entry there, and every search finds the nearest one. -/
def Initialised (d : elf_desc) : Prop :=
  ∃ r, (init_symbols d ⟨fun _ => none, []⟩).Ends r ∧
    (∀ i ∈ r.written, i < MAX_SYMBOLS) ∧
    (∀ i < d.count, isFunction (d.symtab i) = true →
      ∃ k < MAX_SYMBOLS, r.symbol_table k = some (d.entry (d.symtab i))) ∧
    ∀ address, Nearest (functions d) address (resolve_address r.symbol_table address)

theorem skipped_eq (sym : elf_sym) : skipped sym = !isFunction sym := by
  unfold skipped isFunction
  by_cases hinfo : sym.st_info = 0
  · rw [hinfo]
    simp [ELF64_ST_TYPE, STT_FUNC]
  · have hinfo : (sym.st_info == 0) = false := beq_false_of_ne hinfo
    simp only [hinfo, Bool.or_false, Bool.not_and, bne, Bool.not_not]

theorem functionsTo_succ (d : elf_desc) (n : Nat) :
    functionsTo d (n + 1) = functionsTo d n ++ if isFunction (d.symtab n) then [d.entry (d.symtab n)] else [] := by
  unfold functionsTo
  rw [List.range_succ, List.map_append, List.filter_append, List.map_append]
  congr 1
  cases h : isFunction (d.symtab n) <;> simp [h]

theorem length_functionsTo_le (d : elf_desc) (n : Nat) : (functionsTo d n).length ≤ n := by
  unfold functionsTo
  rw [List.length_map]
  exact (List.length_filter_le _ _).trans (by simp)

theorem entry_mem_functions {d : elf_desc} {i : Nat} (hi : i < d.count) (h : isFunction (d.symtab i) = true) :
    d.entry (d.symtab i) ∈ functions d := by
  unfold functions functionsTo
  exact List.mem_map_of_mem (List.mem_filter.mpr ⟨List.mem_map_of_mem (List.mem_range.mpr hi), h⟩)

/-! ## The loop -/

/-- Behind the first `n` symbols: their function symbols are in the table, in order. -/
structure Copied (d : elf_desc) (n : Nat) (c : Copy) : Prop where
  i_eq : c.i = n
  table_i_eq : c.table_i = (functionsTo d n).length
  table_eq : c.symbols.symbol_table = fun k => (functionsTo d n)[k]?
  written_iff : ∀ k, k ∈ c.symbols.written ↔ k < (functionsTo d n).length

theorem Copied.zero (d : elf_desc) : Copied d 0 ⟨0, 0, ⟨fun _ => none, []⟩⟩ := by
  refine ⟨rfl, rfl, rfl, ?_⟩
  intro k
  simp [functionsTo]

theorem Copied.succ {d : elf_desc} {n : Nat} {c : Copy} (h : Copied d n c) (hn : n + 1 < 2 ^ 32) :
    Copied d (n + 1) (copy_symbol d c) := by
  have hlength := length_functionsTo_le d n
  unfold copy_symbol
  dsimp only
  rw [h.i_eq, skipped_eq]
  cases hf : isFunction (d.symtab n) with
  | false =>
    have hsame : functionsTo d (n + 1) = functionsTo d n := by
      rw [functionsTo_succ, hf]
      simp
    refine ⟨add32_of_lt n 1 hn, ?_, ?_, ?_⟩
    · rw [hsame]
      exact h.table_i_eq
    · rw [hsame]
      exact h.table_eq
    · rw [hsame]
      exact h.written_iff
  | true =>
    have hnext : functionsTo d (n + 1) = functionsTo d n ++ [d.entry (d.symtab n)] := by
      rw [functionsTo_succ, hf]
      simp
    have hroom : (functionsTo d (n + 1)).length = (functionsTo d n).length + 1 := by simp [hnext]
    refine ⟨add32_of_lt n 1 hn, ?_, ?_, ?_⟩
    · rw [hroom, ← h.table_i_eq]
      exact add32_of_lt _ 1 (by rw [h.table_i_eq]; omega)
    · funext k
      simp only [Bool.not_true, Bool.false_eq_true, if_false, Symbols.put, Function.update_apply]
      rw [h.table_i_eq, h.table_eq, hnext]
      dsimp only
      rcases Nat.lt_trichotomy k (functionsTo d n).length with hk | hk | hk
      · rw [if_neg (by omega), List.getElem?_append_left hk]
      · rw [if_pos hk, hk, List.getElem?_concat_length]
      · rw [if_neg (by omega), List.getElem?_eq_none (by omega), List.getElem?_eq_none (by rw [← hnext]; omega)]
    · intro k
      simp only [Bool.not_true, Bool.false_eq_true, if_false, Symbols.put, List.mem_cons]
      rw [h.table_i_eq, h.written_iff, hroom]
      omega

theorem copy_ends (d : elf_desc) (hcount : d.count < 2 ^ 32) (n : Nat) (c : Copy) (hn : n ≤ d.count)
    (h : Copied d n c) :
    ∃ c', (while_ (fun c => pure (decide (c.i < d.sh_size / d.sh_entsize)))
      (fun c => pure (copy_symbol d c)) c).Ends c' ∧ Copied d d.count c' := by
  induction hk : d.count - n generalizing n c with
  | zero =>
    obtain rfl : n = d.count := by omega
    refine ⟨c, while_stop ?_, h⟩
    rw [ends_pure, h.i_eq]
    exact decide_eq_false (Nat.lt_irrefl _)
  | succ k ih =>
    obtain ⟨c', hends, hcopied⟩ := ih (n + 1) (copy_symbol d c) (by omega) (h.succ (by omega)) (by omega)
    refine ⟨c', while_round ?_ ((ends_pure _ _).mpr rfl) hends, hcopied⟩
    rw [ends_pure, h.i_eq]
    exact decide_eq_true (show n < d.count by omega)

/-- The variable `i` never leaves the 32-bit numbers. -/
theorem copy_never_ends (d : elf_desc) (hcount : 2 ^ 32 ≤ d.count) (s : Symbols) (c : Copy) :
    ¬ (while_ (fun c => pure (decide (c.i < d.sh_size / d.sh_entsize)))
      (fun c => pure (copy_symbol d c)) ⟨0, 0, s⟩).Ends c := by
  intro hends
  have hsmall : c.i < 2 ^ 32 := by
    refine (Rounds.last hends).inv (P := fun c => c.i < 2 ^ 32) (Nat.two_pow_pos 32) ?_
    intro u v _ _ hv
    obtain rfl := (ends_pure _ _).mp hv
    have hwrap : add32 u.i 1 < 2 ^ 32 := Nat.mod_lt _ (by decide)
    unfold copy_symbol
    dsimp only
    split <;> exact hwrap
  have hexit := while_exit hends
  rw [ends_pure, decide_eq_false_iff_not] at hexit
  change ¬ c.i < d.count at hexit
  omega

/-! ## The whole -/

theorem init_symbols_ends (d : elf_desc) (r : Symbols) (h : (init_symbols d ⟨fun _ => none, []⟩).Ends r) :
    d.count < 2 ^ 32 ∧ ∃ c, Copied d d.count c ∧ r = sort_symbol_table c.symbols := by
  obtain ⟨c, hends, hr⟩ := (ends_bind _ _ _).mp h
  have hcount : d.count < 2 ^ 32 := by
    by_contra hlarge
    exact copy_never_ends d (by omega) _ c hends
  obtain ⟨c', hends', hcopied⟩ := copy_ends d hcount 0 _ (Nat.zero_le _) (Copied.zero d)
  obtain rfl := hends.unique hends'
  exact ⟨hcount, c, hcopied, ((ends_pure _ _).mp hr).symm⟩

/-- The function symbol behind a full table is written behind its end. -/
theorem init_symbols_writes_behind (d : elf_desc) (hmany : MAX_SYMBOLS < (functions d).length) (r : Symbols)
    (h : (init_symbols d ⟨fun _ => none, []⟩).Ends r) : MAX_SYMBOLS ∈ r.written := by
  obtain ⟨-, c, hcopied, rfl⟩ := init_symbols_ends d r h
  obtain ⟨places, hwritten, -⟩ := writesInside_sort c.symbols
  rw [hwritten]
  exact List.mem_append_right places ((hcopied.written_iff MAX_SYMBOLS).mpr hmany)

/-- `init_symbols` does its work exactly when the loop can count the symbols and their
functions fit into the table. -/
theorem init_symbols_iff (d : elf_desc) :
    Initialised d ↔ d.count < 2 ^ 32 ∧ (functions d).length ≤ MAX_SYMBOLS := by
  constructor
  · rintro ⟨r, hends, hinside, -, -⟩
    refine ⟨(init_symbols_ends d r hends).1, ?_⟩
    by_contra hmany
    exact absurd (hinside _ (init_symbols_writes_behind d (by omega) r hends)) (Nat.lt_irrefl _)
  · rintro ⟨hcount, hfit⟩
    obtain ⟨c, hends, hcopied⟩ := copy_ends d hcount 0 _ (Nat.zero_le _) (Copied.zero d)
    have hrows : Rows c.symbols.symbol_table (functions d) := by
      refine ⟨hfit, fun k _ => ?_⟩
      rw [hcopied.table_eq]
      rfl
    refine ⟨sort_symbol_table c.symbols, (ends_bind _ _ _).mpr ⟨c, hends, (ends_pure _ _).mpr rfl⟩, ?_, ?_, ?_⟩
    · obtain ⟨places, hwritten, hinside⟩ := writesInside_sort c.symbols
      intro i hi
      rw [hwritten] at hi
      rcases List.mem_append.mp hi with hi | hi
      · exact hinside i hi
      · exact Nat.lt_of_lt_of_le ((hcopied.written_iff i).mp hi) hfit
    · intro i hi hf
      have hmem := (sorted_perm _).mem_iff.mpr (entry_mem_functions hi hf)
      obtain ⟨k, hk, hat⟩ := List.mem_iff_getElem.mp hmem
      have hlt : k < MAX_SYMBOLS := Nat.lt_of_lt_of_le hk hrows.sorted.fits
      exact ⟨k, hlt, by rw [hrows.sorted.at_place k hlt, List.getElem?_eq_getElem hk, hat]⟩
    · intro address
      exact (resolve_address_nearest hrows.sorted (sorted_pairwise _) address).perm (sorted_perm _)

/-- A kernel with 1025 symbols, all of them functions. -/
def many : elf_desc := ⟨fun _ => ⟨1, 2, 0x1000, 16⟩, fun _ => plus, 1025 * 24, 24, by decide⟩

theorem isFunction_many (i : Nat) : isFunction (many.symtab i) = true := by
  change isFunction ⟨1, 2, 0x1000, 16⟩ = true
  decide

theorem length_functionsTo_many (n : Nat) : (functionsTo many n).length = n := by
  induction n with
  | zero => rfl
  | succ n ih =>
    rw [functionsTo_succ, if_pos (isFunction_many n), List.length_append, ih]
    rfl

theorem many_writes_behind :
    (∃ r, (init_symbols many ⟨fun _ => none, []⟩).Ends r ∧ MAX_SYMBOLS ∈ r.written) ∧ ¬ Initialised many := by
  have hmany : (functions many).length = 1025 := length_functionsTo_many 1025
  obtain ⟨c, hends, -⟩ := copy_ends many (by decide) 0 _ (Nat.zero_le _) (Copied.zero many)
  have hinit : (init_symbols many ⟨fun _ => none, []⟩).Ends (sort_symbol_table c.symbols) :=
    (ends_bind _ _ _).mpr ⟨c, hends, (ends_pure _ _).mpr rfl⟩
  have hbehind : ∀ r, (init_symbols many ⟨fun _ => none, []⟩).Ends r → MAX_SYMBOLS ∈ r.written :=
    init_symbols_writes_behind many (by rw [hmany]; decide)
  refine ⟨⟨_, hinit, hbehind _ hinit⟩, ?_⟩
  rintro ⟨r, hends, hinside, -⟩
  exact absurd (hinside _ (hbehind r hends)) (Nat.lt_irrefl _)

end SlayerOS.Resolver
