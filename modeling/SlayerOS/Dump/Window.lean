import SlayerOS.Dump.Passes

/-!
# The instructions that are listed

Seven instructions are listed. Near the start of the symbol they are its first ones, and
further on they begin three instructions before the last one that the first pass has noted.
The threshold counts bytes, and the list counts instructions.
-/

open SlayerOS.Fuel SlayerOS.Fuel.Comp SlayerOS.Text SlayerOS.Resolver SlayerOS.Mangle

namespace SlayerOS.Dump

variable {m : Machine} {entry : symbol_entry} {instructions : List ZydisDisassembledInstruction} {k : Nat}
  {disas_address : BitVec 64}

/-- The address and the text of an instruction that is printed. -/
def Line.listed : Line → Option (BitVec 64 × CString)
  | .instruction _ runtime_address text _ => some (runtime_address, text)
  | _ => none

def Line.marked : Line → Option (BitVec 64 × CString)
  | .instruction true runtime_address text _ => some (runtime_address, text)
  | _ => none

/-- The addresses and the texts of all the instructions of the symbol. -/
def texts (entry : symbol_entry) (instructions : List ZydisDisassembledInstruction) : List (BitVec 64 × CString) :=
  instructions.mapIdx fun k i => (address_of entry instructions k, i.text)

/-- The address to disassemble: 0 stands for the address itself. -/
def target_of (address disas_address : BitVec 64) : BitVec 64 := if disas_address = 0 then address else disas_address

/-- The frame that the backtrace starts from: 0 stands for the frame of the dump. -/
def frame_of (m : Machine) (rbp : BitVec 64) : BitVec 64 := if rbp = 0 then m.frame_address else rbp

/-- The dump lists `window`, and returns 0. -/
def Lists (m : Machine) (address rbp disas_address : BitVec 64) (window : List (BitVec 64 × CString)) : Prop :=
  ∃ lines, (dump_at_addr m address rbp disas_address).Ends (0, lines) ∧ lines.filterMap Line.listed = window

/-- The one line that the dump marks is the instruction `k`. -/
def Marks (m : Machine) (address rbp disas_address : BitVec 64) (entry : symbol_entry)
    (instructions : List ZydisDisassembledInstruction) (k : Nat) : Prop :=
  ∃ lines, (dump_at_addr m address rbp disas_address).Ends (0, lines) ∧
    (lines.filterMap Line.marked).map some = [(texts entry instructions)[k]?]

/-! ## The listing -/

/-- The instructions that the listing shows. -/
def window (entry : symbol_entry) (instructions : List ZydisDisassembledInstruction) (k : Nat)
    (disas_address : BitVec 64) : List (BitVec 64 × ZydisDisassembledInstruction) :=
  if disas_address.toNat - entry.address.toNat ≤ 96 then (placed entry instructions).take 7
  else ((placed entry instructions).drop (recorded entry instructions k disas_address - 4)).take 7

/-- Behind the threshold at least seven instructions are noted, as none is longer than 15
bytes. -/
theorem seven_le_recorded (h : Tiled m entry instructions) (hk : Contains entry instructions k disas_address)
    (hfar : 96 < disas_address.toNat - entry.address.toNat) : 7 ≤ recorded entry instructions k disas_address := by
  obtain ⟨hkn, -, hhigh⟩ := hk
  have hle := h.offset_le_mul (k + 1)
  have hstop : k ≤ stop entry instructions k disas_address := by
    unfold stop
    split <;> omega
  unfold recorded
  omega

theorem toNat_sub_entry (hk : Contains entry instructions k disas_address) :
    (disas_address - entry.address).toNat = disas_address.toNat - entry.address.toNat := by
  obtain ⟨-, hlow, -⟩ := hk
  exact BitVec.toNat_sub_of_le (by rw [BitVec.le_def]; omega)

theorem list_ends_iff (h : Tiled m entry instructions) {j : Nat} (hj : j ≤ instructions.length) (lines : List Line) :
    (∃ t, (list m entry disas_address (cursor_at entry instructions j)).Ends t ∧ t.lines = lines) ↔
      ShownAs m disas_address (((placed entry instructions).drop j).take 7) lines := by
  unfold list
  rw [list_from h 6 j hj 0 rfl [] lines]
  simp only [List.nil_append, exists_eq_right']

theorem disassembly_ends_iff (h : Tiled m entry instructions) (hk : Contains entry instructions k disas_address)
    (lines : List Line) :
    (disassembly m entry disas_address).Ends lines ↔
      (96 < disas_address.toNat - entry.address.toNat → recorded entry instructions k disas_address < 2 ^ 31) ∧
        ShownAs m disas_address (window entry instructions k disas_address) lines := by
  have hthreshold : disas_address - entry.address ≤ SYMBOL_START_THRESHOLD ↔
      disas_address.toNat - entry.address.toNat ≤ 96 := by
    rw [BitVec.le_def, toNat_sub_entry hk]
    exact Iff.rfl
  unfold disassembly window
  by_cases hnear : disas_address.toNat - entry.address.toNat ≤ 96
  · have hlist := @list_ends_iff m entry instructions disas_address h 0 (Nat.zero_le _) lines
    rw [← start_eq entry instructions] at hlist
    rw [if_pos (hthreshold.mpr hnear), if_pos hnear, and_iff_right (fun hfar => absurd hfar (Nat.not_lt.mpr hnear))]
    simp only [ends_bind, ends_pure, exists_eq_left']
    exact hlist
  · have hfar := Nat.lt_of_not_le hnear
    have hseven := seven_le_recorded h hk hfar
    have hcount : recorded entry instructions k disas_address ≤ instructions.length := Nat.min_le_right _ _
    have htarget : recorded entry instructions k disas_address - 4 < instructions.length := by omega
    obtain ⟨hscan, hnever⟩ := scan_from h hk (min (stop entry instructions k disas_address) instructions.length) 0
      (Nat.zero_add _) (by decide) ⟨Cursor.start entry, m.stack, 0⟩ (start_eq entry instructions)
      ⟨rfl, fun j hj => absurd hj (Nat.not_lt_zero j)⟩
    rw [if_neg (fun hle => hnear (hthreshold.mp hle)), if_neg hnear, ← list_ends_iff h (Nat.le_of_lt htarget)]
    simp only [ends_bind, ends_pure]
    -- The second pass finds the address that the first one picks.
    have hseek : ∀ s, Scanned entry instructions (recorded entry instructions k disas_address) s →
        (seek m entry (start_address s)).Ends
          (cursor_at entry instructions (recorded entry instructions k disas_address - 4)) := by
      intro s hscanned
      rw [start_address_eq hscanned (by omega), seek, start_eq entry instructions]
      exact seek_from h htarget (recorded entry instructions k disas_address - 4) 0 (by omega)
    constructor
    · rintro ⟨s, hs, c, hc, hlist⟩
      have hfew : recorded entry instructions k disas_address < 2 ^ 31 := by
        by_contra hmany
        exact hnever (by omega) s hs
      obtain ⟨s', hs', hscanned⟩ := hscan hfew
      obtain rfl := hs.unique hs'
      obtain rfl := hc.unique (hseek s hscanned)
      exact ⟨fun _ => hfew, hlist⟩
    · rintro ⟨hfew, hlist⟩
      obtain ⟨s, hs, hscanned⟩ := hscan (hfew hfar)
      exact ⟨s, hs, _, hseek s hscanned, hlist⟩

/-! ## The dump -/

theorem backtrace_listed (rbp : BitVec 64) (lines : List Line) (h : (backtrace m rbp).Ends lines) :
    ∀ l ∈ lines, l.listed = none := by
  obtain ⟨shown, hshown, rfl⟩ := (backtrace_from_ends 16 0 rbp lines).mp h
  intro l hl
  obtain ⟨c, -, hc⟩ := endsAll_mem hshown (some l) (List.reduceOption_mem_iff.mp hl)
  rcases frame_line_shows hc with ⟨_, _, _, rfl⟩ | rfl <;> rfl

theorem marked_of_listed {l : Line} (h : l.listed = none) : l.marked = none := by
  cases l <;> first | rfl | cases h

theorem dump_at_addr_ends {address : BitVec 64} {exact : Bool}
    (hresolve : resolve_address m.symbol_table address = ⟨some entry, exact⟩) (rbp disas_address : BitVec 64)
    (lines : List Line) :
    (dump_at_addr m address rbp disas_address).Ends (0, lines) ↔
      ∃ fn_repr frames instructions, (m.search_repr .function address ⟨some entry, exact⟩).Ends fn_repr ∧
        (backtrace m (frame_of m rbp)).Ends frames ∧
        (disassembly m entry (target_of address disas_address)).Ends instructions ∧
        lines = dumped m address fn_repr frames instructions := by
  unfold dump_at_addr frame_of target_of
  rw [hresolve]
  simp only [ends_bind, ends_pure, Prod.mk.injEq, true_and, @eq_comm _ lines]
  constructor
  · rintro ⟨fn_repr, hfn, frames, hframes, shown, hshown, heq⟩
    exact ⟨fn_repr, frames, shown, hfn, hframes, hshown, heq⟩
  · rintro ⟨fn_repr, frames, shown, hfn, hframes, hshown, heq⟩
    exact ⟨fn_repr, hfn, frames, hframes, shown, hshown, heq⟩

theorem dump_at_addr_result {address : BitVec 64} {exact : Bool}
    (hresolve : resolve_address m.symbol_table address = ⟨some entry, exact⟩) (rbp disas_address : BitVec 64)
    {d : Int × List Line} (h : (dump_at_addr m address rbp disas_address).Ends d) : d = (0, d.2) := by
  unfold dump_at_addr at h
  rw [hresolve] at h
  simp only [ends_bind, ends_pure] at h
  obtain ⟨_, -, _, -, _, -, rfl⟩ := h
  rfl

theorem dumped_filterMap {address : BitVec 64} {fn_repr : List Byte} {frames shown : List Line}
    (hframes : ∀ l ∈ frames, l.listed = none) {f : Line → Option (BitVec 64 × CString)}
    (hf : ∀ l, l.listed = none → f l = none) : (dumped m address fn_repr frames shown).filterMap f = shown.filterMap f := by
  have hsource : (source_line m address).filterMap f = [] := by
    unfold source_line
    cases m.addr2line_lookup address with
    | none => rfl
    | some a2l_res => simp [hf (.source a2l_res.file a2l_res.line) rfl]
  have hnone : frames.filterMap f = [] := List.filterMap_eq_nil_iff.mpr fun l hl => hf l (hframes l hl)
  unfold dumped
  simp only [List.filterMap_append, hsource, hnone, List.filterMap_cons, hf .border rfl, hf (.function fn_repr) rfl,
    hf .blank rfl, hf .backtrace rfl, List.filterMap_nil, List.nil_append, List.append_nil]

/-- The dump ends, and shows of its instructions what there is to show of the window, exactly when
the count does not overflow and all the names are printed. -/
theorem dump_shows_iff (h : Tiled m entry instructions) {address : BitVec 64} {exact : Bool}
    (hresolve : resolve_address m.symbol_table address = ⟨some entry, exact⟩) (rbp disas_address : BitVec 64)
    (hk : Contains entry instructions k (target_of address disas_address))
    {f : Line → Option (BitVec 64 × CString)} (hf : ∀ l, l.listed = none → f l = none)
    {g : BitVec 64 × ZydisDisassembledInstruction → Option (BitVec 64 × CString)}
    (hfg : ∀ p line, (instruction_line m (target_of address disas_address) p.1 p.2).Ends line → f line = g p)
    (P : List (BitVec 64 × CString) → Prop) :
    (∃ lines, (dump_at_addr m address rbp disas_address).Ends (0, lines) ∧ P (lines.filterMap f)) ↔
      (96 < (target_of address disas_address).toNat - entry.address.toNat →
        recorded entry instructions k (target_of address disas_address) < 2 ^ 31) ∧
      AllNamed m address (frame_of m rbp) (window entry instructions k (target_of address disas_address)) ∧
      P ((window entry instructions k (target_of address disas_address)).filterMap g) := by
  have hsame : ∀ ps shown, ShownAs m (target_of address disas_address) ps shown →
      shown.filterMap f = ps.filterMap g := by
    intro ps shown hshown
    induction hshown with
    | nil => rfl
    | cons hline _ ih => rw [List.filterMap_cons, List.filterMap_cons, hfg _ _ hline, ih]
  have htargets := endsAll_exists_iff
    (fun p : BitVec 64 × ZydisDisassembledInstruction => instruction_line m (target_of address disas_address) p.1 p.2)
    (window entry instructions k (target_of address disas_address))
  simp only [instruction_line_ends_iff] at htargets
  simp only [dump_at_addr_ends hresolve, disassembly_ends_iff h hk]
  constructor
  · rintro ⟨_, ⟨fn_repr, frames, shown, hfn, hframes, ⟨hfew, hshown⟩, rfl⟩, hP⟩
    rw [dumped_filterMap (backtrace_listed _ _ hframes) hf, hsame _ shown hshown] at hP
    exact ⟨hfew, ⟨⟨fn_repr, hresolve ▸ hfn⟩, (backtrace_ends_iff _).mp ⟨frames, hframes⟩,
      htargets.mp ⟨shown, hshown⟩⟩, hP⟩
  · rintro ⟨hfew, ⟨⟨fn_repr, hfn⟩, hframes, hnamed⟩, hP⟩
    obtain ⟨frames, hframes⟩ := (backtrace_ends_iff _).mpr hframes
    obtain ⟨shown, hshown⟩ := htargets.mpr hnamed
    refine ⟨_, ⟨fn_repr, frames, shown, hresolve ▸ hfn, hframes, ⟨hfew, hshown⟩, rfl⟩, ?_⟩
    rwa [dumped_filterMap (backtrace_listed _ _ hframes) hf, hsame _ shown hshown]

theorem dump_ends_iff (h : Tiled m entry instructions) {address : BitVec 64} {exact : Bool}
    (hresolve : resolve_address m.symbol_table address = ⟨some entry, exact⟩) (rbp disas_address : BitVec 64)
    (hk : Contains entry instructions k (target_of address disas_address)) :
    (∃ lines, (dump_at_addr m address rbp disas_address).Ends (0, lines)) ↔
      (96 < (target_of address disas_address).toNat - entry.address.toNat →
        recorded entry instructions k (target_of address disas_address) < 2 ^ 31) ∧
      AllNamed m address (frame_of m rbp) (window entry instructions k (target_of address disas_address)) := by
  have hshows := dump_shows_iff h hresolve rbp disas_address hk (f := fun _ => none) (fun _ _ => rfl)
    (g := fun _ => none) (fun _ _ _ => rfl) (fun _ => True)
  simpa only [and_true] using hshows

/-! ## The window -/

theorem instruction_line_listed (p : BitVec 64 × ZydisDisassembledInstruction) (line : Line)
    (h : (instruction_line m disas_address p.1 p.2).Ends line) : line.listed = some (p.1, p.2.text) := by
  obtain ⟨_, -, rfl⟩ := (instruction_line_ends _ _ _ _).mp h
  rfl

theorem texts_eq (entry : symbol_entry) (instructions : List ZydisDisassembledInstruction) :
    texts entry instructions = (placed entry instructions).map fun p => (p.1, p.2.text) := by
  apply List.ext_getElem?
  intro i
  unfold texts placed
  rw [List.getElem?_map, List.getElem?_mapIdx, List.getElem?_mapIdx]
  cases instructions[i]? <;> rfl

/-- At the start of an instruction far from the start of the symbol, the dump lists the three
instructions in front of it, the instruction, and the three behind it, exactly when the number
of the instruction is one that an `int` can count to and all the names are printed. -/
theorem dump_lists_iff (h : Tiled m entry instructions) {address : BitVec 64} {exact : Bool}
    (hresolve : resolve_address m.symbol_table address = ⟨some entry, exact⟩) (rbp : BitVec 64)
    (hk : k < instructions.length) (hfar : 96 < offset_of instructions k)
    (htarget : target_of address disas_address = address_of entry instructions k) :
    Lists m address rbp disas_address (((texts entry instructions).drop (k - 3)).take 7) ↔
      k + 1 < 2 ^ 31 ∧ AllNamed m address (frame_of m rbp) (((placed entry instructions).drop (k - 3)).take 7) := by
  have hstart := h.toNat_address hk
  have hcontains : Contains entry instructions k (address_of entry instructions k) := by
    have := h.offset_lt (show k < k + 1 by omega) hk
    exact ⟨hk, by omega, by omega⟩
  have hrecorded : recorded entry instructions k (address_of entry instructions k) = k + 1 := by
    unfold recorded stop
    rw [if_pos rfl]
    omega
  have hwindow : window entry instructions k (address_of entry instructions k) =
      ((placed entry instructions).drop (k - 3)).take 7 := by
    unfold window
    rw [if_neg (by omega), hrecorded, show k + 1 - 4 = k - 3 by omega]
  have hshows := dump_shows_iff h hresolve rbp disas_address (htarget ▸ hcontains) (fun _ hl => hl)
    instruction_line_listed (fun shown => shown = ((texts entry instructions).drop (k - 3)).take 7)
  have hlisted : (((placed entry instructions).drop (k - 3)).take 7).filterMap (fun p => some (p.1, p.2.text)) =
      ((texts entry instructions).drop (k - 3)).take 7 := by
    rw [texts_eq, ← List.map_drop, ← List.map_take]
    exact List.filterMap_eq_map ▸ rfl
  rw [htarget, hwindow, hrecorded, hlisted] at hshows
  unfold Lists
  rw [hshows]
  constructor
  · rintro ⟨hfew, hnamed, -⟩
    exact ⟨hfew (by omega), hnamed⟩
  · rintro ⟨hfew, hnamed⟩
    exact ⟨fun _ => hfew, hnamed, rfl⟩

/-! ## The mark -/

/-- The test of the third pass, for the instruction `i`. The end of the last instruction may be
the end of the address space. -/
theorem highlighted_iff (h : Tiled m entry instructions) {i : Nat} (hi : i < instructions.length) :
    (disas_address ≥ address_of entry instructions i ∧
        disas_address < address_of entry instructions i + instructions[i].length.setWidth 64) ↔
      Contains entry instructions i disas_address ∧
        entry.address.toNat + offset_of instructions (i + 1) < 2 ^ 64 := by
  have hstart := h.toNat_address hi
  have hfits := h.fits
  have hle := h.offset_le (i + 1)
  have hend : (address_of entry instructions (i + 1)).toNat =
      (entry.address.toNat + offset_of instructions (i + 1)) % 2 ^ 64 := by
    unfold address_of
    rw [BitVec.toNat_add, BitVec.toNat_ofNat, Nat.add_mod_mod]
  unfold Contains
  rw [h.address_succ hi, ge_iff_le, BitVec.le_def, BitVec.lt_def, hstart, hend]
  omega

/-- What the third pass marks. -/
def mark (disas_address : BitVec 64) (p : BitVec 64 × ZydisDisassembledInstruction) : Option (BitVec 64 × CString) :=
  if disas_address ≥ p.1 ∧ disas_address < p.1 + p.2.length.setWidth 64 then some (p.1, p.2.text) else none

theorem instruction_line_marked (p : BitVec 64 × ZydisDisassembledInstruction) (line : Line)
    (h : (instruction_line m disas_address p.1 p.2).Ends line) : line.marked = mark disas_address p := by
  obtain ⟨_, -, rfl⟩ := (instruction_line_ends _ _ _ _).mp h
  unfold mark
  by_cases hlow : disas_address ≥ p.1
  · by_cases hhigh : disas_address < p.1 + p.2.length.setWidth 64
    · simp [Line.marked, hlow, hhigh]
    · simp [Line.marked, hhigh]
  · simp [Line.marked, hlow]

theorem mark_iff (h : Tiled m entry instructions) {i : Nat} (hi : i < instructions.length) (disas_address : BitVec 64) :
    mark disas_address (address_of entry instructions i, instructions[i]) =
      if Contains entry instructions i disas_address ∧ entry.address.toNat + offset_of instructions (i + 1) < 2 ^ 64
      then some (address_of entry instructions i, instructions[i].text) else none :=
  if_congr (highlighted_iff h hi) rfl rfl

theorem filterMap_single {α β : Type} {f : α → Option β} {l : List α} {p : Nat}
    (hothers : ∀ q x, l[q]? = some x → q ≠ p → f x = none) : l.filterMap f = (l[p]?.bind f).toList := by
  induction l generalizing p with
  | nil => rfl
  | cons x xs ih =>
    cases p with
    | zero =>
      have hrest : xs.filterMap f = [] := by
        refine List.filterMap_eq_nil_iff.mpr fun y hy => ?_
        obtain ⟨q, hq⟩ := List.mem_iff_getElem?.mp hy
        exact hothers (q + 1) y hq (Nat.succ_ne_zero q)
      rw [List.filterMap_cons, hrest]
      change (match f x with | none => [] | some b => [b]) = (f x).toList
      cases f x <;> rfl
    | succ p =>
      rw [List.filterMap_cons, hothers 0 x rfl (Nat.succ_ne_zero p).symm]
      exact ih fun q y hq hne => hothers (q + 1) y hq (fun heq => hne (Nat.succ.inj heq))

theorem mark_window (h : Tiled m entry instructions) (hk : Contains entry instructions k disas_address) {a : Nat}
    (ha : a ≤ k) :
    ((((placed entry instructions).drop a).take 7).filterMap (mark disas_address)).map some =
        [(texts entry instructions)[k]?] ↔
      k < a + 7 ∧ entry.address.toNat + offset_of instructions (k + 1) < 2 ^ 64 := by
  have hkn := hk.1
  have hplaced : ∀ i (hi : i < instructions.length),
      (placed entry instructions)[i]? = some (address_of entry instructions i, instructions[i]) := by
    intro i hi
    unfold placed
    rw [List.getElem?_mapIdx, List.getElem?_eq_getElem hi]
    rfl
  have htext : (texts entry instructions)[k]? = some (address_of entry instructions k, instructions[k].text) := by
    rw [texts_eq, List.getElem?_map, hplaced k hkn]
    rfl
  have hsingle := @filterMap_single _ _ (mark disas_address) (((placed entry instructions).drop a).take 7) (k - a) (by
      intro q x hq hne
      rw [List.getElem?_take, List.getElem?_drop] at hq
      split at hq
      · have hlt : a + q < instructions.length := by
          have := (List.getElem?_eq_some_iff.mp hq).1
          rwa [placed, List.length_mapIdx] at this
        obtain rfl := Option.some.inj ((hplaced (a + q) hlt).symm.trans hq)
        rw [mark_iff h hlt]
        refine if_neg fun hboth => ?_
        have := Contains.unique h hboth.1 hk
        omega
      · cases hq)
  rw [hsingle, htext, List.getElem?_take, List.getElem?_drop, show a + (k - a) = k by omega, hplaced k hkn]
  by_cases hwindow : k < a + 7
  · rw [if_pos (by omega), Option.bind_some, mark_iff h hkn]
    by_cases hroom : entry.address.toNat + offset_of instructions (k + 1) < 2 ^ 64
    · rw [if_pos ⟨hk, hroom⟩]
      exact iff_of_true rfl ⟨hwindow, hroom⟩
    · rw [if_neg fun hboth => hroom hboth.2]
      exact iff_of_false (by simp) fun hboth => hroom hboth.2
  · rw [if_neg (by omega)]
    exact iff_of_false (by simp) fun hboth => hwindow hboth.1

/-- What the window has to reach: the instruction is one of the first seven near the start of
the symbol, and further on the count of the first pass does not overflow. -/
def Reached (entry : symbol_entry) (instructions : List ZydisDisassembledInstruction) (k : Nat)
    (disas_address : BitVec 64) : Prop :=
  if disas_address.toNat - entry.address.toNat ≤ 96 then k < 7
  else recorded entry instructions k disas_address < 2 ^ 31

theorem marks_iff (h : Tiled m entry instructions) {address : BitVec 64} {exact : Bool}
    (hresolve : resolve_address m.symbol_table address = ⟨some entry, exact⟩) (rbp disas_address : BitVec 64)
    (hk : Contains entry instructions k (target_of address disas_address)) :
    Marks m address rbp disas_address entry instructions k ↔
      Reached entry instructions k (target_of address disas_address) ∧
        entry.address.toNat + offset_of instructions (k + 1) < 2 ^ 64 ∧
        AllNamed m address (frame_of m rbp) (window entry instructions k (target_of address disas_address)) := by
  have hshows := dump_shows_iff h hresolve rbp disas_address hk (fun _ => marked_of_listed) instruction_line_marked
    (fun shown => shown.map some = [(texts entry instructions)[k]?])
  have hmarks : ((window entry instructions k (target_of address disas_address)).filterMap
      (mark (target_of address disas_address))).map some = [(texts entry instructions)[k]?] ↔
        ((target_of address disas_address).toNat - entry.address.toNat ≤ 96 → k < 7) ∧
          entry.address.toNat + offset_of instructions (k + 1) < 2 ^ 64 := by
    unfold window
    by_cases hnear : (target_of address disas_address).toNat - entry.address.toNat ≤ 96
    · have hwindow := mark_window h hk (Nat.zero_le k)
      rw [List.drop_zero, Nat.zero_add] at hwindow
      rw [if_pos hnear, hwindow]
      exact and_congr_left fun _ => ⟨fun hlt _ => hlt, fun hlt => hlt hnear⟩
    · -- The window starts three or two instructions in front of `k`, and ends behind it.
      have hseven := seven_le_recorded h hk (by omega)
      have hbounds : recorded entry instructions k (target_of address disas_address) ≤ k + 2 ∧
          k + 1 ≤ recorded entry instructions k (target_of address disas_address) := by
        have hkn := hk.1
        unfold recorded stop
        split <;> omega
      rw [if_neg hnear, mark_window h hk
        (show recorded entry instructions k (target_of address disas_address) - 4 ≤ k by omega)]
      exact and_congr_left fun _ => iff_of_true (by omega) fun hle => absurd hle hnear
  unfold Marks Reached
  rw [hshows, hmarks]
  by_cases hnear : (target_of address disas_address).toNat - entry.address.toNat ≤ 96
  · rw [if_pos hnear]
    constructor
    · rintro ⟨-, hnamed, hseven, hroom⟩
      exact ⟨hseven hnear, hroom, hnamed⟩
    · rintro ⟨hseven, hroom, hnamed⟩
      exact ⟨fun hfar => absurd hfar (Nat.not_lt.mpr hnear), hnamed, fun _ => hseven, hroom⟩
  · rw [if_neg hnear]
    constructor
    · rintro ⟨hfew, hnamed, -, hroom⟩
      exact ⟨hfew (Nat.lt_of_not_le hnear), hroom, hnamed⟩
    · rintro ⟨hfew, hroom, hnamed⟩
      exact ⟨fun _ => hfew, hnamed, fun hle => absurd hle hnear, hroom⟩

/-- For every address in the symbol: the dump marks the instruction of the address, and no
other, exactly when the window reaches it, it does not end where the address space ends, and
all the names are printed. -/
theorem dump_marks_iff (h : Tiled m entry instructions) {address : BitVec 64} {exact : Bool}
    (hresolve : resolve_address m.symbol_table address = ⟨some entry, exact⟩) (rbp disas_address : BitVec 64)
    (hlow : entry.address.toNat ≤ (target_of address disas_address).toNat)
    (hhigh : (target_of address disas_address).toNat < entry.address.toNat + entry.size) :
    ∃ k, Contains entry instructions k (target_of address disas_address) ∧
      (Marks m address rbp disas_address entry instructions k ↔
        Reached entry instructions k (target_of address disas_address) ∧
          entry.address.toNat + offset_of instructions (k + 1) < 2 ^ 64 ∧
          AllNamed m address (frame_of m rbp) (window entry instructions k (target_of address disas_address))) := by
  obtain ⟨k, hk⟩ := h.exists_contains hlow hhigh
  exact ⟨k, hk, marks_iff h hresolve rbp disas_address hk⟩

/-! ## Symbols of one-byte instructions -/

def nop : ZydisDisassembledInstruction := ⟨1, .other, [], ⟨text ['n', 'o', 'p'], by decide⟩⟩

/-- A symbol of `n` one-byte instructions, and nothing else. -/
def nops_entry (n : Nat) : symbol_entry := ⟨0x1000, plus, n⟩

def nops_machine (n : Nat) : Machine where
  symbol_table i := if i = 0 then some (nops_entry n) else none
  atoi := decimal_atoi
  pointer_text _ := plus
  arrays _ _ _ := 0
  addr2line_lookup _ := none
  ZydisDisassembleIntel _ _ length := if length = 0 then none else some nop
  memory _ := 0
  frame_address := 0x8000
  stack _ := 0

theorem offset_of_nops (n k : Nat) : offset_of (List.replicate n nop) k = min k n := by
  simp [offset_of, nop]

theorem nops_tiled (n : Nat) (hn : n ≤ 2 ^ 32) : Tiled (nops_machine n) (nops_entry n) (List.replicate n nop) := by
  refine ⟨?_, ?_, ?_, ?_, ?_, ?_⟩
  · intro i hi
    rw [List.eq_of_mem_replicate hi]
    decide
  · rw [List.length_replicate, offset_of_nops]
    exact Nat.min_self n
  · change 0x1000 + n ≤ 2 ^ 64
    omega
  · change n < 2 ^ 64
    omega
  · intro k hk
    rw [List.length_replicate] at hk
    rw [offset_of_nops, List.getElem_replicate]
    refine if_neg fun hzero => ?_
    have hnat := congrArg BitVec.toNat hzero
    change (n - min k n) % 2 ^ 64 = 0 at hnat
    omega
  · rfl

theorem nops_resolve (n : Nat) :
    resolve_address (nops_machine n).symbol_table 0x1000 = ⟨some (nops_entry n), true⟩ := by
  rfl

theorem nops_address (n k : Nat) (hk : k ≤ n) :
    address_of (nops_entry n) (List.replicate n nop) k = 0x1000 + BitVec.ofNat 64 k := by
  unfold address_of
  rw [offset_of_nops, Nat.min_eq_left hk]
  rfl

theorem nops_contains (n k : Nat) (hk : k < n) (hn : n ≤ 2 ^ 32) :
    Contains (nops_entry n) (List.replicate n nop) k (address_of (nops_entry n) (List.replicate n nop) k) := by
  have hlt : k < (List.replicate n nop).length := by rwa [List.length_replicate]
  have hnext := (nops_tiled n hn).offset_lt (show k < k + 1 by omega) hlt
  have hstart := (nops_tiled n hn).toNat_address hlt
  exact ⟨hlt, by omega, by omega⟩

/-- The eighth instruction of a symbol is near its start, and only seven are listed. -/
theorem eighth_instruction_unmarked :
    Tiled (nops_machine 8) (nops_entry 8) (List.replicate 8 nop) ∧
    resolve_address (nops_machine 8).symbol_table 0x1000 = ⟨some (nops_entry 8), true⟩ ∧
    Contains (nops_entry 8) (List.replicate 8 nop) 7 0x1007 ∧
    ¬ Marks (nops_machine 8) 0x1000 0 0x1007 (nops_entry 8) (List.replicate 8 nop) 7 := by
  have hcontains : Contains (nops_entry 8) (List.replicate 8 nop) 7 0x1007 := nops_contains 8 7 (by decide) (by decide)
  refine ⟨nops_tiled 8 (by decide), nops_resolve 8, hcontains, ?_⟩
  intro hmarks
  have hreached := ((marks_iff (nops_tiled 8 (by decide)) (nops_resolve 8) 0 0x1007 hcontains).mp hmarks).1
  revert hreached
  unfold Reached
  decide

theorem nops_named (n : Nat) (caller : Caller) (address : BitVec 64) (exact : Bool)
    (hresolve : resolve_address (nops_machine n).symbol_table address = ⟨some (nops_entry n), exact⟩) :
    Named (nops_machine n) caller address := by
  have hheld : (held (nops_machine n).pointer_text address (nops_entry n) exact).chars =
      if exact then plus.chars else plus.chars ++ plus.chars ++ plus.chars := by
    cases exact <;> rfl
  have hlength : (held (nops_machine n).pointer_text address (nops_entry n) exact).chars.length ≤ 9 := by
    rw [hheld]
    cases exact <;> decide
  have hplain : is_mangled (held (nops_machine n).pointer_text address (nops_entry n) exact) = false := by
    cases exact <;> rfl
  refine named_of_fits hresolve ((plain_ends hplain _ _).mpr rfl) ⟨by omega, fun _ => ⟨_, le_refl _, by omega, rfl⟩,
    fun _ _ => ⟨show plus.chars.length < 128 by decide, rfl⟩, fun hm => ?_, fun hm => ?_⟩
  · rw [hplain] at hm
    cases hm
  · rw [hplain] at hm
    cases hm

theorem nops_all_named (n : Nat) (rbp : BitVec 64) (window : List (BitVec 64 × ZydisDisassembledInstruction))
    (hnops : ∀ p ∈ window, p.2 = nop) : AllNamed (nops_machine n) 0x1000 rbp window := by
  refine ⟨nops_named n .function 0x1000 true (nops_resolve n), ?_, ?_⟩
  · have hnone : return_addresses (nops_machine n) 16 rbp = [] := by
      unfold return_addresses
      exact (if_congr Iff.rfl rfl (if_pos rfl)).trans (ite_self _)
    rw [hnone]
    simp
  · rintro ⟨runtime_address, instruction⟩ hp target htarget
    obtain rfl := hnops _ hp
    cases htarget

theorem mem_placed_nops {n : Nat} {p : BitVec 64 × ZydisDisassembledInstruction}
    (hp : p ∈ placed (nops_entry n) (List.replicate n nop)) : p.2 = nop := by
  obtain ⟨i, hi, rfl⟩ := List.mem_mapIdx.mp hp
  exact List.getElem_replicate _

theorem dump_marks_iff_third :
    ∃ k, Contains (nops_entry 8) (List.replicate 8 nop) k 0x1002 ∧
      Marks (nops_machine 8) 0x1000 0 0x1002 (nops_entry 8) (List.replicate 8 nop) k := by
  obtain ⟨k, hk, hiff⟩ := dump_marks_iff (nops_tiled 8 (by decide)) (nops_resolve 8) 0 0x1002 (by decide) (by decide)
  have hsecond : Contains (nops_entry 8) (List.replicate 8 nop) 2 0x1002 := nops_contains 8 2 (by decide) (by decide)
  obtain rfl := Contains.unique (nops_tiled 8 (by decide)) hk hsecond
  refine ⟨2, hsecond, hiff.mpr ⟨show (2 : Nat) < 7 by decide, by rw [offset_of_nops]; decide, ?_⟩⟩
  exact nops_all_named 8 _ _ fun p hp => mem_placed_nops (List.mem_of_mem_take hp)

theorem nops_recorded (n k : Nat) (hk : k < n) :
    recorded (nops_entry n) (List.replicate n nop) k (address_of (nops_entry n) (List.replicate n nop) k) = k + 1 := by
  unfold recorded stop
  rw [if_pos rfl, List.length_replicate]
  omega

/-- Behind 2^31 instructions the count of the first pass overflows. -/
theorem nops_overflow (n k : Nat) (hk : k < n) (hn : n ≤ 2 ^ 32) (hmany : 2 ^ 31 ≤ k + 1)
    (window : List (BitVec 64 × CString)) :
    ¬ Lists (nops_machine n) 0x1000 0 (0x1000 + BitVec.ofNat 64 k) window := by
  rintro ⟨lines, hends, -⟩
  have hcontains := nops_contains n k hk hn
  have hrecorded := nops_recorded n k hk
  rw [nops_address n k (Nat.le_of_lt hk)] at hcontains hrecorded
  have hne : (0x1000 : BitVec 64) + BitVec.ofNat 64 k ≠ 0 := by
    intro hzero
    have hnat := congrArg BitVec.toNat hzero
    rw [BitVec.toNat_add, BitVec.toNat_ofNat] at hnat
    simp at hnat
    omega
  have htarget : target_of 0x1000 ((0x1000 : BitVec 64) + BitVec.ofNat 64 k) = 0x1000 + BitVec.ofNat 64 k := if_neg hne
  have hfar : 96 < ((0x1000 : BitVec 64) + BitVec.ofNat 64 k).toNat - (nops_entry n).address.toNat := by
    change 96 < _ - 0x1000
    rw [BitVec.toNat_add, BitVec.toNat_ofNat]
    simp
    omega
  obtain ⟨_, _, instructions, -, -, hdisassembly, -⟩ := (dump_at_addr_ends (nops_resolve n) 0 _ lines).mp hends
  rw [htarget, disassembly_ends_iff (nops_tiled n hn) hcontains] at hdisassembly
  have hfew := hdisassembly.1 hfar
  omega

/-- The last of 2^31 instructions of one byte. -/
theorem overflow_lists_nothing :
    Tiled (nops_machine (2 ^ 31)) (nops_entry (2 ^ 31)) (List.replicate (2 ^ 31) nop) ∧
    resolve_address (nops_machine (2 ^ 31)).symbol_table 0x1000 = ⟨some (nops_entry (2 ^ 31)), true⟩ ∧
    address_of (nops_entry (2 ^ 31)) (List.replicate (2 ^ 31) nop) (2 ^ 31 - 1) =
      0x1000 + BitVec.ofNat 64 (2 ^ 31 - 1) ∧
    ∀ window, ¬ Lists (nops_machine (2 ^ 31)) 0x1000 0 (0x1000 + BitVec.ofNat 64 (2 ^ 31 - 1)) window :=
  ⟨nops_tiled (2 ^ 31) (by decide), nops_resolve (2 ^ 31), nops_address (2 ^ 31) (2 ^ 31 - 1) (by decide),
    nops_overflow (2 ^ 31) (2 ^ 31 - 1) (by decide) (by decide) (by decide)⟩

theorem dump_lists_iff_hundredth :
    Lists (nops_machine 200) 0x1000 0 0x1064
      (((texts (nops_entry 200) (List.replicate 200 nop)).drop (100 - 3)).take 7) :=
  (dump_lists_iff (nops_tiled 200 (by decide)) (nops_resolve 200) 0 (by rw [List.length_replicate]; decide)
    (by rw [offset_of_nops]; decide) (by rw [nops_address _ _ (by decide)]; decide)).mpr
      ⟨by decide, nops_all_named 200 _ _ fun _ hp => mem_placed_nops (List.mem_of_mem_drop (List.mem_of_mem_take hp))⟩

end SlayerOS.Dump
