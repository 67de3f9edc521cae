import SlayerOS.Mangle.Render
import SlayerOS.Resolver.Safety
import SlayerOS.Resolver.Symbols

/-!
# The function of an address

An address inside a function of the kernel is printed as that function, with the offset behind it.
The functions do not overlap, and no two of them start at one address.
-/

open SlayerOS.Bytes SlayerOS.Fuel SlayerOS.Fuel.Comp SlayerOS.Text SlayerOS.Mangle

namespace SlayerOS.Resolver

def addrsym_repr (atoi : List Byte → BitVec 32) (pointer_text : BitVec 64 → CString)
    (symbol_table : Nat → Option symbol_entry) (address : BitVec 64) (s : State) : Comp (State × Mem) :=
  search_repr atoi pointer_text address (resolve_address symbol_table address) s

/-- The functions have their addresses to themselves. -/
structure Tiled (d : elf_desc) : Prop where
  distinct : ∀ e ∈ functions d, ∀ e' ∈ functions d, e.address = e'.address → e = e'
  apart : ∀ e ∈ functions d, ∀ e' ∈ functions d, e.address < e'.address →
    e.address.toNat + e.size ≤ e'.address.toNat

def Inside (e : symbol_entry) (address : BitVec 64) : Prop :=
  e.address ≤ address ∧ address.toNat < e.address.toNat + e.size

/-- What is behind the name of a function for an address in it. -/
def offsetText (pointer_text : BitVec 64 → CString) (e : symbol_entry) (address : BitVec 64) : Suffix :=
  if e.address = address then .none else .plus (pointer_text (address - e.address))

/-- `name`, with the suffix behind it, reads as the text: a name of C as it is, and a mangled name
as the function. -/
inductive Reads (name : CString) (suffix : Suffix) : List Byte → Prop
  | plain : is_mangled name = false → Reads name suffix (name.chars ++ suffix.chars.chars)
  | function (fn : QName) (ps : List Param) : name = symbolOf fn ps noSuffix → (∀ x, fn ≠ .nested x []) →
      (∀ p ∈ ps, p.IsBuiltin ∧ p.text.length ≤ 64) → Reads name suffix (demangled fn ps suffix)

/-- The call returns the text, and stays inside its arrays. -/
def Shows (c : Comp (State × Mem)) (w : List Byte) : Prop :=
  ∃ r, c.Ends r ∧ Within r.1 ∧ TextAt isNul r.2 0 w

variable {atoi : List Byte → BitVec 32} {pointer_text : BitVec 64 → CString}

/-! ## The search -/

theorem nearest_inside {d : elf_desc} (ht : Tiled d) {e : symbol_entry} (he : e ∈ functions d) {address : BitVec 64}
    (hin : Inside e address) {r : search_result} (h : Nearest (functions d) address r) :
    r = ⟨some e, decide (e.address = address)⟩ := by
  obtain ⟨hlo, hhi⟩ := hin
  have hentry : r.entry = some e := by
    cases hr : r.entry with
    | none =>
      have habove := h.none_iff.mp hr e he
      bv_omega
    | some e' =>
      obtain ⟨he', hle', hnext⟩ := h.nearest e' hr
      have hnot : e.address < e'.address → False := by
        intro hlt
        have hapart := ht.apart e he e' he' hlt
        bv_omega
      have hge := hnext e he hlo
      rw [ht.distinct e he e' he' (BitVec.le_antisymm hge (BitVec.not_lt.mp hnot))]
  have hexact : r.exact = decide (e.address = address) := by
    rw [Bool.eq_iff_iff, decide_eq_true_iff, h.exact_iff]
    constructor
    · rintro ⟨e', he', rfl⟩
      refine BitVec.le_antisymm hlo (BitVec.not_lt.mp ?_)
      intro hlt
      have hapart := ht.apart e he e' he' hlt
      omega
    · intro heq
      exact ⟨e, he, heq⟩
  cases r with
  | mk entry exact =>
    obtain rfl : entry = some e := hentry
    obtain rfl : exact = decide (e.address = address) := hexact
    rfl

/-! ## The text -/

theorem held_eq (e : symbol_entry) (address : BitVec 64) (h : e.name.chars.length < 2 ^ 32) :
    (held pointer_text address e (decide (e.address = address))).chars =
      e.name.chars ++ (offsetText pointer_text e address).chars.chars := by
  unfold offsetText
  by_cases heq : e.address = address
  · rw [decide_eq_true heq, held_exact address e h, if_pos heq]
    exact (List.append_nil _).symm
  · rw [decide_eq_false heq, if_neg heq]
    exact List.append_assoc _ _ _

theorem cstring_ext {s t : CString} (h : s.chars = t.chars) : s = t := by
  cases s
  cases t
  cases h
  rfl

theorem is_mangled_suffix (name t : CString) (suffix : Suffix) (ht : t.chars = name.chars ++ suffix.chars.chars)
    (h : is_mangled name = false) : is_mangled t = false := by
  rw [← Bool.not_eq_true, is_mangled_iff] at h ⊢
  rintro ⟨l, hl⟩
  apply h
  rw [ht] at hl
  match hname : name.chars with
  | [] =>
    rw [hname] at hl
    cases suffix with
    | none => cases hl
    | plus t => exact absurd (List.cons.inj hl).1 (by decide)
  | [c] =>
    rw [hname] at hl
    cases suffix with
    | none => exact absurd (List.cons.inj hl).2 (by simp [Suffix.chars, noSuffix])
    | plus t => exact absurd (List.cons.inj (List.cons.inj hl).2).1 (by decide)
  | c :: c' :: rest =>
    rw [hname] at hl
    obtain ⟨hc, hl⟩ := List.cons.inj hl
    obtain ⟨hc', -⟩ := List.cons.inj hl
    exact ⟨rest, by rw [hc, hc']⟩

/-! ## The whole -/

theorem held_read {e : symbol_entry} {address : BitVec 64} {w : List Byte} (hatoi : ReadsDecimals atoi)
    (h : Reads e.name (offsetText pointer_text e address) w)
    (hroom : e.name.chars.length + (offsetText pointer_text e address).chars.chars.length < 128)
    (hw : w.length < 128) (prior : Buf → Mem) :
    ∃ t, (demangle_alloc_symbol atoi (held pointer_text address e (decide (e.address = address)))
        (handed (held pointer_text address e (decide (e.address = address))) prior)).Ends t ∧
      Within t ∧ t.mem .buffer = overlay (prior .buffer) 0 w ∧ (0 : Byte) ∉ w := by
  have hheld := @held_eq pointer_text e address (by omega)
  generalize held pointer_text address e (decide (e.address = address)) = name at *
  generalize offsetText pointer_text e address = suffix at *
  have hlength : name.chars.length < 128 := by
    rw [hheld, List.length_append]
    exact hroom
  have hstart : Within (handed name prior) := (handed_within name prior).mpr hlength
  cases h with
  | plain hm =>
    have hplain := is_mangled_suffix e.name name suffix hheld hm
    refine ⟨copy_unmangled_name name (handed name prior), ?_, ?_, ?_, ?_⟩
    · exact (plain_ends hplain _ _).mpr rfl
    · unfold copy_unmangled_name
      rw [memcpy_within, Nat.zero_add]
      exact ⟨hstart, Or.inr (Nat.le_of_lt hlength)⟩
    · unfold copy_unmangled_name
      rw [State.memcpy_mem_same, handed_buffer, hheld]
    · exact hheld ▸ name.no_nul
  | function fn ps hname hfn hps =>
    have hsymbol : name = symbolOf fn ps suffix.chars := by
      apply cstring_ext
      rw [hheld, hname]
      simp [symbolOf, noSuffix]
    subst hsymbol
    obtain ⟨t, hends, hmem, hj, hwithin⟩ := demangle_rendered hatoi fn hfn ps hps suffix (Nat.le_of_lt hw) (handed _ prior)
    have hwithin := hwithin hstart
    obtain ⟨⟨v, hv, hvj, hv0⟩, -⟩ := demangle_holds (by omega) (symbolOf_mangled fn ps suffix.chars) hends hwithin
    have hsame : v = demangled fn ps suffix := by
      apply List.ext_getElem (by rw [← hvj, hj])
      intro k hk hk'
      rw [← overlay_inside (handed _ prior |>.mem .buffer) 0 v k hk, ← hv, hmem, overlay_inside _ 0 _ k hk']
    rw [handed_buffer] at hmem
    exact ⟨t, hends, hwithin, hmem, hsame ▸ hv0⟩

theorem init_symbols_found (d : elf_desc) (hcount : d.count < 2 ^ 32) (hfit : (functions d).length ≤ MAX_SYMBOLS) :
    ∃ r, (init_symbols d ⟨fun _ => none, []⟩).Ends r ∧
      ∀ address, Nearest (functions d) address (resolve_address r.symbol_table address) := by
  obtain ⟨c, hends, hcopied⟩ := copy_ends d hcount 0 _ (Nat.zero_le _) (Copied.zero d)
  have hrows : Rows c.symbols.symbol_table (functions d) := by
    refine ⟨hfit, fun k _ => ?_⟩
    rw [hcopied.table_eq]
    rfl
  refine ⟨sort_symbol_table c.symbols, (ends_bind _ _ _).mpr ⟨c, hends, (ends_pure _ _).mpr rfl⟩, ?_⟩
  intro address
  exact (resolve_address_nearest hrows.sorted (sorted_pairwise _) address).perm (sorted_perm _)

/-- After `init_symbols`, an address in a function is printed as the function and the offset in it,
and an address below all of them is not resolved. The arrays must have the room, and the block a
NUL behind the text. -/
theorem addrsym_repr_names (hatoi : ReadsDecimals atoi) (d : elf_desc) (hcount : d.count < 2 ^ 32)
    (hfit : (functions d).length ≤ MAX_SYMBOLS) (ht : Tiled d) :
    ∃ r, (init_symbols d ⟨fun _ => none, []⟩).Ends r ∧
      (∀ address prior, (∀ e ∈ functions d, address < e.address) →
        Shows (addrsym_repr atoi pointer_text r.symbol_table address (entered prior)) failed_to_resolve.chars) ∧
      ∀ e ∈ functions d, ∀ address, Inside e address → ∀ w, Reads e.name (offsetText pointer_text e address) w →
        e.name.chars.length + (offsetText pointer_text e address).chars.chars.length < 128 → w.length < 128 →
        ∀ prior : Buf → Mem, prior .buffer w.length = 0 →
          Shows (addrsym_repr atoi pointer_text r.symbol_table address (entered prior)) w := by
  obtain ⟨r, hends, hnearest⟩ := init_symbols_found d hcount hfit
  refine ⟨r, hends, ?_, ?_⟩
  · intro address prior habove
    have hnone := (hnearest address).none_iff.mpr habove
    refine ⟨(entered prior, overlay (fun _ => 0) 0 (failed_to_resolve.chars ++ [0])), ?_, ?_, ?_⟩
    · unfold addrsym_repr search_repr
      rw [hnone]
      exact (ends_pure _ _).mpr rfl
    · intro b
      exact Nat.zero_le _
    · have htext := textAt_overlay (fun _ => 0) 0 failed_to_resolve.chars
      rwa [beforeNul_eq _ failed_to_resolve.no_nul] at htext
  · intro e he address hin w hreads hroom hw prior hzero
    obtain ⟨t, hdemangled, hwithin, hmem, hnul⟩ := held_read hatoi hreads hroom hw prior
    refine ⟨(t, t.mem .buffer), ?_, hwithin, ?_⟩
    · unfold addrsym_repr
      rw [nearest_inside ht he hin (hnearest address)]
      exact (search_repr_ends address e _ prior _).mpr ⟨t, hdemangled, rfl⟩
    · rw [hmem]
      exact (textAt_overlay_iff _ _ hnul).mpr hzero

theorem main_no_nul : (0 : Byte) ∉ text ['m', 'a', 'i', 'n'] := by decide

theorem small_entsize_pos : 0 < 24 := by decide

/-- A kernel with `foo(int)` and, behind it, `main`. -/
def small : elf_desc where
  symtab := fun i => if i = 0 then ⟨0, 0, 0, 0⟩ else if i = 1 then ⟨1, 0x12, 0x1000, 32⟩ else ⟨9, 0x12, 0x1020, 16⟩
  strtab := fun k => if k = 1 then symbolOf (.one foo) [⟨[], .builtin .i⟩] noSuffix
    else ⟨text ['m', 'a', 'i', 'n'], main_no_nul⟩
  sh_size := 72
  sh_entsize := 24
  sh_entsize_pos := small_entsize_pos

theorem functions_small : functions small =
    [⟨0x1000, symbolOf (.one foo) [⟨[], .builtin .i⟩] noSuffix, 32⟩,
      ⟨0x1020, ⟨text ['m', 'a', 'i', 'n'], main_no_nul⟩, 16⟩] := rfl

theorem small_tiled : Tiled small := by
  refine ⟨?_, ?_⟩ <;> rw [functions_small] <;> simp

/-- Address 0x1004 is `foo(int) + 0x4`. -/
theorem addrsym_repr_names_foo :
    ∃ r, (init_symbols small ⟨fun _ => none, []⟩).Ends r ∧
      Shows (addrsym_repr decimal_atoi (fun _ => ⟨text ['0', 'x', '4'], by decide⟩) r.symbol_table 0x1004
        (entered fun _ _ => 0)) (text "foo(int) + 0x4".toList) := by
  obtain ⟨r, hends, -, hshows⟩ := @addrsym_repr_names decimal_atoi
    (fun _ => ⟨text ['0', 'x', '4'], by decide⟩) decimal_atoi_reads small (by decide) (by decide) small_tiled
  refine ⟨r, hends, hshows _ List.mem_cons_self 0x1004 ⟨by decide, by decide⟩ _ ?_ (by decide) (by decide) _ rfl⟩
  exact Reads.function (.one foo) [⟨[], .builtin .i⟩] rfl nofun (by simp [Param.IsBuiltin]; decide)

end SlayerOS.Resolver
