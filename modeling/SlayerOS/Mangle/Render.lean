import SlayerOS.Mangle.Classes

/-!
# Functions of builtin parameters

The demangler inverts the mangling of a function whose parameters are builtin, as long as
the text fits the block and each parameter fits its row of the table.
-/

open SlayerOS.Bytes SlayerOS.Fuel SlayerOS.Fuel.Comp SlayerOS.Text

namespace SlayerOS.Mangle

/-- What stands behind the parameters: nothing, or a plus and a text. -/
inductive Suffix where
  | none
  | plus (t : CString)

def Suffix.chars : Suffix → CString
  | .none => noSuffix
  | .plus t => ⟨text [' ', '+', ' '] ++ t.chars, fun h => (List.mem_append.mp h).elim (by decide) t.no_nul⟩

/-- The parameters with commas between them. -/
def joined (ps : List Param) : List Byte := (text [',', ' ']).intercalate (ps.map Param.text)

/-- The function as a reader wants to see it. -/
def demangled (fn : QName) (ps : List Param) (suffix : Suffix) : List Byte :=
  fn.text ++ [ch '('] ++ joined ps ++ (ch ')' :: suffix.chars.chars)

variable {atoi : List Byte → BitVec 32} {name : CString}

/-! ## The demangler -/

theorem Suffix.head (suffix : Suffix) : is_end_of_parameters (suffix.chars.chars.headD 0) = true := by
  cases suffix with
  | none => rfl
  | plus t => rfl

theorem demangled_length (fn : QName) (ps : List Param) (suffix : Suffix) :
    (demangled fn ps suffix).length =
      fn.text.length + (listed (ps.map Param.text)).length + 2 + suffix.chars.chars.length := by
  unfold demangled joined listed
  simp only [List.length_append, List.length_cons, List.length_nil]
  omega

/-- The demangler writes the function that the symbol spells, as long as there is room for it. -/
theorem demangle_rendered (hatoi : ReadsDecimals atoi) (fn : QName) (hfn : ∀ x, fn ≠ .nested x []) (ps : List Param)
    (hps : ∀ p ∈ ps, p.IsBuiltin ∧ p.text.length ≤ 64) (suffix : Suffix)
    (hlen : (demangled fn ps suffix).length ≤ 128) (s : State) :
    ∃ r, (demangle_alloc_symbol atoi (symbolOf fn ps suffix.chars) s).Ends r ∧
      r.mem .buffer = overlay (s.mem .buffer) 0 (demangled fn ps suffix) ∧
      r.j = (demangled fn ps suffix).length ∧ (Within s → Within r) := by
  have hbuiltin : ∀ p ∈ ps, p.IsBuiltin := fun p hp => (hps p hp).1
  have hm := symbolOf_mangled fn ps suffix.chars
  have htext := ident_text fn hfn
  have hroom := demangled_length fn ps suffix ▸ hlen
  rw [← htext] at hroom
  -- The symbol is short because the text is.
  have hn := symbolOf_length fn ps hbuiltin suffix.chars hroom
  have hrest := symbolOf_rest fn ps suffix.chars
  obtain ⟨u, hu, hname⟩ := function_name_found hatoi fn ps suffix.chars hn s
  obtain ⟨humem, huj⟩ := functionEffect_text hu (ident_fits fn (by omega)) fn.ident_no_nul
  obtain ⟨huo, hul⟩ := functionEffect_sizes hu
  obtain ⟨t, ht, hti, -, hwritten⟩ := params_rendered hn (is_mangled_read hm) ps hbuiltin suffix.chars.chars suffix.head
    (u.seek (2 + fn.mangled.length)) hrest.append (hul.trans rfl)
  have huo : u.old_params_i = 0 := huo
  have hfits : ListFits u.j 0 (ps.map Param.text) := by
    refine (listFits_iff _ (List.forall_mem_map.mpr fun p hp => p.two_le_text (hbuiltin p hp)) _ 0 (Nat.zero_le _)
      (by rw [huj]; omega)).mpr (List.forall_mem_map.mpr fun p hp => (hps p hp).2)
  simp only [State.seek_j, State.seek_old_params_i, State.seek_mem, huo] at hwritten
  obtain ⟨htmem, htj⟩ := hwritten hfits
  have htail : Rest (symbolOf fn ps suffix.chars) t.i (suffix.chars.chars ++ []) := by
    rw [hti, List.append_nil]
    exact hrest.append.append
  have hscan := htail.scan hn (p := fun c => c != 0)
    (fun c hc => bne_iff_ne.mpr fun h => suffix.chars.no_nul (h ▸ hc)) rfl
  rw [huj] at htj htmem
  obtain ⟨hrmem, hrj⟩ := tail_text t suffix.chars.chars (by rw [htj]; omega)
  have hr := (demangle_alloc_symbol_ends hm s _).mpr
    ⟨_, t, hname, ht, (append_remaining_name_ends (t.emit (ch ')')) _).mpr ⟨_, _, hscan, rfl⟩⟩
  refine ⟨_, hr, ?_, ?_, ?_⟩
  · have hmem0 : s.start.mem = s.mem := rfl
    have hfront : fn.ident.text.length + 1 = 0 + (fn.text ++ [ch '(']).length := by
      rw [htext, List.length_append, List.length_singleton, Nat.zero_add]
    have hall : t.j = 0 + (fn.text ++ [ch '('] ++ joined ps).length := by
      rw [List.length_append, ← Nat.add_assoc, ← hfront]
      exact htj
    refine hrmem.trans ?_
    rw [htmem, humem, hall, hfront, htext, hmem0, overlay_overlay]
    exact overlay_overlay (s.mem .buffer) 0 (fn.text ++ [ch '('] ++ joined ps) (ch ')' :: suffix.chars.chars)
  · refine hrj.trans ?_
    rw [htj, demangled_length, htext]
    omega
  · intro hs
    exact (symbolOf_within hatoi fn ps hbuiltin suffix.chars suffix.head hn hr).mpr ⟨hs, fun p hp => (hps p hp).2, hroom⟩

/-- The demangler writes the function that the symbol spells, and stays inside its arrays. -/
theorem demangle_symbolOf (hatoi : ReadsDecimals atoi) (fn : QName) (hfn : ∀ x, fn ≠ .nested x []) (ps : List Param)
    (hps : ∀ p ∈ ps, p.IsBuiltin ∧ p.text.length < 16) (suffix : Suffix)
    (hlen : (demangled fn ps suffix).length < 128) (s : State) :
    ∃ r, (demangle_alloc_symbol atoi (symbolOf fn ps suffix.chars) s).Ends r ∧
      r.mem .buffer = overlay (s.mem .buffer) 0 (demangled fn ps suffix) ∧
      r.j = (demangled fn ps suffix).length ∧ (Within s → Within r) := by
  refine demangle_rendered hatoi fn hfn ps ?_ suffix (Nat.le_of_lt hlen) s
  intro p hp
  obtain ⟨hbuiltin, hshort⟩ := hps p hp
  exact ⟨hbuiltin, by omega⟩

/-- `_ZN3foo3fooEPKci` is `foo::foo(*const char, int)`. -/
theorem demangle_foo :
    ∃ r, (demangle_alloc_symbol decimal_atoi
        (symbolOf (.nested foo [foo]) [⟨[.P, .K], .builtin .c⟩, ⟨[], .builtin .i⟩] noSuffix) zeroed).Ends r ∧
      r.mem .buffer = overlay (fun _ => 0) 0 (text "foo::foo(*const char, int)".toList) ∧ r.j = 26 ∧
      (Within zeroed → Within r) :=
  demangle_symbolOf decimal_atoi_reads (.nested foo [foo]) (fun x h => by cases h)
    [⟨[.P, .K], .builtin .c⟩, ⟨[], .builtin .i⟩]
    (by
      intro p hp
      rcases List.mem_cons.mp hp with rfl | hp
      · exact ⟨⟨.c, rfl⟩, by decide⟩
      · obtain rfl := List.mem_singleton.mp hp
        exact ⟨⟨.i, rfl⟩, by decide⟩)
    .none (by decide) zeroed

end SlayerOS.Mangle
