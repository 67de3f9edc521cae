import SlayerOS.Resolver.Code
import SlayerOS.Mangle.Room

/-!
# What `search_repr` writes and returns

No length is checked, and a name that is not mangled gets no NUL. So the arrays must have
the room, and the block of `kmalloc` must have a NUL behind the text.
-/

open SlayerOS.Bytes SlayerOS.Fuel SlayerOS.Fuel.Comp SlayerOS.Text SlayerOS.Mangle

namespace SlayerOS.Resolver

/-- The text that `search_repr` puts into its array. -/
def held (pointer_text : BitVec 64 → CString) (address : BitVec 64) (e : symbol_entry) (exact : Bool) : CString :=
  if exact then e.name.take (e.name.chars.length % 2 ^ 32)
  else (e.name.append plus).append (pointer_text (address - e.address))

/-- The state in which the demangler starts. -/
def handed (name : CString) (prior : Buf → Mem) : State := (entered prior).memcpy .symbol 0 (name.chars ++ [0])

/-- The call wrote no array behind its end, it returned a C string in the block of 128
bytes, and for an exact name that is not mangled it returned that name. -/
structure Safe (e : symbol_entry) (exact : Bool) (r : State × Mem) : Prop where
  within : Within r.1
  ended : ∃ k, k < 128 ∧ r.2 k = 0
  same : exact = true → is_mangled e.name = false → TextAt isNul r.2 0 e.name.chars

/-- The room for a call, and the NUL that the block must have had. -/
structure Fits (atoi : List Byte → BitVec 32) (name : CString) (e : symbol_entry) (exact : Bool)
    (prior : Buf → Mem) : Prop where
  short : name.chars.length < 128
  plain : is_mangled name = false → ∃ k, name.chars.length ≤ k ∧ k < 128 ∧ prior .buffer k = 0
  whole : exact = true → is_mangled e.name = false →
    e.name.chars.length < 128 ∧ prior .buffer e.name.chars.length = 0
  roomy : is_mangled name = true → Roomy atoi name (handed name prior)
  closed : is_mangled name = true → ∀ u, Visits atoi name (handed name prior) u →
    (more_parameters name u).Ends false →
      ∃ k, u.j + 1 + (name.chars.length - u.i) ≤ k ∧ k < 128 ∧ prior .buffer k = 0

variable {atoi : List Byte → BitVec 32} {pointer_text : BitVec 64 → CString}

/-! ## The call of the demangler -/

theorem handed_within (name : CString) (prior : Buf → Mem) :
    Within (handed name prior) ↔ name.chars.length < 128 := by
  unfold handed
  rw [memcpy_within, List.length_append, List.length_singleton]
  simp only [List.append_eq_nil_iff, List.cons_ne_nil, and_false, false_or, Buf.size]
  constructor
  · rintro ⟨_, h⟩
    omega
  · intro h
    exact ⟨fun _ => Nat.zero_le _, by omega⟩

theorem handed_buffer (name : CString) (prior : Buf → Mem) : (handed name prior).mem .buffer = prior .buffer :=
  State.memcpy_mem_other _ _ _ _ _ (by decide)

theorem search_repr_ends (address : BitVec 64) (e : symbol_entry) (exact : Bool) (prior : Buf → Mem)
    (r : State × Mem) :
    (search_repr atoi pointer_text address ⟨some e, exact⟩ (entered prior)).Ends r ↔
      ∃ t, (demangle_alloc_symbol atoi (held pointer_text address e exact)
        (handed (held pointer_text address e exact) prior)).Ends t ∧ r = (t, t.mem .buffer) := by
  unfold search_repr held
  cases exact with
  | true =>
    simp only [Bool.not_true, Bool.false_eq_true, if_false, if_true, ends_bind, ends_pure]
    have hput : ((entered prior).memcpy .symbol 0 (e.name.take (e.name.chars.length % 2 ^ 32)).chars).put .symbol
        (e.name.chars.length % 2 ^ 32) 0 = handed (e.name.take (e.name.chars.length % 2 ^ 32)) prior := by
      have h := (entered prior).memcpy_memcpy .symbol 0 (e.name.take (e.name.chars.length % 2 ^ 32)).chars [0]
      have hlen : (e.name.take (e.name.chars.length % 2 ^ 32)).chars.length = e.name.chars.length % 2 ^ 32 := by
        have := Nat.mod_le e.name.chars.length (2 ^ 32)
        change (e.name.chars.take _).length = _
        rw [List.length_take]
        omega
      rw [Nat.zero_add, hlen] at h
      exact h
    rw [hput]
    exact exists_congr fun t => and_congr_right fun _ => eq_comm
  | false =>
    simp only [Bool.not_false, if_true, Bool.false_eq_true, if_false, ends_bind, ends_pure]
    exact exists_congr fun t => and_congr_right fun _ => eq_comm

theorem is_mangled_take (name : CString) (n : Nat) (h : is_mangled name = false) : is_mangled (name.take n) = false := by
  rw [← Bool.not_eq_true] at h ⊢
  intro hm
  obtain ⟨l, hl⟩ := is_mangled_iff.mp hm
  apply h
  rw [is_mangled_iff]
  have htake : name.chars.take n = ch '_' :: ch 'Z' :: l := hl
  have hsplit := List.take_append_drop n name.chars
  rw [htake] at hsplit
  exact ⟨l ++ name.chars.drop n, hsplit.symm⟩

theorem held_exact (address : BitVec 64) (e : symbol_entry) (h : e.name.chars.length < 2 ^ 32) :
    held pointer_text address e true = e.name := by
  unfold held CString.take
  rw [if_pos rfl, Nat.mod_eq_of_lt h]
  simp only [List.take_length]

/-- An exact name that is returned whole is short, as there is a NUL in the block. -/
theorem Safe.short {e : symbol_entry} {exact : Bool} {r : State × Mem} (h : Safe e exact r) (hx : exact = true)
    (hm : is_mangled e.name = false) : e.name.chars.length < 128 := by
  obtain ⟨k, hk, h0⟩ := h.ended
  by_contra hlong
  have hat := (h.same hx hm).getElem k (by omega)
  rw [Nat.zero_add, h0] at hat
  exact e.name.no_nul (hat ▸ List.getElem_mem _)

/-! ## The two paths of the demangler -/

theorem plain_safe (address : BitVec 64) (e : symbol_entry) (exact : Bool) (prior : Buf → Mem) (t : State)
    (hm : is_mangled (held pointer_text address e exact) = false)
    (ht : (demangle_alloc_symbol atoi (held pointer_text address e exact)
      (handed (held pointer_text address e exact) prior)).Ends t) :
    Safe e exact (t, t.mem .buffer) ↔ Fits atoi (held pointer_text address e exact) e exact prior := by
  generalize hname : held pointer_text address e exact = name at hm ht ⊢
  obtain rfl := (plain_ends hm _ t).mp ht
  have hmem : (copy_unmangled_name name (handed name prior)).mem .buffer = overlay (prior .buffer) 0 name.chars := by
    unfold copy_unmangled_name
    rw [State.memcpy_mem_same, handed_buffer]
  have hwithin : Within (copy_unmangled_name name (handed name prior)) ↔ name.chars.length < 128 := by
    unfold copy_unmangled_name
    rw [memcpy_within, handed_within]
    exact ⟨And.left, fun h => ⟨h, Or.inr (by simp only [Buf.size]; omega)⟩⟩
  rw [hmem]
  constructor
  · intro h
    refine ⟨hwithin.mp h.within, ?_, ?_, ?_, ?_⟩
    · intro _
      exact (overlay_nul_iff _ _ name.no_nul 128).mp h.ended
    · intro hx hme
      have hshort := h.short hx hme
      subst hx
      rw [held_exact address e (by omega)] at hname
      subst hname
      exact ⟨hshort, (textAt_overlay_iff _ _ e.name.no_nul).mp (h.same rfl hme)⟩
    · intro hm'
      rw [hm] at hm'
      cases hm'
    · intro hm'
      rw [hm] at hm'
      cases hm'
  · intro h
    refine ⟨hwithin.mpr h.short, ?_, ?_⟩
    · exact (overlay_nul_iff _ _ name.no_nul 128).mpr (h.plain hm)
    · intro hx hme
      obtain ⟨hshort, h0⟩ := h.whole hx hme
      subst hx
      rw [held_exact address e (by omega)] at hname
      subst hname
      exact (textAt_overlay_iff _ _ e.name.no_nul).mpr h0

theorem mangled_safe (address : BitVec 64) (e : symbol_entry) (exact : Bool) (prior : Buf → Mem) (t : State)
    (hm : is_mangled (held pointer_text address e exact) = true)
    (ht : (demangle_alloc_symbol atoi (held pointer_text address e exact)
      (handed (held pointer_text address e exact) prior)).Ends t) :
    Safe e exact (t, t.mem .buffer) ↔ Fits atoi (held pointer_text address e exact) e exact prior := by
  -- A name that is mangled as a whole is mangled in the array.
  have hne : exact = true → is_mangled e.name = false → False := by
    intro hx hme
    subst hx
    have htake := is_mangled_take e.name (e.name.chars.length % 2 ^ 32) hme
    unfold held at hm
    rw [if_pos rfl, htake] at hm
    cases hm
  generalize held pointer_text address e exact = name at hm ht ⊢
  have hn := (readable_of_ends hm _ t ht).short
  have hwithin := demangle_within hn hm ht
  rw [handed_within] at hwithin
  have hnul : Within t → name.chars.length < 128 → ∀ u, Visits atoi name (handed name prior) u →
      (more_parameters name u).Ends false →
      ((∃ k, k < 128 ∧ t.mem .buffer k = 0) ↔
        ∃ k, u.j + 1 + (name.chars.length - u.i) ≤ k ∧ k < 128 ∧ prior .buffer k = 0) := by
    intro hw hshort u hu hstop
    obtain ⟨⟨w, hmem, hj, hw0⟩, v, hv, hvstop, hlen⟩ := demangle_holds (by omega) hm ht hw
    obtain rfl := hu.end_unique hv hstop hvstop
    rw [hmem, handed_buffer, overlay_nul_iff _ _ hw0 128, ← hj, hlen]
  constructor
  · intro h
    obtain ⟨hshort, hroomy⟩ := hwithin.mp h.within
    refine ⟨hshort, ?_, ?_, fun _ => hroomy, ?_⟩
    · intro hm'
      rw [hm] at hm'
      cases hm'
    · intro hx hme
      exact (hne hx hme).elim
    · intro _ u hu hstop
      exact (hnul h.within hshort u hu hstop).mp h.ended
  · intro h
    have hw := hwithin.mpr ⟨h.short, h.roomy hm⟩
    obtain ⟨_, u, hu, hstop, _⟩ := demangle_holds (by have := h.short; omega) hm ht hw
    refine ⟨hw, ?_, ?_⟩
    · exact (hnul hw h.short u hu hstop).mpr (h.closed hm u hu hstop)
    · intro hx hme
      exact (hne hx hme).elim

/-- A call that ends is safe exactly when its arrays have the room and the block has a NUL
behind the text. -/
theorem search_repr_safe_iff (atoi : List Byte → BitVec 32) (pointer_text : BitVec 64 → CString)
    (address : BitVec 64) (e : symbol_entry) (exact : Bool) (prior : Buf → Mem) (r : State × Mem)
    (h : (search_repr atoi pointer_text address ⟨some e, exact⟩ (entered prior)).Ends r) :
    Safe e exact r ↔ Fits atoi (held pointer_text address e exact) e exact prior := by
  obtain ⟨t, ht, rfl⟩ := (search_repr_ends address e exact prior r).mp h
  cases hm : is_mangled (held pointer_text address e exact) with
  | true => exact mangled_safe address e exact prior t hm ht
  | false => exact plain_safe address e exact prior t hm ht

/-- `_Z3foov`, the symbol of `foo(void)`, at address 0. -/
def foo_entry : symbol_entry := ⟨0, ⟨text ['_', 'Z', '3', 'f', 'o', 'o', 'v'], by decide⟩, 1⟩

theorem search_repr_safe_iff_foo :
    ∃ r, (search_repr decimal_atoi (fun _ => plus) 0 ⟨some foo_entry, true⟩ (entered fun _ _ => 0)).Ends r ∧
      (Safe foo_entry true r ↔
        Fits decimal_atoi (held (fun _ => plus) 0 foo_entry true) foo_entry true (fun _ _ => 0)) := by
  obtain ⟨r, hr⟩ := ends_of_run
    (search_repr decimal_atoi (fun _ => plus) 0 ⟨some foo_entry, true⟩ (entered fun _ _ => 0)) 12 (by decide +kernel)
  exact ⟨r, hr, search_repr_safe_iff _ _ _ _ _ _ r hr⟩

/-- The code puts no NUL behind the text, so a block without one is returned as it is. -/
theorem not_safe_of_no_nul (address : BitVec 64) (e : symbol_entry) (exact : Bool) (prior : Buf → Mem)
    (hblock : ∀ k, k < 128 → prior .buffer k ≠ 0) (r : State × Mem)
    (h : (search_repr atoi pointer_text address ⟨some e, exact⟩ (entered prior)).Ends r) : ¬ Safe e exact r := by
  intro hsafe
  obtain ⟨t, ht, rfl⟩ := (search_repr_ends address e exact prior r).mp h
  cases hm : is_mangled (held pointer_text address e exact) with
  | false =>
    obtain ⟨k, _, hk, h0⟩ := ((plain_safe address e exact prior t hm ht).mp hsafe).plain hm
    exact hblock k hk h0
  | true =>
    have hfits := (mangled_safe address e exact prior t hm ht).mp hsafe
    obtain ⟨_, u, hu, hstop, _⟩ := demangle_holds (by have := hfits.short; omega) hm ht hsafe.within
    obtain ⟨k, _, hk, h0⟩ := hfits.closed hm u hu hstop
    exact hblock k hk h0

/-- `main` at address 0. -/
def main_entry : symbol_entry := ⟨0, ⟨text ['m', 'a', 'i', 'n'], by decide⟩, 1⟩

theorem main_not_terminated :
    ∃ r, (search_repr decimal_atoi (fun _ => plus) 0 ⟨some main_entry, true⟩ (entered fun _ _ => 1)).Ends r ∧
      ¬ Safe main_entry true r := by
  obtain ⟨r, hr⟩ := ends_of_run
    (search_repr decimal_atoi (fun _ => plus) 0 ⟨some main_entry, true⟩ (entered fun _ _ => 1)) 0 (by decide +kernel)
  exact ⟨r, hr, not_safe_of_no_nul 0 main_entry true _ (fun _ _ => by decide) r hr⟩

end SlayerOS.Resolver
