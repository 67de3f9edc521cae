import SlayerOS.Mangle.Proofs
import SlayerOS.Mangle.Decimal

/-!
# Which names the demangler reads to their end

The loops stop only at certain characters, so a name outside the grammar is read behind
its NUL or keeps a loop running. A class type as the last parameter is such a name.
-/

open SlayerOS.Bytes SlayerOS.Fuel SlayerOS.Fuel.Comp SlayerOS.Text

namespace SlayerOS.Mangle

section Defs

variable (atoi : List Byte → BitVec 32) (name : CString)

/-- The state `u` is before a round of the parameter loop, or where the loop ends. -/
def Visits (s u : State) : Prop :=
  ∃ t, (demangle_function_name atoi name s).Ends t ∧
    Rounds (more_parameters name) (parameter_round atoi name) t u

/-- The copy of the old parameter ends: there is a NUL or a space behind its start. -/
def RefStops (u : State) : Prop :=
  ∀ w q, Scan name (fun c => c != ch '_') (add32 u.i 1) w q →
    ∃ k, old_param_stop (u.mem .old_params (16 * repeatOf atoi w + k)) = true

/-- The function name and the parameters follow the grammar, and the references find a
parameter that ends. -/
structure Readable (s : State) : Prop where
  short : name.chars.length < 2 ^ 32
  parts : ∃ n q, IdentAt atoi name 2 n q ∧ ParamsAt atoi name q
  refs : ∀ u, Visits atoi name s u → name.read u.i = some (ch 'S') → RefStops atoi name u

end Defs

variable {atoi : List Byte → BitVec 32} {name : CString}

/-! ## The length of the name -/

theorem Scan.lt {p : Byte → Bool} {i q : Nat} {w : List Byte} (h : Scan name p i w q) (hi : i < 2 ^ 32) :
    q < 2 ^ 32 := by
  induction h with
  | stop => exact hi
  | pass i q c w _ _ _ ih => exact ih (add32_lt i 1)

theorem demangle_function_name_lt (s t : State) (h : (demangle_function_name atoi name s).Ends t) :
    t.i < 2 ^ 32 := by
  unfold demangle_function_name at h
  simp only [ends_bind, ends_peek] at h
  obtain ⟨c, hc, ht⟩ := h
  split at ht
  · rename_i hN
    simp only [unmangle_name, ends_bind, ends_peek, ends_pure] at ht
    obtain ⟨u, ⟨d, hd, hu⟩, _, _, rfl⟩ := ht
    obtain rfl : c = d := Option.some.inj (hc.symm.trans hd)
    rw [if_pos hN] at hu
    simp only [ends_bind, ends_pure] at hu
    obtain ⟨_, _, _, _, rfl⟩ := hu
    exact add32_lt _ 1
  · simp only [copy_function_name, ends_bind, ends_pure] at ht
    obtain ⟨_, _, _, _, rfl⟩ := ht
    exact add32_lt _ _

theorem parameter_round_lt (s t : State) (h : (parameter_round atoi name s).Ends t) : t.i < 2 ^ 32 := by
  unfold parameter_round add_separator at h
  simp only [ends_bind] at h
  obtain ⟨u, _, c, _, ht⟩ := h
  split at ht
  · obtain rfl := (ends_pure _ _).mp ht
    exact add32_lt _ 1
  · simp only [ends_bind, ends_pure] at ht
    obtain ⟨d, _, rfl⟩ := ht
    split
    · exact add32_lt _ 1
    · exact add32_lt _ 1

theorem Visits.lt {s u : State} (h : Visits atoi name s u) : u.i < 2 ^ 32 := by
  obtain ⟨t, ht, hu⟩ := h
  refine hu.inv (P := fun u => u.i < 2 ^ 32) (demangle_function_name_lt s t ht) ?_
  intro u v _ _ hv
  exact parameter_round_lt u v hv

/-- The rest is copied to the NUL, and the 32-bit cursor reaches it only in a short name. -/
theorem append_remaining_name_short (s t : State) (hs : s.i < 2 ^ 32)
    (h : (append_remaining_name name s).Ends t) : name.chars.length < 2 ^ 32 := by
  obtain ⟨w, q, hw, _⟩ := (append_remaining_name_ends s t).mp h
  obtain ⟨c, hc, hp⟩ := hw.last
  obtain rfl : c = 0 := by simpa using hp
  rw [← (name.read_zero q).mp hc]
  exact hw.lt hs

theorem exists_rest (hn : name.chars.length < 2 ^ 32) (i : Nat) (hi : i ≤ name.chars.length) :
    ∃ w q, Scan name (fun c => c != 0) i w q := by
  obtain ⟨k, hk⟩ := Nat.exists_eq_add_of_le hi
  induction k generalizing i with
  | zero => exact ⟨[], i, Scan.stop i 0 ((name.read_zero i).mpr hk.symm) rfl⟩
  | succ k ih =>
    obtain ⟨c, hc⟩ := (name.read_isSome i).mpr hi
    have hc0 : c ≠ 0 := by
      rintro rfl
      have := (name.read_zero i).mp hc
      omega
    obtain ⟨w, q, hw⟩ := ih (i + 1) (by omega) (by omega)
    rw [← add32_of_lt i 1 (by omega)] at hw
    exact ⟨c :: w, q, Scan.pass i q c w hc (by simpa using hc0) hw⟩

/-! ## The parts -/

theorem is_mangled_iff : is_mangled name = true ↔ ∃ l, name.chars = ch '_' :: ch 'Z' :: l := by
  unfold is_mangled CString.read
  simp only [Bool.and_eq_true, beq_iff_eq]
  constructor
  · rintro ⟨h1, h2⟩
    match hc : name.chars with
    | [] =>
      rw [hc] at h1
      exact absurd h1 (by decide)
    | [c] =>
      rw [hc] at h2
      exact absurd h2 (by simp; decide)
    | c :: d :: l =>
      rw [hc] at h1 h2
      obtain rfl : c = ch '_' := Option.some.inj h1
      obtain rfl : d = ch 'Z' := Option.some.inj h2
      exact ⟨l, rfl⟩
  · rintro ⟨l, hl⟩
    rw [hl]
    exact ⟨rfl, rfl⟩

theorem is_mangled_read (h : is_mangled name = true) : name.read 0 = some (ch '_') := by
  unfold is_mangled at h
  simp only [Bool.and_eq_true, beq_iff_eq] at h
  exact h.1

theorem identEffect_stops (b : Buf) (s : State) (n : Ident) : ∃ w, TextAt isNul ((identEffect b s n).mem b) 0 w := by
  apply exists_textAt _ 0 (identParts b (s, 0) n).2
  unfold identEffect State.put
  rw [State.memcpy_mem_same]
  have h := overlay_inside ((identParts b (s, 0) n).1.mem b) (identParts b (s, 0) n).2 [0] 0 (by simp)
  rw [Nat.zero_add]
  rw [Nat.add_zero] at h
  rw [h]
  rfl

theorem functionEffect_ends (s : State) (n : Ident) : ∃ u, (functionEffect s n).Ends u := by
  cases n with
  | plain c => exact ⟨_, (ends_pure _ _).mpr rfl⟩
  | nested c cs =>
    obtain ⟨w, hw⟩ := identEffect_stops .buffer s (.nested c cs)
    simp only [functionEffect, ends_bind, ends_scan, ends_pure]
    exact ⟨_, w, hw, rfl⟩

theorem ends_more_parameters (s : State) (go : Bool) :
    (more_parameters name s).Ends go ↔ ∃ c, name.read s.i = some c ∧ is_end_of_parameters c = !go := by
  unfold more_parameters
  simp only [ends_bind, ends_peek, ends_pure]
  constructor
  · rintro ⟨c, hc, rfl⟩
    exact ⟨c, hc, (Bool.not_not _).symm⟩
  · rintro ⟨c, hc, h⟩
    exact ⟨c, hc, by rw [h, Bool.not_not]⟩

section Short

variable (hn : name.chars.length < 2 ^ 32) (h0 : name.read 0 = some (ch '_'))

include hn h0

theorem parameter_round_next (s t : State) (h : (parameter_round atoi name s).Ends t) :
    ∃ item q d, ItemAt atoi name s.i item q ∧ name.read q = some d ∧ t.i = add32 q 1 := by
  obtain ⟨item, q, u, d, hitem, _, hd, ht⟩ := (parameter_round_ends hn h0 s t).mp h
  refine ⟨item, q, d, hitem, hd, ?_⟩
  split at ht
  · rw [ht]
    rfl
  · obtain ⟨e, _, rfl⟩ := ht
    rfl

theorem paramsAt_of_ends (s t : State) (h : (demangle_parameters atoi name s).Ends t) :
    ParamsAt atoi name s.i := by
  refine while_induct (P := fun s => ParamsAt atoi name s.i) ?_ ?_ s h
  · intro hstop
    obtain ⟨c, hc, hend⟩ := (ends_more_parameters t false).mp hstop
    exact ParamsAt.stop _ c hc hend
  · intro u v hgo hv _ hat
    obtain ⟨c, hc, hend⟩ := (ends_more_parameters u true).mp hgo
    obtain ⟨item, q, d, hitem, hd, hi⟩ := parameter_round_next hn h0 u v hv
    rw [hi] at hat
    exact ParamsAt.round _ q c d item hc hend hitem hd hat

theorem refStops_of_ends (s t : State) (h : (demangle_parameters atoi name s).Ends t)
    (hS : name.read s.i = some (ch 'S')) : RefStops atoi name s := by
  obtain ⟨u, hu, _⟩ := while_next h ((ends_more_parameters s true).mpr ⟨_, hS, rfl⟩)
  obtain ⟨item, q, v, d, hitem, hv, _, _⟩ := (parameter_round_ends hn h0 s u).mp hu
  intro w r hw
  cases hitem with
  | known c w' hc hlit =>
    obtain rfl : ch 'S' = c := Option.some.inj (hS.symm.trans hc)
    cases hlit
  | unknown c hc _ hne _ _ => exact absurd (Option.some.inj (hS.symm.trans hc)).symm hne
  | ref _ w' _ hw' =>
    obtain ⟨rfl, rfl⟩ := hw.unique hw'
    simp only [itemEffect, ends_bind, ends_scan] at hv
    obtain ⟨x, hx, _⟩ := hv
    exact ⟨x.length, hx.stops⟩
  | cls _ c n hc hcls _ =>
    obtain rfl : ch 'S' = c := Option.some.inj (hS.symm.trans hc)
    exact absurd hcls (by decide)

end Short

/-! ## The demangler -/

theorem readable_of_ends (hm : is_mangled name = true) (s r : State)
    (h : (demangle_alloc_symbol atoi name s).Ends r) : Readable atoi name s := by
  have h0 := is_mangled_read hm
  obtain ⟨t, u, ht, hu, hr⟩ := (demangle_alloc_symbol_ends hm s r).mp h
  have hlt : u.i < 2 ^ 32 := Visits.lt ⟨t, ht, Rounds.last hu⟩
  have hn := append_remaining_name_short (u.emit (ch ')')) r hlt hr
  refine ⟨hn, ?_, ?_⟩
  · obtain ⟨n, q, v, hnq, _, rfl⟩ := (demangle_function_name_ends hn s t).mp ht
    exact ⟨n, q, hnq, paramsAt_of_ends hn h0 _ u hu⟩
  · rintro v ⟨t', ht', hv⟩
    rw [ht'.unique ht] at hv
    exact refStops_of_ends hn h0 v u (hv.ends hu)

end SlayerOS.Mangle
