import SlayerOS.Mangle.Names
import SlayerOS.Mangle.Ends

/-!
# The rounds of builtin parameters

A round handles one character of a builtin parameter, and the rounds of the parameter leave
the cursor at the character behind it.
-/

open SlayerOS.Bytes SlayerOS.Fuel SlayerOS.Fuel.Comp SlayerOS.Text

namespace SlayerOS.Mangle

variable {name : CString}

/-- What the rounds of a parameter do, where `d` is the character behind it. -/
def paramEffect (d : Byte) (s : State) (w : List Byte) : State :=
  separatorEffect d (remember_type (append_to_buffer s w))

theorem qualifier_literal (q : Qualifier) :
    literals.lookup q.code = some q.text ∧ is_end_of_parameters q.code = false ∧
      (q.code = ch 'P' ∨ q.code = ch 'K') := by
  cases q with
  | P => decide
  | K => decide

theorem builtin_literal (k : Builtin) :
    literals.lookup k.code = some k.text ∧ is_end_of_parameters k.code = false ∧
      k.code ≠ ch 'P' ∧ k.code ≠ ch 'K' := by
  cases k with
  | _ => decide

theorem append_to_buffer_append (s : State) (v w : List Byte) :
    append_to_buffer (append_to_buffer s v) w = append_to_buffer s (v ++ w) := List.foldl_append.symm

theorem paramEffect_seek (d : Byte) (s : State) (q : Nat) (w : List Byte) :
    paramEffect d (s.seek q) w = (paramEffect d s w).seek q := by
  unfold paramEffect
  rw [append_to_buffer_seek, remember_type_seek, separatorEffect_seek]

section Short

variable (atoi : List Byte → BitVec 32) (hn : name.chars.length < 2 ^ 32) (h0 : name.read 0 = some (ch '_'))

include hn h0

theorem qualifier_round (q : Qualifier) (s : State) {l : List Byte} (h : Rest name s.i (q.code :: l)) :
    (more_parameters name s).Ends true ∧
      (parameter_round atoi name s).Ends ((append_to_buffer s q.text).seek (s.i + 1)) := by
  obtain ⟨hlit, hend, hpk⟩ := qualifier_literal q
  have hle := h.le
  rw [List.length_cons] at hle
  refine ⟨(ends_more_parameters s true).mpr ⟨q.code, h.read, hend⟩, ?_⟩
  refine (parameter_round_ends hn h0 s _).mpr
    ⟨_, _, _, q.code, ItemAt.known s.i q.code q.text h.read hlit, (ends_pure _ _).mpr rfl, h.read, ?_⟩
  rw [if_pos hpk, add32_of_lt s.i 1 (by omega)]

theorem builtin_round (k : Builtin) (s : State) {l : List Byte} (h : Rest name s.i (k.code :: l)) :
    (more_parameters name s).Ends true ∧
      (parameter_round atoi name s).Ends ((paramEffect (l.headD 0) s k.text).seek (s.i + 1)) := by
  obtain ⟨hlit, hend, hP, hK⟩ := builtin_literal k
  have hle := h.le
  rw [List.length_cons] at hle
  refine ⟨(ends_more_parameters s true).mpr ⟨k.code, h.read, hend⟩, ?_⟩
  refine (parameter_round_ends hn h0 s _).mpr
    ⟨_, _, _, k.code, ItemAt.known s.i k.code k.text h.read hlit, (ends_pure _ _).mpr rfl, h.read, ?_⟩
  rw [if_neg (not_or.mpr ⟨hP, hK⟩), add32_of_lt s.i 1 (by omega)]
  exact ⟨l.headD 0, h.tail.read, rfl⟩

theorem qualifiers_iterate (qs : List Qualifier) (s : State) {l : List Byte}
    (h : Rest name s.i (qs.map Qualifier.code ++ l)) :
    Iterates (more_parameters name) (parameter_round atoi name) qs.length s
      ((append_to_buffer s (qs.flatMap Qualifier.text)).seek (s.i + qs.length)) := by
  induction qs generalizing s with
  | nil => exact Iterates.zero s
  | cons q qs ih =>
    obtain ⟨hgo, hround⟩ := qualifier_round atoi hn h0 q s h
    have hrest := ih ((append_to_buffer s q.text).seek (s.i + 1)) h.tail
    rw [append_to_buffer_seek, append_to_buffer_append, State.seek_seek, State.seek_i] at hrest
    rw [List.flatMap_cons, List.length_cons, show s.i + (qs.length + 1) = s.i + 1 + qs.length by omega]
    exact Iterates.succ _ s _ _ hgo hround hrest

/-- The rounds of a builtin parameter append its text, remember it, and leave the cursor
behind it. -/
theorem builtin_iterate (qs : List Qualifier) (k : Builtin) (s : State) {l : List Byte}
    (h : Rest name s.i (qs.map Qualifier.code ++ k.code :: l)) :
    Iterates (more_parameters name) (parameter_round atoi name) (qs.length + 1) s
      ((paramEffect (l.headD 0) s (qs.flatMap Qualifier.text ++ k.text)).seek (s.i + (qs.length + 1))) := by
  have hqs := qualifiers_iterate atoi hn h0 qs s h
  have hrest : Rest name (s.i + qs.length) (k.code :: l) := by
    have h' := h.append
    rwa [List.length_map] at h'
  obtain ⟨hgo, hround⟩ := builtin_round atoi hn h0 k
    ((append_to_buffer s (qs.flatMap Qualifier.text)).seek (s.i + qs.length)) hrest
  have hlast := hqs.trans (Iterates.one hgo hround)
  rw [paramEffect_seek, State.seek_seek, State.seek_i] at hlast
  unfold paramEffect at hlast ⊢
  rw [append_to_buffer_append] at hlast
  exact hlast

end Short

end SlayerOS.Mangle
