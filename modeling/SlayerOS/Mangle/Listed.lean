import SlayerOS.Mangle.Rounds
import SlayerOS.Mangle.Room

/-!
# The room for a list of parameters

The text of a parameter goes to the block, to `latest_type` and to its row of the table. What a
list of parameters needs is told by the texts alone.
-/

open SlayerOS.Bytes SlayerOS.Fuel SlayerOS.Fuel.Comp SlayerOS.Text

namespace SlayerOS.Mangle

/-- The texts with commas between them. -/
def listed (ws : List (List Byte)) : List Byte := (text [',', ' ']).intercalate ws

/-- What stands between a text and the texts `ws` behind it. -/
def gap (ws : List (List Byte)) : List Byte := if ws = [] then [] else text [',', ' ']

/-- There is room for the texts from `j` on in the block, and from `row` on in the table. -/
def ListFits : Nat → Nat → List (List Byte) → Prop
  | _, _, [] => True
  | j, row, w :: ws =>
    w.length ≤ 64 ∧ 16 * row + w.length < 1024 ∧ j + (w ++ gap ws).length ≤ 128 ∧
      ListFits (j + (w ++ gap ws).length) (row + 1) ws

theorem listed_cons (w : List Byte) (ws : List (List Byte)) : listed (w :: ws) = w ++ gap ws ++ listed ws := by
  unfold listed gap
  cases ws with
  | nil => simp
  | cons v vs => simp

/-- Behind a text and the comma there is room for the next text if the block has room for all. -/
theorem listFits_iff (ws : List (List Byte)) (hws : ∀ w ∈ ws, 2 ≤ w.length) (j row : Nat) (hrow : 4 * row ≤ j)
    (h : j + (listed ws).length < 128) : ListFits j row ws ↔ ∀ w ∈ ws, w.length ≤ 64 := by
  induction ws generalizing j row with
  | nil => exact iff_of_true trivial (List.forall_mem_nil _)
  | cons w ws ih =>
    obtain ⟨hw, hrest⟩ := List.forall_mem_cons.mp hws
    rw [listed_cons, List.length_append] at h
    have hsum : (w ++ gap ws).length = w.length + (gap ws).length := List.length_append
    have hnext : ListFits (j + (w ++ gap ws).length) (row + 1) ws ↔ ∀ v ∈ ws, v.length ≤ 64 := by
      cases ws with
      | nil => exact iff_of_true trivial (List.forall_mem_nil _)
      | cons v vs =>
        have hgap : (gap (v :: vs)).length = 2 := rfl
        exact ih hrest _ _ (by omega) (by omega)
    rw [List.forall_mem_cons, ← hnext]
    constructor
    · rintro ⟨h1, -, -, h4⟩
      exact ⟨h1, h4⟩
    · rintro ⟨h1, h4⟩
      exact ⟨h1, by omega, by omega, h4⟩

/-! ## The rounds of a parameter -/

theorem paramEffect_within (d : Byte) (s : State) (w : List Byte) (hw : w ≠ []) (hl : s.latest_size = 0) :
    Within (paramEffect d s w) ↔
      Within s ∧ w.length ≤ 64 ∧ 16 * s.old_params_i + w.length < 1024 ∧ s.j + (w ++ separator d).length ≤ 128 := by
  have hsep : s.j + (w ++ separator d).length ≤ 128 ↔
      s.j + w.length ≤ 128 ∧ (is_end_of_parameters d = true ∨ s.j + w.length + 2 ≤ 128) := by
    have hcomma : (text [',', ' ']).length = 2 := rfl
    rw [List.length_append]
    unfold separator
    split
    · rename_i hend
      simp [hend]
    · rename_i hmore
      simp only [hmore, hcomma, Bool.false_eq_true, false_or]
      omega
  unfold paramEffect
  rw [separatorEffect_within, remember_type_within, remember_type_sizes, append_to_buffer_old_params_i,
    append_to_buffer_within, hsep, hl]
  simp only [hw, false_or, Nat.zero_add]
  constructor
  · rintro ⟨⟨⟨hs, hj, h64⟩, hrow⟩, hend⟩
    rw [append_to_buffer_latest_size s w (by omega), hl] at hrow
    rw [append_to_buffer_j s w (by omega)] at hend
    exact ⟨hs, h64, by omega, hj, hend⟩
  · rintro ⟨hs, h64, hrow, hj, hend⟩
    rw [append_to_buffer_latest_size s w (by omega), append_to_buffer_j s w (by omega), hl]
    exact ⟨⟨⟨hs, hj, h64⟩, by omega⟩, hend⟩

theorem paramEffect_latest_size (d : Byte) (s : State) (w : List Byte) : (paramEffect d s w).latest_size = 0 := by
  unfold paramEffect separatorEffect
  split
  · rfl
  · rfl

theorem paramEffect_text (d : Byte) (s : State) (w : List Byte) (hrow : 16 * s.old_params_i + w.length < 1024)
    (hj : s.j + (w ++ separator d).length ≤ 128) :
    (paramEffect d s w).mem .buffer = overlay (s.mem .buffer) s.j (w ++ separator d) ∧
      (paramEffect d s w).j = s.j + (w ++ separator d).length ∧
      (paramEffect d s w).old_params_i = s.old_params_i + 1 := by
  rw [List.length_append] at hj ⊢
  have hu := append_to_buffer_j s w (by omega)
  have huo := append_to_buffer_old_params_i s w
  obtain ⟨hb, hbj⟩ := separatorEffect_buffer d (remember_type (append_to_buffer s w)) (by
    rw [remember_type_sizes, hu]
    omega)
  rw [remember_type_sizes, hu] at hb hbj
  refine ⟨?_, ?_, ?_⟩
  · refine hb.trans ?_
    rw [remember_type_buffer, append_to_buffer_mem s w (by omega), overlay_overlay]
  · exact hbj.trans (Nat.add_assoc _ _ _)
  · have hadd : add32 (append_to_buffer s w).old_params_i 1 = s.old_params_i + 1 := by
      rw [huo]
      exact add32_of_lt _ _ (by omega)
    unfold paramEffect separatorEffect
    split
    · exact hadd
    · exact hadd

/-! ## The name -/

theorem ident_text (fn : QName) (hfn : ∀ x, fn ≠ .nested x []) : fn.ident.text = fn.text := by
  cases fn with
  | one x => rfl
  | nested x xs =>
    have key : ∀ ys : List Identifier, ys ≠ [] →
        componentsText (ys.map Identifier.component) = colons.intercalate (ys.map Identifier.chars) := by
      intro ys hys
      induction ys with
      | nil => exact absurd rfl hys
      | cons y ys ih =>
        rw [List.map_cons, componentsText_cons]
        cases ys with
        | nil => simp [Identifier.component, componentsText]
        | cons z zs =>
          rw [ih (List.cons_ne_nil z zs), if_neg (by simp)]
          simp [Identifier.component]
    cases xs with
    | nil => exact absurd rfl (hfn x)
    | cons y ys =>
      change x.chars ++ colons ++ componentsText ((y :: ys).map Identifier.component) = _
      rw [key _ (List.cons_ne_nil y ys)]
      simp [QName.text]

theorem componentsText_le (x : Identifier) (xs : List Identifier) :
    x.chars.length + (componentsText (xs.map Identifier.component)).length ≤
      (componentsText ((x :: xs).map Identifier.component)).length := by
  rw [List.map_cons, componentsText_cons, List.length_append]
  split
  · exact Nat.le_refl _
  · rw [List.length_append]
    exact Nat.add_le_add_right (Nat.le_add_right x.chars.length _) _

theorem mem_componentsText_le (xs : List Identifier) (x : Identifier) (hx : x ∈ xs) :
    x.chars.length ≤ (componentsText (xs.map Identifier.component)).length := by
  induction xs with
  | nil => cases hx
  | cons y ys ih =>
    have hle := componentsText_le y ys
    rcases List.mem_cons.mp hx with rfl | hx'
    · exact Nat.le_trans (Nat.le_add_right _ _) hle
    · exact Nat.le_trans (ih hx') (Nat.le_trans (Nat.le_add_left _ _) hle)

theorem decimal_length (n : Nat) (h : n < 128) : (decimal n).length ≤ 3 := by
  unfold decimal text
  rw [List.length_map, Nat.length_toDigits_le_iff (by decide) (by decide)]
  omega

theorem Identifier.mangled_length (x : Identifier) (h : x.chars.length < 128) :
    x.mangled.length ≤ 4 * x.chars.length := by
  have hdec := decimal_length _ h
  have hpos := List.length_pos_iff.mpr x.ne_nil
  unfold Identifier.mangled
  rw [List.length_append]
  omega

theorem components_mangled_length (xs : List Identifier)
    (h : (componentsText (xs.map Identifier.component)).length < 128) :
    (xs.flatMap Identifier.mangled).length ≤ 4 * (componentsText (xs.map Identifier.component)).length := by
  induction xs with
  | nil => exact Nat.zero_le _
  | cons x xs ih =>
    have hc := componentsText_le x xs
    have hm := x.mangled_length (by omega)
    have hih := ih (by omega)
    rw [List.flatMap_cons, List.length_append]
    omega

theorem nested_text_length (x : Identifier) (xs : List Identifier) :
    (QName.nested x xs).ident.text.length =
      x.chars.length + 2 + (componentsText (xs.map Identifier.component)).length := by
  change (x.chars ++ colons ++ componentsText (xs.map Identifier.component)).length = _
  rw [List.length_append, List.length_append, colons_length]

theorem ident_fits (fn : QName) (h : fn.ident.text.length < 128) : IdentFits fn.ident := by
  refine ⟨?_, h⟩
  have key : ∀ x : Identifier, x.chars.length < 128 → x.component.digits.length < 16 := by
    intro x hx
    have := decimal_length _ hx
    exact Nat.lt_of_le_of_lt this (by decide)
  cases fn with
  | one x =>
    intro c hc
    obtain rfl := List.mem_singleton.mp hc
    exact key x h
  | nested x xs =>
    rw [nested_text_length] at h
    intro c hc
    rcases List.mem_cons.mp hc with rfl | hc'
    · exact key x (by omega)
    · obtain ⟨y, hy, rfl⟩ := List.mem_map.mp hc'
      have := mem_componentsText_le xs y hy
      exact key y (by omega)

theorem QName.ident_no_nul (fn : QName) : (0 : Byte) ∉ fn.ident.text := by
  have key : ∀ xs : List Identifier, (0 : Byte) ∉ componentsText (xs.map Identifier.component) := by
    intro xs
    induction xs with
    | nil => exact List.not_mem_nil
    | cons x xs ih =>
      rw [List.map_cons, componentsText_cons]
      intro h
      rcases List.mem_append.mp h with h | h
      · split at h
        · exact x.no_nul h
        · exact (List.mem_append.mp h).elim x.no_nul (by decide)
      · exact ih h
  cases fn with
  | one x => exact x.no_nul
  | nested x xs =>
    intro h
    rcases List.mem_append.mp h with h | h
    · exact (List.mem_append.mp h).elim x.no_nul (by decide)
    · exact key xs h

theorem QName.mangled_length (fn : QName) (h : fn.ident.text.length < 128) :
    fn.mangled.length ≤ 4 * fn.ident.text.length + 2 := by
  cases fn with
  | one x =>
    have := x.mangled_length h
    exact Nat.le_trans this (Nat.le_add_right _ 2)
  | nested x xs =>
    rw [nested_text_length] at h ⊢
    have h1 := x.mangled_length (by omega)
    have h2 := components_mangled_length xs (by omega)
    simp only [QName.mangled, List.length_cons, List.length_append, List.length_nil]
    omega

/-! ## The lengths of the parameters -/

theorem builtin_text_length (k : Builtin) : 2 ≤ k.text.length := by
  cases k with
  | _ => decide

theorem Param.mangled_length (p : Param) (hp : p.IsBuiltin) : p.mangled.length ≤ p.text.length := by
  obtain ⟨k, hk⟩ := hp
  have hq : ∀ qs : List Qualifier, qs.length ≤ (qs.flatMap Qualifier.text).length := by
    intro qs
    induction qs with
    | nil => exact Nat.le_refl _
    | cons q qs ih =>
      have hpos : 1 ≤ q.text.length := by cases q <;> decide
      rw [List.flatMap_cons, List.length_append, List.length_cons]
      omega
  have h1 := hq p.qualifiers
  have h2 := builtin_text_length k
  unfold Param.mangled Param.text
  rw [hk, List.length_append, List.length_append, List.length_map]
  simp only [Base.mangled, Base.text, List.length_singleton]
  omega

theorem Param.two_le_text (p : Param) (hp : p.IsBuiltin) : 2 ≤ p.text.length := by
  obtain ⟨k, hk⟩ := hp
  have hk' := builtin_text_length k
  rw [p.text_of_base _ hk, List.length_append]
  exact Nat.le_trans hk' (Nat.le_add_left _ _)

theorem params_mangled_length (ps : List Param) (hps : ∀ p ∈ ps, p.IsBuiltin) :
    (ps.flatMap Param.mangled).length ≤ (listed (ps.map Param.text)).length := by
  induction ps with
  | nil => exact Nat.le_refl _
  | cons p ps ih =>
    obtain ⟨hp, hrest⟩ := List.forall_mem_cons.mp hps
    have h1 := p.mangled_length hp
    have h2 := ih hrest
    rw [List.map_cons, listed_cons, List.flatMap_cons, List.length_append, List.length_append, List.length_append]
    omega

end SlayerOS.Mangle
