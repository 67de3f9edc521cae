import SlayerOS.Mangle.Arrays
import SlayerOS.Mangle.Ends

/-!
# When the arrays are large enough

The demangler checks no length. It stays inside its arrays exactly when the function name,
every round of the parameter loop and the rest of the name find room, and then the block
holds one text without a NUL.
-/

open SlayerOS.Bytes SlayerOS.Fuel SlayerOS.Fuel.Comp SlayerOS.Text

namespace SlayerOS.Mangle

section Defs

variable (atoi : List Byte → BitVec 32) (name : CString)

/-- The text that a round appends for its item. -/
def ItemText (s : State) : Item → List Byte → Prop
  | .lit w, v => v = w
  | .ref w, v => TextAt old_param_stop (s.mem .old_params) (16 * repeatOf atoi w) v
  | .cls n, v => v = beforeNul n.text

/-- A name fits an array of 128 bytes and its lengths fit theirs. -/
def IdentFits (n : Ident) : Prop := DigitsFit n.components ∧ n.text.length < 128

/-- The item fits `type_i`, or `size_str` and `name_str`. -/
def ItemFits : Item → Prop
  | .lit _ => True
  | .ref w => w.length < 16
  | .cls n => IdentFits n

/-- The round that starts in `s` has room for its item, for the text in `buffer` and
`latest_type`, and for the end of a parameter in `old_params` and `buffer`. -/
structure RoundFits (s : State) : Prop where
  item : ∀ item q, ItemAt atoi name s.i item q → ItemFits item
  text : ∀ item q v, ItemAt atoi name s.i item q → ItemText atoi s item v →
    v = [] ∨ s.j + v.length ≤ 128 ∧ s.latest_size + v.length ≤ 64
  last : ∀ item q v c d, ItemAt atoi name s.i item q → ItemText atoi s item v → name.read q = some c →
    c ≠ ch 'P' → c ≠ ch 'K' → name.read (add32 q 1) = some d →
    16 * s.old_params_i + (s.latest_size + v.length) < 1024 ∧
      (is_end_of_parameters d = true ∨ s.j + v.length + 2 ≤ 128)

/-- There is room for the `)` and the rest of the name. -/
def TailFits (s : State) : Prop := s.j + 1 + (name.chars.length - s.i) ≤ 128

/-- The whole demangling that starts in `s` has room. -/
structure Roomy (s : State) : Prop where
  function : ∀ n q, IdentAt atoi name 2 n q → IdentFits n
  rounds : ∀ u, Visits atoi name s u → (more_parameters name u).Ends true → RoundFits atoi name u
  tail : ∀ u, Visits atoi name s u → (more_parameters name u).Ends false → TailFits name u

/-- The call ends, and no array is written behind its end. -/
def StaysInside (s : State) : Prop := ∃ r, (demangle_alloc_symbol atoi name s).Ends r ∧ Within r

end Defs

/-- `buffer` holds a text without a NUL up to `j`, and behind it what it had before. -/
def Holds (m : Mem) (s : State) : Prop :=
  ∃ w, s.mem .buffer = overlay m 0 w ∧ s.j = w.length ∧ (0 : Byte) ∉ w

variable {atoi : List Byte → BitVec 32} {name : CString}

/-! ## Items -/

theorem memcpy_nul_within {s : State} {b : Buf} {w : List Byte} (h : w.length < b.size) :
    Within (s.memcpy b 0 (w ++ [0])) ↔ Within s := by
  rw [memcpy_within, List.length_append, List.length_singleton]
  exact ⟨And.left, fun hs => ⟨hs, Or.inr (by omega)⟩⟩

theorem itemEffect_fits (s u : State) (item : Item) (h : (itemEffect atoi s item).Ends u) (hu : Within u) :
    ItemFits item := by
  cases item with
  | lit w => trivial
  | ref w =>
    simp only [itemEffect, ends_bind, ends_pure] at h
    obtain ⟨v, _, rfl⟩ := h
    have h1 := ((append_to_buffer_within _ _).mp hu).1
    have h2 := ((memcpy_within _ _ _ _).mp h1).2.resolve_left (by simp)
    simp only [List.length_append, List.length_singleton, Buf.size] at h2
    change w.length < 16
    omega
  | cls n =>
    simp only [itemEffect, ends_bind, ends_pure] at h
    obtain ⟨v, _, rfl⟩ := h
    exact ((identEffect_within _ _ _).mp ((append_to_buffer_within _ _).mp hu).1).2

theorem itemText_exists (s u : State) (item : Item) (h : (itemEffect atoi s item).Ends u) :
    ∃ v, ItemText atoi s item v := by
  cases item with
  | lit w => exact ⟨w, rfl⟩
  | ref w =>
    simp only [itemEffect, ends_bind, ends_scan] at h
    obtain ⟨v, hv, _⟩ := h
    exact ⟨v, hv⟩
  | cls n => exact ⟨_, rfl⟩

theorem ItemText.unique {s : State} {item : Item} {v w : List Byte} (hv : ItemText atoi s item v)
    (hw : ItemText atoi s item w) : v = w := by
  cases item with
  | lit _ => exact hv.trans hw.symm
  | ref _ => exact TextAt.unique hv hw
  | cls _ => exact hv.trans hw.symm

theorem itemEffect_spec (s u : State) (item : Item) (h : (itemEffect atoi s item).Ends u) (hfits : ItemFits item)
    (v : List Byte) (hv : ItemText atoi s item v) :
    ∃ t, u = append_to_buffer t v ∧ Frame [.name_str, .size_str, .type_i] s t ∧ (Within t ↔ Within s) := by
  cases item with
  | lit w =>
    obtain rfl := (ends_pure _ _).mp h
    obtain rfl : v = w := hv
    exact ⟨s, rfl, ⟨⟨_, _, rfl⟩, fun _ _ => rfl⟩, Iff.rfl⟩
  | ref w =>
    simp only [itemEffect, ends_bind, ends_scan, ends_pure] at h
    obtain ⟨v', hv', rfl⟩ := h
    obtain rfl := TextAt.unique hv hv'
    exact ⟨_, rfl, memcpy_frame _ _ _ (by simp) _ _, memcpy_nul_within hfits⟩
  | cls n =>
    simp only [itemEffect, ends_bind, ends_scan, ends_pure] at h
    obtain ⟨v', hv', rfl⟩ := h
    obtain ⟨hd, hlen⟩ := hfits
    rw [identEffect_mem .name_str (by decide) s n (by omega)] at hv'
    obtain rfl := hv'.unique (textAt_overlay _ _ _)
    obtain rfl : v = beforeNul n.text := hv
    obtain ⟨hfields, hmem⟩ := identEffect_frame .name_str s n
    refine ⟨_, rfl, ⟨hfields, ?_⟩, ?_⟩
    · intro b hb
      apply hmem
      simp only [List.mem_cons, not_or] at hb ⊢
      exact ⟨hb.1, hb.2.1, List.not_mem_nil⟩
    · rw [identEffect_within]
      exact ⟨And.left, fun hs => ⟨hs, hd, hlen⟩⟩

theorem literals_no_nul : ∀ p ∈ literals, (0 : Byte) ∉ p.2 := by decide

theorem beforeNul_no_nul (w : List Byte) : (0 : Byte) ∉ beforeNul w := by
  intro h
  have := List.mem_takeWhile_imp h
  exact absurd this (by decide)

theorem itemText_no_nul {i q : Nat} {item : Item} (hitem : ItemAt atoi name i item q) (s : State) (v : List Byte)
    (hv : ItemText atoi s item v) : (0 : Byte) ∉ v := by
  cases hitem with
  | known c w _ hw =>
    obtain rfl : v = w := hv
    obtain ⟨l, l', hl, _⟩ := List.lookup_eq_some_iff.mp hw
    exact literals_no_nul (c, v) (by rw [hl]; simp)
  | unknown =>
    obtain rfl : v = name.chars.drop i := hv
    exact fun h => name.no_nul (List.mem_of_mem_drop h)
  | ref _ w _ _ =>
    intro h0
    have hgo := TextAt.go hv 0 h0
    exact absurd hgo (by decide)
  | cls _ _ n _ _ _ =>
    obtain rfl : v = beforeNul n.text := hv
    exact beforeNul_no_nul _

/-! ## A round -/

theorem separator_no_nul (d : Byte) : (0 : Byte) ∉ separator d := by
  unfold separator
  split
  · exact List.not_mem_nil
  · decide

theorem roundFits_iff {s : State} {item : Item} {q : Nat} {v : List Byte} {c : Byte}
    (hitem : ItemAt atoi name s.i item q) (hv : ItemText atoi s item v) (hc : name.read q = some c) :
    RoundFits atoi name s ↔
      ItemFits item ∧ (v = [] ∨ s.j + v.length ≤ 128 ∧ s.latest_size + v.length ≤ 64) ∧
        ∀ d, c ≠ ch 'P' → c ≠ ch 'K' → name.read (add32 q 1) = some d →
          16 * s.old_params_i + (s.latest_size + v.length) < 1024 ∧
            (is_end_of_parameters d = true ∨ s.j + v.length + 2 ≤ 128) := by
  constructor
  · intro h
    exact ⟨h.item item q hitem, h.text item q v hitem hv, fun d hP hK => h.last item q v c d hitem hv hc hP hK⟩
  · rintro ⟨h1, h2, h3⟩
    refine ⟨?_, ?_, ?_⟩
    · intro item' q' hitem'
      obtain ⟨rfl, _⟩ := hitem.unique hitem'
      exact h1
    · intro item' q' v' hitem' hv'
      obtain ⟨rfl, _⟩ := hitem.unique hitem'
      rw [hv'.unique hv]
      exact h2
    · intro item' q' v' c' d hitem' hv' hc'
      obtain ⟨rfl, rfl⟩ := hitem.unique hitem'
      obtain rfl : c = c' := Option.some.inj (hc.symm.trans hc')
      rw [hv'.unique hv]
      exact h3 d

theorem itemEffect_within {s u : State} {item : Item} (h : (itemEffect atoi s item).Ends u) {v : List Byte}
    (hv : ItemText atoi s item v) :
    Within u ↔ Within s ∧ ItemFits item ∧ (v = [] ∨ s.j + v.length ≤ 128 ∧ s.latest_size + v.length ≤ 64) := by
  constructor
  · intro hu
    have hfits := itemEffect_fits s u item h hu
    obtain ⟨t, rfl, ⟨⟨m, r, rfl⟩, _⟩, ht⟩ := itemEffect_spec s u item h hfits v hv
    obtain ⟨h1, h2⟩ := (append_to_buffer_within _ _).mp hu
    exact ⟨ht.mp h1, hfits, h2⟩
  · rintro ⟨hs, hfits, hroom⟩
    obtain ⟨t, rfl, ⟨⟨m, r, rfl⟩, _⟩, ht⟩ := itemEffect_spec s u item h hfits v hv
    exact (append_to_buffer_within _ _).mpr ⟨ht.mpr hs, hroom⟩

theorem itemEffect_sizes {s u : State} {item : Item} (h : (itemEffect atoi s item).Ends u) {v : List Byte}
    (hv : ItemText atoi s item v) (hfits : ItemFits item)
    (hroom : v = [] ∨ s.j + v.length ≤ 128 ∧ s.latest_size + v.length ≤ 64) :
    u.j = s.j + v.length ∧ u.latest_size = s.latest_size + v.length ∧ u.old_params_i = s.old_params_i ∧
      u.mem .buffer = overlay (s.mem .buffer) s.j v := by
  obtain ⟨t, rfl, ⟨⟨m, r, rfl⟩, hmem⟩, _⟩ := itemEffect_spec s u item h hfits v hv
  have hbuf : m .buffer = s.mem .buffer := hmem .buffer (by decide)
  rcases hroom with rfl | ⟨h1, h2⟩
  · exact ⟨rfl, rfl, rfl, hbuf.trans (overlay_nil _ _).symm⟩
  · refine ⟨append_to_buffer_j _ _ (by dsimp only; omega), append_to_buffer_latest_size _ _ (by dsimp only; omega),
      append_to_buffer_old_params_i _ _, ?_⟩
    rw [append_to_buffer_mem _ _ (by dsimp only; omega), ← hbuf]

theorem within_seek (s : State) (q : Nat) : Within (s.seek q) ↔ Within s := Iff.rfl

theorem remember_type_sizes (s : State) : (remember_type s).j = s.j := rfl

section Short

variable (hn : name.chars.length < 2 ^ 32) (h0 : name.read 0 = some (ch '_'))

include hn h0

theorem parameter_round_within (s t : State) (h : (parameter_round atoi name s).Ends t) :
    Within t ↔ Within s ∧ RoundFits atoi name s := by
  obtain ⟨item, q, u, c, hitem, hu, hc, ht⟩ := (parameter_round_ends hn h0 s t).mp h
  obtain ⟨v, hv⟩ := itemText_exists s u item hu
  have hitemw := itemEffect_within hu hv
  rw [roundFits_iff hitem hv hc]
  split at ht
  · rename_i hpk
    subst ht
    rw [within_seek, hitemw]
    constructor
    · rintro ⟨h1, h2, h3⟩
      exact ⟨h1, h2, h3, fun d hP hK => absurd hpk (not_or.mpr ⟨hP, hK⟩)⟩
    · rintro ⟨h1, h2, h3, _⟩
      exact ⟨h1, h2, h3⟩
  · rename_i hpk
    obtain ⟨hP, hK⟩ := not_or.mp hpk
    obtain ⟨d, hd, rfl⟩ := ht
    rw [within_seek, separatorEffect_within, remember_type_within, remember_type_sizes, hitemw]
    constructor
    · rintro ⟨⟨⟨h1, h2, h3⟩, h4⟩, h5⟩
      obtain ⟨hj, hl, ho, _⟩ := itemEffect_sizes hu hv h2 h3
      rw [ho, hl] at h4
      rw [hj] at h5
      refine ⟨h1, h2, h3, ?_⟩
      intro e _ _ he
      obtain rfl : d = e := Option.some.inj (hd.symm.trans he)
      exact ⟨h4, h5⟩
    · rintro ⟨h1, h2, h3, h4⟩
      obtain ⟨hj, hl, ho, _⟩ := itemEffect_sizes hu hv h2 h3
      obtain ⟨h5, h6⟩ := h4 d hP hK hd
      rw [hj, hl, ho]
      exact ⟨⟨⟨h1, h2, h3⟩, h5⟩, h6⟩

theorem parameter_round_holds (m : Mem) (s t : State) (h : (parameter_round atoi name s).Ends t) (ht : Within t)
    (hs : Holds m s) : Holds m t := by
  obtain ⟨w, hw, hj, hnul⟩ := hs
  obtain ⟨item, q, u, c, hitem, hu, hc, hcase⟩ := (parameter_round_ends hn h0 s t).mp h
  obtain ⟨v, hv⟩ := itemText_exists s u item hu
  obtain ⟨_, hfits⟩ := (parameter_round_within hn h0 s t h).mp ht
  obtain ⟨h1, h2, h3⟩ := (roundFits_iff hitem hv hc).mp hfits
  obtain ⟨huj, _, _, hub⟩ := itemEffect_sizes hu hv h1 h2
  have hvnul := itemText_no_nul hitem s v hv
  have hub' : u.mem .buffer = overlay m 0 (w ++ v) := by
    rw [hub, hw, hj, ← overlay_overlay, Nat.zero_add]
  split at hcase
  · subst hcase
    refine ⟨w ++ v, hub', ?_, fun h => (List.mem_append.mp h).elim hnul hvnul⟩
    rw [List.length_append, ← hj]
    exact huj
  · rename_i hpk
    obtain ⟨hP, hK⟩ := not_or.mp hpk
    obtain ⟨d, hd, rfl⟩ := hcase
    have hroom : (remember_type u).j + 2 < 2 ^ 32 ∨ is_end_of_parameters d = true := by
      rcases (h3 d hP hK hd).2 with hend | hle
      · exact Or.inr hend
      · rw [remember_type_sizes, huj]
        exact Or.inl (by omega)
    have hsep : ((separatorEffect d (remember_type u)).mem .buffer =
        overlay ((remember_type u).mem .buffer) (remember_type u).j (separator d)) ∧
        (separatorEffect d (remember_type u)).j = (remember_type u).j + (separator d).length := by
      rcases hroom with hlt | hend
      · exact separatorEffect_buffer d _ hlt
      · unfold separatorEffect separator
        rw [if_pos hend, if_pos hend]
        exact ⟨(overlay_nil _ _).symm, rfl⟩
    refine ⟨w ++ v ++ separator d, ?_, ?_, ?_⟩
    · rw [State.seek_mem, hsep.1, remember_type_buffer, remember_type_sizes, hub', huj, hj,
        ← List.length_append, ← overlay_overlay m 0 (w ++ v), Nat.zero_add]
    · rw [State.seek_j, hsep.2, remember_type_sizes, huj, hj, List.length_append, List.length_append]
    · intro h
      rcases List.mem_append.mp h with h | h
      · exact (List.mem_append.mp h).elim hnul hvnul
      · exact separator_no_nul d h

end Short

/-! ## The function name -/

theorem functionEffect_within {s u : State} {n : Ident} (h : (functionEffect s n).Ends u) :
    Within u ↔ Within s ∧ IdentFits n := by
  cases n with
  | plain c =>
    obtain rfl := (ends_pure _ _).mp h
    refine (put_within _ .buffer c.chars.length (ch '(')).trans ?_
    rw [memcpy_within, memcpy_within, List.length_append, List.length_singleton]
    simp only [IdentFits, DigitsFit, Ident.components, Ident.text, List.mem_singleton, forall_eq,
      List.append_eq_nil_iff, List.cons_ne_nil, and_false, false_or, Buf.size, Nat.zero_add]
    constructor
    · rintro ⟨⟨⟨h1, h2⟩, _⟩, h4⟩
      exact ⟨h1, by omega, h4⟩
    · rintro ⟨h1, h2, h3⟩
      exact ⟨⟨⟨h1, by omega⟩, Or.inr (by omega)⟩, h3⟩
  | nested c cs =>
    simp only [functionEffect, ends_bind, ends_scan, ends_pure] at h
    obtain ⟨w, hw, rfl⟩ := h
    refine (emit_within _ _).trans ?_
    have hident := identEffect_within .buffer s (.nested c cs)
    constructor
    · rintro ⟨h1, _⟩
      exact hident.mp h1
    · rintro ⟨h1, h2⟩
      refine ⟨hident.mpr ⟨h1, h2⟩, ?_⟩
      have hlen := h2.2
      rw [identEffect_mem .buffer (by decide) s _ (by omega)] at hw
      obtain rfl := hw.unique (textAt_overlay _ _ _)
      have hle : (beforeNul (Ident.nested c cs).text).length ≤ (Ident.nested c cs).text.length :=
        (List.takeWhile_prefix _).length_le
      have hmod := Nat.mod_le (beforeNul (Ident.nested c cs).text).length (2 ^ 32)
      dsimp only
      omega

theorem functionEffect_plain {s u : State} {c : Component} (h : (functionEffect s (.plain c)).Ends u)
    (hlen : c.chars.length + 1 < 2 ^ 32) :
    u.mem .buffer = overlay (s.mem .buffer) 0 (c.chars ++ [ch '(']) ∧ u.j = c.chars.length + 1 := by
  obtain rfl := (ends_pure _ _).mp h
  have hover := overlay_overlay (s.mem .buffer) 0 c.chars [ch '(']
  rw [Nat.zero_add] at hover
  refine ⟨?_, add32_of_lt _ _ hlen⟩
  refine (put_mem _ .buffer c.chars.length (ch '(')).trans ?_
  rw [State.memcpy_mem_same, State.memcpy_mem_other _ _ _ _ _ (by decide), hover]

theorem functionEffect_text {s u : State} {n : Ident} (h : (functionEffect s n).Ends u) (hfits : IdentFits n)
    (hnul : (0 : Byte) ∉ n.text) :
    u.mem .buffer = overlay (s.mem .buffer) 0 (n.text ++ [ch '(']) ∧ u.j = n.text.length + 1 := by
  have hlen := hfits.2
  cases n with
  | plain c =>
    simp only [Ident.text] at hlen
    exact functionEffect_plain h (by omega)
  | nested c cs =>
    simp only [functionEffect, ends_bind, ends_scan, ends_pure] at h
    obtain ⟨w, hw, rfl⟩ := h
    have hmem := identEffect_mem .buffer (by decide) s (.nested c cs) (by omega)
    rw [hmem] at hw
    obtain rfl := hw.unique (textAt_overlay _ _ _)
    rw [beforeNul_eq _ hnul]
    refine ⟨?_, ?_⟩
    · -- The parenthesis takes the place of the NUL.
      refine (put_mem _ .buffer _ (ch '(')).trans ?_
      dsimp only
      rw [hmem, Nat.mod_eq_of_lt (by omega)]
      have hrep := overlay_replace (s.mem .buffer) 0 (Ident.nested c cs).text 0 (ch '(')
      rwa [Nat.zero_add] at hrep
    · have hj : ({ identEffect .buffer s (.nested c cs) with j := (Ident.nested c cs).text.length % 2 ^ 32 }.emit
          (ch '(')).j = add32 ((Ident.nested c cs).text.length % 2 ^ 32) 1 := rfl
      rw [hj, Nat.mod_eq_of_lt (by omega), add32_of_lt _ _ (by omega)]

theorem functionEffect_holds {s u : State} {n : Ident} (h : (functionEffect s n).Ends u) (hfits : IdentFits n)
    (hnul : (0 : Byte) ∉ n.text) : Holds (s.mem .buffer) u := by
  obtain ⟨hmem, hj⟩ := functionEffect_text h hfits hnul
  refine ⟨n.text ++ [ch '('], hmem, ?_, ?_⟩
  · rw [hj, List.length_append, List.length_singleton]
  · intro h
    rcases List.mem_append.mp h with h | h
    · exact hnul h
    · exact absurd h (by decide)

theorem functionEffect_sizes {s u : State} {n : Ident} (h : (functionEffect s n).Ends u) :
    u.old_params_i = s.old_params_i ∧ u.latest_size = s.latest_size := by
  cases n with
  | plain c =>
    obtain rfl := (ends_pure _ _).mp h
    exact ⟨rfl, rfl⟩
  | nested c cs =>
    simp only [functionEffect, ends_bind, ends_scan, ends_pure] at h
    obtain ⟨w, _, rfl⟩ := h
    obtain ⟨⟨m, r, heq⟩, _⟩ := identEffect_frame .buffer s (.nested c cs)
    rw [heq]
    exact ⟨rfl, rfl⟩

theorem ComponentAt.no_nul (hn : name.chars.length + 1 < 2 ^ 32) {i q : Nat} {c : Component} {d : Byte}
    (h : ComponentAt atoi name i c q) (hq : name.read q = some d) : (0 : Byte) ∉ c.chars := by
  obtain ⟨k, hw, hv, rfl⟩ := h
  obtain ⟨_, hk⟩ := hw.length (by omega) (by decide)
  have hslice := hv
  unfold CString.slice at hslice
  split at hslice
  · rename_i hle
    rw [add32_of_lt _ _ (by omega)] at hq
    have := (name.read_isSome _).mp ⟨d, hq⟩
    exact name.slice_no_nul _ _ _ hv this
  · cases hslice

theorem ComponentsAt.no_nul (hn : name.chars.length + 1 < 2 ^ 32) {i q : Nat} {cs : List Component}
    (h : ComponentsAt atoi name i cs q) : (0 : Byte) ∉ componentsText cs := by
  induction h with
  | nil => exact List.not_mem_nil
  | cons i k q d c cs _ _ hc hcs ih =>
    obtain ⟨e, he, _⟩ := hcs.first
    have h1 := hc.no_nul hn he
    rw [componentsText_cons]
    intro h
    rcases List.mem_append.mp h with h | h
    · split at h
      · exact h1 h
      · exact (List.mem_append.mp h).elim h1 (by decide)
    · exact ih h

theorem IdentAt.no_nul (hn : name.chars.length + 1 < 2 ^ 32) {i q : Nat} {n : Ident} {d : Byte}
    (h : IdentAt atoi name i n q) (hq : name.read q = some d) : (0 : Byte) ∉ n.text := by
  cases h with
  | plain _ _ c _ _ hc => exact hc.no_nul hn hq
  | nested k q c cs _ hc hcs =>
    obtain ⟨e, he, _⟩ := hcs.first
    intro h
    rcases List.mem_append.mp h with h | h
    · exact (List.mem_append.mp h).elim (hc.no_nul hn he) (by decide)
    · exact hcs.no_nul hn h

/-! ## The rest of the name -/

theorem puts_within (b : Buf) (x : State × Nat) (w : List Byte) :
    Within (puts b x w).1 ↔ Within x.1 ∧ (w = [] ∨ x.2 + w.length ≤ b.size) := by
  have hb := size_le b
  induction w generalizing x with
  | nil => simp [puts]
  | cons c w ih =>
    rw [puts_cons]
    refine (ih _).trans ?_
    dsimp only
    rw [put_within, List.length_cons]
    constructor
    · rintro ⟨⟨h1, h2⟩, h3⟩
      rw [add32_of_lt _ _ (by omega)] at h3
      refine ⟨h1, Or.inr ?_⟩
      rcases h3 with rfl | h3
      · rw [List.length_nil]
        omega
      · omega
    · rintro ⟨h1, h2⟩
      have h3 := h2.resolve_left (List.cons_ne_nil c w)
      rw [add32_of_lt _ _ (by omega)]
      exact ⟨⟨h1, by omega⟩, Or.inr (by omega)⟩

theorem Scan.rest (hn : name.chars.length < 2 ^ 32) {i q : Nat} {w : List Byte}
    (h : Scan name (fun c => c != 0) i w q) : w.length = name.chars.length - i ∧ (0 : Byte) ∉ w := by
  obtain ⟨hq, hle⟩ := h.length hn (by decide)
  obtain ⟨c, hc, hp⟩ := h.last
  obtain rfl : c = 0 := by simpa using hp
  have := (name.read_zero q).mp hc
  refine ⟨by omega, ?_⟩
  intro h0
  exact absurd (h.go 0 h0) (by decide)

theorem tail_within (hn : name.chars.length < 2 ^ 32) {s t : State}
    (h : (append_remaining_name name (s.emit (ch ')'))).Ends t) : Within t ↔ Within s ∧ TailFits name s := by
  obtain ⟨w, q, hw, rfl⟩ := (append_remaining_name_ends _ _).mp h
  obtain ⟨hlen, _⟩ := Scan.rest hn hw
  have hi : (s.emit (ch ')')).i = s.i := rfl
  have hj : (s.emit (ch ')')).j = add32 s.j 1 := rfl
  rw [hi] at hlen
  refine (puts_within .buffer _ w).trans ?_
  dsimp only
  rw [emit_within, hj]
  unfold TailFits
  rw [← hlen]
  simp only [Buf.size]
  constructor
  · rintro ⟨⟨h1, h2⟩, h3⟩
    rw [add32_of_lt _ _ (by omega)] at h3
    refine ⟨h1, ?_⟩
    rcases h3 with rfl | h3
    · rw [List.length_nil]
      omega
    · omega
  · rintro ⟨h1, h2⟩
    rw [add32_of_lt _ _ (by omega)]
    exact ⟨⟨h1, by omega⟩, Or.inr (by omega)⟩

theorem tail_text (s : State) (w : List Byte) (h : s.j + 1 + w.length < 2 ^ 32) :
    (puts .buffer (s.emit (ch ')'), (s.emit (ch ')')).j) w).1.mem .buffer =
        overlay (s.mem .buffer) s.j (ch ')' :: w) ∧
      (puts .buffer (s.emit (ch ')'), (s.emit (ch ')')).j) w).2 = s.j + 1 + w.length := by
  have hj : (s.emit (ch ')')).j = s.j + 1 := add32_of_lt s.j 1 (by omega)
  have hm : (s.emit (ch ')')).mem .buffer = overlay (s.mem .buffer) s.j [ch ')'] := put_mem s .buffer s.j (ch ')')
  rw [hj, puts_eq _ _ _ _ (by omega)]
  refine ⟨?_, rfl⟩
  rw [State.memcpy_mem_same, hm]
  exact overlay_overlay (s.mem .buffer) s.j [ch ')'] w

theorem tail_holds (hn : name.chars.length < 2 ^ 32) {m : Mem} {s t : State}
    (h : (append_remaining_name name (s.emit (ch ')'))).Ends t) (hfits : TailFits name s) (hs : Holds m s) :
    Holds m t ∧ t.j = s.j + 1 + (name.chars.length - s.i) := by
  obtain ⟨v, hv, hvj, hnul⟩ := hs
  obtain ⟨w, q, hw, rfl⟩ := (append_remaining_name_ends _ _).mp h
  obtain ⟨hlen, hwnul⟩ := Scan.rest hn hw
  rw [show (s.emit (ch ')')).i = s.i from rfl] at hlen
  unfold TailFits at hfits
  obtain ⟨hmem, hj⟩ := tail_text s w (by omega)
  rw [hlen] at hj
  refine ⟨⟨v ++ (ch ')' :: w), ?_, ?_, ?_⟩, hj⟩
  · refine hmem.trans ?_
    rw [hv, hvj, ← overlay_overlay m 0 v, Nat.zero_add]
  · refine hj.trans ?_
    rw [List.length_append, List.length_cons, hlen, ← hvj]
    omega
  · intro h
    rcases List.mem_append.mp h with h | h
    · exact hnul h
    · rcases List.mem_cons.mp h with h | h
      · exact absurd h (by decide)
      · exact hwnul h

/-! ## The demangler -/

theorem Visits.end_unique {s u v : State} (hu : Visits atoi name s u) (hv : Visits atoi name s v)
    (hustop : (more_parameters name u).Ends false) (hvstop : (more_parameters name v).Ends false) : u = v := by
  obtain ⟨t, ht, hut⟩ := hu
  obtain ⟨t', ht', hvt⟩ := hv
  obtain rfl := ht.unique ht'
  exact hut.end_unique hvt hustop hvstop

section Short

variable (hn : name.chars.length < 2 ^ 32) (hm : is_mangled name = true)

include hn hm

theorem demangle_parts {s r : State} (h : (demangle_alloc_symbol atoi name s).Ends r) :
    ∃ n q u t, IdentAt atoi name 2 n q ∧ (functionEffect s.start n).Ends u ∧
      (demangle_function_name atoi name s).Ends (u.seek q) ∧
      (demangle_parameters atoi name (u.seek q)).Ends t ∧
      (append_remaining_name name (t.emit (ch ')'))).Ends r := by
  obtain ⟨v, t, hv, ht, hr⟩ := (demangle_alloc_symbol_ends hm s r).mp h
  obtain ⟨n, q, u, hnq, hu, rfl⟩ := (demangle_function_name_ends hn s v).mp hv
  exact ⟨n, q, u, t, hnq, hu, hv, ht, hr⟩

theorem demangle_within {s r : State} (h : (demangle_alloc_symbol atoi name s).Ends r) :
    Within r ↔ Within s ∧ Roomy atoi name s := by
  have h0 := is_mangled_read hm
  obtain ⟨n, q, u, t, hnq, hu, hv, ht, hr⟩ := demangle_parts hn hm h
  have hvisits : ∀ w, Visits atoi name s w ↔ Rounds (more_parameters name) (parameter_round atoi name) (u.seek q) w :=
    fun w => ⟨fun ⟨v, hv', hw⟩ => hv'.unique hv ▸ hw, fun hw => ⟨_, hv, hw⟩⟩
  -- The loop ends in `t` and stops nowhere else.
  have hlast : ∀ w, Visits atoi name s w → (more_parameters name w).Ends false → w = t := by
    intro w hw hstop
    exact ((hvisits w).mp hw).end_unique (Rounds.last ht) hstop (while_exit ht)
  have hstop := while_exit ht
  have hloop := while_iff (P := Within) (G := RoundFits atoi name)
    (fun s u _ hu => parameter_round_within hn h0 s u hu) (u.seek q) ht
  have hfun : Within (u.seek q) ↔ Within s.start ∧ IdentFits n := functionEffect_within (s := s.start) (u := u) hu
  rw [tail_within hn hr, hloop, hfun]
  constructor
  · rintro ⟨⟨⟨hs, hident⟩, hrounds⟩, htail⟩
    refine ⟨hs, ⟨?_, ?_, ?_⟩⟩
    · intro n' q' hnq'
      obtain ⟨rfl, _⟩ := hnq.unique hnq'
      exact hident
    · intro w hw hgo
      exact hrounds w ((hvisits w).mp hw) hgo
    · intro w hw hstop
      rw [hlast w hw hstop]
      exact htail
  · rintro ⟨hs, hfun, hrounds, htail⟩
    exact ⟨⟨⟨hs, hfun n q hnq⟩, fun w hw => hrounds w ((hvisits w).mpr hw)⟩,
      htail t ((hvisits t).mpr (Rounds.last ht)) hstop⟩

end Short

/-- Inside the arrays the block holds one text, and behind it what it had before. -/
theorem demangle_holds (hn : name.chars.length + 1 < 2 ^ 32) (hm : is_mangled name = true) {s r : State}
    (h : (demangle_alloc_symbol atoi name s).Ends r) (hr : Within r) :
    Holds (s.mem .buffer) r ∧ ∃ t, Visits atoi name s t ∧ (more_parameters name t).Ends false ∧
      r.j = t.j + 1 + (name.chars.length - t.i) := by
  have hlt : name.chars.length < 2 ^ 32 := by omega
  have h0 := is_mangled_read hm
  obtain ⟨hs, hroomy⟩ := (demangle_within hlt hm h).mp hr
  obtain ⟨n, q, u, t, hnq, hu, hv, ht, hrest⟩ := demangle_parts hlt hm h
  have hheld : Holds (s.mem .buffer) (u.seek q) := by
    obtain ⟨d, hd⟩ : ∃ d, name.read q = some d := by
      rcases (ends_while _ t).mp ht with ⟨hstop, _⟩ | ⟨hgo, _⟩
      · obtain ⟨d, hd, _⟩ := (ends_more_parameters (u.seek q) false).mp hstop
        exact ⟨d, hd⟩
      · obtain ⟨d, hd, _⟩ := (ends_more_parameters (u.seek q) true).mp hgo
        exact ⟨d, hd⟩
    exact functionEffect_holds (s := s.start) (u := u) hu (hroomy.function n q hnq) (hnq.no_nul hn hd)
  obtain ⟨hwt, hfits⟩ := (tail_within hlt hrest).mp hr
  have hend : Holds (s.mem .buffer) t := by
    refine while_induct (P := fun v => Holds (s.mem .buffer) v → Holds (s.mem .buffer) t) (fun _ h => h) ?_ _ ht hheld
    intro v w _ hw hwt' ih hv
    -- The rounds behind this one stay inside the arrays, so this one does.
    have hloop := while_iff (P := Within) (G := RoundFits atoi name)
      (fun s u _ hu => parameter_round_within hlt h0 s u hu) w hwt'
    exact ih (parameter_round_holds hlt h0 _ v w hw (hloop.mp hwt).1 hv)
  obtain ⟨h1, h2⟩ := tail_holds hlt hrest hfits hend
  exact ⟨h1, t, ⟨_, hv, Rounds.last ht⟩, while_exit ht, h2⟩

theorem plain_ends (hm : is_mangled name = false) (s r : State) :
    (demangle_alloc_symbol atoi name s).Ends r ↔ copy_unmangled_name name s = r := by
  simp only [demangle_alloc_symbol, hm, Bool.not_false, if_true, ends_pure]

end SlayerOS.Mangle
