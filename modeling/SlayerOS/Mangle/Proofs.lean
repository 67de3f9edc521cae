import SlayerOS.Mangle.Spec

/-!
# Each function reads its part and has its effect

A function ends exactly when its part is at the cursor. It leaves the cursor behind the
part, and the arrays with the effect of the part.
-/

open SlayerOS.Bytes SlayerOS.Fuel SlayerOS.Fuel.Comp SlayerOS.Text

namespace SlayerOS.Mangle

variable {atoi : List Byte → BitVec 32} {name : CString}

@[simp] theorem ends_peek (s : State) (c : Byte) : (peek name s).Ends c ↔ name.read s.i = some c :=
  ends_lift _ _

/-! ## Scans of the name -/

theorem copy_while_ends (p : Byte → Bool) (b : Buf) (x y : State × Nat) :
    (copy_while name p b x).Ends y ↔
      ∃ w q, Scan name p x.1.i w q ∧ y = seekAt q (puts b x w) := by
  constructor
  · intro h
    refine while_induct (P := fun x => ∃ w q, Scan name p x.1.i w q ∧
      y = seekAt q (puts b x w)) ?_ ?_ x h
    · intro hstop
      simp only [ends_bind, ends_peek, ends_pure] at hstop
      obtain ⟨c, hc, hp⟩ := hstop
      exact ⟨[], y.1.i, Scan.stop _ c hc hp, rfl⟩
    · rintro u v hgo hv - ⟨w, q, hw, rfl⟩
      simp only [ends_bind, ends_peek, ends_pure] at hgo hv
      obtain ⟨c, hc, hp⟩ := hgo
      obtain ⟨d, hd, rfl⟩ := hv
      obtain rfl : c = d := Option.some.inj (hc.symm.trans hd)
      refine ⟨c :: w, q, Scan.pass _ q c w hc hp hw, ?_⟩
      have hseek := puts_seek b (add32 u.1.i 1) (u.1.put b u.2 c, add32 u.2 1) w
      have hq := congrArg (seekAt q) hseek
      exact hq
  · rintro ⟨w, q, hw, rfl⟩
    obtain ⟨s, k⟩ := x
    generalize hi : s.i = i at hw
    induction hw generalizing s k with
    | stop i c hc hp =>
      subst hi
      refine while_stop ?_
      simp only [ends_bind, ends_peek, ends_pure]
      exact ⟨c, hc, hp⟩
    | pass i q c w hc hp _ ih =>
      subst hi
      refine while_round (u := ((s.put b k c).advance 1, add32 k 1)) ?_ ?_ ?_
      · simp only [ends_bind, ends_peek, ends_pure]
        exact ⟨c, hc, hp⟩
      · simp only [ends_bind, ends_peek, ends_pure]
        exact ⟨c, hc, rfl⟩
      · have h := ih ((s.put b k c).advance 1) (add32 k 1) rfl
        rw [puts_cons]
        rw [show ((s.put b k c).advance 1, add32 k 1) = seekAt (add32 s.i 1) (s.put b k c, add32 k 1) from rfl,
          puts_seek] at h
        exact h

theorem append_remaining_name_ends (s t : State) :
    (append_remaining_name name s).Ends t ↔
      ∃ w q, Scan name (fun c => c != 0) s.i w q ∧
        t = { (puts .buffer (s, s.j) w).1.seek q with j := (puts .buffer (s, s.j) w).2 } := by
  unfold append_remaining_name
  simp only [ends_bind, copy_while_ends, ends_pure]
  constructor
  · rintro ⟨_, ⟨w, q, hw, rfl⟩, rfl⟩
    exact ⟨w, q, hw, rfl⟩
  · rintro ⟨w, q, hw, rfl⟩
    exact ⟨_, ⟨w, q, hw, rfl⟩, rfl⟩

theorem demangle_alloc_symbol_ends (hm : is_mangled name = true) (s r : State) :
    (demangle_alloc_symbol atoi name s).Ends r ↔
      ∃ t u, (demangle_function_name atoi name s).Ends t ∧ (demangle_parameters atoi name t).Ends u ∧
        (append_remaining_name name (u.emit (ch ')'))).Ends r := by
  simp only [demangle_alloc_symbol, hm, Bool.not_true, Bool.false_eq_true, if_false, ends_bind]
  constructor
  · rintro ⟨t, ht, u, hu, hr⟩
    exact ⟨t, u, ht, hu, hr⟩
  · rintro ⟨t, u, ht, hu, hr⟩
    exact ⟨t, ht, u, hu, hr⟩

theorem Scan.unique {p : Byte → Bool} {i q r : Nat} {v w : List Byte} (hv : Scan name p i v q)
    (hw : Scan name p i w r) : v = w ∧ q = r := by
  induction hv generalizing w with
  | stop i c hc hp =>
    cases hw with
    | stop => exact ⟨rfl, rfl⟩
    | pass _ _ d _ hd hp' _ =>
      obtain rfl : c = d := Option.some.inj (hc.symm.trans hd)
      rw [hp] at hp'
      cases hp'
  | pass i q c v hc hp _ ih =>
    cases hw with
    | stop _ d hd hp' =>
      obtain rfl : c = d := Option.some.inj (hc.symm.trans hd)
      rw [hp] at hp'
      cases hp'
    | pass _ _ d w hd _ hw' =>
      obtain rfl : c = d := Option.some.inj (hc.symm.trans hd)
      obtain ⟨rfl, rfl⟩ := ih hw'
      exact ⟨rfl, rfl⟩

theorem Scan.go {p : Byte → Bool} {i q : Nat} {w : List Byte} (h : Scan name p i w q) (c : Byte) (hc : c ∈ w) :
    p c = true := by
  induction h with
  | stop => cases hc
  | pass i q d w _ hp _ ih =>
    rcases List.mem_cons.mp hc with rfl | hc'
    · exact hp
    · exact ih hc'

theorem Scan.last {p : Byte → Bool} {i q : Nat} {w : List Byte} (h : Scan name p i w q) :
    ∃ c, name.read q = some c ∧ p c = false := by
  induction h with
  | stop i c hc hp => exact ⟨c, hc, hp⟩
  | pass _ _ _ _ _ _ _ ih => exact ih

theorem Scan.length (hn : name.chars.length < 2 ^ 32) {p : Byte → Bool} (hp : p 0 = false) {i q : Nat}
    {w : List Byte} (h : Scan name p i w q) : q = i + w.length ∧ q ≤ name.chars.length := by
  induction h with
  | stop i c hc _ => exact ⟨rfl, (name.read_isSome i).mp ⟨c, hc⟩⟩
  | pass i q c w hc hpc _ ih =>
    have hlt : i < name.chars.length := by
      apply name.read_lt i c hc
      rintro rfl
      rw [hp] at hpc
      cases hpc
    rw [add32_of_lt i 1 (by omega)] at ih
    rw [List.length_cons]
    omega

/-- A scan to a character that the name starts with goes round at most once. -/
theorem Scan.length_wrap (hn : name.chars.length < 2 ^ 32) {p : Byte → Bool} (c₀ : Byte)
    (h0 : name.read 0 = some c₀) (hp : p c₀ = false) {i q : Nat} {w : List Byte} (h : Scan name p i w q) :
    i + w.length ≤ 2 ^ 32 := by
  induction h with
  | stop i c hc _ =>
    have := (name.read_isSome i).mp ⟨c, hc⟩
    simp only [List.length_nil]
    omega
  | pass i q c w hc _ hw ih =>
    have := (name.read_isSome i).mp ⟨c, hc⟩
    rw [List.length_cons]
    by_cases hlt : i + 1 < 2 ^ 32
    · rw [add32_of_lt i 1 hlt] at ih
      omega
    · -- The cursor is back at the start, and the scan stops there.
      have hw0 : w = [] := by
        rw [show add32 i 1 = 0 by unfold add32; omega] at hw
        exact (hw.unique (Scan.stop 0 c₀ h0 hp)).1
      rw [hw0, List.length_nil]
      omega

theorem Scan.length_lt (hn : name.chars.length < 2 ^ 32) {p : Byte → Bool} (c₀ : Byte)
    (h0 : name.read 0 = some c₀) (hp : p c₀ = false) {i q : Nat} {w : List Byte} (h : Scan name p i w q) :
    w.length < 2 ^ 32 := by
  have hle := h.length_wrap hn c₀ h0 hp
  cases h with
  | stop => simp
  | pass _ _ c w hc hpc hw =>
    rcases Nat.eq_zero_or_pos i with rfl | hpos
    · obtain rfl : c₀ = c := Option.some.inj (h0.symm.trans hc)
      rw [hp] at hpc
      cases hpc
    · omega

/-! ## Names -/

theorem is_digit_ne_zero (c : Byte) (h : is_digit c = true) : c ≠ 0 := by
  rintro rfl
  exact absurd h (by decide)

theorem not_literal : ∀ c : Byte, is_digit c = true ∨ c = ch 'N' → literals.lookup c = none ∧ c ≠ ch 'S' := by
  decide +kernel

theorem literal_ne (c : Byte) (h : (literals.lookup c).isSome = true) :
    c ≠ ch 'S' ∧ is_digit c = false ∧ c ≠ ch 'N' := by
  have hno : ¬ (is_digit c = true ∨ c = ch 'N') := by
    intro hc
    rw [(not_literal c hc).1] at h
    cases h
  refine ⟨?_, ?_, ?_⟩
  · rintro rfl
    exact absurd h (by decide)
  · exact Bool.eq_false_iff.mpr fun hd => hno (Or.inl hd)
  · exact fun hN => hno (Or.inr hN)

theorem digits_no_nul {w : List Byte} (h : ∀ c ∈ w, is_digit c = true) : (0 : Byte) ∉ w :=
  fun h0 => is_digit_ne_zero 0 (h 0 h0) rfl

theorem ComponentAt.unique {i q r : Nat} {c d : Component} (hc : ComponentAt atoi name i c q)
    (hd : ComponentAt atoi name i d r) : c = d ∧ q = r := by
  obtain ⟨w, v⟩ := c
  obtain ⟨w', v'⟩ := d
  obtain ⟨k, hw, hv, rfl⟩ := hc
  obtain ⟨k', hw', hv', rfl⟩ := hd
  obtain ⟨h1, rfl⟩ := hw.unique hw'
  dsimp only at h1
  subst h1
  obtain rfl := Option.some.inj (hv.symm.trans hv')
  exact ⟨rfl, rfl⟩

theorem ComponentsAt.unique {i q r : Nat} {cs ds : List Component} (hc : ComponentsAt atoi name i cs q)
    (hd : ComponentsAt atoi name i ds r) : cs = ds ∧ q = r := by
  induction hc generalizing ds with
  | nil i he =>
    cases hd with
    | nil _ _ => exact ⟨rfl, rfl⟩
    | cons _ _ _ e _ _ he' hne => exact absurd (Option.some.inj (he'.symm.trans he)) hne
  | cons i k q e c cs he hne hck _ ih =>
    cases hd with
    | nil _ he' => exact absurd (Option.some.inj (he.symm.trans he')) hne
    | cons _ k' _ e' c' cs' _ _ hck' hcs' =>
      obtain ⟨rfl, rfl⟩ := hck.unique hck'
      obtain ⟨rfl, rfl⟩ := ih hcs'
      exact ⟨rfl, rfl⟩

theorem IdentAt.unique {i q r : Nat} {n m : Ident} (hn : IdentAt atoi name i n q)
    (hm : IdentAt atoi name i m r) : n = m ∧ q = r := by
  cases hn with
  | plain _ d c hd hne hc =>
    cases hm with
    | plain _ d' c' _ _ hc' =>
      obtain ⟨rfl, rfl⟩ := hc.unique hc'
      exact ⟨rfl, rfl⟩
    | nested _ _ _ _ hd' => exact absurd (Option.some.inj (hd.symm.trans hd')) hne
  | nested k q c cs hd hc hcs =>
    cases hm with
    | plain _ d' _ hd' hne' => exact absurd (Option.some.inj (hd'.symm.trans hd)) hne'
    | nested k' q' c' cs' _ hc' hcs' =>
      obtain ⟨rfl, rfl⟩ := hc.unique hc'
      obtain ⟨rfl, rfl⟩ := hcs.unique hcs'
      exact ⟨rfl, rfl⟩

theorem ComponentsAt.first {i q : Nat} {cs : List Component} (h : ComponentsAt atoi name i cs q) :
    ∃ d, name.read i = some d ∧ (cs = [] ↔ d = ch 'E') := by
  cases h with
  | nil _ he => exact ⟨_, he, fun _ => rfl, fun _ => rfl⟩
  | cons _ _ _ d c cs hd hne => exact ⟨d, hd, fun hnil => (List.cons_ne_nil c cs hnil).elim, fun he => absurd he hne⟩

theorem ComponentsAt.componentsEffect_cons {k q : Nat} {cs : List Component} {e : Byte}
    (h : ComponentsAt atoi name k cs q) (he : name.read k = some e) (b : Buf) (x : State × Nat) (c : Component) :
    componentsEffect b x (c :: cs) =
      componentsEffect b (if e ≠ ch 'E' then put_colons b (componentEffect b x c) else componentEffect b x c) cs := by
  obtain ⟨d, hd, hnil⟩ := h.first
  obtain rfl : e = d := Option.some.inj (he.symm.trans hd)
  rw [componentsEffect]
  by_cases hE : e = ch 'E'
  · rw [if_pos (hnil.mpr hE), if_neg (not_not.mpr hE)]
  · rw [if_neg (fun h => hE (hnil.mp h)), if_pos hE]

variable (hn : name.chars.length < 2 ^ 32)

include hn

theorem parse_function_length_ends (b : Buf) (s : State) (y : State × Nat) :
    (parse_function_length atoi name b s).Ends y ↔
      ∃ w q, Scan name is_digit s.i w q ∧ y = ((s.memcpy b 0 (w ++ [0])).seek q, (atoi w).toNat) := by
  -- The array holds the digits with a NUL behind them, so `atoi` sees the digits.
  have key : ∀ w q, Scan name is_digit s.i w q →
      (((puts b (s, 0) w).1.seek q).put b (puts b (s, 0) w).2 0 = (s.memcpy b 0 (w ++ [0])).seek q) ∧
        TextAt isNul ((s.memcpy b 0 (w ++ [0])).mem b) 0 w := by
    intro w q hw
    obtain ⟨hq, hle⟩ := hw.length hn (by decide)
    have hput := puts_eq b s 0 w (by omega)
    refine ⟨?_, ?_⟩
    · rw [hput, State.put_seek]
      exact congrArg (State.seek · q) (s.memcpy_memcpy b 0 w [0])
    · rw [State.memcpy_mem_same]
      have h := textAt_overlay (s.mem b) 0 w
      rw [beforeNul_eq w (digits_no_nul hw.go)] at h
      exact h
  unfold parse_function_length
  simp only [ends_bind, copy_while_ends, ends_pure, ends_scan, Prod.exists]
  constructor
  · rintro ⟨t, k, ⟨w, q, hw, heq⟩, str, hstr, rfl⟩
    obtain ⟨rfl, rfl⟩ := Prod.mk.inj heq
    obtain ⟨h1, h2⟩ := key w q hw
    rw [h1] at hstr ⊢
    exact ⟨w, q, hw, by rw [hstr.unique h2]⟩
  · rintro ⟨w, q, hw, rfl⟩
    obtain ⟨h1, h2⟩ := key w q hw
    exact ⟨_, _, ⟨w, q, hw, rfl⟩, w, by rw [h1]; exact h2, by rw [h1]⟩

theorem unmangle_component_ends (b : Buf) (x y : State × Nat) :
    (unmangle_component atoi name b x).Ends y ↔
      ∃ c q, ComponentAt atoi name x.1.i c q ∧
        y = seekAt q (componentEffect b x c) := by
  unfold unmangle_component
  simp only [ends_bind, parse_function_length_ends hn, ends_pure, ends_lift, Prod.exists]
  constructor
  · rintro ⟨t, length, ⟨w, q, hw, heq⟩, v, hv, rfl⟩
    obtain ⟨rfl, rfl⟩ := Prod.mk.inj heq
    refine ⟨⟨w, v⟩, add32 q (atoi w).toNat, ⟨q, hw, hv, rfl⟩, ?_⟩
    unfold componentEffect seekAt
    rw [name.slice_length _ _ _ hv]
    rfl
  · rintro ⟨⟨w, v⟩, _, ⟨q, hw, hv, rfl⟩, rfl⟩
    refine ⟨_, _, ⟨w, q, hw, rfl⟩, v, hv, ?_⟩
    unfold componentEffect seekAt
    rw [name.slice_length _ _ _ hv]
    rfl

theorem unmangle_rest_ends (b : Buf) (x y : State × Nat) :
    (unmangle_rest atoi name b x).Ends y ↔
      ∃ cs q, ComponentsAt atoi name x.1.i cs q ∧
        y = seekAt q (componentsEffect b x cs) := by
  constructor
  · intro h
    refine while_induct (P := fun x => ∃ cs q, ComponentsAt atoi name x.1.i cs q ∧
      y = seekAt q (componentsEffect b x cs)) ?_ ?_ x h
    · intro hstop
      simp only [ends_bind, ends_peek, ends_pure, bne_eq_false_iff_eq] at hstop
      obtain ⟨c, hc, rfl⟩ := hstop
      exact ⟨[], y.1.i, ComponentsAt.nil _ hc, rfl⟩
    · rintro u v hgo hv - ⟨cs, q, hcs, rfl⟩
      simp only [ends_bind, ends_peek, ends_pure, bne_iff_ne, unmangle_component_ends hn] at hgo hv
      obtain ⟨d, hd, hne⟩ := hgo
      obtain ⟨_, ⟨c, k, hc, rfl⟩, e, he, rfl⟩ := hv
      have hk : ComponentsAt atoi name k cs q := by
        split at hcs
        · exact hcs
        · exact hcs
      refine ⟨c :: cs, q, ComponentsAt.cons _ k q d c cs hd hne hc hk, ?_⟩
      rw [hk.componentsEffect_cons he]
      split
      · rw [put_colons_seek, componentsEffect_seek, seekAt_seekAt]
      · rw [componentsEffect_seek, seekAt_seekAt]
  · rintro ⟨cs, q, hcs, rfl⟩
    obtain ⟨s, j⟩ := x
    generalize hi : s.i = i at hcs
    induction hcs generalizing s j with
    | nil i hc =>
      subst hi
      refine while_stop ?_
      simp only [ends_bind, ends_peek, ends_pure, bne_eq_false_iff_eq]
      exact ⟨_, hc, rfl⟩
    | cons i k q d c cs hd hne hc hcs ih =>
      subst hi
      obtain ⟨e, he, _⟩ := hcs.first
      refine (ends_while _ _).mpr (Or.inr ⟨?_, ?_⟩)
      · simp only [ends_bind, ends_peek, ends_pure, bne_iff_ne]
        exact ⟨d, hd, hne⟩
      · simp only [ends_bind, ends_peek, ends_pure, unmangle_component_ends hn]
        refine ⟨_, ⟨_, ⟨c, k, hc, rfl⟩, e, he, rfl⟩, ?_⟩
        rw [hcs.componentsEffect_cons he]
        split
        · have h := ih ((put_colons b (componentEffect b (s, j) c)).1.seek k)
            (put_colons b (componentEffect b (s, j) c)).2 rfl
          rw [← seekAt, componentsEffect_seek] at h
          exact h
        · have h := ih ((componentEffect b (s, j) c).1.seek k) (componentEffect b (s, j) c).2 rfl
          rw [← seekAt, componentsEffect_seek] at h
          exact h

omit hn in
theorem identEffect_nested (b : Buf) (s : State) (q : Nat) (c : Component) (cs : List Component) :
    ((seekAt q (componentsEffect b (put_colons b (componentEffect b (s.advance 1, 0) c)) cs)).1.advance 1).put b
      (seekAt q (componentsEffect b (put_colons b (componentEffect b (s.advance 1, 0) c)) cs)).2 0 =
    (identEffect b s (.nested c cs)).seek (add32 q 1) := by
  have hseek := identEffect_seek b s (add32 s.i 1) (.nested c cs)
  exact congrArg (State.seek · (add32 q 1)) hseek

theorem unmangle_name_ends (b : Buf) (s t : State) :
    (unmangle_name atoi name b s).Ends t ↔
      ∃ n q, IdentAt atoi name s.i n q ∧ t = (identEffect b s n).seek q := by
  unfold unmangle_name
  simp only [ends_bind, ends_peek]
  constructor
  · rintro ⟨d, hd, ht⟩
    split at ht
    · rename_i hN
      subst hN
      simp only [ends_bind, ends_pure, unmangle_component_ends hn, unmangle_rest_ends hn] at ht
      obtain ⟨_, ⟨c, k, hc, rfl⟩, _, ⟨cs, q, hcs, rfl⟩, rfl⟩ := ht
      refine ⟨Ident.nested c cs, add32 q 1, IdentAt.nested _ k q c cs hd hc hcs, ?_⟩
      rw [put_colons_seek, componentsEffect_seek, seekAt_seekAt]
      exact identEffect_nested b s q c cs
    · rename_i hN
      simp only [ends_bind, ends_pure, unmangle_component_ends hn] at ht
      obtain ⟨_, ⟨c, q, hc, rfl⟩, rfl⟩ := ht
      exact ⟨Ident.plain c, q, IdentAt.plain _ q d c hd hN hc, rfl⟩
  · rintro ⟨n, q, hnq, rfl⟩
    cases hnq with
    | plain _ d c hd hN hc =>
      refine ⟨d, hd, ?_⟩
      rw [if_neg hN]
      simp only [ends_bind, ends_pure, unmangle_component_ends hn]
      exact ⟨_, ⟨c, q, hc, rfl⟩, rfl⟩
    | nested k q c cs hd hc hcs =>
      refine ⟨_, hd, ?_⟩
      rw [if_pos rfl]
      simp only [ends_bind, ends_pure, unmangle_component_ends hn, unmangle_rest_ends hn]
      refine ⟨_, ⟨c, k, hc, rfl⟩, _, ⟨cs, q, hcs, rfl⟩, ?_⟩
      rw [put_colons_seek, componentsEffect_seek, seekAt_seekAt]
      exact identEffect_nested b s q c cs

/-! ## Parameters -/

omit hn in
theorem ItemAt.unique {i q r : Nat} {x y : Item} (hx : ItemAt atoi name i x q) (hy : ItemAt atoi name i y r) :
    x = y ∧ q = r := by
  cases hx with
  | known c w hc hw =>
    obtain ⟨hS, hdig, hN⟩ := literal_ne c (by rw [hw]; rfl)
    cases hy with
    | known c' w' hc' hw' =>
      obtain rfl : c = c' := Option.some.inj (hc.symm.trans hc')
      obtain rfl := Option.some.inj (hw.symm.trans hw')
      exact ⟨rfl, rfl⟩
    | unknown c' hc' hw' =>
      obtain rfl : c = c' := Option.some.inj (hc.symm.trans hc')
      rw [hw] at hw'
      cases hw'
    | ref _ _ hc' => exact absurd (Option.some.inj (hc.symm.trans hc')) hS
    | cls _ c' _ hc' hcls =>
      obtain rfl : c = c' := Option.some.inj (hc.symm.trans hc')
      rw [hdig] at hcls
      exact absurd (hcls.resolve_left (by decide)) hN
  | unknown c hc hw hS hdig hN =>
    cases hy with
    | known c' w' hc' hw' =>
      obtain rfl : c = c' := Option.some.inj (hc.symm.trans hc')
      rw [hw] at hw'
      cases hw'
    | unknown _ _ _ _ _ _ => exact ⟨rfl, rfl⟩
    | ref _ _ hc' => exact absurd (Option.some.inj (hc.symm.trans hc')) hS
    | cls _ c' _ hc' hcls =>
      obtain rfl : c = c' := Option.some.inj (hc.symm.trans hc')
      rw [hdig] at hcls
      exact absurd (hcls.resolve_left (by decide)) hN
  | ref q w hc hw =>
    cases hy with
    | known c' w' hc' hw' =>
      exact absurd (Option.some.inj (hc'.symm.trans hc)) (literal_ne c' (by rw [hw']; rfl)).1
    | unknown c' hc' _ hS => exact absurd (Option.some.inj (hc'.symm.trans hc)) hS
    | ref _ w' _ hw' =>
      obtain ⟨rfl, rfl⟩ := hw.unique hw'
      exact ⟨rfl, rfl⟩
    | cls _ c' _ hc' hcls =>
      exact absurd (Option.some.inj (hc'.symm.trans hc)) (not_literal c' hcls).2
  | cls q c n hc hcls hnq =>
    cases hy with
    | known c' w' hc' hw' =>
      obtain rfl : c = c' := Option.some.inj (hc.symm.trans hc')
      rw [(not_literal c hcls).1] at hw'
      cases hw'
    | unknown c' hc' _ _ hdig hN =>
      obtain rfl : c = c' := Option.some.inj (hc.symm.trans hc')
      rw [hdig] at hcls
      exact absurd (hcls.resolve_left (by decide)) hN
    | ref _ _ hc' => exact absurd (Option.some.inj (hc.symm.trans hc')) (not_literal c hcls).2
    | cls _ c' n' _ _ hnq' =>
      obtain ⟨rfl, rfl⟩ := hnq.unique hnq'
      exact ⟨rfl, rfl⟩

theorem handle_repeated_type_ends (h0 : name.read 0 = some (ch '_')) (s t : State) :
    (handle_repeated_type atoi name s).Ends t ↔
      ∃ w q u, Scan name (fun c => c != ch '_') (add32 s.i 1) w q ∧
        (itemEffect atoi s (Item.ref w)).Ends u ∧ t = u.seek q := by
  -- The array holds what is before the underscore, with a NUL behind it.
  have key : ∀ w q, Scan name (fun c => c != ch '_') (add32 s.i 1) w q →
      puts .type_i (s.advance 1, 0) w = ((s.memcpy .type_i 0 w).seek (add32 s.i 1), w.length) := by
    intro w q hw
    have hlt := hw.length_lt hn (ch '_') h0 (by decide)
    rw [State.advance_eq, puts_eq _ _ _ _ (by omega), Nat.zero_add]
    rfl
  have hput : ∀ w, (s.memcpy .type_i 0 w).put .type_i w.length 0 = s.memcpy .type_i 0 (w ++ [0]) := by
    intro w
    have h := s.memcpy_memcpy .type_i 0 w [0]
    rwa [Nat.zero_add] at h
  have hstr : ∀ w, TextAt isNul ((s.memcpy .type_i 0 (w ++ [0])).mem .type_i) 0 (beforeNul w) := by
    intro w
    rw [State.memcpy_mem_same]
    exact textAt_overlay _ _ _
  have hmem : ∀ w, (s.memcpy .type_i 0 w).mem .old_params = s.mem .old_params :=
    fun w => s.memcpy_mem_other _ _ _ _ (by decide)
  have hrep : ∀ w : List Byte, (if w.length > 0 then (atoi (beforeNul w)).toNat else 0) = repeatOf atoi w := by
    intro w
    cases w with
    | nil => rfl
    | cons c w => rfl
  unfold handle_repeated_type itemEffect
  simp only [ends_bind, copy_while_ends, ends_pure, ends_scan]
  constructor
  · rintro ⟨_, ⟨w, q, hw, rfl⟩, str, hs, v, hv, rfl⟩
    rw [key w q hw] at hs hv ⊢
    simp only [seekAt, State.seek_seek, State.put_seek, State.seek_mem, hput] at hs hv ⊢
    rw [hs.unique (hstr w), hmem] at hv
    have hv' : TextAt old_param_stop (s.mem .old_params) (16 * repeatOf atoi w) v := by
      rw [← hrep]
      exact hv
    exact ⟨w, q, _, hw, ⟨v, hv', rfl⟩, append_to_buffer_seek _ _ _⟩
  · rintro ⟨w, q, _, hw, ⟨v, hv, rfl⟩, rfl⟩
    refine ⟨_, ⟨w, q, hw, rfl⟩, ?_⟩
    rw [key w q hw]
    simp only [seekAt, State.seek_seek, State.put_seek, State.seek_mem, hput]
    refine ⟨_, hstr w, v, ?_, append_to_buffer_seek _ _ _⟩
    rw [← hrep] at hv
    rw [hmem]
    exact hv

theorem handle_objstruct_ends (s t : State) :
    (handle_objstruct atoi name s).Ends t ↔
      ∃ n q u, IdentAt atoi name s.i n q ∧ (itemEffect atoi s (Item.cls n)).Ends u ∧ t = u.seek q := by
  unfold handle_objstruct itemEffect
  simp only [ends_bind, unmangle_name_ends hn, ends_pure, ends_scan]
  constructor
  · rintro ⟨_, ⟨n, q, hnq, rfl⟩, v, hv, rfl⟩
    exact ⟨n, q, _, hnq, ⟨v, hv, rfl⟩, append_to_buffer_seek _ _ _⟩
  · rintro ⟨n, q, _, hnq, ⟨v, hv, rfl⟩, rfl⟩
    exact ⟨_, ⟨n, q, hnq, rfl⟩, v, hv, append_to_buffer_seek _ _ _⟩

theorem demangle_single_parameter_ends (h0 : name.read 0 = some (ch '_')) (s t : State) :
    (demangle_single_parameter atoi name s).Ends t ↔
      ∃ item q u, ItemAt atoi name s.i item q ∧ (itemEffect atoi s item).Ends u ∧ t = u.seek q := by
  unfold demangle_single_parameter
  simp only [ends_bind, ends_peek]
  constructor
  · rintro ⟨c, hc, ht⟩
    split at ht
    · rename_i w hw
      obtain rfl := (ends_pure _ _).mp ht
      exact ⟨_, s.i, _, ItemAt.known _ c w hc hw, (ends_pure _ _).mpr rfl,
        append_to_buffer_seek s s.i w⟩
    · rename_i hw
      split at ht
      · rename_i hS
        subst hS
        obtain ⟨w, q, u, hscan, hu, rfl⟩ := (handle_repeated_type_ends hn h0 s t).mp ht
        exact ⟨_, q, u, ItemAt.ref _ q w hc hscan, hu, rfl⟩
      · rename_i hS
        split at ht
        · rename_i hcls
          obtain ⟨n, q, u, hnq, hu, rfl⟩ := (handle_objstruct_ends hn s t).mp ht
          exact ⟨_, q, u, ItemAt.cls _ q c n hc hcls hnq, hu, rfl⟩
        · rename_i hcls
          obtain ⟨hd, hN⟩ := not_or.mp hcls
          obtain rfl := (ends_pure _ _).mp ht
          exact ⟨_, s.i, _, ItemAt.unknown _ c hc hw hS (by simpa using hd) hN, (ends_pure _ _).mpr rfl,
            append_to_buffer_seek s s.i _⟩
  · rintro ⟨item, q, u, hitem, hu, rfl⟩
    cases hitem with
    | known c w hc hw =>
      obtain rfl := (ends_pure _ _).mp hu
      refine ⟨c, hc, ?_⟩
      rw [hw]
      exact (ends_pure _ _).mpr (append_to_buffer_seek s s.i w)
    | unknown c hc hw hS hd hN =>
      obtain rfl := (ends_pure _ _).mp hu
      refine ⟨c, hc, ?_⟩
      rw [hw]
      simp only [hS, hd, hN, if_false, or_self, Bool.false_eq_true]
      exact (ends_pure _ _).mpr (append_to_buffer_seek s s.i _)
    | ref _ w hc hscan =>
      refine ⟨_, hc, ?_⟩
      exact (handle_repeated_type_ends hn h0 s _).mpr ⟨w, q, u, hscan, hu, rfl⟩
    | cls _ c n hc hcls hnq =>
      obtain ⟨hlit, hS⟩ := not_literal c hcls
      refine ⟨c, hc, ?_⟩
      rw [hlit]
      simp only [hS, hcls, if_false, if_true]
      exact (handle_objstruct_ends hn s _).mpr ⟨n, q, u, hnq, hu, rfl⟩

theorem parameter_round_ends (h0 : name.read 0 = some (ch '_')) (s t : State) :
    (parameter_round atoi name s).Ends t ↔
      ∃ item q u c, ItemAt atoi name s.i item q ∧ (itemEffect atoi s item).Ends u ∧ name.read q = some c ∧
        if c = ch 'P' ∨ c = ch 'K' then t = u.seek (add32 q 1)
        else ∃ d, name.read (add32 q 1) = some d ∧ t = (separatorEffect d (remember_type u)).seek (add32 q 1) := by
  unfold parameter_round add_separator
  simp only [ends_bind, demangle_single_parameter_ends hn h0, ends_peek]
  constructor
  · rintro ⟨_, ⟨item, q, u, hitem, hu, rfl⟩, c, hc, ht⟩
    refine ⟨item, q, u, c, hitem, hu, hc, ?_⟩
    split
    · rename_i hpk
      rw [if_pos hpk] at ht
      exact ((ends_pure _ _).mp ht).symm
    · rename_i hpk
      rw [if_neg hpk] at ht
      simp only [ends_bind, ends_peek, ends_pure] at ht
      obtain ⟨d, hd, rfl⟩ := ht
      exact ⟨d, hd, separatorEffect_seek d (remember_type u) (add32 q 1)⟩
  · rintro ⟨item, q, u, c, hitem, hu, hc, ht⟩
    refine ⟨_, ⟨item, q, u, hitem, hu, rfl⟩, c, hc, ?_⟩
    split
    · rename_i hpk
      rw [if_pos hpk] at ht
      exact (ends_pure _ _).mpr ht.symm
    · rename_i hpk
      rw [if_neg hpk] at ht
      obtain ⟨d, hd, rfl⟩ := ht
      simp only [ends_bind, ends_peek, ends_pure]
      exact ⟨d, hd, separatorEffect_seek d (remember_type u) (add32 q 1)⟩

/-! ## The whole name -/

theorem demangle_function_name_ends (s t : State) :
    (demangle_function_name atoi name s).Ends t ↔
      ∃ n q u, IdentAt atoi name 2 n q ∧ (functionEffect s.start n).Ends u ∧ t = u.seek q := by
  unfold demangle_function_name
  simp only [ends_bind, ends_peek]
  constructor
  · rintro ⟨c, hc, ht⟩
    split at ht
    · rename_i hN
      subst hN
      simp only [ends_bind, unmangle_name_ends hn, ends_scan, ends_pure] at ht
      obtain ⟨_, ⟨n, q, hnq, rfl⟩, w, hw, rfl⟩ := ht
      cases hnq with
      | plain _ d c hd hne => exact absurd (Option.some.inj (hd.symm.trans hc)) hne
      | nested k q c cs hd hck hcs =>
        refine ⟨_, _, { identEffect .buffer s.start (.nested c cs) with j := w.length % 2 ^ 32 }.emit (ch '('),
          IdentAt.nested 2 k q c cs hd hck hcs, ?_, rfl⟩
        simp only [functionEffect, ends_bind, ends_scan, ends_pure]
        exact ⟨w, hw, rfl⟩
    · rename_i hN
      simp only [ends_bind, parse_function_length_ends hn, Prod.exists] at ht
      obtain ⟨_, _, ⟨w, q, hw, heq⟩, ht⟩ := ht
      obtain ⟨rfl, rfl⟩ := Prod.mk.inj heq
      simp only [copy_function_name, ends_bind, ends_lift, ends_pure] at ht
      obtain ⟨v, hv, rfl⟩ := ht
      refine ⟨_, _, _, IdentAt.plain 2 _ c ⟨w, v⟩ hc hN ⟨q, hw, hv, rfl⟩, (ends_pure _ _).mpr rfl, ?_⟩
      rw [name.slice_length _ _ _ hv]
      rfl
  · rintro ⟨n, q, u, hnq, hu, rfl⟩
    cases hnq with
    | plain _ d c hd hne hc =>
      obtain ⟨q, hw, hv, rfl⟩ := hc
      obtain rfl := (ends_pure _ _).mp hu
      refine ⟨d, hd, ?_⟩
      rw [if_neg hne]
      simp only [ends_bind, parse_function_length_ends hn, Prod.exists, copy_function_name, ends_lift, ends_pure]
      refine ⟨_, _, ⟨c.digits, q, hw, rfl⟩, c.chars, hv, ?_⟩
      rw [name.slice_length _ _ _ hv]
      rfl
    | nested k q c cs hd hck hcs =>
      refine ⟨_, hd, ?_⟩
      simp only [functionEffect, ends_bind, ends_scan, ends_pure] at hu
      obtain ⟨w, hw, rfl⟩ := hu
      simp only [if_true, ends_bind, unmangle_name_ends hn, ends_scan, ends_pure]
      exact ⟨_, ⟨_, _, IdentAt.nested 2 k q c cs hd hck hcs, rfl⟩, w, hw, rfl⟩

end SlayerOS.Mangle
