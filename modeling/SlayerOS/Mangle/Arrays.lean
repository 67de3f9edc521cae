import SlayerOS.Mangle.Spec

/-!
# What the demangler writes

An operation stays inside the arrays exactly when its own text fits behind the index it
starts at. Inside the arrays no index overflows, and the text is there afterwards.
-/

open SlayerOS.Bytes SlayerOS.Fuel SlayerOS.Fuel.Comp SlayerOS.Text

namespace SlayerOS.Mangle

def colons : List Byte := text [':', ':']

/-- The components joined, each with colons before the next one. -/
def componentsText : List Component → List Byte
  | [] => []
  | c :: cs => (if cs = [] then c.chars else c.chars ++ colons) ++ componentsText cs

def Ident.text : Ident → List Byte
  | .plain c => c.chars
  | .nested c cs => c.chars ++ colons ++ componentsText cs

def Ident.components : Ident → List Component
  | .plain c => [c]
  | .nested c cs => c :: cs

/-- The lengths fit `length_str` and `size_str`. -/
def DigitsFit (cs : List Component) : Prop := ∀ c ∈ cs, c.digits.length < 16

theorem size_le (b : Buf) : b.size ≤ 1024 := by cases b <;> decide

/-! ## Writes -/

theorem memcpy_within (s : State) (b : Buf) (k : Nat) (w : List Byte) :
    Within (s.memcpy b k w) ↔ Within s ∧ (w = [] ∨ k + w.length ≤ b.size) := by
  have hreach : ∀ b', (s.memcpy b k w).reach b' =
      if b' = b then (if w = [] then s.reach b else max (s.reach b) (k + w.length)) else s.reach b' :=
    fun b' => by simp only [State.memcpy, Function.update_apply]
  unfold Within
  simp only [hreach]
  constructor
  · intro h
    have hb := h b
    rw [if_pos rfl] at hb
    refine ⟨?_, ?_⟩
    · intro b'
      by_cases hbb : b' = b
      · subst hbb
        split at hb
        · exact hb
        · omega
      · have h' := h b'
        rwa [if_neg hbb] at h'
    · split at hb
      · exact Or.inl ‹_›
      · exact Or.inr (by omega)
  · rintro ⟨h, hw⟩ b'
    have h' := h b'
    split
    · rename_i hbb
      subst hbb
      split
      · exact h'
      · rcases hw with hw | hw
        · exact absurd hw ‹_›
        · omega
    · exact h'

theorem put_within (s : State) (b : Buf) (k : Nat) (c : Byte) :
    Within (s.put b k c) ↔ Within s ∧ k < b.size := by
  unfold State.put
  rw [memcpy_within]
  simp only [List.cons_ne_nil, false_or, List.length_singleton]
  exact Iff.rfl

theorem emit_within (s : State) (c : Byte) : Within (s.emit c) ↔ Within s ∧ s.j < 128 := put_within s .buffer s.j c

theorem keep_within (s : State) (c : Byte) : Within (s.keep c) ↔ Within s ∧ s.latest_size < 64 :=
  put_within s .latest_type s.latest_size c

theorem append_to_buffer_cons (s : State) (c : Byte) (w : List Byte) :
    append_to_buffer s (c :: w) = append_to_buffer ((s.emit c).keep c) w := rfl

theorem append_to_buffer_within (s : State) (w : List Byte) :
    Within (append_to_buffer s w) ↔
      Within s ∧ (w = [] ∨ s.j + w.length ≤ 128 ∧ s.latest_size + w.length ≤ 64) := by
  induction w generalizing s with
  | nil =>
    simp only [append_to_buffer, List.foldl_nil, true_or, and_true]
  | cons c w ih =>
    rw [append_to_buffer_cons, ih, keep_within, emit_within]
    have hj : ((s.emit c).keep c).j = add32 s.j 1 := rfl
    have hl : ((s.emit c).keep c).latest_size = add32 s.latest_size 1 := rfl
    have hl' : (s.emit c).latest_size = s.latest_size := rfl
    rw [hj, hl, hl', List.length_cons]
    constructor
    · rintro ⟨⟨⟨h, h1⟩, h2⟩, h3⟩
      rw [add32_of_lt _ _ (by omega), add32_of_lt _ _ (by omega)] at h3
      refine ⟨h, Or.inr ?_⟩
      rcases h3 with rfl | h3
      · rw [List.length_nil]
        omega
      · omega
    · rintro ⟨h, h3⟩
      have h4 := h3.resolve_left (List.cons_ne_nil c w)
      rw [add32_of_lt _ _ (by omega), add32_of_lt _ _ (by omega)]
      exact ⟨⟨⟨h, by omega⟩, by omega⟩, Or.inr (by omega)⟩

theorem remember_type_within (s : State) :
    Within (remember_type s) ↔ Within s ∧ 16 * s.old_params_i + s.latest_size < 1024 := by
  have hstep : Within (remember_type s) ↔
      Within ((s.put .old_params (16 * s.old_params_i + s.latest_size) 0).memcpy .old_params (16 * s.old_params_i)
        ((List.range s.latest_size).map (s.mem .latest_type))) := Iff.rfl
  rw [hstep, memcpy_within, put_within, List.length_map, List.length_range]
  simp only [Buf.size]
  constructor
  · rintro ⟨⟨h, h1⟩, _⟩
    exact ⟨h, by omega⟩
  · rintro ⟨h, h1⟩
    exact ⟨⟨h, by omega⟩, Or.inr (by omega)⟩

theorem separatorEffect_within (d : Byte) (s : State) :
    Within (separatorEffect d s) ↔ Within s ∧ (is_end_of_parameters d = true ∨ s.j + 2 ≤ 128) := by
  unfold separatorEffect
  split
  · rename_i h
    simp only [h, true_or, and_true]
  · rename_i h
    rw [emit_within, emit_within]
    have hj : (s.emit (ch ',')).j = add32 s.j 1 := rfl
    rw [hj]
    constructor
    · rintro ⟨⟨h1, h2⟩, h3⟩
      rw [add32_of_lt _ _ (by omega)] at h3
      exact ⟨h1, Or.inr (by omega)⟩
    · rintro ⟨h1, h2⟩
      have h3 := h2.resolve_left h
      rw [add32_of_lt _ _ (by omega)]
      exact ⟨⟨h1, by omega⟩, by omega⟩

/-! ## Names -/

theorem componentEffect_within (b : Buf) (x : State × Nat) (c : Component) :
    Within (componentEffect b x c).1 ↔
      Within x.1 ∧ c.digits.length < 16 ∧ (c.chars = [] ∨ x.2 + c.chars.length ≤ b.size) := by
  unfold componentEffect
  rw [memcpy_within, memcpy_within, List.length_append, List.length_singleton, Nat.zero_add]
  simp only [List.append_eq_nil_iff, List.cons_ne_nil, and_false, false_or, Buf.size]
  constructor
  · rintro ⟨⟨h, h1⟩, h2⟩
    exact ⟨h, by omega, h2⟩
  · rintro ⟨h, h1, h2⟩
    exact ⟨⟨h, by omega⟩, h2⟩

theorem put_colons_within (b : Buf) (x : State × Nat) :
    Within (put_colons b x).1 ↔ Within x.1 ∧ x.2 + 2 ≤ b.size := by
  have hb := size_le b
  unfold put_colons
  rw [put_within, put_within]
  constructor
  · rintro ⟨⟨h, h1⟩, h2⟩
    rw [add32_of_lt _ _ (by omega)] at h2
    exact ⟨h, by omega⟩
  · rintro ⟨h, h1⟩
    rw [add32_of_lt _ _ (by omega)]
    exact ⟨⟨h, by omega⟩, by omega⟩

theorem componentsText_cons (c : Component) (cs : List Component) :
    componentsText (c :: cs) = (if cs = [] then c.chars else c.chars ++ colons) ++ componentsText cs := rfl

theorem componentsEffect_cons (b : Buf) (x : State × Nat) (c : Component) (cs : List Component) :
    componentsEffect b x (c :: cs) =
      componentsEffect b (if cs = [] then componentEffect b x c else put_colons b (componentEffect b x c)) cs := rfl

theorem componentEffect_index (b : Buf) (x : State × Nat) (c : Component) :
    (componentEffect b x c).2 = add32 x.2 c.chars.length := rfl

theorem put_colons_index (b : Buf) (x : State × Nat) (h : x.2 + 2 < 2 ^ 32) : (put_colons b x).2 = x.2 + 2 := by
  unfold put_colons
  rw [add32_of_lt x.2 1 (by omega), add32_of_lt _ _ (by omega)]

theorem colons_length : colons.length = 2 := rfl

theorem part_within (b : Buf) (x : State × Nat) (hx : x.2 < 2 ^ 32) (c : Component) (cs : List Component) :
    Within (if cs = [] then componentEffect b x c else put_colons b (componentEffect b x c)).1 ↔
      Within x.1 ∧ c.digits.length < 16 ∧
        ((if cs = [] then c.chars else c.chars ++ colons) = [] ∨
          x.2 + (if cs = [] then c.chars else c.chars ++ colons).length ≤ b.size) := by
  have hb := size_le b
  split
  · exact componentEffect_within b x c
  · rw [put_colons_within, componentEffect_within, componentEffect_index, List.length_append, colons_length]
    constructor
    · rintro ⟨⟨h, h1, h2⟩, h3⟩
      refine ⟨h, h1, Or.inr ?_⟩
      rcases h2 with h2 | h2
      · rw [h2, List.length_nil] at h3 ⊢
        rw [add32_of_lt _ _ (by omega)] at h3
        omega
      · rw [add32_of_lt _ _ (by omega)] at h3
        omega
    · rintro ⟨h, h1, h2⟩
      have h3 := h2.resolve_left (by simp [colons, text])
      rw [add32_of_lt _ _ (by omega)]
      exact ⟨⟨h, h1, Or.inr (by omega)⟩, by omega⟩

theorem part_index (b : Buf) (x : State × Nat) (c : Component) (cs : List Component)
    (h : x.2 + (if cs = [] then c.chars else c.chars ++ colons).length < 2 ^ 32) :
    (if cs = [] then componentEffect b x c else put_colons b (componentEffect b x c)).2 =
      x.2 + (if cs = [] then c.chars else c.chars ++ colons).length := by
  split
  · rename_i hcs
    rw [if_pos hcs] at h
    rw [componentEffect_index, add32_of_lt _ _ h]
  · rename_i hcs
    rw [if_neg hcs, List.length_append, colons_length] at h
    have hidx : (componentEffect b x c).2 = x.2 + c.chars.length := add32_of_lt _ _ (by omega)
    rw [put_colons_index _ _ (by omega), hidx, List.length_append, colons_length]
    omega

theorem part_index_lt (b : Buf) (x : State × Nat) (c : Component) (cs : List Component) :
    (if cs = [] then componentEffect b x c else put_colons b (componentEffect b x c)).2 < 2 ^ 32 := by
  split
  · exact add32_lt _ _
  · exact add32_lt _ _

theorem componentsEffect_within (b : Buf) (x : State × Nat) (hx : x.2 < 2 ^ 32) (cs : List Component) :
    Within (componentsEffect b x cs).1 ↔
      Within x.1 ∧ DigitsFit cs ∧ (componentsText cs = [] ∨ x.2 + (componentsText cs).length ≤ b.size) := by
  have hb := size_le b
  induction cs generalizing x with
  | nil => simp [componentsEffect, DigitsFit, componentsText]
  | cons c cs ih =>
    rw [componentsEffect_cons]
    refine (ih _ (part_index_lt b x c cs)).trans ?_
    rw [part_within b x hx, componentsText_cons]
    unfold DigitsFit
    rw [List.forall_mem_cons]
    generalize hp : (if cs = [] then c.chars else c.chars ++ colons) = p
    have hidx := part_index b x c cs
    rw [hp] at hidx
    rw [List.append_eq_nil_iff, List.length_append]
    constructor
    · rintro ⟨⟨h, h1, h2⟩, h3, h4⟩
      refine ⟨h, ⟨h1, h3⟩, ?_⟩
      rcases h2 with rfl | h2
      · rw [hidx (by simpa using hx), List.length_nil] at h4
        rw [List.length_nil]
        rcases h4 with h4 | h4
        · exact Or.inl ⟨rfl, h4⟩
        · exact Or.inr (by omega)
      · rw [hidx (by omega)] at h4
        rcases h4 with h4 | h4
        · rw [h4, List.length_nil]
          exact Or.inr (by omega)
        · exact Or.inr (by omega)
    · rintro ⟨h, ⟨h1, h3⟩, h4⟩
      rcases h4 with ⟨rfl, h4⟩ | h4
      · exact ⟨⟨h, h1, Or.inl rfl⟩, h3, Or.inl h4⟩
      · rw [hidx (by omega)]
        exact ⟨⟨h, h1, Or.inr (by omega)⟩, h3, Or.inr (by omega)⟩

theorem componentsEffect_index (b : Buf) (x : State × Nat) (cs : List Component)
    (h : x.2 + (componentsText cs).length < 2 ^ 32) :
    (componentsEffect b x cs).2 = x.2 + (componentsText cs).length := by
  induction cs generalizing x with
  | nil => rfl
  | cons c cs ih =>
    rw [componentsText_cons, List.length_append] at h
    have hidx := part_index b x c cs (by omega)
    rw [componentsEffect_cons, ih _ (by omega), hidx, componentsText_cons, List.length_append]
    omega

theorem put_mem (s : State) (b : Buf) (k : Nat) (c : Byte) : (s.put b k c).mem b = overlay (s.mem b) k [c] :=
  s.memcpy_mem_same b k [c]

theorem componentEffect_mem (b : Buf) (hb : b ≠ .size_str) (x : State × Nat) (c : Component) :
    (componentEffect b x c).1.mem b = overlay (x.1.mem b) x.2 c.chars := by
  unfold componentEffect
  rw [State.memcpy_mem_same, State.memcpy_mem_other _ _ _ _ _ hb]

theorem put_colons_mem (b : Buf) (x : State × Nat) (h : x.2 + 2 < 2 ^ 32) :
    (put_colons b x).1.mem b = overlay (x.1.mem b) x.2 colons := by
  unfold put_colons
  rw [put_mem, put_mem, add32_of_lt x.2 1 (by omega)]
  exact overlay_overlay (x.1.mem b) x.2 [ch ':'] [ch ':']

theorem part_mem (b : Buf) (hb : b ≠ .size_str) (x : State × Nat) (c : Component) (cs : List Component)
    (h : x.2 + (if cs = [] then c.chars else c.chars ++ colons).length < 2 ^ 32) :
    (if cs = [] then componentEffect b x c else put_colons b (componentEffect b x c)).1.mem b =
      overlay (x.1.mem b) x.2 (if cs = [] then c.chars else c.chars ++ colons) := by
  split
  · exact componentEffect_mem b hb x c
  · rename_i hcs
    rw [if_neg hcs, List.length_append, colons_length] at h
    have hidx : (componentEffect b x c).2 = x.2 + c.chars.length := add32_of_lt _ _ (by omega)
    rw [put_colons_mem _ _ (by omega), componentEffect_mem b hb, hidx, overlay_overlay]

theorem componentsEffect_mem (b : Buf) (hb : b ≠ .size_str) (x : State × Nat) (cs : List Component)
    (h : x.2 + (componentsText cs).length < 2 ^ 32) :
    (componentsEffect b x cs).1.mem b = overlay (x.1.mem b) x.2 (componentsText cs) := by
  induction cs generalizing x with
  | nil => exact (overlay_nil _ _).symm
  | cons c cs ih =>
    rw [componentsText_cons, List.length_append] at h
    have hidx := part_index b x c cs (by omega)
    rw [componentsEffect_cons, ih _ (by omega), hidx, part_mem b hb x c cs (by omega), overlay_overlay, componentsText_cons]

theorem identParts_within (b : Buf) (s : State) (n : Ident) :
    Within (identParts b (s, 0) n).1 ↔
      Within s ∧ DigitsFit n.components ∧ (n.text = [] ∨ n.text.length ≤ b.size) := by
  cases n with
  | plain c =>
    refine (componentEffect_within b (s, 0) c).trans ?_
    simp only [DigitsFit, Ident.components, Ident.text, List.mem_singleton, forall_eq, Nat.zero_add]
  | nested c cs =>
    -- The first component always has its colons, as one with another behind it.
    have hb := size_le b
    have hwithin := (put_colons_within b (componentEffect b (s, 0) c)).trans
      (and_congr_left fun _ => componentEffect_within b (s, 0) c)
    rw [componentEffect_index, Nat.zero_add] at hwithin
    refine (componentsEffect_within b _ (add32_lt _ _) cs).trans ?_
    rw [hwithin]
    unfold DigitsFit
    simp only [Ident.components, Ident.text, List.forall_mem_cons, List.append_eq_nil_iff, List.length_append,
      colons_length]
    constructor
    · rintro ⟨⟨⟨h, h1, h2⟩, h3⟩, h4, h5⟩
      have hc : c.chars.length ≤ 1024 := by
        rcases h2 with h2 | h2
        · simp [h2]
        · omega
      have hidx : (componentEffect b (s, 0) c).2 = c.chars.length := by
        rw [componentEffect_index, add32_of_lt _ _ (by omega), Nat.zero_add]
      rw [add32_of_lt 0 _ (by omega)] at h3
      rw [put_colons_index _ _ (by omega), hidx] at h5
      refine ⟨h, ⟨h1, h4⟩, Or.inr ?_⟩
      rcases h5 with h5 | h5
      · rw [h5, List.length_nil]
        omega
      · omega
    · rintro ⟨h, ⟨h1, h4⟩, h5⟩
      have h6 := h5.resolve_left (by simp [colons, text])
      have hidx : (componentEffect b (s, 0) c).2 = c.chars.length := by
        rw [componentEffect_index, add32_of_lt _ _ (by omega), Nat.zero_add]
      rw [add32_of_lt 0 _ (by omega), put_colons_index _ _ (by omega), hidx]
      exact ⟨⟨⟨h, h1, Or.inr (by omega)⟩, by omega⟩, h4, Or.inr (by omega)⟩

theorem identParts_index (b : Buf) (s : State) (n : Ident) (h : n.text.length < 2 ^ 32) :
    (identParts b (s, 0) n).2 = n.text.length := by
  cases n with
  | plain c =>
    refine (add32_of_lt 0 _ ?_).trans (Nat.zero_add _)
    rw [Nat.zero_add]
    exact h
  | nested c cs =>
    simp only [Ident.text, List.length_append, colons_length] at h ⊢
    have hidx : (componentEffect b (s, 0) c).2 = c.chars.length := by
      rw [componentEffect_index, add32_of_lt _ _ (by omega), Nat.zero_add]
    have hcol := put_colons_index b (componentEffect b (s, 0) c) (by omega)
    refine (componentsEffect_index b _ cs (by omega)).trans ?_
    rw [hcol, hidx]

theorem identParts_mem (b : Buf) (hb : b ≠ .size_str) (s : State) (n : Ident) (h : n.text.length < 2 ^ 32) :
    (identParts b (s, 0) n).1.mem b = overlay (s.mem b) 0 n.text := by
  cases n with
  | plain c => exact componentEffect_mem b hb (s, 0) c
  | nested c cs =>
    simp only [Ident.text, List.length_append, colons_length] at h ⊢
    have hidx : (componentEffect b (s, 0) c).2 = 0 + c.chars.length := by
      rw [componentEffect_index, add32_of_lt _ _ (by omega)]
    have hcol := put_colons_index b (componentEffect b (s, 0) c) (by omega)
    refine (componentsEffect_mem b hb _ cs (by omega)).trans ?_
    rw [put_colons_mem _ _ (by omega), componentEffect_mem b hb, hcol, hidx, overlay_overlay, Nat.add_assoc,
      ← colons_length, ← List.length_append, overlay_overlay]

theorem identEffect_within (b : Buf) (s : State) (n : Ident) :
    Within (identEffect b s n) ↔ Within s ∧ DigitsFit n.components ∧ n.text.length < b.size := by
  have hb := size_le b
  unfold identEffect
  rw [put_within, identParts_within]
  constructor
  · rintro ⟨⟨h, h1, h2⟩, h3⟩
    refine ⟨h, h1, ?_⟩
    rcases h2 with h2 | h2
    · rw [h2, List.length_nil]
      omega
    · rw [identParts_index _ _ _ (by omega)] at h3
      exact h3
  · rintro ⟨h, h1, h2⟩
    rw [identParts_index _ _ _ (by omega)]
    exact ⟨⟨h, h1, Or.inr (by omega)⟩, h2⟩

theorem identEffect_mem (b : Buf) (hb : b ≠ .size_str) (s : State) (n : Ident) (h : n.text.length < 2 ^ 32) :
    (identEffect b s n).mem b = overlay (s.mem b) 0 (n.text ++ [0]) := by
  unfold identEffect
  rw [put_mem, identParts_mem b hb s n h, identParts_index b s n h]
  have hover := overlay_overlay (s.mem b) 0 n.text [0]
  rwa [Nat.zero_add] at hover

/-- A state that differs from `s` in the arrays of `bs` only. -/
def Frame (bs : List Buf) (s t : State) : Prop :=
  (∃ m r, t = { s with mem := m, reach := r }) ∧ ∀ b, b ∉ bs → t.mem b = s.mem b

theorem Frame.trans {bs : List Buf} {s t u : State} (h : Frame bs s t) (h' : Frame bs t u) : Frame bs s u := by
  obtain ⟨⟨m, r, rfl⟩, h1⟩ := h
  obtain ⟨⟨m', r', rfl⟩, h2⟩ := h'
  exact ⟨⟨m', r', rfl⟩, fun b hb => (h2 b hb).trans (h1 b hb)⟩

theorem memcpy_frame (bs : List Buf) (s : State) (b : Buf) (hb : b ∈ bs) (k : Nat) (w : List Byte) :
    Frame bs s (s.memcpy b k w) :=
  ⟨⟨_, _, rfl⟩, fun b' hb' => s.memcpy_mem_other b b' k w (fun h => hb' (h ▸ hb))⟩

theorem componentEffect_frame (b : Buf) (x : State × Nat) (c : Component) :
    Frame [b, .size_str] x.1 (componentEffect b x c).1 :=
  (memcpy_frame _ _ .size_str (by simp) _ _).trans (memcpy_frame _ _ b (by simp) _ _)

theorem put_colons_frame (b : Buf) (x : State × Nat) : Frame [b, .size_str] x.1 (put_colons b x).1 :=
  (memcpy_frame _ _ b (by simp) _ _).trans (memcpy_frame _ _ b (by simp) _ _)

theorem componentsEffect_frame (b : Buf) (x : State × Nat) (cs : List Component) :
    Frame [b, .size_str] x.1 (componentsEffect b x cs).1 := by
  induction cs generalizing x with
  | nil => exact ⟨⟨_, _, rfl⟩, fun _ _ => rfl⟩
  | cons c cs ih =>
    rw [componentsEffect_cons]
    refine Frame.trans ?_ (ih _)
    split
    · exact componentEffect_frame b x c
    · exact (componentEffect_frame b x c).trans (put_colons_frame b _)

theorem identEffect_frame (b : Buf) (s : State) (n : Ident) : Frame [b, .size_str] s (identEffect b s n) := by
  refine Frame.trans ?_ (memcpy_frame _ _ b (by simp) _ _)
  cases n with
  | plain c => exact componentEffect_frame b (s, 0) c
  | nested c cs =>
    exact ((componentEffect_frame b (s, 0) c).trans (put_colons_frame b _)).trans (componentsEffect_frame b _ cs)

/-! ## The text of an item -/

theorem append_to_buffer_j (s : State) (w : List Byte) (h : s.j + w.length < 2 ^ 32) :
    (append_to_buffer s w).j = s.j + w.length := by
  induction w generalizing s with
  | nil => rfl
  | cons c w ih =>
    rw [List.length_cons] at h ⊢
    have hj : ((s.emit c).keep c).j = s.j + 1 := add32_of_lt s.j 1 (by omega)
    rw [append_to_buffer_cons, ih _ (by omega), hj]
    omega

theorem append_to_buffer_latest_size (s : State) (w : List Byte) (h : s.latest_size + w.length < 2 ^ 32) :
    (append_to_buffer s w).latest_size = s.latest_size + w.length := by
  induction w generalizing s with
  | nil => rfl
  | cons c w ih =>
    rw [List.length_cons] at h ⊢
    have hl : ((s.emit c).keep c).latest_size = s.latest_size + 1 := add32_of_lt s.latest_size 1 (by omega)
    rw [append_to_buffer_cons, ih _ (by omega), hl]
    omega

theorem append_to_buffer_old_params_i (s : State) (w : List Byte) :
    (append_to_buffer s w).old_params_i = s.old_params_i := by
  induction w generalizing s with
  | nil => rfl
  | cons c w ih => exact ih ((s.emit c).keep c)

theorem append_to_buffer_mem (s : State) (w : List Byte) (h : s.j + w.length < 2 ^ 32) :
    (append_to_buffer s w).mem .buffer = overlay (s.mem .buffer) s.j w := by
  induction w generalizing s with
  | nil => exact (overlay_nil _ _).symm
  | cons c w ih =>
    rw [List.length_cons] at h
    have hj : ((s.emit c).keep c).j = s.j + [c].length := add32_of_lt s.j 1 (by omega)
    have hm : ((s.emit c).keep c).mem .buffer = overlay (s.mem .buffer) s.j [c] := by
      rw [show ((s.emit c).keep c).mem .buffer = (s.emit c).mem .buffer from
        (s.emit c).memcpy_mem_other .latest_type .buffer (s.emit c).latest_size [c] (by decide)]
      exact put_mem s .buffer s.j c
    rw [append_to_buffer_cons, ih _ (by rw [hj, List.length_singleton]; omega), hj, hm, overlay_overlay]
    rfl

theorem remember_type_buffer (s : State) : (remember_type s).mem .buffer = s.mem .buffer := by
  rw [show (remember_type s).mem .buffer = ((s.put .old_params (16 * s.old_params_i + s.latest_size) 0).memcpy
    .old_params (16 * s.old_params_i) ((List.range s.latest_size).map (s.mem .latest_type))).mem .buffer from rfl]
  rw [State.memcpy_mem_other _ _ _ _ _ (by decide)]
  exact State.memcpy_mem_other _ _ _ _ _ (by decide)

/-- What stands before the next parameter. -/
def separator (d : Byte) : List Byte := if is_end_of_parameters d then [] else text [',', ' ']

theorem separatorEffect_buffer (d : Byte) (s : State) (h : s.j + 2 < 2 ^ 32) :
    (separatorEffect d s).mem .buffer = overlay (s.mem .buffer) s.j (separator d) ∧
      (separatorEffect d s).j = s.j + (separator d).length := by
  unfold separatorEffect separator
  split
  · exact ⟨(overlay_nil _ _).symm, rfl⟩
  · have hj : (s.emit (ch ',')).j = s.j + 1 := add32_of_lt s.j 1 (by omega)
    have h1 : (s.emit (ch ',')).mem .buffer = overlay (s.mem .buffer) s.j [ch ','] := put_mem s .buffer s.j (ch ',')
    have h2 : ((s.emit (ch ',')).emit (ch ' ')).mem .buffer =
        overlay ((s.emit (ch ',')).mem .buffer) (s.emit (ch ',')).j [ch ' '] := put_mem _ .buffer _ (ch ' ')
    refine ⟨?_, ?_⟩
    · rw [h2, h1, hj]
      exact overlay_overlay (s.mem .buffer) s.j [ch ','] [ch ' ']
    · have h3 : ((s.emit (ch ',')).emit (ch ' ')).j = add32 (s.emit (ch ',')).j 1 := rfl
      rw [h3, hj, add32_of_lt _ _ (by omega)]
      rfl

end SlayerOS.Mangle
