import SlayerOS.Mangle.Listed

/-!
# Class-type parameters

The round of a builtin code leaves the cursor on that code, and the loop steps over it. The
round of a class type leaves the cursor behind the name, and the loop steps over one
character of what follows.
-/

open SlayerOS.Bytes SlayerOS.Fuel SlayerOS.Fuel.Comp SlayerOS.Text

namespace SlayerOS.Mangle

/-- The text and its length so far. -/
def output (s : State) : Mem × Nat := (s.mem .buffer, s.j)

/-- `buffer[(*j)++]` for the characters of `w`, one after the other. -/
def written (x : Mem × Nat) (w : List Byte) : Mem × Nat :=
  w.foldl (fun x c => (overlay x.1 x.2 [c], add32 x.2 1)) x

/-- The text of a parameter, and the separator before the next one. -/
def itemText (p : Param) (ps : List Param) : List Byte := if ps = [] then p.text else p.text ++ text [',', ' ']

/-- From `s` on, every parameter takes its own rounds, one for each prefix and one for the
type. They append its item to the output and leave the cursor at the next parameter, and
behind the last one the loop ends. -/
def Consumed (atoi : List Byte → BitVec 32) (name : CString) : State → List Param → Prop
  | s, [] => (more_parameters name s).Ends false
  | s, p :: ps => ∃ t, Iterates (more_parameters name) (parameter_round atoi name) (p.qualifiers.length + 1) s t ∧
      t.i = s.i + p.mangled.length ∧ output t = written (output s) (itemText p ps) ∧ Consumed atoi name t ps

def noSuffix : CString := ⟨[], List.not_mem_nil⟩

/-- The parameter loop starts at the first parameter and consumes all of them. -/
def ConsumedExactly (atoi : List Byte → BitVec 32) (fn : QName) (ps : List Param) (s : State) : Prop :=
  ∃ t, (demangle_function_name atoi (symbolOf fn ps noSuffix) s).Ends t ∧ t.i = 2 + fn.mangled.length ∧
    Consumed atoi (symbolOf fn ps noSuffix) t ps

variable {atoi : List Byte → BitVec 32} {name : CString}

/-! ## The output -/

theorem itemText_eq (p : Param) (ps : List Param) : itemText p ps = p.text ++ gap (ps.map Param.text) := by
  unfold itemText gap
  cases ps with
  | nil => exact (List.append_nil _).symm
  | cons q qs => rfl

theorem written_append (x : Mem × Nat) (v w : List Byte) : written x (v ++ w) = written (written x v) w :=
  List.foldl_append

theorem append_to_buffer_output (s : State) (w : List Byte) :
    output (append_to_buffer s w) = written (output s) w := by
  induction w generalizing s with
  | nil => rfl
  | cons c w ih =>
    have hkeep : ((s.emit c).keep c).mem .buffer = (s.emit c).mem .buffer :=
      (s.emit c).memcpy_mem_other .latest_type .buffer (s.emit c).latest_size [c] (by decide)
    have hemit : (s.emit c).mem .buffer = overlay (s.mem .buffer) s.j [c] := put_mem s .buffer s.j c
    have hout : output ((s.emit c).keep c) = (overlay (s.mem .buffer) s.j [c], add32 s.j 1) :=
      Prod.ext (hkeep.trans hemit) rfl
    rw [append_to_buffer_cons, ih, hout]
    rfl

theorem separatorEffect_output (d : Byte) (s : State) :
    output (separatorEffect d s) = written (output s) (separator d) := by
  unfold separatorEffect separator
  split
  · rfl
  · have h1 : (s.emit (ch ',')).mem .buffer = overlay (s.mem .buffer) s.j [ch ','] := put_mem s .buffer s.j (ch ',')
    have h2 : ((s.emit (ch ',')).emit (ch ' ')).mem .buffer =
        overlay ((s.emit (ch ',')).mem .buffer) (s.emit (ch ',')).j [ch ' '] := put_mem _ .buffer _ (ch ' ')
    rw [h1] at h2
    exact Prod.ext h2 rfl

theorem paramEffect_output (d : Byte) (s : State) (w : List Byte) :
    output (paramEffect d s w) = written (output s) (w ++ separator d) := by
  have hremember : output (remember_type (append_to_buffer s w)) = output (append_to_buffer s w) :=
    Prod.ext (remember_type_buffer (append_to_buffer s w)) rfl
  unfold paramEffect
  rw [separatorEffect_output, hremember, append_to_buffer_output, written_append]

/-! ## The first character of a parameter -/

theorem QName.mangled_head (n : QName) (l : List Byte) :
    is_digit ((n.mangled ++ l).headD 0) = true ∨ (n.mangled ++ l).headD 0 = ch 'N' := by
  cases n with
  | one x => exact Or.inl (x.mangled_head l)
  | nested x xs => exact Or.inr rfl

theorem not_end_of_name : ∀ c : Byte, is_digit c = true ∨ c = ch 'N' → is_end_of_parameters c = false := by
  decide +kernel

theorem Param.mangled_head (p : Param) (l : List Byte) : is_end_of_parameters ((p.mangled ++ l).headD 0) = false := by
  unfold Param.mangled
  cases p.qualifiers with
  | nil =>
    cases p.base with
    | builtin k => exact (builtin_literal k).2.1
    | named n => exact not_end_of_name _ (n.mangled_head l)
  | cons q qs => exact (qualifier_literal q).2.1

theorem params_head (ps : List Param) (l : List Byte) (hl : is_end_of_parameters (l.headD 0) = true) :
    is_end_of_parameters ((ps.flatMap Param.mangled ++ l).headD 0) = true ↔ ps = [] := by
  cases ps with
  | nil => exact ⟨fun _ => rfl, fun _ => hl⟩
  | cons p ps =>
    rw [List.flatMap_cons, List.append_assoc, p.mangled_head]
    exact ⟨fun h => (Bool.false_ne_true h).elim, fun h => (List.cons_ne_nil p ps h).elim⟩

/-! ## The rounds of a parameter -/

section Short

variable (hn : name.chars.length < 2 ^ 32) (h0 : name.read 0 = some (ch '_'))

include hn h0

omit hn h0 in
theorem Rest.param {i : Nat} {p : Param} {ps : List Param} {l : List Byte}
    (h : Rest name i ((p :: ps).flatMap Param.mangled ++ l)) :
    Rest name (i + p.mangled.length) (ps.flatMap Param.mangled ++ l) := by
  rw [List.flatMap_cons, List.append_assoc] at h
  exact h.append

theorem param_iterate (p : Param) (hp : p.IsBuiltin) (ps : List Param) (l : List Byte)
    (hl : is_end_of_parameters (l.headD 0) = true) (s : State)
    (hs : Rest name s.i ((p :: ps).flatMap Param.mangled ++ l)) :
    ∃ d, itemText p ps = p.text ++ separator d ∧
      Iterates (more_parameters name) (parameter_round atoi name) (p.qualifiers.length + 1) s
        ((paramEffect d s p.text).seek (s.i + p.mangled.length)) := by
  obtain ⟨k, hk⟩ := hp
  have hmangled : p.mangled = p.qualifiers.map Qualifier.code ++ [k.code] := p.mangled_of_base _ hk
  have htext : p.text = p.qualifiers.flatMap Qualifier.text ++ k.text := p.text_of_base _ hk
  have hsep := params_head ps l hl
  rw [List.flatMap_cons, hmangled, List.append_assoc, List.append_assoc] at hs
  refine ⟨(ps.flatMap Param.mangled ++ l).headD 0, ?_, ?_⟩
  · unfold itemText separator
    by_cases hps : ps = []
    · rw [if_pos hps, if_pos (hsep.mpr hps), List.append_nil]
    · rw [if_neg hps, if_neg (fun h => hps (hsep.mp h))]
  · rw [hmangled, htext, List.length_append, List.length_map, List.length_singleton]
    exact builtin_iterate atoi hn h0 p.qualifiers k s hs

/-- The rounds of a class-type parameter end one character too far. -/
theorem class_overrun (hatoi : ReadsDecimals atoi) (p : Param) (n : QName) (hp : p.base = .named n) (l : List Byte)
    (s t : State) (hs : Rest name s.i (p.mangled ++ l))
    (ht : Iterates (more_parameters name) (parameter_round atoi name) (p.qualifiers.length + 1) s t) :
    t.i = add32 (s.i + p.mangled.length) 1 := by
  have hmangled : p.mangled = p.qualifiers.map Qualifier.code ++ n.mangled := p.mangled_of_base _ hp
  rw [hmangled, List.append_assoc] at hs
  obtain ⟨u, hu, hut⟩ := ht.split
  obtain rfl := hu.unique (qualifiers_iterate atoi hn h0 p.qualifiers s hs)
  have hrest : Rest name (s.i + p.qualifiers.length) (n.mangled ++ l) := by
    have h' := hs.append
    rwa [List.length_map] at h'
  cases hut with
  | succ _ _ v _ _ hv hend =>
    cases hend
    obtain ⟨item, q, d, hitem, _, hi⟩ := parameter_round_next hn h0 _ _ hv
    have hcls := ItemAt.cls _ _ _ _ hrest.read (n.mangled_head l) (hrest.ident hatoi hn)
    obtain ⟨_, rfl⟩ := hitem.unique hcls
    rw [hi, hmangled, List.length_append, List.length_map, Nat.add_assoc]

theorem consumed_iff (hatoi : ReadsDecimals atoi) (ps : List Param) (l : List Byte)
    (hl : is_end_of_parameters (l.headD 0) = true) (s : State) (hs : Rest name s.i (ps.flatMap Param.mangled ++ l)) :
    Consumed atoi name s ps ↔ ∀ p ∈ ps, p.IsBuiltin := by
  induction ps generalizing s with
  | nil =>
    constructor
    · intro _ p hp
      cases hp
    · intro _
      exact (ends_more_parameters s false).mpr ⟨_, hs.read, hl⟩
  | cons p ps ih =>
    have hnext := hs.param
    rw [List.forall_mem_cons]
    constructor
    · rintro ⟨t, ht, hti, _, hrest⟩
      rw [← hti] at hnext
      refine ⟨?_, (ih t hnext).mp hrest⟩
      cases hb : p.base with
      | builtin k => exact ⟨k, hb⟩
      | named n =>
        -- The cursor would be at the next parameter and one behind it.
        rw [List.flatMap_cons, List.append_assoc] at hs
        have hover := class_overrun hn h0 hatoi p n hb _ s t hs ht
        have hle := hs.le
        rw [List.length_append] at hle
        unfold add32 at hover
        omega
    · rintro ⟨hp, hps⟩
      obtain ⟨d, hitem, ht⟩ := param_iterate hn h0 p hp ps l hl s hs
      refine ⟨_, ht, rfl, ?_, (ih _ hnext).mpr hps⟩
      rw [hitem, ← paramEffect_output]
      rfl

/-- The loop ends behind builtin parameters. It stays inside the arrays exactly when they have the
room, and then it has written the parameters. -/
theorem params_rendered (ps : List Param) (hps : ∀ p ∈ ps, p.IsBuiltin) (l : List Byte)
    (hl : is_end_of_parameters (l.headD 0) = true) (s : State) (hs : Rest name s.i (ps.flatMap Param.mangled ++ l))
    (hlatest : s.latest_size = 0) :
    ∃ t, (demangle_parameters atoi name s).Ends t ∧ t.i = s.i + (ps.flatMap Param.mangled).length ∧
      (Within t ↔ Within s ∧ ListFits s.j s.old_params_i (ps.map Param.text)) ∧
      (ListFits s.j s.old_params_i (ps.map Param.text) →
        t.mem .buffer = overlay (s.mem .buffer) s.j (listed (ps.map Param.text)) ∧
          t.j = s.j + (listed (ps.map Param.text)).length) := by
  induction ps generalizing s with
  | nil =>
    refine ⟨s, while_stop ((ends_more_parameters s false).mpr ⟨_, hs.read, hl⟩), rfl, ?_, ?_⟩
    · exact (and_iff_left trivial).symm
    · exact fun _ => ⟨(overlay_nil _ _).symm, rfl⟩
  | cons p ps ih =>
    obtain ⟨hp, hrest⟩ := List.forall_mem_cons.mp hps
    obtain ⟨d, hitem, hround⟩ := param_iterate hn h0 p hp ps l hl s hs
    rw [itemText_eq] at hitem
    have hlong := p.two_le_text hp
    have hfirst := paramEffect_within d s p.text (List.ne_nil_of_length_pos (by omega)) hlatest
    have htext := paramEffect_text d s p.text
    rw [← hitem] at hfirst htext
    obtain ⟨t, ht, hti, hwithin, hwritten⟩ := ih hrest ((paramEffect d s p.text).seek (s.i + p.mangled.length)) hs.param
      (paramEffect_latest_size d s p.text)
    simp only [within_seek, State.seek_i, State.seek_j, State.seek_mem, State.seek_old_params_i] at hti hwithin hwritten
    refine ⟨t, hround.ends ht, ?_, ?_, ?_⟩
    · rw [hti, List.flatMap_cons, List.length_append, Nat.add_assoc]
    · rw [hwithin, hfirst, List.map_cons, ListFits]
      constructor
      · rintro ⟨⟨hs, h64, hrow, hj⟩, hfits⟩
        obtain ⟨-, hj', hrow'⟩ := htext hrow hj
        rw [hj', hrow'] at hfits
        exact ⟨hs, h64, hrow, hj, hfits⟩
      · rintro ⟨hs, h64, hrow, hj, hfits⟩
        obtain ⟨-, hj', hrow'⟩ := htext hrow hj
        rw [hj', hrow']
        exact ⟨⟨hs, h64, hrow, hj⟩, hfits⟩
    · rintro ⟨h64, hrow, hj, hfits⟩
      obtain ⟨hmem, hj', hrow'⟩ := htext hrow hj
      rw [hj', hrow'] at hwritten
      obtain ⟨htmem, htj⟩ := hwritten hfits
      have hsum : (p.text ++ gap (ps.map Param.text) ++ listed (ps.map Param.text)).length =
          (p.text ++ gap (ps.map Param.text)).length + (listed (ps.map Param.text)).length := List.length_append
      rw [List.map_cons, listed_cons]
      refine ⟨?_, ?_⟩
      · rw [htmem, hmem, overlay_overlay]
      · rw [htj, hsum, Nat.add_assoc]

end Short

/-! ## The whole symbol -/

theorem Consumed.lt {s : State} {ps : List Param} (h : Consumed atoi name s ps) (hs : s.i < 2 ^ 32) :
    s.i + (ps.flatMap Param.mangled).length < 2 ^ 32 := by
  induction ps generalizing s with
  | nil => exact hs
  | cons p ps ih =>
    obtain ⟨t, ht, hti, _, hrest⟩ := h
    have hlt := ih hrest (ht.inv (P := fun t => t.i < 2 ^ 32) (fun s t => parameter_round_lt s t) hs)
    rw [List.flatMap_cons, List.length_append]
    omega

theorem symbolOf_rest (fn : QName) (ps : List Param) (suffix : CString) :
    Rest (symbolOf fn ps suffix) 2 (fn.mangled ++ (ps.flatMap Param.mangled ++ suffix.chars)) :=
  ⟨[ch '_', ch 'Z'], rfl, rfl⟩

theorem symbolOf_mangled (fn : QName) (ps : List Param) (suffix : CString) : is_mangled (symbolOf fn ps suffix) = true :=
  is_mangled_iff.mpr ⟨_, rfl⟩

theorem function_name_found (hatoi : ReadsDecimals atoi) (fn : QName) (ps : List Param) (suffix : CString)
    (hn : (symbolOf fn ps suffix).chars.length < 2 ^ 32) (s : State) :
    ∃ u, (functionEffect s.start fn.ident).Ends u ∧
      (demangle_function_name atoi (symbolOf fn ps suffix) s).Ends (u.seek (2 + fn.mangled.length)) := by
  obtain ⟨u, hu⟩ := functionEffect_ends s.start fn.ident
  have hident := (symbolOf_rest fn ps suffix).ident hatoi hn
  exact ⟨u, hu, (demangle_function_name_ends hn s _).mpr ⟨_, _, u, hident, hu, rfl⟩⟩

/-- A call on a symbol of builtin parameters stays inside the arrays exactly when they have room
for the name, for every parameter, and for the text with what is behind the parameters. -/
theorem symbolOf_within (hatoi : ReadsDecimals atoi) (fn : QName) (ps : List Param) (hps : ∀ p ∈ ps, p.IsBuiltin)
    (suffix : CString) (hsuffix : is_end_of_parameters (suffix.chars.headD 0) = true)
    (hn : (symbolOf fn ps suffix).chars.length < 2 ^ 32) {s r : State}
    (h : (demangle_alloc_symbol atoi (symbolOf fn ps suffix) s).Ends r) :
    Within r ↔ Within s ∧ (∀ p ∈ ps, p.text.length ≤ 64) ∧
      fn.ident.text.length + (listed (ps.map Param.text)).length + 2 + suffix.chars.length ≤ 128 := by
  have hm := symbolOf_mangled fn ps suffix
  have hrest := symbolOf_rest fn ps suffix
  obtain ⟨n, q, u, t, hnq, hu, -, ht, hr⟩ := demangle_parts hn hm h
  obtain ⟨rfl, rfl⟩ := hnq.unique (hrest.ident hatoi hn)
  obtain ⟨hrow, hlatest⟩ := functionEffect_sizes hu
  obtain ⟨t', ht', hti, hloop, hwritten⟩ := params_rendered hn (is_mangled_read hm) ps hps suffix.chars hsuffix
    (u.seek (2 + fn.mangled.length)) hrest.append (hlatest.trans rfl)
  obtain rfl := ht.unique ht'
  have hend := hrest.append.append.le
  have htail : suffix.chars.length = (symbolOf fn ps suffix).chars.length - t.i := by
    rw [hti, State.seek_i]
    omega
  have hshort : ∀ w ∈ ps.map Param.text, 2 ≤ w.length := by
    intro w hw
    obtain ⟨p, hp, rfl⟩ := List.mem_map.mp hw
    exact p.two_le_text (hps p hp)
  have hrow : u.old_params_i = 0 := hrow
  simp only [State.seek_j, State.seek_old_params_i, hrow] at hloop hwritten
  rw [tail_within hn hr, hloop, within_seek, functionEffect_within hu, TailFits, ← htail]
  constructor
  · rintro ⟨⟨⟨hs, hident⟩, hfits⟩, hroom⟩
    obtain ⟨-, hj⟩ := functionEffect_text hu hident fn.ident_no_nul
    rw [(hwritten hfits).2, hj] at hroom
    rw [hj] at hfits
    have h64 := (listFits_iff _ hshort _ 0 (Nat.zero_le _) (by omega)).mp hfits
    exact ⟨hs, List.forall_mem_map.mp h64, by omega⟩
  · rintro ⟨hs, h64, hroom⟩
    have hident := ident_fits fn (by omega)
    obtain ⟨-, hj⟩ := functionEffect_text hu hident fn.ident_no_nul
    rw [hj] at hwritten ⊢
    have hfits := (listFits_iff _ hshort (fn.ident.text.length + 1) 0 (Nat.zero_le _) (by omega)).mpr
      (List.forall_mem_map.mpr h64)
    rw [(hwritten hfits).2]
    exact ⟨⟨⟨hs, hident⟩, hfits⟩, by omega⟩

theorem symbolOf_length (fn : QName) (ps : List Param) (hps : ∀ p ∈ ps, p.IsBuiltin) (suffix : CString)
    (h : fn.ident.text.length + (listed (ps.map Param.text)).length + 2 + suffix.chars.length ≤ 128) :
    (symbolOf fn ps suffix).chars.length < 2 ^ 32 := by
  have hname := fn.mangled_length (by omega)
  have hparams := params_mangled_length ps hps
  have hle := (symbolOf_rest fn ps suffix).le
  rw [List.length_append, List.length_append] at hle
  omega

/-- The parameters of a symbol are consumed exactly, inside the arrays, when none of them is of a
class type and there is room for each of them and for the text. -/
theorem consumedExactly_iff (hatoi : ReadsDecimals atoi) (fn : QName) (ps : List Param) (s : State) :
    ConsumedExactly atoi fn ps s ∧ StaysInside atoi (symbolOf fn ps noSuffix) s ↔
      Within s ∧ (∀ p ∈ ps, p.IsBuiltin ∧ p.text.length ≤ 64) ∧
        fn.ident.text.length + (listed (ps.map Param.text)).length + 2 ≤ 128 := by
  have hrest := symbolOf_rest fn ps noSuffix
  have hm := symbolOf_mangled fn ps noSuffix
  have h0 := is_mangled_read hm
  constructor
  · rintro ⟨⟨t, ht, hti, hcons⟩, r, hr, hw⟩
    have hn := (readable_of_ends hm s r hr).short
    have hparams := hrest.append
    rw [← hti] at hparams
    have hps := (consumed_iff hn h0 hatoi ps [] rfl t hparams).mp hcons
    obtain ⟨hs, h64, hroom⟩ := (symbolOf_within hatoi fn ps hps noSuffix rfl hn hr).mp hw
    exact ⟨hs, fun p hp => ⟨hps p hp, h64 p hp⟩, hroom⟩
  · rintro ⟨hs, hps, hroom⟩
    have hbuiltin := fun p hp => (hps p hp).1
    have hn := symbolOf_length fn ps hbuiltin noSuffix hroom
    obtain ⟨u, hu, ht⟩ := function_name_found hatoi fn ps noSuffix hn s
    obtain ⟨t, htt, hti, -, -⟩ := params_rendered hn h0 ps hbuiltin [] rfl (u.seek (2 + fn.mangled.length)) hrest.append
      ((functionEffect_sizes hu).2.trans rfl)
    obtain ⟨w, q, hwq⟩ := exists_rest hn t.i (by rw [hti]; exact hrest.append.append.le.le)
    have hr := (demangle_alloc_symbol_ends hm s _).mpr
      ⟨_, t, ht, htt, (append_remaining_name_ends (t.emit (ch ')')) _).mpr ⟨w, q, hwq, rfl⟩⟩
    exact ⟨⟨_, ht, rfl, (consumed_iff hn h0 hatoi ps [] rfl _ hrest.append).mpr hbuiltin⟩, _, hr,
      (symbolOf_within hatoi fn ps hbuiltin noSuffix rfl hn hr).mpr ⟨hs, fun p hp => (hps p hp).2, hroom⟩⟩

def foo : Identifier := ⟨text ['f', 'o', 'o'], by decide, by decide, by decide, by decide⟩

theorem zeroed_within : Within zeroed := fun _ => Nat.zero_le _

/-- `_Z3fooPi`, the symbol of `foo(int *)`. -/
theorem foo_int_pointer_consumed : ConsumedExactly decimal_atoi (.one foo) [⟨[.P], .builtin .i⟩] zeroed ∧
    StaysInside decimal_atoi (symbolOf (.one foo) [⟨[.P], .builtin .i⟩] noSuffix) zeroed :=
  (consumedExactly_iff decimal_atoi_reads (.one foo) [⟨[.P], .builtin .i⟩] zeroed).mpr
    ⟨zeroed_within, by simp [Param.IsBuiltin]; decide, by decide⟩

/-- `_Z3foo3fooi`: the loop steps over the `i` behind the class name. -/
theorem foo_class_not_consumed :
    ¬ ConsumedExactly decimal_atoi (.one foo) [⟨[], .named (.one foo)⟩, ⟨[], .builtin .i⟩] zeroed := by
  rintro ⟨t, _, hti, hcons⟩
  have hrest := (symbolOf_rest (.one foo) [⟨[], .named (.one foo)⟩, ⟨[], .builtin .i⟩] noSuffix).append
  rw [← hti] at hrest
  have h0 := is_mangled_read (symbolOf_mangled (.one foo) [⟨[], .named (.one foo)⟩, ⟨[], .builtin .i⟩] noSuffix)
  have hall := (consumed_iff (by decide +kernel) h0 decimal_atoi_reads _ [] rfl t hrest).mp hcons
  obtain ⟨k, hk⟩ := hall ⟨[], .named (.one foo)⟩ (by simp)
  cases hk

end SlayerOS.Mangle
