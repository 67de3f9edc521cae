import SlayerOS.Mangle.Classes
import Mathlib.Data.List.Induction

/-!
# Substitutions

A symbol spells a type that was there before as an index into the types that it is built
of. The demangler takes the index for the number of a parameter, and reads that parameter
up to its first space.
-/

open SlayerOS.Bytes SlayerOS.Fuel SlayerOS.Fuel.Comp SlayerOS.Text

namespace SlayerOS.Mangle

/-- A parameter: a builtin type with its prefixes, or the reference `S_` or `S<seq>_`. -/
inductive Arg where
  | type (qualifiers : List Qualifier) (k : Builtin)
  | ref (seq : List (Fin 36))

/-- A digit of `<seq>`, which is in base 36. -/
def seqDigit (d : Fin 36) : Byte :=
  if d.val < 10 then ch '0' + BitVec.ofNat 8 d.val else ch 'A' + BitVec.ofNat 8 (d.val - 10)

def Arg.mangled : Arg → List Byte
  | .type qs k => qs.map Qualifier.code ++ [k.code]
  | .ref seq => ch 'S' :: (seq.map seqDigit ++ [ch '_'])

/-! ## The dictionary -/

/-- A type built of a builtin type, its last prefix first. -/
abbrev Compound := List Qualifier × Builtin

def Compound.text (c : Compound) : List Byte := c.1.flatMap Qualifier.text ++ c.2.text

/-- The compound types in a type, the innermost first. A bare builtin is none. -/
def compounds : List Qualifier → Builtin → List Compound
  | [], _ => []
  | q :: qs, k => compounds qs k ++ [(q :: qs, k)]

/-- The dictionary has each type once. -/
def addTypes (dict cs : List Compound) : List Compound :=
  cs.foldl (fun dict c => if c ∈ dict then dict else dict ++ [c]) dict

/-- The entry that a reference names: `S_` is the first, and `S<seq>_` the one behind `seq`. -/
def entryOf (seq : List (Fin 36)) : Nat :=
  if seq = [] then 0 else seq.foldl (fun v d => 36 * v + d.val) 0 + 1

def Arg.text (dict : List Compound) : Arg → Option (List Byte)
  | .type qs k => some (Compound.text (qs, k))
  | .ref seq => dict[entryOf seq]?.map Compound.text

/-- The dictionary behind a parameter. -/
def Arg.learn (dict : List Compound) : Arg → List Compound
  | .type qs k => addTypes dict (compounds qs k)
  | .ref _ => dict

/-- The texts of the parameters, if every reference names an entry. -/
def texts : List Compound → List Arg → Option (List (List Byte))
  | _, [] => some []
  | dict, p :: ps => (p.text dict).bind fun w => (texts (p.learn dict) ps).map (w :: ·)

def signature (fn : Identifier) (ws : List (List Byte)) : List Byte :=
  fn.chars ++ [ch '('] ++ listed ws ++ [ch ')']

/-! ## The table -/

/-- The table `old_params` with the parameters `ws`, over what was in it before. -/
def table (m : Mem) (ws : List (List Byte)) : Mem :=
  ws.zipIdx.foldl (fun m x => overlay m (16 * x.2) (x.1 ++ [0])) m

/-- Where `atoi` sends a reference, the table with `rows` and the texts before the reference
has the entry's text up to a NUL or a space. -/
def Found (atoi : List Byte → BitVec 32) (m : Mem) (rows : List (List Byte)) (ps : List Arg)
    (ws : List (List Byte)) : Prop :=
  ∀ n seq w, ps[n]? = some (.ref seq) → ws[n]? = some w →
    TextAt old_param_stop (table m (rows ++ ws.take n)) (16 * repeatOf atoi (seq.map seqDigit)) w

/-- The demangler prints `w`, and nothing else. -/
def Prints (atoi : List Byte → BitVec 32) (name : CString) (w : List Byte) (s : State) : Prop :=
  ∃ r, (demangle_alloc_symbol atoi name s).Ends r ∧ r.mem .buffer = overlay (s.mem .buffer) 0 w ∧ r.j = w.length

/-- The signature fits the block, and its parameters fit `latest_type` and `type_i`. -/
structure SignatureFits (fn : Identifier) (ps : List Arg) (ws : List (List Byte)) : Prop where
  seqs : ∀ seq, Arg.ref seq ∈ ps → seq.length < 16
  params : ∀ w ∈ ws, w.length ≤ 64
  whole : (signature fn ws).length ≤ 128

theorem seqDigit_ne : ∀ d : Fin 36, seqDigit d ≠ 0 ∧ seqDigit d ≠ ch '_' := by
  decide

theorem Arg.mangled_no_nul (p : Arg) : (0 : Byte) ∉ p.mangled := by
  cases p with
  | type qs k => exact Param.mangled_no_nul ⟨qs, .builtin k⟩
  | ref seq =>
    intro h
    rcases List.mem_cons.mp h with h | h
    · exact absurd h (by decide)
    · rcases List.mem_append.mp h with h | h
      · obtain ⟨d, _, hd⟩ := List.mem_map.mp h
        exact (seqDigit_ne d).1 hd
      · exact absurd h (by decide)

/-- The symbol of the function `fn` with the parameters `ps`. -/
def argSymbol (fn : Identifier) (ps : List Arg) : CString where
  chars := ch '_' :: ch 'Z' :: (fn.mangled ++ ps.flatMap Arg.mangled)
  no_nul := by
    intro h
    rcases List.mem_cons.mp h with h | h
    · exact absurd h (by decide)
    · rcases List.mem_cons.mp h with h | h
      · exact absurd h (by decide)
      · rcases List.mem_append.mp h with h | h
        · exact fn.mangled_no_nul h
        · obtain ⟨p, _, hp⟩ := List.mem_flatMap.mp h
          exact p.mangled_no_nul hp

variable {atoi : List Byte → BitVec 32} {name : CString}

/-! ## What the output holds -/

theorem written_index (x : Mem × Nat) (w : List Byte) (h : x.2 + w.length < 2 ^ 32) :
    (written x w).2 = x.2 + w.length := by
  induction w generalizing x with
  | nil => rfl
  | cons c w ih =>
    rw [List.length_cons] at h ⊢
    have hone := add32_of_lt x.2 1 (by omega)
    exact (ih (overlay x.1 x.2 [c], add32 x.2 1) (by dsimp only; omega)).trans (by dsimp only; omega)

theorem written_one (x : Mem × Nat) (w : List Byte) (c : Byte) :
    written x (w ++ [c]) = (overlay (written x w).1 (written x w).2 [c], add32 (written x w).2 1) :=
  written_append x w [c]

theorem written_length (m : Mem) (w : List Byte) : (written (m, 0) w).2 = w.length % 2 ^ 32 := by
  induction w using List.reverseRecOn with
  | nil => rfl
  | append_singleton w c ih =>
    rw [written_one, ih, List.length_append, List.length_singleton]
    exact Nat.mod_add_mod _ _ _

theorem written_eq (m : Mem) (w : List Byte) (h : w.length < 2 ^ 32) : written (m, 0) w = (overlay m 0 w, w.length) := by
  induction w using List.reverseRecOn with
  | nil => exact Prod.ext (overlay_nil m 0).symm rfl
  | append_singleton w c ih =>
    rw [List.length_append, List.length_singleton] at h
    rw [written_one, ih (by omega), List.length_append, List.length_singleton]
    have hover := overlay_overlay m 0 w [c]
    rw [Nat.zero_add] at hover
    exact Prod.ext hover (add32_of_lt _ _ h)

theorem written_covers (m : Mem) (w : List Byte) (i : Nat) (h : i < w.length) : (written (m, 0) w).1 (i % 2 ^ 32) ∈ w := by
  induction w using List.reverseRecOn with
  | nil => cases h
  | append_singleton w c ih =>
    rw [List.length_append, List.length_singleton] at h
    rw [written_one, written_length]
    dsimp only
    by_cases hi : i % 2 ^ 32 = w.length % 2 ^ 32
    · rw [hi]
      have hlast := overlay_inside (written (m, 0) w).1 (w.length % 2 ^ 32) [c] 0 (by simp)
      rw [Nat.add_zero] at hlast
      rw [hlast]
      exact List.mem_append_right w (List.mem_singleton.mpr rfl)
    · rw [overlay_outside _ _ _ _ (by rw [List.length_singleton]; omega)]
      refine List.mem_append_left _ (ih ?_)
      rcases Nat.lt_or_eq_of_le (Nat.le_of_lt_succ h) with hlt | rfl
      · exact hlt
      · exact absurd rfl hi

theorem written_inj (v w : List Byte) (hv : (0 : Byte) ∉ v)
    (h : written (fun _ => 0, 0) v = (overlay (fun _ => 0) 0 w, w.length)) : v = w := by
  have hlen : v.length % 2 ^ 32 = w.length := by
    rw [← written_length (fun _ => 0) v, h]
  -- A text that wraps leaves no zero behind it.
  have hshort : v.length < 2 ^ 32 := by
    by_contra hle
    have hmem := written_covers (fun _ => 0) v w.length (by omega)
    rw [h, Nat.mod_eq_of_lt (by omega)] at hmem
    dsimp only at hmem
    rw [overlay_outside _ _ _ _ (by omega)] at hmem
    exact hv hmem
  rw [Nat.mod_eq_of_lt hshort] at hlen
  rw [written_eq _ v hshort] at h
  have hover : overlay (fun _ => 0) 0 v = overlay (fun _ => 0) 0 w := congrArg Prod.fst h
  refine List.ext_getElem hlen ?_
  intro k hk hk'
  rw [← overlay_inside (fun _ => 0) 0 v k hk, hover, overlay_inside (fun _ => 0) 0 w k hk']

/-! ## What the table holds -/

theorem table_append (m : Mem) (ws : List (List Byte)) (w : List Byte) :
    table m (ws ++ [w]) = overlay (table m ws) (16 * ws.length) (w ++ [0]) := by
  unfold table
  rw [List.zipIdx_append, List.foldl_append, Nat.zero_add]
  rfl

theorem append_to_buffer_latest_type (s : State) (w : List Byte) (h : s.latest_size + w.length < 2 ^ 32) :
    (append_to_buffer s w).mem .latest_type = overlay (s.mem .latest_type) s.latest_size w := by
  induction w generalizing s with
  | nil => exact (overlay_nil _ _).symm
  | cons c w ih =>
    rw [List.length_cons] at h
    have hl : ((s.emit c).keep c).latest_size = s.latest_size + [c].length := add32_of_lt s.latest_size 1 (by omega)
    have hemit : (s.emit c).mem .latest_type = s.mem .latest_type :=
      s.memcpy_mem_other .buffer .latest_type s.j [c] (by decide)
    have hm : ((s.emit c).keep c).mem .latest_type = overlay (s.mem .latest_type) s.latest_size [c] := by
      rw [show ((s.emit c).keep c).mem .latest_type = overlay ((s.emit c).mem .latest_type) s.latest_size [c] from
        put_mem (s.emit c) .latest_type s.latest_size c, hemit]
    rw [append_to_buffer_cons, ih _ (by rw [hl, List.length_singleton]; omega), hl, hm, overlay_overlay]
    rfl

theorem emit_old_params (s : State) (c : Byte) : (s.emit c).mem .old_params = s.mem .old_params :=
  s.memcpy_mem_other .buffer .old_params s.j [c] (by decide)

theorem append_to_buffer_old_params (s : State) (w : List Byte) :
    (append_to_buffer s w).mem .old_params = s.mem .old_params := by
  induction w generalizing s with
  | nil => rfl
  | cons c w ih =>
    have hkeep : ((s.emit c).keep c).mem .old_params = (s.emit c).mem .old_params :=
      (s.emit c).memcpy_mem_other .latest_type .old_params (s.emit c).latest_size [c] (by decide)
    rw [append_to_buffer_cons, ih, hkeep, emit_old_params]

theorem separatorEffect_old_params (d : Byte) (s : State) :
    (separatorEffect d s).mem .old_params = s.mem .old_params ∧
      (separatorEffect d s).old_params_i = s.old_params_i ∧ (separatorEffect d s).latest_size = s.latest_size := by
  unfold separatorEffect
  split
  · exact ⟨rfl, rfl, rfl⟩
  · exact ⟨(emit_old_params _ _).trans (emit_old_params s _), rfl, rfl⟩

theorem remember_type_row (s : State) (w : List Byte) (hw : s.mem .latest_type = overlay (s.mem .latest_type) 0 w)
    (hl : s.latest_size = w.length) :
    (remember_type s).mem .old_params = overlay (s.mem .old_params) (16 * s.old_params_i) (w ++ [0]) := by
  have hlatest : (List.range s.latest_size).map (s.mem .latest_type) = w := by
    rw [hl]
    refine List.ext_getElem (by rw [List.length_map, List.length_range]) ?_
    intro k hk hk'
    have hin := overlay_inside (s.mem .latest_type) 0 w k hk'
    rw [Nat.zero_add, ← hw] at hin
    rw [List.getElem_map, List.getElem_range, hin]
  have hstep : (remember_type s).mem .old_params =
      ((s.put .old_params (16 * s.old_params_i + s.latest_size) 0).memcpy .old_params (16 * s.old_params_i)
        ((List.range s.latest_size).map (s.mem .latest_type))).mem .old_params := rfl
  rw [hstep, State.memcpy_mem_same, put_mem, hlatest, hl, overlay_before]

/-- The table has the parameters `rows`, and the next one is empty so far. -/
structure Tabled (m : Mem) (rows : List (List Byte)) (s : State) : Prop where
  table : s.mem .old_params = Mangle.table m rows
  count : s.old_params_i = rows.length
  empty : s.latest_size = 0

theorem Tabled.param {m : Mem} {rows : List (List Byte)} {s : State} (h : Tabled m rows s) (d : Byte) (w : List Byte)
    (hw : w.length < 2 ^ 32) (hrows : rows.length + 1 < 2 ^ 32) : Tabled m (rows ++ [w]) (paramEffect d s w) := by
  obtain ⟨htable, hcount, hempty⟩ := h
  have hlatest := append_to_buffer_latest_type s w (by omega)
  have hsize := append_to_buffer_latest_size s w (by omega)
  have hidx := append_to_buffer_old_params_i s w
  rw [hempty] at hlatest hsize
  rw [Nat.zero_add] at hsize
  have hrow := remember_type_row (append_to_buffer s w) w (by rw [hlatest, overlay_idem]) hsize
  obtain ⟨h1, h2, h3⟩ := separatorEffect_old_params d (remember_type (append_to_buffer s w))
  refine ⟨?_, ?_, ?_⟩
  · refine h1.trans ?_
    rw [hrow, append_to_buffer_old_params, hidx, htable, hcount, table_append]
  · refine h2.trans ?_
    have hadd : (remember_type (append_to_buffer s w)).old_params_i = add32 (append_to_buffer s w).old_params_i 1 := rfl
    rw [hadd, hidx, hcount, add32_of_lt _ _ hrows, List.length_append, List.length_singleton]
  · exact h3

theorem table_row (m : Mem) (ws : List (List Byte)) (hws : ∀ w ∈ ws, w.length < 16) (r : Nat) (v : List Byte)
    (hv : ws[r]? = some v) (k : Nat) (hk : k < (v ++ [0]).length) : table m ws (16 * r + k) = (v ++ [0])[k] := by
  induction ws using List.reverseRecOn with
  | nil => cases hv
  | append_singleton ws w ih =>
    rw [table_append]
    obtain ⟨hr, hget⟩ := List.getElem?_eq_some_iff.mp hv
    rw [List.length_append, List.length_singleton] at hr
    rcases Nat.lt_or_eq_of_le (Nat.le_of_lt_succ hr) with hlt | rfl
    · have hshort := hws v (hget ▸ List.getElem_mem _)
      rw [List.length_append, List.length_singleton] at hk
      rw [overlay_outside _ _ _ _ (by omega)]
      rw [List.getElem?_append_left hlt] at hv
      exact ih (fun w hw => hws w (List.mem_append_left _ hw)) hv
    · obtain rfl : w = v := by simpa using hv
      exact overlay_inside _ _ _ k hk

theorem table_behind (m : Mem) (ws : List (List Byte)) (hws : ∀ w ∈ ws, w.length < 16) (a : Nat)
    (ha : 16 * ws.length ≤ a) : table m ws a = m a := by
  induction ws using List.reverseRecOn with
  | nil => rfl
  | append_singleton ws w ih =>
    have hw := hws w (by simp)
    rw [List.length_append, List.length_singleton] at ha
    rw [table_append, overlay_outside _ _ _ _ (by rw [List.length_append, List.length_singleton]; omega)]
    exact ih (fun w hw => hws w (List.mem_append_left _ hw)) (by omega)

/-- While the parameters are short, a reference is found exactly when the parameter with the
number that `atoi` reads is before it, and is the entry's text up to the first space. -/
theorem found_iff_of_short (atoi : List Byte → BitVec 32) (ps : List Arg) (ws : List (List Byte))
    (hws : ∀ w ∈ ws, w.length < 16) :
    (∀ m, Found atoi m [] ps ws) ↔
      ∀ n seq w, ps[n]? = some (.ref seq) → ws[n]? = some w →
        ∃ v, (ws.take n)[repeatOf atoi (seq.map seqDigit)]? = some v ∧
          v.takeWhile (fun c => !old_param_stop c) = w := by
  have hread : ∀ m n r v, (ws.take n)[r]? = some v →
      TextAt old_param_stop (table m (ws.take n)) (16 * r) (v.takeWhile fun c => !old_param_stop c) := by
    intro m n r v hv
    refine textAt_takeWhile rfl _ _ v ?_
    exact table_row m (ws.take n) (fun w hw => hws w (List.mem_of_mem_take hw)) r v hv
  constructor
  · intro h n seq w hp hw
    cases hv : (ws.take n)[repeatOf atoi (seq.map seqDigit)]? with
    | some v => exact ⟨v, rfl, (hread _ n _ v hv).unique (h (fun _ => 0) n seq w hp hw)⟩
    | none =>
      -- A table without a NUL or a space behind the parameters stops no scan.
      have hstop := (h (fun _ => ch 'x') n seq w hp hw).stops
      rw [List.nil_append, table_behind _ _ (fun w hw => hws w (List.mem_of_mem_take hw)) _ (by
        have := List.getElem?_eq_none_iff.mp hv
        omega)] at hstop
      exact absurd hstop (by decide)
  · intro h m n seq w hp hw
    obtain ⟨v, hv, rfl⟩ := h n seq w hp hw
    exact hread m n _ v hv

/-! ## The rounds of a parameter -/

/-- The demangler has the text `w` for the parameter, with the table `m`. -/
def Arg.Reads (atoi : List Byte → BitVec 32) (m : Mem) : Arg → List Byte → Prop
  | .type qs k, w => w = Compound.text (qs, k)
  | .ref seq, w => TextAt old_param_stop m (16 * repeatOf atoi (seq.map seqDigit)) w

theorem Arg.mangled_head (p : Arg) (l : List Byte) : is_end_of_parameters ((p.mangled ++ l).headD 0) = false := by
  cases p with
  | type qs k => exact Param.mangled_head ⟨qs, .builtin k⟩ l
  | ref seq => rfl

theorem Frame.output {s u : State} (h : Frame [.type_i] s u) : output u = output s := by
  obtain ⟨⟨m, r, rfl⟩, hmem⟩ := h
  exact Prod.ext (hmem .buffer (by decide)) rfl

theorem Tabled.frame {m : Mem} {rows : List (List Byte)} {s u : State} (h : Tabled m rows s)
    (hu : Frame [.type_i] s u) : Tabled m rows u := by
  obtain ⟨⟨m', r, rfl⟩, hmem⟩ := hu
  exact ⟨(hmem .old_params (by decide)).trans h.table, h.count, h.empty⟩

section Short

variable (hn : name.chars.length < 2 ^ 32) (h0 : name.read 0 = some (ch '_'))

include hn h0

theorem ref_round (seq : List (Fin 36)) (s : State) {l : List Byte} (hs : Rest name s.i ((Arg.ref seq).mangled ++ l))
    (t : State) :
    (parameter_round atoi name s).Ends t ↔
      ∃ w, (Arg.ref seq).Reads atoi (s.mem .old_params) w ∧
        t = (paramEffect (l.headD 0) (s.memcpy .type_i 0 (seq.map seqDigit ++ [0])) w).seek
          (s.i + (Arg.ref seq).mangled.length) := by
  have hle := hs.le
  unfold Arg.mangled at hs hle ⊢
  rw [List.cons_append, List.append_assoc] at hs
  rw [List.length_append, List.length_cons, List.length_append, List.length_singleton] at hle
  have hscan := hs.tail.scan hn (p := fun c => c != ch '_') (by
    intro c hc
    obtain ⟨d, _, rfl⟩ := List.mem_map.mp hc
    exact bne_iff_ne.mpr (seqDigit_ne d).2) rfl
  have hread := hs.tail.append.read
  have hnext := hs.tail.append.tail.read
  rw [← add32_of_lt s.i 1 (by omega)] at hscan
  have hitem : ItemAt atoi name s.i (.ref (seq.map seqDigit)) _ := ItemAt.ref s.i _ _ hs.read hscan
  rw [add32_of_lt s.i 1 (by omega)] at hitem
  have hlen : s.i + (ch 'S' :: (seq.map seqDigit ++ [ch '_'])).length = s.i + 1 + (seq.map seqDigit).length + 1 := by
    rw [List.length_cons, List.length_append, List.length_singleton]
    omega
  have hadd : add32 (s.i + 1 + (seq.map seqDigit).length) 1 = s.i + 1 + (seq.map seqDigit).length + 1 :=
    add32_of_lt _ _ (by omega)
  rw [parameter_round_ends hn h0, hlen]
  constructor
  · rintro ⟨item, q, u, c, hitem', hu, hc, ht⟩
    obtain ⟨rfl, rfl⟩ := hitem.unique hitem'
    obtain rfl : ch '_' = c := Option.some.inj (hread.symm.trans hc)
    rw [if_neg (by decide), hadd] at ht
    obtain ⟨d, hd, rfl⟩ := ht
    obtain rfl : l.headD 0 = d := Option.some.inj (hnext.symm.trans hd)
    simp only [itemEffect, ends_bind, ends_scan, ends_pure] at hu
    obtain ⟨w, hw, rfl⟩ := hu
    exact ⟨w, hw, rfl⟩
  · rintro ⟨w, hw, rfl⟩
    refine ⟨_, _, append_to_buffer (s.memcpy .type_i 0 (seq.map seqDigit ++ [0])) w, ch '_', hitem, ?_, hread, ?_⟩
    · simp only [itemEffect, ends_bind, ends_scan, ends_pure]
      exact ⟨w, hw, rfl⟩
    · rw [if_neg (by decide), hadd]
      exact ⟨_, hnext, rfl⟩

/-- The rounds of a parameter print its text `w`, put it into the table, and leave the
cursor behind the parameter. -/
theorem arg_iterate (p : Arg) (s : State) {l : List Byte} (hs : Rest name s.i (p.mangled ++ l)) (w : List Byte)
    (hw : p.Reads atoi (s.mem .old_params) w) :
    ∃ n t, Iterates (more_parameters name) (parameter_round atoi name) n s t ∧ t.i = s.i + p.mangled.length ∧
      output t = written (output s) (w ++ separator (l.headD 0)) ∧
      (∀ m rows, Tabled m rows s → w.length < 2 ^ 32 → rows.length + 1 < 2 ^ 32 → Tabled m (rows ++ [w]) t) ∧
      (w ≠ [] → s.latest_size = 0 → (Within t ↔ Within s ∧ (∀ seq, p = .ref seq → seq.length < 16) ∧
        w.length ≤ 64 ∧ 16 * s.old_params_i + w.length < 1024 ∧
        s.j + (w ++ separator (l.headD 0)).length ≤ 128)) := by
  obtain ⟨n, u, hu, hwithin, hround⟩ : ∃ n u, Frame [.type_i] s u ∧
      (Within u ↔ Within s ∧ ∀ seq, p = .ref seq → seq.length < 16) ∧
      Iterates (more_parameters name) (parameter_round atoi name) n s
        ((paramEffect (l.headD 0) u w).seek (s.i + p.mangled.length)) := by
    cases p with
    | type qs k =>
      obtain rfl := hw
      have hrest := hs
      unfold Arg.mangled at hrest ⊢
      rw [List.append_assoc] at hrest
      rw [List.length_append, List.length_map, List.length_singleton]
      exact ⟨_, s, ⟨⟨_, _, rfl⟩, fun _ _ => rfl⟩, (and_iff_left nofun).symm, builtin_iterate atoi hn h0 qs k s hrest⟩
    | ref seq =>
      refine ⟨1, _, memcpy_frame [.type_i] s .type_i (by simp) 0 (seq.map seqDigit ++ [0]), ?_, ?_⟩
      · rw [memcpy_within, List.length_append, List.length_map, List.length_singleton]
        rw [Nat.zero_add]
        refine and_congr_right fun _ => ⟨?_, fun hall => Or.inr (hall seq rfl)⟩
        rintro (hnil | hfit) _ ⟨⟩
        · exact absurd hnil (List.append_ne_nil_of_right_ne_nil _ (List.cons_ne_nil _ _))
        · exact hfit
      · have hgo : (more_parameters name s).Ends true :=
          (ends_more_parameters s true).mpr ⟨_, hs.read, Arg.mangled_head _ l⟩
        exact Iterates.one hgo ((ref_round hn h0 seq s hs _).mpr ⟨w, hw, rfl⟩)
  refine ⟨n, _, hround, rfl, ?_, ?_, ?_⟩
  · rw [← hu.output, ← paramEffect_output]
    rfl
  · intro m rows htab hlen hrows
    obtain ⟨h1, h2, h3⟩ := (htab.frame hu).param (l.headD 0) w hlen hrows
    exact ⟨h1, h2, h3⟩
  · intro hne hlatest
    obtain ⟨hl, hj, hrow⟩ : u.latest_size = s.latest_size ∧ u.j = s.j ∧ u.old_params_i = s.old_params_i := by
      obtain ⟨⟨m, r, rfl⟩, -⟩ := hu
      exact ⟨rfl, rfl, rfl⟩
    rw [within_seek, paramEffect_within _ _ _ hne (hl.trans hlatest), hwithin, hj, hrow, and_assoc]

theorem arg_reads (p : Arg) (s t : State) {l : List Byte} (hs : Rest name s.i (p.mangled ++ l))
    (h : (demangle_parameters atoi name s).Ends t) : ∃ w, p.Reads atoi (s.mem .old_params) w := by
  cases p with
  | type qs k => exact ⟨_, rfl⟩
  | ref seq =>
    obtain ⟨u, hu, _⟩ := while_next h ((ends_more_parameters s true).mpr ⟨_, hs.read, Arg.mangled_head _ l⟩)
    obtain ⟨w, hw, _⟩ := (ref_round hn h0 seq s hs u).mp hu
    exact ⟨w, hw⟩

end Short

/-! ## The parameters -/

theorem texts_cons {dict : List Compound} {p : Arg} {ps : List Arg} {ws : List (List Byte)}
    (h : texts dict (p :: ps) = some ws) :
    ∃ w vs, ws = w :: vs ∧ p.text dict = some w ∧ texts (p.learn dict) ps = some vs := by
  obtain ⟨w, hw, hrest⟩ := Option.bind_eq_some_iff.mp h
  obtain ⟨vs, hvs, rfl⟩ := Option.map_eq_some_iff.mp hrest
  exact ⟨w, vs, rfl, hw, hvs⟩

theorem args_head (ps : List Arg) : is_end_of_parameters ((ps.flatMap Arg.mangled).headD 0) = true ↔ ps = [] := by
  cases ps with
  | nil => exact ⟨fun _ => rfl, fun _ => rfl⟩
  | cons p ps =>
    rw [List.flatMap_cons, p.mangled_head]
    exact ⟨fun h => (Bool.false_ne_true h).elim, fun h => (List.cons_ne_nil p ps h).elim⟩

theorem separator_eq_gap {dict : List Compound} {ps : List Arg} {ws : List (List Byte)} (h : texts dict ps = some ws) :
    separator ((ps.flatMap Arg.mangled).headD 0) = gap ws := by
  unfold separator gap
  cases ps with
  | nil =>
    obtain rfl := Option.some.inj h
    rw [if_pos ((args_head []).mpr rfl), if_pos rfl]
  | cons p ps =>
    obtain ⟨v, vs, rfl, _⟩ := texts_cons h
    rw [if_neg (fun hend => List.cons_ne_nil p ps ((args_head _).mp hend)), if_neg (List.cons_ne_nil v vs)]

theorem compound_text_length (c : Compound) : 2 ≤ c.text.length := by
  have hk := builtin_text_length c.2
  unfold Compound.text
  rw [List.length_append]
  omega

theorem Arg.text_length {dict : List Compound} {p : Arg} {w : List Byte} (h : p.text dict = some w) : 2 ≤ w.length := by
  cases p with
  | type qs k =>
    obtain rfl := Option.some.inj h
    exact compound_text_length (qs, k)
  | ref seq =>
    obtain ⟨c, -, rfl⟩ := Option.map_eq_some_iff.mp h
    exact compound_text_length c

theorem texts_length {dict : List Compound} {ps : List Arg} {ws : List (List Byte)} (h : texts dict ps = some ws) :
    ∀ w ∈ ws, 2 ≤ w.length := by
  induction ps generalizing dict ws with
  | nil =>
    obtain rfl := Option.some.inj h
    exact List.forall_mem_nil _
  | cons p ps ih =>
    obtain ⟨v, vs, rfl, hv, hvs⟩ := texts_cons h
    exact List.forall_mem_cons.mpr ⟨p.text_length hv, ih hvs⟩

theorem reads_text {dict : List Compound} {p : Arg} {w : List Byte} (h : p.text dict = some w) (m : Mem) :
    p.Reads atoi m w ↔ ∀ seq, p = .ref seq → TextAt old_param_stop m (16 * repeatOf atoi (seq.map seqDigit)) w := by
  cases p with
  | type qs k =>
    obtain rfl := Option.some.inj h
    exact ⟨fun _ seq hp => absurd hp (by simp), fun _ => rfl⟩
  | ref seq =>
    constructor
    · rintro hw _ ⟨⟩
      exact hw
    · intro hw
      exact hw seq rfl

theorem found_cons {m : Mem} {rows : List (List Byte)} {dict : List Compound} {p : Arg} {w : List Byte}
    (h : p.text dict = some w) (ps : List Arg) (ws : List (List Byte)) :
    Found atoi m rows (p :: ps) (w :: ws) ↔ p.Reads atoi (table m rows) w ∧ Found atoi m (rows ++ [w]) ps ws := by
  rw [reads_text h]
  constructor
  · intro hfound
    refine ⟨?_, ?_⟩
    · rintro seq rfl
      have h0 := hfound 0 seq w rfl rfl
      rwa [List.take_zero, List.append_nil] at h0
    · intro n seq v hp hv
      have hnext := hfound (n + 1) seq v hp hv
      rwa [List.take_succ_cons, List.append_cons] at hnext
  · rintro ⟨hhead, hrest⟩ n seq v hp hv
    cases n with
    | zero =>
      obtain rfl := Option.some.inj hp
      obtain rfl := Option.some.inj hv
      rw [List.take_zero, List.append_nil]
      exact hhead seq rfl
    | succ n =>
      rw [List.take_succ_cons, List.append_cons]
      exact hrest n seq v hp hv

theorem compound_text_chars (c : Compound) : (0 : Byte) ∉ c.text ∧ ch ',' ∉ c.text := by
  have hq : ∀ q : Qualifier, (0 : Byte) ∉ q.text ∧ ch ',' ∉ q.text := by
    intro q
    cases q with
    | P => decide
    | K => decide
  have hk : (0 : Byte) ∉ c.2.text ∧ ch ',' ∉ c.2.text := by
    cases c.2 with
    | _ => decide
  unfold Compound.text
  refine ⟨?_, ?_⟩
  · intro h
    rcases List.mem_append.mp h with h | h
    · obtain ⟨q, _, hq'⟩ := List.mem_flatMap.mp h
      exact (hq q).1 hq'
    · exact hk.1 h
  · intro h
    rcases List.mem_append.mp h with h | h
    · obtain ⟨q, _, hq'⟩ := List.mem_flatMap.mp h
      exact (hq q).2 hq'
    · exact hk.2 h

theorem append_separator_inj (v w x y : List Byte) (hv : ch ',' ∉ v) (hw : ch ' ' ∉ w)
    (h : w ++ text [',', ' '] ++ x = v ++ text [',', ' '] ++ y) : w = v := by
  rw [List.append_assoc, List.append_assoc] at h
  rcases List.append_eq_append_iff.mp h with ⟨z, hz, hx⟩ | ⟨z, hz, hy⟩
  · cases z with
    | nil => rw [hz, List.append_nil]
    | cons c z =>
      obtain ⟨hc, _⟩ := List.cons.inj hx
      exact absurd (by rw [hz, ← hc]; exact List.mem_append_right w List.mem_cons_self) hv
  · cases z with
    | nil => rw [hz, List.append_nil]
    | cons c z =>
      obtain ⟨_, hy⟩ := List.cons.inj hy
      cases z with
      | nil => exact absurd (List.cons.inj hy).1 (by decide)
      | cons d z =>
        obtain ⟨hd, _⟩ := List.cons.inj hy
        exact absurd (by rw [hz, ← hd]; simp) hw

theorem Arg.Reads.no_nul {m : Mem} {p : Arg} {w : List Byte} (h : p.Reads atoi m w) : (0 : Byte) ∉ w := by
  cases p with
  | type qs k =>
    obtain rfl := h
    exact (compound_text_chars (qs, k)).1
  | ref seq =>
    intro h0
    exact absurd (TextAt.go h 0 h0) (by decide)

theorem Arg.Reads.text_eq {dict : List Compound} {p : Arg} {ps : List Arg} {ws : List (List Byte)}
    {v w x : List Byte} {m : Mem} (h : p.Reads atoi m w) (hv : p.text dict = some v)
    (hps : texts (p.learn dict) ps = some ws) (hx : ps = [] → x = [])
    (heq : w ++ separator ((ps.flatMap Arg.mangled).headD 0) ++ x = listed (v :: ws)) : w = v := by
  cases p with
  | type qs k => exact h.trans (Option.some.inj hv)
  | ref seq =>
    rw [listed_cons, ← separator_eq_gap hps] at heq
    unfold separator at heq
    split at heq
    · rename_i hend
      obtain rfl := (args_head ps).mp hend
      obtain rfl := hx rfl
      obtain rfl := Option.some.inj hps
      simpa [listed] using heq
    · obtain ⟨c, _, rfl⟩ := Option.map_eq_some_iff.mp hv
      refine append_separator_inj _ _ _ _ (compound_text_chars c).2 ?_ heq
      intro hspace
      exact absurd (TextAt.go h _ hspace) (by decide)

section Short

variable (hn : name.chars.length < 2 ^ 32) (h0 : name.read 0 = some (ch '_'))

include hn h0

/-- The loop prints the parameters when the references are found, and stays inside the arrays exactly
when they have the room. -/
theorem args_printed {m : Mem} (ps : List Arg) (ws : List (List Byte)) (dict : List Compound)
    (rows : List (List Byte)) (s : State) (hs : Rest name s.i (ps.flatMap Arg.mangled))
    (hws : texts dict ps = some ws) (htab : Tabled m rows s) (hrows : rows.length + ps.length < 2 ^ 32)
    (hlen : (listed ws).length < 2 ^ 32) (hfound : Found atoi m rows ps ws) :
    ∃ t, (demangle_parameters atoi name s).Ends t ∧ t.i = name.chars.length ∧
      output t = written (output s) (listed ws) ∧
      (Within t ↔ Within s ∧ (∀ seq, .ref seq ∈ ps → seq.length < 16) ∧ ListFits s.j rows.length ws) := by
  induction ps generalizing ws dict rows s with
  | nil =>
    obtain rfl := Option.some.inj hws
    refine ⟨s, while_stop ((ends_more_parameters s false).mpr ⟨_, hs.read, rfl⟩), hs.le, ?_, ?_⟩
    · simp [listed, written]
    · simp [ListFits]
  | cons p ps ih =>
    obtain ⟨w, vs, rfl, hw, hvs⟩ := texts_cons hws
    obtain ⟨hreads, hrest⟩ := (found_cons hw ps vs).mp hfound
    have hlong := p.text_length hw
    rw [List.flatMap_cons] at hs
    rw [← htab.table] at hreads
    rw [List.length_cons] at hrows
    rw [listed_cons, List.length_append, List.length_append] at hlen
    obtain ⟨n, u, hround, hui, hout, hnext, hfirst⟩ := arg_iterate hn h0 p s hs w hreads
    have hfirst := hfirst (List.ne_nil_of_length_pos (by omega)) htab.empty
    rw [separator_eq_gap hvs] at hout hfirst
    have hsu := hs.append
    rw [← hui] at hsu
    obtain ⟨t, ht, hti, houtt, hwithin⟩ := ih vs _ (rows ++ [w]) u hsu hvs (hnext m rows htab (by omega) (by omega))
      (by rw [List.length_append, List.length_singleton]; omega) (by omega) hrest
    have huj : s.j + (w ++ gap vs).length ≤ 128 → u.j = s.j + (w ++ gap vs).length := by
      intro hj
      have hindex := written_index (output s) (w ++ gap vs) (by change s.j + _ < _; omega)
      rwa [← hout] at hindex
    refine ⟨t, hround.ends ht, hti, ?_, ?_⟩
    · rw [houtt, hout, ← written_append, listed_cons]
    · have hcount : (rows ++ [w]).length = rows.length + 1 := by rw [List.length_append, List.length_singleton]
      rw [hwithin, hfirst, htab.count, hcount, ListFits]
      simp only [List.mem_cons, @eq_comm _ p]
      constructor
      · rintro ⟨⟨hs, hp, h64, hrow, hj⟩, hps, hfits⟩
        rw [huj hj] at hfits
        exact ⟨hs, fun seq hseq => hseq.elim (hp seq) (hps seq), h64, hrow, hj, hfits⟩
      · rintro ⟨hs, hseqs, h64, hrow, hj, hfits⟩
        rw [huj hj]
        exact ⟨⟨hs, fun seq hseq => hseqs seq (Or.inl hseq), h64, hrow, hj⟩, fun seq hseq => hseqs seq (Or.inr hseq),
          hfits⟩

theorem args_read (ps : List Arg) (ws : List (List Byte)) (dict : List Compound) (s t : State)
    (hs : Rest name s.i (ps.flatMap Arg.mangled)) (hws : texts dict ps = some ws)
    (h : (demangle_parameters atoi name s).Ends t) :
    t.i = name.chars.length ∧ ∃ x, output t = written (output s) x ∧ (0 : Byte) ∉ x ∧ (ps = [] → x = []) ∧
      ∀ m rows, Tabled m rows s → rows.length + ps.length < 2 ^ 32 → (listed ws).length < 2 ^ 32 →
        x = listed ws → Found atoi m rows ps ws := by
  induction ps generalizing ws dict s with
  | nil =>
    have hstop : (more_parameters name s).Ends false := (ends_more_parameters s false).mpr ⟨_, hs.read, rfl⟩
    rcases (ends_while s t).mp h with ⟨_, rfl⟩ | ⟨hgo, _⟩
    · refine ⟨hs.le, [], rfl, List.not_mem_nil, fun _ => rfl, ?_⟩
      intro _ _ _ _ _ _ n seq w hp _
      cases hp
    · cases hstop.unique hgo
  | cons p ps ih =>
    obtain ⟨v, vs, rfl, hv, hvs⟩ := texts_cons hws
    rw [List.flatMap_cons] at hs
    obtain ⟨w, hreads⟩ := arg_reads hn h0 p s t hs h
    obtain ⟨n, u, hround, hui, hout, hnext, -⟩ := arg_iterate hn h0 p s hs w hreads
    have hsu := hs.append
    rw [← hui] at hsu
    obtain ⟨hti, x, houtt, hx0, hxnil, hfound⟩ := ih vs _ u hsu hvs (hround.ends_behind h)
    refine ⟨hti, w ++ separator ((ps.flatMap Arg.mangled).headD 0) ++ x, ?_, ?_, ?_, ?_⟩
    · rw [houtt, hout, ← written_append]
    · intro hmem
      rcases List.mem_append.mp hmem with hmem | hmem
      · exact (List.mem_append.mp hmem).elim hreads.no_nul (separator_no_nul _)
      · exact hx0 hmem
    · intro hnil
      exact absurd hnil (List.cons_ne_nil p ps)
    · intro m rows htab hrows hlen heq
      obtain rfl := hreads.text_eq hv hvs hxnil heq
      rw [List.length_cons] at hrows
      rw [listed_cons, ← separator_eq_gap hvs] at heq hlen
      rw [List.length_append, List.length_append] at hlen
      refine (found_cons hv ps vs).mpr ⟨htab.table ▸ hreads, ?_⟩
      exact hfound m (rows ++ [w]) (hnext m rows htab (by omega) (by omega))
        (by rw [List.length_append, List.length_singleton]; omega) (by omega) (List.append_cancel_left heq)

end Short

/-! ## The whole symbol -/

theorem argSymbol_rest (fn : Identifier) (ps : List Arg) :
    Rest (argSymbol fn ps) 2 (fn.mangled ++ ps.flatMap Arg.mangled) :=
  ⟨[ch '_', ch 'Z'], rfl, rfl⟩

theorem argSymbol_mangled (fn : Identifier) (ps : List Arg) : is_mangled (argSymbol fn ps) = true :=
  is_mangled_iff.mpr ⟨_, rfl⟩

theorem args_length (fn : Identifier) (ps : List Arg) : ps.length ≤ (argSymbol fn ps).chars.length := by
  have hpos : ∀ p : Arg, 1 ≤ p.mangled.length := by
    intro p
    cases p with
    | type qs k => simp [Arg.mangled]
    | ref seq => simp [Arg.mangled]
  have hsum : ps.length ≤ (ps.flatMap Arg.mangled).length := by
    induction ps with
    | nil => exact Nat.le_refl _
    | cons p ps ih =>
      have hp := hpos p
      rw [List.flatMap_cons, List.length_append, List.length_cons]
      omega
  have hle := (argSymbol_rest fn ps).le
  rw [List.length_append] at hle
  omega

theorem argSymbol_begins (hatoi : ReadsDecimals atoi) (fn : Identifier) (ps : List Arg)
    (hn : (argSymbol fn ps).chars.length < 2 ^ 32) (s : State) :
    ∃ t, (demangle_function_name atoi (argSymbol fn ps) s).Ends t ∧
      Rest (argSymbol fn ps) t.i (ps.flatMap Arg.mangled) ∧
      output t = written (s.mem .buffer, 0) (fn.chars ++ [ch '(']) ∧ Tabled (s.mem .old_params) [] t ∧
      (Within t ↔ Within s ∧ fn.chars.length < 128) := by
  have hrest := argSymbol_rest fn ps
  have hident := hrest.ident (n := .one fn) hatoi hn
  obtain ⟨u, hu⟩ := functionEffect_ends s.start (.plain fn.component)
  refine ⟨u.seek (2 + fn.mangled.length), (demangle_function_name_ends hn s _).mpr ⟨_, _, u, hident, hu, rfl⟩,
    hrest.append, ?_⟩
  have hshort := fn.short
  have hwithin : Within u ↔ Within s ∧ fn.chars.length < 128 :=
    (functionEffect_within hu).trans (and_congr_right fun _ => ⟨And.right, ident_fits (.one fn)⟩)
  obtain ⟨hmem, hj⟩ := functionEffect_plain hu (by simp only [Identifier.component]; omega)
  have hlen : (fn.chars ++ [ch '(']).length = fn.chars.length + 1 := by
    rw [List.length_append, List.length_singleton]
  obtain rfl := (ends_pure _ _).mp hu
  refine ⟨?_, ⟨?_, rfl, rfl⟩, hwithin⟩
  · rw [written_eq _ _ (by omega), hlen]
    exact Prod.ext hmem hj
  · have hframe : Frame [.buffer, .length_str] s.start
        (((s.start.memcpy .length_str 0 (fn.component.digits ++ [0])).memcpy .buffer 0 fn.chars).put .buffer
          fn.chars.length (ch '(')) :=
      ((memcpy_frame _ _ .length_str (by simp) _ _).trans (memcpy_frame _ _ .buffer (by simp) _ _)).trans
        (memcpy_frame _ _ .buffer (by simp) _ _)
    exact hframe.2 .old_params (by decide)

theorem no_rest (t r : State) (ht : t.i = name.chars.length) : (append_remaining_name name t).Ends r ↔ t = r := by
  have hscan : Scan name (fun c => c != 0) t.i [] t.i := Scan.stop t.i 0 ((name.read_zero _).mpr ht) rfl
  rw [append_remaining_name_ends]
  constructor
  · rintro ⟨w, q, hw, rfl⟩
    obtain ⟨rfl, rfl⟩ := hscan.unique hw
    rfl
  · rintro rfl
    exact ⟨[], t.i, hscan, rfl⟩

theorem emit_output (s : State) (c : Byte) : output (s.emit c) = written (output s) [c] :=
  Prod.ext (put_mem s .buffer s.j c) rfl

theorem signature_printed (hatoi : ReadsDecimals atoi) (fn : Identifier) (ps : List Arg) (ws : List (List Byte))
    (hws : texts [] ps = some ws) (hn : (argSymbol fn ps).chars.length < 2 ^ 32)
    (hlen : (signature fn ws).length < 2 ^ 32) (s : State) (hfound : Found atoi (s.mem .old_params) [] ps ws) :
    ∃ r, (demangle_alloc_symbol atoi (argSymbol fn ps) s).Ends r ∧
      r.mem .buffer = overlay (s.mem .buffer) 0 (signature fn ws) ∧ r.j = (signature fn ws).length ∧
      (Within r ↔ Within s ∧ SignatureFits fn ps ws) := by
  have hm := argSymbol_mangled fn ps
  have hcount := args_length fn ps
  have hlength : (signature fn ws).length = fn.chars.length + 1 + (listed ws).length + 1 := by
    unfold signature
    simp only [List.length_append, List.length_singleton]
  obtain ⟨t, ht, hrest, hout, htab, hstart⟩ := argSymbol_begins hatoi fn ps hn s
  obtain ⟨u, hu, hui, houtu, hloop⟩ := args_printed hn (is_mangled_read hm) ps ws [] [] t hrest hws htab
    (by rw [List.length_nil]; omega) (by omega) hfound
  have hprinted : output (u.emit (ch ')')) = written (s.mem .buffer, 0) (signature fn ws) := by
    unfold signature
    rw [emit_output, houtu, hout, written_append _ (fn.chars ++ [ch '('] ++ listed ws),
      written_append _ (fn.chars ++ [ch '('])]
  rw [written_eq _ _ hlen] at hprinted
  have htail := (no_rest (u.emit (ch ')')) (u.emit (ch ')')) hui).mpr rfl
  refine ⟨_, (demangle_alloc_symbol_ends hm s _).mpr ⟨t, u, ht, hu, htail⟩,
    congrArg Prod.fst hprinted, congrArg Prod.snd hprinted, ?_⟩
  have htj : t.j = fn.chars.length + 1 := by
    have hindex := written_index (s.mem .buffer, 0) (fn.chars ++ [ch '(']) (by
      rw [List.length_append, List.length_singleton]
      omega)
    rw [← hout, List.length_append, List.length_singleton, Nat.zero_add] at hindex
    exact hindex
  have huj : u.j = fn.chars.length + 1 + (listed ws).length := by
    have hindex := written_index (output t) (listed ws) (by change t.j + _ < _; omega)
    rw [← houtu] at hindex
    exact hindex.trans (by change t.j + _ = _; rw [htj])
  rw [emit_within, hloop, hstart, htj, huj, List.length_nil]
  constructor
  · rintro ⟨⟨⟨hs, -⟩, hseqs, hfits⟩, hend⟩
    exact ⟨hs, hseqs, (listFits_iff ws (texts_length hws) _ 0 (Nat.zero_le _) hend).mp hfits, by omega⟩
  · rintro ⟨hs, hseqs, hparams, hwhole⟩
    exact ⟨⟨⟨hs, by omega⟩, hseqs, (listFits_iff ws (texts_length hws) _ 0 (Nat.zero_le _) (by omega)).mpr hparams⟩,
      by omega⟩

/-- In a block full of zeros, what is printed tells that the references are found. -/
theorem found_of_prints (hatoi : ReadsDecimals atoi) (fn : Identifier) (ps : List Arg) (ws : List (List Byte))
    (hws : texts [] ps = some ws) (s : State) (hzero : s.mem .buffer = fun _ => 0)
    (h : Prints atoi (argSymbol fn ps) (signature fn ws) s) :
    (argSymbol fn ps).chars.length < 2 ^ 32 ∧ (signature fn ws).length < 2 ^ 32 ∧
      Found atoi (s.mem .old_params) [] ps ws := by
  have hm := argSymbol_mangled fn ps
  have hcount := args_length fn ps
  obtain ⟨r, hr, hmem, hj⟩ := h
  have hn := (readable_of_ends hm s r hr).short
  obtain ⟨t', u, ht', hu, hrest'⟩ := (demangle_alloc_symbol_ends hm s r).mp hr
  obtain ⟨t, ht, hrest, hout, htab, -⟩ := argSymbol_begins hatoi fn ps hn s
  obtain rfl := ht.unique ht'
  obtain ⟨hui, x, houtu, hx0, _, hfound⟩ := args_read hn (is_mangled_read hm) ps ws [] t u hrest hws hu
  obtain rfl := (no_rest (u.emit (ch ')')) r hui).mp hrest'
  have hlen : (signature fn ws).length < 2 ^ 32 := hj ▸ add32_lt u.j 1
  have hprinted : written (fun _ => 0, 0) (fn.chars ++ [ch '('] ++ x ++ [ch ')']) =
      (overlay (fun _ => 0) 0 (signature fn ws), (signature fn ws).length) := by
    rw [written_append, written_append, ← hzero, ← hout, ← houtu, ← emit_output, ← hmem, ← hj]
    rfl
  have hsig : fn.chars ++ [ch '('] ++ x ++ [ch ')'] = signature fn ws := by
    refine written_inj _ _ ?_ hprinted
    intro hmem
    simp only [List.mem_append, List.mem_singleton] at hmem
    rcases hmem with ((hmem | hmem) | hmem) | hmem
    · exact fn.no_nul hmem
    · exact absurd hmem (by decide)
    · exact hx0 hmem
    · exact absurd hmem (by decide)
  have hx : x = listed ws := List.append_cancel_left (List.append_cancel_right hsig)
  have hlen' := hlen
  unfold signature at hlen'
  rw [List.length_append, List.length_append] at hlen'
  exact ⟨hn, hlen, hfound _ [] htab (by rw [List.length_nil]; omega) (by omega) hx⟩

theorem args_mangled_length {dict : List Compound} {ps : List Arg} {ws : List (List Byte)}
    (hws : texts dict ps = some ws) (hseqs : ∀ seq, .ref seq ∈ ps → seq.length < 16) :
    (ps.flatMap Arg.mangled).length ≤ 17 * (listed ws).length := by
  induction ps generalizing dict ws with
  | nil => exact Nat.zero_le _
  | cons p ps ih =>
    obtain ⟨w, vs, rfl, hw, hvs⟩ := texts_cons hws
    have hrest := ih hvs fun seq hseq => hseqs seq (List.mem_cons_of_mem _ hseq)
    have hlong := p.text_length hw
    have hp : p.mangled.length ≤ 17 * w.length := by
      cases p with
      | type qs k =>
        obtain rfl := Option.some.inj hw
        exact Nat.le_trans (Param.mangled_length ⟨qs, .builtin k⟩ ⟨k, rfl⟩) (Nat.le_mul_of_pos_left _ (by decide))
      | ref seq =>
        have hseq := hseqs seq List.mem_cons_self
        simp only [Arg.mangled, List.length_cons, List.length_append, List.length_map, List.length_nil]
        omega
    rw [List.flatMap_cons, listed_cons, List.length_append, List.length_append, List.length_append]
    omega

theorem SignatureFits.length {fn : Identifier} {ps : List Arg} {ws : List (List Byte)} (h : SignatureFits fn ps ws)
    (hws : texts [] ps = some ws) : (argSymbol fn ps).chars.length < 2 ^ 32 := by
  have hwhole := h.whole
  unfold signature at hwhole
  simp only [List.length_append, List.length_singleton] at hwhole
  have hname := fn.mangled_length (by omega)
  have hargs := args_mangled_length hws h.seqs
  have hle := (argSymbol_rest fn ps).le
  rw [List.length_append] at hle
  omega

/-- A function is printed with the types that its references name, whatever the arrays had
before, exactly when it fits the arrays, and where `atoi` sends a reference the table has the
entry's text. -/
theorem references_printed_iff (hatoi : ReadsDecimals atoi) (fn : Identifier) (ps : List Arg)
    (ws : List (List Byte)) (hws : texts [] ps = some ws) :
    (∀ s, Within s → Prints atoi (argSymbol fn ps) (signature fn ws) s ∧ StaysInside atoi (argSymbol fn ps) s) ↔
      SignatureFits fn ps ws ∧ ∀ m, Found atoi m [] ps ws := by
  constructor
  · intro h
    have key : ∀ m : Mem, SignatureFits fn ps ws ∧ Found atoi m [] ps ws := by
      intro m
      obtain ⟨hprints, r, hr, hw⟩ :=
        h { zeroed with mem := fun b => if b = .old_params then m else zeroed.mem b } zeroed_within
      obtain ⟨hn, hlen, hfound⟩ := found_of_prints hatoi fn ps ws hws _ rfl hprints
      obtain ⟨r', hr', -, -, hwithin⟩ := signature_printed hatoi fn ps ws hws hn hlen _ hfound
      obtain rfl := hr.unique hr'
      exact ⟨(hwithin.mp hw).2, hfound⟩
    exact ⟨(key fun _ => 0).1, fun m => (key m).2⟩
  · rintro ⟨hfits, hfound⟩ s hs
    obtain ⟨r, hr, hmem, hj, hwithin⟩ := signature_printed hatoi fn ps ws hws (hfits.length hws)
      (Nat.lt_of_le_of_lt hfits.whole (by decide)) s (hfound _)
    exact ⟨⟨r, hr, hmem, hj⟩, r, hr, hwithin.mpr ⟨hs, hfits⟩⟩

/-- `_Z3fooPiS_` is `foo(*int, *int)`. -/
theorem foo_pointer_twice :
    Prints decimal_atoi (argSymbol foo [.type [.P] .i, .ref []])
        (signature foo [text ['*', 'i', 'n', 't'], text ['*', 'i', 'n', 't']]) zeroed ∧
      StaysInside decimal_atoi (argSymbol foo [.type [.P] .i, .ref []]) zeroed := by
  refine (references_printed_iff decimal_atoi_reads foo [.type [.P] .i, .ref []]
    [text ['*', 'i', 'n', 't'], text ['*', 'i', 'n', 't']] (by decide)).mpr ⟨⟨?_, by decide, by decide⟩, ?_⟩ zeroed
    zeroed_within
  · intro seq hseq
    obtain rfl : seq = [] := by simpa using hseq
    decide
  refine (found_iff_of_short decimal_atoi _ _ (by decide)).mpr ?_
  intro n seq w hp hw
  match n with
  | 0 => cases hp
  | 1 =>
    obtain rfl := Arg.ref.inj (Option.some.inj hp)
    obtain rfl := Option.some.inj hw
    exact ⟨_, rfl, by decide⟩
  | n + 2 => cases hp

/-- `_Z3fooiPiS_`: the first entry is `*int`, and the first parameter is `int`. -/
theorem foo_first_parameter_printed :
    texts [] [.type [] .i, .type [.P] .i, .ref []] =
        some [text ['i', 'n', 't'], text ['*', 'i', 'n', 't'], text ['*', 'i', 'n', 't']] ∧
      ¬ Prints decimal_atoi (argSymbol foo [.type [] .i, .type [.P] .i, .ref []])
        (signature foo [text ['i', 'n', 't'], text ['*', 'i', 'n', 't'], text ['*', 'i', 'n', 't']]) zeroed := by
  refine ⟨by decide, ?_⟩
  intro h
  obtain ⟨_, _, hfound⟩ := found_of_prints decimal_atoi_reads foo _ _ (by decide) zeroed rfl h
  have hrow := (hfound 2 [] _ rfl rfl).getElem 0 (by decide)
  exact absurd hrow (by decide)

end SlayerOS.Mangle
