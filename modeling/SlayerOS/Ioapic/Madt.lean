import SlayerOS.Ioapic.Code

/-!
# The walk through the MADT

The entry loop goes from record to record by their length bytes. It copies every IOAPIC and
every override to the next place of its array, looks for the end of the table only at the
start of a record, and never looks for the end of an array.
-/

open SlayerOS.Bytes SlayerOS.Fuel SlayerOS.Fuel.Comp

namespace SlayerOS.Ioapic

/-- The number of bytes of the entries. -/
def acpi_madt.size (apic : acpi_madt) : Nat := apic.length - sizeof_acpi_madt

def length_at (m : Mem) (a : Nat) : Nat := (m (a + 1)).toNat

/-- The bytes from `a` up to `e` are records of at least two bytes, at the places of the
list. -/
inductive Entries (m : Mem) (e : Nat) : Nat → List Nat → Prop
  | nil : Entries m e e []
  | cons (a : Nat) (places : List Nat) : 2 ≤ length_at m a → Entries m e (a + length_at m a) places →
      Entries m e a (a :: places)

/-- The IOAPICs of a table, in its order. -/
def ioapics (m : Mem) (places : List Nat) : List acpi_madt_ioapic :=
  (places.filter fun a => m a = ACPI_MADT_ENTRY_TYPE_IOAPIC).map (ioapic_at m)

/-- The overrides of a table, in its order. -/
def overrides (m : Mem) (places : List Nat) : List acpi_madt_interrupt_source_override :=
  (places.filter fun a => m a = ACPI_MADT_ENTRY_TYPE_INTERRUPT_SOURCE_OVERRIDE).map (iso_at m)

/-- The number of elements of both arrays. -/
def capacity : Nat := 24

/-- `init` ends, writes inside its arrays only, and leaves in them what the table lists. -/
def Collects (apic : acpi_madt) (places : List Nat) (s : State) (d : Devices) : Prop :=
  ∃ w d', (init (some apic) s d).Ends (w, d') ∧
    (∀ i ∈ w.apics_written, i < capacity) ∧
    (∀ i ∈ w.iso_written, i < capacity) ∧
    (List.range w.state.apic_ent.toNat).map w.state.apics = ioapics apic.entries places ∧
    (List.range w.state.iso_ent.toNat).map w.state.iso = overrides apic.entries places

/-! ## An array and its counter -/

/-- The entries of `l` are written one behind the other. The counter has eight bits. -/
structure Filled {α : Type} (l : List α) (array : Nat → α) (ent : BitVec 8) (written : List Nat) : Prop where
  ent_eq : ent.toNat = l.length % 256
  array_eq : l.length ≤ 256 → ∀ i < l.length, l[i]? = some (array i)
  written_iff : ∀ i, i ∈ written ↔ i < l.length ∧ i < 256

theorem Filled.nil {α : Type} (array : Nat → α) : Filled [] array 0 [] :=
  ⟨rfl, fun _ i hi => absurd hi (Nat.not_lt_zero i), by simp⟩

theorem Filled.snoc {α : Type} {l : List α} {array : Nat → α} {ent : BitVec 8} {written : List Nat}
    (h : Filled l array ent written) (x : α) :
    Filled (l ++ [x]) (Function.update array ent.toNat x) (ent + 1) (ent.toNat :: written) := by
  have hent := h.ent_eq
  have hlength : (l ++ [x]).length = l.length + 1 := List.length_append
  refine ⟨?_, ?_, ?_⟩
  · rw [hlength, BitVec.toNat_add, hent]
    simp
  · intro hfits i hi
    rw [hlength] at hfits hi
    have hplace : ent.toNat = l.length := by rw [hent]; exact Nat.mod_eq_of_lt (by omega)
    rw [hplace]
    rcases Nat.lt_succ_iff_lt_or_eq.mp hi with hlt | rfl
    · rw [List.getElem?_append_left hlt, Function.update_of_ne (Nat.ne_of_lt hlt)]
      exact h.array_eq (by omega) i hlt
    · rw [List.getElem?_concat_length, Function.update_self]
  · intro i
    rw [List.mem_cons, h.written_iff, hlength]
    omega

theorem Filled.exact_iff {α : Type} {l : List α} {array : Nat → α} {ent : BitVec 8} {written : List Nat}
    (h : Filled l array ent written) :
    ((∀ i ∈ written, i < capacity) ∧ (List.range ent.toNat).map array = l) ↔ l.length ≤ capacity := by
  constructor
  · rintro ⟨hinside, -⟩
    by_contra hmany
    have hbehind := hinside capacity ((h.written_iff capacity).mpr ⟨by omega, by decide⟩)
    exact absurd hbehind (Nat.lt_irrefl capacity)
  · intro hfits
    have hsmall : l.length ≤ 24 := hfits
    refine ⟨fun i hi => Nat.lt_of_lt_of_le ((h.written_iff i).mp hi).1 hfits, ?_⟩
    apply List.ext_getElem?
    intro i
    have hent : ent.toNat = l.length := by rw [h.ent_eq]; exact Nat.mod_eq_of_lt (by omega)
    by_cases hi : i < l.length
    · rw [h.array_eq (by omega) i hi, List.getElem?_map, List.getElem?_range (by omega)]
      rfl
    · rw [List.getElem?_eq_none (by simp; omega), List.getElem?_eq_none (by omega)]

/-! ## The arrays -/

/-- Behind the records at `places`. -/
structure Collected (m : Mem) (places : List Nat) (w : Walk) : Prop where
  apics : Filled (ioapics m places) w.state.apics w.state.apic_ent w.apics_written
  iso : Filled (overrides m places) w.state.iso w.state.iso_ent w.iso_written

theorem ioapics_snoc (m : Mem) (places : List Nat) (a : Nat) :
    ioapics m (places ++ [a]) =
      ioapics m places ++ if m a = ACPI_MADT_ENTRY_TYPE_IOAPIC then [ioapic_at m a] else [] := by
  unfold ioapics
  rw [List.filter_append, List.map_append]
  congr 1
  by_cases h : m a = ACPI_MADT_ENTRY_TYPE_IOAPIC <;> simp [h]

theorem overrides_snoc (m : Mem) (places : List Nat) (a : Nat) :
    overrides m (places ++ [a]) = overrides m places ++
      if m a = ACPI_MADT_ENTRY_TYPE_INTERRUPT_SOURCE_OVERRIDE then [iso_at m a] else [] := by
  unfold overrides
  rw [List.filter_append, List.map_append]
  congr 1
  by_cases h : m a = ACPI_MADT_ENTRY_TYPE_INTERRUPT_SOURCE_OVERRIDE <;> simp [h]

/-! ## One round -/

theorem init_entry_ioapic {m : Mem} {w : Walk} (h : m w.current = ACPI_MADT_ENTRY_TYPE_IOAPIC) :
    init_entry m w =
      { current := w.current + length_at m w.current
        state := { w.state with
          apics := Function.update w.state.apics w.state.apic_ent.toNat (ioapic_at m w.current)
          apic_ent := w.state.apic_ent + 1 }
        mapped := (ioapic_at m w.current).address :: w.mapped
        apics_written := w.state.apic_ent.toNat :: w.apics_written
        iso_written := w.iso_written
        touched := [(w.current + 1, 1), (w.current, sizeof_acpi_madt_ioapic), (w.current, 1)] ++ w.touched } := by
  unfold init_entry keep_entry
  rw [if_pos (show m (w.touch w.current 1).current = _ from h)]
  rfl

theorem init_entry_iso {m : Mem} {w : Walk} (h : m w.current = ACPI_MADT_ENTRY_TYPE_INTERRUPT_SOURCE_OVERRIDE) :
    init_entry m w =
      { current := w.current + length_at m w.current
        state := { w.state with
          iso := Function.update w.state.iso w.state.iso_ent.toNat (iso_at m w.current)
          iso_ent := w.state.iso_ent + 1 }
        mapped := w.mapped
        apics_written := w.apics_written
        iso_written := w.state.iso_ent.toNat :: w.iso_written
        touched := [(w.current + 1, 1), (w.current, sizeof_acpi_madt_interrupt_source_override), (w.current, 1)] ++
          w.touched } := by
  have hother : m (w.touch w.current 1).current ≠ ACPI_MADT_ENTRY_TYPE_IOAPIC := by
    change m w.current ≠ _
    rw [h]
    decide
  unfold init_entry keep_entry
  rw [if_neg hother, if_pos (show m (w.touch w.current 1).current = _ from h)]
  rfl

theorem init_entry_other {m : Mem} {w : Walk} (hioapic : m w.current ≠ ACPI_MADT_ENTRY_TYPE_IOAPIC)
    (hiso : m w.current ≠ ACPI_MADT_ENTRY_TYPE_INTERRUPT_SOURCE_OVERRIDE) :
    init_entry m w =
      { w with
        current := w.current + length_at m w.current
        touched := [(w.current + 1, 1), (w.current, 1)] ++ w.touched } := by
  unfold init_entry keep_entry
  rw [if_neg (show m (w.touch w.current 1).current ≠ _ from hioapic),
    if_neg (show m (w.touch w.current 1).current ≠ _ from hiso)]
  rfl

theorem record_cases (m : Mem) (a : Nat) :
    m a = ACPI_MADT_ENTRY_TYPE_IOAPIC ∨ m a = ACPI_MADT_ENTRY_TYPE_INTERRUPT_SOURCE_OVERRIDE ∨
      (m a ≠ ACPI_MADT_ENTRY_TYPE_IOAPIC ∧ m a ≠ ACPI_MADT_ENTRY_TYPE_INTERRUPT_SOURCE_OVERRIDE) := by
  by_cases hioapic : m a = ACPI_MADT_ENTRY_TYPE_IOAPIC
  · exact Or.inl hioapic
  · by_cases hiso : m a = ACPI_MADT_ENTRY_TYPE_INTERRUPT_SOURCE_OVERRIDE
    · exact Or.inr (Or.inl hiso)
    · exact Or.inr (Or.inr ⟨hioapic, hiso⟩)

theorem init_entry_current (m : Mem) (w : Walk) : (init_entry m w).current = w.current + length_at m w.current := by
  rcases record_cases m w.current with h | h | ⟨hioapic, hiso⟩
  · rw [init_entry_ioapic h]
  · rw [init_entry_iso h]
  · rw [init_entry_other hioapic hiso]

theorem Collected.snoc {m : Mem} {places : List Nat} {w : Walk} (h : Collected m places w) :
    Collected m (places ++ [w.current]) (init_entry m w) := by
  have hapics := h.apics
  have hiso := h.iso
  refine ⟨?_, ?_⟩
  · rw [ioapics_snoc]
    rcases record_cases m w.current with hr | hr | ⟨hr, hr'⟩
    · rw [init_entry_ioapic hr, if_pos hr]
      exact hapics.snoc _
    · rw [init_entry_iso hr, if_neg (by rw [hr]; decide), List.append_nil]
      exact hapics
    · rw [init_entry_other hr hr', if_neg hr, List.append_nil]
      exact hapics
  · rw [overrides_snoc]
    rcases record_cases m w.current with hr | hr | ⟨hr, hr'⟩
    · rw [init_entry_ioapic hr, if_neg (by rw [hr]; decide), List.append_nil]
      exact hiso
    · rw [init_entry_iso hr, if_pos hr]
      exact hiso.snoc _
    · rw [init_entry_other hr hr', if_neg hr', List.append_nil]
      exact hiso

/-! ## The whole table -/

theorem Entries.le {m : Mem} {e a : Nat} {places : List Nat} (h : Entries m e a places) : a ≤ e := by
  induction h with
  | nil => exact Nat.le_refl e
  | cons a places _ _ ih => omega

theorem entry_loop_collects {m : Mem} {e a : Nat} {places : List Nat} (h : Entries m e a places) (before : List Nat)
    (w : Walk) (ha : w.current = a) (hw : Collected m before w) :
    ∃ w', (while_ (fun w => pure (decide (w.current < e))) (fun w => pure (init_entry m w)) w).Ends w' ∧
      Collected m (before ++ places) w' := by
  induction h generalizing before w with
  | nil =>
    refine ⟨w, while_stop ?_, by rwa [List.append_nil]⟩
    rw [ends_pure, ha]
    exact decide_eq_false (Nat.lt_irrefl e)
  | cons a places hlength hrest ih =>
    have hle := hrest.le
    have hcurrent : (init_entry m w).current = a + length_at m a := by rw [init_entry_current, ha]
    obtain ⟨w', hends, hcollected⟩ := ih (before ++ [a]) (init_entry m w) hcurrent (ha ▸ hw.snoc)
    refine ⟨w', while_round ?_ ((ends_pure _ _).mpr rfl) hends, ?_⟩
    · rw [ends_pure, ha]
      exact decide_eq_true (by omega)
    · rwa [List.append_assoc] at hcollected

theorem init_ends (apic : acpi_madt) (places : List Nat) (h : Entries apic.entries apic.size 0 places) (s : State)
    (d : Devices) :
    ∃ w, Collected apic.entries places w ∧
      ∀ r, (init (some apic) s d).Ends r ↔ r = (w, probe w.state w.state.apic_ent.toNat 0 d) := by
  have hstart : Collected apic.entries [] ⟨0, { s with apic_ent := 0, iso_ent := 0 }, [], [], [], []⟩ :=
    ⟨Filled.nil _, Filled.nil _⟩
  obtain ⟨w, hloop, hw⟩ := entry_loop_collects h [] _ rfl hstart
  refine ⟨w, by rwa [List.nil_append] at hw, ?_⟩
  intro r
  unfold init
  constructor
  · intro hr
    obtain ⟨_, hapic, hr⟩ := (ends_bind _ _ _).mp hr
    obtain rfl := Option.some.inj ((ends_lift _ _).mp hapic)
    obtain ⟨w', hw', hr⟩ := (ends_bind _ _ _).mp hr
    obtain rfl := hloop.unique hw'
    exact ((ends_pure _ _).mp hr).symm
  · rintro rfl
    exact (ends_bind _ _ _).mpr ⟨apic, (ends_lift _ _).mpr rfl,
      (ends_bind _ _ _).mpr ⟨w, hloop, (ends_pure _ _).mpr rfl⟩⟩

/-- On a well-formed table, `init` does its work exactly when neither kind of record is there
more than 24 times. -/
theorem init_collects_iff (apic : acpi_madt) (places : List Nat) (h : Entries apic.entries apic.size 0 places)
    (s : State) (d : Devices) :
    Collects apic places s d ↔
      (ioapics apic.entries places).length ≤ capacity ∧ (overrides apic.entries places).length ≤ capacity := by
  obtain ⟨w, hw, hinit⟩ := init_ends apic places h s d
  rw [← hw.apics.exact_iff, ← hw.iso.exact_iff]
  constructor
  · rintro ⟨w', d', hends, hapics, hiso, hlisted, hisos⟩
    obtain ⟨rfl, -⟩ := Prod.mk.inj ((hinit _).mp hends)
    exact ⟨⟨hapics, hlisted⟩, hiso, hisos⟩
  · rintro ⟨⟨hapics, hlisted⟩, hiso, hisos⟩
    exact ⟨w, _, (hinit _).mpr rfl, hapics, hiso, hlisted, hisos⟩

/-- A table of `n` IOAPICs and nothing else. -/
def only_ioapics (n : Nat) : acpi_madt :=
  ⟨sizeof_acpi_madt + 12 * n, fun a => if a % 12 = 0 then 1 else if a % 12 = 1 then 12 else 0⟩

theorem entries_only_ioapics (k n i : Nat) :
    Entries (only_ioapics k).entries (12 * (i + n)) (12 * i) ((List.range' i n).map (12 * ·)) := by
  induction n generalizing i with
  | zero => exact Entries.nil
  | succ n ih =>
    have hlength : length_at (only_ioapics k).entries (12 * i) = 12 := by
      have hmod : (12 * i + 1) % 12 = 1 := by omega
      simp [length_at, only_ioapics, hmod]
    rw [List.range'_succ, List.map_cons]
    refine Entries.cons _ _ (by omega) ?_
    rw [hlength, show 12 * i + 12 = 12 * (i + 1) by omega, show i + (n + 1) = i + 1 + n by omega]
    exact ih (i + 1)

theorem length_ioapics_only (k n i : Nat) :
    (ioapics (only_ioapics k).entries ((List.range' i n).map (12 * ·))).length = n := by
  unfold ioapics
  rw [List.length_map, List.filter_eq_self.mpr, List.length_map, List.length_range']
  intro a ha
  obtain ⟨j, -, rfl⟩ := List.mem_map.mp ha
  simp [only_ioapics, ACPI_MADT_ENTRY_TYPE_IOAPIC]

/-- The 25th IOAPIC is written behind the end of the array. -/
theorem many_ioapics_overflow :
    Entries (only_ioapics 25).entries (only_ioapics 25).size 0 ((List.range' 0 25).map (12 * ·)) ∧
    ∀ s d, ¬ Collects (only_ioapics 25) ((List.range' 0 25).map (12 * ·)) s d := by
  have hentries := entries_only_ioapics 25 25 0
  refine ⟨hentries, ?_⟩
  rintro s d ⟨w, d', hends, hinside, -⟩
  obtain ⟨w', hw, hinit⟩ := init_ends (only_ioapics 25) _ hentries s d
  obtain ⟨rfl, -⟩ := Prod.mk.inj ((hinit _).mp hends)
  have hbehind := (hw.apics.written_iff capacity).mpr ⟨by rw [length_ioapics_only]; decide, by decide⟩
  exact absurd (hinside capacity hbehind) (Nat.lt_irrefl capacity)

/-- The variables before the first call. -/
def cleared : State := ⟨fun _ => ⟨⟨0, 0⟩, 0, 0, 0, 0⟩, fun _ => ⟨⟨0, 0⟩, 0, 0, 0, 0⟩, 0, 0⟩

def silent : Devices := ⟨fun _ => 0, fun _ _ => 0, []⟩

theorem init_collects_iff_two :
    Collects (only_ioapics 2) ((List.range' 0 2).map (12 * ·)) cleared silent := by
  refine (init_collects_iff (only_ioapics 2) _ (entries_only_ioapics 2 2 0) cleared silent).mpr ⟨?_, by decide⟩
  rw [length_ioapics_only]
  decide

/-! ## Any bytes at all -/

/-- The records that the loop comes to. -/
inductive Visited (m : Mem) (e : Nat) : Nat → Prop
  | first : Visited m e 0
  | next (a : Nat) : Visited m e a → a < e → Visited m e (a + length_at m a)

/-- The number of bytes that the loop reads of a record. -/
def bytes_read (m : Mem) (a : Nat) : Nat :=
  if m a = ACPI_MADT_ENTRY_TYPE_IOAPIC then sizeof_acpi_madt_ioapic
  else if m a = ACPI_MADT_ENTRY_TYPE_INTERRUPT_SOURCE_OVERRIDE then sizeof_acpi_madt_interrupt_source_override
  else 2

/-- The loop ends, and reads nothing behind the end of the table. -/
def StaysInside (apic : acpi_madt) (s : State) : Prop :=
  ∃ w, (entry_loop apic s).Ends w ∧ ∀ p ∈ w.touched, p.1 + p.2 ≤ apic.size

theorem touched_init_entry (m : Mem) (w : Walk) :
    ∃ ps, (init_entry m w).touched = ps ++ w.touched ∧
      ∀ e, (∀ p ∈ ps, p.1 + p.2 ≤ e) ↔ w.current + bytes_read m w.current ≤ e := by
  rcases record_cases m w.current with h | h | ⟨hioapic, hiso⟩
  · refine ⟨[(w.current + 1, 1), (w.current, sizeof_acpi_madt_ioapic), (w.current, 1)], by rw [init_entry_ioapic h], ?_⟩
    intro e
    rw [bytes_read, if_pos h]
    simp [sizeof_acpi_madt_ioapic]
    omega
  · refine ⟨[(w.current + 1, 1), (w.current, sizeof_acpi_madt_interrupt_source_override), (w.current, 1)],
      by rw [init_entry_iso h], ?_⟩
    intro e
    rw [bytes_read, if_neg (by rw [h]; decide), if_pos h]
    simp [sizeof_acpi_madt_interrupt_source_override]
    omega
  · refine ⟨[(w.current + 1, 1), (w.current, 1)], by rw [init_entry_other hioapic hiso], ?_⟩
    intro e
    rw [bytes_read, if_neg hioapic, if_neg hiso]
    simp
    omega

section Loop

variable {m : Mem} {e : Nat}

/-- A record of length zero holds the loop for ever. -/
theorem zero_length_never_ends {a : Nat} (ha : a < e) (hzero : length_at m a = 0) {w w' : Walk} (hw : w.current = a) :
    ¬ (while_ (fun w => pure (decide (w.current < e))) (fun w => pure (init_entry m w)) w).Ends w' := by
  intro hends
  refine while_induct (P := fun u => u.current ≠ a) ?_ ?_ w hends hw
  · intro hexit hcurrent
    rw [ends_pure, hcurrent] at hexit
    exact absurd ha (of_decide_eq_false hexit)
  · intro u v _ hv _ hne hcurrent
    obtain rfl := (ends_pure _ _).mp hv
    exact hne (by rw [init_entry_current, hcurrent, hzero, Nat.add_zero])

theorem touched_kept {w w' : Walk}
    (h : (while_ (fun w => pure (decide (w.current < e))) (fun w => pure (init_entry m w)) w).Ends w') :
    ∀ p ∈ w.touched, p ∈ w'.touched := by
  refine while_induct (P := fun u => ∀ p ∈ u.touched, p ∈ w'.touched) ?_ ?_ w h
  · exact fun _ p hp => hp
  · intro u v _ hv _ hkept p hp
    obtain rfl := (ends_pure _ _).mp hv
    obtain ⟨ps, htouched, -⟩ := touched_init_entry m u
    exact hkept p (by rw [htouched]; exact List.mem_append_right ps hp)

theorem Visited.rounds {a : Nat} (h : Visited m e a) (w : Walk) (hw : w.current = 0) :
    ∃ u, Rounds (fun w => pure (decide (w.current < e))) (fun w => pure (init_entry m w)) w u ∧ u.current = a := by
  induction h with
  | first => exact ⟨w, Rounds.start, hw⟩
  | next a _ ha ih =>
    obtain ⟨u, hu, rfl⟩ := ih
    refine ⟨init_entry m u, Rounds.round u _ hu ?_ ((ends_pure _ _).mpr rfl), init_entry_current m u⟩
    rw [ends_pure]
    exact decide_eq_true ha

theorem whole_records_end (hwhole : ∀ a, Visited m e a → a < e → 0 < length_at m a ∧ a + bytes_read m a ≤ e)
    (n : Nat) (w : Walk) (hn : e ≤ w.current + n) (hvisited : Visited m e w.current)
    (hinside : ∀ p ∈ w.touched, p.1 + p.2 ≤ e) :
    ∃ w', (while_ (fun w => pure (decide (w.current < e))) (fun w => pure (init_entry m w)) w).Ends w' ∧
      ∀ p ∈ w'.touched, p.1 + p.2 ≤ e := by
  induction n generalizing w with
  | zero =>
    refine ⟨w, while_stop ?_, hinside⟩
    rw [ends_pure]
    exact decide_eq_false (by omega)
  | succ n ih =>
    by_cases hlt : w.current < e
    · obtain ⟨hpos, hfits⟩ := hwhole w.current hvisited hlt
      have hcurrent := init_entry_current m w
      obtain ⟨ps, htouched, hps⟩ := touched_init_entry m w
      have hstep : ∀ p ∈ (init_entry m w).touched, p.1 + p.2 ≤ e := by
        rw [htouched]
        exact List.forall_mem_append.mpr ⟨(hps e).mpr hfits, hinside⟩
      obtain ⟨w', hends, hw'⟩ := ih (init_entry m w) (by omega) (hcurrent ▸ hvisited.next _ hlt) hstep
      refine ⟨w', while_round ?_ ((ends_pure _ _).mpr rfl) hends, hw'⟩
      rw [ends_pure]
      exact decide_eq_true hlt
    · refine ⟨w, while_stop ?_, hinside⟩
      rw [ends_pure]
      exact decide_eq_false hlt

end Loop

/-- The loop stays inside the table exactly when every record that it comes to has a length
and lies in the table, as far as the loop reads it. -/
theorem entry_loop_inside_iff (apic : acpi_madt) (s : State) :
    StaysInside apic s ↔
      ∀ a, Visited apic.entries apic.size a → a < apic.size →
        0 < length_at apic.entries a ∧ a + bytes_read apic.entries a ≤ apic.size := by
  constructor
  · rintro ⟨w', hends, hinside⟩ a hvisited ha
    obtain ⟨u, hu, rfl⟩ := hvisited.rounds ⟨0, { s with apic_ent := 0, iso_ent := 0 }, [], [], [], []⟩ rfl
    have hrest := hu.ends hends
    refine ⟨Nat.pos_of_ne_zero fun hzero => zero_length_never_ends ha hzero rfl hrest, ?_⟩
    have hgo : (pure (decide (u.current < apic.size)) : Comp Bool).Ends true := by
      rw [ends_pure]
      exact decide_eq_true ha
    have hnext := (Rounds.round u _ Rounds.start hgo ((ends_pure (init_entry apic.entries u) _).mpr rfl)).ends hrest
    obtain ⟨ps, htouched, hps⟩ := touched_init_entry apic.entries u
    refine (hps apic.size).mp fun p hp => hinside p (touched_kept hnext p ?_)
    rw [htouched]
    exact List.mem_append_left _ hp
  · intro hwhole
    exact whole_records_end hwhole apic.size _ (by simp) Visited.first nofun

/-- A table of zeros: the length of its first record is zero. -/
theorem zeros_hold_the_loop :
    (∀ s w, ¬ (entry_loop ⟨sizeof_acpi_madt + 2, fun _ => 0⟩ s).Ends w) ∧
      ∀ s, ¬ StaysInside ⟨sizeof_acpi_madt + 2, fun _ => 0⟩ s := by
  have hheld : ∀ s w, ¬ (entry_loop ⟨sizeof_acpi_madt + 2, fun _ => 0⟩ s).Ends w :=
    fun s w => zero_length_never_ends (a := 0) (by decide) rfl rfl
  exact ⟨hheld, fun s ⟨w, hends, _⟩ => hheld s w hends⟩

end SlayerOS.Ioapic
