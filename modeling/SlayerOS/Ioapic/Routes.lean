import SlayerOS.Ioapic.Entries
import Mathlib.Data.List.Induction

/-!
# The routing table over many calls

Calls of `set` that land in the right entries do not disturb each other: every entry holds what
the last call for its interrupt wrote.
-/

namespace SlayerOS.Ioapic

/-- The arguments of `set`. -/
structure Call where
  vec : BitVec 8
  irq : BitVec 8
  flags : BitVec 64
  lapic : BitVec 64
deriving DecidableEq, Repr

def setAll (s : State) (calls : List Call) (d : Devices) : Devices :=
  calls.foldl (fun d c => set s c.vec c.irq c.flags c.lapic d) d

/-- No two IOAPICs are at one address. -/
def Apart (s : State) : Prop :=
  ∀ i j, i < s.apic_ent.toNat → j < s.apic_ent.toNat → (s.apics i).address = (s.apics j).address → i = j

/-- The two registers of an interrupt. -/
def entry (d : Devices) (apic : acpi_madt_ioapic) (gsi : BitVec 32) : BitVec 32 × BitVec 32 :=
  (d.register apic.base (redirection_register apic gsi), d.register apic.base (redirection_register apic gsi + 1))

/-- No entry of an interrupt holds the register. -/
def Outside (s : State) (d : Devices) (base : BitVec 64) (reg : BitVec 32) : Prop :=
  ∀ i < s.apic_ent.toNat, base = (s.apics i).base → ∀ gsi, Contains d (s.apics i) gsi →
    reg ≠ redirection_register (s.apics i) gsi ∧ reg ≠ redirection_register (s.apics i) gsi + 1

/-- What the call writes. -/
def Call.entry (s : State) (c : Call) : BitVec 32 × BitVec 32 :=
  let word := c_flags (s.override c.irq) c.vec c.flags c.lapic
  (word.setWidth 32, (word >>> 32).setWidth 32)

/-- The last call for the interrupt. -/
def latest (s : State) (calls : List Call) (gsi : BitVec 32) : Option Call :=
  (calls.filter fun c => s.gsi c.irq = gsi).getLast?

/-- The core is a byte, and the flags leave the bits of `set` alone. -/
def Call.Fits (c : Call) : Prop := c.lapic.toNat ≤ 255 ∧ c.flags &&& own_bits = 0

/-! ## Registers -/

theorem redirection_register_toNat {d : Devices} {apic : acpi_madt_ioapic} {gsi : BitVec 32}
    (h : Contains d apic gsi) :
    (redirection_register apic gsi).toNat = 0x10 + 2 * (gsi.toNat - apic.gsi_base.toNat) ∧
      gsi.toNat - apic.gsi_base.toNat ≤ 255 := by
  have hmax : (max_entry (d.register apic.base 1)).toNat ≤ 255 := by
    unfold max_entry
    rw [BitVec.toNat_and]
    exact Nat.and_le_right
  obtain ⟨hlow, hhigh⟩ := h
  unfold redirection_register
  rw [BitVec.toNat_ofNat]
  omega

theorem redirection_register_ne {d : Devices} {apic : acpi_madt_ioapic} {gsi gsi' : BitVec 32}
    (h : Contains d apic gsi) (h' : Contains d apic gsi') (hne : gsi ≠ gsi') :
    redirection_register apic gsi' ≠ redirection_register apic gsi ∧
      redirection_register apic gsi' ≠ redirection_register apic gsi + 1 ∧
      redirection_register apic gsi' + 1 ≠ redirection_register apic gsi ∧
      redirection_register apic gsi' + 1 ≠ redirection_register apic gsi + 1 := by
  obtain ⟨hreg, hsmall⟩ := redirection_register_toNat h
  obtain ⟨hreg', hsmall'⟩ := redirection_register_toNat h'
  have hlow := h.1
  have hlow' := h'.1
  have hnat : gsi.toNat ≠ gsi'.toNat := fun heq => hne (BitVec.eq_of_toNat_eq heq)
  refine ⟨?_, ?_, ?_, ?_⟩ <;> bv_omega

/-! ## One call -/

section

variable {s : State} {d : Devices} {c : Call} (hdisjoint : Disjoint s d) (hapart : Apart s)
  (hlands : Lands s d c.irq)

include hdisjoint hlands

theorem set_lands :
    ∃ i < s.apic_ent.toNat, Contains d (s.apics i) (s.gsi c.irq) ∧
      (set s c.vec c.irq c.flags c.lapic d).register =
        Function.update d.register (s.apics i).base
          (Function.update (Function.update (d.register (s.apics i).base)
              (redirection_register (s.apics i) (s.gsi c.irq)) (c.entry s).1)
            (redirection_register (s.apics i) (s.gsi c.irq) + 1) (c.entry s).2) := by
  obtain ⟨i, hi, hin, k, hk, haddress, hreg⟩ := (arrives_iff_lands hdisjoint c.irq).mpr hlands
  rw [← actual_irq_eq] at hk hreg
  have hlisted := hk.listed
  obtain ⟨n, hn⟩ : ∃ n, s.apic_ent.toNat = n + 1 := ⟨s.apic_ent.toNat - 1, by omega⟩
  obtain ⟨k', hk', hfind⟩ := find_apic_stops s d (s.actual_irq c.irq) n 0 none d rfl (by omega) (by simp)
  obtain rfl := hk.unique hk'
  rw [← hn] at hfind
  have hbase : (s.apics k).base = (s.apics i).base := by rw [acpi_madt_ioapic.base, haddress]; rfl
  refine ⟨i, hi, hin, ?_⟩
  rw [set_register hfind, hreg, hbase]
  rfl

theorem set_outside {base : BitVec 64} {reg : BitVec 32} (hout : Outside s d base reg) :
    (set s c.vec c.irq c.flags c.lapic d).register base reg = d.register base reg := by
  obtain ⟨i, hi, hin, hregister⟩ := set_lands hdisjoint hlands
  rw [hregister]
  by_cases hbase : base = (s.apics i).base
  · obtain ⟨hlow, hhigh⟩ := hout i hi hbase _ hin
    rw [hbase, Function.update_self, Function.update_of_ne hhigh, Function.update_of_ne hlow]
  · rw [Function.update_of_ne hbase]

include hapart

theorem set_entry (i : Nat) (hi : i < s.apic_ent.toNat) (gsi : BitVec 32) (hin : Contains d (s.apics i) gsi) :
    entry (set s c.vec c.irq c.flags c.lapic d) (s.apics i) gsi =
      if s.gsi c.irq = gsi then c.entry s else entry d (s.apics i) gsi := by
  obtain ⟨j, hj, hjn, hregister⟩ := set_lands hdisjoint hlands
  unfold Ioapic.entry
  rw [hregister]
  by_cases hgsi : s.gsi c.irq = gsi
  · subst hgsi
    obtain rfl := hdisjoint i j hi hj _ hin hjn
    have hne : redirection_register (s.apics i) (s.gsi c.irq) ≠ redirection_register (s.apics i) (s.gsi c.irq) + 1 := by
      bv_omega
    rw [if_pos rfl, Function.update_self, Function.update_self, Function.update_of_ne hne, Function.update_self]
  · rw [if_neg hgsi]
    by_cases hij : i = j
    · subst hij
      obtain ⟨h1, h2, h3, h4⟩ := redirection_register_ne hjn hin hgsi
      rw [Function.update_self, Function.update_of_ne h4, Function.update_of_ne h3, Function.update_of_ne h2,
        Function.update_of_ne h1]
    · have hbase : (s.apics i).base ≠ (s.apics j).base := fun heq => hij (hapart i j hi hj (base_inj heq))
      rw [Function.update_of_ne hbase]

end

/-! ## Many calls -/

theorem version_outside (s : State) (d : Devices) (base : BitVec 64) : Outside s d base 1 := by
  intro i _ _ gsi hin
  obtain ⟨hreg, hsmall⟩ := redirection_register_toNat hin
  refine ⟨?_, ?_⟩ <;> bv_omega

section

variable {d d' : Devices} (hversion : ∀ base, d'.register base 1 = d.register base 1)

include hversion

theorem contains_congr : Contains d' = Contains d := by
  funext apic gsi
  unfold Contains
  rw [hversion]

theorem disjoint_congr (s : State) : Disjoint s d' ↔ Disjoint s d := by
  unfold Disjoint
  rw [contains_congr hversion]

theorem outside_congr (s : State) : Outside s d' = Outside s d := by
  funext base reg
  unfold Outside
  rw [contains_congr hversion]

theorem span_congr : span d' = span d := by
  funext apic
  unfold span
  rw [hversion]

theorem free_congr (s : State) : Free s d' = Free s d := by
  funext i n
  refine propext ⟨?_, ?_⟩
  · rintro ⟨hbefore, hnotLast⟩
    simp only [Overreaches, span_congr hversion, hversion] at hbefore hnotLast
    exact ⟨hbefore, hnotLast⟩
  · rintro ⟨hbefore, hnotLast⟩
    refine ⟨?_, ?_⟩
    · simp only [Overreaches, span_congr hversion, hversion]
      exact hbefore
    · rw [span_congr hversion]
      exact hnotLast

theorem again_congr (s : State) : Again s d' = Again s d := by
  funext i k gsi
  refine propext ⟨?_, ?_⟩
  · rintro ⟨hlisted, haddress, hcounts, hfound⟩
    rw [free_congr hversion, span_congr hversion] at hfound
    exact ⟨hlisted, haddress, hcounts, hfound⟩
  · rintro ⟨hlisted, haddress, hcounts, hfound⟩
    refine ⟨hlisted, haddress, hcounts, ?_⟩
    rw [free_congr hversion, span_congr hversion]
    exact hfound

theorem lands_congr (s : State) (irq : BitVec 8) : Lands s d' irq ↔ Lands s d irq := by
  unfold Lands
  rw [contains_congr hversion, free_congr hversion, again_congr hversion]

end

theorem latest_snoc (s : State) (calls : List Call) (c : Call) (gsi : BitVec 32) :
    latest s (calls ++ [c]) gsi = if s.gsi c.irq = gsi then some c else latest s calls gsi := by
  unfold latest
  by_cases h : s.gsi c.irq = gsi <;> simp [h]

/-- The registers behind the calls. By induction on the last call: the version registers are still
the old ones, so it lands where it would have landed at first. -/
theorem setAll_registers {s : State} {d : Devices} (calls : List Call) (hdisjoint : Disjoint s d) (hapart : Apart s)
    (hlands : ∀ c ∈ calls, Lands s d c.irq) :
    (∀ i < s.apic_ent.toNat, ∀ gsi, Contains d (s.apics i) gsi →
      entry (setAll s calls d) (s.apics i) gsi =
        ((latest s calls gsi).map (Call.entry s)).getD (entry d (s.apics i) gsi)) ∧
      ∀ base reg, Outside s d base reg → (setAll s calls d).register base reg = d.register base reg := by
  induction calls using List.reverseRecOn with
  | nil => exact ⟨fun i hi gsi hin => rfl, fun base reg hout => rfl⟩
  | append_singleton calls c ih =>
    obtain ⟨hentry, hout⟩ := ih fun c' hc' => hlands c' (List.mem_append_left [c] hc')
    have hversion : ∀ base, (setAll s calls d).register base 1 = d.register base 1 :=
      fun base => hout base 1 (version_outside s d base)
    have hc : Lands s (setAll s calls d) c.irq :=
      (lands_congr hversion s c.irq).mpr (hlands c (by simp))
    have hsnoc : setAll s (calls ++ [c]) d = set s c.vec c.irq c.flags c.lapic (setAll s calls d) := by
      unfold setAll
      rw [List.foldl_append]
      rfl
    rw [hsnoc]
    refine ⟨?_, ?_⟩
    · intro i hi gsi hin
      rw [set_entry ((disjoint_congr hversion s).mpr hdisjoint) hapart hc i hi gsi
        (by rw [contains_congr hversion]; exact hin), hentry i hi gsi hin, latest_snoc]
      split <;> rfl
    · intro base reg hreg
      rw [set_outside ((disjoint_congr hversion s).mpr hdisjoint) hc (by rw [outside_congr hversion]; exact hreg),
        hout base reg hreg]

theorem dump_entries_mem {s : State} {d : Devices} (i : Nat) (hi : i < s.apic_ent.toNat) (gsi : BitVec 32)
    (hin : Contains d (s.apics i) gsi) :
    let fields := read_back (s.apics i).base (redirection_register (s.apics i) gsi) d
    fields.vector ≠ 0 ∨ fields.mask = 0 →
      .entry (BitVec.ofNat 32 (gsi.toNat - (s.apics i).gsi_base.toNat)) fields ∈ (dump_entries s d).1 := by
  intro fields hused
  obtain ⟨hlow, hhigh⟩ := hin
  have hreg : BitVec.ofNat 32 (gsi.toNat - (s.apics i).gsi_base.toNat) * 2 + 0x10 =
      redirection_register (s.apics i) gsi := by
    unfold redirection_register
    bv_omega
  rw [dump_entries_eq]
  refine List.mem_cons_of_mem _ (List.mem_flatMap.mpr ⟨i, List.mem_range.mpr hi, ?_⟩)
  refine List.mem_cons_of_mem _ (List.mem_filterMap.mpr ⟨gsi.toNat - (s.apics i).gsi_base.toNat, ?_, ?_⟩)
  · rw [List.mem_range]
    omega
  · unfold entry_line
    rw [hreg, ← read_back_eq]
    exact if_pos hused

/-- The entry of an interrupt says what the last call for it asked for, and `dump_entries` prints
it. An interrupt without a call keeps its entry, and no register outside the entries changes. -/
theorem setAll_routes (s : State) (d : Devices) (calls : List Call) (hdisjoint : Disjoint s d) (hapart : Apart s)
    (hlands : ∀ c ∈ calls, Lands s d c.irq) (hfits : ∀ c ∈ calls, c.Fits) :
    (∀ i < s.apic_ent.toNat, ∀ gsi, Contains d (s.apics i) gsi →
      (∀ c, latest s calls gsi = some c →
        let fields := read_back (s.apics i).base (redirection_register (s.apics i) gsi) (setAll s calls d)
        Says (s.override c.irq) c.vec c.flags c.lapic fields ∧
          (fields.vector ≠ 0 ∨ fields.mask = 0 →
            .entry (BitVec.ofNat 32 (gsi.toNat - (s.apics i).gsi_base.toNat)) fields ∈
              (dump_entries s (setAll s calls d)).1)) ∧
      (latest s calls gsi = none → entry (setAll s calls d) (s.apics i) gsi = entry d (s.apics i) gsi)) ∧
    ∀ base reg, Outside s d base reg → (setAll s calls d).register base reg = d.register base reg := by
  obtain ⟨hentry, hout⟩ := setAll_registers calls hdisjoint hapart hlands
  have hversion : ∀ base, (setAll s calls d).register base 1 = d.register base 1 :=
    fun base => hout base 1 (version_outside s d base)
  refine ⟨?_, hout⟩
  intro i hi gsi hin
  have hregisters := hentry i hi gsi hin
  refine ⟨?_, ?_⟩
  · intro c hc
    refine ⟨?_, dump_entries_mem i hi gsi (by rw [contains_congr hversion]; exact hin)⟩
    obtain ⟨hlapic, hflags⟩ := hfits c (List.mem_filter.mp (List.mem_of_getLast? hc)).1
    rw [hc] at hregisters
    obtain ⟨hlow, hhigh⟩ := Prod.mk.inj hregisters
    rw [read_back_eq, hlow, hhigh]
    exact decode_c_flags (s.override c.irq) c.vec c.flags c.lapic hlapic hflags
  · intro hnone
    rw [hregisters, hnone]
    rfl

/-- The timer, and twice the keyboard. -/
def two_calls : List Call := [⟨0x21, 1, 0, 0⟩, ⟨0x20, 0, 0, 0⟩, ⟨0x21, 1, 0, 1⟩]

theorem two_apart : Apart two_ioapics := by
  have hcount : two_ioapics.apic_ent.toNat = 2 := rfl
  intro i j hi hj
  rw [hcount] at hi hj
  interval_cases i <;> interval_cases j <;> decide

theorem two_lands (irq : BitVec 8) (hirq : irq = 0 ∨ irq = 1) : Lands two_ioapics two_devices irq := by
  have hland : ∀ irq, Contains two_devices (two_ioapics.apics 0) (two_ioapics.gsi irq) →
      (two_ioapics.gsi irq).toNat < 23 → Lands two_ioapics two_devices irq := by
    intro irq hin hlt
    refine ⟨0, by decide, hin, Or.inl ⟨by omega, fun j hj => absurd hj (by omega), Or.inl ?_⟩⟩
    rw [show span two_devices (two_ioapics.apics 0) = 23 by decide]
    omega
  rcases hirq with rfl | rfl <;> exact hland _ (by unfold Contains; decide) (by decide)

/-- The keyboard goes to the core 1 in the end. -/
theorem setAll_routes_two :
    Says (two_ioapics.override 1) 0x21 0 1
      (read_back (two_ioapics.apics 0).base (redirection_register (two_ioapics.apics 0) 1)
        (setAll two_ioapics two_calls two_devices)) :=
  (((setAll_routes two_ioapics two_devices two_calls two_disjoint two_apart
    (fun c hc => two_lands c.irq (by revert c; decide)) (by unfold Call.Fits; decide)).1 0 (by decide) 1
    (by unfold Contains; decide)).1 ⟨0x21, 1, 0, 1⟩ (by decide)).1

end SlayerOS.Ioapic
