import SlayerOS.Ioapic.Code

/-!
# The entry that `set` writes

The test for a range leaves out its last entry, a `u8` holds the interrupt, and where no test
succeeds the pointer is still at the last IOAPIC. The entry is the right one all the same for
most lines.
-/

namespace SlayerOS.Ioapic

def acpi_madt_ioapic.base (apic : acpi_madt_ioapic) : BitVec 64 := apic.address.setWidth 64

def State.overrides (s : State) : List acpi_madt_interrupt_source_override :=
  (List.range s.iso_ent.toNat).map s.iso

/-- The first override of a line. -/
def State.override (s : State) (irq : BitVec 8) : Option acpi_madt_interrupt_source_override :=
  s.overrides.find? fun c => c.source = irq

/-- The interrupt of a line: what its first override says, in full. -/
def State.gsi (s : State) (irq : BitVec 8) : BitVec 32 :=
  match s.override irq with
  | some c => c.gsi
  | none => irq.setWidth 32

/-- The range of an IOAPIC, as `dump_entries` counts its entries. -/
def Contains (d : Devices) (apic : acpi_madt_ioapic) (gsi : BitVec 32) : Prop :=
  apic.gsi_base.toNat ≤ gsi.toNat ∧
    gsi.toNat ≤ apic.gsi_base.toNat + (max_entry (d.register apic.base 1)).toNat

/-- No interrupt belongs to two IOAPICs. -/
def Disjoint (s : State) (d : Devices) : Prop :=
  ∀ i j, i < s.apic_ent.toNat → j < s.apic_ent.toNat →
    ∀ gsi, Contains d (s.apics i) gsi → Contains d (s.apics j) gsi → i = j

/-- The first of the two registers of an interrupt. -/
def redirection_register (apic : acpi_madt_ioapic) (gsi : BitVec 32) : BitVec 32 :=
  BitVec.ofNat 32 (0x10 + 2 * (gsi.toNat - apic.gsi_base.toNat))

/-- The writes are to the two registers of the interrupt, where some IOAPIC has it, and there
are none elsewhere. -/
def Routed (s : State) (d : Devices) (vec irq : BitVec 8) (flags lapic : BitVec 64) : Prop :=
  (∀ i < s.apic_ent.toNat, Contains d (s.apics i) (s.gsi irq) →
    (set s vec irq flags lapic d).written =
      [((s.apics i).base, redirection_register (s.apics i) (s.gsi irq) + 1),
        ((s.apics i).base, redirection_register (s.apics i) (s.gsi irq))] ++ d.written) ∧
  ((∀ i < s.apic_ent.toNat, ¬ Contains d (s.apics i) (s.gsi irq)) →
    (set s vec irq flags lapic d).written = d.written)

/-! ## Where an interrupt lands -/

/-- What `set` takes for the number of the last entry: the version register from bit 16 on, with
the bits 24 to 31 that `dump_entries` leaves out. -/
def span (d : Devices) (apic : acpi_madt_ioapic) : Nat := (d.register apic.base 1).toNat / 2 ^ 16

/-- Those bits let the test of `set` reach an interrupt behind the range of the IOAPIC. -/
def Overreaches (d : Devices) (apic : acpi_madt_ioapic) (n : Nat) : Prop :=
  apic.gsi_base.toNat + (max_entry (d.register apic.base 1)).toNat < n ∧ n < apic.gsi_base.toNat + span d apic

/-- No IOAPIC before the one at `i` reaches the interrupt, and it is not the last entry of the one
at `i`, or there is no IOAPIC behind that. -/
structure Free (s : State) (d : Devices) (i n : Nat) : Prop where
  before : ∀ j < i, ¬ Overreaches d (s.apics j) n
  notLast : n < (s.apics i).gsi_base.toNat + span d (s.apics i) ∨ i + 1 = s.apic_ent.toNat

/-- A record of the IOAPIC at `i`, this one or another one, from whose `gsi_base` the low byte counts
to the same register: twice the difference has 32 bits. -/
structure Again (s : State) (d : Devices) (i k : Nat) (gsi : BitVec 32) : Prop where
  listed : k < s.apic_ent.toNat
  address : (s.apics k).address = (s.apics i).address
  counts : ((s.apics k).gsi_base.toNat + (gsi.toNat - (s.apics i).gsi_base.toNat)) % 2 ^ 31 = gsi.toNat % 256
  found : ((s.apics k).gsi_base.toNat ≤ gsi.toNat % 256 ∧ Free s d k (gsi.toNat % 256)) ∨
    (gsi.toNat % 256 < (s.apics k).gsi_base.toNat ∧ k + 1 = s.apic_ent.toNat ∧
      ∀ j < s.apic_ent.toNat, (s.apics j).gsi_base.toNat ≤ gsi.toNat % 256 →
        (s.apics j).gsi_base.toNat + span d (s.apics j) ≤ gsi.toNat % 256)

/-- Some IOAPIC has the interrupt, whose number is a byte, and nothing is in the way. Or by chance
the low byte leads to the entry. -/
def Lands (s : State) (d : Devices) (irq : BitVec 8) : Prop :=
  ∃ i < s.apic_ent.toNat, Contains d (s.apics i) (s.gsi irq) ∧
    (((s.gsi irq).toNat < 256 ∧ Free s d i (s.gsi irq).toNat) ∨ ∃ k, Again s d i k (s.gsi irq))

/-! ## The tests -/

/-- The test of `set` for the IOAPIC at `i`. -/
def Tests (s : State) (d : Devices) (actual_irq : BitVec 8) (i : Nat) : Prop :=
  takes (s.apics i) (d.register (s.apics i).base 1) actual_irq = true

/-- The first IOAPIC whose test succeeds, or the last one of all. -/
structure FirstOrLast (s : State) (d : Devices) (actual_irq : BitVec 8) (i : Nat) : Prop where
  listed : i < s.apic_ent.toNat
  first : ∀ j < i, ¬ Tests s d actual_irq j
  stops : Tests s d actual_irq i ∨ i + 1 = s.apic_ent.toNat

/-- `set` ends at an IOAPIC that counts the low byte to the entry of the interrupt. -/
def Arrives (s : State) (d : Devices) (irq : BitVec 8) : Prop :=
  ∃ i < s.apic_ent.toNat, Contains d (s.apics i) (s.gsi irq) ∧
    ∃ k, FirstOrLast s d ((s.gsi irq).setWidth 8) k ∧ (s.apics k).address = (s.apics i).address ∧
      irqreg (s.apics k) ((s.gsi irq).setWidth 8) = redirection_register (s.apics i) (s.gsi irq)

/-! ## The loops -/

theorem find_iso_eq (iso : Nat → acpi_madt_interrupt_source_override) (irq : BitVec 8) (n i : Nat) :
    find_iso iso irq n i = ((List.range' i n).map iso).find? fun c => c.source = irq := by
  induction n generalizing i with
  | zero => rfl
  | succ n ih =>
    rw [find_iso, List.range'_succ, List.map_cons, List.find?_cons, ih]
    by_cases h : (iso i).source = irq <;> simp [h]

theorem ciso_eq (s : State) (irq : BitVec 8) : s.ciso irq = s.override irq := by
  rw [State.ciso, find_iso_eq, State.override, State.overrides, List.range_eq_range']

theorem actual_irq_eq (s : State) (irq : BitVec 8) : s.actual_irq irq = (s.gsi irq).setWidth 8 := by
  unfold State.actual_irq State.gsi
  rw [ciso_eq]
  cases s.override irq with
  | none => simp
  | some c => rfl

theorem find_apic_succ (apics : Nat → acpi_madt_ioapic) (actual_irq : BitVec 8) (n i : Nat)
    (apic : Option acpi_madt_ioapic) (d : Devices) :
    find_apic apics actual_irq (n + 1) i apic d =
      if takes (apics i) (d.register (apics i).base 1) actual_irq = true then
        (some (apics i), d.select (apics i).base 1)
      else find_apic apics actual_irq n (i + 1) (some (apics i)) (d.select (apics i).base 1) := by
  rw [find_apic]
  simp only [read, Devices.load, Devices.select, Function.update_self]
  rfl

theorem find_apic_frame (apics : Nat → acpi_madt_ioapic) (actual_irq : BitVec 8) (n i : Nat)
    (apic : Option acpi_madt_ioapic) (d : Devices) :
    (find_apic apics actual_irq n i apic d).2.register = d.register ∧
      (find_apic apics actual_irq n i apic d).2.written = d.written := by
  induction n generalizing i apic d with
  | zero => exact ⟨rfl, rfl⟩
  | succ n ih =>
    rw [find_apic_succ]
    split
    · exact ⟨rfl, rfl⟩
    · exact ih (i + 1) (some (apics i)) (d.select (apics i).base 1)

/-- The loop from `i` on, where no test has succeeded yet. The reads so far have left the
registers as they were in `d`. -/
theorem find_apic_stops (s : State) (d : Devices) (actual_irq : BitVec 8) (n i : Nat) (apic : Option acpi_madt_ioapic)
    (d' : Devices) (hread : d'.register = d.register) (hend : i + (n + 1) = s.apic_ent.toNat)
    (hbefore : ∀ j < i, ¬ Tests s d actual_irq j) :
    ∃ k, FirstOrLast s d actual_irq k ∧ (find_apic s.apics actual_irq (n + 1) i apic d').1 = some (s.apics k) := by
  induction n generalizing i apic d' with
  | zero =>
    refine ⟨i, ⟨by omega, hbefore, Or.inr (by omega)⟩, ?_⟩
    rw [find_apic_succ]
    split <;> rfl
  | succ n ih =>
    rw [find_apic_succ, hread]
    split
    · rename_i htest
      exact ⟨i, ⟨by omega, hbefore, Or.inl htest⟩, rfl⟩
    · rename_i htest
      refine ih (i + 1) _ (d'.select (s.apics i).base 1) hread (by omega) ?_
      intro j hj
      rcases Nat.lt_succ_iff_lt_or_eq.mp hj with hlt | rfl
      · exact hbefore j hlt
      · exact htest

theorem FirstOrLast.unique {s : State} {d : Devices} {actual_irq : BitVec 8} {i j : Nat}
    (hi : FirstOrLast s d actual_irq i) (hj : FirstOrLast s d actual_irq j) : i = j := by
  have hilt := hi.listed
  have hjlt := hj.listed
  rcases Nat.lt_trichotomy i j with hlt | heq | hlt
  · rcases hi.stops with htest | hlast
    · exact absurd htest (hj.first i hlt)
    · omega
  · exact heq
  · rcases hj.stops with htest | hlast
    · exact absurd htest (hi.first j hlt)
    · omega

theorem set_written {s : State} {d : Devices} {irq : BitVec 8} {k : Nat}
    (hk : FirstOrLast s d (s.actual_irq irq) k) (vec : BitVec 8) (flags lapic : BitVec 64) :
    (set s vec irq flags lapic d).written =
      [((s.apics k).base, irqreg (s.apics k) (s.actual_irq irq) + 1),
        ((s.apics k).base, irqreg (s.apics k) (s.actual_irq irq))] ++ d.written := by
  have hlisted := hk.listed
  obtain ⟨n, hn⟩ : ∃ n, s.apic_ent.toNat = n + 1 := ⟨s.apic_ent.toNat - 1, by omega⟩
  obtain ⟨k', hk', hfind⟩ := find_apic_stops s d (s.actual_irq irq) n 0 none d rfl (by omega) (by simp)
  obtain rfl := hk.unique hk'
  have hframe := (find_apic_frame s.apics (s.actual_irq irq) (n + 1) 0 none d).2
  unfold set
  rw [hn]
  generalize find_apic s.apics (s.actual_irq irq) (n + 1) 0 none d = r at *
  obtain ⟨apic, d'⟩ := r
  obtain rfl := hfind
  dsimp only at hframe
  simp [write, Devices.store, Devices.select, acpi_madt_ioapic.base, hframe]

theorem exists_firstOrLast {s : State} (d : Devices) (actual_irq : BitVec 8) (h : s.apic_ent.toNat ≠ 0) :
    ∃ k, FirstOrLast s d actual_irq k := by
  obtain ⟨n, hn⟩ : ∃ n, s.apic_ent.toNat = n + 1 := ⟨s.apic_ent.toNat - 1, by omega⟩
  obtain ⟨k, hk, -⟩ := find_apic_stops s d actual_irq n 0 none d rfl (by omega) (by simp)
  exact ⟨k, hk⟩

theorem base_inj {x y : acpi_madt_ioapic} (h : x.base = y.base) : x.address = y.address := by
  unfold acpi_madt_ioapic.base at h
  bv_omega

/-! ## The search on the inputs -/

theorem max_entry_toNat (ver : BitVec 32) : (max_entry ver).toNat = ver.toNat / 2 ^ 16 % 256 := by
  unfold max_entry
  rw [BitVec.toNat_and, BitVec.toNat_ushiftRight, Nat.shiftRight_eq_div_pow]
  exact Nat.and_two_pow_sub_one_eq_mod _ 8

theorem max_entry_le (d : Devices) (apic : acpi_madt_ioapic) :
    (max_entry (d.register apic.base 1)).toNat ≤ span d apic ∧ (max_entry (d.register apic.base 1)).toNat ≤ 255 := by
  rw [max_entry_toNat]
  unfold span
  omega

theorem tests_iff (s : State) (d : Devices) (actual_irq : BitVec 8) (j : Nat) :
    Tests s d actual_irq j ↔ (s.apics j).gsi_base.toNat ≤ actual_irq.toNat ∧
      actual_irq.toNat < (s.apics j).gsi_base.toNat + span d (s.apics j) := by
  have hver := (d.register (s.apics j).base 1).isLt
  have hirq := actual_irq.isLt
  have hwide : (actual_irq.setWidth 32).toNat = actual_irq.toNat := by
    rw [BitVec.toNat_setWidth]
    omega
  have hshift : (d.register (s.apics j).base 1 >>> 16).toNat = span d (s.apics j) := by
    rw [BitVec.toNat_ushiftRight, Nat.shiftRight_eq_div_pow]
    rfl
  unfold Tests takes
  rw [Bool.and_eq_true, decide_eq_true_eq, decide_eq_true_eq, BitVec.le_def, BitVec.lt_def, BitVec.toNat_add, hwide,
    hshift]
  refine and_congr_right fun hle => ?_
  have hspan : span d (s.apics j) < 2 ^ 16 := by
    unfold span
    omega
  rw [Nat.mod_eq_of_lt (by omega)]

section

variable {s : State} {d : Devices} (hdisjoint : Disjoint s d) {k : Nat} {actual_irq : BitVec 8}
  (hk : k < s.apic_ent.toNat) (hin : Contains d (s.apics k) (actual_irq.setWidth 32))
include hdisjoint hk hin

/-- Where one IOAPIC has the interrupt, another one takes it only by the bits of its version
register that are no part of the count. -/
theorem tests_iff_overreaches (j : Nat) (hj : j < s.apic_ent.toNat) (hne : j ≠ k) :
    Tests s d actual_irq j ↔ Overreaches d (s.apics j) actual_irq.toNat := by
  have hwide : (actual_irq.setWidth 32).toNat = actual_irq.toNat := by
    rw [BitVec.toNat_setWidth]
    have := actual_irq.isLt
    omega
  have hout : ¬ Contains d (s.apics j) (actual_irq.setWidth 32) := fun h => hne (hdisjoint j k hj hk _ h hin)
  unfold Contains at hout
  rw [hwide] at hout
  rw [tests_iff]
  unfold Overreaches
  omega

theorem firstOrLast_iff_free : FirstOrLast s d actual_irq k ↔ Free s d k actual_irq.toNat := by
  have hwide : (actual_irq.setWidth 32).toNat = actual_irq.toNat := by
    rw [BitVec.toNat_setWidth]
    have := actual_irq.isLt
    omega
  have hlow := hin.1
  rw [hwide] at hlow
  have hbefore : ∀ j < k, Tests s d actual_irq j ↔ Overreaches d (s.apics j) actual_irq.toNat :=
    fun j hj => tests_iff_overreaches hdisjoint hk hin j (by omega) (by omega)
  constructor
  · rintro ⟨-, hfirst, hstops⟩
    refine ⟨fun j hj => by rw [← hbefore j hj]; exact hfirst j hj, hstops.imp_left fun htest => ?_⟩
    exact ((tests_iff s d actual_irq k).mp htest).2
  · rintro ⟨hfirst, hnotLast⟩
    refine ⟨hk, fun j hj => by rw [hbefore j hj]; exact hfirst j hj, hnotLast.imp_left fun hlt => ?_⟩
    exact (tests_iff s d actual_irq k).mpr ⟨hlow, hlt⟩

end

/-- `set` counts in 32 bits, from the low byte and the `gsi_base` of the IOAPIC where it ends. -/
theorem irqreg_eq_iff {d : Devices} {apic apic' : acpi_madt_ioapic} {gsi : BitVec 32} (hin : Contains d apic gsi) :
    irqreg apic' (gsi.setWidth 8) = redirection_register apic gsi ↔
      (apic'.gsi_base.toNat + (gsi.toNat - apic.gsi_base.toNat)) % 2 ^ 31 = gsi.toNat % 256 := by
  have hmax := (max_entry_le d apic).2
  obtain ⟨hlow, hhigh⟩ := hin
  have hbase := apic'.gsi_base.isLt
  have hbyte : ((gsi.setWidth 8).setWidth 32 : BitVec 32).toNat = gsi.toNat % 256 := by
    rw [BitVec.toNat_setWidth, BitVec.toNat_setWidth]
    omega
  rw [← BitVec.toNat_inj]
  unfold irqreg redirection_register
  rw [BitVec.toNat_add, BitVec.toNat_mul, BitVec.toNat_sub, hbyte, BitVec.toNat_ofNat]
  simp only [BitVec.reduceToNat]
  omega

theorem arrives_iff_lands {s : State} {d : Devices} (hdisjoint : Disjoint s d) (irq : BitVec 8) :
    Arrives s d irq ↔ Lands s d irq := by
  generalize hgsi : s.gsi irq = gsi
  unfold Arrives Lands
  rw [hgsi]
  have hlow : (gsi.setWidth 8 : BitVec 8).toNat = gsi.toNat % 256 := BitVec.toNat_setWidth 8 gsi
  have hwide : ((gsi.setWidth 8).setWidth 32 : BitVec 32).toNat = gsi.toNat % 256 := by
    rw [BitVec.toNat_setWidth, hlow]
    omega
  refine exists_congr fun i => and_congr_right fun hi => and_congr_right fun hin => ?_
  have hmax := (max_entry_le d (s.apics i)).2
  have hinside := hin
  unfold Contains at hinside
  -- A second record of the same IOAPIC has its version register, and so its length.
  have hsame : ∀ k, (s.apics k).address = (s.apics i).address → (s.apics k).gsi_base.toNat ≤ gsi.toNat % 256 →
      ((s.apics k).gsi_base.toNat + (gsi.toNat - (s.apics i).gsi_base.toNat)) % 2 ^ 31 = gsi.toNat % 256 →
      Contains d (s.apics k) ((gsi.setWidth 8).setWidth 32) := by
    intro k haddress hle hcounts
    have hbase : (s.apics k).base = (s.apics i).base := by rw [acpi_madt_ioapic.base, haddress]; rfl
    unfold Contains
    rw [hwide, hbase]
    omega
  constructor
  · rintro ⟨k, hk, haddress, hreg⟩
    have hcounts := (irqreg_eq_iff hin).mp hreg
    by_cases hle : (s.apics k).gsi_base.toNat ≤ gsi.toNat % 256
    · have hfree := (firstOrLast_iff_free hdisjoint hk.listed (hsame k haddress hle hcounts)).mp hk
      rw [hlow] at hfree
      exact Or.inr ⟨k, hk.listed, haddress, hcounts, Or.inl ⟨hle, hfree⟩⟩
    · have hnone : ∀ j, Tests s d (gsi.setWidth 8) j → (s.apics j).gsi_base.toNat ≤ gsi.toNat % 256 := by
        intro j hj
        rw [← hlow]
        exact ((tests_iff s d _ j).mp hj).1
      have hlast : k + 1 = s.apic_ent.toNat := hk.stops.resolve_left fun htest => hle (hnone k htest)
      refine Or.inr ⟨k, hk.listed, haddress, hcounts, Or.inr ⟨by omega, hlast, ?_⟩⟩
      intro j hj hjle
      by_contra hlt
      have htest : Tests s d (gsi.setWidth 8) j := by
        rw [tests_iff, hlow]
        omega
      rcases Nat.lt_or_ge j k with hjk | hjk
      · exact hk.first j hjk htest
      · obtain rfl : j = k := by omega
        exact hle hjle
  · rintro (⟨hsmall, hfree⟩ | ⟨k, hlisted, haddress, hcounts, hfound⟩)
    · have hbyte : gsi.toNat % 256 = gsi.toNat := by omega
      have hgsi : (gsi.setWidth 8).setWidth 32 = gsi := BitVec.eq_of_toNat_eq (by rw [hwide, hbyte])
      refine ⟨i, (firstOrLast_iff_free hdisjoint hi (by rwa [hgsi])).mpr (by rwa [hlow, hbyte]), rfl, ?_⟩
      rw [irqreg_eq_iff hin]
      omega
    · refine ⟨k, ?_, haddress, (irqreg_eq_iff hin).mpr hcounts⟩
      rcases hfound with ⟨hle, hfree⟩ | ⟨hlt, hlast, hnone⟩
      · rw [← hlow] at hfree
        exact (firstOrLast_iff_free hdisjoint hlisted (hsame k haddress hle hcounts)).mpr hfree
      · refine ⟨hlisted, fun j hj htest => ?_, Or.inr hlast⟩
        rw [tests_iff, hlow] at htest
        have := hnone j (by omega) htest.1
        omega

/-! ## The entry -/

theorem routed_iff_arrives (s : State) (d : Devices) (hdisjoint : Disjoint s d) (vec irq : BitVec 8)
    (flags lapic : BitVec 64) : Routed s d vec irq flags lapic ↔ s.apic_ent = 0 ∨ Arrives s d irq := by
  unfold Arrives
  rw [← actual_irq_eq]
  by_cases hempty : s.apic_ent.toNat = 0
  · have hzero : s.apic_ent = 0 := BitVec.eq_of_toNat_eq hempty
    refine ⟨fun _ => Or.inl hzero, fun _ => ⟨fun i hi => by omega, fun _ => ?_⟩⟩
    unfold set
    rw [hempty, find_apic]
  · obtain ⟨k, hk⟩ := exists_firstOrLast d (s.actual_irq irq) hempty
    have hwritten := set_written hk vec flags lapic
    have hsome : s.apic_ent ≠ 0 := by
      rintro hzero
      exact hempty (by rw [hzero]; rfl)
    constructor
    · rintro ⟨hroute, hnone⟩
      right
      by_cases hcontained : ∃ i < s.apic_ent.toNat, Contains d (s.apics i) (s.gsi irq)
      · obtain ⟨i, hi, hin⟩ := hcontained
        have hpair := hwritten.symm.trans (hroute i hi hin)
        have hfirst := (List.cons.inj (List.append_cancel_right hpair)).2
        obtain ⟨hbase, hreg⟩ := Prod.mk.inj (List.cons.inj hfirst).1
        exact ⟨i, hi, hin, k, hk, base_inj hbase, hreg⟩
      · have hsame := hnone fun i hi hin => hcontained ⟨i, hi, hin⟩
        rw [hwritten] at hsame
        have hlength := congrArg List.length hsame
        rw [List.length_append] at hlength
        exact absurd hlength (by simp)
    · rintro (hzero | ⟨i, hi, hin, k', hk', haddress, hreg⟩)
      · exact absurd hzero hsome
      · obtain rfl := hk.unique hk'
        have hbase : (s.apics k).base = (s.apics i).base := by rw [acpi_madt_ioapic.base, haddress]; rfl
        refine ⟨?_, fun hnone => absurd hin (hnone i hi)⟩
        intro j hj hjn
        obtain rfl := hdisjoint i j hi hj _ hin hjn
        rw [hwritten, hbase, hreg]

/-- The registers of an interrupt, and no others, are written exactly when there is no IOAPIC at
all or some IOAPIC has the interrupt, its number is a byte, no IOAPIC before that one reaches it
through the upper bits of its version register, and it is not the last entry of any but the last
IOAPIC. The other ways are by chance, where the low byte counts to the same register. -/
theorem set_routed_iff (s : State) (d : Devices) (hdisjoint : Disjoint s d) (vec irq : BitVec 8)
    (flags lapic : BitVec 64) : Routed s d vec irq flags lapic ↔ s.apic_ent = 0 ∨ Lands s d irq := by
  rw [routed_iff_arrives s d hdisjoint, arrives_iff_lands hdisjoint]

/-! ## Two IOAPICs -/

/-- Two IOAPICs with 24 entries each. -/
def two_ioapics : State where
  apics i := if i = 0 then ⟨⟨1, 12⟩, 0, 0, 0xFEC00000, 0⟩ else ⟨⟨1, 12⟩, 1, 0, 0xFEC01000, 24⟩
  iso _ := ⟨⟨2, 10⟩, 0, 0, 2, 0⟩
  apic_ent := 2
  iso_ent := 1

def two_devices : Devices := ⟨fun _ => 0, fun _ _ => 0x170020, []⟩

theorem two_disjoint : Disjoint two_ioapics two_devices := by
  intro i j hi hj gsi hin hjn
  have hmax : (max_entry 0x170020).toNat = 23 := by decide
  have hcount : two_ioapics.apic_ent.toNat = 2 := rfl
  unfold Contains at hin hjn
  change _ ∧ _ ≤ _ + (max_entry 0x170020).toNat at hin hjn
  rw [hmax] at hin hjn
  have hcases : ∀ n, n < 2 → n = 0 ∨ n = 1 := by omega
  rcases hcases i (by omega) with rfl | rfl <;> rcases hcases j (by omega) with rfl | rfl
  · rfl
  · change _ ∧ _ ≤ (0 : BitVec 32).toNat + 23 at hin
    change (24 : BitVec 32).toNat ≤ _ ∧ _ at hjn
    simp at hin hjn
    omega
  · change _ ∧ _ ≤ (0 : BitVec 32).toNat + 23 at hjn
    change (24 : BitVec 32).toNat ≤ _ ∧ _ at hin
    simp at hin hjn
    omega
  · rfl

/-- The last line of the first IOAPIC: a register of the second one is written, behind which
there is no entry. -/
theorem last_line_misrouted :
    Contains two_devices (two_ioapics.apics 0) (two_ioapics.gsi 23) ∧
    (set two_ioapics 0x30 23 0 0 two_devices).written = [(0xFEC01000, 0x0F), (0xFEC01000, 0x0E)] ∧
    ¬ Routed two_ioapics two_devices 0x30 23 0 0 := by
  have hin : Contains two_devices (two_ioapics.apics 0) (two_ioapics.gsi 23) := by
    unfold Contains
    decide
  have hwritten : (set two_ioapics 0x30 23 0 0 two_devices).written = [(0xFEC01000, 0x0F), (0xFEC01000, 0x0E)] := by
    decide
  refine ⟨hin, hwritten, ?_⟩
  rintro ⟨hroute, -⟩
  have hpair := hroute 0 (by decide) hin
  rw [hwritten] at hpair
  revert hpair
  decide

theorem set_routed_iff_two :
    Routed two_ioapics two_devices 0x20 0 0 0 ↔ two_ioapics.apic_ent = 0 ∨ Lands two_ioapics two_devices 0 :=
  set_routed_iff two_ioapics two_devices two_disjoint 0x20 0 0 0

end SlayerOS.Ioapic
