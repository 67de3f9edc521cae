import SlayerOS.Ioapic.Set
import Mathlib.Tactic.IntervalCases

/-!
# What a redirection entry says

`set` puts five values together into the two registers of an entry, and `dump_entries` takes
them apart again.
-/

namespace SlayerOS.Ioapic

/-- Both bits of a field of two bits. -/
def bothBits (c : acpi_madt_interrupt_source_override) (shift : Nat) : Bool :=
  c.flags.getLsbD shift && c.flags.getLsbD (shift + 1)

/-- The fields of an entry for `vec` on the core `lapic`. The polarity and the trigger come from
the override, and all others from `flags`. -/
structure Says (override : Option acpi_madt_interrupt_source_override) (vec : BitVec 8) (flags lapic : BitVec 64)
    (fields : Redirection) : Prop where
  vector : fields.vector = vec
  dest : fields.dest.toNat = lapic.toNat
  polarity : fields.polarity = if override.any (bothBits · 0) then 1 else 0
  trigger : fields.trigger = if override.any (bothBits · 2) then 1 else 0
  delivery_mode : fields.delivery_mode = (flags.extractLsb' 8 3).setWidth 8
  dest_mode : fields.dest_mode = (flags.extractLsb' 11 1).setWidth 8
  mask : fields.mask = (flags.extractLsb' 16 1).setWidth 8

/-- The bits of `flags` that `set` fills in itself. -/
def own_bits : BitVec 64 := 0xFF0000000000A0FF

/-! ## The word -/

theorem bothBits_eq (c : acpi_madt_interrupt_source_override) (shift : Nat) :
    decide ((c.flags >>> shift) &&& 0b11 = 0b11) = bothBits c shift := by
  unfold bothBits
  rw [Bool.eq_iff_iff, decide_eq_true_eq, Bool.and_eq_true]
  constructor
  · intro h
    have h0 := congrArg (BitVec.getLsbD · 0) h
    have h1 := congrArg (BitVec.getLsbD · 1) h
    simp at h0 h1
    exact ⟨h0, h1⟩
  · rintro ⟨h0, h1⟩
    ext i hi
    interval_cases i <;> simp_all

theorem flag_at (p : Prop) [Decidable p] (k i : Nat) (hk : k < 32) :
    (((if p then 1 else 0 : BitVec 8).setWidth 32 <<< k).setWidth 64).getLsbD i = (decide (i = k) && decide p) := by
  by_cases hp : p
  · rw [if_pos hp]
    simp only [BitVec.getLsbD_setWidth, BitVec.getLsbD_shiftLeft]
    by_cases h : i = k
    · subst h
      simp [hp]
      omega
    · simp [h]
      omega
  · simp [hp]

theorem getLsbD_c_flags (c : Option acpi_madt_interrupt_source_override) (vec : BitVec 8) (flags lapic : BitVec 64)
    (i : Nat) (hi : i < 64) :
    (c_flags c vec flags lapic).getLsbD i =
      ((decide (56 ≤ i) && lapic.getLsbD (i - 56)) || (decide (i = 15) && c.any (bothBits · 2)) ||
        (decide (i = 13) && c.any (bothBits · 0)) || vec.getLsbD i || flags.getLsbD i) := by
  have hvec : vec &&& 0xFF = vec := by
    ext j hj
    interval_cases j <;> simp
  have hlapic : (lapic <<< 56).getLsbD i = (decide (56 ≤ i) && lapic.getLsbD (i - 56)) := by
    rw [BitVec.getLsbD_shiftLeft, decide_eq_true hi, Bool.true_and]
    congr 1
    rw [← decide_not]
    exact decide_eq_decide.mpr (by omega)
  have hwide : (vec.setWidth 64).getLsbD i = vec.getLsbD i := by
    rw [BitVec.getLsbD_setWidth]
    simp [hi]
  unfold c_flags
  cases c with
  | none =>
    simp only [BitVec.getLsbD_or, hvec, hlapic, hwide, Option.any_none, Bool.and_false, Bool.or_false, Bool.or_assoc]
    rw [Bool.or_comm (flags.getLsbD i)]
  | some c =>
    have h0 := bothBits_eq c 0
    have h2 := bothBits_eq c 2
    rw [BitVec.ushiftRight_zero] at h0
    simp only [BitVec.getLsbD_or, hvec, hlapic, hwide, Option.any_some]
    rw [flag_at _ 15 i (by decide), flag_at _ 13 i (by decide), h0, h2]

theorem getElem_own_bits {flags : BitVec 64} (h : flags &&& own_bits = 0) (i : Nat) (hi : i < 64)
    (hown : own_bits.getLsbD i = true) : flags[i] = false := by
  have hbit := congrArg (BitVec.getLsbD · i) h
  rw [BitVec.getLsbD_and, hown, Bool.and_true] at hbit
  rw [← BitVec.getLsbD_eq_getElem, hbit]
  simp

theorem decode_c_flags (c : Option acpi_madt_interrupt_source_override) (vec : BitVec 8) (flags lapic : BitVec 64)
    (hlapic : lapic.toNat ≤ 255) (hflags : flags &&& own_bits = 0) :
    Says c vec flags lapic
      (decode ((c_flags c vec flags lapic).setWidth 32) ((c_flags c vec flags lapic >>> 32).setWidth 32)) := by
  have hbits : ∀ i (hi : i < 64), (c_flags c vec flags lapic)[i] =
      ((decide (56 ≤ i) && lapic.getLsbD (i - 56)) || (decide (i = 15) && c.any (bothBits · 2)) ||
        (decide (i = 13) && c.any (bothBits · 0)) || vec.getLsbD i || flags[i]) := by
    intro i hi
    rw [← BitVec.getLsbD_eq_getElem, getLsbD_c_flags c vec flags lapic i hi, ← BitVec.getLsbD_eq_getElem (x := flags)]
  have hzero := getElem_own_bits hflags
  have hdest : (((c_flags c vec flags lapic >>> 32).setWidth 32 >>> 24) &&& 0xFF).setWidth 8 = lapic.setWidth 8 := by
    ext i hi
    interval_cases i <;> simp [hbits, hzero, own_bits]
  obtain ⟨pol, hpol⟩ : ∃ pol, c.any (bothBits · 0) = pol := ⟨_, rfl⟩
  obtain ⟨mode, hmode⟩ : ∃ mode, c.any (bothBits · 2) = mode := ⟨_, rfl⟩
  simp only [hpol, hmode] at hbits
  generalize c_flags c vec flags lapic = word at *
  refine ⟨?_, ?_, ?_, ?_, ?_, ?_, ?_⟩
  · change ((word.setWidth 32) &&& 0xFF).setWidth 8 = vec
    ext i hi
    interval_cases i <;> simp [hbits, hzero, own_bits]
  · change ((((word >>> 32).setWidth 32 >>> 24) &&& 0xFF).setWidth 8).toNat = lapic.toNat
    rw [hdest, BitVec.toNat_setWidth]
    omega
  · change ((word.setWidth 32 >>> 13) &&& 0x1).setWidth 8 = _
    rw [hpol]
    ext i hi
    interval_cases i <;> cases pol <;> simp [hbits, hzero, own_bits]
  · change ((word.setWidth 32 >>> 15) &&& 0x1).setWidth 8 = _
    rw [hmode]
    ext i hi
    interval_cases i <;> cases mode <;> simp [hbits, hzero, own_bits]
  · change ((word.setWidth 32 >>> 8) &&& 0x7).setWidth 8 = _
    ext i hi
    interval_cases i <;> simp [hbits]
  · change ((word.setWidth 32 >>> 11) &&& 0x1).setWidth 8 = _
    ext i hi
    interval_cases i <;> simp [hbits]
  · change ((word.setWidth 32 >>> 16) &&& 0x1).setWidth 8 = _
    ext i hi
    interval_cases i <;> simp [hbits]

/-! ## The registers -/

/-- The two registers at `reg`, read as `dump_entries` reads them. -/
def read_back (base : BitVec 64) (reg : BitVec 32) (d : Devices) : Redirection :=
  let (low, d) := read base reg d
  decode low (read base (reg + 1) d).1

theorem read_back_eq (base : BitVec 64) (reg : BitVec 32) (d : Devices) :
    read_back base reg d = decode (d.register base reg) (d.register base (reg + 1)) := by
  simp [read_back, read, Devices.load, Devices.select]

@[simp] theorem register_write (base : BitVec 64) (reg value : BitVec 32) (d : Devices) :
    (write base reg value d).register =
      Function.update d.register base (Function.update (d.register base) reg value) := by
  simp [write, Devices.store, Devices.select]

theorem set_register {s : State} {d : Devices} {irq : BitVec 8} {apic : acpi_madt_ioapic}
    (hselected : (find_apic s.apics (s.actual_irq irq) s.apic_ent.toNat 0 none d).1 = some apic) (vec : BitVec 8)
    (flags lapic : BitVec 64) :
    (set s vec irq flags lapic d).register =
      Function.update d.register apic.base
        (Function.update (Function.update (d.register apic.base) (irqreg apic (s.actual_irq irq))
            ((c_flags (s.override irq) vec flags lapic).setWidth 32))
          (irqreg apic (s.actual_irq irq) + 1) ((c_flags (s.override irq) vec flags lapic >>> 32).setWidth 32)) := by
  have hframe := (find_apic_frame s.apics (s.actual_irq irq) s.apic_ent.toNat 0 none d).1
  unfold set
  rw [ciso_eq]
  generalize find_apic s.apics (s.actual_irq irq) s.apic_ent.toNat 0 none d = r at *
  obtain ⟨found, d'⟩ := r
  obtain rfl := hselected
  dsimp only at hframe
  simp [acpi_madt_ioapic.base, hframe]

/-- The range test of `dump_entries` has the entry of the interrupt, and its registers are the
ones that `set` counts. -/
theorem irqreg_eq {d : Devices} {apic : acpi_madt_ioapic} {actual_irq : BitVec 8}
    (h : Contains d apic (actual_irq.setWidth 32)) :
    irqreg apic actual_irq = redirection_register apic (actual_irq.setWidth 32) := by
  obtain ⟨hlow, -⟩ := h
  unfold irqreg redirection_register
  generalize actual_irq.setWidth 32 = gsi at *
  have hle : apic.gsi_base ≤ gsi := hlow
  apply BitVec.eq_of_toNat_eq
  rw [BitVec.toNat_add, BitVec.toNat_mul, BitVec.toNat_sub_of_le hle, BitVec.toNat_ofNat]
  simp
  omega

/-- Whichever IOAPIC `set` ends at: the two registers that it writes there, taken apart as
`dump_entries` does it, say what the call and the override say, no other register of any
IOAPIC changes, and they are the registers of the interrupt that it looks for, where that is
in the range of the IOAPIC. -/
theorem set_round_trip (s : State) (d : Devices) (vec irq : BitVec 8) (flags lapic : BitVec 64)
    (apic : acpi_madt_ioapic)
    (hselected : (find_apic s.apics (s.actual_irq irq) s.apic_ent.toNat 0 none d).1 = some apic)
    (hlapic : lapic.toNat ≤ 255) (hflags : flags &&& own_bits = 0) :
    Says (s.override irq) vec flags lapic
        (read_back apic.base (irqreg apic (s.actual_irq irq)) (set s vec irq flags lapic d)) ∧
      (∀ base reg, (base = apic.base → reg ≠ irqreg apic (s.actual_irq irq) ∧ reg ≠ irqreg apic (s.actual_irq irq) + 1) →
        (set s vec irq flags lapic d).register base reg = d.register base reg) ∧
      (Contains d apic ((s.actual_irq irq).setWidth 32) →
        irqreg apic (s.actual_irq irq) = redirection_register apic ((s.actual_irq irq).setWidth 32)) := by
  refine ⟨?_, ?_, irqreg_eq⟩
  · have hne : irqreg apic (s.actual_irq irq) ≠ irqreg apic (s.actual_irq irq) + 1 := by bv_omega
    rw [read_back_eq, set_register hselected, Function.update_self, Function.update_self,
      Function.update_of_ne hne, Function.update_self]
    exact decode_c_flags (s.override irq) vec flags lapic hlapic hflags
  · intro base reg hother
    rw [set_register hselected]
    by_cases hbase : base = apic.base
    · obtain ⟨hlow, hhigh⟩ := hother hbase
      rw [hbase, Function.update_self, Function.update_of_ne hhigh, Function.update_of_ne hlow]
    · rw [Function.update_of_ne hbase]

/-- The timer goes to the core 3, over the override of its line. -/
theorem set_round_trip_timer :
    Says (two_ioapics.override 0) 0x20 0 3
        (read_back 0xFEC00000 0x14 (set two_ioapics 0x20 0 0 3 two_devices)) ∧
      (∀ base reg, (base = 0xFEC00000 → reg ≠ 0x14 ∧ reg ≠ 0x14 + 1) →
        (set two_ioapics 0x20 0 0 3 two_devices).register base reg = two_devices.register base reg) ∧
      (Contains two_devices (two_ioapics.apics 0) 2 → (0x14 : BitVec 32) = redirection_register (two_ioapics.apics 0) 2) :=
  set_round_trip two_ioapics two_devices 0x20 0 0 3 (two_ioapics.apics 0) (by decide) (by decide) (by decide)

/-! ## The listing -/

/-- The line for an entry of an IOAPIC, where there is one. -/
def entry_line (register : BitVec 32 → BitVec 32) (entry : BitVec 32) : Option Line :=
  let fields := decode (register (entry * 2 + 0x10)) (register (entry * 2 + 0x10 + 1))
  if fields.vector ≠ 0 ∨ fields.mask = 0 then some (.entry entry fields) else none

/-- The lines for an IOAPIC: its own line, and one for each entry that is in use. -/
def ioapic_lines (d : Devices) (s : State) (i : Nat) : List Line :=
  let register := d.register (s.apics i).base
  .ioapic i (s.apics i).address (max_entry (register 1)) ::
    (List.range ((max_entry (register 1)).toNat + 1)).filterMap fun e => entry_line register (BitVec.ofNat 32 e)

theorem dump_from_succ (base : BitVec 64) (n : Nat) (entry : BitVec 32) (lines : List Line) (d : Devices) :
    dump_from base (n + 1) entry (lines, d) =
      dump_from base n (entry + 1)
        (lines ++ (entry_line (d.register base) entry).toList,
          (d.select base (entry * 2 + 0x10)).select base (entry * 2 + 0x10 + 1)) := by
  rw [dump_from]
  simp only [read, Devices.load, Devices.select, Function.update_self]
  unfold entry_line
  dsimp only
  split <;> simp

theorem dump_from_eq (base : BitVec 64) (n : Nat) (entry : BitVec 32) (lines : List Line) (d : Devices) :
    (dump_from base n entry (lines, d)).1 =
        lines ++ (List.range n).filterMap (fun e => entry_line (d.register base) (entry + BitVec.ofNat 32 e)) ∧
      (dump_from base n entry (lines, d)).2.register = d.register := by
  induction n generalizing entry lines d with
  | zero => simp [dump_from]
  | succ n ih =>
    have hnext : ∀ e, entry + 1 + BitVec.ofNat 32 e = entry + BitVec.ofNat 32 (e + 1) := by
      intro e
      rw [BitVec.add_assoc, BitVec.ofNat_add, BitVec.add_comm 1]
      rfl
    have hzero : entry + BitVec.ofNat 32 0 = entry := by simp
    obtain ⟨hlines, hregister⟩ := ih (entry + 1) (lines ++ (entry_line (d.register base) entry).toList)
      ((d.select base (entry * 2 + 0x10)).select base (entry * 2 + 0x10 + 1))
    have hsame : ((d.select base (entry * 2 + 0x10)).select base (entry * 2 + 0x10 + 1)).register = d.register := rfl
    rw [dump_from_succ, hlines, hregister, hsame, List.range_succ_eq_map, List.filterMap_cons, List.filterMap_map, hzero]
    refine ⟨?_, rfl⟩
    simp only [hnext, Function.comp_def]
    cases entry_line (d.register base) entry with
    | none => rw [Option.toList_none, List.append_nil]
    | some line => rw [Option.toList_some, List.append_assoc]; rfl

theorem dump_apics_eq (s : State) (n i : Nat) (lines : List Line) (d d' : Devices) (hread : d'.register = d.register) :
    (dump_apics s.apics n i (lines, d')).1 = lines ++ (List.range' i n).flatMap (ioapic_lines d s) := by
  induction n generalizing i lines d' with
  | zero => simp [dump_apics]
  | succ n ih =>
    rw [dump_apics]
    dsimp only
    have hver : (read (s.apics i).base 1 d').1 = d.register (s.apics i).base 1 := by
      rw [← hread]
      simp [read, Devices.load, Devices.select]
    have hloop := dump_from_eq (s.apics i).base ((max_entry (d.register (s.apics i).base 1)).toNat + 1) 0
      (lines ++ [.ioapic i (s.apics i).address (max_entry (d.register (s.apics i).base 1))])
      (read (s.apics i).base 1 d').2
    have hsame : (read (s.apics i).base 1 d').2.register = d.register := hread
    rw [hsame] at hloop
    change (dump_apics s.apics n (i + 1) (dump_from (s.apics i).base
      ((max_entry (read (s.apics i).base 1 d').1).toNat + 1) 0 (lines ++ [.ioapic i (s.apics i).address
        (max_entry (read (s.apics i).base 1 d').1)], (read (s.apics i).base 1 d').2))).1 = _
    rw [hver]
    generalize dump_from _ _ _ _ = p at *
    obtain ⟨lines', d''⟩ := p
    obtain ⟨hlines, hregister⟩ := hloop
    dsimp only at hlines hregister
    rw [ih (i + 1) lines' d'' hregister, hlines, List.range'_succ, List.flatMap_cons]
    simp [ioapic_lines]

theorem dump_entries_eq (s : State) (d : Devices) :
    (dump_entries s d).1 = .title :: (List.range s.apic_ent.toNat).flatMap (ioapic_lines d s) := by
  unfold dump_entries
  rw [dump_apics_eq s s.apic_ent.toNat 0 [.title] d d rfl, List.range_eq_range']
  rfl

end SlayerOS.Ioapic
