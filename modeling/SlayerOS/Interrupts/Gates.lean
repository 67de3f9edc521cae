import SlayerOS.Interrupts.Spec

/-!
# Gates and the calls that write them

A call writes the gate of the number that it is given. What the gate holds depends on that
number alone.
-/

namespace SlayerOS.Interrupts

/-! ## One gate -/

/-- The gate that `register_entry_with_ist` makes for the kernel's code segment. -/
def makeGate (offset ist : Nat) : Gate :=
  { offset_low := offset &&& 0xFFFF
    selector := 0x08
    ist := ist
    type_attr := INT_GATE ||| 0x80
    offset_mid := (offset >>> 16) &&& 0xFFFF
    offset_high := (offset >>> 32) &&& 0xFFFFFFFF
    zero := 0 }

def emptyGate : Gate := ⟨0, 0, 0, 0, 0, 0, 0⟩

@[simp] theorem makeGate_present (offset ist : Nat) : (makeGate offset ist).present = true := by
  change (((INT_GATE ||| 0x80) &&& 0x80) != 0) = true
  decide

@[simp] theorem emptyGate_present : emptyGate.present = false := by decide

@[simp] theorem makeGate_offset (offset ist : Nat) (h : offset < 2 ^ 64) :
    (makeGate offset ist).offset = offset := by
  unfold Gate.offset makeGate
  simp only
  apply Nat.eq_of_testBit_eq
  intro i
  rw [Nat.testBit_or, Nat.testBit_or, Nat.testBit_shiftLeft, Nat.testBit_shiftLeft,
    show 0xFFFF = 2 ^ 16 - 1 from rfl, show 0xFFFFFFFF = 2 ^ 32 - 1 from rfl,
    Nat.testBit_and, Nat.testBit_and, Nat.testBit_and, Nat.testBit_two_pow_sub_one,
    Nat.testBit_two_pow_sub_one, Nat.testBit_two_pow_sub_one, Nat.testBit_shiftRight, Nat.testBit_shiftRight]
  by_cases hlow : i < 16
  · simp [hlow, show ¬ 16 ≤ i by omega, show ¬ 32 ≤ i by omega]
  · by_cases hmid : i < 32
    · simp [hlow, show 16 ≤ i by omega, show ¬ 32 ≤ i by omega, show i - 16 < 16 by omega]
    · by_cases hhigh : i < 64
      · simp [hlow, show 16 ≤ i by omega, show 32 ≤ i by omega, show i - 32 < 32 by omega,
          show ¬ i - 16 < 16 by omega]
      · have htop : offset.testBit i = false := by
          apply Nat.testBit_lt_two_pow
          exact lt_of_lt_of_le h (Nat.pow_le_pow_right (by decide) (by omega))
        simp [htop, hlow, show 16 ≤ i by omega, show 32 ≤ i by omega, show ¬ i - 32 < 32 by omega,
          show ¬ i - 16 < 16 by omega]

/-! ## `IDT::init` and `IRQ::init` -/

/-- `isr_handlers` from `IDT::init` on. -/
def stubTable (sym : Symbols) (v : Nat) : Nat := if HasStub v then sym.isr v else 0

theorem stubTable_lt (sym : Symbols) (v : Nat) : stubTable sym v < 2 ^ 64 := by
  unfold stubTable
  split
  · exact sym.lt v
  · decide

theorem stubTable_ne_zero (sym : Symbols) (v : Nat) : stubTable sym v ≠ 0 ↔ HasStub v := by
  unfold stubTable
  split
  case isTrue h => exact iff_of_true (sym.pos v h) h
  case isFalse h => exact iff_of_false (by simp) h

theorem register_entry_with_ist_eq (s : State) (index offset ist : Nat) :
    register_entry_with_ist s index offset 0x08 INT_GATE ist =
      { s with idt := Function.update s.idt index (makeGate offset ist) } := rfl

theorem init_gates_spec (s : State) (n : Nat) :
    (List.range n).foldl init_gate s =
      { s with idt := fun v =>
          if v < n ∧ s.isr_handlers v ≠ 0 then makeGate (s.isr_handlers v) IST_EXCEPTION else s.idt v } := by
  induction n with
  | zero => simp
  | succ n ih =>
    rw [List.range_succ, List.foldl_append, ih, List.foldl_cons, List.foldl_nil, init_gate]
    simp only
    split
    case isTrue hnull =>
      congr 1
      funext v
      by_cases hv : v = n
      · simp [hv, hnull]
      · simp [show v < n + 1 ↔ v < n by omega]
    case isFalse hstub =>
      rw [register_entry_with_ist_eq]
      congr 1
      funext v
      by_cases hv : v = n
      · subst hv
        simp [hstub]
      · simp [Function.update_of_ne hv, show v < n + 1 ↔ v < n by omega]

/-- The vectors that `IDT::init` sets up. -/
def Early (v : Nat) : Prop := v < 32 ∨ v = 0xF0 ∨ v = 0xFF

instance (v : Nat) : Decidable (Early v) := inferInstanceAs (Decidable (_ ∨ _))

theorem idt_init_spec (sym : Symbols) :
    idt_init sym (loaded sym) =
      { loaded sym with
        isr_handlers := stubTable sym
        idt := fun v => if Early v then makeGate (stubTable sym v) IST_EXCEPTION else emptyGate } := by
  have htable : Function.update (Function.update (loaded sym).isr_handlers 0xF0 (sym.isr 0xF0)) 0xFF
      (sym.isr 0xFF) = stubTable sym := by
    funext v
    simp only [Function.update_apply, loaded, stubTable, HasStub]
    grind
  have hF0 := (stubTable_ne_zero sym 0xF0).mpr (by decide)
  have hFF := (stubTable_ne_zero sym 0xFF).mpr (by decide)
  unfold idt_init
  simp only [htable, init_gates_spec, init_gate, if_neg hF0, if_neg hFF, register_entry_with_ist_eq]
  congr 1
  funext v
  have hlow : v < 32 → stubTable sym v ≠ 0 := fun hv => (stubTable_ne_zero sym v).mpr (Or.inl (by omega))
  have hempty : (loaded sym).idt v = emptyGate := rfl
  simp only [Function.update_apply, Early, hempty]
  grind

theorem idt_init_gate (sym : Symbols) (v : Nat) :
    (idt_init sym (loaded sym)).idt v =
      if Early v then makeGate (stubTable sym v) IST_EXCEPTION else emptyGate := by
  rw [idt_init_spec]

/-! ## One call -/

theorem register_entry_eq (s : State) (irq : Nat) (handler : Option Handler) :
    register_entry s irq handler =
      { s with
        irq_handlers := Function.update s.irq_handlers irq handler
        idt := Function.update s.idt irq (makeGate (s.isr_handlers irq) IST_IRQ) } := rfl

/-- A line that uACPI holds has its gate already. -/
structure GateInv (sym : Symbols) (s : State) : Prop where
  stubs : s.isr_handlers = stubTable sym
  installed : ∀ v, (s.uacpi_handlers v).installed = true → s.idt v = makeGate (stubTable sym v) IST_IRQ

theorem idt_init_inv (sym : Symbols) : GateInv sym (idt_init sym (loaded sym)) := by
  rw [idt_init_spec]
  exact ⟨rfl, fun v hv => by simp [loaded] at hv⟩

theorem register_entry_inv (sym : Symbols) (s : State) (irq : Nat) (handler : Option Handler)
    (hs : GateInv sym s) : GateInv sym (register_entry s irq handler) := by
  rw [register_entry_eq, hs.stubs]
  refine ⟨rfl, ?_⟩
  intro v hv
  by_cases h : v = irq
  · rw [h]
    exact Function.update_self ..
  · exact (Function.update_of_ne h ..).trans (hs.installed v hv)

theorem install_spec (s : State) (irq f ctx : Nat) (hirq : irq < 256) :
    (uacpi_kernel_install_interrupt_handler s irq (some f) ctx true).2 =
      if (s.uacpi_handlers irq).installed then s
      else register_entry
        { s with uacpi_handlers := Function.update s.uacpi_handlers irq ⟨some f, ctx, irq, true⟩ }
        irq (some .uacpi_irq_bridge) := by
  have hcast : irq % 2 ^ 8 = irq := Nat.mod_eq_of_lt hirq
  have hok : ¬ (irq ≥ 256 ∨ true = false) := by simpa using hirq
  unfold uacpi_kernel_install_interrupt_handler
  simp only [if_neg hok, hcast]
  split <;> rfl

theorem install_refused (s : State) (irq : Nat) (handler : Option Nat) (ctx : Nat) (out : Bool)
    (h : (Call.install irq handler ctx out).target = none) :
    next s (.install irq handler ctx out) = s := by
  unfold next uacpi_kernel_install_interrupt_handler
  cases handler with
  | none => rfl
  | some f =>
    cases out with
    | false => simp
    | true => simp [Call.target] at h

theorem uninstall_spec (s : State) (handler : Option Nat) (irq_handle : Option Int) :
    next s (.uninstall handler irq_handle) = s ∨
    ∃ n, (s.uacpi_handlers n).installed = true ∧ next s (.uninstall handler irq_handle) =
      { s with
        uacpi_handlers := Function.update s.uacpi_handlers n ⟨none, 0, (s.uacpi_handlers n).irq, false⟩ } := by
  unfold next uacpi_kernel_uninstall_interrupt_handler
  cases handler with
  | none => exact Or.inl rfl
  | some f =>
    cases irq_handle with
    | none => exact Or.inl rfl
    | some i =>
      simp only
      split
      · exact Or.inl rfl
      case isFalse h =>
        push Not at h
        exact Or.inr ⟨i.toNat, by simpa using h.2.2.1, rfl⟩

theorem install_inv (sym : Symbols) (s : State) (irq f ctx : Nat) (hs : GateInv sym s) (hirq : irq < 256) :
    GateInv sym (next s (.install irq (some f) ctx true)) ∧
    ∀ v, (next s (.install irq (some f) ctx true)).idt v =
      if irq = v then makeGate (stubTable sym v) IST_IRQ else s.idt v := by
  rw [next, install_spec s irq f ctx hirq]
  split
  case isTrue hold =>
    refine ⟨hs, ?_⟩
    intro v
    split
    case isTrue h => rw [← h, hs.installed irq hold]
    case isFalse => rfl
  case isFalse =>
    rw [register_entry_eq]
    refine ⟨⟨hs.stubs, ?_⟩, ?_⟩
    · intro v hv
      rw [hs.stubs]
      by_cases h : v = irq
      · rw [h]
        exact Function.update_self ..
      · simp only [Function.update_of_ne h] at hv
        exact (Function.update_of_ne h ..).trans (hs.installed v hv)
    · intro v
      simp only [Function.update_apply, hs.stubs]
      grind

theorem install_target (irq : Nat) (handler : Option Nat) (ctx : Nat) (out : Bool) (v : Nat)
    (h : (Call.install irq handler ctx out).target = some v) :
    v = irq ∧ out = true ∧ ∃ f, handler = some f := by
  cases handler with
  | none => cases h
  | some f =>
    cases out with
    | false => cases h
    | true => exact ⟨(Option.some.inj h).symm, rfl, f, rfl⟩

theorem Call.target_lt (c : Call) (v : Nat) (hc : c.Ok) (h : c.target = some v) : v < 256 := by
  cases c with
  | register u handler => exact Option.some.inj h ▸ hc
  | install irq handler ctx out => exact (install_target irq handler ctx out v h).1 ▸ hc
  | uninstall handler irq_handle => cases h

theorem next_gates (sym : Symbols) (s : State) (c : Call) (hs : GateInv sym s) (hc : c.Ok) :
    GateInv sym (next s c) ∧ ∀ v, (next s c).idt v =
      if c.target = some v then makeGate (stubTable sym v) IST_IRQ else s.idt v := by
  cases c with
  | register v handler =>
    refine ⟨register_entry_inv sym s v handler hs, ?_⟩
    intro u
    simp only [next, register_entry_eq, Call.target, Option.some.injEq, Function.update_apply, hs.stubs]
    grind
  | install irq handler ctx out =>
    cases htarget : (Call.install irq handler ctx out).target with
    | none =>
      rw [install_refused s irq handler ctx out htarget]
      exact ⟨hs, fun v => rfl⟩
    | some u =>
      obtain ⟨rfl, rfl, f, rfl⟩ := install_target irq handler ctx out u htarget
      simpa only [Option.some.injEq] using install_inv sym s u f ctx hs hc
  | uninstall handler irq_handle =>
    rcases uninstall_spec s handler irq_handle with heq | ⟨n, -, heq⟩
    · rw [heq]
      exact ⟨hs, fun v => rfl⟩
    · rw [heq]
      refine ⟨⟨hs.stubs, ?_⟩, fun v => rfl⟩
      intro v hv
      by_cases h : v = n
      · simp [h] at hv
      · simp only [Function.update_of_ne h] at hv
        exact hs.installed v hv

/-! ## Runs -/

/-- After any calls, a gate is what the last write made it: every target of a call has the
gate of an interrupt, and every other vector still has its first one. -/
theorem run_gates (sym : Symbols) (calls : List Call) (s : State) (hs : GateInv sym s)
    (hcalls : ∀ c ∈ calls, c.Ok) :
    GateInv sym (calls.foldl next s) ∧ ∀ v, (calls.foldl next s).idt v =
      if ∃ c ∈ calls, c.target = some v then makeGate (stubTable sym v) IST_IRQ else s.idt v := by
  induction calls generalizing s with
  | nil => exact ⟨hs, fun v => by simp⟩
  | cons c calls ih =>
    obtain ⟨hinv, hgates⟩ := next_gates sym s c hs (hcalls c List.mem_cons_self)
    obtain ⟨hinv', hgates'⟩ := ih (next s c) hinv fun d hd => hcalls d (List.mem_cons_of_mem _ hd)
    refine ⟨hinv', ?_⟩
    intro v
    rw [List.foldl_cons, hgates' v, hgates v]
    simp only [List.mem_cons, exists_eq_or_imp]
    by_cases h : ∃ d ∈ calls, d.target = some v
    · simp [h]
    · simp [h]

/-- The present gates lead to the stubs of their vectors exactly when every call named a
vector that has a stub. -/
theorem gatesLead_iff (sym : Symbols) (calls : List Call) (hcalls : ∀ c ∈ calls, c.Ok) :
    GatesLead (afterIdt sym calls) ↔ ∀ c ∈ calls, ∀ v, c.target = some v → HasStub v := by
  obtain ⟨hinv, hgates⟩ := run_gates sym calls _ (idt_init_inv sym) hcalls
  simp only [idt_init_gate] at hgates
  unfold GatesLead afterIdt
  simp only [hinv.stubs, hgates, stubTable_ne_zero]
  constructor
  · intro hlead c hc v hv
    exact (hlead v (c.target_lt v (hcalls c hc) hv) (by rw [if_pos ⟨c, hc, hv⟩]; exact makeGate_present _ _)).1
  · intro hstubs v hv hpresent
    split at hpresent
    case isTrue h =>
      obtain ⟨c, hc, htarget⟩ := h
      rw [if_pos ⟨c, hc, htarget⟩]
      exact ⟨hstubs c hc v htarget, makeGate_offset _ _ (stubTable_lt sym v)⟩
    case isFalse h =>
      rw [if_neg h]
      split at hpresent
      case isTrue hearly =>
        rw [if_pos hearly]
        refine ⟨?_, makeGate_offset _ _ (stubTable_lt sym v)⟩
        unfold Early at hearly
        unfold HasStub
        omega
      case isFalse => simp at hpresent

/-- Stubs of 16 bytes, one behind the other. -/
def linked : Symbols where
  isr v := 0xffffffff80001000 + 16 * (v % 256)
  pos := by
    intro v _
    omega
  lt := by
    intro v
    omega
  inj := by
    intro u v hu hv h
    unfold HasStub at hu hv
    omega

theorem gatesLead_iff_two :
    GatesLead (afterIdt linked [.register 0x21 (some (.other 0)), .install 9 (some 1) 0 true]) := by
  refine (gatesLead_iff linked [.register 0x21 (some (.other 0)), .install 9 (some 1) 0 true] ?_).mpr ?_
  · simp [Call.Ok]
  · simp [Call.target, HasStub]

/-- Vector 0x80 has no stub, and its gate leads to address 0. -/
theorem register_without_stub :
    ((afterIdt linked [.register 0x80 (some (.other 0))]).idt 0x80).present = true ∧
    ((afterIdt linked [.register 0x80 (some (.other 0))]).idt 0x80).offset = 0 ∧
    ¬ GatesLead (afterIdt linked [.register 0x80 (some (.other 0))]) := by
  have hstubs : (afterIdt linked [.register 0x80 (some (.other 0))]).isr_handlers 0x80 = 0 := by
    rw [afterIdt, idt_init_spec]
    rfl
  have hgate : (afterIdt linked [.register 0x80 (some (.other 0))]).idt 0x80 = makeGate 0 IST_IRQ := by
    rw [afterIdt, idt_init_spec]
    rfl
  have hpresent : ((afterIdt linked [.register 0x80 (some (.other 0))]).idt 0x80).present = true := by
    rw [hgate, makeGate_present]
  refine ⟨hpresent, by rw [hgate, makeGate_offset 0 IST_IRQ (by decide)], ?_⟩
  intro hlead
  exact (hlead 0x80 (by decide) hpresent).1 hstubs

end SlayerOS.Interrupts
