import SlayerOS.Interrupts.Gates
import Mathlib.Data.List.Find
import Mathlib.Tactic.IntervalCases

/-!
# From a vector to its handler

Handlers are registered under the number of the vector, and `irq_handler` looks them up
under the number that the stub pushes, which is the line. uACPI registers lines.
-/

namespace SlayerOS.Interrupts

/-! ## Stubs -/

theorem isr_s_hasStub (stub : Stub) (h : stub ∈ isr_s) : HasStub stub.num := by
  have hall : ∀ stub ∈ isr_s, HasStub stub.num := by decide
  exact hall stub h

theorem find_stub (sym : Symbols) (v : Nat) (hv : HasStub v) :
    isr_s.find? (fun stub => sym.isr stub.num = sym.isr v) = isr_s.find? fun stub => stub.num = v := by
  apply List.find?_congr
  intro stub hstub
  have hiff : sym.isr stub.num = sym.isr v ↔ stub.num = v :=
    ⟨sym.inj _ _ (isr_s_hasStub stub hstub) hv, fun h => by rw [h]⟩
  simp only [hiff]

theorem irq_stub (v : Nat) (hlo : 32 ≤ v) (hhi : v < 48) :
    isr_s.find? (fun stub => stub.num = v) = some (.IRQ v (v - 32)) := by
  interval_cases v <;> rfl

/-- An interrupt on one of the sixteen vectors of the hardware goes to `irq_handler` with
the number of the line, if the gate is there. -/
theorem deliver_irq (sym : Symbols) (s : State) (v ist : Nat) (hlo : 32 ≤ v) (hhi : v < 48)
    (hgate : s.idt v = makeGate (stubTable sym v) ist) : deliver sym s v = some (irq_handler s (v - 32)) := by
  have hv : HasStub v := Or.inl hhi
  unfold deliver
  rw [hgate, makeGate_offset _ _ (stubTable_lt sym v), if_pos (makeGate_present _ _),
    stubTable, if_pos hv, find_stub sym v hv, irq_stub v hlo hhi]
  rfl

theorem deliver_absent (sym : Symbols) (s : State) (v : Nat) (hgate : s.idt v = emptyGate) :
    deliver sym s v = none := by
  unfold deliver
  rw [hgate]
  simp

/-! ## `IRQ::init` -/

theorem irq_init_inv (sym : Symbols) : GateInv sym (irq_init (idt_init sym (loaded sym))) := by
  have hinit := idt_init_inv sym
  generalize idt_init sym (loaded sym) = s at *
  have h := register_entry_inv sym s 0x20 (some .Timer_Handle) hinit
  exact ⟨h.stubs, h.installed⟩

theorem irq_init_gate (sym : Symbols) (v : Nat) :
    (irq_init (idt_init sym (loaded sym))).idt v =
      if v = 0x20 then makeGate (stubTable sym v) IST_IRQ
      else if Early v then makeGate (stubTable sym v) IST_EXCEPTION else emptyGate := by
  rw [irq_init, register_entry_eq]
  simp only [Function.update_apply, idt_init_gate, (idt_init_inv sym).stubs]
  grind

theorem irq_init_handlers (sym : Symbols) (n : Nat) (hn : n < 32) :
    (irq_init (idt_init sym (loaded sym))).irq_handlers n = if n = 0 then some .Timer_Handle else none := by
  rw [irq_init, register_entry_eq, idt_init_spec]
  simp only [Function.update_apply, loaded]
  grind

/-! ## Drivers -/

theorem registerAll_lines (regs : List (Nat × Option Handler)) (s : State) (n : Nat) (hn : n < 32)
    (hregs : ∀ r ∈ regs, 32 ≤ r.1 ∧ r.1 < 48) :
    ((registerAll regs).foldl next s).irq_handlers n = s.irq_handlers n := by
  induction regs generalizing s with
  | nil => rfl
  | cons r regs ih =>
    have hr := hregs r List.mem_cons_self
    rw [registerAll, List.map_cons, List.foldl_cons]
    refine (ih _ fun r' hr' => hregs r' (List.mem_cons_of_mem _ hr')).trans ?_
    rw [next, register_entry_eq]
    exact Function.update_of_ne (by omega) _ _

theorem registerAll_ok (regs : List (Nat × Option Handler)) (hregs : ∀ r ∈ regs, 32 ≤ r.1 ∧ r.1 < 48) :
    ∀ c ∈ registerAll regs, c.Ok := by
  intro c hc
  obtain ⟨r, hr, rfl⟩ := List.mem_map.mp hc
  have := hregs r hr
  change r.1 < 256
  omega

theorem latest_eq_none (regs : List (Nat × Option Handler)) (v : Nat) (hv : v ≠ 0x20)
    (hregs : ¬ ∃ c ∈ registerAll regs, c.target = some v) : latest regs v = none := by
  have hfind : ((0x20, some Handler.Timer_Handle) :: regs).reverse.find? (fun r => r.1 = v) = none := by
    rw [List.find?_eq_none]
    intro r hr
    rw [List.mem_reverse, List.mem_cons] at hr
    rcases hr with rfl | hr
    · simpa using hv.symm
    · intro h
      exact hregs ⟨_, List.mem_map_of_mem hr, by simpa [Call.target] using h⟩
  rw [latest, hfind]
  rfl

theorem called_irq_handler (s : State) (n : Nat) (h : s.irq_handlers n = none ∨
    s.irq_handlers n = some .Timer_Handle) : called (irq_handler s n) = (s.irq_handlers n).toList := by
  unfold irq_handler
  rcases h with h | h
  · rw [h]
    rfl
  · rw [h]
    rfl

theorem registered_line (sym : Symbols) (regs : List (Nat × Option Handler)) (v : Nat)
    (hregs : ∀ r ∈ regs, 32 ≤ r.1 ∧ r.1 < 48) (hlo : 32 ≤ v) (hhi : v < 48) :
    (afterIrq sym (registerAll regs)).irq_handlers (v - 32) = if v = 0x20 then some .Timer_Handle else none := by
  rw [afterIrq, registerAll_lines regs _ _ (by omega) hregs, irq_init_handlers sym _ (by omega)]
  simp only [show v - 32 = 0 ↔ v = 0x20 by omega]

theorem registered_gate (sym : Symbols) (regs : List (Nat × Option Handler)) (v : Nat)
    (hregs : ∀ r ∈ regs, 32 ≤ r.1 ∧ r.1 < 48) (hlo : 32 ≤ v) (hhi : v < 48) :
    (afterIrq sym (registerAll regs)).idt v =
      if v = 0x20 ∨ ∃ c ∈ registerAll regs, c.target = some v then makeGate (stubTable sym v) IST_IRQ
      else emptyGate := by
  obtain ⟨-, hgates⟩ := run_gates sym (registerAll regs) _ (irq_init_inv sym) (registerAll_ok regs hregs)
  have hearly : ¬ Early v := by
    unfold Early
    omega
  rw [afterIrq, hgates v, irq_init_gate, if_neg hearly]
  by_cases htimer : v = 0x20
  · simp [htimer]
  · simp [htimer]

/-- Whatever drivers have registered, an interrupt on a vector calls the timer's handler on
vector 0x20 and none on the others. So it is dispatched right exactly when that is what was
registered last. -/
theorem dispatches_iff (sym : Symbols) (regs : List (Nat × Option Handler)) (v : Nat)
    (hregs : ∀ r ∈ regs, 32 ≤ r.1 ∧ r.1 < 48) (hlo : 32 ≤ v) (hhi : v < 48) :
    Dispatches sym (afterIrq sym (registerAll regs)) v (latest regs v) ↔
      latest regs v = if v = 0x20 then some .Timer_Handle else none := by
  have hline := registered_line sym regs v hregs hlo hhi
  have hgate := registered_gate sym regs v hregs hlo hhi
  split at hgate
  case isTrue =>
    -- The gate is there, and the stub passes the line on.
    have hcalled := called_irq_handler (afterIrq sym (registerAll regs)) (v - 32) (by rw [hline]; grind)
    rw [hline] at hcalled
    unfold Dispatches
    simp only [deliver_irq sym _ v IST_IRQ hlo hhi hgate, Option.some.injEq, forall_eq', hcalled]
    constructor
    · intro h
      have := congrArg List.head? h
      rw [Option.head?_toList, Option.head?_toList] at this
      exact this.symm
    · intro h
      rw [h]
  case isFalse hset =>
    -- Nothing was registered for `v`, and its gate is not present.
    rw [not_or] at hset
    have hnone := latest_eq_none regs v hset.1 hset.2
    refine iff_of_true ?_ (by rw [hnone, if_neg hset.1])
    intro events h
    rw [deliver_absent sym _ v hgate] at h
    cases h

theorem dispatches_iff_timer :
    Dispatches linked (afterIrq linked (registerAll [(0x21, some (.other 1)), (0x20, some .Timer_Handle)]))
      0x20 (some .Timer_Handle) :=
  (dispatches_iff linked [(0x21, some (.other 1)), (0x20, some .Timer_Handle)] 0x20 (by decide)
    (by decide) (by decide)).mpr (by decide)

/-- The handler of vector 0x21 is not called. -/
theorem registered_handler_not_called :
    latest [(0x21, some (.other 1))] 0x21 = some (.other 1) ∧
    deliver linked (afterIrq linked (registerAll [(0x21, some (.other 1))])) 0x21 = some [.eoi] ∧
    ¬ Dispatches linked (afterIrq linked (registerAll [(0x21, some (.other 1))])) 0x21
      (latest [(0x21, some (.other 1))] 0x21) := by
  have hdeliver : deliver linked (afterIrq linked (registerAll [(0x21, some (.other 1))])) 0x21 =
      some [.eoi] := by
    have hgate := registered_gate linked [(0x21, some (.other 1))] 0x21 (by decide) (by decide) (by decide)
    rw [if_pos (Or.inr ⟨_, List.mem_cons_self, rfl⟩)] at hgate
    rw [deliver_irq linked _ 0x21 IST_IRQ (by decide) (by decide) hgate, irq_handler,
      registered_line linked _ 0x21 (by decide) (by decide) (by decide)]
    rfl
  refine ⟨by decide, hdeliver, ?_⟩
  intro h
  exact absurd (h _ hdeliver) (by decide)

/-! ## uACPI -/

/-- Calls of uACPI on the sixteen lines. -/
def Call.OnLine : Call → Prop
  | .register _ _ => False
  | .install irq _ _ _ => irq < 16
  | .uninstall _ _ => True

theorem Call.OnLine.ok {c : Call} (h : c.OnLine) : c.Ok := by
  cases c with
  | register v handler => exact h.elim
  | install irq handler ctx out => exact Nat.lt_trans h (by decide)
  | uninstall handler irq_handle => trivial

theorem Call.OnLine.target_lt {c : Call} (h : c.OnLine) (v : Nat) (hv : c.target = some v) : v < 16 := by
  cases c with
  | register u handler => exact h.elim
  | install irq handler ctx out => exact (install_target irq handler ctx out v hv).1 ▸ h
  | uninstall handler irq_handle => cases hv

theorem run_refused (calls : List Call) (s : State) (hs : ∀ n, (s.uacpi_handlers n).installed = false)
    (hcalls : ∀ c ∈ calls, c.target = none) : calls.foldl next s = s := by
  induction calls with
  | nil => rfl
  | cons c calls ih =>
    have hc := hcalls c List.mem_cons_self
    have hsame : next s c = s := by
      cases c with
      | register v handler => cases hc
      | install irq handler ctx out => exact install_refused s irq handler ctx out hc
      | uninstall handler irq_handle =>
        rcases uninstall_spec s handler irq_handle with heq | ⟨n, hn, -⟩
        · exact heq
        · rw [hs n] at hn
          cases hn
    rw [List.foldl_cons, hsame]
    exact ih fun d hd => hcalls d (List.mem_cons_of_mem _ hd)

/-- A call of uACPI that names a handler and a place for the handle takes over the gate of
an exception. So lines and exceptions are as they should be exactly when there was no such
call. -/
theorem undisturbed_iff (sym : Symbols) (calls : List Call) (hcalls : ∀ c ∈ calls, c.OnLine) :
    Undisturbed sym (afterIrq sym calls) ↔ ∀ c ∈ calls, c.target = none := by
  constructor
  · rintro ⟨-, hkept⟩ c hc
    cases htarget : c.target with
    | none => rfl
    | some v =>
      exfalso
      have hv := (hcalls c hc).target_lt v htarget
      obtain ⟨-, hgates⟩ := run_gates sym calls _ (irq_init_inv sym) fun d hd => (hcalls d hd).ok
      have hearly : Early v := Or.inl (by omega)
      have hist := (hkept v (by omega)).2
      rw [afterIrq, hgates v, if_pos ⟨c, hc, htarget⟩, idt_init_gate, if_pos hearly] at hist
      cases hist
  · intro hnone
    have hfree : ∀ n, ((irq_init (idt_init sym (loaded sym))).uacpi_handlers n).installed = false := by
      intro n
      rw [irq_init, register_entry_eq, idt_init_spec]
      rfl
    rw [afterIrq, run_refused calls _ hfree hnone]
    refine ⟨?_, ?_⟩
    · intro n _ hn
      rw [hfree n] at hn
      cases hn
    · intro v hv
      have hgate : (irq_init (idt_init sym (loaded sym))).idt v = (idt_init sym (loaded sym)).idt v := by
        rw [irq_init_gate, idt_init_gate, if_neg (by omega)]
      exact ⟨by rw [hgate], by rw [hgate]⟩

theorem undisturbed_iff_refused :
    Undisturbed linked (afterIrq linked [.install 9 none 0 true, .uninstall (some 1) (some 9)]) := by
  refine (undisturbed_iff linked [.install 9 none 0 true, .uninstall (some 1) (some 9)] ?_).mpr ?_
  · simp [Call.OnLine]
  · simp [Call.target]

/-- uACPI installs its handler on line 9. Vector 41 has no gate, and the gate of exception 9
has another stack. -/
theorem install_takes_exception :
    ((afterIrq linked [.install 9 (some 1) 0 true]).uacpi_handlers 9).installed = true ∧
    ((afterIrq linked [.install 9 (some 1) 0 true]).idt 41).present = false ∧
    ((afterIrq linked [.install 9 (some 1) 0 true]).idt 9).ist = IST_IRQ ∧
    ¬ Undisturbed linked (afterIrq linked [.install 9 (some 1) 0 true]) := by
  obtain ⟨-, hgates⟩ := run_gates linked [.install 9 (some 1) 0 true] _ (irq_init_inv linked)
    (by simp [Call.Ok])
  have hexception : (afterIrq linked [.install 9 (some 1) 0 true]).idt 9 =
      makeGate (stubTable linked 9) IST_IRQ := by
    rw [afterIrq, hgates 9, if_pos ⟨_, List.mem_cons_self, rfl⟩]
  have hline : (afterIrq linked [.install 9 (some 1) 0 true]).idt 41 = emptyGate := by
    rw [afterIrq, hgates 41, if_neg (by simp [Call.target]), irq_init_gate]
    decide
  have hinstalled : ((afterIrq linked [.install 9 (some 1) 0 true]).uacpi_handlers 9).installed = true := by
    rw [afterIrq, List.foldl_cons, List.foldl_nil, next, install_spec _ 9 1 0 (by decide), irq_init,
      register_entry_eq, idt_init_spec]
    rfl
  refine ⟨hinstalled, by rw [hline]; exact emptyGate_present, by rw [hexception]; rfl, ?_⟩
  rintro ⟨hlines, -⟩
  have := (hlines 9 (by decide) hinstalled).1
  rw [hline, emptyGate_present] at this
  cases this

end SlayerOS.Interrupts
