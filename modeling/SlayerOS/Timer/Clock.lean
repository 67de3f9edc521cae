import SlayerOS.Interrupts.Dispatch
import SlayerOS.Lib.Run
import SlayerOS.Timer.Sleep

/-!
# The clock

The PIT interrupts on line 0, and the handler that `IRQ::init` has put there counts the ticks.
Time goes on until uACPI takes the line over, and a sleep that needs more ticks than that does
not return.
-/

open SlayerOS.Run SlayerOS.Fuel.Comp
open SlayerOS.Interrupts

namespace SlayerOS.Timer

/-- The tables, the two counters of ticks, and the number of calls of `LAPIC::eoi`. -/
structure Machine where
  tables : Interrupts.State
  timer_interrupt_count : BitVec 64
  pit : Pit.State
  eois : Nat

def Timer_Handle (m : Machine) : Machine :=
  { m with timer_interrupt_count := m.timer_interrupt_count + 1, pit := Pit.tick m.pit }

/-- The handlers of drivers and of uACPI leave the clock alone. -/
def act (m : Machine) : Event → Machine
  | .call .Timer_Handle => Timer_Handle m
  | .eoi => { m with eois := m.eois + 1 }
  | _ => m

inductive Input where
  | interrupt (v : Nat)
  | call (c : Call)
deriving DecidableEq, Repr

/-- An interrupt without a gate is a fault. -/
def step (sym : Symbols) (m : Machine) : Input → Option Machine
  | .interrupt v => (deliver sym m.tables v).map fun events => events.foldl act m
  | .call c => some { m with tables := next m.tables c }

/-- The machine behind `IRQ::init`. -/
def booted (sym : Symbols) (pit : Pit.State) : Machine := ⟨irq_init (idt_init sym (loaded sym)), 0, pit, 0⟩

/-- Drivers have the vectors of the hardware, and uACPI has its table. An interrupt comes on a
vector that is set up. -/
def Allowed (m : Machine) : Input → Prop
  | .interrupt v => 32 ≤ v ∧ v < 48 ∧ (m.tables.idt v).present = true
  | .call (.register v _) => 32 ≤ v ∧ v < 48
  | .call (.install irq _ _ _) => irq < 256
  | .call (.uninstall _ _) => True

/-! ## The abstract clock -/

structure Clock where
  running : Bool
  ticks : Nat
  served : Nat
deriving DecidableEq, Repr

/-- An interrupt of the timer is a tick until uACPI has taken line 0. -/
def Clock.next (c : Clock) : Input → Clock
  | .interrupt v => { c with ticks := if v = 0x20 ∧ c.running then c.ticks + 1 else c.ticks, served := c.served + 1 }
  | .call call => if call.target = some 0 then { c with running := false } else c

def clock (inputs : List Input) : Clock := inputs.foldl Clock.next ⟨true, 0, 0⟩

/-- Who is behind line 0. -/
def Clock.handler (c : Clock) : Handler := if c.running then .Timer_Handle else .uacpi_irq_bridge

/-- The machine shows the clock, which was started at tick `t`. -/
structure Holds (sym : Symbols) (t : BitVec 64) (m : Machine) (c : Clock) : Prop where
  gates : GateInv sym m.tables
  timer : m.tables.idt 0x20 = makeGate (stubTable sym 0x20) IST_IRQ
  vectors : ∀ v, 32 ≤ v → v < 48 → (m.tables.idt v).present = true →
    m.tables.idt v = makeGate (stubTable sym v) IST_IRQ
  line : m.tables.irq_handlers 0 = some c.handler
  lines : ∀ n, 0 < n → n < 16 → m.tables.irq_handlers n = none ∨ m.tables.irq_handlers n = some .uacpi_irq_bridge
  free : c.running = true → (m.tables.uacpi_handlers 0).installed = false
  count : m.timer_interrupt_count = BitVec.ofNat 64 c.ticks
  ticks : m.pit.ticks_since_boot = t + BitVec.ofNat 64 c.ticks
  eois : m.eois = c.served

/-! ## One input -/

theorem booted_holds (sym : Symbols) (pit : Pit.State) :
    Holds sym pit.ticks_since_boot (booted sym pit) ⟨true, 0, 0⟩ := by
  have hgate := irq_init_gate sym
  have hhandlers := irq_init_handlers sym
  refine ⟨irq_init_inv sym, ?_, ?_, ?_, ?_, ?_, rfl, ?_, rfl⟩
  · exact hgate 0x20
  · intro v hlo hhi hpresent
    change ((irq_init (idt_init sym (loaded sym))).idt v).present = true at hpresent
    change (irq_init (idt_init sym (loaded sym))).idt v = _
    rw [hgate v] at hpresent ⊢
    split
    · rfl
    case isFalse hv =>
      have hearly : ¬ Early v := by
        unfold Early
        omega
      rw [if_neg hv, if_neg hearly] at hpresent
      simp at hpresent
  · exact hhandlers 0 (by decide)
  · intro n hpos hn
    left
    have hline := hhandlers n (by omega)
    rw [if_neg (by omega)] at hline
    exact hline
  · intro _
    change ((irq_init (idt_init sym (loaded sym))).uacpi_handlers 0).installed = false
    rw [irq_init, register_entry_eq, idt_init_spec]
    rfl
  · simp [booted]

theorem act_quiet (m : Machine) (s : Interrupts.State) (n : Nat)
    (h : s.irq_handlers n = none ∨ s.irq_handlers n = some .uacpi_irq_bridge) :
    (irq_handler s n).foldl act m = { m with eois := m.eois + 1 } := by
  unfold irq_handler
  rcases h with h | h
  · rw [h]
    rfl
  · rw [h]
    unfold Handler.body Interrupts.uacpi_irq_bridge
    dsimp only
    split
    · rfl
    · split
      · rfl
      · split <;> rfl

theorem act_timer (m : Machine) (s : Interrupts.State) (n : Nat) (h : s.irq_handlers n = some .Timer_Handle) :
    (irq_handler s n).foldl act m = { Timer_Handle m with eois := m.eois + 1 } := by
  unfold irq_handler
  rw [h]
  rfl

theorem interrupt_holds {sym : Symbols} {t : BitVec 64} {m : Machine} {c : Clock} (h : Holds sym t m c) (v : Nat)
    (hv : Allowed m (.interrupt v)) :
    ∃ m', step sym m (.interrupt v) = some m' ∧ Holds sym t m' (c.next (.interrupt v)) := by
  obtain ⟨hlo, hhi, hpresent⟩ := hv
  have hdeliver := deliver_irq sym m.tables v IST_IRQ hlo hhi (h.vectors v hlo hhi hpresent)
  refine ⟨(irq_handler m.tables (v - 32)).foldl act m, ?_, ?_⟩
  · rw [step, hdeliver]
    rfl
  · by_cases htick : v = 0x20 ∧ c.running = true
    · obtain ⟨rfl, hrunning⟩ := htick
      have hline := h.line
      rw [Clock.handler, if_pos hrunning] at hline
      have hact := act_timer m m.tables 0 hline
      rw [show 0x20 - 32 = 0 from rfl, hact, Clock.next, if_pos ⟨rfl, hrunning⟩]
      refine ⟨h.gates, h.timer, h.vectors, h.line, h.lines, h.free, ?_, ?_, ?_⟩
      · change m.timer_interrupt_count + 1 = _
        rw [h.count, BitVec.ofNat_add]
        rfl
      · change m.pit.ticks_since_boot + 1 = _
        rw [h.ticks, BitVec.ofNat_add, BitVec.add_assoc]
        rfl
      · exact congrArg (· + 1) h.eois
    · have hquiet : m.tables.irq_handlers (v - 32) = none ∨
          m.tables.irq_handlers (v - 32) = some .uacpi_irq_bridge := by
        rcases Nat.eq_zero_or_pos (v - 32) with hzero | hpos
        · right
          rw [hzero, h.line, Clock.handler, if_neg fun hrunning => htick ⟨by omega, hrunning⟩]
        · exact h.lines (v - 32) hpos (by omega)
      rw [act_quiet m m.tables (v - 32) hquiet, Clock.next, if_neg htick]
      exact ⟨h.gates, h.timer, h.vectors, h.line, h.lines, h.free, h.count, h.ticks, congrArg (· + 1) h.eois⟩

/-- What a call does to the handlers of the lines: only an install of uACPI changes one. -/
structure Handed (m : Machine) (c : Call) : Prop where
  other : ∀ n < 16, c.target ≠ some n → (next m.tables c).irq_handlers n = m.tables.irq_handlers n
  taken : ∀ n < 16, c.target = some n → (m.tables.uacpi_handlers n).installed = false →
    (next m.tables c).irq_handlers n = some .uacpi_irq_bridge
  again : ∀ n < 16, c.target = some n → (m.tables.uacpi_handlers n).installed = true → next m.tables c = m.tables
  free : ∀ n < 16, c.target ≠ some n → (m.tables.uacpi_handlers n).installed = false →
    ((next m.tables c).uacpi_handlers n).installed = false

theorem install_handed (m : Machine) (irq f ctx : Nat) (hirq : irq < 256) :
    Handed m (.install irq (some f) ctx true) := by
  have hspec := install_spec m.tables irq f ctx hirq
  rw [register_entry_eq] at hspec
  by_cases hinstalled : (m.tables.uacpi_handlers irq).installed = true
  · have hsame : next m.tables (.install irq (some f) ctx true) = m.tables := by rw [next, hspec, if_pos hinstalled]
    refine ⟨?_, ?_, ?_, ?_⟩
    · intro n _ _
      rw [hsame]
    · intro n _ htarget hfree
      obtain rfl : irq = n := Option.some.inj htarget
      rw [hinstalled] at hfree
      cases hfree
    · intro n _ _ _
      exact hsame
    · intro n _ _ hfree
      rw [hsame]
      exact hfree
  · rw [if_neg hinstalled] at hspec
    refine ⟨?_, ?_, ?_, ?_⟩
    · intro n _ hother
      have hne : n ≠ irq := fun heq => hother (congrArg some heq.symm)
      rw [next, hspec]
      exact Function.update_of_ne hne _ _
    · intro n _ htarget _
      obtain rfl : irq = n := Option.some.inj htarget
      rw [next, hspec]
      exact Function.update_self _ _ _
    · intro n _ htarget hagain
      obtain rfl : irq = n := Option.some.inj htarget
      exact absurd hagain hinstalled
    · intro n _ hother hfree
      have hne : n ≠ irq := fun heq => hother (congrArg some heq.symm)
      rw [next, hspec]
      change (Function.update m.tables.uacpi_handlers irq _ n).installed = false
      rw [Function.update_of_ne hne]
      exact hfree

theorem call_handed {m : Machine} {c : Call} (hc : Allowed m (.call c)) : Handed m c := by
  cases c with
  | register v handler =>
    obtain ⟨hlo, -⟩ := hc
    have htarget : ∀ n < 16, (Call.register v handler).target ≠ some n := by
      intro n hn heq
      obtain rfl : v = n := Option.some.inj heq
      omega
    refine ⟨?_, fun n hn heq => absurd heq (htarget n hn), fun n hn heq => absurd heq (htarget n hn), ?_⟩
    · intro n hn _
      exact Function.update_of_ne (by omega) _ _
    · exact fun n _ _ hfree => hfree
  | install irq handler ctx out =>
    cases htarget : (Call.install irq handler ctx out).target with
    | none =>
      have hsame := install_refused m.tables irq handler ctx out htarget
      refine ⟨?_, ?_, ?_, ?_⟩
      · intro n _ _
        rw [hsame]
      · intro n _ heq
        rw [htarget] at heq
        cases heq
      · intro n _ _ _
        exact hsame
      · intro n _ _ hfree
        rw [hsame]
        exact hfree
    | some u =>
      obtain ⟨rfl, rfl, f, rfl⟩ := install_target irq handler ctx out u htarget
      exact install_handed m u f ctx hc
  | uninstall handler irq_handle =>
    have hnone : ∀ n, (Call.uninstall handler irq_handle).target ≠ some n := fun n heq => by cases heq
    refine ⟨?_, fun n _ heq => absurd heq (hnone n), fun n _ heq => absurd heq (hnone n), ?_⟩
    · intro n _ _
      rcases uninstall_spec m.tables handler irq_handle with heq | ⟨k, -, heq⟩ <;> rw [heq]
    · intro n _ _ hfree
      rcases uninstall_spec m.tables handler irq_handle with heq | ⟨k, -, heq⟩
      · rw [heq]
        exact hfree
      · rw [heq]
        change (Function.update m.tables.uacpi_handlers k _ n).installed = false
        rcases eq_or_ne n k with rfl | hne
        · rw [Function.update_self]
        · rw [Function.update_of_ne hne]
          exact hfree

theorem call_ok {m : Machine} {c : Call} (hc : Allowed m (.call c)) : c.Ok := by
  cases c with
  | register v handler => exact Nat.lt_trans hc.2 (by decide)
  | install irq handler ctx out => exact hc
  | uninstall handler irq_handle => trivial

theorem call_holds {sym : Symbols} {t : BitVec 64} {m : Machine} {c : Clock} (h : Holds sym t m c) (call : Call)
    (hcall : Allowed m (.call call)) :
    Holds sym t { m with tables := next m.tables call } (c.next (.call call)) := by
  obtain ⟨hinv, hgates⟩ := next_gates sym m.tables call h.gates (call_ok hcall)
  have hhanded := call_handed hcall
  have hcounts : (c.next (.call call)).ticks = c.ticks ∧ (c.next (.call call)).served = c.served := by
    unfold Clock.next
    dsimp only
    split <;> exact ⟨rfl, rfl⟩
  refine ⟨hinv, ?_, ?_, ?_, ?_, ?_, ?_, ?_, ?_⟩
  · change (next m.tables call).idt 0x20 = _
    rw [hgates, h.timer, ite_self]
  · intro v hlo hhi hpresent
    change (next m.tables call).idt v = _
    change ((next m.tables call).idt v).present = true at hpresent
    rw [hgates] at hpresent ⊢
    split
    · rfl
    case isFalse hother =>
      rw [if_neg hother] at hpresent
      exact h.vectors v hlo hhi hpresent
  · change (next m.tables call).irq_handlers 0 = _
    by_cases htarget : call.target = some 0
    · rw [Clock.next, if_pos htarget]
      cases hinstalled : (m.tables.uacpi_handlers 0).installed with
      | true =>
        -- uACPI has the line, and asks for it again.
        have hstopped : c.running ≠ true := fun hrunning => by simp [h.free hrunning] at hinstalled
        rw [hhanded.again 0 (by decide) htarget hinstalled, h.line, Clock.handler, if_neg hstopped]
        rfl
      | false => rw [hhanded.taken 0 (by decide) htarget hinstalled]; rfl
    · rw [hhanded.other 0 (by decide) htarget, Clock.next, if_neg htarget]
      exact h.line
  · intro n hpos hn
    change (next m.tables call).irq_handlers n = none ∨ (next m.tables call).irq_handlers n = some .uacpi_irq_bridge
    by_cases htarget : call.target = some n
    · cases hinstalled : (m.tables.uacpi_handlers n).installed with
      | true =>
        rw [hhanded.again n hn htarget hinstalled]
        exact h.lines n hpos hn
      | false => exact Or.inr (hhanded.taken n hn htarget hinstalled)
    · rw [hhanded.other n hn htarget]
      exact h.lines n hpos hn
  · intro hrunning
    by_cases htarget : call.target = some 0
    · rw [Clock.next, if_pos htarget] at hrunning
      cases hrunning
    · rw [Clock.next, if_neg htarget] at hrunning
      exact hhanded.free 0 (by decide) htarget (h.free hrunning)
  · rw [hcounts.1]
    exact h.count
  · rw [hcounts.1]
    exact h.ticks
  · rw [hcounts.2]
    exact h.eois

/-! ## Runs -/

theorem Holds.timer_allowed {sym : Symbols} {t : BitVec 64} {m : Machine} {c : Clock} (h : Holds sym t m c) :
    Allowed m (.interrupt 0x20) := by
  refine ⟨by decide, by decide, ?_⟩
  rw [h.timer]
  exact makeGate_present _ _

theorem step_holds (sym : Symbols) (t : BitVec 64) (m : Machine) (c : Clock) (i : Input) (h : Holds sym t m c)
    (hi : Allowed m i) : Allowed m (.interrupt 0x20) ∧ ∃ m', step sym m i = some m' ∧ Holds sym t m' (c.next i) := by
  refine ⟨h.timer_allowed, ?_⟩
  cases i with
  | interrupt v => exact interrupt_holds h v hi
  | call call => exact ⟨_, rfl, call_holds h call hi⟩

theorem run_holds (sym : Symbols) (pit : Pit.State) (inputs : List Input)
    (hinputs : Along (step sym) Allowed (booted sym pit) inputs) :
    ∃ m, run (step sym) (booted sym pit) inputs = some m ∧ Holds sym pit.ticks_since_boot m (clock inputs) :=
  (run_foldl Clock.next (step_holds sym pit.ticks_since_boot) (booted sym pit) ⟨true, 0, 0⟩ inputs
    (booted_holds sym pit) hinputs).2

/-- uACPI takes line 0. -/
def Input.takes : Input → Bool
  | .call c => decide (c.target = some 0)
  | .interrupt _ => false

/-- The interrupts of the timer before uACPI takes line 0. -/
def ticks (inputs : List Input) : Nat := (inputs.takeWhile fun i => !i.takes).count (.interrupt 0x20)

def Input.isInterrupt : Input → Bool
  | .interrupt _ => true
  | .call _ => false

theorem clock_next (inputs : List Input) (c : Clock) :
    (inputs.foldl Clock.next c).ticks = c.ticks + (if c.running then ticks inputs else 0) ∧
      (inputs.foldl Clock.next c).served = c.served + inputs.countP Input.isInterrupt := by
  induction inputs generalizing c with
  | nil => simp [ticks]
  | cons i inputs ih =>
    obtain ⟨hticks, hserved⟩ := ih (c.next i)
    rw [List.foldl_cons, hticks, hserved]
    cases i with
    | interrupt v =>
      have hskip : ticks (.interrupt v :: inputs) = (if v = 0x20 then 1 else 0) + ticks inputs := by
        unfold ticks
        rw [List.takeWhile_cons_of_pos (by rfl), List.count_cons]
        by_cases hv : v = 0x20 <;> simp [hv, Nat.add_comm]
      refine ⟨?_, ?_⟩
      · rw [hskip]
        unfold Clock.next
        dsimp only
        cases c.running with
        | false => simp
        | true => by_cases hv : v = 0x20 <;> simp [hv, Nat.add_assoc]
      · rw [List.countP_cons_of_pos (by rfl)]
        unfold Clock.next
        dsimp only
        omega
    | call call =>
      rw [List.countP_cons_of_neg (by simp [Input.isInterrupt])]
      by_cases htarget : call.target = some 0
      · have hstop : ticks (.call call :: inputs) = 0 := by
          unfold ticks
          rw [List.takeWhile_cons_of_neg (by simp [Input.takes, htarget])]
          rfl
        rw [hstop, Clock.next, if_pos htarget]
        simp
      · have hskip : ticks (.call call :: inputs) = ticks inputs := by
          unfold ticks
          rw [List.takeWhile_cons_of_pos (by simp [Input.takes, htarget]), List.count_cons_of_ne (by simp)]
        rw [hskip, Clock.next, if_neg htarget]
        exact ⟨rfl, rfl⟩

theorem clock_ticks (inputs : List Input) : (clock inputs).ticks = ticks inputs := by
  rw [clock, (clock_next inputs _).1]
  simp

theorem clock_served (inputs : List Input) : (clock inputs).served = inputs.countP Input.isInterrupt := by
  rw [clock, (clock_next inputs _).2]
  simp

theorem run_ticks (sym : Symbols) (pit : Pit.State) (inputs : List Input) (m : Machine)
    (hinputs : Along (step sym) Allowed (booted sym pit) inputs) (hm : run (step sym) (booted sym pit) inputs = some m) :
    m.pit.ticks_since_boot = pit.ticks_since_boot + BitVec.ofNat 64 (ticks inputs) := by
  obtain ⟨m', hm', hholds⟩ := run_holds sym pit inputs hinputs
  obtain rfl : m' = m := Option.some.inj (hm'.symm.trans hm)
  rw [hholds.ticks, clock_ticks]

/-- In every run both counters show the interrupts of the timer up to the moment where uACPI takes
line 0, whatever drivers register and whatever else comes in. Every interrupt is acknowledged
once, and the timer can interrupt at any time. -/
theorem run_clock (sym : Symbols) (pit : Pit.State) (inputs : List Input)
    (hinputs : Along (step sym) Allowed (booted sym pit) inputs) :
    ∃ m, run (step sym) (booted sym pit) inputs = some m ∧
      m.pit.ticks_since_boot = pit.ticks_since_boot + BitVec.ofNat 64 (ticks inputs) ∧
      m.timer_interrupt_count = BitVec.ofNat 64 (ticks inputs) ∧
      m.eois = inputs.countP Input.isInterrupt ∧ Allowed m (.interrupt 0x20) := by
  obtain ⟨m, hm, hholds⟩ := run_holds sym pit inputs hinputs
  refine ⟨m, hm, ?_, ?_, ?_, hholds.timer_allowed⟩
  · rw [hholds.ticks, clock_ticks]
  · rw [hholds.count, clock_ticks]
  · rw [hholds.eois, clock_served]

theorem along_timer {sym : Symbols} {t : BitVec 64} (inputs : List Input) (m : Machine) (c : Clock)
    (h : Holds sym t m c)
    (hinputs : ∀ i ∈ inputs, i = .interrupt 0x20 ∨ ∃ call, i = .call call ∧ ∀ m, Allowed m (.call call)) :
    Along (step sym) Allowed m inputs := by
  induction inputs generalizing m c with
  | nil => trivial
  | cons i inputs ih =>
    have hi : Allowed m i := by
      rcases hinputs i (by simp) with rfl | ⟨call, rfl, hcall⟩
      · exact h.timer_allowed
      · exact hcall m
    obtain ⟨-, m', hm', hholds⟩ := step_holds sym t m c i h hi
    exact along_cons m m' i inputs hi hm' (ih m' (c.next i) hholds fun j hj => hinputs j (List.mem_cons_of_mem i hj))

/-- Two ticks, and uACPI takes the line. -/
theorem run_clock_taken :
    ∃ m, run (step linked) (booted linked (quiet 5).pit)
        [.interrupt 0x20, .call (.register 0x21 none), .interrupt 0x20, .call (.install 0 (some 7) 0 true),
          .interrupt 0x20] = some m ∧
      m.pit.ticks_since_boot = 5 + BitVec.ofNat 64 2 ∧ m.timer_interrupt_count = BitVec.ofNat 64 2 ∧ m.eois = 3 ∧
      Allowed m (.interrupt 0x20) := by
  refine run_clock linked (quiet 5).pit [.interrupt 0x20, .call (.register 0x21 none), .interrupt 0x20,
    .call (.install 0 (some 7) 0 true), .interrupt 0x20] ?_
  refine along_timer _ _ _ (booted_holds linked (quiet 5).pit) ?_
  simp [Allowed]

/-! ## Sleeps -/

/-- The inputs before the reading `k` of the count. -/
def before (bursts : Nat → List Input) (k : Nat) : List Input := (List.range k).flatMap bursts

/-- The count that the sleep reads is the one of the machine, which gets a burst of inputs before
each reading. -/
structure Follows (sym : Symbols) (s : State) (bursts : Nat → List Input) : Prop where
  allowed : ∀ k, Along (step sym) Allowed (booted sym s.pit) (before bursts k)
  count : ∀ k m, run (step sym) (booted sym s.pit) (before bursts k) = some m →
    (Pit.arrive^[k] s.pit).ticks_since_boot = m.pit.ticks_since_boot

theorem Follows.reading {sym : Symbols} {s : State} {bursts : Nat → List Input} (h : Follows sym s bursts) (k : Nat) :
    (Pit.arrive^[k] s.pit).ticks_since_boot = s.pit.ticks_since_boot + BitVec.ofNat 64 (ticks (before bursts k)) := by
  obtain ⟨m, hm, -⟩ := run_holds sym s.pit (before bursts k) (h.allowed k)
  rw [h.count k m hm, run_ticks sym s.pit (before bursts k) m (h.allowed k) hm]

theorem ticks_append (xs ys : List Input) : ticks xs ≤ ticks (xs ++ ys) ∧ ticks (xs ++ ys) ≤ ticks xs + ys.length := by
  unfold ticks
  rw [List.takeWhile_append]
  split
  case isTrue hall =>
    rw [(List.takeWhile_prefix _).eq_of_length hall, List.count_append]
    have hcount := List.count_le_length (a := Input.interrupt 0x20) (l := ys.takeWhile fun i => !i.takes)
    have htake := (List.takeWhile_prefix (l := ys) fun i => !i.takes).length_le
    omega
  case isFalse => exact ⟨Nat.le_refl _, Nat.le_add_right _ _⟩

theorem before_succ (bursts : Nat → List Input) (k : Nat) : before bursts (k + 1) = before bursts k ++ bursts k := by
  unfold before
  rw [List.range_succ, List.flatMap_append, List.flatMap_cons, List.flatMap_nil, List.append_nil]

/-- A burst before the first reading that is late enough brings the count there, and not beyond
the end of a `u64`. -/
theorem first_reading (bursts : Nat → List Input) (t n : Nat) (hroom : ∀ k, t + n + (bursts k).length < 2 ^ 64)
    (k : Nat) (hk : n ≤ ticks (before bursts k)) :
    ∃ j, n ≤ ticks (before bursts (j + 1)) ∧ t + ticks (before bursts (j + 1)) < 2 ^ 64 := by
  induction k with
  | zero =>
    have hzero : n = 0 := Nat.le_zero.mp hk
    have hburst := (ticks_append (before bursts 0) (bursts 0)).2
    have hempty : ticks (before bursts 0) = 0 := rfl
    have := hroom 0
    rw [← before_succ] at hburst
    exact ⟨0, by omega, by omega⟩
  | succ k ih =>
    rcases Nat.lt_or_ge (ticks (before bursts k)) n with hlt | hge
    · have hburst := (ticks_append (before bursts k) (bursts k)).2
      have := hroom k
      rw [← before_succ] at hburst
      exact ⟨k, hk, by omega⟩
    · exact ih hge

/-- A sleep returns exactly when enough interrupts of the timer come before uACPI takes line 0. -/
theorem sleep_ms_returns_iff (sym : Symbols) (s : State) (n : BitVec 64) (bursts : Nat → List Input) (hs : Ready s)
    (hfollows : Follows sym s bursts) (hn : n.toNat ≤ 4294967)
    (hroom : ∀ k, s.pit.ticks_since_boot.toNat + n.toNat + (bursts k).length < 2 ^ 64) :
    (∃ r, (sleep_ms n s).Ends r) ↔ ∃ k, n.toNat ≤ ticks (before bursts k) := by
  have hfit : s.pit.ticks_since_boot.toNat + n.toNat < 2 ^ 64 := by
    have := hroom 0
    omega
  have htarget := ms_target n s.pit.ticks_since_boot hfit hn
  have hwaits := sleep_ms_waitsFor n s.pit.ticks_since_boot
  have hreading : ∀ k, (Pit.arrive^[k] s.pit).ticks_since_boot.toNat =
      (s.pit.ticks_since_boot.toNat + ticks (before bursts k)) % 2 ^ 64 := by
    intro k
    rw [hfollows.reading k, BitVec.toNat_add, BitVec.toNat_ofNat, Nat.add_mod_mod]
  constructor
  · rintro ⟨r, hr⟩
    obtain ⟨p, hp, -⟩ := (hwaits s r hs rfl).mp hr
    obtain ⟨j, rfl, hend, -⟩ := (Pit.wait_loop_iff _ _ p).mp hp
    rw [htarget, ← Function.iterate_succ_apply, hreading, Nat.succ_eq_add_one] at hend
    refine ⟨j + 1, ?_⟩
    by_contra hfew
    rw [Nat.mod_eq_of_lt (by omega)] at hend
    omega
  · rintro ⟨k, hk⟩
    obtain ⟨j, hj, hbound⟩ := first_reading bursts s.pit.ticks_since_boot.toNat n.toNat hroom k hk
    refine hwaits.returns s hs rfl j ?_
    rw [htarget, hreading, Nat.mod_eq_of_lt hbound]
    omega

/-- No tick ever comes. -/
def stopped : State := { quiet 7 with pit := { (quiet 7).pit with interrupts := fun _ => 0 } }

/-- uACPI takes line 0, and then the timer interrupts. -/
def taken_first : List Input := [.call (.install 0 (some 7) 0 true), .interrupt 0x20]

theorem taken_ticks (k : Nat) : ticks (before (fun _ => taken_first) k) = 0 := by
  cases k with
  | zero => rfl
  | succ k =>
    unfold before ticks
    rw [List.range_succ_eq_map]
    rfl

theorem stopped_follows : Follows linked stopped fun _ => taken_first := by
  have hallowed : ∀ k, Along (step linked) Allowed (booted linked stopped.pit) (before (fun _ => taken_first) k) := by
    intro k
    refine along_timer _ _ _ (booted_holds linked stopped.pit) ?_
    intro i hi
    obtain ⟨-, -, hi⟩ := List.mem_flatMap.mp hi
    simp only [taken_first, List.mem_cons, List.not_mem_nil, or_false] at hi
    rcases hi with rfl | rfl
    · exact Or.inr ⟨_, rfl, fun m => by simp [Allowed]⟩
    · exact Or.inl rfl
  refine ⟨hallowed, ?_⟩
  intro k m hm
  rw [run_ticks linked stopped.pit _ m (hallowed k) hm, taken_ticks]
  clear hm
  have hstays : ∀ k, Pit.arrive^[k] stopped.pit = { stopped.pit with readings := k } := by
    intro k
    induction k with
    | zero => rfl
    | succ k ih => rw [Function.iterate_succ_apply', ih]; rfl
  rw [hstays]
  rfl

/-- The clock stands still, and a sleep of one millisecond does not return. -/
theorem sleep_ms_returns_iff_stopped : ¬ ∃ r, (sleep_ms 1 stopped).Ends r := by
  rw [sleep_ms_returns_iff linked stopped 1 (fun _ => taken_first) ⟨rfl, rfl⟩ stopped_follows (by decide)
    (by intro k; decide)]
  rintro ⟨k, hk⟩
  rw [taken_ticks] at hk
  revert hk
  decide

end SlayerOS.Timer
