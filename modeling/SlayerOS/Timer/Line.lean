import SlayerOS.Ioapic.Madt
import SlayerOS.Ioapic.Routes
import SlayerOS.Timer.Clock

/-!
# From an interrupt line to its handler

A device raises a line, an IOAPIC turns it into a vector for a core, and the core goes through the
gate of the vector to a handler. `IRQ::init` routes the line of the timer, and nobody else calls
`IOAPIC::set`.
-/

open SlayerOS.Run SlayerOS.Interrupts SlayerOS.Ioapic

namespace SlayerOS.Line

/-! ## The system -/

/-- `LAPIC::id`, from the register 0x20. -/
def lapic_id (register : BitVec 32) : BitVec 32 := register >>> 24

/-- The core with its tables and its clock, and the IOAPICs in front of it. -/
structure Machine where
  cpu : Timer.Machine
  apics : Ioapic.State
  devices : Devices

inductive Input where
  /-- A device raises a line, given by its interrupt. -/
  | raise (gsi : BitVec 32)
  | call (c : Interrupts.Call)
  | set (c : Ioapic.Call)
deriving DecidableEq, Repr

instance (d : Devices) (apic : acpi_madt_ioapic) (gsi : BitVec 32) : Decidable (Contains d apic gsi) :=
  inferInstanceAs (Decidable (_ ∧ _))

/-- The vector that the core `me` gets from an entry. Fixed delivery to one core is the only mode
that brings it there, and a masked entry brings nothing. -/
def accepted (me : BitVec 8) (fields : Redirection) : Option Nat :=
  if fields.mask = 0 ∧ fields.delivery_mode = 0 ∧ fields.dest_mode = 0 ∧ fields.dest = me then
    some fields.vector.toNat
  else none

/-- The vector behind a line, where some IOAPIC has it. -/
def vector (me : BitVec 8) (m : Machine) (gsi : BitVec 32) : Option Nat :=
  ((List.range m.apics.apic_ent.toNat).find? fun i => Contains m.devices (m.apics.apics i) gsi).bind fun i =>
    accepted me (read_back (m.apics.apics i).base (redirection_register (m.apics.apics i) gsi) m.devices)

def step (sym : Symbols) (me : BitVec 8) (m : Machine) : Input → Option Machine
  | .raise gsi =>
    match vector me m gsi with
    | none => some m
    | some v => (Timer.step sym m.cpu (.interrupt v)).map fun cpu => { m with cpu }
  | .call c => (Timer.step sym m.cpu (.call c)).map fun cpu => { m with cpu }
  | .set c => some { m with devices := Ioapic.set m.apics c.vec c.irq c.flags c.lapic m.devices }

/-- The call at the end of `IRQ::init`. -/
def timerCall (register : BitVec 32) : Ioapic.Call := ⟨0x20, 0, 0, (lapic_id register).setWidth 64⟩

/-- Behind `IRQ::init`. -/
def booted (sym : Symbols) (pit : Pit.State) (register : BitVec 32) (s : Ioapic.State) (d : Devices) : Machine :=
  let c := timerCall register
  ⟨Timer.booted sym pit, s, Ioapic.set s c.vec c.irq c.flags c.lapic d⟩

/-- A line leads to a vector that is set up, or to none. A route goes to an entry of its own. -/
def Allowed (me : BitVec 8) (m : Machine) : Input → Prop
  | .raise gsi => ∀ v, vector me m gsi = some v → Timer.Allowed m.cpu (.interrupt v)
  | .call c => Timer.Allowed m.cpu (.call c)
  | .set c => Lands m.apics m.devices c.irq ∧ c.Fits

/-! ## The abstract board -/

/-- The routes, by the calls that made them, and the clock. -/
structure Board where
  calls : List Ioapic.Call
  clock : Timer.Clock

/-- A route that is open, to the core `me`. -/
def Open (me : BitVec 8) (c : Ioapic.Call) : Prop :=
  c.flags.extractLsb' 16 1 = 0 ∧ c.flags.extractLsb' 8 3 = 0 ∧ c.flags.extractLsb' 11 1 = 0 ∧
    c.lapic.toNat = me.toNat

instance (me : BitVec 8) (c : Ioapic.Call) : Decidable (Open me c) := inferInstanceAs (Decidable (_ ∧ _))

/-- Where a line leads: to the vector of the last call for it. -/
def Board.vector (s : Ioapic.State) (me : BitVec 8) (b : Board) (gsi : BitVec 32) : Option Nat :=
  (latest s b.calls gsi).bind fun c => if Open me c then some c.vec.toNat else none

def Board.next (s : Ioapic.State) (me : BitVec 8) (b : Board) : Input → Board
  | .raise gsi =>
    match b.vector s me gsi with
    | none => b
    | some v => { b with clock := b.clock.next (.interrupt v) }
  | .call c => { b with clock := b.clock.next (.call c) }
  | .set c => { b with calls := b.calls ++ [c] }

/-- All entries are masked, as they are after a reset. -/
def Masked (s : Ioapic.State) (d : Devices) : Prop :=
  ∀ i < s.apic_ent.toNat, ∀ gsi, Contains d (s.apics i) gsi →
    (read_back (s.apics i).base (redirection_register (s.apics i) gsi) d).mask = 1

/-- The machine shows the board. Before the first route the IOAPICs were as in `d`. -/
structure Shows (sym : Symbols) (s : Ioapic.State) (d : Devices) (t : BitVec 64) (m : Machine) (b : Board) :
    Prop where
  cpu : Timer.Holds sym t m.cpu b.clock
  apics : m.apics = s
  devices : m.devices = setAll s b.calls d
  lands : ∀ c ∈ b.calls, Lands s d c.irq
  fits : ∀ c ∈ b.calls, c.Fits

/-! ## The entry of a line -/

theorem accepted_says {me : BitVec 8} {override : Option acpi_madt_interrupt_source_override} {c : Ioapic.Call}
    {fields : Redirection} (h : Says override c.vec c.flags c.lapic fields) :
    accepted me fields = if Open me c then some c.vec.toNat else none := by
  have hfield : ∀ (n : Nat) (x : BitVec n), n ≤ 8 → (x.setWidth 8 = 0 ↔ x = 0) := by
    intro n x hn
    constructor
    · intro hx
      apply BitVec.eq_of_toNat_eq
      have hnat := congrArg BitVec.toNat hx
      rw [BitVec.toNat_setWidth_of_le hn] at hnat
      simpa using hnat
    · rintro rfl
      simp
  have hdest : fields.dest = me ↔ c.lapic.toNat = me.toNat := by
    rw [← h.dest]
    exact ⟨fun heq => by rw [heq], BitVec.eq_of_toNat_eq⟩
  have hopen : (fields.mask = 0 ∧ fields.delivery_mode = 0 ∧ fields.dest_mode = 0 ∧ fields.dest = me) ↔ Open me c := by
    rw [h.mask, h.delivery_mode, h.dest_mode, hfield _ _ (by decide), hfield _ _ (by decide),
      hfield _ _ (by decide), hdest, Open]
  rw [accepted, h.vector]
  exact if_congr hopen rfl rfl

theorem accepted_masked {me : BitVec 8} {fields : Redirection} (h : fields.mask = 1) : accepted me fields = none := by
  refine if_neg ?_
  rintro ⟨hmask, -⟩
  rw [h] at hmask
  cases hmask

section

variable {sym : Symbols} {s : Ioapic.State} {d : Devices} {t : BitVec 64}

theorem setAll_version (hdisjoint : Disjoint s d) (hapart : Apart s) (calls : List Ioapic.Call)
    (hlands : ∀ c ∈ calls, Lands s d c.irq) (base : BitVec 64) :
    (setAll s calls d).register base 1 = d.register base 1 :=
  (setAll_registers calls hdisjoint hapart hlands).2 base 1 (version_outside s d base)

theorem Shows.vector {m : Machine} {b : Board} (hdisjoint : Disjoint s d) (hapart : Apart s) (hmasked : Masked s d)
    (h : Shows sym s d t m b) (me : BitVec 8) (gsi : BitVec 32) : Line.vector me m gsi = b.vector s me gsi := by
  have hcontains := contains_congr (setAll_version hdisjoint hapart b.calls h.lands)
  have hentries := (setAll_registers b.calls hdisjoint hapart h.lands).1
  unfold Line.vector Board.vector
  simp only [h.apics, h.devices, hcontains]
  cases hfind : (List.range s.apic_ent.toNat).find? fun i => Contains d (s.apics i) gsi with
  | some i =>
    have hi := List.mem_range.mp (List.mem_of_find?_eq_some hfind)
    have hin : Contains d (s.apics i) gsi := by simpa using List.find?_some hfind
    have hentry := hentries i hi gsi hin
    rw [Option.bind_some]
    cases hlatest : latest s b.calls gsi with
    | some c =>
      have hmem := (List.mem_filter.mp (List.mem_of_getLast? hlatest)).1
      obtain ⟨hlapic, hflags⟩ := h.fits c hmem
      rw [hlatest] at hentry
      obtain ⟨hlow, hhigh⟩ := Prod.mk.inj hentry
      rw [read_back_eq, hlow, hhigh, Option.bind_some]
      exact accepted_says (decode_c_flags (s.override c.irq) c.vec c.flags c.lapic hlapic hflags)
    | none =>
      rw [hlatest] at hentry
      obtain ⟨hlow, hhigh⟩ := Prod.mk.inj hentry
      rw [read_back_eq, hlow, hhigh, ← read_back_eq]
      exact accepted_masked (hmasked i hi gsi hin)
  | none =>
    cases hlatest : latest s b.calls gsi with
    | none => rfl
    | some c =>
      -- A route goes to an entry, and no IOAPIC has one for this line.
      obtain ⟨hmem, hgsi⟩ := List.mem_filter.mp (List.mem_of_getLast? hlatest)
      obtain ⟨i, hi, hin, -⟩ := h.lands c hmem
      rw [of_decide_eq_true hgsi] at hin
      have := List.find?_eq_none.mp hfind i (List.mem_range.mpr hi)
      simp [hin] at this

/-! ## One input -/

theorem Shows.interrupt {m : Machine} {b : Board} (h : Shows sym s d t m b) (v : Nat)
    (hv : Timer.Allowed m.cpu (.interrupt v)) :
    ∃ m', (Timer.step sym m.cpu (.interrupt v)).map (fun cpu => { m with cpu }) = some m' ∧
      Shows sym s d t m' { b with clock := b.clock.next (.interrupt v) } := by
  obtain ⟨cpu, hcpu, hholds⟩ := Timer.interrupt_holds h.cpu v hv
  exact ⟨{ m with cpu }, by rw [hcpu, Option.map_some], hholds, h.apics, h.devices, h.lands, h.fits⟩

theorem Shows.step (hdisjoint : Disjoint s d) (hapart : Apart s) (hmasked : Masked s d) (me : BitVec 8) (m : Machine)
    (b : Board) (i : Input) (h : Shows sym s d t m b) (hi : Allowed me m i) :
    ∃ m', step sym me m i = some m' ∧ Shows sym s d t m' (b.next s me i) := by
  cases i with
  | raise gsi =>
    have hvector := h.vector hdisjoint hapart hmasked me gsi
    rw [Line.step, Board.next]
    cases hv : b.vector s me gsi with
    | none =>
      rw [hvector, hv]
      exact ⟨m, rfl, h⟩
    | some v =>
      rw [hvector, hv]
      exact h.interrupt v (hi v (hvector.trans hv))
  | call c => exact ⟨_, rfl, Timer.call_holds h.cpu c hi, h.apics, h.devices, h.lands, h.fits⟩
  | set c =>
    obtain ⟨hlands, hfits⟩ := hi
    have hversion := setAll_version hdisjoint hapart b.calls h.lands
    rw [h.apics, h.devices, lands_congr hversion] at hlands
    refine ⟨_, rfl, h.cpu, h.apics, ?_, ?_, ?_⟩
    · change Ioapic.set m.apics c.vec c.irq c.flags c.lapic m.devices = setAll s (b.calls ++ [c]) d
      rw [h.apics, h.devices, setAll, setAll, List.foldl_append]
      rfl
    · intro e he
      rcases List.mem_append.mp he with he | he
      · exact h.lands e he
      · exact List.mem_singleton.mp he ▸ hlands
    · intro e he
      rcases List.mem_append.mp he with he | he
      · exact h.fits e he
      · exact List.mem_singleton.mp he ▸ hfits

end

/-! ## Runs -/

/-- The core that the kernel runs on. -/
def self (register : BitVec 32) : BitVec 8 := (lapic_id register).setWidth 8

theorem self_toNat (register : BitVec 32) : (timerCall register).lapic.toNat = (self register).toNat := by
  have hlt : (register >>> 24).toNat < 256 := by
    rw [BitVec.toNat_ushiftRight, Nat.shiftRight_eq_div_pow]
    have := register.isLt
    omega
  unfold timerCall self lapic_id
  simp only [BitVec.toNat_setWidth]
  omega

theorem timerCall_open (register : BitVec 32) : Open (self register) (timerCall register) :=
  ⟨by simp [timerCall], by simp [timerCall], by simp [timerCall], self_toNat register⟩

theorem timerCall_fits (register : BitVec 32) : (timerCall register).Fits := by
  refine ⟨?_, by simp [timerCall]⟩
  have := (self register).isLt
  rw [self_toNat]
  omega

theorem booted_shows (sym : Symbols) (pit : Pit.State) (register : BitVec 32) (s : Ioapic.State) (d : Devices)
    (hlands : Lands s d 0) :
    Shows sym s d pit.ticks_since_boot (booted sym pit register s d) ⟨[timerCall register], ⟨true, 0, 0⟩⟩ :=
  ⟨Timer.booted_holds sym pit, rfl, rfl, fun _ hc => List.mem_singleton.mp hc ▸ hlands,
    fun _ hc => List.mem_singleton.mp hc ▸ timerCall_fits register⟩

/-- In every run behind `IRQ::init`, each line brings the core the vector of the last route for it, if
that is open and leads here, and none otherwise. The clock shows the handlers that ran behind the
lines that were raised. -/
theorem run_routes (sym : Symbols) (pit : Pit.State) (register : BitVec 32) (s : Ioapic.State) (d : Devices)
    (inputs : List Input) (hdisjoint : Disjoint s d) (hapart : Apart s) (hmasked : Masked s d)
    (hlands : Lands s d 0)
    (hinputs : Along (step sym (self register)) (Allowed (self register)) (booted sym pit register s d) inputs) :
    ∃ m, run (step sym (self register)) (booted sym pit register s d) inputs = some m ∧
      let b := inputs.foldl (Board.next s (self register)) ⟨[timerCall register], ⟨true, 0, 0⟩⟩
      (∀ gsi, vector (self register) m gsi = b.vector s (self register) gsi) ∧
      Shows sym s d pit.ticks_since_boot m b := by
  obtain ⟨-, m, hm, hshows⟩ := run_foldl (Q := fun _ _ => True) (Board.next s (self register))
    (fun m b i h hi => ⟨trivial, h.step hdisjoint hapart hmasked _ m b i hi⟩) _ _ inputs
    (booted_shows sym pit register s d hlands) hinputs
  exact ⟨m, hm, hshows.vector hdisjoint hapart hmasked (self register), hshows⟩

/-- The timer at 1000 Hz, before its first tick. -/
def freshPit : Pit.State := ⟨0, 1000, [], [], fun _ => 0, 0⟩

/-- A driver takes the keyboard, which is on line 1. -/
def keyboard : List Input := [.set ⟨0x21, 1, 0, 0⟩, .call (.register 0x21 (some (.other 0))), .raise 1]

theorem two_masked : Masked two_ioapics two_devices := by
  intro i _ gsi _
  rw [read_back_eq]
  change (decode 0x170020 0x170020).mask = 1
  decide

theorem run_routes_keyboard :
    ∃ m b, run (step linked (self 0)) (booted linked freshPit 0 two_ioapics two_devices) keyboard = some m ∧
      vector (self 0) m 1 = some 0x21 ∧ Shows linked two_ioapics two_devices 0 m b ∧ b.clock = ⟨true, 0, 1⟩ := by
  have hboot : ∀ c ∈ [timerCall 0], Lands two_ioapics two_devices c.irq :=
    fun c hc => List.mem_singleton.mp hc ▸ two_lands 0 (Or.inl rfl)
  have hkeyboard : Lands two_ioapics (setAll two_ioapics [timerCall 0] two_devices) 1 :=
    (lands_congr (setAll_version two_disjoint two_apart [timerCall 0] hboot) _ _).mpr (two_lands 1 (Or.inr rfl))
  refine Exists.imp (fun m hm => ⟨_, hm.1, (hm.2.1 1).trans (by decide +kernel), hm.2.2, by decide +kernel⟩)
    (run_routes linked freshPit 0 two_ioapics two_devices keyboard two_disjoint two_apart two_masked
      (two_lands 0 (Or.inl rfl)) ?_)
  refine along_cons _ _ _ _ ⟨hkeyboard, by unfold Ioapic.Call.Fits; decide⟩ rfl
    (along_cons _ _ _ _ ⟨by decide, by decide⟩ rfl ⟨?_, fun _ _ => trivial⟩)
  intro v hv
  obtain rfl : v = 0x21 := Option.some.inj (hv.symm.trans (by decide +kernel))
  exact ⟨by decide, by decide, rfl⟩

/-! ## The kernel as it is -/

/-- What drivers and uACPI do: they raise lines and register handlers, and make no routes. -/
def Plain : Input → Prop
  | .raise _ => True
  | .call (.register v _) => 32 ≤ v ∧ v < 48
  | .call (.install irq _ _ _) => irq < 256
  | .call (.uninstall _ _) => True
  | .set _ => False

/-- What the clock sees of an input, where `gsi` is the line of the timer. -/
def Input.clock (gsi : BitVec 32) : Input → Option Timer.Input
  | .raise line => if line = gsi then some (.interrupt 0x20) else none
  | .call c => some (.call c)
  | .set _ => none

/-- The line of the PIT: what the first override of the table for line 0 says, or line 0. -/
def timerLine (m : Bytes.Mem) (places : List Nat) : BitVec 32 :=
  ((overrides m places).find? fun c => c.source = 0).elim 0 fun c => c.gsi

/-- Only the line of the timer does something. -/
def Quiet (sym : Symbols) (me : BitVec 8) (gsi : BitVec 32) (m : Machine) (i : Input) : Prop :=
  ∀ line, i = .raise line → line ≠ gsi → step sym me m i = some m

section

variable {sym : Symbols} {s : Ioapic.State} {d : Devices} {t : BitVec 64}

theorem timer_vector (register : BitVec 32) (clock : Timer.Clock) (line : BitVec 32) :
    (Board.mk [timerCall register] clock).vector s (self register) line =
      if line = s.gsi 0 then some 0x20 else none := by
  have hlatest : Ioapic.latest s [timerCall register] line =
      if s.gsi 0 = line then some (timerCall register) else none := by
    rw [Ioapic.latest, List.filter_singleton, show (timerCall register).irq = 0 from rfl]
    by_cases hline : s.gsi 0 = line
    · rw [decide_eq_true hline, if_pos hline]
      rfl
    · rw [decide_eq_false hline, if_neg hline]
      rfl
  rw [Board.vector, hlatest]
  by_cases hline : line = s.gsi 0
  · rw [if_pos hline.symm, if_pos hline, Option.bind_some, if_pos (timerCall_open register)]
    rfl
  · rw [if_neg fun heq => hline heq.symm, if_neg hline]
    rfl

theorem Shows.plain (hdisjoint : Disjoint s d) (hapart : Apart s) (hmasked : Masked s d) (register : BitVec 32)
    (m : Machine) (clock : Timer.Clock) (i : Input) (h : Shows sym s d t m ⟨[timerCall register], clock⟩)
    (hi : Plain i) :
    Quiet sym (self register) (s.gsi 0) m i ∧
      ∃ m', Line.step sym (self register) m i = some m' ∧
        Shows sym s d t m' ⟨[timerCall register], (i.clock (s.gsi 0)).elim clock clock.next⟩ := by
  have hvector := h.vector hdisjoint hapart hmasked (self register)
  refine ⟨?_, ?_⟩
  · rintro line rfl hne
    rw [Line.step, hvector, timer_vector, if_neg hne]
  · cases i with
    | set c => exact hi.elim
    | call c =>
      have hcall : Timer.Allowed m.cpu (.call c) := by cases c <;> exact hi
      exact h.step hdisjoint hapart hmasked _ m _ (.call c) hcall
    | raise line =>
      have hallowed : Allowed (self register) m (.raise line) := by
        intro v hv
        rw [hvector, timer_vector] at hv
        split at hv
        · obtain rfl := Option.some.inj hv
          exact h.cpu.timer_allowed
        · cases hv
      obtain ⟨m', hstep, hm'⟩ := h.step hdisjoint hapart hmasked _ m _ (.raise line) hallowed
      refine ⟨m', hstep, ?_⟩
      rw [Board.next, timer_vector] at hm'
      by_cases hline : line = s.gsi 0
      · rw [if_pos hline] at hm'
        rw [Input.clock, if_pos hline]
        exact hm'
      · rw [if_neg hline] at hm'
        rw [Input.clock, if_neg hline]
        exact hm'

end

theorem foldl_elim (gsi : BitVec 32) (inputs : List Input) (clock : Timer.Clock) :
    inputs.foldl (fun clock i => (i.clock gsi).elim clock clock.next) clock =
      (inputs.filterMap (Input.clock gsi)).foldl Timer.Clock.next clock := by
  induction inputs generalizing clock with
  | nil => rfl
  | cons i inputs ih =>
    rw [List.foldl_cons, ih, List.filterMap_cons]
    cases i.clock gsi <;> rfl

theorem gsi_of_table {apic : acpi_madt} {places : List Nat} (h : Entries apic.entries apic.size 0 places)
    (hfits : (overrides apic.entries places).length ≤ capacity) {s : Ioapic.State} {d d' : Devices} {w : Walk}
    (hinit : (init (some apic) s d).Ends (w, d')) : w.state.gsi 0 = timerLine apic.entries places := by
  obtain ⟨w', hw, hends⟩ := init_ends apic places h s d
  obtain ⟨rfl, -⟩ := Prod.mk.inj ((hends _).mp hinit)
  have hoverrides : w.state.overrides = overrides apic.entries places := (hw.iso.exact_iff.mpr hfits).2
  rw [State.gsi, State.override, hoverrides, timerLine]
  cases (overrides apic.entries places).find? fun c => c.source = 0 <;> rfl

theorem countP_clock (gsi : BitVec 32) (inputs : List Input) :
    (inputs.filterMap (Input.clock gsi)).countP Timer.Input.isInterrupt = inputs.count (.raise gsi) := by
  induction inputs with
  | nil => rfl
  | cons i inputs ih =>
    rw [List.filterMap_cons, List.count_cons]
    cases i with
    | raise line =>
      by_cases hline : line = gsi
      · rw [Input.clock, if_pos hline, List.countP_cons_of_pos (by rfl), ih, hline]
        simp
      · rw [Input.clock, if_neg hline, ih]
        simp [hline]
    | call c =>
      rw [Input.clock, List.countP_cons_of_neg (by simp [Timer.Input.isInterrupt]), ih]
      simp
    | set c => simp [Input.clock, ih]

/-- From the table of the firmware to the ticks. Whatever lines the devices raise, and whatever
handlers drivers and uACPI register behind `IRQ::init`: the line that the table gives to the PIT
counts a tick each time until uACPI takes it over, and each time it is acknowledged. A line that is
any other does nothing at all. -/
theorem run_timer_line (sym : Symbols) (pit : Pit.State) (register : BitVec 32) (apic : acpi_madt)
    (places : List Nat) (s : Ioapic.State) (d d' : Devices) (w : Walk) (inputs : List Input)
    (hentries : Entries apic.entries apic.size 0 places)
    (hfits : (overrides apic.entries places).length ≤ capacity) (hinit : (init (some apic) s d).Ends (w, d'))
    (hdisjoint : Disjoint w.state d') (hapart : Apart w.state) (hmasked : Masked w.state d')
    (hlands : Lands w.state d' 0) (hinputs : ∀ i ∈ inputs, Plain i) :
    let line := timerLine apic.entries places
    let start := booted sym pit register w.state d'
    Along (step sym (self register)) (Quiet sym (self register) line) start inputs ∧
    ∃ m, run (step sym (self register)) start inputs = some m ∧
      m.cpu.pit.ticks_since_boot =
        pit.ticks_since_boot + BitVec.ofNat 64 (Timer.ticks (inputs.filterMap (Input.clock line))) ∧
      m.cpu.eois = inputs.count (.raise line) := by
  intro line start
  have hline : w.state.gsi 0 = line := gsi_of_table hentries hfits hinit
  obtain ⟨hquiet, m, hrun, hm⟩ := run_foldl
    (R := fun m clock => Shows sym w.state d' pit.ticks_since_boot m ⟨[timerCall register], clock⟩)
    (Q := Quiet sym (self register) line) (fun clock i => (Input.clock line i).elim clock clock.next)
    (fun m clock i h hi => hline ▸ h.plain hdisjoint hapart hmasked register m clock i hi) start ⟨true, 0, 0⟩ inputs
    (booted_shows sym pit register w.state d' hlands) (along_of_forall start inputs hinputs)
  rw [foldl_elim] at hm
  refine ⟨hquiet, m, hrun, ?_, ?_⟩
  · rw [hm.cpu.ticks, ← Timer.clock_ticks]
    rfl
  · rw [hm.cpu.eois, ← countP_clock, ← Timer.clock_served]
    rfl

/-! ## One IOAPIC, and the PIT on line 2 -/

/-- An IOAPIC at 0xFEC00000, and an override that sends line 0 to line 2. -/
def pc : acpi_madt :=
  ⟨sizeof_acpi_madt + 22, fun a => [1, 12, 0, 0, 0, 0, 0xC0, 0xFE, 0, 0, 0, 0, 2, 10, 0, 0, 2, 0, 0, 0, 0, 0].getD a 0⟩

/-- It has 24 entries, all of them masked. -/
def fresh : Devices := ⟨fun _ => 0, fun _ register => if register = 1 then 0x170020 else 0x10000, []⟩

theorem pc_entries : Entries pc.entries pc.size 0 [0, 12] :=
  Entries.cons 0 [12] (by decide) (Entries.cons 12 [] (by decide) Entries.nil)

theorem probe_register (s : Ioapic.State) (n i : Nat) (d : Devices) : (probe s n i d).register = d.register := by
  induction n generalizing i d with
  | zero => rfl
  | succ n ih => exact ih (i + 1) _

theorem pc_init : ∃ w d', (init (some pc) cleared fresh).Ends (w, d') ∧ w.state.apic_ent.toNat = 1 ∧
    w.state.apics 0 = ⟨⟨1, 12⟩, 0, 0, 0xFEC00000, 0⟩ ∧ d'.register = fresh.register := by
  obtain ⟨w, hw, hends⟩ := init_ends pc [0, 12] pc_entries cleared fresh
  have hlist : ioapics pc.entries [0, 12] = [⟨⟨1, 12⟩, 0, 0, 0xFEC00000, 0⟩] := by decide
  have hfilled := hw.apics
  rw [hlist] at hfilled
  refine ⟨w, _, (hends _).mpr rfl, hfilled.ent_eq, ?_, probe_register _ _ _ _⟩
  exact (Option.some.inj (hfilled.array_eq (by decide) 0 (by decide))).symm

theorem fresh_masked {s : Ioapic.State} {d : Devices} (hd : d.register = fresh.register) : Masked s d := by
  intro i _ gsi hin
  obtain ⟨hreg, hsmall⟩ := redirection_register_toNat hin
  have hne : redirection_register (s.apics i) gsi ≠ 1 := by bv_omega
  rw [read_back_eq, hd]
  simp only [fresh, if_neg hne]
  rfl

theorem run_timer_line_pc :
    ∃ w d' m, (init (some pc) cleared fresh).Ends (w, d') ∧
      run (step linked (self 0)) (booted linked freshPit 0 w.state d')
        [.raise 2, .raise 9, .call (.install 9 (some 7) 0 true), .raise 9, .raise 2] = some m ∧
      m.cpu.pit.ticks_since_boot = 2 ∧ m.cpu.eois = 2 := by
  obtain ⟨w, d', hinit, hent, hapic, hd⟩ := pc_init
  have hgsi := gsi_of_table pc_entries (by decide) hinit
  have honly : ∀ i < w.state.apic_ent.toNat, i = 0 := by omega
  have hin : Contains d' (w.state.apics 0) 2 := by
    rw [hapic, Contains, hd]
    decide
  have hlands : Lands w.state d' 0 := by
    refine ⟨0, by omega, by rw [hgsi]; exact hin, Or.inl ⟨by rw [hgsi]; decide, fun j hj => ?_, Or.inr (by omega)⟩⟩
    omega
  obtain ⟨-, m, hrun, hticks, heois⟩ := run_timer_line linked freshPit 0 pc [0, 12] cleared fresh
    d' w [.raise 2, .raise 9, .call (.install 9 (some 7) 0 true), .raise 9, .raise 2] pc_entries (by decide) hinit
    (fun i j hi hj _ _ _ => (honly i hi).trans (honly j hj).symm)
    (fun i j hi hj _ => (honly i hi).trans (honly j hj).symm) (fresh_masked hd) hlands
    (by simp [Plain])
  exact ⟨w, d', m, hinit, hrun, hticks, heois⟩

end SlayerOS.Line
