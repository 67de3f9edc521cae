import SlayerOS.Taskman.Spec
import SlayerOS.Interrupts.Stubs

/-!
# `task_switch` (`switch.s`) and `Taskman::Context` (`man.h`)

The assembly reaches into the contexts with byte offsets. Memory is bytes, and a context
lies in it as the compiler lays out the struct: twenty fields of eight bytes, in the order
of their declaration.
-/

open SlayerOS.Bytes SlayerOS.Interrupts

namespace SlayerOS.Taskman

/-! ## The code -/

structure Cpu where
  regs : Reg → BitVec 64
  rip : BitVec 64
  mem : Mem

inductive SwitchInstr where
  /-- `mov [base + offset], src` -/
  | store (base : Reg) (offset : BitVec 64) (src : Reg)
  /-- `mov dst, [base + offset]` -/
  | load (dst base : Reg) (offset : BitVec 64)
  /-- `lea dst, [rip + 1f]`, which loads the address of the label. -/
  | lea_label (dst : Reg)
  | jmp (r : Reg)
  | ret
deriving DecidableEq, Repr

def Cpu.setReg (m : Cpu) (r : Reg) (v : BitVec 64) : Cpu := { m with regs := Function.update m.regs r v }

def Cpu.exec (label : BitVec 64) (m : Cpu) : SwitchInstr → Cpu
  | .store base offset src => { m with mem := write 8 m.mem (m.regs base + offset).toNat (m.regs src).toNat }
  | .load dst base offset => m.setReg dst (BitVec.ofNat 64 (read 8 m.mem (m.regs base + offset).toNat))
  | .lea_label dst => m.setReg dst label
  | .jmp r => { m with rip := m.regs r }
  | .ret =>
    { m.setReg .rsp (m.regs .rsp + 8) with rip := BitVec.ofNat 64 (read 8 m.mem (m.regs .rsp).toNat) }

/-- `task_switch`, up to its jump. -/
def task_switch_code : List SwitchInstr :=
  [.store .rdi 0x78 .rsp, .lea_label .rax, .store .rdi 0x50 .rax,
   .load .rsp .rsi 0x88, .load .rax .rsi 0x78, .jmp .rax]

/-- What is behind the label `1`. It runs when some jump goes there. -/
def return_path_code : List SwitchInstr := [.load .rsp .rdi 0x78, .ret]

/-- The processor behind the jump. The linker chooses the address of the label. -/
def task_switch (label : BitVec 64) (m : Cpu) : Cpu := task_switch_code.foldl (Cpu.exec label) m

def return_path (label : BitVec 64) (m : Cpu) : Cpu := return_path_code.foldl (Cpu.exec label) m

/-! ## Contexts in memory -/

/-- `sizeof(Taskman::Context)`. -/
def CONTEXT : Nat := 160

/-- Field `i` of the struct at `p`. -/
def field (m : Mem) (p i : Nat) : Nat := read 8 m (p + 8 * i)

def contextAt (m : Mem) (p : Nat) : Context where
  r15 := field m p 0
  r14 := field m p 1
  r13 := field m p 2
  r12 := field m p 3
  r11 := field m p 4
  r10 := field m p 5
  r9 := field m p 6
  r8 := field m p 7
  rsi := field m p 8
  rdi := field m p 9
  rbp := field m p 10
  rdx := field m p 11
  rcx := field m p 12
  rbx := field m p 13
  rax := field m p 14
  rip := field m p 15
  cs := field m p 16
  rflags := field m p 17
  rsp := field m p 18
  ss := field m p 19

/-- A call of `task_switch(a, b)` with two contexts. -/
structure Called (m : Cpu) (a b : Nat) : Prop where
  rdi : (m.regs .rdi).toNat = a
  rsi : (m.regs .rsi).toNat = b
  top : a + CONTEXT ≤ 2 ^ 64
  top' : b + CONTEXT ≤ 2 ^ 64
  apart : Apart a CONTEXT b CONTEXT

/-! ## What the call is for -/

/-- The next context goes on, on its own stack. -/
def StartsNext (label : BitVec 64) (m : Cpu) (b : Nat) : Prop :=
  (task_switch label m).rip.toNat = (contextAt m.mem b).rip ∧
  ((task_switch label m).regs .rsp).toNat = (contextAt m.mem b).rsp

/-- What the call does not save stays as it was. -/
def KeepsFields (label : BitVec 64) (m : Cpu) (a : Nat) : Prop :=
  let c := contextAt (task_switch label m).mem a
  c = { contextAt m.mem a with rip := c.rip, rsp := c.rsp }

/-- A later call that switches back, with the saved context as it was left, goes on at the
label with the old stack pointer. -/
def ComesBack (label : BitVec 64) (m : Cpu) (a b : Nat) : Prop :=
  ∀ later, Called later b a →
    (∀ x, a ≤ x → x < a + CONTEXT → later.mem x = (task_switch label m).mem x) →
    (task_switch label later).rip = label ∧ (task_switch label later).regs .rsp = m.regs .rsp

/-! ## What the call does -/

theorem offset_toNat (p k : BitVec 64) (a : Nat) (hp : p.toNat = a) (hk : k.toNat + 8 ≤ CONTEXT)
    (htop : a + CONTEXT ≤ 2 ^ 64) : (p + k).toNat = a + k.toNat := by
  unfold CONTEXT at *
  rw [BitVec.toNat_add, hp, Nat.mod_eq_of_lt (by omega)]

theorem task_switch_mem (label : BitVec 64) (m : Cpu) (a b : Nat) (h : Called m a b) :
    (task_switch label m).mem =
      write 8 (write 8 m.mem (a + 0x78) (m.regs .rsp).toNat) (a + 0x50) label.toNat := by
  have h1 := offset_toNat (m.regs .rdi) 0x78 a h.rdi (by decide) h.top
  have h2 := offset_toNat (m.regs .rdi) 0x50 a h.rdi (by decide) h.top
  simp only [task_switch, task_switch_code, List.foldl_cons, List.foldl_nil, Cpu.exec, Cpu.setReg,
    Function.update_self, ne_eq, reduceCtorEq, not_false_eq_true, Function.update_of_ne]
  rw [h1, h2]
  rfl

theorem field_lt (m : Mem) (p i : Nat) : field m p i < 2 ^ 64 := read_lt 8 m _

theorem field_congr (m m' : Mem) (p i : Nat) (hi : i < 20)
    (h : ∀ x, p ≤ x → x < p + CONTEXT → m' x = m x) : field m' p i = field m p i := by
  unfold CONTEXT at h
  apply read_congr
  intro x h1 h2
  exact h x (by omega) (by omega)

theorem field_other (m : Cpu) (a b v w i : Nat) (h : Apart a CONTEXT b CONTEXT) (hi : i < 20) :
    field (write 8 (write 8 m.mem (a + 0x78) v) (a + 0x50) w) b i = field m.mem b i := by
  apply field_congr _ _ _ _ hi
  intro x h1 h2
  unfold Apart CONTEXT at *
  rw [write_outside _ _ _ _ _ (by omega), write_outside _ _ _ _ _ (by omega)]

theorem field_saved (m : Mem) (a v w i : Nat) :
    field (write 8 (write 8 m (a + 0x78) v) (a + 0x50) w) a i =
      if i = 10 then w % 2 ^ 64 else if i = 15 then v % 2 ^ 64 else field m a i := by
  unfold field
  by_cases h10 : i = 10
  · rw [if_pos h10, h10, read_write_same]
    rfl
  · rw [if_neg h10, read_write_apart _ _ _ _ _ _ (by unfold Apart; omega)]
    by_cases h15 : i = 15
    · rw [if_pos h15, h15, read_write_same]
      rfl
    · rw [if_neg h15, read_write_apart _ _ _ _ _ _ (by unfold Apart; omega)]

/-- The jump goes to the `rip` of the next context, with its `rflags` as the stack pointer. -/
theorem task_switch_next (label : BitVec 64) (m : Cpu) (a b : Nat) (h : Called m a b) :
    (task_switch label m).rip.toNat = (contextAt m.mem b).rip ∧
    ((task_switch label m).regs .rsp).toNat = (contextAt m.mem b).rflags := by
  have hmem := task_switch_mem label m a b h
  have h1 := offset_toNat (m.regs .rsi) 0x78 b h.rsi (by decide) h.top'
  have h2 := offset_toNat (m.regs .rsi) 0x88 b h.rsi (by decide) h.top'
  have hrip : (task_switch label m).rip = BitVec.ofNat 64 (field (task_switch label m).mem b 15) := by
    rw [field, show b + 8 * 15 = b + (0x78 : BitVec 64).toNat from rfl, ← h1]
    simp [task_switch, task_switch_code, Cpu.exec, Cpu.setReg]
  have hrsp : (task_switch label m).regs .rsp = BitVec.ofNat 64 (field (task_switch label m).mem b 17) := by
    rw [field, show b + 8 * 17 = b + (0x88 : BitVec 64).toNat from rfl, ← h2]
    simp [task_switch, task_switch_code, Cpu.exec, Cpu.setReg]
  rw [hrip, hrsp, hmem, field_other m a b _ _ 15 h.apart (by omega), field_other m a b _ _ 17 h.apart (by omega),
    BitVec.toNat_ofNat, BitVec.toNat_ofNat, Nat.mod_eq_of_lt (field_lt _ _ _), Nat.mod_eq_of_lt (field_lt _ _ _)]
  exact ⟨rfl, rfl⟩

theorem task_switch_saved (label : BitVec 64) (m : Cpu) (a b : Nat) (h : Called m a b) :
    contextAt (task_switch label m).mem a =
      { contextAt m.mem a with rip := (m.regs .rsp).toNat, rbp := label.toNat } := by
  have hrsp := Nat.mod_eq_of_lt (m.regs .rsp).isLt
  have hlabel := Nat.mod_eq_of_lt label.isLt
  rw [task_switch_mem label m a b h]
  simp [contextAt, field_saved, hrsp, hlabel]

/-! ## When it does what it is for -/

theorem startsNext_iff (label : BitVec 64) (m : Cpu) (a b : Nat) (h : Called m a b) :
    StartsNext label m b ↔ (contextAt m.mem b).rflags = (contextAt m.mem b).rsp := by
  obtain ⟨hrip, hrsp⟩ := task_switch_next label m a b h
  unfold StartsNext
  rw [hrip, hrsp]
  exact and_iff_right rfl

theorem keepsFields_iff (label : BitVec 64) (m : Cpu) (a b : Nat) (h : Called m a b) :
    KeepsFields label m a ↔ (contextAt m.mem a).rbp = label.toNat := by
  unfold KeepsFields
  rw [task_switch_saved label m a b h]
  generalize contextAt m.mem a = c
  constructor
  · intro heq
    exact (congrArg Context.rbp heq).symm
  · intro heq
    rw [← heq]

theorem contextAt_congr (m m' : Mem) (p : Nat) (h : ∀ x, p ≤ x → x < p + CONTEXT → m' x = m x) :
    contextAt m' p = contextAt m p := by
  have hfield : ∀ i, i < 20 → field m' p i = field m p i := fun i hi => field_congr m m' p i hi h
  unfold contextAt
  simp (disch := omega) only [hfield]

theorem comesBack_iff (label : BitVec 64) (m : Cpu) (a b : Nat) (h : Called m a b) :
    ComesBack label m a b ↔
      m.regs .rsp = label ∧ (contextAt m.mem a).rflags = (m.regs .rsp).toNat := by
  have hsaved := task_switch_saved label m a b h
  have hback : ∀ later, Called later b a →
      (∀ x, a ≤ x → x < a + CONTEXT → later.mem x = (task_switch label m).mem x) →
      ((task_switch label later).rip = label ∧ (task_switch label later).regs .rsp = m.regs .rsp ↔
        m.regs .rsp = label ∧ (contextAt m.mem a).rflags = (m.regs .rsp).toNat) := by
    intro later hlater hsame
    obtain ⟨hrip, hrsp⟩ := task_switch_next label later b a hlater
    rw [contextAt_congr _ _ a hsame, hsaved] at hrip hrsp
    rw [← BitVec.toNat_inj, ← BitVec.toNat_inj, hrip, hrsp, BitVec.toNat_inj]
  constructor
  · intro hall
    -- The other context may switch back at once.
    let later : Cpu :=
      ⟨Function.update (Function.update m.regs .rdi (m.regs .rsi)) .rsi (m.regs .rdi), 0, (task_switch label m).mem⟩
    have hlater : Called later b a :=
      ⟨h.rsi, h.rdi, h.top', h.top, h.apart.symm⟩
    exact (hback later hlater fun _ _ _ => rfl).mp (hall later hlater fun _ _ _ => rfl)
  · intro hcond later hlater hsame
    exact (hback later hlater hsame).mpr hcond

/-- `task_switch` goes on with the next context, keeps what it does not save and comes back
if and only if the next context has its `rsp` in `rflags` too, and the old stack pointer and
the fields `rflags` and `rbp` of the old context are all the address of the label. -/
theorem task_switch_iff (label : BitVec 64) (m : Cpu) (a b : Nat) (h : Called m a b) :
    (StartsNext label m b ∧ KeepsFields label m a ∧ ComesBack label m a b) ↔
      (contextAt m.mem b).rflags = (contextAt m.mem b).rsp ∧ (contextAt m.mem a).rbp = label.toNat ∧
        m.regs .rsp = label ∧ (contextAt m.mem a).rflags = (m.regs .rsp).toNat := by
  rw [startsNext_iff label m a b h, keepsFields_iff label m a b h, comesBack_iff label m a b h]

/-- A cleared context at `0x1000`, and one at `0x2000` as `spawn_process` builds it. -/
def spawnedCpu : Cpu where
  regs := fun r => if r = .rdi then 0x1000 else if r = .rsi then 0x2000 else if r = .rsp then 0x9000 else 0
  rip := 0
  mem := write 8 (write 8 (write 8 (fun _ => 0) 0x2078 0x4000) 0x2088 0x202) 0x2090 0x10a000

theorem spawnedCpu_called : Called spawnedCpu 0x1000 0x2000 := ⟨rfl, rfl, by decide, by decide, by decide⟩

theorem task_switch_iff_spawned :
    (StartsNext 0x5000 spawnedCpu 0x2000 ∧ KeepsFields 0x5000 spawnedCpu 0x1000 ∧
      ComesBack 0x5000 spawnedCpu 0x1000 0x2000) ↔
      (contextAt spawnedCpu.mem 0x2000).rflags = (contextAt spawnedCpu.mem 0x2000).rsp ∧
        (contextAt spawnedCpu.mem 0x1000).rbp = (0x5000 : BitVec 64).toNat ∧
        spawnedCpu.regs .rsp = 0x5000 ∧
        (contextAt spawnedCpu.mem 0x1000).rflags = (spawnedCpu.regs .rsp).toNat :=
  task_switch_iff _ _ _ _ spawnedCpu_called

/-- The new task starts with `0x202` for a stack pointer. -/
theorem spawned_starts_off_its_stack :
    ¬ ∀ (label : BitVec 64) (m : Cpu) (a b : Nat), Called m a b →
      StartsNext label m b ∧ KeepsFields label m a ∧ ComesBack label m a b := by
  intro hall
  obtain ⟨hstart, -⟩ := hall 0x5000 spawnedCpu 0x1000 0x2000 spawnedCpu_called
  have hsame := (startsNext_iff 0x5000 spawnedCpu 0x1000 0x2000 spawnedCpu_called).mp hstart
  exact absurd hsame (by decide +kernel)

end SlayerOS.Taskman
