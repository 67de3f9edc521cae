import SlayerOS.Interrupts.Transparent

/-!
# What a crash frame says

`isr_handler` prints the registers of the frame that the stub built. `rsp` is pushed in the
middle of `pusha`, on the stack of the exception.
-/

open SlayerOS.Stack

namespace SlayerOS.Interrupts

def IsrFrame.reg (f : IsrFrame) : Reg → Word
  | .rax => f.rax
  | .rbx => f.rbx
  | .rcx => f.rcx
  | .rdx => f.rdx
  | .rsi => f.rsi
  | .rdi => f.rdi
  | .rbp => f.rbp
  | .rsp => f.rsp
  | .r8 => f.r8
  | .r9 => f.r9
  | .r10 => f.r10
  | .r11 => f.r11
  | .r12 => f.r12
  | .r13 => f.r13
  | .r14 => f.r14
  | .r15 => f.r15

/-- The error code is the one that the processor pushed, or 0 in a stub without one. -/
def Stub.CodeIs (error : Option Word) (code : Word) : Stub → Prop
  | .ISR_ERR _ => error = some code
  | _ => code = 0

/-- The frame says what the processor was doing: all general-purpose and control registers,
the vector, the error code and the address. -/
structure Truthful (special : Special → Word) (m : Regs) (x : Interrupt) (error : Option Word) (stub : Stub)
    (f : IsrFrame) : Prop where
  regs : ∀ r, f.reg r = m.regs r
  control : f.cr0 = special .cr0 ∧ f.cr2 = special .cr2 ∧ f.cr3 = special .cr3 ∧ f.cr4 = special .cr4 ∧
    f.cr8 = special .cr8
  int_num : f.int_num = BitVec.ofNat 64 stub.num
  error_code : stub.CodeIs error f.error_code
  return_address : f.return_address = x.rip

/-- The frame that `isr_handler` gets. -/
def crashFrame (special : Special → Word) (m : Regs) (x : Interrupt) (error : Option Word) (behind : Word)
    (stub : Stub) : IsrFrame :=
  isrFrame (entered special m x error behind stub).mem ((entered special m x error behind stub).regs .rdi)

/-- The interrupted stack pointer happens to be the one that `pusha` pushes. Where the
processor pushes an error code that the stub does not expect, that code also has to be the
interrupted address. -/
def Coincides (m : Regs) (x : Interrupt) (error : Option Word) (stub : Stub) : Prop :=
  match stub, error with
  | .ISR_ERR _, some _ => m.regs .rsp = x.top - 128
  | .ISR_ERR _, none => False
  | _, none => m.regs .rsp = x.top - 128
  | _, some e => m.regs .rsp = x.top - 136 ∧ e = x.rip

/-! ## The frame -/

theorem isrFrame_eq (special : Special → Word) (behind : Word) (m m1 : Regs) (sp p num code ra : Word)
    (h : At m1 p (ra :: (savedWords special behind m sp ++ [num, code]))) :
    isrFrame m1.mem p =
      { return_address := ra
        gs := special .gs, fs := special .fs, es := special .es, ds := special .ds
        cs := special .cs, ss := special .ss
        cr0 := special .cr0, cr2 := special .cr2, cr3 := special .cr3, cr4 := special .cr4, cr8 := special .cr8
        rip := behind
        rax := m.regs .rax, rbx := m.regs .rbx, rcx := m.regs .rcx, rdx := m.regs .rdx
        rsi := m.regs .rsi, rdi := m.regs .rdi, rsp := down sp 9, rbp := m.regs .rbp
        r8 := m.regs .r8, r9 := m.regs .r9, r10 := m.regs .r10, r11 := m.regs .r11
        r12 := m.regs .r12, r13 := m.regs .r13, r14 := m.regs .r14, r15 := m.regs .r15
        int_num := num, error_code := code } := by
  have hword := h.holds
  unfold isrFrame
  congr 1 <;> exact hword _ _ rfl

/-- Only the stack pointer, the error code and the address can be wrong. -/
theorem truthful_iff_view (special : Special → Word) (m : Regs) (x : Interrupt) (error : Option Word)
    (behind : Word) (stub : Stub) (hstub : stub.IsException) :
    Truthful special m x error stub (crashFrame special m x error behind stub) ↔
      down x.top ((stub.view x error).1 + 9) = m.regs .rsp ∧
      stub.CodeIs error (stub.view x error).2.1 ∧
      (stub.view x error).2.2 = x.rip := by
  obtain ⟨hat, hrdi⟩ := entered_at special m x error behind stub hstub
  unfold crashFrame
  generalize entered special m x error behind stub = m1 at *
  rw [hrdi, isrFrame_eq special behind m m1 _ _ _ _ _ hat, down_down]
  constructor
  · rintro ⟨hregs, -, -, hcode, hra⟩
    exact ⟨hregs .rsp, hcode, hra⟩
  · rintro ⟨hrsp, hcode, hra⟩
    refine ⟨?_, ⟨rfl, rfl, rfl, rfl, rfl⟩, rfl, hcode, hra⟩
    intro r
    cases r with
    | rsp => exact hrsp
    | rax | rbx | rcx | rdx | rsi | rdi | rbp => rfl
    | r8 | r9 | r10 | r11 | r12 | r13 | r14 | r15 => rfl

/-- A crash frame tells the truth exactly when the interrupted stack pointer is the address
at which `pusha` has arrived when it pushes it. -/
theorem truthful_iff_coincides (special : Special → Word) (m : Regs) (x : Interrupt) (error : Option Word)
    (behind : Word) (stub : Stub) (hstub : stub.IsException) :
    Truthful special m x error stub (crashFrame special m x error behind stub) ↔
      Coincides m x error stub := by
  have h16 : down x.top (7 + 9) = x.top - 128 := rfl
  have h17 : down x.top (8 + 9) = x.top - 136 := rfl
  rw [truthful_iff_view special m x error behind stub hstub]
  cases stub with
  | IRQ num irq => exact hstub.elim
  | ISR_NOERR num =>
    cases error with
    | none =>
      simp only [Stub.view, Stub.CodeIs, Coincides, h16, and_true]
      exact eq_comm
    | some e =>
      simp only [Stub.view, Stub.CodeIs, Coincides, h17, true_and]
      rw [eq_comm]
  | ISR_ERR num =>
    cases error with
    | none => simp [Stub.view, Stub.CodeIs, Coincides]
    | some e =>
      simp only [Stub.view, Stub.CodeIs, Coincides, h16, and_true]
      exact eq_comm

theorem truthful_iff_coincides_nested :
    Truthful (fun _ => 0) (running 0xffff800000103f80) spurious (some 2) (.ISR_ERR 14)
      (crashFrame (fun _ => 0) (running 0xffff800000103f80) spurious (some 2) 0xffffffff80001ff7 (.ISR_ERR 14)) :=
  (truthful_iff_coincides (fun _ => 0) (running 0xffff800000103f80) spurious (some 2) 0xffffffff80001ff7
    (.ISR_ERR 14) trivial).mpr (by change (0xffff800000103f80 : Word) = spurious.top - 128; decide)

/-- A page fault in code that runs on its own stack: the frame has another stack pointer. -/
theorem crash_frame_wrong_rsp :
    (crashFrame (fun _ => 0) (running 0xffff800000200000) spurious (some 2) 0xffffffff80001ff7
      (.ISR_ERR 14)).rsp = 0xffff800000103f80 ∧
    ¬ Truthful (fun _ => 0) (running 0xffff800000200000) spurious (some 2) (.ISR_ERR 14)
      (crashFrame (fun _ => 0) (running 0xffff800000200000) spurious (some 2) 0xffffffff80001ff7
        (.ISR_ERR 14)) := by
  obtain ⟨hat, hrdi⟩ := entered_at (fun _ => 0) (running 0xffff800000200000) spurious (some 2)
    0xffffffff80001ff7 (.ISR_ERR 14) trivial
  have hrsp : (crashFrame (fun _ => 0) (running 0xffff800000200000) spurious (some 2) 0xffffffff80001ff7
      (.ISR_ERR 14)).rsp = 0xffff800000103f80 := by
    unfold crashFrame
    generalize entered (fun _ => 0) (running 0xffff800000200000) spurious (some 2) 0xffffffff80001ff7
      (.ISR_ERR 14) = m1 at *
    rw [hrdi, isrFrame_eq _ _ _ m1 _ _ _ _ _ hat]
    decide
  refine ⟨hrsp, ?_⟩
  rintro ⟨hregs, -, -, -, -⟩
  have := hrsp.symm.trans (hregs .rsp)
  exact absurd this (by decide)

end SlayerOS.Interrupts
