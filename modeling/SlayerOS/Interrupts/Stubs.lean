import SlayerOS.Lib.Stack
import SlayerOS.Interrupts.Code

/-!
# The stubs (`macros.s`, `isr.s`) and the frames that they build (`isr.h`, `irq.h`)

A macro is the list of its instructions. A jump goes on with the list of its target, and
the list ends before `iretq`.
-/

open SlayerOS.Stack

namespace SlayerOS.Interrupts

/-! ## The machine -/

inductive Reg where
  | rax | rbx | rcx | rdx | rsi | rdi | rbp | rsp
  | r8 | r9 | r10 | r11 | r12 | r13 | r14 | r15
deriving DecidableEq, Repr

/-- Control and segment registers. The stubs only read them. -/
inductive Special where
  | cr0 | cr2 | cr3 | cr4 | cr8
  | ss | cs | ds | es | fs | gs
deriving DecidableEq, Repr

abbrev Regs := Machine Reg

inductive Instr where
  /-- `pushq %r` -/
  | pushq (r : Reg)
  /-- `pushq $v` -/
  | pushi (v : Word)
  /-- `popq %r` -/
  | popq (r : Reg)
  /-- `lea (%rip), %rax`, which loads the address of the instruction behind it. -/
  | lea (behind : Word)
  /-- `mov %s, %rax` -/
  | mov_special (s : Special)
  /-- `mov <8 * n>(%rsp), %rax` -/
  | mov_slot (n : Nat)
  /-- `mov %rsp, %rdi` -/
  | mov_rsp_rdi
  /-- `add $<8 * n>, %rsp` -/
  | add_rsp (n : Nat)
  | cli
  /-- The call of the C++ handler, up to its return. -/
  | call
deriving DecidableEq, Repr

def setReg (m : Regs) (r : Reg) (v : Word) : Regs := { m with regs := Function.update m.regs r v }

def exec (special : Special → Word) (handler : Regs → Regs) (m : Regs) : Instr → Regs
  | .pushq r => push .rsp m (m.regs r)
  | .pushi v => push .rsp m v
  | .popq r => pop .rsp m r
  | .lea behind => setReg m .rax behind
  | .mov_special s => setReg m .rax (special s)
  | .mov_slot n => setReg m .rax (word m.mem (m.regs .rsp) n)
  | .mov_rsp_rdi => setReg m .rdi (m.regs .rsp)
  | .add_rsp n => setReg m .rsp (up (m.regs .rsp) n)
  | .cli => m
  | .call => handler m

def execAll (special : Special → Word) (handler : Regs → Regs) (m : Regs) (code : List Instr) : Regs :=
  code.foldl (exec special handler) m

/-! ## `macros.s` -/

/-- The general-purpose registers above and below `rsp`, as `pusha` pushes them. -/
def pusha_first : List Reg := [.r15, .r14, .r13, .r12, .r11, .r10, .r9, .r8, .rbp]
def pusha_second : List Reg := [.rdi, .rsi, .rdx, .rcx, .rbx, .rax]

def pusha_special : List Special := [.cr8, .cr4, .cr3, .cr2, .cr0, .ss, .cs, .ds, .es, .fs, .gs]

def pusha (behind : Word) : List Instr :=
  pusha_first.map .pushq ++ [.pushq .rsp] ++ pusha_second.map .pushq ++
  [.lea behind, .pushq .rax] ++ pusha_special.flatMap fun s => [.mov_special s, .pushq .rax]

/-- The pops before and behind that of `rsp`. The last two are for `int_num` and
`error_code`. -/
def popa_first : List Reg :=
  [.rax, .rax, .rax, .rax, .rax, .rax, .rax, .rax, .rax, .rax, .rax, .rax, .rax, .rax,
   .rbx, .rcx, .rdx, .rsi, .rdi]
def popa_second : List Reg :=
  [.rbp, .r8, .r9, .r10, .r11, .r12, .r13, .r14, .r15, .r15, .r15]

def popa : List Instr := popa_first.map .popq ++ [.popq .rsp] ++ popa_second.map .popq

/-- The source has the byte offset 240. -/
def save_ra : List Instr := [.mov_slot 30, .pushq .rax]

def pushairq_regs : List Reg :=
  [.rax, .rbx, .rcx, .rdx, .rdi, .rsi, .rbp, .r8, .r9, .r10, .r11, .r12, .r13, .r14, .r15]

def pushairq (irq : Word) : List Instr := [.pushi irq] ++ pushairq_regs.map .pushq

def popairq_regs : List Reg :=
  [.r15, .r14, .r13, .r12, .r11, .r10, .r9, .r8, .rbp, .rsi, .rdi, .rdx, .rcx, .rbx, .rax]

def popairq : List Instr := popairq_regs.map .popq ++ [.add_rsp 1]

/-- What a stub does before it calls its handler. -/
def Stub.entry (behind : Word) : Stub → List Instr
  | .ISR_NOERR num =>
    [.pushi 0, .pushi (BitVec.ofNat 64 num)] ++ pusha behind ++ save_ra ++ [.mov_rsp_rdi]
  | .ISR_ERR num => [.pushi (BitVec.ofNat 64 num)] ++ pusha behind ++ save_ra ++ [.mov_rsp_rdi]
  | .IRQ _ irq => [.cli] ++ pushairq (BitVec.ofNat 64 irq) ++ [.mov_rsp_rdi]

def isr_common : List Instr := .call :: popa

def irq_common : List Instr := .call :: popairq

def Stub.common : Stub → List Instr
  | .IRQ _ _ => irq_common
  | _ => isr_common

/-! ## Frames -/

/-- `struct isr_frame`. -/
structure IsrFrame where
  return_address : Word
  gs : Word
  fs : Word
  es : Word
  ds : Word
  cs : Word
  ss : Word
  cr0 : Word
  cr2 : Word
  cr3 : Word
  cr4 : Word
  cr8 : Word
  rip : Word
  rax : Word
  rbx : Word
  rcx : Word
  rdx : Word
  rsi : Word
  rdi : Word
  rsp : Word
  rbp : Word
  r8 : Word
  r9 : Word
  r10 : Word
  r11 : Word
  r12 : Word
  r13 : Word
  r14 : Word
  r15 : Word
  int_num : Word
  error_code : Word
deriving DecidableEq, Repr

/-- The words of an `isr_frame`. -/
def IsrFrame.size : Nat := 31

def isrFrame (m : Word → Word) (p : Word) : IsrFrame where
  return_address := word m p 0
  gs := word m p 1
  fs := word m p 2
  es := word m p 3
  ds := word m p 4
  cs := word m p 5
  ss := word m p 6
  cr0 := word m p 7
  cr2 := word m p 8
  cr3 := word m p 9
  cr4 := word m p 10
  cr8 := word m p 11
  rip := word m p 12
  rax := word m p 13
  rbx := word m p 14
  rcx := word m p 15
  rdx := word m p 16
  rsi := word m p 17
  rdi := word m p 18
  rsp := word m p 19
  rbp := word m p 20
  r8 := word m p 21
  r9 := word m p 22
  r10 := word m p 23
  r11 := word m p 24
  r12 := word m p 25
  r13 := word m p 26
  r14 := word m p 27
  r15 := word m p 28
  int_num := word m p 29
  error_code := word m p 30

/-- `struct irq_frame`. -/
structure IrqFrame where
  r15 : Word
  r14 : Word
  r13 : Word
  r12 : Word
  r11 : Word
  r10 : Word
  r9 : Word
  r8 : Word
  rbp : Word
  rsi : Word
  rdi : Word
  rdx : Word
  rcx : Word
  rbx : Word
  rax : Word
  error : Word
  rip : Word
  cs : Word
  rflags : Word
  rsp : Word
  ss : Word
deriving DecidableEq, Repr

/-- The words of an `irq_frame`. -/
def IrqFrame.size : Nat := 21

def irqFrame (m : Word → Word) (p : Word) : IrqFrame where
  r15 := word m p 0
  r14 := word m p 1
  r13 := word m p 2
  r12 := word m p 3
  r11 := word m p 4
  r10 := word m p 5
  r9 := word m p 6
  r8 := word m p 7
  rbp := word m p 8
  rsi := word m p 9
  rdi := word m p 10
  rdx := word m p 11
  rcx := word m p 12
  rbx := word m p 13
  rax := word m p 14
  error := word m p 15
  rip := word m p 16
  cs := word m p 17
  rflags := word m p 18
  rsp := word m p 19
  ss := word m p 20

/-! ## The processor -/

/-- An interrupt: what the processor pushes that is not in a general-purpose register, and
the stack that the gate asks for. -/
structure Interrupt where
  rip : Word
  cs : Word
  rflags : Word
  ss : Word
  stack : Word
deriving DecidableEq, Repr

/-- The new stack starts on a multiple of 16. -/
def Interrupt.top (x : Interrupt) : Word := x.stack &&& ~~~15

/-- What the processor pushes, the last word first. Some exceptions have an error code. -/
def Interrupt.pushed (x : Interrupt) (rsp : Word) (error : Option Word) : List Word :=
  error.toList ++ [x.rip, x.cs, x.rflags, rsp, x.ss]

/-- The state at the first instruction of the stub. -/
def interrupt (m : Regs) (x : Interrupt) (error : Option Word) : Regs :=
  pushAll .rsp (setReg m .rsp x.top) (x.pushed (m.regs .rsp) error).reverse

/-- The slot with the interrupted `rip`. -/
def Interrupt.ripSlot (x : Interrupt) : Word := down x.top 5

end SlayerOS.Interrupts
