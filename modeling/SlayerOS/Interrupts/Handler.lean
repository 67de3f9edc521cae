import Mathlib.Tactic.IntervalCases
import SlayerOS.Dump.Backtrace
import SlayerOS.Frames.Code
import SlayerOS.Interrupts.CrashFrame

/-!
# The report of a crash (`handler.cc`)

`isr_handler` prints the frame of an exception, what its error code says, and the dump of the code,
and hangs. There are messages for the first 22 vectors only.
-/

open SlayerOS.Stack SlayerOS.Fuel SlayerOS.Fuel.Comp SlayerOS.Interrupts SlayerOS.Resolver
open SlayerOS.Dump (Thread Open Idle Tiled Contains Chain Traces Named FrameNamed TargetNamed dump_at_addr target_of
  texts window innermost)

namespace SlayerOS.Handler

/-! ## `handler.cc` -/

/-- What stands in a box: a label with a value or with a text. -/
inductive Item where
  | value (label : String) (value : Word)
  | text (label text : String)
  | spaces (n : Nat)
deriving DecidableEq, Repr

/-- `messages` up to its first null. -/
def messages : List String :=
  ["Divide by zero", "Single step", "Non-maskable interrupt", "Breakpoint", "Overflow", "Bound range exceeded",
   "Invalid opcode", "Device not available", "Double fault", "Coprocessor segment overrun", "Invalid TSS",
   "Segment not present", "Stack-segment fault", "General protection fault", "Page fault", "Reserved",
   "x87 FPU error", "Alignment check", "Machine check", "SIMD floating-point exception",
   "Virtualization exception", "Control protection exception"]

/-- The registers of `dump_registers`, in its order. -/
def registers (info : IsrFrame) : List Item :=
  [.value "RAX" info.rax, .value "RBX" info.rbx, .value "RCX" info.rcx, .value "RDX" info.rdx,
   .value "RSI" info.rsi, .value "RDI" info.rdi, .value "RSP" info.rsp, .value "RBP" info.rbp,
   .value "R8" info.r8, .value "R9" info.r9, .value "R10" info.r10, .value "R11" info.r11,
   .value "R12" info.r12, .value "R13" info.r13, .value "R14" info.r14, .value "R15" info.r15,
   .value "RIP" info.rip,
   .value "CR0" info.cr0, .value "CR2" info.cr2, .value "CR3" info.cr3, .value "CR4" info.cr4, .value "CR8" info.cr8,
   .value "CS" info.cs, .value "DS" info.ds, .value "ES" info.es, .value "FS" info.fs, .value "GS" info.gs,
   .value "SS" info.ss]

/-- Behind the messages `strlen` reads through null, which is a fault. -/
def dump_registers (info : IsrFrame) : Option (List Item) := do
  let message ← messages[info.int_num.toNat]?
  some ([.value "Interrupt" info.int_num, .text "" message, .spaces (54 - message.length)] ++
    (if info.error_code ≠ 0 then [.value "Error Code" info.error_code] else []) ++ registers info)

def handle_double_fault (info : IsrFrame) : List Item :=
  let ext := info.error_code &&& 0x01
  let tbl := (info.error_code &&& 0x07) >>> 1
  let index := (info.error_code &&& 0xFFFF) >>> 3
  [.text "Source" (if ext ≠ 0 then "External interrupt" else "Internal exception"),
   .text "Table" (if tbl = 0b00 then "GDT (Global Descriptor Table)"
     else if tbl = 0b01 ∨ tbl = 0b11 then "IDT (Interrupt Descriptor Table)" else "LDT (Local Descriptor Table)"),
   .value "Index" index]

def handle_invalid_tss (info : IsrFrame) : List Item := [.value "TSS Index" info.error_code]

def handle_invalid_segment (info : IsrFrame) : List Item := [.value "Segment Index" info.error_code]

def handle_gpf (info : IsrFrame) : List Item := [.value "Segment Index" info.error_code]

def handle_page_fault (info : IsrFrame) : List Item :=
  let attrs := info.error_code &&& 0x7F
  let bit (n : Nat) : Bool := (attrs >>> n) &&& 0x1 ≠ 0
  [.value "Faulting Address" info.cr2,
   .text "Cause" (if bit 0 then "Page protection violation" else "Page not present"),
   .text "Access" (if bit 1 then "Write operation" else "Read operation"),
   .text "Mode" (if bit 2 then "User mode access" else "Supervisor mode access")] ++
  (if bit 3 then [.text "Flags" "Reserved bit violation"] else []) ++
  (if bit 4 then [.text "Type" "Instruction fetch"] else []) ++
  (if bit 5 then [.text "Flags" "Protection key violation"] else []) ++
  (if bit 6 then [.text "Flags" "Shadow Stack access"] else [])

def handle_err_code (info : IsrFrame) : List Item :=
  if info.int_num = 0x08 then handle_double_fault info
  else if info.int_num = 0x0A then handle_invalid_tss info
  else if info.int_num = 0x0B then handle_invalid_segment info
  else if info.int_num = 0x0D then handle_gpf info
  else if info.int_num = 0x0E then handle_page_fault info
  else []

def find_rip (m : Dump.Machine) (return_address : Word) : Word :=
  match m.addr2line_lookup (return_address - 1) with
  | some res => res.address
  | none => return_address

/-- What stands on the screen when the handler hangs. -/
structure Report where
  items : List Item
  lines : List Dump.Line

/-- The address that `isr_handler` lets disassemble. -/
def disas_addr (return_address rip : Word) : Word := if return_address - rip < 0x2 then return_address else rip

def with_rip (m : Dump.Machine) (info : IsrFrame) : IsrFrame :=
  { info with rip := find_rip m info.return_address }

/-- What `isr_handler` prints of the error code. -/
def errors (info : IsrFrame) : List Item :=
  if info.int_num = 0x08 ∨ info.int_num = 0x0A ∨ info.int_num = 0x0B ∨ info.int_num = 0x0D ∨ info.int_num = 0x0E
  then handle_err_code info else []

/-- `none` is a return, for the spurious vector. The result of `dump_at_addr` is not looked at. -/
def isr_handler (m : Dump.Machine) (info : IsrFrame) : Comp (Option Report) :=
  if info.int_num = 0xFF then pure none
  else do
    let info := with_rip m info
    let items ← lift (dump_registers info)
    let r ← dump_at_addr m info.rip info.rbp (disas_addr info.return_address info.rip)
    pure (some ⟨items ++ errors info, r.2⟩)

/-! ## The exception -/

/-- What the processor was doing, what it pushes, and the stub of the vector. -/
structure Exception where
  regs : Regs
  special : Special → Word
  interrupt : Interrupt
  error : Option Word
  stub : Stub
  behind : Word

/-- The machine at the call of `isr_handler`. -/
def Exception.entered (e : Exception) : Regs :=
  Interrupts.entered e.special e.regs e.interrupt e.error e.behind e.stub

/-- The frame that `isr_handler` gets. -/
def Exception.frame (e : Exception) : IsrFrame :=
  crashFrame e.special e.regs e.interrupt e.error e.behind e.stub

/-- The address is on the stack that the processor takes for the exception. -/
def Exception.OnStack (e : Exception) (a : Word) : Prop :=
  e.interrupt.top.toNat - Frames.IST_STACK_SIZE ≤ a.toNat ∧ a.toNat < e.interrupt.top.toNat

/-- The exception comes while the thread runs. It has a stack of its own, and an error code if its
stub expects one. -/
structure Strikes (e : Exception) (t : Thread) : Prop where
  mem : e.regs.mem = t.m.mem
  rbp : e.regs.regs .rbp = t.m.regs .rbp
  stub : e.stub ∈ isr_s
  exception : e.stub.IsException
  error : e.stub.Matches e.error
  room : Frames.IST_STACK_SIZE ≤ e.interrupt.top.toNat
  apart : ∀ b ∈ t.frames, b.toNat + 16 ≤ e.interrupt.top.toNat - Frames.IST_STACK_SIZE ∨
    e.interrupt.top.toNat ≤ b.toNat

def label : Reg → String
  | .rax => "RAX"
  | .rbx => "RBX"
  | .rcx => "RCX"
  | .rdx => "RDX"
  | .rsi => "RSI"
  | .rdi => "RDI"
  | .rbp => "RBP"
  | .rsp => "RSP"
  | .r8 => "R8"
  | .r9 => "R9"
  | .r10 => "R10"
  | .r11 => "R11"
  | .r12 => "R12"
  | .r13 => "R13"
  | .r14 => "R14"
  | .r15 => "R15"

def specialLabel : Special → String
  | .cr0 => "CR0"
  | .cr2 => "CR2"
  | .cr3 => "CR3"
  | .cr4 => "CR4"
  | .cr8 => "CR8"
  | .ss => "SS"
  | .cs => "CS"
  | .ds => "DS"
  | .es => "ES"
  | .fs => "FS"
  | .gs => "GS"

/-- A line of the backtrace. -/
def call : Dump.Line → Option Dump.Line
  | .frame i fn_repr file line => some (.frame i fn_repr file line)
  | .frame_address i rip => some (.frame_address i rip)
  | _ => none

/-- The names that the report of a crash needs are printed: of the function, of the open calls, and of
what the instructions in the window refer to. -/
structure ReportNamed (m : Dump.Machine) (calls : List Word) (address : Word)
    (window : List (Word × Dump.ZydisDisassembledInstruction)) : Prop where
  function : Named m .function address
  callers : ∀ c ∈ innermost calls, FrameNamed m c.2 c.1
  targets : ∀ p ∈ window, TargetNamed m p.1 p.2

theorem reportNamed_memory (m : Dump.Machine) (mem : Word → Word) (calls : List Word) (address : Word)
    (window : List (Word × Dump.ZydisDisassembledInstruction)) :
    ReportNamed { m with memory := mem } calls address window ↔ ReportNamed m calls address window :=
  ⟨fun h => ⟨h.function, h.callers, h.targets⟩, fun h => ⟨h.function, h.callers, h.targets⟩⟩

/-- What a reader of a report takes from it: the vector, the registers but for `rsp`, the error code,
the cause of a page fault, the function, the open calls, and the instruction that is marked. -/
structure Tells (m : Dump.Machine) (calls : List Word) (e : Exception) (entry : symbol_entry) (exact : Bool)
    (instructions : List Dump.ZydisDisassembledInstruction) (k : Nat) (r : Report) : Prop where
  vector : .value "Interrupt" (BitVec.ofNat 64 e.stub.num) ∈ r.items
  message : ∃ message, messages[e.stub.num]? = some message ∧ .text "" message ∈ r.items
  registers : ∀ q, q ≠ .rsp → .value (label q) (e.regs.regs q) ∈ r.items
  special : ∀ q, .value (specialLabel q) (e.special q) ∈ r.items
  error_code : ∀ code, e.error = some code → code ≠ 0 → .value "Error Code" code ∈ r.items
  page_fault : ∀ code, e.stub = .ISR_ERR 14 → e.error = some code →
    .value "Faulting Address" (e.special .cr2) ∈ r.items ∧
    .text "Cause" (if code.getLsbD 0 then "Page protection violation" else "Page not present") ∈ r.items ∧
    .text "Access" (if code.getLsbD 1 then "Write operation" else "Read operation") ∈ r.items ∧
    .text "Mode" (if code.getLsbD 2 then "User mode access" else "Supervisor mode access") ∈ r.items
  rip : .value "RIP" (find_rip m e.interrupt.rip) ∈ r.items
  function : ∃ fn_repr, (m.search_repr .function (find_rip m e.interrupt.rip) ⟨some entry, exact⟩).Ends fn_repr ∧
    .function fn_repr ∈ r.lines
  calls : Traces m calls (r.lines.filterMap call)
  marked : (r.lines.filterMap Dump.Line.marked).map some = [(texts entry instructions)[k]?]

/-! ## The memory behind a stub -/

/-- An instruction pushes a word, or leaves the stack as it is. -/
def pushes : Instr → Option Nat
  | .pushq _ | .pushi _ => some 1
  | .lea _ | .mov_special _ | .mov_slot _ | .mov_rsp_rdi | .cli => some 0
  | .popq _ | .add_rsp _ | .call => none

theorem exec_pushed (special : Special → Word) (m : Regs) (i : Instr) (n : Nat) (h : pushes i = some n) :
    Pushed .rsp n m (exec special id m i) := by
  have hset : ∀ r v, r ≠ Reg.rsp → Pushed .rsp 0 m (setReg m r v) :=
    fun r v hr => Pushed.none (Function.update_of_ne hr.symm _ _) rfl
  cases i with
  | pushq r => exact Option.some.inj h ▸ push_pushed m _
  | pushi v => exact Option.some.inj h ▸ push_pushed m _
  | lea behind => exact Option.some.inj h ▸ hset _ _ (by decide)
  | mov_special s => exact Option.some.inj h ▸ hset _ _ (by decide)
  | mov_slot k => exact Option.some.inj h ▸ hset _ _ (by decide)
  | mov_rsp_rdi => exact Option.some.inj h ▸ hset _ _ (by decide)
  | cli => exact Option.some.inj h ▸ Pushed.none rfl rfl
  | popq r => cases h
  | add_rsp k => cases h
  | call => cases h

theorem execAll_pushed (special : Special → Word) (code : List Instr) (m : Regs)
    (h : code.all fun i => (pushes i).isSome) :
    Pushed .rsp (code.filterMap pushes).sum m (execAll special id m code) := by
  induction code generalizing m with
  | nil => exact Pushed.none rfl rfl
  | cons i code ih =>
    obtain ⟨hi, hrest⟩ := (Bool.and_eq_true _ _).mp (List.all_cons ▸ h)
    obtain ⟨n, hn⟩ := Option.isSome_iff_exists.mp hi
    rw [List.filterMap_cons_some hn, List.sum_cons]
    exact (exec_pushed special m i n hn).trans (ih _ hrest)

/-- The stub and the processor write 37 words at most, on the stack of the exception. -/
theorem entered_pushed (e : Exception) (h : e.stub.IsException) :
    ∃ n ≤ 37, Pushed .rsp n (setReg e.regs .rsp e.interrupt.top) e.entered := by
  have hpushed := pushAll_pushed Reg.rsp (e.interrupt.pushed (e.regs.regs .rsp) e.error).reverse
    (setReg e.regs .rsp e.interrupt.top)
  have hlen := pushed_length e.interrupt (e.regs.regs .rsp) e.error
  rw [List.length_reverse] at hpushed
  have hentry : (e.stub.entry e.behind).all (fun i => (pushes i).isSome) ∧
      ((e.stub.entry e.behind).filterMap pushes).sum ≤ 31 := by
    cases hstub : e.stub with
    | IRQ num irq => exact (hstub ▸ h).elim
    | ISR_NOERR num =>
      exact ⟨rfl, by simp [Stub.entry, pusha, pusha_first, pusha_second, pusha_special, save_ra, pushes]⟩
    | ISR_ERR num =>
      exact ⟨rfl, by simp [Stub.entry, pusha, pusha_first, pusha_second, pusha_special, save_ra, pushes]⟩
  exact ⟨_, by omega, hpushed.trans (execAll_pushed e.special (e.stub.entry e.behind) _ hentry.1)⟩

theorem entered_outside (e : Exception) (t : Thread) (h : Strikes e t) (a : Word) (ha : ¬ e.OnStack a) :
    e.entered.mem a = t.m.mem a := by
  obtain ⟨n, hn, hpushed⟩ := entered_pushed e h.exception
  have hroom := h.room
  have htop : (setReg e.regs .rsp e.interrupt.top).regs .rsp = e.interrupt.top := by simp [setReg]
  rw [← h.mem, hpushed.mem a]
  · rfl
  · intro i hi hin heq
    apply ha
    rw [heq, htop]
    unfold Exception.OnStack Frames.IST_STACK_SIZE down at *
    constructor <;> bv_omega

/-! ## The frame -/

theorem view_of_matches {x : Interrupt} {error : Option Word} {stub : Stub} (hstub : stub.IsException)
    (h : stub.Matches error) : stub.view x error = (7, error.getD 0, x.rip) := by
  cases stub with
  | IRQ num irq => exact hstub.elim
  | ISR_NOERR num =>
    obtain rfl : error = none := h
    rfl
  | ISR_ERR num =>
    cases error with
    | none => exact absurd rfl h
    | some code => rfl

/-- The frame has the registers, but for the stack pointer. -/
theorem frame_eq (e : Exception) (t : Thread) (h : Strikes e t) :
    e.frame =
      { return_address := e.interrupt.rip
        gs := e.special .gs, fs := e.special .fs, es := e.special .es, ds := e.special .ds
        cs := e.special .cs, ss := e.special .ss
        cr0 := e.special .cr0, cr2 := e.special .cr2, cr3 := e.special .cr3, cr4 := e.special .cr4
        cr8 := e.special .cr8
        rip := e.behind
        rax := e.regs.regs .rax, rbx := e.regs.regs .rbx, rcx := e.regs.regs .rcx, rdx := e.regs.regs .rdx
        rsi := e.regs.regs .rsi, rdi := e.regs.regs .rdi, rsp := down e.interrupt.top 16
        rbp := e.regs.regs .rbp
        r8 := e.regs.regs .r8, r9 := e.regs.regs .r9, r10 := e.regs.regs .r10, r11 := e.regs.regs .r11
        r12 := e.regs.regs .r12, r13 := e.regs.regs .r13, r14 := e.regs.regs .r14, r15 := e.regs.regs .r15
        int_num := BitVec.ofNat 64 e.stub.num, error_code := e.error.getD 0 } := by
  obtain ⟨hat, hrdi⟩ := entered_at e.special e.regs e.interrupt e.error e.behind e.stub h.exception
  rw [view_of_matches h.exception h.error] at hat hrdi
  unfold Exception.frame crashFrame
  rw [hrdi, isrFrame_eq _ _ _ _ _ _ _ _ _ hat, down_down]

theorem num_lt : ∀ stub ∈ isr_s, stub.num < 256 := by decide

theorem int_num_toNat (e : Exception) (t : Thread) (h : Strikes e t) : e.frame.int_num.toNat = e.stub.num := by
  have hlt := num_lt e.stub h.stub
  rw [frame_eq e t h, BitVec.toNat_ofNat]
  omega

theorem bit_eq (code : Word) (n : Nat) (hn : n < 7) :
    decide (((code &&& 0x7F) >>> n) &&& 0x1 ≠ 0) = code.getLsbD n := by
  have hmask : (0x7F : Word).getLsbD n = true := by
    interval_cases n <;> rfl
  have hbit : ((code &&& 0x7F) >>> n).getLsbD 0 = code.getLsbD n := by
    rw [BitVec.getLsbD_ushiftRight, Nat.add_zero, BitVec.getLsbD_and, hmask, Bool.and_true]
  rw [show ((0x1 : Word)) = 1#64 from rfl, BitVec.and_one_eq_setWidth_ofBool_getLsbD, hbit]
  cases code.getLsbD n <;> decide

/-! ## The report -/

theorem errors_eq (info : IsrFrame) : errors info = handle_err_code info := by
  unfold errors handle_err_code
  grind

theorem isr_handler_ends (m : Dump.Machine) (info : IsrFrame) (hnum : info.int_num ≠ 0xFF) (r : Report) :
    (isr_handler m info).Ends (some r) ↔
      ∃ items d, dump_registers (with_rip m info) = some items ∧
        (dump_at_addr m (find_rip m info.return_address) info.rbp
          (disas_addr info.return_address (find_rip m info.return_address))).Ends d ∧
        r = ⟨items ++ errors (with_rip m info), d.2⟩ := by
  unfold isr_handler
  rw [if_neg hnum]
  simp only [ends_bind, ends_lift, ends_pure, Option.some.injEq]
  constructor
  · rintro ⟨items, hitems, d, hd, rfl⟩
    exact ⟨items, d, hitems, hd, rfl⟩
  · rintro ⟨items, d, hitems, hd, rfl⟩
    exact ⟨items, hitems, d, hd, rfl⟩

theorem dump_registers_isSome (info : IsrFrame) : (dump_registers info).isSome ↔ info.int_num.toNat < 22 := by
  have hlength : messages.length = 22 := rfl
  unfold dump_registers
  rcases Nat.lt_or_ge info.int_num.toNat 22 with hlt | hge
  · simp [List.getElem?_eq_getElem (hlength ▸ hlt), hlt]
  · simp [List.getElem?_eq_none (hlength ▸ hge), Nat.not_lt.mpr hge]

theorem report_ends_iff (m : Dump.Machine) (info : IsrFrame) (hnum : info.int_num ≠ 0xFF) {entry : symbol_entry}
    {exact : Bool} (hresolve : resolve_address m.symbol_table (find_rip m info.return_address) = ⟨some entry, exact⟩) :
    (∃ r, (isr_handler m info).Ends (some r)) ↔
      info.int_num.toNat < 22 ∧ ∃ lines, (dump_at_addr m (find_rip m info.return_address) info.rbp
        (disas_addr info.return_address (find_rip m info.return_address))).Ends (0, lines) := by
  have hmessage : (dump_registers (with_rip m info)).isSome ↔ info.int_num.toNat < 22 := dump_registers_isSome _
  rw [← hmessage]
  constructor
  · rintro ⟨r, hr⟩
    obtain ⟨items, d, hitems, hd, -⟩ := (isr_handler_ends m info hnum r).mp hr
    exact ⟨Option.isSome_of_mem hitems, d.2, Dump.dump_at_addr_result hresolve _ _ hd ▸ hd⟩
  · rintro ⟨hitems, lines, hlines⟩
    obtain ⟨items, hitems⟩ := Option.isSome_iff_exists.mp hitems
    exact ⟨_, (isr_handler_ends m info hnum _).mpr ⟨items, _, hitems, hlines, rfl⟩⟩

theorem items_tell (m : Dump.Machine) (e : Exception) (t : Thread) (h : Strikes e t) (items : List Item)
    (hitems : dump_registers (with_rip m e.frame) = some items) :
    ∃ message, messages[e.stub.num]? = some message ∧
      items = [.value "Interrupt" (BitVec.ofNat 64 e.stub.num), .text "" message, .spaces (54 - message.length)] ++
        (if e.error.getD 0 ≠ 0 then [.value "Error Code" (e.error.getD 0)] else []) ++
        registers (with_rip m e.frame) := by
  obtain ⟨message, hmessage, heq⟩ := Option.bind_eq_some_iff.mp hitems
  refine ⟨message, ?_, ?_⟩
  · rw [← int_num_toNat e t h]
    exact hmessage
  · rw [← Option.some.inj heq, frame_eq e t h]
    rfl

theorem registers_tell (m : Dump.Machine) (e : Exception) (t : Thread) (h : Strikes e t) (q : Reg) (hq : q ≠ .rsp) :
    .value (label q) (e.regs.regs q) ∈ registers (with_rip m e.frame) := by
  rw [with_rip, frame_eq e t h]
  cases q <;> first | exact absurd rfl hq | simp [registers, label]

theorem special_tell (m : Dump.Machine) (e : Exception) (t : Thread) (h : Strikes e t) (q : Special) :
    .value (specialLabel q) (e.special q) ∈ registers (with_rip m e.frame) := by
  rw [with_rip, frame_eq e t h]
  cases q <;> simp [registers, specialLabel]

theorem rip_tells (m : Dump.Machine) (e : Exception) (t : Thread) (h : Strikes e t) :
    .value "RIP" (find_rip m e.interrupt.rip) ∈ registers (with_rip m e.frame) := by
  rw [with_rip, frame_eq e t h]
  simp [registers]

theorem call_of_traces {m : Dump.Machine} {calls : List Word} {lines : List Dump.Line} (h : Traces m calls lines) :
    lines.filterMap call = lines := by
  obtain ⟨shown, hshown, rfl⟩ := h
  have hcall : ∀ l ∈ shown.reduceOption, call l = some l := by
    intro l hl
    obtain ⟨c, -, hc⟩ := endsAll_mem hshown (some l) (List.reduceOption_mem_iff.mp hl)
    rcases Dump.frame_line_shows hc with ⟨_, _, _, rfl⟩ | rfl <;> rfl
  rw [List.filterMap_congr hcall, List.filterMap_some]

theorem call_of_shown {m : Dump.Machine} {target : Word} {ps : List (Word × Dump.ZydisDisassembledInstruction)}
    {lines : List Dump.Line} (h : Dump.ShownAs m target ps lines) : lines.filterMap call = [] := by
  rw [List.filterMap_eq_nil_iff]
  intro l hl
  obtain ⟨p, -, hp⟩ := endsAll_mem h l hl
  obtain ⟨_, -, rfl⟩ := (Dump.instruction_line_ends _ _ _ _).mp hp
  rfl

section

variable {m : Dump.Machine} {entry : symbol_entry} {instructions : List Dump.ZydisDisassembledInstruction} {k : Nat}
  {address rbp disas_address : Word} {exact : Bool} {fs : List (Word × Word)}

theorem frame_of_chain (hchain : Chain m.memory rbp fs) (hpos : ∀ f ∈ fs, f.1 ≠ 0) (hfs : fs ≠ []) :
    Dump.frame_of m rbp = rbp := by
  refine if_neg ?_
  cases fs with
  | nil => exact absurd rfl hfs
  | cons f fs => exact hchain.1 ▸ hpos f List.mem_cons_self

theorem dump_ends_iff (h : Tiled m entry instructions)
    (hresolve : resolve_address m.symbol_table address = ⟨some entry, exact⟩)
    (hk : Contains entry instructions k (target_of address disas_address))
    (hreached : Dump.Reached entry instructions k (target_of address disas_address))
    (hchain : Chain m.memory rbp fs) (hpos : ∀ f ∈ fs, f.1 ≠ 0) (hfs : fs ≠ []) :
    (∃ lines, (dump_at_addr m address rbp disas_address).Ends (0, lines)) ↔
      ReportNamed m (fs.map Prod.snd) address (window entry instructions k (target_of address disas_address)) := by
  have hfew : 96 < (target_of address disas_address).toNat - entry.address.toNat →
      Dump.recorded entry instructions k (target_of address disas_address) < 2 ^ 31 := by
    intro hfar
    unfold Dump.Reached at hreached
    rwa [if_neg (Nat.not_le.mpr hfar)] at hreached
  rw [Dump.dump_ends_iff h hresolve rbp disas_address hk, and_iff_right hfew, frame_of_chain hchain hpos hfs]
  have hcalls := Dump.return_addresses_chain m 16 rbp fs hchain hpos
  constructor
  · intro hnamed
    refine ⟨hnamed.function, ?_, hnamed.targets⟩
    unfold innermost
    rw [← hcalls]
    exact hnamed.frames
  · intro hnamed
    refine ⟨hnamed.function, ?_, hnamed.targets⟩
    rw [hcalls]
    exact hnamed.callers

theorem dump_tells (h : Tiled m entry instructions)
    (hresolve : resolve_address m.symbol_table address = ⟨some entry, exact⟩)
    (hk : Contains entry instructions k (target_of address disas_address))
    (hreached : Dump.Reached entry instructions k (target_of address disas_address))
    (hend : entry.address.toNat + Dump.offset_of instructions (k + 1) < 2 ^ 64)
    (hchain : Chain m.memory rbp fs) (hpos : ∀ f ∈ fs, f.1 ≠ 0) (hfs : fs ≠ []) (lines : List Dump.Line)
    (hlines : (dump_at_addr m address rbp disas_address).Ends (0, lines)) :
    (∃ fn_repr, (m.search_repr .function address ⟨some entry, exact⟩).Ends fn_repr ∧ .function fn_repr ∈ lines) ∧
      Traces m (fs.map Prod.snd) (lines.filterMap call) ∧
      (lines.filterMap Dump.Line.marked).map some = [(texts entry instructions)[k]?] := by
  have hnamed := ((Dump.dump_ends_iff h hresolve rbp disas_address hk).mp ⟨lines, hlines⟩).2
  obtain ⟨lines', hlines', hmarked⟩ :=
    (Dump.marks_iff h hresolve rbp disas_address hk).mpr ⟨hreached, hend, hnamed⟩
  obtain rfl := (Prod.mk.inj (hlines.unique hlines')).2
  obtain ⟨fn_repr, frames, shown, hfn, hframes, hshown, rfl⟩ :=
    (Dump.dump_at_addr_ends hresolve rbp disas_address lines).mp hlines
  rw [frame_of_chain hchain hpos hfs, Dump.backtrace_chain m rbp fs hchain hpos] at hframes
  rw [Dump.disassembly_ends_iff h hk] at hshown
  refine ⟨⟨fn_repr, hfn, ?_⟩, ?_, hmarked⟩
  · simp [Dump.dumped]
  · have hsource : (Dump.source_line m address).filterMap call = [] := by
      unfold Dump.source_line
      cases m.addr2line_lookup address <;> rfl
    unfold Dump.dumped
    simp only [List.filterMap_append, hsource, call_of_traces hframes, call_of_shown hshown.2]
    simpa [List.filterMap_cons, call] using hframes

end

theorem page_fault_tells (info : IsrFrame) (hnum : info.int_num = 0x0E) :
    .value "Faulting Address" info.cr2 ∈ handle_err_code info ∧
    .text "Cause" (if info.error_code.getLsbD 0 then "Page protection violation" else "Page not present") ∈
      handle_err_code info ∧
    .text "Access" (if info.error_code.getLsbD 1 then "Write operation" else "Read operation") ∈
      handle_err_code info ∧
    .text "Mode" (if info.error_code.getLsbD 2 then "User mode access" else "Supervisor mode access") ∈
      handle_err_code info := by
  have hbit := bit_eq info.error_code
  unfold handle_err_code
  rw [hnum, if_neg (by decide), if_neg (by decide), if_neg (by decide), if_neg (by decide), if_pos rfl]
  unfold handle_page_fault
  simp only [hbit 0 (by decide), hbit 1 (by decide), hbit 2 (by decide)]
  simp

theorem Strikes.same {e : Exception} {t : Thread} {low : Nat} {fs : List (Word × Word)} (h : Strikes e t)
    (hopen : Open low t fs) {mem : Word → Word} (hmem : ∀ a, ¬ e.OnStack a → mem a = e.entered.mem a)
    (f : Word × Word) (hf : f ∈ fs) : mem f.1 = t.m.mem f.1 ∧ mem (f.1 + 8) = t.m.mem (f.1 + 8) := by
  have hend := (hopen.above f hf).2
  have hapart := h.apart f.1 (hopen.mem_frames f hf)
  have hsecond : (f.1 + 8).toNat = f.1.toNat + 8 := by bv_omega
  have hoff : ¬ e.OnStack f.1 ∧ ¬ e.OnStack (f.1 + 8) := by
    unfold Exception.OnStack
    omega
  exact ⟨(hmem _ hoff.1).trans (entered_outside e t h _ hoff.1),
    (hmem _ hoff.2).trans (entered_outside e t h _ hoff.2)⟩

/-- Wherever in a run an exception comes, there is a report exactly if the vector is below 22 and all
its names are printed. It says where and in which calls the exception came. -/
theorem run_crash_report (m : Dump.Machine) (low : Nat) (t t' : Thread) (events : List Dump.Event)
    (hlow : 0 < low) (ht : Idle low t) (hlegal : Run.Along Dump.step (Dump.Legal low) t events)
    (hrun : Run.run Dump.step t events = some t') (hcalls : events.foldl Dump.Event.apply [] ≠ [])
    (e : Exception) (he : Strikes e t') (hspurious : e.stub.num ≠ 0xFF)
    (mem : Word → Word) (hmem : ∀ a, ¬ e.OnStack a → mem a = e.entered.mem a)
    (entry : symbol_entry) (exact : Bool) (instructions : List Dump.ZydisDisassembledInstruction) (k : Nat)
    (htiled : Tiled m entry instructions)
    (hresolve : resolve_address m.symbol_table (find_rip m e.interrupt.rip) = ⟨some entry, exact⟩)
    (hk : Contains entry instructions k
      (target_of (find_rip m e.interrupt.rip) (disas_addr e.interrupt.rip (find_rip m e.interrupt.rip))))
    (hreached : Dump.Reached entry instructions k
      (target_of (find_rip m e.interrupt.rip) (disas_addr e.interrupt.rip (find_rip m e.interrupt.rip))))
    (hend : entry.address.toNat + Dump.offset_of instructions (k + 1) < 2 ^ 64) :
    ((∃ r, (isr_handler { m with memory := mem } e.frame).Ends (some r)) ↔
      e.stub.num < 22 ∧ ReportNamed m (events.foldl Dump.Event.apply []) (find_rip m e.interrupt.rip)
        (window entry instructions k
          (target_of (find_rip m e.interrupt.rip) (disas_addr e.interrupt.rip (find_rip m e.interrupt.rip))))) ∧
    ∀ r, (isr_handler { m with memory := mem } e.frame).Ends (some r) →
      Tells m (events.foldl Dump.Event.apply []) e entry exact instructions k r := by
  obtain ⟨t'', fs, hrun', hopen, hfs⟩ := Dump.run_open low t events ht hlegal
  obtain rfl : t' = t'' := Option.some.inj (hrun.symm.trans hrun')
  have hframe := frame_eq e t' he
  have htoNat := int_num_toNat e t' he
  have hnum : e.frame.int_num ≠ 0xFF := by
    intro heq
    rw [heq] at htoNat
    exact hspurious htoNat.symm
  -- The stub pushes onto another stack, so `rbp` still leads through the frames of the open calls.
  have hchain : Chain mem e.frame.rbp fs := by
    rw [hframe]
    exact he.rbp ▸ hopen.chain.congr (he.same hopen hmem)
  have hra : e.frame.return_address = e.interrupt.rip := by rw [hframe]
  have hpos := hopen.frame_ne_zero hlow
  have hsome : fs ≠ [] := fun hnil => hcalls (by rw [← hfs, hnil]; rfl)
  have htiled' : Tiled { m with memory := mem } entry instructions :=
    ⟨htiled.lengths, htiled.sum_eq, htiled.fits, htiled.size_lt, htiled.decodes, htiled.fails⟩
  have hdump := dump_ends_iff (m := { m with memory := mem }) htiled' hresolve hk hreached hchain hpos hsome
  have hrip : find_rip { m with memory := mem } = find_rip m := rfl
  have hreport := report_ends_iff { m with memory := mem } e.frame hnum (by rw [hra]; exact hresolve)
  have hends := isr_handler_ends { m with memory := mem } e.frame hnum
  rw [hra, hrip] at hends hreport
  rw [← hfs]
  refine ⟨?_, ?_⟩
  · rw [hreport, hdump, reportNamed_memory, htoNat]
  · intro r hr
    obtain ⟨items, d, hitems, hd, rfl⟩ := (hends r).mp hr
    rw [Dump.dump_at_addr_result (m := { m with memory := mem }) hresolve _ _ hd] at hd
    obtain ⟨hfunction, hcall, hmarked⟩ :=
      dump_tells (m := { m with memory := mem }) htiled' hresolve hk hreached hend hchain hpos hsome d.2 hd
    obtain ⟨message, hmessage, rfl⟩ := items_tell _ e t' he items hitems
    have hregisters : ∀ i ∈ registers (with_rip { m with memory := mem } e.frame), ∀ front rear : List Item,
        i ∈ front ++ registers (with_rip { m with memory := mem } e.frame) ++ rear :=
      fun i hi front rear => List.mem_append_left _ (List.mem_append_right _ hi)
    refine ⟨by simp, ⟨message, hmessage, by simp⟩, ?_, ?_, ?_, ?_, ?_, hfunction, hcall, hmarked⟩
    · intro q hq
      exact hregisters _ (registers_tell _ e t' he q hq) _ _
    · intro q
      exact hregisters _ (special_tell _ e t' he q) _ _
    · intro code hcode hne
      have hget : e.error.getD 0 = code := by
        rw [hcode]
        rfl
      rw [hget, if_pos hne]
      simp
    · intro code hstub hcode
      have hpage := page_fault_tells (with_rip { m with memory := mem } e.frame)
        (by rw [with_rip, hframe, hstub]; rfl)
      have hcr2 : (with_rip { m with memory := mem } e.frame).cr2 = e.special .cr2 := by rw [with_rip, hframe]
      have herror : (with_rip { m with memory := mem } e.frame).error_code = code := by
        rw [with_rip, hframe, hcode]
        rfl
      rw [hcr2, herror, ← errors_eq] at hpage
      obtain ⟨hfault, hcause, haccess, hmode⟩ := hpage
      exact ⟨List.mem_append_right _ hfault, List.mem_append_right _ hcause, List.mem_append_right _ haccess,
        List.mem_append_right _ hmode⟩
    · exact hregisters _ (rip_tells { m with memory := mem } e t' he) _ _

/-- The entry of the kernel has called the function at 0x1000. -/
def twoCalls : List Dump.Event := [.call 0xffffffff80001000 0, .call 0x1000 0xffffffff80001234]

def crashed : Thread := twoCalls.foldl Dump.next Dump.idleThread

/-- An invalid opcode in that function, two bytes from its start. -/
def invalidOpcode : Exception where
  regs :=
    ⟨fun r => if r = .rbp then crashed.m.regs .rbp else if r = .rsp then crashed.m.regs .rsp else 0, crashed.m.mem⟩
  special _ := 0
  interrupt := ⟨0x1002, 0x08, 0x202, 0x10, 0x104000⟩
  error := none
  stub := .ISR_NOERR 6
  behind := 0

theorem invalidOpcode_strikes : Strikes invalidOpcode crashed := by
  have htop : invalidOpcode.interrupt.top = 0x104000 := by decide
  have hframes : crashed.frames = [0x8fe0, 0x8ff0] := by decide +kernel
  refine ⟨rfl, rfl, by decide, trivial, rfl, ?_, ?_⟩
  · simp [htop, Frames.IST_STACK_SIZE]
  · simp [htop, hframes, Frames.IST_STACK_SIZE]

theorem run_crash_report_opcode :
    ∃ r, (isr_handler { Dump.nops_machine 8 with memory := invalidOpcode.entered.mem } invalidOpcode.frame).Ends
        (some r) ∧
      .text "" "Invalid opcode" ∈ r.items ∧ r.lines.filterMap call = [.frame_address 0 0xffffffff80001234] := by
  have hlegal : Run.Along Dump.step (Dump.Legal 0x1000) Dump.idleThread twoCalls :=
    Run.along_cons _ _ _ _ (by decide) rfl (Run.along_cons _ _ _ _ (by decide) rfl trivial)
  have hcontains : Contains (Dump.nops_entry 8) (List.replicate 8 Dump.nop) 2 0x1002 := by
    have := Dump.nops_contains 8 2 (by decide) (by decide)
    rwa [Dump.nops_address 8 2 (by decide)] at this
  obtain ⟨hiff, htells⟩ := run_crash_report (Dump.nops_machine 8) 0x1000 Dump.idleThread crashed twoCalls (by decide)
    ⟨rfl, by decide, rfl⟩ hlegal rfl (List.cons_ne_nil _ _) invalidOpcode invalidOpcode_strikes (by decide)
    invalidOpcode.entered.mem (fun _ _ => rfl) (Dump.nops_entry 8) false (List.replicate 8 Dump.nop) 2
    (Dump.nops_tiled 8 (by decide)) rfl hcontains (show (2 : Nat) < 7 by decide)
    (by rw [Dump.offset_of_nops]; decide)
  have hnamed : ReportNamed (Dump.nops_machine 8) (twoCalls.foldl Dump.Event.apply [])
      (find_rip (Dump.nops_machine 8) invalidOpcode.interrupt.rip)
      (window (Dump.nops_entry 8) (List.replicate 8 Dump.nop) 2 0x1002) := by
    have hall := Dump.nops_all_named 8 0 (window (Dump.nops_entry 8) (List.replicate 8 Dump.nop) 2 0x1002)
      fun p hp => Dump.mem_placed_nops (List.mem_of_mem_take hp)
    exact ⟨Dump.nops_named 8 .function 0x1002 false rfl, (fun _ _ _ _ h => nomatch h), hall.targets⟩
  obtain ⟨r, hr⟩ := hiff.mpr ⟨by decide, hnamed⟩
  obtain ⟨message, hmessage, hitem⟩ := (htells r hr).message
  obtain rfl : "Invalid opcode" = message := Option.some.inj hmessage
  exact ⟨r, hr, hitem, Dump.traces_nops (htells r hr).calls⟩

end SlayerOS.Handler
