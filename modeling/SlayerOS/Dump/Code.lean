import SlayerOS.Resolver.Code

/-!
# The crash dump (`dump.cc`)

`dump_at_addr` prints the function of an address, the backtrace, and a few instructions around
the address to disassemble. Zydis and the lookup of source lines are libraries, and what they
answer is an input. So is the memory that the backtrace reads. Every name that is printed comes
from `search_repr`, so the dump ends only where the demangler does.
-/

open SlayerOS.Bytes SlayerOS.Fuel SlayerOS.Fuel.Comp SlayerOS.Text SlayerOS.Resolver SlayerOS.Mangle

namespace SlayerOS.Dump

/-! ## Zydis -/

inductive ZydisMnemonic where
  | CALL
  | LEA
  | JMP
  | MOV
  | other
deriving DecidableEq, Repr

/-- The operands that the dump looks at. A memory operand has its base, the size of its
displacement, and the displacement. -/
inductive ZydisDecodedOperand where
  | immediate (is_relative : Bool) (value : BitVec 64)
  | memory (base_is_rip : Bool) (disp_size : Nat) (disp_value : BitVec 64)
  | other
deriving DecidableEq, Repr

structure ZydisDisassembledInstruction where
  length : BitVec 8
  mnemonic : ZydisMnemonic
  operands : List ZydisDecodedOperand
  text : CString

structure Addr2LineResult where
  address : BitVec 64
  file : CString
  line : Nat

/-- The calls of `search_repr`: for the function, for the line `i` of the backtrace, and for what the
instruction at `runtime_address` refers to. -/
inductive Caller where
  | function
  | frame (i : Nat)
  | target (runtime_address : BitVec 64)

/-- What the dump uses. `ZydisDisassembleIntel` takes the run-time address, the buffer and its
length, and gives `none` where it fails. `addr2line_lookup` gives `none` where nothing is
found. `atoi` and `pointer_text` are for the demangler, and `arrays` is what its arrays hold before a
call. `stack` is what `instruction_addresses` holds before its first write. -/
structure Machine where
  symbol_table : Nat → Option symbol_entry
  atoi : List Byte → BitVec 32
  pointer_text : BitVec 64 → CString
  arrays : Caller → Buf → Mem
  addr2line_lookup : BitVec 64 → Option Addr2LineResult
  ZydisDisassembleIntel : BitVec 64 → BitVec 64 → BitVec 64 → Option ZydisDisassembledInstruction
  memory : BitVec 64 → BitVec 64
  frame_address : BitVec 64
  stack : Nat → BitVec 64

/-- What is printed. An instruction has its address, its text, and the function that it
refers to. -/
inductive Line where
  | border
  | function (fn_repr : List Byte)
  | source (file : CString) (line : Nat)
  | blank
  | backtrace
  | frame (i : Nat) (fn_repr : List Byte) (file : CString) (line : Nat)
  | frame_address (i : Nat) (rip : BitVec 64)
  | instruction (highlighted : Bool) (runtime_address : BitVec 64) (text : CString) (symbol_repr : Option (List Byte))

/-- The start of the kernel. -/
def kernel_base : BitVec 64 := 0xffffffff80000000

/-- What `%s` prints of a name. A write behind an array is a fault, and so is a text without a NUL in
the block of 128 bytes. -/
def Machine.search_repr (m : Machine) (caller : Caller) (address : BitVec 64) (result : search_result) :
    Comp (List Byte) := do
  let (s, str) ← Resolver.search_repr m.atoi m.pointer_text address result (entered (m.arrays caller))
  if Within s then lift (upTo isNul str 128 0) else lift none

/-! ## The backtrace -/

/-- The body of the loop, behind the tests that end it. -/
def frame_line (m : Machine) (i : Nat) (rip : BitVec 64) : Comp (Option Line) :=
  if rip > kernel_base then
    match m.addr2line_lookup (rip - 1) with
    | some a2l_res => do
      let result := resolve_address m.symbol_table a2l_res.address
      let fn_repr ← m.search_repr (.frame i) a2l_res.address result
      pure (some (.frame i fn_repr a2l_res.file a2l_res.line))
    | none => pure (some (.frame_address i rip))
  else pure none

/-- The loop from `i` on, with `n` rounds left. -/
def backtrace_from (m : Machine) : Nat → Nat → BitVec 64 → Comp (List Line)
  | 0, _, _ => pure []
  | n + 1, i, rbp =>
    if rbp = 0 then pure []
    else
      let rip := m.memory (rbp + 8)
      if rip = 0 then pure []
      else do
        let line ← frame_line m i rip
        let rest ← backtrace_from m n (i + 1) (m.memory rbp)
        pure (line.toList ++ rest)

def backtrace (m : Machine) (rbp : BitVec 64) : Comp (List Line) := backtrace_from m 16 0 rbp

/-! ## An instruction -/

/-- The address that an operand refers to. -/
def target_address (next : BitVec 64) : ZydisDecodedOperand → Option (BitVec 64)
  | .immediate true value => some (next + value)
  | .immediate false value => some value
  | .memory base_is_rip disp_size disp_value => if base_is_rip && disp_size > 0 then some (next + disp_value) else none
  | .other => none

/-- Whether the text is one for a symbol: not empty, and not a number. -/
def names_symbol (symbol_repr : List Byte) : Bool :=
  symbol_repr != [] && !(symbol_repr.take 2 == [ch '0', ch 'x'])

/-- The loop over the operands, up to the one with which it breaks. -/
def find_target (next : BitVec 64) : List ZydisDecodedOperand → Option (BitVec 64)
  | [] => none
  | operand :: operands =>
    match target_address next operand with
    | some target => if target ≥ kernel_base then some target else find_target next operands
    | none => find_target next operands

def refers (instruction : ZydisDisassembledInstruction) : Bool :=
  instruction.mnemonic == .CALL || instruction.mnemonic == .LEA || instruction.mnemonic == .JMP ||
    instruction.mnemonic == .MOV

/-- The address that an instruction refers to. -/
def referred (next : BitVec 64) (instruction : ZydisDisassembledInstruction) : Option (BitVec 64) :=
  if refers instruction then find_target next instruction.operands else none

/-- The text behind the arrow, for a symbol that starts at the address. -/
def symbol_text (m : Machine) (runtime_address : BitVec 64) : Option (BitVec 64) → Comp (Option (List Byte))
  | none => pure none
  | some target =>
    let symbol_result := resolve_address m.symbol_table target
    if symbol_result.entry.isSome && symbol_result.exact then do
      let symbol_repr ← m.search_repr (.target runtime_address) target symbol_result
      pure (if names_symbol symbol_repr then some symbol_repr else none)
    else pure none

/-- The line of an instruction. -/
def instruction_line (m : Machine) (disas_address runtime_address : BitVec 64)
    (instruction : ZydisDisassembledInstruction) : Comp Line := do
  let next := runtime_address + instruction.length.setWidth 64
  let highlighted := decide (disas_address ≥ runtime_address) && decide (disas_address < next)
  let symbol_repr ← symbol_text m runtime_address (referred next instruction)
  pure (.instruction highlighted runtime_address instruction.text symbol_repr)

/-! ## The passes -/

/-- `instruction_count++` on an `int`. An overflow is a fault. -/
def increment (instruction_count : Nat) : Option Nat :=
  if instruction_count + 1 < 2 ^ 31 then some (instruction_count + 1) else none

/-- The variables of the three loops. `offset` is the distance of `runtime_address` from the
symbol, and `stopped` is a loop that its `break` has left. -/
structure Cursor where
  runtime_address : BitVec 64
  offset : BitVec 64
  stopped : Bool

def Cursor.start (entry : symbol_entry) : Cursor := ⟨entry.address, 0, false⟩

/-- The disassembly at the cursor. -/
def Cursor.decode (c : Cursor) (m : Machine) (entry : symbol_entry) : Option ZydisDisassembledInstruction :=
  m.ZydisDisassembleIntel c.runtime_address (entry.address + c.offset) (BitVec.ofNat 64 entry.size - c.offset)

def Cursor.advance (c : Cursor) (instruction : ZydisDisassembledInstruction) : Cursor :=
  { c with
    runtime_address := c.runtime_address + instruction.length.setWidth 64
    offset := c.offset + instruction.length.setWidth 64 }

structure Scan where
  cursor : Cursor
  instruction_addresses : Nat → BitVec 64
  instruction_count : Nat

/-- A round of the first loop. -/
def scan_round (m : Machine) (entry : symbol_entry) (disas_address : BitVec 64) (s : Scan) : Comp Scan := do
  let instruction ← lift (s.cursor.decode m entry)
  let instruction_addresses :=
    Function.update s.instruction_addresses (s.instruction_count % 32) s.cursor.runtime_address
  let instruction_count ← lift (increment s.instruction_count)
  if s.cursor.runtime_address ≥ disas_address then
    pure ⟨{ s.cursor with stopped := true }, instruction_addresses, instruction_count⟩
  else pure ⟨s.cursor.advance instruction, instruction_addresses, instruction_count⟩

/-- The first loop notes the addresses of the instructions up to the one to disassemble. -/
def scan (m : Machine) (entry : symbol_entry) (disas_address : BitVec 64) : Comp Scan :=
  while_ (fun s => pure (!s.cursor.stopped && (s.cursor.decode m entry).isSome))
    (scan_round m entry disas_address) ⟨Cursor.start entry, m.stack, 0⟩

def start_address (s : Scan) : BitVec 64 :=
  let start_index := if s.instruction_count ≥ 4 then s.instruction_count - 4 else 0
  s.instruction_addresses (start_index % 32)

/-- The second loop goes from the symbol to the start of the listing. -/
def seek (m : Machine) (entry : symbol_entry) (start_address : BitVec 64) : Comp Cursor :=
  while_ (fun c => pure (decide (c.runtime_address < start_address) && (c.decode m entry).isSome))
    (fun c => do
      let instruction ← lift (c.decode m entry)
      pure (c.advance instruction)) (Cursor.start entry)

structure Listing where
  cursor : Cursor
  i : Nat
  lines : List Line

def instructions_to_show : Nat := 7

/-- A round of the third loop. -/
def list_round (m : Machine) (entry : symbol_entry) (disas_address : BitVec 64) (s : Listing) : Comp Listing := do
  let instruction ← lift (s.cursor.decode m entry)
  let line ← instruction_line m disas_address s.cursor.runtime_address instruction
  let cursor := s.cursor.advance instruction
  if s.i ≥ instructions_to_show - 1 then pure ⟨{ cursor with stopped := true }, s.i, s.lines ++ [line]⟩
  else pure ⟨cursor, s.i + 1, s.lines ++ [line]⟩

/-- The third loop prints the instructions from the cursor on. -/
def list (m : Machine) (entry : symbol_entry) (disas_address : BitVec 64) (c : Cursor) : Comp Listing :=
  while_ (fun s => pure (!s.cursor.stopped && (s.cursor.decode m entry).isSome))
    (list_round m entry disas_address) ⟨c, 0, []⟩

/-! ## The dump -/

def SYMBOL_START_THRESHOLD : BitVec 64 := 96

/-- The instructions of the symbol around an address. -/
def disassembly (m : Machine) (entry : symbol_entry) (disas_address : BitVec 64) : Comp (List Line) := do
  let offset_from_symbol := disas_address - entry.address
  let c ← if offset_from_symbol ≤ SYMBOL_START_THRESHOLD then pure (Cursor.start entry) else do
    let s ← scan m entry disas_address
    seek m entry (start_address s)
  let s ← list m entry disas_address c
  pure s.lines

def source_line (m : Machine) (address : BitVec 64) : List Line :=
  match m.addr2line_lookup address with
  | some a2l_res => [.source a2l_res.file a2l_res.line]
  | none => []

/-- All that is printed. -/
def dumped (m : Machine) (address : BitVec 64) (fn_repr : List Byte) (frames instructions : List Line) : List Line :=
  [.border, .function fn_repr] ++ source_line m address ++ [.blank, .backtrace] ++ frames ++ [.blank] ++ instructions ++
    [.border]

/-- The result, and what is printed. -/
def dump_at_addr (m : Machine) (address rbp disas_address : BitVec 64) : Comp (Int × List Line) :=
  let rbp := if rbp = 0 then m.frame_address else rbp
  let disas_address := if disas_address = 0 then address else disas_address
  let result := resolve_address m.symbol_table address
  match result.entry with
  | none => pure (-1, [])
  | some entry => do
    let fn_repr ← m.search_repr .function address result
    let frames ← backtrace m rbp
    let instructions ← disassembly m entry disas_address
    pure (0, dumped m address fn_repr frames instructions)

end SlayerOS.Dump
