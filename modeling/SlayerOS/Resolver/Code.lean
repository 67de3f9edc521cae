import SlayerOS.Mangle.Code

/-!
# Names for addresses (`meta_resolver.cc`)

`init_symbols` makes the table of the functions of the kernel from the symbols that
`elf_parse` finds, and `resolve_address` looks an address up. `search_repr` puts the name of
a symbol into its array `buffer`, here `symbol`, and gives it to the demangler. `sprintf` is
from the library: its text for `%p` is an input.
-/

open SlayerOS.Bytes SlayerOS.Fuel SlayerOS.Fuel.Comp SlayerOS.Text SlayerOS.Mangle

namespace SlayerOS.Resolver

structure symbol_entry where
  address : BitVec 64
  name : CString
  size : Nat

structure search_result where
  entry : Option symbol_entry
  exact : Bool

/-! ## The table -/

def MAX_SYMBOLS : Nat := 1024

/-- The pointers from `symbol_table` on, also behind its end, and the indices of the writes,
the last one first. A null pointer is `none`. -/
structure Symbols where
  symbol_table : Nat → Option symbol_entry
  written : List Nat

/-- `symbol_table[i] = entry` -/
def Symbols.put (s : Symbols) (i : Nat) (entry : symbol_entry) : Symbols :=
  ⟨Function.update s.symbol_table i (some entry), i :: s.written⟩

/-- The body of the inner loop of `sort_symbol_table`, behind the test for null. -/
def compare_exchange (i j : Nat) (s : Symbols) : Symbols :=
  match s.symbol_table i, s.symbol_table j with
  | some a, some b => if b.address < a.address then (s.put i b).put j a else s
  | _, _ => s

/-- The inner loop from `j` on, with `n` rounds left. -/
def sort_from (i : Nat) : Nat → Nat → Symbols → Symbols
  | 0, _, s => s
  | n + 1, j, s => if s.symbol_table j = none then s else sort_from i n (j + 1) (compare_exchange i j s)

/-- The outer loop from `i` on, with `n` rounds left. -/
def sort_rows : Nat → Nat → Symbols → Symbols
  | 0, _, s => s
  | n + 1, i, s =>
    if s.symbol_table i = none then s
    else sort_rows n (i + 1) (sort_from i (MAX_SYMBOLS - (i + 1)) (i + 1) s)

def sort_symbol_table (s : Symbols) : Symbols := sort_rows MAX_SYMBOLS 0 s

/-- The loop of `resolve_address` from `i` on, with `n` rounds left. -/
def resolve_from (symbol_table : Nat → Option symbol_entry) (address : BitVec 64) :
    Nat → Nat → search_result → search_result
  | 0, _, r => r
  | n + 1, i, r =>
    match symbol_table i with
    | none => r
    | some e =>
      if e.address = address then ⟨some e, true⟩
      else if e.address > address then r
      else resolve_from symbol_table address n (i + 1) ⟨some e, r.exact⟩

def resolve_address (symbol_table : Nat → Option symbol_entry) (address : BitVec 64) : search_result :=
  let r := resolve_from symbol_table address MAX_SYMBOLS 0 ⟨none, false⟩
  if r.entry.isNone then ⟨none, false⟩ else r

/-! ## `init_symbols` -/

structure elf_sym where
  st_name : Nat
  st_info : BitVec 8
  st_value : BitVec 64
  st_size : Nat

/-- What `elf_parse` delivers. -/
structure elf_desc where
  symtab : Nat → elf_sym
  strtab : Nat → CString
  sh_size : Nat
  sh_entsize : Nat
  sh_entsize_pos : 0 < sh_entsize

def ELF64_ST_TYPE (info : BitVec 8) : BitVec 8 := info &&& 0xf

def STT_FUNC : BitVec 8 := 2

/-- The symbols that the loop passes over. -/
def skipped (sym : elf_sym) : Bool :=
  sym.st_name == 0 || sym.st_info == 0 || ELF64_ST_TYPE sym.st_info != STT_FUNC

def elf_desc.entry (d : elf_desc) (sym : elf_sym) : symbol_entry := ⟨sym.st_value, d.strtab sym.st_name, sym.st_size⟩

/-- The variables of the loop. -/
structure Copy where
  i : Nat
  table_i : Nat
  symbols : Symbols

/-- One round of the loop. `kmalloc` gives the memory of the entry. -/
def copy_symbol (kernel_elf_desc : elf_desc) (c : Copy) : Copy :=
  let sym := kernel_elf_desc.symtab c.i
  if skipped sym then { c with i := add32 c.i 1 }
  else ⟨add32 c.i 1, add32 c.table_i 1, c.symbols.put c.table_i (kernel_elf_desc.entry sym)⟩

def init_symbols (kernel_elf_desc : elf_desc) (s : Symbols) : Comp Symbols := do
  let c ← while_ (fun c => pure (decide (c.i < kernel_elf_desc.sh_size / kernel_elf_desc.sh_entsize)))
    (fun c => pure (copy_symbol kernel_elf_desc c)) ⟨0, 0, s⟩
  pure (sort_symbol_table c.symbols)

/-! ## Names -/

def failed_to_resolve : CString :=
  ⟨text ['F', 'A', 'I', 'L', 'E', 'D', ' ', 'T', 'O', ' ', 'R', 'E', 'S', 'O', 'L', 'V', 'E'], by decide⟩

/-- The text between the name and the offset in `"%s + %p"`. -/
def plus : CString := ⟨text [' ', '+', ' '], by decide⟩

/-- The arrays as the call finds them. -/
def entered (prior : Buf → Mem) : State :=
  { mem := prior, reach := fun _ => 0, i := 0, j := 0, old_params_i := 0, latest_size := 0 }

/-- The state after the call, and the memory at the returned pointer. -/
def search_repr (atoi : List Byte → BitVec 32) (pointer_text : BitVec 64 → CString) (address : BitVec 64)
    (result : search_result) (s : State) : Comp (State × Mem) :=
  match result.entry with
  | none => pure (s, overlay (fun _ => 0) 0 (failed_to_resolve.chars ++ [0]))
  | some entry => do
    if !result.exact then
      let offset := address - entry.address
      let str := (entry.name.append plus).append (pointer_text offset)
      let s ← demangle_alloc_symbol atoi str (s.memcpy .symbol 0 (str.chars ++ [0]))
      pure (s, s.mem .buffer)
    else
      let name_len := entry.name.chars.length % 2 ^ 32
      let str := entry.name.take name_len
      let s ← demangle_alloc_symbol atoi str ((s.memcpy .symbol 0 str.chars).put .symbol name_len 0)
      pure (s, s.mem .buffer)

end SlayerOS.Resolver
