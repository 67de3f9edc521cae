import SlayerOS.Lib.Text

/-!
# The demangler (`mangle.cc`)

Every array is a memory of its own, with what happened to be in it before, and counts how
far it was written. So a write behind an array is seen, and it does not touch the other
arrays. A read of the name behind its NUL is a fault. The cursor `i` into the name and the
sizes are 32-bit. `atoi` is from the library: it takes the text of its argument.
-/

open SlayerOS.Bytes SlayerOS.Fuel SlayerOS.Fuel.Comp SlayerOS.Text

namespace SlayerOS.Mangle

/-- The arrays: the block of `kmalloc`, the locals, and the `buffer` of `search_repr`. -/
inductive Buf where
  | buffer
  | length_str
  | size_str
  | name_str
  | type_i
  | latest_type
  | old_params
  | symbol
deriving DecidableEq, Repr

def Buf.size : Buf → Nat
  | .buffer => 128
  | .length_str => 16
  | .size_str => 16
  | .name_str => 128
  | .type_i => 16
  | .latest_type => 64
  | .old_params => 64 * 16
  | .symbol => 128

structure State where
  mem : Buf → Mem
  /-- One more than the largest index written, for each array. -/
  reach : Buf → Nat
  i : Nat
  j : Nat
  old_params_i : Nat
  latest_size : Nat

/-- No array was written behind its end. -/
def Within (s : State) : Prop := ∀ b, s.reach b ≤ b.size

instance (s : State) : Decidable (Within s) :=
  decidable_of_iff (∀ b ∈ [Buf.buffer, .length_str, .size_str, .name_str, .type_i, .latest_type, .old_params, .symbol],
    s.reach b ≤ b.size) ⟨fun h b => h b (by cases b <;> simp), fun h b _ => h b⟩

/-- `a + b` of two `u32`. -/
def add32 (a b : Nat) : Nat := (a + b) % 2 ^ 32

namespace State

/-- `memcpy(b + k, w, n)`, where `w` is the `n` bytes that were read. -/
def memcpy (s : State) (b : Buf) (k : Nat) (w : List Byte) : State :=
  { s with
    mem := Function.update s.mem b (overlay (s.mem b) k w)
    reach := Function.update s.reach b (if w = [] then s.reach b else max (s.reach b) (k + w.length)) }

/-- `b[k] = c` -/
def put (s : State) (b : Buf) (k : Nat) (c : Byte) : State := s.memcpy b k [c]

/-- `*i = q` -/
def seek (s : State) (q : Nat) : State := { s with i := q }

/-- `*i += n` -/
def advance (s : State) (n : Nat) : State := s.seek (add32 s.i n)

/-- `buffer[(*j)++] = c` -/
def emit (s : State) (c : Byte) : State := { s.put .buffer s.j c with j := add32 s.j 1 }

/-- `latest_type[(*latest_size)++] = c` -/
def keep (s : State) (c : Byte) : State :=
  { s.put .latest_type s.latest_size c with latest_size := add32 s.latest_size 1 }

end State

def is_mangled (name : CString) : Bool := name.read 0 == some (ch '_') && name.read 1 == some (ch 'Z')

def copy_unmangled_name (name : CString) (s : State) : State := s.memcpy .buffer 0 name.chars

def is_digit (c : Byte) : Bool := (ch '0').toNat ≤ c.toNat && c.toNat ≤ (ch '9').toNat

/-- `name[*i]` -/
def peek (name : CString) (s : State) : Comp Byte := lift (name.read s.i)

/-- `while (p(name[*i])) b[k++] = name[(*i)++];` -/
def copy_while (name : CString) (p : Byte → Bool) (b : Buf) : State × Nat → Comp (State × Nat) :=
  while_
    (fun x => do
      let c ← peek name x.1
      pure (p c))
    (fun x => do
      let c ← peek name x.1
      pure ((x.1.put b x.2 c).advance 1, add32 x.2 1))

section Atoi

variable (atoi : List Byte → BitVec 32)

def parse_function_length (name : CString) (b : Buf) (s : State) : Comp (State × Nat) := do
  let (s, length_i) ← copy_while name is_digit b (s, 0)
  let s := s.put b length_i 0
  let str ← scan isNul (s.mem b) 0
  pure (s, (atoi str).toNat)

/-- `length = parse_function_length(name, i, size_str)`, the `memcpy` of that many bytes to
`b + j`, and `j += length`. -/
def unmangle_component (name : CString) (b : Buf) (x : State × Nat) : Comp (State × Nat) := do
  let (s, length) ← parse_function_length atoi name .size_str x.1
  let w ← lift (name.slice s.i length)
  pure ((s.memcpy b x.2 w).advance length, add32 x.2 length)

/-- `b[j++] = ':'; b[j++] = ':';` -/
def put_colons (b : Buf) (x : State × Nat) : State × Nat :=
  ((x.1.put b x.2 (ch ':')).put b (add32 x.2 1) (ch ':'), add32 (add32 x.2 1) 1)

/-- The loop over the components behind the first one. -/
def unmangle_rest (name : CString) (b : Buf) : State × Nat → Comp (State × Nat) :=
  while_
    (fun x => do
      let c ← peek name x.1
      pure (c != ch 'E'))
    (fun x => do
      let x ← unmangle_component atoi name b x
      let c ← peek name x.1
      pure (if c ≠ ch 'E' then put_colons b x else x))

def unmangle_name (name : CString) (b : Buf) (s : State) : Comp State := do
  let c ← peek name s
  if c = ch 'N' then
    let x ← unmangle_component atoi name b (s.advance 1, 0)
    let (s, j) ← unmangle_rest atoi name b (put_colons b x)
    pure ((s.advance 1).put b j 0)
  else
    let (s, j) ← unmangle_component atoi name b (s, 0)
    pure (s.put b j 0)

def copy_function_name (name : CString) (s : State) (length : Nat) : Comp State := do
  let w ← lift (name.slice s.i length)
  let s := (s.memcpy .buffer 0 w).put .buffer length (ch '(')
  pure ({ s with j := add32 length 1 }.advance length)

def append_remaining_name (name : CString) (s : State) : Comp State := do
  let (s, j) ← copy_while name (fun c => c != 0) .buffer (s, s.j)
  pure { s with j := j }

def is_end_of_parameters (c : Byte) : Bool := c == ch 'E' || c == 0 || c == ch ' '

/-- The text is `str` up to its NUL. -/
def append_to_buffer (s : State) (str : List Byte) : State := str.foldl (fun s c => (s.emit c).keep c) s

/-- What ends an old parameter in the table. -/
def old_param_stop (c : Byte) : Bool := c == 0 || c == ch ' '

def handle_repeated_type (name : CString) (s : State) : Comp State := do
  let (s, type_i_size) ← copy_while name (fun c => c != ch '_') .type_i (s.advance 1, 0)
  let s := s.put .type_i type_i_size 0
  let str ← scan isNul (s.mem .type_i) 0
  let rep := if type_i_size > 0 then (atoi str).toNat else 0
  let w ← scan old_param_stop (s.mem .old_params) (16 * rep)
  pure (append_to_buffer s w)

def handle_objstruct (name : CString) (s : State) : Comp State := do
  let s ← unmangle_name atoi name .name_str s
  let w ← scan isNul (s.mem .name_str) 0
  pure (append_to_buffer s w)

def text (cs : List Char) : List Byte := cs.map ch

/-- The cases of `demangle_single_parameter` that append a fixed text. -/
def literals : List (Byte × List Byte) :=
  [(ch 'P', text ['*']),
   (ch 'v', text ['v', 'o', 'i', 'd']),
   (ch 'm', text ['u', '6', '4']),
   (ch 'j', text ['u', '3', '2']),
   (ch 't', text ['u', '1', '6']),
   (ch 'h', text ['u', '8']),
   (ch 'y', text ['u', '6', '4']),
   (ch 'x', text ['l', 'o', 'n', 'g', ' ', 'l', 'o', 'n', 'g']),
   (ch 'i', text ['i', 'n', 't']),
   (ch 'l', text ['l', 'o', 'n', 'g']),
   (ch 'c', text ['c', 'h', 'a', 'r']),
   (ch 'b', text ['b', 'o', 'o', 'l']),
   (ch 'f', text ['f', 'l', 'o', 'a', 't']),
   (ch 'd', text ['d', 'o', 'u', 'b', 'l', 'e']),
   (ch 's', text ['s', 'h', 'o', 'r', 't']),
   (ch 'K', text ['c', 'o', 'n', 's', 't', ' ']),
   (ch 'z', text ['.', '.', '.'])]

def demangle_single_parameter (name : CString) (s : State) : Comp State := do
  let c ← peek name s
  match literals.lookup c with
  | some str => pure (append_to_buffer s str)
  | none =>
    if c = ch 'S' then handle_repeated_type atoi name s
    else if is_digit c = true ∨ c = ch 'N' then handle_objstruct atoi name s
    else pure (append_to_buffer s (name.chars.drop s.i))

def add_separator (name : CString) (s : State) : Comp State := do
  let c ← peek name s
  pure (if is_end_of_parameters c then s else (s.emit (ch ',')).emit (ch ' '))

/-- `old_params[*old_params_i]` becomes the latest type, which is empty behind it. -/
def remember_type (s : State) : State :=
  let latest := (List.range s.latest_size).map (s.mem .latest_type)
  let s := s.put .old_params (16 * s.old_params_i + s.latest_size) 0
  let s := s.memcpy .old_params (16 * s.old_params_i) latest
  { s with old_params_i := add32 s.old_params_i 1, latest_size := 0 }

/-- One round of the loop of `demangle_parameters`, behind the test that ends it. -/
def parameter_round (name : CString) (s : State) : Comp State := do
  let s ← demangle_single_parameter atoi name s
  let c ← peek name s
  if c = ch 'P' ∨ c = ch 'K' then pure (s.advance 1)
  else add_separator name (remember_type (s.advance 1))

/-- The test of `demangle_parameters`: there is another round. -/
def more_parameters (name : CString) (s : State) : Comp Bool := do
  let c ← peek name s
  pure (!is_end_of_parameters c)

def demangle_parameters (name : CString) : State → Comp State :=
  while_ (more_parameters name) (parameter_round atoi name)

/-- `demangle_alloc_symbol` on a mangled name, up to the parameters. -/
def demangle_function_name (name : CString) (s : State) : Comp State := do
  let s := { s with i := 2, j := 0, old_params_i := 0, latest_size := 0 }
  let c ← peek name s
  if c = ch 'N' then
    let s ← unmangle_name atoi name .buffer s
    let w ← scan isNul (s.mem .buffer) 0
    pure ({ s with j := w.length % 2 ^ 32 }.emit (ch '('))
  else
    let (s, length) ← parse_function_length atoi name .length_str s
    copy_function_name name s length

/-- The state holds what the arrays have before the call, and the result what they have
behind it. The returned pointer is `buffer`. -/
def demangle_alloc_symbol (name : CString) (s : State) : Comp State :=
  if !is_mangled name then pure (copy_unmangled_name name s)
  else do
    let s ← demangle_function_name atoi name s
    let s ← demangle_parameters atoi name s
    append_remaining_name name (s.emit (ch ')'))

end Atoi

end SlayerOS.Mangle
