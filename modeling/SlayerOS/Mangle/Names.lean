import SlayerOS.Mangle.Decimal
import SlayerOS.Mangle.Arrays
import SlayerOS.Mangle.Proofs

/-!
# Mangled functions

A function has a name and parameters. `mangled` is how its symbol spells them, and `text`
is how a reader wants to see them.
-/

open SlayerOS.Bytes SlayerOS.Fuel SlayerOS.Fuel.Comp SlayerOS.Text

namespace SlayerOS.Mangle

/-- An identifier, whose length an `int` holds. -/
structure Identifier where
  chars : List Byte
  ne_nil : chars ≠ []
  no_nul : (0 : Byte) ∉ chars
  first : ∀ c, chars.head? = some c → is_digit c = false
  short : chars.length < 2 ^ 31

def Identifier.mangled (x : Identifier) : List Byte := decimal x.chars.length ++ x.chars

/-- The name of a function or a class. -/
inductive QName where
  | one (x : Identifier)
  | nested (x : Identifier) (xs : List Identifier)

def QName.mangled : QName → List Byte
  | .one x => x.mangled
  | .nested x xs => ch 'N' :: (x.mangled ++ (xs.flatMap Identifier.mangled ++ [ch 'E']))

/-- The identifiers with colons between them. -/
def QName.text : QName → List Byte
  | .one x => x.chars
  | .nested x xs => colons.intercalate (x.chars :: xs.map Identifier.chars)

/-- The prefixes of a type, a pointer and `const`. -/
inductive Qualifier where
  | P
  | K
deriving DecidableEq

def Qualifier.code : Qualifier → Byte
  | .P => ch 'P'
  | .K => ch 'K'

def Qualifier.text : Qualifier → List Byte
  | .P => Mangle.text ['*']
  | .K => Mangle.text ['c', 'o', 'n', 's', 't', ' ']

/-- The builtin types, by their codes. -/
inductive Builtin where
  | v | m | j | t | h | y | x | i | l | c | b | f | d | s | z
deriving DecidableEq

def Builtin.code : Builtin → Byte
  | .v => ch 'v'
  | .m => ch 'm'
  | .j => ch 'j'
  | .t => ch 't'
  | .h => ch 'h'
  | .y => ch 'y'
  | .x => ch 'x'
  | .i => ch 'i'
  | .l => ch 'l'
  | .c => ch 'c'
  | .b => ch 'b'
  | .f => ch 'f'
  | .d => ch 'd'
  | .s => ch 's'
  | .z => ch 'z'

def Builtin.text : Builtin → List Byte
  | .v => Mangle.text ['v', 'o', 'i', 'd']
  | .m => Mangle.text ['u', '6', '4']
  | .j => Mangle.text ['u', '3', '2']
  | .t => Mangle.text ['u', '1', '6']
  | .h => Mangle.text ['u', '8']
  | .y => Mangle.text ['u', '6', '4']
  | .x => Mangle.text ['l', 'o', 'n', 'g', ' ', 'l', 'o', 'n', 'g']
  | .i => Mangle.text ['i', 'n', 't']
  | .l => Mangle.text ['l', 'o', 'n', 'g']
  | .c => Mangle.text ['c', 'h', 'a', 'r']
  | .b => Mangle.text ['b', 'o', 'o', 'l']
  | .f => Mangle.text ['f', 'l', 'o', 'a', 't']
  | .d => Mangle.text ['d', 'o', 'u', 'b', 'l', 'e']
  | .s => Mangle.text ['s', 'h', 'o', 'r', 't']
  | .z => Mangle.text ['.', '.', '.']

inductive Base where
  | builtin (k : Builtin)
  | named (n : QName)

def Base.mangled : Base → List Byte
  | .builtin k => [k.code]
  | .named n => n.mangled

def Base.text : Base → List Byte
  | .builtin k => k.text
  | .named n => n.text

structure Param where
  qualifiers : List Qualifier
  base : Base

def Param.mangled (p : Param) : List Byte := p.qualifiers.map Qualifier.code ++ p.base.mangled

def Param.text (p : Param) : List Byte := p.qualifiers.flatMap Qualifier.text ++ p.base.text

theorem Param.mangled_of_base (p : Param) (b : Base) (h : p.base = b) :
    p.mangled = p.qualifiers.map Qualifier.code ++ b.mangled := by
  unfold Param.mangled
  rw [h]

theorem Param.text_of_base (p : Param) (b : Base) (h : p.base = b) :
    p.text = p.qualifiers.flatMap Qualifier.text ++ b.text := by
  unfold Param.text
  rw [h]

/-- The parameter is of a builtin type, with any prefixes. -/
def Param.IsBuiltin (p : Param) : Prop := ∃ k, p.base = .builtin k

/-- The arrays full of zeros. -/
def zeroed : State :=
  { mem := fun _ _ => 0, reach := fun _ => 0, i := 0, j := 0, old_params_i := 0, latest_size := 0 }

/-! ## No NUL -/

theorem decimal_no_nul (n : Nat) : (0 : Byte) ∉ decimal n := digits_no_nul (decimal_isDigit n)

theorem Identifier.mangled_no_nul (x : Identifier) : (0 : Byte) ∉ x.mangled :=
  fun h => (List.mem_append.mp h).elim (decimal_no_nul _) x.no_nul

theorem QName.mangled_no_nul (n : QName) : (0 : Byte) ∉ n.mangled := by
  cases n with
  | one x => exact x.mangled_no_nul
  | nested x xs =>
    intro h
    rcases List.mem_cons.mp h with h | h
    · exact absurd h (by decide)
    · rcases List.mem_append.mp h with h | h
      · exact x.mangled_no_nul h
      · rcases List.mem_append.mp h with h | h
        · obtain ⟨y, _, hy⟩ := List.mem_flatMap.mp h
          exact y.mangled_no_nul hy
        · exact absurd h (by decide)

theorem Param.mangled_no_nul (p : Param) : (0 : Byte) ∉ p.mangled := by
  intro h
  rcases List.mem_append.mp h with h | h
  · obtain ⟨q, _, hq⟩ := List.mem_map.mp h
    cases q with
    | P => exact absurd hq (by decide)
    | K => exact absurd hq (by decide)
  · cases hb : p.base with
    | builtin k =>
      rw [hb] at h
      have hc := List.mem_singleton.mp h
      cases k with
      | _ => exact absurd hc (by decide)
    | named n =>
      rw [hb] at h
      exact n.mangled_no_nul h

/-- The symbol of the function with the name `fn` and the parameters `ps`, with a text
without a NUL behind it. -/
def symbolOf (fn : QName) (ps : List Param) (suffix : CString) : CString where
  chars := ch '_' :: ch 'Z' :: (fn.mangled ++ (ps.flatMap Param.mangled ++ suffix.chars))
  no_nul := by
    intro h
    rcases List.mem_cons.mp h with h | h
    · exact absurd h (by decide)
    · rcases List.mem_cons.mp h with h | h
      · exact absurd h (by decide)
      · rcases List.mem_append.mp h with h | h
        · exact fn.mangled_no_nul h
        · rcases List.mem_append.mp h with h | h
          · obtain ⟨p, _, hp⟩ := List.mem_flatMap.mp h
            exact p.mangled_no_nul hp
          · exact suffix.no_nul h

/-! ## The rest of the name at the cursor -/

/-- What the name has from `i` on. -/
def Rest (name : CString) (i : Nat) (l : List Byte) : Prop := ∃ w, name.chars = w ++ l ∧ w.length = i

variable {name : CString}

theorem Rest.le {i : Nat} {l : List Byte} (h : Rest name i l) : i + l.length = name.chars.length := by
  obtain ⟨w, hw, rfl⟩ := h
  rw [hw, List.length_append]

theorem Rest.append {i : Nat} {v l : List Byte} (h : Rest name i (v ++ l)) : Rest name (i + v.length) l := by
  obtain ⟨w, hw, rfl⟩ := h
  exact ⟨w ++ v, by rw [hw, List.append_assoc], List.length_append⟩

theorem Rest.tail {i : Nat} {c : Byte} {l : List Byte} (h : Rest name i (c :: l)) : Rest name (i + 1) l :=
  Rest.append (v := [c]) h

theorem Rest.read {i : Nat} {l : List Byte} (h : Rest name i l) : name.read i = some (l.headD 0) := by
  obtain ⟨w, hw, rfl⟩ := h
  unfold CString.read
  rw [hw, List.append_assoc, List.getElem?_append_right (by omega), Nat.sub_self]
  cases l with
  | nil => rfl
  | cons c l => rfl

theorem Rest.slice {i : Nat} {v l : List Byte} (h : Rest name i (v ++ l)) : name.slice i v.length = some v := by
  have hle := h.le
  obtain ⟨w, hw, rfl⟩ := h
  rw [List.length_append] at hle
  unfold CString.slice
  rw [if_pos (by omega), hw, List.append_assoc, List.drop_left, List.append_assoc, List.take_left]

theorem Rest.scan {p : Byte → Bool} (hn : name.chars.length < 2 ^ 32) {i : Nat} {v l : List Byte}
    (h : Rest name i (v ++ l)) (hv : ∀ c ∈ v, p c = true) (hl : p (l.headD 0) = false) :
    Scan name p i v (i + v.length) := by
  have hle := h.le
  induction v generalizing i with
  | nil => exact Scan.stop i _ h.read hl
  | cons c v ih =>
    rw [List.length_append, List.length_cons] at hle
    apply Scan.pass i _ c v h.read (hv c (by simp))
    rw [add32_of_lt i 1 (by omega), List.length_cons, show i + (v.length + 1) = i + 1 + v.length by omega]
    exact ih h.tail (fun d hd => hv d (by simp [hd])) h.tail.le

/-! ## A name at the cursor -/

/-- What the demangler reads of an identifier. -/
def Identifier.component (x : Identifier) : Component := ⟨decimal x.chars.length, x.chars⟩

def QName.ident : QName → Ident
  | .one x => .plain x.component
  | .nested x xs => .nested x.component (xs.map Identifier.component)

theorem Identifier.mangled_head (x : Identifier) (l : List Byte) : is_digit ((x.mangled ++ l).headD 0) = true := by
  unfold Identifier.mangled
  cases hd : decimal x.chars.length with
  | nil => exact absurd hd (decimal_ne_nil _)
  | cons c w => exact decimal_isDigit x.chars.length c (by rw [hd]; simp)

theorem Identifier.chars_head (x : Identifier) (l : List Byte) : is_digit ((x.chars ++ l).headD 0) = false := by
  cases hx : x.chars with
  | nil => exact absurd hx x.ne_nil
  | cons c w => exact x.first c (by rw [hx]; rfl)

section Reads

variable {atoi : List Byte → BitVec 32} (hatoi : ReadsDecimals atoi) (hn : name.chars.length < 2 ^ 32)

include hatoi hn

theorem Rest.component {i : Nat} {x : Identifier} {l : List Byte} (h : Rest name i (x.mangled ++ l)) :
    ComponentAt atoi name i x.component (i + x.mangled.length) := by
  have hle := h.le
  unfold Identifier.mangled at h hle ⊢
  rw [List.append_assoc] at h
  rw [List.length_append, List.length_append] at hle
  have hscan := h.scan hn (decimal_isDigit _) (x.chars_head l)
  have hval := hatoi x.chars.length x.short
  refine ⟨_, hscan, ?_, ?_⟩
  · rw [show (x.component).digits = decimal x.chars.length from rfl, hval]
    exact h.append.slice
  · rw [show (x.component).digits = decimal x.chars.length from rfl, hval, List.length_append,
      add32_of_lt _ _ (by omega), Nat.add_assoc]

theorem Rest.components {i : Nat} {xs : List Identifier} {l : List Byte}
    (h : Rest name i (xs.flatMap Identifier.mangled ++ ch 'E' :: l)) :
    ComponentsAt atoi name i (xs.map Identifier.component) (i + (xs.flatMap Identifier.mangled).length) := by
  induction xs generalizing i with
  | nil => exact ComponentsAt.nil i h.read
  | cons x xs ih =>
    rw [List.flatMap_cons, List.append_assoc] at h
    rw [List.flatMap_cons, List.length_append, ← Nat.add_assoc]
    refine ComponentsAt.cons i _ _ _ _ _ h.read ?_ (h.component hatoi hn) (ih h.append)
    intro hE
    have hdig := x.mangled_head (xs.flatMap Identifier.mangled ++ ch 'E' :: l)
    rw [hE] at hdig
    exact absurd hdig (by decide)

theorem Rest.ident {i : Nat} {n : QName} {l : List Byte} (h : Rest name i (n.mangled ++ l)) :
    IdentAt atoi name i n.ident (i + n.mangled.length) := by
  have hle := h.le
  cases n with
  | one x =>
    refine IdentAt.plain i _ _ _ h.read ?_ (h.component hatoi hn)
    intro hN
    have hdig := x.mangled_head l
    rw [show (x.mangled ++ l).headD 0 = ch 'N' from hN] at hdig
    exact absurd hdig (by decide)
  | nested x xs =>
    simp only [QName.mangled, List.cons_append, List.append_assoc, List.nil_append] at h
    simp only [QName.mangled, List.length_append, List.length_cons, List.length_nil] at hle ⊢
    have hread : name.read i = some (ch 'N') := h.read
    have hx := h.tail.component hatoi hn
    rw [← add32_of_lt i 1 (by omega)] at hx
    have hxs := h.tail.append.components hatoi hn
    have hnest := IdentAt.nested i _ _ _ _ hread hx (add32_of_lt i 1 (by omega) ▸ hxs)
    rw [add32_of_lt i 1 (by omega), add32_of_lt _ 1 (by omega)] at hnest
    rw [show i + (x.mangled.length + ((xs.flatMap Identifier.mangled).length + (0 + 1)) + 1) =
      i + 1 + x.mangled.length + (xs.flatMap Identifier.mangled).length + 1 by omega]
    exact hnest

end Reads

end SlayerOS.Mangle
