import SlayerOS.Mangle.Code
import Mathlib.Algebra.Group.Nat.Even

/-!
# What the demangler reads

The parts of a name are given by the cursor before and behind them. Each function reads
one kind of part, and what it does to the arrays is an effect of the part alone.
-/

open SlayerOS.Bytes SlayerOS.Fuel SlayerOS.Fuel.Comp SlayerOS.Text

namespace SlayerOS.Mangle

/-! ## The parts of a name -/

/-- `while (p(name[i])) i++` passes `w` from `i` on, and stops at `q`. -/
inductive Scan (name : CString) (p : Byte → Bool) : Nat → List Byte → Nat → Prop
  | stop (i : Nat) (c : Byte) : name.read i = some c → p c = false → Scan name p i [] i
  | pass (i q : Nat) (c : Byte) (w : List Byte) : name.read i = some c → p c = true →
      Scan name p (add32 i 1) w q → Scan name p i (c :: w) q

/-- A length in digits and as many characters. -/
structure Component where
  digits : List Byte
  chars : List Byte
deriving DecidableEq

/-- A function or class name. -/
inductive Ident where
  | plain (c : Component)
  | nested (c : Component) (cs : List Component)
deriving DecidableEq

/-- What one round of the parameter loop reads. -/
inductive Item where
  /-- A character with a fixed text, or one that the demangler does not know. -/
  | lit (w : List Byte)
  /-- `S` and what is before the underscore. -/
  | ref (w : List Byte)
  | cls (n : Ident)
deriving DecidableEq

section Atoi

variable (atoi : List Byte → BitVec 32) (name : CString)

/-- The component `c` starts at `i`, and `q` is behind it. -/
def ComponentAt (i : Nat) (c : Component) (q : Nat) : Prop :=
  ∃ k, Scan name is_digit i c.digits k ∧ name.slice k (atoi c.digits).toNat = some c.chars ∧
    q = add32 k (atoi c.digits).toNat

/-- The components `cs` start at `i`, and the `E` behind them is at `q`. -/
inductive ComponentsAt : Nat → List Component → Nat → Prop
  | nil (i : Nat) : name.read i = some (ch 'E') → ComponentsAt i [] i
  | cons (i k q : Nat) (d : Byte) (c : Component) (cs : List Component) : name.read i = some d →
      d ≠ ch 'E' → ComponentAt atoi name i c k → ComponentsAt k cs q → ComponentsAt i (c :: cs) q

inductive IdentAt : Nat → Ident → Nat → Prop
  | plain (i q : Nat) (d : Byte) (c : Component) : name.read i = some d → d ≠ ch 'N' →
      ComponentAt atoi name i c q → IdentAt i (Ident.plain c) q
  | nested (i k q : Nat) (c : Component) (cs : List Component) : name.read i = some (ch 'N') →
      ComponentAt atoi name (add32 i 1) c k → ComponentsAt atoi name k cs q →
      IdentAt i (Ident.nested c cs) (add32 q 1)

/-- The item at `i`, and where `demangle_single_parameter` leaves the cursor. -/
inductive ItemAt : Nat → Item → Nat → Prop
  | known (i : Nat) (c : Byte) (w : List Byte) : name.read i = some c → literals.lookup c = some w →
      ItemAt i (Item.lit w) i
  | unknown (i : Nat) (c : Byte) : name.read i = some c → literals.lookup c = none → c ≠ ch 'S' →
      is_digit c = false → c ≠ ch 'N' → ItemAt i (Item.lit (name.chars.drop i)) i
  | ref (i q : Nat) (w : List Byte) : name.read i = some (ch 'S') →
      Scan name (fun c => c != ch '_') (add32 i 1) w q → ItemAt i (Item.ref w) q
  | cls (i q : Nat) (c : Byte) (n : Ident) : name.read i = some c → is_digit c = true ∨ c = ch 'N' →
      IdentAt atoi name i n q → ItemAt i (Item.cls n) q

/-- From `i` on the name has parameters up to the end of the list. Behind every parameter
there is a character, which the loop steps over. -/
inductive ParamsAt : Nat → Prop
  | stop (i : Nat) (c : Byte) : name.read i = some c → is_end_of_parameters c = true → ParamsAt i
  | round (i q : Nat) (c d : Byte) (item : Item) : name.read i = some c → is_end_of_parameters c = false →
      ItemAt atoi name i item q → name.read q = some d → ParamsAt (add32 q 1) → ParamsAt i

end Atoi

/-! ## Their effects on the arrays -/

/-- The cursor at `q`. -/
def seekAt (q : Nat) (x : State × Nat) : State × Nat := (x.1.seek q, x.2)

/-- The characters of `w` one by one, at `x.2` and on. -/
def puts (b : Buf) (x : State × Nat) (w : List Byte) : State × Nat :=
  w.foldl (fun x c => (x.1.put b x.2 c, add32 x.2 1)) x

def componentEffect (b : Buf) (x : State × Nat) (c : Component) : State × Nat :=
  ((x.1.memcpy .size_str 0 (c.digits ++ [0])).memcpy b x.2 c.chars, add32 x.2 c.chars.length)

def componentsEffect (b : Buf) : State × Nat → List Component → State × Nat
  | x, [] => x
  | x, c :: cs =>
    componentsEffect b (if cs = [] then componentEffect b x c else put_colons b (componentEffect b x c)) cs

def identParts (b : Buf) (x : State × Nat) : Ident → State × Nat
  | .plain c => componentEffect b x c
  | .nested c cs => componentsEffect b (put_colons b (componentEffect b x c)) cs

def identEffect (b : Buf) (s : State) (n : Ident) : State :=
  (identParts b (s, 0) n).1.put b (identParts b (s, 0) n).2 0

/-- The index into `old_params`. -/
def repeatOf (atoi : List Byte → BitVec 32) (w : List Byte) : Nat :=
  if w = [] then 0 else (atoi (beforeNul w)).toNat

def itemEffect (atoi : List Byte → BitVec 32) (s : State) : Item → Comp State
  | .lit w => pure (append_to_buffer s w)
  | .ref w => do
    let v ← scan old_param_stop (s.mem .old_params) (16 * repeatOf atoi w)
    pure (append_to_buffer (s.memcpy .type_i 0 (w ++ [0])) v)
  | .cls n => do
    let s := identEffect .name_str s n
    let v ← scan isNul (s.mem .name_str) 0
    pure (append_to_buffer s v)

def separatorEffect (c : Byte) (s : State) : State :=
  if is_end_of_parameters c then s else (s.emit (ch ',')).emit (ch ' ')

/-- `i` and the sizes at the start. -/
def State.start (s : State) : State := { s with i := 2, j := 0, old_params_i := 0, latest_size := 0 }

def functionEffect (s : State) : Ident → Comp State
  | .plain c =>
    let s := (s.memcpy .length_str 0 (c.digits ++ [0])).memcpy .buffer 0 c.chars
    pure { s.put .buffer c.chars.length (ch '(') with j := add32 c.chars.length 1 }
  | .nested c cs => do
    let s := identEffect .buffer s (.nested c cs)
    let w ← scan isNul (s.mem .buffer) 0
    pure ({ s with j := w.length % 2 ^ 32 }.emit (ch '('))

/-! ## The cursor -/

theorem add32_lt (a b : Nat) : add32 a b < 2 ^ 32 := Nat.mod_lt _ (by decide)

theorem add32_of_lt (a b : Nat) (h : a + b < 2 ^ 32) : add32 a b = a + b := Nat.mod_eq_of_lt h

namespace State

@[simp] theorem seek_i (s : State) (q : Nat) : (s.seek q).i = q := rfl

@[simp] theorem seek_j (s : State) (q : Nat) : (s.seek q).j = s.j := rfl

@[simp] theorem seek_mem (s : State) (q : Nat) : (s.seek q).mem = s.mem := rfl

@[simp] theorem seek_old_params_i (s : State) (q : Nat) : (s.seek q).old_params_i = s.old_params_i := rfl

@[simp] theorem seek_seek (s : State) (q k : Nat) : (s.seek q).seek k = s.seek k := rfl

@[simp] theorem put_seek (s : State) (q : Nat) (b : Buf) (k : Nat) (c : Byte) :
    (s.seek q).put b k c = (s.put b k c).seek q := rfl

theorem advance_eq (s : State) (n : Nat) : s.advance n = s.seek (add32 s.i n) := rfl

@[simp] theorem memcpy_mem_same (s : State) (b : Buf) (k : Nat) (w : List Byte) :
    (s.memcpy b k w).mem b = overlay (s.mem b) k w := Function.update_self _ _ _

theorem memcpy_mem_other (s : State) (b b' : Buf) (k : Nat) (w : List Byte) (h : b' ≠ b) :
    (s.memcpy b k w).mem b' = s.mem b' := Function.update_of_ne h _ _

theorem memcpy_memcpy (s : State) (b : Buf) (k : Nat) (v w : List Byte) :
    (s.memcpy b k v).memcpy b (k + v.length) w = s.memcpy b k (v ++ w) := by
  unfold memcpy
  simp only [Function.update_self, Function.update_idem, overlay_overlay]
  congr 2
  cases v with
  | nil => simp
  | cons c v =>
    cases w with
    | nil => simp
    | cons d w =>
      simp only [List.cons_append, reduceCtorEq, if_false, List.length_cons, List.length_append]
      omega

end State

theorem puts_cons (b : Buf) (x : State × Nat) (c : Byte) (w : List Byte) :
    puts b x (c :: w) = puts b (x.1.put b x.2 c, add32 x.2 1) w := rfl

@[simp] theorem seekAt_seekAt (q k : Nat) (x : State × Nat) : seekAt q (seekAt k x) = seekAt q x := rfl

@[simp] theorem puts_seek (b : Buf) (q : Nat) (x : State × Nat) (w : List Byte) :
    puts b (seekAt q x) w = seekAt q (puts b x w) := by
  induction w generalizing x with
  | nil => rfl
  | cons c w ih => exact ih (x.1.put b x.2 c, add32 x.2 1)

theorem puts_eq (b : Buf) (s : State) (k : Nat) (w : List Byte) (h : k + w.length < 2 ^ 32) :
    puts b (s, k) w = (s.memcpy b k w, k + w.length) := by
  induction w generalizing s k with
  | nil =>
    simp [puts, State.memcpy]
  | cons c w ih =>
    rw [List.length_cons] at h
    rw [puts_cons, add32_of_lt k 1 (by omega), ih _ _ (by omega)]
    rw [show s.put b k c = s.memcpy b k [c] from rfl, show k + 1 = k + [c].length from rfl, State.memcpy_memcpy]
    simp only [List.singleton_append, List.length_cons, List.length_nil]
    congr 1
    omega

@[simp] theorem put_colons_seek (b : Buf) (q : Nat) (x : State × Nat) :
    put_colons b (seekAt q x) = seekAt q (put_colons b x) := rfl

@[simp] theorem componentsEffect_seek (b : Buf) (q : Nat) (x : State × Nat) (cs : List Component) :
    componentsEffect b (seekAt q x) cs = seekAt q (componentsEffect b x cs) := by
  induction cs generalizing x with
  | nil => rfl
  | cons c cs ih =>
    rw [componentsEffect, componentsEffect]
    split
    · exact ih (componentEffect b x c)
    · exact ih (put_colons b (componentEffect b x c))

theorem append_to_buffer_seek (s : State) (q : Nat) (w : List Byte) :
    append_to_buffer (s.seek q) w = (append_to_buffer s w).seek q := by
  induction w generalizing s with
  | nil => rfl
  | cons c w ih => exact ih ((s.emit c).keep c)

theorem remember_type_seek (s : State) (q : Nat) : remember_type (s.seek q) = (remember_type s).seek q := rfl

theorem separatorEffect_seek (c : Byte) (s : State) (q : Nat) :
    separatorEffect c (s.seek q) = (separatorEffect c s).seek q := by
  unfold separatorEffect
  split
  · rfl
  · rfl

theorem identParts_seek (b : Buf) (q : Nat) (x : State × Nat) (n : Ident) :
    identParts b (seekAt q x) n = seekAt q (identParts b x n) := by
  cases n with
  | plain c => rfl
  | nested c cs => exact componentsEffect_seek b q (put_colons b (componentEffect b x c)) cs

theorem identEffect_seek (b : Buf) (s : State) (q : Nat) (n : Ident) :
    identEffect b (s.seek q) n = (identEffect b s n).seek q := by
  unfold identEffect
  rw [show (s.seek q, 0) = seekAt q (s, 0) from rfl, identParts_seek]
  rfl

end SlayerOS.Mangle
