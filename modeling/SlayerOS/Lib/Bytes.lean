import Mathlib.Logic.Function.Basic
import Mathlib.Algebra.Order.Group.Nat

/-!
# Byte memory

Memory is one byte at every address. Integers are stored low byte first. A write
changes its own bytes and no others, and a read sees its own bytes and no others.
-/

namespace SlayerOS.Bytes

abbrev Mem := Nat → BitVec 8

/-- The `n` bytes at `a`, low byte first. -/
def read : Nat → Mem → Nat → Nat
  | 0, _, _ => 0
  | n + 1, m, a => (m a).toNat + 256 * read n m (a + 1)

/-- Stores the low `n` bytes of `v` at `a`. -/
def write : Nat → Mem → Nat → Nat → Mem
  | 0, m, _, _ => m
  | n + 1, m, a, v => Function.update (write n m (a + 1) (v / 256)) a (BitVec.ofNat 8 v)

/-- `n` copies of the byte `b` at `a`. -/
def fill (m : Mem) (a n : Nat) (b : BitVec 8) : Mem :=
  fun x => if a ≤ x ∧ x < a + n then b else m x

/-- The ranges of `n` bytes at `a` and of `k` bytes at `b` share no byte. -/
def Apart (a n b k : Nat) : Prop := a + n ≤ b ∨ b + k ≤ a

instance (a n b k : Nat) : Decidable (Apart a n b k) := inferInstanceAs (Decidable (_ ∨ _))

theorem Apart.symm {a n b k : Nat} (h : Apart a n b k) : Apart b k a n := Or.symm h

/-! ## Reads -/

theorem read_lt (n : Nat) (m : Mem) (a : Nat) : read n m a < 256 ^ n := by
  induction n generalizing a with
  | zero => simp [read]
  | succ n ih =>
    have h1 := (m a).isLt
    have h2 := ih (a + 1)
    simp only [read, pow_succ]
    omega

theorem read_congr (n : Nat) (m m' : Mem) (a : Nat) (h : ∀ x, a ≤ x → x < a + n → m' x = m x) :
    read n m' a = read n m a := by
  induction n generalizing a with
  | zero => rfl
  | succ n ih =>
    rw [read, read, h a (le_refl _) (by omega), ih (a + 1) (fun x h1 h2 => h x (by omega) (by omega))]

theorem read_eq_zero (n : Nat) (m : Mem) (a : Nat) (h : ∀ x, a ≤ x → x < a + n → m x = 0) :
    read n m a = 0 := by
  induction n generalizing a with
  | zero => rfl
  | succ n ih =>
    rw [read, h a (le_refl _) (by omega), ih (a + 1) (fun x h1 h2 => h x (by omega) (by omega))]
    rfl

/-! ## Writes -/

theorem write_outside (n : Nat) (m : Mem) (a v x : Nat) (h : x < a ∨ a + n ≤ x) :
    write n m a v x = m x := by
  induction n generalizing a v with
  | zero => rfl
  | succ n ih =>
    rw [write, Function.update_of_ne (by omega), ih _ _ (by omega)]

theorem read_write_same (n : Nat) (m : Mem) (a v : Nat) :
    read n (write n m a v) a = v % 256 ^ n := by
  induction n generalizing a v with
  | zero => simp [read, Nat.mod_one]
  | succ n ih =>
    -- The low byte was written last, and the other bytes do not see it.
    have hrest : read n (write (n + 1) m a v) (a + 1) = v / 256 % 256 ^ n := by
      rw [← ih (a + 1) (v / 256)]
      apply read_congr
      intro x h1 h2
      rw [write, Function.update_of_ne (by omega)]
    rw [read, hrest, write, Function.update_self, BitVec.toNat_ofNat]
    rw [pow_succ 256 n, Nat.mul_comm (256 ^ n) 256, Nat.mod_mul]

theorem read_write_apart (n k : Nat) (m : Mem) (a b v : Nat) (h : Apart a n b k) :
    read k (write n m a v) b = read k m b := by
  apply read_congr
  intro x h1 h2
  apply write_outside
  unfold Apart at h
  omega

/-! ## Fills -/

theorem fill_outside (m : Mem) (a n : Nat) (b : BitVec 8) (x : Nat) (h : x < a ∨ a + n ≤ x) :
    fill m a n b x = m x := if_neg (by omega)

theorem read_fill_zero (m : Mem) (a n b k : Nat) (h1 : a ≤ b) (h2 : b + k ≤ a + n) :
    read k (fill m a n 0) b = 0 := by
  apply read_eq_zero
  intro x hx1 hx2
  exact if_pos (by omega)

theorem read_fill_apart (m : Mem) (a n : Nat) (c : BitVec 8) (b k : Nat) (h : Apart a n b k) :
    read k (fill m a n c) b = read k m b := by
  apply read_congr
  intro x h1 h2
  apply fill_outside
  unfold Apart at h
  omega

end SlayerOS.Bytes
