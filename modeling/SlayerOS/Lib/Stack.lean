import Mathlib.Logic.Function.Basic
import Mathlib.Algebra.Order.Group.Nat

/-!
# A stack in memory

A machine has registers and memory. One register points to the top of a stack of 64-bit
words that grows down. Memory is seen as one word at each address, which is right as long
as all addresses are multiples of eight apart.
-/

namespace SlayerOS.Stack

abbrev Word := BitVec 64

structure Machine (R : Type) where
  regs : R → Word
  mem : Word → Word

/-- Word `i` from `p` on. -/
def word (m : Word → Word) (p : Word) (i : Nat) : Word := m (p + BitVec.ofNat 64 (8 * i))

/-- The words from `p` on are `xs`. -/
def Holds (m : Word → Word) (p : Word) (xs : List Word) : Prop :=
  ∀ i x, xs[i]? = some x → word m p i = x

/-- `p` with `n` words behind it taken off, or put on. -/
def up (p : Word) (n : Nat) : Word := p + BitVec.ofNat 64 (8 * n)
def down (p : Word) (n : Nat) : Word := p - BitVec.ofNat 64 (8 * n)

/-! ## Addresses -/

theorem word_up (m : Word → Word) (p : Word) (n i : Nat) : word m (up p n) i = word m p (n + i) := by
  unfold word up
  congr 1
  bv_omega

theorem word_down_add (m : Word → Word) (p : Word) (n i : Nat) : word m (down p n) (n + i) = word m p i := by
  unfold word down
  congr 1
  bv_omega

@[simp] theorem up_zero (p : Word) : up p 0 = p := by simp [up]
@[simp] theorem down_zero (p : Word) : down p 0 = p := by simp [down]

theorem up_up (p : Word) (n k : Nat) : up (up p n) k = up p (n + k) := by
  unfold up
  bv_omega

theorem down_down (p : Word) (n k : Nat) : down (down p n) k = down p (n + k) := by
  unfold down
  bv_omega

theorem up_down (p : Word) (n k : Nat) : up (down p (n + k)) k = down p n := by
  unfold up down
  bv_omega

theorem down_inj (p : Word) (n k : Nat) (hn : n < 2 ^ 61) (hk : k < 2 ^ 61) (h : down p n = down p k) :
    n = k := by
  unfold down at h
  bv_omega

/-! ## Pushes and pops -/

section

variable {R : Type} [DecidableEq R] (sp : R)

def push (m : Machine R) (v : Word) : Machine R :=
  { regs := Function.update m.regs sp (down (m.regs sp) 1)
    mem := Function.update m.mem (down (m.regs sp) 1) v }

/-- A pop into the stack pointer itself loads it. -/
def pop (m : Machine R) (r : R) : Machine R :=
  { m with regs := Function.update (Function.update m.regs sp (up (m.regs sp) 1)) r (m.mem (m.regs sp)) }

def pushAll (m : Machine R) (vs : List Word) : Machine R := vs.foldl (push sp) m

def pushRegs (m : Machine R) (rs : List R) : Machine R := rs.foldl (fun m r => push sp m (m.regs r)) m

def popRegs (m : Machine R) (rs : List R) : Machine R := rs.foldl (pop sp) m

/-- The registers after some assignments, the last one on top. -/
def assign (f : R → Word) (l : List (R × Word)) : R → Word := l.foldl (fun f a => Function.update f a.1 a.2) f

end

/-! ## What is on the stack -/

theorem Holds.cons {m : Word → Word} {p x : Word} {xs : List Word} (h : Holds m p (x :: xs)) :
    m p = x ∧ Holds m (up p 1) xs := by
  constructor
  · simpa [word] using h 0 x rfl
  · intro i y hy
    rw [word_up, Nat.add_comm]
    exact h (i + 1) y hy

theorem Holds.drop {m : Word → Word} {p : Word} {xs : List Word} (h : Holds m p xs) (n : Nat) :
    Holds m (up p n) (xs.drop n) := by
  intro i x hx
  rw [word_up]
  exact h (n + i) x (by rw [← hx, List.getElem?_drop])

theorem Holds.congr {m m' : Word → Word} {p : Word} {xs : List Word} (h : Holds m p xs)
    (hsame : ∀ i, i < xs.length → word m' p i = word m p i) : Holds m' p xs := by
  intro i x hx
  rw [hsame i (List.getElem?_eq_some_iff.mp hx).1]
  exact h i x hx

theorem Holds.take {m : Word → Word} {p : Word} {xs : List Word} (h : Holds m p xs) (n : Nat) :
    Holds m p (xs.take n) := by
  intro i x hx
  rw [List.getElem?_take] at hx
  split at hx
  · exact h i x hx
  · cases hx

theorem Holds.push {m : Word → Word} {p : Word} {xs : List Word} (h : Holds m p xs) (v : Word)
    (hlen : xs.length < 2 ^ 60) : Holds (Function.update m (down p 1) v) (down p 1) (v :: xs) := by
  intro i x hx
  cases i with
  | zero =>
    obtain rfl : v = x := by simpa using hx
    simp [word]
  | succ i =>
    have hi : i < xs.length := (List.getElem?_eq_some_iff.mp (by simpa using hx)).1
    rw [Nat.add_comm, word_down_add, word, Function.update_of_ne]
    · exact h i x (by simpa using hx)
    · unfold down
      bv_omega

/-! ## Many pushes and pops -/

/-- `n` words were pushed. They are below the old top, and all other words are as they were. -/
structure Pushed {R : Type} (sp : R) (n : Nat) (m m' : Machine R) : Prop where
  top : m'.regs sp = down (m.regs sp) n
  mem : ∀ a, (∀ i, 1 ≤ i → i ≤ n → a ≠ down (m.regs sp) i) → m'.mem a = m.mem a

theorem Pushed.none {R : Type} {sp : R} {m m' : Machine R} (hsp : m'.regs sp = m.regs sp) (hmem : m'.mem = m.mem) :
    Pushed sp 0 m m' :=
  ⟨by rw [hsp, down_zero], fun _ _ => by rw [hmem]⟩

theorem Pushed.trans {R : Type} {sp : R} {n k : Nat} {m m' m'' : Machine R} (h : Pushed sp n m m')
    (h' : Pushed sp k m' m'') : Pushed sp (n + k) m m'' := by
  refine ⟨by rw [h'.top, h.top, down_down], ?_⟩
  intro a ha
  have hinner : ∀ i, 1 ≤ i → i ≤ k → a ≠ down (m'.regs sp) i := by
    intro i hi hk
    rw [h.top, down_down]
    exact ha (n + i) (by omega) (by omega)
  rw [h'.mem a hinner]
  exact h.mem a fun i hi hn => ha i hi (by omega)

section

variable {R : Type} [DecidableEq R] {sp : R}

@[simp] theorem push_sp (m : Machine R) (v : Word) : (push sp m v).regs sp = down (m.regs sp) 1 := by
  simp [push]

theorem push_regs (m : Machine R) (v : Word) (r : R) (hr : r ≠ sp) : (push sp m v).regs r = m.regs r :=
  Function.update_of_ne hr _ _

theorem push_holds (m : Machine R) (v : Word) (xs : List Word) (h : Holds m.mem (m.regs sp) xs)
    (hlen : xs.length < 2 ^ 60) : Holds (push sp m v).mem ((push sp m v).regs sp) (v :: xs) := by
  rw [push_sp]
  exact h.push v hlen

theorem pushAll_spec (sp : R) (vs : List Word) (m : Machine R) (xs : List Word) (h : Holds m.mem (m.regs sp) xs)
    (hlen : xs.length + vs.length < 2 ^ 60) :
    Holds (pushAll sp m vs).mem ((pushAll sp m vs).regs sp) (vs.reverse ++ xs) ∧
    (pushAll sp m vs).regs sp = down (m.regs sp) vs.length ∧
    ∀ r, r ≠ sp → (pushAll sp m vs).regs r = m.regs r := by
  induction vs generalizing m xs with
  | nil => exact ⟨h, by simp [pushAll], fun _ _ => rfl⟩
  | cons v vs ih =>
    rw [List.length_cons] at hlen
    obtain ⟨hholds, hsp, hregs⟩ := ih (push sp m v) (v :: xs) (push_holds m v xs h (by omega))
      (by rw [List.length_cons]; omega)
    refine ⟨?_, ?_, ?_⟩
    · simpa [pushAll] using hholds
    · rw [List.length_cons, Nat.add_comm, ← down_down, ← push_sp m v]
      exact hsp
    · intro r hr
      exact (hregs r hr).trans (push_regs m v r hr)

theorem push_pushed (m : Machine R) (v : Word) : Pushed sp 1 m (push sp m v) :=
  ⟨push_sp m v, fun _ ha => Function.update_of_ne (ha 1 (le_refl 1) (le_refl 1)) _ _⟩

theorem pushAll_pushed (sp : R) (vs : List Word) (m : Machine R) :
    Pushed sp vs.length m (pushAll sp m vs) := by
  induction vs generalizing m with
  | nil => exact Pushed.none rfl rfl
  | cons v vs ih =>
    rw [List.length_cons, Nat.add_comm]
    exact (push_pushed m v).trans (ih (push sp m v))

theorem pushRegs_eq (rs : List R) (hrs : sp ∉ rs) (m : Machine R) :
    pushRegs sp m rs = pushAll sp m (rs.map m.regs) := by
  induction rs generalizing m with
  | nil => rfl
  | cons r rs ih =>
    rw [List.mem_cons, not_or] at hrs
    have hmap : rs.map (push sp m (m.regs r)).regs = rs.map m.regs := by
      apply List.map_congr_left
      intro q hq
      exact push_regs m _ q fun heq => hrs.2 (heq ▸ hq)
    refine (ih hrs.2 (push sp m (m.regs r))).trans ?_
    rw [hmap]
    rfl

theorem assign_congr (l : List (R × Word)) (f g : R → Word) (h : ∀ r, r ≠ sp → f r = g r) (r : R)
    (hr : r ≠ sp) : assign f l r = assign g l r := by
  induction l generalizing f g with
  | nil => exact h r hr
  | cons a l ih =>
    apply ih
    intro q hq
    by_cases hqa : q = a.1
    · simp [hqa]
    · simp [Function.update_of_ne hqa, h q hq]

theorem popRegs_spec (sp : R) (rs : List R) (hrs : sp ∉ rs) (m : Machine R) (vs xs : List Word)
    (hlen : vs.length = rs.length) (h : Holds m.mem (m.regs sp) (vs ++ xs)) :
    (popRegs sp m rs).mem = m.mem ∧ (popRegs sp m rs).regs sp = up (m.regs sp) rs.length ∧
    ∀ r, r ≠ sp → (popRegs sp m rs).regs r = assign m.regs (rs.zip vs) r := by
  induction rs generalizing m vs with
  | nil => exact ⟨rfl, by simp [popRegs], fun _ _ => by simp [popRegs, assign]⟩
  | cons r rs ih =>
    rw [List.mem_cons, not_or] at hrs
    cases vs with
    | nil => simp at hlen
    | cons v vs =>
      obtain ⟨htop, hrest⟩ := h.cons
      have hsp : (pop sp m r).regs sp = up (m.regs sp) 1 := by simp [pop, Function.update_of_ne hrs.1]
      obtain ⟨hmem, hsp', hregs⟩ := ih hrs.2 (pop sp m r) vs (by simpa using hlen) (by rw [hsp]; exact hrest)
      refine ⟨hmem, ?_, ?_⟩
      · rw [List.length_cons, Nat.add_comm, ← up_up, ← hsp]
        exact hsp'
      · intro q hq
        refine (hregs q hq).trans (assign_congr _ _ _ ?_ q hq)
        intro q hq
        by_cases hqr : q = r
        · simp [pop, hqr, htop]
        · simp [pop, Function.update_of_ne hqr, Function.update_of_ne hq]

end

end SlayerOS.Stack
