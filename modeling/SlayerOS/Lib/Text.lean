import SlayerOS.Lib.Bytes
import SlayerOS.Lib.Fuel
import Mathlib.Data.List.TakeWhile

/-!
# Texts in memory

A text is a list of bytes. A C string is a text without a NUL, and in memory a NUL
stands behind it.
-/

open SlayerOS.Bytes SlayerOS.Fuel

namespace SlayerOS.Text

abbrev Byte := BitVec 8

/-- The byte of an ASCII character. -/
def ch (c : Char) : Byte := BitVec.ofNat 8 c.toNat

/-- A C string: the bytes before its NUL. -/
structure CString where
  chars : List Byte
  no_nul : (0 : Byte) ∉ chars

namespace CString

/-- The byte at `k`. A read behind the NUL is a fault. -/
def read (s : CString) (k : Nat) : Option Byte := (s.chars ++ [0])[k]?

/-- What `memcpy` reads: the `n` bytes at `k`, and none of them may be behind the NUL. -/
def slice (s : CString) (k n : Nat) : Option (List Byte) :=
  if n = 0 ∨ k + n ≤ s.chars.length + 1 then some (((s.chars ++ [0]).drop k).take n) else none

def append (s t : CString) : CString :=
  ⟨s.chars ++ t.chars, fun h => (List.mem_append.mp h).elim s.no_nul t.no_nul⟩

/-- The first `n` characters. -/
def take (s : CString) (n : Nat) : CString := ⟨s.chars.take n, fun h => s.no_nul (List.mem_of_mem_take h)⟩

end CString

/-- The memory with the text `w` at `a`. -/
def overlay (m : Mem) (a : Nat) (w : List Byte) : Mem :=
  fun x => if a ≤ x ∧ x < a + w.length then w.getD (x - a) 0 else m x

/-- The bytes at `a`, up to the first one that stops the scan. -/
def upTo (stop : Byte → Bool) (m : Mem) : Nat → Nat → Option (List Byte)
  | 0, _ => none
  | n + 1, a => if stop (m a) then some [] else (upTo stop m n (a + 1)).map (m a :: ·)

theorem upTo_mono (stop : Byte → Bool) (m : Mem) (n a : Nat) (w : List Byte) (h : upTo stop m n a = some w) :
    upTo stop m (n + 1) a = some w := by
  induction n generalizing a w with
  | zero => cases h
  | succ n ih =>
    rw [upTo] at h ⊢
    split
    · rename_i hstop
      rw [if_pos hstop] at h
      exact h
    · rename_i hgo
      rw [if_neg hgo] at h
      obtain ⟨v, hv, rfl⟩ := Option.map_eq_some_iff.mp h
      rw [ih _ _ hv]
      rfl

/-- `while (!stop(*p)) p++` from `a` on, with the bytes it passes. -/
def scan (stop : Byte → Bool) (m : Mem) (a : Nat) : Comp (List Byte) :=
  ⟨fun n => upTo stop m n a, fun n w h => upTo_mono stop m n a w h⟩

def isNul (c : Byte) : Bool := c == 0

/-- `w` is the text at `a`, and the byte behind it stops the scan. -/
inductive TextAt (stop : Byte → Bool) (m : Mem) : Nat → List Byte → Prop
  | nil (a : Nat) : stop (m a) = true → TextAt stop m a []
  | cons (a : Nat) (w : List Byte) : stop (m a) = false → TextAt stop m (a + 1) w →
      TextAt stop m a (m a :: w)

/-! ## Reads -/

theorem CString.read_isSome (s : CString) (k : Nat) : (∃ c, s.read k = some c) ↔ k ≤ s.chars.length := by
  rw [read, ← Option.isSome_iff_exists, isSome_getElem?, List.length_append, List.length_singleton]
  omega

theorem CString.read_zero (s : CString) (k : Nat) : s.read k = some 0 ↔ k = s.chars.length := by
  unfold read
  constructor
  · intro h
    obtain ⟨hk, h0⟩ := List.getElem?_eq_some_iff.mp h
    rw [List.length_append, List.length_singleton] at hk
    by_contra hne
    apply s.no_nul
    rw [List.getElem_append_left (by omega)] at h0
    rw [← h0]
    exact List.getElem_mem _
  · rintro rfl
    simp

theorem CString.read_lt (s : CString) (k : Nat) (c : Byte) (h : s.read k = some c) (hc : c ≠ 0) :
    k < s.chars.length := by
  have hle := (s.read_isSome k).mp ⟨c, h⟩
  rcases Nat.lt_or_eq_of_le hle with hlt | heq
  · exact hlt
  · rw [(s.read_zero k).mpr heq] at h
    exact absurd (Option.some.inj h).symm hc

theorem CString.slice_length (s : CString) (k n : Nat) (w : List Byte) (h : s.slice k n = some w) :
    w.length = n := by
  unfold slice at h
  split at h
  · obtain rfl := Option.some.inj h
    simp only [List.length_take, List.length_drop, List.length_append, List.length_singleton]
    omega
  · cases h

theorem CString.slice_no_nul (s : CString) (k n : Nat) (w : List Byte) (h : s.slice k n = some w)
    (hle : k + n ≤ s.chars.length) : (0 : Byte) ∉ w := by
  unfold slice at h
  rw [if_pos (by omega)] at h
  obtain rfl := Option.some.inj h
  rw [List.drop_append_of_le_length (by omega), List.take_append_of_le_length (by rw [List.length_drop]; omega)]
  intro h0
  exact s.no_nul (List.mem_of_mem_drop (List.mem_of_mem_take h0))

/-! ## Writes -/

@[simp] theorem overlay_nil (m : Mem) (a : Nat) : overlay m a [] = m := by
  funext x
  exact if_neg (by simp)

theorem overlay_outside (m : Mem) (a : Nat) (w : List Byte) (x : Nat) (h : x < a ∨ a + w.length ≤ x) :
    overlay m a w x = m x := if_neg (by omega)

theorem overlay_inside (m : Mem) (a : Nat) (w : List Byte) (k : Nat) (h : k < w.length) :
    overlay m a w (a + k) = w[k] := by
  unfold overlay
  rw [if_pos (by omega), Nat.add_sub_cancel_left]
  simp [h]

theorem overlay_overlay (m : Mem) (a : Nat) (v w : List Byte) :
    overlay (overlay m a v) (a + v.length) w = overlay m a (v ++ w) := by
  funext x
  unfold overlay
  rw [List.length_append]
  by_cases h1 : x < a
  · rw [if_neg (by omega), if_neg (by omega), if_neg (by omega)]
  · by_cases h2 : x < a + v.length
    · rw [if_neg (by omega), if_pos (by omega), if_pos (by omega)]
      rw [List.getD_eq_getElem?_getD, List.getD_eq_getElem?_getD, List.getElem?_append_left (by omega)]
    · by_cases h3 : x < a + v.length + w.length
      · rw [if_pos (by omega), if_pos (by omega)]
        rw [List.getD_eq_getElem?_getD, List.getD_eq_getElem?_getD, List.getElem?_append_right (by omega)]
        rw [Nat.sub_sub]
      · rw [if_neg (by omega), if_neg (by omega), if_neg (by omega)]

theorem overlay_before (m : Mem) (a : Nat) (v w : List Byte) :
    overlay (overlay m (a + v.length) w) a v = overlay m a (v ++ w) := by
  rw [← overlay_overlay]
  funext x
  by_cases hv : a ≤ x ∧ x < a + v.length
  · rw [overlay_outside _ (a + v.length) w x (Or.inl hv.2)]
    unfold overlay
    rw [if_pos hv, if_pos hv]
  · rw [overlay_outside _ a v x (by omega)]
    unfold overlay
    rw [if_neg hv]

theorem overlay_idem (m : Mem) (a : Nat) (w : List Byte) : overlay (overlay m a w) a w = overlay m a w := by
  funext x
  unfold overlay
  split
  · rfl
  · rfl

theorem overlay_replace (m : Mem) (a : Nat) (w : List Byte) (c d : Byte) :
    overlay (overlay m a (w ++ [c])) (a + w.length) [d] = overlay m a (w ++ [d]) := by
  rw [← overlay_overlay, ← overlay_overlay]
  funext x
  by_cases hx : x = a + w.length
  · subst hx
    exact (overlay_inside _ _ [d] 0 (by simp)).trans (overlay_inside _ _ [d] 0 (by simp)).symm
  · rw [overlay_outside _ _ _ _ (by rw [List.length_singleton]; omega),
      overlay_outside _ _ [c] _ (by rw [List.length_singleton]; omega),
      overlay_outside _ _ [d] _ (by rw [List.length_singleton]; omega)]

/-! ## Scans -/

theorem ends_scan (stop : Byte → Bool) (m : Mem) (a : Nat) (w : List Byte) :
    (scan stop m a).Ends w ↔ TextAt stop m a w := by
  constructor
  · rintro ⟨n, h⟩
    change upTo stop m n a = some w at h
    induction n generalizing a w with
    | zero => cases h
    | succ n ih =>
      rw [upTo] at h
      split at h
      · rename_i hstop
        obtain rfl := Option.some.inj h
        exact TextAt.nil a hstop
      · rename_i hgo
        obtain ⟨v, hv, rfl⟩ := Option.map_eq_some_iff.mp h
        exact TextAt.cons a v (by simpa using hgo) (ih _ _ hv)
  · intro h
    induction h with
    | nil a hstop => exact ⟨1, if_pos hstop⟩
    | cons a w hgo _ ih =>
      obtain ⟨n, hn⟩ := ih
      refine ⟨n + 1, ?_⟩
      change upTo stop m (n + 1) a = _
      rw [upTo, if_neg (by simp [hgo])]
      exact Option.map_eq_some_iff.mpr ⟨w, hn, rfl⟩

theorem upTo_exists_iff (stop : Byte → Bool) (m : Mem) (n a : Nat) :
    (∃ w, upTo stop m n a = some w) ↔ ∃ k < n, stop (m (a + k)) = true := by
  induction n generalizing a with
  | zero => exact iff_of_false (fun ⟨_, hw⟩ => nomatch hw) fun ⟨k, hk, _⟩ => Nat.not_lt_zero k hk
  | succ n ih =>
    rw [upTo]
    by_cases hstop : stop (m a) = true
    · rw [if_pos hstop]
      exact iff_of_true ⟨_, rfl⟩ ⟨0, Nat.succ_pos n, hstop⟩
    · rw [if_neg hstop]
      have hrest := ih (a + 1)
      constructor
      · rintro ⟨w, hw⟩
        obtain ⟨v, hv, -⟩ := Option.map_eq_some_iff.mp hw
        obtain ⟨k, hk, hk'⟩ := hrest.mp ⟨v, hv⟩
        exact ⟨k + 1, by omega, by rwa [show a + (k + 1) = a + 1 + k by omega]⟩
      · rintro ⟨k, hk, hk'⟩
        cases k with
        | zero => exact absurd hk' hstop
        | succ k =>
          obtain ⟨v, hv⟩ := hrest.mpr ⟨k, by omega, by rwa [show a + 1 + k = a + (k + 1) by omega]⟩
          exact ⟨_, Option.map_eq_some_iff.mpr ⟨v, hv, rfl⟩⟩

theorem TextAt.unique {stop : Byte → Bool} {m : Mem} {a : Nat} {v w : List Byte} (hv : TextAt stop m a v)
    (hw : TextAt stop m a w) : v = w :=
  ((ends_scan stop m a v).mpr hv).unique ((ends_scan stop m a w).mpr hw)

theorem TextAt.go {stop : Byte → Bool} {m : Mem} {a : Nat} {w : List Byte} (h : TextAt stop m a w)
    (c : Byte) (hc : c ∈ w) : stop c = false := by
  induction h with
  | nil => cases hc
  | cons a w hgo _ ih =>
    rcases List.mem_cons.mp hc with rfl | hc'
    · exact hgo
    · exact ih hc'

theorem TextAt.getElem {stop : Byte → Bool} {m : Mem} {a : Nat} {w : List Byte} (h : TextAt stop m a w)
    (k : Nat) (hk : k < w.length) : m (a + k) = w[k] := by
  induction h generalizing k with
  | nil => cases hk
  | cons a w _ _ ih =>
    cases k with
    | zero => rfl
    | succ k =>
      rw [show a + (k + 1) = a + 1 + k by omega, ih k (by simpa using hk)]
      rfl

theorem TextAt.stops {stop : Byte → Bool} {m : Mem} {a : Nat} {w : List Byte} (h : TextAt stop m a w) :
    stop (m (a + w.length)) = true := by
  induction h with
  | nil a hstop => exact hstop
  | cons a w _ _ ih =>
    rw [List.length_cons, show a + (w.length + 1) = a + 1 + w.length by omega]
    exact ih

/-- A scan that reads a text and a stop behind it gives the text. -/
theorem textAt_of {stop : Byte → Bool} (m : Mem) (a : Nat) (w : List Byte) (hgo : ∀ c ∈ w, stop c = false)
    (hw : ∀ k (hk : k < w.length), m (a + k) = w[k]) (hstop : stop (m (a + w.length)) = true) :
    TextAt stop m a w := by
  induction w generalizing a with
  | nil => exact TextAt.nil a hstop
  | cons c w ih =>
    obtain rfl : m a = c := hw 0 (by simp)
    apply TextAt.cons
    · exact hgo _ (by simp)
    · apply ih
      · exact fun d hd => hgo d (by simp [hd])
      · intro k hk
        rw [show a + 1 + k = a + (k + 1) by omega, hw (k + 1) (by simpa using hk)]
        rfl
      · rw [show a + 1 + w.length = a + (m a :: w).length by simp; omega]
        exact hstop

theorem exists_textAt {stop : Byte → Bool} (m : Mem) (a k : Nat) (h : stop (m (a + k)) = true) :
    ∃ w, TextAt stop m a w := by
  induction k generalizing a with
  | zero => exact ⟨[], TextAt.nil a h⟩
  | succ k ih =>
    cases hs : stop (m a) with
    | true => exact ⟨[], TextAt.nil a hs⟩
    | false =>
      obtain ⟨w, hw⟩ := ih (a + 1) (by rw [show a + 1 + k = a + (k + 1) by omega]; exact h)
      exact ⟨m a :: w, TextAt.cons a w hs hw⟩

/-- The C string in a text: what is before its first NUL. -/
def beforeNul (w : List Byte) : List Byte := w.takeWhile fun c => !isNul c

theorem beforeNul_eq (w : List Byte) (h : (0 : Byte) ∉ w) : beforeNul w = w := by
  apply List.takeWhile_eq_self_iff.mpr
  intro c hc
  have hne : c ≠ 0 := fun h0 => h (h0 ▸ hc)
  simpa [isNul] using hne

/-- A scan that a NUL stops reads a text with a NUL behind it up to the first byte that
stops it. -/
theorem textAt_takeWhile {stop : Byte → Bool} (hstop : stop 0 = true) (m : Mem) (a : Nat) (w : List Byte)
    (hat : ∀ k (hk : k < (w ++ [0]).length), m (a + k) = (w ++ [0])[k]) :
    TextAt stop m a (w.takeWhile fun c => !stop c) := by
  induction w generalizing a with
  | nil =>
    apply TextAt.nil
    rw [show m a = 0 from hat 0 (by simp)]
    exact hstop
  | cons c w ih =>
    have hc : m a = c := hat 0 (by simp)
    cases h : stop c with
    | true =>
      rw [List.takeWhile_cons_of_neg (by simp [h])]
      exact TextAt.nil a (by rw [hc, h])
    | false =>
      rw [List.takeWhile_cons_of_pos (by simp [h]), ← hc]
      apply TextAt.cons a _ (by rw [hc, h])
      apply ih
      intro k hk
      rw [show a + 1 + k = a + (k + 1) by omega]
      exact hat (k + 1) (by simpa using hk)

theorem textAt_overlay (m : Mem) (a : Nat) (w : List Byte) :
    TextAt isNul (overlay m a (w ++ [0])) a (beforeNul w) :=
  textAt_takeWhile rfl _ a w fun k hk => overlay_inside m a (w ++ [0]) k hk

theorem overlay_nul_iff (m : Mem) (w : List Byte) (h : (0 : Byte) ∉ w) (n : Nat) :
    (∃ k, k < n ∧ overlay m 0 w k = 0) ↔ ∃ k, w.length ≤ k ∧ k < n ∧ m k = 0 := by
  constructor
  · rintro ⟨k, hk, h0⟩
    by_cases hlt : k < w.length
    · have hin := overlay_inside m 0 w k hlt
      rw [Nat.zero_add, h0] at hin
      exact absurd (hin ▸ List.getElem_mem hlt) h
    · rw [overlay_outside m 0 w k (by omega)] at h0
      exact ⟨k, by omega, hk, h0⟩
  · rintro ⟨k, hle, hk, h0⟩
    exact ⟨k, hk, by rw [overlay_outside m 0 w k (by omega), h0]⟩

theorem textAt_overlay_iff (m : Mem) (w : List Byte) (h : (0 : Byte) ∉ w) :
    TextAt isNul (overlay m 0 w) 0 w ↔ m w.length = 0 := by
  have hend : overlay m 0 w w.length = m w.length := overlay_outside m 0 w w.length (by omega)
  constructor
  · intro htext
    have hstop := htext.stops
    rw [Nat.zero_add, hend] at hstop
    simpa [isNul] using hstop
  · intro h0
    apply textAt_of
    · intro c hc
      have hne : c ≠ 0 := fun hc0 => h (hc0 ▸ hc)
      simpa [isNul] using hne
    · intro k hk
      exact overlay_inside m 0 w k hk
    · rw [Nat.zero_add, hend, h0]
      rfl

end SlayerOS.Text
