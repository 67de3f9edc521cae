import Mathlib.Data.List.Find
import Mathlib.Data.List.Induction

/-!
# An exchange sort that stops early

A pass holds one entry and exchanges it for every longer one that it meets, until it
holds a good one. Each pass leaves the entry that it holds at its end in front. Here is
which entry that is, for the first pass and for the second one, and what the passes do to
an array. Where nothing is good, they sort it.
-/

namespace SlayerOS.Exchange

variable {α : Type} (good : α → Bool) (key : α → Nat)

/-- The entry that is held, and what the pass has left behind. -/
def step (p : α × List α) (x : α) : α × List α :=
  if !good p.1 && decide (key p.1 < key x) then (x, p.2 ++ [p.1]) else (p.1, p.2 ++ [x])

def pass (c : α) (xs : List α) : α × List α := xs.foldl (step good key) (c, [])

theorem length_pass (c : α) (xs : List α) : (pass good key c xs).2.length = xs.length := by
  unfold pass
  suffices h : ∀ p : α × List α, (xs.foldl (step good key) p).2.length = p.2.length + xs.length by
    simpa using h (c, [])
  induction xs with
  | nil => exact fun _ => rfl
  | cons x xs ih =>
    intro p
    rw [List.foldl_cons, ih]
    unfold step
    split <;> simp <;> omega

/-- A pass for each place. -/
def sort : List α → List α
  | [] => []
  | c :: xs => (pass good key c xs).1 :: sort (pass good key c xs).2
termination_by l => l.length
decreasing_by
  rw [length_pass, List.length_cons]
  omega

/-- A step on an array: the entries at `i` and `j` change places. -/
def exchange (i : Nat) (l : List α) (j : Nat) : List α :=
  match l[i]?, l[j]? with
  | some a, some b => if !good a && decide (key a < key b) then (l.set i b).set j a else l
  | _, _ => l

/-- The pass for the place `i` on an array. -/
def passAt (l : List α) (i : Nat) : List α :=
  (List.range' (i + 1) (l.length - (i + 1))).foldl (exchange good key i) l

/-- The number of entries that are at least as long as `x`. -/
def ahead (l : List α) (x : α) : Nat := l.countP fun y => decide (key x ≤ key y)

/-- The first good entry, and its place, that has at most `m` entries in front of it that are
as long. The place `skip` does not count. -/
def first (m : Nat) (skip : Option Nat) (l : List α) : Option (α × Nat) :=
  l.zipIdx.find? fun p => good p.1 && decide (ahead key (l.take p.2) p.1 ≤ m) && decide (skip ≠ some p.2)

/-- What the pass holds: the first good entry that is longer than all in front of it, or a
longest entry of all. -/
def Held (l : List α) (c : α) : Prop :=
  match first good key 0 none l with
  | some (u, _) => c = u
  | none => good c = false ∧ c ∈ l ∧ ∀ y ∈ l, key y ≤ key c

/-- A longest good entry is in front, and behind it a longest one of the others. -/
def TopTwo (l l' : List α) : Prop :=
  ∃ a b rest, l' = a :: b :: rest ∧ good a = true ∧ (∀ y ∈ l, good y = true → key y ≤ key a) ∧
    good b = true ∧ ∀ y ∈ rest, good y = true → key y ≤ key b

variable {good key}

/-! ## The first good entry -/

theorem first_snoc (m : Nat) (skip : Option Nat) (l : List α) (x : α) :
    first good key m skip (l ++ [x]) = (first good key m skip l).or
      (if good x = true ∧ ahead key l x ≤ m ∧ skip ≠ some l.length then some (x, l.length) else none) := by
  have hold : ∀ p ∈ l.zipIdx, (l ++ [x]).take p.2 = l.take p.2 := by
    intro p hp
    have hlt := List.snd_lt_of_mem_zipIdx hp
    exact List.take_append_of_le_length (by omega)
  unfold first
  rw [List.zipIdx_append, List.find?_append]
  congr 1
  · apply List.find?_congr
    intro p hp
    rw [hold p hp]
  · rw [List.zipIdx_singleton, Nat.zero_add, List.find?_singleton, List.take_left]
    simp only [Bool.and_eq_true, decide_eq_true_eq, and_assoc]

theorem first_mem (m : Nat) (skip : Option Nat) (l : List α) (u : α) (q : Nat)
    (h : first good key m skip l = some (u, q)) : good u = true ∧ l[q]? = some u ∧ q < l.length := by
  have hmem := List.mem_of_find?_eq_some h
  have hgood := List.find?_some h
  simp only [Bool.and_eq_true] at hgood
  exact ⟨hgood.1.1, List.mem_zipIdx_iff_getElem?.mp hmem, by simpa using List.snd_lt_of_mem_zipIdx hmem⟩

theorem first_skip_length (m : Nat) (l : List α) :
    first good key m (some l.length) l = first good key m none l := by
  unfold first
  apply List.find?_congr
  intro p hp
  have hlt := List.snd_lt_of_mem_zipIdx hp
  have hne : l.length ≠ p.2 := by omega
  simp [hne]

theorem ahead_cons (l : List α) (x y : α) :
    ahead key (y :: l) x = ahead key l x + if key x ≤ key y then 1 else 0 := by
  unfold ahead
  rw [List.countP_cons]
  simp

theorem ahead_perm {l l' : List α} (h : l.Perm l') (x : α) : ahead key l x = ahead key l' x :=
  h.countP_eq _

/-! ## One pass -/

theorem pass_snoc (c : α) (xs : List α) (x : α) :
    pass good key c (xs ++ [x]) = step good key (pass good key c xs) x := by
  unfold pass
  rw [List.foldl_append]
  rfl

theorem step_good (p : α × List α) (x : α) (h : good p.1 = true) : step good key p x = (p.1, p.2 ++ [x]) := by
  simp [step, h]

theorem step_short (p : α × List α) (x : α) (h : ¬ key p.1 < key x) :
    step good key p x = (p.1, p.2 ++ [x]) := by
  simp [step, h]

theorem step_long (p : α × List α) (x : α) (h : good p.1 = false) (hlt : key p.1 < key x) :
    step good key p x = (x, p.2 ++ [p.1]) := by
  simp [step, h, hlt]

theorem step_perm (p : α × List α) (x : α) :
    ((step good key p x).1 :: (step good key p x).2).Perm ((p.1 :: p.2) ++ [x]) := by
  unfold step
  split
  · exact ((List.perm_append_singleton p.1 p.2).cons x).trans (List.perm_append_singleton x (p.1 :: p.2)).symm
  · exact List.Perm.refl _

theorem pass_perm (c : α) (xs : List α) :
    ((pass good key c xs).1 :: (pass good key c xs).2).Perm (c :: xs) := by
  induction xs using List.reverseRecOn with
  | nil => exact List.Perm.refl _
  | append_singleton xs x ih =>
    rw [pass_snoc]
    exact (step_perm _ _).trans (ih.append_right [x])

theorem ahead_eq_zero (l : List α) (x c : α) (hmax : ∀ y ∈ l, key y ≤ key c) (hlt : key c < key x) :
    ahead key l x = 0 := by
  unfold ahead
  rw [List.countP_eq_zero]
  intro y hy
  have := hmax y hy
  simp only [decide_eq_true_eq]
  omega

theorem ahead_pos (l : List α) (x c : α) (hc : c ∈ l) (hle : key x ≤ key c) : 0 < ahead key l x :=
  List.countP_pos_iff.mpr ⟨c, hc, decide_eq_true hle⟩

theorem first_nil (m : Nat) (skip : Option Nat) : first good key m skip ([] : List α) = none := rfl

/-- The step of the induction, where nothing good was long enough so far. -/
theorem held_snoc (l : List α) (p : α × List α) (x : α) (hnone : first good key 0 none l = none)
    (hbad : good p.1 = false) (hmem : p.1 ∈ l) (hmax : ∀ y ∈ l, key y ≤ key p.1) :
    Held good key (l ++ [x]) (step good key p x).1 := by
  unfold Held
  rw [first_snoc, hnone, Option.none_or]
  by_cases hlt : key p.1 < key x
  · rw [step_long p x hbad hlt, ahead_eq_zero l x p.1 hmax hlt]
    cases hx : good x with
    | true => simp
    | false =>
      refine ⟨rfl, List.mem_append_right _ (List.mem_singleton_self x), ?_⟩
      intro y hy
      rcases List.mem_append.mp hy with hy | hy
      · have := hmax y hy
        simp only
        omega
      · rw [List.mem_singleton.mp hy]
  · have hpos := ahead_pos l x p.1 hmem (Nat.le_of_not_lt hlt)
    have hno : ¬ (good x = true ∧ ahead key l x ≤ 0 ∧ (none : Option Nat) ≠ some l.length) := by
      rintro ⟨-, hle, -⟩
      omega
    rw [step_short p x hlt, if_neg hno]
    refine ⟨hbad, List.mem_append_left _ hmem, ?_⟩
    intro y hy
    rcases List.mem_append.mp hy with hy | hy
    · exact hmax y hy
    · rw [List.mem_singleton.mp hy]
      exact Nat.le_of_not_lt hlt

theorem pass_held (c : α) (xs : List α) : Held good key (c :: xs) (pass good key c xs).1 := by
  induction xs using List.reverseRecOn with
  | nil =>
    unfold Held
    cases hgood : good c <;> simp [first, ahead, pass, hgood]
  | append_singleton xs x ih =>
    rw [pass_snoc, ← List.cons_append]
    unfold Held at ih
    cases hfirst : first good key 0 none (c :: xs) with
    | some r =>
      rw [hfirst] at ih
      have hgood : good (pass good key c xs).1 = true := ih ▸ (first_mem 0 none _ r.1 r.2 hfirst).1
      unfold Held
      rw [step_good _ x hgood, first_snoc, hfirst]
      exact ih
    | none =>
      rw [hfirst] at ih
      exact held_snoc (c :: xs) _ x hfirst ih.1 ih.2.1 ih.2.2

/-! ## The second pass -/

theorem first_snoc_bad (m : Nat) (skip : Option Nat) (l : List α) (x : α) (h : good x = false) :
    first good key m skip (l ++ [x]) = first good key m skip l := by
  rw [first_snoc, h, if_neg (by simp), Option.or_none]

/-- An entry that the pass leaves where it is. In the list, the entry that is held is ahead
of it too. -/
theorem first_rest_snoc (l : List α) (p : α × List α) (x : α) (skip : Option Nat) (hperm : (p.1 :: p.2).Perm l)
    (hskip : skip ≠ some l.length) (hle : good x = true → key x ≤ key p.1)
    (ih : first good key 0 none p.2 = (first good key 1 skip l).map fun r => (r.1, r.2 - 1)) :
    first good key 0 none (p.2 ++ [x]) = (first good key 1 skip (l ++ [x])).map fun r => (r.1, r.2 - 1) := by
  have hlength : l.length = p.2.length + 1 := hperm.length_eq.symm
  cases hx : good x with
  | false => rw [first_snoc_bad _ _ _ _ hx, first_snoc_bad _ _ _ _ hx, ih]
  | true =>
    have hahead : ahead key l x = ahead key p.2 x + 1 := by
      rw [← ahead_perm hperm, ahead_cons, if_pos (hle hx)]
    rw [first_snoc, first_snoc, ih, Option.map_or, hahead]
    congr 1
    by_cases hzero : ahead key p.2 x = 0
    · rw [if_pos ⟨hx, by omega, by simp⟩, if_pos ⟨hx, by omega, hskip⟩, hlength]
      rfl
    · rw [if_neg (fun h => hzero (by omega)), if_neg (fun h => hzero (by omega))]
      rfl

/-- The first good entry of what a pass leaves behind: in the list, one entry more may be
ahead of it. -/
theorem pass_rest (c : α) (xs : List α)
    (hlongest : ∀ u q, first good key 0 none (c :: xs) = some (u, q) → ∀ y ∈ c :: xs, good y = true → key y ≤ key u) :
    first good key 0 none (pass good key c xs).2 =
      (first good key 1 ((first good key 0 none (c :: xs)).map Prod.snd) (c :: xs)).map
        fun r => (r.1, r.2 - 1) := by
  induction xs using List.reverseRecOn with
  | nil =>
    rw [show (pass good key c []).2 = [] from rfl, first_nil]
    cases hgood : good c <;> simp [first, ahead, hgood]
  | append_singleton xs x ih =>
    have hheld : Held good key (c :: xs) (pass good key c xs).1 := pass_held c xs
    have hperm : ((pass good key c xs).1 :: (pass good key c xs).2).Perm (c :: xs) := pass_perm c xs
    rw [pass_snoc, ← List.cons_append]
    rw [← List.cons_append] at hlongest
    generalize pass good key c xs = p at *
    generalize c :: xs = l at *
    unfold Held at hheld
    cases hfirst : first good key 0 none l with
    | some r =>
      obtain ⟨hgood, -, hlt⟩ := first_mem 0 none l r.1 r.2 hfirst
      rw [hfirst] at hheld ih
      have hsnoc : first good key 0 none (l ++ [x]) = some r := by rw [first_snoc, hfirst, Option.some_or]
      rw [hsnoc, step_good p x (hheld ▸ hgood)]
      refine first_rest_snoc l p x _ hperm (fun h => ?_) (fun hx => ?_) (ih fun u q hu y hy => ?_)
      · have := Option.some.inj h
        omega
      · rw [hheld]
        exact hlongest r.1 r.2 hsnoc x (List.mem_append_right _ (List.mem_singleton_self x)) hx
      · exact hlongest u q (hsnoc.trans hu) y (List.mem_append_left _ hy)
    | none =>
      rw [hfirst] at hheld ih
      obtain ⟨hbad, hmem, hmax⟩ := hheld
      have ih := ih fun u q hu => absurd hu (by simp)
      by_cases hlt : key p.1 < key x
      · rw [step_long p x hbad hlt, first_snoc_bad _ _ _ _ hbad, ih]
        cases hx : good x with
        | false => rw [first_snoc_bad _ _ _ _ hx, first_snoc_bad _ _ _ _ hx, hfirst]
        | true =>
          -- The pass has found its entry, which is the place to skip.
          rw [first_snoc 0, hfirst, ahead_eq_zero l x p.1 hmax hlt, if_pos ⟨hx, by omega, by simp⟩, Option.none_or,
            Option.map_some, first_snoc 1, if_neg (by simp), Option.or_none, first_skip_length]
          rfl
      · have hpos := ahead_pos l x p.1 hmem (Nat.le_of_not_lt hlt)
        have hsnoc : first good key 0 none (l ++ [x]) = none := by
          rw [first_snoc, hfirst, Option.none_or, if_neg (fun h => by omega)]
        rw [hsnoc, step_short p x hlt]
        exact first_rest_snoc l p x _ hperm (by simp) (fun _ => Nat.le_of_not_lt hlt) ih

/-! ## All passes -/

theorem sort_cons (c : α) (xs : List α) :
    sort good key (c :: xs) = (pass good key c xs).1 :: sort good key (pass good key c xs).2 := by
  rw [sort]

theorem sort_perm (l : List α) : (sort good key l).Perm l := by
  induction hn : l.length generalizing l with
  | zero =>
    rw [List.length_eq_zero_iff.mp hn, sort]
  | succ n ih =>
    obtain ⟨c, xs, rfl⟩ := List.exists_cons_of_length_eq_add_one hn
    rw [sort_cons]
    exact ((ih _ (by rw [length_pass]; simpa using hn)).cons _).trans (pass_perm c xs)

/-- Where nothing is good, every pass holds a longest entry, and the longest ones are in front. -/
theorem sort_sorted (l : List α) : (sort (fun _ => false) key l).Pairwise fun a b => key b ≤ key a := by
  induction hn : l.length generalizing l with
  | zero =>
    rw [List.length_eq_zero_iff.mp hn, sort]
    exact List.Pairwise.nil
  | succ n ih =>
    obtain ⟨c, xs, rfl⟩ := List.exists_cons_of_length_eq_add_one hn
    have hheld : Held (fun _ => false) key (c :: xs) (pass (fun _ => false) key c xs).1 := pass_held c xs
    have hfirst : first (fun _ => false) key 0 none (c :: xs) = none := by simp [first]
    unfold Held at hheld
    rw [hfirst] at hheld
    rw [sort_cons, List.pairwise_cons]
    refine ⟨?_, ih _ (by rw [length_pass]; simpa using hn)⟩
    intro y hy
    have hmem := (pass_perm c xs).mem_iff.mp (List.mem_cons_of_mem _ ((sort_perm _).mem_iff.mp hy))
    exact hheld.2.2 y hmem

/-! ## The passes on an array -/

theorem length_exchange (i : Nat) (l : List α) (j : Nat) : (exchange good key i l j).length = l.length := by
  unfold exchange
  split
  · split <;> simp
  · rfl

theorem length_passAt (l : List α) (i : Nat) : (passAt good key l i).length = l.length := by
  unfold passAt
  generalize List.range' (i + 1) (l.length - (i + 1)) = places
  induction places generalizing l with
  | nil => rfl
  | cons j places ih => rw [List.foldl_cons, ih, length_exchange]

theorem exchange_eq (pre mid xs : List α) (c x : α) :
    exchange good key pre.length (pre ++ c :: (mid ++ x :: xs)) (pre.length + 1 + mid.length) =
      pre ++ (step good key (c, mid) x).1 :: ((step good key (c, mid) x).2 ++ xs) := by
  have hi : (pre ++ c :: (mid ++ x :: xs))[pre.length]? = some c := by simp
  have hj : (pre ++ c :: (mid ++ x :: xs))[pre.length + 1 + mid.length]? = some x := by
    rw [Nat.add_assoc, Nat.add_comm 1, List.getElem?_append_right (by omega)]
    simp
  unfold exchange step
  rw [hi, hj]
  dsimp only
  split
  · have hset : (pre ++ c :: (mid ++ x :: xs)).set pre.length x = pre ++ x :: (mid ++ x :: xs) := by simp
    have hset' : (pre ++ x :: (mid ++ x :: xs)).set (pre.length + 1 + mid.length) c = pre ++ x :: (mid ++ c :: xs) := by
      rw [Nat.add_assoc, Nat.add_comm 1, List.set_append_right _ _ (by omega)]
      simp
    rw [hset, hset', List.append_assoc]
    rfl
  · rw [List.append_assoc]
    rfl

theorem exchanges_eq (pre rest mid : List α) (c : α) :
    (List.range' (pre.length + 1 + mid.length) rest.length).foldl (exchange good key pre.length)
        (pre ++ c :: (mid ++ rest)) =
      pre ++ (rest.foldl (step good key) (c, mid)).1 :: (rest.foldl (step good key) (c, mid)).2 := by
  induction rest generalizing c mid with
  | nil => simp
  | cons x xs ih =>
    have hlength : (step good key (c, mid) x).2.length = mid.length + 1 := by
      unfold step
      split <;> simp
    rw [List.length_cons, List.range'_succ, List.foldl_cons, List.foldl_cons, exchange_eq, ← ih, hlength,
      Nat.add_assoc _ mid.length]

theorem passAt_eq (pre xs : List α) (c : α) :
    passAt good key (pre ++ c :: xs) pre.length = (pre ++ [(pass good key c xs).1]) ++ (pass good key c xs).2 := by
  have hlength : (pre ++ c :: xs).length - (pre.length + 1) = xs.length := by
    rw [List.length_append, List.length_cons]
    omega
  have hloop := @exchanges_eq α good key pre xs [] c
  rw [List.length_nil, Nat.add_zero, List.nil_append] at hloop
  rw [passAt, hlength, hloop, List.append_assoc]
  rfl

theorem passes_eq (l pre : List α) :
    (List.range' pre.length l.length).foldl (passAt good key) (pre ++ l) = pre ++ sort good key l := by
  induction hn : l.length generalizing l pre with
  | zero =>
    rw [List.length_eq_zero_iff.mp hn, sort]
    rfl
  | succ n ih =>
    obtain ⟨c, xs, rfl⟩ := List.exists_cons_of_length_eq_add_one hn
    have hrest : (pass good key c xs).2.length = n := by
      rw [length_pass]
      simpa using hn
    have hstep := ih (pass good key c xs).2 (pre ++ [(pass good key c xs).1]) hrest
    rw [List.length_append, List.length_singleton] at hstep
    rw [List.range'_succ, List.foldl_cons, passAt_eq, hstep, sort_cons, List.append_assoc]
    rfl

theorem passAt_sort (l : List α) : (List.range' 0 l.length).foldl (passAt good key) l = sort good key l := by
  have h := @passes_eq α good key l []
  rwa [List.nil_append, List.nil_append, List.length_nil] at h

/-! ## The two entries in front -/

theorem pass_first (c : α) (xs : List α) (u : α) (q : Nat) (h : first good key 0 none (c :: xs) = some (u, q)) :
    (pass good key c xs).1 = u := by
  have hheld : Held good key (c :: xs) (pass good key c xs).1 := pass_held c xs
  unfold Held at hheld
  rw [h] at hheld
  exact hheld

theorem first_of_good (c : α) (xs : List α) (h : good (pass good key c xs).1 = true) :
    ∃ q, first good key 0 none (c :: xs) = some ((pass good key c xs).1, q) := by
  have hheld : Held good key (c :: xs) (pass good key c xs).1 := pass_held c xs
  unfold Held at hheld
  cases hfirst : first good key 0 none (c :: xs) with
  | none =>
    rw [hfirst, h] at hheld
    exact absurd hheld.1 (by simp)
  | some r =>
    rw [hfirst] at hheld
    exact ⟨r.2, by rw [hheld]⟩

theorem mem_rest (c : α) (xs : List α) (u : α) (q : Nat) (h : first good key 0 none (c :: xs) = some (u, q)) (y : α) :
    y ∈ (pass good key c xs).2 ↔ ∃ k, k ≠ q ∧ (c :: xs)[k]? = some y := by
  obtain ⟨-, hu, hq⟩ := first_mem 0 none (c :: xs) u q h
  have hperm : ((pass good key c xs).1 :: (pass good key c xs).2).Perm (c :: xs) := pass_perm c xs
  rw [pass_first c xs u q h] at hperm
  have herase : (c :: xs).Perm (u :: (c :: xs).eraseIdx q) := by
    conv_lhs => rw [← List.take_append_drop q (c :: xs), List.drop_eq_getElem_cons hq]
    rw [(List.getElem?_eq_some_iff.mp hu).2, List.eraseIdx_eq_take_drop_succ]
    exact List.perm_middle
  rw [(hperm.trans herase).cons_inv.mem_iff, List.mem_eraseIdx_iff_getElem?]

theorem topTwo_cons (c : α) (xs : List α) (d : α) (ds : List α) (hrest : (pass good key c xs).2 = d :: ds) :
    TopTwo good key (c :: xs) (sort good key (c :: xs)) ↔
      good (pass good key c xs).1 = true ∧
      (∀ y ∈ c :: xs, good y = true → key y ≤ key (pass good key c xs).1) ∧
      good (pass good key d ds).1 = true ∧
      ∀ y ∈ (pass good key c xs).2, good y = true → key y ≤ key (pass good key d ds).1 := by
  have hperm : ((pass good key d ds).1 :: (pass good key d ds).2).Perm (d :: ds) := pass_perm d ds
  have hsort : sort good key (c :: xs) =
      (pass good key c xs).1 :: (pass good key d ds).1 :: sort good key (pass good key d ds).2 := by
    rw [sort_cons, hrest, sort_cons]
  rw [hsort, hrest]
  constructor
  · rintro ⟨a, b, rest, heq, ha, hlongest, hb, hothers⟩
    simp only [List.cons.injEq] at heq
    obtain ⟨rfl, rfl, rfl⟩ := heq
    refine ⟨ha, hlongest, hb, ?_⟩
    intro y hy
    rcases List.mem_cons.mp (hperm.mem_iff.mpr hy) with rfl | hy
    · exact fun _ => le_refl _
    · exact hothers y ((sort_perm _).mem_iff.mpr hy)
  · rintro ⟨ha, hlongest, hb, hothers⟩
    refine ⟨_, _, _, rfl, ha, hlongest, hb, ?_⟩
    intro y hy
    exact hothers y (hperm.mem_iff.mp (List.mem_cons_of_mem _ ((sort_perm _).mem_iff.mp hy)))

theorem first_rest (c : α) (xs : List α) (a : α) (q : Nat) (hq : first good key 0 none (c :: xs) = some (a, q))
    (hlongest : ∀ y ∈ c :: xs, good y = true → key y ≤ key a) :
    first good key 0 none (pass good key c xs).2 =
      (first good key 1 (some q) (c :: xs)).map fun r => (r.1, r.2 - 1) := by
  rw [pass_rest c xs, hq]
  · rfl
  · intro u q' hu
    rw [hq, Option.some.injEq, Prod.mk.injEq] at hu
    exact hu.1 ▸ hlongest

theorem sort_topTwo_iff (l : List α) :
    TopTwo good key l (sort good key l) ↔
      ∃ a q b r, first good key 0 none l = some (a, q) ∧ (∀ y ∈ l, good y = true → key y ≤ key a) ∧
        first good key 1 (some q) l = some (b, r) ∧
        ∀ k y, k ≠ q → l[k]? = some y → good y = true → key y ≤ key b := by
  cases l with
  | nil =>
    constructor
    · rintro ⟨a, b, rest, heq, -⟩
      rw [sort] at heq
      exact absurd heq (by simp)
    · rintro ⟨a, q, b, r, hfirst, -⟩
      exact absurd hfirst (by simp [first])
  | cons c xs =>
    cases hrest : (pass good key c xs).2 with
    | nil =>
      constructor
      · rintro ⟨a, b, rest, heq, -⟩
        rw [sort_cons, hrest, sort] at heq
        exact absurd heq (by simp)
      · rintro ⟨a, q, b, r, hq, hlongest, hr, -⟩
        have hsecond := first_rest c xs a q hq hlongest
        rw [hrest, hr, Option.map_some, first_nil] at hsecond
        exact absurd hsecond (by simp)
    | cons d ds =>
      rw [topTwo_cons c xs d ds hrest]
      constructor
      · rintro ⟨ha, hlongest, hb, hothers⟩
        obtain ⟨q, hq⟩ := first_of_good c xs ha
        obtain ⟨r, hr⟩ := first_of_good d ds hb
        have hsecond := first_rest c xs _ q hq hlongest
        rw [hrest, hr] at hsecond
        obtain ⟨⟨b, r'⟩, hb', hbr⟩ := Option.map_eq_some_iff.mp hsecond.symm
        obtain ⟨rfl, -⟩ := Prod.mk.inj hbr
        refine ⟨_, q, _, r', hq, hlongest, hb', ?_⟩
        intro k y hk hy
        exact hothers y ((mem_rest c xs _ q hq y).mpr ⟨k, hk, hy⟩)
      · rintro ⟨a, q, b, r, hq, hlongest, hr, hothers⟩
        have hsecond := first_rest c xs a q hq hlongest
        rw [hrest, hr, Option.map_some] at hsecond
        rw [pass_first c xs a q hq, pass_first d ds b _ hsecond]
        refine ⟨(first_mem 0 none _ a q hq).1, hlongest, (first_mem 0 none _ b _ hsecond).1, ?_⟩
        intro y hy
        obtain ⟨k, hk, hy⟩ := (mem_rest c xs a q hq y).mp hy
        exact hothers k y hk hy

end SlayerOS.Exchange
