import Mathlib.Data.List.Forall2
import Mathlib.Logic.Basic
import Mathlib.Logic.Function.Iterate

/-!
# Loops that may not end

A computation takes fuel and gives a result, or `none` where it faults or the fuel runs
out. More fuel never changes a result, and the type carries that fact. So what a
computation ends in does not depend on the fuel.
-/

namespace SlayerOS.Fuel

/-- A computation. More fuel keeps its result. -/
structure Comp (α : Type) where
  run : Nat → Option α
  mono : ∀ n a, run n = some a → run (n + 1) = some a

namespace Comp

variable {α β σ : Type}

/-- The computation ends in `a`, without a fault. -/
def Ends (c : Comp α) (a : α) : Prop := ∃ n, c.run n = some a

instance : Monad Comp where
  pure a := ⟨fun _ => some a, fun _ _ h => h⟩
  bind c f :=
    { run := fun n => (c.run n).bind fun a => (f a).run n
      mono := by
        intro n b h
        obtain ⟨a, ha, hb⟩ := Option.bind_eq_some_iff.mp h
        rw [c.mono n a ha]
        exact (f a).mono n b hb }

/-- A step that takes no fuel. `none` is a fault. -/
def lift (o : Option α) : Comp α := ⟨fun _ => o, fun _ _ h => h⟩

/-- `while (cond) body`, each round with the fuel left. -/
def loop (cond : σ → Comp Bool) (body : σ → Comp σ) : Nat → σ → Option σ
  | 0, _ => none
  | n + 1, s => ((cond s).run n).bind fun go =>
      if go then ((body s).run n).bind (loop cond body n) else some s

theorem loop_mono (cond : σ → Comp Bool) (body : σ → Comp σ) (n : Nat) (s t : σ)
    (h : loop cond body n s = some t) : loop cond body (n + 1) s = some t := by
  induction n generalizing s with
  | zero => cases h
  | succ n ih =>
    rw [loop] at h ⊢
    obtain ⟨go, hgo, ht⟩ := Option.bind_eq_some_iff.mp h
    rw [(cond s).mono n go hgo, Option.bind_some]
    split
    · rename_i htrue
      rw [if_pos htrue] at ht
      obtain ⟨u, hu, ht'⟩ := Option.bind_eq_some_iff.mp ht
      rw [(body s).mono n u hu]
      exact ih u ht'
    · rename_i hfalse
      rw [if_neg hfalse] at ht
      exact ht

/-- `while (cond) body` from the state `s`. -/
def while_ (cond : σ → Comp Bool) (body : σ → Comp σ) (s : σ) : Comp σ :=
  ⟨fun n => loop cond body n s, fun n t h => loop_mono cond body n s t h⟩

/-! ## Results -/

theorem mono_le (c : Comp α) {n k : Nat} (hle : n ≤ k) (a : α) (h : c.run n = some a) : c.run k = some a := by
  induction hle with
  | refl => exact h
  | step _ ih => exact c.mono _ a ih

theorem Ends.unique {c : Comp α} {a b : α} (ha : c.Ends a) (hb : c.Ends b) : a = b := by
  obtain ⟨n, hn⟩ := ha
  obtain ⟨k, hk⟩ := hb
  have h1 := c.mono_le (Nat.le_max_left n k) a hn
  have h2 := c.mono_le (Nat.le_max_right n k) b hk
  exact Option.some.inj (h1.symm.trans h2)

theorem ends_of_run (c : Comp α) (n : Nat) (h : (c.run n).isSome = true) : ∃ a, c.Ends a :=
  ⟨_, n, Option.eq_some_of_isSome h⟩

@[simp] theorem ends_pure (a b : α) : (pure a : Comp α).Ends b ↔ a = b :=
  ⟨fun ⟨_, h⟩ => Option.some.inj h, fun h => ⟨0, congrArg some h⟩⟩

@[simp] theorem ends_lift (o : Option α) (a : α) : (lift o).Ends a ↔ o = some a :=
  ⟨fun ⟨_, h⟩ => h, fun h => ⟨0, h⟩⟩

@[simp] theorem ends_bind (c : Comp α) (f : α → Comp β) (b : β) :
    (c >>= f).Ends b ↔ ∃ a, c.Ends a ∧ (f a).Ends b := by
  constructor
  · rintro ⟨n, h⟩
    obtain ⟨a, ha, hb⟩ := Option.bind_eq_some_iff.mp h
    exact ⟨a, ⟨n, ha⟩, n, hb⟩
  · rintro ⟨a, ⟨n, hn⟩, k, hk⟩
    refine ⟨max n k, Option.bind_eq_some_iff.mpr ⟨a, ?_, ?_⟩⟩
    · exact c.mono_le (Nat.le_max_left n k) a hn
    · exact (f a).mono_le (Nat.le_max_right n k) b hk

/-! ## Lists -/

/-- The computations of the members end in `ys`, one after the other. -/
def EndsAll (f : α → Comp β) (l : List α) (ys : List β) : Prop := List.Forall₂ (fun x y => (f x).Ends y) l ys

theorem endsAll_cons_iff (f : α → Comp β) (x : α) (l : List α) (ys : List β) :
    EndsAll f (x :: l) ys ↔ ∃ y zs, (f x).Ends y ∧ EndsAll f l zs ∧ ys = y :: zs := List.forall₂_cons_left_iff

theorem endsAll_exists_iff (f : α → Comp β) (l : List α) : (∃ ys, EndsAll f l ys) ↔ ∀ x ∈ l, ∃ y, (f x).Ends y := by
  induction l with
  | nil => exact iff_of_true ⟨[], List.Forall₂.nil⟩ (List.forall_mem_nil _)
  | cons x l ih =>
    rw [List.forall_mem_cons, ← ih]
    constructor
    · rintro ⟨ys, hys⟩
      obtain ⟨y, zs, hy, hzs, -⟩ := (endsAll_cons_iff f x l ys).mp hys
      exact ⟨⟨y, hy⟩, zs, hzs⟩
    · rintro ⟨⟨y, hy⟩, zs, hzs⟩
      exact ⟨y :: zs, List.Forall₂.cons hy hzs⟩

theorem endsAll_mem {f : α → Comp β} {l : List α} {ys : List β} (h : EndsAll f l ys) :
    ∀ y ∈ ys, ∃ x ∈ l, (f x).Ends y := by
  induction h with
  | nil => exact nofun
  | cons hxy _ ih =>
    refine List.forall_mem_cons.mpr ⟨⟨_, List.mem_cons_self, hxy⟩, ?_⟩
    intro y hy
    obtain ⟨x, hx, hends⟩ := ih y hy
    exact ⟨x, List.mem_cons_of_mem _ hx, hends⟩

/-! ## Loops -/

variable {cond : σ → Comp Bool} {body : σ → Comp σ}

theorem ends_while (s t : σ) :
    (while_ cond body s).Ends t ↔
      ((cond s).Ends false ∧ s = t) ∨
        ((cond s).Ends true ∧ ∃ u, (body s).Ends u ∧ (while_ cond body u).Ends t) := by
  constructor
  · rintro ⟨n, h⟩
    cases n with
    | zero => cases h
    | succ n =>
      obtain ⟨go, hgo, ht⟩ := Option.bind_eq_some_iff.mp h
      cases go with
      | false => exact Or.inl ⟨⟨n, hgo⟩, Option.some.inj ht⟩
      | true =>
        obtain ⟨u, hu, ht'⟩ := Option.bind_eq_some_iff.mp ht
        exact Or.inr ⟨⟨n, hgo⟩, u, ⟨n, hu⟩, n, ht'⟩
  · rintro (⟨⟨n, hn⟩, rfl⟩ | ⟨⟨n, hn⟩, u, ⟨k, hk⟩, m, hm⟩)
    · refine ⟨n + 1, ?_⟩
      change ((cond s).run n).bind _ = _
      rw [hn]
      rfl
    · refine ⟨max n (max k m) + 1, ?_⟩
      change ((cond s).run _).bind _ = _
      rw [(cond s).mono_le (by omega) true hn, Option.bind_some, if_pos rfl,
        (body s).mono_le (by omega) u hk, Option.bind_some]
      exact (while_ cond body u).mono_le (by omega) t hm

theorem while_stop {s : σ} (hstop : (cond s).Ends false) : (while_ cond body s).Ends s :=
  (ends_while s s).mpr (Or.inl ⟨hstop, rfl⟩)

theorem while_round {s t u : σ} (hgo : (cond s).Ends true) (hu : (body s).Ends u)
    (ht : (while_ cond body u).Ends t) : (while_ cond body s).Ends t :=
  (ends_while s t).mpr (Or.inr ⟨hgo, u, hu, ht⟩)

theorem while_next {s t : σ} (ht : (while_ cond body s).Ends t) (hgo : (cond s).Ends true) :
    ∃ u, (body s).Ends u ∧ (while_ cond body u).Ends t := by
  rcases (ends_while s t).mp ht with ⟨hstop, _⟩ | ⟨_, hnext⟩
  · cases hstop.unique hgo
  · exact hnext

/-- The induction over the rounds of a loop that ends. -/
theorem while_induct {P : σ → Prop} {t : σ} (hexit : (cond t).Ends false → P t)
    (hround : ∀ s u, (cond s).Ends true → (body s).Ends u → (while_ cond body u).Ends t → P u → P s)
    (s : σ) (h : (while_ cond body s).Ends t) : P s := by
  obtain ⟨n, hn⟩ := h
  induction n generalizing s with
  | zero => cases hn
  | succ n ih =>
    obtain ⟨go, hgo, ht⟩ := Option.bind_eq_some_iff.mp hn
    cases go with
    | false =>
      obtain rfl := Option.some.inj ht
      exact hexit ⟨n, hgo⟩
    | true =>
      obtain ⟨u, hu, ht'⟩ := Option.bind_eq_some_iff.mp ht
      exact hround s u ⟨n, hgo⟩ ⟨n, hu⟩ ⟨n, ht'⟩ (ih u ht')

theorem while_exit {s t : σ} (h : (while_ cond body s).Ends t) : (cond t).Ends false :=
  while_induct (P := fun _ => (cond t).Ends false) id (fun _ _ _ _ _ ih => ih) s h

/-- `t` is the state before a round of the loop, or the state in which it ends. -/
inductive Rounds (cond : σ → Comp Bool) (body : σ → Comp σ) (s : σ) : σ → Prop
  | start : Rounds cond body s s
  | round (t u : σ) : Rounds cond body s t → (cond t).Ends true → (body t).Ends u → Rounds cond body s u

/-- What the start has and every round keeps, every round has. -/
theorem Rounds.inv {P : σ → Prop} {s t : σ} (h : Rounds cond body s t) (hs : P s)
    (hround : ∀ u v, P u → (cond u).Ends true → (body u).Ends v → P v) : P t := by
  induction h with
  | start => exact hs
  | round u v _ hgo hv ih => exact hround u v ih hgo hv

theorem Rounds.ends {s t u : σ} (h : Rounds cond body s u) (ht : (while_ cond body s).Ends t) :
    (while_ cond body u).Ends t := by
  refine h.inv (P := fun u => (while_ cond body u).Ends t) ht ?_
  intro u v hu hgo hv
  obtain ⟨w, hw, ht'⟩ := while_next hu hgo
  rw [hv.unique hw]
  exact ht'

theorem Rounds.ends_of {s t u : σ} (h : Rounds cond body s t) (hu : (while_ cond body t).Ends u) :
    (while_ cond body s).Ends u := by
  induction h with
  | start => exact hu
  | round t v _ hgo hv ih => exact ih (while_round hgo hv hu)

theorem Rounds.end_unique {s u v : σ} (hu : Rounds cond body s u) (hv : Rounds cond body s v)
    (hustop : (cond u).Ends false) (hvstop : (cond v).Ends false) : u = v :=
  (hu.ends_of (while_stop hustop)).unique (hv.ends_of (while_stop hvstop))

theorem Rounds.head {s t u : σ} (hgo : (cond s).Ends true) (hu : (body s).Ends u)
    (h : Rounds cond body u t) : Rounds cond body s t := by
  induction h with
  | start => exact Rounds.round s u Rounds.start hgo hu
  | round t v _ hgo' hv ih => exact Rounds.round t v ih hgo' hv

theorem Rounds.cases_head {s t : σ} (h : Rounds cond body s t) :
    s = t ∨ ∃ u, (cond s).Ends true ∧ (body s).Ends u ∧ Rounds cond body u t := by
  induction h with
  | start => exact Or.inl rfl
  | round t v _ hgo hv ih =>
    rcases ih with rfl | ⟨u, hgo', hu, hut⟩
    · exact Or.inr ⟨v, hgo, hv, Rounds.start⟩
    · exact Or.inr ⟨u, hgo', hu, Rounds.round t v hut hgo hv⟩

/-- A property of the end that every round makes equivalent to its own guard and the same
property behind it holds exactly when every round is guarded. -/
theorem while_iff {P G : σ → Prop} {t : σ}
    (hround : ∀ s u, (cond s).Ends true → (body s).Ends u → (P u ↔ P s ∧ G s))
    (s : σ) (h : (while_ cond body s).Ends t) :
    P t ↔ P s ∧ ∀ u, Rounds cond body s u → (cond u).Ends true → G u := by
  refine while_induct (P := fun s => P t ↔ P s ∧ ∀ u, Rounds cond body s u → (cond u).Ends true → G u)
    ?_ ?_ s h
  · intro hstop
    refine ⟨fun ht => ⟨ht, ?_⟩, And.left⟩
    intro u hu hgo
    rcases hu.cases_head with rfl | ⟨_, hgo', _⟩
    · cases hstop.unique hgo
    · cases hstop.unique hgo'
  · intro s u hgo hu _ ih
    rw [ih, hround s u hgo hu]
    constructor
    · rintro ⟨⟨hs, hg⟩, hrest⟩
      refine ⟨hs, ?_⟩
      intro v hv hgo'
      rcases hv.cases_head with rfl | ⟨w, _, hw, hwv⟩
      · exact hg
      · rw [hw.unique hu] at hwv
        exact hrest v hwv hgo'
    · rintro ⟨hs, hall⟩
      exact ⟨⟨hs, hall s Rounds.start hgo⟩, fun v hv => hall v (Rounds.head hgo hu hv)⟩

theorem Rounds.last {s t : σ} (ht : (while_ cond body s).Ends t) : Rounds cond body s t := by
  refine while_induct (P := fun s => Rounds cond body s t) ?_ ?_ s ht
  · intro _
    exact Rounds.start
  · intro s u hgo hu _ h
    exact Rounds.head hgo hu h

/-! ## A number of rounds -/

/-- `t` is the state behind `k` rounds of the loop from `s` on. -/
inductive Iterates (cond : σ → Comp Bool) (body : σ → Comp σ) : Nat → σ → σ → Prop
  | zero (s : σ) : Iterates cond body 0 s s
  | succ (k : Nat) (s t u : σ) : (cond s).Ends true → (body s).Ends t → Iterates cond body k t u →
      Iterates cond body (k + 1) s u

theorem Iterates.unique {k : Nat} {s t u : σ} (ht : Iterates cond body k s t) (hu : Iterates cond body k s u) :
    t = u := by
  induction ht with
  | zero s =>
    cases hu
    rfl
  | succ k s v t _ hv _ ih =>
    cases hu with
    | succ _ _ w _ _ hw hu =>
      obtain rfl := hv.unique hw
      exact ih hu

theorem Iterates.trans {k n : Nat} {s t u : σ} (ht : Iterates cond body k s t) (hu : Iterates cond body n t u) :
    Iterates cond body (k + n) s u := by
  induction ht with
  | zero s => rwa [Nat.zero_add]
  | succ k s v t hgo hv _ ih =>
    rw [Nat.add_right_comm]
    exact Iterates.succ _ s v u hgo hv (ih hu)

theorem Iterates.split {k n : Nat} {s u : σ} (h : Iterates cond body (k + n) s u) :
    ∃ t, Iterates cond body k s t ∧ Iterates cond body n t u := by
  induction k generalizing s with
  | zero =>
    rw [Nat.zero_add] at h
    exact ⟨s, Iterates.zero s, h⟩
  | succ k ih =>
    rw [Nat.add_right_comm] at h
    cases h with
    | succ _ _ v _ hgo hv hrest =>
      obtain ⟨t, ht, hu⟩ := ih hrest
      exact ⟨t, Iterates.succ k s v t hgo hv ht, hu⟩

theorem Iterates.inv {P : σ → Prop} (hround : ∀ s t, (body s).Ends t → P t) {k : Nat} {s t : σ}
    (h : Iterates cond body k s t) (hs : P s) : P t := by
  induction h with
  | zero s => exact hs
  | succ k s v t _ hv _ ih => exact ih (hround s v hv)

theorem Iterates.one {s t : σ} (hgo : (cond s).Ends true) (ht : (body s).Ends t) : Iterates cond body 1 s t :=
  Iterates.succ 0 s t t hgo ht (Iterates.zero t)

theorem Iterates.ends {k : Nat} {s t u : σ} (h : Iterates cond body k s t) (hu : (while_ cond body t).Ends u) :
    (while_ cond body s).Ends u := by
  induction h with
  | zero s => exact hu
  | succ k s v t hgo hv _ ih => exact while_round hgo hv (ih hu)

theorem Iterates.ends_behind {k : Nat} {s t u : σ} (h : Iterates cond body k s t)
    (hu : (while_ cond body s).Ends u) : (while_ cond body t).Ends u := by
  induction h with
  | zero s => exact hu
  | succ k s v t hgo hv _ ih =>
    obtain ⟨w, hw, hrest⟩ := while_next hu hgo
    rw [← hv.unique hw] at hrest
    exact ih hrest

/-! ## Loops over a function -/

/-- A loop whose condition and body are functions ends with the first iterate that fails the
condition. -/
theorem while_iterate_iff (c : σ → Bool) (f : σ → σ) (s t : σ) :
    (while_ (fun s => pure (c s)) (fun s => pure (f s)) s).Ends t ↔
      ∃ n, t = f^[n] s ∧ c t = false ∧ ∀ k, k < n → c (f^[k] s) = true := by
  constructor
  · intro h
    refine while_induct (P := fun s => ∃ n, t = f^[n] s ∧ c t = false ∧ ∀ k, k < n → c (f^[k] s) = true)
      ?_ ?_ s h
    · intro hstop
      exact ⟨0, rfl, (ends_pure _ _).mp hstop, fun k hk => absurd hk (Nat.not_lt_zero k)⟩
    · rintro s u hgo hu - ⟨n, ht, hstop, hbefore⟩
      obtain rfl := (ends_pure _ _).mp hu
      refine ⟨n + 1, ht, hstop, ?_⟩
      intro k hk
      cases k with
      | zero => exact (ends_pure _ _).mp hgo
      | succ k => exact hbefore k (Nat.lt_of_succ_lt_succ hk)
  · rintro ⟨n, rfl, hstop, hbefore⟩
    induction n generalizing s with
    | zero => exact while_stop ((ends_pure _ _).mpr hstop)
    | succ n ih =>
      refine while_round ((ends_pure _ _).mpr (hbefore 0 (Nat.succ_pos n))) ((ends_pure _ _).mpr rfl) ?_
      exact ih (f s) hstop fun k hk => hbefore (k + 1) (Nat.succ_lt_succ hk)

theorem while_iterate_ends (c : σ → Bool) (f : σ → σ) (s : σ) (n : Nat) (h : c (f^[n] s) = false) :
    ∃ t, (while_ (fun s => pure (c s)) (fun s => pure (f s)) s).Ends t := by
  induction n generalizing s with
  | zero => exact ⟨s, while_stop ((ends_pure _ _).mpr h)⟩
  | succ n ih =>
    cases hc : c s with
    | false => exact ⟨s, while_stop ((ends_pure _ _).mpr hc)⟩
    | true =>
      obtain ⟨t, ht⟩ := ih (f s) h
      exact ⟨t, while_round ((ends_pure _ _).mpr hc) ((ends_pure _ _).mpr rfl) ht⟩

end Comp

end SlayerOS.Fuel
