import Mathlib.Data.List.Induction
import Mathlib.Data.Option.Basic
import Mathlib.Logic.Function.Basic

/-!
# Tables that refer to tables

A store gives the entry of a table at an index, and an entry may refer to another
table. A path is a list of indices. The tables form a tree when no two paths of at most
`n` steps end at one table.
-/

namespace SlayerOS.Radix

variable {τ ι ε : Type} (child : ε → Option τ)

/-- The table at the end of a path. -/
def follow (g : τ → ι → ε) : τ → List ι → Option τ
  | t, [] => some t
  | t, i :: is => (child (g t i)).bind fun t' => follow g t' is

/-- A path of at most `n` steps ends at `t`. -/
def Reach (g : τ → ι → ε) (root : τ) (n : Nat) (t : τ) : Prop :=
  ∃ p, p.length ≤ n ∧ follow child g root p = some t

def IsTree (g : τ → ι → ε) (root : τ) (n : Nat) : Prop :=
  ∀ p q t, p.length ≤ n → q.length ≤ n → follow child g root p = some t →
    follow child g root q = some t → p = q

/-! ## Paths -/

variable {child}

theorem follow_append (g : τ → ι → ε) (t : τ) (p q : List ι) :
    follow child g t (p ++ q) = (follow child g t p).bind fun t' => follow child g t' q := by
  induction p generalizing t with
  | nil => rfl
  | cons i p ih =>
    rw [List.cons_append, follow, follow]
    cases child (g t i) with
    | none => rfl
    | some t' => simp [ih]

theorem follow_snoc (g : τ → ι → ε) (t : τ) (p : List ι) (i : ι) :
    follow child g t (p ++ [i]) = (follow child g t p).bind fun t' => child (g t' i) := by
  rw [follow_append]
  congr 1
  funext t'
  simp [follow]

theorem follow_congr (g g' : τ → ι → ε) (root : τ) (n : Nat)
    (h : ∀ t, Reach child g root n t → g' t = g t) (p : List ι) (hp : p.length ≤ n + 1) :
    follow child g' root p = follow child g root p := by
  induction p using List.reverseRecOn with
  | nil => rfl
  | append_singleton p i ih =>
    simp only [List.length_append, List.length_singleton] at hp
    rw [follow_snoc, follow_snoc, ih (by omega)]
    cases ht : follow child g root p with
    | none => rfl
    | some t => rw [Option.bind_some, Option.bind_some, h t ⟨p, by omega, ht⟩]

/-! ## Cells -/

variable [DecidableEq τ] [DecidableEq ι]

def set (g : τ → ι → ε) (t : τ) (i : ι) (e : ε) : τ → ι → ε :=
  Function.update g t (Function.update (g t) i e)

@[simp] theorem set_same (g : τ → ι → ε) (t : τ) (i : ι) (e : ε) : set g t i e t i = e := by
  simp [set]

theorem set_other (g : τ → ι → ε) (t : τ) (i : ι) (e : ε) (t' : τ) (j : ι) (h : t' ≠ t ∨ j ≠ i) :
    set g t i e t' j = g t' j := by
  unfold set
  by_cases ht : t' = t
  · subst ht
    simp [Function.update_of_ne (h.resolve_left (by simp))]
  · rw [Function.update_of_ne ht]

/-- A cell that refers to no table can change without harm to the paths that are there. -/
theorem follow_set_of_none (g : τ → ι → ε) (t : τ) (i : ι) (e : ε) (h : child (g t i) = none)
    (root t' : τ) (p : List ι) (hp : follow child g root p = some t') :
    follow child (set g t i e) root p = some t' := by
  induction p generalizing root with
  | nil => exact hp
  | cons j p ih =>
    rw [follow] at hp ⊢
    obtain ⟨r, hr, hp⟩ := Option.bind_eq_some_iff.mp hp
    have hcell : root ≠ t ∨ j ≠ i := by
      by_contra hne
      push Not at hne
      rw [hne.1, hne.2, h] at hr
      exact absurd hr (by simp)
    rw [set_other g t i e root j hcell, hr, Option.bind_some, ih r hp]

/-! ## Trees -/

/-- In a tree, a cell matters only to the paths through it. -/
theorem IsTree.follow_set {g : τ → ι → ε} {root : τ} {n : Nat} (h : IsTree child g root n) (t : τ)
    (pt : List ι) (ht : follow child g root pt = some t) (hpt : pt.length ≤ n) (i : ι) (e : ε)
    (p : List ι) (hp : p.length ≤ n + 1) (hno : ¬ pt ++ [i] <+: p) :
    follow child (set g t i e) root p = follow child g root p := by
  induction p using List.reverseRecOn with
  | nil => rfl
  | append_singleton p j ih =>
    simp only [List.length_append, List.length_singleton] at hp
    have hno' : ¬ pt ++ [i] <+: p := fun hpre => hno (hpre.trans (List.prefix_append p [j]))
    rw [follow_snoc, follow_snoc, ih (by omega) hno']
    cases htp : follow child g root p with
    | none => rfl
    | some u =>
      rw [Option.bind_some, Option.bind_some, set_other]
      by_contra hcell
      push Not at hcell
      obtain ⟨rfl, rfl⟩ := hcell
      obtain rfl : p = pt := h p pt u (by omega) hpt htp ht
      exact hno (List.prefix_refl _)

theorem IsTree.set_last {g : τ → ι → ε} {root : τ} {n : Nat} (h : IsTree child g root n) (t : τ)
    (pt : List ι) (ht : follow child g root pt = some t) (hpt : pt.length = n) (i : ι) (e : ε)
    (p : List ι) (hp : p.length ≤ n) :
    follow child (set g t i e) root p = follow child g root p := by
  apply h.follow_set t pt ht (by omega) i e p (by omega)
  intro hpre
  have := hpre.length_le
  simp only [List.length_append, List.length_singleton] at this
  omega

/-! ## A new table -/

/-- All entries of `u` become `z`, and then entry `i` of `t` becomes `e`. -/
def attach (g : τ → ι → ε) (t : τ) (i : ι) (e : ε) (u : τ) (z : ε) : τ → ι → ε :=
  set (Function.update g u fun _ => z) t i e

/-- The entry at the end of a path, or `z` where the path ends early. -/
def lookup (child : ε → Option τ) (g : τ → ι → ε) (root : τ) (z : ε) (p : List ι) (i : ι) : ε :=
  ((follow child g root p).map fun t => g t i).getD z

omit [DecidableEq ι] in
theorem follow_clear (g : τ → ι → ε) (root : τ) (n : Nat) (u : τ) (z : ε) (hu : ¬ Reach child g root n u)
    (p : List ι) (hp : p.length ≤ n + 1) :
    follow child (Function.update g u fun _ => z) root p = follow child g root p := by
  apply follow_congr g _ root n _ p hp
  intro t ht
  apply Function.update_of_ne
  rintro rfl
  exact hu ht

section Attach

variable {g : τ → ι → ε} {root : τ} {n : Nat} (h : IsTree child g root n) {t : τ} {pt : List ι}
  (ht : follow child g root pt = some t) (hpt : pt.length < n) {i : ι} {e : ε} {u : τ} {z : ε}
  (he : child e = some u) (hz : child z = none) (hfresh : ¬ Reach child g root n u)

include h ht hpt hfresh

theorem IsTree.follow_attach_other (p : List ι) (hp : p.length ≤ n + 1) (hno : ¬ pt ++ [i] <+: p) :
    follow child (attach g t i e u z) root p = follow child g root p := by
  have hclear := follow_clear g root n u z hfresh
  have htree : IsTree child (Function.update g u fun _ => z) root n := by
    intro p q v hp hq h1 h2
    rw [hclear p (by omega)] at h1
    rw [hclear q (by omega)] at h2
    exact h p q v hp hq h1 h2
  have ht' : follow child (Function.update g u fun _ => z) root pt = some t := by
    rw [hclear pt (by omega), ht]
  rw [attach, htree.follow_set t pt ht' (by omega) i e p hp hno, hclear p hp]

include he hz

theorem IsTree.follow_attach (q : List ι) :
    follow child (attach g t i e u z) root (pt ++ [i] ++ q) = if q = [] then some u else none := by
  have hut : u ≠ t := fun hut => hfresh ⟨pt, by omega, hut ▸ ht⟩
  have hpt' : follow child (attach g t i e u z) root pt = some t := by
    rw [h.follow_attach_other ht hpt hfresh pt (by omega), ht]
    intro hpre
    have := hpre.length_le
    simp only [List.length_append, List.length_singleton] at this
    omega
  rw [follow_append, follow_snoc, hpt', Option.bind_some, attach, set_same, he, Option.bind_some]
  cases q with
  | nil => rfl
  | cons j q =>
    rw [follow, set_other _ t i e u j (Or.inl hut), Function.update_self, hz]
    rfl

theorem IsTree.attach_cases (p : List ι) (v : τ) (hp : p.length ≤ n)
    (hv : follow child (attach g t i e u z) root p = some v) :
    (p = pt ++ [i] ∧ v = u) ∨ follow child g root p = some v := by
  by_cases hpre : pt ++ [i] <+: p
  · obtain ⟨q, rfl⟩ := hpre
    rw [h.follow_attach ht hpt he hz hfresh] at hv
    by_cases hq : q = []
    · simp only [hq, if_true, Option.some.injEq] at hv
      exact Or.inl ⟨by simp [hq], hv.symm⟩
    · simp [hq] at hv
  · right
    rw [← h.follow_attach_other ht hpt hfresh p (by omega) hpre, hv]

theorem IsTree.attach_cell (p : List ι) (v : τ) (j : ι) (hp : p.length ≤ n)
    (hv : follow child (Radix.attach g t i e u z) root p = some v) :
    Radix.attach g t i e u z v j = e ∨ Radix.attach g t i e u z v j = z ∨
      (follow child g root p = some v ∧ Radix.attach g t i e u z v j = g v j) := by
  unfold Radix.attach
  by_cases hcell : v ≠ t ∨ j ≠ i
  · rw [set_other _ t i e v j hcell]
    rcases h.attach_cases ht hpt he hz hfresh p v hp hv with ⟨-, rfl⟩ | hv'
    · exact Or.inr (Or.inl (by rw [Function.update_self]))
    · have hvu : v ≠ u := by
        rintro rfl
        exact hfresh ⟨p, hp, hv'⟩
      exact Or.inr (Or.inr ⟨hv', by rw [Function.update_of_ne hvu]⟩)
  · push Not at hcell
    obtain ⟨rfl, rfl⟩ := hcell
    exact Or.inl (set_same ..)

theorem IsTree.attach : IsTree child (attach g t i e u z) root n := by
  have hcases := h.attach_cases ht hpt (i := i) he hz hfresh
  intro p q v hp hq hpv hqv
  rcases hcases p v hp hpv with ⟨rfl, rfl⟩ | hpv' <;> rcases hcases q v hq hqv with ⟨rfl, hv⟩ | hqv'
  · rfl
  · exact absurd ⟨q, hq, hqv'⟩ hfresh
  · exact absurd ⟨p, hp, hv ▸ hpv'⟩ hfresh
  · exact h p q v hp hq hpv' hqv'

theorem IsTree.reach_attach (v : τ) (hv : Reach child (Radix.attach g t i e u z) root n v) :
    v = u ∨ Reach child g root n v := by
  obtain ⟨p, hp, hpv⟩ := hv
  rcases h.attach_cases ht hpt he hz hfresh p v hp hpv with ⟨-, hvu⟩ | hpv'
  · exact Or.inl hvu
  · exact Or.inr ⟨p, hp, hpv'⟩

/-- The last entries are the same: the new table is empty. -/
theorem IsTree.lookup_attach (habsent : child (g t i) = none) (q : List ι) (hq : q.length = n) (j : ι) :
    lookup child (Radix.attach g t i e u z) root z q j = lookup child g root z q j := by
  unfold lookup
  by_cases hpre : pt ++ [i] <+: q
  · obtain ⟨s, rfl⟩ := hpre
    have hut : u ≠ t := fun hut => hfresh ⟨pt, by omega, hut ▸ ht⟩
    rw [h.follow_attach ht hpt he hz hfresh, follow_append, follow_snoc, ht, Option.bind_some, habsent]
    by_cases hs : s = []
    · simp [hs, Radix.attach, set_other _ t i e u j (Or.inl hut)]
    · simp [hs]
  · rw [h.follow_attach_other ht hpt hfresh q (by omega) hpre]
    cases hv : follow child g root q with
    | none => rfl
    | some v =>
      have hvt : v ≠ t := by
        rintro rfl
        have := congrArg List.length (h q pt v (by omega) (by omega) hv ht)
        omega
      have hvu : v ≠ u := by
        rintro rfl
        exact hfresh ⟨q, by omega, hv⟩
      simp [Radix.attach, set_other _ t i e v j (Or.inl hvt), Function.update_of_ne hvu]

end Attach

end SlayerOS.Radix
