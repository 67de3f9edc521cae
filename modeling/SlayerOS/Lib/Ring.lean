import Mathlib.Data.List.Cycle

/-!
# Rings of links

Two functions `next` and `prev` give the links of each node. A list is a ring when each
node links to the one behind it, and the last one to the first.
-/

namespace SlayerOS.Ring

variable {α : Type}

/-- `p` and `q` link to each other. -/
def Link (next prev : α → α) (p q : α) : Prop := next p = q ∧ prev q = p

def Links (next prev : α → α) (l : List α) : Prop := l.IsChain (Link next prev)

def IsRing (next prev : α → α) (l : List α) : Prop := Cycle.Chain (Link next prev) (l : Cycle α)

variable {next prev next' prev' : α → α}

theorem isRing_cons (x : α) (l : List α) :
    IsRing next prev (x :: l) ↔ Links next prev (x :: (l ++ [x])) :=
  Cycle.chain_coe_cons _ x l

theorem isRing_rotate (xs ys : List α) : IsRing next prev (xs ++ ys) ↔ IsRing next prev (ys ++ xs) := by
  unfold IsRing
  rw [Cycle.coe_eq_coe.mpr (List.isRotated_append : xs ++ ys ~r ys ++ xs)]

theorem IsRing.links {as bs : List α} {x : α} (h : IsRing next prev (as ++ x :: bs)) :
    Links next prev (x :: (bs ++ as ++ [x])) := by
  rw [isRing_rotate, List.cons_append, isRing_cons] at h
  exact h

theorem Links.congr {l : List α} (h : Links next prev l) (hn : ∀ p ∈ l.dropLast, next' p = next p)
    (hp : ∀ q ∈ l.tail, prev' q = prev q) : Links next' prev' l := by
  unfold Links at *
  induction l with
  | nil => exact List.IsChain.nil
  | cons a l ih =>
    cases l with
    | nil => exact List.IsChain.singleton a
    | cons b l =>
      rw [List.isChain_cons_cons] at h ⊢
      refine ⟨⟨?_, ?_⟩, ih h.2 ?_ ?_⟩
      · rw [hn a (by simp), h.1.1]
      · rw [hp b (by simp), h.1.2]
      · intro p hpl
        exact hn p (by rw [List.dropLast_cons_cons]; exact List.mem_cons_of_mem _ hpl)
      · intro q hq
        exact hp q (List.mem_of_mem_tail hq)

theorem IsRing.congr {l : List α} (h : IsRing next prev l) (hn : ∀ p ∈ l, next' p = next p)
    (hp : ∀ q ∈ l, prev' q = prev q) : IsRing next' prev' l := by
  cases l with
  | nil => exact Cycle.Chain.nil _
  | cons x l =>
    rw [isRing_cons] at h ⊢
    refine h.congr ?_ ?_
    · intro p hpl
      rw [← List.cons_append, List.dropLast_concat] at hpl
      exact hn p hpl
    · intro q hq
      apply hp
      simpa [or_comm] using hq

theorem links_snoc (l : List α) (y z : α) :
    Links next prev (l ++ [y] ++ [z]) ↔ Links next prev (l ++ [y]) ∧ Link next prev y z := by
  unfold Links
  rw [List.append_assoc, List.singleton_append, List.isChain_append_cons_cons]
  simp

theorem IsRing.next_eq {as bs : List α} {x : α} (h : IsRing next prev (as ++ x :: bs)) :
    next x = (bs ++ as).headD x := by
  have hl := h.links
  cases hc : bs ++ as with
  | nil =>
    rw [hc] at hl
    exact (List.isChain_pair.mp hl).1
  | cons y l =>
    rw [hc, List.cons_append, Links, List.isChain_cons_cons] at hl
    exact hl.1.1

theorem IsRing.prev_eq {as bs : List α} {x : α} (h : IsRing next prev (as ++ x :: bs)) :
    prev x = (bs ++ as).getLastD x := by
  have hl := h.links
  rcases List.eq_nil_or_concat (bs ++ as) with hc | ⟨l, y, hc⟩
  · rw [hc] at hl ⊢
    exact (List.isChain_pair.mp hl).2
  · rw [List.concat_eq_append] at hc
    rw [hc, ← List.cons_append, ← List.cons_append, links_snoc] at hl
    rw [hc, List.getLastD_concat]
    exact hl.2.2

theorem IsRing.prev_next {as bs : List α} {x : α} (h : IsRing next prev (as ++ x :: bs)) :
    prev (next x) = x := by
  have hl := h.links
  cases hc : bs ++ as with
  | nil =>
    rw [hc] at hl
    have := List.isChain_pair.mp hl
    rw [this.1, this.2]
  | cons y l =>
    rw [hc, List.cons_append, Links, List.isChain_cons_cons] at hl
    rw [hl.1.1, hl.1.2]

/-! ## Removal -/

theorem IsRing.remove_head [DecidableEq α] {x : α} {l : List α} (h : IsRing next prev (x :: l)) (hne : l ≠ [])
    (hnodup : l.Nodup) :
    IsRing (Function.update next (prev x) (next x)) (Function.update prev (next x) (prev x)) l := by
  obtain ⟨a, t, rfl⟩ := List.exists_cons_of_ne_nil hne
  obtain ⟨i, b, hib⟩ : ∃ i b, a :: t = i ++ [b] :=
    ⟨(a :: t).dropLast, (a :: t).getLast hne, (List.dropLast_append_getLast hne).symm⟩
  rw [isRing_cons, List.cons_append, Links, List.isChain_cons_cons, ← List.cons_append, hib] at h
  obtain ⟨⟨hxa, -⟩, hrest⟩ := h
  obtain ⟨hlinks, -, hbx⟩ := (links_snoc i b x).mp hrest
  rw [isRing_cons, ← List.cons_append, hib, links_snoc, hxa, hbx]
  rw [hib] at hnodup
  refine ⟨hlinks.congr ?_ ?_, Function.update_self .., Function.update_self ..⟩
  · intro p hp
    apply Function.update_of_ne
    rintro rfl
    rw [List.dropLast_concat] at hp
    rw [List.nodup_append] at hnodup
    exact hnodup.2.2 p hp p (by simp) rfl
  · intro q hq
    apply Function.update_of_ne
    rintro rfl
    rw [← hib] at hq hnodup
    exact (List.nodup_cons.mp hnodup).1 hq

theorem IsRing.remove [DecidableEq α] {as bs : List α} {x : α} (h : IsRing next prev (as ++ x :: bs))
    (hne : as ++ bs ≠ []) (hnodup : (as ++ bs).Nodup) :
    IsRing (Function.update next (prev x) (next x)) (Function.update prev (next x) (prev x)) (as ++ bs) := by
  rw [isRing_rotate, List.cons_append] at h
  rw [isRing_rotate]
  refine h.remove_head ?_ (List.nodup_append_comm.mp hnodup)
  intro hnil
  rw [List.append_eq_nil_iff] at hnil
  exact hne (by rw [hnil.1, hnil.2]; rfl)

/-! ## Insertion -/

theorem isRing_single [DecidableEq α] (x : α) :
    IsRing (Function.update next x x) (Function.update prev x x) [x] := by
  rw [isRing_cons]
  exact List.isChain_pair.mpr ⟨Function.update_self .., Function.update_self ..⟩

theorem IsRing.push [DecidableEq α] {a b x : α} {l : List α} (h : IsRing next prev l) (ha : l.head? = some a)
    (hb : l.getLast? = some b) (hnodup : l.Nodup) (hx : x ∉ l) :
    IsRing (Function.update (Function.update next x a) b x) (Function.update (Function.update prev x b) a x)
      (l ++ [x]) := by
  obtain ⟨t, rfl⟩ := List.head?_eq_some_iff.mp ha
  obtain ⟨i, hib⟩ := List.getLast?_eq_some_iff.mp hb
  have hxa : x ≠ a := fun hxa => hx (by simp [hxa])
  have hxb : x ≠ b := fun hxb => hx (by simp [hib, hxb])
  rw [isRing_cons, ← List.cons_append, hib, links_snoc] at h
  rw [List.cons_append, isRing_cons, ← List.cons_append, ← List.cons_append, hib, links_snoc, links_snoc]
  rw [hib] at hnodup hx
  refine ⟨⟨h.1.congr ?_ ?_, ?_, ?_⟩, ?_, ?_⟩
  · intro p hp
    rw [List.dropLast_concat] at hp
    have hpb : p ≠ b := by
      rintro rfl
      rw [List.nodup_append] at hnodup
      exact hnodup.2.2 p hp p (by simp) rfl
    have hpx : p ≠ x := by
      rintro rfl
      exact hx (by simp [hp])
    rw [Function.update_of_ne hpb, Function.update_of_ne hpx]
  · intro q hq
    rw [← hib] at hq hnodup hx
    have hqa : q ≠ a := by
      rintro rfl
      exact (List.nodup_cons.mp hnodup).1 hq
    have hqx : q ≠ x := by
      rintro rfl
      exact hx (List.mem_cons_of_mem _ hq)
    rw [Function.update_of_ne hqa, Function.update_of_ne hqx]
  · exact Function.update_self ..
  · rw [Function.update_of_ne hxa, Function.update_self]
  · rw [Function.update_of_ne hxb, Function.update_self]
  · exact Function.update_self ..

end SlayerOS.Ring
