import SlayerOS.Taskman.Runs

/-!
# The states of the tasks, and who is next

What `cleanup_terminated` leaves of the list, which task is then the current one, and which
one `yield` hands over to, in terms of the list before the call.
-/

open SlayerOS.Ring

namespace SlayerOS.Taskman

/-! ## The states of the tasks -/

def stateOf (s : State) (p : Nat) : Option TaskState := (s.tasks p).map Task.state

def Sched.state (a : Sched) (p : Nat) : Option TaskState := (a.ring.find? (·.1 = p)).map (·.2.state)

theorem mem_unique (a : Sched) (hnodup : a.addrs.Nodup) (x y : Nat × Task) (hx : x ∈ a.ring)
    (hy : y ∈ a.ring) (heq : x.1 = y.1) : x = y :=
  List.inj_on_of_nodup_map hnodup hx hy heq

theorem state_eq_some (a : Sched) (hnodup : a.addrs.Nodup) (p : Nat) (v : TaskState) :
    a.state p = some v ↔ ∃ x ∈ a.ring, x.1 = p ∧ x.2.state = v := by
  unfold Sched.state
  rw [Option.map_eq_some_iff]
  constructor
  · rintro ⟨x, hx, rfl⟩
    exact ⟨x, List.mem_of_find?_eq_some hx, by simpa using List.find?_some hx, rfl⟩
  · rintro ⟨x, hx, rfl, rfl⟩
    refine ⟨x, ?_, rfl⟩
    cases hf : a.ring.find? (·.1 = x.1) with
    | none =>
      have := List.find?_eq_none.mp hf x hx
      simp at this
    | some y =>
      have hy : y.1 = x.1 := by simpa using List.find?_some hf
      rw [mem_unique a hnodup y x (List.mem_of_find?_eq_some hf) hx hy]

theorem state_eq_none (a : Sched) (p : Nat) : a.state p = none ↔ p ∉ a.addrs := by
  unfold Sched.state Sched.addrs
  simp only [Option.map_eq_none_iff, List.find?_eq_none, decide_eq_true_eq, List.mem_map, not_exists, not_and]

theorem mem_addrs_of_state (a : Sched) (p : Nat) (v : TaskState) (h : a.state p = some v) : p ∈ a.addrs := by
  by_contra hp
  rw [(state_eq_none a p).mpr hp] at h
  exact absurd h (by simp)

theorem Rep.state {s : State} {a : Sched} (h : Rep s a) (p : Nat) : stateOf s p = a.state p := by
  apply Option.ext
  intro v
  rw [state_eq_some a h.nodup, stateOf, Option.map_eq_some_iff]
  constructor
  · rintro ⟨t, ht, rfl⟩
    exact ⟨(p, t.body), (h.bodies p t.body).mp (by rw [bodyOf, ht]; rfl), rfl, rfl⟩
  · rintro ⟨x, hx, rfl, rfl⟩
    obtain ⟨t, ht, hb⟩ := (bodyOf_eq_some s x.1 x.2).mp ((h.bodies x.1 x.2).mpr hx)
    exact ⟨t, ht, by rw [← hb]; rfl⟩

theorem setState_state (a : Sched) (p : Nat) (v : TaskState) (q : Nat) :
    (a.setState p v).state q = if q = p then (a.state q).map fun _ => v else a.state q := by
  have hfst : ((fun x : Nat × Task => decide (x.1 = q)) ∘ withState p v) = fun x => decide (x.1 = q) := by
    funext x
    rw [Function.comp_apply, withState_fst]
  simp only [Sched.state, Sched.setState, List.find?_map, hfst]
  cases hf : a.ring.find? (·.1 = q) with
  | none => simp
  | some x =>
    have hx : x.1 = q := by simpa using List.find?_some hf
    simp only [Option.map_some, withState, hx]
    split <;> rfl

theorem handOver_state (a : Sched) (p q : Nat) :
    (a.handOver p).state q = if q = p then (a.state q).map fun _ => .ACTIVE else a.state q :=
  setState_state a p .ACTIVE q

theorem spawn_state (a : Sched) (task : Nat) (t : Task) (hfresh : task ∉ a.addrs) (q : Nat) :
    (a.spawn task t).state q = if q = task then some t.state else a.state q := by
  simp only [Sched.state, Sched.spawn, List.find?_append, List.find?_singleton]
  by_cases hq : q = task
  · subst hq
    rw [← state_eq_none, Sched.state, Option.map_eq_none_iff] at hfresh
    rw [hfresh]
    simp
  · have hne : task ≠ q := fun h => hq h.symm
    simp [hq, hne]

theorem Rep.view {s : State} {a : Sched} (h : Rep s a) : view s = a := by
  have hvisits := h.ringOk.visits
  unfold Taskman.view
  rw [hvisits, h.current, h.next_pid]
  have hring : a.addrs.filterMap (fun p => (bodyOf s p).map fun t => (p, t)) = a.ring := by
    rw [Sched.addrs, List.filterMap_map]
    have hbody : ∀ x ∈ a.ring, ((fun p => (bodyOf s p).map fun t => (p, t)) ∘ Prod.fst) x = some x := by
      intro x hx
      rw [Function.comp_apply, (h.bodies x.1 x.2).mpr hx]
      rfl
    rw [List.filterMap_congr hbody, List.filterMap_some]
  rw [hring]

/-! ## `cleanup_terminated` -/

/-- The task is taken out: it is terminated, and it is the head or the head is not. -/
def leaves (ring : List (Nat × Task)) (x : Nat × Task) : Bool :=
  dead x && ring.head?.all fun h => !dead h || h.1 = x.1

/-- The current task leaves. -/
def Sched.loses (a : Sched) : Bool := a.ring.any fun x => x.1 = a.current && leaves a.ring x

/-- The current task behind `cleanup_terminated`: the first one behind it that stays, if it
leaves. -/
def Sched.heir (a : Sched) : Nat :=
  if a.loses then (((others a.current a.ring).find? (!leaves a.ring ·)).map Prod.fst).getD 0 else a.current

theorem head_leaves (x : Nat × Task) (xs : List (Nat × Task)) (y : Nat × Task) :
    leaves (x :: xs) y = (dead y && (!dead x || decide (x.1 = y.1))) := rfl

theorem reap_prefix (a : Sched) (as xs bs : List (Nat × Task)) (hring : a.ring = as ++ (xs ++ bs))
    (hnodup : a.addrs.Nodup) : (a.reap xs).ring = as ++ (xs.filter (!dead ·) ++ bs) := by
  induction xs generalizing a as with
  | nil => exact hring
  | cons x xs ih =>
    unfold Sched.reap
    cases hdead : dead x with
    | true =>
      have hring' := remove_ring a as (xs ++ bs) x hring hnodup
      have hnodup' : (a.remove x.1).addrs.Nodup := ((remove_sublist a x.1).map Prod.fst).nodup hnodup
      rw [if_pos rfl, ih (a.remove x.1) as hring' hnodup']
      simp [hdead]
    | false =>
      rw [if_neg Bool.false_ne_true, ih a (as ++ [x]) (by simp [hring]) hnodup]
      simp [hdead]

theorem remove_current (a : Sched) (as bs : List (Nat × Task)) (x : Nat × Task)
    (hring : a.ring = as ++ x :: bs) (hnodup : a.addrs.Nodup) :
    (a.remove x.1).current = if a.current = x.1 then ((bs ++ as).map Prod.fst).headD 0 else a.current := by
  rw [Sched.remove, others_split a as bs x.1 x.2 hring hnodup]

theorem reap_append (a : Sched) (xs ys : List (Nat × Task)) : a.reap (xs ++ ys) = (a.reap xs).reap ys := by
  induction xs generalizing a with
  | nil => rfl
  | cons x xs ih => exact ih _

theorem reap_current (a : Sched) (xs : List (Nat × Task)) (h : ∀ x ∈ xs, x.1 = a.current → dead x = false) :
    (a.reap xs).current = a.current := by
  induction xs generalizing a with
  | nil => rfl
  | cons x xs ih =>
    unfold Sched.reap
    have hx : (if dead x then a.remove x.1 else a).current = a.current := by
      split
      case isTrue hdead =>
        refine if_neg fun heq => ?_
        rw [h x (by simp) heq.symm] at hdead
        exact absurd hdead (by simp)
      case isFalse => rfl
    rw [ih _ fun y hy => by rw [hx]; exact h y (by simp [hy]), hx]

theorem reap_current_next (a : Sched) (as xs : List (Nat × Task)) (hring : a.ring = as ++ xs)
    (hnodup : a.addrs.Nodup) (hcur : a.current = ((xs ++ as).map Prod.fst).headD 0) :
    (a.reap xs).current = ((xs.filter (!dead ·) ++ as).map Prod.fst).headD 0 := by
  induction xs generalizing a with
  | nil => exact hcur
  | cons x xs ih =>
    have hx : a.current = x.1 := hcur
    unfold Sched.reap
    cases hdead : dead x with
    | true =>
      rw [if_pos rfl, ih (a.remove x.1) (remove_ring a as xs x hring hnodup)
        (((remove_sublist a x.1).map Prod.fst).nodup hnodup)
        (by rw [remove_current a as xs x hring hnodup, if_pos hx])]
      simp [hdead]
    | false =>
      rw [if_neg Bool.false_ne_true, reap_current a xs ?_, hx]
      · simp [hdead]
      · rw [hx]
        rw [Sched.addrs, hring, List.map_append, List.map_cons] at hnodup
        have hnot := (List.nodup_cons.mp (List.nodup_append.mp hnodup).2.1).1
        intro y hy heq
        exact absurd (heq ▸ List.mem_map_of_mem hy) hnot

theorem reap_current_dead (a : Sched) (as us vs : List (Nat × Task)) (x : Nat × Task)
    (hring : a.ring = as ++ (us ++ x :: vs)) (hnodup : a.addrs.Nodup) (hcur : a.current = x.1)
    (hdead : dead x = true) :
    (a.reap (us ++ x :: vs)).current =
      ((vs.filter (!dead ·) ++ (as ++ us.filter (!dead ·))).map Prod.fst).headD 0 := by
  have hne : ∀ y ∈ us, y.1 ≠ x.1 := by
    have h := hnodup
    rw [Sched.addrs, hring, List.map_append, List.map_append, List.map_cons] at h
    have hus := (List.nodup_append.mp (List.nodup_append.mp h).2.1).2.2
    exact fun y hy => hus y.1 (List.mem_map_of_mem hy) x.1 (by simp)
  have hfirst : (a.reap us).current = x.1 := by
    rw [reap_current a us fun y hy heq => absurd (heq.trans hcur) (hne y hy), hcur]
  have hnodup' : (a.reap us).addrs.Nodup := ((reap_sublist a us).map Prod.fst).nodup hnodup
  -- The rounds before `x` leave the rest of the ring as it is.
  have hring' : (a.reap us).ring = as ++ us.filter (!dead ·) ++ x :: vs := by
    have hall := reap_prefix a as us (x :: vs) hring hnodup
    rw [hall, List.append_assoc]
  rw [reap_append]
  generalize a.reap us = b at hfirst hnodup' hring'
  rw [Sched.reap, if_pos hdead]
  exact reap_current_next (b.remove x.1) _ vs (remove_ring b _ vs x hring' hnodup')
    (((remove_sublist b x.1).map Prod.fst).nodup hnodup')
    (by rw [remove_current b _ vs x hring' hnodup', if_pos hfirst])

theorem leaves_dead_head (h : Nat × Task) (t : List (Nat × Task)) (hdead : dead h = true)
    (hnodup : ((h :: t).map Prod.fst).Nodup) : ∀ x ∈ t, leaves (h :: t) x = false := by
  intro x hx
  have hne : h.1 ≠ x.1 := fun heq => (List.nodup_cons.mp hnodup).1 (heq ▸ List.mem_map_of_mem hx)
  simp [head_leaves, hdead, hne]

theorem leaves_live_head (h : Nat × Task) (t : List (Nat × Task)) (hdead : dead h = false) (x : Nat × Task) :
    leaves (h :: t) x = dead x := by simp [head_leaves, hdead]

theorem sweep_ring (a : Sched) (hnodup : a.addrs.Nodup) :
    a.sweep.ring = a.ring.filter (!leaves a.ring ·) := by
  unfold Sched.sweep
  cases hring : a.ring with
  | nil => exact hring
  | cons h t =>
    have hnd := hnodup
    rw [Sched.addrs, hring] at hnd
    simp only
    cases hdead : dead h with
    | true =>
      have hstay := leaves_dead_head h t hdead hnd
      have hhead : leaves (h :: t) h = true := by simp [head_leaves, hdead]
      rw [if_pos rfl, remove_ring a [] t h hring hnodup, List.nil_append, List.filter_cons, hhead]
      refine (List.filter_eq_self.mpr ?_).symm
      intro x hx
      rw [hstay x hx]
      rfl
    | false =>
      have hreap := reap_prefix a [h] t [] (by simp [hring]) hnodup
      rw [if_neg Bool.false_ne_true, hreap]
      simp [leaves_live_head h t hdead, hdead]

theorem headD_find (l : List (Nat × Task)) (p : Nat × Task → Bool) :
    ((l.filter p).map Prod.fst).headD 0 = ((l.find? p).map Prod.fst).getD 0 := by
  rw [← List.head?_filter]
  cases l.filter p <;> rfl

theorem loses_of_mem (a : Sched) (hnodup : a.addrs.Nodup) (x : Nat × Task) (hx : x ∈ a.ring)
    (hcur : a.current = x.1) : a.loses = leaves a.ring x := by
  rw [Bool.eq_iff_iff]
  unfold Sched.loses
  rw [List.any_eq_true]
  constructor
  · rintro ⟨y, hy, hy'⟩
    rw [Bool.and_eq_true, decide_eq_true_eq, hcur] at hy'
    rw [← mem_unique a hnodup y x hy hx hy'.1]
    exact hy'.2
  · intro h
    exact ⟨x, hx, by simp [hcur, h]⟩

theorem loses_null (a : Sched) (h : a.current ∉ a.addrs) : a.loses = false := by
  unfold Sched.loses
  rw [List.any_eq_false]
  intro x hx hx'
  rw [Bool.and_eq_true, decide_eq_true_eq] at hx'
  exact h (hx'.1 ▸ List.mem_map_of_mem hx)

theorem sweep_current_dead_head (a : Sched) (hnodup : a.addrs.Nodup) (h : Nat × Task)
    (t : List (Nat × Task)) (hring : a.ring = h :: t) (hdead : dead h = true) :
    (a.remove h.1).current = a.heir := by
  have hnd := hnodup
  rw [Sched.addrs, hring] at hnd
  have hstay := leaves_dead_head h t hdead hnd
  rw [remove_current a [] t h hring hnodup, List.append_nil]
  unfold Sched.heir
  by_cases hcur : a.current = h.1
  · have hlose : a.loses = true := by
      rw [loses_of_mem a hnodup h (by simp [hring]) hcur, hring]
      simp [head_leaves, hdead]
    have hothers : others a.current a.ring = t := by
      rw [hcur, others_split a [] t h.1 h.2 hring hnodup, List.append_nil]
    rw [if_pos hcur, hlose, if_pos rfl, hothers, hring, ← headD_find, List.filter_eq_self.mpr]
    intro x hx
    rw [hstay x hx]
    rfl
  · have hlose : a.loses = false := by
      unfold Sched.loses
      rw [List.any_eq_false, hring]
      intro x hx hx'
      rw [Bool.and_eq_true, decide_eq_true_eq] at hx'
      rcases List.mem_cons.mp hx with rfl | hx
      · exact hcur hx'.1.symm
      · rw [hstay x hx] at hx'
        exact absurd hx'.2 Bool.false_ne_true
    rw [if_neg hcur, hlose, if_neg Bool.false_ne_true]

theorem sweep_current_live_head (a : Sched) (hnodup : a.addrs.Nodup) (h : Nat × Task)
    (t : List (Nat × Task)) (hring : a.ring = h :: t) (hdead : dead h = false) :
    (a.reap t).current = a.heir := by
  have hleaves : leaves a.ring = dead := by
    rw [hring]
    funext x
    exact leaves_live_head h t hdead x
  unfold Sched.heir
  rw [hleaves]
  cases hlose : a.loses with
  | false =>
    rw [if_neg Bool.false_ne_true, reap_current]
    intro x hx hcur
    rw [loses_of_mem a hnodup x (by simp [hring, hx]) hcur.symm, hleaves] at hlose
    exact hlose
  | true =>
    obtain ⟨x, hx, hx'⟩ := List.any_eq_true.mp hlose
    rw [Bool.and_eq_true, decide_eq_true_eq, hleaves] at hx'
    obtain ⟨hcur, hx'⟩ := hx'
    have hxt : x ∈ t := by
      rw [hring] at hx
      rcases List.mem_cons.mp hx with rfl | hx
      · rw [hdead] at hx'
        exact absurd hx' Bool.false_ne_true
      · exact hx
    obtain ⟨us, vs, rfl⟩ := List.append_of_mem hxt
    rw [if_pos rfl, reap_current_dead a [h] us vs x hring hnodup hcur.symm hx', ← hcur,
      others_split a (h :: us) vs x.1 x.2 (by simp [hring]) hnodup, ← headD_find]
    simp [hdead]

theorem sweep_current (a : Sched) (hnodup : a.addrs.Nodup) : a.sweep.current = a.heir := by
  cases hring : a.ring with
  | nil =>
    have hlose : a.loses = false := by rw [Sched.loses, hring]; rfl
    rw [Sched.heir, hlose, if_neg Bool.false_ne_true, Sched.sweep, hring]
  | cons h t =>
    rw [Sched.sweep, hring]
    cases hdead : dead h with
    | true =>
      simp only [hdead, if_true]
      exact sweep_current_dead_head a hnodup h t hring hdead
    | false =>
      simp only [hdead, Bool.false_eq_true, if_false]
      exact sweep_current_live_head a hnodup h t hring hdead

/-! ## The task that `yield` hands over to -/

/-- The first runnable task behind the current one, but not the one that takes its place. -/
def Sched.choice (a : Sched) : Option (Nat × Task) :=
  if a.current = 0 then none else (others a.current a.ring).find? fun x => ready x && x.1 ≠ a.heir

theorem ready_stays (ring : List (Nat × Task)) (x : Nat × Task) (h : ready x = true) :
    leaves ring x = false := by
  have hdead : dead x = false := by
    unfold ready runnable at h
    unfold dead
    cases hstate : x.2.state <;> simp_all
  rw [leaves, hdead, Bool.false_and]

theorem find_stay (ring l : List (Nat × Task)) (h : Nat) :
    (l.filter (!leaves ring ·)).find? (fun x => ready x && x.1 ≠ h) = l.find? fun x => ready x && x.1 ≠ h := by
  rw [List.find?_filter]
  apply List.find?_congr
  intro x _
  cases hready : ready x with
  | false => simp
  | true => simp [ready_stays ring x hready]

theorem find_ne (l : List (Nat × Task)) (h : Nat) (hne : ∀ x ∈ l, x.1 ≠ h) :
    l.find? (fun x => ready x && x.1 ≠ h) = l.find? ready := by
  apply List.find?_congr
  intro x hx
  simp [hne x hx]

/-- The current task stays, and the candidates are the other tasks. -/
theorem sweep_others (a : Sched) (hnodup : a.addrs.Nodup) (as bs : List (Nat × Task)) (x : Nat × Task)
    (hring : a.ring = as ++ x :: bs) (hleave : leaves a.ring x = false) :
    others x.1 a.sweep.ring = (bs ++ as).filter (!leaves a.ring ·) := by
  have hring' : a.sweep.ring = as.filter (!leaves a.ring ·) ++ x :: bs.filter (!leaves a.ring ·) := by
    rw [sweep_ring a hnodup]
    conv_lhs => rw [hring, List.filter_append, List.filter_cons, ← hring]
    simp [hleave]
  rw [others_split a.sweep _ _ x.1 x.2 hring' (((sweep_sublist a).map Prod.fst).nodup hnodup),
    List.filter_append]

/-- The current task leaves. The first task behind it takes its place, and the candidates
are the tasks behind that one. -/
theorem sweep_others_heir (a : Sched) (hnodup : a.addrs.Nodup) (as bs l : List (Nat × Task))
    (x y : Nat × Task) (hring : a.ring = as ++ x :: bs) (hleave : leaves a.ring x = true)
    (hl : (bs ++ as).filter (!leaves a.ring ·) = y :: l) :
    others y.1 a.sweep.ring = l ∧ y.1 ∈ a.sweep.addrs := by
  have hnodup' : a.sweep.addrs.Nodup := ((sweep_sublist a).map Prod.fst).nodup hnodup
  have hring' : a.sweep.ring = as.filter (!leaves a.ring ·) ++ bs.filter (!leaves a.ring ·) := by
    rw [sweep_ring a hnodup]
    conv_lhs => rw [hring, List.filter_append, List.filter_cons, ← hring]
    simp [hleave]
  rw [List.filter_append] at hl
  refine ⟨?_, ?_⟩
  · cases hbs : bs.filter (!leaves a.ring ·) with
    | nil =>
      rw [hbs, List.nil_append] at hl
      rw [others_split a.sweep [] l y.1 y.2 (by rw [hring', hbs, hl]; simp) hnodup', List.append_nil]
    | cons z zs =>
      rw [hbs, List.cons_append, List.cons.injEq] at hl
      obtain ⟨rfl, hl⟩ := hl
      rw [others_split a.sweep _ zs z.1 z.2 (by rw [hring', hbs]) hnodup', hl]
  · have hmem : y ∈ bs.filter (!leaves a.ring ·) ++ as.filter (!leaves a.ring ·) := by simp [hl]
    rw [Sched.addrs, hring']
    rw [List.mem_append] at hmem
    exact List.mem_map_of_mem (List.mem_append.mpr hmem.symm)

theorem sweep_pick (a : Sched) (hnodup : a.addrs.Nodup) (hnull : 0 ∉ a.addrs)
    (hlinked : a.current = 0 ∨ a.current ∈ a.addrs) : a.sweep.pick = a.choice.map Prod.fst := by
  unfold Sched.pick Sched.choice
  rw [sweep_current a hnodup]
  rcases hlinked with hcur | hcur
  · have hheir : a.heir = 0 := by
      rw [Sched.heir, loses_null a (by rw [hcur]; exact hnull), if_neg Bool.false_ne_true, hcur]
    rw [if_pos hheir, if_pos hcur]
    rfl
  · have hpos : a.current ≠ 0 := fun h0 => hnull (h0 ▸ hcur)
    rw [if_neg hpos]
    obtain ⟨x, hx, hxc⟩ := List.mem_map.mp hcur
    obtain ⟨as, bs, hring⟩ := List.append_of_mem hx
    have hothers : others a.current a.ring = bs ++ as := by
      rw [← hxc]
      exact others_split a as bs x.1 x.2 hring hnodup
    have hrot := List.nodup_cons.mp (nodup_rotate a as bs x hring hnodup)
    have hlose := loses_of_mem a hnodup x hx hxc.symm
    rw [hothers, ← find_stay a.ring (bs ++ as) a.heir]
    cases hleave : leaves a.ring x with
    | false =>
      have hheir : a.heir = x.1 := by
        rw [Sched.heir, hlose, hleave, if_neg Bool.false_ne_true, hxc]
      rw [hheir, if_neg (by rw [hxc]; exact hpos), sweep_others a hnodup as bs x hring hleave, find_ne]
      intro y hy heq
      exact hrot.1 (heq ▸ List.mem_map_of_mem (List.mem_of_mem_filter hy))
    | true =>
      have hheir : a.heir = (((bs ++ as).filter (!leaves a.ring ·)).map Prod.fst).headD 0 := by
        rw [Sched.heir, hlose, hleave, if_pos rfl, hothers, headD_find]
      cases hl : (bs ++ as).filter (!leaves a.ring ·) with
      | nil =>
        have hzero : a.heir = 0 := by rw [hheir, hl]; rfl
        rw [if_pos hzero]
        rfl
      | cons y l =>
        have hy : a.heir = y.1 := by rw [hheir, hl]; rfl
        obtain ⟨hrest, hmem⟩ := sweep_others_heir a hnodup as bs l x y hring hleave hl
        have hy0 : y.1 ≠ 0 := fun h0 => hnull (((sweep_sublist a).map Prod.fst).subset (h0 ▸ hmem))
        have hnot : y.1 ∉ l.map Prod.fst := by
          have hnd := (List.filter_sublist (p := (!leaves a.ring ·)).map Prod.fst).nodup hrot.2
          rw [hl] at hnd
          exact (List.nodup_cons.mp hnd).1
        rw [hy, if_neg hy0, hrest, List.find?_cons_of_neg (by simp), find_ne]
        exact fun z hz heq => hnot (heq ▸ List.mem_map_of_mem hz)

theorem sweep_state (a : Sched) (hnodup : a.addrs.Nodup) (p : Nat) :
    a.sweep.state p = a.state p ∨ (a.state p = some .TERMINATED ∧ a.sweep.state p = none) := by
  have hnodup' : a.sweep.addrs.Nodup := ((sweep_sublist a).map Prod.fst).nodup hnodup
  cases hstate : a.state p with
  | none =>
    left
    rw [state_eq_none] at hstate ⊢
    exact fun hp => hstate (((sweep_sublist a).map Prod.fst).subset hp)
  | some v =>
    obtain ⟨x, hx, rfl, rfl⟩ := (state_eq_some a hnodup p v).mp hstate
    cases hleave : leaves a.ring x with
    | false =>
      left
      rw [state_eq_some a.sweep hnodup']
      refine ⟨x, ?_, rfl, rfl⟩
      rw [sweep_ring a hnodup, List.mem_filter]
      exact ⟨hx, by rw [hleave]; rfl⟩
    | true =>
      right
      have hdead : dead x = true := (Bool.and_eq_true _ _ ▸ hleave : _ ∧ _).1
      refine ⟨by simpa [dead] using hdead, ?_⟩
      rw [state_eq_none]
      intro hp
      obtain ⟨y, hy, heq⟩ := List.mem_map.mp hp
      rw [sweep_ring a hnodup, List.mem_filter] at hy
      rw [mem_unique a hnodup y x hy.1 hx heq, hleave] at hy
      exact absurd hy.2 (by simp)

/-! ## Well-formed lists -/

/-- The list is that of a state. -/
structure Sched.Wf (a : Sched) : Prop where
  nodup : a.addrs.Nodup
  null : 0 ∉ a.addrs
  linked : a.current = 0 ∨ a.current ∈ a.addrs

theorem Rep.wf {s : State} {a : Sched} (h : Rep s a) : a.Wf := ⟨h.nodup, h.null, h.linked⟩

theorem Sched.Wf.setState {a : Sched} (h : a.Wf) (p : Nat) (v : TaskState) : (a.setState p v).Wf := by
  refine ⟨?_, ?_, ?_⟩
  · rw [setState_addrs]; exact h.nodup
  · rw [setState_addrs]; exact h.null
  · rw [setState_addrs]; exact h.linked

theorem state_zero (a : Sched) (h : a.Wf) : a.state 0 = none := (state_eq_none a 0).mpr h.null

theorem current_ne_zero (a : Sched) (h : a.Wf) (v : TaskState) (hv : a.state a.current = some v) :
    a.current ≠ 0 := by
  intro h0
  rw [h0, state_zero a h] at hv
  exact absurd hv (by simp)

theorem heir_of_stays (a : Sched) (h : a.loses = false) : a.heir = a.current := by
  rw [Sched.heir, h, if_neg Bool.false_ne_true]

theorem loses_of_alive (a : Sched) (h : a.Wf) (hstate : a.state a.current ≠ some .TERMINATED) :
    a.loses = false := by
  rcases h.linked with hcur | hcur
  · exact loses_null a (by rw [hcur]; exact h.null)
  · obtain ⟨x, hx, hxc⟩ := List.mem_map.mp hcur
    rw [loses_of_mem a h.nodup x hx hxc.symm, leaves]
    have hdead : dead x = false := by
      rw [dead, decide_eq_false_iff_not]
      exact fun hx' => hstate ((state_eq_some a h.nodup _ _).mpr ⟨x, hx, hxc, hx'⟩)
    rw [hdead, Bool.false_and]

theorem mem_others_iff (a : Sched) (h : a.Wf) (hcur : a.current ≠ 0) (x : Nat × Task) :
    x ∈ others a.current a.ring ↔ x ∈ a.ring ∧ x.1 ≠ a.current := by
  obtain ⟨c, hc, hcc⟩ := List.mem_map.mp (h.linked.resolve_left hcur)
  obtain ⟨as, bs, hring⟩ := List.append_of_mem hc
  have hrot := (List.nodup_cons.mp (nodup_rotate a as bs c hring h.nodup)).1
  rw [← hcc, others_split a as bs c.1 c.2 hring h.nodup, hring]
  simp only [List.mem_append, List.mem_cons]
  constructor
  · intro hx
    refine ⟨by tauto, fun heq => hrot ?_⟩
    rw [← heq]
    exact List.mem_map_of_mem (List.mem_append.mpr hx)
  · rintro ⟨hx | rfl | hx, hne⟩
    · exact Or.inr hx
    · exact absurd rfl hne
    · exact Or.inl hx

theorem choice_some (a : Sched) (h : a.Wf) (x : Nat × Task) (hx : a.choice = some x) :
    x ∈ a.ring ∧ ready x = true ∧ x.1 ≠ a.current := by
  unfold Sched.choice at hx
  split at hx
  · exact absurd hx (by simp)
  · rename_i hcur
    have hmem := (mem_others_iff a h hcur x).mp (List.mem_of_find?_eq_some hx)
    have hready := List.find?_some hx
    rw [Bool.and_eq_true] at hready
    exact ⟨hmem.1, hready.1, hmem.2⟩

theorem choice_none (a : Sched) (h : a.Wf) (hcur : a.current ≠ 0) :
    a.choice = none ↔ ∀ x ∈ a.ring, x.1 ≠ a.current → ready x = true → x.1 = a.heir := by
  unfold Sched.choice
  rw [if_neg hcur, List.find?_eq_none]
  simp only [mem_others_iff a h hcur, Bool.and_eq_true, decide_eq_true_eq, not_and, not_not, and_imp]

end SlayerOS.Taskman
