import SlayerOS.Taskman.Links

/-!
# `cleanup_terminated`

The loop goes along the links while it takes tasks out of the ring.
-/

open SlayerOS.Ring

namespace SlayerOS.Taskman

/-- A step from `s` to `s'`, in which the list goes from `a` to `a'` and the tasks that
leave are terminated and freed. -/
structure Swept (s s' : State) (a a' : Sched) : Prop where
  rep : Rep s' a'
  freed : ∃ gone, s'.freed = gone ++ s.freed ∧ (∀ x ∈ gone, x.2.state = .TERMINATED) ∧
    ∀ p ∈ a.addrs, p ∈ a'.addrs ∨ p ∈ gone.map Prod.fst

theorem Swept.trans {s s' s'' : State} {a a' a'' : Sched} (h : Swept s s' a a') (h' : Swept s' s'' a' a'') :
    Swept s s'' a a'' := by
  obtain ⟨gone, hf, hd, hr⟩ := h.freed
  obtain ⟨gone', hf', hd', hr'⟩ := h'.freed
  refine ⟨h'.rep, gone' ++ gone, by rw [hf', hf, List.append_assoc], ?_, ?_⟩
  · intro x hx
    rcases List.mem_append.mp hx with hx | hx
    · exact hd' x hx
    · exact hd x hx
  · intro p hp
    rw [List.map_append, List.mem_append]
    rcases hr p hp with hp | hp
    · rcases hr' p hp with hp | hp
      · exact Or.inl hp
      · exact Or.inr (Or.inl hp)
    · exact Or.inr (Or.inr hp)

theorem Rep.swept {s s' : State} {a a' : Sched} (h : Rep s' a') (hfreed : s'.freed = s.freed)
    (haddrs : a.addrs ⊆ a'.addrs) : Swept s s' a a' :=
  ⟨h, [], hfreed, by simp, fun _ hp => Or.inl (haddrs hp)⟩

theorem reap_spec (s : State) (a : Sched) (x : Nat × Task) (as bs : List (Nat × Task)) (hrep : Rep s a)
    (hring : a.ring = as ++ x :: bs) :
    ∃ s', reap s x.1 = some s' ∧ Swept s s' a (if dead x then a.remove x.1 else a) := by
  obtain ⟨p, t⟩ := x
  by_cases hdead : dead (p, t) = true
  · obtain ⟨s', u, hs', hrep', hfreed, hu⟩ := reap_dead s a p t as bs hrep hring hdead
    refine ⟨s', hs', ?_⟩
    rw [if_pos hdead]
    refine ⟨hrep', [(p, u)], hfreed, by simpa using hu, ?_⟩
    intro q hq
    rw [remove_split a as bs p t hring hrep.nodup]
    rw [Sched.addrs, hring] at hq
    simp only [Sched.addrs, List.map_append, List.mem_append, List.map_cons, List.mem_cons, List.map_nil,
      List.not_mem_nil, or_false] at hq ⊢
    tauto
  · obtain ⟨v, hv, hvb⟩ := (bodyOf_eq_some s p t).mp ((hrep.bodies p t).mpr (by simp [hring]))
    have hstate : v.state ≠ .TERMINATED := by
      intro h
      apply hdead
      rw [dead, ← hvb]
      exact decide_eq_true h
    refine ⟨s, ?_, ?_⟩
    · simp only [reap, hv, Option.bind_eq_bind, Option.bind_some, if_neg hstate]
    · rw [if_neg hdead]
      exact hrep.swept rfl (List.Subset.refl _)

theorem Rep.next {s : State} {a : Sched} (h : Rep s a) (as bs : List (Nat × Task)) (x : Nat × Task)
    (hring : a.ring = as ++ x :: bs) :
    ∃ t, s.tasks x.1 = some t ∧ t.body = x.2 ∧ t.next = ((bs ++ as).map Prod.fst).headD x.1 := by
  obtain ⟨t, ht, htn, -, htb⟩ := tasks_links s x.1 x.2 ((h.bodies x.1 x.2).mpr (by simp [hring]))
  have hisring := h.ring
  rw [Sched.addrs, hring, List.map_append, List.map_cons] at hisring
  refine ⟨t, ht, htb, ?_⟩
  rw [htn, hisring.next_eq, List.map_append]

theorem remove_ring (a : Sched) (as bs : List (Nat × Task)) (x : Nat × Task) (hring : a.ring = as ++ x :: bs)
    (hnodup : a.addrs.Nodup) : (a.remove x.1).ring = as ++ bs := by
  rw [remove_split a as bs x.1 x.2 hring hnodup]

theorem cleanup_from_spec (fuel : Nat) (s : State) (a : Sched) (h x : Nat × Task)
    (as bs : List (Nat × Task)) (hrep : Rep s a) (hring : a.ring = h :: as ++ x :: bs)
    (hfuel : bs.length < fuel) :
    ∃ s', cleanup_from fuel s x.1 = some s' ∧ Swept s s' a (a.reap (x :: bs)) := by
  induction bs generalizing fuel s a x as with
  | nil =>
    obtain ⟨f, rfl⟩ : ∃ f, fuel = f + 1 := ⟨fuel - 1, by omega⟩
    obtain ⟨t, ht, -, htn⟩ := hrep.next (h :: as) [] x hring
    obtain ⟨s1, hs1, hsw⟩ := reap_spec s a x (h :: as) [] hrep hring
    refine ⟨s1, ?_, hsw⟩
    have hhead : s1.process_list.head = h.1 := by
      rw [hsw.rep.head, Sched.addrs]
      split
      · rw [remove_ring a _ _ x hring hrep.nodup]; rfl
      · rw [hring]; rfl
    simp [cleanup_from, ht, hs1, hhead, htn]
  | cons y bs ih =>
    obtain ⟨f, rfl⟩ : ∃ f, fuel = f + 1 := ⟨fuel - 1, by omega⟩
    rw [List.length_cons] at hfuel
    obtain ⟨t, ht, -, htn⟩ := hrep.next (h :: as) (y :: bs) x hring
    obtain ⟨s1, hs1, hsw⟩ := reap_spec s a x (h :: as) (y :: bs) hrep hring
    obtain ⟨as', hring'⟩ : ∃ as', (if dead x then a.remove x.1 else a).ring = h :: as' ++ y :: bs := by
      split
      · exact ⟨as, remove_ring a _ _ x hring hrep.nodup⟩
      · exact ⟨as ++ [x], by simp [hring]⟩
    have hrep1 := hsw.rep
    have hhead : s1.process_list.head = h.1 := by
      rw [hrep1.head, Sched.addrs, hring']; rfl
    have hcount : s1.process_list.count > 0 := by
      rw [hrep1.count, hring']; simp
    have hne : y.1 ≠ h.1 := by
      have := hrep.nodup
      rw [Sched.addrs, hring] at this
      simp only [List.cons_append, List.map_cons, List.map_append, List.nodup_cons, List.mem_append,
        List.mem_cons] at this
      exact fun h => this.1 (Or.inr (Or.inr (Or.inl h.symm)))
    have hnext : t.next = y.1 := htn
    obtain ⟨s', hs', hsw'⟩ := ih f s1 _ y as' hrep1 hring' (by omega)
    refine ⟨s', ?_, hsw.trans hsw'⟩
    rw [cleanup_from, ht]
    simp only [Option.bind_eq_bind, Option.bind_some, hs1, hhead, hnext]
    rw [if_pos ⟨hne, hcount⟩, hs']

theorem cleanup_terminated_spec (s : State) (a : Sched) (hrep : Rep s a) :
    ∃ s', cleanup_terminated s = some s' ∧ Swept s s' a a.sweep := by
  unfold cleanup_terminated Sched.sweep
  have hhead := hrep.head
  rw [Sched.addrs] at hhead
  cases hring : a.ring with
  | nil =>
    rw [hring] at hhead
    have hnull : s.process_list.head = 0 := hhead
    rw [if_pos hnull]
    exact ⟨s, rfl, hrep.swept rfl (List.Subset.refl _)⟩
  | cons h t =>
    have hpos : s.process_list.head ≠ 0 := by
      rw [hhead, hring]
      intro h0
      apply hrep.null
      rw [Sched.addrs, hring, ← h0]
      simp
    rw [if_neg hpos]
    rw [hring] at hhead
    have hcount := hrep.count
    rw [hring, List.length_cons] at hcount
    obtain ⟨u, hu, -, hun⟩ := hrep.next [] t h hring
    obtain ⟨s1, hs1, hsw⟩ := reap_spec s a h [] t hrep hring
    rw [hhead, List.map_cons, List.headD_cons, cleanup_from, hu]
    simp only [Option.bind_eq_bind, Option.bind_some, hs1]
    by_cases hdead : dead h = true
    · -- The new head is the next task, so the loop ends here.
      rw [if_pos hdead] at hsw ⊢
      refine ⟨s1, ?_, hsw⟩
      rw [if_neg]
      rintro ⟨hne, hc⟩
      have hring1 := remove_ring a [] t h hring hrep.nodup
      rw [hsw.rep.head, Sched.addrs, hring1, hun] at hne
      rw [hsw.rep.count, hring1] at hc
      obtain ⟨y, t, rfl⟩ := List.exists_cons_of_length_pos hc
      exact hne rfl
    · rw [if_neg hdead] at hsw ⊢
      cases t with
      | nil =>
        refine ⟨s1, ?_, hsw⟩
        rw [if_neg]
        rintro ⟨hne, -⟩
        rw [hsw.rep.head, Sched.addrs, hring, hun] at hne
        exact hne rfl
      | cons y t =>
        have hne : y.1 ≠ h.1 := by
          have := hrep.nodup
          rw [Sched.addrs, hring] at this
          simp only [List.map_cons, List.nodup_cons, List.mem_cons] at this
          exact fun h => this.1 (Or.inl h.symm)
        have hnext : u.next = y.1 := hun
        obtain ⟨s', hs', hsw'⟩ := cleanup_from_spec s.process_list.count s1 a h y [] t hsw.rep hring
          (by rw [hcount, List.length_cons]; omega)
        refine ⟨s', ?_, hsw.trans hsw'⟩
        have hhead1 : s1.process_list.head = h.1 := by rw [hsw.rep.head, Sched.addrs, hring]; rfl
        have hcount1 : s1.process_list.count > 0 := by rw [hsw.rep.count, hring]; simp
        rw [hhead1, hnext, if_pos ⟨hne, hcount1⟩, hs']

end SlayerOS.Taskman
