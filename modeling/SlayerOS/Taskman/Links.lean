import SlayerOS.Taskman.Spec

/-!
# Links

What the stores to the records do, and how a task is linked and unlinked.
-/

open SlayerOS.Ring

namespace SlayerOS.Taskman

/-! ## One store -/

theorem bodyOf_eq_some (s : State) (p : Nat) (b : Task) :
    bodyOf s p = some b ↔ ∃ t, s.tasks p = some t ∧ t.body = b := by
  unfold bodyOf
  rw [Option.map_eq_some_iff]

/-- What a store to a link leaves alone. -/
structure SameBut (s s' : State) : Prop where
  bodies : bodyOf s' = bodyOf s
  list : s'.process_list = s.process_list
  freed : s'.freed = s.freed

theorem SameBut.trans {s s' s'' : State} (h : SameBut s s') (h' : SameBut s' s'') : SameBut s s'' :=
  ⟨h'.bodies.trans h.bodies, h'.list.trans h.list, h'.freed.trans h.freed⟩

theorem modify_spec (s : State) (p : Nat) (f : Task → Task) (t : Task) (ht : s.tasks p = some t) :
    ∃ s', modify s p f = some s' ∧ s'.tasks = Function.update s.tasks p (some (f t)) ∧
      s'.process_list = s.process_list ∧ s'.freed = s.freed := by
  refine ⟨{ s with tasks := Function.update s.tasks p (some (f t)) }, ?_, rfl, rfl, rfl⟩
  rw [modify, ht]
  rfl

theorem fields_update (s s' : State) (p : Nat) (u : Task) (h : s'.tasks = Function.update s.tasks p (some u)) :
    nextOf s' = Function.update (nextOf s) p u.next ∧ prevOf s' = Function.update (prevOf s) p u.prev ∧
    bodyOf s' = Function.update (bodyOf s) p (some u.body) := by
  refine ⟨?_, ?_, ?_⟩ <;>
  · funext q
    by_cases hq : q = p
    · subst hq
      simp [nextOf, prevOf, bodyOf, h]
    · simp [nextOf, prevOf, bodyOf, h, Function.update_of_ne hq]

theorem fields_same (s : State) (p : Nat) (t : Task) (ht : s.tasks p = some t) :
    Function.update (nextOf s) p t.next = nextOf s ∧ Function.update (prevOf s) p t.prev = prevOf s ∧
    Function.update (bodyOf s) p (some t.body) = bodyOf s := by
  refine ⟨?_, ?_, ?_⟩ <;>
  · rw [Function.update_eq_self_iff]
    simp [nextOf, prevOf, bodyOf, ht]

theorem set_next_spec (s : State) (p v : Nat) (b : Task) (h : bodyOf s p = some b) :
    ∃ s', set_next s p v = some s' ∧ nextOf s' = Function.update (nextOf s) p v ∧
      prevOf s' = prevOf s ∧ SameBut s s' := by
  obtain ⟨t, ht, -⟩ := (bodyOf_eq_some s p b).mp h
  obtain ⟨s', hs', htasks, hlist, hfreed⟩ := modify_spec s p (fun t => { t with next := v }) t ht
  obtain ⟨hn, hp, hb⟩ := fields_update s s' p _ htasks
  obtain ⟨-, hp', hb'⟩ := fields_same s p t ht
  exact ⟨s', hs', hn, hp.trans hp', hb.trans hb', hlist, hfreed⟩

theorem set_prev_spec (s : State) (p v : Nat) (b : Task) (h : bodyOf s p = some b) :
    ∃ s', set_prev s p v = some s' ∧ nextOf s' = nextOf s ∧
      prevOf s' = Function.update (prevOf s) p v ∧ SameBut s s' := by
  obtain ⟨t, ht, -⟩ := (bodyOf_eq_some s p b).mp h
  obtain ⟨s', hs', htasks, hlist, hfreed⟩ := modify_spec s p (fun t => { t with prev := v }) t ht
  obtain ⟨hn, hp, hb⟩ := fields_update s s' p _ htasks
  obtain ⟨hn', -, hb'⟩ := fields_same s p t ht
  exact ⟨s', hs', hn.trans hn', hp, hb.trans hb', hlist, hfreed⟩

theorem set_state_spec (s : State) (p : Nat) (v : TaskState) (b : Task) (h : bodyOf s p = some b) :
    ∃ s', set_state s p v = some s' ∧ nextOf s' = nextOf s ∧ prevOf s' = prevOf s ∧
      bodyOf s' = Function.update (bodyOf s) p (some { b with state := v }) ∧
      s'.process_list = s.process_list ∧ s'.freed = s.freed := by
  obtain ⟨t, ht, rfl⟩ := (bodyOf_eq_some s p b).mp h
  obtain ⟨s', hs', htasks, hlist, hfreed⟩ := modify_spec s p (fun t => { t with state := v }) t ht
  obtain ⟨hn, hp, hb⟩ := fields_update s s' p _ htasks
  obtain ⟨hn', hp', -⟩ := fields_same s p t ht
  exact ⟨s', hs', hn.trans hn', hp.trans hp', hb, hlist, hfreed⟩

/-! ## `unlink_process` -/

theorem Rep.mem_addrs {s : State} {a : Sched} (h : Rep s a) (p : Nat) :
    p ∈ a.addrs ↔ ∃ t, bodyOf s p = some t := by
  unfold Sched.addrs
  rw [List.mem_map]
  constructor
  · rintro ⟨⟨q, t⟩, hq, rfl⟩
    exact ⟨t, (h.bodies q t).mpr hq⟩
  · rintro ⟨t, ht⟩
    exact ⟨(p, t), (h.bodies p t).mp ht, rfl⟩

theorem tasks_links (s : State) (p : Nat) (b : Task) (h : bodyOf s p = some b) :
    ∃ t, s.tasks p = some t ∧ t.next = nextOf s p ∧ t.prev = prevOf s p ∧ t.body = b := by
  obtain ⟨t, ht, hb⟩ := (bodyOf_eq_some s p b).mp h
  exact ⟨t, ht, by simp [nextOf, ht], by simp [prevOf, ht], hb⟩

theorem unlink_process_single (s : State) (p : Nat) (hcount : s.process_list.count = 1) :
    unlink_process s p = some { s with process_list := { s.process_list with
      head := 0, tail := 0, current := 0, count := (s.process_list.count + 2 ^ 32 - 1) % 2 ^ 32 } } := by
  simp only [unlink_process, if_pos hcount, Option.bind_eq_bind, Option.bind_some]

theorem unlink_process_links (s : State) (p : Nat) (b c d : Task) (hcount : s.process_list.count ≠ 1)
    (hp : bodyOf s p = some b) (hprev : bodyOf s (prevOf s p) = some c)
    (hnext : bodyOf s (nextOf s p) = some d) (hne : prevOf s p ≠ p) (hne' : nextOf s p ≠ p) :
    ∃ s', unlink_process s p = some s' ∧
      nextOf s' = Function.update (nextOf s) (prevOf s p) (nextOf s p) ∧
      prevOf s' = Function.update (prevOf s) (nextOf s p) (prevOf s p) ∧
      bodyOf s' = bodyOf s ∧ s'.freed = s.freed ∧
      s'.process_list = { s.process_list with
        head := if s.process_list.head = p then nextOf s p else s.process_list.head
        tail := if s.process_list.tail = p then prevOf s p else s.process_list.tail
        current := if s.process_list.current = p then nextOf s p else s.process_list.current
        count := (s.process_list.count + 2 ^ 32 - 1) % 2 ^ 32 } := by
  obtain ⟨t, ht, htn, htp, -⟩ := tasks_links s p b hp
  obtain ⟨s1, hs1, hn1, hp1, hsame1⟩ := set_next_spec s (prevOf s p) (nextOf s p) c hprev
  obtain ⟨t1, ht1, ht1n, ht1p, -⟩ := tasks_links s1 p b (by rw [hsame1.bodies]; exact hp)
  rw [hn1, Function.update_of_ne hne.symm] at ht1n
  rw [hp1] at ht1p
  obtain ⟨s2, hs2, hn2, hp2, hsame2⟩ := set_prev_spec s1 (nextOf s p) (prevOf s p) d
    (by rw [hsame1.bodies]; exact hnext)
  obtain ⟨t2, ht2, ht2n, ht2p, -⟩ := tasks_links s2 p b (by rw [hsame2.bodies, hsame1.bodies]; exact hp)
  rw [hn2, hn1, Function.update_of_ne hne.symm] at ht2n
  rw [hp2, Function.update_of_ne hne'.symm, hp1] at ht2p
  have hlist := hsame2.list.trans hsame1.list
  have heval : unlink_process s p = some { s2 with process_list := { s.process_list with
      head := if s.process_list.head = p then nextOf s p else s.process_list.head
      tail := if s.process_list.tail = p then prevOf s p else s.process_list.tail
      current := if s.process_list.current = p then nextOf s p else s.process_list.current
      count := (s.process_list.count + 2 ^ 32 - 1) % 2 ^ 32 } } := by
    simp only [unlink_process, if_neg hcount, ht, Option.bind_eq_bind, Option.bind_some, htn, htp, hs1, ht1,
      ht1n, ht1p, hs2, ht2, ht2n, ht2p, hlist]
    by_cases h1 : s.process_list.head = p <;> by_cases h2 : s.process_list.tail = p <;>
      by_cases h3 : s.process_list.current = p <;> simp only [h1, h2, h3, if_true, if_false]
  rw [hp1] at hp2
  exact ⟨_, heval, hn2.trans hn1, hp2, hsame2.bodies.trans hsame1.bodies,
    hsame2.freed.trans hsame1.freed, rfl⟩

/-! ## A task leaves -/

theorem split_at (as bs : List (Nat × Task)) (p : Nat) (t : Task) (h : p ∉ as.map Prod.fst) :
    before p (as ++ (p, t) :: bs) = as ∧ after p (as ++ (p, t) :: bs) = bs := by
  have hall : ∀ x ∈ as, decide (x.1 ≠ p) = true := by
    intro x hx
    apply decide_eq_true
    rintro rfl
    exact h (List.mem_map_of_mem hx)
  unfold before after
  rw [List.takeWhile_append_of_pos hall, List.dropWhile_append_of_pos hall]
  simp

theorem ring_split (a : Sched) (as bs : List (Nat × Task)) (p : Nat) (t : Task)
    (hring : a.ring = as ++ (p, t) :: bs) (hnodup : a.addrs.Nodup) :
    before p a.ring = as ∧ after p a.ring = bs := by
  have hp : p ∉ as.map Prod.fst := by
    rw [Sched.addrs, hring, List.map_append, List.nodup_append] at hnodup
    intro hmem
    exact hnodup.2.2 p hmem p (by simp) rfl
  rw [hring]
  exact split_at as bs p t hp

theorem remove_split (a : Sched) (as bs : List (Nat × Task)) (p : Nat) (t : Task)
    (hring : a.ring = as ++ (p, t) :: bs) (hnodup : a.addrs.Nodup) :
    a.remove p = { a with
      ring := as ++ bs
      current := if a.current = p then ((bs ++ as).map Prod.fst).headD 0 else a.current } := by
  obtain ⟨hb, ha⟩ := ring_split a as bs p t hring hnodup
  rw [Sched.remove, others, hb, ha]

/-- The list after `unlink_process`, before the task is freed. -/
structure Unlinked (s s' : State) (a a' : Sched) : Prop where
  ring : IsRing (nextOf s') (prevOf s') a'.addrs
  bodies : bodyOf s' = bodyOf s
  freed : s'.freed = s.freed
  head : s'.process_list.head = a'.addrs.headD 0
  tail : s'.process_list.tail = a'.addrs.getLastD 0
  count : s'.process_list.count = a'.ring.length
  current : s'.process_list.current = a'.current
  next_pid : s'.process_list.next_pid = a'.next_pid

theorem headD_of_ne_nil (l : List Nat) (d e : Nat) (h : l ≠ []) : l.headD d ∈ l ∧ l.headD d = l.headD e := by
  obtain ⟨x, l, rfl⟩ := List.exists_cons_of_ne_nil h
  simp

theorem getLastD_of_ne_nil (l : List Nat) (d : Nat) (h : l ≠ []) : l.getLastD d ∈ l := by
  rcases List.eq_nil_or_concat l with rfl | ⟨l, x, rfl⟩
  · exact absurd rfl h
  · rw [List.concat_eq_append, List.getLastD_concat]
    simp

theorem headD_middle (as bs : List Nat) (p h : Nat) (hh : h = (as ++ p :: bs).headD 0)
    (hp : p ∉ as ++ bs) (hne : as ++ bs ≠ []) :
    (if h = p then (bs ++ as).headD p else h) = (as ++ bs).headD 0 := by
  cases as with
  | nil =>
    obtain ⟨b, bs, rfl⟩ := List.exists_cons_of_ne_nil (by simpa using hne)
    simp [hh]
  | cons x as =>
    have hx : x ≠ p := by
      rintro rfl
      exact hp (by simp)
    simp [hh, hx]

theorem getLastD_middle (as bs : List Nat) (p l : Nat) (hl : l = (as ++ p :: bs).getLastD 0)
    (hp : p ∉ as ++ bs) (hne : as ++ bs ≠ []) :
    (if l = p then (bs ++ as).getLastD p else l) = (as ++ bs).getLastD 0 := by
  rcases List.eq_nil_or_concat bs with rfl | ⟨bs, b, rfl⟩
  · rcases List.eq_nil_or_concat as with rfl | ⟨as, x, rfl⟩
    · simp at hne
    · simp only [hl, List.concat_eq_append, List.append_nil, List.nil_append, List.getLastD_concat, if_true]
  · rw [List.concat_eq_append] at *
    have hb : b ≠ p := by
      rintro rfl
      exact hp (by simp)
    have hlb : l = b := by
      rw [hl, ← List.cons_append, ← List.append_assoc, List.getLastD_concat]
    rw [hlb, if_neg hb, ← List.append_assoc, List.getLastD_concat]

theorem unlink_process_last (s : State) (a : Sched) (p : Nat) (t : Task) (hrep : Rep s a)
    (hring : a.ring = [(p, t)]) :
    ∃ s', unlink_process s p = some s' ∧ Unlinked s s' a (a.remove p) := by
  have hcount := hrep.count
  rw [hring, List.length_singleton] at hcount
  rw [remove_split a [] [] p t hring hrep.nodup]
  refine ⟨_, unlink_process_single s p hcount,
    ⟨Cycle.Chain.nil _, rfl, rfl, rfl, rfl, ?_, ?_, hrep.next_pid⟩⟩
  · simp only [List.append_nil, List.length_nil]
    omega
  · rcases hrep.linked with hc | hc
    · simp [hc]
    · simp [Sched.addrs, hring] at hc
      simp [hc]

theorem Rep.neighbours {s : State} {a : Sched} (hrep : Rep s a) (p : Nat) (t : Task)
    (as bs : List (Nat × Task)) (hring : a.ring = as ++ (p, t) :: bs) (hne : as ++ bs ≠ []) :
    (nextOf s p ≠ p ∧ ∃ b, bodyOf s (nextOf s p) = some b) ∧
    (prevOf s p ≠ p ∧ ∃ b, bodyOf s (prevOf s p) = some b) := by
  have haddrs : a.addrs = as.map Prod.fst ++ p :: bs.map Prod.fst := by simp [Sched.addrs, hring]
  have hnodup := hrep.nodup
  rw [haddrs, List.nodup_middle, List.nodup_cons] at hnodup
  have hisring := hrep.ring
  rw [haddrs] at hisring
  have hmem : ∀ q, q ∈ bs.map Prod.fst ++ as.map Prod.fst → q ≠ p ∧ ∃ b, bodyOf s q = some b := by
    intro q hq
    have hq' : q ∈ as.map Prod.fst ++ bs.map Prod.fst := by
      rw [List.mem_append] at hq ⊢
      exact hq.symm
    refine ⟨?_, (hrep.mem_addrs q).mp ?_⟩
    · rintro rfl
      exact hnodup.1 hq'
    · rw [haddrs, List.mem_append, List.mem_cons]
      rw [List.mem_append] at hq'
      tauto
  have hswap : bs.map Prod.fst ++ as.map Prod.fst ≠ [] := by
    rw [← List.map_append, ne_eq, List.map_eq_nil_iff, List.append_eq_nil_iff]
    rw [ne_eq, List.append_eq_nil_iff] at hne
    tauto
  refine ⟨hmem _ ?_, hmem _ ?_⟩
  · rw [hisring.next_eq]
    exact (headD_of_ne_nil _ p 0 hswap).1
  · rw [hisring.prev_eq]
    exact getLastD_of_ne_nil _ p hswap

theorem unlink_process_spec (s : State) (a : Sched) (p : Nat) (t : Task) (as bs : List (Nat × Task))
    (hrep : Rep s a) (hring : a.ring = as ++ (p, t) :: bs) :
    ∃ s', unlink_process s p = some s' ∧ Unlinked s s' a (a.remove p) := by
  by_cases hne : as ++ bs = []
  · obtain ⟨rfl, rfl⟩ := List.append_eq_nil_iff.mp hne
    exact unlink_process_last s a p t hrep hring
  · have haddrs : a.addrs = as.map Prod.fst ++ p :: bs.map Prod.fst := by simp [Sched.addrs, hring]
    have hnodup := hrep.nodup
    rw [haddrs, List.nodup_middle, List.nodup_cons] at hnodup
    have hne' : as.map Prod.fst ++ bs.map Prod.fst ≠ [] := by
      rw [← List.map_append]
      simpa using hne
    have hisring := hrep.ring
    rw [haddrs] at hisring
    have hnext := hisring.next_eq
    have hprev := hisring.prev_eq
    have hcount := hrep.count
    have hsmall := hrep.small
    have hlen : (as ++ bs).length ≠ 0 := fun h0 => hne (List.length_eq_zero_iff.mp h0)
    rw [hring, List.length_append, List.length_cons] at hcount hsmall
    rw [List.length_append] at hlen
    obtain ⟨⟨hpn, d, hd⟩, hpp, c, hc⟩ := hrep.neighbours p t as bs hring hne
    obtain ⟨s', hs', hn', hp', hb', hf', hl'⟩ := unlink_process_links s p t c d (by omega)
      ((hrep.bodies p t).mpr (by simp [hring])) hc hd hpp hpn
    rw [remove_split a as bs p t hring hrep.nodup]
    refine ⟨s', hs', ⟨?_, hb', hf', ?_, ?_, ?_, ?_, ?_⟩⟩
    · rw [hn', hp', Sched.addrs, List.map_append]
      exact hisring.remove hne' hnodup.2
    · rw [hl', hnext, Sched.addrs, List.map_append]
      exact headD_middle _ _ p _ (haddrs ▸ hrep.head) hnodup.1 hne'
    · rw [hl', hprev, Sched.addrs, List.map_append]
      exact getLastD_middle _ _ p _ (haddrs ▸ hrep.tail) hnodup.1 hne'
    · rw [hl']
      simp only [List.length_append]
      omega
    · have hswap : bs.map Prod.fst ++ as.map Prod.fst ≠ [] := by
        rw [ne_eq, List.append_eq_nil_iff] at hne' ⊢
        tauto
      rw [hl', hnext, (headD_of_ne_nil _ p 0 hswap).2, hrep.current, List.map_append]
    · rw [hl']
      exact hrep.next_pid

theorem free_task_spec (s : State) (p : Nat) (b : Task) (h : bodyOf s p = some b) :
    ∃ s' u, free_task s p = some s' ∧ u.body = b ∧ bodyOf s' = Function.update (bodyOf s) p none ∧
      (∀ q, q ≠ p → nextOf s' q = nextOf s q ∧ prevOf s' q = prevOf s q) ∧
      s'.process_list = s.process_list ∧ s'.freed = (p, u) :: s.freed := by
  obtain ⟨t, ht, hb⟩ := (bodyOf_eq_some s p b).mp h
  refine ⟨{ s with tasks := Function.update s.tasks p none, freed := (p, t) :: s.freed }, t, ?_, hb, ?_, ?_,
    rfl, rfl⟩
  · rw [free_task, ht]
    rfl
  · funext q
    by_cases hq : q = p
    · subst hq
      simp [bodyOf]
    · simp [bodyOf, Function.update_of_ne hq]
  · intro q hq
    simp [nextOf, prevOf, Function.update_of_ne hq]

theorem remove_linked (a : Sched) (as bs : List (Nat × Task)) (p : Nat)
    (h : a.current = 0 ∨ a.current ∈ as.map Prod.fst ++ p :: bs.map Prod.fst) :
    let c := if a.current = p then ((bs ++ as).map Prod.fst).headD 0 else a.current
    c = 0 ∨ c ∈ (as ++ bs).map Prod.fst := by
  intro c
  by_cases hc : a.current = p
  · simp only [c, if_pos hc]
    cases hnil : bs ++ as with
    | nil => exact Or.inl rfl
    | cons x xs =>
      right
      have hx : x ∈ bs ++ as := by simp [hnil]
      rw [List.map_cons, List.headD_cons]
      apply List.mem_map_of_mem
      rw [List.mem_append] at hx ⊢
      exact hx.symm
  · simp only [c, if_neg hc]
    rcases h with h | h
    · exact Or.inl h
    · right
      rw [List.map_append, List.mem_append]
      simpa [hc] using h

theorem reap_dead (s : State) (a : Sched) (p : Nat) (t : Task) (as bs : List (Nat × Task)) (hrep : Rep s a)
    (hring : a.ring = as ++ (p, t) :: bs) (hdead : dead (p, t) = true) :
    ∃ s' u, reap s p = some s' ∧ Rep s' (a.remove p) ∧ s'.freed = (p, u) :: s.freed ∧
      u.state = .TERMINATED := by
  have hbody : bodyOf s p = some t := (hrep.bodies p t).mpr (by simp [hring])
  have hstate : t.state = .TERMINATED := of_decide_eq_true hdead
  obtain ⟨v, hv, hvb⟩ := (bodyOf_eq_some s p t).mp hbody
  have hvstate : v.state = .TERMINATED := by rw [← hstate, ← hvb]; rfl
  obtain ⟨s1, hs1, hu⟩ := unlink_process_spec s a p t as bs hrep hring
  obtain ⟨s2, u, hs2, hub, hbodies, hlinks, hlist, hfreed⟩ :=
    free_task_spec s1 p t (by rw [hu.bodies]; exact hbody)
  have haddrs : a.addrs = as.map Prod.fst ++ p :: bs.map Prod.fst := by simp [Sched.addrs, hring]
  have hnodup := hrep.nodup
  rw [haddrs, List.nodup_middle, List.nodup_cons, ← List.map_append] at hnodup
  have hsplit := remove_split a as bs p t hring hrep.nodup
  have haddrs' : (a.remove p).addrs = (as ++ bs).map Prod.fst := by rw [hsplit]; rfl
  have hnull := hrep.null
  have hsmall := hrep.small
  refine ⟨s2, u, ?_, ⟨?_, ?_, ?_, ?_, ?_, ?_, ?_, ?_, ?_, ?_, ?_⟩, by rw [hfreed, hu.freed], ?_⟩
  · rw [reap, hv]
    simp only [Option.bind_eq_bind, Option.bind_some, hvstate, if_true, hs1, hs2]
  · rw [haddrs']
    exact hnodup.2
  · rw [haddrs']
    rw [haddrs] at hnull
    simp only [List.map_append, List.mem_append, List.mem_cons] at hnull ⊢
    tauto
  · intro q w
    rw [hbodies, hsplit]
    by_cases hq : q = p
    · subst hq
      rw [Function.update_self]
      refine iff_of_false (by simp) ?_
      intro hmem
      exact hnodup.1 (List.mem_map_of_mem (f := Prod.fst) hmem)
    · rw [Function.update_of_ne hq, hu.bodies, hrep.bodies q w, hring]
      simp [hq]
  · apply hu.ring.congr
    · intro q hq
      rw [haddrs'] at hq
      exact (hlinks q (fun h => hnodup.1 (h ▸ hq))).1
    · intro q hq
      rw [haddrs'] at hq
      exact (hlinks q (fun h => hnodup.1 (h ▸ hq))).2
  · rw [hlist]; exact hu.head
  · rw [hlist]; exact hu.tail
  · rw [hlist]; exact hu.count
  · rw [hsplit]
    rw [hring] at hsmall
    simp only [List.length_append, List.length_cons] at hsmall ⊢
    omega
  · rw [hlist]; exact hu.current
  · rw [haddrs', hsplit]
    exact remove_linked a as bs p (haddrs ▸ hrep.linked)
  · rw [hlist]; exact hu.next_pid
  · rw [← hstate, ← hub]; rfl

end SlayerOS.Taskman
