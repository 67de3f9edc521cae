import SlayerOS.Taskman.Select

/-!
# The operations

Each operation of the code does to the records what its counterpart in `Spec.lean` does to
the list.
-/

open SlayerOS.Ring

namespace SlayerOS.Taskman

/-! ## States -/

theorem withState_fst (p : Nat) (v : TaskState) (x : Nat × Task) : (withState p v x).1 = x.1 := by
  unfold withState
  split <;> rfl

@[simp] theorem setState_addrs (a : Sched) (p : Nat) (v : TaskState) : (a.setState p v).addrs = a.addrs := by
  simp only [Sched.addrs, Sched.setState, List.map_map]
  apply List.map_congr_left
  intro x _
  exact withState_fst p v x

theorem mem_setState (a : Sched) (p : Nat) (v : TaskState) (q : Nat) (u : Task) :
    (q, u) ∈ (a.setState p v).ring ↔
      (q ≠ p ∧ (q, u) ∈ a.ring) ∨ (q = p ∧ ∃ t, (p, t) ∈ a.ring ∧ u = { t with state := v }) := by
  simp only [Sched.setState, List.mem_map, withState]
  constructor
  · rintro ⟨⟨r, t⟩, hmem, heq⟩
    split at heq
    case isTrue h =>
      simp only [Prod.mk.injEq] at h heq
      obtain ⟨rfl, rfl⟩ := heq
      exact Or.inr ⟨h, t, h ▸ hmem, rfl⟩
    case isFalse h =>
      simp only [Prod.mk.injEq] at h heq
      obtain ⟨rfl, rfl⟩ := heq
      exact Or.inl ⟨h, hmem⟩
  · rintro (⟨hne, hmem⟩ | ⟨rfl, t, hmem, rfl⟩)
    · exact ⟨(q, u), hmem, by simp [hne]⟩
    · exact ⟨(q, t), hmem, by simp⟩

theorem Rep.set_state {s : State} {a : Sched} (h : Rep s a) (p : Nat) (v : TaskState) (hp : p ∈ a.addrs) :
    ∃ s', set_state s p v = some s' ∧ Rep s' (a.setState p v) ∧ s'.freed = s.freed := by
  obtain ⟨b, hb⟩ := (h.mem_addrs p).mp hp
  obtain ⟨s', hs', hn, hp', hbodies, hlist, hfreed⟩ := set_state_spec s p v b hb
  refine ⟨s', hs', ⟨?_, ?_, ?_, ?_, ?_, ?_, ?_, ?_, ?_, ?_, ?_⟩, hfreed⟩
  · rw [setState_addrs]; exact h.nodup
  · rw [setState_addrs]; exact h.null
  · intro q u
    rw [hbodies, mem_setState]
    by_cases hq : q = p
    · subst hq
      rw [Function.update_self, Option.some.injEq]
      constructor
      · rintro rfl
        exact Or.inr ⟨rfl, b, (h.bodies q b).mp hb, rfl⟩
      · rintro (⟨hne, -⟩ | ⟨-, t, ht, rfl⟩)
        · exact absurd rfl hne
        · have := (h.bodies q t).mpr ht
          rw [hb, Option.some.injEq] at this
          rw [this]
    · rw [Function.update_of_ne hq, h.bodies q u]
      simp [hq]
  · rw [hn, hp', setState_addrs]; exact h.ring
  · rw [hlist, setState_addrs]; exact h.head
  · rw [hlist, setState_addrs]; exact h.tail
  · rw [hlist, h.count, Sched.setState, List.length_map]
  · rw [Sched.setState, List.length_map]; exact h.small
  · rw [hlist]; exact h.current
  · rw [setState_addrs]; exact h.linked
  · rw [hlist]; exact h.next_pid

theorem kill_process_spec (s : State) (a : Sched) (pid : Nat) (h : Rep s a) :
    ∃ s', kill_process s pid = some s' ∧ s'.freed = s.freed ∧
      Rep s' (if a.byPid pid = 0 then a else a.setState (a.byPid pid) .TERMINATED) := by
  unfold kill_process
  rw [get_by_pid_spec s a pid h]
  simp only [Option.bind_eq_bind, Option.bind_some]
  by_cases hnull : a.byPid pid = 0
  · rw [if_neg (by simpa using hnull), if_pos hnull]
    exact ⟨s, rfl, rfl, h⟩
  · rw [if_pos hnull, if_neg hnull]
    have hmem : a.byPid pid ∈ a.addrs := by
      unfold Sched.byPid at hnull ⊢
      cases hf : a.ring.find? fun x => x.2.pid = pid with
      | none => simp [hf] at hnull
      | some x => exact List.mem_map_of_mem (List.mem_of_find?_eq_some hf)
    obtain ⟨s', hs', hrep, hfreed⟩ := h.set_state (a.byPid pid) .TERMINATED hmem
    exact ⟨s', hs', hfreed, hrep⟩

/-! ## Dispatch -/

theorem dispatch_spec (s : State) (a : Sched) (p : Nat) (h : Rep s a) (hp : p ∈ a.addrs) :
    ∃ s', dispatch s p = some (p, s') ∧ Rep s' (a.handOver p) ∧ s'.freed = s.freed := by
  have h' : Rep { s with process_list := { s.process_list with current := p } } { a with current := p } :=
    ⟨h.nodup, h.null, h.bodies, h.ring, h.head, h.tail, h.count, h.small, rfl, Or.inr hp, h.next_pid⟩
  obtain ⟨s', hs', hrep, hfreed⟩ := h'.set_state p .ACTIVE hp
  refine ⟨s', ?_, hrep, hfreed⟩
  simp only [dispatch, hs', Option.bind_eq_bind, Option.bind_some]

theorem others_split (a : Sched) (as bs : List (Nat × Task)) (p : Nat) (t : Task)
    (hring : a.ring = as ++ (p, t) :: bs) (hnodup : a.addrs.Nodup) : others p a.ring = bs ++ as := by
  obtain ⟨hb, ha⟩ := ring_split a as bs p t hring hnodup
  rw [others, hb, ha]

theorem nodup_rotate (a : Sched) (as bs : List (Nat × Task)) (x : Nat × Task) (hring : a.ring = as ++ x :: bs)
    (hnodup : a.addrs.Nodup) : ((x :: (bs ++ as)).map Prod.fst).Nodup := by
  have hperm : (as ++ x :: bs).Perm (x :: (bs ++ as)) :=
    List.perm_middle.trans (List.Perm.cons x List.perm_append_comm)
  rw [Sched.addrs, hring] at hnodup
  exact (hperm.map Prod.fst).nodup_iff.mp hnodup

/-- The loop of `yield` starts behind the current task and would reach it last. -/
theorem scan_spec (s : State) (a : Sched) (as bs : List (Nat × Task)) (c : Nat × Task) (h : Rep s a)
    (hring : a.ring = as ++ c :: bs) :
    ∃ u r, s.tasks c.1 = some u ∧ next_runnable s (s.process_list.count + 1) u.next 0 = some r ∧
      match (bs ++ as).find? ready with
      | none => r.1 = c.1 ∨ s.process_list.count ≤ r.2
      | some x => r.1 = x.1 ∧ r.2 < s.process_list.count := by
  have hcount := h.count
  rw [hring, List.length_append, List.length_cons] at hcount
  obtain ⟨u, hu, -, hun⟩ := h.next as bs c hring
  have hch := h.chained (as ++ [c]) bs (by simp [hring])
  rw [← List.append_assoc] at hch
  generalize he : ((bs ++ as ++ [c]).map Prod.fst).headD 0 = e at hch
  have hstart : u.next = ((bs ++ as ++ [c]).map Prod.fst).headD e := by
    rw [hun, ← he]
    cases bs ++ as <;> simp
  have hlen : (bs ++ as ++ [c]).length = s.process_list.count := by
    simp only [List.length_append, List.length_singleton]
    omega
  have hscan := next_runnable_spec s (s.process_list.count + 1) 0 e (bs ++ as ++ [c]) hch (by omega) (by omega)
  rw [← hstart, List.find?_append] at hscan
  rcases hscan with ⟨x, k, hx, hk, heq⟩ | ⟨hnone, q, heq⟩
  · refine ⟨u, (x.1, k), hu, heq, ?_⟩
    cases hfind : (bs ++ as).find? ready with
    | none =>
      rw [hfind, Option.none_or] at hx
      have hxc := List.mem_of_find?_eq_some hx
      rw [List.mem_singleton] at hxc
      exact Or.inl (by rw [hxc])
    | some y =>
      rw [hfind, Option.some_or] at hx
      exact ⟨by rw [Option.some.inj hx], hk⟩
  · refine ⟨u, (q, s.process_list.count), hu, heq, ?_⟩
    rw [Option.or_eq_none_iff] at hnone
    rw [hnone.1]
    exact Or.inr (Nat.le_refl _)

theorem yield_next_spec (s : State) (a : Sched) (h : Rep s a) :
    match a.pick with
    | none => yield_next s = some (0, s)
    | some p => ∃ s', yield_next s = some (p, s') ∧ Rep s' (a.handOver p) ∧ s'.freed = s.freed := by
  unfold yield_next Sched.pick
  rw [h.current]
  by_cases hnull : a.current = 0
  · rw [if_pos (Or.inl hnull), if_pos hnull]
  · obtain ⟨c, hc, hcur⟩ := List.mem_map.mp (h.linked.resolve_left hnull)
    obtain ⟨as, bs, hring⟩ := List.append_of_mem hc
    have hcount : s.process_list.count ≠ 0 := by
      rw [h.count, hring, List.length_append, List.length_cons]
      omega
    obtain ⟨u, r, hu, hr, hscan⟩ := scan_spec s a as bs c h hring
    rw [← hcur] at hnull ⊢
    rw [if_neg (not_or.mpr ⟨hnull, hcount⟩), if_neg hnull, others_split a as bs c.1 c.2 hring h.nodup]
    simp only [hu, Option.bind_eq_bind, Option.bind_some, hr]
    cases hfind : (bs ++ as).find? ready with
    | none =>
      rw [hfind] at hscan
      simp only [Option.map_none]
      rcases hscan with hsame | hall
      · simp only [hsame, if_true, ite_self]
      · rw [if_pos hall]
    | some x =>
      rw [hfind] at hscan
      obtain ⟨hx, hlt⟩ := hscan
      have hmem := List.mem_of_find?_eq_some hfind
      have hne : x.1 ≠ c.1 := by
        have hrot := (List.nodup_cons.mp (nodup_rotate a as bs c hring h.nodup)).1
        exact fun heq => hrot (heq ▸ List.mem_map_of_mem hmem)
      have hxring : x.1 ∈ a.addrs := by
        rw [List.mem_append] at hmem
        rw [Sched.addrs, hring]
        refine List.mem_map_of_mem (List.mem_append.mpr ?_)
        exact hmem.symm.imp id (List.mem_cons_of_mem c)
      obtain ⟨s', hs', hrep, hfreed⟩ := dispatch_spec s a x.1 h hxring
      simp only [Option.map_some]
      refine ⟨s', ?_, hrep, hfreed⟩
      rw [if_neg (Nat.not_le.mpr hlt), hx, if_neg hne, hs']

theorem handOver_addrs (a : Sched) (p : Nat) : (a.handOver p).addrs = a.addrs := setState_addrs a p .ACTIVE

/-- `r` is what the operation returns, and `q` is what it does to the list. -/
def Does (s : State) (a : Sched) (r : Nat × State) (q : Nat × Sched) : Prop :=
  r.1 = q.1 ∧ Swept s r.2 a q.2

theorem yield_spec (s : State) (a : Sched) (h : Rep s a) : ∃ r, yield s = some r ∧ Does s a r a.yield := by
  obtain ⟨s1, hs1, hsw⟩ := cleanup_terminated_spec s a h
  have hnext := yield_next_spec s1 a.sweep hsw.rep
  unfold yield Sched.yield Does
  rw [hs1, Option.bind_eq_bind, Option.bind_some]
  cases hpick : a.sweep.pick with
  | none =>
    rw [hpick] at hnext
    exact ⟨(0, s1), hnext, rfl, hsw⟩
  | some p =>
    rw [hpick] at hnext
    obtain ⟨s', hs', hrep, hfreed⟩ := hnext
    refine ⟨(p, s'), hs', rfl, hsw.trans (hrep.swept hfreed ?_)⟩
    rw [handOver_addrs]
    exact List.Subset.refl _

theorem giveUp_spec (s : State) (a : Sched) (v : TaskState) (h : Rep s a) (r : Option (Nat × State))
    (hr : r = if s.process_list.current ≠ 0 then (do
        let s ← set_state s s.process_list.current v
        yield s)
      else some (0, s)) : ∃ r', r = some r' ∧ Does s a r' (a.giveUp v) := by
  unfold Sched.giveUp
  rw [h.current] at hr
  by_cases hnull : a.current = 0
  · rw [if_neg (by simpa using hnull)] at hr
    rw [if_pos hnull]
    exact ⟨(0, s), hr, rfl, h.swept rfl (List.Subset.refl _)⟩
  · obtain ⟨s1, hs1, hrep, hfreed⟩ := h.set_state a.current v (h.linked.resolve_left hnull)
    obtain ⟨r', hr', htask, hsw⟩ := yield_spec s1 _ hrep
    rw [if_pos hnull, hs1, Option.bind_eq_bind, Option.bind_some, hr'] at hr
    rw [if_neg hnull]
    refine ⟨r', hr, htask, Swept.trans (hrep.swept hfreed ?_) hsw⟩
    rw [setState_addrs]
    exact List.Subset.refl _

theorem kill_current_spec (s : State) (a : Sched) (h : Rep s a) :
    ∃ r, kill_current s = some r ∧ Does s a r (a.giveUp .TERMINATED) := giveUp_spec s a _ h _ rfl

theorem sleep_spec (s : State) (a : Sched) (h : Rep s a) :
    ∃ r, sleep s = some r ∧ Does s a r (a.giveUp .WAITING) := giveUp_spec s a _ h _ rfl

theorem first_mem (a : Sched) (h : a.ring ≠ []) : a.first ∈ a.addrs := by
  unfold Sched.first
  cases hf : a.ring.find? ready with
  | none => exact (headD_of_ne_nil a.addrs 0 0 (by simpa [Sched.addrs] using h)).1
  | some x => exact List.mem_map_of_mem (List.mem_of_find?_eq_some hf)

theorem start_scheduler_spec (s : State) (a : Sched) (h : Rep s a) :
    ∃ r, start_scheduler s = some r ∧ Does s a r a.start := by
  unfold start_scheduler Sched.start
  by_cases hnil : a.ring = []
  · rw [if_pos (by rw [h.count, hnil]; rfl), if_pos hnil]
    exact ⟨(0, s), rfl, rfl, h.swept rfl (List.Subset.refl _)⟩
  · have hcount : s.process_list.count ≠ 0 := by
      rw [h.count]
      exact fun h0 => hnil (List.length_eq_zero_iff.mp h0)
    rw [if_neg hcount, if_neg hnil]
    have h' : Rep { s with scheduler_running := true } a :=
      ⟨h.nodup, h.null, h.bodies, h.ring, h.head, h.tail, h.count, h.small, h.current, h.linked, h.next_pid⟩
    have hfirst := first_mem a hnil
    have hpos : a.first ≠ 0 := fun h0 => h.null (h0 ▸ hfirst)
    obtain ⟨s', hs', hrep, hfreed⟩ := dispatch_spec _ a a.first h' hfirst
    have hscan : first_runnable { s with scheduler_running := true } (s.process_list.count + 1)
        s.process_list.head = some a.first := by
      obtain ⟨x, xs, hring⟩ := List.exists_cons_of_ne_nil hnil
      have hch := h'.chained_head
      have htail := h'.head_tail
      have hcount := h.count
      have hhead : s.process_list.head = x.1 := by rw [h.head, Sched.addrs, hring]; rfl
      rw [hring] at hch htail hcount
      have hnull : ∀ y ∈ x :: xs, y.1 ≠ 0 := by
        intro y hy h0
        apply h.null
        rw [Sched.addrs, hring, ← h0]
        exact List.mem_map_of_mem hy
      have hspec := first_runnable_spec _ (s.process_list.count + 1) x xs hch htail hnull
        (by rw [hcount, List.length_cons]; omega)
      conv_lhs => rw [hhead]
      rw [hspec, Sched.first, ← h.head, hring]
    refine ⟨(a.first, s'), ?_, rfl, hrep.swept hfreed ?_⟩
    · simp only [hscan, Option.bind_eq_bind, Option.bind_some, if_neg hpos, hs']
    · rw [handOver_addrs]
      exact List.Subset.refl _

/-! ## `spawn_process` -/

theorem link_process_first (s : State) (task : Nat) (t : Task) (hhead : s.process_list.head = 0)
    (ht : bodyOf s task = some t) :
    ∃ s', link_process s task = some s' ∧ nextOf s' = Function.update (nextOf s) task task ∧
      prevOf s' = Function.update (prevOf s) task task ∧ bodyOf s' = bodyOf s ∧ s'.freed = s.freed ∧
      s'.process_list = { s.process_list with
        head := task, tail := task, count := (s.process_list.count + 1) % 2 ^ 32 } := by
  let s0 : State := { s with process_list := { s.process_list with head := task, tail := task } }
  obtain ⟨s1, hs1, hn1, hp1, hsame1⟩ := set_next_spec s0 task task t ht
  obtain ⟨s2, hs2, hn2, hp2, hsame2⟩ := set_prev_spec s1 task task t (by rw [hsame1.bodies]; exact ht)
  have hsame := hsame1.trans hsame2
  have heval : link_process s task = some { s2 with process_list := { s.process_list with
      head := task, tail := task, count := (s.process_list.count + 1) % 2 ^ 32 } } := by
    simp only [link_process, if_pos hhead, Option.bind_eq_bind, s0] at hs1 ⊢
    simp only [hs1, Option.bind_some, hs2, hsame.list, s0]
  refine ⟨_, heval, hn2.trans hn1, ?_, hsame.bodies, hsame.freed, rfl⟩
  exact hp2.trans (by rw [hp1]; rfl)

theorem link_process_last (s : State) (task : Nat) (t b c : Task) (hhead : s.process_list.head ≠ 0)
    (ht : bodyOf s task = some t) (hb : bodyOf s s.process_list.tail = some b)
    (hc : bodyOf s s.process_list.head = some c) :
    ∃ s', link_process s task = some s' ∧
      nextOf s' = Function.update (Function.update (nextOf s) task s.process_list.head)
        s.process_list.tail task ∧
      prevOf s' = Function.update (Function.update (prevOf s) task s.process_list.tail)
        s.process_list.head task ∧
      bodyOf s' = bodyOf s ∧ s'.freed = s.freed ∧
      s'.process_list = { s.process_list with
        tail := task, count := (s.process_list.count + 1) % 2 ^ 32 } := by
  obtain ⟨s1, hs1, hn1, hp1, hsame1⟩ := set_next_spec s task s.process_list.head t ht
  obtain ⟨s2, hs2, hn2, hp2, hsame2⟩ := set_prev_spec s1 task s.process_list.tail t
    (by rw [hsame1.bodies]; exact ht)
  obtain ⟨s3, hs3, hn3, hp3, hsame3⟩ := set_next_spec s2 s.process_list.tail task b
    (by rw [hsame2.bodies, hsame1.bodies]; exact hb)
  obtain ⟨s4, hs4, hn4, hp4, hsame4⟩ := set_prev_spec s3 s.process_list.head task c
    (by rw [hsame3.bodies, hsame2.bodies, hsame1.bodies]; exact hc)
  have hsame12 := hsame1.trans hsame2
  have hsame13 := hsame12.trans hsame3
  have hsame := hsame13.trans hsame4
  have heval : link_process s task = some { s4 with process_list := { s.process_list with
      tail := task, count := (s.process_list.count + 1) % 2 ^ 32 } } := by
    simp only [link_process, if_neg hhead, Option.bind_eq_bind, hs1, Option.bind_some, hsame1.list, hs2,
      hsame12.list, hs3, hsame13.list, hs4, hsame.list]
  refine ⟨_, heval, ?_, ?_, hsame.bodies, hsame.freed, rfl⟩
  · exact hn4.trans (by rw [hn3, hn2, hn1])
  · exact hp4.trans (by rw [hp3, hp2, hp1])

theorem spawn_addrs (a : Sched) (task : Nat) (t : Task) : (a.spawn task t).addrs = a.addrs ++ [task] := by
  simp [Sched.addrs, Sched.spawn]

theorem Rep.fresh {s : State} {a : Sched} (h : Rep s a) (task : Nat) (hfree : s.tasks task = none) :
    task ∉ a.addrs := by
  intro hmem
  obtain ⟨t, ht⟩ := (h.mem_addrs task).mp hmem
  rw [bodyOf, hfree] at ht
  exact absurd ht (by simp)

theorem Rep.spawn {s s' : State} {a : Sched} (h : Rep s a) (task : Nat) (t : Task) (htask : task ≠ 0)
    (hfresh : task ∉ a.addrs) (hsmall : a.ring.length + 1 < 2 ^ 32)
    (hbodies : bodyOf s' = Function.update (bodyOf s) task (some t))
    (hring : IsRing (nextOf s') (prevOf s') (a.addrs ++ [task]))
    (hlist : s'.process_list = { s.process_list with
      head := (a.addrs ++ [task]).headD 0
      tail := task
      count := (s.process_list.count + 1) % 2 ^ 32
      next_pid := (s.process_list.next_pid + 1) % 2 ^ 32 }) : Rep s' (a.spawn task t) := by
  have hnull := h.null
  refine ⟨?_, ?_, ?_, ?_, ?_, ?_, ?_, ?_, ?_, ?_, ?_⟩
  · rw [spawn_addrs]
    exact List.nodup_append.mpr ⟨h.nodup, List.nodup_singleton _, by
      intro p hp q hq heq
      rw [List.mem_singleton] at hq
      exact hfresh (hq ▸ heq ▸ hp)⟩
  · rw [spawn_addrs, List.mem_append, List.mem_singleton]
    exact fun h0 => h0.elim hnull fun h0 => htask h0.symm
  · intro p u
    rw [hbodies, Sched.spawn, List.mem_append, List.mem_singleton, Prod.mk.injEq]
    by_cases hp : p = task
    · subst hp
      rw [Function.update_self, Option.some.injEq]
      constructor
      · rintro rfl
        exact Or.inr ⟨rfl, rfl⟩
      · rintro (hmem | ⟨-, rfl⟩)
        · exact absurd (List.mem_map_of_mem (f := Prod.fst) hmem) hfresh
        · rfl
    · rw [Function.update_of_ne hp, h.bodies p u]
      simp [hp]
  · rw [spawn_addrs]; exact hring
  · rw [hlist, spawn_addrs]
  · rw [hlist, spawn_addrs, List.getLastD_concat]
  · rw [hlist, Sched.spawn, List.length_append, List.length_singleton, h.count]
    exact Nat.mod_eq_of_lt hsmall
  · rw [Sched.spawn, List.length_append, List.length_singleton]
    exact hsmall
  · rw [hlist]; exact h.current
  · rw [spawn_addrs, List.mem_append]
    exact h.linked.imp id Or.inl
  · rw [hlist, Sched.spawn, h.next_pid]

theorem spawn_process_spec (s : State) (a : Sched) (task stack entry : Nat) (name : String) (priority : Nat)
    (h : Rep s a) (htask : task ≠ 0) (hfree : s.tasks task = none) (hstack : stack ≠ 0)
    (hsmall : a.ring.length + 1 < 2 ^ 32) :
    ∃ s', spawn_process s task stack entry name priority = some (task, s') ∧ s'.freed = s.freed ∧
      Rep s' (a.spawn task (newTask stack entry a.next_pid name priority)) := by
  have hfresh := h.fresh task hfree
  let s1 : State := { s with
    process_list := { s.process_list with next_pid := (s.process_list.next_pid + 1) % 2 ^ 32 }
    tasks := Function.update s.tasks task (some (newTask stack entry s.process_list.next_pid name priority)) }
  have heval : spawn_process s task stack entry name priority =
      (link_process s1 task).bind fun s' => some (task, s') := by
    rw [spawn_process, if_neg htask, if_neg hstack]
    rfl
  obtain ⟨hn1, hp1, hb1⟩ := fields_update s s1 task _ rfl
  have hne : ∀ p ∈ a.addrs, p ≠ task := by
    rintro p hp rfl
    exact hfresh hp
  have hring1 : IsRing (nextOf s1) (prevOf s1) a.addrs := by
    apply h.ring.congr
    · intro p hp
      rw [hn1, Function.update_of_ne (hne p hp)]
    · intro p hp
      rw [hp1, Function.update_of_ne (hne p hp)]
  have hold : ∀ p ∈ a.addrs, ∃ b, bodyOf s1 p = some b := by
    intro p hp
    obtain ⟨b, hb⟩ := (h.mem_addrs p).mp hp
    exact ⟨b, by rw [hb1, Function.update_of_ne (hne p hp), hb]⟩
  rw [heval, ← h.next_pid]
  by_cases hnil : a.ring = []
  · obtain ⟨s', hs', hn, hp, hb, hf, hl⟩ := link_process_first s1 task _ (h.head_zero.mpr hnil)
      (by rw [hb1, Function.update_self])
    have haddrs : a.addrs = [] := by simp [Sched.addrs, hnil]
    refine ⟨s', by rw [hs']; rfl, hf, h.spawn task _ htask hfresh hsmall (hb.trans hb1) ?_ ?_⟩
    · rw [hn, hp, haddrs]
      exact isRing_single task
    · rw [hl, haddrs]
      rfl
  · have hlist : a.addrs ≠ [] := by simpa [Sched.addrs] using hnil
    obtain ⟨b, hb⟩ := hold s.process_list.tail (by rw [h.tail]; exact getLastD_of_ne_nil _ _ hlist)
    obtain ⟨c, hc⟩ := hold s.process_list.head (by rw [h.head]; exact (headD_of_ne_nil _ 0 0 hlist).1)
    obtain ⟨s', hs', hn, hp, hb', hf, hl⟩ := link_process_last s1 task _ b c
      (fun h0 => hnil (h.head_zero.mp h0)) (by rw [hb1, Function.update_self]) hb hc
    refine ⟨s', by rw [hs']; rfl, hf, h.spawn task _ htask hfresh hsmall (hb'.trans hb1) ?_ ?_⟩
    · rw [hn, hp]
      apply hring1.push _ _ h.nodup hfresh
      · obtain ⟨x, xs, hx⟩ := List.exists_cons_of_ne_nil hlist
        rw [show s1.process_list.head = s.process_list.head from rfl, h.head, hx]
        rfl
      · obtain ⟨xs, x, hx⟩ := (List.eq_nil_or_concat a.addrs).resolve_left hlist
        rw [List.concat_eq_append] at hx
        rw [show s1.process_list.tail = s.process_list.tail from rfl, h.tail, hx, List.getLastD_concat,
          List.getLast?_concat]
    · have hhead : (a.addrs ++ [task]).headD 0 = s.process_list.head := by
        obtain ⟨x, xs, hx⟩ := List.exists_cons_of_ne_nil hlist
        rw [h.head, hx]
        rfl
      rw [hl, hhead]

end SlayerOS.Taskman
