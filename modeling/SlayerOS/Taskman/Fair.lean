import SlayerOS.Taskman.Handover
import Mathlib.Data.List.Rotate

/-!
# Turns in a row

A `yield` moves the runnable tasks one place around. Where nothing else happens, each of
them gets its turn, and none of them gets back to where it left off.
-/

open SlayerOS.Run

namespace SlayerOS.Taskman

/-- The runnable tasks in the order of the links, from the current task on. -/
def Sched.queue (a : Sched) : List Nat := a.current :: ((others a.current a.ring).filter ready).map Prod.fst

/-- The same in memory. -/
def queue (s : State) : List Nat :=
  (along s s.process_list.count s.process_list.current).filter fun p => ((stateOf s p).map runnable).getD false

/-- The current task can run. -/
def Sched.Going (a : Sched) : Prop := ∃ x ∈ a.ring, x.1 = a.current ∧ ready x = true

/-! ## One turn -/

theorem next_split (as bs us vs : List (Nat × Task)) (x y : Nat × Task) (h : bs ++ as = us ++ y :: vs) :
    ∃ as' bs', as ++ x :: bs = as' ++ y :: bs' ∧ bs' ++ as' = vs ++ x :: us := by
  rcases List.append_eq_append_iff.mp h with ⟨cs, rfl, hcs⟩ | ⟨cs, rfl, hcs⟩
  · exact ⟨cs, vs ++ x :: bs, by simp [hcs], by simp⟩
  · cases cs with
    | nil =>
      rw [List.nil_append] at hcs
      exact ⟨[], vs ++ x :: us, by rw [← hcs, List.append_nil]; rfl, by simp⟩
    | cons c cs =>
      rw [List.cons_append, List.cons.injEq] at hcs
      obtain ⟨rfl, rfl⟩ := hcs
      exact ⟨as ++ x :: us, cs, by simp, by simp⟩

theorem filter_ready_stays (ring l : List (Nat × Task)) :
    (l.filter (!leaves ring ·)).filter ready = l.filter ready := by
  rw [List.filter_filter]
  apply List.filter_congr
  intro x _
  cases hready : ready x with
  | false => rfl
  | true => simp [ready_stays ring x hready]

theorem sweep_queue (a : Sched) (h : a.Wf) (hgoing : a.Going) :
    a.sweep.queue = a.queue ∧ a.sweep.current = a.current ∧ a.sweep.Going := by
  obtain ⟨x, hx, hcur, hready⟩ := hgoing
  have hleave := ready_stays a.ring x hready
  have hcurrent : a.sweep.current = a.current := by
    rw [sweep_current a h.nodup, heir_of_stays a (by rw [loses_of_mem a h.nodup x hx hcur.symm, hleave])]
  refine ⟨?_, hcurrent, x, ?_, by rw [hcur, hcurrent], hready⟩
  · obtain ⟨as, bs, hring⟩ := List.append_of_mem hx
    unfold Sched.queue
    rw [hcurrent, ← hcur, sweep_others a h.nodup as bs x hring hleave,
      others_split a as bs x.1 x.2 hring h.nodup, filter_ready_stays]
  · rw [sweep_ring a h.nodup, List.mem_filter]
    exact ⟨hx, by simp [hleave]⟩

/-- Hand over to the next task of the queue: the first one goes to its end. -/
theorem handOver_queue (a : Sched) (h : a.Wf) (as bs us vs : List (Nat × Task)) (x y : Nat × Task)
    (hring : a.ring = as ++ x :: bs) (hcur : x.1 = a.current) (hx : ready x = true)
    (hothers : bs ++ as = us ++ y :: vs) (hus : ∀ z ∈ us, ready z = false) (hy : ready y = true) :
    (a.handOver y.1).queue = a.queue.rotate 1 ∧ (a.handOver y.1).Going := by
  obtain ⟨cs, ds, hsplit, hrest⟩ := next_split as bs us vs x y hothers
  rw [← hring] at hsplit
  have hnodup := nodup_rotate a cs ds y hsplit h.nodup
  rw [List.map_cons, List.nodup_cons] at hnodup
  have hother : ∀ z ∈ ds ++ cs, withState y.1 .ACTIVE z = z := by
    intro z hz
    refine if_neg ?_
    rintro heq
    exact hnodup.1 (heq ▸ List.mem_map_of_mem hz)
  have hmap : ∀ l, l ⊆ ds ++ cs → l.map (withState y.1 .ACTIVE) = l := by
    intro l hl
    conv_rhs => rw [← List.map_id l]
    exact List.map_congr_left fun z hz => hother z (hl hz)
  have hring' : (a.handOver y.1).ring = cs ++ (y.1, { y.2 with state := .ACTIVE }) :: ds := by
    simp only [Sched.handOver, Sched.setState, hsplit, List.map_append, List.map_cons,
      hmap cs (List.subset_append_right ds cs), hmap ds (List.subset_append_left ds cs)]
    simp [withState]
  have hnodup' : (a.handOver y.1).addrs.Nodup := by
    rw [handOver_addrs]
    exact h.nodup
  have hfilter : us.filter ready = [] := List.filter_eq_nil_iff.mpr fun z hz => by simp [hus z hz]
  refine ⟨?_, (y.1, { y.2 with state := .ACTIVE }), by rw [hring']; simp, rfl, rfl⟩
  have hqueue : a.queue = x.1 :: y.1 :: (vs.filter ready).map Prod.fst := by
    rw [Sched.queue, ← hcur, others_split a as bs x.1 x.2 hring h.nodup, hothers, List.filter_append, hfilter,
      List.nil_append, List.filter_cons_of_pos hy, List.map_cons]
  rw [hqueue, Sched.queue, show (a.handOver y.1).current = y.1 from rfl,
    others_split (a.handOver y.1) cs ds y.1 _ hring' hnodup', hrest, List.filter_append,
    List.filter_cons_of_pos hx, hfilter]
  simp

theorem yield_queue (a : Sched) (h : a.Wf) (hgoing : a.Going) :
    a.yield.2.queue = a.queue.rotate 1 ∧ a.yield.2.Going ∧ (a.yield.1 = 0 ↔ a.queue.length = 1) := by
  obtain ⟨hqueue, hcurrent, x, hx, hcur, hready⟩ := sweep_queue a h hgoing
  have hwf : a.sweep.Wf := by
    refine ⟨((sweep_sublist a).map Prod.fst).nodup h.nodup, ?_, Or.inr (hcur ▸ List.mem_map_of_mem hx)⟩
    exact fun h0 => h.null (((sweep_sublist a).map Prod.fst).subset h0)
  obtain ⟨as, bs, hring⟩ := List.append_of_mem hx
  have hothers := others_split a.sweep as bs x.1 x.2 hring hwf.nodup
  have hnull : a.sweep.current ≠ 0 := by
    intro h0
    exact hwf.null (by rw [← h0, ← hcur]; exact List.mem_map_of_mem hx)
  rw [← hqueue]
  unfold Sched.yield Sched.pick
  rw [if_neg hnull, ← hcur, hothers]
  cases hfind : (bs ++ as).find? ready with
  | none =>
    have hone : a.sweep.queue = [x.1] := by
      rw [Sched.queue, ← hcur, hothers, List.filter_eq_nil_iff.mpr, List.map_nil]
      intro z hz
      simpa using List.find?_eq_none.mp hfind z hz
    refine ⟨?_, ⟨x, hx, hcur, hready⟩, by simp [hone]⟩
    change a.sweep.queue = _
    rw [hone, List.rotate_singleton]
  | some y =>
    obtain ⟨hy, us, vs, hsplit, hus⟩ := List.find?_eq_some_iff_append.mp hfind
    have hus' : ∀ z ∈ us, ready z = false := fun z hz => by simpa using hus z hz
    obtain ⟨hrotate, hgoing'⟩ :=
      handOver_queue a.sweep hwf as bs us vs x y hring hcur hready hsplit hus' hy
    refine ⟨hrotate, hgoing', ?_⟩
    have hy0 : y.1 ≠ 0 := by
      intro h0
      have hmem : y ∈ a.sweep.ring := by
        rw [hring]
        have : y ∈ bs ++ as := by simp [hsplit]
        simp only [List.mem_append, List.mem_cons] at this ⊢
        tauto
      exact hwf.null (h0 ▸ List.mem_map_of_mem hmem)
    have hlong : a.sweep.queue.length ≠ 1 := by
      rw [Sched.queue, ← hcur, hothers, hsplit, List.filter_append, List.filter_cons_of_pos hy]
      simp
    simp [hy0, hlong]

/-! ## Turns in memory -/

theorem Rep.queue {s : State} {a : Sched} (h : Rep s a) (hgoing : a.Going) : Taskman.queue s = a.queue := by
  obtain ⟨x, hx, hcur, hready⟩ := hgoing
  obtain ⟨as, bs, hring⟩ := List.append_of_mem hx
  have hchain := (along_chained s _ _ (h.chained as (x :: bs) hring)).1
  have hlen : ((x :: bs) ++ as).length = s.process_list.count := by
    rw [h.count, hring, List.length_append, List.length_append, Nat.add_comm]
  have hstate : ∀ z ∈ (x :: bs) ++ as, ((stateOf s z.1).map runnable).getD false = ready z := by
    intro z hz
    have hmem : z ∈ a.ring := by
      rw [hring]
      simpa [or_comm, or_assoc, or_left_comm] using hz
    rw [h.state, (state_eq_some a h.nodup z.1 z.2.state).mpr ⟨z, hmem, rfl, rfl⟩]
    rfl
  rw [hlen] at hchain
  unfold Taskman.queue Sched.queue
  rw [h.current, ← hcur, others_split a as bs x.1 x.2 hring h.nodup]
  have halong : along s s.process_list.count x.1 = ((x :: bs) ++ as).map Prod.fst := hchain
  have hfilter := List.filter_congr (q := ready) hstate
  rw [halong, List.filter_map]
  refine (congrArg (List.map Prod.fst) hfilter).trans ?_
  rw [List.cons_append, List.filter_cons_of_pos hready, List.map_cons]

theorem Rep.going {s : State} {a : Sched} (h : Rep s a)
    (hstate : ∃ v, stateOf s s.process_list.current = some v ∧ runnable v = true) : a.Going := by
  obtain ⟨v, hv, hrun⟩ := hstate
  rw [h.state, h.current] at hv
  obtain ⟨x, hx, hcur, rfl⟩ := (state_eq_some a h.nodup _ _).mp hv
  exact ⟨x, hx, hcur, hrun⟩

theorem yields_spec (base n : Nat) (m : Machine) (a : Sched) (h : Holds base m a) (hgoing : a.Going) :
    ∃ m' a', run step m (List.replicate n .yield) = some m' ∧ Holds base m' a' ∧ a'.Going ∧
      a'.queue = a.queue.rotate n ∧
      m'.running.length = m.running.length + if a.queue.length = 1 then 0 else n := by
  induction n generalizing m a with
  | zero => exact ⟨m, a, rfl, h, hgoing, (List.rotate_zero _).symm, by simp⟩
  | succ n ih =>
    obtain ⟨hqueue, hgoing', hcall⟩ := yield_queue a h.rep.wf hgoing
    obtain ⟨s', hs', -, hholds⟩ := step_holds base m a .yield h trivial
    obtain ⟨m', a', hrun, hholds', hgoing'', hqueue', hrunning⟩ := ih _ _ hholds hgoing'
    refine ⟨m', a', ?_, hholds', hgoing'', ?_, ?_⟩
    · rw [List.replicate_succ, run_cons, hs', Option.bind_some, hrun]
    · rw [hqueue', show (act a .yield).2 = a.yield.2 from rfl, hqueue, List.rotate_rotate, Nat.add_comm]
    · have hlen : a.yield.2.queue.length = a.queue.length := by rw [hqueue, List.length_rotate]
      rw [hrunning, show (act a .yield).2 = a.yield.2 from rfl, hlen]
      simp only [moved, enter, show (act a .yield).1 = a.yield.1 from rfl]
      by_cases hone : a.queue.length = 1
      · rw [if_pos (hcall.mpr hone), if_pos hone, if_pos hone]
      · rw [if_neg (fun h0 => hone (hcall.mp h0)), if_neg hone, if_neg hone, List.length_cons]
        omega

theorem Sched.mem_queue (a : Sched) (h : a.Wf) (hgoing : a.Going) (p : Nat) :
    p ∈ a.queue ↔ ∃ v, a.state p = some v ∧ runnable v = true := by
  obtain ⟨x, hx, hcur, hready⟩ := hgoing
  have hnull : a.current ≠ 0 := fun h0 => h.null (h0 ▸ hcur ▸ List.mem_map_of_mem hx)
  unfold Sched.queue
  simp only [List.mem_cons, List.mem_map, List.mem_filter, mem_others_iff a h hnull, state_eq_some a h.nodup]
  constructor
  · rintro (rfl | ⟨y, ⟨⟨hy, -⟩, hrun⟩, rfl⟩)
    · exact ⟨_, ⟨x, hx, hcur, rfl⟩, hready⟩
    · exact ⟨_, ⟨y, hy, rfl, rfl⟩, hrun⟩
  · rintro ⟨v, ⟨y, hy, rfl, rfl⟩, hrun⟩
    by_cases heq : y.1 = a.current
    · exact Or.inl heq
    · exact Or.inr ⟨y, ⟨⟨hy, heq⟩, hrun⟩, rfl⟩

/-- In every reachable state whose current task can run, the runnable tasks wait in a queue.
A `yield` moves it by one place, so that each of them gets its turn before any other gets a
second one, and none of the calls returns: the entries pile up on one stack. -/
theorem run_round_robin (base : Nat) (es : List Event) (m : Machine)
    (hlegal : Along step (Legal base) machineBoot es) (hrun : run step machineBoot es = some m)
    (hstate : ∃ v, stateOf m.s m.s.process_list.current = some v ∧ runnable v = true) :
    (∀ p, p ∈ queue m.s ↔ ∃ v, stateOf m.s p = some v ∧ runnable v = true) ∧
    (∀ n, ∃ m', run step m (List.replicate n .yield) = some m' ∧ queue m'.s = (queue m.s).rotate n ∧
      m'.running.length = m.running.length + if (queue m.s).length = 1 then 0 else n) ∧
    ∀ p ∈ queue m.s, ∃ n m', n < (queue m.s).length ∧ run step m (List.replicate n .yield) = some m' ∧
      m'.s.process_list.current = p := by
  obtain ⟨m1, hm1, hholds⟩ := run_holds base es hlegal
  obtain rfl : m = m1 := Option.some.inj (hrun.symm.trans hm1)
  generalize es.foldl (fun a e => (act a e).2) ⟨[], 0, 1⟩ = a at hholds
  have hgoing := hholds.rep.going hstate
  rw [hholds.rep.queue hgoing]
  refine ⟨?_, ?_, ?_⟩
  · intro p
    rw [hholds.rep.state]
    exact a.mem_queue hholds.rep.wf hgoing p
  · intro n
    obtain ⟨m', a', hm', hholds', hgoing', hqueue, hrunning⟩ := yields_spec base n m a hholds hgoing
    exact ⟨m', hm', by rw [hholds'.rep.queue hgoing', hqueue], hrunning⟩
  · intro p hp
    obtain ⟨n, hn, rfl⟩ := List.getElem_of_mem hp
    obtain ⟨m', a', hm', hholds', -, hqueue, -⟩ := yields_spec base n m a hholds hgoing
    refine ⟨n, m', hn, hm', ?_⟩
    have hhead : a'.queue.head? = a.queue[n]? := by rw [hqueue, List.head?_rotate hn]
    rw [List.getElem?_eq_getElem hn] at hhead
    rw [hholds'.rep.current]
    exact Option.some.inj hhead

theorem run_round_robin_two :
    ∃ m, run step machineBoot (twoTasks ++ [.start_scheduler]) = some m ∧ queue m.s = [0x100020, 0x200020] ∧
      ∃ n m', n < (queue m.s).length ∧ run step m (List.replicate n .yield) = some m' ∧
        m'.s.process_list.current = 0x200020 := by
  have h : (run step machineBoot (twoTasks ++ [.start_scheduler])).map
      (fun m => (queue m.s, stateOf m.s m.s.process_list.current)) =
      some ([0x100020, 0x200020], some .ACTIVE) := by
    decide
  obtain ⟨m, hm, heq⟩ := Option.map_eq_some_iff.mp h
  have hqueue : queue m.s = [0x100020, 0x200020] := congrArg Prod.fst heq
  have hturn := (run_round_robin 0x100000 _ m (Plan.legal _ _ _ (holds_boot _) (by decide)) hm
    ⟨.ACTIVE, congrArg Prod.snd heq, rfl⟩).2.2
  exact ⟨m, hm, hqueue, hturn 0x200020 (by rw [hqueue]; decide)⟩

end SlayerOS.Taskman
