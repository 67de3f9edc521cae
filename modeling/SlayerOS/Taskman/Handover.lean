import SlayerOS.Taskman.Entries

/-!
# What `cleanup_terminated` leaves, and whom `yield` calls

The loop of `cleanup_terminated` ends at the head, which moves when the head leaves. And
the scan of `yield` starts behind the current task, which is another one when that leaves.
-/

open SlayerOS.Run

namespace SlayerOS.Taskman

theorem run_holds (base : Nat) (es : List Event) (hlegal : Along step (Legal base) machineBoot es) :
    ∃ m, run step machineBoot es = some m ∧
      Holds base m (es.foldl (fun a e => (act a e).2) ⟨[], 0, 1⟩) := by
  refine (run_foldl (Q := fun _ _ => True) (fun a e => (act a e).2) ?_ machineBoot _ es (holds_boot base) hlegal).2
  intro m a e h hl
  obtain ⟨s', hs', -, hholds⟩ := step_holds base m a e h hl
  exact ⟨trivial, _, hs', hholds⟩

/-! ## Terminated tasks -/

/-- `cleanup_terminated` leaves exactly the tasks that are not terminated, in their order. -/
def CleansUp (s : State) (a : Sched) : Prop :=
  ∃ s' a', cleanup_terminated s = some s' ∧ Rep s' a' ∧ a'.ring = a.ring.filter (!dead ·)

/-- If the head is terminated, no other task is. -/
def Sched.DeadHeadAlone (a : Sched) : Prop :=
  ∀ h ∈ a.ring.head?, dead h = true → ∀ x ∈ a.ring.tail, dead x = false

theorem filter_eq_iff (l : List (Nat × Task)) (p q : Nat × Task → Bool) :
    l.filter p = l.filter q ↔ ∀ x ∈ l, p x = q x := by
  constructor
  · intro h x hx
    have hmem : x ∈ l.filter p ↔ x ∈ l.filter q := by rw [h]
    simp only [List.mem_filter, hx, true_and] at hmem
    exact Bool.eq_iff_iff.mpr hmem
  · exact fun h => List.filter_congr h

theorem cleansUp_iff_leaves (s : State) (a : Sched) (h : Rep s a) :
    CleansUp s a ↔ ∀ x ∈ a.ring, leaves a.ring x = dead x := by
  obtain ⟨s', hs', hsw⟩ := cleanup_terminated_spec s a h
  have hfilter : a.sweep.ring = a.ring.filter (!dead ·) ↔ ∀ x ∈ a.ring, leaves a.ring x = dead x := by
    rw [sweep_ring a h.nodup, filter_eq_iff]
    simp only [Bool.not_inj_iff]
  rw [← hfilter]
  constructor
  · rintro ⟨t, b, ht, hb, hr⟩
    obtain rfl : s' = t := Option.some.inj (hs'.symm.trans ht)
    rw [← hsw.rep.view, hb.view]
    exact hr
  · intro hr
    exact ⟨s', a.sweep, hs', hsw.rep, hr⟩

/-- `cleanup_terminated` takes out every terminated task if and only if the head is not
terminated, or is the only terminated task. -/
theorem cleanup_terminated_iff (s : State) (a : Sched) (h : Rep s a) : CleansUp s a ↔ a.DeadHeadAlone := by
  have hnodup := h.nodup
  rw [cleansUp_iff_leaves s a h]
  unfold Sched.DeadHeadAlone
  rw [Sched.addrs] at hnodup
  cases hring : a.ring with
  | nil => simp
  | cons x xs =>
    rw [hring] at hnodup
    simp only [List.head?_cons, Option.mem_some_iff, forall_eq', List.tail_cons]
    cases hdead : dead x with
    | false =>
      refine iff_of_true ?_ (fun h => absurd h Bool.false_ne_true)
      intro y _
      exact leaves_live_head x xs hdead y
    | true =>
      have hstay := leaves_dead_head x xs hdead hnodup
      constructor
      · intro hall _ y hy
        rw [← hall y (List.mem_cons_of_mem _ hy)]
        exact hstay y hy
      · intro hall y hy
        rcases List.mem_cons.mp hy with rfl | hy
        · simp [head_leaves, hdead]
        · rw [hstay y hy, hall rfl y hy]

/-- Both tasks are killed, and only the first one leaves. -/
theorem both_killed :
    ∃ m a, run step machineBoot (twoTasks ++ [.kill_process 1, .kill_process 2]) = some m ∧ Rep m.s a ∧
      ¬ a.DeadHeadAlone := by
  obtain ⟨m, hm, hholds⟩ := run_holds 0x100000 (twoTasks ++ [.kill_process 1, .kill_process 2])
    (Plan.legal _ _ _ (holds_boot _) (by decide))
  refine ⟨m, _, hm, hholds.rep, ?_⟩
  intro hall
  exact absurd (hall _ rfl rfl _ List.mem_cons_self) (by decide)

theorem cleanup_terminated_iff_both_killed :
    ∃ m a, run step machineBoot (twoTasks ++ [.kill_process 1, .kill_process 2]) = some m ∧
      (CleansUp m.s a ↔ a.DeadHeadAlone) := by
  obtain ⟨m, a, hm, hrep, -⟩ := both_killed
  exact ⟨m, a, hm, cleanup_terminated_iff m.s a hrep⟩

theorem dead_head_stops_cleanup : ¬ ∀ (s : State) (a : Sched), Rep s a → CleansUp s a := by
  intro hall
  obtain ⟨m, a, -, hrep, hnot⟩ := both_killed
  have hclean := (cleansUp_iff_leaves m.s a hrep).mp (hall m.s a hrep)
  apply hnot
  intro x hx hdead y hy
  cases hring : a.ring with
  | nil => simp [hring] at hx
  | cons z zs =>
    have hnodup := hrep.nodup
    rw [Sched.addrs, hring] at hnodup
    rw [hring] at hx hy hclean
    obtain rfl : z = x := Option.some.inj hx
    have hstay := hclean y (List.mem_cons_of_mem _ hy)
    rw [leaves_dead_head z zs hdead hnodup y hy] at hstay
    exact hstay.symm

/-! ## The next task -/

/-- The first runnable task that follows the current one in the ring. -/
def Sched.next (a : Sched) : Option (Nat × Task) := (others a.current a.ring).find? ready

/-- The operation calls the entry of the next task of the list, or of none if there is no
such task. -/
def HandsOn (f : State → Option (Nat × State)) (s : State) (a : Sched) : Prop :=
  ∃ s', f s = some ((a.next.map Prod.fst).getD 0, s')

/-- If the current task is taken out, the first task behind it that stays is not runnable. -/
def Sched.HeirWaits (a : Sched) : Prop :=
  a.loses = true → ∀ x ∈ a.ring, x.1 = a.heir → ready x = false

theorem addr_inj (l : List (Nat × Task)) (o o' : Option (Nat × Task)) (hnodup : (l.map Prod.fst).Nodup)
    (hnull : 0 ∉ l.map Prod.fst) (ho : ∀ x ∈ o, x ∈ l) (ho' : ∀ x ∈ o', x ∈ l) :
    (o.map Prod.fst).getD 0 = (o'.map Prod.fst).getD 0 ↔ o = o' := by
  have hpos : ∀ x ∈ l, x.1 ≠ 0 := fun x hx h0 => hnull (h0 ▸ List.mem_map_of_mem hx)
  constructor
  · intro heq
    cases o with
    | none =>
      cases o' with
      | none => rfl
      | some y => exact absurd heq.symm (hpos y (ho' y rfl))
    | some x =>
      cases o' with
      | none => exact absurd heq (hpos x (ho x rfl))
      | some y => rw [List.inj_on_of_nodup_map hnodup (ho x rfl) (ho' y rfl) heq]
  · rintro rfl
    rfl

theorem find_heir (l : List (Nat × Task)) (p : Nat × Task → Bool) (y : Nat × Task)
    (hy : l.find? p = some y) (hp : ∀ x ∈ l, ready x = true → p x = true) (hready : ready y = true) :
    l.find? ready = some y := by
  obtain ⟨-, as, bs, rfl, has⟩ := List.find?_eq_some_iff_append.mp hy
  refine List.find?_eq_some_iff_append.mpr ⟨hready, as, bs, rfl, ?_⟩
  intro x hx
  have hnot := has x hx
  cases hr : ready x with
  | false => rfl
  | true =>
    rw [hp x (by simp [hx]) hr] at hnot
    exact absurd hnot (by simp)

/-- The scan finds the next task if and only if it does not begin behind that task. -/
theorem choice_eq_next_iff (a : Sched) (h : a.Wf) (hcur : a.current ≠ 0) : a.choice = a.next ↔ a.HeirWaits := by
  have hmem := mem_others_iff a h hcur
  unfold Sched.choice Sched.next Sched.HeirWaits
  rw [if_neg hcur]
  cases hlose : a.loses with
  | false =>
    refine iff_of_true ?_ (fun h => absurd h Bool.false_ne_true)
    rw [heir_of_stays a hlose]
    exact find_ne _ _ fun x hx => ((hmem x).mp hx).2
  | true =>
    simp only [forall_const]
    have hheir : a.heir = (((others a.current a.ring).find? (!leaves a.ring ·)).map Prod.fst).getD 0 := by
      rw [Sched.heir, hlose, if_pos rfl]
    have hne := heir_ne_current a h hcur hlose
    constructor
    · intro heq x hx hxh
      -- A runnable heir would be the next task, and the scan does not consider it.
      cases hready : ready x with
      | false => rfl
      | true =>
        have hxo : x ∈ others a.current a.ring := (hmem x).mpr ⟨hx, hxh ▸ hne⟩
        cases hfind : (others a.current a.ring).find? (!leaves a.ring ·) with
        | none =>
          have := List.find?_eq_none.mp hfind x hxo
          simp [ready_stays a.ring x hready] at this
        | some y =>
          rw [hfind] at hheir
          have hy : y.1 = a.heir := hheir.symm
          obtain rfl : y = x := mem_unique a h.nodup y x ((hmem y).mp (List.mem_of_find?_eq_some hfind)).1 hx
            (hy.trans hxh.symm)
          have hnext := find_heir _ _ y hfind (fun z _ hz => by simp [ready_stays a.ring z hz]) hready
          rw [hnext] at heq
          have hskip := List.find?_some heq
          simp [hy] at hskip
    · intro hall
      apply List.find?_congr
      intro x hx
      cases hready : ready x with
      | false => rfl
      | true =>
        have hxh : x.1 ≠ a.heir := by
          intro hxh
          rw [hall x ((hmem x).mp hx).1 hxh] at hready
          exact absurd hready Bool.false_ne_true
        simp [hxh]

theorem next_mem (a : Sched) (h : a.Wf) (hcur : a.current ≠ 0) (x : Nat × Task) (hx : x ∈ a.next) : x ∈ a.ring :=
  ((mem_others_iff a h hcur x).mp (List.mem_of_find?_eq_some hx)).1

theorem finish_fst (a : Sched) (t : Option Nat) : (finish a t).1 = t.getD 0 := by
  cases t <;> rfl

theorem yield_handsOn_iff (s : State) (a : Sched) (h : Rep s a) (hcur : a.current ≠ 0) :
    HandsOn yield s a ↔ a.HeirWaits := by
  obtain ⟨r, hr, htask, -⟩ := yield_spec s a h
  have hwf := h.wf
  rw [yield_eq a hwf, finish_fst] at htask
  rw [← choice_eq_next_iff a hwf hcur, ← addr_inj a.ring a.choice a.next hwf.nodup hwf.null
    (fun x hx => (choice_some a hwf x hx).1) (fun x hx => next_mem a hwf hcur x hx), ← htask]
  constructor
  · rintro ⟨s', hs'⟩
    exact congrArg Prod.fst (Option.some.inj (hr.symm.trans hs'))
  · intro heq
    exact ⟨r.2, by rw [hr, ← heq]⟩

theorem giveUp_handsOn (s : State) (a : Sched) (v : TaskState) (h : Rep s a) (hcur : a.current ≠ 0)
    (f : State → Option (Nat × State))
    (hf : f s = if s.process_list.current ≠ 0 then (do
        let s ← set_state s s.process_list.current v
        yield s)
      else some (0, s)) :
    HandsOn f s (a.setState a.current v) ↔ (a.setState a.current v).HeirWaits := by
  obtain ⟨s1, hs1, hrep, -⟩ := h.set_state a.current v (h.linked.resolve_left hcur)
  rw [h.current, if_pos hcur, hs1, Option.bind_eq_bind, Option.bind_some] at hf
  rw [← yield_handsOn_iff s1 _ hrep hcur]
  unfold HandsOn
  rw [hf]

theorem sleep_heirWaits (a : Sched) (h : a.Wf) : (a.setState a.current .WAITING).HeirWaits := by
  intro hlose
  have hstays : (a.setState a.current .WAITING).loses = false := by
    refine loses_of_alive _ (h.setState _ _) ?_
    have hcurrent : (a.setState a.current .WAITING).current = a.current := rfl
    rw [hcurrent, setState_state, if_pos rfl]
    cases a.state a.current <;> simp
  rw [hstays] at hlose
  exact absurd hlose Bool.false_ne_true

/-- In every reachable list with a current task, `yield` and `kill_current` call the next
runnable task if and only if the current task stays, or the first one behind it that stays
is not runnable. `sleep` always calls the next runnable task. -/
theorem run_handsOn_iff (base : Nat) (es : List Event) (m : Machine)
    (hlegal : Along step (Legal base) machineBoot es) (hrun : run step machineBoot es = some m)
    (hcur : m.s.process_list.current ≠ 0) :
    (HandsOn yield m.s (view m.s) ↔ (view m.s).HeirWaits) ∧
    (HandsOn kill_current m.s ((view m.s).setState m.s.process_list.current .TERMINATED) ↔
      ((view m.s).setState m.s.process_list.current .TERMINATED).HeirWaits) ∧
    HandsOn sleep m.s ((view m.s).setState m.s.process_list.current .WAITING) := by
  obtain ⟨m', hm', hholds⟩ := run_holds base es hlegal
  obtain rfl : m = m' := Option.some.inj (hrun.symm.trans hm')
  have hrep := hholds.rep
  generalize es.foldl (fun a e => (act a e).2) ⟨[], 0, 1⟩ = a at hrep
  rw [hrep.view, hrep.current]
  rw [hrep.current] at hcur
  refine ⟨yield_handsOn_iff m.s a hrep hcur, giveUp_handsOn m.s a _ hrep hcur kill_current rfl, ?_⟩
  rw [giveUp_handsOn m.s a _ hrep hcur sleep rfl]
  exact sleep_heirWaits a hrep.wf

theorem twoTasks_running :
    Along step (Legal 0x100000) machineBoot (twoTasks ++ [.start_scheduler]) ∧
    ∃ m a, run step machineBoot (twoTasks ++ [.start_scheduler]) = some m ∧ Rep m.s a ∧ a.current ≠ 0 ∧
      ¬ (a.setState a.current .TERMINATED).HeirWaits := by
  have hlegal : Along step (Legal 0x100000) machineBoot (twoTasks ++ [.start_scheduler]) :=
    Plan.legal _ _ _ (holds_boot _) (by decide)
  obtain ⟨m, hm, hholds⟩ := run_holds 0x100000 _ hlegal
  refine ⟨hlegal, m, _, hm, hholds.rep, by decide, ?_⟩
  unfold Sched.HeirWaits
  decide

theorem run_handsOn_iff_two :
    ∃ m, run step machineBoot (twoTasks ++ [.start_scheduler]) = some m ∧
      (HandsOn yield m.s (view m.s) ↔ (view m.s).HeirWaits) ∧
      (HandsOn kill_current m.s ((view m.s).setState m.s.process_list.current .TERMINATED) ↔
        ((view m.s).setState m.s.process_list.current .TERMINATED).HeirWaits) ∧
      HandsOn sleep m.s ((view m.s).setState m.s.process_list.current .WAITING) := by
  obtain ⟨hlegal, m, a, hm, hrep, hcur, -⟩ := twoTasks_running
  exact ⟨m, hm, run_handsOn_iff 0x100000 _ m hlegal hm (by rw [hrep.current]; exact hcur)⟩

/-- The first task kills itself. The second one takes its place and is not called. -/
theorem heir_is_skipped :
    ¬ ∀ (base : Nat) (es : List Event) (m : Machine), Along step (Legal base) machineBoot es →
      run step machineBoot es = some m → m.s.process_list.current ≠ 0 →
      HandsOn kill_current m.s ((view m.s).setState m.s.process_list.current .TERMINATED) := by
  intro hall
  obtain ⟨hlegal, m, a, hm, hrep, hcur, hnot⟩ := twoTasks_running
  have hkill := hall 0x100000 _ m hlegal hm (by rw [hrep.current]; exact hcur)
  rw [hrep.view, hrep.current] at hkill
  exact hnot ((giveUp_handsOn m.s a _ hrep hcur kill_current rfl).mp hkill)

end SlayerOS.Taskman
