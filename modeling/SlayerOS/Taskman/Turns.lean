import SlayerOS.Taskman.Heir

/-!
# Whose turn it is

An event first settles the list and then hands over to a task, or to none.
-/

namespace SlayerOS.Taskman

/-! ## An event in two parts -/

/-- What `sleep` and `kill_current` do before they hand over. -/
def Sched.demote (a : Sched) (v : TaskState) : Sched :=
  if a.current = 0 then a else (a.setState a.current v).sweep

/-- What the event does before it hands over. -/
def settle (a : Sched) : Event → Sched
  | .kill_current => a.demote .TERMINATED
  | .sleep => a.demote .WAITING
  | .yield => a.sweep
  | .start_scheduler => a
  | e => (act a e).2

/-- The task that the event hands over to. -/
def target (a : Sched) : Event → Option Nat
  | .kill_current => (a.setState a.current .TERMINATED).choice.map Prod.fst
  | .sleep => (a.setState a.current .WAITING).choice.map Prod.fst
  | .yield => a.choice.map Prod.fst
  | .start_scheduler => if a.ring = [] then none else some a.first
  | _ => none

/-- The result of an operation, from its two parts. -/
def finish (a : Sched) : Option Nat → Nat × Sched
  | none => (0, a)
  | some p => (p, a.handOver p)

theorem yield_eq (a : Sched) (h : a.Wf) : a.yield = finish a.sweep (a.choice.map Prod.fst) := by
  rw [← sweep_pick a h.nodup h.null h.linked]
  unfold Sched.yield finish
  cases a.sweep.pick <;> rfl

theorem giveUp_eq (a : Sched) (v : TaskState) (h : a.Wf) :
    a.giveUp v = finish (a.demote v) ((a.setState a.current v).choice.map Prod.fst) := by
  unfold Sched.giveUp Sched.demote
  split
  case isTrue h0 =>
    have hnone : (a.setState a.current v).choice = none := if_pos h0
    rw [hnone]
    rfl
  case isFalse => exact yield_eq _ (h.setState _ _)

theorem act_eq (a : Sched) (e : Event) (h : a.Wf) : act a e = finish (settle a e) (target a e) := by
  cases e with
  | spawn => rfl
  | kill_process => rfl
  | kill_current => exact giveUp_eq a _ h
  | sleep => exact giveUp_eq a _ h
  | yield => exact yield_eq a h
  | start_scheduler =>
    simp only [act, Sched.start, settle, target]
    split <;> rfl
  | ret => rfl

theorem demote_state (a : Sched) (v : TaskState) (h : a.Wf) (p : Nat) :
    (a.demote v).state p = a.state p ∨ (a.demote v).state p = none ∨
    (p = a.current ∧ (a.demote v).state p = some v) := by
  unfold Sched.demote
  split
  · exact Or.inl rfl
  · rcases sweep_state _ (h.setState a.current v).nodup p with hsame | ⟨-, hnone⟩
    · rw [hsame, setState_state]
      split
      case isTrue heq =>
        cases hstate : a.state p with
        | none => exact Or.inl rfl
        | some w => exact Or.inr (Or.inr ⟨heq, rfl⟩)
      case isFalse => exact Or.inl rfl
    · exact Or.inr (Or.inl hnone)

/-- No event makes a task `ACTIVE` before it hands over, and only a spawn makes one `READY`. -/
theorem settle_state (base : Nat) (m : Machine) (a : Sched) (e : Event) (h : Rep m.s a)
    (hlegal : Legal base m e) (p : Nat) :
    (settle a e).state p = a.state p ∨ (settle a e).state p = some .TERMINATED ∨
    (settle a e).state p = none ∨
    (e = .sleep ∧ p = a.current ∧ (settle a e).state p = some .WAITING) ∨
    ∃ stack entry name priority, e = .spawn p stack entry name priority ∧
      (settle a e).state p = some .READY := by
  cases e with
  | spawn task stack entry name priority =>
    have hspawn := spawn_state a task (newTask stack entry a.next_pid name priority)
      (h.fresh task hlegal.2.1) p
    by_cases hp : p = task
    · subst hp
      rw [if_pos rfl] at hspawn
      exact Or.inr (Or.inr (Or.inr (Or.inr ⟨stack, entry, name, priority, rfl, hspawn⟩)))
    · rw [if_neg hp] at hspawn
      exact Or.inl hspawn
  | kill_process pid =>
    simp only [settle, act]
    split
    · exact Or.inl rfl
    · rw [setState_state]
      split
      · cases a.state p with
        | none => exact Or.inl rfl
        | some w => exact Or.inr (Or.inl rfl)
      · exact Or.inl rfl
  | kill_current =>
    rcases demote_state a .TERMINATED h.wf p with h1 | h1 | ⟨-, h1⟩
    · exact Or.inl h1
    · exact Or.inr (Or.inr (Or.inl h1))
    · exact Or.inr (Or.inl h1)
  | sleep =>
    rcases demote_state a .WAITING h.wf p with h1 | h1 | ⟨hp, h1⟩
    · exact Or.inl h1
    · exact Or.inr (Or.inr (Or.inl h1))
    · exact Or.inr (Or.inr (Or.inr (Or.inl ⟨rfl, hp, h1⟩)))
  | yield =>
    rcases sweep_state a h.nodup p with h1 | ⟨-, h1⟩
    · exact Or.inl h1
    · exact Or.inr (Or.inr (Or.inl h1))
  | start_scheduler => exact Or.inl rfl
  | ret => exact Or.inl rfl

theorem demote_current (a : Sched) (v : TaskState) (h : a.Wf) :
    (a.demote v).current = (a.setState a.current v).heir := by
  unfold Sched.demote
  split
  case isTrue h0 =>
    have hlose : (a.setState a.current v).loses = false := by
      apply loses_null
      rw [setState_addrs, show (a.setState a.current v).current = a.current from rfl, h0]
      exact h.null
    exact (heir_of_stays _ hlose).symm
  case isFalse => exact sweep_current _ (h.setState _ _).nodup

theorem settle_current (a : Sched) (e : Event) (h : a.Wf) :
    (settle a e).current = match e with
      | .yield => a.heir
      | .kill_current => (a.setState a.current .TERMINATED).heir
      | .sleep => (a.setState a.current .WAITING).heir
      | _ => a.current := by
  cases e with
  | spawn => rfl
  | kill_process =>
    simp only [settle, act]
    split <;> rfl
  | kill_current => exact demote_current a _ h
  | sleep => exact demote_current a _ h
  | yield => exact sweep_current a h.nodup
  | start_scheduler => rfl
  | ret => rfl

/-! ## The task that an event hands over to -/

theorem giveUp_choice (a : Sched) (v : TaskState) (h : a.Wf) (x : Nat × Task)
    (hx : (a.setState a.current v).choice = some x) : x ∈ a.ring ∧ ready x = true := by
  obtain ⟨hmem, hready, hne⟩ := choice_some _ (h.setState a.current v) x hx
  rcases (mem_setState a a.current v x.1 x.2).mp hmem with ⟨-, hmem⟩ | ⟨heq, -⟩
  · exact ⟨hmem, hready⟩
  · exact absurd heq hne

theorem target_ready (a : Sched) (e : Event) (h : a.Wf) (p : Nat) (hp : target a e = some p)
    (he : e ≠ .start_scheduler) : p ≠ a.current ∧ ∃ v, a.state p = some v ∧ runnable v = true := by
  have hgive : ∀ v, (a.setState a.current v).choice.map Prod.fst = some p →
      p ≠ a.current ∧ ∃ v, a.state p = some v ∧ runnable v = true := by
    intro v hv
    obtain ⟨x, hx, rfl⟩ := Option.map_eq_some_iff.mp hv
    obtain ⟨hmem, hready⟩ := giveUp_choice a v h x hx
    refine ⟨(choice_some _ (h.setState a.current v) x hx).2.2, x.2.state, ?_, hready⟩
    exact (state_eq_some a h.nodup x.1 _).mpr ⟨x, hmem, rfl, rfl⟩
  cases e with
  | kill_current => exact hgive _ hp
  | sleep => exact hgive _ hp
  | yield =>
    obtain ⟨x, hx, rfl⟩ := Option.map_eq_some_iff.mp hp
    obtain ⟨hmem, hready, hne⟩ := choice_some a h x hx
    exact ⟨hne, x.2.state, (state_eq_some a h.nodup x.1 _).mpr ⟨x, hmem, rfl, rfl⟩, hready⟩
  | start_scheduler => exact absurd rfl he
  | spawn => exact absurd hp (by simp [target])
  | kill_process => exact absurd hp (by simp [target])
  | ret => exact absurd hp (by simp [target])

theorem first_ready (a : Sched) (h : a.Wf) (p : Nat) (v : TaskState) (hp : a.state p = some v)
    (hv : runnable v = true) : ∃ x, a.ring.find? ready = some x ∧ a.first = x.1 := by
  obtain ⟨y, hy, -, rfl⟩ := (state_eq_some a h.nodup p v).mp hp
  cases hf : a.ring.find? ready with
  | none => exact absurd hv (List.find?_eq_none.mp hf y hy)
  | some x => exact ⟨x, rfl, by rw [Sched.first, hf]; rfl⟩

theorem target_mem (a : Sched) (e : Event) (h : a.Wf) (p : Nat) (hp : target a e = some p) : p ∈ a.addrs := by
  by_cases he : e = .start_scheduler
  · subst he
    simp only [target] at hp
    split at hp
    · exact absurd hp (by simp)
    · rename_i hne
      rw [← Option.some.inj hp]
      exact first_mem a hne
  · obtain ⟨-, v, hv, -⟩ := target_ready a e h p hp he
    exact mem_addrs_of_state a p v hv

/-! ## A turn of the machine -/

/-- What the event does to the machine besides the list. -/
structure Turn (m m' : Machine) (a : Sched) (e : Event) : Prop where
  born : ∀ p, p = 0 ∨ p ∈ a.addrs → m'.born p = m.born p
  spawned : m.spawned ≤ m'.spawned
  spawn : ∀ task stack entry name priority, e = .spawn task stack entry name priority →
    m'.born task = m.spawned ∧ m.spawned < m'.spawned
  started : m'.started = (target a e).toList.map m.born ++ m.started
  running : m'.running = (target a e).toList.map (fun p => (p, m.born p)) ++
    if e = .ret then m.running.tail else m.running

theorem turn_enter (m : Machine) (s : State) (a b : Sched) (e : Event) (h : a.Wf) (he : e ≠ .ret)
    (hspawn : ∀ task stack entry name priority, e ≠ .spawn task stack entry name priority) :
    Turn m (enter m ((finish b (target a e)).1, s)) a e := by
  have hnone : ∀ task stack entry name priority, e = .spawn task stack entry name priority →
      (enter m ((finish b (target a e)).1, s)).born task = m.spawned ∧
        m.spawned < (enter m ((finish b (target a e)).1, s)).spawned :=
    fun task stack entry name priority heq => absurd heq (hspawn task stack entry name priority)
  cases ht : target a e with
  | none =>
    rw [ht] at hnone
    exact ⟨fun _ _ => rfl, Nat.le_refl _, hnone, by rw [ht]; rfl, by rw [ht, if_neg he]; rfl⟩
  | some p =>
    have hp : p ≠ 0 := fun h0 => h.null (h0 ▸ target_mem a e h p ht)
    have henter : enter m ((finish b (some p)).1, s) =
      { m with s, running := (p, m.born p) :: m.running, started := m.born p :: m.started } := if_neg hp
    rw [ht, henter] at hnone
    rw [henter]
    exact ⟨fun _ _ => rfl, Nat.le_refl _, hnone, by rw [ht]; rfl, by rw [ht, if_neg he]; rfl⟩

theorem step_turn (base : Nat) (m : Machine) (a : Sched) (e : Event) (h : Holds base m a)
    (hlegal : Legal base m e) :
    ∃ m', step m e = some m' ∧ Holds base m' (finish (settle a e) (target a e)).2 ∧ Turn m m' a e := by
  obtain ⟨s', hs', -, hholds⟩ := step_holds base m a e h hlegal
  have hact := act_eq a e h.rep.wf
  have hwf := h.rep.wf
  refine ⟨_, hs', by rw [← hact]; exact hholds, ?_⟩
  rw [hact]
  cases e with
  | spawn task stack entry name priority =>
    have hfresh := h.rep.fresh task hlegal.2.1
    refine ⟨?_, Nat.le_succ _, ?_, rfl, rfl⟩
    · intro p hp
      have hne : p ≠ task := by
        rintro rfl
        exact hp.elim hlegal.1 hfresh
      exact Function.update_of_ne hne _ _
    · rintro task' _ _ _ _ heq
      obtain rfl : task = task' := by injection heq
      exact ⟨Function.update_self _ _ _, Nat.lt_succ_self _⟩
  | ret => exact ⟨fun _ _ => rfl, Nat.le_refl _, by simp, rfl, rfl⟩
  | kill_process => exact turn_enter m s' a _ _ hwf (by simp) (by simp)
  | kill_current => exact turn_enter m s' a _ _ hwf (by simp) (by simp)
  | sleep => exact turn_enter m s' a _ _ hwf (by simp) (by simp)
  | yield => exact turn_enter m s' a _ _ hwf (by simp) (by simp)
  | start_scheduler => exact turn_enter m s' a _ _ hwf (by simp) (by simp)

end SlayerOS.Taskman
