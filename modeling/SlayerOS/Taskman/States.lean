import SlayerOS.Taskman.Turns

/-!
# Terminated and active tasks

A terminated task should stay so, and at most one task should be active. Neither holds in
every run. Each section says what goes wrong, and which steps have to be avoided.
-/

open SlayerOS.Run

namespace SlayerOS.Taskman

theorem finish_state (a : Sched) (t : Option Nat) (p : Nat) :
    (finish a t).2.state p = if t = some p then (a.state p).map fun _ => .ACTIVE else a.state p := by
  cases t with
  | none => rfl
  | some q =>
    simp only [finish, handOver_state, Option.some.injEq]
    by_cases hp : p = q
    · rw [if_pos hp, if_pos hp.symm]
    · rw [if_neg hp, if_neg fun h => hp h.symm]

/-- What holds of the machine and of its list at boot, and is kept by the good steps, makes
good runs of guarded ones. -/
theorem run_iff (base : Nat) (Inv : Machine → Sched → Prop) {Good Guard : Machine → Event → Prop}
    (hboot : Inv machineBoot ⟨[], 0, 1⟩)
    (hiff : ∀ m a e, Holds base m a → Inv m a → Legal base m e → (Good m e ↔ Guard m e))
    (hkeep : ∀ m m' a e, Holds base m a → Inv m a → Legal base m e → Good m e → step m e = some m' →
      Holds base m' (finish (settle a e) (target a e)).2 → Turn m m' a e →
      Inv m' (finish (settle a e) (target a e)).2)
    (es : List Event) (hlegal : Along step (Legal base) machineBoot es) :
    Along step Good machineBoot es ↔ Along step Guard machineBoot es := by
  apply along_iff (fun m => ∃ a, Holds base m a ∧ Inv m a) (L := Legal base)
  · rintro m e ⟨a, h, hinv⟩ hl
    exact hiff m a e h hinv hl
  · rintro m e m' ⟨a, h, hinv⟩ hl hgood hm'
    obtain ⟨m'', hm'', hholds, hturn⟩ := step_turn base m a e h hl
    obtain rfl := Option.some.inj (hm''.symm.trans hm')
    exact ⟨_, hholds, hkeep m _ a e h hinv hl hgood hm' hholds hturn⟩
  · exact ⟨_, holds_boot base, hboot⟩
  · exact hlegal

/-! ## Terminated tasks

`sleep` makes the current task wait, also if it was killed, and `start_scheduler` falls
back to the head if no task is runnable.
-/

/-- Terminated tasks stay so or leave, and an entry that is called is that of a runnable
task. -/
def Absorbs (m : Machine) (e : Event) : Prop :=
  ∃ m', step m e = some m' ∧
    (∀ p, stateOf m.s p = some .TERMINATED → stateOf m'.s p = some .TERMINATED ∨ stateOf m'.s p = none) ∧
    ∀ p b, m'.running = (p, b) :: m.running → ∃ v, stateOf m.s p = some v ∧ runnable v = true

/-- A terminated task does not sleep, and the scheduler is started with no task or with a
runnable one. -/
def NoRevival (m : Machine) : Event → Prop
  | .sleep => stateOf m.s m.s.process_list.current ≠ some .TERMINATED
  | .start_scheduler => m.s.process_list.count = 0 ∨ ∃ p v, stateOf m.s p = some v ∧ runnable v = true
  | _ => True

theorem Turn.target_of_running {m m' : Machine} {a : Sched} {e : Event} (h : Turn m m' a e) (p b : Nat)
    (hrun : m'.running = (p, b) :: m.running) : target a e = some p := by
  have hr := h.running
  rw [hrun] at hr
  cases ht : target a e with
  | none =>
    rw [ht] at hr
    have hlen := congrArg List.length hr
    split at hlen
    all_goals simp at hlen
    omega
  | some q =>
    rw [ht] at hr
    simp only [Option.toList_some, List.map_cons, List.cons_append, List.cons.injEq, Prod.mk.injEq] at hr
    rw [hr.1.1]

theorem target_runnable (m : Machine) (a : Sched) (e : Event) (h : Rep m.s a) (hguard : NoRevival m e)
    (p : Nat) (hp : target a e = some p) : ∃ v, a.state p = some v ∧ runnable v = true := by
  by_cases he : e = .start_scheduler
  · subst he
    simp only [target] at hp
    split at hp
    case isTrue => exact absurd hp (by simp)
    case isFalse hne =>
      obtain h0 | ⟨q, v, hq, hv⟩ := hguard
      · rw [h.count] at h0
        exact absurd (List.length_eq_zero_iff.mp h0) hne
      · rw [h.state] at hq
        obtain ⟨x, hx, hfirst⟩ := first_ready a h.wf q v hq hv
        rw [hfirst, Option.some.injEq] at hp
        refine ⟨x.2.state, (state_eq_some a h.nodup p _).mpr ⟨x, List.mem_of_find?_eq_some hx, hp, rfl⟩, ?_⟩
        exact List.find?_some (p := ready) hx
  · exact (target_ready a e h.wf p hp he).2

theorem sleep_waits (a : Sched) (h : a.Wf) (v : TaskState) (hstate : a.state a.current = some v) :
    (finish (settle a .sleep) (target a .sleep)).2.state a.current = some .WAITING := by
  have hcur := current_ne_zero a h v hstate
  have hset : (a.setState a.current .WAITING).state a.current = some .WAITING := by
    rw [setState_state, if_pos rfl, hstate]
    rfl
  rw [finish_state, if_neg]
  · simp only [settle, Sched.demote, if_neg hcur]
    rcases sweep_state _ (h.setState a.current .WAITING).nodup a.current with hsame | ⟨hdead, -⟩
    · rw [hsame, hset]
    · rw [hset] at hdead
      exact absurd hdead (by simp)
  · intro ht
    exact (target_ready a .sleep h a.current ht (by simp)).1 rfl

theorem noRevival_of_absorbs (base : Nat) (m : Machine) (a : Sched) (e : Event) (h : Holds base m a)
    (hlegal : Legal base m e) (habs : Absorbs m e) : NoRevival m e := by
  obtain ⟨m', hm', hholds, hturn⟩ := step_turn base m a e h hlegal
  obtain ⟨m'', hm'', hdead, hcall⟩ := habs
  obtain rfl := Option.some.inj (hm'.symm.trans hm'')
  cases e with
  | sleep =>
    intro hterm
    rw [h.rep.current] at hterm
    have hlater := hdead a.current hterm
    rw [h.rep.state] at hterm
    rw [hholds.rep.state, sleep_waits a h.rep.wf _ hterm] at hlater
    simp at hlater
  | start_scheduler =>
    by_cases hnil : a.ring = []
    · left
      rw [h.rep.count, hnil]
      rfl
    · right
      have ht : target a .start_scheduler = some a.first := if_neg hnil
      have hrun := hturn.running
      rw [ht] at hrun
      obtain ⟨v, hv, hready⟩ := hcall a.first _ hrun
      exact ⟨a.first, v, hv, hready⟩
  | _ => trivial

theorem absorbs_iff (base : Nat) (m : Machine) (a : Sched) (e : Event) (h : Holds base m a)
    (hlegal : Legal base m e) : Absorbs m e ↔ NoRevival m e := by
  refine ⟨noRevival_of_absorbs base m a e h hlegal, ?_⟩
  intro hguard
  obtain ⟨m', hm', hholds, hturn⟩ := step_turn base m a e h hlegal
  have hrunnable := target_runnable m a e h.rep hguard
  refine ⟨m', hm', ?_, ?_⟩
  · intro p hp
    rw [h.rep.state] at hp
    rw [hholds.rep.state, finish_state, if_neg]
    · rcases settle_state base m a e h.rep hlegal p with h1 | h1 | h1 | ⟨rfl, hcur, -⟩ | ⟨_, _, _, _, rfl, -⟩
      · exact Or.inl (h1.trans hp)
      · exact Or.inl h1
      · exact Or.inr h1
      · have hne : stateOf m.s m.s.process_list.current ≠ some .TERMINATED := hguard
        rw [h.rep.current, h.rep.state, ← hcur] at hne
        exact absurd hp hne
      · rw [(state_eq_none a p).mpr (h.rep.fresh p hlegal.2.1)] at hp
        exact absurd hp (by simp)
    · intro ht
      obtain ⟨v, hv, hready⟩ := hrunnable p ht
      rw [hp, Option.some.injEq] at hv
      rw [← hv] at hready
      exact absurd hready (by decide)
  · intro p b hrun
    rw [h.rep.state]
    exact hrunnable p (hturn.target_of_running p b hrun)

/-- In a run, terminated tasks stay so exactly if no step may revive one. -/
theorem run_absorbs_iff (base : Nat) (es : List Event) (hlegal : Along step (Legal base) machineBoot es) :
    Along step Absorbs machineBoot es ↔ Along step NoRevival machineBoot es := by
  refine run_iff base (fun _ _ => True) trivial ?_ ?_ es hlegal
  · exact fun m a e h _ hl => absorbs_iff base m a e h hl
  · exact fun _ _ _ _ _ _ _ _ _ _ _ => trivial

theorem run_absorbs_iff_sleep :
    Along step Absorbs machineBoot (twoTasks ++ [.start_scheduler, .kill_process 2, .sleep]) := by
  rw [run_absorbs_iff 0x100000 _ (Plan.legal _ _ _ (holds_boot _) (by decide))]
  refine along_cons _ _ _ _ trivial rfl (along_cons _ _ _ _ trivial rfl ?_)
  refine along_cons _ _ _ _ (Or.inr ⟨0x100020, .READY, rfl, rfl⟩) rfl ?_
  exact along_cons _ _ _ _ trivial rfl (along_cons _ _ _ _ (fun h => nomatch h) rfl trivial)

/-- A killed task is dispatched by `start_scheduler`. -/
theorem start_scheduler_revives :
    Along step (Legal 0x100000) machineBoot (twoTasks ++ [.kill_process 1, .kill_process 2, .start_scheduler]) ∧
    ¬ Along step Absorbs machineBoot (twoTasks ++ [.kill_process 1, .kill_process 2, .start_scheduler]) := by
  refine ⟨Plan.legal _ _ _ (holds_boot _) (by decide), ?_⟩
  intro h
  obtain ⟨m', hm', -, hcall⟩ := Along.at _ _ (twoTasks ++ [.kill_process 1, .kill_process 2]) _ [] h rfl
  obtain rfl := Option.some.inj hm'
  obtain ⟨v, hv, hready⟩ := hcall 0x100020 0 rfl
  obtain rfl := Option.some.inj hv
  exact absurd hready (by decide)

/-! ## The active task

`yield` and `start_scheduler` do not take the state of the task that they leave, as `sleep`
and `kill_current` do.
-/

/-- An active task is the current one. -/
def OneActive (s : State) : Prop := ∀ p, stateOf s p = some .ACTIVE → p = s.process_list.current

def KeepsOneActive (m : Machine) (e : Event) : Prop := ∃ m', step m e = some m' ∧ OneActive m'.s

/-- An active task yields only if no other task is runnable, and starts the scheduler only
if no task before it is. -/
def NoOtherActive (m : Machine) : Event → Prop
  | .yield => stateOf m.s m.s.process_list.current = some .ACTIVE →
    ∀ p v, p ≠ m.s.process_list.current → stateOf m.s p = some v → runnable v = false
  | .start_scheduler => stateOf m.s m.s.process_list.current = some .ACTIVE →
    ∀ x ∈ before m.s.process_list.current (view m.s).ring, ready x = false
  | _ => True

theorem finish_current (a : Sched) (t : Option Nat) : (finish a t).2.current = t.getD a.current := by
  cases t <;> rfl

theorem settle_active (base : Nat) (m : Machine) (a : Sched) (e : Event) (h : Rep m.s a)
    (hlegal : Legal base m e) (p : Nat) (hp : (settle a e).state p = some .ACTIVE) :
    a.state p = some .ACTIVE := by
  rcases settle_state base m a e h hlegal p with h1 | h1 | h1 | ⟨-, -, h1⟩ | ⟨_, _, _, _, -, h1⟩
  · exact h1.symm.trans hp
  all_goals
    rw [h1] at hp
    exact absurd hp (by simp)

theorem demote_not_active (a : Sched) (h : a.Wf) (v : TaskState) (hv : v ≠ .ACTIVE) :
    (a.demote v).state a.current ≠ some .ACTIVE := by
  unfold Sched.demote
  split
  case isTrue h0 =>
    rw [h0, state_zero a h]
    simp
  case isFalse =>
    rcases sweep_state _ (h.setState a.current v).nodup a.current with hsame | ⟨-, hnone⟩
    · rw [hsame, setState_state, if_pos rfl]
      cases a.state a.current with
      | none => simp
      | some w => simpa using hv
    · rw [hnone]
      simp

theorem first_eq_current (a : Sched) (h : a.Wf) (v : TaskState) (hv : a.state a.current = some v)
    (hready : runnable v = true) :
    a.first = a.current ↔ ∀ x ∈ before a.current a.ring, ready x = false := by
  obtain ⟨x, hx, hxc, rfl⟩ := (state_eq_some a h.nodup _ _).mp hv
  obtain ⟨as, bs, hring⟩ := List.append_of_mem hx
  have hrot := (List.nodup_cons.mp (nodup_rotate a as bs x hring h.nodup)).1
  rw [← hxc, (ring_split a as bs x.1 x.2 hring h.nodup).1, Sched.first, hring, List.find?_append,
    List.find?_cons_of_pos (p := ready) hready]
  cases hf : as.find? ready with
  | none =>
    rw [List.find?_eq_none] at hf
    simpa using hf
  | some y =>
    have hy := List.mem_of_find?_eq_some hf
    have hne : y.1 ≠ x.1 := by
      intro heq
      apply hrot
      rw [← heq]
      exact List.mem_map_of_mem (List.mem_append_right _ hy)
    refine iff_of_false (by simpa using hne) ?_
    intro hall
    have := List.find?_some hf
    rw [hall y hy] at this
    exact absurd this Bool.false_ne_true

/-- Only the state of the task that was current matters: nothing else becomes active. -/
theorem finish_oneActive (a b : Sched) (t : Option Nat)
    (hone : ∀ p, b.state p = some .ACTIVE → p = a.current) :
    (∀ p, (finish b t).2.state p = some .ACTIVE → p = t.getD b.current) ↔
      (b.state a.current = some .ACTIVE → a.current = t.getD b.current) := by
  constructor
  · intro h hact
    apply h
    rw [finish_state, hact]
    split <;> rfl
  · intro h p hp
    rw [finish_state] at hp
    split at hp
    case isTrue ht => rw [ht, Option.getD_some]
    case isFalse =>
      have hcur := hone p hp
      rw [hcur] at hp ⊢
      exact h hp

theorem keepsOneActive_iff (base : Nat) (m : Machine) (a : Sched) (e : Event) (h : Holds base m a)
    (hone : OneActive m.s) (hlegal : Legal base m e) :
    KeepsOneActive m e ↔
      ((settle a e).state a.current = some .ACTIVE → a.current = (target a e).getD (settle a e).current) := by
  obtain ⟨m', hm', hholds, -⟩ := step_turn base m a e h hlegal
  rw [← finish_oneActive a (settle a e) (target a e), ← finish_current]
  · unfold KeepsOneActive OneActive
    simp only [hm', Option.some.injEq, exists_eq_left', hholds.rep.state, hholds.rep.current]
  · intro p hp
    rw [← h.rep.current]
    apply hone
    rw [h.rep.state]
    exact settle_active base m a e h.rep hlegal p hp

theorem yield_oneActive (a : Sched) (h : a.Wf) :
    (a.sweep.state a.current = some .ACTIVE → a.current = (a.choice.map Prod.fst).getD a.sweep.current) ↔
      (a.state a.current = some .ACTIVE →
        ∀ p v, p ≠ a.current → a.state p = some v → runnable v = false) := by
  have hsame : a.sweep.state a.current = some .ACTIVE ↔ a.state a.current = some .ACTIVE := by
    rcases sweep_state a h.nodup a.current with h1 | ⟨h1, h2⟩
    · rw [h1]
    · rw [h1, h2]
      simp
  rw [hsame]
  apply imp_congr_right
  intro hact
  have hcur := current_ne_zero a h _ hact
  have hheir : a.heir = a.current := heir_of_stays a (loses_of_alive a h (by rw [hact]; simp))
  have hnone : a.choice = none ↔ ∀ p v, p ≠ a.current → a.state p = some v → runnable v = false := by
    rw [choice_none a h hcur, hheir]
    constructor
    · intro hall p v hp hv
      obtain ⟨x, hx, rfl, rfl⟩ := (state_eq_some a h.nodup p v).mp hv
      rw [← Bool.not_eq_true]
      exact fun hready => hp (hall x hx hp hready)
    · intro hall x hx hne hready
      have hv := (state_eq_some a h.nodup x.1 x.2.state).mpr ⟨x, hx, rfl, rfl⟩
      exact absurd hready (by rw [ready, hall x.1 _ hne hv]; simp)
  rw [← hnone, sweep_current a h.nodup, hheir]
  cases hc : a.choice with
  | none => simp
  | some x =>
    have hne := (choice_some a h x hc).2.2
    refine iff_of_false (fun heq => hne heq.symm) (by simp)

theorem start_oneActive (a : Sched) (h : a.Wf) :
    (a.state a.current = some .ACTIVE → a.current = (target a .start_scheduler).getD a.current) ↔
      (a.state a.current = some .ACTIVE → ∀ x ∈ before a.current a.ring, ready x = false) := by
  apply imp_congr_right
  intro hact
  rw [← first_eq_current a h _ hact rfl, target, if_neg, Option.getD_some, eq_comm]
  intro hnil
  rw [Sched.state, hnil] at hact
  exact absurd hact (by simp)

theorem oneActive_iff (base : Nat) (m : Machine) (a : Sched) (e : Event) (h : Holds base m a)
    (hone : OneActive m.s) (hlegal : Legal base m e) : KeepsOneActive m e ↔ NoOtherActive m e := by
  have hwf := h.rep.wf
  rw [keepsOneActive_iff base m a e h hone hlegal]
  cases e with
  | spawn => exact iff_of_true (fun _ => rfl) trivial
  | kill_process pid => exact iff_of_true (fun _ => (settle_current a (.kill_process pid) hwf).symm) trivial
  | ret => exact iff_of_true (fun _ => rfl) trivial
  | kill_current =>
    exact iff_of_true (fun hact => absurd hact (demote_not_active a hwf .TERMINATED (by simp))) trivial
  | sleep => exact iff_of_true (fun hact => absurd hact (demote_not_active a hwf .WAITING (by simp))) trivial
  | yield =>
    simp only [NoOtherActive, h.rep.state, h.rep.current]
    exact yield_oneActive a hwf
  | start_scheduler =>
    simp only [NoOtherActive, h.rep.state, h.rep.current, h.rep.view]
    exact start_oneActive a hwf

/-- In a run, no two tasks are active exactly if no active task is left for another one. -/
theorem run_oneActive_iff (base : Nat) (es : List Event) (hlegal : Along step (Legal base) machineBoot es) :
    Along step KeepsOneActive machineBoot es ↔ Along step NoOtherActive machineBoot es := by
  refine run_iff base (fun m _ => OneActive m.s) ?_ ?_ ?_ es hlegal
  · intro p hp
    exact absurd hp (by simp [stateOf, machineBoot, boot])
  · exact fun m a e h hone hl => oneActive_iff base m a e h hone hl
  · rintro m m' a e - - - ⟨m'', hm'', hone⟩ hm' - -
    obtain rfl := Option.some.inj (hm'.symm.trans hm'')
    exact hone

theorem run_oneActive_iff_sleep :
    Along step KeepsOneActive machineBoot (twoTasks ++ [.start_scheduler, .sleep, .kill_process 2, .yield]) := by
  rw [run_oneActive_iff 0x100000 _ (Plan.legal _ _ _ (holds_boot _) (by decide))]
  refine along_cons _ _ _ _ trivial rfl (along_cons _ _ _ _ trivial rfl ?_)
  refine along_cons _ _ _ _ (fun h => nomatch h) rfl (along_cons _ _ _ _ trivial rfl ?_)
  exact along_cons _ _ _ _ trivial rfl (along_cons _ _ _ _ (fun h => nomatch h) rfl trivial)

/-- Two tasks are active when the first one has yielded. -/
theorem yield_leaves_two_active :
    Along step (Legal 0x100000) machineBoot (twoTasks ++ [.start_scheduler, .yield]) ∧
    ¬ Along step KeepsOneActive machineBoot (twoTasks ++ [.start_scheduler, .yield]) := by
  refine ⟨Plan.legal _ _ _ (holds_boot _) (by decide), ?_⟩
  intro h
  have hboot : OneActive machineBoot.s := by simp [OneActive, stateOf, machineBoot, boot]
  have hone := Along.end (Q := fun m : Machine => OneActive m.s) _ _ _ hboot h rfl
  exact absurd (hone 0x100020 rfl) (by decide)

end SlayerOS.Taskman
