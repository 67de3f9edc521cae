import SlayerOS.Taskman.States

/-!
# The entries that run

`current` should be the task that runs, and an entry should be called at most once. As with
the states, neither holds in every run.
-/

open SlayerOS.Run

namespace SlayerOS.Taskman

/-! ## The task that runs

`current` is not set back when an entry returns, and it moves on when the current task is
taken out, also if no entry is called.
-/

/-- The innermost entry is that of the current task. -/
def OnTop (m : Machine) : Prop :=
  ∀ x ∈ m.running.head?, x = (m.s.process_list.current, m.born m.s.process_list.current)

def KeepsOnTop (m : Machine) (e : Event) : Prop := ∃ m', step m e = some m' ∧ OnTop m'

/-- `cleanup_terminated` keeps the current task, or there is a runnable task behind the one
that takes its place. -/
def Sched.Replaced (a : Sched) : Prop :=
  a.loses = false ∨ ∃ x ∈ a.ring, x.1 ≠ a.current ∧ ready x = true ∧ x.1 ≠ a.heir

/-- An entry returns to the boot code or to the same task, and a running task that is taken
out is followed by another one. -/
def NoStray (m : Machine) : Event → Prop
  | .ret => ∀ x y rest, m.running = x :: y :: rest → x = y
  | .yield => m.running = [] ∨ (view m.s).Replaced
  | .kill_current => m.running = [] ∨ ((view m.s).setState m.s.process_list.current .TERMINATED).Replaced
  | _ => True

theorem heir_ne_current (a : Sched) (h : a.Wf) (hcur : a.current ≠ 0) (hlose : a.loses = true) :
    a.heir ≠ a.current := by
  rw [Sched.heir, if_pos hlose]
  cases hf : (others a.current a.ring).find? (!leaves a.ring ·) with
  | none => exact hcur.symm
  | some x => exact ((mem_others_iff a h hcur x).mp (List.mem_of_find?_eq_some hf)).2

theorem replaced_iff (a : Sched) (h : a.Wf) (hnone : a.choice = none) : a.Replaced ↔ a.heir = a.current := by
  by_cases hcur : a.current = 0
  · have hlose : a.loses = false := loses_null a (by rw [hcur]; exact h.null)
    exact iff_of_true (Or.inl hlose) (heir_of_stays a hlose)
  · constructor
    · rintro (hlose | ⟨x, hx, hne, hready, hheir⟩)
      · exact heir_of_stays a hlose
      · exact absurd ((choice_none a h hcur).mp hnone x hx hne hready) hheir
    · intro heq
      left
      rw [← Bool.not_eq_true]
      exact fun hlose => heir_ne_current a h hcur hlose heq

theorem replaced_of_choice (a : Sched) (h : a.Wf) (hsome : a.choice ≠ none) : a.Replaced := by
  have hcur : a.current ≠ 0 := fun h0 => hsome (if_pos h0)
  right
  by_contra hall
  apply hsome
  rw [choice_none a h hcur]
  intro x hx hne hready
  by_contra hheir
  exact hall ⟨x, hx, hne, hready, hheir⟩

theorem onTop_of_target {base : Nat} {m m' : Machine} {a : Sched} {e : Event} (h : Holds base m a)
    (hholds : Holds base m' (finish (settle a e) (target a e)).2) (hturn : Turn m m' a e) (p : Nat)
    (ht : target a e = some p) : OnTop m' := by
  intro x hx
  rw [hturn.running, ht] at hx
  rw [hholds.rep.current, finish_current, ht, Option.getD_some,
    hturn.born p (Or.inr (target_mem a e h.rep.wf p ht))]
  simpa using hx.symm

theorem onTop_of_quiet {base : Nat} {m m' : Machine} {a : Sched} {e : Event} (h : Holds base m a)
    (hholds : Holds base m' (finish (settle a e) (target a e)).2) (hturn : Turn m m' a e)
    (ht : target a e = none) (he : e ≠ .ret) (htop : OnTop m) :
    OnTop m' ↔ m.running = [] ∨ (settle a e).current = a.current := by
  have hrun : m'.running = m.running := by rw [hturn.running, ht, if_neg he]; rfl
  have hcur : m'.s.process_list.current = (settle a e).current := by
    rw [hholds.rep.current, finish_current, ht, Option.getD_none]
  unfold OnTop at htop ⊢
  rw [hrun, hcur]
  rw [h.rep.current] at htop
  cases hr : m.running with
  | nil => simp
  | cons x rest =>
    rw [hr] at htop
    have hx : x = (a.current, m.born a.current) := htop x rfl
    simp only [List.head?_cons, Option.mem_some_iff, forall_eq', reduceCtorEq, false_or]
    rw [hx]
    constructor
    · intro heq
      exact (Prod.ext_iff.mp heq).1.symm
    · intro heq
      rw [heq, hturn.born a.current h.rep.linked]

theorem onTop_of_yield {base : Nat} {m m' : Machine} {a : Sched} {e : Event} (h : Holds base m a)
    (hholds : Holds base m' (finish (settle a e) (target a e)).2) (hturn : Turn m m' a e) (he : e ≠ .ret)
    (htop : OnTop m) (b : Sched) (hwf : b.Wf) (hcur : b.current = a.current)
    (ht : target a e = b.choice.map Prod.fst) (hsettle : (settle a e).current = b.heir) :
    OnTop m' ↔ m.running = [] ∨ b.Replaced := by
  cases hc : b.choice with
  | none =>
    rw [hc] at ht
    rw [onTop_of_quiet h hholds hturn ht he htop, replaced_iff b hwf hc, hsettle, hcur]
  | some x =>
    rw [hc] at ht
    refine iff_of_true (onTop_of_target h hholds hturn x.1 ht) (Or.inr (replaced_of_choice b hwf ?_))
    rw [hc]
    simp

theorem onTop_of_ret {base : Nat} {m m' : Machine} {a : Sched} (h : Holds base m a)
    (hholds : Holds base m' (finish (settle a .ret) (target a .ret)).2) (hturn : Turn m m' a .ret)
    (htop : OnTop m) : OnTop m' ↔ ∀ x y rest, m.running = x :: y :: rest → x = y := by
  have hrun : m'.running = m.running.tail := by rw [hturn.running]; rfl
  have hcur : m'.s.process_list.current = a.current := by rw [hholds.rep.current]; rfl
  unfold OnTop at htop ⊢
  rw [hrun, hcur, hturn.born a.current h.rep.linked]
  rw [h.rep.current] at htop
  match hr : m.running with
  | [] => simp
  | [x] => simp
  | x :: y :: rest =>
    rw [hr] at htop
    have hx : x = (a.current, m.born a.current) := htop x rfl
    simp only [List.tail_cons, List.head?_cons, Option.mem_some_iff, forall_eq', List.cons.injEq, and_imp]
    rw [hx]
    constructor
    · rintro rfl u v w rfl rfl -
      rfl
    · intro hall
      exact (hall _ y rest rfl rfl rfl).symm

theorem replaced_sleep (a : Sched) (h : a.Wf) : (a.setState a.current .WAITING).Replaced := by
  left
  apply loses_of_alive _ (h.setState _ _)
  rw [show (a.setState a.current .WAITING).current = a.current from rfl, setState_state, if_pos rfl]
  cases a.state a.current <;> simp

theorem onTop_iff (base : Nat) (m : Machine) (a : Sched) (e : Event) (h : Holds base m a) (htop : OnTop m)
    (hlegal : Legal base m e) : KeepsOnTop m e ↔ NoStray m e := by
  obtain ⟨m', hm', hholds, hturn⟩ := step_turn base m a e h hlegal
  have hwf := h.rep.wf
  have hkeep : KeepsOnTop m e ↔ OnTop m' := by
    unfold KeepsOnTop
    simp only [hm', Option.some.injEq, exists_eq_left']
  have hstay : target a e = none → e ≠ .ret → (settle a e).current = a.current → OnTop m' := fun ht he hcur =>
    (onTop_of_quiet h hholds hturn ht he htop).mpr (Or.inr hcur)
  rw [hkeep]
  cases e with
  | spawn => exact iff_of_true (hstay rfl (by simp) rfl) trivial
  | kill_process pid =>
    exact iff_of_true (hstay rfl (by simp) (settle_current a (.kill_process pid) hwf)) trivial
  | ret => exact onTop_of_ret h hholds hturn htop
  | start_scheduler =>
    refine iff_of_true ?_ trivial
    cases ht : target a .start_scheduler with
    | none => exact hstay ht (by simp) rfl
    | some p => exact onTop_of_target h hholds hturn p ht
  | sleep =>
    refine iff_of_true ?_ trivial
    rw [onTop_of_yield h hholds hturn (by simp) htop _ (hwf.setState a.current .WAITING) rfl rfl
      (settle_current a .sleep hwf)]
    exact Or.inr (replaced_sleep a hwf)
  | yield =>
    simp only [NoStray, h.rep.view]
    exact onTop_of_yield h hholds hturn (by simp) htop a hwf rfl rfl (settle_current a .yield hwf)
  | kill_current =>
    simp only [NoStray, h.rep.view, h.rep.current]
    exact onTop_of_yield h hholds hturn (by simp) htop _ (hwf.setState _ _) rfl rfl
      (settle_current a .kill_current hwf)

/-- In a run, `current` is the task that runs exactly if no step leaves it astray. -/
theorem run_onTop_iff (base : Nat) (es : List Event) (hlegal : Along step (Legal base) machineBoot es) :
    Along step KeepsOnTop machineBoot es ↔ Along step NoStray machineBoot es := by
  refine run_iff base (fun m _ => OnTop m) ?_ ?_ ?_ es hlegal
  · intro x hx
    exact absurd hx (by simp [machineBoot])
  · exact fun m a e h htop hl => onTop_iff base m a e h htop hl
  · rintro m m' a e - - - ⟨m'', hm'', htop⟩ hm' - -
    obtain rfl := Option.some.inj (hm'.symm.trans hm'')
    exact htop

theorem run_onTop_iff_sleep :
    Along step KeepsOnTop machineBoot (twoTasks ++ [.start_scheduler, .sleep, .kill_process 1, .yield]) := by
  rw [run_onTop_iff 0x100000 _ (Plan.legal _ _ _ (holds_boot _) (by decide))]
  refine along_cons _ _ _ _ trivial rfl (along_cons _ _ _ _ trivial rfl ?_)
  refine along_cons _ _ _ _ trivial rfl (along_cons _ _ _ _ trivial rfl ?_)
  exact along_cons _ _ _ _ trivial rfl (along_cons _ _ _ _ (Or.inr (Or.inl rfl)) rfl trivial)

/-- The second task has returned into the first one, and it is still the current one. -/
theorem ret_leaves_current :
    Along step (Legal 0x100000) machineBoot (twoTasks ++ [.start_scheduler, .yield, .ret]) ∧
    ¬ Along step KeepsOnTop machineBoot (twoTasks ++ [.start_scheduler, .yield, .ret]) := by
  refine ⟨Plan.legal _ _ _ (holds_boot _) (by decide), ?_⟩
  intro h
  have htop := Along.end (Q := OnTop) _ _ _ (by simp [OnTop, machineBoot]) h rfl
  exact absurd (htop (0x100020, 0) rfl) (by decide)

/-! ## The entries that are called

A dispatch calls the entry, also if the task was started before and only yielded.
-/

def KeepsStartedOnce (m : Machine) (e : Event) : Prop := ∃ m', step m e = some m' ∧ m'.started.Nodup

/-- The first runnable task in the order of the scan is `READY`. If there is none, the head
was not started when the scheduler is. -/
def NoRestart (m : Machine) : Event → Prop
  | .yield => ∀ x, (view m.s).choice = some x → x.2.state = .READY
  | .kill_current => ∀ x,
    ((view m.s).setState m.s.process_list.current .TERMINATED).choice = some x → x.2.state = .READY
  | .sleep => ∀ x,
    ((view m.s).setState m.s.process_list.current .WAITING).choice = some x → x.2.state = .READY
  | .start_scheduler =>
    (∀ x, (view m.s).ring.find? ready = some x → x.2.state = .READY) ∧
    ((view m.s).ring.find? ready = none → ∀ x ∈ (view m.s).ring.head?, m.born x.1 ∉ m.started)
  | _ => True

/-- A `READY` task was not started, and an `ACTIVE` one was. -/
structure Started (m : Machine) (a : Sched) : Prop where
  nodup : m.started.Nodup
  old : ∀ b ∈ m.started, b < m.spawned
  ready : ∀ p, a.state p = some .READY → m.born p ∉ m.started
  active : ∀ p, a.state p = some .ACTIVE → m.born p ∈ m.started

theorem settle_ready (base : Nat) (m : Machine) (a : Sched) (e : Event) (h : Rep m.s a)
    (hlegal : Legal base m e) (p : Nat) (hp : (settle a e).state p = some .READY) :
    a.state p = some .READY ∨ ∃ stack entry name priority, e = .spawn p stack entry name priority := by
  rcases settle_state base m a e h hlegal p with h1 | h1 | h1 | ⟨-, -, h1⟩ | ⟨st, en, na, pr, h1, -⟩
  · exact Or.inl (h1.symm.trans hp)
  · rw [h1] at hp
    exact absurd hp (by simp)
  · rw [h1] at hp
    exact absurd hp (by simp)
  · rw [h1] at hp
    exact absurd hp (by simp)
  · exact Or.inr ⟨st, en, na, pr, h1⟩

theorem Holds.born_lt {base : Nat} {m : Machine} {a : Sched} (h : Holds base m a) (p : Nat)
    (hp : p ∈ a.addrs) : m.born p < m.spawned := by
  obtain ⟨x, hx, rfl⟩ := List.mem_map.mp hp
  exact h.old (x.1, x.2.stack) (List.mem_map_of_mem hx)

theorem Started.step {base : Nat} {m m' : Machine} {a : Sched} {e : Event} (h : Holds base m a)
    (hlegal : Legal base m e) (hst : Started m a) (hturn : Turn m m' a e) (hnodup : m'.started.Nodup) :
    Started m' (finish (settle a e) (target a e)).2 := by
  refine ⟨hnodup, ?_, ?_, ?_⟩
  · intro b hb
    rw [hturn.started, List.mem_append, List.mem_map] at hb
    refine Nat.lt_of_lt_of_le ?_ hturn.spawned
    rcases hb with ⟨p, hp, rfl⟩ | hb
    · exact h.born_lt p (target_mem a e h.rep.wf p (by simpa using hp))
    · exact hst.old b hb
  · intro p hp
    rw [finish_state] at hp
    split at hp
    case isTrue =>
      cases hs : (settle a e).state p <;> simp [hs] at hp
    case isFalse hne =>
      rw [hturn.started, List.mem_append, List.mem_map]
      rcases settle_ready base m a e h.rep hlegal p hp with hp | ⟨_, _, _, _, rfl⟩
      · have hmem := mem_addrs_of_state a p _ hp
        rw [hturn.born p (Or.inr hmem)]
        rintro (⟨q, hq, heq⟩ | hb)
        · have hq' : target a e = some q := by simpa using hq
          rw [h.born_inj q p (target_mem a e h.rep.wf q hq') hmem heq] at hq'
          exact hne hq'
        · exact hst.ready p hp hb
      · rw [(hturn.spawn _ _ _ _ _ rfl).1]
        rintro (⟨q, hq, -⟩ | hb)
        · simp [target] at hq
        · exact Nat.lt_irrefl _ (hst.old _ hb)
  · intro p hp
    rw [finish_state] at hp
    rw [hturn.started, List.mem_append, List.mem_map]
    split at hp
    case isTrue ht =>
      left
      refine ⟨p, by simp [ht], ?_⟩
      rw [hturn.born p (Or.inr (target_mem a e h.rep.wf p ht))]
    case isFalse =>
      right
      have hact := settle_active base m a e h.rep hlegal p hp
      rw [hturn.born p (Or.inr (mem_addrs_of_state a p _ hact))]
      exact hst.active p hact

theorem Started.ready_iff {m : Machine} {a : Sched} (hst : Started m a) (hnodup : a.addrs.Nodup)
    (x : Nat × Task) (hx : x ∈ a.ring) (hready : Taskman.ready x = true) :
    m.born x.1 ∉ m.started ↔ x.2.state = .READY := by
  have hstate := (state_eq_some a hnodup x.1 x.2.state).mpr ⟨x, hx, rfl, rfl⟩
  constructor
  · intro hnot
    unfold Taskman.ready runnable at hready
    simp only [Bool.or_eq_true, decide_eq_true_eq] at hready
    rcases hready with hv | hv
    · rw [hv] at hstate
      exact absurd (hst.active x.1 hstate) hnot
    · exact hv
  · intro hv
    rw [hv] at hstate
    exact hst.ready x.1 hstate

theorem keepsStartedOnce_iff (base : Nat) (m : Machine) (a : Sched) (e : Event) (h : Holds base m a)
    (hst : Started m a) (hlegal : Legal base m e) :
    KeepsStartedOnce m e ↔ ∀ p, target a e = some p → m.born p ∉ m.started := by
  obtain ⟨m', hm', -, hturn⟩ := step_turn base m a e h hlegal
  unfold KeepsStartedOnce
  simp only [hm', Option.some.injEq, exists_eq_left', hturn.started]
  cases target a e with
  | none => simpa using hst.nodup
  | some p => simpa using fun _ => hst.nodup

theorem choice_restart {m : Machine} {a : Sched} (hst : Started m a) (h : a.Wf) (b : Sched)
    (hmem : ∀ x, b.choice = some x → x ∈ a.ring ∧ ready x = true) :
    (∀ p, b.choice.map Prod.fst = some p → m.born p ∉ m.started) ↔
      ∀ x, b.choice = some x → x.2.state = .READY := by
  constructor
  · intro hall x hx
    exact (hst.ready_iff h.nodup x (hmem x hx).1 (hmem x hx).2).mp (hall x.1 (by rw [hx]; rfl))
  · intro hall p hp
    obtain ⟨x, hx, rfl⟩ := Option.map_eq_some_iff.mp hp
    exact (hst.ready_iff h.nodup x (hmem x hx).1 (hmem x hx).2).mpr (hall x hx)

theorem start_restart {m : Machine} {a : Sched} (hst : Started m a) (h : a.Wf) :
    (∀ p, target a .start_scheduler = some p → m.born p ∉ m.started) ↔
      (∀ x, a.ring.find? ready = some x → x.2.state = .READY) ∧
      (a.ring.find? ready = none → ∀ x ∈ a.ring.head?, m.born x.1 ∉ m.started) := by
  cases hring : a.ring with
  | nil => simp [target, hring]
  | cons y ys =>
    have ht : target a .start_scheduler = some a.first := if_neg (by rw [hring]; simp)
    rw [ht]
    simp only [Option.some.injEq, forall_eq']
    rw [← hring]
    cases hf : a.ring.find? ready with
    | none =>
      have hfirst : a.first = y.1 := by rw [Sched.first, hf, Sched.addrs, hring]; rfl
      rw [hfirst, hring]
      simp
    | some x =>
      have hfirst : a.first = x.1 := by rw [Sched.first, hf]; rfl
      rw [hfirst, hst.ready_iff h.nodup x (List.mem_of_find?_eq_some hf) (List.find?_some hf)]
      simp

theorem startedOnce_iff (base : Nat) (m : Machine) (a : Sched) (e : Event) (h : Holds base m a)
    (hst : Started m a) (hlegal : Legal base m e) : KeepsStartedOnce m e ↔ NoRestart m e := by
  have hwf := h.rep.wf
  rw [keepsStartedOnce_iff base m a e h hst hlegal]
  cases e with
  | spawn => exact iff_of_true (by simp [target]) trivial
  | kill_process => exact iff_of_true (by simp [target]) trivial
  | ret => exact iff_of_true (by simp [target]) trivial
  | kill_current =>
    simp only [NoRestart, h.rep.view, h.rep.current]
    exact choice_restart hst hwf _ (giveUp_choice a .TERMINATED hwf)
  | sleep =>
    simp only [NoRestart, h.rep.view, h.rep.current]
    exact choice_restart hst hwf _ (giveUp_choice a .WAITING hwf)
  | yield =>
    simp only [NoRestart, h.rep.view]
    refine choice_restart hst hwf a ?_
    intro x hx
    obtain ⟨hmem, hready, -⟩ := choice_some a hwf x hx
    exact ⟨hmem, hready⟩
  | start_scheduler =>
    simp only [NoRestart, h.rep.view]
    exact start_restart hst hwf

/-- In a run, no entry is called twice exactly if the scans stop at `READY` tasks. -/
theorem run_startedOnce_iff (base : Nat) (es : List Event) (hlegal : Along step (Legal base) machineBoot es) :
    Along step KeepsStartedOnce machineBoot es ↔ Along step NoRestart machineBoot es := by
  refine run_iff base Started ?_ ?_ ?_ es hlegal
  · exact ⟨List.nodup_nil, by simp [machineBoot], by simp [Sched.state], by simp [Sched.state]⟩
  · exact fun m a e h hst hl => startedOnce_iff base m a e h hst hl
  · rintro m m' a e h hst hl ⟨m'', hm'', hnodup⟩ hm' - hturn
    obtain rfl := Option.some.inj (hm'.symm.trans hm'')
    exact hst.step h hl hturn hnodup

theorem run_startedOnce_iff_sleep :
    Along step KeepsStartedOnce machineBoot (twoTasks ++ [.start_scheduler, .sleep, .kill_current]) := by
  rw [run_startedOnce_iff 0x100000 _ (Plan.legal _ _ _ (holds_boot _) (by decide))]
  refine along_cons _ _ _ _ trivial rfl (along_cons _ _ _ _ trivial rfl ?_)
  refine along_cons _ _ _ _ ⟨?_, fun h => nomatch h⟩ rfl (along_cons _ _ _ _ ?_ rfl ?_)
  · intro x hx
    obtain rfl := Option.some.inj hx
    rfl
  · intro x hx
    obtain rfl := Option.some.inj hx
    rfl
  · exact along_cons _ _ _ _ (fun x hx => nomatch hx) rfl trivial

/-- Two tasks that yield to each other: the first one is called again. -/
theorem yield_restarts :
    Along step (Legal 0x100000) machineBoot (twoTasks ++ [.start_scheduler, .yield, .yield]) ∧
    ¬ Along step KeepsStartedOnce machineBoot (twoTasks ++ [.start_scheduler, .yield, .yield]) := by
  refine ⟨Plan.legal _ _ _ (holds_boot _) (by decide), ?_⟩
  intro h
  have hnodup := Along.end (Q := fun m : Machine => m.started.Nodup) _ _ _ List.nodup_nil h rfl
  exact absurd hnodup (by decide)

end SlayerOS.Taskman
