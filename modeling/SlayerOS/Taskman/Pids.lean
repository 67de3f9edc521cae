import SlayerOS.Taskman.Handover

/-!
# Process numbers

`spawn_process` takes the next number and does not look who has it. The counter has 32
bits, so it comes round to the number of a task that is still there.
-/

open SlayerOS.Run

namespace SlayerOS.Taskman

/-- A number stands for one linked task: the search finds that task, and `kill_process`
changes the state of that task only. -/
structure PidsApart (s : State) : Prop where
  distinct : ((view s).ring.map (·.2.pid)).Nodup
  found : ∀ x ∈ (view s).ring, get_by_pid s x.2.pid = some x.1
  killed : ∀ x ∈ (view s).ring, ∃ s', kill_process s x.2.pid = some s' ∧
    ∀ q, stateOf s' q = if q = x.1 then some .TERMINATED else stateOf s q

def KeepsPids (m : Machine) (e : Event) : Prop := ∃ m', step m e = some m' ∧ PidsApart m'.s

/-- No linked task has the number that a new task is given. -/
def FreshPid (m : Machine) : Event → Prop
  | .spawn _ _ _ _ _ => ∀ x ∈ (view m.s).ring, x.2.pid ≠ m.s.process_list.next_pid
  | _ => True

def Sched.pids (a : Sched) : List Nat := a.ring.map (·.2.pid)

/-! ## Lists with distinct numbers -/

theorem byPid_of_mem (a : Sched) (h : a.pids.Nodup) (x : Nat × Task) (hx : x ∈ a.ring) :
    a.byPid x.2.pid = x.1 := by
  unfold Sched.byPid
  cases hf : a.ring.find? fun y => y.2.pid = x.2.pid with
  | none =>
    have := List.find?_eq_none.mp hf x hx
    simp at this
  | some y =>
    have hy : y.2.pid = x.2.pid := by simpa using List.find?_some hf
    rw [List.inj_on_of_nodup_map h (List.mem_of_find?_eq_some hf) hx hy]
    rfl

theorem Rep.pidsApart_iff {s : State} {a : Sched} (h : Rep s a) : PidsApart s ↔ a.pids.Nodup := by
  constructor
  · intro hp
    have hdistinct := hp.distinct
    rw [h.view] at hdistinct
    exact hdistinct
  · intro hnodup
    refine ⟨?_, ?_, ?_⟩
    · rw [h.view]
      exact hnodup
    · rw [h.view]
      intro x hx
      rw [get_by_pid_spec s a _ h, byPid_of_mem a hnodup x hx]
    · rw [h.view]
      intro x hx
      have hpos : x.1 ≠ 0 := fun h0 => h.null (h0 ▸ List.mem_map_of_mem hx)
      obtain ⟨s', hs', -, hrep⟩ := kill_process_spec s a x.2.pid h
      rw [byPid_of_mem a hnodup x hx, if_neg hpos] at hrep
      refine ⟨s', hs', ?_⟩
      intro q
      rw [hrep.state, h.state, setState_state]
      by_cases hq : q = x.1
      · rw [if_pos hq, if_pos hq, hq, (state_eq_some a h.nodup x.1 x.2.state).mpr ⟨x, hx, rfl, rfl⟩]
        rfl
      · rw [if_neg hq, if_neg hq]

theorem act_pids (a : Sched) (e : Event) : (act a e).2.pids.Sublist a.pids ∨
    ∃ task stack entry name priority, e = .spawn task stack entry name priority ∧
      (act a e).2.pids = a.pids ++ [a.next_pid] :=
  act_map (·.2.pid) (fun _ _ _ => rfl) a e

/-! ## Runs -/

theorem pids_step (base : Nat) (m : Machine) (a : Sched) (e : Event) (h : Holds base m a) (hnodup : a.pids.Nodup) :
    (act a e).2.pids.Nodup ↔ FreshPid m e := by
  have hfresh : (∀ x ∈ (view m.s).ring, x.2.pid ≠ m.s.process_list.next_pid) ↔ a.next_pid ∉ a.pids := by
    rw [h.rep.view, h.rep.next_pid, Sched.pids, List.mem_map]
    simp only [not_exists, not_and]
  rcases act_pids a e with hsub | ⟨task, stack, entry, name, priority, rfl, hpids⟩
  · refine iff_of_true (hsub.nodup hnodup) ?_
    cases e with
    | spawn task stack entry name priority =>
      have hlen := hsub.length_le
      simp [act, Sched.pids, Sched.spawn] at hlen
    | _ => trivial
  · rw [hpids, FreshPid, hfresh, ← List.concat_eq_append, List.nodup_concat]
    simp only [hnodup, and_true]

theorem keepsPids_iff (base : Nat) (m : Machine) (a : Sched) (e : Event) (h : Holds base m a)
    (hlegal : Legal base m e) : KeepsPids m e ↔ (act a e).2.pids.Nodup := by
  obtain ⟨s', hs', hsw, -⟩ := step_holds base m a e h hlegal
  rw [← hsw.rep.pidsApart_iff]
  constructor
  · rintro ⟨m', hm', hp⟩
    obtain rfl := Option.some.inj (hs'.symm.trans hm')
    rw [moved_s] at hp
    exact hp
  · intro hp
    exact ⟨_, hs', by rw [moved_s]; exact hp⟩

/-- In every run, the numbers of the linked tasks stay distinct if and only if no spawn gets
the number of a linked task. -/
theorem run_pids_iff (base : Nat) (es : List Event) (hlegal : Along step (Legal base) machineBoot es) :
    Along step KeepsPids machineBoot es ↔ Along step FreshPid machineBoot es := by
  refine along_iff (fun m => ∃ a, Holds base m a ∧ a.pids.Nodup) (L := Legal base) ?_ ?_ machineBoot es
    ⟨_, holds_boot base, List.nodup_nil⟩ hlegal
  · rintro m e ⟨a, h, hnodup⟩ hl
    rw [keepsPids_iff base m a e h hl]
    exact pids_step base m a e h hnodup
  · rintro m e m' ⟨a, h, hnodup⟩ hl hkeeps hm'
    obtain ⟨s', hs', -, hholds⟩ := step_holds base m a e h hl
    obtain rfl := Option.some.inj (hs'.symm.trans hm')
    exact ⟨_, hholds, (keepsPids_iff base m a e h hl).mp hkeeps⟩

theorem run_pids_iff_two :
    Along step KeepsPids machineBoot twoTasks ↔ Along step FreshPid machineBoot twoTasks :=
  run_pids_iff 0x100000 _ (Plan.legal _ _ _ (holds_boot _) (by decide))

/-! ## The counter comes round

One task stays while another one is spawned, killed and swept, again and again.
-/

/-- The task that stays, and the one that comes and goes. -/
def stays : Event := .spawn 0x100020 0x102000 0x4000 "a" 1
def comes : Event := .spawn 0x200020 0x202000 0x5000 "b" 1

/-- The task with the number `pid` comes and goes. -/
def round (pid : Nat) : List Event := [comes, .kill_process pid, .yield]

def rounds : Nat → List Event
  | 0 => []
  | n + 1 => rounds n ++ round ((n + 2) % 2 ^ 32)

/-- The list between two rounds. -/
def between (n : Nat) : Sched :=
  ⟨[(0x100020, newTask 0x102000 0x4000 1 "a" 1)], 0, (n + 2) % 2 ^ 32⟩

theorem plan_append (base : Nat) (a : Sched) (es fs : List Event) :
    Plan base a (es ++ fs) ↔ Plan base a es ∧ Plan base (es.foldl (fun a e => (act a e).2) a) fs := by
  induction es generalizing a with
  | nil => simp [Plan]
  | cons e es ih => rw [List.cons_append, Plan, ih, Plan, List.foldl_cons, and_assoc]

theorem comes_act (n : Nat) : (act (between n) comes).2 =
    ⟨[(0x100020, newTask 0x102000 0x4000 1 "a" 1),
      (0x200020, newTask 0x202000 0x5000 ((n + 2) % 2 ^ 32) "b" 1)], 0, (n + 3) % 2 ^ 32⟩ := by
  simp only [act, comes, between, Sched.spawn, List.cons_append, List.nil_append, Nat.mod_add_mod]

theorem comes_fits (n : Nat) : Fits 0x100000 (between n) comes := by
  refine ⟨by decide, by simp [between, Sched.addrs], by decide, by decide, by decide, ?_⟩
  intro k hk
  simp only [between, Sched.keys, newTask, List.map_cons, List.map_nil, List.mem_singleton] at hk
  rw [hk]
  decide

theorem round_act (n : Nat) (hn : n + 2 ≤ 2 ^ 32) :
    (round ((n + 2) % 2 ^ 32)).foldl (fun a e => (act a e).2) (between n) = between (n + 1) := by
  -- The number of the task that stays is 1.
  have hpid : (n + 2) % 2 ^ 32 ≠ 1 := by omega
  have hkill : (act (act (between n) comes).2 (.kill_process ((n + 2) % 2 ^ 32))).2 =
      ⟨[(0x100020, newTask 0x102000 0x4000 1 "a" 1),
        (0x200020, { newTask 0x202000 0x5000 ((n + 2) % 2 ^ 32) "b" 1 with state := .TERMINATED })],
        0, (n + 3) % 2 ^ 32⟩ := by
    rw [comes_act]
    simp only [act, Sched.byPid, newTask, List.find?_cons, hpid.symm, decide_false, decide_true,
      Option.map_some, Option.getD_some]
    rfl
  rw [round, List.foldl_cons, List.foldl_cons, List.foldl_cons, List.foldl_nil, hkill]
  rfl

theorem rounds_spec (n : Nat) (hn : n + 1 ≤ 2 ^ 32) :
    Plan 0x100000 (between 0) (rounds n) ∧ (rounds n).foldl (fun a e => (act a e).2) (between 0) = between n := by
  induction n with
  | zero => exact ⟨trivial, rfl⟩
  | succ n ih =>
    obtain ⟨hplan, hfold⟩ := ih (by omega)
    rw [rounds, plan_append, List.foldl_append, hfold, round_act n (by omega)]
    exact ⟨⟨hplan, comes_fits n, trivial, trivial, trivial⟩, rfl⟩

/-- After `n` rounds the other task comes once more. -/
def longRun (n : Nat) : List Event := stays :: (rounds n ++ [comes])

theorem longRun_plan (n : Nat) (hn : n + 1 ≤ 2 ^ 32) : Plan 0x100000 ⟨[], 0, 1⟩ (longRun n) := by
  obtain ⟨hplan, hfold⟩ := rounds_spec n hn
  refine ⟨by decide, ?_⟩
  rw [show (act ⟨[], 0, 1⟩ stays).2 = between 0 from rfl, plan_append, hfold]
  exact ⟨hplan, comes_fits n, trivial⟩

theorem longRun_fold (n : Nat) (hn : n + 1 ≤ 2 ^ 32) :
    (longRun n).foldl (fun a e => (act a e).2) ⟨[], 0, 1⟩ = (act (between n) comes).2 := by
  rw [longRun, List.foldl_cons, show (act ⟨[], 0, 1⟩ stays).2 = between 0 from rfl, List.foldl_append,
    (rounds_spec n hn).2, List.foldl_cons, List.foldl_nil]

theorem longRun_repeats (n : Nat) (hn : n + 1 = 2 ^ 32) :
    Along step (Legal 0x100000) machineBoot (longRun n) ∧ ¬ Along step KeepsPids machineBoot (longRun n) := by
  have hlegal := (longRun_plan n (by omega)).legal machineBoot _ _ (holds_boot _)
  refine ⟨hlegal, ?_⟩
  intro hkeeps
  obtain ⟨m, hm, hholds⟩ := run_holds 0x100000 _ hlegal
  rw [longRun_fold n (by omega), comes_act] at hholds
  have hboot : PidsApart machineBoot.s := (holds_boot 0).rep.pidsApart_iff.mpr List.nodup_nil
  have hapart := Along.end (Q := fun m : Machine => PidsApart m.s) _ m _ hboot hkeeps hm
  have hnodup := hholds.rep.pidsApart_iff.mp hapart
  have hsame : (n + 2) % 2 ^ 32 = 1 := by omega
  rw [hsame] at hnodup
  simp [Sched.pids, newTask] at hnodup

/-- The spawn after `2 ^ 32` of them gets the number of the first task, which is still there. -/
theorem pid_comes_round :
    ¬ ∀ (base : Nat) (es : List Event), Along step (Legal base) machineBoot es →
      Along step KeepsPids machineBoot es := by
  intro hall
  obtain ⟨hlegal, hnot⟩ := longRun_repeats (2 ^ 32 - 1) (by omega)
  exact hnot (hall _ _ hlegal)

end SlayerOS.Taskman
