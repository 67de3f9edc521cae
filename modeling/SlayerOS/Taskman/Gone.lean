import SlayerOS.Taskman.Runs
import Mathlib.Data.List.Sort

/-!
# What a call frees

The tasks that a call frees had their stacks before it, and each of them is freed once. The
other tasks keep theirs. So the list is at all times the spawned tasks without the freed ones.
-/

open SlayerOS.Run

namespace SlayerOS.Taskman

def stackOf (s : State) (p : Nat) : Option Nat := (s.tasks p).map Task.stack

/-- From `s` to `s'` the tasks in `gone` are freed, with the stacks that they had. -/
structure FreedAre (s s' : State) (gone : List (Nat × Task)) : Prop where
  freed : s'.freed = gone ++ s.freed
  nodup : (gone.map Prod.fst).Nodup
  had : ∀ x ∈ gone, stackOf s x.1 = some x.2.stack
  left : ∀ x ∈ gone, stackOf s' x.1 = none
  kept : ∀ p, p ∉ gone.map Prod.fst → stackOf s' p = stackOf s p

theorem FreedAre.stays {s s' : State} {gone : List (Nat × Task)} (h : FreedAre s s' gone) (p k : Nat)
    (hp : stackOf s' p = some k) : stackOf s p = some k := by
  rw [← hp]
  refine (h.kept p fun hmem => ?_).symm
  obtain ⟨x, hx, rfl⟩ := List.mem_map.mp hmem
  rw [h.left x hx] at hp
  cases hp

/-- No task is added, and those that leave are freed. -/
def Tracks (s s' : State) : Prop := ∃ gone, FreedAre s s' gone

theorem Tracks.refl (s : State) : Tracks s s := ⟨[], by simp, by simp, by simp, by simp, fun _ _ => rfl⟩

theorem Tracks.trans {s s' s'' : State} (h : Tracks s s') (h' : Tracks s' s'') : Tracks s s'' := by
  obtain ⟨gone, hg⟩ := h
  obtain ⟨gone', hg'⟩ := h'
  -- A task that was freed first is not there to be freed again.
  have hapart : ∀ x ∈ gone', x.1 ∉ gone.map Prod.fst := by
    intro x hx hmem
    obtain ⟨y, hy, hxy⟩ := List.mem_map.mp hmem
    have hhad := hg'.had x hx
    rw [← hxy, hg.left y hy] at hhad
    simp at hhad
  refine ⟨gone' ++ gone, ?_, ?_, ?_, ?_, ?_⟩
  · rw [hg'.freed, hg.freed, List.append_assoc]
  · rw [List.map_append]
    refine List.Nodup.append hg'.nodup hg.nodup ?_
    intro p hp' hp
    obtain ⟨x, hx, rfl⟩ := List.mem_map.mp hp'
    exact hapart x hx hp
  · intro x hx
    rcases List.mem_append.mp hx with hx | hx
    · rw [← hg.kept x.1 (hapart x hx)]
      exact hg'.had x hx
    · exact hg.had x hx
  · intro x hx
    rcases List.mem_append.mp hx with hx' | hx'
    · exact hg'.left x hx'
    · by_cases hmem : x.1 ∈ gone'.map Prod.fst
      · obtain ⟨y, hy, hxy⟩ := List.mem_map.mp hmem
        rw [← hxy]
        exact hg'.left y hy
      · rw [hg'.kept x.1 hmem]
        exact hg.left x hx'
  · intro p hp
    rw [List.map_append, List.mem_append, not_or] at hp
    rw [hg'.kept p hp.1, hg.kept p hp.2]

theorem tracks_of (s s' : State) (hfreed : s'.freed = s.freed) (hstack : ∀ p, stackOf s' p = stackOf s p) :
    Tracks s s' := ⟨[], hfreed, by simp, by simp, by simp, fun p _ => hstack p⟩

theorem tracks_list (s s' : State) (htasks : s'.tasks = s.tasks) (hfreed : s'.freed = s.freed) : Tracks s s' :=
  tracks_of s s' hfreed fun p => by rw [stackOf, stackOf, htasks]

/-! ## Stores -/

theorem modify_tracks (s s' : State) (p : Nat) (f : Task → Task) (hf : ∀ t, (f t).stack = t.stack)
    (h : modify s p f = some s') : Tracks s s' := by
  obtain ⟨t, ht, heq⟩ := Option.bind_eq_some_iff.mp h
  rw [← Option.some.inj heq]
  refine tracks_of _ _ rfl fun q => ?_
  by_cases hq : q = p
  · subst hq
    simp [stackOf, ht, hf]
  · simp [stackOf, Function.update_of_ne hq]

theorem set_next_tracks (s s' : State) (p v : Nat) (h : set_next s p v = some s') : Tracks s s' :=
  modify_tracks s s' p (fun t => { t with next := v }) (fun _ => rfl) h

theorem set_prev_tracks (s s' : State) (p v : Nat) (h : set_prev s p v = some s') : Tracks s s' :=
  modify_tracks s s' p (fun t => { t with prev := v }) (fun _ => rfl) h

theorem set_state_tracks (s s' : State) (p : Nat) (v : TaskState) (h : set_state s p v = some s') : Tracks s s' :=
  modify_tracks s s' p (fun t => { t with state := v }) (fun _ => rfl) h

theorem unlink_process_tracks (s s' : State) (p : Nat) (h : unlink_process s p = some s') : Tracks s s' := by
  unfold unlink_process at h
  by_cases hcount : s.process_list.count = 1
  · simp only [if_pos hcount, Option.bind_eq_bind, Option.bind_some] at h
    rw [← Option.some.inj h]
    exact tracks_list s _ rfl rfl
  · simp only [if_neg hcount, Option.bind_eq_bind] at h
    obtain ⟨t, -, h⟩ := Option.bind_eq_some_iff.mp h
    obtain ⟨s1, h1, h⟩ := Option.bind_eq_some_iff.mp h
    obtain ⟨t1, -, h⟩ := Option.bind_eq_some_iff.mp h
    obtain ⟨s2, h2, h⟩ := Option.bind_eq_some_iff.mp h
    obtain ⟨t2, -, h⟩ := Option.bind_eq_some_iff.mp h
    rw [← Option.some.inj h]
    exact ((set_next_tracks s s1 _ _ h1).trans (set_prev_tracks s1 s2 _ _ h2)).trans (tracks_list s2 _ rfl rfl)

theorem free_task_tracks (s s' : State) (p : Nat) (h : free_task s p = some s') : Tracks s s' := by
  obtain ⟨t, ht, heq⟩ := Option.bind_eq_some_iff.mp h
  rw [← Option.some.inj heq]
  refine ⟨[(p, t)], rfl, by simp, ?_, ?_, ?_⟩
  · intro x hx
    rw [List.mem_singleton.mp hx, stackOf, ht]
    rfl
  · intro x hx
    rw [List.mem_singleton.mp hx]
    simp [stackOf]
  · intro q hq
    rw [List.map_singleton, List.mem_singleton] at hq
    simp [stackOf, Function.update_of_ne hq]

/-! ## `cleanup_terminated` -/

theorem reap_tracks (s s' : State) (p : Nat) (h : reap s p = some s') : Tracks s s' := by
  obtain ⟨t, -, h⟩ := Option.bind_eq_some_iff.mp h
  split at h
  · obtain ⟨s1, h1, h⟩ := Option.bind_eq_some_iff.mp h
    exact (unlink_process_tracks s s1 p h1).trans (free_task_tracks s1 s' p h)
  · rw [← Option.some.inj h]
    exact Tracks.refl s

theorem cleanup_from_tracks (fuel : Nat) (s s' : State) (p : Nat) (h : cleanup_from fuel s p = some s') :
    Tracks s s' := by
  induction fuel generalizing s p with
  | zero => simp [cleanup_from] at h
  | succ fuel ih =>
    obtain ⟨t, -, h⟩ := Option.bind_eq_some_iff.mp h
    obtain ⟨s1, h1, h⟩ := Option.bind_eq_some_iff.mp h
    refine (reap_tracks s s1 p h1).trans ?_
    split at h
    · exact ih s1 t.next h
    · rw [← Option.some.inj h]
      exact Tracks.refl s1

theorem cleanup_terminated_tracks (s s' : State) (h : cleanup_terminated s = some s') : Tracks s s' := by
  unfold cleanup_terminated at h
  split at h
  · rw [← Option.some.inj h]
    exact Tracks.refl s
  · exact cleanup_from_tracks _ s s' _ h

/-! ## Calls -/

theorem dispatch_tracks (s : State) (p : Nat) (r : Nat × State) (h : dispatch s p = some r) : Tracks s r.2 := by
  obtain ⟨s1, h1, h⟩ := Option.bind_eq_some_iff.mp h
  rw [← Option.some.inj h]
  have hlist : Tracks s { s with process_list := { s.process_list with current := p } } := tracks_list s _ rfl rfl
  exact hlist.trans (set_state_tracks _ s1 p .ACTIVE h1)

theorem yield_next_tracks (s : State) (r : Nat × State) (h : yield_next s = some r) : Tracks s r.2 := by
  unfold yield_next at h
  split at h
  · rw [← Option.some.inj h]
    exact Tracks.refl s
  · obtain ⟨t, -, h⟩ := Option.bind_eq_some_iff.mp h
    obtain ⟨q, -, h⟩ := Option.bind_eq_some_iff.mp h
    split at h
    · rw [← Option.some.inj h]
      exact Tracks.refl s
    · split at h
      · rw [← Option.some.inj h]
        exact Tracks.refl s
      · exact dispatch_tracks s q.1 r h

theorem yield_tracks (s : State) (r : Nat × State) (h : yield s = some r) : Tracks s r.2 := by
  obtain ⟨s1, h1, h⟩ := Option.bind_eq_some_iff.mp h
  exact (cleanup_terminated_tracks s s1 h1).trans (yield_next_tracks s1 r h)

theorem give_up_tracks (s : State) (v : TaskState) (r : Nat × State)
    (h : (if s.process_list.current ≠ 0 then (do
        let s ← set_state s s.process_list.current v
        yield s)
      else some (0, s)) = some r) : Tracks s r.2 := by
  split at h
  · obtain ⟨s1, h1, h⟩ := Option.bind_eq_some_iff.mp h
    exact (set_state_tracks s s1 _ v h1).trans (yield_tracks s1 r h)
  · rw [← Option.some.inj h]
    exact Tracks.refl s

theorem kill_process_tracks (s s' : State) (pid : Nat) (h : kill_process s pid = some s') : Tracks s s' := by
  obtain ⟨p, -, h⟩ := Option.bind_eq_some_iff.mp h
  split at h
  · exact set_state_tracks s s' p _ h
  · rw [← Option.some.inj h]
    exact Tracks.refl s

theorem start_scheduler_tracks (s : State) (r : Nat × State) (h : start_scheduler s = some r) : Tracks s r.2 := by
  unfold start_scheduler at h
  split at h
  · rw [← Option.some.inj h]
    exact Tracks.refl s
  · obtain ⟨p, -, h⟩ := Option.bind_eq_some_iff.mp h
    refine (tracks_list s { s with scheduler_running := true } rfl rfl).trans ?_
    split at h
    · rw [← Option.some.inj h]
      exact Tracks.refl _
    · exact dispatch_tracks _ p r h

theorem enter_s (m : Machine) (r : Nat × State) : (enter m r).s = r.2 := by
  unfold enter
  split <;> rfl

theorem step_tracks (m m' : Machine) (e : Event) (h : step m e = some m')
    (hcall : ∀ task stack entry name priority, e ≠ .spawn task stack entry name priority) : Tracks m.s m'.s := by
  have hentered : ∀ r : Option (Nat × State), (∀ q, r = some q → Tracks m.s q.2) →
      r.map (enter m) = some m' → Tracks m.s m'.s := by
    intro r hr hm
    obtain ⟨q, hq, rfl⟩ := Option.map_eq_some_iff.mp hm
    rw [enter_s]
    exact hr q hq
  cases e with
  | spawn task stack entry name priority => exact absurd rfl (hcall task stack entry name priority)
  | kill_process pid =>
    obtain ⟨s', hs', h⟩ := Option.bind_eq_some_iff.mp h
    rw [← Option.some.inj h]
    exact kill_process_tracks m.s s' pid hs'
  | kill_current => exact hentered _ (fun q hq => give_up_tracks m.s .TERMINATED q hq) h
  | sleep => exact hentered _ (fun q hq => give_up_tracks m.s .WAITING q hq) h
  | yield => exact hentered _ (fun q hq => yield_tracks m.s q hq) h
  | start_scheduler => exact hentered _ (fun q hq => start_scheduler_tracks m.s q hq) h
  | ret =>
    rw [← Option.some.inj h]
    exact Tracks.refl m.s

/-! ## On the list -/

theorem Rep.mem_keys {s : State} {a : Sched} (h : Rep s a) (p k : Nat) :
    (p, k) ∈ a.keys ↔ stackOf s p = some k := by
  unfold Sched.keys stackOf
  rw [List.mem_map, Option.map_eq_some_iff]
  constructor
  · rintro ⟨x, hx, heq⟩
    obtain ⟨t, ht, hb⟩ := (bodyOf_eq_some s x.1 x.2).mp ((h.bodies x.1 x.2).mpr hx)
    obtain ⟨rfl, rfl⟩ := Prod.mk.inj heq
    exact ⟨t, ht, by rw [← hb]; rfl⟩
  · rintro ⟨t, ht, rfl⟩
    exact ⟨(p, t.body), (h.bodies p t.body).mp (by rw [bodyOf, ht]; rfl), rfl⟩

theorem Rep.keys_nodup {s : State} {a : Sched} (h : Rep s a) : a.keys.Nodup := by
  have haddrs : a.keys.map Prod.fst = a.addrs := by
    rw [Sched.keys, Sched.addrs, List.map_map]
    rfl
  have hnodup := h.nodup
  rw [← haddrs] at hnodup
  exact hnodup.of_map _

/-- Addresses and stacks. -/
def keysOf (gone : List (Nat × Task)) : List (Nat × Nat) := gone.map fun x => (x.1, x.2.stack)

theorem FreedAre.perm {s s' : State} {a a' : Sched} {gone : List (Nat × Task)} (h : FreedAre s s' gone)
    (hrep : Rep s a) (hrep' : Rep s' a') : a.keys.Perm (keysOf gone ++ a'.keys) := by
  have hfst : (keysOf gone).map Prod.fst = gone.map Prod.fst := by
    rw [keysOf, List.map_map]
    rfl
  have hdisjoint : ∀ k ∈ keysOf gone, k ∉ a'.keys := by
    rintro k hk hk'
    obtain ⟨x, hx, rfl⟩ := List.mem_map.mp hk
    rw [hrep'.mem_keys, h.left x hx] at hk'
    simp at hk'
  refine (List.perm_ext_iff_of_nodup hrep.keys_nodup ?_).mpr ?_
  · refine List.Nodup.append ?_ hrep'.keys_nodup fun k hk hk' => hdisjoint k hk hk'
    have hnodup := h.nodup
    rw [← hfst] at hnodup
    exact hnodup.of_map _
  · rintro ⟨p, k⟩
    rw [List.mem_append, hrep.mem_keys, hrep'.mem_keys]
    by_cases hp : p ∈ gone.map Prod.fst
    · obtain ⟨x, hx, rfl⟩ := List.mem_map.mp hp
      rw [h.had x hx, h.left x hx]
      constructor
      · intro hk
        exact Or.inl (List.mem_map.mpr ⟨x, hx, by rw [Option.some.inj hk]⟩)
      · rintro (hk | hk)
        · obtain ⟨y, hy, heq⟩ := List.mem_map.mp hk
          obtain ⟨hyx, rfl⟩ := Prod.mk.inj heq
          rw [← h.had x hx, ← hyx]
          exact h.had y hy
        · simp at hk
    · rw [h.kept p hp]
      refine ⟨Or.inr, ?_⟩
      rintro (hk | hk)
      · obtain ⟨y, hy, heq⟩ := List.mem_map.mp hk
        obtain ⟨rfl, -⟩ := Prod.mk.inj heq
        exact absurd (List.mem_map_of_mem hy) hp
      · exact hk

/-! ## The tasks that are left -/

theorem FreedAre.gone_eq {m m' : Machine} {xs : List (Nat × Task)} (h : FreedAre m.s m'.s xs) : gone m m' = xs := by
  rw [gone, h.freed, List.length_append, Nat.add_sub_cancel, List.take_left]

theorem Rep.mem_addrs_stack {s : State} {a : Sched} (h : Rep s a) (p : Nat) :
    p ∈ a.addrs ↔ (stackOf s p).isSome := by
  rw [← h.ringOk.allocated p, stackOf, Option.isSome_map]

theorem FreedAre.mem_addrs {s s' : State} {a a' : Sched} {xs : List (Nat × Task)} (h : FreedAre s s' xs)
    (hrep : Rep s a) (hrep' : Rep s' a') (p : Nat) : p ∈ a'.addrs ↔ p ∈ a.addrs ∧ p ∉ xs.map Prod.fst := by
  rw [hrep.mem_addrs_stack, hrep'.mem_addrs_stack]
  by_cases hp : p ∈ xs.map Prod.fst
  · obtain ⟨x, hx, rfl⟩ := List.mem_map.mp hp
    rw [h.left x hx]
    simp [hp]
  · rw [h.kept p hp]
    simp [hp]

/-- The numbers in the list are those of the spawns so far, without the ones in `left`. -/
def Counts (m : Machine) (a : Sched) (left : List Nat) : Prop :=
  ∀ n, n ∈ a.addrs.map m.born ↔ n < m.spawned ∧ n ∉ left

theorem Counts.freed {base : Nat} {m m' : Machine} {a a' : Sched} {left : List Nat} {xs : List (Nat × Task)}
    (hc : Counts m a left) (h : Holds base m a) (hrep' : Rep m'.s a') (hxs : FreedAre m.s m'.s xs)
    (hborn : m'.born = m.born) (hspawned : m'.spawned = m.spawned) :
    Counts m' a' (left ++ xs.map fun x => m.born x.1) := by
  have hmem := hxs.mem_addrs h.rep hrep'
  intro n
  rw [hborn, hspawned, List.mem_append, not_or, ← and_assoc, ← hc n, List.mem_map, List.mem_map]
  constructor
  · rintro ⟨p, hp, rfl⟩
    obtain ⟨hpa, hpx⟩ := (hmem p).mp hp
    refine ⟨⟨p, hpa, rfl⟩, fun hn => hpx ?_⟩
    obtain ⟨x, hx, heq⟩ := List.mem_map.mp hn
    have hxa : x.1 ∈ a.addrs := by rw [h.rep.mem_addrs_stack, hxs.had x hx]; rfl
    rw [← h.born_inj x.1 p hxa hpa heq]
    exact List.mem_map_of_mem hx
  · rintro ⟨⟨p, hpa, rfl⟩, hn⟩
    refine ⟨p, (hmem p).mpr ⟨hpa, fun hpx => hn ?_⟩, rfl⟩
    obtain ⟨x, hx, rfl⟩ := List.mem_map.mp hpx
    exact List.mem_map_of_mem (f := fun x => m.born x.1) hx

theorem Counts.spawned {m : Machine} {a a' : Sched} {left : List Nat} (hc : Counts m a left) (s' : State)
    (task stack entry : Nat) (name : String) (priority p : Nat) (haddrs : a'.addrs = a.addrs ++ [task])
    (hfresh : task ∉ a.addrs) (hleft : ∀ n ∈ left, n < m.spawned) :
    Counts (moved m s' p (.spawn task stack entry name priority)) a' left := by
  intro n
  have hold : a.addrs.map (Function.update m.born task m.spawned) = a.addrs.map m.born := by
    apply List.map_congr_left
    intro q hq
    have hne : q ≠ task := fun heq => hfresh (by rwa [heq] at hq)
    exact Function.update_of_ne hne _ _
  simp only [moved, haddrs, List.map_append, hold, List.mem_append, List.map_singleton, List.mem_singleton,
    Function.update_self, hc n]
  constructor
  · rintro (⟨hlt, hn⟩ | rfl)
    · exact ⟨by omega, hn⟩
    · exact ⟨by omega, fun hn => absurd (hleft _ hn) (by omega)⟩
  · rintro ⟨hlt, hn⟩
    by_cases heq : n = m.spawned
    · exact Or.inr heq
    · exact Or.inl ⟨by omega, hn⟩

/-! ## Every run -/

theorem step_counts (base : Nat) (m : Machine) (a : Sched) (left : List Nat) (e : Event) (h : Holds base m a)
    (hc : Counts m a left) (hleft : ∀ n ∈ left, n < m.spawned) (hlegal : Legal base m e) :
    ∃ m', step m e = some m' ∧ LeavesDead m m' ∧ Enlists m m' e ∧ Holds base m' (act a e).2 ∧
      m'.spawned = m.spawned + e.spawns.toNat ∧
      Counts m' (act a e).2 (left ++ (gone m m').map fun x => m.born x.1) ∧
      ∀ n ∈ left ++ (gone m m').map fun x => m.born x.1, n < m'.spawned := by
  obtain ⟨s', hs', hsw, hholds⟩ := step_holds base m a e h hlegal
  have hdead : LeavesDead m (moved m s' (act a e).1 e) := by
    obtain ⟨xs, hfreed, hterm, hleave⟩ := hsw.freed
    refine ⟨xs, by rw [moved_s]; exact hfreed, hterm, ?_⟩
    intro p hp
    rw [moved_s, hsw.rep.ringOk.allocated]
    exact hleave p ((h.rep.ringOk.allocated p).mp hp)
  refine ⟨_, hs', hdead, ?_⟩
  by_cases hspawn : ∃ task stack entry name priority, e = .spawn task stack entry name priority
  · obtain ⟨task, stack, entry, name, priority, rfl⟩ := hspawn
    obtain ⟨htask, hfree, hstack, -⟩ := hlegal
    obtain ⟨s'', hs'', hfreed, -⟩ := spawn_process_spec m.s a task stack entry name priority h.rep htask hfree
      hstack (by have := h.length_le; omega)
    obtain rfl : s'' = s' := by
      simp only [step, hs'', Option.bind_eq_bind, Option.bind_some, if_neg htask] at hs'
      simpa [moved] using congrArg Machine.s (Option.some.inj hs')
    have hgone : gone m (moved m s'' (act a (.spawn task stack entry name priority)).1
        (.spawn task stack entry name priority)) = [] := by
      simp [gone, moved, hfreed]
    have haddrs : (act a (.spawn task stack entry name priority)).2.addrs = a.addrs ++ [task] := spawn_addrs _ _ _
    rw [hgone, List.map_nil, List.append_nil]
    refine ⟨⟨htask, hs'', ?_, ?_⟩, hholds, rfl, ?_, ?_⟩
    · have htail := hholds.rep.tail
      rw [moved_s, haddrs, List.getLastD_concat] at htail
      exact htail
    · simp [moved]
    · exact hc.spawned s'' task stack entry name priority _ haddrs (h.rep.fresh task hfree) hleft
    · exact fun n hn => Nat.lt_succ_of_lt (hleft n hn)
  · have hcall : ∀ task stack entry name priority, e ≠ .spawn task stack entry name priority :=
      fun task stack entry name priority he => hspawn ⟨task, stack, entry, name, priority, he⟩
    obtain ⟨xs, hxs⟩ := step_tracks m _ e hs' hcall
    obtain ⟨hborn, hspawned⟩ := (moved_born m s' (act a e).1 e).resolve_right hspawn
    rw [hxs.gone_eq, hspawned]
    have hnone : e.spawns = false ∧ Enlists m (moved m s' (act a e).1 e) e := by
      cases e with
      | spawn task stack entry name priority => exact absurd rfl (hcall task stack entry name priority)
      | _ => exact ⟨rfl, trivial⟩
    refine ⟨hnone.2, hholds, by rw [hnone.1]; rfl, hc.freed h hholds.rep hxs hborn hspawned, ?_⟩
    intro n hn
    rcases List.mem_append.mp hn with hn | hn
    · exact hleft n hn
    · obtain ⟨x, hx, rfl⟩ := List.mem_map.mp hn
      have hxa : x.1 ∈ a.addrs := by rw [h.rep.mem_addrs_stack, hxs.had x hx]; rfl
      obtain ⟨y, hy, hyx⟩ := List.mem_map.mp hxa
      have := h.old (y.1, y.2.stack) (List.mem_map_of_mem (f := fun x => (x.1, x.2.stack)) hy)
      rwa [hyx] at this

theorem run_counts (base : Nat) (m : Machine) (a : Sched) (left : List Nat) (es : List Event) (h : Holds base m a)
    (hc : Counts m a left) (hleft : ∀ n ∈ left, n < m.spawned) (hlegal : Along step (Legal base) m es) :
    Along step Tidy m es ∧ ∃ m' a', run step m es = some m' ∧ Holds base m' a' ∧
      m'.spawned = m.spawned + es.countP Event.spawns ∧ Counts m' a' (left ++ departed m es) := by
  induction es generalizing m a left with
  | nil => exact ⟨trivial, m, a, rfl, h, rfl, by rwa [departed, List.append_nil]⟩
  | cons e es ih =>
    obtain ⟨hle, hrest⟩ := hlegal
    obtain ⟨m1, hm1, hdead, henlist, hholds, hspawned, hc1, hleft1⟩ := step_counts base m a left e h hc hleft hle
    obtain ⟨htidy, m', a', hm', hholds', hspawned', hc'⟩ := ih m1 _ _ hholds hc1 hleft1 (hrest m1 hm1)
    refine ⟨⟨?_, ?_⟩, m', a', by rw [run_cons, hm1, Option.bind_some, hm'], hholds', ?_, ?_⟩
    · intro m2 hm2
      obtain rfl := Option.some.inj (hm1.symm.trans hm2)
      exact ⟨hdead, henlist⟩
    · intro m2 hm2
      obtain rfl := Option.some.inj (hm1.symm.trans hm2)
      exact htidy
    · rw [hspawned', hspawned, List.countP_cons]
      cases e.spawns
      all_goals simp [Bool.toNat]
      omega
    · simp only [departed, hm1]
      rwa [← List.append_assoc]

/-- In every run the process list is a ring of the spawned tasks without the freed ones, in the
order of the spawns. -/
theorem run_ring (base : Nat) (es : List Event) (hlegal : Along step (Legal base) machineBoot es) :
    Along step Tidy machineBoot es ∧
    ∃ m ring, run step machineBoot es = some m ∧ RingOk m.s ring ∧
      m.spawned = es.countP Event.spawns ∧
      ring.map m.born = (List.range m.spawned).filter (· ∉ departed machineBoot es) := by
  obtain ⟨htidy, m, a, hm, hholds, hspawned, hc⟩ := run_counts base machineBoot _ [] es (holds_boot base)
    (by intro n; simp [Sched.addrs, machineBoot]) (by simp) hlegal
  refine ⟨htidy, m, a.addrs, hm, hholds.rep.ringOk, by rw [hspawned, machineBoot, Nat.zero_add], ?_⟩
  refine hholds.sorted.eq_of_mem_iff (List.pairwise_lt_range.filter _) fun n => ?_
  rw [hc n, List.mem_filter, List.mem_range, List.nil_append]
  simp

/-- The first task is killed by the second one, and its address is used again. -/
def reuse : List Event :=
  twoTasks ++ [.start_scheduler, .yield, .kill_process 1, .sleep, .spawn 0x100020 0x102000 0x4000 "a" 1, .ret]

theorem run_ring_reuse :
    Along step Tidy machineBoot reuse ∧
    ∃ m ring, run step machineBoot reuse = some m ∧ RingOk m.s ring ∧ m.spawned = reuse.countP Event.spawns ∧
      ring.map m.born = (List.range m.spawned).filter (· ∉ departed machineBoot reuse) :=
  run_ring 0x100000 reuse (Plan.legal _ _ _ (holds_boot _) (by decide))

end SlayerOS.Taskman
