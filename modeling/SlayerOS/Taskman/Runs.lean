import SlayerOS.Taskman.Ops
import Mathlib.Data.List.Find
import Mathlib.Data.List.Perm.Subperm

/-!
# Runs of the machine

Every event does to the list what `act` says, so the machine holds a list in every run.
-/

open SlayerOS.Bytes SlayerOS.Ring SlayerOS.Run

namespace SlayerOS.Taskman

/-! ## The ring as the code sees it -/

theorem along_chained (s : State) (xs : List (Nat × Task)) (e : Nat) (h : Chained s xs e) :
    along s xs.length ((xs.map Prod.fst).headD e) = xs.map Prod.fst ∧
    (nextOf s)^[xs.length] ((xs.map Prod.fst).headD e) = e := by
  induction xs with
  | nil => exact ⟨rfl, rfl⟩
  | cons x xs ih =>
    obtain ⟨⟨t, ht, -, htn⟩, hrest⟩ := h
    obtain ⟨ih1, ih2⟩ := ih hrest
    have hnext : nextOf s x.1 = (xs.map Prod.fst).headD e := by rw [nextOf, ht, ← htn]; rfl
    refine ⟨?_, ?_⟩
    · rw [List.length_cons, List.map_cons, List.headD_cons, along, hnext, ih1]
    · rw [List.length_cons, Function.iterate_succ_apply, List.map_cons, List.headD_cons, hnext, ih2]

theorem tasks_map {β : Type} (s : State) (a : Sched) (h : Rep s a) (f : Task → β) (hf : ∀ t, f t.body = f t)
    (x : Nat × Task) (hx : x ∈ a.ring) : (s.tasks x.1).map f = some (f x.2) := by
  obtain ⟨t, ht, hb⟩ := (bodyOf_eq_some s x.1 x.2).mp ((h.bodies x.1 x.2).mpr hx)
  rw [ht, Option.map_some, ← hf t, hb]

theorem Rep.inverse {s : State} {a : Sched} (h : Rep s a) (p : Nat) (hp : p ∈ a.addrs) :
    nextOf s p ∈ a.addrs ∧ prevOf s (nextOf s p) = p := by
  obtain ⟨as, bs, hsplit⟩ := List.append_of_mem hp
  have hring := h.ring
  rw [hsplit] at hring ⊢
  refine ⟨?_, hring.prev_next⟩
  rw [hring.next_eq]
  cases hc : bs ++ as with
  | nil => simp
  | cons y l =>
    have hy : y ∈ bs ++ as := by simp [hc]
    rw [List.mem_append] at hy
    simp only [List.headD_cons, List.mem_append, List.mem_cons]
    tauto

theorem Rep.tail_next {s : State} {a : Sched} (h : Rep s a) (hne : a.addrs ≠ []) :
    s.process_list.tail ∈ a.addrs ∧ nextOf s s.process_list.tail = s.process_list.head := by
  obtain ⟨as, x, hx⟩ := (List.eq_nil_or_concat a.addrs).resolve_left hne
  rw [List.concat_eq_append] at hx
  have hring := h.ring
  rw [hx] at hring
  rw [h.tail, h.head, hx, List.getLastD_concat]
  refine ⟨by simp, ?_⟩
  rw [hring.next_eq]
  cases as <;> simp

theorem Rep.by_pid {s : State} {a : Sched} (h : Rep s a) (pid : Nat) :
    get_by_pid s pid = some ((a.addrs.find? fun p => (s.tasks p).map Task.pid == some pid).getD 0) := by
  have hcongr : a.ring.find? (fun x => x.2.pid = pid) =
      a.ring.find? ((fun p => (s.tasks p).map Task.pid == some pid) ∘ Prod.fst) := by
    apply List.find?_congr
    intro x hx
    rw [Function.comp_apply, tasks_map s a h Task.pid (fun _ => rfl) x hx]
    exact Bool.eq_iff_iff.mpr (by simp)
  rw [get_by_pid_spec s a pid h, Sched.byPid, Sched.addrs, List.find?_map, hcongr]

theorem Rep.active_count {s : State} {a : Sched} (h : Rep s a) :
    get_active_count s =
      some (a.addrs.countP fun p => (s.tasks p).map (fun t => runnable t.state) == some true) := by
  rw [get_active_count_spec s a h, Sched.addrs, List.countP_map]
  congr 1
  apply List.countP_congr
  intro x hx
  rw [Function.comp_apply, tasks_map s a h (fun t => runnable t.state) (fun _ => rfl) x hx]
  simp [ready]

theorem Rep.ringOk {s : State} {a : Sched} (h : Rep s a) : RingOk s a.addrs := by
  have hlen : a.addrs.length = a.ring.length := by simp [Sched.addrs]
  obtain ⟨halong, hback⟩ := along_chained s a.ring _ h.chained_head
  have hstart : (a.ring.map Prod.fst).headD s.process_list.head = s.process_list.head := by
    rw [h.head, Sched.addrs]
    cases a.ring.map Prod.fst <;> rfl
  have hnil : s.process_list.count = 0 ↔ a.addrs = [] := by
    rw [h.count, ← hlen, List.length_eq_zero_iff]
  rw [hstart] at halong hback
  refine ⟨h.nodup, by rw [h.count, hlen], ?_, ?_, ?_, ?_, h.inverse, ?_, ?_, h.by_pid, h.active_count⟩
  · intro p
    rw [h.mem_addrs p, bodyOf, ← Option.isSome_map (f := Task.body), Option.isSome_iff_exists]
  · intro h0
    have hempty := hnil.mp h0
    refine ⟨by rw [h.head, hempty]; rfl, by rw [h.tail, hempty]; rfl, ?_⟩
    rw [h.current]
    refine h.linked.resolve_right ?_
    rw [hempty]
    simp
  · rw [h.count]
    exact halong
  · rw [h.count]
    exact hback
  · exact fun h0 => h.tail_next fun hempty => h0 (hnil.mpr hempty)
  · rw [h.current]
    exact h.linked

/-! ## What an event does -/

/-- The task whose entry the event calls, or null, and the list behind it. -/
def act (a : Sched) : Event → Nat × Sched
  | .spawn task stack entry name priority => (0, a.spawn task (newTask stack entry a.next_pid name priority))
  | .kill_process pid => (0, if a.byPid pid = 0 then a else a.setState (a.byPid pid) .TERMINATED)
  | .kill_current => a.giveUp .TERMINATED
  | .sleep => a.giveUp .WAITING
  | .yield => a.yield
  | .start_scheduler => a.start
  | .ret => (0, a)

/-- The machine behind the event, which calls the entry of `p` and leaves the state `s`. -/
def moved (m : Machine) (s : State) (p : Nat) : Event → Machine
  | .spawn task _ _ _ _ =>
    { m with s, born := Function.update m.born task m.spawned, spawned := m.spawned + 1 }
  | .ret => { m with s, running := m.running.tail }
  | _ => enter m (p, s)

theorem step_spec (base : Nat) (m : Machine) (a : Sched) (e : Event) (h : Rep m.s a) (hlegal : Legal base m e)
    (hsmall : a.ring.length + 1 < 2 ^ 32) :
    ∃ s', step m e = some (moved m s' (act a e).1 e) ∧ Swept m.s s' a (act a e).2 := by
  have hcall : ∀ (r : Option (Nat × State)) q, (∃ r', r = some r' ∧ Does m.s a r' q) →
      ∃ s', r.map (enter m) = some (enter m (q.1, s')) ∧ Swept m.s s' a q.2 := by
    rintro r q ⟨r', rfl, heq, hsw⟩
    exact ⟨r'.2, by rw [← heq]; rfl, hsw⟩
  cases e with
  | spawn task stack entry name priority =>
    obtain ⟨htask, hfree, hstack, -⟩ := hlegal
    obtain ⟨s', hs', hfreed, hrep⟩ :=
      spawn_process_spec m.s a task stack entry name priority h htask hfree hstack hsmall
    refine ⟨s', ?_, hrep.swept hfreed ?_⟩
    · simp only [step, hs', Option.bind_eq_bind, Option.bind_some, if_neg htask, moved]
    · rw [spawn_addrs]
      exact List.subset_append_left _ _
  | kill_process pid =>
    obtain ⟨s', hs', hfreed, hrep⟩ := kill_process_spec m.s a pid h
    refine ⟨s', ?_, hrep.swept hfreed ?_⟩
    · simp only [step, hs', Option.bind_eq_bind, Option.bind_some, moved, act, enter, if_true]
    · split
      · exact List.Subset.refl _
      · rw [setState_addrs]
        exact List.Subset.refl _
  | kill_current => exact hcall _ _ (kill_current_spec m.s a h)
  | sleep => exact hcall _ _ (sleep_spec m.s a h)
  | yield => exact hcall _ _ (yield_spec m.s a h)
  | start_scheduler => exact hcall _ _ (start_scheduler_spec m.s a h)
  | ret => exact ⟨m.s, rfl, h.swept rfl (List.Subset.refl _)⟩

/-! ## What the events leave of the records

Only a spawn adds to the list, at the end; the other events delete some of it. What does
not read the states is kept.
-/

theorem remove_sublist (a : Sched) (p : Nat) : (a.remove p).ring.Sublist a.ring := by
  have h : (before p a.ring ++ (a.ring.dropWhile (·.1 ≠ p))) = a.ring := List.takeWhile_append_dropWhile
  conv_rhs => rw [← h]
  exact List.Sublist.append_left (List.tail_sublist _) _

theorem reap_sublist (a : Sched) (xs : List (Nat × Task)) : (a.reap xs).ring.Sublist a.ring := by
  induction xs generalizing a with
  | nil => exact List.Sublist.refl _
  | cons x xs ih =>
    unfold Sched.reap
    refine (ih _).trans ?_
    split
    · exact remove_sublist a x.1
    · exact List.Sublist.refl _

theorem sweep_sublist (a : Sched) : a.sweep.ring.Sublist a.ring := by
  unfold Sched.sweep
  split
  · exact List.Sublist.refl _
  · split
    · exact remove_sublist a _
    · exact reap_sublist a _

section Kept

variable {β : Type} (f : Nat × Task → β) (hf : ∀ p t v, f (p, { t with state := v }) = f (p, t))
include hf

theorem setState_map (a : Sched) (p : Nat) (v : TaskState) : (a.setState p v).ring.map f = a.ring.map f := by
  simp only [Sched.setState, List.map_map]
  apply List.map_congr_left
  intro x _
  rw [Function.comp_apply, withState]
  split
  · exact hf _ _ _
  · rfl

theorem yield_map (a : Sched) : (a.yield.2.ring.map f).Sublist (a.ring.map f) := by
  have hsweep : (a.sweep.ring.map f).Sublist (a.ring.map f) := (sweep_sublist a).map _
  unfold Sched.yield
  split
  · exact hsweep
  · rw [Sched.handOver, setState_map f hf]
    exact hsweep

theorem giveUp_map (a : Sched) (v : TaskState) : ((a.giveUp v).2.ring.map f).Sublist (a.ring.map f) := by
  unfold Sched.giveUp
  split
  · exact List.Sublist.refl _
  · rw [← setState_map f hf a a.current v]
    exact yield_map f hf _

theorem act_map (a : Sched) (e : Event) : ((act a e).2.ring.map f).Sublist (a.ring.map f) ∨
    ∃ task stack entry name priority, e = .spawn task stack entry name priority ∧
      (act a e).2.ring.map f = a.ring.map f ++ [f (task, newTask stack entry a.next_pid name priority)] := by
  cases e with
  | spawn task stack entry name priority =>
    exact Or.inr ⟨task, stack, entry, name, priority, rfl, by simp [act, Sched.spawn]⟩
  | kill_process pid =>
    refine Or.inl ?_
    simp only [act]
    split
    · exact List.Sublist.refl _
    · rw [setState_map f hf]
  | kill_current => exact Or.inl (giveUp_map f hf a _)
  | sleep => exact Or.inl (giveUp_map f hf a _)
  | yield => exact Or.inl (yield_map f hf a)
  | start_scheduler =>
    refine Or.inl ?_
    simp only [act, Sched.start]
    split
    · exact List.Sublist.refl _
    · rw [Sched.handOver, setState_map f hf]
  | ret => exact Or.inl (List.Sublist.refl _)

end Kept

/-- Addresses and stacks. -/
def Sched.keys (a : Sched) : List (Nat × Nat) := a.ring.map fun x => (x.1, x.2.stack)

theorem act_keys (a : Sched) (e : Event) : (act a e).2.keys.Sublist a.keys ∨
    ∃ task stack entry name priority, e = .spawn task stack entry name priority ∧
      (act a e).2.keys = a.keys ++ [(task, stack)] :=
  act_map (fun x => (x.1, x.2.stack)) (fun _ _ _ => rfl) a e

/-! ## The invariant -/

/-- The machine holds the list `a`: the stacks are apart, and the spawn numbers go up. -/
structure Holds (base : Nat) (m : Machine) (a : Sched) : Prop where
  rep : Rep m.s a
  area : ∀ k ∈ a.keys, base ≤ k.2 ∧ k.2 + STACK_SIZE ≤ base + AREA
  apart : a.keys.Pairwise fun k l => Apart k.2 STACK_SIZE l.2 STACK_SIZE
  order : a.keys.Pairwise fun k l => m.born k.1 < m.born l.1
  old : ∀ k ∈ a.keys, m.born k.1 < m.spawned

theorem holds_boot (base : Nat) : Holds base machineBoot ⟨[], 0, 1⟩ := by
  refine ⟨⟨?_, ?_, ?_, ?_, rfl, rfl, rfl, by decide, rfl, Or.inl rfl, rfl⟩, ?_, ?_, ?_, ?_⟩
  all_goals simp [Sched.addrs, Sched.keys, bodyOf, machineBoot, boot, IsRing]

theorem Holds.length_le {base : Nat} {m : Machine} {a : Sched} (h : Holds base m a) :
    a.ring.length ≤ 2 ^ 29 := by
  let slots := a.keys.map fun k => (k.2 - base) / STACK_SIZE
  have hnodup : slots.Nodup := by
    refine List.pairwise_map.mpr (h.apart.imp_of_mem ?_)
    intro k l hk hl hapart
    have hk' := (h.area k hk).1
    have hl' := (h.area l hl).1
    unfold Apart at hapart
    unfold STACK_SIZE at *
    omega
  have hrange : slots ⊆ List.range (2 ^ 29) := by
    intro n hn
    obtain ⟨k, hk, rfl⟩ := List.mem_map.mp hn
    obtain ⟨h1, h2⟩ := h.area k hk
    rw [List.mem_range]
    simp only [AREA, STACK_SIZE] at h2 ⊢
    omega
  have hle := (List.subperm_of_subset hnodup hrange).length_le
  rwa [List.length_range, List.length_map, Sched.keys, List.length_map] at hle

theorem Holds.sorted {base : Nat} {m : Machine} {a : Sched} (h : Holds base m a) :
    (a.addrs.map m.born).Pairwise (· < ·) := by
  have horder := h.order
  rw [Sched.keys, List.pairwise_map] at horder
  rwa [Sched.addrs, List.map_map, List.pairwise_map]

theorem Holds.born_inj {base : Nat} {m : Machine} {a : Sched} (h : Holds base m a) (p q : Nat)
    (hp : p ∈ a.addrs) (hq : q ∈ a.addrs) (heq : m.born p = m.born q) : p = q :=
  List.inj_on_of_nodup_map (h.sorted.imp fun hlt => Nat.ne_of_lt hlt) hp hq heq

theorem moved_s (m : Machine) (s : State) (p : Nat) (e : Event) : (moved m s p e).s = s := by
  cases e
  case spawn => rfl
  case ret => rfl
  all_goals
    simp only [moved, enter]
    split <;> rfl

theorem moved_born (m : Machine) (s : State) (p : Nat) (e : Event) :
    ((moved m s p e).born = m.born ∧ (moved m s p e).spawned = m.spawned) ∨
    ∃ task stack entry name priority, e = .spawn task stack entry name priority := by
  cases e
  case spawn task stack entry name priority => exact Or.inr ⟨task, stack, entry, name, priority, rfl⟩
  case ret => exact Or.inl ⟨rfl, rfl⟩
  all_goals
    refine Or.inl ?_
    simp only [moved, enter]
    split <;> exact ⟨rfl, rfl⟩

theorem Holds.spawn {base : Nat} {m : Machine} {a a' : Sched} {s' : State} (h : Holds base m a)
    (task stack entry : Nat) (name : String) (priority p : Nat)
    (hlegal : Legal base m (.spawn task stack entry name priority)) (hrep : Rep s' a')
    (hkeys : a'.keys = a.keys ++ [(task, stack)]) :
    Holds base (moved m s' p (.spawn task stack entry name priority)) a' := by
  obtain ⟨-, hfree, -, hlo, hhi, hapart⟩ := hlegal
  have hfresh := h.rep.fresh task hfree
  have hne : ∀ k ∈ a.keys, k.1 ≠ task := by
    rintro k hk rfl
    obtain ⟨x, hx, rfl⟩ := List.mem_map.mp hk
    exact hfresh (List.mem_map_of_mem hx)
  have hborn : ∀ k ∈ a.keys, Function.update m.born task m.spawned k.1 = m.born k.1 :=
    fun k hk => Function.update_of_ne (hne k hk) _ _
  have hborn' : Function.update m.born task m.spawned task = m.spawned := Function.update_self _ _ _
  refine ⟨hrep, ?_, ?_, ?_, ?_⟩
  · rw [hkeys]
    intro k hk
    rcases List.mem_append.mp hk with hk | hk
    · exact h.area k hk
    · rw [List.mem_singleton.mp hk]
      exact ⟨hlo, hhi⟩
  · rw [hkeys]
    refine List.pairwise_append.mpr ⟨h.apart, List.pairwise_singleton _ _, ?_⟩
    intro k hk l hl
    rw [List.mem_singleton.mp hl]
    obtain ⟨x, hx, rfl⟩ := List.mem_map.mp hk
    obtain ⟨t, ht, hb⟩ := (bodyOf_eq_some m.s x.1 x.2).mp ((h.rep.bodies x.1 x.2).mpr hx)
    have hst : t.stack = x.2.stack := by rw [← hb]; rfl
    have := hapart x.1 t ht
    rw [hst] at this
    exact this.symm
  · rw [hkeys]
    refine List.pairwise_append.mpr ⟨?_, List.pairwise_singleton _ _, ?_⟩
    · refine h.order.imp_of_mem ?_
      intro k l hk hl hlt
      simp only [moved]
      rw [hborn k hk, hborn l hl]
      exact hlt
    · intro k hk l hl
      rw [List.mem_singleton.mp hl]
      simp only [moved]
      rw [hborn k hk, hborn']
      exact h.old k hk
  · rw [hkeys]
    intro k hk
    simp only [moved]
    rcases List.mem_append.mp hk with hk | hk
    · rw [hborn k hk]
      exact Nat.lt_succ_of_lt (h.old k hk)
    · rw [List.mem_singleton.mp hk, hborn']
      exact Nat.lt_succ_self _

theorem step_holds (base : Nat) (m : Machine) (a : Sched) (e : Event) (h : Holds base m a)
    (hlegal : Legal base m e) :
    ∃ s', step m e = some (moved m s' (act a e).1 e) ∧ Swept m.s s' a (act a e).2 ∧
      Holds base (moved m s' (act a e).1 e) (act a e).2 := by
  have hlen := h.length_le
  obtain ⟨s', hs', hsw⟩ := step_spec base m a e h.rep hlegal (by omega)
  refine ⟨s', hs', hsw, ?_⟩
  rcases act_keys a e with hsub | ⟨task, stack, entry, name, priority, rfl, hkeys⟩
  · rcases moved_born m s' (act a e).1 e with ⟨hborn, hspawned⟩ | ⟨task, stack, entry, name, priority, rfl⟩
    · refine ⟨by rw [moved_s]; exact hsw.rep, ?_, h.apart.sublist hsub, ?_, ?_⟩
      · exact fun k hk => h.area k (hsub.subset hk)
      · rw [hborn]
        exact h.order.sublist hsub
      · rw [hborn, hspawned]
        exact fun k hk => h.old k (hsub.subset hk)
    · have hlen' := hsub.length_le
      simp [act, Sched.keys, Sched.spawn] at hlen'
  · exact h.spawn task stack entry name priority _ hlegal hsw.rep hkeys

/-! ## Legal runs -/

/-- The event is legal, in terms of the list. -/
def Fits (base : Nat) (a : Sched) : Event → Prop
  | .spawn task stack _ _ _ =>
    task ≠ 0 ∧ task ∉ a.addrs ∧ stack ≠ 0 ∧ base ≤ stack ∧ stack + STACK_SIZE ≤ base + AREA ∧
    ∀ k ∈ a.keys, Apart stack STACK_SIZE k.2 STACK_SIZE
  | _ => True

instance (base : Nat) (a : Sched) (e : Event) : Decidable (Fits base a e) :=
  match e with
  | .spawn _ _ _ _ _ => inferInstanceAs (Decidable (_ ∧ _ ∧ _ ∧ _ ∧ _ ∧ ∀ k ∈ a.keys, _ ∨ _))
  | .kill_process _ | .kill_current | .sleep | .yield | .start_scheduler | .ret => .isTrue trivial

/-- Every event of the run is legal, in terms of the list. -/
def Plan (base : Nat) : Sched → List Event → Prop
  | _, [] => True
  | a, e :: es => Fits base a e ∧ Plan base (act a e).2 es

instance decidablePlan (base : Nat) : (a : Sched) → (es : List Event) → Decidable (Plan base a es)
  | _, [] => .isTrue trivial
  | a, e :: es =>
    have := decidablePlan base (act a e).2 es
    inferInstanceAs (Decidable (Fits base a e ∧ Plan base (act a e).2 es))

theorem Holds.legal {base : Nat} {m : Machine} {a : Sched} (h : Holds base m a) (e : Event)
    (hfits : Fits base a e) : Legal base m e := by
  cases e with
  | spawn task stack entry name priority =>
    obtain ⟨h1, h2, h3, h4, h5, h6⟩ := hfits
    refine ⟨h1, ?_, h3, h4, h5, ?_⟩
    · rw [← Option.not_isSome_iff_eq_none, h.rep.ringOk.allocated]
      exact h2
    · intro p t ht
      have hmem := (h.rep.bodies p t.body).mp (by rw [bodyOf, ht]; rfl)
      exact h6 (p, t.stack) (List.mem_map_of_mem (f := fun x => (x.1, x.2.stack)) hmem)
  | _ => trivial

theorem Plan.legal {base : Nat} (m : Machine) (a : Sched) (es : List Event) (h : Holds base m a)
    (hplan : Plan base a es) : Along step (Legal base) m es := by
  induction es generalizing m a with
  | nil => trivial
  | cons e es ih =>
    have hlegal := h.legal e hplan.1
    refine ⟨hlegal, ?_⟩
    intro m' hm'
    obtain ⟨s', hs', -, hholds⟩ := step_holds base m a e h hlegal
    obtain rfl := Option.some.inj (hs'.symm.trans hm')
    exact ih _ _ hholds hplan.2

/-- Two spawns, for short runs. -/
def twoTasks : List Event :=
  [.spawn 0x100020 0x102000 0x4000 "a" 1, .spawn 0x200020 0x202000 0x5000 "b" 1]

end SlayerOS.Taskman
