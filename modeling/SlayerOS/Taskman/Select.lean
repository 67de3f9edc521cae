import SlayerOS.Taskman.Sweep

/-!
# The loops that look for a task

Each of them goes along the links of the ring, from the head or from behind the current
task, so it sees the tasks of a rotation of the list, one after the other.
-/

open SlayerOS.Ring

namespace SlayerOS.Taskman

/-- The links go through the tasks, and the last one leads to `e`. -/
def Chained (s : State) : List (Nat × Task) → Nat → Prop
  | [], _ => True
  | x :: xs, e => (∃ t, s.tasks x.1 = some t ∧ t.body = x.2 ∧ t.next = (xs.map Prod.fst).headD e) ∧
    Chained s xs e

theorem chained_suffix (s : State) (rot : List (Nat × Task))
    (hring : IsRing (nextOf s) (prevOf s) (rot.map Prod.fst))
    (hbodies : ∀ x ∈ rot, bodyOf s x.1 = some x.2) (pre suf : List (Nat × Task)) (hrot : rot = pre ++ suf) :
    Chained s suf ((rot.map Prod.fst).headD 0) := by
  induction suf generalizing pre with
  | nil => trivial
  | cons x suf ih =>
    refine ⟨?_, ih (pre ++ [x]) (by simp [hrot])⟩
    obtain ⟨t, ht, htn, -, htb⟩ := tasks_links s x.1 x.2 (hbodies x (by simp [hrot]))
    refine ⟨t, ht, htb, ?_⟩
    rw [hrot, List.map_append, List.map_cons] at hring
    rw [htn, hring.next_eq, hrot]
    cases suf with
    | nil => cases pre <;> simp
    | cons y suf => simp

theorem Rep.chained {s : State} {a : Sched} (h : Rep s a) (us vs : List (Nat × Task))
    (hring : a.ring = us ++ vs) : Chained s (vs ++ us) (((vs ++ us).map Prod.fst).headD 0) := by
  apply chained_suffix s (vs ++ us) _ _ [] (vs ++ us) rfl
  · have := h.ring
    rw [Sched.addrs, hring, List.map_append, isRing_rotate, ← List.map_append] at this
    exact this
  · intro x hx
    apply (h.bodies x.1 x.2).mpr
    rw [hring, List.mem_append]
    exact (List.mem_append.mp hx).symm

theorem Rep.chained_head {s : State} {a : Sched} (h : Rep s a) :
    Chained s a.ring s.process_list.head := by
  have := h.chained [] a.ring rfl
  rw [List.append_nil] at this
  rw [h.head]
  exact this

theorem Rep.head_tail {s : State} {a : Sched} (h : Rep s a) :
    ∀ y ∈ a.ring.tail, y.1 ≠ s.process_list.head := by
  intro y hy
  have hnodup := h.nodup
  rw [h.head]
  rw [Sched.addrs] at hnodup ⊢
  cases hring : a.ring with
  | nil => simp [hring] at hy
  | cons x xs =>
    rw [hring] at hnodup hy
    intro heq
    have hx : y.1 = x.1 := heq
    exact (List.nodup_cons.mp hnodup).1 (hx ▸ List.mem_map_of_mem hy)

theorem Rep.head_zero {s : State} {a : Sched} (h : Rep s a) : s.process_list.head = 0 ↔ a.ring = [] := by
  have hnull := h.null
  rw [h.head]
  rw [Sched.addrs] at hnull ⊢
  cases hring : a.ring with
  | nil => simp
  | cons x xs =>
    rw [hring] at hnull
    simp only [List.map_cons, List.mem_cons, not_or] at hnull
    simp only [List.map_cons, List.headD_cons, reduceCtorEq, iff_false]
    exact fun h => hnull.1 h.symm

/-! ## From the head on -/

theorem find_pid_spec (s : State) (pid fuel : Nat) (x : Nat × Task) (xs : List (Nat × Task))
    (hch : Chained s (x :: xs) s.process_list.head) (hhead : ∀ y ∈ xs, y.1 ≠ s.process_list.head)
    (hfuel : xs.length < fuel) :
    find_pid s pid fuel x.1 =
      some ((((x :: xs).find? fun y => y.2.pid = pid).map Prod.fst).getD 0) := by
  induction xs generalizing fuel x with
  | nil =>
    obtain ⟨f, rfl⟩ : ∃ f, fuel = f + 1 := ⟨fuel - 1, by omega⟩
    obtain ⟨⟨t, ht, htb, htn⟩, -⟩ := hch
    have hpid : t.pid = x.2.pid := by rw [← htb]; rfl
    have hnext : t.next = s.process_list.head := htn
    rw [find_pid, ht]
    by_cases h : x.2.pid = pid <;> simp [hpid, hnext, h]
  | cons y xs ih =>
    obtain ⟨f, rfl⟩ : ∃ f, fuel = f + 1 := ⟨fuel - 1, by omega⟩
    rw [List.length_cons] at hfuel
    obtain ⟨⟨t, ht, htb, htn⟩, hrest⟩ := hch
    have hpid : t.pid = x.2.pid := by rw [← htb]; rfl
    have hnext : t.next = y.1 := htn
    have hy := hhead y List.mem_cons_self
    have htail := ih f y hrest (fun z hz => hhead z (List.mem_cons_of_mem _ hz)) (by omega)
    rw [find_pid, ht, List.find?_cons]
    by_cases h : x.2.pid = pid
    · simp [hpid, h]
    · simp [hpid, h, hnext, hy, htail]

theorem get_by_pid_spec (s : State) (a : Sched) (pid : Nat) (h : Rep s a) :
    get_by_pid s pid = some (a.byPid pid) := by
  unfold get_by_pid Sched.byPid
  have hch := h.chained_head
  have htail := h.head_tail
  have hhead := h.head
  have hcount := h.count
  rw [Sched.addrs] at hhead
  cases hring : a.ring with
  | nil =>
    rw [if_pos (h.head_zero.mpr hring)]
    rfl
  | cons x xs =>
    rw [hring] at hch htail hhead hcount
    have hx : s.process_list.head = x.1 := hhead
    rw [if_neg (fun h0 => by simp [h.head_zero.mp h0] at hring)]
    conv_lhs => rw [hx]
    apply find_pid_spec s pid _ x xs hch htail
    rw [hcount, List.length_cons]
    omega

theorem count_active_spec (s : State) (fuel active : Nat) (x : Nat × Task) (xs : List (Nat × Task))
    (hch : Chained s (x :: xs) s.process_list.head) (hhead : ∀ y ∈ xs, y.1 ≠ s.process_list.head)
    (hfuel : xs.length < fuel) (hsmall : active + (x :: xs).length < 2 ^ 32) :
    count_active s fuel active x.1 = some (active + (x :: xs).countP ready) := by
  induction xs generalizing fuel active x with
  | nil =>
    obtain ⟨f, rfl⟩ : ∃ f, fuel = f + 1 := ⟨fuel - 1, by omega⟩
    obtain ⟨⟨t, ht, htb, htn⟩, -⟩ := hch
    have hstate : runnable t.state = ready x := by rw [ready, ← htb]; rfl
    have hnext : t.next = s.process_list.head := htn
    have hmod : (active + 1) % 2 ^ 32 = active + 1 := Nat.mod_eq_of_lt hsmall
    simp only [count_active, ht, Option.bind_eq_bind, Option.bind_some, hstate, hmod, hnext, ne_eq,
      not_true_eq_false, if_false, List.countP_cons, List.countP_nil]
    split <;> rfl
  | cons y xs ih =>
    obtain ⟨f, rfl⟩ : ∃ f, fuel = f + 1 := ⟨fuel - 1, by omega⟩
    rw [List.length_cons] at hfuel hsmall
    obtain ⟨⟨t, ht, htb, htn⟩, hrest⟩ := hch
    have hstate : runnable t.state = ready x := by rw [ready, ← htb]; rfl
    have hnext : t.next = y.1 := htn
    have hy := hhead y List.mem_cons_self
    have hmod : (active + 1) % 2 ^ 32 = active + 1 := Nat.mod_eq_of_lt (by omega)
    have htail := fun n hn => ih f n y hrest (fun z hz => hhead z (List.mem_cons_of_mem _ hz)) (by omega) hn
    rw [List.countP_cons]
    simp only [count_active, ht, Option.bind_eq_bind, Option.bind_some, hstate, hmod, hnext, ne_eq, hy,
      not_false_eq_true, if_true]
    rw [htail _ (by split <;> omega)]
    split <;> simp only [Option.some.injEq] <;> omega

theorem get_active_count_spec (s : State) (a : Sched) (h : Rep s a) :
    get_active_count s = some (a.ring.countP ready) := by
  unfold get_active_count
  have hch := h.chained_head
  have htail := h.head_tail
  have hhead := h.head
  have hcount := h.count
  have hsmall := h.small
  rw [Sched.addrs] at hhead
  cases hring : a.ring with
  | nil =>
    rw [if_pos (h.head_zero.mpr hring)]
    rfl
  | cons x xs =>
    rw [hring] at hch htail hhead hcount hsmall
    have hx : s.process_list.head = x.1 := hhead
    rw [if_neg (fun h0 => by simp [h.head_zero.mp h0] at hring)]
    conv_lhs => rw [hx]
    rw [count_active_spec s _ 0 x xs hch htail (by rw [hcount, List.length_cons]; omega)
      (by rw [Nat.zero_add]; exact hsmall), Nat.zero_add]

theorem first_runnable_spec (s : State) (fuel : Nat) (x : Nat × Task) (xs : List (Nat × Task))
    (hch : Chained s (x :: xs) s.process_list.head) (hhead : ∀ y ∈ xs, y.1 ≠ s.process_list.head)
    (hnull : ∀ y ∈ x :: xs, y.1 ≠ 0) (hfuel : xs.length < fuel) :
    first_runnable s fuel x.1 =
      some ((((x :: xs).find? ready).map Prod.fst).getD s.process_list.head) := by
  induction xs generalizing fuel x with
  | nil =>
    obtain ⟨f, rfl⟩ : ∃ f, fuel = f + 1 := ⟨fuel - 1, by omega⟩
    obtain ⟨⟨t, ht, htb, htn⟩, -⟩ := hch
    have hstate : runnable t.state = ready x := by rw [ready, ← htb]; rfl
    have hnext : t.next = s.process_list.head := htn
    rw [first_runnable, if_neg (hnull x List.mem_cons_self), ht]
    by_cases h : ready x = true <;> simp [hstate, hnext, h]
  | cons y xs ih =>
    obtain ⟨f, rfl⟩ : ∃ f, fuel = f + 1 := ⟨fuel - 1, by omega⟩
    rw [List.length_cons] at hfuel
    obtain ⟨⟨t, ht, htb, htn⟩, hrest⟩ := hch
    have hstate : runnable t.state = ready x := by rw [ready, ← htb]; rfl
    have hnext : t.next = y.1 := htn
    have hy := hhead y List.mem_cons_self
    have htail := ih f y hrest (fun z hz => hhead z (List.mem_cons_of_mem _ hz))
      (fun z hz => hnull z (List.mem_cons_of_mem _ hz)) (by omega)
    rw [first_runnable, if_neg (hnull x List.mem_cons_self), ht, List.find?_cons]
    by_cases h : ready x = true
    · simp [hstate, h]
    · simp [hstate, h, hnext, hy, htail]

/-! ## From the current task on -/

theorem next_runnable_spec (s : State) (fuel checked e : Nat) (ys : List (Nat × Task))
    (hch : Chained s ys e) (hcount : checked + ys.length = s.process_list.count) (hfuel : ys.length < fuel) :
    (∃ x k, ys.find? ready = some x ∧ k < s.process_list.count ∧
      next_runnable s fuel ((ys.map Prod.fst).headD e) checked = some (x.1, k)) ∨
    (ys.find? ready = none ∧
      ∃ q, next_runnable s fuel ((ys.map Prod.fst).headD e) checked = some (q, s.process_list.count)) := by
  induction ys generalizing fuel checked with
  | nil =>
    obtain ⟨f, rfl⟩ : ∃ f, fuel = f + 1 := ⟨fuel - 1, by omega⟩
    right
    simp only [List.length_nil, Nat.add_zero] at hcount
    refine ⟨rfl, e, ?_⟩
    simp [next_runnable, hcount]
  | cons x ys ih =>
    obtain ⟨f, rfl⟩ : ∃ f, fuel = f + 1 := ⟨fuel - 1, by omega⟩
    rw [List.length_cons] at hcount hfuel
    obtain ⟨⟨t, ht, htb, htn⟩, hrest⟩ := hch
    have hstate : runnable t.state = ready x := by rw [ready, ← htb]; rfl
    have hlt : checked < s.process_list.count := by omega
    simp only [List.map_cons, List.headD_cons, next_runnable, if_pos hlt, ht, Option.bind_eq_bind,
      Option.bind_some, hstate, htn, List.find?_cons]
    by_cases h : ready x = true
    · left
      exact ⟨x, checked, by simp [h], hlt, by simp [h]⟩
    · rcases ih f (checked + 1) hrest (by omega) (by omega) with ⟨y, k, hy, hk, heq⟩ | ⟨hnone, q, heq⟩
      · left
        exact ⟨y, k, by simp [h, hy], hk, by rw [if_neg h]; exact heq⟩
      · right
        exact ⟨by simp [h, hnone], q, by rw [if_neg h]; exact heq⟩

end SlayerOS.Taskman
