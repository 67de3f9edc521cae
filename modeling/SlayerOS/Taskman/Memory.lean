import SlayerOS.Taskman.Gone
import SlayerOS.Heap.Blocks

/-!
# Tasks on the kernel heap

`spawn_process` takes the record and the stack of a task from the heap, and
`cleanup_terminated` gives them back. Other clients use the same heap between the calls of
the scheduler.
-/

open SlayerOS.Bytes SlayerOS.Frames SlayerOS.Run
open SlayerOS.Heap (HeapInv weight Between Supplied OnFirstPage kmalloc_block)
open SlayerOS.Taskman (Machine Sched AREA STACK_SIZE gone keysOf)

namespace SlayerOS.TaskMemory

/-- `sizeof(Taskman::Task)`. -/
def TASK : Nat := 224

structure World where
  m : Machine
  heap : Heap.World

inductive Event where
  | spawn_process (entry : Nat) (name : String) (priority : Nat)
  /-- A call of the scheduler that is no spawn. -/
  | call (e : Taskman.Event)
  /-- A call or a store of another client of the heap. -/
  | heap (e : Heap.Event)

/-- `spawn_process`, with its calls of `kmalloc`. -/
def spawn_process (fuel : Nat) (w : World) (entry : Nat) (name : String) (priority : Nat) : Option World := do
  let task ← kmalloc_block fuel w.heap TASK
  if task.1 = 0 then some { w with heap := task.2 }
  else do
    let stack ← kmalloc_block fuel task.2 STACK_SIZE
    if stack.1 = 0 then do
      let heap ← Heap.step fuel stack.2 (.kfree task.1)
      some { w with heap }
    else do
      let m ← Taskman.step w.m (.spawn task.1 stack.1 entry name priority)
      some { m, heap := stack.2 }

/-- The calls `kfree(current->stack)` and `kfree(current)` for each of them. -/
def kfrees (gone : List (Nat × Taskman.Task)) : List Nat := gone.reverse.flatMap fun x => [x.2.stack, x.1]

def step (fuel : Nat) (w : World) : Event → Option World
  | .spawn_process entry name priority => spawn_process fuel w entry name priority
  | .call e => do
    let m ← Taskman.step w.m e
    let heap ← run (Heap.step fuel) w.heap ((kfrees (gone w.m m)).map .kfree)
    some { m, heap }
  | .heap e => do
    let heap ← Heap.step fuel w.heap e
    some { w with heap }

def boot (mem : Mem) (allocs : Nat → Nat) : World := ⟨Taskman.machineBoot, Heap.boot mem allocs⟩

/-- What the frame allocator and the other clients promise: the heap gets fresh regions of
the area, and the blocks of the tasks are freed by the scheduler only. -/
def Legal (base fuel : Nat) (w : World) : Event → Prop
  | .spawn_process _ _ _ =>
    Supplied base (base + AREA) fuel w.heap.h TASK ∧
    ∀ task, kmalloc_block fuel w.heap TASK = some task → Supplied base (base + AREA) fuel task.2.h STACK_SIZE
  | .call e => ∀ task stack entry name priority, e ≠ .spawn task stack entry name priority
  | .heap (.kmalloc size) => size < 2 ^ 32 - 64 ∧ Supplied base (base + AREA) fuel w.heap.h size
  | .heap (.kfree addr) =>
    w.heap.h.heap ≠ 0 ∧ ∀ p t, w.m.s.tasks p = some t → addr ≠ p ∧ addr ≠ t.stack
  | .heap (.store addr _) =>
    ∃ b ∈ w.heap.live, w.m.s.tasks b.1 = none ∧ b.1 ≤ addr ∧ addr < b.1 + b.2

/-- The blocks of a task with its address and its stack. -/
def blocks (k : Nat × Nat) : List (Nat × Nat) := [(k.2, STACK_SIZE), (k.1, TASK)]

/-- Every task has its record and its stack, and no two blocks share a byte. -/
structure Housed (w : World) : Prop where
  own : ∀ p t, w.m.s.tasks p = some t → ∀ b ∈ blocks (p, t.stack), b ∈ w.heap.live
  apart : w.heap.live.Pairwise fun b c => Apart b.1 b.2 c.1 c.2

/-- The event hands the address to `kfree`. -/
def Frees (gone : List (Nat × Taskman.Task)) (e : Event) (b : Nat × Nat) : Prop :=
  b ∈ (keysOf gone).flatMap blocks ∨ e = .heap (.kfree b.1)

/-- A store of a client into one of its own blocks, such as a task's into its stack. -/
def Event.stores : Event → Bool
  | .heap (.store _ _) => true
  | _ => false

/-- What an event may do to the blocks. Nobody writes into the record of a task that stays, and
the heap does not write into its stack. The scheduler frees the blocks of the tasks that leave,
each of them once, and a block that is freed goes back exactly if it is on the first page. -/
structure Sound (w : World) (e : Event) (w' : World) : Prop where
  records : ∀ p, (w.m.s.tasks p).isSome → (w'.m.s.tasks p).isSome →
    ∀ x, p ≤ x → x < p + TASK → w'.heap.h.mem x = w.heap.h.mem x
  stack : e.stores = false → ∀ p t, w.m.s.tasks p = some t → (w'.m.s.tasks p).isSome →
    ∀ x, t.stack ≤ x → x < t.stack + STACK_SIZE → w'.heap.h.mem x = w.heap.h.mem x
  freed : ∃ gone, w'.m.s.freed = gone ++ w.m.s.freed ∧
    ((keysOf gone).flatMap blocks).Pairwise (fun b c => b.1 ≠ c.1) ∧
    (∀ b ∈ (keysOf gone).flatMap blocks, b ∈ w.heap.live) ∧
    ∀ b ∈ w.heap.live, b ∈ w'.heap.live ↔ (Frees gone e b → ¬ OnFirstPage w.heap.h b.1)

def SoundStep (fuel : Nat) (w : World) (e : Event) : Prop :=
  ∃ w', step fuel w e = some w' ∧ Sound w e w' ∧ Housed w'

/-- What a step adds: regions, and the stacks of new tasks. -/
structure Grows (w w' : World) : Prop where
  regions : w.heap.h.regions <+: w'.heap.h.regions
  spawned : ∃ new : List Nat, w'.m.spawned = w.m.spawned + new.length ∧ new.Nodup ∧
    ∀ s ∈ new, (s, STACK_SIZE) ∈ w'.heap.live ∧ ∀ b ∈ w.heap.live, b.1 ≠ s

/-! ## Steps of one side -/

theorem grows_of (w w' : World) (hregions : w.heap.h.regions <+: w'.heap.h.regions)
    (hspawned : w'.m.spawned = w.m.spawned) : Grows w w' :=
  ⟨hregions, [], hspawned, List.nodup_nil, by simp⟩

theorem sound_heap (w : World) (e : Event) (heap : Heap.World)
    (hrecords : ∀ p, (w.m.s.tasks p).isSome → ∀ x, p ≤ x → x < p + TASK → heap.h.mem x = w.heap.h.mem x)
    (hstacks : e.stores = false → ∀ p t, w.m.s.tasks p = some t →
      ∀ x, t.stack ≤ x → x < t.stack + STACK_SIZE → heap.h.mem x = w.heap.h.mem x)
    (hlive : ∀ b ∈ w.heap.live, b ∈ heap.live ↔ (e = .heap (.kfree b.1) → ¬ OnFirstPage w.heap.h b.1)) :
    Sound w e { w with heap } := by
  refine ⟨fun p hp _ => hrecords p hp, fun he p t ht _ => hstacks he p t ht, [], rfl, List.Pairwise.nil,
    by simp [keysOf], ?_⟩
  intro b hb
  rw [hlive b hb]
  simp [Frees, keysOf]

theorem mem_kfrees (xs : List (Nat × Taskman.Task)) (addr : Nat) :
    addr ∈ kfrees xs ↔ ∃ b ∈ (keysOf xs).flatMap blocks, b.1 = addr := by
  simp only [kfrees, keysOf, blocks, List.mem_flatMap, List.mem_reverse, List.mem_map, List.mem_cons,
    List.not_mem_nil, or_false]
  constructor
  · rintro ⟨x, hx, rfl | rfl⟩
    · exact ⟨_, ⟨_, ⟨x, hx, rfl⟩, Or.inl rfl⟩, rfl⟩
    · exact ⟨_, ⟨_, ⟨x, hx, rfl⟩, Or.inr rfl⟩, rfl⟩
  · rintro ⟨b, ⟨k, ⟨x, hx, rfl⟩, rfl | rfl⟩, rfl⟩
    · exact ⟨x, hx, Or.inl rfl⟩
    · exact ⟨x, hx, Or.inr rfl⟩

/-! ## The invariant -/

/-- The heap and the task list, and the blocks of the tasks on the heap. -/
structure Inv (base : Nat) (w : World) (pages : List Heap.Page) (a : Sched) : Prop where
  heap : HeapInv w.heap pages
  area : ∀ q ∈ w.heap.h.regions, Between base (base + AREA) q
  list : Taskman.Holds base w.m a
  own : ∀ k ∈ a.keys, ∀ b ∈ blocks k, b ∈ w.heap.live

section

variable {base : Nat} {w : World} {pages : List Heap.Page} {a : Sched} (hw : Inv base w pages a)

include hw

theorem Inv.housed : Housed w := by
  refine ⟨?_, hw.heap.pairwise⟩
  intro p t ht b hb
  refine hw.own (p, t.stack) ?_ b hb
  rw [hw.list.rep.mem_keys, Taskman.stackOf, ht]
  rfl

theorem Inv.record (p : Nat) (hp : (w.m.s.tasks p).isSome) : (p, TASK) ∈ w.heap.live := by
  obtain ⟨t, ht⟩ := Option.isSome_iff_exists.mp hp
  exact hw.housed.own p t ht _ (by simp [blocks])

theorem Inv.stack (p : Nat) (t : Taskman.Task) (ht : w.m.s.tasks p = some t) : (t.stack, STACK_SIZE) ∈ w.heap.live :=
  hw.housed.own p t ht _ (by simp [blocks])

/-- A record is never where a stack is: their blocks have different sizes. -/
theorem Inv.record_ne_stack (k l : Nat × Nat) (hk : k ∈ a.keys) (hl : l ∈ a.keys) : k.1 ≠ l.2 := by
  intro heq
  have := hw.heap.unique (k.1, TASK) (l.2, STACK_SIZE) (hw.own k hk _ (by simp [blocks]))
    (hw.own l hl _ (by simp [blocks])) heq
  simp [TASK, STACK_SIZE] at this

theorem Inv.blocks_distinct : (a.keys.flatMap blocks).Pairwise fun b c => b.1 ≠ c.1 := by
  rw [List.pairwise_flatMap]
  refine ⟨?_, ?_⟩
  · intro k hk
    simpa [blocks] using (hw.record_ne_stack k k hk hk).symm
  · have haddrs : a.keys.Pairwise fun k l => k.1 ≠ l.1 := by
      have hnodup := hw.list.rep.nodup
      rw [Sched.addrs, List.Nodup, List.pairwise_map] at hnodup
      exact List.pairwise_map.mpr hnodup
    refine (haddrs.and hw.list.apart).imp_of_mem ?_
    rintro k l hk hl ⟨hne, hapart⟩ b hb c hc
    have hstacks : k.2 ≠ l.2 := by
      unfold Apart STACK_SIZE at hapart
      omega
    simp only [blocks, List.mem_cons, List.not_mem_nil, or_false] at hb hc
    rcases hb with rfl | rfl <;> rcases hc with rfl | rfl
    · exact hstacks
    · exact (hw.record_ne_stack l k hl hk).symm
    · exact hw.record_ne_stack k l hk hl
    · exact hne

/-! ## Calls of other clients -/

theorem Inv.kept_records {heap : Heap.World} (hdata : Heap.BlocksKept w.heap heap) (p : Nat)
    (hp : (w.m.s.tasks p).isSome) (x : Nat) (h1 : p ≤ x) (h2 : x < p + TASK) :
    heap.h.mem x = w.heap.h.mem x := hdata _ (hw.record p hp) x h1 h2

theorem Inv.kept_stacks {heap : Heap.World} (hdata : Heap.BlocksKept w.heap heap) (p : Nat) (t : Taskman.Task)
    (ht : w.m.s.tasks p = some t) (x : Nat) (h1 : t.stack ≤ x) (h2 : x < t.stack + STACK_SIZE) :
    heap.h.mem x = w.heap.h.mem x := hdata _ (hw.stack p t ht) x h1 h2

theorem Inv.step_kmalloc (fuel size : Nat) (hlegal : Legal base fuel w (.heap (.kmalloc size)))
    (hfuel : weight pages + 5 ≤ fuel) :
    ∃ w' pages', step fuel w (.heap (.kmalloc size)) = some w' ∧ Sound w (.heap (.kmalloc size)) w' ∧
      Grows w w' ∧ Inv base w' pages' a ∧ weight pages' ≤ weight pages + 6 := by
  obtain ⟨hsize, hroom⟩ := hlegal
  obtain ⟨r, pages', hr, hheap, hweight, hg⟩ :=
    Heap.kmalloc_gives base (base + AREA) fuel w.heap pages size hw.heap hw.area (by omega) hroom hfuel
  refine ⟨{ w with heap := r.2 }, pages', ?_, ?_, grows_of _ _ hg.regions rfl, ⟨hheap, hg.between, hw.list, ?_⟩,
    by omega⟩
  · simp only [step, Heap.step_kmalloc, hr, Option.map_some, Option.bind_eq_bind, Option.bind_some]
  · refine sound_heap w _ r.2 (hw.kept_records hg.data) (fun _ => hw.kept_stacks hg.data) ?_
    intro b hb
    rw [hg.live]
    simp [hb]
  · intro k hk b hb
    rw [hg.live]
    exact List.mem_cons_of_mem _ (hw.own k hk b hb)

theorem Inv.step_kfree (fuel addr : Nat) (hlegal : Legal base fuel w (.heap (.kfree addr)))
    (hfuel : weight pages + 5 ≤ fuel) :
    ∃ w' pages', step fuel w (.heap (.kfree addr)) = some w' ∧ Sound w (.heap (.kfree addr)) w' ∧
      Grows w w' ∧ Inv base w' pages' a ∧ weight pages' ≤ weight pages + 6 := by
  obtain ⟨hne, hown⟩ := hlegal
  obtain ⟨heap, pages', hh, hheap, hweight, ht⟩ := Heap.kfree_takes fuel w.heap pages addr hw.heap hne hfuel
  refine ⟨{ w with heap }, pages', ?_, ?_, grows_of _ _ (by rw [ht.regions]) rfl,
    ⟨hheap, by rw [ht.regions]; exact hw.area, hw.list, ?_⟩, by omega⟩
  · simp only [step, hh, Option.bind_eq_bind, Option.bind_some]
  · refine sound_heap w _ heap (hw.kept_records ht.data) (fun _ => hw.kept_stacks ht.data) ?_
    intro b hb
    rw [ht.live b hb]
    constructor
    · intro h heq
      cases heq
      exact h rfl
    · rintro h rfl
      exact h rfl
  · rintro ⟨p, k⟩ hk b hb
    refine (ht.live b (hw.own _ hk b hb)).mpr ?_
    have hstack := (hw.list.rep.mem_keys p k).mp hk
    obtain ⟨t, ht, rfl⟩ := Option.map_eq_some_iff.mp hstack
    obtain ⟨hp, hs⟩ := hown p t ht
    simp only [blocks, List.mem_cons, List.not_mem_nil, or_false] at hb
    rcases hb with rfl | rfl
    · exact fun h => absurd h.symm hs
    · exact fun h => absurd h.symm hp

theorem Inv.step_store (fuel addr : Nat) (byte : BitVec 8) (hlegal : Legal base fuel w (.heap (.store addr byte))) :
    ∃ w', step fuel w (.heap (.store addr byte)) = some w' ∧ Sound w (.heap (.store addr byte)) w' ∧
      Grows w w' ∧ Inv base w' pages a := by
  obtain ⟨b, hb, hnone, h1, h2⟩ := hlegal
  refine ⟨_, rfl, ?_, grows_of _ _ (List.prefix_refl _) rfl,
    ⟨hw.heap.store addr byte ⟨b, hb, h1, h2⟩, hw.area, hw.list, hw.own⟩⟩
  refine sound_heap w _ _ ?_ (fun h => absurd h (by simp [Event.stores])) ?_
  · intro p hp x h3 h4
    have hne : b.1 ≠ p := by
      rintro rfl
      simp [hnone] at hp
    have hapart := hw.heap.block_apart b _ hb (hw.record p hp) hne
    unfold Apart at hapart
    exact Function.update_of_ne (by omega) _ _
  · intro c hc
    simp [hc]

/-! ## Calls of the scheduler -/

theorem Inv.step_call (fuel : Nat) (e : Taskman.Event) (hlegal : Legal base fuel w (.call e))
    (hfuel : weight pages + 5 ≤ fuel) :
    ∃ w' pages', step fuel w (.call e) = some w' ∧ Sound w (.call e) w' ∧
      Grows w w' ∧ Inv base w' pages' (Taskman.act a e).2 ∧ weight pages' ≤ weight pages + 6 := by
  have hfits : Taskman.Legal base w.m e := by
    cases e with
    | spawn task stack entry name priority => exact absurd rfl (hlegal task stack entry name priority)
    | _ => trivial
  obtain ⟨s', hs', -, hlist⟩ := Taskman.step_holds base w.m a e hw.list hfits
  have hspawned : (Taskman.moved w.m s' (Taskman.act a e).1 e).spawned = w.m.spawned := by
    rcases Taskman.moved_born w.m s' (Taskman.act a e).1 e with h | ⟨task, stack, entry, name, priority, rfl⟩
    · exact h.2
    · exact absurd rfl (hlegal task stack entry name priority)
  generalize Taskman.moved w.m s' (Taskman.act a e).1 e = m at hs' hlist hspawned
  obtain ⟨xs, hxs⟩ := Taskman.step_tracks w.m m e hs' hlegal
  have hgone : gone w.m m = xs := hxs.gone_eq
  -- The tasks before the call are those that are left and those that are freed.
  have hperm := (hxs.perm hw.list.rep hlist.rep).flatMap_right blocks
  rw [List.flatMap_append] at hperm
  have hdistinct := (hperm.pairwise_iff fun h => Ne.symm h).mp hw.blocks_distinct
  rw [List.pairwise_append] at hdistinct
  obtain ⟨hfreed, -, hcross⟩ := hdistinct
  have hlive : ∀ b ∈ (keysOf xs).flatMap blocks ++ (Taskman.act a e).2.keys.flatMap blocks, b ∈ w.heap.live := by
    intro b hb
    obtain ⟨k, hk, hb⟩ := List.mem_flatMap.mp (hperm.mem_iff.mpr hb)
    exact hw.own k hk b hb
  have hheap : kfrees xs ≠ [] → w.heap.h.heap ≠ 0 := by
    intro hne
    obtain ⟨addr, haddr⟩ := List.exists_mem_of_ne_nil _ hne
    obtain ⟨b, hb, -⟩ := (mem_kfrees xs addr).mp haddr
    exact hw.heap.heap_ne b (hlive b (List.mem_append_left _ hb))
  obtain ⟨heap, pages', hrun, hheap, hweight, ht⟩ :=
    Heap.kfree_all_takes fuel w.heap pages (kfrees xs) hw.heap hheap hfuel
  have hkept : ∀ b ∈ (Taskman.act a e).2.keys.flatMap blocks, b.1 ∉ kfrees xs := by
    intro b hb hmem
    obtain ⟨c, hc, heq⟩ := (mem_kfrees xs b.1).mp hmem
    exact hcross c hc b hb heq
  have hstays : ∀ p t, m.s.tasks p = some t → ∀ b ∈ blocks (p, t.stack), ∀ x, b.1 ≤ x → x < b.1 + b.2 →
      heap.h.mem x = w.heap.h.mem x := by
    intro p t htask b hb x h1 h2
    have hmem : b ∈ (Taskman.act a e).2.keys.flatMap blocks := by
      refine List.mem_flatMap.mpr ⟨(p, t.stack), ?_, hb⟩
      rw [hlist.rep.mem_keys, Taskman.stackOf, htask]
      rfl
    exact ht.data _ (hlive b (List.mem_append_right _ hmem)) (hkept b hmem) x h1 h2
  refine ⟨{ m, heap }, pages', ?_, ⟨?_, ?_, xs, hxs.freed, hfreed, ?_, ?_⟩,
    grows_of _ _ (by rw [ht.regions]) hspawned, ⟨hheap, by rw [ht.regions]; exact hw.area, hlist, ?_⟩, by omega⟩
  · simp only [step, hs', hgone, hrun, Option.bind_eq_bind, Option.bind_some]
  · intro p _ hp'
    obtain ⟨t, htask⟩ := Option.isSome_iff_exists.mp hp'
    exact hstays p t htask (p, TASK) (by simp [blocks])
  · intro _ p t ht hp'
    obtain ⟨t', htask⟩ := Option.isSome_iff_exists.mp hp'
    have hsame : t'.stack = t.stack := by
      have hkeep := hxs.stays p t'.stack (by rw [Taskman.stackOf, htask]; rfl)
      rw [Taskman.stackOf, ht] at hkeep
      exact (Option.some.inj hkeep).symm
    rw [← hsame]
    exact hstays p t' htask (t'.stack, STACK_SIZE) (by simp [blocks])
  · exact fun b hb => hlive b (List.mem_append_left _ hb)
  · intro b hb
    rw [ht.live b hb, mem_kfrees]
    refine imp_congr_left ?_
    simp only [Frees, reduceCtorEq, or_false]
    constructor
    · rintro ⟨c, hc, heq⟩
      rw [← hw.heap.unique c b (hlive c (List.mem_append_left _ hc)) hb heq]
      exact hc
    · exact fun h => ⟨b, h, rfl⟩
  · intro k hk b hb
    have hmem := List.mem_flatMap.mpr ⟨k, hk, hb⟩
    exact (ht.live b (hlive b (List.mem_append_right _ hmem))).mpr fun h => absurd h (hkept b hmem)

/-! ## `spawn_process` -/

theorem Inv.step_spawn (fuel entry : Nat) (name : String) (priority : Nat)
    (hlegal : Legal base fuel w (.spawn_process entry name priority)) (hfuel : weight pages + 11 ≤ fuel) :
    ∃ w' pages' a', step fuel w (.spawn_process entry name priority) = some w' ∧
      Sound w (.spawn_process entry name priority) w' ∧ Grows w w' ∧ Inv base w' pages' a' ∧
      weight pages' ≤ weight pages + 6 := by
  obtain ⟨hroom, hroom'⟩ := hlegal
  obtain ⟨r, pages1, hr, hheap1, hweight1, hg⟩ :=
    Heap.kmalloc_gives base (base + AREA) fuel w.heap pages TASK hw.heap hw.area (by decide) hroom (by omega)
  obtain ⟨q, pages2, hq, hheap2, hweight2, hg'⟩ :=
    Heap.kmalloc_gives base (base + AREA) fuel r.2 pages1 STACK_SIZE hheap1 hg.between (by decide) (hroom' r hr)
      (by omega)
  have hlive : q.2.live = (q.1, STACK_SIZE) :: (r.1, TASK) :: w.heap.live := by rw [hg'.live, hg.live]
  have hdistinct := hheap2.distinct
  have hapart := hheap2.pairwise
  rw [hlive, List.pairwise_cons, List.pairwise_cons] at hdistinct hapart
  -- The new blocks are where no task has its own.
  have hfree : w.m.s.tasks r.1 = none := by
    rw [← Option.not_isSome_iff_eq_none]
    exact fun hsome => hdistinct.2.1 _ (hw.record r.1 hsome) rfl
  have hfits : Taskman.Legal base w.m (.spawn r.1 q.1 entry name priority) := by
    refine ⟨hg.pos, hfree, hg'.pos, hg'.lo, hg'.hi, ?_⟩
    intro p t ht
    exact hapart.1 _ (List.mem_cons_of_mem _ (hw.housed.own p t ht (t.stack, STACK_SIZE) (by simp [blocks])))
  obtain ⟨s', hs', -, hlist⟩ := Taskman.step_holds base w.m a _ hw.list hfits
  have hspawned : (Taskman.moved w.m s' (Taskman.act a (.spawn r.1 q.1 entry name priority)).1
      (.spawn r.1 q.1 entry name priority)).spawned = w.m.spawned + 1 := rfl
  generalize Taskman.moved w.m s' _ _ = m at hs' hlist hspawned
  have hfreed : m.s.freed = w.m.s.freed := by
    obtain ⟨c, hc, hm⟩ := Option.bind_eq_some_iff.mp hs'
    have hlen := hw.list.length_le
    obtain ⟨s1, hs1, hsame, -⟩ := Taskman.spawn_process_spec w.m.s a r.1 q.1 entry name priority hw.list.rep
      hg.pos hfree hg'.pos (by omega)
    obtain rfl : (r.1, s1) = c := Option.some.inj (hs1.symm.trans hc)
    rw [← Option.some.inj hm, if_neg hg.pos]
    exact hsame
  have hdata : ∀ b ∈ w.heap.live, ∀ x, b.1 ≤ x → x < b.1 + b.2 → q.2.h.mem x = w.heap.h.mem x := by
    intro b hb x h1 h2
    rw [hg'.data b (by rw [hg.live]; exact List.mem_cons_of_mem _ hb) x h1 h2]
    exact hg.data b hb x h1 h2
  refine ⟨⟨m, q.2⟩, pages2, _, ?_, ⟨?_, ?_, [], hfreed, List.Pairwise.nil, by simp [keysOf], ?_⟩,
    ⟨hg.regions.trans hg'.regions, [q.1], hspawned, List.nodup_singleton _, ?_⟩,
    ⟨hheap2, hg'.between, hlist, ?_⟩, by omega⟩
  · simp only [step, spawn_process, hr, hq, hs', Option.bind_eq_bind, Option.bind_some, if_neg hg.pos,
      if_neg hg'.pos]
  · exact fun p hp _ => hdata _ (hw.record p hp)
  · exact fun _ p t ht _ => hdata _ (hw.stack p t ht)
  · intro b hb
    simp [hlive, hb, Frees, keysOf]
  · intro s hs
    rw [List.mem_singleton.mp hs]
    refine ⟨by simp [hlive], ?_⟩
    exact fun b hb => (hdistinct.1 b (List.mem_cons_of_mem _ hb)).symm
  · intro k hk b hb
    rw [hlive]
    have hkeys : (Taskman.act a (.spawn r.1 q.1 entry name priority)).2.keys = a.keys ++ [(r.1, q.1)] := by
      simp [Taskman.act, Sched.keys, Sched.spawn, Taskman.newTask]
    rw [hkeys, List.mem_append, List.mem_singleton] at hk
    rcases hk with hk | rfl
    · exact List.mem_cons_of_mem _ (List.mem_cons_of_mem _ (hw.own k hk b hb))
    · simp only [blocks, List.mem_cons, List.not_mem_nil, or_false] at hb
      rcases hb with rfl | rfl
      · exact List.mem_cons_self
      · exact List.mem_cons_of_mem _ List.mem_cons_self

theorem Inv.step (fuel : Nat) (e : Event) (hlegal : Legal base fuel w e) (hfuel : weight pages + 11 ≤ fuel) :
    ∃ w' pages' a', step fuel w e = some w' ∧ Sound w e w' ∧ Grows w w' ∧ Inv base w' pages' a' ∧
      weight pages' ≤ weight pages + 6 := by
  cases e with
  | spawn_process entry name priority => exact hw.step_spawn fuel entry name priority hlegal hfuel
  | call e =>
    obtain ⟨w', pages', h⟩ := hw.step_call fuel e hlegal (by omega)
    exact ⟨w', pages', _, h⟩
  | heap e =>
    cases e with
    | kmalloc size =>
      obtain ⟨w', pages', h⟩ := hw.step_kmalloc fuel size hlegal (by omega)
      exact ⟨w', pages', a, h⟩
    | kfree addr =>
      obtain ⟨w', pages', h⟩ := hw.step_kfree fuel addr hlegal (by omega)
      exact ⟨w', pages', a, h⟩
    | store addr byte =>
      obtain ⟨w', h1, h2, h3, h4⟩ := hw.step_store fuel addr byte hlegal
      exact ⟨w', pages, a, h1, h2, h3, h4, by omega⟩

end

/-! ## Runs -/

theorem boot_inv (base : Nat) (mem : Mem) (allocs : Nat → Nat) : Inv base (boot mem allocs) [] ⟨[], 0, 1⟩ := by
  refine ⟨Heap.boot_inv mem allocs, ?_, Taskman.holds_boot base, ?_⟩
  · intro q hq
    simp [boot, Heap.boot] at hq
  · intro k hk
    simp [Sched.keys] at hk

/-- The first page of the heap is not larger than a stack. -/
def SmallFirstPage (w : World) : Prop :=
  ∀ r, w.heap.h.regions.head? = some r → r.2 * FRAME_SIZE ≤ STACK_SIZE

/-- There is a live block for the stack of every task that was ever spawned. -/
def Leaks (w : World) : Prop :=
  ∃ xs : List Nat, xs.length = w.m.spawned ∧ xs.Nodup ∧ ∀ s ∈ xs, (s, STACK_SIZE) ∈ w.heap.live

theorem SmallFirstPage.before {w w' : World} (h : SmallFirstPage w') (hg : Grows w w') : SmallFirstPage w := by
  obtain ⟨rs, hrs⟩ := hg.regions
  intro r hr
  refine h r ?_
  rw [← hrs, List.head?_append, hr]
  rfl

theorem Leaks.step {base : Nat} {w w' : World} {pages : List Heap.Page} {a : Sched} {e : Event}
    (hleaks : Leaks w) (hw : Inv base w pages a) (hs : Sound w e w') (hg : Grows w w') (hfirst : SmallFirstPage w) :
    Leaks w' := by
  obtain ⟨xs, hlen, hnodup, hxs⟩ := hleaks
  obtain ⟨new, hspawned, hnew, hfresh⟩ := hg.spawned
  obtain ⟨xs', -, -, -, hlive⟩ := hs.freed
  refine ⟨xs ++ new, by rw [List.length_append, hlen, hspawned], ?_, ?_⟩
  · refine List.Nodup.append hnodup hnew ?_
    intro s hs hs'
    exact (hfresh s hs').2 _ (hxs s hs) rfl
  · intro s hs
    rcases List.mem_append.mp hs with hs | hs
    · refine (hlive _ (hxs s hs)).mpr fun _ hpage => ?_
      obtain ⟨r, hr, hlt⟩ := hw.heap.first_page_fits _ (hxs s hs) hpage
      exact absurd (hfirst r hr) (Nat.not_le.mpr hlt)
    · exact (hfresh s hs).1

theorem run_all (base : Nat) (mem : Mem) (allocs : Nat → Nat) (es : List Event) (fuel : Nat)
    (hfuel : 6 * es.length + 11 ≤ fuel) (hes : Along (step fuel) (Legal base fuel) (boot mem allocs) es) :
    Along (step fuel) (SoundStep fuel) (boot mem allocs) es ∧
    ∃ w, run (step fuel) (boot mem allocs) es = some w ∧
      ∃ pages a, Inv base w pages a ∧ (SmallFirstPage w → Leaks w) := by
  have hcount := run_count (fun n w => ∃ pages a, Inv base w pages a ∧ (SmallFirstPage w → Leaks w) ∧
      weight pages ≤ 6 * n)
    (Q := SoundStep fuel) es.length ?_ 0 (boot mem allocs) es (by omega)
    ⟨[], _, boot_inv base mem allocs, fun _ => ⟨[], rfl, List.nodup_nil, by simp⟩, by simp [weight]⟩ hes
  · obtain ⟨hsound, w, hw, pages, a, hinv, hleaks, -⟩ := hcount
    exact ⟨hsound, w, hw, pages, a, hinv, hleaks⟩
  · rintro n w e hn ⟨pages, a, hinv, hleaks, hweight⟩ hlegal
    obtain ⟨w', pages', a', hw', hsound, hg, hinv', hweight'⟩ := hinv.step fuel e hlegal (by omega)
    refine ⟨⟨w', hw', hsound, hinv'.housed⟩, w', hw', pages', a', hinv', ?_, by omega⟩
    intro hfirst
    have hbefore := hfirst.before hg
    exact (hleaks hbefore).step hinv hsound hg hbefore

/-- In every run of the scheduler and of other clients over the heap, each task has its record
and its stack for itself, and the scheduler frees the blocks of each task that leaves once. A
block goes back to the heap exactly if it is freed and on the first page. -/
theorem run_housed (base : Nat) (mem : Mem) (allocs : Nat → Nat) (es : List Event) (fuel : Nat)
    (hfuel : 6 * es.length + 11 ≤ fuel) (hes : Along (step fuel) (Legal base fuel) (boot mem allocs) es) :
    Along (step fuel) (SoundStep fuel) (boot mem allocs) es ∧
    ∃ w ring, run (step fuel) (boot mem allocs) es = some w ∧ Taskman.RingOk w.m.s ring ∧ Housed w := by
  obtain ⟨hsound, w, hw, pages, a, hinv, -⟩ := run_all base mem allocs es fuel hfuel hes
  exact ⟨hsound, w, _, hw, hinv.list.rep.ringOk, hinv.housed⟩

/-! ## Two tasks, of which one is killed -/

/-- Empty memory, and regions that start sixteen frames apart. -/
def twoBoot : World := boot (fun _ => 0) fun i => 0x100000 + i * 0x10000

def killed : List Event :=
  [.spawn_process 0x4000 "a" 1, .spawn_process 0x5000 "b" 1, .call .start_scheduler, .call (.kill_process 2),
    .call .yield]

/-- What the heap asked for, and the next answer. -/
def supply (h : Heap.State) : List (Nat × Nat) × Nat := (h.regions, h.allocs h.regions.length)

theorem supplied_of {lo hi fuel size : Nat} {h : Heap.State} (rs : List (Nat × Nat)) (answer : Nat)
    (hsupply : supply h = (rs, answer)) (hok : Heap.RegionOk answer (Heap.num_pages size))
    (hapart : ∀ r ∈ rs, Apart r.1 (r.2 * FRAME_SIZE) answer (Heap.num_pages size * FRAME_SIZE))
    (hbetween : lo ≤ answer ∧ answer + Heap.num_pages size * FRAME_SIZE ≤ hi) : Supplied lo hi fuel h size := by
  obtain ⟨rfl, rfl⟩ := Prod.mk.inj hsupply
  exact fun _ => ⟨⟨hok, hapart⟩, hbetween⟩

theorem killed_legal : Along (step 50) (Legal 0x100000 50) twoBoot killed := by
  have h1 : (kmalloc_block 50 twoBoot.heap TASK).map (fun task => supply task.2.h) =
      some ([(0x100000, 1)], 0x110000) := by
    decide +kernel
  have h2 : (run (step 50) twoBoot (killed.take 1)).map (fun w => supply w.heap.h) =
      some ([(0x100000, 1), (0x110000, 9)], 0x120000) := by
    decide +kernel
  have h3 : ((run (step 50) twoBoot (killed.take 1)).bind fun w => kmalloc_block 50 w.heap TASK).map
      (fun task => supply task.2.h) = some ([(0x100000, 1), (0x110000, 9)], 0x120000) := by
    decide +kernel
  have hnospawn : ∀ w, Along (step 50) (Legal 0x100000 50) w (killed.drop 2) := by
    intro w
    refine ⟨?_, fun _ _ => ⟨?_, fun _ _ => ⟨?_, fun _ _ => trivial⟩⟩⟩
    all_goals
      intro task stack entry name priority heq
      cases heq
  have hone : ∀ w, step 50 twoBoot (.spawn_process 0x4000 "a" 1) = some w →
      run (step 50) twoBoot (killed.take 1) = some w := by
    intro w hw
    rw [killed, List.take_succ_cons, List.take_zero, run_cons, hw]
    rfl
  refine ⟨⟨?_, ?_⟩, fun w hw => ⟨⟨?_, ?_⟩, fun v _ => hnospawn v⟩⟩
  · exact supplied_of [] 0x100000 rfl ⟨by decide, by decide, by decide⟩ (by decide) (by decide)
  · intro task htask
    rw [htask, Option.map_some, Option.some.injEq] at h1
    exact supplied_of _ _ h1 ⟨by decide, by decide, by decide⟩ (by decide) (by decide)
  · rw [hone w hw, Option.map_some, Option.some.injEq] at h2
    exact supplied_of _ _ h2 ⟨by decide, by decide, by decide⟩ (by decide) (by decide)
  · intro task htask
    rw [hone w hw, Option.bind_some, htask, Option.map_some, Option.some.injEq] at h3
    exact supplied_of _ _ h3 ⟨by decide, by decide, by decide⟩ (by decide) (by decide)

theorem run_housed_killed :
    Along (step 50) (SoundStep 50) twoBoot killed ∧
    ∃ w ring, run (step 50) twoBoot killed = some w ∧ Taskman.RingOk w.m.s ring ∧ Housed w :=
  run_housed 0x100000 _ _ killed 50 (by decide) killed_legal

/-- If the first page of the heap is not larger than a stack, no stack ever goes back to the
heap, whether its task was killed or not. -/
theorem run_leaks (base : Nat) (mem : Mem) (allocs : Nat → Nat) (es : List Event) (fuel : Nat) (w : World)
    (hfuel : 6 * es.length + 11 ≤ fuel) (hes : Along (step fuel) (Legal base fuel) (boot mem allocs) es)
    (hrun : run (step fuel) (boot mem allocs) es = some w) (hfirst : SmallFirstPage w) : Leaks w := by
  obtain ⟨-, v, hv, pages, a, -, hleaks⟩ := run_all base mem allocs es fuel hfuel hes
  obtain rfl : v = w := Option.some.inj (hv.symm.trans hrun)
  exact hleaks hfirst

theorem run_leaks_killed : ∃ w, run (step 50) twoBoot killed = some w ∧ w.m.spawned = 2 ∧ Leaks w := by
  have h : (run (step 50) twoBoot killed).map (fun w => (w.heap.h.regions.head?, w.m.spawned)) =
      some (some (0x100000, 1), 2) := by
    decide +kernel
  obtain ⟨w, hw, heq⟩ := Option.map_eq_some_iff.mp h
  obtain ⟨hhead, hspawned⟩ := Prod.mk.inj heq
  refine ⟨w, hw, hspawned, run_leaks 0x100000 _ _ killed 50 w (by decide) killed_legal hw ?_⟩
  intro r hr
  rw [hhead, Option.some.injEq] at hr
  rw [← hr]
  decide

end SlayerOS.TaskMemory
