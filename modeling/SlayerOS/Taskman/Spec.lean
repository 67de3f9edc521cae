import SlayerOS.Taskman.Code
import SlayerOS.Lib.Bytes
import SlayerOS.Lib.Ring
import SlayerOS.Lib.Run

/-!
# What the task list is for

The abstract task list is a list of tasks in the order of their spawns, and the current
one of them. `Rep` says how the records and their links hold it. The machine adds who is
running: an entry that is called runs until it returns.
-/

open SlayerOS.Bytes SlayerOS.Ring

namespace SlayerOS.Taskman

/-- The record without its links. -/
def Task.body (t : Task) : Task := { t with next := 0, prev := 0 }

structure Sched where
  /-- The addresses and the records, from the head on. -/
  ring : List (Nat × Task)
  current : Nat
  next_pid : Nat
deriving DecidableEq, Repr

def Sched.addrs (a : Sched) : List Nat := a.ring.map Prod.fst

/-! ## The operations on lists -/

def dead (x : Nat × Task) : Bool := x.2.state = .TERMINATED
def ready (x : Nat × Task) : Bool := runnable x.2.state

/-- The tasks behind `p`, and the ones before it. -/
def after (p : Nat) (ring : List (Nat × Task)) : List (Nat × Task) := (ring.dropWhile (·.1 ≠ p)).tail
def before (p : Nat) (ring : List (Nat × Task)) : List (Nat × Task) := ring.takeWhile (·.1 ≠ p)

/-- The other tasks, in the order in which the links reach them from `p`. -/
def others (p : Nat) (ring : List (Nat × Task)) : List (Nat × Task) := after p ring ++ before p ring

/-- The task at `p` leaves, and `current` moves on to the one behind it. -/
def Sched.remove (a : Sched) (p : Nat) : Sched :=
  { a with
    ring := before p a.ring ++ after p a.ring
    current := if a.current = p then ((others p a.ring).map Prod.fst).headD 0 else a.current }

/-- The terminated ones among the tasks leave, one after the other. -/
def Sched.reap (a : Sched) : List (Nat × Task) → Sched
  | [] => a
  | x :: xs => (if dead x then a.remove x.1 else a).reap xs

/-- `cleanup_terminated`: a terminated head leaves and that is all, or else all terminated
tasks leave. -/
def Sched.sweep (a : Sched) : Sched :=
  match a.ring with
  | [] => a
  | h :: t => if dead h then a.remove h.1 else a.reap t

def withState (p : Nat) (v : TaskState) (x : Nat × Task) : Nat × Task :=
  if x.1 = p then (x.1, { x.2 with state := v }) else x

def Sched.setState (a : Sched) (p : Nat) (v : TaskState) : Sched :=
  { a with ring := a.ring.map (withState p v) }

/-- The task that `yield` hands over to: the first runnable one behind the current one. -/
def Sched.pick (a : Sched) : Option Nat :=
  if a.current = 0 then none else ((others a.current a.ring).find? ready).map Prod.fst

/-- The task that `start_scheduler` hands over to: the first runnable one, or the head. -/
def Sched.first (a : Sched) : Nat := ((a.ring.find? ready).map Prod.fst).getD (a.addrs.headD 0)

def Sched.handOver (a : Sched) (p : Nat) : Sched := { a.setState p .ACTIVE with current := p }

/-- `yield`, with the task whose entry it calls, or null. -/
def Sched.yield (a : Sched) : Nat × Sched :=
  match a.sweep.pick with
  | none => (0, a.sweep)
  | some p => (p, a.sweep.handOver p)

/-- `kill_current` and `sleep`. -/
def Sched.giveUp (a : Sched) (v : TaskState) : Nat × Sched :=
  if a.current = 0 then (0, a) else (a.setState a.current v).yield

def Sched.start (a : Sched) : Nat × Sched :=
  if a.ring = [] then (0, a) else (a.first, a.handOver a.first)

/-- The first task with that `pid`, or null. -/
def Sched.byPid (a : Sched) (pid : Nat) : Nat :=
  ((a.ring.find? fun x => x.2.pid = pid).map Prod.fst).getD 0

/-- The record of a new task. -/
def newTask (stack entry pid : Nat) (name : String) (priority : Nat) : Task :=
  { ctx := { rip := entry, cs := 0x08, ss := 0x10, rflags := 0x202, rsp := (stack + STACK_SIZE) % 2 ^ 64 }
    stack, pid, state := .READY, next := 0, prev := 0, name, priority, start_time := 0, cpu_time := 0 }

def Sched.spawn (a : Sched) (task : Nat) (t : Task) : Sched :=
  { a with ring := a.ring ++ [(task, t)], next_pid := (a.next_pid + 1) % 2 ^ 32 }

/-! ## The list in memory -/

def nextOf (s : State) (p : Nat) : Nat := ((s.tasks p).map Task.next).getD 0
def prevOf (s : State) (p : Nat) : Nat := ((s.tasks p).map Task.prev).getD 0
def bodyOf (s : State) (p : Nat) : Option Task := (s.tasks p).map Task.body

/-- The records are those of the list, and their links make a ring of it. -/
structure Rep (s : State) (a : Sched) : Prop where
  nodup : a.addrs.Nodup
  null : 0 ∉ a.addrs
  bodies : ∀ p t, bodyOf s p = some t ↔ (p, t) ∈ a.ring
  ring : IsRing (nextOf s) (prevOf s) a.addrs
  head : s.process_list.head = a.addrs.headD 0
  tail : s.process_list.tail = a.addrs.getLastD 0
  count : s.process_list.count = a.ring.length
  small : a.ring.length < 2 ^ 32
  current : s.process_list.current = a.current
  linked : a.current = 0 ∨ a.current ∈ a.addrs
  next_pid : s.process_list.next_pid = a.next_pid

/-- The addresses from `p` on, along the links. -/
def along (s : State) : Nat → Nat → List Nat
  | 0, _ => []
  | n + 1, p => p :: along s n (nextOf s p)

/-- The list that a state holds. -/
def view (s : State) : Sched :=
  { ring := (along s s.process_list.count s.process_list.head).filterMap
      fun p => (bodyOf s p).map fun t => (p, t)
    current := s.process_list.current
    next_pid := s.process_list.next_pid }

/-! ## The machine -/

structure Machine where
  s : State
  /-- The spawn number of the task at an address, and the number of spawns. -/
  born : Nat → Nat
  spawned : Nat
  /-- The entries that run, innermost first: the address and the spawn number. -/
  running : List (Nat × Nat)
  /-- The spawn numbers of the entries that were called, latest first. -/
  started : List Nat

inductive Event where
  | spawn (task stack entry : Nat) (name : String) (priority : Nat)
  | kill_process (pid : Nat)
  | kill_current
  | sleep
  | yield
  | start_scheduler
  /-- The innermost entry returns. -/
  | ret
deriving DecidableEq, Repr

/-- The call of an entry, if there is one. -/
def enter (m : Machine) (r : Nat × State) : Machine :=
  if r.1 = 0 then { m with s := r.2 }
  else { m with
    s := r.2
    running := (r.1, m.born r.1) :: m.running
    started := m.born r.1 :: m.started }

def step (m : Machine) : Event → Option Machine
  | .spawn task stack entry name priority => do
    let r ← spawn_process m.s task stack entry name priority
    some (if r.1 = 0 then { m with s := r.2 }
      else { m with s := r.2, born := Function.update m.born task m.spawned, spawned := m.spawned + 1 })
  | .kill_process pid => do
    let s ← kill_process m.s pid
    some { m with s }
  | .kill_current => (kill_current m.s).map (enter m)
  | .sleep => (sleep m.s).map (enter m)
  | .yield => (yield m.s).map (enter m)
  | .start_scheduler => (start_scheduler m.s).map (enter m)
  | .ret => some { m with running := m.running.tail }

def machineBoot : Machine := { s := boot, born := fun _ => 0, spawned := 0, running := [], started := [] }

/-- The area of the heap: as many frames as a `u32` counts. -/
def AREA : Nat := 2 ^ 32 * 4096

/-- `kmalloc` returns fresh blocks of the area at `base`. -/
def Legal (base : Nat) (m : Machine) : Event → Prop
  | .spawn task stack _ _ _ =>
    task ≠ 0 ∧ m.s.tasks task = none ∧ stack ≠ 0 ∧ base ≤ stack ∧ stack + STACK_SIZE ≤ base + AREA ∧
    ∀ p t, m.s.tasks p = some t → Apart stack STACK_SIZE t.stack STACK_SIZE
  | _ => True

/-- The process list is a ring of the tasks in `ring`, and the loops see each of them once. -/
structure RingOk (s : State) (ring : List Nat) : Prop where
  nodup : ring.Nodup
  count : s.process_list.count = ring.length
  allocated : ∀ p, (s.tasks p).isSome ↔ p ∈ ring
  empty : s.process_list.count = 0 →
    s.process_list.head = 0 ∧ s.process_list.tail = 0 ∧ s.process_list.current = 0
  visits : along s s.process_list.count s.process_list.head = ring
  back : (nextOf s)^[s.process_list.count] s.process_list.head = s.process_list.head
  inverse : ∀ p ∈ ring, nextOf s p ∈ ring ∧ prevOf s (nextOf s p) = p
  tail : s.process_list.count ≠ 0 →
    s.process_list.tail ∈ ring ∧ nextOf s s.process_list.tail = s.process_list.head
  current : s.process_list.current = 0 ∨ s.process_list.current ∈ ring
  by_pid : ∀ pid, get_by_pid s pid =
    some ((ring.find? fun p => (s.tasks p).map Task.pid == some pid).getD 0)
  active : get_active_count s =
    some (ring.countP fun p => (s.tasks p).map (fun t => runnable t.state) == some true)

/-- The tasks that leave are terminated and freed. -/
def LeavesDead (m m' : Machine) : Prop :=
  ∃ gone, m'.s.freed = gone ++ m.s.freed ∧ (∀ x ∈ gone, x.2.state = .TERMINATED) ∧
    ∀ p, (m.s.tasks p).isSome → (m'.s.tasks p).isSome ∨ p ∈ gone.map Prod.fst

/-! ## Spawn numbers -/

def Event.spawns : Event → Bool
  | .spawn _ _ _ _ _ => true
  | _ => false

/-- The tasks that a call freed, the last one first. -/
def gone (m m' : Machine) : List (Nat × Task) := m'.s.freed.take (m'.s.freed.length - m.s.freed.length)

/-- The spawn numbers of the tasks that the events free. -/
def departed : Machine → List Event → List Nat
  | _, [] => []
  | m, e :: es =>
    match step m e with
    | none => []
    | some m' => (gone m m').map (fun x => m.born x.1) ++ departed m' es

/-- A spawn returns the block that `kmalloc` gave it, as the tail of the list. -/
def Enlists (m : Machine) (m' : Machine) : Event → Prop
  | .spawn task stack entry name priority =>
    task ≠ 0 ∧ spawn_process m.s task stack entry name priority = some (task, m'.s) ∧
    m'.s.process_list.tail = task ∧ m'.born task = m.spawned
  | _ => True

/-- The step takes out only terminated tasks, and puts in what it spawns. -/
def Tidy (m : Machine) (e : Event) : Prop :=
  ∀ m', step m e = some m' → LeavesDead m m' ∧ Enlists m m' e

end SlayerOS.Taskman
