import Mathlib.Logic.Function.Basic
import Mathlib.Algebra.Order.Group.Nat

/-!
# The task list (`scheduler.cc`)

A task is found by its address, and an address without a task is memory that is not
allocated: to dereference it is a fault, and the result is `none`. The results of the
`kmalloc` calls are inputs. `yield` and `start_scheduler` end with the call of the entry
of a task, so here they return that task, or null.
-/

namespace SlayerOS.Taskman

def STACK_SIZE : Nat := 32768

structure Context where
  r15 : Nat := 0
  r14 : Nat := 0
  r13 : Nat := 0
  r12 : Nat := 0
  r11 : Nat := 0
  r10 : Nat := 0
  r9 : Nat := 0
  r8 : Nat := 0
  rsi : Nat := 0
  rdi : Nat := 0
  rbp : Nat := 0
  rdx : Nat := 0
  rcx : Nat := 0
  rbx : Nat := 0
  rax : Nat := 0
  rip : Nat := 0
  cs : Nat := 0
  rflags : Nat := 0
  rsp : Nat := 0
  ss : Nat := 0
deriving DecidableEq, Repr

inductive TaskState where
  | ACTIVE
  | WAITING
  | TERMINATED
  | READY
deriving DecidableEq, Repr

structure Task where
  ctx : Context
  stack : Nat
  pid : Nat
  state : TaskState
  next : Nat
  prev : Nat
  name : String
  priority : Nat
  start_time : Nat
  cpu_time : Nat
deriving DecidableEq, Repr

structure ProcessList where
  head : Nat
  tail : Nat
  current : Nat
  count : Nat
  next_pid : Nat
deriving DecidableEq, Repr

structure State where
  process_list : ProcessList
  scheduler_running : Bool
  tasks : Nat → Option Task
  /-- The tasks that were freed, with their addresses, latest first. -/
  freed : List (Nat × Task)

/-- `process_list` and the flag at boot. -/
def boot : State :=
  { process_list := ⟨0, 0, 0, 0, 1⟩, scheduler_running := false, tasks := fun _ => none, freed := [] }

/-- A store to a field of the task at `p`. -/
def modify (s : State) (p : Nat) (f : Task → Task) : Option State := do
  let t ← s.tasks p
  some { s with tasks := Function.update s.tasks p (some (f t)) }

def set_next (s : State) (p v : Nat) : Option State := modify s p fun t => { t with next := v }
def set_prev (s : State) (p v : Nat) : Option State := modify s p fun t => { t with prev := v }
def set_state (s : State) (p : Nat) (v : TaskState) : Option State := modify s p fun t => { t with state := v }

/-! ## The ring -/

def link_process (s : State) (task : Nat) : Option State := do
  let s ← if s.process_list.head = 0 then do
      let s := { s with process_list := { s.process_list with head := task, tail := task } }
      let s ← set_next s task task
      set_prev s task task
    else do
      let s ← set_next s task s.process_list.head
      let s ← set_prev s task s.process_list.tail
      let s ← set_next s s.process_list.tail task
      let s ← set_prev s s.process_list.head task
      some { s with process_list := { s.process_list with tail := task } }
  some { s with process_list := { s.process_list with count := (s.process_list.count + 1) % 2 ^ 32 } }

def unlink_process (s : State) (task : Nat) : Option State := do
  let s ← if s.process_list.count = 1 then
      some { s with process_list := { s.process_list with head := 0, tail := 0, current := 0 } }
    else do
      let t ← s.tasks task
      let s ← set_next s t.prev t.next
      let t ← s.tasks task
      let s ← set_prev s t.next t.prev
      let t ← s.tasks task
      let l := s.process_list
      let l := if l.head = task then { l with head := t.next } else l
      let l := if l.tail = task then { l with tail := t.prev } else l
      let l := if l.current = task then { l with current := t.next } else l
      some { s with process_list := l }
  some { s with process_list :=
    { s.process_list with count := (s.process_list.count + 2 ^ 32 - 1) % 2 ^ 32 } }

/-- `kfree(current->stack)` and `kfree(current)`. -/
def free_task (s : State) (p : Nat) : Option State := do
  let t ← s.tasks p
  some { s with tasks := Function.update s.tasks p none, freed := (p, t) :: s.freed }

/-- One round of the loop of `cleanup_terminated`: the task is unlinked and freed if it is
terminated. -/
def reap (s : State) (current : Nat) : Option State := do
  let t ← s.tasks current
  if t.state = .TERMINATED then do
    let s ← unlink_process s current
    free_task s current
  else some s

/-- The `do` loop, with fuel. -/
def cleanup_from : Nat → State → Nat → Option State
  | 0, _, _ => none
  | fuel + 1, s, current => do
    let t ← s.tasks current
    let next := t.next
    let s ← reap s current
    if next ≠ s.process_list.head ∧ s.process_list.count > 0 then cleanup_from fuel s next else some s

def cleanup_terminated (s : State) : Option State :=
  if s.process_list.head = 0 then some s
  else cleanup_from (s.process_list.count + 1) s s.process_list.head

/-! ## Processes -/

/-- `task` and `stack` are what the two calls of `kmalloc` return. The result is the new
task, or null. -/
def spawn_process (s : State) (task stack entry : Nat) (name : String) (priority : Nat) :
    Option (Nat × State) :=
  if task = 0 then some (0, s)
  else if stack = 0 then some (0, s)
  else do
    let stack_top := (stack + STACK_SIZE) % 2 ^ 64
    let ctx : Context := { rip := entry, cs := 0x08, ss := 0x10, rflags := 0x202, rsp := stack_top }
    let pid := s.process_list.next_pid
    let s := { s with process_list := { s.process_list with next_pid := (pid + 1) % 2 ^ 32 } }
    -- `link_process` sets the links.
    let t : Task := { ctx, stack, pid, state := .READY, next := 0, prev := 0, name, priority,
                      start_time := 0, cpu_time := 0 }
    let s := { s with tasks := Function.update s.tasks task (some t) }
    let s ← link_process s task
    some (task, s)

/-- The `do` loop of `get_by_pid`, with fuel. -/
def find_pid (s : State) (pid : Nat) : Nat → Nat → Option Nat
  | 0, _ => none
  | fuel + 1, current => do
    let t ← s.tasks current
    if t.pid = pid then some current
    else if t.next ≠ s.process_list.head then find_pid s pid fuel t.next else some 0

def get_by_pid (s : State) (pid : Nat) : Option Nat :=
  if s.process_list.head = 0 then some 0
  else find_pid s pid (s.process_list.count + 1) s.process_list.head

def runnable (state : TaskState) : Bool := state = .ACTIVE || state = .READY

/-- The `do` loop of `get_active_count`, with fuel. -/
def count_active (s : State) : Nat → Nat → Nat → Option Nat
  | 0, _, _ => none
  | fuel + 1, active, current => do
    let t ← s.tasks current
    let active := if runnable t.state then (active + 1) % 2 ^ 32 else active
    if t.next ≠ s.process_list.head then count_active s fuel active t.next else some active

def get_active_count (s : State) : Option Nat :=
  if s.process_list.head = 0 then some 0
  else count_active s (s.process_list.count + 1) 0 s.process_list.head

def kill_process (s : State) (pid : Nat) : Option State := do
  let task ← get_by_pid s pid
  if task ≠ 0 then set_state s task .TERMINATED else some s

/-! ## Dispatch -/

/-- `current` and the state change before the call of the entry. -/
def dispatch (s : State) (task : Nat) : Option (Nat × State) := do
  let s := { s with process_list := { s.process_list with current := task } }
  let s ← set_state s task .ACTIVE
  some (task, s)

/-- The `while` loop of `yield`, with fuel. The result is `next` and `checked`. -/
def next_runnable (s : State) : Nat → Nat → Nat → Option (Nat × Nat)
  | 0, _, _ => none
  | fuel + 1, next, checked =>
    if checked < s.process_list.count then do
      let t ← s.tasks next
      if runnable t.state then some (next, checked) else next_runnable s fuel t.next (checked + 1)
    else some (next, checked)

/-- `yield`, behind the call of `cleanup_terminated`. -/
def yield_next (s : State) : Option (Nat × State) :=
  if s.process_list.current = 0 ∨ s.process_list.count = 0 then some (0, s)
  else do
    let t ← s.tasks s.process_list.current
    let r ← next_runnable s (s.process_list.count + 1) t.next 0
    if r.2 ≥ s.process_list.count then some (0, s)
    else if r.1 = s.process_list.current then some (0, s)
    else dispatch s r.1

def yield (s : State) : Option (Nat × State) := do
  let s ← cleanup_terminated s
  yield_next s

def kill_current (s : State) : Option (Nat × State) :=
  if s.process_list.current ≠ 0 then do
    let s ← set_state s s.process_list.current .TERMINATED
    yield s
  else some (0, s)

def sleep (s : State) : Option (Nat × State) :=
  if s.process_list.current ≠ 0 then do
    let s ← set_state s s.process_list.current .WAITING
    yield s
  else some (0, s)

/-- The `while` loop of `start_scheduler`, with fuel. It leaves at the head again. -/
def first_runnable (s : State) : Nat → Nat → Option Nat
  | 0, _ => none
  | fuel + 1, current =>
    if current = 0 then some current
    else do
      let t ← s.tasks current
      if runnable t.state then some current
      else if t.next = s.process_list.head then some t.next else first_runnable s fuel t.next

def start_scheduler (s : State) : Option (Nat × State) :=
  if s.process_list.count = 0 then some (0, s)
  else do
    let s := { s with scheduler_running := true }
    let current ← first_runnable s (s.process_list.count + 1) s.process_list.head
    if current = 0 then some (0, s) else dispatch s current

end SlayerOS.Taskman
