import SlayerOS.Taskman.Handover

/-!
# The list on the screen

`list_processes` walks the ring once around. It ends at the head again, and so it prints
every task of the list, in the order of the spawns.
-/

open SlayerOS.Run

namespace SlayerOS.Taskman

inductive Arg where
  | num (n : Nat)
  | str (s : String)
deriving DecidableEq, Repr

/-- What `Log::info` is called with. -/
structure Line where
  format : String
  args : List Arg
deriving DecidableEq, Repr

def state_str : TaskState → String
  | .ACTIVE => "ACTIVE"
  | .READY => "READY"
  | .WAITING => "WAITING"
  | .TERMINATED => "TERMINATED"

def process_line (t : Task) : Line :=
  ⟨"  PID %d: %s [%s] Priority: %d", [.num t.pid, .str t.name, .str (state_str t.state), .num t.priority]⟩

/-- The `do` loop of `list_processes`, with fuel. -/
def list_from (s : State) : Nat → Nat → Option (List Line)
  | 0, _ => none
  | fuel + 1, current => do
    let t ← s.tasks current
    if t.next ≠ s.process_list.head then do
      let rest ← list_from s fuel t.next
      some (process_line t :: rest)
    else some [process_line t]

def list_processes (s : State) : Option (List Line) :=
  if s.process_list.head = 0 then some [⟨"No processes running", []⟩]
  else do
    let lines ← list_from s (s.process_list.count + 1) s.process_list.head
    some (⟨"Process List (%d total):", [.num s.process_list.count]⟩ :: lines)

def get_process_count (s : State) : Nat := s.process_list.count

def get_current (s : State) : Nat := s.process_list.current

def add_task (s : State) (task stack entry : Nat) : Option State :=
  (spawn_process s task stack entry "legacy_task" 1).map Prod.snd

def stop_scheduler (s : State) : State := { s with scheduler_running := false }

/-! ## One walk -/

theorem list_from_spec (s : State) (fuel : Nat) (x : Nat × Task) (xs : List (Nat × Task))
    (hch : Chained s (x :: xs) s.process_list.head) (hhead : ∀ y ∈ xs, y.1 ≠ s.process_list.head)
    (hfuel : xs.length < fuel) :
    list_from s fuel x.1 = some ((x :: xs).map fun y => process_line y.2) := by
  induction xs generalizing fuel x with
  | nil =>
    obtain ⟨f, rfl⟩ : ∃ f, fuel = f + 1 := ⟨fuel - 1, by omega⟩
    obtain ⟨⟨t, ht, htb, htn⟩, -⟩ := hch
    have hline : process_line t = process_line x.2 := by rw [← htb]; rfl
    have hnext : t.next = s.process_list.head := htn
    simp [list_from, ht, hnext, hline]
  | cons y xs ih =>
    obtain ⟨f, rfl⟩ : ∃ f, fuel = f + 1 := ⟨fuel - 1, by omega⟩
    rw [List.length_cons] at hfuel
    obtain ⟨⟨t, ht, htb, htn⟩, hrest⟩ := hch
    have hline : process_line t = process_line x.2 := by rw [← htb]; rfl
    have hnext : t.next = y.1 := htn
    have hy := hhead y List.mem_cons_self
    have htail := ih f y hrest (fun z hz => hhead z (List.mem_cons_of_mem _ hz)) (by omega)
    simp [list_from, ht, hnext, hy, htail, hline]

/-- What the screen shows of a list. -/
def Sched.lines (a : Sched) : List Line :=
  if a.ring = [] then [⟨"No processes running", []⟩]
  else ⟨"Process List (%d total):", [.num a.ring.length]⟩ :: a.ring.map fun x => process_line x.2

theorem list_processes_spec (s : State) (a : Sched) (h : Rep s a) : list_processes s = some a.lines := by
  have hch := h.chained_head
  have htail := h.head_tail
  have hhead := h.head
  have hcount := h.count
  rw [Sched.addrs] at hhead
  unfold list_processes Sched.lines
  cases hring : a.ring with
  | nil => rw [if_pos (h.head_zero.mpr hring), if_pos rfl]
  | cons x xs =>
    rw [hring] at hch htail hhead hcount
    have hx : s.process_list.head = x.1 := hhead
    have hlist := list_from_spec s (s.process_list.count + 1) x xs hch htail (by rw [hcount, List.length_cons]; omega)
    rw [if_neg (fun h0 => by simp [h.head_zero.mp h0] at hring), if_neg (List.cons_ne_nil _ _)]
    conv_lhs => rw [hx]
    rw [hlist, hcount]
    rfl

/-- In every reachable state the listing shows each task of the memory exactly once, oldest
first, and its number is that of `get_process_count`. -/
theorem run_lists (base : Nat) (es : List Event) (hlegal : Along step (Legal base) machineBoot es) :
    ∃ m tasks, run step machineBoot es = some m ∧
      (∀ p t, (p, t) ∈ tasks ↔ (m.s.tasks p).map Task.body = some t) ∧ (tasks.map Prod.fst).Nodup ∧
      (tasks.map fun x => m.born x.1).Pairwise (· < ·) ∧ get_process_count m.s = tasks.length ∧
      list_processes m.s = some (if tasks = [] then [⟨"No processes running", []⟩]
        else ⟨"Process List (%d total):", [.num tasks.length]⟩ :: tasks.map fun x => process_line x.2) := by
  obtain ⟨m, hm, hholds⟩ := run_holds base es hlegal
  generalize es.foldl (fun a e => (act a e).2) ⟨[], 0, 1⟩ = a at hholds
  have horder := hholds.order
  rw [Sched.keys, List.pairwise_map] at horder
  refine ⟨m, a.ring, hm, ?_, hholds.rep.nodup, ?_, hholds.rep.count, list_processes_spec m.s a hholds.rep⟩
  · exact fun p t => (hholds.rep.bodies p t).symm
  · rw [List.pairwise_map]
    exact horder

theorem run_lists_two :
    ∃ m tasks, run step machineBoot twoTasks = some m ∧
      (∀ p t, (p, t) ∈ tasks ↔ (m.s.tasks p).map Task.body = some t) ∧ (tasks.map Prod.fst).Nodup ∧
      (tasks.map fun x => m.born x.1).Pairwise (· < ·) ∧ get_process_count m.s = tasks.length ∧
      list_processes m.s = some (if tasks = [] then [⟨"No processes running", []⟩]
        else ⟨"Process List (%d total):", [.num tasks.length]⟩ :: tasks.map fun x => process_line x.2) :=
  run_lists 0x100000 twoTasks (Plan.legal _ _ _ (holds_boot _) (by decide))

end SlayerOS.Taskman
