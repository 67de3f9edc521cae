import SlayerOS.Frames.Address

/-!
# The indices into `frames[]`

The functions of the allocator once more, each with the list of the indices at which it
reads and writes `frames[]`. Clients free addresses that they were given, and some of them
more than once.
-/

open SlayerOS.Bytes SlayerOS.Run

namespace SlayerOS.Frames

/-! ## What each function reads and writes -/

def skip_used_at (frames : Nat → Bool) : Nat → Nat → List Nat × Nat
  | 0, latest_frame => ([], latest_frame)
  | n + 1, latest_frame =>
    if frames latest_frame then
      let r := skip_used_at frames n (latest_frame + 1)
      (latest_frame :: r.1, r.2)
    else ([latest_frame], latest_frame)

def alloc_at (s : State) : List Nat × Option Nat × State :=
  let r := skip_used_at s.frames (s.available_frames - s.latest_frame) s.latest_frame
  if r.2 = s.available_frames then
    (r.1, none, { s with latest_frame := r.2 })
  else
    let frame := s.base_addr + r.2 * FRAME_SIZE % 2 ^ 32
    (r.1 ++ [r.2], some frame,
      { s with
        frames := Function.update s.frames r.2 true
        latest_frame := (r.2 + 1) % 2 ^ 32
        mem := fill s.mem frame FRAME_SIZE 0 })

def find_run_at (frames : Nat → Bool) (count : Nat) : Nat → Nat → Nat → Nat → List Nat × Nat × Nat
  | 0, _, start_frame, frame_count => ([], start_frame, frame_count)
  | n + 1, i, start_frame, frame_count =>
    let start_frame := if frames i then i else start_frame
    let frame_count := if frames i then 1 else frame_count + 1
    if frame_count = count then ([i], start_frame, frame_count)
    else
      let r := find_run_at frames count n (i + 1) start_frame frame_count
      (i :: r.1, r.2)

/-- The second `for` loop of `allocs` from `i`, with `n` rounds left. -/
def set_run_at (frames : Nat → Bool) : Nat → Nat → List Nat × (Nat → Bool)
  | 0, _ => ([], frames)
  | n + 1, i =>
    let r := set_run_at (Function.update frames i true) n (i + 1)
    (i :: r.1, r.2)

def allocs_at (s : State) (count : Nat) : List Nat × Option Nat × State :=
  let r := find_run_at s.frames count (s.available_frames - s.latest_frame) s.latest_frame
    s.latest_frame 0
  if r.2.2 < count then
    (r.1, none, s)
  else
    let set := set_run_at s.frames count r.2.1
    let frame := s.base_addr + r.2.1 * FRAME_SIZE % 2 ^ 32
    (r.1 ++ set.1, some frame,
      { s with
        frames := set.2
        latest_frame := (s.latest_frame + 1) % 2 ^ 32
        mem := fill s.mem frame (count * FRAME_SIZE % 2 ^ 64) 0 })

def free_at (s : State) (frame : Nat) : List Nat × State :=
  let frame_num := sub64 frame s.base_addr % 2 ^ 32 / FRAME_SIZE
  ([frame_num],
    { s with frames := Function.update s.frames frame_num false, latest_frame := frame_num })

/-! ## They are the functions of the allocator -/

theorem skip_used_at_eq (frames : Nat → Bool) (n i : Nat) :
    (skip_used_at frames n i).2 = skip_used frames n i := by
  induction n generalizing i with
  | zero => rfl
  | succ n ih =>
    rw [skip_used_at, skip_used]
    split
    · exact ih (i + 1)
    · rfl

theorem alloc_at_eq (s : State) : (alloc_at s).2 = alloc s := by
  unfold alloc_at alloc
  simp only [skip_used_at_eq]
  split <;> rfl

theorem find_run_at_eq (frames : Nat → Bool) (count n i start_frame frame_count : Nat) :
    (find_run_at frames count n i start_frame frame_count).2 =
      find_run frames count n i start_frame frame_count := by
  induction n generalizing i start_frame frame_count with
  | zero => rfl
  | succ n ih =>
    rw [find_run_at, find_run]
    generalize (if frames i = true then i else start_frame) = start_frame
    generalize (if frames i = true then 1 else frame_count + 1) = frame_count
    simp only
    split
    · rfl
    · exact ih (i + 1) _ _

theorem set_run_at_eq (frames : Nat → Bool) (n i : Nat) :
    set_run_at frames n i = (List.range' i n, set_run frames i n) := by
  induction n generalizing frames i with
  | zero =>
    refine Prod.ext rfl (funext fun q => ?_)
    exact (if_neg (by omega)).symm
  | succ n ih =>
    rw [set_run_at, ih, List.range'_succ]
    refine Prod.ext rfl (funext fun q => ?_)
    unfold set_run
    by_cases hq : q = i
    · subst hq
      simp
    · simp only [Function.update_of_ne hq]
      refine if_congr ?_ rfl rfl
      omega

theorem allocs_at_eq (s : State) (count : Nat) : (allocs_at s count).2 = allocs s count := by
  unfold allocs_at allocs
  simp only [find_run_at_eq, set_run_at_eq]
  split <;> rfl

theorem free_at_eq (s : State) (frame : Nat) : (free_at s frame).2 = free s frame := rfl

/-! ## Clients -/

inductive Request where
  | alloc
  | allocs (count : Nat)
  | free (frame : Nat)
deriving DecidableEq, Repr

/-- The allocator, and every address that it has returned so far. -/
structure Client where
  s : State
  returned : List Nat

/-- The indices of a request, its result, and the state behind it. -/
def serve (s : State) : Request → List Nat × Option Nat × State
  | .alloc => alloc_at s
  | .allocs count => allocs_at s count
  | .free frame => ((free_at s frame).1, none, (free_at s frame).2)

def request (c : Client) (r : Request) : Option Client :=
  some ⟨(serve c.s r).2.2, (serve c.s r).2.1.toList ++ c.returned⟩

/-- Clients ask for at least one frame, and free addresses that they were given. -/
def Honest (c : Client) : Request → Prop
  | .alloc => True
  | .allocs count => 1 ≤ count
  | .free frame => frame ∈ c.returned

instance (c : Client) : (r : Request) → Decidable (Honest c r)
  | .alloc => inferInstanceAs (Decidable True)
  | .allocs count => inferInstanceAs (Decidable (1 ≤ count))
  | .free frame => inferInstanceAs (Decidable (frame ∈ c.returned))

/-- Every access is inside the area, the cursor stays in it, and a null result leaves the
flags alone. -/
structure Contained (c : Client) (r : Request) : Prop where
  indices : ∀ i ∈ (serve c.s r).1, i < c.s.available_frames
  cursor : c.s.latest_frame ≤ c.s.available_frames
  null : (∀ frame, r ≠ .free frame) → (serve c.s r).2.1 = none →
    (serve c.s r).2.2.frames = c.s.frames

/-- The cursor is in the area, and what was returned is the address of a frame of it. -/
structure Kept (n : Nat) (c : Client) : Prop where
  area : c.s.available_frames = n
  cursor : c.s.latest_frame ≤ n
  frames : ∀ p ∈ c.returned, ∃ k, k < n ∧ p = handed c.s k

/-! ## One request -/

theorem skip_used_at_lt (frames : Nat → Bool) (n i : Nat) : ∀ q ∈ (skip_used_at frames n i).1, q < i + n := by
  induction n generalizing i with
  | zero => simp [skip_used_at]
  | succ n ih =>
    intro q hq
    rw [skip_used_at] at hq
    split at hq
    · rcases List.mem_cons.mp hq with rfl | hq
      · omega
      · have := ih (i + 1) q hq
        omega
    · obtain rfl := List.mem_singleton.mp hq
      omega

theorem find_run_at_lt (frames : Nat → Bool) (count n i start_frame frame_count : Nat) :
    ∀ q ∈ (find_run_at frames count n i start_frame frame_count).1, q < i + n := by
  induction n generalizing i start_frame frame_count with
  | zero => simp [find_run_at]
  | succ n ih =>
    intro q hq
    rw [find_run_at] at hq
    generalize (if frames i = true then i else start_frame) = start_frame at hq
    generalize (if frames i = true then 1 else frame_count + 1) = frame_count at hq
    simp only at hq
    split at hq
    · obtain rfl := List.mem_singleton.mp hq
      omega
    · rcases List.mem_cons.mp hq with rfl | hq
      · omega
      · have := ih (i + 1) _ _ q hq
        omega

theorem freed_num (s : State) (k : Nat) :
    sub64 (handed s k) s.base_addr % 2 ^ 32 / FRAME_SIZE = k % 2 ^ 20 := by
  unfold sub64 handed FRAME_SIZE
  omega

theorem alloc_contained (c : Client) (hlt : c.s.available_frames < 2 ^ 32)
    (hcur : c.s.latest_frame ≤ c.s.available_frames) : Contained c .alloc := by
  have hend : c.s.latest_frame + (c.s.available_frames - c.s.latest_frame) = c.s.available_frames := by omega
  have hreads := skip_used_at_lt c.s.frames (c.s.available_frames - c.s.latest_frame) c.s.latest_frame
  have hskip := (skip_used_spec c.s.frames (c.s.available_frames - c.s.latest_frame) c.s.latest_frame).2.1
  rw [hend] at hreads hskip
  refine ⟨?_, hcur, ?_⟩
  · intro i hi
    simp only [serve, alloc_at, skip_used_at_eq] at hi
    split at hi
    · exact hreads i hi
    · rcases List.mem_append.mp hi with hi | hi
      · exact hreads i hi
      · obtain rfl := List.mem_singleton.mp hi
        omega
  · intro _ hnull
    simp only [serve, alloc_at_eq] at hnull ⊢
    rcases alloc_spec c.s hlt hcur with ⟨k, -, -, -, -, heq⟩ | ⟨-, heq⟩
    · rw [heq] at hnull
      cases hnull
    · rw [heq]

theorem allocs_contained (c : Client) (n : Nat) (hn : 1 ≤ n) (hlt : c.s.available_frames < 2 ^ 32)
    (hcur : c.s.latest_frame ≤ c.s.available_frames) : Contained c (.allocs n) := by
  have hreads := find_run_at_lt c.s.frames n (c.s.available_frames - c.s.latest_frame) c.s.latest_frame
    c.s.latest_frame 0
  rw [show c.s.latest_frame + (c.s.available_frames - c.s.latest_frame) = c.s.available_frames by omega] at hreads
  have hfound := find_run_spec c.s n (c.s.available_frames - c.s.latest_frame) c.s.latest_frame c.s.latest_frame 0
    (by omega) (scan_start c.s n hn)
  refine ⟨?_, hcur, ?_⟩
  · intro i hi
    simp only [serve, allocs_at, find_run_at_eq, set_run_at_eq] at hi
    split at hi
    · exact hreads i hi
    · rename_i hcount
      rcases List.mem_append.mp hi with hi | hi
      · exact hreads i hi
      · -- The run that is marked is the one that the scan has found.
        rcases hfound with ⟨hhit, -, -⟩ | ⟨hshort, -⟩
        · have hend := hhit.2.1
          rw [List.mem_range'_1] at hi
          omega
        · exact absurd hshort hcount
  · intro _ hnull
    simp only [serve, allocs_at_eq] at hnull ⊢
    rcases allocs_first_hit c.s n hn hlt hcur with ⟨k, -, -, heq⟩ | ⟨-, heq⟩
    · rw [heq] at hnull
      cases hnull
    · rw [heq]

theorem Kept.freed {n : Nat} {c : Client} (hc : Kept n c) {p : Nat} (hp : p ∈ c.returned) :
    sub64 p c.s.base_addr % 2 ^ 32 / FRAME_SIZE < n := by
  obtain ⟨k, hk, rfl⟩ := hc.frames p hp
  rw [freed_num]
  exact lt_of_le_of_lt (Nat.mod_le _ _) hk

theorem Kept.contained {n : Nat} {c : Client} (hc : Kept n c) (hn : n < 2 ^ 32) (r : Request)
    (hr : Honest c r) : Contained c r := by
  obtain rfl := hc.area
  cases r with
  | alloc => exact alloc_contained c hn hc.cursor
  | allocs count => exact allocs_contained c count hr hn hc.cursor
  | free p =>
    refine ⟨?_, hc.cursor, fun h => absurd rfl (h p)⟩
    intro i hi
    obtain rfl := List.mem_singleton.mp hi
    exact hc.freed hr

theorem serve_area (s : State) (r : Request) :
    (serve s r).2.2.available_frames = s.available_frames ∧ (serve s r).2.2.base_addr = s.base_addr := by
  cases r with
  | alloc =>
    simp only [serve, alloc_at_eq]
    exact after_area s .alloc
  | allocs n =>
    simp only [serve, allocs_at_eq]
    exact after_area s (.allocs n)
  | free p => exact ⟨rfl, rfl⟩

theorem Kept.served {n : Nat} {c : Client} (hc : Kept n c) (r : Request) (result : Option Nat) (s : State)
    (heq : (serve c.s r).2 = (result, s)) (hcur : s.latest_frame ≤ n)
    (hresult : ∀ p, result = some p → ∃ k, k < n ∧ p = handed c.s k) :
    Kept n ⟨(serve c.s r).2.2, (serve c.s r).2.1.toList ++ c.returned⟩ := by
  obtain ⟨havail, hbase⟩ := serve_area c.s r
  rw [heq] at havail hbase ⊢
  refine ⟨havail.trans hc.area, hcur, ?_⟩
  intro p hp
  have hold : ∃ k, k < n ∧ p = handed c.s k := by
    rcases List.mem_append.mp hp with hp | hp
    · exact hresult p (Option.mem_toList.mp hp)
    · exact hc.frames p hp
  unfold handed at hold ⊢
  rwa [hbase]

theorem Kept.request {n : Nat} {c : Client} (hc : Kept n c) (hn : n < 2 ^ 32) (r : Request)
    (hr : Honest c r) : Kept n ⟨(serve c.s r).2.2, (serve c.s r).2.1.toList ++ c.returned⟩ := by
  obtain rfl := hc.area
  have hcur := hc.cursor
  cases r with
  | alloc =>
    rcases alloc_spec c.s hn hcur with ⟨k, -, hk, -, -, heq⟩ | ⟨-, heq⟩
    · refine hc.served .alloc _ _ ((alloc_at_eq c.s).trans heq) hk ?_
      rintro _ ⟨⟩
      exact ⟨k, hk, rfl⟩
    · refine hc.served .alloc _ _ ((alloc_at_eq c.s).trans heq) (le_refl _) ?_
      rintro _ ⟨⟩
  | allocs count =>
    have hcount : 1 ≤ count := hr
    rcases allocs_first_hit c.s count hr hn hcur with ⟨k, ⟨hlo, hend, -⟩, -, heq⟩ | ⟨-, heq⟩
    · refine hc.served (.allocs count) _ _ ((allocs_at_eq c.s count).trans heq) ?_ ?_
      · simp only [taken]
        omega
      · rintro _ ⟨⟩
        exact ⟨k, by omega, rfl⟩
    · refine hc.served (.allocs count) _ _ ((allocs_at_eq c.s count).trans heq) hcur ?_
      rintro _ ⟨⟩
  | free p =>
    refine hc.served (.free p) none (free c.s p) (congrArg (Prod.mk none) (free_at_eq c.s p)) (hc.freed hr).le ?_
    rintro _ ⟨⟩

/-! ## Runs -/

/-- Whatever the flags are at the start, no access of any run leaves the area. -/
theorem accesses_contained (s : State) (rs : List Request) (hlt : s.available_frames < 2 ^ 32)
    (hstart : s.latest_frame = 0) (hrs : Along request Honest ⟨s, []⟩ rs) :
    Along request Contained ⟨s, []⟩ rs ∧
    ∃ c, run request ⟨s, []⟩ rs = some c ∧ c.s.available_frames = s.available_frames ∧
      c.s.latest_frame ≤ c.s.available_frames := by
  have hkept : Kept s.available_frames ⟨s, []⟩ := ⟨rfl, hstart.le.trans (Nat.zero_le _), by simp⟩
  obtain ⟨hcontained, c, hc, hend⟩ := run_foldl (R := fun c _ => Kept s.available_frames c) (fun _ _ => ())
    (fun c _ r hc hr => ⟨hc.contained hlt r hr, _, rfl, hc.request hlt r hr⟩) ⟨s, []⟩ () rs hkept hrs
  exact ⟨hcontained, c, hc, hend.area, hend.area ▸ hend.cursor⟩

/-- A full area, and an address that is freed twice. -/
theorem accesses_contained_freed_twice :
    ∃ c, run request ⟨cleared 2 0x100000 (fun _ => 0), []⟩
        [.allocs 2, .alloc, .free 0x100000, .free 0x100000, .alloc] = some c ∧
      c.s.available_frames = 2 ∧ c.s.latest_frame ≤ c.s.available_frames := by
  refine (accesses_contained (cleared 2 0x100000 fun _ => 0)
    [.allocs 2, .alloc, .free 0x100000, .free 0x100000, .alloc] (by decide) rfl ?_).2
  refine along_cons _ _ _ _ (by decide) rfl (along_cons _ _ _ _ (by decide) rfl ?_)
  refine along_cons _ _ _ _ (by decide) rfl (along_cons _ _ _ _ (by decide) rfl ?_)
  exact along_cons _ _ _ _ (by decide) rfl trivial

end SlayerOS.Frames
