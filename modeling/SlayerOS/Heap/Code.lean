import SlayerOS.Frames.Code

/-!
# The kernel heap (`heap.cc`)

The page and segment records live in the memory that the heap hands out, so every
field access is a read or a write of bytes. The result of each `Mem::Frame::allocs`
call is an input here. A `while` loop takes fuel, and `none` means that it ran out.
-/

open SlayerOS.Bytes SlayerOS.Frames

namespace SlayerOS.Heap

/-- `sizeof(heap_segment_t)`: `addr`, `size`, `free` and `next` at 0, 8, 16 and 24. -/
def SEGMENT : Nat := 32

/-- `sizeof(heap_page_t)`: `addr`, `first`, `free_size` and `next` at 0, 8, 16 and 24. -/
def PAGE : Nat := 32

structure State where
  heap : Nat
  mem : Mem
  /-- The results of `Mem::Frame::allocs`, in the order of the calls. -/
  allocs : Nat → Nat
  /-- The calls of `Mem::Frame::allocs` so far: the result and the count. -/
  regions : List (Nat × Nat)
  /-- The page and segment records that were written, latest first. -/
  written : List Nat
  log : List Log

/-! ## Fields -/

def page_addr (m : Mem) (page : Nat) : Nat := read 8 m (page + 0)
def page_first (m : Mem) (page : Nat) : Nat := read 8 m (page + 8)
def page_free_size (m : Mem) (page : Nat) : Nat := read 4 m (page + 16)
def page_next (m : Mem) (page : Nat) : Nat := read 8 m (page + 24)

def segment_addr (m : Mem) (segment : Nat) : Nat := read 8 m (segment + 0)
def segment_size (m : Mem) (segment : Nat) : Nat := read 8 m (segment + 8)
def segment_free (m : Mem) (segment : Nat) : Bool := read 1 m (segment + 16) != 0
def segment_next (m : Mem) (segment : Nat) : Nat := read 8 m (segment + 24)

/-- Stores `n` bytes of `v` at offset `k` of a record. -/
def put (h : State) (record k n v : Nat) : State :=
  { h with mem := write n h.mem (record + k) v, written := record :: h.written }

def set_page_addr (h : State) (page v : Nat) : State := put h page 0 8 v
def set_page_first (h : State) (page v : Nat) : State := put h page 8 8 v
def set_page_free_size (h : State) (page v : Nat) : State := put h page 16 4 v
def set_page_next (h : State) (page v : Nat) : State := put h page 24 8 v

def set_segment_addr (h : State) (segment v : Nat) : State := put h segment 0 8 v
def set_segment_size (h : State) (segment v : Nat) : State := put h segment 8 8 v
def set_segment_free (h : State) (segment : Nat) (b : Bool) : State := put h segment 16 1 b.toNat
def set_segment_next (h : State) (segment v : Nat) : State := put h segment 24 8 v

/-! ## Pages -/

/-- `Mem::Frame::allocs`, which clears what it hands out. -/
def frame_allocs (h : State) (count : Nat) : Nat × State :=
  let frame := h.allocs h.regions.length
  (frame,
    { h with
      regions := h.regions ++ [(frame, count)]
      mem := if frame = 0 then h.mem else fill h.mem frame (count * FRAME_SIZE % 2 ^ 64) 0 })

def page_segments_init (h : State) (page : Nat) : State :=
  let segment := page_addr h.mem page
  let h := set_page_free_size h page (sub64 (page_free_size h.mem page) SEGMENT)
  let h := set_segment_addr h segment (segment + SEGMENT)
  let h := set_segment_size h segment (page_free_size h.mem page)
  let h := set_segment_free h segment true
  let h := set_segment_next h segment 0
  set_page_first h page segment

/-- The test that picks one frame: the request and both records fit in it. -/
def fits_frame (size : Nat) : Bool := (size + PAGE + SEGMENT) % 2 ^ 64 ≤ FRAME_SIZE

def alloc_size (size : Nat) : Nat :=
  if fits_frame size then FRAME_SIZE else (PAGE + SEGMENT + size) % 2 ^ 64

/-- `num_pages` is a `u32`. -/
def num_pages (size : Nat) : Nat :=
  if fits_frame size then 1 else (alloc_size size + (FRAME_SIZE - 1)) % 2 ^ 64 / FRAME_SIZE % 2 ^ 32

def create_heap_page (h : State) (size : Nat) : Nat × State :=
  let r := frame_allocs h (num_pages size)
  let page := r.1
  let h := r.2
  let h := if page = 0 then { h with log := .critical "Cannot allocate heap pages" :: h.log } else h
  let h := set_page_addr h page (page + PAGE)
  let h := set_page_free_size h page (sub64 (alloc_size size) PAGE)
  let h := page_segments_init h page
  let h := set_page_next h page 0
  (page, h)

/-! ## `kmalloc` -/

/-- The end of a segment that is longer than the request becomes a free segment. -/
def split_segment (h : State) (segment size : Nat) : State :=
  let fragment := (segment_addr h.mem segment + size) % 2 ^ 64
  let h := set_segment_addr h fragment (fragment + SEGMENT)
  let h := set_segment_size h fragment (sub64 (sub64 (segment_size h.mem segment) size) SEGMENT)
  let h := set_segment_free h fragment true
  let h := set_segment_next h fragment (segment_next h.mem segment)
  let h := set_segment_size h segment size
  set_segment_next h segment fragment

def alloc_segment (h : State) (page segment size : Nat) : Nat × State :=
  let h := if segment_size h.mem segment > (size + SEGMENT) % 2 ^ 64 then split_segment h segment size
    else h
  let h := set_page_free_size h page (sub64 (page_free_size h.mem page) (segment_size h.mem segment))
  let h := set_segment_free h segment false
  (segment_addr h.mem segment, h)

/-- `while (segment)`, up to the first segment that passes the test. The result is that
segment, or null. -/
def walk (m : Mem) (test : Nat → Bool) : Nat → Nat → Option Nat
  | 0, _ => none
  | fuel + 1, segment =>
    if segment = 0 then some 0
    else if test segment then some segment
    else walk m test fuel (segment_next m segment)

/-- The inner loop of `kmalloc`. -/
def find_segment (m : Mem) (size : Nat) : Nat → Nat → Option Nat :=
  walk m fun segment => segment_free m segment && decide (segment_size m segment ≥ size)

/-- How the outer loop of `kmalloc` ends: at a segment that fits, or at the last page. -/
inductive Search where
  | found (page segment : Nat)
  | last (page : Nat)
deriving DecidableEq, Repr

def search (m : Mem) (size : Nat) : Nat → Nat → Option Search
  | 0, _ => none
  | fuel + 1, page =>
    if page = 0 then some (.last page)
    else
      match find_segment m size fuel (page_first m page) with
      | none => none
      | some 0 =>
        if page_next m page = 0 then some (.last page) else search m size fuel (page_next m page)
      | some segment => some (.found page segment)

/-- `if (heap == nullptr) heap = create_heap_page(size);` -/
def ensure_heap (h : State) (size : Nat) : State :=
  if h.heap = 0 then
    let r := create_heap_page h size
    { r.2 with heap := r.1 }
  else h

def kmalloc : Nat → State → Nat → Option (Nat × State)
  | 0, _, _ => none
  | fuel + 1, h, size =>
    let h := ensure_heap h size
    match search h.mem size fuel h.heap with
    | none => none
    | some (.found page segment) => some (alloc_segment h page segment size)
    | some (.last page) =>
      let r := create_heap_page h size
      kmalloc fuel (set_page_next r.2 page r.1) size

/-! ## `kfree` -/

def try_segment_merge (h : State) (page segment : Nat) : State :=
  let next := segment_next h.mem segment
  if next ≠ 0 ∧ segment_free h.mem next then
    let h := set_segment_size h segment
      (segment_size h.mem segment + (segment_size h.mem next + SEGMENT))
    let h := set_segment_next h segment (segment_next h.mem next)
    set_page_free_size h page (page_free_size h.mem page + SEGMENT)
  else h

def free_segment (h : State) (page segment : Nat) : State :=
  let h := set_segment_free h segment true
  let h := set_page_free_size h page (page_free_size h.mem page + segment_size h.mem segment)
  try_segment_merge h page segment

/-- The inner loop of `kfree`. -/
def find_addr (m : Mem) (addr : Nat) : Nat → Nat → Option Nat :=
  walk m fun segment => decide (segment_addr m segment = addr)

/-- The outer loop of `kfree`. Nothing sets `segment` again for the next page, so it is
null from then on. -/
def kfree_from (h : State) (addr : Nat) : Nat → Nat → Nat → Option (Bool × State)
  | 0, _, _ => none
  | fuel + 1, page, segment =>
    if page = 0 then some (false, h)
    else
      match find_addr h.mem addr fuel segment with
      | none => none
      | some 0 => kfree_from h addr fuel (page_next h.mem page) 0
      | some segment => some (true, free_segment h page segment)

def kfree (fuel : Nat) (h : State) (addr : Nat) : Option (Bool × State) :=
  kfree_from h addr fuel h.heap (page_first h.mem h.heap)

end SlayerOS.Heap
