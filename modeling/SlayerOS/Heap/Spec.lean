import SlayerOS.Heap.Code
import SlayerOS.Lib.Run

/-!
# What the heap is for

The abstract heap is a list of pages, and a page is a list of segments that lie one
behind the other. `PagesRep` says how memory holds it. Clients own the blocks that
`kmalloc` returned, and may write into them at any time.
-/

open SlayerOS.Bytes SlayerOS.Frames

namespace SlayerOS.Heap

structure Seg where
  size : Nat
  free : Bool
deriving DecidableEq, Repr

/-- A page: its address, its frames, and its segments in address order. -/
structure Page where
  base : Nat
  count : Nat
  segs : List Seg
deriving DecidableEq, Repr

/-- The bytes of the segments, with their records. -/
def span : List Seg → Nat
  | [] => 0
  | g :: gs => SEGMENT + g.size + span gs

/-- The bytes of the free segments. -/
def freeBytes : List Seg → Nat
  | [] => 0
  | g :: gs => (if g.free then g.size else 0) + freeBytes gs

/-- The segments with the addresses of their records, when the first one is at `s`. -/
def placed : Nat → List Seg → List (Nat × Seg)
  | _, [] => []
  | s, g :: gs => (s, g) :: placed (s + SEGMENT + g.size) gs

def Page.placed (p : Page) : List (Nat × Seg) := Heap.placed (p.base + PAGE) p.segs

/-- The address of the first page, or null. -/
def headBase : List Page → Nat
  | [] => 0
  | p :: _ => p.base

/-! ## The heap in memory -/

/-- The record at `s` describes the segment `g`. -/
structure SegAt (m : Mem) (s : Nat) (g : Seg) (next : Nat) : Prop where
  addr : segment_addr m s = s + SEGMENT
  size : segment_size m s = g.size
  free : segment_free m s = g.free
  next : segment_next m s = next

/-- The segments lie one behind the other from `s` on, and the last one links to `e`. -/
def Tile (m : Mem) : Nat → List Seg → Nat → Prop
  | _, [], _ => True
  | s, g :: gs, e =>
    SegAt m s g (if gs = [] then e else s + SEGMENT + g.size) ∧ Tile m (s + SEGMENT + g.size) gs e

/-- The region is `count` frames of the address space, on a frame boundary. -/
structure RegionOk (base count : Nat) : Prop where
  pos : base ≠ 0
  aligned : base % FRAME_SIZE = 0
  top : base + count * FRAME_SIZE ≤ 2 ^ 64

/-- The page record and the segments of `p` are in memory, inside its frames. -/
structure PageRep (m : Mem) (p : Page) (next : Nat) : Prop where
  region : RegionOk p.base p.count
  first : page_first m p.base = p.base + PAGE
  next : page_next m p.base = next
  segs : p.segs ≠ []
  tile : Tile m (p.base + PAGE) p.segs 0
  inside : PAGE + span p.segs ≤ p.count * FRAME_SIZE

/-- The pages are linked in order, and the last one links to `e`. -/
def PagesRep (m : Mem) : List Page → Nat → Prop
  | [], _ => True
  | p :: ps, e => PageRep m p (if ps = [] then e else headBase ps) ∧ PagesRep m ps e

/-- The regions share no byte. -/
def RegionsApart (rs : List (Nat × Nat)) : Prop :=
  rs.Pairwise fun r q => Apart r.1 (r.2 * FRAME_SIZE) q.1 (q.2 * FRAME_SIZE)

def Page.region (p : Page) : Nat × Nat := (p.base, p.count)

/-- Memory holds the pages, one in each region that the frame allocator gave. -/
structure Holds (h : State) (pages : List Page) : Prop where
  head : h.heap = headBase pages
  rep : PagesRep h.mem pages 0
  regions : h.regions = pages.map Page.region
  apart : RegionsApart h.regions

/-! ## Clients -/

/-- The heap and the live blocks: address and requested size. -/
structure World where
  h : State
  live : List (Nat × Nat)

inductive Event where
  | kmalloc (size : Nat)
  | kfree (addr : Nat)
  /-- A client writes a byte of a block of its own. -/
  | store (addr : Nat) (byte : BitVec 8)

def step (fuel : Nat) (w : World) : Event → Option World
  | .kmalloc size => do
    let r ← kmalloc fuel { w.h with written := [] } size
    some ⟨r.2, (r.1, size) :: w.live⟩
  | .kfree addr => do
    let r ← kfree fuel { w.h with written := [] } addr
    some ⟨r.2, if r.1 then w.live.filter fun b => b.1 != addr else w.live⟩
  | .store addr byte =>
    some { w with h := { w.h with mem := Function.update w.h.mem addr byte, written := [] } }

/-- Before any call, over memory with any contents. -/
def boot (mem : Mem) (allocs : Nat → Nat) : World :=
  ⟨{ heap := 0, mem, allocs, regions := [], written := [], log := [] }, []⟩

/-- `kmalloc` will ask for frames: there is no page yet, or no segment fits. -/
def NeedsPage (fuel : Nat) (h : State) (size : Nat) : Prop :=
  h.heap = 0 ∨ ∃ page, search h.mem size fuel h.heap = some (.last page)

/-- The next answer of `Mem::Frame::allocs` is a fresh region of `count` frames. -/
structure FreshRegion (h : State) (count : Nat) : Prop where
  ok : RegionOk (h.allocs h.regions.length) count
  apart : ∀ r ∈ h.regions, Apart r.1 (r.2 * FRAME_SIZE) (h.allocs h.regions.length) (count * FRAME_SIZE)

/-- The answers are regions of their own. A request for no frames is answered with a frame
too: `allocs` says that at least one is allocated. -/
structure FreshLog (rs : List (Nat × Nat)) : Prop where
  ok : ∀ r ∈ rs, RegionOk r.1 (max 1 r.2)
  apart : rs.Pairwise fun r q => Apart r.1 (max 1 r.2 * FRAME_SIZE) q.1 (max 1 q.2 * FRAME_SIZE)

/-- What clients and the frame allocator promise. -/
def Legal (fuel : Nat) (w : World) : Event → Prop
  | .kmalloc size => size < 2 ^ 32 - 64 ∧ (NeedsPage fuel w.h size → FreshRegion w.h (num_pages size))
  | .kfree _ => w.h.heap ≠ 0
  | .store addr _ => ∃ b ∈ w.live, b.1 ≤ addr ∧ addr < b.1 + b.2

/-- The block lies in a segment that is not free and is large enough for it. -/
def InSegment (pages : List Page) (b : Nat × Nat) : Prop :=
  ∃ p ∈ pages, ∃ a g, (a, g) ∈ p.placed ∧ b.1 = a + SEGMENT ∧ g.free = false ∧ b.2 ≤ g.size

/-- The invariant: memory holds the pages, and every live block has a segment of its own. -/
structure HeapInv (w : World) (pages : List Page) : Prop where
  holds : Holds w.h pages
  live : ∀ b ∈ w.live, InSegment pages b
  distinct : w.live.Pairwise fun b c => b.1 ≠ c.1

/-- What one call may do: it writes no record over a live block, it changes no byte of one,
and it asks for frames at most once. -/
structure Clean (w : World) (e : Event) (w' : World) : Prop where
  records : ∀ r ∈ w'.h.written, ∀ b, b ∈ w.live ∨ b ∈ w'.live → Apart r SEGMENT b.1 b.2
  data : (∀ addr byte, e ≠ .store addr byte) →
    ∀ b ∈ w.live, ∀ x, b.1 ≤ x → x < b.1 + b.2 → w'.h.mem x = w.h.mem x
  regions : w'.h.regions.length ≤ w.h.regions.length + 1

/-- The step ends, and it is a clean one. -/
def CleanStep (fuel : Nat) (w : World) (e : Event) : Prop :=
  ∃ w', step fuel w e = some w' ∧ Clean w e w'

/-- The block lies in a free segment, which a later call can use. -/
def InFreeSegment (pages : List Page) (b : Nat × Nat) : Prop :=
  ∃ p ∈ pages, ∃ a g, (a, g) ∈ p.placed ∧ b.1 = a + SEGMENT ∧ g.free = true ∧ b.2 ≤ g.size

/-- `kfree` takes the block back: it says so, and the segment of the block is free. -/
def TakesBack (fuel : Nat) (h : State) (b : Nat × Nat) : Prop :=
  ∃ h' pages, kfree fuel h b.1 = some (true, h') ∧ Holds h' pages ∧ InFreeSegment pages b

/-- The record in front of the block is in the frames of the first page. -/
def OnFirstPage (h : State) (addr : Nat) : Prop :=
  ∃ count, h.regions.head? = some (h.heap, count) ∧
    h.heap ≤ addr - SEGMENT ∧ addr - SEGMENT < h.heap + count * FRAME_SIZE

end SlayerOS.Heap
