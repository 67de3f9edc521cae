import SlayerOS.Kapi.Spec
import SlayerOS.Heap.Blocks

/-!
# Handles stay what they were opened for

A record lies in a live block of the heap. The heap writes no byte of a live block and hands
none out twice, and so the records show the table through every run.
-/

open SlayerOS.Bytes SlayerOS.Run
open SlayerOS.Heap (HeapInv weight InSegment)

namespace SlayerOS.Kapi

/-! ## A client of the heap -/

/-- The live blocks hold the same bytes. -/
def LiveKept (live : List (Nat × Nat)) (m m' : Mem) : Prop :=
  ∀ b ∈ live, ∀ x, b.1 ≤ x → x < b.1 + b.2 → m' x = m x

theorem client_kmalloc (fuel : Nat) (s : State) (live : List (Nat × Nat)) (pages : List Heap.Page) (size : Nat)
    (hs : HeapInv ⟨s.h, live⟩ pages) (hroom : Room fuel s size) (hfuel : weight pages + 5 ≤ fuel) :
    ∃ q h' pages', Heap.kmalloc fuel s.h size = some (q, h') ∧ HeapInv ⟨h', (q, size) :: live⟩ pages' ∧
      weight pages' ≤ weight pages + 3 ∧ LiveKept live s.h.mem h'.mem := by
  obtain ⟨hsize, hfresh⟩ := hroom
  obtain ⟨c, old, pages', hc, hall, hold⟩ := Heap.kmalloc_spec fuel s.h pages size hs.holds (by omega) hfresh hfuel
  refine ⟨c.1, c.2, pages', hc, hall.inv hs hold, ?_, ?_⟩
  · have hserved := hall.served.weight
    have : weight old ≤ weight pages + 2 := by
      rcases hold with rfl | rfl
      · omega
      · simp [Heap.weight_append, weight, Heap.newPage]
    omega
  · intro b hb
    exact hall.data.block b (hs.live b hb)

theorem client_kfree (fuel : Nat) (h : Heap.State) (live : List (Nat × Nat)) (pages : List Heap.Page) (addr : Nat)
    (hs : HeapInv ⟨h, live⟩ pages) (hheap : h.heap ≠ 0) (hfuel : weight pages + 5 ≤ fuel) :
    ∃ ok h' live' pages', Heap.kfree fuel h addr = some (ok, h') ∧ HeapInv ⟨h', live'⟩ pages' ∧
      weight pages' ≤ weight pages + 3 ∧ LiveKept live h.mem h'.mem ∧ ∀ b ∈ live, b.1 ≠ addr → b ∈ live' := by
  obtain ⟨p, ps, rfl⟩ := hs.cons hheap
  rcases Heap.kfree_spec fuel h p ps addr hs.holds (by omega) with ⟨c, pre, g, post, hc, hr⟩ | ⟨-, hc⟩
  · refine ⟨true, c, _, _, hc, hr.inv hs, ?_, ?_, ?_⟩
    · have := Heap.joined_length g post
      simp only [Heap.weight_cons, Heap.Page.release, hr.segs, List.length_append, List.length_singleton]
      omega
    · intro b hb
      exact hr.data.block b (hs.live b hb)
    · intro b hb hne
      simp only [List.mem_filter, bne_iff_ne]
      exact ⟨hb, hne⟩
  · exact ⟨false, h, live, p :: ps, hc, hs, by omega, fun _ _ _ _ _ => rfl, fun b hb _ => hb⟩

theorem client_write (h : Heap.State) (live : List (Nat × Nat)) (pages : List Heap.Page) (m : Mem) (b : Nat × Nat)
    (hs : HeapInv ⟨h, live⟩ pages) (hb : b ∈ live) (hm : ∀ x, x < b.1 ∨ b.1 + b.2 ≤ x → m x = h.mem x) :
    HeapInv ⟨{ h with mem := m }, live⟩ pages := by
  refine ⟨⟨hs.holds.head, ?_, hs.holds.regions, hs.holds.apart⟩, hs.live, hs.distinct⟩
  apply hs.holds.rep.congr_records
  intro r hr x h1 h2
  have := InSegment.apart_record hs.holds r hr b (hs.live b hb)
  simp only [Apart, Heap.segment_bytes] at this
  exact hm x (by omega)

/-! ## Records -/

theorem Holds.congr {m m' : Mem} {layout : PciLayout} {a : Nat} {o : Object} (h : Holds m layout a o)
    (hm : ∀ x, a ≤ x → x < a + o.size layout → m' x = m x) : Holds m' layout a o := by
  cases o with
  | block size bytes => exact fun k hk => (hm (a + k) (by omega) (Nat.add_lt_add_left hk a)).trans (h k hk)
  | ports base len =>
    simp only [Object.size, UACPI_IO] at hm
    refine ⟨?_, ?_⟩
    · rw [read_congr 8 m m' a (fun x h1 h2 => hm x h1 (by omega))]
      exact h.1
    · rw [read_congr 8 m m' (a + 8) (fun x h1 h2 => hm x (by omega) (by omega))]
      exact h.2
  | device address => exact fun k hk => (hm (a + k) (by omega) (Nat.add_lt_add_left hk a)).trans (h k hk)

theorem copy_outside (size : Nat) (bytes : Nat → BitVec 8) (a : Nat) (m : Mem) (x : Nat)
    (h : x < a ∨ a + size ≤ x) : copy size bytes a m x = m x := if_neg (by omega)

theorem copy_holds (layout : PciLayout) (address : Nat → BitVec 8) (a : Nat) (m : Mem) :
    Holds (copy layout.size address a m) layout a (.device address) := by
  intro k hk
  rw [copy, if_pos (by omega), Nat.add_sub_cancel_left]

/-- The record of a port range. -/
def portsRecord (base len : BitVec 64) (a : Nat) (m : Mem) : Mem :=
  write 8 (write 8 m (a + 0) base.toNat) (a + 8) len.toNat

theorem portsRecord_outside (base len : BitVec 64) (a : Nat) (m : Mem) (x : Nat)
    (h : x < a ∨ a + UACPI_IO ≤ x) : portsRecord base len a m x = m x := by
  unfold UACPI_IO at h
  unfold portsRecord
  rw [write_outside 8 _ _ _ _ (by omega), write_outside 8 _ _ _ _ (by omega)]

theorem portsRecord_holds (layout : PciLayout) (base len : BitVec 64) (a : Nat) (m : Mem) :
    Holds (portsRecord base len a m) layout a (.ports base len) := by
  have hbase := base.isLt
  have hlen := len.isLt
  refine ⟨?_, ?_⟩
  · unfold portsRecord
    rw [read_write_apart 8 8 _ (a + 8) a _ (by unfold Apart; omega), Nat.add_zero, read_write_same]
    exact Nat.mod_eq_of_lt hbase
  · unfold portsRecord
    rw [read_write_same]
    exact Nat.mod_eq_of_lt hlen

/-- The two bytes at a handle are the end of the base, which is all that a port needs. -/
theorem io_port_eq (s : State) (layout : PciLayout) (handle : Nat) (base len offset : BitVec 64)
    (h : Holds s.h.mem layout handle (.ports base len)) : io_port handle offset s = portAt base offset := by
  have hlow : read 2 s.h.mem handle = base.toNat % 2 ^ 16 := by
    have hbase := h.1
    have h0 := (s.h.mem handle).isLt
    have h1 := (s.h.mem (handle + 1)).isLt
    simp only [Bytes.read] at hbase ⊢
    omega
  unfold io_port portAt
  apply BitVec.eq_of_toNat_eq
  simp only [BitVec.toNat_setWidth, BitVec.toNat_add, BitVec.toNat_ofNat, hlow]
  omega

theorem poke_size (layout : PciLayout) (o : Object) (a addr : Nat) (byte : BitVec 8) :
    (o.poke a addr byte).size layout = o.size layout := by
  cases o with
  | block size bytes =>
    simp only [Object.poke]
    split <;> rfl
  | ports base len => rfl
  | device address => rfl

/-! ## Steps -/

/-- Every object has a live block of its own, and memory shows the table. -/
structure Inv (layout : PciLayout) (w : World) (live : List (Nat × Nat)) (pages : List Heap.Page) : Prop where
  heap : HeapInv ⟨w.s.h, live⟩ pages
  live : ∀ a o, w.table.objects a = some o → (a, o.size layout) ∈ live
  shows : Shows layout w

/-- The call ends and keeps the invariant, and the next search is a little longer at most. -/
def Keeps (fuel : Nat) (layout : PciLayout) (w : World) (pages : List Heap.Page) (c : Call) : Prop :=
  ∃ r, perform fuel layout w.s c = some r ∧ (r.1 ≠ 0 → w.table.objects r.1 = none) ∧
    ∃ live' pages', weight pages' ≤ weight pages + 3 ∧
      Inv layout ⟨r.2, w.table.next layout r.1 (fun k => r.2.h.mem (r.1 + k)) c⟩ live' pages'

theorem keeps_of (fuel : Nat) (layout : PciLayout) (w : World) (pages : List Heap.Page) (c : Call) (s' : State)
    (t : Table) (hc : perform fuel layout w.s c = some (0, s'))
    (ht : w.table.next layout 0 (fun k => s'.h.mem (0 + k)) c = t)
    (hinv : ∃ live' pages', weight pages' ≤ weight pages + 3 ∧ Inv layout ⟨s', t⟩ live' pages') :
    Keeps fuel layout w pages c := by
  subst ht
  exact ⟨(0, s'), hc, fun h => absurd rfl h, hinv⟩

section

variable {layout : PciLayout} {w : World} {live : List (Nat × Nat)} {pages : List Heap.Page}
  (hw : Inv layout w live pages)

include hw

theorem Inv.opened (fuel : Nat) (o : Object) (hroom : Room fuel w.s (o.size layout))
    (hfuel : weight pages + 5 ≤ fuel) :
    ∃ q h', Heap.kmalloc fuel w.s.h (o.size layout) = some (q, h') ∧ w.table.objects q = none ∧
      ∃ pages', weight pages' ≤ weight pages + 3 ∧ ∀ m o', o'.size layout = o.size layout →
        Holds m layout q o' → (∀ x, x < q ∨ q + o.size layout ≤ x → m x = h'.mem x) →
        Inv layout ⟨{ w.s with h := { h' with mem := m } }, w.table.put q o'⟩ ((q, o.size layout) :: live) pages' := by
  obtain ⟨q, h', pages', hc, hinv, hweight, hkept⟩ :=
    client_kmalloc fuel w.s live pages (o.size layout) hw.heap hroom hfuel
  have hmem : (q, o.size layout) ∈ (q, o.size layout) :: live := List.mem_cons_self
  have hfresh : ∀ a p, w.table.objects a = some p → a ≠ q := by
    rintro a p hp rfl
    exact (List.pairwise_cons.mp hinv.distinct).1 _ (hw.live a p hp) rfl
  refine ⟨q, h', hc, ?_, pages', hweight, ?_⟩
  · cases hq : w.table.objects q with
    | none => rfl
    | some p => exact absurd rfl (hfresh q p hq)
  · intro m o' hsize hholds hm
    refine ⟨client_write h' _ pages' m _ hinv hmem hm, ?_, ?_, hw.shows.accesses⟩
    · intro a p hp
      by_cases haq : a = q
      · subst haq
        obtain rfl : o' = p := by simpa [Table.put] using hp
        rw [hsize]
        exact hmem
      · have hp' : w.table.objects a = some p := by simpa [Table.put, haq] using hp
        exact List.mem_cons_of_mem _ (hw.live a p hp')
    · intro a p hp
      by_cases haq : a = q
      · subst haq
        obtain rfl : o' = p := by simpa [Table.put] using hp
        exact hholds
      · have hp' : w.table.objects a = some p := by simpa [Table.put, haq] using hp
        have hlive := hw.live a p hp'
        have hapart := hinv.block_apart _ _ hmem (List.mem_cons_of_mem _ hlive) (Ne.symm haq)
        refine (hw.shows.objects a p hp').congr fun x h1 h2 => ?_
        unfold Apart at hapart
        exact (hm x (by omega)).trans (hkept _ hlive x h1 h2)

theorem Inv.closed (fuel : Nat) (handle : Nat) (hheap : w.s.h.heap ≠ 0) (hfuel : weight pages + 5 ≤ fuel) :
    ∃ s', uacpi_kernel_free fuel handle w.s = some s' ∧ ∃ live' pages', weight pages' ≤ weight pages + 3 ∧
      Inv layout ⟨s', w.table.drop handle⟩ live' pages' := by
  obtain ⟨ok, h', live', pages', hc, hinv, hweight, hkept, hlive⟩ :=
    client_kfree fuel w.s.h live pages handle hw.heap hheap hfuel
  have hother : ∀ a o, (w.table.drop handle).objects a = some o → a ≠ handle ∧ w.table.objects a = some o := by
    intro a o ho
    by_cases hah : a = handle
    · subst hah
      simp [Table.drop] at ho
    · exact ⟨hah, by simpa [Table.drop, hah] using ho⟩
  refine ⟨{ w.s with h := h' }, ?_, live', pages', hweight, hinv, ?_, ?_, hw.shows.accesses⟩
  · simp only [uacpi_kernel_free, hc, Option.bind_eq_bind, Option.bind_some]
  · intro a o ho
    obtain ⟨hah, ho⟩ := hother a o ho
    exact hlive _ (hw.live a o ho) hah
  · intro a o ho
    obtain ⟨-, ho⟩ := hother a o ho
    exact (hw.shows.objects a o ho).congr (hkept _ (hw.live a o ho))

theorem Inv.reached (s' : State) (a : Access) (hh : s'.h = w.s.h) (ha : s'.accesses = a :: w.s.accesses) :
    Inv layout ⟨s', w.table.reach a⟩ live pages := by
  refine ⟨by rw [hh]; exact hw.heap, hw.live, ?_, ?_⟩
  · intro b o ho
    rw [hh]
    exact hw.shows.objects b o ho
  · rw [ha, hw.shows.accesses]
    rfl

theorem Inv.stored (handle addr : Nat) (byte : BitVec 8) (howns : w.table.Owns handle addr) :
    Inv layout ⟨{ w.s with h := { w.s.h with mem := Function.update w.s.h.mem addr byte } },
      w.table.next layout 0 (fun _ => 0) (.store addr byte)⟩ live pages := by
  obtain ⟨size, bytes, hblock, hlo, hhi⟩ := howns
  have hlive := hw.live handle _ hblock
  have hobject : ∀ a o, (w.table.next layout 0 (fun _ => 0) (.store addr byte)).objects a = some o →
      ∃ p, w.table.objects a = some p ∧ o = p.poke a addr byte := by
    intro a o ho
    obtain ⟨p, hp, rfl⟩ := Option.map_eq_some_iff.mp ho
    exact ⟨p, hp, rfl⟩
  refine ⟨client_write _ live pages _ _ hw.heap hlive ?_, ?_, ?_, hw.shows.accesses⟩
  · intro x hx
    simp only [Object.size] at hx
    exact Function.update_of_ne (by omega) _ _
  · intro a o ho
    obtain ⟨p, hp, rfl⟩ := hobject a o ho
    rw [poke_size]
    exact hw.live a p hp
  · intro a o ho
    obtain ⟨p, hp, rfl⟩ := hobject a o ho
    have hholds := hw.shows.objects a p hp
    by_cases hah : a = handle
    · subst hah
      obtain rfl : Object.block size bytes = p := Option.some.inj (hblock.symm.trans hp)
      simp only [Object.poke, if_pos (And.intro hlo hhi)]
      intro k hk
      by_cases hk' : a + k = addr
      · rw [hk', Function.update_self, show k = addr - a by omega, Function.update_self]
      · rw [Function.update_of_ne hk', Function.update_of_ne (by omega)]
        exact hholds k hk
    · -- No other object has the byte.
      have hapart := hw.heap.block_apart _ _ hlive (hw.live a p hp) (Ne.symm hah)
      have hpoke : p.poke a addr byte = p := by
        cases p with
        | block n data =>
          simp only [Object.size, Apart] at hapart
          exact if_neg (by omega)
        | ports base len => rfl
        | device address => rfl
      rw [hpoke]
      refine hholds.congr fun x h1 h2 => ?_
      simp only [Object.size, Apart] at hapart h2
      exact Function.update_of_ne (by omega) _ _

theorem Inv.heap_ne (handle : Nat) (o : Object) (ho : w.table.objects handle = some o) : w.s.h.heap ≠ 0 :=
  hw.heap.heap_ne _ (hw.live handle o ho)

theorem Inv.keeps_reached (fuel : Nat) (c : Call) (s' : State) (a : Access)
    (hc : perform fuel layout w.s c = some (0, s')) (hh : s'.h = w.s.h) (ha : s'.accesses = a :: w.s.accesses)
    (ht : w.table.next layout 0 (fun k => s'.h.mem (0 + k)) c = w.table.reach a) : Keeps fuel layout w pages c :=
  keeps_of fuel layout w pages c s' _ hc ht ⟨live, pages, by omega, hw.reached s' a hh ha⟩

theorem Inv.keeps_closed (fuel : Nat) (c : Call) (handle : Nat) (hheap : w.s.h.heap ≠ 0)
    (hfuel : weight pages + 5 ≤ fuel)
    (hc : perform fuel layout w.s c = (uacpi_kernel_free fuel handle w.s).map fun s => (0, s))
    (ht : ∀ initial, w.table.next layout 0 initial c = w.table.drop handle) : Keeps fuel layout w pages c := by
  obtain ⟨s', hs', live', pages', hweight, hinv⟩ := hw.closed fuel handle hheap hfuel
  exact keeps_of fuel layout w pages c s' _ (by rw [hc, hs']; rfl) (ht _) ⟨live', pages', hweight, hinv⟩

theorem Inv.fields (handle : Nat) (address : Nat → BitVec 8) (hok : layout.Ok)
    (ho : w.table.objects handle = some (.device address)) :
    w.s.h.mem (handle + layout.bus) = address layout.bus ∧
    w.s.h.mem (handle + layout.device) = address layout.device ∧
    w.s.h.mem (handle + layout.function) = address layout.function := by
  have h := hw.shows.objects handle _ ho
  exact ⟨h _ hok.bus, h _ hok.device, h _ hok.function⟩

theorem Inv.step (fuel : Nat) (c : Call) (hok : layout.Ok) (hlegal : Legal fuel layout w c)
    (hfuel : weight pages + 5 ≤ fuel) : Keeps fuel layout w pages c := by
  cases c with
  | alloc size =>
    obtain ⟨q, h', hc, hfresh, pages', hweight, hinv⟩ := hw.opened fuel (.block size fun _ => 0) hlegal hfuel
    refine ⟨(q, { w.s with h := h' }), ?_, fun _ => hfresh, (q, size) :: live, pages', hweight, ?_⟩
    · simp only [Object.size] at hc
      simp only [perform, uacpi_kernel_alloc, hc, Option.bind_eq_bind, Option.bind_some]
    · exact hinv h'.mem (.block size fun k => h'.mem (q + k)) rfl (fun k _ => rfl) fun _ _ => rfl
  | free mem => exact hw.keeps_closed fuel _ mem hlegal.1 hfuel rfl fun _ => rfl
  | store addr byte =>
    obtain ⟨handle, howns⟩ := hlegal
    exact keeps_of fuel layout w pages _ _ _ rfl rfl ⟨live, pages, by omega, hw.stored handle addr byte howns⟩
  | pci_open address =>
    obtain ⟨q, h', hc, hfresh, pages', hweight, hinv⟩ := hw.opened fuel (.device address) hlegal hfuel
    refine ⟨(q, { w.s with h := { h' with mem := copy layout.size address q h'.mem } }), ?_, fun _ => hfresh,
      (q, layout.size) :: live, pages', hweight, ?_⟩
    · simp only [Object.size] at hc
      simp only [perform, uacpi_kernel_pci_device_open, hc, Option.bind_eq_bind, Option.bind_some, Option.map_some]
    · exact hinv _ _ rfl (copy_holds layout address q h'.mem) (copy_outside layout.size address q h'.mem)
  | pci_close handle =>
    obtain ⟨address, ho⟩ := hlegal
    exact hw.keeps_closed fuel _ handle (hw.heap_ne handle _ ho) hfuel rfl fun _ => rfl
  | pci_read width handle offset =>
    obtain ⟨address, ho⟩ := hlegal
    obtain ⟨hbus, hdevice, hfunction⟩ := hw.fields handle address hok ho
    refine hw.keeps_reached fuel _ _ _ rfl rfl rfl ?_
    simp only [Table.next, ho, hbus, hdevice, hfunction]
  | pci_write width handle offset value =>
    obtain ⟨address, ho⟩ := hlegal
    obtain ⟨hbus, hdevice, hfunction⟩ := hw.fields handle address hok ho
    refine hw.keeps_reached fuel _ _ _ rfl rfl rfl ?_
    simp only [Table.next, ho, hbus, hdevice, hfunction]
  | io_map base len =>
    obtain ⟨q, h', hc, hfresh, pages', hweight, hinv⟩ := hw.opened fuel (.ports base len) hlegal hfuel
    refine ⟨(q, { w.s with h := { h' with mem := portsRecord base len q h'.mem } }), ?_, fun _ => hfresh,
      (q, UACPI_IO) :: live, pages', hweight, ?_⟩
    · simp only [Object.size] at hc
      simp only [perform, uacpi_kernel_io_map, hc, Option.bind_eq_bind, Option.bind_some, Option.map_some]
      rfl
    · exact hinv _ _ rfl (portsRecord_holds layout base len q h'.mem) (portsRecord_outside base len q h'.mem)
  | io_unmap handle =>
    obtain ⟨base, len, ho⟩ := hlegal
    exact hw.keeps_closed fuel _ handle (hw.heap_ne handle _ ho) hfuel rfl fun _ => rfl
  | io_read width handle offset =>
    obtain ⟨base, len, ho⟩ := hlegal
    refine hw.keeps_reached fuel _ _ _ rfl rfl rfl ?_
    simp only [Table.next, ho, io_port_eq w.s layout handle base len offset (hw.shows.objects handle _ ho)]
  | io_write width handle offset value =>
    obtain ⟨base, len, ho⟩ := hlegal
    refine hw.keeps_reached fuel _ _ _ rfl rfl rfl ?_
    simp only [Table.next, ho, io_port_eq w.s layout handle base len offset (hw.shows.objects handle _ ho)]

end

/-! ## Runs -/

theorem boot_inv (layout : PciLayout) (mem : Mem) (allocs : Nat → Nat) (answers : Nat → BitVec 32) :
    Inv layout (boot mem allocs answers) [] [] := by
  refine ⟨Heap.boot_inv mem allocs, ?_, ?_, rfl⟩
  · intro a o ho
    simp [boot] at ho
  · intro a o ho
    simp [boot] at ho

/-- In every run each access goes to the port or to the PCI function that its handle was
opened for, no handle is given out while it is in use, and the blocks hold what was stored
in them. -/
theorem run_faithful (layout : PciLayout) (hok : layout.Ok) (mem : Mem) (allocs : Nat → Nat)
    (answers : Nat → BitVec 32) (cs : List Call) (fuel : Nat) (hfuel : 3 * cs.length + 5 ≤ fuel)
    (hcs : Along (step fuel layout) (Legal fuel layout) (boot mem allocs answers) cs) :
    Along (step fuel layout) (Faithful fuel layout) (boot mem allocs answers) cs ∧
    ∃ w, run (step fuel layout) (boot mem allocs answers) cs = some w ∧ Shows layout w := by
  have hcount := run_count (fun n w => ∃ live pages, Inv layout w live pages ∧ weight pages ≤ 3 * n)
    (Q := Faithful fuel layout) cs.length ?_ 0 (boot mem allocs answers) cs (by omega)
    ⟨[], [], boot_inv layout mem allocs answers, by simp [weight]⟩ hcs
  · obtain ⟨hfaithful, w, hw, live, pages, hinv, -⟩ := hcount
    exact ⟨hfaithful, w, hw, hinv.shows⟩
  · rintro n w c hn ⟨live, pages, hinv, hweight⟩ hlegal
    obtain ⟨r, hr, hfresh, live', pages', hweight', hinv'⟩ := hinv.step fuel c hok hlegal (by omega)
    refine ⟨⟨r, hr, hinv'.shows, hfresh⟩, _, ?_, live', pages', hinv', by omega⟩
    simp only [step, hr, Option.bind_eq_bind, Option.bind_some]

/-- The ports of the keyboard controller, and a read of its status. -/
def keyboard : List Call := [.io_map 0x60 5, .io_read .byte 0x100040 4]

def packed : PciLayout := ⟨6, 2, 3, 4⟩

def keyboardBoot : World := boot (fun _ => 0) (fun i => 0x100000 + i * 0x10000) fun _ => 0x1d

def portsOf (t : Table) (handle : Nat) : Option (BitVec 64 × BitVec 64) :=
  match t.objects handle with
  | some (.ports base len) => some (base, len)
  | _ => none

theorem keyboard_legal : Along (step 20 packed) (Legal 20 packed) keyboardBoot keyboard := by
  refine ⟨⟨by decide, fun _ => ⟨⟨by decide, by decide, by decide⟩, by decide⟩⟩, fun w hw => ⟨?_, fun _ _ => trivial⟩⟩
  have h : (step 20 packed keyboardBoot (.io_map 0x60 5)).map (fun w => portsOf w.table 0x100040) =
      some (some (0x60, 5)) := by
    decide +kernel
  rw [hw, Option.map_some, Option.some.injEq] at h
  unfold portsOf at h
  split at h
  · exact ⟨_, _, by assumption⟩
  · simp at h

theorem run_faithful_keyboard :
    Along (step 20 packed) (Faithful 20 packed) keyboardBoot keyboard ∧
    ∃ w, run (step 20 packed) keyboardBoot keyboard = some w ∧ Shows packed w :=
  run_faithful packed ⟨by decide, by decide, by decide⟩ _ _ _ keyboard 20 (by decide) keyboard_legal

end SlayerOS.Kapi
