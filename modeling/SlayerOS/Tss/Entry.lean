import SlayerOS.Frames.Stacks
import SlayerOS.Interrupts.Dispatch
import SlayerOS.Tss.Code

/-!
# The stack of an interrupt

The processor finds the TSS through its descriptor, and the stack in the TSS through the number in
the gate. Exceptions start on the first stack, and interrupts on the second.
-/

open SlayerOS.Bytes
open SlayerOS.Interrupts
open SlayerOS.Frames (frameAddr stackCount stackTop init_stacks_stacked)

namespace SlayerOS.Tss

/-! ## The descriptor -/

theorem decode_create (tss_addr : BitVec 64) :
    decode (create_tss_descriptor tss_addr) (create_tss_descriptor_high tss_addr) = ⟨tss_addr, 103, 0x89, 0⟩ := by
  unfold decode create_tss_descriptor create_tss_descriptor_high describe
  dsimp only
  congr 1
  · ext i hi
    simp only [BitVec.getElem_append, BitVec.getElem_extractLsb']
    interval_cases i <;> simp [sizeof_TaskStateSegment]
  · ext i hi
    simp only [BitVec.getElem_append, BitVec.getElem_extractLsb']
    interval_cases i <;> simp [sizeof_TaskStateSegment]
  · ext i hi
    simp only [BitVec.getElem_extractLsb']
    interval_cases i <;> simp [sizeof_TaskStateSegment]
  · ext i hi
    simp only [BitVec.getElem_extractLsb']
    interval_cases i <;> simp [sizeof_TaskStateSegment]

theorem task_segment_init (tss_addr : BitVec 64) :
    task_segment (gdt_init tss_addr) = some ⟨tss_addr, 103, 0x89, 0⟩ := by
  have hdecode := decode_create tss_addr
  unfold task_segment gdt_init
  simp [ENTRIES_NUM, table, hdecode]

/-! ## The fields -/

/-- The bytes that fields take. -/
def width (fields : List (Nat × Nat)) : Nat := (fields.map Prod.fst).sum

theorem read_pack (before rest : List (Nat × Nat)) (size value a : Nat) (m : Mem) :
    Bytes.read size (pack (before ++ (size, value) :: rest) a m) (a + width before) = value % 256 ^ size := by
  induction before generalizing a with
  | nil => exact read_write_same _ _ _ _
  | cons field before ih =>
    have hstart : a + width (field :: before) = a + field.1 + width before := by
      simp [width, Nat.add_assoc]
    rw [hstart, List.cons_append, pack, read_write_apart _ _ _ _ _ _ (Or.inl (by omega))]
    exact ih (a + field.1)

theorem width_tops (tops : List Nat) : width (tops.map fun top => (8, top)) = 8 * tops.length := by
  induction tops with
  | nil => rfl
  | cons top tops ih =>
    simp only [width, List.map_cons, List.sum_cons, List.length_cons] at *
    omega

def TaskStateSegment.ists (t : TaskStateSegment) : List Nat :=
  [t.ist1, t.ist2, t.ist3, t.ist4, t.ist5, t.ist6, t.ist7]

/-- The fields before the stacks of the interrupts. -/
def TaskStateSegment.head (t : TaskStateSegment) : List (Nat × Nat) :=
  [(4, t.reserved1), (8, t.rsp0), (8, t.rsp1), (8, t.rsp2), (8, t.reserved2)]

theorem fields_eq (t : TaskStateSegment) :
    t.fields = t.head ++ (t.ists.map (fun top => (8, top)) ++
      [(8, t.reserved3), (2, t.reserved4), (2, t.iopb_offset)]) := rfl

theorem read_ist (t : TaskStateSegment) (a : Nat) (m : Mem) (i top : Nat) (h : t.ists[i]? = some top) :
    Bytes.read 8 (pack t.fields a m) (a + 36 + 8 * i) = top % 2 ^ 64 := by
  obtain ⟨hi, htop⟩ := List.getElem?_eq_some_iff.mp h
  have hsplit : t.ists = t.ists.take i ++ top :: t.ists.drop (i + 1) := by
    rw [← htop, ← List.drop_eq_getElem_cons hi, List.take_append_drop]
  have hwidth : width (t.head ++ (t.ists.take i).map fun top => (8, top)) = 36 + 8 * i := by
    have htops := width_tops (t.ists.take i)
    rw [List.length_take, Nat.min_eq_left (Nat.le_of_lt hi)] at htops
    unfold width at *
    rw [List.map_append, List.sum_append, htops]
    rfl
  rw [fields_eq, hsplit, List.map_append, List.append_assoc, ← List.append_assoc t.head, List.map_cons,
    List.cons_append, Nat.add_assoc, ← hwidth]
  exact read_pack _ _ 8 top a m

theorem entry_stack_eq (tss_addr : BitVec 64) (t : TaskStateSegment) (m : Mem) (i top : Nat)
    (h : t.ists[i]? = some top) :
    entry_stack (gdt_init tss_addr) (pack t.fields tss_addr.toNat m) (i + 1) = some (top % 2 ^ 64) := by
  have hi : i < 7 := (List.getElem?_eq_some_iff.mp h).1
  have hlimit : (103 : BitVec 20).toNat = 103 := rfl
  unfold entry_stack
  rw [task_segment_init]
  simp only [Option.bind_eq_bind, Option.bind_some, Nat.add_sub_cancel, hlimit]
  rw [if_neg (by omega), read_ist t _ m i top h]

/-! ## The stacks -/

theorem set_ist_ists (t : TaskStateSegment) (i stack_top : Nat) :
    (set_ist t (i + 1) stack_top).ists = t.ists.set i stack_top := by
  rcases Nat.lt_or_ge i 7 with hi | hi
  · interval_cases i <;> rfl
  · have hlength : t.ists.length ≤ i := hi
    rw [List.set_eq_of_length_le hlength]
    unfold set_ist
    split <;> first | omega | rfl

theorem set_ists_get (tops : List Nat) (t : TaskStateSegment) (i k : Nat) (hk : k < 7) :
    (set_ists t (i + 1) tops).ists[k]? = if i ≤ k ∧ k < i + tops.length then tops[k - i]? else t.ists[k]? := by
  induction tops generalizing t i with
  | nil =>
    rw [if_neg (by simp)]
    rfl
  | cons top tops ih =>
    rw [set_ists, ih, set_ist_ists, List.length_cons]
    rcases Nat.lt_trichotomy i k with hlt | rfl | hgt
    · rw [List.getElem?_set_ne (by omega), show k - i = k - (i + 1) + 1 by omega, List.getElem?_cons_succ]
      exact if_congr (by omega) rfl rfl
    · rw [if_neg (by omega), if_pos (by omega), Nat.sub_self, List.getElem?_set_self hk]
      rfl
    · rw [if_neg (by omega), if_neg (by omega), List.getElem?_set_ne (by omega)]

theorem set_kernel_stacks_ists (pointers : List Nat) (t : TaskStateSegment) :
    (pointers.foldl set_kernel_stack t).ists = t.ists := by
  induction pointers generalizing t with
  | nil => rfl
  | cons pointer pointers ih => exact ih (set_kernel_stack t pointer)

theorem init_stacks_get (s : Frames.State) (hlt : s.available_frames < 2 ^ 32) (hcur : s.latest_frame = 0)
    (hclear : ∀ q, q < s.available_frames → s.frames q = false) (k : Nat) (hk : k < 7) :
    (init_stacks init s).1.ists[k]? = some (if k < stackCount s.available_frames then stackTop s k else 0) := by
  have hget := set_ists_get ((List.range (min 7 (stackCount s.available_frames))).map (stackTop s)) init 0 k hk
  have hstacks := congrArg Frames.Stacks.ist (init_stacks_stacked s hlt hcur hclear).1
  unfold init_stacks
  dsimp only at hstacks ⊢
  rw [hstacks]
  rw [hget, List.length_map, List.length_range, List.getElem?_map, Nat.sub_zero]
  by_cases hfits : k < stackCount s.available_frames
  · rw [if_pos (by omega), if_pos hfits, List.getElem?_range (by omega)]
    rfl
  · rw [if_neg (by omega), if_neg hfits]
    interval_cases k <;> rfl

/-! ## From the vector to the stack -/

/-- After any calls, an interrupt with a gate starts on the second stack if it is the timer's or a
call took its gate, and on the first one otherwise. If the area had no room for the stack, it starts
at 0. -/
theorem interrupt_stack (sym : Symbols) (calls : List Call) (hcalls : ∀ c ∈ calls, c.Ok) (s : Frames.State)
    (hlt : s.available_frames < 2 ^ 32) (hcur : s.latest_frame = 0)
    (hclear : ∀ q, q < s.available_frames → s.frames q = false) (hend : ∀ i, i < 2 → stackTop s i < 2 ^ 64)
    (pointers : List Nat) (tss_addr : BitVec 64) (m : Mem) (v : Nat) (hpresent : ((afterIrq sym calls).idt v).present) :
    entry_stack (gdt_init tss_addr)
        (pack (pointers.foldl set_kernel_stack (init_stacks init s).1).fields tss_addr.toNat m)
        ((afterIrq sym calls).idt v).ist =
      some (if v = 0x20 ∨ ∃ c ∈ calls, c.target = some v then
          if 1 < stackCount s.available_frames then stackTop s 1 else 0
        else if 0 < stackCount s.available_frames then stackTop s 0 else 0) := by
  have hentry : ∀ k, k < 2 → entry_stack (gdt_init tss_addr)
      (pack (pointers.foldl set_kernel_stack (init_stacks init s).1).fields tss_addr.toNat m) (k + 1) =
      some (if k < stackCount s.available_frames then stackTop s k else 0) := by
    intro k hk
    have hget := init_stacks_get s hlt hcur hclear k (by omega)
    rw [← set_kernel_stacks_ists pointers] at hget
    have htop := hend k hk
    rw [entry_stack_eq tss_addr _ m k _ hget, Nat.mod_eq_of_lt (by split <;> omega)]
  have hgate := (run_gates sym calls _ (irq_init_inv sym) hcalls).2 v
  rw [irq_init_gate] at hgate
  unfold afterIrq at hpresent ⊢
  rw [hgate] at hpresent ⊢
  by_cases hcall : ∃ c ∈ calls, c.target = some v
  · rw [if_pos hcall, if_pos (Or.inr hcall)]
    exact hentry 1 (by decide)
  · rw [if_neg hcall] at hpresent ⊢
    by_cases htimer : v = 0x20
    · rw [if_pos htimer, if_pos (Or.inl htimer)]
      exact hentry 1 (by decide)
    · rw [if_neg htimer] at hpresent ⊢
      rw [if_neg (not_or.mpr ⟨htimer, hcall⟩)]
      split at hpresent
      · rename_i hearly
        rw [if_pos hearly]
        exact hentry 0 (by decide)
      · rw [emptyGate_present] at hpresent
        cases hpresent

/-- The page fault and the timer, after a boot with 64 frames. -/
theorem interrupt_stack_fault :
    entry_stack (gdt_init 0xFFFFFFFF80012340)
        (pack ([].foldl set_kernel_stack (init_stacks init (Frames.cleared 64 0x100000 (fun _ => 0))).1).fields
          0xFFFFFFFF80012340 (fun _ => 0))
        ((afterIrq linked []).idt 14).ist = some 0x104000 := by
  refine (interrupt_stack linked [] (by simp) (Frames.cleared 64 0x100000 (fun _ => 0)) (by decide) rfl
    (fun _ _ => rfl) (by decide) [] 0xFFFFFFFF80012340 (fun _ => 0) 14 ?_).trans ?_
  · rw [afterIrq, List.foldl_nil, irq_init_gate]
    decide
  · decide

end SlayerOS.Tss
