import SlayerOS.Frames.Address
import SlayerOS.Paging.Proofs

/-!
# The allocator under the page tables

The kernel takes single frames for its own use and gives them back, and `map` takes
frames for its tables and keeps them. Here both go to one allocator.
-/

open SlayerOS.Bytes SlayerOS.Frames SlayerOS.Run

namespace SlayerOS.Owners

/-! ## The system -/

/-- The allocator with all that is owned, and the page tables over the same memory. -/
structure Kernel where
  world : World
  paging : Paging.State

inductive Event where
  | call (c : Call)
  | map (phys virt flags : Nat)
deriving DecidableEq, Repr

/-- The results of the `alloc` calls from `s` on, with 0 for null. -/
def results (s : State) : Nat → Nat
  | 0 => (alloc s).1.getD 0
  | i + 1 => results (alloc s).2 i

/-- `n` calls of `alloc`. -/
def allocTimes (w : World) (n : Nat) : World := (fun w => next w .alloc)^[n] w

/-- The page tables with the allocator `s` behind `Mem::Frame::alloc`. -/
def supplied (p : Paging.State) (s : State) : Paging.State :=
  { p with frames := fun i => results s (i - p.calls.length) }

def nextKernel (k : Kernel) : Event → Kernel
  | .call c =>
    let world := next k.world c
    { world, paging := { k.paging with mem := world.s.mem } }
  | .map phys virt flags =>
    let paging := Paging.next (supplied k.paging k.world.s) (.map phys virt flags)
    let world := allocTimes k.world (paging.calls.length - k.paging.calls.length)
    { world := { world with s := { world.s with mem := paging.mem } }, paging }

def step (k : Kernel) (e : Event) : Option Kernel := some (nextKernel k e)

/-- No table is there yet, and the two parts see the same memory. -/
def boot (s : State) (p : Paging.State) : Kernel :=
  { world := ⟨s, []⟩, paging := { p with mem := s.mem, calls := [] } }

/-- The frames that `map` has taken, without the null results. -/
def tableFrames (k : Kernel) : List Nat := (k.paging.calls.map Prod.snd).filter (· ≠ 0)

/-- Single frames only, and each client frees what it owns. The tables keep theirs. -/
def Legal (k : Kernel) : Event → Prop
  | .call .alloc => True
  | .call (.allocs _) => False
  | .call (.free j) => j ∈ k.world.owned ∧ frameAddr k.world.s j ∉ tableFrames k
  | .map _ _ _ => True

/-- A call of `alloc` here hands out a frame that nobody owns, and sets its flag and no
other. A null result changes no flag. -/
def TakesOne (w : World) : Prop :=
  (∀ p, (alloc w.s).1 = some p → ∃ i, i < w.s.available_frames ∧ p = frameAddr w.s i ∧ i ∉ w.owned ∧
    (alloc w.s).2.frames = Function.update w.s.frames i true) ∧
  ((alloc w.s).1 = none → (alloc w.s).2.frames = w.s.frames)

/-- The `alloc` calls of an event. Those of `map` come one after the other. -/
def AllocsTakeOne (k : Kernel) : Event → Prop
  | .call .alloc => TakesOne k.world
  | .call _ => True
  | .map _ _ _ => ∀ j, TakesOne (allocTimes k.world j)

/-! ## `alloc`, once and many times -/

theorem takesOne (w : World) (hw : Inv w) : TakesOne w := by
  have hsmall := hw.small
  rcases alloc_spec w.s (by omega) hw.cursor with ⟨i, -, hi, hfree, -, heq⟩ | ⟨-, heq⟩
  · rw [handed_eq w.s i (by omega)] at heq
    refine ⟨?_, by simp [heq]⟩
    intro p hp
    rw [heq, Option.some.injEq] at hp
    exact ⟨i, hi, hp.symm, hw.not_owned hi hfree, by rw [heq]⟩
  · exact ⟨by simp [heq], by simp [heq]⟩

theorem next_frameAddr (w : World) (c : Call) (j : Nat) : frameAddr (next w c).s j = frameAddr w.s j := by
  unfold frameAddr next
  rw [(after_area w.s c).2]

/-- The calls between `w` and `w'` took these frames: nobody owned one before, no two of
them are the same, and they are owned now. -/
structure Taken (w w' : World) (frames : List Nat) : Prop where
  inv : Inv w'
  addr : ∀ j, frameAddr w'.s j = frameAddr w.s j
  keep : ∀ j ∈ w.owned, j ∈ w'.owned
  nodup : frames.Nodup
  owned : ∀ p ∈ frames, ∃ j, j ∈ w'.owned ∧ j ∉ w.owned ∧ p = frameAddr w.s j

theorem Taken.trans {w w' w'' : World} {fs gs : List Nat} (h : Taken w w' fs) (h' : Taken w' w'' gs) :
    Taken w w'' (fs ++ gs) := by
  refine ⟨h'.inv, fun j => (h'.addr j).trans (h.addr j), fun j hj => h'.keep j (h.keep j hj), ?_, ?_⟩
  · refine List.nodup_append.mpr ⟨h.nodup, h'.nodup, ?_⟩
    rintro p hp _ hq rfl
    obtain ⟨i, hi, -, hpi⟩ := h.owned p hp
    obtain ⟨j, -, hj, hpj⟩ := h'.owned p hq
    rw [h.addr] at hpj
    exact hj (frameAddr_inj w.s i j (hpi.symm.trans hpj) ▸ hi)
  · intro p hp
    rcases List.mem_append.mp hp with hp | hp
    · obtain ⟨j, hj, hnew, hpj⟩ := h.owned p hp
      exact ⟨j, h'.keep j hj, hnew, hpj⟩
    · obtain ⟨j, hj, hnew, hpj⟩ := h'.owned p hp
      exact ⟨j, hj, fun hold => hnew (h.keep j hold), by rw [hpj, h.addr]⟩

theorem alloc_taken (w : World) (hw : Inv w) :
    Taken w (next w .alloc) ([(alloc w.s).1.getD 0].filter (· ≠ 0)) := by
  have hinv := next_inv w .alloc hw trivial (fresh_alloc w hw)
  cases hr : (alloc w.s).1 with
  | none =>
    have hown : (next w .alloc).owned = w.owned := by simp [next, granted, result, hr]
    exact ⟨hinv, next_frameAddr w .alloc, by simp [hown], by simp, by simp⟩
  | some p =>
    obtain ⟨i, -, rfl, hi, -⟩ := (takesOne w hw).1 p hr
    have hown : (next w .alloc).owned = i :: w.owned := by simp [next, granted, result, hr, Call.size]
    refine ⟨hinv, next_frameAddr w .alloc, ?_, (List.pairwise_singleton _ _).filter _, ?_⟩
    · intro j hj
      rw [hown]
      exact List.mem_cons_of_mem _ hj
    · intro p hp
      obtain rfl := List.mem_singleton.mp (List.mem_of_mem_filter hp)
      exact ⟨i, by rw [hown]; exact List.mem_cons_self, hi, rfl⟩

theorem allocTimes_taken (n : Nat) (w : World) (hw : Inv w) :
    Taken w (allocTimes w n) (((List.range n).map (results w.s)).filter (· ≠ 0)) := by
  induction n generalizing w with
  | zero => exact ⟨hw, fun _ => rfl, fun _ h => h, by simp, by simp⟩
  | succ n ih =>
    have hfirst := alloc_taken w hw
    have hsplit : (List.range (n + 1)).map (results w.s) =
        [(alloc w.s).1.getD 0] ++ (List.range n).map (results (next w .alloc).s) := by
      rw [List.range_succ_eq_map, List.map_cons, List.map_map]
      rfl
    rw [hsplit, List.filter_append]
    exact hfirst.trans (ih (next w .alloc) hfirst.inv)

/-! ## The calls of `map` -/

/-- What happened between `p` and `q` called `alloc` some number of times. -/
def Draws (p q : Paging.State) : Prop :=
  q.frames = p.frames ∧ ∃ n, q.calls.length = p.calls.length + n ∧
    q.calls.map Prod.snd = p.calls.map Prod.snd ++ (List.range' p.calls.length n).map p.frames

theorem Draws.trans {p q r : Paging.State} (h : Draws p q) (h' : Draws q r) : Draws p r := by
  obtain ⟨hframes, n, hlen, hcalls⟩ := h
  obtain ⟨hframes', m, hlen', hcalls'⟩ := h'
  refine ⟨hframes'.trans hframes, n + m, by omega, ?_⟩
  rw [hcalls', hcalls, hframes, hlen, List.append_assoc, ← List.map_append, List.range'_append_1]

theorem next_table_draws (p : Paging.State) (table index : Nat) :
    Draws p (Paging.next_table p table index).2 := by
  refine ⟨(Paging.next_table_later p table index).frames, ?_⟩
  by_cases h : Paging.present (Paging.entry p.mem table index) = true
  · refine ⟨0, ?_⟩
    rw [Paging.next_table_present p table index h]
    simp
  · refine ⟨1, ?_⟩
    have hcalls : (Paging.next_table p table index).2.calls =
        p.calls ++ [(p.mem, p.frames p.calls.length)] := by
      rw [Paging.next_table_absent p table index h]
      rfl
    rw [hcalls]
    simp

theorem map_draws (p : Paging.State) (phys virt flags : Nat) :
    Draws p (Paging.next p (.map phys virt flags)) := by
  have hlast : Draws p (Paging.lastTable p virt).2 :=
    (next_table_draws _ _ _).trans ((next_table_draws _ _ _).trans (next_table_draws _ _ _))
  obtain ⟨hframes, n, hlen, hcalls⟩ := hlast
  rw [← Paging.map_calls p phys virt flags] at hlen hcalls
  exact ⟨(Paging.map_later p phys virt flags).frames.trans hframes, n, hlen, hcalls⟩

/-! ## Runs -/

/-- Flags and owners agree, and every table has an owned frame of its own. -/
structure KernelInv (k : Kernel) : Prop where
  inv : Inv k.world
  tables : (tableFrames k).Nodup
  owned : ∀ p ∈ tableFrames k, ∃ j ∈ k.world.owned, p = frameAddr k.world.s j

theorem map_inv (k : Kernel) (phys virt flags : Nat) (hk : KernelInv k) :
    KernelInv (nextKernel k (.map phys virt flags)) := by
  obtain ⟨-, n, hlen, hcalls⟩ := map_draws (supplied k.paging k.world.s) phys virt flags
  have htaken := allocTimes_taken n k.world hk.inv
  -- The calls of `map` see the results of the allocator from the first one on.
  have hframes : (List.range' k.paging.calls.length n).map (supplied k.paging k.world.s).frames =
      (List.range n).map (results k.world.s) := by
    rw [List.range'_eq_map_range, List.map_map]
    apply List.map_congr_left
    intro i hi
    simp [supplied]
  have htables : tableFrames (nextKernel k (.map phys virt flags)) =
      tableFrames k ++ ((List.range n).map (results k.world.s)).filter (· ≠ 0) := by
    unfold tableFrames nextKernel
    simp only
    rw [hcalls, List.filter_append]
    exact congrArg _ (congrArg _ hframes)
  have hworld : (nextKernel k (.map phys virt flags)).world =
      { allocTimes k.world n with
        s := { (allocTimes k.world n).s with
          mem := (Paging.next (supplied k.paging k.world.s) (.map phys virt flags)).mem } } := by
    unfold nextKernel
    simp only
    rw [show (Paging.next (supplied k.paging k.world.s) (.map phys virt flags)).calls.length -
      k.paging.calls.length = n by rw [hlen]; exact Nat.add_sub_cancel_left _ _]
  refine ⟨?_, ?_, ?_⟩
  · rw [hworld]
    exact ⟨htaken.inv.small, htaken.inv.cursor, htaken.inv.flags, htaken.inv.inside, htaken.inv.nodup⟩
  · rw [htables]
    refine List.nodup_append.mpr ⟨hk.tables, htaken.nodup, ?_⟩
    rintro p hp _ hq rfl
    obtain ⟨i, hi, hpi⟩ := hk.owned p hp
    obtain ⟨j, -, hj, hpj⟩ := htaken.owned p hq
    exact hj (frameAddr_inj k.world.s i j (hpi.symm.trans hpj) ▸ hi)
  · rw [htables, hworld]
    intro p hp
    rcases List.mem_append.mp hp with hp | hp
    · obtain ⟨j, hj, hpj⟩ := hk.owned p hp
      exact ⟨j, htaken.keep j hj, hpj.trans (htaken.addr j).symm⟩
    · obtain ⟨j, hj, -, hpj⟩ := htaken.owned p hp
      exact ⟨j, hj, hpj.trans (htaken.addr j).symm⟩

theorem nextKernel_inv (k : Kernel) (e : Event) (hk : KernelInv k) (he : Legal k e) :
    KernelInv (nextKernel k e) := by
  cases e with
  | map phys virt flags => exact map_inv k phys virt flags hk
  | call c =>
    cases c with
    | allocs n => exact he.elim
    | alloc =>
      have htaken := alloc_taken k.world hk.inv
      refine ⟨htaken.inv, hk.tables, ?_⟩
      intro p hp
      obtain ⟨j, hj, hpj⟩ := hk.owned p hp
      exact ⟨j, htaken.keep j hj, hpj.trans (htaken.addr j).symm⟩
    | free i =>
      obtain ⟨hi, htable⟩ := he
      refine ⟨next_inv k.world (.free i) hk.inv hi (fresh_free k.world i), hk.tables, ?_⟩
      intro p hp
      obtain ⟨j, hj, hpj⟩ := hk.owned p hp
      have hne : j ≠ i := by
        rintro rfl
        exact htable (hpj ▸ hp)
      exact ⟨j, (List.mem_erase_of_ne hne).mpr hj, hpj⟩

theorem allocsTakeOne (k : Kernel) (e : Event) (hk : KernelInv k) : AllocsTakeOne k e := by
  cases e with
  | map phys virt flags => exact fun j => takesOne _ (allocTimes_taken j k.world hk.inv).inv
  | call c =>
    cases c with
    | alloc => exact takesOne k.world hk.inv
    | allocs n => trivial
    | free i => trivial

/-- However calls of `alloc`, `free` and `map` follow each other, every `alloc` hands out a
frame that nobody owns and sets its flag alone, a flag is set exactly while its frame is
owned, and no two tables share a frame. -/
theorem run_owners (s : State) (p : Paging.State) (events : List Event)
    (hsmall : s.available_frames ≤ 2 ^ 20) (hcur : s.latest_frame ≤ s.available_frames)
    (hclear : ∀ i, i < s.available_frames → s.frames i = false)
    (hlegal : Along step Legal (boot s p) events) :
    Along step AllocsTakeOne (boot s p) events ∧
    ∃ k, run step (boot s p) events = some k ∧
      (∀ i, i < k.world.s.available_frames → (k.world.s.frames i = true ↔ i ∈ k.world.owned)) ∧
      k.world.owned.Nodup ∧ (tableFrames k).Nodup ∧
      ∀ q ∈ tableFrames k, ∃ i ∈ k.world.owned, q = frameAddr k.world.s i := by
  have hstart : KernelInv (boot s p) := by
    refine ⟨⟨hsmall, hcur, ?_, by simp [boot], List.nodup_nil⟩, List.nodup_nil, by simp [boot, tableFrames]⟩
    simpa [boot] using hclear
  obtain ⟨hsteps, k, hrun, hk⟩ := run_foldl (R := fun k (_ : Unit) => KernelInv k) (Q := AllocsTakeOne)
    (fun a _ => a)
    (fun k _ e hk he => ⟨allocsTakeOne k e hk, nextKernel k e, rfl, nextKernel_inv k e hk he⟩)
    (boot s p) () events hstart hlegal
  exact ⟨hsteps, k, hrun, hk.inv.flags, hk.inv.nodup, hk.tables, hk.owned⟩

theorem run_owners_free_between :
    ∃ k, run step (boot (cleared 8 0xffff800000100000 (fun _ => 0)) Paging.clearTables)
        [.call .alloc, .call .alloc, .call (.free 0), .map 0x5000 0x400000 3] = some k ∧
      (tableFrames k).Nodup := by
  have hlegal : Along step Legal (boot (cleared 8 0xffff800000100000 (fun _ => 0)) Paging.clearTables)
      [.call .alloc, .call .alloc, .call (.free 0), .map 0x5000 0x400000 3] :=
    along_cons _ _ _ _ trivial rfl (along_cons _ _ _ _ trivial rfl
      (along_cons _ _ _ _ ⟨by decide, by decide⟩ rfl (along_cons _ _ _ _ trivial rfl trivial)))
  obtain ⟨-, k, hrun, -, -, htables, -⟩ := run_owners (cleared 8 0xffff800000100000 (fun _ => 0))
    Paging.clearTables _ (by decide) (by decide) (fun _ _ => rfl) hlegal
  exact ⟨k, hrun, htables⟩

end SlayerOS.Owners
