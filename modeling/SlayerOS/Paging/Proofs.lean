import SlayerOS.Paging.Tables

/-!
# The tables hold the map

`map` links empty frames into the tree and then writes one leaf. `unmap` writes one leaf,
or none.
-/

open SlayerOS.Bytes SlayerOS.Frames SlayerOS.Radix SlayerOS.Run

namespace SlayerOS.Paging

/-! ## The leaf -/

/-- The entries after a write of `v` to one leaf. -/
def Written (w w' : State) (p : List (Fin 512)) (i : Fin 512) (v : Nat) : Prop :=
  ∀ q j, q.length = 3 → leafOf w' q j = if q = p ∧ j = i then v else leafOf w q j

theorem store_cells (w : State) (k : Nat) (i : Fin 512) (v : Nat) (hv : v < 2 ^ 64) :
    cells (store w (FRAME_SIZE * k) i v).mem = set (cells w.mem) k i v := by
  rw [show (store w (FRAME_SIZE * k) i v).mem = write 8 w.mem (FRAME_SIZE * k + 8 * i) v from rfl, cells_write,
    Nat.mod_eq_of_lt hv]

theorem store_tableOf (w : State) (k : Nat) (p : List (Fin 512)) (i : Fin 512) (v : Nat) (hw : Tables w)
    (ht : tableOf w p = some k) (hp : p.length = 3) (hv : v < 2 ^ 64) (q : List (Fin 512))
    (hq : q.length ≤ 3) : tableOf (store w (FRAME_SIZE * k) i v) q = tableOf w q := by
  unfold tableOf
  rw [store_cells w k i v hv]
  exact hw.tree.set_last k p ht hp i v q hq

theorem store_leaf (w : State) (k : Nat) (p : List (Fin 512)) (i : Fin 512) (v : Nat) (hw : Tables w)
    (ht : tableOf w p = some k) (hp : p.length = 3) (hv : v < 2 ^ 64) :
    Tables (store w (FRAME_SIZE * k) i v) ∧ Written w (store w (FRAME_SIZE * k) i v) p i v := by
  have hcells := store_cells w k i v hv
  have hfollow := store_tableOf w k p i v hw ht hp hv
  refine ⟨⟨hw.hhdm, hw.pml4, ?_⟩, ?_⟩
  · intro q q' t hq hq' h1 h2
    exact hw.tree q q' t hq hq' ((hfollow q hq).symm.trans h1) ((hfollow q' hq').symm.trans h2)
  · intro q j hq
    rw [leafOf_eq, leafOf_eq, hfollow q (by omega), hcells]
    by_cases hqp : q = p
    · subst hqp
      rw [ht]
      by_cases hji : j = i
      · simp [hji]
      · simp [hji, set_other _ _ _ _ _ _ (Or.inr hji)]
    · rw [if_neg (fun h => hqp h.1)]
      cases htq : tableOf w q with
      | none => rw [Option.map_none, Option.map_none]
      | some t =>
        have htk : t ≠ k := by
          rintro rfl
          exact hqp (hw.tree q p t (by omega) (by omega) htq ht)
        simp [set_other _ _ _ _ _ _ (Or.inl htk)]

theorem flush_tlb_written (w w' : State) (p : List (Fin 512)) (i : Fin 512) (v : Nat)
    (h : Tables w' ∧ Written w w' p i v) : Tables (flush_tlb w') ∧ Written w (flush_tlb w') p i v :=
  ⟨⟨h.1.hhdm, h.1.pml4, h.1.tree⟩, h.2⟩

/-! ## `map` and `unmap` -/

/-- The three levels above the leaf, as `map` goes down. -/
def lastTable (w : State) (virt : Nat) : Nat × State :=
  let pml3 := next_table w w.pml4 (pml4_index virt)
  let pml2 := next_table pml3.2 pml3.1 (pml3_index virt)
  next_table pml2.2 pml2.1 (pml2_index virt)

theorem map_eq (w : State) (phys virt flags : Nat) :
    map w phys virt flags =
      let r := lastTable w virt
      let w' := store (tick r.2) r.1 (pml1_index virt) (phys ||| flags)
      if present (entry r.2.mem r.1 (pml1_index virt)) then flush_tlb w' else w' := rfl

theorem lastTable_later (w : State) (virt : Nat) : Later w (lastTable w virt).2 :=
  (next_table_later _ _ _).trans ((next_table_later _ _ _).trans (next_table_later _ _ _))

/-- What one level down keeps, all three levels keep. -/
theorem lastTable_keeps (P : State → Prop) (w : State) (virt : Nat) (hw : Tables w) (hP : P w)
    (hfresh : ∀ c ∈ (lastTable w virt).2.calls, FreshFrame w c)
    (hstep : ∀ w k p (i : Fin 512) r, Tables w → P w → tableOf w p = some k → p.length < 3 →
      next_table w (FRAME_SIZE * k) i = r → (∀ c ∈ r.2.calls, FreshFrame w c) → P r.2) :
    ∃ k, (lastTable w virt).1 = FRAME_SIZE * k ∧ Tables (lastTable w virt).2 ∧
      tableOf (lastTable w virt).2 (path (virt / FRAME_SIZE)) = some k ∧ P (lastTable w virt).2 := by
  obtain ⟨h4, h3, h2, -⟩ := index_eq virt
  have hroot := root_eq w hw.pml4
  simp only [lastTable, h4, h3, h2] at hfresh ⊢
  generalize hr3 : next_table w w.pml4 (index4 (virt / FRAME_SIZE)) = r3 at *
  generalize hr2 : next_table r3.2 r3.1 (index3 (virt / FRAME_SIZE)) = r2 at *
  generalize hr1 : next_table r2.2 r2.1 (index2 (virt / FRAME_SIZE)) = r1 at *
  have hl3 : Later w r3.2 := hr3 ▸ next_table_later _ _ _
  have hl2 : Later r3.2 r2.2 := hr2 ▸ next_table_later _ _ _
  have hl1 : Later r2.2 r1.2 := hr1 ▸ next_table_later _ _ _
  have hf3 : ∀ c ∈ r3.2.calls, FreshFrame w c := fun c hc => hfresh c (hl1.calls (hl2.calls hc))
  have hf2 : ∀ c ∈ r2.2.calls, FreshFrame r3.2 c :=
    fun c hc => (hl3.fresh_iff c).mpr (hfresh c (hl1.calls hc))
  have hf1 : ∀ c ∈ r1.2.calls, FreshFrame r2.2 c :=
    fun c hc => ((hl3.trans hl2).fresh_iff c).mpr (hfresh c hc)
  rw [hroot] at hr3
  obtain ⟨k3, hk3, hw3, ht3, -⟩ := next_table_spec w _ [] _ r3 hw rfl (by simp) hr3 hf3
  have hP3 := hstep w _ [] _ r3 hw hP rfl (by simp) hr3 hf3
  rw [hk3] at hr2
  obtain ⟨k2, hk2, hw2, ht2, -⟩ := next_table_spec r3.2 _ _ _ r2 hw3 ht3 (by simp) hr2 hf2
  have hP2 := hstep r3.2 _ _ _ r2 hw3 hP3 ht3 (by simp) hr2 hf2
  rw [hk2] at hr1
  obtain ⟨k1, hk1, hw1, ht1, -⟩ := next_table_spec r2.2 _ _ _ r1 hw2 ht2 (by simp) hr1 hf1
  exact ⟨k1, hk1, hw1, ht1, hstep r2.2 _ _ _ r1 hw2 hP2 ht2 (by simp) hr1 hf1⟩

theorem lastTable_spec (w : State) (virt : Nat) (hw : Tables w)
    (hfresh : ∀ c ∈ (lastTable w virt).2.calls, FreshFrame w c) :
    ∃ k, (lastTable w virt).1 = FRAME_SIZE * k ∧ Tables (lastTable w virt).2 ∧
      tableOf (lastTable w virt).2 (path (virt / FRAME_SIZE)) = some k ∧
      SameLeaves w (lastTable w virt).2 := by
  apply lastTable_keeps (SameLeaves w) w virt hw (fun _ _ _ => rfl) hfresh
  intro w' k p i r hw' hsame ht hp hr hfresh'
  obtain ⟨-, -, -, -, hsame'⟩ := next_table_spec w' k p i r hw' ht hp hr hfresh'
  intro q j hq
  rw [hsame' q j hq, hsame q j hq]

theorem map_calls (w : State) (phys virt flags : Nat) :
    (map w phys virt flags).calls = (lastTable w virt).2.calls := by
  rw [map_eq]
  simp only
  split <;> rfl

theorem map_later (w : State) (phys virt flags : Nat) : Later (lastTable w virt).2 (map w phys virt flags) := by
  rw [map_eq]
  simp only
  split <;> exact ⟨rfl, rfl, rfl, fun _ hc => hc⟩

theorem map_spec (w : State) (phys virt flags : Nat) (hw : Tables w) (hphys : phys < 2 ^ 64)
    (hflags : flags < 2 ^ 64) (hfresh : ∀ c ∈ (map w phys virt flags).calls, FreshFrame w c) :
    (Tables (map w phys virt flags) ∧
      Written w (map w phys virt flags) (path (pageOf virt)) (index1 (pageOf virt)) (phys ||| flags)) ∧
    ∀ q, q.length ≤ 3 → tableOf (map w phys virt flags) q = tableOf (lastTable w virt).2 q := by
  rw [map_calls] at hfresh
  obtain ⟨k, hk, hw1, ht, hsame⟩ := lastTable_spec w virt hw hfresh
  obtain ⟨hpath, hindex⟩ := path_pageOf virt
  obtain ⟨-, -, -, h1⟩ := index_eq virt
  have hv : phys ||| flags < 2 ^ 64 := Nat.or_lt_two_pow hphys hflags
  rw [map_eq, hpath, hindex, h1]
  simp only
  generalize lastTable w virt = r at *
  rw [hk]
  have hleaf := store_leaf (tick r.2) k (path (virt / FRAME_SIZE)) (index1 (virt / FRAME_SIZE))
    (phys ||| flags) ⟨hw1.hhdm, hw1.pml4, hw1.tree⟩ ht rfl hv
  have htables := store_tableOf (tick r.2) k (path (virt / FRAME_SIZE)) (index1 (virt / FRAME_SIZE))
    (phys ||| flags) ⟨hw1.hhdm, hw1.pml4, hw1.tree⟩ ht rfl hv
  have hwritten : Tables _ ∧ Written w _ _ _ _ := ⟨hleaf.1, fun q j hq => by
    rw [hleaf.2 q j hq, show leafOf (tick r.2) q j = leafOf r.2 q j from rfl, hsame q j hq]⟩
  split
  · exact ⟨flush_tlb_written _ _ _ _ _ hwritten, htables⟩
  · exact ⟨hwritten, htables⟩

theorem find_table_present (w : State) (table index : Nat)
    (h : present (entry w.mem table index) = true) :
    find_table w table index =
      (some (PHYS2VIRT w.hhdm_addr (entry w.mem table index &&& PTE_MASK)), tick (tick w)) := if_pos h

theorem find_table_absent (w : State) (table index : Nat)
    (h : ¬ present (entry w.mem table index) = true) :
    find_table w table index = (none, tick w) := if_neg h

theorem find_table_spec (w : State) (table index : Nat) :
    ∃ n, find_table w table index = (walk_table w.hhdm_addr w.mem table index, tick^[n] w) := by
  by_cases h : present (entry w.mem table index) = true
  · refine ⟨2, ?_⟩
    rw [find_table_present w table index h, walk_table, if_pos h]
    rfl
  · refine ⟨1, ?_⟩
    rw [find_table_absent w table index h, walk_table, if_neg h]
    rfl

theorem ticks_same (w : State) (n : Nat) :
    (tick^[n] w).mem = w.mem ∧ (tick^[n] w).calls = w.calls ∧ Later w (tick^[n] w) := by
  induction n with
  | zero => exact ⟨rfl, rfl, rfl, rfl, rfl, fun _ hc => hc⟩
  | succ n ih =>
    obtain ⟨hmem, hcalls, hlater⟩ := ih
    rw [Function.iterate_succ_apply']
    exact ⟨hmem, hcalls, hlater.hhdm, hlater.pml4, hlater.frames, hlater.calls⟩

/-- `unmap` reads its way down, and then it clears one entry or returns. -/
theorem unmap_spec (w : State) (virt : Nat) :
    ∃ n, unmap w virt = match walk_tables w virt with
      | none => tick^[n] w
      | some pml1 => flush_tlb (store (tick^[n] w) pml1 (pml1_index virt) 0) := by
  unfold unmap walk_tables
  obtain ⟨a, ha⟩ := find_table_spec w w.pml4 (pml4_index virt)
  obtain ⟨ma, -, la⟩ := ticks_same w a
  rw [ha]
  cases walk_table w.hhdm_addr w.mem w.pml4 (pml4_index virt) with
  | none => exact ⟨a, rfl⟩
  | some pml3 =>
    obtain ⟨b, hb⟩ := find_table_spec (tick^[a] w) pml3 (pml3_index virt)
    rw [ma, la.hhdm, ← Function.iterate_add_apply] at hb
    obtain ⟨mb, -, lb⟩ := ticks_same w (b + a)
    simp only [hb, Option.bind_eq_bind, Option.bind_some]
    cases walk_table w.hhdm_addr w.mem pml3 (pml3_index virt) with
    | none => exact ⟨b + a, rfl⟩
    | some pml2 =>
      obtain ⟨c, hc⟩ := find_table_spec (tick^[b + a] w) pml2 (pml2_index virt)
      rw [mb, lb.hhdm, ← Function.iterate_add_apply] at hc
      refine ⟨c + (b + a), ?_⟩
      simp only [hc, Option.bind_some]
      cases walk_table w.hhdm_addr w.mem pml2 (pml2_index virt) <;> rfl

theorem ticks_tables (w : State) (n : Nat) (hw : Tables w) :
    Tables (tick^[n] w) ∧ tableOf (tick^[n] w) = tableOf w ∧ leafOf (tick^[n] w) = leafOf w := by
  obtain ⟨hmem, -, hlater⟩ := ticks_same w n
  refine ⟨⟨?_, ?_, ?_⟩, ?_, ?_⟩
  · rw [hlater.hhdm]; exact hw.hhdm
  · rw [hlater.pml4]; exact hw.pml4
  · rw [hmem, hlater.hhdm, hlater.pml4]; exact hw.tree
  · unfold tableOf
    rw [hmem, hlater.hhdm, hlater.pml4]
  · unfold leafOf
    rw [hmem, hlater.hhdm, hlater.pml4]

theorem unmap_written (w : State) (virt : Nat) (hw : Tables w) :
    (Tables (unmap w virt) ∧ Written w (unmap w virt) (path (pageOf virt)) (index1 (pageOf virt)) 0) ∧
    Later w (unmap w virt) ∧ (unmap w virt).calls = w.calls ∧
    ∀ q, q.length ≤ 3 → tableOf (unmap w virt) q = tableOf w q := by
  obtain ⟨hpath, hindex⟩ := path_pageOf virt
  obtain ⟨-, -, -, h1⟩ := index_eq virt
  obtain ⟨n, hn⟩ := unmap_spec w virt
  obtain ⟨-, hcalls, hlater⟩ := ticks_same w n
  obtain ⟨hw', htable, hleaf⟩ := ticks_tables w n hw
  rw [hn, walk_tables_eq w virt hw.hhdm hw.pml4, hpath, hindex, h1]
  cases ht : tableOf w (path (virt / FRAME_SIZE)) with
  | none =>
    refine ⟨⟨hw', ?_⟩, hlater, hcalls, fun q _ => congrFun htable q⟩
    intro q j hq
    change leafOf (tick^[n] w) q j = _
    rw [hleaf]
    split
    case isTrue h => rw [h.1, leafOf_eq, ht]; rfl
    case isFalse => rfl
  | some k =>
    have hk : tableOf (tick^[n] w) (path (virt / FRAME_SIZE)) = some k := by rw [htable]; exact ht
    have hstore := store_leaf (tick^[n] w) k _ (index1 (virt / FRAME_SIZE)) 0 hw' hk rfl (by decide)
    have htables := store_tableOf (tick^[n] w) k _ (index1 (virt / FRAME_SIZE)) 0 hw' hk rfl (by decide)
    unfold Written at hstore
    rw [hleaf] at hstore
    rw [htable] at htables
    exact ⟨flush_tlb_written w _ _ _ _ hstore,
      ⟨hlater.hhdm, hlater.pml4, hlater.frames, hlater.calls⟩, hcalls, htables⟩

/-! ## Runs -/

/-- One operation on the tables is one update of the abstract map. -/
theorem next_spec (w : State) (op : Op) (hw : Tables w) (hlegal : Legal w op) :
    Tables (next w op) ∧ ∀ page, page < 2 ^ 36 →
      pageEntry (next w op) page = op.apply (pageEntry w) page := by
  have hfinish : ∀ virt v w', (Tables w' ∧ Written w w' (path (pageOf virt)) (index1 (pageOf virt)) v) →
      Tables (tick w') ∧ ∀ page, page < 2 ^ 36 →
        pageEntry (tick w') page = Function.update (pageEntry w) (pageOf virt) v page := by
    rintro virt v w' ⟨hw', hwritten⟩
    refine ⟨⟨hw'.hhdm, hw'.pml4, hw'.tree⟩, ?_⟩
    intro page hpage
    have hvirt : pageOf virt < 2 ^ 36 := Nat.mod_lt _ (by decide)
    rw [pageEntry_eq (tick w') page hw'.hhdm hw'.pml4,
      show leafOf (tick w') (path page) = leafOf w' (path page) from rfl, hwritten _ _ rfl]
    by_cases heq : page = pageOf virt
    · rw [heq, if_pos ⟨rfl, rfl⟩, Function.update_self]
    · rw [if_neg (fun h => heq (path_inj page _ hpage hvirt h.1 h.2)), Function.update_of_ne heq,
        pageEntry_eq w page hw.hhdm hw.pml4]
  cases op with
  | map phys virt flags =>
    exact hfinish virt (phys ||| flags) _ 
      (map_spec w phys virt flags hw hlegal.1.1 hlegal.1.2 hlegal.2).1
  | unmap virt => exact hfinish virt 0 _ (unmap_written w virt hw).1

theorem Start.cells_zero {w : State} (h : Start w) (i : Fin 512) : cells w.mem (w.pml4 / FRAME_SIZE) i = 0 := by
  apply read_eq_zero
  intro x h1 h2
  have := h.pml4
  have := i.isLt
  apply h.clear x
  · unfold FRAME_SIZE at *; omega
  · unfold FRAME_SIZE at *; omega

theorem Start.tableOf_nil {w : State} (h : Start w) (p : List (Fin 512)) (t : Nat)
    (hp : tableOf w p = some t) : p = [] := by
  cases p with
  | nil => rfl
  | cons i p =>
    rw [tableOf, follow, h.cells_zero i, child_zero] at hp
    exact absurd hp (by simp)

theorem Start.tables {w : State} (h : Start w) : Tables w ∧ ∀ page, pageEntry w page = 0 := by
  refine ⟨⟨h.hhdm, h.pml4, ?_⟩, ?_⟩
  · intro p q t _ _ hp hq
    rw [h.tableOf_nil p t hp, h.tableOf_nil q t hq]
  · intro page
    rw [pageEntry_eq w page h.hhdm h.pml4, leafOf_eq]
    cases ht : tableOf w (path page) with
    | none => rfl
    | some t => exact absurd (h.tableOf_nil _ t ht) (by simp [path])

theorem apply_congr (op : Op) (f g : Nat → Nat) (h : ∀ page, page < 2 ^ 36 → f page = g page) (page : Nat)
    (hpage : page < 2 ^ 36) : op.apply f page = op.apply g page := by
  cases op <;>
  · simp only [Op.apply, Function.update_apply]
    split
    · rfl
    · exact h page hpage

/-! ## Frames that do not repeat -/

/-- The tables in use are the `pml4` and frames that were handed out. -/
structure Supplied (w : State) (n : Nat) : Prop where
  tables : Tables w
  supply : Supply w n
  fresh : ∀ c ∈ w.calls, FreshFrame w c
  used : ∀ k, InUse w w.mem k → FRAME_SIZE * k = w.pml4 ∨
    ∃ i, i < w.calls.length ∧ w.frames i = FRAME_SIZE * k

theorem Supplied.frame {w : State} {n : Nat} (h : Supplied w n) (hn : w.calls.length < n) :
    FreshFrame w (w.mem, w.frames w.calls.length) := by
  obtain ⟨hpos, haligned, hlo, htop, hphys⟩ := h.supply.good _ hn
  refine ⟨hpos, haligned, ⟨hlo, htop, hphys⟩, ?_⟩
  intro huse
  have heq : FRAME_SIZE * (w.frames w.calls.length / FRAME_SIZE) = w.frames w.calls.length := by
    unfold FRAME_SIZE at *
    omega
  rcases h.used _ huse with hroot | ⟨i, hi, hframe⟩
  · exact h.supply.root _ hn (heq ▸ hroot)
  · have := h.supply.inj i _ (by omega) hn (hframe.trans heq)
    omega

theorem next_table_supplied (w : State) (n k : Nat) (p : List (Fin 512)) (i : Fin 512) (r : Nat × State)
    (hw : Supplied w n) (hn : w.calls.length < n) (ht : tableOf w p = some k) (hp : p.length < 3)
    (hr : next_table w (FRAME_SIZE * k) i = r) :
    Supplied r.2 n ∧ r.2.calls.length ≤ w.calls.length + 1 := by
  have hlater : Later w r.2 := hr ▸ next_table_later _ _ _
  have hframe := hw.frame hn
  by_cases hpresent : present (cells w.mem k i) = true
  · rw [next_table_present w _ _ hpresent] at hr
    subst hr
    exact ⟨⟨⟨hw.tables.hhdm, hw.tables.pml4, hw.tables.tree⟩, hlater.supply n hw.supply,
      fun c hc => (hlater.fresh_iff c).mpr (hw.fresh c hc), hw.used⟩, by simp⟩
  · have hcalls : r.2.calls = w.calls ++ [(w.mem, w.frames w.calls.length)] :=
      hr ▸ next_table_call w k i hpresent
    have hfresh : ∀ c ∈ r.2.calls, FreshFrame w c := by
      intro c hc
      rw [hcalls, List.mem_append, List.mem_singleton] at hc
      rcases hc with hc | rfl
      · exact hw.fresh c hc
      · exact hframe
    obtain ⟨-, -, htables, -⟩ := next_table_spec w k p i r hw.tables ht hp hr hfresh
    obtain ⟨u, e, hu, -, hcells, he, hunused, -⟩ := next_table_attach w k i r hw.tables hr hpresent hframe
    refine ⟨⟨htables, hlater.supply n hw.supply, fun c hc => (hlater.fresh_iff c).mpr (hfresh c hc), ?_⟩,
      by simp [hcalls]⟩
    intro v hv
    unfold InUse at hv
    rw [hlater.hhdm, hlater.pml4, hcells] at hv
    rw [hlater.pml4, hcalls, hlater.frames, List.length_append, List.length_singleton]
    rcases hw.tables.tree.reach_attach ht hp he (child_zero _) hunused v hv with rfl | hv
    · exact Or.inr ⟨w.calls.length, by omega, hu⟩
    · rcases hw.used v hv with hroot | ⟨j, hj, hframe⟩
      · exact Or.inl hroot
      · exact Or.inr ⟨j, by omega, hframe⟩

theorem lastTable_supplied (w : State) (virt n : Nat) (hw : Supplied w n) (hn : w.calls.length + 3 ≤ n) :
    Supplied (lastTable w virt).2 n ∧ (lastTable w virt).2.calls.length ≤ w.calls.length + 3 := by
  obtain ⟨h4, h3, h2, -⟩ := index_eq virt
  have hroot := root_eq w hw.tables.pml4
  simp only [lastTable, h4, h3, h2]
  generalize hr3 : next_table w w.pml4 (index4 (virt / FRAME_SIZE)) = r3
  generalize hr2 : next_table r3.2 r3.1 (index3 (virt / FRAME_SIZE)) = r2
  generalize hr1 : next_table r2.2 r2.1 (index2 (virt / FRAME_SIZE)) = r1
  have hl3 : Later w r3.2 := hr3 ▸ next_table_later _ _ _
  have hl2 : Later r3.2 r2.2 := hr2 ▸ next_table_later _ _ _
  rw [hroot] at hr3
  obtain ⟨hs3, hc3⟩ := next_table_supplied w n _ [] _ r3 hw (by omega) rfl (by simp) hr3
  obtain ⟨k3, hk3, -, ht3, -⟩ := next_table_spec w _ [] _ r3 hw.tables rfl (by simp) hr3
    fun c hc => (hl3.fresh_iff c).mp (hs3.fresh c hc)
  rw [hk3] at hr2
  obtain ⟨hs2, hc2⟩ := next_table_supplied r3.2 n _ _ _ r2 hs3 (by omega) ht3 (by simp) hr2
  obtain ⟨k2, hk2, -, ht2, -⟩ := next_table_spec r3.2 _ _ _ r2 hs3.tables ht3 (by simp) hr2
    fun c hc => (hl2.fresh_iff c).mp (hs2.fresh c hc)
  rw [hk2] at hr1
  obtain ⟨hs1, hc1⟩ := next_table_supplied r2.2 n _ _ _ r1 hs2 (by omega) ht2 (by simp) hr1
  exact ⟨hs1, by omega⟩

theorem Supplied.keep {w w' : State} {n : Nat} (h : Supplied w n) (hlater : Later w w')
    (hcalls : w'.calls = w.calls) (hw' : Tables w')
    (ht : ∀ q, q.length ≤ 3 → tableOf w' q = tableOf w q) : Supplied w' n := by
  refine ⟨hw', hlater.supply n h.supply, ?_, ?_⟩
  · rw [hcalls]
    exact fun c hc => (hlater.fresh_iff c).mpr (h.fresh c hc)
  · rintro k ⟨q, hq, hk⟩
    rw [hcalls, hlater.pml4, hlater.frames]
    exact h.used k ⟨q, hq, (ht q hq).symm.trans hk⟩

theorem next_supplied (w : State) (op : Op) (n : Nat) (hw : Supplied w n) (hop : op.Ok)
    (hn : w.calls.length + 3 ≤ n) :
    Legal w op ∧ Supplied (next w op) n ∧ (next w op).calls.length ≤ w.calls.length + 3 := by
  cases op with
  | map phys virt flags =>
    obtain ⟨hs, hlen⟩ := lastTable_supplied w virt n hw hn
    have hl := lastTable_later w virt
    have hcalls := map_calls w phys virt flags
    have hfresh : ∀ c ∈ (map w phys virt flags).calls, FreshFrame w c := by
      rw [hcalls]
      exact fun c hc => (hl.fresh_iff c).mp (hs.fresh c hc)
    obtain ⟨⟨htables, -⟩, htable⟩ := map_spec w phys virt flags hw.tables hop.1 hop.2 hfresh
    have hm := map_later w phys virt flags
    refine ⟨⟨hop, hfresh⟩, hs.keep ?_ hcalls ⟨htables.hhdm, htables.pml4, htables.tree⟩ htable, ?_⟩
    · exact ⟨hm.hhdm, hm.pml4, hm.frames, hm.calls⟩
    · rw [next, tick_calls, hcalls]
      exact hlen
  | unmap virt =>
    obtain ⟨⟨htables, -⟩, hl, hcalls, htable⟩ := unmap_written w virt hw.tables
    refine ⟨⟨trivial, ?_⟩, hw.keep ⟨hl.hhdm, hl.pml4, hl.frames, hl.calls⟩ hcalls
      ⟨htables.hhdm, htables.pml4, htables.tree⟩ htable, ?_⟩
    · rw [next, tick_calls, hcalls]
      exact hw.fresh
    · rw [next, tick_calls, hcalls]
      omega

theorem Supplied.legal {n : Nat} (ops : List Op) (w : State) (hw : Supplied w n)
    (hn : w.calls.length + 3 * ops.length ≤ n) (hops : ∀ op ∈ ops, op.Ok) : Along step Legal w ops := by
  induction ops generalizing w with
  | nil => trivial
  | cons op ops ih =>
    rw [List.length_cons] at hn
    obtain ⟨hlegal, hw', hlen⟩ := next_supplied w op n hw (hops op List.mem_cons_self) (by omega)
    refine ⟨hlegal, ?_⟩
    rintro _ ⟨⟩
    exact ih _ hw' (by omega) fun op' hop' => hops op' (List.mem_cons_of_mem _ hop')

/-- Frames that do not repeat are enough: each of them is unused when it is handed out. -/
theorem supply_legal (w : State) (ops : List Op) (hw : Start w) (hcalls : w.calls = [])
    (hs : Supply w (3 * ops.length)) (hops : ∀ op ∈ ops, op.Ok) : Along step Legal w ops := by
  apply Supplied.legal ops w (n := 3 * ops.length) _ (by simp [hcalls]) hops
  refine ⟨hw.tables.1, hs, by simp [hcalls], ?_⟩
  rintro k ⟨p, -, hk⟩
  obtain rfl := hw.tableOf_nil p k hk
  left
  have hroot : w.pml4 / FRAME_SIZE = k := Option.some.inj hk
  have := hw.pml4
  unfold FRAME_SIZE at *
  omega

/-- The tables hold the map `f`. -/
def Agrees (w : State) (f : Nat → Nat) : Prop :=
  Tables w ∧ ∀ page, page < 2 ^ 36 → pageEntry w page = f page

theorem next_agrees (w : State) (f : Nat → Nat) (op : Op) (hw : Agrees w f) (hop : Legal w op) :
    Frame w op ∧ ∃ w', step w op = some w' ∧ Agrees w' (op.apply f) := by
  obtain ⟨htables, hentries⟩ := hw
  obtain ⟨htables', hnext⟩ := next_spec w op htables hop
  refine ⟨?_, next w op, rfl, htables', ?_⟩
  · rintro _ ⟨⟩ page hpage hne
    rw [hnext page hpage]
    cases op <;> exact Function.update_of_ne hne _ _
  · intro page hpage
    rw [hnext page hpage]
    exact apply_congr op _ _ hentries page hpage

theorem Start.agrees {w : State} (h : Start w) : Agrees w fun _ => 0 :=
  ⟨h.tables.1, fun page _ => h.tables.2 page⟩

/-- After any operations, the tables hold the map that the operations describe, and each
operation leaves the other pages alone. -/
theorem run_refines (w : State) (ops : List Op) (hw : Start w) (hlegal : Along step Legal w ops) :
    Along step Frame w ops ∧ ∃ w', run step w ops = some w' ∧
      ∀ page, page < 2 ^ 36 → pageEntry w' page = ops.foldl Op.apply (fun _ => 0) page := by
  obtain ⟨hframe, w', hrun, -, hentries⟩ :=
    run_foldl (fun f op => op.apply f) next_agrees w _ ops hw.agrees hlegal
  exact ⟨hframe, w', hrun, hentries⟩

/-- Cleared memory, and frames one behind the other in the direct map. -/
def clearTables : State :=
  { mem := fun _ => 0
    pml4 := 0xffff800000001000
    hhdm_addr := 0xffff800000000000
    frames := fun i => 0xffff800000002000 + i * FRAME_SIZE
    calls := []
    tlb := []
    fills := fun _ => [0x400, 0x401]
    clock := 0 }

theorem clearTables_start : Start clearTables := ⟨by decide, by decide, fun _ _ _ => rfl⟩

theorem clearTables_supply (n : Nat) (hn : n ≤ 2 ^ 20) : Supply clearTables n := by
  refine ⟨?_, ?_, ?_⟩
  · intro i hi
    simp only [clearTables, FRAME_SIZE]
    omega
  · intro i hi
    simp only [clearTables, FRAME_SIZE]
    omega
  · intro i j hi hj h
    simp only [clearTables, FRAME_SIZE] at h
    omega

theorem run_refines_three :
    ∃ w', run step clearTables [.map 0x5000 0x400000 3, .map 0x6000 0x401000 1, .unmap 0x400000] = some w' ∧
      pageEntry w' 0x400 = 0 ∧ pageEntry w' 0x401 = 0x6001 := by
  have hlegal := supply_legal clearTables
    [.map 0x5000 0x400000 3, .map 0x6000 0x401000 1, .unmap 0x400000] clearTables_start rfl
    (clearTables_supply 9 (by decide)) (by simp [Op.Ok])
  obtain ⟨-, w', hrun, hentries⟩ := run_refines clearTables _ clearTables_start hlegal
  refine ⟨w', hrun, ?_, ?_⟩
  · rw [hentries 0x400 (by decide)]; decide
  · rw [hentries 0x401 (by decide)]; decide

end SlayerOS.Paging
