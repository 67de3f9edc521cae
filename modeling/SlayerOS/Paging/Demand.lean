import SlayerOS.Paging.Tlb
import Mathlib.Data.Finset.Card

/-!
# How many frames the tables take

Each page needs the three tables above its entry, and pages near each other share them. A
frame is taken for a table once, and `unmap` gives none back.
-/

open SlayerOS.Bytes SlayerOS.Frames SlayerOS.Radix SlayerOS.Run

namespace SlayerOS.Paging

/-! ## The tables that are needed -/

/-- The paths to the three tables above the entry of a page. -/
def tablePaths (page : Nat) : List (List (Fin 512)) :=
  [[index4 page], [index4 page, index3 page], [index4 page, index3 page, index2 page]]

def Op.tablePaths : Op → List (List (Fin 512))
  | .map _ virt _ => Paging.tablePaths (pageOf virt)
  | .unmap _ => []

/-- The tables below the `pml4` that the operations need, each of them once. -/
def needed (ops : List Op) : Finset (List (Fin 512)) := (ops.flatMap Op.tablePaths).toFinset

def demand (ops : List Op) : Nat := (needed ops).card

/-- The byte is in the `pml4` or in a frame that was taken. -/
def TableByte (w : State) (x : Nat) : Prop :=
  (w.pml4 ≤ x ∧ x < w.pml4 + FRAME_SIZE) ∨
    ∃ i, i < w.calls.length ∧ w.frames i ≤ x ∧ x < w.frames i + FRAME_SIZE

/-- The tables below the `pml4` are those of `S`, each of them took one frame, and the memory
is `m` outside of them. -/
structure Drawn (w : State) (n : Nat) (m : Mem) (S : Finset (List (Fin 512))) : Prop where
  supplied : Supplied w n
  below : ∀ p, p ≠ [] → p.length ≤ 3 → ((tableOf w p).isSome = true ↔ p ∈ S)
  count : w.calls.length = S.card
  outside : ∀ x, ¬ TableByte w x → w.mem x = m x

/-! ## One write -/

theorem Supplied.tableByte {w : State} {n k : Nat} (h : Supplied w n) (hk : InUse w w.mem k) (x : Nat)
    (h1 : FRAME_SIZE * k ≤ x) (h2 : x < FRAME_SIZE * k + FRAME_SIZE) : TableByte w x := by
  rcases h.used k hk with hroot | ⟨i, hi, hframe⟩
  · left
    rw [← hroot]
    exact ⟨h1, h2⟩
  · right
    refine ⟨i, hi, ?_, ?_⟩
    · rw [hframe]; exact h1
    · rw [hframe]; exact h2

theorem Supplied.entry_outside {w : State} {n k : Nat} (h : Supplied w n) (hk : InUse w w.mem k) (i : Fin 512)
    (x : Nat) (hx : ¬ TableByte w x) : x < FRAME_SIZE * k + 8 * i ∨ FRAME_SIZE * k + 8 * i + 8 ≤ x := by
  by_contra hin
  push Not at hin
  have hi := i.isLt
  apply hx
  apply h.tableByte hk
  · omega
  · unfold FRAME_SIZE at *
    omega

theorem Later.tableByte {w w' : State} (h : Later w w') (hlen : w.calls.length ≤ w'.calls.length) (x : Nat)
    (hx : TableByte w x) : TableByte w' x := by
  unfold TableByte at *
  rw [h.pml4, h.frames]
  rcases hx with hroot | ⟨i, hi, hframe⟩
  · exact Or.inl hroot
  · exact Or.inr ⟨i, by omega, hframe⟩

/-! ## One table -/

theorem tableOf_snoc (w : State) (p : List (Fin 512)) (i : Fin 512) (k : Nat) (hp : tableOf w p = some k) :
    tableOf w (p ++ [i]) = child w.hhdm_addr (cells w.mem k i) := by
  unfold tableOf at *
  rw [follow_snoc, hp, Option.bind_some]

theorem Drawn.keep {w w' : State} {n : Nat} {m : Mem} {S : Finset (List (Fin 512))} (h : Drawn w n m S)
    (hs : Supplied w' n) (hl : Later w w') (hcalls : w'.calls = w.calls)
    (ht : ∀ q, q.length ≤ 3 → tableOf w' q = tableOf w q)
    (hmem : ∀ x, ¬ TableByte w x → w'.mem x = w.mem x) : Drawn w' n m S := by
  refine ⟨hs, ?_, ?_, ?_⟩
  · intro p hne hp
    rw [ht p hp]
    exact h.below p hne hp
  · rw [hcalls]
    exact h.count
  · intro x hx
    have hx' : ¬ TableByte w x := fun hx' => hx (hl.tableByte (le_of_eq (by rw [hcalls])) x hx')
    rw [hmem x hx', h.outside x hx']

theorem next_table_found (w : State) (n k : Nat) (m : Mem) (S : Finset (List (Fin 512))) (p : List (Fin 512))
    (i : Fin 512) (hw : Drawn w n m S) (ht : tableOf w p = some k) (hp : p.length < 3)
    (hpresent : present (cells w.mem k i) = true) :
    Drawn (next_table w (FRAME_SIZE * k) i).2 n m (insert (p ++ [i]) S) := by
  have hmem : p ++ [i] ∈ S := by
    rw [← hw.below _ (by simp) (by simp; omega), tableOf_snoc w p i k ht, child, if_pos hpresent]
    rfl
  have hl := next_table_later w (FRAME_SIZE * k) i
  rw [Finset.insert_eq_of_mem hmem]
  rw [next_table_present w _ _ hpresent] at hl ⊢
  have htables := hw.supplied.tables
  exact hw.keep (hw.supplied.keep hl rfl ⟨htables.hhdm, htables.pml4, htables.tree⟩ fun _ _ => rfl) hl rfl
    (fun _ _ => rfl) fun _ _ => rfl

theorem next_table_taken (w : State) (n k : Nat) (m : Mem) (S : Finset (List (Fin 512))) (p : List (Fin 512))
    (i : Fin 512) (hw : Drawn w n m S) (hn : (insert (p ++ [i]) S).card ≤ n) (ht : tableOf w p = some k)
    (hp : p.length < 3) (habsent : ¬ present (cells w.mem k i) = true) :
    w.calls.length < n ∧ Drawn (next_table w (FRAME_SIZE * k) i).2 n m (insert (p ++ [i]) S) := by
  have hnone : child w.hhdm_addr (cells w.mem k i) = none := if_neg habsent
  have hgone : tableOf w (p ++ [i]) = none := by rw [tableOf_snoc w p i k ht, hnone]
  have hnew : p ++ [i] ∉ S := by
    rw [← hw.below _ (by simp) (by simp; omega), hgone]
    simp
  rw [Finset.card_insert_of_notMem hnew, ← hw.count] at hn
  have hroom : w.calls.length < n := by omega
  refine ⟨hroom, ?_⟩
  generalize hr : next_table w (FRAME_SIZE * k) i = r
  have hl : Later w r.2 := hr ▸ next_table_later _ _ _
  have hcalls : r.2.calls.length = w.calls.length + 1 := by
    rw [← hr, next_table_call w k i habsent]
    simp
  have hframe := hw.supplied.frame hroom
  have htree := hw.supplied.tables.tree
  obtain ⟨u, e, hu, -, hcells, he, hunused, -⟩ := next_table_attach w k i r hw.supplied.tables hr habsent hframe
  refine ⟨(next_table_supplied w n k p i r hw.supplied hroom ht hp hr).1, ?_, ?_, ?_⟩
  · intro q hne hq
    rw [Finset.mem_insert]
    unfold tableOf at ht ⊢
    rw [hl.hhdm, hl.pml4, hcells]
    by_cases hpre : p ++ [i] <+: q
    · obtain ⟨s, rfl⟩ := hpre
      rw [htree.follow_attach ht hp he (child_zero _) hunused]
      have hbelow := hw.below (p ++ [i] ++ s) (by simp) hq
      rw [tableOf, follow_append, ← tableOf, hgone] at hbelow
      by_cases hs : s = []
      · simp [hs]
      · simpa [hs] using hbelow
    · rw [htree.follow_attach_other ht hp hunused q (by omega) hpre, ← tableOf, hw.below q hne hq]
      constructor
      · exact Or.inr
      · rintro (rfl | h)
        · exact absurd (List.prefix_refl _) hpre
        · exact h
  · rw [hcalls, Finset.card_insert_of_notMem hnew, hw.count]
  · intro x hx
    have hx' : ¬ TableByte w x := fun hx' => hx (hl.tableByte (by omega) x hx')
    have hnewframe : ¬ (w.frames w.calls.length ≤ x ∧ x < w.frames w.calls.length + FRAME_SIZE) := by
      intro hin
      apply hx
      right
      rw [hl.frames]
      exact ⟨w.calls.length, by omega, hin⟩
    have hstore := hw.supplied.entry_outside ⟨p, by omega, ht⟩ i x hx'
    have hmem : r.2.mem = write 8 (fill w.mem (w.frames w.calls.length) FRAME_SIZE 0) (FRAME_SIZE * k + 8 * i)
        (VIRT2PHYS w.hhdm_addr (w.frames w.calls.length) ||| PAGE_PRESENT ||| PAGE_WRITE) := by
      rw [← hr, next_table_absent w _ _ habsent]
      simp [frame_alloc, store, hframe.pos]
    rw [hmem, write_outside _ _ _ _ _ hstore, fill_outside _ _ _ _ _ (by omega), hw.outside x hx']

theorem next_table_drawn (w : State) (n k : Nat) (m : Mem) (S T : Finset (List (Fin 512))) (p : List (Fin 512))
    (i : Fin 512) (r : Nat × State) (hw : Drawn w n m S) (hT : insert (p ++ [i]) S ⊆ T) (hn : T.card ≤ n)
    (ht : tableOf w p = some k) (hp : p.length < 3) (hr : next_table w (FRAME_SIZE * k) i = r) :
    Drawn r.2 n m (insert (p ++ [i]) S) ∧
      ∃ k', r.1 = FRAME_SIZE * k' ∧ tableOf r.2 (p ++ [i]) = some k' := by
  have hcard := (Finset.card_le_card hT).trans hn
  refine ⟨?_, ?_⟩
  · rw [← hr]
    by_cases hpresent : present (cells w.mem k i) = true
    · exact next_table_found w n k m S p i hw ht hp hpresent
    · exact (next_table_taken w n k m S p i hw hcard ht hp hpresent).2
  · obtain ⟨k', hk', -, ht', -⟩ := next_table_made w k p i r hw.supplied.tables ht hp hr
      fun habsent => hw.supplied.frame (next_table_taken w n k m S p i hw hcard ht hp habsent).1
    exact ⟨k', hk', ht'⟩

/-! ## One operation -/

theorem tablePaths_pageOf (virt : Nat) : tablePaths (pageOf virt) = tablePaths (virt / FRAME_SIZE) := by
  have hpath := (path_pageOf virt).1
  simp only [path, List.cons.injEq, and_true] at hpath
  unfold tablePaths
  rw [hpath.1, hpath.2.1, hpath.2.2]

theorem lastTable_drawn (w : State) (virt n : Nat) (m : Mem) (S : Finset (List (Fin 512))) (hw : Drawn w n m S)
    (hn : (S ∪ (tablePaths (pageOf virt)).toFinset).card ≤ n) :
    Drawn (lastTable w virt).2 n m (S ∪ (tablePaths (pageOf virt)).toFinset) ∧
      ∃ k, (lastTable w virt).1 = FRAME_SIZE * k ∧
        tableOf (lastTable w virt).2 (path (virt / FRAME_SIZE)) = some k := by
  obtain ⟨h4, h3, h2, -⟩ := index_eq virt
  have hroot := root_eq w hw.supplied.tables.pml4
  rw [tablePaths_pageOf] at hn ⊢
  simp only [lastTable, h4, h3, h2]
  generalize hT : S ∪ (tablePaths (virt / FRAME_SIZE)).toFinset = T at *
  generalize hr3 : next_table w w.pml4 (index4 (virt / FRAME_SIZE)) = r3
  generalize hr2 : next_table r3.2 r3.1 (index3 (virt / FRAME_SIZE)) = r2
  generalize hr1 : next_table r2.2 r2.1 (index2 (virt / FRAME_SIZE)) = r1
  rw [hroot] at hr3
  have hS : S ⊆ T := hT ▸ Finset.subset_union_left
  have hpaths : (tablePaths (virt / FRAME_SIZE)).toFinset ⊆ T := hT ▸ Finset.subset_union_right
  simp only [tablePaths, List.toFinset_cons, List.toFinset_nil, Finset.insert_subset_iff] at hpaths
  obtain ⟨hin3, hin2, hin1, -⟩ := hpaths
  have hT3 := Finset.insert_subset hin3 hS
  obtain ⟨hd3, k3, hk3, ht3⟩ := next_table_drawn w n _ m S T [] _ r3 hw hT3 hn rfl (by simp) hr3
  rw [hk3] at hr2
  have hT2 := Finset.insert_subset hin2 hT3
  obtain ⟨hd2, k2, hk2, ht2⟩ := next_table_drawn r3.2 n _ m _ T _ _ r2 hd3 hT2 hn ht3 (by simp) hr2
  rw [hk2] at hr1
  have hT1 := Finset.insert_subset hin1 hT2
  obtain ⟨hd1, k1, hk1, ht1⟩ := next_table_drawn r2.2 n _ m _ T _ _ r1 hd2 hT1 hn ht2 (by simp) hr1
  refine ⟨?_, k1, hk1, ht1⟩
  have hall : T = insert [index4 (virt / FRAME_SIZE), index3 (virt / FRAME_SIZE), index2 (virt / FRAME_SIZE)]
      (insert [index4 (virt / FRAME_SIZE), index3 (virt / FRAME_SIZE)]
        (insert [index4 (virt / FRAME_SIZE)] S)) := by
    apply Finset.Subset.antisymm _ hT1
    rw [← hT]
    intro q hq
    simp only [tablePaths, Finset.mem_union, List.mem_toFinset, List.mem_cons, List.not_mem_nil, or_false,
      Finset.mem_insert] at hq ⊢
    tauto
  rw [hall]
  exact hd1

theorem map_drawn (w : State) (phys virt flags n : Nat) (m : Mem) (S : Finset (List (Fin 512)))
    (hw : Drawn w n m S) (hop : (Op.map phys virt flags).Ok)
    (hn : (S ∪ (tablePaths (pageOf virt)).toFinset).card ≤ n) :
    Drawn (map w phys virt flags) n m (S ∪ (tablePaths (pageOf virt)).toFinset) := by
  obtain ⟨hlast, k, hk, ht⟩ := lastTable_drawn w virt n m S hw hn
  have hl := lastTable_later w virt
  have hcalls := map_calls w phys virt flags
  have hfresh : ∀ c ∈ (map w phys virt flags).calls, FreshFrame w c := by
    rw [hcalls]
    exact fun c hc => (hl.fresh_iff c).mp (hlast.supplied.fresh c hc)
  obtain ⟨⟨htables, -⟩, htable⟩ := map_spec w phys virt flags hw.supplied.tables hop.1 hop.2 hfresh
  have hm := map_later w phys virt flags
  apply hlast.keep (hlast.supplied.keep hm hcalls htables htable) hm hcalls htable
  intro x hx
  have hleaf := hlast.supplied.entry_outside ⟨_, le_of_eq rfl, ht⟩ (index1 (virt / FRAME_SIZE)) x hx
  have hmem : (map w phys virt flags).mem = write 8 (lastTable w virt).2.mem
      (FRAME_SIZE * k + 8 * index1 (virt / FRAME_SIZE)) (phys ||| flags) := by
    rw [← hk, map_eq, (index_eq virt).2.2.2]
    simp only
    split <;> rfl
  rw [hmem, write_outside _ _ _ _ _ hleaf]

theorem unmap_drawn (w : State) (virt n : Nat) (m : Mem) (S : Finset (List (Fin 512))) (hw : Drawn w n m S) :
    Drawn (unmap w virt) n m S := by
  obtain ⟨⟨htables, -⟩, hl, hcalls, htable⟩ := unmap_written w virt hw.supplied.tables
  apply hw.keep (hw.supplied.keep hl hcalls htables htable) hl hcalls htable
  intro x hx
  obtain ⟨t, ht⟩ := unmap_spec w virt
  obtain ⟨hmem, -, -⟩ := ticks_same w t
  rw [ht, walk_tables_eq w virt hw.supplied.tables.hhdm hw.supplied.tables.pml4]
  cases hk : tableOf w (path (virt / FRAME_SIZE)) with
  | none => exact congrFun hmem x
  | some k =>
    have hleaf := hw.supplied.entry_outside ⟨_, le_of_eq rfl, hk⟩ (index1 (virt / FRAME_SIZE)) x hx
    rw [(index_eq virt).2.2.2]
    exact (write_outside 8 (tick^[t] w).mem _ 0 x hleaf).trans (congrFun hmem x)

theorem next_drawn (w : State) (op : Op) (n : Nat) (m : Mem) (S : Finset (List (Fin 512))) (hw : Drawn w n m S)
    (hop : op.Ok) (hn : (S ∪ op.tablePaths.toFinset).card ≤ n) :
    Legal w op ∧ Drawn (next w op) n m (S ∪ op.tablePaths.toFinset) := by
  -- The last moment of the processor changes the TLB only.
  have htick : ∀ w' T, Drawn w' n m T → Drawn (tick w') n m T := by
    intro w' T h
    have htables := h.supplied.tables
    exact h.keep (h.supplied.keep ⟨rfl, rfl, rfl, fun _ hc => hc⟩ rfl
      ⟨htables.hhdm, htables.pml4, htables.tree⟩ fun _ _ => rfl) ⟨rfl, rfl, rfl, fun _ hc => hc⟩ rfl
      (fun _ _ => rfl) fun _ _ => rfl
  have hd : Drawn (next w op) n m (S ∪ op.tablePaths.toFinset) := by
    cases op with
    | map phys virt flags => exact htick _ _ (map_drawn w phys virt flags n m S hw hop hn)
    | unmap virt =>
      rw [Op.tablePaths, List.toFinset_nil, Finset.union_empty]
      exact htick _ _ (unmap_drawn w virt n m S hw)
  exact ⟨⟨hop, fun c hc => ((next_later w op).fresh_iff c).mp (hd.supplied.fresh c hc)⟩, hd⟩

/-! ## Runs -/

theorem needed_cons (op : Op) (ops : List Op) : needed (op :: ops) = op.tablePaths.toFinset ∪ needed ops := by
  unfold needed
  rw [List.flatMap_cons, List.toFinset_append]

theorem run_drawn (ops : List Op) (w : State) (n : Nat) (m : Mem) (S : Finset (List (Fin 512)))
    (hw : Drawn w n m S) (hops : ∀ op ∈ ops, op.Ok) (hn : (S ∪ needed ops).card ≤ n) :
    Along step Legal w ops ∧ ∃ w', run step w ops = some w' ∧ Later w w' ∧ Drawn w' n m (S ∪ needed ops) := by
  induction ops generalizing w S with
  | nil => exact ⟨trivial, w, rfl, ⟨rfl, rfl, rfl, fun _ hc => hc⟩, by simpa [needed] using hw⟩
  | cons op ops ih =>
    rw [needed_cons, ← Finset.union_assoc] at hn ⊢
    have hop := (Finset.card_le_card Finset.subset_union_left).trans hn
    obtain ⟨hlegal, hd⟩ := next_drawn w op n m S hw (hops op List.mem_cons_self) hop
    obtain ⟨hrest, w', hrun, hlater, hd'⟩ := ih _ _ hd (fun a ha => hops a (List.mem_cons_of_mem _ ha)) hn
    refine ⟨⟨hlegal, ?_⟩, w', hrun, (next_later w op).trans hlater, hd'⟩
    rintro _ ⟨⟩
    exact hrest

theorem Start.drawn {w : State} (h : Start w) (hcalls : w.calls = []) (n : Nat) (hs : Supply w n) :
    Drawn w n w.mem ∅ := by
  refine ⟨⟨h.tables.1, hs, by simp [hcalls], ?_⟩, ?_, by simp [hcalls], fun _ _ => rfl⟩
  · rintro k ⟨p, -, hk⟩
    obtain rfl := h.tableOf_nil p k hk
    left
    have hroot : w.pml4 / FRAME_SIZE = k := Option.some.inj hk
    rw [← hroot]
    exact (root_eq w h.pml4).symm
  · intro p hne _
    cases hp : tableOf w p with
    | none => simp
    | some t => exact absurd (h.tableOf_nil p t hp) hne

/-- As many frames as the mapped pages need tables are enough for any operations, and just
those are taken. The tables are then those of the pages that were ever mapped, and `map` and
`unmap` write no byte outside the `pml4` and these frames. -/
theorem run_demand (w : State) (ops : List Op) (hw : Start w) (hcalls : w.calls = [])
    (hs : Supply w (demand ops)) (hops : ∀ op ∈ ops, op.Ok) :
    Along step Legal w ops ∧ ∃ w', run step w ops = some w' ∧ w'.calls.length = demand ops ∧
      (∀ p, p ≠ [] → p.length ≤ 3 → ((tableOf w' p).isSome = true ↔ p ∈ needed ops)) ∧
      (∀ x, ¬ TableByte w' x → w'.mem x = w.mem x) ∧
      ∀ page, page < 2 ^ 36 → pageEntry w' page = ops.foldl Op.apply (fun _ => 0) page := by
  obtain ⟨hlegal, w', hrun, -, hd⟩ := run_drawn ops w (demand ops) w.mem ∅ (hw.drawn hcalls _ hs) hops
    (by rw [Finset.empty_union]; exact le_rfl)
  rw [Finset.empty_union] at hd
  obtain ⟨-, w'', hrun', -, hentries⟩ := run_foldl (fun f op => op.apply f) next_agrees w _ ops hw.agrees hlegal
  obtain rfl : w' = w'' := Option.some.inj (hrun.symm.trans hrun')
  exact ⟨hlegal, w', hrun, hd.count, hd.below, hd.outside, hentries⟩

theorem run_demand_shared :
    ∃ w', run step clearTables [.map 0x5000 0x400000 3, .map 0x6000 0x401000 1, .unmap 0x400000] = some w' ∧
      w'.calls.length = 3 := by
  obtain ⟨-, w', hrun, hlen, -⟩ := run_demand clearTables
    [.map 0x5000 0x400000 3, .map 0x6000 0x401000 1, .unmap 0x400000] clearTables_start rfl
    (clearTables_supply _ (by decide)) (by simp [Op.Ok])
  exact ⟨w', hrun, hlen.trans (by decide)⟩

end SlayerOS.Paging
