import SlayerOS.Mapper.Proofs

/-!
# The rights of a page

The processor reads four entries on its way to a page. The page can be written only if
all four say so, user code can reach it only if all four say so, and one entry is enough
to forbid execution. `map` writes the flags that it is given into the last of the four.
-/

open SlayerOS.Bytes SlayerOS.Frames SlayerOS.Radix SlayerOS.Run
open SlayerOS.Mapper (PAGE_USER PAGE_NX)

namespace SlayerOS.Paging

structure Rights where
  writable : Bool
  user : Bool
  noExecute : Bool
deriving DecidableEq, Repr

def has (flag e : Nat) : Bool := e &&& flag != 0

/-- The four entries on the way to a page, if the three tables below the `pml4` are there. -/
def walkEntries (w : State) (page : Nat) : Option (List Nat) := do
  let virt := page * FRAME_SIZE
  let pml3 ← walk_table w.hhdm_addr w.mem w.pml4 (pml4_index virt)
  let pml2 ← walk_table w.hhdm_addr w.mem pml3 (pml3_index virt)
  let pml1 ← walk_table w.hhdm_addr w.mem pml2 (pml2_index virt)
  some [entry w.mem w.pml4 (pml4_index virt), entry w.mem pml3 (pml3_index virt),
    entry w.mem pml2 (pml2_index virt), entry w.mem pml1 (pml1_index virt)]

/-- What the processor allows on a page, if the page is present. -/
def effective (w : State) (page : Nat) : Option Rights := do
  let es ← walkEntries w page
  if es.all present then
    some
      { writable := es.all (has PAGE_WRITE)
        user := es.all (has PAGE_USER)
        noExecute := es.any (has PAGE_NX) }
  else none

/-- What the flags of a call ask for. -/
def requested (flags : Nat) : Rights :=
  { writable := has PAGE_WRITE flags, user := has PAGE_USER flags, noExecute := has PAGE_NX flags }

/-! ## Bits -/

theorem has_or (flag a b : Nat) : has flag (a ||| b) = (has flag a || has flag b) := by
  unfold has
  rw [Nat.and_or_distrib_right, Bool.eq_iff_iff, Bool.or_eq_true, bne_iff_ne, bne_iff_ne, bne_iff_ne,
    ne_eq, Nat.or_eq_zero_iff]
  tauto

theorem has_bit (n e : Nat) : has (1 <<< n) e = decide (e / 2 ^ n % 2 = 1) := by
  unfold has
  rw [← Nat.testBit_eq_decide_div_mod_eq, Nat.shiftLeft_eq, Nat.one_mul]
  cases hbit : e.testBit n with
  | true =>
    rw [bne_iff_ne]
    intro hzero
    have := congrArg (Nat.testBit · n) hzero
    simp [hbit] at this
  | false =>
    rw [bne_eq_false_iff_eq]
    apply Nat.eq_of_testBit_eq
    intro i
    rw [Nat.testBit_and, Nat.testBit_two_pow, Nat.zero_testBit]
    by_cases hi : n = i
    · rw [← hi, hbit, Bool.false_and]
    · simp [hi]

theorem present_eq (e : Nat) : present e = has PAGE_PRESENT e := rfl

theorem has_aligned (phys : Nat) (h : phys % FRAME_SIZE = 0) :
    has PAGE_PRESENT phys = false ∧ has PAGE_WRITE phys = false ∧ has PAGE_USER phys = false := by
  unfold FRAME_SIZE at h
  refine ⟨?_, ?_, ?_⟩
  · exact (has_bit 0 phys).trans (decide_eq_false (by omega))
  · exact (has_bit 1 phys).trans (decide_eq_false (by omega))
  · exact (has_bit 2 phys).trans (decide_eq_false (by omega))

/-! ## Entries above the leaves -/

/-- The entry that `map` writes where it makes a table. -/
def LinkEntry (e : Nat) : Prop :=
  ∃ phys, phys < 2 ^ 48 ∧ phys % FRAME_SIZE = 0 ∧ e = phys ||| PAGE_PRESENT ||| PAGE_WRITE

theorem LinkEntry.rights {e : Nat} (h : LinkEntry e) :
    present e = true ∧ has PAGE_WRITE e = true ∧ has PAGE_USER e = false ∧ has PAGE_NX e = false := by
  obtain ⟨phys, hsmall, haligned, rfl⟩ := h
  obtain ⟨-, -, huser⟩ := has_aligned phys haligned
  have hnx : has PAGE_NX phys = false := (has_bit 63 phys).trans (decide_eq_false (by omega))
  rw [present_eq]
  simp only [has_or, huser, hnx]
  refine ⟨?_, ?_, by decide, by decide⟩
  · rw [show has PAGE_PRESENT PAGE_PRESENT = true by decide, Bool.or_true, Bool.true_or]
  · rw [show has PAGE_WRITE PAGE_WRITE = true by decide, Bool.or_true]

/-- Every present entry above the leaves was written where a table was made. -/
def Linked (w : State) : Prop :=
  ∀ p k i, p.length < 3 → tableOf w p = some k → present (cells w.mem k i) = true → LinkEntry (cells w.mem k i)

theorem Linked.same {w w' : State} (h : Linked w) (hmem : w'.mem = w.mem) (hl : Later w w') : Linked w' := by
  intro p k i hp ht
  rw [tableOf, hl.hhdm, hl.pml4, hmem] at ht
  rw [hmem]
  exact h p k i hp ht

theorem next_table_linked (w : State) (k : Nat) (p : List (Fin 512)) (i : Fin 512) (r : Nat × State)
    (hw : Tables w) (hlinked : Linked w) (ht : tableOf w p = some k) (hp : p.length < 3)
    (hr : next_table w (FRAME_SIZE * k) i = r) (hfresh : ∀ c ∈ r.2.calls, FreshFrame w c) : Linked r.2 := by
  have hlater : Later w r.2 := hr ▸ next_table_later _ _ _
  by_cases hpresent : present (cells w.mem k i) = true
  · rw [next_table_present w _ _ hpresent] at hr
    subst hr
    exact hlinked.same rfl hlater
  · have hcall : (w.mem, w.frames w.calls.length) ∈ r.2.calls := by
      rw [← hr, next_table_call w k i hpresent]
      exact List.mem_append_right _ (List.mem_singleton_self _)
    obtain ⟨u, e, -, -, hcells, he, hunused, hlink⟩ :=
      next_table_attach w k i r hw hr hpresent (hfresh _ hcall)
    intro q v j hq hv hj
    unfold tableOf at hv ht
    rw [hlater.hhdm, hlater.pml4, hcells] at hv
    rw [hcells] at hj ⊢
    rcases hw.tree.attach_cell ht hp he (child_zero _) hunused q v j (by omega) hv with hnew | hzero | ⟨hv', hold⟩
    · rw [hnew]
      exact hlink
    · rw [hzero] at hj
      exact absurd hj (by decide)
    · rw [hold] at hj ⊢
      exact hlinked q v j hq hv' hj

theorem store_linked (w : State) (k : Nat) (p : List (Fin 512)) (i : Fin 512) (v : Nat) (hw : Tables w)
    (hlinked : Linked w) (ht : tableOf w p = some k) (hp : p.length = 3) (hv : v < 2 ^ 64) :
    Linked (store w (FRAME_SIZE * k) i v) := by
  intro q t j hq htq
  rw [store_tableOf w k p i v hw ht hp hv q (by omega)] at htq
  have htk : t ≠ k := by
    rintro rfl
    have := congrArg List.length (hw.tree q p t (by omega) (by omega) htq ht)
    omega
  rw [store_cells w k i v hv, set_other _ _ _ _ _ _ (Or.inl htk)]
  exact hlinked q t j hq htq

theorem map_linked (w : State) (phys virt flags : Nat) (hw : Tables w) (hlinked : Linked w)
    (hphys : phys < 2 ^ 64) (hflags : flags < 2 ^ 64)
    (hfresh : ∀ c ∈ (map w phys virt flags).calls, FreshFrame w c) : Linked (map w phys virt flags) := by
  rw [map_calls] at hfresh
  obtain ⟨k, hk, hw1, ht, hlinked1⟩ := lastTable_keeps Linked w virt hw hlinked hfresh
    fun w k p i r hw hl ht hp hr hf => next_table_linked w k p i r hw hl ht hp hr hf
  obtain ⟨-, -, -, h1⟩ := index_eq virt
  rw [map_eq, h1]
  simp only
  generalize lastTable w virt = r at *
  rw [hk]
  have hstore := store_linked (tick r.2) k (path (virt / FRAME_SIZE)) (index1 (virt / FRAME_SIZE))
    (phys ||| flags) ⟨hw1.hhdm, hw1.pml4, hw1.tree⟩ hlinked1 ht rfl (Nat.or_lt_two_pow hphys hflags)
  split <;> exact hstore

theorem unmap_linked (w : State) (virt : Nat) (hw : Tables w) (hlinked : Linked w) : Linked (unmap w virt) := by
  obtain ⟨n, hn⟩ := unmap_spec w virt
  obtain ⟨hmem, -, hlater⟩ := ticks_same w n
  obtain ⟨hw', htable, -⟩ := ticks_tables w n hw
  have hlinked' := hlinked.same hmem hlater
  obtain ⟨-, -, -, h1⟩ := index_eq virt
  rw [hn, walk_tables_eq w virt hw.hhdm hw.pml4, h1]
  cases ht : tableOf w (path (virt / FRAME_SIZE)) with
  | none => exact hlinked'
  | some k => exact store_linked (tick^[n] w) k _ _ 0 hw' hlinked' (by rw [htable]; exact ht) rfl (by decide)

theorem next_linked (w : State) (op : Op) (hw : Tables w) (hlinked : Linked w) (hop : Legal w op) :
    Linked (next w op) := by
  cases op with
  | map phys virt flags => exact map_linked w phys virt flags hw hlinked hop.1.1 hop.1.2 hop.2
  | unmap virt => exact unmap_linked w virt hw hlinked

theorem Start.linked {w : State} (h : Start w) : Linked w := by
  intro p k i hp ht hpresent
  obtain rfl := h.tableOf_nil p k ht
  obtain rfl : w.pml4 / FRAME_SIZE = k := Option.some.inj ht
  rw [h.cells_zero i] at hpresent
  exact absurd hpresent (by decide)

/-! ## The walk -/

theorem walk_table_linked (w : State) (k : Nat) (p : List (Fin 512)) (i : Fin 512) (t : Nat) (hw : Tables w)
    (hlinked : Linked w) (ht : tableOf w p = some k) (hp : p.length < 3)
    (h : walk_table w.hhdm_addr w.mem (FRAME_SIZE * k) i = some t) :
    LinkEntry (entry w.mem (FRAME_SIZE * k) i) ∧ ∃ k', t = FRAME_SIZE * k' ∧ tableOf w (p ++ [i]) = some k' := by
  rw [walk_table_eq _ _ _ _ hw.hhdm, Option.map_eq_some_iff] at h
  obtain ⟨k', hk', rfl⟩ := h
  have hpresent : present (cells w.mem k i) = true := by
    by_contra hno
    rw [child, if_neg hno] at hk'
    exact absurd hk' (by simp)
  refine ⟨hlinked p k i hp ht hpresent, k', rfl, ?_⟩
  unfold tableOf at ht ⊢
  rw [follow_snoc, ht, Option.bind_some, hk']

theorem walkEntries_spec (w : State) (page e : Nat) (hw : Tables w) (hlinked : Linked w)
    (he : walk w.hhdm_addr w.mem w.pml4 page = some e) :
    ∃ a b c, walkEntries w page = some [a, b, c, e] ∧ LinkEntry a ∧ LinkEntry b ∧ LinkEntry c := by
  have hroot := root_eq w hw.pml4
  obtain ⟨h4, h3, h2, -⟩ := index_eq (page * FRAME_SIZE)
  simp only [walk, Option.bind_eq_bind, Option.bind_eq_some_iff, Option.some.injEq] at he
  obtain ⟨pml3, hpml3, pml2, hpml2, pml1, hpml1, he⟩ := he
  have hentries : walkEntries w page = some [entry w.mem w.pml4 (pml4_index (page * FRAME_SIZE)),
      entry w.mem pml3 (pml3_index (page * FRAME_SIZE)), entry w.mem pml2 (pml2_index (page * FRAME_SIZE)), e] := by
    simp only [walkEntries, hpml3, hpml2, hpml1, he, Option.bind_eq_bind, Option.bind_some]
  refine ⟨_, _, _, hentries, ?_⟩
  rw [hroot, h4] at hpml3 ⊢
  obtain ⟨ha, k3, rfl, ht3⟩ := walk_table_linked w _ [] _ _ hw hlinked rfl (by simp) hpml3
  rw [h3] at hpml2 ⊢
  obtain ⟨hb, k2, rfl, ht2⟩ := walk_table_linked w _ _ _ _ hw hlinked ht3 (by simp) hpml2
  rw [h2] at hpml1 ⊢
  obtain ⟨hc, -⟩ := walk_table_linked w _ _ _ _ hw hlinked ht2 (by simp) hpml1
  exact ⟨ha, hb, hc⟩

/-- The tables give the leaf all its rights but that of user code. -/
theorem effective_eq (w : State) (page phys flags : Nat) (hw : Tables w) (hlinked : Linked w)
    (hphys : phys % FRAME_SIZE = 0) (hpresent : present flags = true) (he : pageEntry w page = phys ||| flags) :
    effective w page =
      some ⟨has PAGE_WRITE flags, false, has PAGE_NX phys || has PAGE_NX flags⟩ := by
  obtain ⟨-, hwrite, -⟩ := has_aligned phys hphys
  have hleaf : present (phys ||| flags) = true := by
    rw [present_eq, has_or, ← present_eq flags, hpresent, Bool.or_true]
  have hwalk : walk w.hhdm_addr w.mem w.pml4 page = some (phys ||| flags) := by
    unfold pageEntry at he
    cases h : walk w.hhdm_addr w.mem w.pml4 page with
    | some e => rw [h] at he; exact congrArg some he
    | none =>
      rw [h] at he
      rw [← he] at hleaf
      exact absurd hleaf (by decide)
  obtain ⟨a, b, c, hentries, ha, hb, hc⟩ := walkEntries_spec w page _ hw hlinked hwalk
  obtain ⟨ha1, ha2, ha3, ha4⟩ := ha.rights
  obtain ⟨hb1, hb2, -, hb4⟩ := hb.rights
  obtain ⟨hc1, hc2, -, hc4⟩ := hc.rights
  unfold effective
  simp [hentries, ha1, hb1, hc1, hleaf, ha2, hb2, hc2, ha3, ha4, hb4, hc4, has_or, hwrite]

/-! ## Runs -/

theorem run_effective (w : State) (before after : List Op) (phys virt flags : Nat) (hw : Start w)
    (hphys : phys % FRAME_SIZE = 0) (hpresent : present flags = true)
    (hafter : ∀ op ∈ after, op.page ≠ pageOf virt)
    (hlegal : Along step Legal w (before ++ .map phys virt flags :: after)) :
    ∃ w', run step w (before ++ .map phys virt flags :: after) = some w' ∧
      effective w' (pageOf virt) =
        some ⟨has PAGE_WRITE flags, false, has PAGE_NX phys || has PAGE_NX flags⟩ := by
  have hstep : ∀ w f op, Agrees w f ∧ Linked w → Legal w op →
      Frame w op ∧ ∃ w', step w op = some w' ∧ Agrees w' (op.apply f) ∧ Linked w' := by
    rintro w f op ⟨hagrees, hlinked⟩ hop
    obtain ⟨hframe, _, ⟨⟩, hagrees'⟩ := next_agrees w f op hagrees hop
    exact ⟨hframe, next w op, rfl, hagrees', next_linked w op hagrees.1 hlinked hop⟩
  obtain ⟨-, w', hrun, ⟨htables, hentries⟩, hlinked⟩ :=
    run_foldl (fun f op => op.apply f) hstep w _ _ ⟨hw.agrees, hw.linked⟩ hlegal
  have hentry : pageEntry w' (pageOf virt) = phys ||| flags := by
    rw [hentries (pageOf virt) (Nat.mod_lt _ (by decide)), List.foldl_append, List.foldl_cons,
      Mapper.foldl_apply_other after _ _ hafter, Mapper.apply_eq]
    exact Function.update_self ..
  exact ⟨w', hrun, effective_eq w' _ phys flags htables hlinked hphys hpresent hentry⟩

/-- The rights of a page after its last `map` are what the call asks for, unless it asks
for user code, or the address brings the no-execute bit. -/
theorem run_rights_iff (w : State) (before after : List Op) (phys virt flags : Nat) (hw : Start w)
    (hphys : phys % FRAME_SIZE = 0) (hpresent : present flags = true)
    (hafter : ∀ op ∈ after, op.page ≠ pageOf virt)
    (hlegal : Along step Legal w (before ++ .map phys virt flags :: after)) :
    ∃ w', run step w (before ++ .map phys virt flags :: after) = some w' ∧
      (effective w' (pageOf virt) = some (requested flags) ↔
        has PAGE_USER flags = false ∧ (has PAGE_NX phys = true → has PAGE_NX flags = true)) := by
  obtain ⟨w', hrun, heffective⟩ := run_effective w before after phys virt flags hw hphys hpresent hafter hlegal
  refine ⟨w', hrun, ?_⟩
  rw [heffective, requested, Option.some.injEq, Rights.mk.injEq]
  cases has PAGE_USER flags <;> cases has PAGE_NX phys <;> cases has PAGE_NX flags <;> simp

theorem run_rights_iff_data :
    ∃ w', run step clearTables [.map 0x6000 0x400000 1, .map 0x5000 0x400000 (PAGE_NX ||| 3), .unmap 0x401000] =
        some w' ∧
      effective w' 0x400 = some ⟨true, false, true⟩ := by
  have hlegal := supply_legal clearTables
    [.map 0x6000 0x400000 1, .map 0x5000 0x400000 (PAGE_NX ||| 3), .unmap 0x401000] clearTables_start rfl
    (clearTables_supply 9 (by decide)) (by simp [Op.Ok, PAGE_NX])
  obtain ⟨w', hrun, hiff⟩ := run_rights_iff clearTables [.map 0x6000 0x400000 1] [.unmap 0x401000] 0x5000 0x400000
    (PAGE_NX ||| 3) clearTables_start (by decide) (by decide) (by decide) hlegal
  exact ⟨w', hrun, hiff.mpr (by decide)⟩

/-- A page of the kernel, with the flags that the mapper gives: no user code can reach it. -/
theorem user_page_stays_closed :
    Start clearTables ∧ Along step Legal clearTables [.map 0x5000 0x400000 7] ∧
    ∃ w', run step clearTables [.map 0x5000 0x400000 7] = some w' ∧
      requested 7 = ⟨true, true, false⟩ ∧ effective w' 0x400 = some ⟨true, false, false⟩ := by
  have hlegal := supply_legal clearTables [.map 0x5000 0x400000 7] clearTables_start rfl
    (clearTables_supply 3 (by decide)) (by simp [Op.Ok])
  obtain ⟨w', hrun, heffective⟩ := run_effective clearTables [] [] 0x5000 0x400000 7 clearTables_start
    (by decide) (by decide) (by decide) hlegal
  exact ⟨clearTables_start, hlegal, w', hrun, by decide, heffective⟩

end SlayerOS.Paging
