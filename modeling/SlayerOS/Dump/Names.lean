import Mathlib.Data.List.ReduceOption
import SlayerOS.Dump.Code
import SlayerOS.Resolver.Safety

/-!
# The names in a dump

The dump prints the name of the function, of the callers, and of what the instructions refer to.
Each of them comes from the demangler, which does not end on every symbol.
-/

open SlayerOS.Bytes SlayerOS.Fuel SlayerOS.Fuel.Comp SlayerOS.Text SlayerOS.Resolver SlayerOS.Mangle

namespace SlayerOS.Dump

section Defs

variable (m : Machine)

/-- The name of the symbol at the address is printed: `search_repr` ends, inside its arrays, and
returns a C string. -/
def Named (caller : Caller) (address : BitVec 64) : Prop :=
  ∃ text, (m.search_repr caller address (resolve_address m.symbol_table address)).Ends text

/-- The line `i` of the backtrace needs no name, or the name is printed. -/
def FrameNamed (i : Nat) (rip : BitVec 64) : Prop :=
  rip > kernel_base → ∀ a2l_res, m.addr2line_lookup (rip - 1) = some a2l_res → Named m (.frame i) a2l_res.address

/-- What the instruction refers to is no symbol, or its name is printed. -/
def TargetNamed (runtime_address : BitVec 64) (instruction : ZydisDisassembledInstruction) : Prop :=
  ∀ target, referred (runtime_address + instruction.length.setWidth 64) instruction = some target →
    (resolve_address m.symbol_table target).entry.isSome → (resolve_address m.symbol_table target).exact →
    Named m (.target runtime_address) target

/-- The return addresses that `n` rounds of the backtrace find. -/
def return_addresses : Nat → BitVec 64 → List (BitVec 64)
  | 0, _ => []
  | n + 1, rbp =>
    if rbp = 0 then []
    else if m.memory (rbp + 8) = 0 then []
    else m.memory (rbp + 8) :: return_addresses n (m.memory rbp)

/-- All the names of a dump that shows the instructions `window` are printed. -/
structure AllNamed (address rbp : BitVec 64) (window : List (BitVec 64 × ZydisDisassembledInstruction)) : Prop where
  function : Named m .function address
  frames : ∀ c ∈ (return_addresses m 16 rbp).zipIdx, FrameNamed m c.2 c.1
  targets : ∀ p ∈ window, TargetNamed m p.1 p.2

end Defs

variable {m : Machine}

theorem search_repr_ends_iff (caller : Caller) (address : BitVec 64) (result : search_result) (text : List Byte) :
    (m.search_repr caller address result).Ends text ↔
      ∃ r, (Resolver.search_repr m.atoi m.pointer_text address result (entered (m.arrays caller))).Ends r ∧
        Within r.1 ∧ upTo isNul r.2 128 0 = some text := by
  unfold Machine.search_repr
  rw [ends_bind]
  refine exists_congr fun r => and_congr_right fun _ => ?_
  rcases r with ⟨s, str⟩
  dsimp only
  by_cases hw : Within s
  · rw [if_pos hw, ends_lift, and_iff_right hw]
  · rw [if_neg hw, ends_lift]
    exact iff_of_false nofun fun h => hw h.1

theorem named_iff (caller : Caller) (address : BitVec 64) :
    Named m caller address ↔
      ∃ r, (Resolver.search_repr m.atoi m.pointer_text address (resolve_address m.symbol_table address)
        (entered (m.arrays caller))).Ends r ∧ Within r.1 ∧ ∃ k < 128, r.2 k = 0 := by
  have hnul : ∀ str : Mem, (∃ text, upTo isNul str 128 0 = some text) ↔ ∃ k < 128, str k = 0 := by
    intro str
    rw [upTo_exists_iff]
    simp only [Nat.zero_add, isNul, beq_iff_eq]
  unfold Named
  simp only [search_repr_ends_iff, ← hnul]
  constructor
  · rintro ⟨text, r, hr, hw, htext⟩
    exact ⟨r, hr, hw, text, htext⟩
  · rintro ⟨r, hr, hw, text, htext⟩
    exact ⟨text, r, hr, hw, htext⟩

theorem named_of_fits {caller : Caller} {address : BitVec 64} {e : symbol_entry} {exact : Bool} {t : State}
    (hresolve : resolve_address m.symbol_table address = ⟨some e, exact⟩)
    (ht : (demangle_alloc_symbol m.atoi (held m.pointer_text address e exact)
      (handed (held m.pointer_text address e exact) (m.arrays caller))).Ends t)
    (hfits : Fits m.atoi (held m.pointer_text address e exact) e exact (m.arrays caller)) : Named m caller address := by
  have hsafe : Safe e exact (t, t.mem .buffer) := by
    cases hm : is_mangled (held m.pointer_text address e exact) with
    | true => exact (mangled_safe address e exact _ t hm ht).mpr hfits
    | false => exact (plain_safe address e exact _ t hm ht).mpr hfits
  rw [named_iff, hresolve]
  refine ⟨_, (search_repr_ends address e exact _ _).mpr ⟨t, ht, rfl⟩, hsafe.within, ?_⟩
  obtain ⟨k, hk, h0⟩ := hsafe.ended
  exact ⟨k, hk, h0⟩

/-! ## The lines -/

theorem frame_line_ends_iff (i : Nat) (rip : BitVec 64) :
    (∃ line, (frame_line m i rip).Ends line) ↔ FrameNamed m i rip := by
  unfold frame_line FrameNamed
  by_cases hkernel : rip > kernel_base
  · rw [if_pos hkernel]
    cases hlookup : m.addr2line_lookup (rip - 1) with
    | none => exact iff_of_true ⟨_, (ends_pure _ _).mpr rfl⟩ fun _ _ h => nomatch h
    | some a2l_res =>
      constructor
      · rintro ⟨line, hline⟩ - _ ⟨⟩
        obtain ⟨text, htext, -⟩ := (ends_bind _ _ _).mp hline
        exact ⟨text, htext⟩
      · intro h
        obtain ⟨text, htext⟩ := h hkernel a2l_res rfl
        exact ⟨_, (ends_bind _ _ _).mpr ⟨text, htext, (ends_pure _ _).mpr rfl⟩⟩
  · rw [if_neg hkernel]
    exact iff_of_true ⟨_, (ends_pure _ _).mpr rfl⟩ fun h => absurd h hkernel

theorem frame_line_shows {i : Nat} {rip : BitVec 64} {line : Line} (h : (frame_line m i rip).Ends (some line)) :
    (∃ fn_repr file n, line = .frame i fn_repr file n) ∨ line = .frame_address i rip := by
  unfold frame_line at h
  split at h
  · split at h
    · obtain ⟨fn_repr, -, h⟩ := (ends_bind _ _ _).mp h
      exact Or.inl ⟨_, _, _, (Option.some.inj ((ends_pure _ _).mp h)).symm⟩
    · exact Or.inr (Option.some.inj ((ends_pure _ _).mp h)).symm
  · cases (ends_pure _ _).mp h

theorem symbol_text_ends_iff (runtime_address : BitVec 64) (target : Option (BitVec 64)) :
    (∃ text, (symbol_text m runtime_address target).Ends text) ↔
      ∀ t, target = some t → (resolve_address m.symbol_table t).entry.isSome →
        (resolve_address m.symbol_table t).exact → Named m (.target runtime_address) t := by
  cases target with
  | none => exact iff_of_true ⟨_, (ends_pure _ _).mpr rfl⟩ fun _ h => nomatch h
  | some t =>
    unfold symbol_text
    dsimp only
    by_cases hexact : (resolve_address m.symbol_table t).entry.isSome ∧ (resolve_address m.symbol_table t).exact
    · rw [if_pos (by simpa using hexact)]
      constructor
      · rintro ⟨text, h⟩ _ ⟨⟩ - -
        obtain ⟨w, hw, -⟩ := (ends_bind _ _ _).mp h
        exact ⟨w, hw⟩
      · intro h
        obtain ⟨w, hw⟩ := h t rfl hexact.1 hexact.2
        exact ⟨_, (ends_bind _ _ _).mpr ⟨w, hw, (ends_pure _ _).mpr rfl⟩⟩
    · rw [if_neg (by simpa using hexact)]
      refine iff_of_true ⟨_, (ends_pure _ _).mpr rfl⟩ ?_
      rintro _ ⟨⟩ hsome hx
      exact absurd ⟨hsome, hx⟩ hexact

theorem instruction_line_ends (disas_address runtime_address : BitVec 64) (instruction : ZydisDisassembledInstruction)
    (line : Line) :
    (instruction_line m disas_address runtime_address instruction).Ends line ↔
      ∃ symbol_repr, (symbol_text m runtime_address
          (referred (runtime_address + instruction.length.setWidth 64) instruction)).Ends symbol_repr ∧
        .instruction (decide (disas_address ≥ runtime_address) &&
          decide (disas_address < runtime_address + instruction.length.setWidth 64)) runtime_address
          instruction.text symbol_repr = line := by
  unfold instruction_line
  simp only [ends_bind, ends_pure]

theorem instruction_line_ends_iff (disas_address runtime_address : BitVec 64)
    (instruction : ZydisDisassembledInstruction) :
    (∃ line, (instruction_line m disas_address runtime_address instruction).Ends line) ↔
      TargetNamed m runtime_address instruction := by
  refine Iff.trans ?_ (symbol_text_ends_iff runtime_address _)
  simp only [instruction_line_ends]
  constructor
  · rintro ⟨_, text, htext, -⟩
    exact ⟨text, htext⟩
  · rintro ⟨text, htext⟩
    exact ⟨_, text, htext, rfl⟩

/-! ## The backtrace -/

theorem backtrace_from_ends (n i : Nat) (rbp : BitVec 64) (lines : List Line) :
    (backtrace_from m n i rbp).Ends lines ↔
      ∃ shown, EndsAll (fun c => frame_line m c.2 c.1) ((return_addresses m n rbp).zipIdx i) shown ∧
        lines = shown.reduceOption := by
  induction n generalizing i rbp lines with
  | zero =>
    rw [backtrace_from, ends_pure]
    constructor
    · rintro rfl
      exact ⟨[], List.Forall₂.nil, rfl⟩
    · rintro ⟨_, ⟨⟩, rfl⟩
      rfl
  | succ n ih =>
    have hnone : (pure [] : Comp (List Line)).Ends lines ↔
        ∃ shown, EndsAll (fun c => frame_line m c.2 c.1) (([] : List (BitVec 64)).zipIdx i) shown ∧
          lines = shown.reduceOption := by
      rw [ends_pure]
      constructor
      · rintro rfl
        exact ⟨[], List.Forall₂.nil, rfl⟩
      · rintro ⟨_, ⟨⟩, rfl⟩
        rfl
    rw [backtrace_from, return_addresses]
    by_cases hrbp : rbp = 0
    · rw [if_pos hrbp, if_pos hrbp]
      exact hnone
    · rw [if_neg hrbp, if_neg hrbp]
      by_cases hrip : m.memory (rbp + 8) = 0
      · rw [if_pos hrip, if_pos hrip]
        exact hnone
      · rw [if_neg hrip, if_neg hrip, List.zipIdx_cons]
        simp only [ends_bind, ends_pure, ih, endsAll_cons_iff]
        constructor
        · rintro ⟨line, hline, _, ⟨shown, hshown, rfl⟩, rfl⟩
          exact ⟨line :: shown, ⟨line, shown, hline, hshown, rfl⟩, by cases line <;> rfl⟩
        · rintro ⟨_, ⟨line, shown, hline, hshown, rfl⟩, rfl⟩
          exact ⟨line, hline, _, ⟨shown, hshown, rfl⟩, by cases line <;> rfl⟩

theorem shown_exists_iff (calls : List (BitVec 64 × Nat)) :
    (∃ lines, ∃ shown, EndsAll (fun c => frame_line m c.2 c.1) calls shown ∧ lines = shown.reduceOption) ↔
      ∀ c ∈ calls, FrameNamed m c.2 c.1 := by
  have hall := endsAll_exists_iff (fun c => frame_line m c.2 c.1) calls
  simp only [frame_line_ends_iff] at hall
  rw [← hall]
  constructor
  · rintro ⟨_, shown, hshown, -⟩
    exact ⟨shown, hshown⟩
  · rintro ⟨shown, hshown⟩
    exact ⟨_, shown, hshown, rfl⟩

theorem backtrace_ends_iff (rbp : BitVec 64) :
    (∃ lines, (backtrace m rbp).Ends lines) ↔ ∀ c ∈ (return_addresses m 16 rbp).zipIdx, FrameNamed m c.2 c.1 := by
  unfold backtrace
  simp only [backtrace_from_ends]
  exact shown_exists_iff _

end SlayerOS.Dump
