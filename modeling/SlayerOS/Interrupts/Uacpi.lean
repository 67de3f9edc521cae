import SlayerOS.Interrupts.Gates

/-!
# The handlers of uACPI

uACPI installs and uninstalls handlers, and it cannot see the table. For uACPI there is a
partial map from a line to a handler and its context, and the table refines that map.
-/

namespace SlayerOS.Interrupts

/-! ## The map -/

/-- The handler and the context of each line. -/
abbrev Bindings := Nat → Option (Nat × Nat)

inductive Request where
  | install (irq : Nat) (handler : Option Nat) (ctx : Nat) (out_irq_handle : Bool)
  | uninstall (handler : Option Nat) (irq_handle : Option Int)
deriving DecidableEq, Repr

/-- An install needs a free line, a handler and a place for the handle. An uninstall needs
the slot of a line that the same handler holds. -/
def Request.succeeds (m : Bindings) : Request → Bool
  | .install irq handler _ out => decide (irq < 256) && handler.isSome && out && (m irq).isNone
  | .uninstall (some f) (some i) => decide (0 ≤ i) && (m i.toNat).any fun b => b.1 = f
  | .uninstall _ _ => false

/-- A request that succeeds changes the binding of its own line. -/
def Request.change (m : Bindings) : Request → Bindings
  | .install irq handler ctx _ => Function.update m irq (handler.map fun f => (f, ctx))
  | .uninstall _ irq_handle => Function.update m (irq_handle.getD 0).toNat none

def Request.apply (m : Bindings) (r : Request) : Bindings := if r.succeeds m then r.change m else m

/-! ## The table -/

def bindings (s : State) : Bindings := fun n =>
  if n < 256 ∧ (s.uacpi_handlers n).installed = true then
    (s.uacpi_handlers n).handler.map fun f => (f, (s.uacpi_handlers n).ctx)
  else none

def serve (s : State) : Request → UacpiStatus × State
  | .install irq handler ctx out => uacpi_kernel_install_interrupt_handler s irq handler ctx out
  | .uninstall handler irq_handle => uacpi_kernel_uninstall_interrupt_handler s handler irq_handle

/-- The table holds the map. No installed slot is without a handler. -/
structure Refines (s : State) (m : Bindings) : Prop where
  same : bindings s = m
  handler : ∀ n, (s.uacpi_handlers n).installed = true → (s.uacpi_handlers n).handler.isSome = true

/-- The request succeeds when the map says so, it makes the same change, and a request that
fails changes nothing. -/
structure Served (s : State) (m : Bindings) (r : Request) : Prop where
  status : (serve s r).1 = .OK ↔ r.succeeds m = true
  unchanged : (serve s r).1 ≠ .OK → (serve s r).2 = s
  after : Refines (serve s r).2 (r.apply m)

/-! ## One request -/

theorem bindings_eq_none (s : State) (m : Bindings) (h : Refines s m) (irq : Nat) (hirq : irq < 256) :
    m irq = none ↔ (s.uacpi_handlers irq).installed = false := by
  rw [← h.same]
  unfold bindings
  cases hi : (s.uacpi_handlers irq).installed with
  | false => simp
  | true =>
    obtain ⟨f, hf⟩ := Option.isSome_iff_exists.mp (h.handler irq hi)
    simp [hirq, hf]

theorem bindings_any (s : State) (m : Bindings) (h : Refines s m) (n f : Nat) :
    (m n).any (fun b => b.1 = f) = true ↔
      n < 256 ∧ (s.uacpi_handlers n).installed = true ∧ (s.uacpi_handlers n).handler = some f := by
  rw [← h.same]
  unfold bindings
  by_cases hn : n < 256 ∧ (s.uacpi_handlers n).installed = true
  · rw [if_pos hn]
    cases hf : (s.uacpi_handlers n).handler with
    | none => simp
    | some g => simp [hn.1, hn.2]
  · rw [if_neg hn]
    simp only [Option.any_none, Bool.false_eq_true, false_iff]
    exact fun h => hn ⟨h.1, h.2.1⟩

theorem bindings_update (s : State) (n : Nat) (e : UacpiIrqHandler) (hn : n < 256) :
    bindings { s with uacpi_handlers := Function.update s.uacpi_handlers n e } =
      Function.update (bindings s) n (if e.installed then e.handler.map fun f => (f, e.ctx) else none) := by
  funext k
  unfold bindings
  simp only [Function.update_apply]
  by_cases hk : k = n
  · simp [hk, hn]
  · simp [hk]

/-- A slot that is written keeps the refinement if it has a handler when it is installed. -/
theorem Refines.update {s : State} {m : Bindings} (h : Refines s m) (n : Nat) (e : UacpiIrqHandler) (hn : n < 256)
    (he : e.installed = true → e.handler.isSome = true) :
    Refines { s with uacpi_handlers := Function.update s.uacpi_handlers n e }
      (Function.update m n (if e.installed then e.handler.map fun f => (f, e.ctx) else none)) := by
  refine ⟨?_, ?_⟩
  · rw [bindings_update s n e hn, h.same]
  · intro k
    simp only [Function.update_apply]
    split
    · exact he
    · exact h.handler k

theorem Served.refused {s : State} {m : Bindings} {r : Request} (h : Refines s m) (hno : ¬ r.succeeds m = true)
    (hstatus : (serve s r).1 ≠ .OK) (hsame : (serve s r).2 = s) : Served s m r := by
  have happly : r.apply m = m := if_neg hno
  refine ⟨iff_of_false hstatus hno, fun _ => hsame, ?_⟩
  rw [hsame, happly]
  exact h

theorem install_served (s : State) (m : Bindings) (h : Refines s m) (irq : Nat) (handler : Option Nat) (ctx : Nat)
    (out : Bool) : Served s m (.install irq handler ctx out) := by
  by_cases hok : (Request.install irq handler ctx out).succeeds m = true
  · have hchange : (Request.install irq handler ctx out).apply m = (Request.install irq handler ctx out).change m :=
      if_pos hok
    simp only [Request.succeeds, Bool.and_eq_true, decide_eq_true_eq, Option.isNone_iff_eq_none] at hok
    obtain ⟨⟨⟨hirq, hf⟩, rfl⟩, hfree⟩ := hok
    obtain ⟨f, rfl⟩ := Option.isSome_iff_exists.mp hf
    have hinstalled := (bindings_eq_none s m h irq hirq).mp hfree
    have hserve : serve s (.install irq (some f) ctx true) = (.OK, register_entry
        { s with uacpi_handlers := Function.update s.uacpi_handlers irq ⟨some f, ctx, irq, true⟩ }
        (irq % 2 ^ 8) (some .uacpi_irq_bridge)) := by
      unfold serve uacpi_kernel_install_interrupt_handler
      simp [hirq, hinstalled]
    have hupdate := h.update irq ⟨some f, ctx, irq, true⟩ hirq (fun _ => rfl)
    refine ⟨?_, ?_, ?_⟩
    · rw [hserve]
      simp [Request.succeeds, hirq, hfree]
    · rw [hserve]
      exact fun hne => (hne rfl).elim
    · rw [hserve, hchange]
      exact ⟨hupdate.same, hupdate.handler⟩
  · have hserve : (serve s (.install irq handler ctx out)).1 ≠ .OK ∧
        (serve s (.install irq handler ctx out)).2 = s := by
      simp only [Request.succeeds, Bool.and_eq_true, decide_eq_true_eq, Option.isNone_iff_eq_none] at hok
      unfold serve uacpi_kernel_install_interrupt_handler
      cases handler with
      | none => simp
      | some f =>
        by_cases hargs : irq ≥ 256 ∨ out = false
        · simp [hargs]
        · have hvalid := hargs
          push Not at hvalid
          have hinstalled : (s.uacpi_handlers irq).installed = true := by
            have hm := bindings_eq_none s m h irq hvalid.1
            by_contra hi
            exact hok ⟨⟨⟨hvalid.1, rfl⟩, by simpa using hvalid.2⟩, hm.mpr (by simpa using hi)⟩
          simp [if_neg hargs, hinstalled]
    exact Served.refused h hok hserve.1 hserve.2

theorem uninstall_succeeds (s : State) (m : Bindings) (h : Refines s m) (f : Nat) (i : Int) :
    (Request.uninstall (some f) (some i)).succeeds m = true ↔
      ¬ (i < 0 ∨ i ≥ 256 ∨ (s.uacpi_handlers i.toNat).installed = false ∨
        (s.uacpi_handlers i.toNat).handler ≠ some f) := by
  unfold Request.succeeds
  rw [Bool.and_eq_true, decide_eq_true_eq, bindings_any s m h]
  push Not
  rw [ne_eq, Bool.not_eq_false]
  constructor
  · rintro ⟨hlo, hhi, hrest⟩
    exact ⟨hlo, by omega, hrest⟩
  · rintro ⟨hlo, hhi, hrest⟩
    exact ⟨hlo, by omega, hrest⟩

theorem uninstall_served (s : State) (m : Bindings) (h : Refines s m) (handler : Option Nat)
    (irq_handle : Option Int) : Served s m (.uninstall handler irq_handle) := by
  cases handler with
  | none =>
    refine Served.refused h (by simp [Request.succeeds]) ?_ rfl
    simp [serve, uacpi_kernel_uninstall_interrupt_handler]
  | some f =>
    cases irq_handle with
    | none =>
      refine Served.refused h (by simp [Request.succeeds]) ?_ rfl
      simp [serve, uacpi_kernel_uninstall_interrupt_handler]
    | some i =>
      have hiff := uninstall_succeeds s m h f i
      by_cases hbad : i < 0 ∨ i ≥ 256 ∨ (s.uacpi_handlers i.toNat).installed = false ∨
          (s.uacpi_handlers i.toNat).handler ≠ some f
      · have hserve : serve s (.uninstall (some f) (some i)) = (.INVALID_ARGUMENT, s) := if_pos hbad
        refine Served.refused h (fun hok => hiff.mp hok hbad) ?_ ?_
        · rw [hserve]
          simp
        · rw [hserve]
      · have hok := hiff.mpr hbad
        have hserve : serve s (.uninstall (some f) (some i)) = (.OK, { s with
            uacpi_handlers := Function.update s.uacpi_handlers i.toNat
              ⟨none, 0, (s.uacpi_handlers i.toNat).irq, false⟩ }) := if_neg hbad
        have happly : (Request.uninstall (some f) (some i)).apply m = Function.update m i.toNat none := if_pos hok
        push Not at hbad
        have hupdate := h.update i.toNat ⟨none, 0, (s.uacpi_handlers i.toNat).irq, false⟩ (by omega) (fun hi => hi)
        refine ⟨?_, ?_, ?_⟩
        · rw [hserve]
          exact iff_of_true rfl hok
        · rw [hserve]
          exact fun hne => (hne rfl).elim
        · rw [hserve, happly]
          exact hupdate

theorem serve_served (s : State) (m : Bindings) (h : Refines s m) (r : Request) : Served s m r := by
  cases r with
  | install irq handler ctx out => exact install_served s m h irq handler ctx out
  | uninstall handler irq_handle => exact uninstall_served s m h handler irq_handle

/-- `irq` of the bridge is a `u32`, so it looks at the low half of `error` only. -/
theorem bridge_eq (s : State) (m : Bindings) (h : Refines s m) (n : Nat) :
    uacpi_irq_bridge s n = ((m (n % 2 ^ 32)).map fun b => Event.uacpi b.1 b.2).toList := by
  rw [← h.same]
  unfold uacpi_irq_bridge bindings
  generalize n % 2 ^ 32 = irq
  dsimp only
  by_cases hirq : irq < 256
  · rw [if_neg (by omega)]
    cases hi : (s.uacpi_handlers irq).installed with
    | false => simp
    | true =>
      cases hf : (s.uacpi_handlers irq).handler with
      | none => simp
      | some f => simp [hirq]
  · rw [if_pos (by omega), if_neg (fun hand => hirq hand.1)]
    rfl

/-! ## Runs -/

/-- The loader leaves the table empty. -/
def NoHandlers (s : State) : Prop := ∀ n, s.uacpi_handlers n = ⟨none, 0, 0, false⟩

def served (s : State) (rs : List Request) : State := rs.foldl (fun s r => (serve s r).2) s

def bound (rs : List Request) : Bindings := rs.foldl Request.apply fun _ => none

theorem NoHandlers.refines {s : State} (h : NoHandlers s) : Refines s fun _ => none := by
  refine ⟨?_, ?_⟩
  · funext n
    unfold bindings
    rw [h n]
    simp
  · intro n hi
    rw [h n] at hi
    cases hi

theorem served_refines (rs : List Request) (s : State) (m : Bindings) (h : Refines s m) :
    Refines (served s rs) (rs.foldl Request.apply m) := by
  induction rs generalizing s m with
  | nil => exact h
  | cons r rs ih => exact ih _ _ (serve_served s m h r).after

/-- In every run the table refines the map: each request is answered as the map says, and
the bridge calls what the map has for the low half of the number in its frame. -/
theorem run_refines_map (s : State) (rs : List Request) (hs : NoHandlers s) :
    (∀ r, Served (served s rs) (bound rs) r) ∧
    ∀ n, uacpi_irq_bridge (served s rs) n =
      ((bound rs (n % 2 ^ 32)).map fun b => Event.uacpi b.1 b.2).toList := by
  have hrun := served_refines rs s (fun _ => none) hs.refines
  exact ⟨serve_served _ _ hrun, bridge_eq _ _ hrun⟩

theorem run_refines_map_reinstall :
    (∀ r, Served (served (loaded linked) [.install 9 (some 7) 5 true, .uninstall (some 7) (some 9)])
      (bound [.install 9 (some 7) 5 true, .uninstall (some 7) (some 9)]) r) ∧
    ∀ n, uacpi_irq_bridge (served (loaded linked) [.install 9 (some 7) 5 true, .uninstall (some 7) (some 9)]) n =
      ((bound [.install 9 (some 7) 5 true, .uninstall (some 7) (some 9)] (n % 2 ^ 32)).map
        fun b => Event.uacpi b.1 b.2).toList :=
  run_refines_map _ _ fun _ => rfl

/-- Line 9 is bound, and line 2^32 + 9 is not. -/
theorem wide_error_calls_handler :
    ¬ ∀ (s : State) (rs : List Request), NoHandlers s →
      (∀ r, Served (served s rs) (bound rs) r) ∧
      ∀ n, n < 2 ^ 64 → uacpi_irq_bridge (served s rs) n =
        ((bound rs n).map fun b => Event.uacpi b.1 b.2).toList := by
  intro hall
  have hbridge := (hall (loaded linked) [.install 9 (some 7) 5 true] fun _ => rfl).2 (2 ^ 32 + 9) (by decide)
  revert hbridge
  decide

end SlayerOS.Interrupts
