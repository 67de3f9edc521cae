import Mathlib.Data.List.Basic

/-!
# Runs of a step function

A system is a function from a state and an event to the next state. A step that
faults or does not end gives `none`.
-/

namespace SlayerOS.Run

variable {σ ε : Type} (step : σ → ε → Option σ)

/-- The state after the events, or `none` if one of the steps fails. -/
def run : σ → List ε → Option σ
  | s, [] => some s
  | s, e :: es => (step s e).bind fun s' => run s' es

/-- `P` holds of every step: of the state before it and of its event. -/
def Along (P : σ → ε → Prop) : σ → List ε → Prop
  | _, [] => True
  | s, e :: es => P s e ∧ ∀ s', step s e = some s' → Along P s' es

variable {step}

@[simp] theorem run_nil (s : σ) : run step s [] = some s := rfl

theorem run_cons (s : σ) (e : ε) (es : List ε) :
    run step s (e :: es) = (step s e).bind fun s' => run step s' es := rfl

theorem run_snoc (s : σ) (es : List ε) (e : ε) :
    run step s (es ++ [e]) = (run step s es).bind fun t => step t e := by
  induction es generalizing s with
  | nil =>
    rw [List.nil_append, run_cons, run_nil, Option.bind_some]
    exact Option.bind_fun_some (step s e)
  | cons d es ih =>
    rw [List.cons_append, run_cons, run_cons, Option.bind_assoc]
    exact congrArg _ (funext fun t => ih t)

theorem run_seen {α : Type} {f : σ → α} {a : α} {s t : σ} {es : List ε} (h : (run step s es).map f = some a)
    (ht : run step s es = some t) : f t = a := by
  rw [ht] at h
  exact Option.some.inj h

/-! ## Invariants -/

/-- An invariant that every allowed step keeps holds at the end of every allowed run,
and no allowed step fails. -/
theorem run_inv {Inv : σ → Prop} {P : σ → ε → Prop}
    (hstep : ∀ s e, Inv s → P s e → ∃ s', step s e = some s' ∧ Inv s')
    (s : σ) (es : List ε) (hs : Inv s) (hes : Along step P s es) :
    ∃ s', run step s es = some s' ∧ Inv s' := by
  induction es generalizing s with
  | nil => exact ⟨s, rfl, hs⟩
  | cons e es ih =>
    obtain ⟨hp, hrest⟩ := hes
    obtain ⟨s', hs', hinv⟩ := hstep s e hs hp
    obtain ⟨t, ht, hinv'⟩ := ih s' hinv (hrest s' hs')
    exact ⟨t, by rw [run_cons, hs', Option.bind_some, ht], hinv'⟩

/-- The same where a step may fail: what the steps that end keep holds where the run ends. -/
theorem run_keeps {Inv : σ → Prop} {P : σ → ε → Prop}
    (hstep : ∀ s e s', Inv s → P s e → step s e = some s' → Inv s')
    (s t : σ) (es : List ε) (hs : Inv s) (hes : Along step P s es) (ht : run step s es = some t) : Inv t := by
  induction es generalizing s with
  | nil =>
    obtain rfl : s = t := Option.some.inj ht
    exact hs
  | cons e es ih =>
    obtain ⟨hp, hrest⟩ := hes
    rw [run_cons] at ht
    obtain ⟨s', hs', ht'⟩ := Option.bind_eq_some_iff.mp ht
    exact ih s' (hstep s e s' hs hp hs') (hrest s' hs') ht'

/-- A run follows an abstract run: each allowed step keeps the relation to the abstract
state, and what each step does is `Q`. -/
theorem run_foldl {α : Type} {R : σ → α → Prop} {P Q : σ → ε → Prop} (f : α → ε → α)
    (hstep : ∀ s a e, R s a → P s e → Q s e ∧ ∃ s', step s e = some s' ∧ R s' (f a e))
    (s : σ) (a : α) (es : List ε) (hs : R s a) (hes : Along step P s es) :
    Along step Q s es ∧ ∃ s', run step s es = some s' ∧ R s' (es.foldl f a) := by
  induction es generalizing s a with
  | nil => exact ⟨trivial, s, rfl, hs⟩
  | cons e es ih =>
    obtain ⟨hp, hrest⟩ := hes
    obtain ⟨hq, s', hs', hr⟩ := hstep s a e hs hp
    obtain ⟨hQ, t, ht, hr'⟩ := ih s' (f a e) hr (hrest s' hs')
    refine ⟨⟨hq, ?_⟩, t, by rw [run_cons, hs', Option.bind_some, ht], hr'⟩
    intro u hu
    obtain rfl : s' = u := Option.some.inj (hs'.symm.trans hu)
    exact hQ

/-- The same for an invariant that grows with the number of steps, such as a bound on the
work of the next step. What each step does is `Q`. -/
theorem run_count (Inv : Nat → σ → Prop) {P Q : σ → ε → Prop} (N : Nat)
    (hstep : ∀ n s e, n < N → Inv n s → P s e → Q s e ∧ ∃ s', step s e = some s' ∧ Inv (n + 1) s')
    (n : Nat) (s : σ) (es : List ε) (hN : n + es.length ≤ N) (hs : Inv n s) (hes : Along step P s es) :
    Along step Q s es ∧ ∃ s', run step s es = some s' ∧ Inv (n + es.length) s' := by
  induction es generalizing n s with
  | nil => exact ⟨trivial, s, rfl, hs⟩
  | cons e es ih =>
    rw [List.length_cons] at hN ⊢
    obtain ⟨hp, hrest⟩ := hes
    obtain ⟨hq, s', hs', hinv⟩ := hstep n s e (by omega) hs hp
    obtain ⟨hQ, t, ht, hinv'⟩ := ih (n + 1) s' (by omega) hinv (hrest s' hs')
    refine ⟨⟨hq, ?_⟩, t, by rw [run_cons, hs', Option.bind_some, ht], ?_⟩
    · intro u hu
      obtain rfl : s' = u := Option.some.inj (hs'.symm.trans hu)
      exact hQ
    · rw [show n + (es.length + 1) = n + 1 + es.length by omega]
      exact hinv'

/-- Steps that are good exactly when they are guarded make runs that are good exactly
when they are guarded, as long as the good steps keep what the equivalence needs. -/
theorem along_iff_count (Inv : Nat → σ → Prop) {L P Q : σ → ε → Prop} (N : Nat)
    (hiff : ∀ n s e, n < N → Inv n s → L s e → (P s e ↔ Q s e))
    (hstep : ∀ n s e s', n < N → Inv n s → L s e → P s e → step s e = some s' → Inv (n + 1) s')
    (n : Nat) (s : σ) (es : List ε) (hN : n + es.length ≤ N) (hs : Inv n s) (hes : Along step L s es) :
    Along step P s es ↔ Along step Q s es := by
  induction es generalizing n s with
  | nil => exact Iff.rfl
  | cons e es ih =>
    rw [List.length_cons] at hN
    obtain ⟨hl, hrest⟩ := hes
    have h1 := hiff n s e (by omega) hs hl
    constructor
    · rintro ⟨hp, hP⟩
      exact ⟨h1.mp hp, fun s' hs' =>
        (ih (n + 1) s' (by omega) (hstep n s e s' (by omega) hs hl hp hs') (hrest s' hs')).mp (hP s' hs')⟩
    · rintro ⟨hq, hQ⟩
      have hp := h1.mpr hq
      exact ⟨hp, fun s' hs' =>
        (ih (n + 1) s' (by omega) (hstep n s e s' (by omega) hs hl hp hs') (hrest s' hs')).mpr (hQ s' hs')⟩

/-- The same with an invariant that does not count the steps. -/
theorem along_iff (Inv : σ → Prop) {L P Q : σ → ε → Prop}
    (hiff : ∀ s e, Inv s → L s e → (P s e ↔ Q s e))
    (hstep : ∀ s e s', Inv s → L s e → P s e → step s e = some s' → Inv s')
    (s : σ) (es : List ε) (hs : Inv s) (hes : Along step L s es) :
    Along step P s es ↔ Along step Q s es :=
  along_iff_count (fun _ => Inv) es.length (fun _ s e _ => hiff s e) (fun _ s e s' _ => hstep s e s')
    0 s es (by omega) hs hes

theorem along_cons {P : σ → ε → Prop} (s s' : σ) (e : ε) (es : List ε) (hp : P s e)
    (hs : step s e = some s') (hes : Along step P s' es) : Along step P s (e :: es) := by
  refine ⟨hp, ?_⟩
  intro t ht
  obtain rfl : s' = t := Option.some.inj (hs.symm.trans ht)
  exact hes

theorem Along.end {Q : σ → Prop} (s t : σ) (es : List ε) (hs : Q s)
    (h : Along step (fun s e => ∃ s', step s e = some s' ∧ Q s') s es) (ht : run step s es = some t) : Q t := by
  induction es generalizing s with
  | nil =>
    obtain rfl : s = t := Option.some.inj ht
    exact hs
  | cons e es ih =>
    obtain ⟨⟨s', hs', hq⟩, hrest⟩ := h
    rw [run_cons, hs', Option.bind_some] at ht
    exact ih s' hq (hrest s' hs') ht

theorem Along.mono {P Q : σ → ε → Prop} (h : ∀ s e, P s e → Q s e) (s : σ) (es : List ε)
    (hes : Along step P s es) : Along step Q s es := by
  induction es generalizing s with
  | nil => trivial
  | cons e es ih => exact ⟨h s e hes.1, fun s' hs' => ih s' (hes.2 s' hs')⟩

theorem along_of_forall {P : ε → Prop} (s : σ) (es : List ε) (h : ∀ e ∈ es, P e) :
    Along step (fun _ e => P e) s es := by
  induction es generalizing s with
  | nil => trivial
  | cons e es ih =>
    exact ⟨h e List.mem_cons_self, fun s' _ => ih s' fun d hd => h d (List.mem_cons_of_mem _ hd)⟩

theorem along_append {P : σ → ε → Prop} (s : σ) (es fs : List ε) :
    Along step P s (es ++ fs) ↔
      Along step P s es ∧ ∀ s', run step s es = some s' → Along step P s' fs := by
  induction es generalizing s with
  | nil => simp [Along]
  | cons e es ih =>
    simp only [List.cons_append, Along, run_cons]
    constructor
    · rintro ⟨hp, h⟩
      refine ⟨⟨hp, fun s' hs' => ((ih s').mp (h s' hs')).1⟩, ?_⟩
      intro t ht
      obtain ⟨s', hs', ht'⟩ := Option.bind_eq_some_iff.mp ht
      exact ((ih s').mp (h s' hs')).2 t ht'
    · rintro ⟨⟨hp, h⟩, hf⟩
      refine ⟨hp, fun s' hs' => (ih s').mpr ⟨h s' hs', fun t ht => hf t ?_⟩⟩
      rw [hs', Option.bind_some, ht]

theorem along_snoc {P : σ → ε → Prop} (s : σ) (es : List ε) (e : ε) :
    Along step P s (es ++ [e]) ↔ Along step P s es ∧ ∀ t, run step s es = some t → P t e := by
  rw [along_append]
  refine and_congr_right fun _ => forall_congr' fun t => imp_congr_right fun _ => ?_
  exact ⟨And.left, fun h => ⟨h, fun _ _ => trivial⟩⟩

theorem Along.at {P : σ → ε → Prop} (s t : σ) (es : List ε) (e : ε) (fs : List ε)
    (h : Along step P s (es ++ e :: fs)) (ht : run step s es = some t) : P t e :=
  (((along_append s es (e :: fs)).mp h).2 t ht).1

/-! ## Fuel -/

theorem fuel_le {α : Type} (f : Nat → Option α) (hmono : ∀ n a, f n = some a → f (n + 1) = some a)
    (n k : Nat) (a : α) (hle : n ≤ k) (ha : f n = some a) : f k = some a := by
  induction hle with
  | refl => exact ha
  | step _ ih => exact hmono _ a ih

theorem fuel_agree {α : Type} (f : Nat → Option α) (hmono : ∀ n a, f n = some a → f (n + 1) = some a)
    (n k : Nat) (a b : α) (ha : f n = some a) (hb : f k = some b) : a = b := by
  have h1 := fuel_le f hmono n (max n k) a (by omega) ha
  have h2 := fuel_le f hmono k (max n k) b (by omega) hb
  exact Option.some.inj (h1.symm.trans h2)

end SlayerOS.Run
