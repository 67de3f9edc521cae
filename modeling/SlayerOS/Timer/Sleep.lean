import SlayerOS.Timer.Code
import SlayerOS.Pit.Wait

/-!
# How long a sleep is

A sleep waits for a target tick, and it is long enough exactly when the target is late
enough. The number of ticks up to the target is cut to 32 bits and rounded down.
-/

open SlayerOS.Fuel SlayerOS.Fuel.Comp

namespace SlayerOS.Timer

/-! ## A clock that goes on -/

/-- Nothing before the first reading, and then a tick before each one. -/
def quiet (t : BitVec 64) : State :=
  { active_timer := .PIT
    timer_frequency := 1000
    pit :=
      { ticks_since_boot := t
        timer_frequency := 1000
        ports := []
        log := []
        interrupts := fun k => if k = 0 then 0 else 1
        readings := 0 } }

theorem quiet_ready (t : BitVec 64) : Ready (quiet t) := ⟨rfl, rfl⟩

/-! ## Targets -/

/-- The sleep waits for `target` from tick `t` on. -/
def WaitsFor (sleep : State → Comp State) (t target : BitVec 64) : Prop :=
  ∀ s r, Ready s → s.pit.ticks_since_boot = t →
    ((sleep s).Ends r ↔ ∃ p, (Pit.wait_loop target (Pit.arrive s.pit)).Ends p ∧ r = { s with pit := p })

section

variable {sleep : State → Comp State} {t target : BitVec 64}

theorem WaitsFor.end_le (h : WaitsFor sleep t target) (s r : State) (hs : Ready s)
    (ht : s.pit.ticks_since_boot = t) (hr : (sleep s).Ends r) :
    target.toNat ≤ r.pit.ticks_since_boot.toNat := by
  obtain ⟨p, hp, rfl⟩ := (h s r hs ht).mp hr
  obtain ⟨-, -, hend, -⟩ := (Pit.wait_loop_iff target _ p).mp hp
  exact hend

theorem WaitsFor.ready (h : WaitsFor sleep t target) (s r : State) (hs : Ready s)
    (ht : s.pit.ticks_since_boot = t) (hr : (sleep s).Ends r) : Ready r := by
  obtain ⟨p, hp, rfl⟩ := (h s r hs ht).mp hr
  obtain ⟨n, rfl, -⟩ := (Pit.wait_loop_iff target _ p).mp hp
  exact ⟨hs.active, (Pit.arrive_timer_frequency (n + 1) s.pit).trans hs.frequency⟩

theorem WaitsFor.returns (h : WaitsFor sleep t target) (s : State) (hs : Ready s)
    (ht : s.pit.ticks_since_boot = t) (n : Nat)
    (hn : target.toNat ≤ (Pit.arrive^[n + 1] s.pit).ticks_since_boot.toNat) : ∃ r, (sleep s).Ends r := by
  obtain ⟨p, hp⟩ := Pit.wait_loop_returns target (Pit.arrive s.pit) n hn
  exact ⟨_, (h s _ hs ht).mpr ⟨p, hp, rfl⟩⟩

theorem WaitsFor.shortest (h : WaitsFor sleep t target) :
    ∃ r, (sleep (quiet t)).Ends r ∧ r.pit.ticks_since_boot.toNat = max t.toNat target.toNat := by
  obtain ⟨p, hp, hticks⟩ := Pit.wait_loop_steady target (Pit.arrive (quiet t).pit) (by
    intro k hk
    simp only [Pit.arrive_eq, quiet] at hk ⊢
    exact if_neg (by omega))
  have hstart : (Pit.arrive (quiet t).pit).ticks_since_boot = t := by
    rw [Pit.arrive_eq]
    exact BitVec.add_zero t
  rw [hstart] at hticks
  exact ⟨_, (h _ _ (quiet_ready t) rfl).mpr ⟨p, hp, rfl⟩, hticks⟩

theorem WaitsFor.notEarly_iff (h : WaitsFor sleep t target) (n : Nat) (hn : 0 < n) :
    NotEarly sleep t n ↔ t.toNat + n ≤ target.toNat := by
  constructor
  · intro hsleep
    obtain ⟨r, hr, hticks⟩ := h.shortest
    have := hsleep _ r (quiet_ready t) rfl hr
    omega
  · intro hle s r hs ht hr
    exact Nat.le_trans hle (h.end_le s r hs ht hr)

theorem WaitsFor.le {sleep' : State → Comp State} {a b : BitVec 64} (ha : WaitsFor sleep t a)
    (hb : WaitsFor sleep' t b) (hab : a.toNat ≤ b.toNat) (s q r : State) (hs : Ready s)
    (ht : s.pit.ticks_since_boot = t) (hq : (sleep s).Ends q) (hr : (sleep' s).Ends r) :
    q.pit.ticks_since_boot.toNat ≤ r.pit.ticks_since_boot.toNat := by
  obtain ⟨p, hp, rfl⟩ := (ha s q hs ht).mp hq
  obtain ⟨p', hp', rfl⟩ := (hb s r hs ht).mp hr
  exact Pit.wait_loop_le a b hab _ p p' hp hp'

end

/-- The target of a sleep of the PIT, which runs at 1000 Hz. -/
def pitTarget (unit duration : BitVec 32) (t : BitVec 64) : BitVec 64 :=
  t + (duration * 1000 / unit).setWidth 64

theorem switch_waitsFor (unit duration : BitVec 32) (t : BitVec 64) :
    WaitsFor (switch_timer (Pit.sleep unit duration)) t (pitTarget unit duration t) := by
  intro s r hs ht
  have hsleep : Pit.sleep unit duration s.pit = Pit.wait_loop (pitTarget unit duration t) (Pit.arrive s.pit) := by
    unfold Pit.sleep pitTarget
    rw [if_neg (by rw [hs.frequency]; decide), hs.frequency, ht]
  unfold switch_timer
  simp only [hs.active, hsleep, ends_bind, ends_pure]
  exact exists_congr fun p => and_congr_right fun _ => eq_comm

theorem sleep_ms_waitsFor (n t : BitVec 64) : WaitsFor (sleep_ms n) t (pitTarget 1000 (n.setWidth 32) t) :=
  switch_waitsFor 1000 (n.setWidth 32) t

theorem sleep_us_waitsFor (n t : BitVec 64) : WaitsFor (sleep_us n) t (pitTarget 1000000 (n.setWidth 32) t) :=
  switch_waitsFor 1000000 (n.setWidth 32) t

/-- A `u64` duration, cut to 32 bits, multiplied in 32 bits, and rounded down. -/
theorem pitTarget_toNat (unit : BitVec 32) (n t : BitVec 64) :
    (pitTarget unit (n.setWidth 32) t).toNat =
      (t.toNat + n.toNat % 2 ^ 32 * 1000 % 2 ^ 32 / unit.toNat) % 2 ^ 64 := by
  unfold pitTarget
  have hsmall : n.toNat % 2 ^ 32 * 1000 % 2 ^ 32 / unit.toNat < 2 ^ 64 :=
    Nat.lt_of_le_of_lt (Nat.div_le_self _ _) (by omega)
  simp only [BitVec.toNat_add, BitVec.toNat_setWidth, BitVec.toNat_udiv, BitVec.toNat_mul,
    show (1000 : BitVec 32).toNat = 1000 from rfl]
  rw [Nat.mod_eq_of_lt hsmall]

/-! ## Milliseconds -/

theorem ms_target (n t : BitVec 64) (ht : t.toNat + n.toNat < 2 ^ 64) (hn : n.toNat ≤ 4294967) :
    (pitTarget 1000 (n.setWidth 32) t).toNat = t.toNat + n.toNat := by
  have hproduct : n.toNat % 2 ^ 32 * 1000 % 2 ^ 32 = n.toNat * 1000 := by omega
  rw [pitTarget_toNat, hproduct, show (1000 : BitVec 32).toNat = 1000 from rfl,
    Nat.mul_div_cancel _ (by decide), Nat.mod_eq_of_lt ht]

theorem ms_full_iff (t n : BitVec 64) (ht : t.toNat + n.toNat < 2 ^ 64) :
    SleepsFull sleep_ms t n ↔ n.toNat ≤ 4294967 := by
  constructor
  · rintro ⟨hfull, -⟩
    by_contra hbig
    have htarget := ((sleep_ms_waitsFor n t).notEarly_iff n.toNat (by omega)).mp hfull
    -- No product of 32 bits is good for more ticks than that.
    have hcut : n.toNat % 2 ^ 32 * 1000 % 2 ^ 32 / 1000 ≤ 4294967 := by omega
    rw [pitTarget_toNat, show (1000 : BitVec 32).toNat = 1000 from rfl, Nat.mod_eq_of_lt (by omega)] at htarget
    omega
  · intro hsmall
    have htarget := ms_target n t ht hsmall
    refine ⟨?_, ?_⟩
    · intro s r hs hticks hr
      exact Nat.le_trans (Nat.le_of_eq htarget.symm) ((sleep_ms_waitsFor n t).end_le s r hs hticks hr)
    · intro m hm
      rw [BitVec.le_def] at hm
      refine (sleep_ms_waitsFor m t).le (sleep_ms_waitsFor n t) ?_
      rw [htarget, ms_target m t (by omega) (by omega)]
      omega

/-- A sleep of milliseconds, from ACPI or not, is long enough exactly when its product with
the frequency fits into 32 bits. -/
theorem sleep_ms_full_iff (t n : BitVec 64) (ht : t.toNat + n.toNat < 2 ^ 64) :
    (SleepsFull sleep_ms t n ↔ n.toNat ≤ 4294967) ∧ (SleepsFull uacpi_kernel_sleep t n ↔ n.toNat ≤ 4294967) :=
  ⟨ms_full_iff t n ht, ms_full_iff t n ht⟩

theorem sleep_ms_full_iff_second : SleepsFull sleep_ms 5 1000 ∧ SleepsFull uacpi_kernel_sleep 5 1000 := by
  obtain ⟨h, h'⟩ := sleep_ms_full_iff 5 1000 (by decide)
  exact ⟨h.mpr (by decide), h'.mpr (by decide)⟩

/-- A sleep of 72 minutes: the product is 704, and the sleep is over at once. A sleep of one
millisecond takes longer. -/
theorem sleep_ms_over_at_once :
    (∃ r, (sleep_ms 4294968 (quiet 7)).Ends r ∧ r.pit.ticks_since_boot.toNat = 7) ∧
    (∃ q, (sleep_ms 1 (quiet 7)).Ends q ∧ q.pit.ticks_since_boot.toNat = 8) ∧
    ¬ SleepsFull sleep_ms 7 4294968 ∧ ¬ SleepsFull uacpi_kernel_sleep 7 4294968 := by
  obtain ⟨r, hr, hticks⟩ := (sleep_ms_waitsFor 4294968 7).shortest
  rw [show max (7 : BitVec 64).toNat (pitTarget 1000 ((4294968 : BitVec 64).setWidth 32) 7).toNat = 7 by decide]
    at hticks
  have hnot : ¬ SleepsFull sleep_ms 7 4294968 := by
    intro h
    have hfull := h.full _ r (quiet_ready 7) rfl hr
    rw [hticks] at hfull
    exact absurd hfull (by decide)
  refine ⟨⟨r, hr, hticks⟩, ?_, hnot, hnot⟩
  obtain ⟨q, hq, hq'⟩ := (sleep_ms_waitsFor 1 7).shortest
  exact ⟨q, hq, hq'⟩

/-! ## Microseconds and nanoseconds -/

theorem us_target (u t : BitVec 64) (hu : u.toNat < 4294967) :
    (pitTarget 1000000 (u.setWidth 32) t).toNat = (t.toNat + u.toNat / 1000) % 2 ^ 64 := by
  have hproduct : u.toNat % 2 ^ 32 * 1000 % 2 ^ 32 = u.toNat * 1000 := by omega
  rw [pitTarget_toNat, hproduct, show (1000000 : BitVec 32).toNat = 1000 * 1000 from rfl,
    Nat.mul_div_mul_right _ _ (by decide)]

/-- The target is rounded down, and so it is late enough for whole milliseconds only. -/
theorem us_notEarly_iff (t u : BitVec 64) (hpos : 0 < u.toNat) (hu : u.toNat < 4294967) :
    NotEarly (sleep_us u) t ((u.toNat + 999) / 1000) ↔ 1000 ∣ u.toNat ∧ t.toNat + u.toNat / 1000 < 2 ^ 64 := by
  rw [(sleep_us_waitsFor u t).notEarly_iff _ (by omega), us_target u t hu]
  omega

def nsToUs (n : BitVec 64) : BitVec 64 := (n + 999) / 1000

theorem nsToUs_toNat (n : BitVec 64) (hn : n.toNat < 4294966000) : (nsToUs n).toNat = (n.toNat + 999) / 1000 := by
  simp only [nsToUs, BitVec.toNat_udiv, BitVec.toNat_add, show (999 : BitVec 64).toNat = 999 from rfl,
    show (1000 : BitVec 64).toNat = 1000 from rfl]
  omega

theorem sleep_ns_eq (n : BitVec 64) (hpos : 0 < n.toNat) (hn : n.toNat < 4294966000) :
    sleep_ns n = sleep_us (nsToUs n) := by
  have hnonzero : nsToUs n ≠ 0 := by
    intro h
    have := congrArg BitVec.toNat h
    rw [nsToUs_toNat n hn, show (0 : BitVec 64).toNat = 0 from rfl] at this
    omega
  funext s
  unfold sleep_ns sleep_us
  simp only [show (n + 999) / 1000 = nsToUs n from rfl, if_neg hnonzero]

theorem ns_notEarly_iff (t n : BitVec 64) (hpos : 0 < n.toNat) (hn : n.toNat < 4294966000) :
    NotEarly (sleep_ns n) t ((n.toNat + 999999) / 1000000) ↔
      1000 ∣ (n.toNat + 999) / 1000 ∧ t.toNat + (n.toNat + 999) / 1000 / 1000 < 2 ^ 64 := by
  have hus := nsToUs_toNat n hn
  have hticks : (n.toNat + 999999) / 1000000 = ((nsToUs n).toNat + 999) / 1000 := by omega
  rw [sleep_ns_eq n hpos hn, hticks, us_notEarly_iff t (nsToUs n) (by omega) (by omega), hus]

theorem stall_early (t : BitVec 64) (usec : BitVec 8) (hpos : 0 < usec.toNat) :
    ¬ NotEarly (uacpi_kernel_stall usec) t ((usec.toNat + 999) / 1000) := by
  have hsmall := usec.isLt
  have hus : (usec.setWidth 64).toNat = usec.toNat := by
    rw [BitVec.toNat_setWidth]
    omega
  have hiff := us_notEarly_iff t (usec.setWidth 64) (by omega) (by omega)
  rw [hus] at hiff
  intro h
  have := (hiff.mp h).1
  omega

/-- A short sleep is long enough exactly when its microseconds are whole milliseconds, and
no stall of ACPI is. -/
theorem short_sleep_iff (t : BitVec 64) :
    (∀ u : BitVec 64, 0 < u.toNat → u.toNat < 4294967 →
      (NotEarly (sleep_us u) t ((u.toNat + 999) / 1000) ↔
        1000 ∣ u.toNat ∧ t.toNat + u.toNat / 1000 < 2 ^ 64)) ∧
    (∀ n : BitVec 64, 0 < n.toNat → n.toNat < 4294966000 →
      (NotEarly (sleep_ns n) t ((n.toNat + 999999) / 1000000) ↔
        1000 ∣ (n.toNat + 999) / 1000 ∧ t.toNat + (n.toNat + 999) / 1000 / 1000 < 2 ^ 64)) ∧
    ∀ usec : BitVec 8, 0 < usec.toNat → ¬ NotEarly (uacpi_kernel_stall usec) t ((usec.toNat + 999) / 1000) :=
  ⟨us_notEarly_iff t, ns_notEarly_iff t, stall_early t⟩

theorem short_sleep_iff_two_ms :
    NotEarly (sleep_us 2000) 5 2 ∧ NotEarly (sleep_ns 1999999) 5 2 ∧ ¬ NotEarly (uacpi_kernel_stall 255) 5 1 := by
  obtain ⟨hus, hns, hstall⟩ := short_sleep_iff 5
  exact ⟨(hus 2000 (by decide) (by decide)).mpr (by decide),
    (hns 1999999 (by decide) (by decide)).mpr (by decide), hstall 255 (by decide)⟩

/-- A sleep of one microsecond, one of half a millisecond, and a stall of 50 microseconds:
all of them can be over at once. -/
theorem short_sleep_over_at_once :
    (∃ r, (sleep_us 1 (quiet 7)).Ends r ∧ r.pit.ticks_since_boot.toNat = 7) ∧
    ¬ NotEarly (sleep_us 1) 7 1 ∧ ¬ NotEarly (sleep_ns 500000) 7 1 ∧ ¬ NotEarly (uacpi_kernel_stall 50) 7 1 := by
  obtain ⟨r, hr, hticks⟩ := (sleep_us_waitsFor 1 7).shortest
  refine ⟨⟨r, hr, hticks⟩, ?_, ?_, stall_early 7 50 (by decide)⟩
  · exact fun h => absurd ((us_notEarly_iff 7 1 (by decide) (by decide)).mp h).1 (by decide)
  · exact fun h => absurd ((ns_notEarly_iff 7 500000 (by decide) (by decide)).mp h).1 (by decide)

end SlayerOS.Timer
