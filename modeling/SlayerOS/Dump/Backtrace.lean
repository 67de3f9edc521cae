import SlayerOS.Dump.Window
import SlayerOS.Lib.Run
import SlayerOS.Lib.Stack

/-!
# What the backtrace shows

The kernel is compiled with frame pointers and without tail calls. So each open call has a frame,
where the caller's `rbp` and the return address are, and `rbp` leads from frame to frame.
-/

open SlayerOS.Fuel SlayerOS.Fuel.Comp SlayerOS.Resolver SlayerOS.Run
open SlayerOS.Stack (Word push pop down up)

namespace SlayerOS.Dump

/-! ## Calls and returns -/

inductive Reg where
  | rip
  | rbp
  | rsp
deriving DecidableEq, Repr

/-- The machine, and where the frames of the open calls are, the innermost one first. -/
structure Thread where
  m : Stack.Machine Reg
  frames : List Word

inductive Event where
  /-- `call entry`, and the `push rbp` and `mov rbp, rsp` that each function starts with. -/
  | call (entry return_address : Word)
  /-- Room for locals and saved registers, or less of it. -/
  | move (rsp : Word)
  | store (a v : Word)
  /-- `leave` and `ret`. -/
  | ret
deriving DecidableEq, Repr

def setReg (m : Stack.Machine Reg) (r : Reg) (v : Word) : Stack.Machine Reg :=
  { m with regs := Function.update m.regs r v }

def call (m : Stack.Machine Reg) (entry return_address : Word) : Stack.Machine Reg :=
  let m := push .rsp m return_address
  let m := push .rsp (setReg m .rip entry) (m.regs .rbp)
  setReg m .rbp (m.regs .rsp)

def leave_ret (m : Stack.Machine Reg) : Stack.Machine Reg :=
  let m := setReg m .rsp (m.regs .rbp)
  pop .rsp (pop .rsp m .rbp) .rip

def next (t : Thread) : Event → Thread
  | .call entry return_address =>
    let m := call t.m entry return_address
    { m, frames := m.regs .rbp :: t.frames }
  | .move rsp => { t with m := setReg t.m .rsp rsp }
  | .store a v => { t with m := { t.m with mem := Function.update t.m.mem a v } }
  | .ret => { m := leave_ret t.m, frames := t.frames.tail }

def step (t : Thread) (e : Event) : Option Thread := some (next t e)

/-- The stack does not grow below `low`, a function moves `rsp` below its own frame only, and nobody
writes to the two words of an open frame. -/
def Legal (low : Nat) (t : Thread) : Event → Prop
  | .call _ _ => low + 16 ≤ (t.m.regs .rsp).toNat
  | .move rsp => low ≤ rsp.toNat ∧ ∀ b ∈ t.frames, rsp.toNat ≤ b.toNat
  | .store a _ => ∀ b ∈ t.frames, a ≠ b ∧ a ≠ b + 8
  | .ret => t.frames ≠ []

instance (low : Nat) (t : Thread) : (e : Event) → Decidable (Legal low t e)
  | .call _ _ => inferInstanceAs (Decidable (_ ≤ _))
  | .move _ => inferInstanceAs (Decidable (_ ∧ _))
  | .store _ _ => inferInstanceAs (Decidable (∀ b ∈ t.frames, _))
  | .ret => inferInstanceAs (Decidable (t.frames ≠ []))

/-! ## The open calls -/

/-- The return addresses of the open calls, the innermost one first. -/
def Event.apply (calls : List Word) : Event → List Word
  | .call _ return_address => return_address :: calls
  | .ret => calls.tail
  | _ => calls

/-- The innermost 16 calls, up to one without a return address, with their numbers. -/
def innermost (calls : List Word) : List (Word × Nat) := ((calls.takeWhile (· != 0)).take 16).zipIdx

/-- The backtrace of these calls: a line for each of them that returns into the kernel. -/
def Traces (m : Machine) (calls : List Word) (lines : List Line) : Prop :=
  ∃ shown, EndsAll (fun c => frame_line m c.2 c.1) (innermost calls) shown ∧ lines = shown.reduceOption

/-! ## The chain of frames -/

/-- `rbp` leads through these frames and then to 0. A frame is its place and its return address. -/
def Chain (mem : Word → Word) : Word → List (Word × Word) → Prop
  | rbp, [] => rbp = 0
  | rbp, f :: fs => rbp = f.1 ∧ mem (f.1 + 8) = f.2 ∧ Chain mem (mem f.1) fs

theorem Chain.congr {mem mem' : Word → Word} {rbp : Word} {fs : List (Word × Word)} (h : Chain mem rbp fs)
    (hsame : ∀ f ∈ fs, mem' f.1 = mem f.1 ∧ mem' (f.1 + 8) = mem (f.1 + 8)) : Chain mem' rbp fs := by
  induction fs generalizing rbp with
  | nil => exact h
  | cons f fs ih =>
    obtain ⟨hrbp, hret, hrest⟩ := h
    obtain ⟨hbase, hslot⟩ := hsame f List.mem_cons_self
    refine ⟨hrbp, hslot.trans hret, ?_⟩
    rw [hbase]
    exact ih hrest fun g hg => hsame g (List.mem_cons_of_mem _ hg)

theorem return_addresses_chain (m : Machine) (n : Nat) (rbp : Word) (fs : List (Word × Word))
    (h : Chain m.memory rbp fs) (hpos : ∀ f ∈ fs, f.1 ≠ 0) :
    return_addresses m n rbp = ((fs.map Prod.snd).takeWhile (· != 0)).take n := by
  induction n generalizing rbp fs with
  | zero => rw [return_addresses, List.take_zero]
  | succ n ih =>
    cases fs with
    | nil =>
      obtain rfl : rbp = 0 := h
      rw [return_addresses, if_pos rfl]
      rfl
    | cons f fs =>
      obtain ⟨rfl, hret, hrest⟩ := h
      have hrest' := ih _ fs hrest fun g hg => hpos g (List.mem_cons_of_mem _ hg)
      rw [return_addresses, if_neg (hpos f List.mem_cons_self), hret, hrest']
      by_cases hzero : f.2 = 0
      · simp [hzero]
      · rw [if_neg hzero, List.map_cons, List.takeWhile_cons_of_pos (by simpa using hzero), List.take_succ_cons]

theorem backtrace_chain (m : Machine) (rbp : Word) (fs : List (Word × Word)) (h : Chain m.memory rbp fs)
    (hpos : ∀ f ∈ fs, f.1 ≠ 0) (lines : List Line) :
    (backtrace m rbp).Ends lines ↔ Traces m (fs.map Prod.snd) lines := by
  unfold backtrace Traces innermost
  rw [backtrace_from_ends, return_addresses_chain m 16 rbp fs h hpos]

theorem traces_iff (m : Machine) (calls : List Word) :
    (∃ lines, Traces m calls lines) ↔ ∀ c ∈ innermost calls, FrameNamed m c.2 c.1 := shown_exists_iff _

/-! ## Steps -/

/-- The frames of the open calls lie one above the other, and none of them below `rsp`. -/
structure Open (low : Nat) (t : Thread) (fs : List (Word × Word)) : Prop where
  chain : Chain t.m.mem (t.m.regs .rbp) fs
  frames : t.frames = fs.map Prod.fst
  low : low ≤ (t.m.regs .rsp).toNat
  above : ∀ f ∈ fs, (t.m.regs .rsp).toNat ≤ f.1.toNat ∧ f.1.toNat + 16 < 2 ^ 64
  apart : fs.Pairwise fun f g => f.1.toNat + 16 ≤ g.1.toNat

theorem Open.mem_frames {low : Nat} {t : Thread} {fs : List (Word × Word)} (h : Open low t fs) (f : Word × Word)
    (hf : f ∈ fs) : f.1 ∈ t.frames := by
  rw [h.frames]
  exact List.mem_map_of_mem hf

theorem call_open {low : Nat} {t : Thread} {fs : List (Word × Word)} (h : Open low t fs)
    (entry return_address : Word) (hroom : low + 16 ≤ (t.m.regs .rsp).toNat) :
    Open low (next t (.call entry return_address)) ((down (t.m.regs .rsp) 2, return_address) :: fs) := by
  have hrsp : down (down (t.m.regs .rsp) 1) 1 = down (t.m.regs .rsp) 2 := Stack.down_down _ _ _
  have hlow : (down (t.m.regs .rsp) 2).toNat + 16 = (t.m.regs .rsp).toNat := by
    unfold down
    bv_omega
  have hlt := (t.m.regs .rsp).isLt
  have hregs : (next t (.call entry return_address)).m.regs .rsp = down (t.m.regs .rsp) 2 ∧
      (next t (.call entry return_address)).m.regs .rbp = down (t.m.regs .rsp) 2 := by
    simp [next, call, setReg, push, hrsp]
  have hmem : (next t (.call entry return_address)).m.mem =
      Function.update (Function.update t.m.mem (down (t.m.regs .rsp) 1) return_address)
        (down (t.m.regs .rsp) 2) (t.m.regs .rbp) := by
    simp [next, call, setReg, push, hrsp]
  refine ⟨?_, ?_, ?_, ?_, ?_⟩
  · rw [hregs.2, hmem]
    refine ⟨rfl, ?_, ?_⟩
    · rw [Function.update_of_ne (by unfold down; bv_omega), show down (t.m.regs .rsp) 2 + 8 = down (t.m.regs .rsp) 1 by
        unfold down; bv_omega, Function.update_self]
    · rw [Function.update_self]
      apply h.chain.congr
      intro f hf
      -- The frames that are there are above the two words.
      obtain ⟨habove, hend⟩ := h.above f hf
      unfold down at *
      constructor
      · rw [Function.update_of_ne (by bv_omega), Function.update_of_ne (by bv_omega)]
      · rw [Function.update_of_ne (by bv_omega), Function.update_of_ne (by bv_omega)]
  · rw [List.map_cons, ← h.frames, ← hregs.2]
    rfl
  · rw [hregs.1]
    omega
  · rw [hregs.1]
    rintro f hf
    rcases List.mem_cons.mp hf with rfl | hf
    · exact ⟨le_refl _, by simp only; omega⟩
    · obtain ⟨habove, hend⟩ := h.above f hf
      exact ⟨by omega, hend⟩
  · refine List.pairwise_cons.mpr ⟨?_, h.apart⟩
    intro f hf
    have := (h.above f hf).1
    simp only
    omega

theorem ret_open {low : Nat} {t : Thread} {f : Word × Word} {fs : List (Word × Word)} (h : Open low t (f :: fs)) :
    Open low (next t .ret) fs ∧ (next t .ret).m.regs .rip = f.2 := by
  obtain ⟨hrbp, hslot, hrest⟩ := h.chain
  obtain ⟨habove, hend⟩ := h.above f List.mem_cons_self
  have hlow := h.low
  have hregs : (next t .ret).m.regs .rsp = up (up f.1 1) 1 ∧ (next t .ret).m.regs .rbp = t.m.mem f.1 ∧
      (next t .ret).m.regs .rip = t.m.mem (up f.1 1) := by
    simp [next, leave_ret, setReg, pop, hrbp]
  have hrsp : (up (up f.1 1) 1).toNat = f.1.toNat + 16 := by
    unfold up
    bv_omega
  refine ⟨⟨?_, ?_, ?_, ?_, h.apart.of_cons⟩, ?_⟩
  · rw [hregs.2.1]
    exact hrest
  · rw [next, h.frames]
    rfl
  · rw [hregs.1, hrsp]
    omega
  · intro g hg
    rw [hregs.1, hrsp]
    exact ⟨List.rel_of_pairwise_cons h.apart hg, (h.above g (List.mem_cons_of_mem _ hg)).2⟩
  · rw [hregs.2.2]
    exact hslot

theorem next_open {low : Nat} {t : Thread} {fs : List (Word × Word)} (e : Event) (h : Open low t fs)
    (he : Legal low t e) :
    ∃ fs', Open low (next t e) fs' ∧ fs'.map Prod.snd = e.apply (fs.map Prod.snd) := by
  cases e with
  | call entry return_address => exact ⟨_, call_open h entry return_address he, rfl⟩
  | move rsp =>
    refine ⟨fs, ⟨h.chain, h.frames, he.1, ?_, h.apart⟩, rfl⟩
    intro f hf
    exact ⟨he.2 f.1 (h.mem_frames f hf), (h.above f hf).2⟩
  | store a v =>
    refine ⟨fs, ⟨?_, h.frames, h.low, h.above, h.apart⟩, rfl⟩
    apply h.chain.congr
    intro f hf
    obtain ⟨hbase, hslot⟩ := he f.1 (h.mem_frames f hf)
    exact ⟨Function.update_of_ne hbase.symm _ _, Function.update_of_ne hslot.symm _ _⟩
  | ret =>
    cases fs with
    | nil => exact absurd h.frames he
    | cons f fs => exact ⟨fs, (ret_open h).1, rfl⟩

/-! ## Runs -/

/-- A stack without open calls. `rbp` is 0 there, which ends the chain. -/
structure Idle (low : Nat) (t : Thread) : Prop where
  rbp : t.m.regs .rbp = 0
  low : low ≤ (t.m.regs .rsp).toNat
  frames : t.frames = []

theorem run_open (low : Nat) (t : Thread) (events : List Event) (ht : Idle low t)
    (hlegal : Along step (Legal low) t events) :
    ∃ t' fs, run step t events = some t' ∧ Open low t' fs ∧ fs.map Prod.snd = events.foldl Event.apply [] := by
  have hstart : ∃ fs, Open low t fs ∧ fs.map Prod.snd = [] :=
    ⟨[], ⟨ht.rbp, ht.frames, ht.low, by simp, List.Pairwise.nil⟩, rfl⟩
  obtain ⟨-, t', hrun, fs, hopen, hcalls⟩ := run_foldl
    (R := fun t calls => ∃ fs, Open low t fs ∧ fs.map Prod.snd = calls) (Q := fun _ _ => True) Event.apply
    (fun t _ e ⟨fs, h, hcalls⟩ he => ⟨trivial, next t e, rfl, hcalls ▸ next_open e h he⟩) t [] events hstart hlegal
  exact ⟨t', fs, hrun, hopen, hcalls⟩

theorem Open.frame_ne_zero {low : Nat} {t : Thread} {fs : List (Word × Word)} (h : Open low t fs) (hlow : 0 < low)
    (f : Word × Word) (hf : f ∈ fs) : f.1 ≠ 0 := by
  intro hzero
  have habove := (h.above f hf).1
  have hbelow := h.low
  have hnull : (0 : Word).toNat = 0 := rfl
  rw [hzero, hnull] at habove
  omega

/-- Wherever a crash happens, the backtrace ends if the names of the innermost calls are printed, and
only then. It shows the calls that are open there, and each `ret` goes back to the innermost one. -/
theorem run_backtrace (m : Machine) (low : Nat) (t : Thread) (events : List Event) (hlow : 0 < low)
    (ht : Idle low t) (hlegal : Along step (Legal low) t events) :
    ∃ t', run step t events = some t' ∧
      ((∃ lines, (backtrace { m with memory := t'.m.mem } (t'.m.regs .rbp)).Ends lines) ↔
        ∀ c ∈ innermost (events.foldl Event.apply []), FrameNamed m c.2 c.1) ∧
      (∀ lines, (backtrace { m with memory := t'.m.mem } (t'.m.regs .rbp)).Ends lines →
        Traces m (events.foldl Event.apply []) lines) ∧
      ∀ r calls, events.foldl Event.apply [] = r :: calls → (next t' .ret).m.regs .rip = r := by
  obtain ⟨t', fs, hrun, hopen, hcalls⟩ := run_open low t events ht hlegal
  have hends := backtrace_chain { m with memory := t'.m.mem } _ fs hopen.chain (hopen.frame_ne_zero hlow)
  rw [← hcalls]
  refine ⟨t', hrun, ?_, fun lines hlines => (hends lines).mp hlines, ?_⟩
  · simp only [hends]
    exact traces_iff m (fs.map Prod.snd)
  · intro r calls heq
    cases fs with
    | nil => cases heq
    | cons f fs =>
      obtain ⟨rfl, -⟩ := List.cons.inj heq
      exact (ret_open hopen).2

/-- An empty stack below 0x9000. -/
def idleThread : Thread := ⟨⟨fun r => if r = .rsp then 0x9000 else 0, fun _ => 0⟩, []⟩

theorem traces_nops {n : Nat} {lines : List Line} (h : Traces (nops_machine n) [0xffffffff80001234, 0] lines) :
    lines = [.frame_address 0 0xffffffff80001234] := by
  obtain ⟨shown, hshown, rfl⟩ := h
  obtain ⟨line, _, hline, hrest, rfl⟩ := (endsAll_cons_iff _ _ _ _).mp hshown
  obtain rfl := (ends_pure _ _).mp hline
  cases hrest
  rfl

/-- The entry of the kernel has no return address. It calls a function, which calls another one that
returns. -/
theorem run_backtrace_two :
    ∃ t', run step idleThread
        [.call 0xffffffff80001000 0, .call 0xffffffff80002000 0xffffffff80001234,
          .call 0xffffffff80003000 0xffffffff80002468, .ret] = some t' ∧
      (backtrace { nops_machine 1 with memory := t'.m.mem } (t'.m.regs .rbp)).Ends
        [.frame_address 0 0xffffffff80001234] := by
  have hlegal : Along step (Legal 0x1000) idleThread
      [.call 0xffffffff80001000 0, .call 0xffffffff80002000 0xffffffff80001234,
        .call 0xffffffff80003000 0xffffffff80002468, .ret] :=
    along_cons _ _ _ _ (by decide) rfl (along_cons _ _ _ _ (by decide) rfl (along_cons _ _ _ _ (by decide) rfl
      (along_cons _ _ _ _ (List.cons_ne_nil _ _) rfl trivial)))
  obtain ⟨t', hrun, hends, htraces, -⟩ := run_backtrace (nops_machine 1) 0x1000 idleThread _ (by decide)
    ⟨rfl, by decide, rfl⟩ hlegal
  obtain ⟨lines, hlines⟩ := hends.mpr fun c _ _ a2l_res h => nomatch h
  exact ⟨t', hrun, traces_nops (htraces lines hlines) ▸ hlines⟩

end SlayerOS.Dump
