import SlayerOS.Interrupts.Stubs

/-!
# What the stubs save and restore

Each macro is a few blocks of pushes and pops. A block is described by the stack that it
leaves, and the stubs are put together from the blocks.
-/

open SlayerOS.Stack

namespace SlayerOS.Interrupts

/-! ## Blocks -/

/-- The stack pointer, and the words from there on. -/
structure At (m : Regs) (sp : Word) (xs : List Word) : Prop where
  rsp : m.regs .rsp = sp
  holds : Holds m.mem sp xs

/-- All registers but `rsp` and those in the list are the same. -/
def Same (rs : List Reg) (m m' : Regs) : Prop := ∀ r, r ≠ .rsp → r ∉ rs → m'.regs r = m.regs r

theorem Same.trans {rs : List Reg} {m m' m'' : Regs} (h : Same rs m m') (h' : Same rs m' m'') : Same rs m m'' :=
  fun r hr hrs => (h' r hr hrs).trans (h r hr hrs)

theorem Same.mono {rs qs : List Reg} {m m' : Regs} (h : Same rs m m') (hsub : rs ⊆ qs) : Same qs m m' :=
  fun r hr hqs => h r hr fun hrs => hqs (hsub hrs)

section

variable (special : Special → Word) (handler : Regs → Regs)

theorem execAll_append (m : Regs) (a b : List Instr) :
    execAll special handler m (a ++ b) = execAll special handler (execAll special handler m a) b :=
  List.foldl_append ..

theorem execAll_call (m : Regs) (code : List Instr) :
    execAll special handler m (.call :: code) = execAll special handler (handler m) code := rfl

theorem execAll_pushq (m : Regs) (rs : List Reg) :
    execAll special handler m (rs.map .pushq) = pushRegs .rsp m rs := by
  unfold execAll pushRegs
  rw [List.foldl_map]
  rfl

theorem execAll_popq (m : Regs) (rs : List Reg) :
    execAll special handler m (rs.map .popq) = popRegs .rsp m rs := by
  unfold execAll popRegs
  rw [List.foldl_map]
  rfl

theorem push_at (m : Regs) (sp v : Word) (xs : List Word) (h : At m sp xs) (hlen : xs.length < 100) :
    At (push .rsp m v) (down sp 1) (v :: xs) ∧ Same [] m (push .rsp m v) := by
  refine ⟨⟨by rw [push_sp, h.rsp], ?_⟩, fun r hr _ => push_regs m v r hr⟩
  have := push_holds m v xs (h.rsp.symm ▸ h.holds) (by omega)
  rwa [push_sp, h.rsp] at this

theorem pushAll_at (m : Regs) (sp : Word) (vs xs : List Word) (h : At m sp xs)
    (hlen : xs.length + vs.length < 100) :
    At (pushAll .rsp m vs) (down sp vs.length) (vs.reverse ++ xs) ∧ Same [] m (pushAll .rsp m vs) := by
  obtain ⟨hholds, hsp, hregs⟩ := pushAll_spec Reg.rsp vs m xs (h.rsp.symm ▸ h.holds) (by omega)
  rw [h.rsp] at hsp
  exact ⟨⟨hsp, hsp ▸ hholds⟩, fun r hr _ => hregs r hr⟩

theorem pushRegs_at (m : Regs) (sp : Word) (rs : List Reg) (xs : List Word) (h : At m sp xs)
    (hrs : Reg.rsp ∉ rs) (hlen : xs.length + rs.length < 100) :
    At (pushRegs .rsp m rs) (down sp rs.length) ((rs.map m.regs).reverse ++ xs) ∧
    Same [] m (pushRegs .rsp m rs) := by
  rw [pushRegs_eq rs hrs]
  simpa using pushAll_at m sp (rs.map m.regs) xs h (by simpa using hlen)

theorem popRegs_at (m : Regs) (sp : Word) (rs : List Reg) (vs xs : List Word) (h : At m sp (vs ++ xs))
    (hrs : Reg.rsp ∉ rs) (hlen : vs.length = rs.length) :
    At (popRegs .rsp m rs) (up sp rs.length) xs ∧
    ∀ r, r ≠ .rsp → (popRegs .rsp m rs).regs r = assign m.regs (rs.zip vs) r := by
  obtain ⟨hmem, hsp, hregs⟩ := popRegs_spec Reg.rsp rs hrs m vs xs hlen (h.rsp.symm ▸ h.holds)
  rw [h.rsp] at hsp
  refine ⟨⟨hsp, ?_⟩, hregs⟩
  have hdrop := h.holds.drop rs.length
  rw [← hlen, List.drop_left] at hdrop
  rw [hmem, ← hlen]
  exact hdrop

/-- Special registers go through `rax`. -/
theorem push_special_at (ss : List Special) (m : Regs) (sp : Word) (xs : List Word) (h : At m sp xs)
    (hlen : xs.length + ss.length < 100) :
    At (execAll special handler m (ss.flatMap fun s => [.mov_special s, .pushq .rax])) (down sp ss.length)
      ((ss.map special).reverse ++ xs) ∧
    Same [.rax] m (execAll special handler m (ss.flatMap fun s => [.mov_special s, .pushq .rax])) := by
  induction ss generalizing m sp xs with
  | nil => exact ⟨⟨by simpa [execAll] using h.rsp, by simpa [execAll] using h.holds⟩, fun _ _ _ => rfl⟩
  | cons s ss ih =>
    rw [List.length_cons] at hlen
    have hset : At (setReg m .rax (special s)) sp xs := ⟨h.rsp, h.holds⟩
    obtain ⟨hat, hsame⟩ := push_at _ sp ((setReg m .rax (special s)).regs .rax) xs hset (by omega)
    obtain ⟨hat', hsame'⟩ := ih _ _ _ hat (by rw [List.length_cons]; omega)
    have hrax : (setReg m .rax (special s)).regs .rax = special s := by simp [setReg]
    rw [hrax] at hat' hat hsame hsame'
    rw [List.flatMap_cons, execAll_append, List.map_cons, List.reverse_cons, List.append_assoc,
      List.length_cons, Nat.add_comm, ← down_down]
    refine ⟨hat', Same.trans (Same.trans ?_ (hsame.mono (by simp))) hsame'⟩
    intro r hr hrax
    exact Function.update_of_ne (by simpa using hrax) _ _

/-! ## `pusha`, `save_ra` and `popa` -/

/-- The words that `pusha` pushes, from the top of the stack on. The stack pointer among
them is the one in the middle of the macro. -/
def savedWords (special : Special → Word) (behind : Word) (m : Regs) (sp : Word) : List Word :=
  [special .gs, special .fs, special .es, special .ds, special .cs, special .ss,
   special .cr0, special .cr2, special .cr3, special .cr4, special .cr8, behind,
   m.regs .rax, m.regs .rbx, m.regs .rcx, m.regs .rdx, m.regs .rsi, m.regs .rdi, down sp 9, m.regs .rbp,
   m.regs .r8, m.regs .r9, m.regs .r10, m.regs .r11, m.regs .r12, m.regs .r13, m.regs .r14, m.regs .r15]

theorem pusha_at (behind : Word) (m : Regs) (sp : Word) (xs : List Word) (h : At m sp xs)
    (hlen : xs.length < 20) :
    At (execAll special handler m (pusha behind)) (down sp 28) (savedWords special behind m sp ++ xs) ∧
    Same [.rax] m (execAll special handler m (pusha behind)) := by
  unfold pusha
  rw [execAll_append, execAll_append, execAll_append, execAll_append, execAll_pushq, execAll_pushq]
  obtain ⟨h1, s1⟩ := pushRegs_at m sp pusha_first xs h (by decide) (by simp [pusha_first]; omega)
  generalize pushRegs .rsp m pusha_first = m1 at *
  obtain ⟨h2, s2⟩ := push_at m1 _ (m1.regs .rsp) _ h1 (by simp [pusha_first]; omega)
  rw [show execAll special handler m1 [.pushq .rsp] = push .rsp m1 (m1.regs .rsp) from rfl]
  generalize push .rsp m1 (m1.regs .rsp) = m2 at *
  obtain ⟨h3, s3⟩ := pushRegs_at m2 _ pusha_second _ h2 (by decide) (by simp [pusha_first, pusha_second]; omega)
  generalize pushRegs .rsp m2 pusha_second = m3 at *
  -- `lea` and the push behind it.
  have hset : At (setReg m3 .rax behind) _ _ := ⟨h3.rsp, h3.holds⟩
  obtain ⟨h4, s4⟩ := push_at _ _ behind _ hset (by simp [pusha_first, pusha_second]; omega)
  have hlea : execAll special handler m3 [.lea behind, .pushq .rax] = push .rsp (setReg m3 .rax behind) behind := by
    simp [execAll, exec, setReg]
  have slea : Same [.rax] m3 (setReg m3 .rax behind) :=
    fun r _ hrax => Function.update_of_ne (by simpa using hrax) _ _
  rw [hlea]
  generalize push .rsp (setReg m3 .rax behind) behind = m4 at *
  obtain ⟨h5, s5⟩ := push_special_at special handler pusha_special m4 _ _ h4
    (by simp [pusha_first, pusha_second, pusha_special]; omega)
  have hregs : ∀ r, r ≠ .rsp → m2.regs r = m.regs r :=
    fun r hr => (s2 r hr (by simp)).trans (s1 r hr (by simp))
  refine ⟨?_, ?_⟩
  · have hsp : m1.regs .rsp = down sp 9 := h1.rsp
    simpa [down_down, pusha_first, pusha_second, pusha_special, hregs, hsp, savedWords] using h5
  · exact ((s1.trans s2).trans s3).mono (by simp) |>.trans (slea.trans ((s4.mono (by simp)).trans s5))

/-- The macros between the pushes of a stub and its call, over a stack with the number, the
error code and the word that `save_ra` takes for the return address. -/
theorem save_at (behind : Word) (m : Regs) (sp num code ra : Word) (rest : List Word)
    (h : At m sp (num :: code :: ra :: rest)) (hlen : rest.length < 10) :
    At (execAll special handler m (pusha behind ++ save_ra ++ [.mov_rsp_rdi])) (down sp 29)
      (ra :: (savedWords special behind m sp ++ num :: code :: ra :: rest)) ∧
    (execAll special handler m (pusha behind ++ save_ra ++ [.mov_rsp_rdi])).regs .rdi = down sp 29 := by
  rw [execAll_append, execAll_append]
  obtain ⟨h1, -⟩ := pusha_at special handler behind m sp _ h
    (by simp only [List.length_cons]; omega)
  generalize execAll special handler m (pusha behind) = m1 at *
  have hra : word m1.mem (m1.regs .rsp) 30 = ra := by
    rw [h1.rsp]
    exact h1.holds 30 ra rfl
  have hset : At (setReg m1 .rax ra) (down sp 28) _ := ⟨h1.rsp, h1.holds⟩
  obtain ⟨h2, -⟩ := push_at _ _ ra _ hset (by simp [savedWords]; omega)
  have hsave : execAll special handler m1 save_ra = push .rsp (setReg m1 .rax ra) ra := by
    simp [execAll, save_ra, exec, setReg, hra]
  rw [hsave]
  rw [down_down] at h2
  generalize push .rsp (setReg m1 .rax ra) ra = m2 at *
  exact ⟨⟨h2.rsp, h2.holds⟩, h2.rsp⟩

/-- `popa` over the same words restores every register but `r15`, which gets the error
code. -/
theorem popa_at (behind : Word) (m m0 : Regs) (sp num code ra : Word)
    (h : At m (down sp 29) (ra :: (savedWords special behind m0 sp ++ [num, code]))) :
    At (execAll special handler m popa) (up sp 2) [] ∧
    (execAll special handler m popa).regs .r15 = code ∧
    ∀ r, r ≠ .rsp → r ≠ .r15 → (execAll special handler m popa).regs r = m0.regs r := by
  unfold popa
  rw [execAll_append, execAll_append, execAll_popq, execAll_popq]
  obtain ⟨h1, r1⟩ := popRegs_at m (down sp 29) popa_first
    (ra :: (savedWords special behind m0 sp).take 18)
    ((savedWords special behind m0 sp).drop 18 ++ [num, code]) h (by decide) rfl
  generalize popRegs .rsp m popa_first = m1 at *
  -- The stack pointer in the frame is the address of the next word.
  have hnext : up (down sp 29) popa_first.length = down sp 10 := up_down sp 10 19
  rw [hnext] at h1
  obtain ⟨htop, hrest⟩ := h1.holds.cons
  have hsp : execAll special handler m1 [.popq .rsp] = setReg m1 .rsp (down sp 9) := by
    simp [execAll, exec, pop, setReg, h1.rsp, htop]
  have h2 : At (setReg m1 .rsp (down sp 9)) (down sp 9)
      ([m0.regs .rbp, m0.regs .r8, m0.regs .r9, m0.regs .r10, m0.regs .r11, m0.regs .r12, m0.regs .r13,
        m0.regs .r14, m0.regs .r15, num, code] ++ []) := by
    rw [show up (down sp 10) 1 = down sp 9 from up_down sp 9 1] at hrest
    exact ⟨by simp [setReg], hrest⟩
  obtain ⟨h3, r3⟩ := popRegs_at _ (down sp 9) popa_second _ _ h2 (by decide) rfl
  rw [hsp]
  have hend : up (down sp 9) popa_second.length = up sp 2 := by
    unfold up down popa_second
    simp only [List.length_cons, List.length_nil]
    bv_omega
  rw [hend] at h3
  refine ⟨h3, by rw [r3 .r15 (by decide)]; rfl, ?_⟩
  intro r hrsp hr15
  rw [r3 r hrsp]
  have hfirst : (setReg m1 .rsp (down sp 9)).regs r = m1.regs r := Function.update_of_ne hrsp _ _
  cases r with
  | rsp => exact absurd rfl hrsp
  | r15 => exact absurd rfl hr15
  | rax | rbx | rcx | rdx | rsi | rdi => exact (hfirst.trans (r1 _ (by decide))).trans rfl
  | rbp | r8 | r9 | r10 | r11 | r12 | r13 | r14 => rfl

end

/-! ## A whole stub -/

/-- The state in which the stub calls its handler. -/
def entered (special : Special → Word) (m : Regs) (x : Interrupt) (error : Option Word) (behind : Word)
    (stub : Stub) : Regs :=
  execAll special id (interrupt m x error) (stub.entry behind)

/-- The state in which the stub reaches `iretq`. -/
def left (special : Special → Word) (handler : Regs → Regs) (m : Regs) (x : Interrupt)
    (error : Option Word) (behind : Word) (stub : Stub) : Regs :=
  execAll special handler (entered special m x error behind stub) stub.common

/-- The handler returns to the stub, and the `n` words of the frame are as they were. -/
structure Returns (handler : Regs → Regs) (m : Regs) (n : Nat) : Prop where
  rsp : (handler m).regs .rsp = m.regs .rsp
  frame : ∀ i, i < n → word (handler m).mem (m.regs .rdi) i = word m.mem (m.regs .rdi) i

/-- The interrupted code will not notice. -/
def Transparent (m : Regs) (x : Interrupt) (m' : Regs) : Prop :=
  (∀ r, r ≠ .rsp → m'.regs r = m.regs r) ∧ m'.regs .rsp = x.ripSlot

def Stub.IsException : Stub → Prop
  | .IRQ _ _ => False
  | _ => True

/-- The processor pushes an error code just for the stubs that expect one. -/
def Stub.Matches (error : Option Word) : Stub → Prop
  | .ISR_ERR _ => error ≠ none
  | _ => error = none

theorem interrupt_at (m : Regs) (x : Interrupt) (error : Option Word) :
    At (interrupt m x error) (down x.top (5 + error.toList.length)) (x.pushed (m.regs .rsp) error) ∧
    Same [] m (interrupt m x error) := by
  have hempty : At (setReg m .rsp x.top) x.top [] := ⟨by simp [setReg], by simp [Holds]⟩
  have hlen : (x.pushed (m.regs .rsp) error).length = 5 + error.toList.length := by
    simp [Interrupt.pushed]
    omega
  have hshort : error.toList.length ≤ 1 := by cases error <;> simp
  obtain ⟨hat, hsame⟩ := pushAll_at _ _ (x.pushed (m.regs .rsp) error).reverse [] hempty
    (by simp only [List.length_nil, List.length_reverse, hlen]; omega)
  rw [List.reverse_reverse, List.append_nil, List.length_reverse, hlen] at hat
  refine ⟨hat, fun r hr hrs => (hsame r hr hrs).trans ?_⟩
  exact Function.update_of_ne hr _ _

theorem savedWords_congr (special : Special → Word) (behind : Word) (m m' : Regs) (sp : Word)
    (h : Same [] m m') : savedWords special behind m' sp = savedWords special behind m sp := by
  have hregs : ∀ r, r ≠ .rsp → m'.regs r = m.regs r := fun r hr => h r hr (by simp)
  simp [savedWords, hregs]

/-- What an exception stub takes for its own: the words between its number and the top of
the stack, the error code and the return address. -/
def Stub.view (x : Interrupt) (error : Option Word) : Stub → Nat × Word × Word
  | .ISR_ERR _ => match error with
    | none => (6, x.rip, x.cs)
    | some e => (7, e, x.rip)
  | _ => match error with
    | none => (7, 0, x.rip)
    | some e => (8, 0, e)

/-- The stub from behind its own pushes on, up to the call of `isr_handler`. -/
theorem saved_at (special : Special → Word) (behind : Word) (m m' : Regs) (x : Interrupt) (n : Nat)
    (num code ra : Word) (rest : List Word) (hsame : Same [] m m')
    (h : At m' (down x.top n) (num :: code :: ra :: rest)) (hlen : rest.length < 10) :
    At (execAll special id m' (pusha behind ++ save_ra ++ [.mov_rsp_rdi])) (down x.top (n + 29))
      (ra :: (savedWords special behind m (down x.top n) ++ [num, code])) ∧
    (execAll special id m' (pusha behind ++ save_ra ++ [.mov_rsp_rdi])).regs .rdi = down x.top (n + 29) := by
  obtain ⟨hat, hrdi⟩ := save_at special id behind m' _ num code ra rest h hlen
  rw [down_down] at hat hrdi
  rw [savedWords_congr special behind m m' _ hsame] at hat
  exact ⟨⟨hat.rsp, hat.holds.take 31⟩, hrdi⟩

theorem entry_noerr (special : Special → Word) (behind : Word) (m : Regs) (num : Nat) :
    execAll special id m ((Stub.ISR_NOERR num).entry behind) =
      execAll special id (push .rsp (push .rsp m 0) (BitVec.ofNat 64 num))
        (pusha behind ++ save_ra ++ [.mov_rsp_rdi]) := by
  rw [Stub.entry, List.append_assoc, List.append_assoc, execAll_append, List.append_assoc]
  rfl

theorem entry_err (special : Special → Word) (behind : Word) (m : Regs) (num : Nat) :
    execAll special id m ((Stub.ISR_ERR num).entry behind) =
      execAll special id (push .rsp m (BitVec.ofNat 64 num)) (pusha behind ++ save_ra ++ [.mov_rsp_rdi]) := by
  rw [Stub.entry, List.append_assoc, List.append_assoc, execAll_append, List.append_assoc]
  rfl

theorem pushed_length (x : Interrupt) (rsp : Word) (error : Option Word) :
    (x.pushed rsp error).length ≤ 6 := by
  cases error with
  | none => exact (by decide : 5 ≤ 6)
  | some e => exact le_refl 6

theorem entered_at (special : Special → Word) (m : Regs) (x : Interrupt) (error : Option Word) (behind : Word)
    (stub : Stub) (hstub : stub.IsException) :
    At (entered special m x error behind stub) (down x.top ((stub.view x error).1 + 29))
      ((stub.view x error).2.2 :: (savedWords special behind m (down x.top (stub.view x error).1) ++
        [BitVec.ofNat 64 stub.num, (stub.view x error).2.1])) ∧
    (entered special m x error behind stub).regs .rdi = down x.top ((stub.view x error).1 + 29) := by
  obtain ⟨h0, s0⟩ := interrupt_at m x error
  have hlen := pushed_length x (m.regs .rsp) error
  unfold entered
  generalize interrupt m x error = m0 at *
  cases stub with
  | IRQ num irq => exact hstub.elim
  | ISR_NOERR num =>
    obtain ⟨h1, s1⟩ := push_at m0 _ 0 _ h0 (by omega)
    obtain ⟨h2, s2⟩ := push_at _ _ (BitVec.ofNat 64 num) _ h1 (by rw [List.length_cons]; omega)
    rw [down_down, down_down] at h2
    rw [entry_noerr]
    generalize push .rsp (push .rsp m0 0) (BitVec.ofNat 64 num) = m2 at *
    have hsame := s0.trans (s1.trans s2)
    cases error with
    | none => exact saved_at special behind m m2 x 7 _ 0 x.rip _ hsame h2 (by simp)
    | some e => exact saved_at special behind m m2 x 8 _ 0 e _ hsame h2 (by simp)
  | ISR_ERR num =>
    obtain ⟨h1, s1⟩ := push_at m0 _ (BitVec.ofNat 64 num) _ h0 (by omega)
    rw [down_down] at h1
    rw [entry_err]
    generalize push .rsp m0 (BitVec.ofNat 64 num) = m1 at *
    have hsame := s0.trans s1
    cases error with
    | none => exact saved_at special behind m m1 x 6 _ x.rip x.cs _ hsame h1 (by simp)
    | some e => exact saved_at special behind m m1 x 7 _ e x.rip _ hsame h1 (by simp)

theorem Returns.at {handler : Regs → Regs} {m : Regs} {n : Nat} {sp : Word} {xs : List Word}
    (h : Returns handler m n) (hat : At m sp xs) (hrdi : m.regs .rdi = sp) (hlen : xs.length ≤ n) :
    At (handler m) sp xs := by
  refine ⟨h.rsp.trans hat.rsp, hat.holds.congr ?_⟩
  intro i hi
  rw [← hrdi]
  exact h.frame i (by omega)

/-- The state at `iretq`: the registers are back but for `r15`, which holds what the stub
takes for the error code, and `rsp` is on what it takes for the return address. -/
theorem left_spec (special : Special → Word) (handler : Regs → Regs) (m : Regs) (x : Interrupt)
    (error : Option Word) (behind : Word) (stub : Stub) (hstub : stub.IsException)
    (hret : Returns handler (entered special m x error behind stub) IsrFrame.size) :
    (left special handler m x error behind stub).regs .rsp = up (down x.top (stub.view x error).1) 2 ∧
    (left special handler m x error behind stub).regs .r15 = (stub.view x error).2.1 ∧
    ∀ r, r ≠ .rsp → r ≠ .r15 → (left special handler m x error behind stub).regs r = m.regs r := by
  obtain ⟨hat, hrdi⟩ := entered_at special m x error behind stub hstub
  have hcommon : stub.common = isr_common := by
    cases stub with
    | IRQ num irq => exact hstub.elim
    | ISR_NOERR num => rfl
    | ISR_ERR num => rfl
  have hback := hret.at hat hrdi (le_refl 31)
  rw [← down_down] at hback
  obtain ⟨hend, hr15, hregs⟩ := popa_at special handler behind _ m
    (down x.top (stub.view x error).1) _ _ _ hback
  unfold left
  rw [hcommon, isr_common, execAll_call]
  exact ⟨hend.rsp, hr15, hregs⟩

/-! ## Exceptions -/

theorem view_ripSlot_iff (x : Interrupt) (error : Option Word) (stub : Stub) (hstub : stub.IsException) :
    up (down x.top (stub.view x error).1) 2 = x.ripSlot ↔ stub.Matches error := by
  have hview : ∀ n, n < 100 → (up (down x.top (n + 2)) 2 = x.ripSlot ↔ n = 5) := by
    intro n hn
    rw [up_down, Interrupt.ripSlot]
    exact ⟨down_inj x.top n 5 (by omega) (by omega), fun h => by rw [h]⟩
  cases stub with
  | IRQ num irq => exact hstub.elim
  | ISR_NOERR num =>
    cases error with
    | none => exact iff_of_true ((hview 5 (by omega)).mpr rfl) rfl
    | some e => exact iff_of_false (fun h => absurd ((hview 6 (by omega)).mp h) (by omega)) (by simp [Stub.Matches])
  | ISR_ERR num =>
    cases error with
    | none => exact iff_of_false (fun h => absurd ((hview 4 (by omega)).mp h) (by omega)) (by simp [Stub.Matches])
    | some e => exact iff_of_true ((hview 5 (by omega)).mpr rfl) (by simp [Stub.Matches])

theorem view_code (x : Interrupt) (error : Option Word) (stub : Stub) (hstub : stub.IsException)
    (h : stub.Matches error) : (stub.view x error).2.1 = error.getD 0 := by
  cases stub with
  | IRQ num irq => exact hstub.elim
  | ISR_NOERR num => rw [show error = none from h]; rfl
  | ISR_ERR num =>
    cases error with
    | none => exact absurd rfl h
    | some e => rfl

/-- An exception stub is transparent exactly when `r15` happened to hold the error code, and
the processor pushed one just where the stub expects it. -/
theorem transparent_iff (special : Special → Word) (handler : Regs → Regs) (m : Regs) (x : Interrupt)
    (error : Option Word) (behind : Word) (stub : Stub) (hstub : stub.IsException)
    (hret : Returns handler (entered special m x error behind stub) IsrFrame.size) :
    Transparent m x (left special handler m x error behind stub) ↔
      stub.Matches error ∧ m.regs .r15 = error.getD 0 := by
  obtain ⟨hrsp, hr15, hregs⟩ := left_spec special handler m x error behind stub hstub hret
  unfold Transparent
  rw [hrsp, view_ripSlot_iff x error stub hstub]
  constructor
  · rintro ⟨hsame, hmatches⟩
    refine ⟨hmatches, ?_⟩
    rw [← view_code x error stub hstub hmatches, ← hr15]
    exact (hsame .r15 (by decide)).symm
  · rintro ⟨hmatches, hcode⟩
    refine ⟨?_, hmatches⟩
    intro r hr
    by_cases h15 : r = .r15
    · rw [h15, hr15, view_code x error stub hstub hmatches, hcode]
    · exact hregs r hr h15

/-- A handler that uses `rax` and writes nothing. -/
def quiet (m : Regs) : Regs := setReg m .rax 7

theorem quiet_returns (m : Regs) (n : Nat) : Returns quiet m n :=
  ⟨by simp [quiet, setReg], fun _ _ => rfl⟩

/-- Kernel code that is interrupted with the same value in all registers. -/
def running (v : Word) : Regs := ⟨fun _ => v, fun _ => 0⟩

def spurious : Interrupt :=
  { rip := 0xffffffff80002000, cs := 0x08, rflags := 0x202, ss := 0x10, stack := 0xffff800000104000 }

theorem transparent_iff_zero :
    Transparent (running 0) spurious
      (left (fun _ => 0) quiet (running 0) spurious none 0xffffffff80001ff7 (.ISR_NOERR 0xFF)) :=
  (transparent_iff (fun _ => 0) quiet (running 0) spurious none 0xffffffff80001ff7 (.ISR_NOERR 0xFF) trivial
    (quiet_returns _ _)).mpr ⟨rfl, rfl⟩

/-- A spurious interrupt clears `r15`. -/
theorem spurious_clears_r15 :
    (left (fun _ => 0) quiet (running 1) spurious none 0xffffffff80001ff7 (.ISR_NOERR 0xFF)).regs .r15 = 0 ∧
    ¬ Transparent (running 1) spurious
      (left (fun _ => 0) quiet (running 1) spurious none 0xffffffff80001ff7 (.ISR_NOERR 0xFF)) := by
  obtain ⟨-, hr15, -⟩ := left_spec (fun _ => 0) quiet (running 1) spurious none 0xffffffff80001ff7
    (.ISR_NOERR 0xFF) trivial (quiet_returns _ _)
  refine ⟨hr15, ?_⟩
  rintro ⟨hsame, -⟩
  have := (hsame .r15 (by decide)).symm.trans hr15
  exact absurd this (by decide)

/-! ## Interrupts -/

/-- The frame that says what was interrupted. -/
def irqFrameOf (m : Regs) (x : Interrupt) (irq : Nat) : IrqFrame where
  r15 := m.regs .r15
  r14 := m.regs .r14
  r13 := m.regs .r13
  r12 := m.regs .r12
  r11 := m.regs .r11
  r10 := m.regs .r10
  r9 := m.regs .r9
  r8 := m.regs .r8
  rbp := m.regs .rbp
  rsi := m.regs .rsi
  rdi := m.regs .rdi
  rdx := m.regs .rdx
  rcx := m.regs .rcx
  rbx := m.regs .rbx
  rax := m.regs .rax
  error := BitVec.ofNat 64 irq
  rip := x.rip
  cs := x.cs
  rflags := x.rflags
  rsp := m.regs .rsp
  ss := x.ss

/-- The words of the frame, as `pushairq` pushes them. -/
def irqWords (m : Regs) (x : Interrupt) (irq : Nat) : List Word :=
  popairq_regs.map m.regs ++ BitVec.ofNat 64 irq :: [x.rip, x.cs, x.rflags, m.regs .rsp, x.ss]

theorem entry_irq (special : Special → Word) (behind : Word) (m : Regs) (num irq : Nat) :
    execAll special id m ((Stub.IRQ num irq).entry behind) =
      exec special id (pushRegs .rsp (push .rsp m (BitVec.ofNat 64 irq)) pushairq_regs) .mov_rsp_rdi := by
  rw [Stub.entry, pushairq, execAll_append, execAll_append, execAll_append, execAll_pushq]
  rfl

theorem irq_entered_at (special : Special → Word) (m : Regs) (x : Interrupt) (behind : Word) (num irq : Nat) :
    At (entered special m x none behind (.IRQ num irq)) (down x.top 21) (irqWords m x irq) ∧
    (entered special m x none behind (.IRQ num irq)).regs .rdi = down x.top 21 := by
  obtain ⟨h0, s0⟩ := interrupt_at m x none
  unfold entered
  rw [entry_irq]
  generalize interrupt m x none = m0 at *
  obtain ⟨h1, s1⟩ := push_at m0 _ (BitVec.ofNat 64 irq) _ h0 (by simp [Interrupt.pushed])
  generalize push .rsp m0 (BitVec.ofNat 64 irq) = m1 at *
  obtain ⟨h2, s2⟩ := pushRegs_at m1 _ pushairq_regs _ h1 (by decide) (by simp [Interrupt.pushed, pushairq_regs])
  generalize pushRegs .rsp m1 pushairq_regs = m2 at *
  rw [down_down, down_down] at h2
  have hregs : ∀ r, r ≠ .rsp → m1.regs r = m.regs r :=
    fun r hr => (s1 r hr (by simp)).trans (s0 r hr (by simp))
  have hwords : (pushairq_regs.map m1.regs).reverse ++
      BitVec.ofNat 64 irq :: x.pushed (m.regs .rsp) none = irqWords m x irq := by
    simp [pushairq_regs, popairq_regs, irqWords, Interrupt.pushed, hregs]
  rw [hwords] at h2
  exact ⟨⟨h2.rsp, h2.holds⟩, h2.rsp⟩

theorem irqFrame_eq (m : Regs) (x : Interrupt) (irq : Nat) (m1 : Regs) (p : Word)
    (h : At m1 p (irqWords m x irq)) : irqFrame m1.mem p = irqFrameOf m x irq := by
  have hword := h.holds
  unfold irqFrame irqFrameOf
  congr 1 <;> exact hword _ _ rfl

theorem popairq_at (special : Special → Word) (handler : Regs → Regs) (m m0 : Regs) (x : Interrupt) (irq : Nat)
    (h : At m (down x.top 21) (irqWords m0 x irq)) : Transparent m0 x (execAll special handler m popairq) := by
  unfold popairq
  rw [execAll_append, execAll_popq]
  obtain ⟨h1, r1⟩ := popRegs_at m (down x.top 21) popairq_regs (popairq_regs.map m0.regs) _ h (by decide) rfl
  generalize popRegs .rsp m popairq_regs = m1 at *
  have hsp : execAll special handler m1 [.add_rsp 1] = setReg m1 .rsp (up (m1.regs .rsp) 1) := rfl
  rw [hsp, h1.rsp, show up (down x.top 21) popairq_regs.length = down x.top 6 from up_down x.top 6 15,
    show up (down x.top 6) 1 = x.ripSlot from up_down x.top 5 1]
  refine ⟨?_, by simp [setReg]⟩
  intro r hr
  refine (Function.update_of_ne hr _ _).trans ((r1 r hr).trans ?_)
  cases r with
  | rsp => exact absurd rfl hr
  | rax | rbx | rcx | rdx | rsi | rdi | rbp => rfl
  | r8 | r9 | r10 | r11 | r12 | r13 | r14 | r15 => rfl

/-- The handler of an interrupt sees what was interrupted, and the interrupted code does
not notice. -/
theorem irq_transparent (special : Special → Word) (handler : Regs → Regs) (m : Regs) (x : Interrupt)
    (behind : Word) (num irq : Nat)
    (hret : Returns handler (entered special m x none behind (.IRQ num irq)) IrqFrame.size) :
    irqFrame (entered special m x none behind (.IRQ num irq)).mem
      ((entered special m x none behind (.IRQ num irq)).regs .rdi) = irqFrameOf m x irq ∧
    Transparent m x (left special handler m x none behind (.IRQ num irq)) := by
  obtain ⟨hat, hrdi⟩ := irq_entered_at special m x behind num irq
  unfold left
  generalize entered special m x none behind (.IRQ num irq) = m1 at *
  constructor
  · rw [hrdi]
    exact irqFrame_eq m x irq m1 (down x.top 21) hat
  · rw [show (Stub.IRQ num irq).common = .call :: popairq from rfl, execAll_call]
    exact popairq_at special handler (handler m1) m x irq (hret.at hat hrdi (le_refl 21))

theorem irq_transparent_timer :
    Transparent (running 5) spurious
      (left (fun _ => 0) quiet (running 5) spurious none 0xffffffff80001ff7 (.IRQ 32 0)) :=
  (irq_transparent (fun _ => 0) quiet (running 5) spurious 0xffffffff80001ff7 32 0 (quiet_returns _ _)).2

end SlayerOS.Interrupts
