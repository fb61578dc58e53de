import Xv6.Spec.Trap

/-! What is in a trapframe: the trampoline and the C code agree on where the registers
are, and a trap that does nothing to the trapframe gives the registers back. -/

namespace Xv6.Trap

open Writes Function

/-! ### The layout -/

theorem mem_uservec (r : Reg) : (r, r.offset) ∈ uservec := by
  cases r <;> decide

theorem mem_userret (r : Reg) : (r, r.offset) ∈ userret := by
  cases r <;> decide

theorem uservec_nodup : (uservec.map Prod.snd).Nodup := by decide

theorem userret_nodup : (userret.map Prod.fst).Nodup := by decide

theorem Reg.offset_injective : Function.Injective Reg.offset := fun r q h =>
  congrArg Prod.fst (List.inj_on_of_nodup_map uservec_nodup (mem_uservec r) (mem_uservec q) h)

theorem Reg.offset_bounds (r : Reg) : 40 ≤ r.offset ∧ r.offset < frameSize := by
  cases r <;> decide

theorem Word.offset_lt (w : Word) : w.offset < frameSize := by
  cases w with
  | reg r => exact r.offset_bounds.2
  | _ => decide

theorem Word.offset_injective : Function.Injective Word.offset := by
  intro v w h
  cases v with
  | reg r =>
    cases w with
    | reg q => exact congrArg Word.reg (Reg.offset_injective h)
    | _ =>
      have := r.offset_bounds.1
      simp only [Word.offset] at h
      omega
  | _ =>
    cases w with
    | reg q =>
      have := q.offset_bounds.1
      simp only [Word.offset] at h
      omega
    | _ => first | rfl | cases h

/-- The words that are not user registers. -/
def Word.Kernel (w : Word) : Prop := w ≠ .epc ∧ ∀ r, w ≠ .reg r

namespace Frame

variable {f g : Frame} {w : Word} {v : UInt64}

@[simp] theorem get_set_self (f : Frame) (w : Word) (v : UInt64) : (f.set w v).get w = v :=
  update_self _ _ _

theorem get_set_ne {w' : Word} (h : w' ≠ w) : (f.set w v).get w' = f.get w' :=
  update_of_ne (fun he => h (Word.offset_injective he)) _ _

@[simp] theorem get_assign (dst src : Frame) (w : Word) : (dst.assign src).get w = src.get w :=
  if_pos w.offset_lt

@[simp] theorem user_assign (dst src : Frame) : (dst.assign src).user = src.user := by
  simp [user]

theorem user_set_kernel (hw : w.Kernel) : (f.set w v).user = f.user := by
  refine User.ext (get_set_ne hw.1.symm) ?_
  funext r
  exact get_set_ne (hw.2 r).symm

theorem user_set_epc : (f.set .epc v).user = ⟨v, f.user.reg⟩ := by
  refine User.ext (get_set_self f .epc v) ?_
  funext r
  exact get_set_ne (by simp)

theorem user_set_reg (r : Reg) : (f.set (.reg r) v).user = ⟨f.user.pc, update f.user.reg r v⟩ := by
  refine User.ext (get_set_ne (by simp)) ?_
  funext q
  change (f.set (.reg r) v).get (.reg q) = update f.user.reg r v q
  by_cases hq : q = r
  · subst hq
    rw [update_self]
    exact get_set_self f _ v
  · rw [update_of_ne hq]
    exact get_set_ne (by simpa using hq)

end Frame

theorem kernelSatp_kernel : Word.kernelSatp.Kernel := ⟨by simp, by simp⟩

theorem kernelSp_kernel : Word.kernelSp.Kernel := ⟨by simp, by simp⟩

theorem kernelTrap_kernel : Word.kernelTrap.Kernel := ⟨by simp, by simp⟩

theorem kernelHartid_kernel : Word.kernelHartid.Kernel := ⟨by simp, by simp⟩

/-! ### The trampoline -/

theorem store_reg (reg : Reg → UInt64) (f : Frame) (r : Reg) : (store reg f).get (.reg r) = reg r := by
  have hkeys : (uservec.map fun e => (e.2, reg e.1)).map Prod.fst = uservec.map Prod.snd := by
    rw [List.map_map]
    rfl
  exact applyWrites_of_mem f _ (r.offset, reg r) (hkeys ▸ uservec_nodup)
    (List.mem_map.mpr ⟨_, mem_uservec r, rfl⟩)

theorem load_eq (f : Frame) (reg : Reg → UInt64) : load f reg = f.user.reg := by
  have hkeys : (userret.map fun e => (e.1, f e.2)).map Prod.fst = userret.map Prod.fst := by
    rw [List.map_map]
    rfl
  funext r
  exact applyWrites_of_mem reg _ (r, f r.offset) (hkeys ▸ userret_nodup)
    (List.mem_map.mpr ⟨_, mem_userret r, rfl⟩)

/-! ### Traps -/

variable {usertrapAddr : UInt64} {s : State} {p q : Proc} {h : Hart}

theorem enter_user (s : State) : s.enter.trapframe.user = s.user := by
  have hstore : (store s.user.reg s.proc.trapframe).user.reg = s.user.reg := funext (store_reg _ _)
  rw [State.enter, Frame.user_set_epc, hstore]

theorem usertrapret_user (p : Proc) (h : Hart) : (usertrapret usertrapAddr p h).2 = p.trapframe.user := by
  have huser : (usertrapret usertrapAddr p h).1.trapframe.user = p.trapframe.user := by
    simp only [usertrapret, Proc.setFrame, Frame.user_set_kernel kernelSatp_kernel, Frame.user_set_kernel kernelSp_kernel,
      Frame.user_set_kernel kernelTrap_kernel, Frame.user_set_kernel kernelHartid_kernel]
  rw [← huser]
  exact User.ext rfl (load_eq _ _)

/-- The words that the next trap will need are those of the hart. -/
theorem usertrapret_words (usertrapAddr : UInt64) (p : Proc) (h : Hart) :
    let f := (usertrapret usertrapAddr p h).1.trapframe
    f.get .kernelSatp = h.satp ∧ f.get .kernelSp = p.kstack + 4096 ∧ f.get .kernelTrap = usertrapAddr ∧
      f.get .kernelHartid = h.hartid := by
  simp [usertrapret, Proc.setFrame, Frame.get_set_ne]

/-! ### System calls -/

/-- What a trap can leave as it is: the saved frame and the alarm, apart from the count. -/
structure Rests (p q : Proc) : Prop where
  copy : q.trapframeCopy = p.trapframeCopy
  isSigalarm : q.isSigalarm = p.isSigalarm
  tickss : q.tickss = p.tickss
  kstack : q.kstack = p.kstack

theorem Rests.refl (p : Proc) : Rests p p := ⟨rfl, rfl, rfl, rfl⟩

theorem Rests.trans {r : Proc} (h : Rests p q) (h' : Rests q r) : Rests p r :=
  ⟨h'.copy.trans h.copy, h'.isSigalarm.trans h.isSigalarm, h'.tickss.trans h.tickss, h'.kstack.trans h.kstack⟩

theorem rests_setFrame (p : Proc) (w : Word) (v : UInt64) : Rests p (p.setFrame w v) := ⟨rfl, rfl, rfl, rfl⟩

theorem rests_sysTrace (p : Proc) : Rests p p.sysTrace := by
  unfold Proc.sysTrace
  exact ⟨rfl, rfl, rfl, rfl⟩

theorem rests_sysExec (p : Proc) (image : Option (UInt64 × UInt64)) : Rests p (p.sysExec image) := by
  cases image <;> exact ⟨rfl, rfl, rfl, rfl⟩

theorem rests_usertrapret (p : Proc) (h : Hart) : Rests p (usertrapret usertrapAddr p h).1 := ⟨rfl, rfl, rfl, rfl⟩

theorem rests_leave (s : State) (p : Proc) (h : Hart) (t : List Trace) (m : List Mark) :
    Rests p (s.leave usertrapAddr p h t m).proc := rests_usertrapret p h

theorem rests_enter (s : State) : Rests s.proc s.enter := ⟨rfl, rfl, rfl, rfl⟩

variable {i : Input} {t : List Trace}

/-- A system call runs its function and stores the result in `a0`. -/
theorem syscall_cases (hs : p.syscall i = some (q, t)) :
    (∃ r ret, p.call i (intOf (p.trapframe.get (.reg .a7))) = some (r, ret) ∧ q = r.setFrame (.reg .a0) ret) ∨
      (∀ num, 0 < num → num < nsyscalls → intOf (p.trapframe.get (.reg .a7)) ≠ num) ∧ Rests p q := by
  unfold Proc.syscall at hs
  obtain ⟨length, -, hs⟩ := Option.bind_eq_some_iff.mp hs
  obtain ⟨args, -, hs⟩ := Option.bind_eq_some_iff.mp hs
  split at hs
  · obtain ⟨⟨r, ret⟩, hcall, hs⟩ := Option.bind_eq_some_iff.mp hs
    refine .inl ⟨r, ret, hcall, ?_⟩
    dsimp only at hs
    split at hs
    · split at hs <;> cases hs
      rfl
    · cases hs
      rfl
  · rename_i hnum
    cases hs
    refine .inr ⟨fun num h0 h1 heq => hnum (heq ▸ ⟨h0, h1⟩), rests_setFrame _ _ _⟩

theorem call_sigreturn : p.call i SYS_sigreturn = some (p.sysSigreturn, 0) := by
  simp [Proc.call, SYS_exit, SYS_exec, SYS_trace, SYS_sigalarm, SYS_sigreturn]

/-- `sigreturn` returns, unless it is traced and its missing name cannot be printed. -/
theorem syscall_sigreturn (hnum : intOf (p.trapframe.get (.reg .a7)) = SYS_sigreturn)
    (hname : p.traced SYS_sigreturn → i.named = true) :
    ∃ t, p.syscall i = some (p.sysSigreturn.setFrame (.reg .a0) 0, t) := by
  have hargs : Proc.nargs i SYS_sigreturn = some 0 := by
    simp [Proc.nargs, SYS_sigreturn, syscallnum]
  have hnone : (List.range (0 : ℤ).toNat).mapM (argraw p.trapframe) = some [] := rfl
  have hrange : 0 < SYS_sigreturn ∧ SYS_sigreturn < nsyscalls := by decide
  have hmask : (p.sysSigreturn.setFrame (.reg .a0) 0).traced SYS_sigreturn ↔ p.traced SYS_sigreturn := Iff.rfl
  unfold Proc.syscall
  simp only [hnum, hargs, Option.bind_some, hnone, if_pos hrange, call_sigreturn, hmask]
  by_cases htraced : p.traced SYS_sigreturn
  · rw [if_pos htraced, if_pos (.inr (hname htraced))]
    exact ⟨_, rfl⟩
  · rw [if_neg htraced]
    exact ⟨_, rfl⟩

/-- Only `sigalarm` and `sigreturn` touch the alarm. -/
theorem call_rests {num : ℤ} {ret : UInt64} (hc : p.call i num = some (q, ret)) (halarm : num ≠ SYS_sigalarm)
    (hreturn : num ≠ SYS_sigreturn) : Rests p q := by
  unfold Proc.call at hc
  rw [if_neg halarm, if_neg hreturn] at hc
  split at hc
  · cases hc
  · split at hc
    · cases hc
      exact rests_sysExec _ _
    · split at hc
      · obtain ⟨rfl, -⟩ := Prod.mk.inj (Option.some.inj hc)
        exact rests_sysTrace p
      · cases hc
        exact .refl p

theorem call_sigalarm : p.call i SYS_sigalarm = some (p.sysSigalarm, 0) := by
  simp [Proc.call, SYS_exit, SYS_exec, SYS_trace, SYS_sigalarm]

theorem restore_copy_user (p : Proc) : p.restore.trapframeCopy.user = p.trapframeCopy.user := by
  simp only [Proc.restore, Frame.user_set_kernel kernelSatp_kernel, Frame.user_set_kernel kernelSp_kernel,
    Frame.user_set_kernel kernelTrap_kernel, Frame.user_set_kernel kernelHartid_kernel]

/-- The user registers come from the copy. -/
theorem restore_user (p : Proc) : p.restore.trapframe.user = p.trapframeCopy.user := by
  rw [← restore_copy_user]
  exact Frame.user_assign _ _

/-- The words that are not user registers are those of this trap. -/
theorem restore_kernel (p : Proc) {w : Word} (hw : w.Kernel) : p.restore.trapframe.get w = p.trapframe.get w := by
  simp only [Proc.restore, Frame.get_assign]
  cases w with
  | reg r => exact absurd rfl (hw.2 r)
  | epc => exact absurd rfl hw.1
  | _ => simp [Frame.get_set_ne]

/-- The process, as `syscall` finds it. -/
def State.calls (s : State) : Proc := s.enter.setFrame .epc (s.enter.trapframe.get .epc + 4)

theorem calls_reg (s : State) (r : Reg) : s.calls.trapframe.get (.reg r) = s.user.reg r := by
  have huser := congrArg (fun u => u.reg r) (enter_user s)
  exact (Frame.get_set_ne (by simp)).trans huser

theorem rests_calls (s : State) : Rests s.proc s.calls := ⟨rfl, rfl, rfl, rfl⟩

/-! ### What a step does to the alarm -/

def Event.IsCall : Event → Prop
  | .syscall _ _ => True
  | _ => False

/-- The process goes on as `q`, and `marks` is what is to be recorded; `C` says whether there
is a system call. -/
inductive Acts (C : Prop) (s : State) (q : Proc) (marks : List Mark) : Prop
  | rests (h : Rests s.proc q) (hmarks : marks = [])
  | delivers (hdue : s.proc.Due) (hcopy : q.trapframeCopy.user = s.user) (hsig : q.isSigalarm = true)
      (htickss : q.tickss = s.proc.tickss) (hmarks : marks = [.saved s.user])
  | sets (hcall : C) (hnum : s.num = SYS_sigalarm) (hcopy : q.trapframeCopy = s.proc.trapframeCopy) (hsig : q.isSigalarm = false)
      (htickss : q.tickss = intOf (s.user.reg .a0)) (hmarks : marks = [])
  | returns (hcall : C) (hnum : s.num = SYS_sigreturn) (hcopy : q.trapframeCopy.user = s.proc.trapframeCopy.user)
      (hsig : q.isSigalarm = false) (htickss : q.tickss = s.proc.tickss)
      (hmarks : marks = [.restored s.proc.trapframeCopy.user])

theorem Acts.trans {C : Prop} {r : Proc} {m : List Mark} (ha : Acts C s q m) (hr : Rests q r) : Acts C s r m := by
  cases ha with
  | rests h hmarks => exact .rests (h.trans hr) hmarks
  | delivers hdue hcopy hsig htickss hmarks =>
    exact .delivers hdue (hr.copy ▸ hcopy) (hr.isSigalarm.trans hsig) (hr.tickss.trans htickss) hmarks
  | sets hcall hnum hcopy hsig htickss hmarks =>
    exact .sets hcall hnum (hr.copy.trans hcopy) (hr.isSigalarm.trans hsig) (hr.tickss.trans htickss) hmarks
  | returns hcall hnum hcopy hsig htickss hmarks =>
    exact .returns hcall hnum (hr.copy ▸ hcopy) (hr.isSigalarm.trans hsig) (hr.tickss.trans htickss) hmarks

theorem enter_due (s : State) : s.enter.Due ↔ s.proc.Due := by
  unfold Proc.Due State.enter
  exact Iff.rfl

theorem alarm_acts (C : Prop) (s : State) : Acts C s s.enter.alarm (if s.enter.Due then [.saved s.user] else []) := by
  unfold Proc.alarm
  split
  · rename_i hdue
    exact .delivers ((enter_due s).mp hdue) ((Frame.user_assign _ _).trans (enter_user s)) rfl rfl rfl
  · exact .rests ⟨rfl, rfl, rfl, rfl⟩ rfl

theorem sysSigalarm_acts (hnum : s.num = SYS_sigalarm) : Acts True s s.calls.sysSigalarm [] := by
  have hreg := calls_reg s .a0
  unfold Proc.sysSigalarm
  exact .sets trivial hnum rfl rfl (congrArg intOf hreg) rfl

theorem sysSigreturn_acts (hnum : s.num = SYS_sigreturn) :
    Acts True s s.calls.sysSigreturn [.restored s.proc.trapframeCopy.user] := by
  have hcopy := restore_copy_user s.calls
  unfold Proc.sysSigreturn
  exact .returns trivial hnum hcopy rfl rfl rfl

variable {s' : State} {b : Build}

theorem call_acts {r : Proc} {ret : UInt64} (hcall : s.calls.call i s.num = some (r, ret)) :
    Acts True s r (if s.num = SYS_sigreturn then [.restored s.proc.trapframeCopy.user] else []) := by
  by_cases hreturn : s.num = SYS_sigreturn
  · rw [hreturn, call_sigreturn] at hcall
    obtain ⟨rfl, -⟩ := Prod.mk.inj (Option.some.inj hcall)
    rw [if_pos hreturn]
    exact sysSigreturn_acts hreturn
  · rw [if_neg hreturn]
    by_cases halarm : s.num = SYS_sigalarm
    · rw [halarm, call_sigalarm] at hcall
      obtain ⟨rfl, -⟩ := Prod.mk.inj (Option.some.inj hcall)
      exact sysSigalarm_acts halarm
    · exact .rests ((rests_calls s).trans (call_rests hcall halarm hreturn)) rfl

theorem syscall_acts (hq : s.calls.syscall i = some (q, t)) :
    Acts True s q (if s.num = SYS_sigreturn then [.restored s.proc.trapframeCopy.user] else []) := by
  have ha7 : intOf (s.calls.trapframe.get (.reg .a7)) = s.num := congrArg intOf (calls_reg s .a7)
  obtain ⟨r, ret, hcall, rfl⟩ | ⟨hnum, hrests⟩ := syscall_cases hq
  · rw [ha7] at hcall
    exact (call_acts hcall).trans (rests_setFrame _ _ _)
  · rw [ha7] at hnum
    rw [if_neg (hnum _ (by decide) (by decide))]
    exact .rests ((rests_calls s).trans hrests) rfl

theorem step_acts {e : Event} (hs : s.step usertrapAddr b e = some s') :
    ∃ m, s'.marks = s.marks ++ m ∧ Acts e.IsCall s s'.proc m := by
  cases e with
  | user u =>
    cases hs
    exact ⟨[], (List.append_nil _).symm, .rests (.refl _) rfl⟩
  | timer h =>
    cases hs
    unfold State.timer
    split
    · exact ⟨_, rfl, (alarm_acts _ s).trans (rests_leave s _ h _ _)⟩
    · exact ⟨_, rfl, .rests ((rests_enter s).trans (rests_leave s _ h _ _)) rfl⟩
  | device h =>
    cases hs
    exact ⟨_, rfl, .rests ((rests_enter s).trans (rests_leave s _ h _ _)) rfl⟩
  | syscall i h =>
    rw [State.step, State.syscall] at hs
    obtain ⟨⟨q, t⟩, hq, rfl⟩ := Option.map_eq_some_iff.mp hs
    exact ⟨_, rfl, (syscall_acts hq).trans (rests_leave s _ h _ _)⟩

end Xv6.Trap
