import Xv6.Sanity.Trapframe

/-! What `sigreturn` gives back. While the handler runs, the copy of the trapframe stays as
it was saved; `restore` puts it back whole, and then `syscall` stores the return value
of `sys_sigreturn` over the saved `a0`. -/

namespace Xv6.Trap

section

variable (usertrapAddr : UInt64)

/-- Steps of a handler: no `sigalarm`, `exec` or `exit`, and up to the first `sigreturn`. -/
def State.handlerStep (b : Build) (s : State) (e : Event) : Option State :=
  match e with
  | .syscall _ _ =>
    if s.num ∈ [SYS_sigalarm, SYS_exec, SYS_exit, SYS_sigreturn] then none else s.step usertrapAddr b e
  | _ => s.step usertrapAddr b e

end

variable {usertrapAddr : UInt64} {b : Build} {s s' : State} {e : Event} {h : Hart} {i : Input}

theorem handlerStep_step (hs : s.handlerStep usertrapAddr b e = some s') :
    s.step usertrapAddr b e = some s' ∧ (e.IsCall → s.num ≠ SYS_sigalarm ∧ s.num ≠ SYS_sigreturn) := by
  cases e with
  | syscall i h =>
    rw [State.handlerStep] at hs
    split at hs
    · cases hs
    · rename_i hnum
      refine ⟨hs, fun _ => ?_⟩
      simp only [List.mem_cons, not_or] at hnum
      exact ⟨hnum.1, hnum.2.2.2.1⟩
  | _ => exact ⟨hs, False.elim⟩

/-- The registers `u` are saved and wait for `sigreturn`. -/
def Saved (u : User) (s : State) : Prop := s.proc.isSigalarm = true ∧ s.proc.trapframeCopy.user = u

theorem saved_timer (hb : hasAlarm b = true) (hdue : s.proc.Due) : Saved s.user (s.timer usertrapAddr b h) := by
  have hrests : Rests s.enter.alarm (s.timer usertrapAddr b h).proc := by
    unfold State.timer
    rw [if_pos hb]
    exact rests_leave s _ h _ _
  have hacts := alarm_acts False s
  rw [if_pos ((enter_due s).mpr hdue)] at hacts
  cases hacts with
  | rests _ hmarks => cases hmarks
  | delivers _ hcopy hsig => exact ⟨hrests.isSigalarm.trans hsig, hrests.copy ▸ hcopy⟩
  | sets hcall | returns hcall => exact hcall.elim

theorem Saved.step {u : User} (hi : Saved u s) (hs : s.handlerStep usertrapAddr b e = some s') : Saved u s' := by
  obtain ⟨hstep, hnum⟩ := handlerStep_step hs
  obtain ⟨m, -, hacts⟩ := step_acts hstep
  cases hacts with
  | rests h => exact ⟨h.isSigalarm.trans hi.1, h.copy ▸ hi.2⟩
  | delivers hdue => exact absurd (hi.1.symm.trans hdue.2.2) (by decide)
  | sets hcall hn => exact absurd hn (hnum hcall).1
  | returns hcall hn => exact absurd hn (hnum hcall).2

theorem Saved.run {u : User} (hi : Saved u s) (es : List Event)
    (hes : System.exec (State.handlerStep usertrapAddr b) s es = some s') : Saved u s' :=
  System.exec_invariant _ hi (fun _ _ _ hi hs => hi.step hs) es s' hes

/-- `sigreturn` gives back the saved registers, but `a0` is its return value. -/
theorem sigreturn_user {u : User} (hi : Saved u s) (hnum : s.num = SYS_sigreturn)
    (hname : s.proc.traced SYS_sigreturn → i.named = true) : ∃ s', s.step usertrapAddr b (.syscall i h) = some s' ∧
      s'.user = ⟨u.pc, Function.update u.reg .a0 0⟩ ∧
      s'.proc = (usertrapret usertrapAddr (s.calls.sysSigreturn.setFrame (.reg .a0) 0) h).1 := by
  have ha7 : intOf (s.calls.trapframe.get (.reg .a7)) = SYS_sigreturn := (congrArg intOf (calls_reg s .a7)).trans hnum
  obtain ⟨t, ht⟩ := syscall_sigreturn ha7 hname
  rw [State.step, State.syscall]
  refine ⟨_, congrArg (Option.map _) ht, ?_, rfl⟩
  refine (usertrapret_user _ _).trans ?_
  have hrestore : s.calls.sysSigreturn.trapframe.user = u := (restore_user s.calls).trans hi.2
  rw [Proc.setFrame, Frame.user_set_reg, hrestore]

/-- After a handler that ends in `sigreturn` the process goes on with the registers it had at
the timer interrupt exactly if `a0` was 0. The words for the kernel are those of the trap
that `sigreturn` was called in, and then those of the hart that returns to user mode. -/
theorem alarm_return_iff (usertrapAddr : UInt64) (b : Build) (s s' : State) (es : List Event) (h h' : Hart) (i : Input)
    (hb : hasAlarm b = true) (hdue : s.proc.Due)
    (hes : System.exec (State.handlerStep usertrapAddr b) (s.timer usertrapAddr b h) es = some s')
    (hnum : s'.num = SYS_sigreturn) (hname : s'.proc.traced SYS_sigreturn → i.named = true) :
    ∃ t, s'.step usertrapAddr b (.syscall i h') = some t ∧ (t.user = s.user ↔ s.user.reg .a0 = 0) ∧
      (∀ w : Word, w.Kernel → s'.calls.sysSigreturn.trapframe.get w = s'.calls.trapframe.get w) ∧
      t.proc.trapframe.get .kernelSatp = h'.satp ∧ t.proc.trapframe.get .kernelSp = t.proc.kstack + 4096 ∧
      t.proc.trapframe.get .kernelTrap = usertrapAddr ∧ t.proc.trapframe.get .kernelHartid = h'.hartid := by
  have hsaved := (saved_timer (h := h) hb hdue).run es hes
  obtain ⟨t, ht, huser, hproc⟩ := sigreturn_user (b := b) (h := h') hsaved hnum hname
  have hwords := usertrapret_words usertrapAddr (s'.calls.sysSigreturn.setFrame (.reg .a0) 0) h'
  refine ⟨t, ht, ?_, fun w hw => restore_kernel s'.calls hw, ?_⟩
  · rw [huser, User.ext_iff, Function.update_eq_self_iff]
    exact ⟨fun h => h.2.symm, fun h => ⟨rfl, h.symm⟩⟩
  · rwa [hproc]

/-- A program with `a0` as given, one tick before its alarm. -/
def beforeAlarm (a0 : UInt64) : State where
  user := ⟨0x40, fun r => if r = .a0 then a0 else 0⟩
  proc := { pid := 3, kstack := 0x1000, mask := 0, trapframe := fun _ => 0, handler := 0x200, tickss := 1, nowTicks := 0,
            trapframeCopy := fun _ => 0, isSigalarm := false }
  console := []
  marks := []

/-- A handler that does nothing but call `sigreturn`. -/
def dummyHandler : User := ⟨0x204, fun r => if r = .a7 then 27 else 0⟩

def hart0 : Hart := ⟨0, 0, fun _ => 0⟩

def noInput : Input := ⟨0, none, none, false⟩

theorem alarm_return_iff_beforeAlarm :
    ∃ t, ({ (beforeAlarm 0).timer 0 .rr hart0 with user := dummyHandler } : State).step 0 .rr (.syscall noInput hart0) =
      some t ∧ t.user = (beforeAlarm 0).user := by
  obtain ⟨t, ht, huser, -⟩ := alarm_return_iff 0 .rr (beforeAlarm 0) _ [.user dummyHandler] hart0 hart0 noInput rfl
    (by decide) rfl (by decide) fun htraced => absurd htraced (by decide)
  exact ⟨t, ht, huser.mpr rfl⟩

/-- With 0xac in `a0` it comes back with 0. -/
theorem alarm_return_loses_a0 : (beforeAlarm 0xac).proc.Due ∧
    ∃ s t, System.exec (State.handlerStep 0 .rr) ((beforeAlarm 0xac).timer 0 .rr hart0) [.user dummyHandler] = some s ∧
      s.num = SYS_sigreturn ∧ s.step 0 .rr (.syscall noInput hart0) = some t ∧
      (beforeAlarm 0xac).user.reg .a0 = 0xac ∧ t.user.reg .a0 = 0 := by
  have hdue : (beforeAlarm 0xac).proc.Due := by decide
  have hsaved : Saved _ { (beforeAlarm 0xac).timer 0 .rr hart0 with user := dummyHandler } :=
    saved_timer (b := .rr) (h := hart0) rfl hdue
  obtain ⟨t, ht, huser, -⟩ := sigreturn_user (b := .rr) (h := hart0) (i := noInput) hsaved (by decide)
    fun htraced => absurd htraced (by decide)
  refine ⟨hdue, _, t, rfl, by decide, ht, rfl, ?_⟩
  simp [huser]

end Xv6.Trap
