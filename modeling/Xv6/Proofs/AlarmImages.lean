import Xv6.Proofs.AlarmBrackets
import Xv6.Spec.Alarms

/-! Whether an alarm jumps into an image that has asked for it. `exec` leaves the alarm of the old image set, so it
does if no process that has an alarm set calls `exec` successfully. -/

open Function Option

namespace Xv6.Trap

variable {s s' : State} {usertrapAddr : UInt64} {b : Build} {e : Event}

/-- The alarm is as it was. -/
def SameAlarm (p q : Proc) : Prop := q.handler = p.handler ∧ q.tickss = p.tickss

theorem call_handler {p q : Proc} {i : Input} {num : ℤ} {ret : UInt64} (hc : p.call i num = some (q, ret)) :
    SameAlarm p q ∨ num = SYS_sigalarm ∧ q.handler = p.trapframe.get (.reg .a1) := by
  unfold Proc.call at hc
  split at hc
  · cases hc
  · split at hc
    · cases hc
      cases i.image <;> exact .inl ⟨rfl, rfl⟩
    · split at hc
      · obtain ⟨rfl, -⟩ := Prod.mk.inj (Option.some.inj hc)
        unfold Proc.sysTrace
        exact .inl ⟨rfl, rfl⟩
      · split at hc
        · rename_i halarm
          cases hc
          exact .inr ⟨halarm, rfl⟩
        · split at hc
          all_goals
            cases hc
            exact .inl ⟨rfl, rfl⟩

theorem syscall_handler {p q : Proc} {i : Input} {t : List Trace} (hs : p.syscall i = some (q, t)) :
    SameAlarm p q ∨ intOf (p.trapframe.get (.reg .a7)) = SYS_sigalarm ∧ q.handler = p.trapframe.get (.reg .a1) := by
  unfold Proc.syscall at hs
  obtain ⟨length, -, hs⟩ := bind_eq_some_iff.mp hs
  obtain ⟨args, -, hs⟩ := bind_eq_some_iff.mp hs
  split at hs
  · obtain ⟨⟨r, ret⟩, hcall, hs⟩ := bind_eq_some_iff.mp hs
    have hq : q = r.setFrame (.reg .a0) ret := by
      dsimp only at hs
      split at hs
      · split at hs <;> cases hs
        rfl
      · cases hs
        rfl
    subst hq
    rcases call_handler hcall with ⟨hhandler, htickss⟩ | ⟨hnum, hhandler⟩
    · exact .inl ⟨hhandler, htickss⟩
    · exact .inr ⟨hnum, hhandler⟩
  · cases hs
    exact .inl ⟨rfl, rfl⟩

/-- Only `sigalarm` changes the handler or turns an alarm on. -/
theorem step_handler (hs : s.step usertrapAddr b e = some s') :
    SameAlarm s.proc s'.proc ∨
      (∃ i h, e = .syscall i h) ∧ s.num = SYS_sigalarm ∧ s'.proc.handler = s.user.reg .a1 := by
  cases e with
  | user u | device h =>
    cases hs
    exact .inl ⟨rfl, rfl⟩
  | timer h =>
    cases hs
    unfold State.timer Proc.alarm
    split
    · split <;> exact .inl ⟨rfl, rfl⟩
    · exact .inl ⟨rfl, rfl⟩
  | syscall i h =>
    rw [State.step, State.syscall] at hs
    obtain ⟨⟨q, t⟩, hq, rfl⟩ := map_eq_some_iff.mp hs
    rcases syscall_handler (p := s.calls) hq with hsame | ⟨hnum, hhandler⟩
    · exact .inl hsame
    · exact .inr ⟨⟨i, h, rfl⟩, (congrArg intOf (calls_reg s .a7)).symm.trans hnum, hhandler.trans (calls_reg s .a1)⟩

/-- When the alarm is due, the program goes on in its handler. -/
theorem timer_pc (hb : hasAlarm b = true) (hdue : s.proc.Due) (h : Hart) :
    (s.timer usertrapAddr b h).user.pc = s.proc.handler := by
  have hdue' : s.enter.Due := (enter_due s).mpr hdue
  unfold State.timer
  rw [if_pos hb]
  unfold Proc.alarm
  rw [if_pos hdue']
  change (usertrapret usertrapAddr _ h).2.pc = _
  rw [usertrapret_user, Frame.user_set_epc]
  rfl

end Xv6.Trap

namespace Xv6.Alarms

open Trap

variable {s s' : State} {usertrapAddr : UInt64} {b : Build} {kstack : Slot → UInt64} {h₀ : Hart}

/-- The successful calls of `exec` are made without an alarm. -/
def ExecsQuiet (s : State) : Event → Prop
  | .trap p (.syscall i _) | .fork p _ _ i _ _ =>
    (s.task p).num = SYS_exec → i.image ≠ none → (s.task p).proc.tickss ≤ 0
  | _ => True

/-- The alarms that are set have been asked for by the image that runs. -/
def Asked (s : State) : Prop :=
  ∀ p, s.live p = true → 0 < (s.task p).proc.tickss → (s.task p).proc.handler ∈ s.asked p

theorem heard_keeps {t : Trap.State} {asked : List UInt64} {e : Trap.Event} {v : UInt64} (hv : v ∈ asked)
    (hexec : ∀ i h, e = .syscall i h → ¬(t.num = SYS_exec ∧ i.image ≠ none)) : v ∈ heard t asked e := by
  cases e with
  | syscall i h =>
    rw [heard]
    by_cases halarm : t.num = SYS_sigalarm
    · rw [if_pos halarm]
      exact List.mem_cons_of_mem _ hv
    · rwa [if_neg halarm, if_neg (hexec i h rfl)]
  | _ => exact hv

theorem Asked.trap {p : Slot} {e : Trap.Event} (hi : Asked s) (hlive : s.live p = true)
    (hexec : ∀ i h, e = .syscall i h → (s.task p).num = SYS_exec → i.image ≠ none → (s.task p).proc.tickss ≤ 0)
    (hs : s.trap usertrapAddr b p e = some s') : Asked s' := by
  obtain ⟨t, ht, rfl⟩ := map_eq_some_iff.mp hs
  intro q hq hset
  by_cases hqp : q = p
  · subst hqp
    simp only [update_self] at hset ⊢
    rcases step_handler ht with ⟨hhandler, htickss⟩ | ⟨⟨i, h, rfl⟩, hnum, hhandler⟩
    · rw [hhandler]
      rw [htickss] at hset
      refine heard_keeps (hi q hlive hset) fun i h he hsucceeds => ?_
      exact absurd (hexec i h he hsucceeds.1 hsucceeds.2) (not_le.mpr hset)
    · rw [hhandler, heard, if_pos hnum]
      exact List.mem_cons_self
  · simp only [update_of_ne hqp] at hset ⊢
    exact hi q hq hset

/-- A new process has no alarm. -/
theorem Asked.start {np : Slot} {q : Trap.Proc} {h : Hart} (hi : Asked s) (hq : q.tickss = 0) :
    Asked (s.start usertrapAddr np q h) := by
  intro p hlive hset
  by_cases hp : p = np
  · subst hp
    have htickss : ((s.start usertrapAddr p q h).task p).proc.tickss = q.tickss := by
      simp only [State.start, update_self]
      rfl
    rw [htickss, hq] at hset
    exact absurd hset (lt_irrefl 0)
  · simp only [State.start, update_of_ne hp] at hlive hset ⊢
    exact hi p hlive hset

theorem asked_boot : Asked (boot usertrapAddr kstack h₀) := Asked.start (nofun) rfl

theorem asked_step {e : Event} (hi : Asked s) (hexec : ExecsQuiet s e) (hs : s.step usertrapAddr b e = some s') : Asked s' := by
  cases e with
  | trap p e =>
    rw [State.step] at hs
    split at hs
    · rename_i hlive
      refine hi.trap hlive (fun i h he => ?_) hs
      subst he
      exact hexec
    · cases hs
  | fork p np pid i h h' =>
    rw [State.step] at hs
    split at hs
    · rename_i hguard
      obtain ⟨t, ht, rfl⟩ := map_eq_some_iff.mp hs
      refine Asked.start (hi.trap hguard.1 (fun i' h' he => ?_) ht) rfl
      cases he
      exact hexec
    · cases hs
  | exit p =>
    rw [State.step] at hs
    split at hs <;> cases hs
    intro q hq hset
    by_cases hqp : q = p
    · subst hqp
      simp only [update_self] at hq
      cases hq
    · simp only [update_of_ne hqp] at hq
      exact hi q hq hset

/-- In a run whose successful calls of `exec` are all made without an alarm, every timer trap that goes to a handler goes
to one that the process has registered since its last successful `exec`. -/
theorem alarm_jumps_asked (usertrapAddr : UInt64) (b : Build) (kstack : Slot → UInt64) (h₀ : Hart) (es : List Event)
    (s s' : State) (hrun : run usertrapAddr b kstack h₀ es = some s)
    (hexec : System.Along (State.step usertrapAddr b) ExecsQuiet (boot usertrapAddr kstack h₀) es)
    (p : Slot) (h : Hart) (hstep : s.step usertrapAddr b (.trap p (.timer h)) = some s') (hb : hasAlarm b = true)
    (hdue : (s.task p).proc.Due) :
    (s'.task p).user.pc = (s.task p).proc.handler ∧ (s.task p).proc.handler ∈ s.asked p := by
  have hi : Asked s := System.exec_invariant_along (State.step usertrapAddr b) asked_boot
    (fun s e s' hi hC hs => asked_step hi hC hs) es s hexec hrun
  rw [State.step] at hstep
  split at hstep
  · rename_i hlive
    obtain ⟨t, ht, rfl⟩ := map_eq_some_iff.mp hstep
    refine ⟨?_, hi p hlive hdue.1⟩
    cases ht
    simp only [Function.update_self]
    exact timer_pc hb hdue h
  · cases hstep

/-- `init` calls `sigalarm(1, 0x200)`. -/
def setsAlarm : List Event := [.trap 0 (.user callsSigalarm), .trap 0 (.syscall noInput hart0)]

theorem alarm_jumps_asked_setsAlarm : ∃ s s', run 0 .rr (fun _ => 0) hart0 setsAlarm = some s ∧
    s.step 0 .rr (.trap 0 (.timer hart0)) = some s' ∧ (s'.task 0).user.pc = 0x200 ∧ 0x200 ∈ s.asked 0 := by
  have hrun : (run 0 .rr (fun _ => 0) hart0 setsAlarm).map (fun s => (s.live 0, (s.task 0).proc.handler,
      decide (s.task 0).proc.Due)) = some (true, 0x200, true) := by decide +kernel
  obtain ⟨s, hs, hmap⟩ := map_eq_some_iff.mp hrun
  obtain ⟨hlive, hmap⟩ := Prod.mk.inj hmap
  obtain ⟨hhandler, hdue⟩ := Prod.mk.inj hmap
  have hquiet : System.Along (State.step 0 .rr) ExecsQuiet (boot 0 (fun _ => 0) hart0) setsAlarm := by
    intro pre e post t hsplit hpre
    match pre, hsplit with
    | [], hsplit =>
      cases hsplit
      trivial
    | [_], hsplit =>
      cases hsplit
      cases hpre
      exact fun _ himage => absurd rfl himage
    | _ :: _ :: pre, hsplit => simp [setsAlarm] at hsplit
  have hstep : ∃ s', s.step 0 .rr (.trap 0 (.timer hart0)) = some s' := ⟨_, if_pos hlive⟩
  obtain ⟨s', hs'⟩ := hstep
  obtain ⟨hpc, hasked⟩ := alarm_jumps_asked 0 .rr (fun _ => 0) hart0 setsAlarm s s' hs hquiet 0 hart0 hs' rfl
    (of_decide_eq_true hdue)
  rw [hhandler] at hpc hasked
  exact ⟨s, s', hs, hs', hpc, hasked⟩

/-- About to call `exec`. -/
def callsExec : User := ⟨0x44, fun r => if r = .a7 then 7 else 0⟩

/-- After a successful `exec` the alarm of the old image is due, at an address that the new one has not registered. -/
theorem alarm_survives_exec :
    (run 0 .rr (fun _ => 0) hart0
      (setsAlarm ++ [.trap 0 (.user callsExec), .trap 0 (.syscall ⟨1, some (0, 0x3000), none, false⟩ hart0)])).map
        (fun s => (decide (s.task 0).proc.Due, s.asked 0,
          (s.step 0 .rr (.trap 0 (.timer hart0))).map fun s' => (s'.task 0).user.pc)) =
      some (true, [], some 0x200) := by
  decide +kernel

end Xv6.Alarms
