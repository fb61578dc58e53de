import Xv6.Spec.Procs

/-! What a step does to one slot of the process table: it is calm, or the slot sees a clock
tick, an exit, a reaping or a fork. -/

namespace Xv6.Procs

/-- Neither the times nor, in a slot without a living process, what `allocproc` relies on
have changed. -/
structure Calm (pr pr' : Proc) : Prop where
  creationTime : pr'.creationTime = pr.creationTime
  totRunTime : pr'.totRunTime = pr.totRunTime
  endTime : pr'.endTime = pr.endTime
  alive : pr'.state ≠ .unused → pr.state ≠ .unused
  dead : pr'.state = .unused ∨ pr'.state = .zombie →
    pr'.state = pr.state ∧ pr'.ofile = pr.ofile ∧ pr'.chan = pr.chan ∧ pr'.xstate = pr.xstate

theorem Calm.refl (pr : Proc) : Calm pr pr := ⟨rfl, rfl, rfl, id, fun _ => ⟨rfl, rfl, rfl, rfl⟩⟩

variable {pr : Proc} {e : Event}

theorem calm_dispatch (h : pr.state = .runnable) : Calm pr pr.dispatch :=
  ⟨rfl, rfl, rfl, fun _ => by rw [h]; decide, fun h => by rcases h with h | h <;> cases h⟩

theorem calm_yield (h : pr.state = .running) : Calm pr pr.yield :=
  ⟨rfl, rfl, rfl, fun _ => by rw [h]; decide, fun h => by rcases h with h | h <;> cases h⟩

theorem calm_sleep (h : pr.state = .running) (chan : ℕ) : Calm pr (pr.sleep chan) :=
  ⟨rfl, rfl, rfl, fun _ => by rw [h]; decide, fun h => by rcases h with h | h <;> cases h⟩

theorem calm_own (h : pr.state = .running) (d : Own) : Calm pr { pr with toOwn := d } :=
  ⟨rfl, rfl, rfl, id, fun h' => by rcases h' with h' | h' <;> cases h.symm.trans h'⟩

theorem calm_note (pr : Proc) (d : Noted) : Calm pr { pr with toNoted := d } :=
  ⟨rfl, rfl, rfl, id, fun _ => ⟨rfl, rfl, rfl, rfl⟩⟩

theorem calm_setkilled (pr : Proc) : Calm pr pr.setkilled := ⟨rfl, rfl, rfl, id, fun _ => ⟨rfl, rfl, rfl, rfl⟩⟩

theorem calm_setPriority (pr : Proc) (priority : ℤ) : Calm pr (pr.setPriority priority) :=
  ⟨rfl, rfl, rfl, id, fun _ => ⟨rfl, rfl, rfl, rfl⟩⟩

/-- Waking a process that sleeps. -/
theorem calm_wake {pr' : Proc} (h : pr.state = .sleeping) (hstate : pr'.state = .runnable)
    (htimes : pr'.creationTime = pr.creationTime ∧ pr'.totRunTime = pr.totRunTime ∧ pr'.endTime = pr.endTime) :
    Calm pr pr' := by
  refine ⟨htimes.1, htimes.2.1, htimes.2.2, fun _ => ?_, fun h' => ?_⟩
  · rw [h]
    decide
  · rw [hstate] at h'
    rcases h' with h' | h' <;> cases h'

theorem calm_wakeup (pr : Proc) (chan : ℕ) : Calm pr (pr.wakeup chan) := by
  unfold Proc.wakeup
  split
  · rename_i h
    exact calm_wake h.1 rfl ⟨rfl, rfl, rfl⟩
  · exact .refl pr

theorem calm_kill (pr : Proc) : Calm pr pr.kill := by
  unfold Proc.kill
  by_cases h : pr.state = .sleeping
  · exact calm_wake h (if_pos h) ⟨rfl, rfl, rfl⟩
  · rw [if_neg h]
    exact ⟨rfl, rfl, rfl, id, fun _ => ⟨rfl, rfl, rfl, rfl⟩⟩

theorem calm_reparent (pr : Proc) (p : Slot) : Calm pr (pr.reparent p) := by
  unfold Proc.reparent
  split
  · exact ⟨rfl, rfl, rfl, id, fun _ => ⟨rfl, rfl, rfl, rfl⟩⟩
  · exact .refl pr

/-- What can happen to the process in a slot, up to its reaping. -/
inductive Happen where
  | tick
  | dispatch
  | note (d : Noted)
  | yield
  | sleep (chan : ℕ)
  | wakeup (chan : ℕ)
  | kill
  | setkilled
  | setPriority (priority : ℤ)
  | own (d : Own)
  | reparent (p : Slot)
  | exit (status : ℤ)
  | reap

def Proc.happen (pr : Proc) : Happen → Proc
  | .tick => pr.updateTime
  | .dispatch => pr.dispatch
  | .note d => { pr with toNoted := d }
  | .yield => pr.yield
  | .sleep chan => pr.sleep chan
  | .wakeup chan => pr.wakeup chan
  | .kill => pr.kill
  | .setkilled => pr.setkilled
  | .setPriority priority => pr.setPriority priority
  | .own d => { pr with toOwn := d }
  | .reparent p => pr.reparent p
  | .exit status => pr.exit status
  | .reap => freeproc pr

/-- A happening that is calm in a process in this state. -/
def Happen.Quiet : Happen → ProcState → Prop
  | .dispatch, st => st = .runnable
  | .yield, st | .sleep _, st | .setkilled, st | .own _, st => st = .running
  | .tick, _ | .exit _, _ | .reap, _ => False
  | _, _ => True

theorem quiet_calm {h : Happen} (hq : h.Quiet pr.state) : Calm pr (pr.happen h) := by
  cases h with
  | dispatch => exact calm_dispatch hq
  | note d => exact calm_note pr d
  | yield => exact calm_yield hq
  | sleep chan => exact calm_sleep hq chan
  | wakeup chan => exact calm_wakeup pr chan
  | kill => exact calm_kill pr
  | setkilled => exact calm_setkilled pr
  | setPriority priority => exact calm_setPriority pr priority
  | own d => exact calm_own hq d
  | reparent p => exact calm_reparent pr p
  | tick | exit _ | reap => exact hq.elim

/-- One step, seen from slot `q`. If nothing happens, the same is noted again. -/
inductive Change (s s' : State) (e : Event) (q : Slot) : Prop
  | calm (h : Happen) (hquiet : h.Quiet (s.proc q).state)
      (hkill : h = .kill → ∃ pid, e = .kill pid ∧ s.find (fun pr => pr.pid = pid) = some q)
      (hp : s'.proc q = (s.proc q).happen h) (hlife : s'.life q = s.life q) (hticks : s'.ticks = s.ticks)
  | tick (hp : s'.proc q = (s.proc q).updateTime)
      (hlife : s'.life q =
        if (s.proc q).state = .running then { s.life q with ran := (s.life q).ran + 1 } else s.life q)
      (hticks : s'.ticks = s.ticks + 1)
  | exit (status : ℤ) (h : (s.proc q).state = .running) (hp : s'.proc q = ((s.proc q).reparent q).exit status)
      (hlife : s'.life q = { s.life q with died := s.ticks }) (hticks : s'.ticks = s.ticks)
  | reap (h : (s.proc q).state = .zombie) (hp : s'.proc q = freeproc (s.proc q)) (hlife : s'.life q = s.life q)
      (hticks : s'.ticks = s.ticks)
  | fork (p : Slot) (r : ForkResult) (h : (s.proc q).state = .unused)
      (hp : s'.proc q = (s.proc q).forked (s.proc p) p s.nextpid s.ticks r)
      (hlife : s'.life q = ⟨s.ticks, 0, 0, (s.proc q).totRunTime⟩) (hticks : s'.ticks = s.ticks)

variable {s s' : State} {p q r : Slot}

theorem Change.same (hp : s'.proc q = s.proc q) (hlife : s'.life q = s.life q) (hticks : s'.ticks = s.ticks) :
    Change s s' e q := .calm (.note (s.proc q).toNoted) trivial nofun hp hlife hticks

theorem find_some {f : Proc → Bool} (h : s.find f = some q) : f (s.proc q) = true :=
  List.find?_some (p := fun q => f (s.proc q)) h

theorem change_set (h : Happen) (hquiet : h.Quiet (s.proc r).state)
    (hkill : h = .kill → ∃ pid, e = .kill pid ∧ s.find (fun pr => pr.pid = pid) = some r) (q : Slot) :
    Change s (s.set r fun pr => pr.happen h) e q := by
  by_cases hq : q = r
  · subst hq
    exact .calm h hquiet hkill (by simp [State.set]) rfl rfl
  · exact .same (by simp [State.set, hq]) rfl rfl

theorem running_some {t : State} (h : s.running p t = some s') : (s.proc p).state = .running ∧ s' = t := by
  unfold State.running at h
  split at h
  · exact ⟨‹_›, (Option.some.inj h).symm⟩
  · cases h

theorem change_fork (s : State) (p : Slot) (r : ForkResult) (q : Slot) : Change s (s.fork p r) e q := by
  unfold State.fork
  split
  · exact .same rfl rfl rfl
  · rename_i np hnp
    by_cases hq : q = np
    · subst hq
      have hunused : (s.proc q).state = .unused := of_decide_eq_true (find_some hnp)
      exact .fork p r hunused (by simp [State.set]) (by simp) rfl
    · exact .same (by simp [State.set, hq]) (by simp [hq]) rfl

theorem change_exit (status : ℤ) (h : (s.proc p).state = .running) (q : Slot) : Change s (s.exit p status) e q := by
  by_cases hq : q = p
  · subst hq
    exact .exit status h (by simp [State.exit, State.reparent, State.set]) (by simp [State.exit]) rfl
  · exact .calm (.reparent p) trivial nofun (by simp [State.exit, State.reparent, State.set, hq, Proc.happen])
      (by simp [State.exit, hq]) rfl

theorem change_reap (h : (s.proc r).state = .zombie) (reports : List Report) (q : Slot) :
    Change s { s.set r freeproc with reports := reports } e q := by
  by_cases hq : q = r
  · subst hq
    exact .reap h (by simp [State.set]) rfl rfl
  · exact .same (by simp [State.set, hq]) rfl rfl

theorem deadChild_zombie (h : s.deadChild p = some q) : (s.proc q).state = .zombie := by
  have := find_some h
  simp only [decide_eq_true_eq] at this
  exact this.2

theorem step_change (hs : s.step e = some s') (q : Slot) : Change s s' e q := by
  cases e with
  | fork p r =>
    obtain ⟨-, rfl⟩ := running_some hs
    exact change_fork s p r q
  | tick =>
    cases hs
    exact .tick rfl rfl rfl
  | dispatch p =>
    rw [State.step] at hs
    split at hs <;> cases hs
    exact change_set .dispatch ‹_› nofun q
  | note r d =>
    cases hs
    exact change_set (.note d) trivial nofun q
  | yield p =>
    obtain ⟨h, rfl⟩ := running_some hs
    exact change_set .yield h nofun q
  | sleep p chan =>
    obtain ⟨h, rfl⟩ := running_some hs
    exact change_set (.sleep chan) h nofun q
  | wakeup chan =>
    cases hs
    exact .calm (.wakeup chan) trivial nofun rfl rfl rfl
  | kill pid =>
    cases hs
    unfold State.kill
    split
    · exact .same rfl rfl rfl
    · exact change_set .kill trivial (fun _ => ⟨pid, rfl, ‹_›⟩) q
  | setkilled p =>
    obtain ⟨h, rfl⟩ := running_some hs
    exact change_set .setkilled h nofun q
  | setPriority priority pid =>
    cases hs
    unfold State.setPriority
    split
    · exact .same rfl rfl rfl
    · exact change_set (.setPriority priority) trivial nofun q
  | own p d =>
    obtain ⟨h, rfl⟩ := running_some hs
    exact change_set (.own d) h nofun q
  | exit p status =>
    rw [State.step] at hs
    split at hs
    · obtain ⟨h, rfl⟩ := running_some hs
      exact change_exit status h q
    · cases hs
  | wait p =>
    obtain ⟨-, rfl⟩ := running_some hs
    unfold State.wait
    split
    · exact .same rfl rfl rfl
    · rename_i r hr
      exact change_reap (deadChild_zombie hr) s.reports q
  | waitx p =>
    obtain ⟨-, rfl⟩ := running_some hs
    unfold State.waitx
    split
    · exact .same rfl rfl rfl
    · rename_i r hr
      exact change_reap (deadChild_zombie hr) _ q

/-- Only `waitx` reports, and only of a process that has exited. -/
theorem step_reports (hs : s.step e = some s') : s'.reports = s.reports ∨
    ∃ q, (s.proc q).state = .zombie ∧ s'.reports = s.reports ++ [⟨(s.proc q).rtime, (s.proc q).wtime, s.life q⟩] := by
  cases e with
  | fork p r =>
    obtain ⟨-, rfl⟩ := running_some hs
    unfold State.fork
    split <;> exact .inl rfl
  | dispatch p =>
    rw [State.step] at hs
    split at hs <;> cases hs
    exact .inl rfl
  | kill pid =>
    cases hs
    unfold State.kill
    split <;> exact .inl rfl
  | setPriority priority pid =>
    cases hs
    unfold State.setPriority
    split <;> exact .inl rfl
  | exit p status =>
    rw [State.step] at hs
    split at hs
    · obtain ⟨-, rfl⟩ := running_some hs
      exact .inl rfl
    · cases hs
  | wait p =>
    obtain ⟨-, rfl⟩ := running_some hs
    unfold State.wait
    split <;> exact .inl rfl
  | waitx p =>
    obtain ⟨-, rfl⟩ := running_some hs
    unfold State.waitx
    split
    · exact .inl rfl
    · rename_i r hr
      exact .inr ⟨r, deadChild_zombie hr, rfl⟩
  | yield p | sleep p chan | own p d | setkilled p =>
    obtain ⟨-, rfl⟩ := running_some hs
    exact .inl rfl
  | _ =>
    cases hs
    exact .inl rfl

end Xv6.Procs
