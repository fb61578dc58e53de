import Xv6.Sanity.ProcSteps

/-! The times that `waitx` reports. Nothing writes `end_time`, and nothing resets
`tot_run_time` when a slot gets a new process. -/

namespace Xv6.Procs

open Function

/-- How the fields that `waitx` reads go with the life of the process, at a given tick. -/
structure Timed (pr : Proc) (l : Life) (ticks : ℕ) : Prop where
  endTime : pr.endTime = 0
  range : int32 pr.totRunTime = pr.totRunTime
  stale : pr.state ≠ .unused → int32 l.stale = l.stale
  creationTime : pr.state ≠ .unused → pr.creationTime = int32 l.born
  totRunTime : pr.state ≠ .unused → pr.totRunTime = int32 (l.stale + l.ran)
  alive : pr.state ≠ .unused → l.born + l.ran ≤ ticks
  dead : pr.state = .zombie → l.born + l.ran ≤ l.died

variable {pr pr' : Proc} {l : Life} {ticks : ℕ}

theorem int32_int32 (x : ℤ) : int32 (int32 x) = int32 x := by
  unfold int32
  omega

theorem int32_succ (x : ℤ) : int32 (int32 x + 1) = int32 (x + 1) := by
  unfold int32
  omega

theorem timed_calm (h : Timed pr l ticks) (hc : Calm pr pr') : Timed pr' l ticks := by
  refine ⟨?_, ?_, fun hu => h.stale (hc.alive hu), fun hu => ?_, fun hu => ?_, fun hu => h.alive (hc.alive hu),
    fun hz => ?_⟩
  · rw [hc.endTime, h.endTime]
  · rw [hc.totRunTime, h.range]
  · rw [hc.creationTime, h.creationTime (hc.alive hu)]
  · rw [hc.totRunTime, h.totRunTime (hc.alive hu)]
  · exact h.dead ((hc.dead (.inr hz)).1 ▸ hz)

/-- A slot without a process only has to keep its two counters in order. -/
theorem timed_unused (hend : pr.endTime = 0) (hrange : int32 pr.totRunTime = pr.totRunTime)
    (hstate : pr.state = .unused) : Timed pr l ticks :=
  ⟨hend, hrange, (absurd hstate ·), (absurd hstate ·), (absurd hstate ·), (absurd hstate ·),
    fun hz => by rw [hstate] at hz; cases hz⟩

theorem updateTime_of_running (h : pr.state = .running) :
    pr.updateTime = { pr with runTime := int32 (pr.runTime + 1), totRunTime := int32 (pr.totRunTime + 1) } := by
  unfold Proc.updateTime
  rw [h]

theorem updateTime_calm (h : pr.state ≠ .running) : Calm pr pr.updateTime := by
  unfold Proc.updateTime
  split
  · contradiction
  · exact ⟨rfl, rfl, rfl, id, fun _ => ⟨rfl, rfl, rfl, rfl⟩⟩
  · exact .refl pr

theorem timed_tick (h : Timed pr l ticks) :
    Timed pr.updateTime (if pr.state = .running then { l with ran := l.ran + 1 } else l) (ticks + 1) := by
  by_cases hrun : pr.state = .running
  · have hused : pr.state ≠ .unused := by rw [hrun]; decide
    rw [if_pos hrun, updateTime_of_running hrun]
    refine ⟨h.endTime, int32_int32 _, fun _ => h.stale hused, fun _ => h.creationTime hused, fun _ => ?_, fun _ => ?_,
      fun hz => by cases hrun.symm.trans hz⟩
    · change int32 (pr.totRunTime + 1) = int32 (l.stale + ((l.ran + 1 : ℕ) : ℤ))
      rw [h.totRunTime hused, int32_succ]
      push_cast
      rw [add_assoc]
    · have := h.alive hused
      change l.born + (l.ran + 1) ≤ ticks + 1
      omega
  · rw [if_neg hrun]
    have hnext : Timed pr l (ticks + 1) := { h with alive := fun hu => (h.alive hu).trans (Nat.le_succ _) }
    exact timed_calm hnext (updateTime_calm hrun)

theorem timed_exit (h : Timed pr l ticks) (hrun : pr.state = .running) (q : Slot) (status : ℤ) :
    Timed ((pr.reparent q).exit status) { l with died := ticks } ticks := by
  have hused : pr.state ≠ .unused := by rw [hrun]; decide
  have hc := calm_reparent pr q
  refine ⟨hc.endTime.trans h.endTime, ?_, fun _ => h.stale hused, fun _ => hc.creationTime.trans (h.creationTime hused),
    fun _ => hc.totRunTime.trans (h.totRunTime hused), fun _ => h.alive hused, fun _ => h.alive hused⟩
  change int32 (pr.reparent q).totRunTime = (pr.reparent q).totRunTime
  rw [hc.totRunTime, h.range]

theorem timed_reap (h : Timed pr l ticks) : Timed (freeproc pr) l ticks := timed_unused h.endTime h.range rfl

/-- However `fork` ends, the counters of the slot are left as they were. -/
theorem timed_fork (h : Timed pr l ticks) (p : Proc) (parent : Slot) (pid : ℤ) (r : ForkResult) :
    Timed (pr.forked p parent pid ticks r) ⟨ticks, 0, 0, pr.totRunTime⟩ ticks := by
  have hrange : pr.totRunTime = int32 (pr.totRunTime + ((0 : ℕ) : ℤ)) := by simpa using h.range.symm
  cases r with
  | ok | noCopy =>
    exact ⟨h.endTime, h.range, fun _ => h.range, fun _ => rfl, fun _ => hrange, fun _ => le_rfl, nofun⟩
  | noTrapframe | noPagetable | noUvm => exact timed_unused h.endTime h.range rfl

theorem timed_step {s s' : State} {e : Event} (h : ∀ q, Timed (s.proc q) (s.life q) s.ticks)
    (hs : s.step e = some s') (q : Slot) : Timed (s'.proc q) (s'.life q) s'.ticks := by
  cases step_change hs q with
  | calm x hquiet _ hp hlife hticks =>
    rw [hlife, hticks]
    exact timed_calm (h q) (hp ▸ quiet_calm hquiet)
  | tick hp hlife hticks =>
    rw [hp, hlife, hticks]
    exact timed_tick (h q)
  | exit status hrun hp hlife hticks =>
    rw [hp, hlife, hticks]
    exact timed_exit (h q) hrun q status
  | reap hz hp hlife hticks =>
    rw [hp, hlife, hticks]
    exact timed_reap (h q)
  | fork p r hu hp hlife hticks =>
    rw [hp, hlife, hticks]
    exact timed_fork (h q) (s.proc p) p s.nextpid r

/-- The true times of a child: the ticks at which it was RUNNING, and the rest of its life. -/
def Report.True (r : Report) : Prop :=
  r.rtime = r.life.ran ∧ r.wtime = (r.life.died : ℤ) - r.life.born - r.life.ran

instance (r : Report) : Decidable r.True := inferInstanceAs (Decidable (_ ∧ _))

/-- When the report on a child is the truth: its slot was new, and it exited at a tick at which
`ticks` was 0, as `end_time` always is. -/
def Report.Lucky (r : Report) : Prop :=
  r.life.stale = 0 ∧ r.life.died % 2 ^ 32 = 0 ∧ r.life.ran < 2 ^ 32 ∧ r.life.died - r.life.born - r.life.ran < 2 ^ 32

section

variable (h : Timed pr l ticks) (hz : pr.state = .zombie)

include h hz

theorem rtime_eq : pr.rtime = uint32 (l.stale + l.ran) := by
  rw [Proc.rtime, h.totRunTime (by rw [hz]; decide)]
  unfold uint32 int32
  omega

theorem wtime_eq :
    pr.wtime = uint32 (-(l.born + l.stale + l.ran)) := by
  have hused : pr.state ≠ .unused := by rw [hz]; decide
  rw [Proc.wtime, h.endTime, h.creationTime hused, h.totRunTime hused]
  unfold uint32 int32
  omega

/-- What a report says of a child. -/
structure Report.Of (r : Report) : Prop where
  stale : int32 r.life.stale = r.life.stale
  lifetime : r.life.born + r.life.ran ≤ r.life.died
  rtime : r.rtime = uint32 (r.life.stale + r.life.ran)
  wtime : r.wtime = uint32 (-(r.life.born + r.life.stale + r.life.ran))

theorem report_of : Report.Of ⟨pr.rtime, pr.wtime, l⟩ :=
  ⟨h.stale (by rw [hz]; decide), h.dead hz, rtime_eq h hz, wtime_eq h hz⟩

end

theorem Report.Of.true_iff {r : Report} (h : r.Of) : r.True ↔ r.Lucky := by
  obtain ⟨hstale, hlife, hr, hw⟩ := h
  unfold Report.True Report.Lucky
  rw [hr, hw]
  unfold int32 at hstale
  unfold uint32
  omega

/-- The invariant of the process table and of the reports made so far. -/
structure Timing (s : State) : Prop where
  slots : ∀ q, Timed (s.proc q) (s.life q) s.ticks
  reports : ∀ r ∈ s.reports, r.Of

theorem timed_userinit : Timed State.userinit ⟨0, 0, 0, 0⟩ 0 := by
  have hzero : int32 0 = 0 := by decide
  exact ⟨rfl, hzero, fun _ => hzero, fun _ => rfl, fun _ => hzero.symm, fun _ => le_rfl, fun _ => le_rfl⟩

theorem timing_init : Timing State.init := by
  refine ⟨fun q => ?_, nofun⟩
  change Timed (update (fun _ => Proc.zero) initproc State.userinit q) ⟨0, 0, 0, 0⟩ 0
  by_cases hq : q = initproc
  · rw [hq, update_self]
    exact timed_userinit
  · rw [update_of_ne hq]
    exact timed_unused rfl (by decide) rfl

theorem timing_step (s : State) (e : Event) (s' : State) (h : Timing s) (hs : s.step e = some s') : Timing s' := by
  refine ⟨timed_step h.slots hs, ?_⟩
  rcases step_reports hs with heq | ⟨q, hz, heq⟩
  · rw [heq]
    exact h.reports
  · intro r hr
    rw [heq, List.mem_append, List.mem_singleton] at hr
    rcases hr with hr | rfl
    · exact h.reports r hr
    · exact report_of (h.slots q) hz

/-- Each report of `waitx` is the truth exactly when the child's slot was new and the child exited
at a tick that is a multiple of 2^32 (and its times fit). -/
theorem waitx_times_iff (es : List Event) (s : State) (h : State.run es = some s) :
    ∀ r ∈ s.reports, r.life.born + r.life.ran ≤ r.life.died ∧ (r.True ↔ r.Lucky) := by
  intro r hr
  have hof := (System.exec_invariant State.step timing_init timing_step es s h).reports r hr
  exact ⟨hof.lifetime, hof.true_iff⟩

/-- A child that is created, dispatched and reaped before the first tick. -/
def beforeTicks : List Event := [.dispatch 0, .fork 0 .ok, .dispatch 1, .exit 1 0, .waitx 0]

/-- A first child runs for one tick; a second one, in the same slot, for none. -/
def twoChildren : List Event :=
  [.dispatch 0, .fork 0 .ok, .dispatch 1, .tick, .exit 1 0, .waitx 0,
    .fork 0 .ok, .dispatch 1, .exit 1 0, .waitx 0]

theorem waitx_times_iff_children : ∃ s, State.run (beforeTicks ++ twoChildren.tail) = some s ∧
    s.reports = [⟨0, 0, ⟨0, 0, 0, 0⟩⟩, ⟨1, 4294967295, ⟨0, 1, 1, 0⟩⟩, ⟨1, 4294967294, ⟨1, 1, 0, 1⟩⟩] ∧
    ∀ r ∈ s.reports, r.life.born + r.life.ran ≤ r.life.died ∧ (r.True ↔ r.Lucky) := by
  have hrun : (State.run (beforeTicks ++ twoChildren.tail)).map State.reports =
      some [⟨0, 0, ⟨0, 0, 0, 0⟩⟩, ⟨1, 4294967295, ⟨0, 1, 1, 0⟩⟩, ⟨1, 4294967294, ⟨1, 1, 0, 1⟩⟩] := by decide +kernel
  obtain ⟨s, hs, hreports⟩ := Option.map_eq_some_iff.mp hrun
  exact ⟨s, hs, hreports, waitx_times_iff _ s hs⟩

/-- Of the first child `waitx` reports a waiting time of 2^32 - 1 instead of 0, of the second a running time of
1 instead of 0. -/
theorem waitx_false_times : (State.run twoChildren).map State.reports =
    some [⟨1, 4294967295, ⟨0, 1, 1, 0⟩⟩, ⟨1, 4294967294, ⟨1, 1, 0, 1⟩⟩] ∧
    ¬ Report.True ⟨1, 4294967295, ⟨0, 1, 1, 0⟩⟩ ∧ ¬ Report.True ⟨1, 4294967294, ⟨1, 1, 0, 1⟩⟩ := by
  refine ⟨by decide +kernel, by decide, by decide⟩

end Xv6.Procs
