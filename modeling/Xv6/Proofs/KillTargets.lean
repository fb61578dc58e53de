import Xv6.Sanity.ProcSteps

/-! Whom `kill` reaches. It looks for the pid in all slots, and the UNUSED ones have pid 0, so `kill(0)` sets `killed`
in a slot that nobody lives in; `allocproc` does not clear it. -/

namespace Xv6.Procs

variable {s s' : State} {q : Slot}

/-- `kill(pid)` does what it should: it reaches a process, and only one that exists. -/
structure State.Kills (s : State) (pid : ℤ) : Prop where
  live : ∀ q, s.find (fun pr => pr.pid = pid) = some q → (s.proc q).state ≠ .unused
  ret : s.killRet pid = 0 ↔ ∃ q, (s.proc q).state ≠ .unused ∧ (s.proc q).pid = pid
  found : s.killRet pid = 0 → ∃ q, (s.proc q).state ≠ .unused ∧ (s.proc q).pid = pid ∧ s.kill pid = s.set q fun pr =>
    { pr with killed := 1, state := if pr.state = .sleeping then .runnable else pr.state }
  notFound : s.killRet pid ≠ 0 → s.killRet pid = -1 ∧ s.kill pid = s

/-- The first slot with this pid is in use. -/
def State.HitsLive (s : State) (pid : ℤ) : Prop := ∀ q, s.find (fun pr => pr.pid = pid) = some q → (s.proc q).state ≠ .unused

theorem find_none {f : Proc → Bool} (h : s.find f = none) (q : Slot) : f (s.proc q) = false := by
  have := List.find?_eq_none.mp h q (List.mem_finRange q)
  simpa using this

theorem kills_iff (s : State) (pid : ℤ) : s.Kills pid ↔ s.HitsLive pid := by
  refine ⟨State.Kills.live, fun hlive => ?_⟩
  cases hfind : s.find (fun pr => pr.pid = pid) with
  | none =>
    have hnobody : ∀ q, (s.proc q).pid ≠ pid := fun q => by simpa using find_none hfind q
    have hret : s.killRet pid = -1 := by simp [State.killRet, hfind]
    refine ⟨hlive, ?_, fun h => ?_, fun _ => ⟨hret, by simp [State.kill, hfind]⟩⟩
    · rw [hret]
      exact ⟨fun h => absurd h (by decide), fun ⟨q, _, hq⟩ => absurd hq (hnobody q)⟩
    · rw [hret] at h
      exact absurd h (by decide)
  | some q =>
    have hpid : (s.proc q).pid = pid := by simpa using find_some hfind
    have hret : s.killRet pid = 0 := by simp [State.killRet, hfind]
    exact ⟨hlive, ⟨fun _ => ⟨q, hlive q hfind, hpid⟩, fun _ => hret⟩,
      fun _ => ⟨q, hlive q hfind, hpid, by rw [State.kill, hfind]; rfl⟩, fun h => absurd hret h⟩

/-! ### The slots that nobody lives in -/

variable {e : Event} {es : List Event}

/-- If the slot is free afterwards, it was free, with the same pid and the same `killed`. -/
def Stays (pr pr' : Proc) : Prop :=
  pr'.state = .unused → pr.state = .unused ∧ pr'.pid = pr.pid ∧ pr'.killed = pr.killed

theorem stays_updateTime (pr : Proc) : Stays pr pr.updateTime := by
  unfold Proc.updateTime
  split <;> exact fun h => ⟨h, rfl, rfl⟩

theorem stays_quiet {pr : Proc} {h : Happen} (hquiet : h.Quiet pr.state) (hkill : h ≠ .kill) : Stays pr (pr.happen h) := by
  intro hu
  cases h with
  | note d | setPriority priority | own d => exact ⟨hu, rfl, rfl⟩
  | dispatch | yield | sleep chan => cases hu
  | setkilled => exact absurd (hquiet.symm.trans hu) (by decide)
  | wakeup chan =>
    rw [Proc.happen, Proc.wakeup] at hu ⊢
    split at hu
    · cases hu
    · rw [if_neg ‹_›]
      exact ⟨hu, rfl, rfl⟩
  | reparent p =>
    rw [Proc.happen, Proc.reparent] at hu ⊢
    split <;> simp_all
  | kill => exact absurd rfl hkill
  | tick | exit _ | reap => exact hquiet.elim

/-- How a slot comes to be free. -/
inductive Freed (s s' : State) (e : Event) (q : Slot) : Prop
  | freed (hpid : (s'.proc q).pid = 0) (hkilled : (s'.proc q).killed = 0)
  | stays (hunused : (s.proc q).state = .unused) (hpid : (s'.proc q).pid = (s.proc q).pid)
      (hkilled : (s'.proc q).killed = (s.proc q).killed)
  | kill {pid : ℤ} (he : e = .kill pid) (hfind : s.find (fun pr => pr.pid = pid) = some q)
      (hunused : (s.proc q).state = .unused) (hpid : (s'.proc q).pid = (s.proc q).pid)

theorem Stays.freed (h : Stays (s.proc q) (s'.proc q)) (hq : (s'.proc q).state = .unused) : Freed s s' e q :=
  .stays (h hq).1 (h hq).2.1 (h hq).2.2

theorem step_freed (hs : s.step e = some s') (hq : (s'.proc q).state = .unused) : Freed s s' e q := by
  cases step_change hs q with
  | calm h hquiet hkill hp =>
    by_cases hk : h = .kill
    · obtain ⟨pid, he, hfind⟩ := hkill hk
      subst hk
      rw [hp] at hq
      exact .kill he hfind (((calm_kill _).dead (.inl hq)).1.symm.trans hq) (by rw [hp]; rfl)
    · exact Stays.freed (hp ▸ stays_quiet hquiet hk) hq
  | tick hp => exact Stays.freed (hp ▸ stays_updateTime _) hq
  | exit status _ hp =>
    rw [hp] at hq
    cases hq
  | reap _ hp => exact .freed (congrArg Proc.pid hp) (congrArg Proc.killed hp)
  | fork p r _ hp =>
    rw [hp] at hq
    cases r with
    | ok | noCopy => cases hq
    | noTrapframe | noPagetable | noUvm => exact .freed (congrArg Proc.pid hp) (congrArg Proc.killed hp)

/-- The free slots have pid 0. -/
def State.FreePids (s : State) : Prop := ∀ q, (s.proc q).state = .unused → (s.proc q).pid = 0

theorem freePids_step (s : State) (e : Event) (s' : State) (h : s.FreePids) (hs : s.step e = some s') : s'.FreePids := by
  intro q hq
  cases step_freed hs hq with
  | freed hpid => exact hpid
  | stays hunused hpid | kill he hfind hunused hpid => exact hpid.trans (h q hunused)

theorem freePids_run (h : State.run es = some s) : s.FreePids := by
  have hinit : State.init.FreePids := by
    unfold State.FreePids
    decide +kernel
  exact System.exec_invariant State.step hinit freePids_step es s h

/-- The calls of `kill(0)` find a process with pid 0 before any free slot, or no slot with pid 0 at all. -/
def KillsLive (s : State) : Event → Prop
  | .kill pid => pid = 0 → s.HitsLive 0
  | _ => True

/-- No free slot is marked as killed. -/
def State.FreeClean (s : State) : Prop := ∀ q, (s.proc q).state = .unused → (s.proc q).killed = 0

theorem freeClean_step (h : s.FreeClean) (hpids : s.FreePids) (hlive : KillsLive s e) (hs : s.step e = some s') :
    s'.FreeClean := by
  intro q hq
  cases step_freed hs hq with
  | freed hpid hkilled => exact hkilled
  | stays hunused hpid hkilled => exact hkilled.trans (h q hunused)
  | @kill pid he hfind hunused =>
    subst he
    have hpid : (s.proc q).pid = pid := by simpa using find_some hfind
    have hzero : pid = 0 := hpid.symm.trans (hpids q hunused)
    subst hzero
    exact absurd hunused (hlive rfl q hfind)

theorem freeClean_run (h : State.run es = some s)
    (hkills : System.Along State.step KillsLive State.init es) : s.FreeClean := by
  have hinit : State.init.FreePids ∧ State.init.FreeClean := by
    unfold State.FreePids State.FreeClean
    decide +kernel
  have hstep : ∀ s e s', State.FreePids s ∧ State.FreeClean s → KillsLive s e → s.step e = some s' →
      State.FreePids s' ∧ State.FreeClean s' := fun s e s' hi hlive hs =>
    ⟨freePids_step s e s' hi.1 hs, freeClean_step hi.2 hi.1 hlive hs⟩
  exact (System.exec_invariant_along State.step hinit hstep es s hkills h).2

/-- `kill` reaches only live processes exactly if it does not look for pid 0 or finds a process that has it first. If all
calls in a run are such, every process that `allocproc` returns starts with `killed` clear. -/
theorem kill_reaches_live (es : List Event) (s : State) (h : State.run es = some s) :
    (∀ pid, s.Kills pid ↔ (pid = 0 → s.HitsLive 0)) ∧
    (System.Along State.step KillsLive State.init es → ∀ pr, s.allocproc = some pr → pr.killed = 0) := by
  constructor
  · intro pid
    rw [kills_iff]
    constructor
    · rintro hlive rfl
      exact hlive
    · intro hzero q hfind hunused
      have hpid : (s.proc q).pid = pid := by simpa using find_some hfind
      have hpid0 : pid = 0 := hpid.symm.trans (freePids_run h q hunused)
      subst hpid0
      exact hzero rfl q hfind hunused
  · intro hkills pr hpr
    obtain ⟨np, hnp, rfl⟩ := Option.map_eq_some_iff.mp hpr
    exact freeClean_run h hkills np (of_decide_eq_true (find_some hnp))

/-- `init` kills its first child, which sleeps. -/
def killChild : List Event := [.dispatch 0, .fork 0 .ok, .dispatch 1, .sleep 1 7, .kill 2]

theorem kill_reaches_live_killChild : ∃ s, State.run killChild = some s ∧
    (∀ pid, s.Kills pid ↔ (pid = 0 → s.HitsLive 0)) ∧ s.allocproc.map (·.killed) = some 0 := by
  have hrun : ((State.run killChild).map fun s => s.allocproc.isSome) = some true := by decide +kernel
  obtain ⟨s, hs, hsome⟩ := Option.map_eq_some_iff.mp hrun
  obtain ⟨pr, hpr⟩ := Option.isSome_iff_exists.mp hsome
  have hkills : System.Along State.step KillsLive State.init killChild := by
    refine System.along_of_mem State.step fun t e he => ?_
    simp only [killChild, List.mem_cons, List.not_mem_nil, or_false] at he
    rcases he with rfl | rfl | rfl | rfl | rfl <;> first | trivial | exact fun h => absurd h (by decide)
  obtain ⟨hkill, halloc⟩ := kill_reaches_live killChild s hs
  exact ⟨s, hs, hkill, by rw [hpr, Option.map_some, halloc hkills pr hpr]⟩

/-- `kill(0)` returns 0 although no process has pid 0, and the next process starts killed. -/
theorem kill_zero_hits_free_slot :
    ((State.run [.dispatch 0]).map fun s => (s.killRet 0, decide (∃ q, (s.proc q).state ≠ .unused ∧ (s.proc q).pid = 0)))
      = some (0, false) ∧
    ((State.run [.dispatch 0, .kill 0]).map fun s => s.allocproc.map (·.killed)) = some (some 1) := by
  constructor <;> decide +kernel

end Xv6.Procs
