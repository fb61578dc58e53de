import Xv6.Proofs.LifeReap

/-! Pids come round again. Init forks a child that exits and is reaped, over and over:
after 2^32 rounds `nextpid` is what it was, and `wait` returns the same pid once more. -/

namespace Xv6.Life

open State System Option

/-- Only init runs, in user mode, and the other slots are free. -/
structure Rested (s : State) : Prop where
  pc : s.pc 0 = .user
  state : (s.proc 0).state = .running
  parent : (s.proc 0).parent = none
  free : ∀ c, c ≠ 0 → (s.proc c).state = .unused ∧ (s.proc c).parent = none
  lock : ∀ c, s.lock c = none
  waitLock : s.waitLock = none

/-- A step in which every allocation and every copy succeeds. -/
def go (p : Slot) : Slot × Act := (p, .go ⟨.ok, true⟩)

/-- Init forks, and the child in slot 1 calls `exit(0)`. -/
def childLife : List (Slot × Act) :=
  [(0, .call .fork), go 0, go 0, go 0, go 0, (1, .dispatch), (1, .call (.exit 0)), go 1]

/-- The child's `exit`, once it holds `wait_lock`. -/
def childExit : List (Slot × Act) :=
  List.replicate 64 (go 1) ++ go 1 :: List.replicate 64 (go 1) ++ [go 1, go 1, (1, .swtch)]

/-- Init reaps the child. -/
def reapChild : List (Slot × Act) := [(0, .call (.wait .wait true)), go 0, go 0, go 0]

theorem goto_goto (s : State) (p : Slot) (a b : Pc) : (s.goto p a).goto p b = s.goto p b := by
  simp [goto]

variable {s : State} {p : Slot}

theorem setProc_of_fix {f : Proc → Proc} (h : f (s.proc p) = s.proc p) :
    s.setProc p f = s := by
  simp [setProc, h]

theorem reparent_loop (status : ℤ) (hrun : (s.proc p).state = .running)
    (hkids : ∀ c, (s.proc c).parent ≠ some p) (n i : ℕ) (hn : i + n ≤ NPROC) :
    exec step (s.goto p (.exitReparent status i)) (List.replicate n (go p)) =
      some (s.goto p (.exitReparent status (i + n))) := by
  induction n generalizing i with
  | zero => rfl
  | succ n ih =>
    have hi : i < NPROC := by omega
    have hstep : (s.goto p (.exitReparent status i)).step (go p) = some (s.goto p (.exitReparent status (i + 1))) := by
      simp [State.step, go, hrun, State.advance, hi, hkids, goto_goto]
    rw [List.replicate_succ, exec_cons, hstep, bind_some, ih (i + 1) (by omega)]
    congr 3
    omega

theorem wakeup_loop (status : ℤ) (chan : Option Slot) (hrun : (s.proc p).state = .running)
    (hlock : ∀ c, s.lock c = none) (hawake : ∀ c, (s.proc c).state ≠ .sleeping) (n j : ℕ) (hn : j + n ≤ NPROC) :
    exec step (s.goto p (.exitWakeParent status chan j)) (List.replicate n (go p)) =
      some (s.goto p (.exitWakeParent status chan (j + n))) := by
  induction n generalizing j with
  | zero => rfl
  | succ n ih =>
    have hj : j < NPROC := by omega
    have hwake : (s.goto p (.exitWakeParent status chan j)).wakeupSlot p (chan.map .proc) ⟨j, hj⟩ =
        some (s.goto p (.exitWakeParent status chan j)) := by
      unfold wakeupSlot
      split_ifs with h1 h2
      · rfl
      · rw [setProc_of_fix]
        simp [Proc.wakeup, hawake]
      · exact absurd (hlock _) h2
    have hstep : (s.goto p (.exitWakeParent status chan j)).step (go p) =
        some (s.goto p (.exitWakeParent status chan (j + 1))) := by
      simp [State.step, go, hrun, State.advance, hj, hwake, goto_goto]
    rw [List.replicate_succ, exec_cons, hstep, bind_some, ih (j + 1) (by omega)]
    congr 3
    omega

/-- The child in slot 1 holds `wait_lock` and is about to look for children. -/
structure Leaving (s t : State) : Prop where
  init : t.proc 0 = s.proc 0
  pc : t.pc 0 = .user
  state : (t.proc 1).state = .running
  parent : (t.proc 1).parent = some 0
  id : (t.proc 1).id = s.born
  pid : (t.proc 1).pid = s.nextpid
  free : ∀ c, c ≠ 0 → c ≠ 1 → t.proc c = s.proc c
  lock : ∀ c, t.lock c = none
  born : t.born = s.born + 1
  nextpid : t.nextpid = int32 (s.nextpid + 1)
  trace : t.trace = s.trace ++ [.forked 0 s.born s.nextpid, .exited s.born 0]

theorem childLife_leaving (h : Rested s) :
    ∃ t, exec step s childLife = some (t.goto 1 (.exitReparent 0 0)) ∧ Leaving s t := by
  have h1 := h.free 1 (by decide)
  simp [childLife, go, exec_cons, State.step, h.pc, h.state, State.call, State.advance, h.lock, State.found,
    h.waitLock, h1, State.resume, initproc]
  refine ⟨_, rfl, ?_⟩
  constructor <;> simp +contextual [h.lock]

/-- The child is dead and its thread gone. -/
structure Left (s u : State) : Prop where
  init : u.proc 0 = s.proc 0
  pc : u.pc 0 = .user
  state : (u.proc 1).state = .zombie
  xstate : (u.proc 1).xstate = 0
  parent : (u.proc 1).parent = some 0
  id : (u.proc 1).id = s.born
  pid : (u.proc 1).pid = s.nextpid
  free : ∀ c, c ≠ 0 → c ≠ 1 → u.proc c = s.proc c
  lock : ∀ c, u.lock c = none
  waitLock : u.waitLock = none
  born : u.born = s.born + 1
  nextpid : u.nextpid = int32 (s.nextpid + 1)
  trace : u.trace = s.trace ++ [.forked 0 s.born s.nextpid, .exited s.born 0]

theorem childExit_left {t : State} (h : Rested s) (ht : Leaving s t) :
    ∃ u, exec step (t.goto 1 (.exitReparent 0 0)) childExit = some u ∧ Left s u := by
  have hkids : ∀ c, (t.proc c).parent ≠ some 1 := by
    intro c
    by_cases h0 : c = 0
    · rw [h0, ht.init, h.parent]
      simp
    · by_cases h1 : c = 1
      · rw [h1, ht.parent]
        decide
      · rw [ht.free c h0 h1, (h.free c h0).2]
        simp
  have hawake : ∀ c, (t.proc c).state ≠ .sleeping := by
    intro c
    by_cases h0 : c = 0
    · rw [h0, ht.init, h.state]
      simp
    · by_cases h1 : c = 1
      · rw [h1, ht.state]
        simp
      · rw [ht.free c h0 h1, (h.free c h0).1]
        simp
  rw [childExit, exec_append, exec_append, reparent_loop 0 ht.state hkids 64 0 le_rfl, bind_some, exec_cons]
  have hcall : (t.goto 1 (.exitReparent 0 (0 + 64))).step (go 1) = some (t.goto 1 (.exitWakeParent 0 (some 0) 0)) := by
    simp [State.step, go, ht.state, State.advance, ht.parent, goto_goto]
  rw [hcall, bind_some, wakeup_loop 0 (some 0) ht.state ht.lock hawake 64 0 le_rfl, bind_some]
  simp [go, exec_cons, State.step, State.advance, ht.state, ht.lock]
  constructor <;> simp +contextual [ht.init, ht.pc, ht.parent, ht.id, ht.pid, ht.free, ht.lock, ht.born, ht.nextpid,
    ht.trace]

theorem reapChild_rested {u : State} (h : Rested s) (hu : Left s u) :
    ∃ s', exec step u reapChild = some s' ∧ Rested s' ∧ s'.born = s.born + 1 ∧
      s'.nextpid = int32 (s.nextpid + 1) ∧
      s'.trace = s.trace ++ [.forked 0 s.born s.nextpid, .exited s.born 0,
        .reaped 0 s.born s.nextpid (some 0) (some 0)] := by
  have hrun : (u.proc 0).state = .running := by rw [hu.init, h.state]
  have hpar : (u.proc 0).parent = none := by rw [hu.init, h.parent]
  simp [go, reapChild, exec_cons, State.step, hu.pc, hrun, State.call, State.advance, hu.waitLock, hpar, hu.parent,
    hu.lock, hu.state, State.reap, hu.id, hu.pid, hu.xstate, hu.born, hu.nextpid, hu.trace]
  constructor
  · simp
  · simp [hrun]
  · simp [hpar]
  · intro c hc
    by_cases h1 : c = 1
    · simp [h1, freeproc]
    · simp [h1, hu.free c hc h1, h.free c hc]
  · simp [hu.lock]
  · simp

def round : List (Slot × Act) := childLife ++ childExit ++ reapChild

theorem round_rested (h : Rested s) :
    ∃ s', exec step s round = some s' ∧ Rested s' ∧ s'.born = s.born + 1 ∧ s'.nextpid = int32 (s.nextpid + 1) ∧
      s'.trace = s.trace ++ [.forked 0 s.born s.nextpid, .exited s.born 0,
        .reaped 0 s.born s.nextpid (some 0) (some 0)] := by
  obtain ⟨t, hexec, ht⟩ := childLife_leaving h
  obtain ⟨u, hexec', hu⟩ := childExit_left h ht
  obtain ⟨s', hexec'', hs'⟩ := reapChild_rested h hu
  refine ⟨s', ?_, hs'⟩
  rw [round, exec_append, exec_append, hexec, bind_some, hexec', bind_some, hexec'']

theorem rounds_rested (n : ℕ) (h : Rested s) (hpid : s.nextpid = pidOf s.born) :
    ∃ s' tr, exec step s (List.replicate n round).flatten = some s' ∧ Rested s' ∧ s'.born = s.born + n ∧
      s'.nextpid = pidOf s'.born ∧ s'.trace = s.trace ++ tr := by
  induction n generalizing s with
  | zero => exact ⟨s, [], rfl, h, rfl, hpid, by simp⟩
  | succ n ih =>
    obtain ⟨t, hexec, ht, hborn, hnext, htrace⟩ := round_rested h
    have htpid : t.nextpid = pidOf t.born := by rw [hnext, hpid, pidOf_succ, hborn]
    obtain ⟨s', tr, hexec', hs', hborn', hnext', htrace'⟩ := ih ht htpid
    refine ⟨s', _, ?_, hs', ?_, hnext', by rw [htrace', htrace, List.append_assoc]⟩
    · rw [List.replicate_succ, List.flatten_cons, exec_append, hexec, bind_some, hexec']
    · rw [hborn', hborn]
      omega

/-- Init has been chosen by the scheduler for the first time. -/
theorem dispatch_rested :
    ∃ s, init.step (0, .dispatch) = some s ∧ Rested s ∧ s.born = 1 ∧ s.nextpid = pidOf s.born ∧ s.trace = [] := by
  have hproc := init_proc
  have hpc := init_pc
  refine ⟨init.resume 0, ?_, ?_, rfl, by norm_num [State.resume, hpc, initproc, init, pidOf, int32], rfl⟩
  · simp [State.step, initproc, init]
  · constructor <;> simp +contextual [State.resume, hpc, hproc, initproc, Proc.free]
    · simp [init]
    · simp [init]

theorem round_valid : ∀ e ∈ round, e.2.Valid := by
  simp [round, childLife, childExit, reapChild, go, Act.Valid]

/-- One child: `reaped_once` applies, and `wait` has returned its pid. -/
theorem reaped_once_oneChild :
    ∃ s, run ((0, .dispatch) :: round) = some s ∧ .reaped 0 1 2 (some 0) (some 0) ∈ s.trace ∧
      Always ReapedOnce s.trace := by
  obtain ⟨s, hs, hrest, hborn, hnext, htrace⟩ := dispatch_rested
  obtain ⟨t, ht, _, hborn', _, htrace'⟩ := round_rested hrest
  have hrun : run ((0, .dispatch) :: round) = some t := by rw [run, exec_cons, hs, bind_some, ht]
  have hpid : s.nextpid = 2 := by rw [hnext, hborn]; norm_num [pidOf, int32]
  refine ⟨t, hrun, by simp [htrace', htrace, hborn, hpid], reaped_once _ t hrun ?_ (by rw [hborn', hborn]; norm_num)⟩
  intro e he
  rcases List.mem_cons.mp he with rfl | he
  · trivial
  · exact round_valid e he

/-- Init has reaped `n + 2` children, one after the other. -/
theorem last_reaped (n : ℕ) : ∃ es s mid, run es = some s ∧ (∀ e ∈ es, e.2.Valid) ∧
    s.trace = [.forked 0 1 2, .exited 1 0] ++ .reaped 0 1 2 (some 0) (some 0) :: mid ++
      [.reaped 0 (n + 2) (pidOf (n + 2)) (some 0) (some 0)] := by
  obtain ⟨s₀, hs₀, hrest₀, hborn₀, hnext₀, htrace₀⟩ := dispatch_rested
  obtain ⟨s₁, hs₁, hrest₁, hborn₁, hnext₁, htrace₁⟩ := round_rested hrest₀
  have hpid₀ : s₀.nextpid = 2 := by rw [hnext₀, hborn₀]; norm_num [pidOf, int32]
  have hpid₁ : s₁.nextpid = pidOf s₁.born := by rw [hnext₁, hnext₀, pidOf_succ, hborn₁]
  obtain ⟨s₂, tr, hs₂, hrest₂, hborn₂, hnext₂, htrace₂⟩ := rounds_rested n hrest₁ hpid₁
  obtain ⟨s₃, hs₃, _, _, _, htrace₃⟩ := round_rested hrest₂
  have hborn : s₂.born = n + 2 := by rw [hborn₂, hborn₁, hborn₀]; omega
  refine ⟨(0, .dispatch) :: (round ++ ((List.replicate n round).flatten ++ round)), s₃,
    tr ++ [.forked 0 (n + 2) (pidOf (n + 2)), .exited (n + 2) 0], ?_, ?_, ?_⟩
  · rw [run, exec_cons, hs₀, bind_some, exec_append, hs₁, bind_some, exec_append, hs₂, bind_some, hs₃]
  · intro e he
    simp only [List.mem_cons, List.mem_append, List.mem_flatten, List.mem_replicate] at he
    rcases he with rfl | he | ⟨l, ⟨_, rfl⟩, he⟩ | he
    · trivial
    all_goals exact round_valid e he
  · rw [htrace₃, htrace₂, htrace₁, htrace₀, hnext₂, hborn, hborn₀, hpid₀]
    simp

/-- After 2^32 - 3 children `wait` returns -1 for a child that it reaps, and after 2^32 the pid of the first child again. -/
theorem pid_reaped_twice :
    (∃ es s pre, run es = some s ∧ (∀ e ∈ es, e.2.Valid) ∧
      s.trace = pre ++ [.reaped 0 (2 ^ 32 - 2) (-1) (some 0) (some 0)] ∧ ¬ Always ReapedOnce s.trace) ∧
    ∃ es s pre mid, run es = some s ∧ (∀ e ∈ es, e.2.Valid) ∧
      s.trace = pre ++ .reaped 0 1 2 (some 0) (some 0) :: mid ++ [.reaped 0 (1 + 2 ^ 32) 2 (some 0) (some 0)] ∧
      ¬ Always ReapedOnce s.trace := by
  constructor
  · obtain ⟨es, s, mid, hrun, hvalid, htrace⟩ := last_reaped (2 ^ 32 - 4)
    have hpid : pidOf (2 ^ 32 - 4 + 2) = -1 := by norm_num [pidOf, int32]
    rw [hpid] at htrace
    refine ⟨es, s, _, hrun, hvalid, htrace, fun halways => ?_⟩
    exact (halways _ _ [] htrace).1 rfl
  · obtain ⟨es, s, mid, hrun, hvalid, htrace⟩ := last_reaped (2 ^ 32 - 1)
    have hpid : pidOf (2 ^ 32 - 1 + 2) = 2 := by norm_num [pidOf, int32]
    rw [hpid] at htrace
    refine ⟨es, s, _, mid, hrun, hvalid, htrace, fun halways => ?_⟩
    exact (halways _ _ [] htrace).2.2.2.2 0 1 (some 0) (some 0) (by simp)

end Xv6.Life
