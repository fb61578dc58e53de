import Xv6.Spec.Life

/-! What one step of a process can do. `Pc.info` says what a point of the code means for
the locks and for the loops the process is in; `Move` lists the steps, each with what it
changes, so that invariants are proved over its cases. -/

namespace Xv6.Life

open Function

/-- Which locks a thread holds, and what its process's state can be. -/
inductive Mode where
  | gone
  | dying
  | asleep
  | user
  | kernel
  /-- holds `wait_lock` -/
  | locked
  /-- holds its own `p->lock`, about to sleep -/
  | sleepLocked
  deriving DecidableEq

structure Info where
  mode : Mode
  /-- the slot that a `fork` is filling -/
  forking : Option Slot
  /-- the slots below this number hold no child of the process -/
  left : ℕ
  /-- the slots below this number are not asleep if they hold its parent -/
  woke : ℕ
  /-- the slots below this number hold no dead child of the process -/
  scanned : ℕ
  /-- `initproc` has got new children and is still to be woken -/
  pending : Bool
  /-- the status given to `exit` -/
  status : Option ℤ

def Pc.info : Pc → Info
  | .dead => ⟨.gone, none, 0, 0, 0, false, none⟩
  | .user => ⟨.user, none, 0, 0, 0, false, none⟩
  | .forkScan _ => ⟨.kernel, none, 0, 0, 0, false, none⟩
  | .forkLink np _ => ⟨.kernel, some np, 0, 0, 0, false, none⟩
  | .forkRun np _ => ⟨.kernel, some np, 0, 0, 0, false, none⟩
  | .exitStart st => ⟨.kernel, none, 0, 0, 0, false, some st⟩
  | .exitReparent st i => ⟨.locked, none, i, 0, 0, false, some st⟩
  | .exitWakeInit st i j => ⟨.locked, none, i + 1, 0, 0, decide (j ≤ initproc.val), some st⟩
  | .exitWakeParent st _ j => ⟨.locked, none, NPROC, j, 0, false, some st⟩
  | .exitZombie st => ⟨.locked, none, NPROC, NPROC, 0, false, some st⟩
  | .dying => ⟨.dying, none, 0, 0, 0, false, none⟩
  | .waitStart _ _ => ⟨.kernel, none, 0, 0, 0, false, none⟩
  | .waitScan _ _ i havekids => ⟨.locked, none, if havekids then 0 else i, 0, i, false, none⟩
  | .sleepLocked _ _ => ⟨.sleepLocked, none, 0, 0, 0, false, none⟩
  | .asleep _ _ => ⟨.asleep, none, 0, 0, 0, false, none⟩
  | .killScan _ _ => ⟨.kernel, none, 0, 0, 0, false, none⟩

namespace State

attribute [grind =] goto_proc goto_pc goto_lock goto_waitLock goto_trace goto_born goto_nextpid setProc_proc
  setProc_pc setProc_lock setProc_waitLock setProc_trace setProc_born setProc_nextpid alloc_proc alloc_pc alloc_lock
  alloc_waitLock alloc_trace alloc_born alloc_nextpid setLock_proc setLock_pc setLock_lock setLock_waitLock
  setLock_trace setLock_born setLock_nextpid setWaitLock_proc setWaitLock_pc setWaitLock_lock setWaitLock_waitLock
  setWaitLock_trace setWaitLock_born setWaitLock_nextpid record_proc record_pc record_lock record_waitLock
  record_trace record_born record_nextpid

end State

attribute [scoped simp, scoped grind =] update_apply

/-- A step that only moves the thread of `p` and may take `wait_lock`. The loop
counters of the new point are those of the old one, or count one more slot that was
looked at. -/
structure Local (s : State) (p : Slot) (pc : Pc) (w : Option Slot) : Prop where
  running : (s.proc p).state = .running
  mode : (s.pc p).info.mode = .user ∨ (s.pc p).info.mode = .kernel ∨ (s.pc p).info.mode = .locked
  mode' : pc.info.mode = .user ∨ pc.info.mode = .kernel ∨ pc.info.mode = .locked
  waitLock : (pc.info.mode = .locked ∧ (s.pc p).info.mode ≠ .locked ∧ s.waitLock = none ∧ w = some p) ∨
    ((pc.info.mode = .locked ↔ (s.pc p).info.mode = .locked) ∧ w = s.waitLock)
  forking : pc.info.forking = none
  left : ∀ c : Slot, c.val < pc.info.left → c.val < (s.pc p).info.left ∨ (s.proc c).parent ≠ some p
  woke : ∀ q : Slot, q.val < pc.info.woke → q.val < (s.pc p).info.woke ∨ q = p
  scanned : ∀ c : Slot, c.val < pc.info.scanned →
    c.val < (s.pc p).info.scanned ∨ (s.proc c).parent ≠ some p ∨ (s.proc c).state ≠ .zombie
  pending : (s.pc p).info.pending = true → pc.info.pending = true ∨ p = initproc
  status : pc.info.status = none ∨ pc.info.status = (s.pc p).info.status
  chan : ∀ status ch j, pc = .exitWakeParent status ch j → ∃ j', s.pc p = .exitWakeParent status ch j'

/-- `copyout` does not fail in this step. -/
def Act.Valid : Act → Prop
  | .go r => r.copyOk = true
  | _ => True

open State

/-- The steps of `p`. -/
inductive Move (valid : Prop) (s : State) (p : Slot) : State → Prop
  | goto {pc : Pc} {w : Option Slot} (h : Local s p pc w) : Move valid s p ((s.setWaitLock w).goto p pc)
  | found {i : ℕ} {np : Slot} (hrun : (s.proc p).state = .running) (hpc : s.pc p = .forkScan i)
      (hnp : (s.proc np).state = .unused) : Move valid s p ((s.alloc np).goto p (.forkLink np s.nextpid))
  | noMemory {i : ℕ} {np : Slot} (hrun : (s.proc p).state = .running) (hpc : s.pc p = .forkScan i)
      (hnp : (s.proc np).state = .unused) : Move valid s p (((s.alloc np).setProc np freeproc).goto p .user)
  | noCopy {i : ℕ} {np : Slot} (hrun : (s.proc p).state = .running) (hpc : s.pc p = .forkScan i)
      (hnp : (s.proc np).state = .unused) : Move valid s p ((s.alloc np).goto p .user)
  | link {np : Slot} {pid : ℤ} (hrun : (s.proc p).state = .running) (hpc : s.pc p = .forkLink np pid)
      (hw : s.waitLock = none) :
      Move valid s p ((s.setProc np fun pr => { pr with parent := some p }).goto p (.forkRun np pid))
  | start {np : Slot} {pid : ℤ} (hrun : (s.proc p).state = .running) (hpc : s.pc p = .forkRun np pid) :
      Move valid s p ((((s.setProc np fun pr => { pr with state := .runnable }).goto np .user).goto p .user).record
        (.forked p (s.proc np).id pid))
  | exitCall (status : ℤ) (hrun : (s.proc p).state = .running) (hpc : s.pc p = .user) (hp : p ≠ initproc) :
      Move valid s p ((s.record (.exited (s.proc p).id status)).goto p (.exitStart status))
  | adopt {status : ℤ} {c : Slot} (hrun : (s.proc p).state = .running) (hpc : s.pc p = .exitReparent status c)
      (hc : (s.proc c).parent = some p) :
      Move valid s p ((s.setProc c fun pr => { pr with parent := some initproc }).goto p
        (.exitWakeInit status c 0))
  | wakeInit {status : ℤ} {i : ℕ} {j : Slot} (hrun : (s.proc p).state = .running)
      (hpc : s.pc p = .exitWakeInit status i j) (hj : j ≠ p) (hlock : s.lock j = none) :
      Move valid s p ((s.setProc j (Proc.wakeup (some (.proc initproc)))).goto p (.exitWakeInit status i (j + 1)))
  | wakeParent {status : ℤ} {chan : Option Slot} {j : Slot} (hrun : (s.proc p).state = .running)
      (hpc : s.pc p = .exitWakeParent status chan j) (hj : j ≠ p) (hlock : s.lock j = none) :
      Move valid s p ((s.setProc j (Proc.wakeup (chan.map .proc))).goto p (.exitWakeParent status chan (j + 1)))
  | callParent {status : ℤ} {i : ℕ} (hrun : (s.proc p).state = .running) (hpc : s.pc p = .exitReparent status i)
      (hi : NPROC ≤ i) : Move valid s p (s.goto p (.exitWakeParent status (s.proc p).parent 0))
  | zombie {status : ℤ} (hrun : (s.proc p).state = .running) (hpc : s.pc p = .exitZombie status) :
      Move valid s p ((((s.setProc p fun pr => { pr with xstate := status, state := .zombie }).setLock p
        (some p)).setWaitLock none).goto p .dying)
  | buried (hpc : s.pc p = .dying) : Move valid s p ((s.setLock p none).goto p .dead)
  | reap {k : WaitKind} {addr havekids : Bool} {pp : Slot} (hrun : (s.proc p).state = .running)
      (hpc : s.pc p = .waitScan k addr pp havekids) (hparent : (s.proc pp).parent = some p)
      (hlock : s.lock pp = none) (hz : (s.proc pp).state = .zombie) :
      Move valid s p ((((s.record (.reaped p (s.proc pp).id (s.proc pp).pid
        (if addr then some (s.proc pp).xstate else none) (s.proc pp).parent)).setProc pp freeproc).setWaitLock
          none).goto p .user)
  | copyFailed {k : WaitKind} {addr havekids : Bool} {i : ℕ} (hv : ¬ valid) (hrun : (s.proc p).state = .running)
      (hpc : s.pc p = .waitScan k addr i havekids) :
      Move valid s p (((s.record (.copyFailed p)).setWaitLock none).goto p .user)
  | waitFailed {k : WaitKind} {addr havekids : Bool} {i : ℕ} (hrun : (s.proc p).state = .running)
      (hpc : s.pc p = .waitScan k addr i havekids) (hi : NPROC ≤ i)
      (h : havekids = false ∨ (s.proc p).killed = true) :
      Move valid s p (((s.record (.waitFailed p (s.hasChild p) (s.proc p).killed)).setWaitLock none).goto p .user)
  | doze {k : WaitKind} {addr : Bool} {i : ℕ} (hrun : (s.proc p).state = .running)
      (hpc : s.pc p = .waitScan k addr i true) (hi : NPROC ≤ i) :
      Move valid s p (((s.setLock p (some p)).setWaitLock none).goto p (.sleepLocked k addr))
  | sleep {k : WaitKind} {addr : Bool} (hrun : (s.proc p).state = .running) (hpc : s.pc p = .sleepLocked k addr) :
      Move valid s p (((s.setProc p fun pr => { pr with chan := some (.proc p), state := .sleeping }).setLock p
        none).goto p (.asleep k addr))
  | sleepOther (hrun : (s.proc p).state = .running) (hpc : s.pc p = .user) :
      Move valid s p (s.setProc p fun pr => { pr with chan := some .other, state := .sleeping })
  | setkilled (hrun : (s.proc p).state = .running) (hpc : s.pc p = .user) :
      Move valid s p (s.setProc p fun pr => { pr with killed := true })
  | kill {pid : ℤ} {i : ℕ} {q : Slot} (hrun : (s.proc p).state = .running) (hpc : s.pc p = .killScan pid i)
      (hlock : s.lock q = none) : Move valid s p ((s.setProc q Proc.kill).goto p .user)
  | preempt (hrun : (s.proc p).state = .running) (hpc : (s.pc p).preemptible = true) :
      Move valid s p (s.setProc p fun pr => { pr with state := .runnable })
  | resume (hrun : (s.proc p).state = .runnable) (hlock : s.lock p = none) (hpc : (s.pc p).info.mode ≠ .asleep) :
      Move valid s p (s.setProc p fun pr => { pr with state := .running, chan := none })
  | wokenUp {k : WaitKind} {addr : Bool} (hrun : (s.proc p).state = .runnable) (hlock : s.lock p = none)
      (hpc : s.pc p = .asleep k addr) :
      Move valid s p ((s.setProc p fun pr => { pr with state := .running, chan := none }).goto p
        (.waitStart k addr))
  | wakeOther (hlock : s.lock p = none) : Move valid s p (s.setProc p (Proc.wakeup (some .other)))

variable {valid : Prop} {s s' : State} {p : Slot}

/-- A move of the thread alone, between two points that hold no lock or both `wait_lock`. -/
theorem Move.stay {pc : Pc} (h : Local s p pc s.waitLock) :
    Move valid s p (s.goto p pc) := Move.goto h

theorem wakeupSlot_cases {t : State} {j : Slot} {chan : Option Chan} (h : s.wakeupSlot p chan j = some t) :
    (j = p ∧ t = s) ∨ (j ≠ p ∧ s.lock j = none ∧ t = s.setProc j (Proc.wakeup chan)) := by
  unfold wakeupSlot at h
  split_ifs at h with hj hlock
  · cases h
    exact .inl ⟨hj, rfl⟩
  · cases h
    exact .inr ⟨hj, hlock, rfl⟩

theorem call_move {c : Syscall} (hrun : (s.proc p).state = .running)
    (hpc : s.pc p = .user) (h : s.call p c = some s') : Move valid s p s' := by
  have hlocal : ∀ pc : Pc, pc.info = ⟨.kernel, none, 0, 0, 0, false, none⟩ → Local s p pc s.waitLock := by
    intro pc hinfo
    have hne : ∀ status ch j, pc ≠ .exitWakeParent status ch j := by
      rintro status ch j rfl
      cases hinfo
    have huser : (s.pc p).info = ⟨.user, none, 0, 0, 0, false, none⟩ := by rw [hpc]; rfl
    constructor <;> simp [hinfo, huser, hrun, hne]
  cases c with
  | fork | wait k addr | kill pid =>
    cases h
    exact .stay (hlocal _ rfl)
  | exit status =>
    simp only [State.call] at h
    split_ifs at h with hp
    cases h
    exact .exitCall status hrun hpc hp
  | sleep =>
    simp only [State.call] at h
    split_ifs at h
    cases h
    exact .sleepOther hrun hpc
  | setkilled =>
    simp only [State.call] at h
    split_ifs at h
    cases h
    exact .setkilled hrun hpc

/-- One more slot of the scan of `wait`, which holds no dead child. -/
theorem scan_local {k : WaitKind} {addr havekids havekids' : Bool} {i : ℕ}
    (hrun : (s.proc p).state = .running) (hpc : s.pc p = .waitScan k addr i havekids)
    (hkids : havekids' = true ∨ havekids' = havekids ∧ ∀ c : Slot, c.val = i → (s.proc c).parent ≠ some p)
    (hslot : ∀ c : Slot, c.val = i → (s.proc c).parent ≠ some p ∨ (s.proc c).state ≠ .zombie) :
    Local s p (.waitScan k addr (i + 1) havekids') s.waitLock := by
  refine ⟨hrun, by simp [hpc, Pc.info], by simp [Pc.info], by simp [hpc, Pc.info], rfl, ?_, by simp [Pc.info], ?_,
    by simp [hpc, Pc.info], by simp [Pc.info], by simp⟩
  · intro c hlt
    rw [hpc]
    rcases hkids with rfl | ⟨rfl, hkids⟩
    · simp [Pc.info] at hlt
    · by_cases heq : c.val = i
      · exact .inr (hkids c heq)
      · left
        cases havekids' <;> simp only [Pc.info] at hlt ⊢ <;> simp at hlt ⊢
        omega
  · intro c hlt
    rw [hpc]
    by_cases heq : c.val = i
    · exact .inr (hslot c heq)
    · left
      simp only [Pc.info] at hlt ⊢
      omega

theorem advance_move {r : Choice} (hrun : (s.proc p).state = .running)
    (h : s.advance p r = some s') : Move (r.copyOk = true) s p s' := by
  unfold State.advance at h
  cases hpc : s.pc p with
  | forkScan i =>
    simp only [hpc] at h
    split_ifs at h with hi hlock hnp
    · cases h
      cases r.alloc with
      | ok => exact .found hrun hpc hnp
      | noMemory => exact .noMemory hrun hpc hnp
      | noCopy => exact .noCopy hrun hpc hnp
    all_goals
      cases h
      exact .stay (by constructor <;> simp [hpc, hrun, Pc.info])
  | forkLink np pid =>
    simp only [hpc] at h
    split_ifs at h with hw
    cases h
    exact .link hrun hpc hw
  | forkRun np pid =>
    simp only [hpc] at h
    split_ifs at h
    cases h
    exact .start hrun hpc
  | exitStart status | waitStart k addr =>
    simp only [hpc] at h
    split_ifs at h with hw
    cases h
    exact .goto (by constructor <;> simp [hpc, hrun, hw, Pc.info])
  | exitReparent status i =>
    simp only [hpc] at h
    split_ifs at h with hi hc
    · cases h
      exact .adopt hrun (c := ⟨i, hi⟩) hpc hc
    · cases h
      refine .stay ⟨hrun, by simp [hpc, Pc.info], by simp [Pc.info], by simp [hpc, Pc.info], rfl, ?_,
        by simp [Pc.info], by simp [Pc.info], by simp [hpc, Pc.info], by simp [hpc, Pc.info], by simp⟩
      intro c hlt
      rw [hpc]
      by_cases heq : c.val = i
      · right
        rwa [show c = ⟨i, hi⟩ from Fin.ext heq]
      · left
        simp only [Pc.info] at hlt ⊢
        omega
    · cases h
      exact .callParent hrun hpc (by omega)
  | exitWakeInit status i j =>
    simp only [hpc] at h
    split_ifs at h with hj
    · obtain ⟨t, ht, rfl⟩ := Option.map_eq_some_iff.mp h
      rcases wakeupSlot_cases ht with ⟨hjp, rfl⟩ | ⟨hjp, hlock, rfl⟩
      · have hpend : j ≤ initproc.val → j < initproc.val ∨ p = initproc := by
          intro hle
          rw [← hjp, Fin.ext_iff]
          simp only
          omega
        exact .stay (by constructor <;> simp +contextual [hpc, hrun, Pc.info, hpend])
      · exact .wakeInit hrun (j := ⟨j, hj⟩) hpc hjp hlock
    · cases h
      have hlate : ¬ j ≤ initproc.val := by simp only [initproc]; omega
      exact .stay (by constructor <;> simp +contextual [hpc, hrun, hlate, Pc.info])
  | exitWakeParent status chan j =>
    simp only [hpc] at h
    split_ifs at h with hj
    · obtain ⟨t, ht, rfl⟩ := Option.map_eq_some_iff.mp h
      rcases wakeupSlot_cases ht with ⟨hjp, rfl⟩ | ⟨hjp, hlock, rfl⟩
      · have hself : ∀ q : Slot, q.val ≤ j → q.val < j ∨ q = p := by
          intro q hq
          rw [← hjp, Fin.ext_iff]
          simp only
          omega
        exact .stay (by constructor <;> simp +contextual [hpc, hrun, Pc.info, hself])
      · exact .wakeParent hrun (j := ⟨j, hj⟩) hpc hjp hlock
    · cases h
      have hall : ∀ q : Slot, q.val < j := fun q => by omega
      exact .stay (by constructor <;> simp [hpc, hrun, hall, Pc.info])
  | exitZombie status =>
    simp only [hpc] at h
    split_ifs at h
    cases h
    exact .zombie hrun hpc
  | waitScan k addr i havekids =>
    simp only [hpc] at h
    split_ifs at h with hi hparent hlock hz hlock hk
    · cases h
      by_cases hcopy : addr = true ∧ r.copyOk = false
      · rw [State.reap, if_pos hcopy]
        exact .copyFailed (by simp [hcopy.2]) hrun hpc
      · rw [State.reap, if_neg hcopy]
        exact @Move.reap _ _ _ _ _ _ ⟨i, hi⟩ hrun hpc hparent hlock hz
    · cases h
      exact .stay (scan_local hrun hpc (.inl rfl) fun c hc => .inr (by rwa [show c = ⟨i, hi⟩ from Fin.ext hc]))
    · cases h
      have hskip : ∀ c : Slot, c.val = i → (s.proc c).parent ≠ some p := fun c hc => by
        rwa [show c = ⟨i, hi⟩ from Fin.ext hc]
      exact .stay (scan_local hrun hpc (.inr ⟨rfl, hskip⟩) fun c hc => .inl (hskip c hc))
    · cases h
      exact .waitFailed hrun hpc (by omega) hk
    · cases h
      simp only [not_or, Bool.not_eq_false] at hk
      obtain ⟨rfl, _⟩ := hk
      exact .doze hrun hpc (by omega)
  | sleepLocked k addr =>
    simp only [hpc] at h
    cases h
    exact .sleep hrun hpc
  | killScan pid i =>
    simp only [hpc] at h
    split_ifs at h with hi hlock hpid
    · cases h
      exact .kill hrun hpc hlock
    all_goals
      cases h
      exact .stay (by constructor <;> simp [hpc, hrun, Pc.info])
  | _ => simp [hpc] at h

theorem step_move {e : Slot × Act} (h : s.step e = some s') : Move e.2.Valid s e.1 s' := by
  obtain ⟨p, act⟩ := e
  cases act with
  | call c =>
    simp only [State.step] at h
    split_ifs at h with hp
    exact call_move hp.1 hp.2 h
  | go r =>
    simp only [State.step] at h
    split_ifs at h with hp
    exact advance_move hp h
  | swtch =>
    simp only [State.step] at h
    split_ifs at h with hp
    cases h
    exact .buried hp
  | preempt =>
    simp only [State.step] at h
    split_ifs at h with hp
    cases h
    exact .preempt hp.1 hp.2.1
  | dispatch =>
    simp only [State.step] at h
    split_ifs at h with hp
    cases h
    unfold State.resume
    cases hpc : s.pc p with
    | asleep k addr => exact .wokenUp hp.1 hp.2 hpc
    | _ => exact .resume hp.1 hp.2 (by simp [hpc, Pc.info])
  | wakeOther =>
    simp only [State.step] at h
    split_ifs at h with hp
    cases h
    exact .wakeOther hp

end Xv6.Life
