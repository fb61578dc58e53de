import Xv6.Sanity.LifeSteps

/-! No lost wakeup between `exit` and `wait`. Three invariants carry it: who holds which
lock and which states go with which points of the code; every parent is alive; and while
`wait_lock` is free, nobody who is asleep in `wait`, or about to be, has a dead child. -/

namespace Xv6.Life

open State Function

/-- What the state and channel of a process are while its thread is in a given mode. -/
def Mode.Fits (p : Slot) (pr : Proc) : Mode → Prop
  | .gone => pr.state = .unused ∨ pr.state = .used ∨ pr.state = .zombie
  | .dying => pr.state = .zombie
  | .asleep => (pr.state = .sleeping ∨ pr.state = .runnable) ∧ pr.chan = some (.proc p)
  | .user => pr.state = .running ∨ pr.state = .runnable ∨ (pr.state = .sleeping ∧ pr.chan = some .other)
  | .kernel => pr.state = .running ∨ pr.state = .runnable
  | .locked => pr.state = .running
  | .sleepLocked => pr.state = .running

variable {m : Mode} {p : Slot} {pr pr' : Proc} {s : State}

theorem Mode.Fits.congr (h : m.Fits p pr) (hstate : pr'.state = pr.state)
    (hchan : pr'.chan = pr.chan) : m.Fits p pr' := by
  cases m <;> simpa only [Mode.Fits, hstate, hchan] using h

/-- Waking a process fits wherever its thread is. -/
theorem Mode.Fits.wake (h : m.Fits p pr)
    (hstate : pr'.state = pr.state ∨ pr.state = .sleeping ∧ pr'.state = .runnable) (hchan : pr'.chan = pr.chan) :
    m.Fits p pr' := by
  rcases hstate with hstate | ⟨hs, hr⟩
  · exact h.congr hstate hchan
  · cases m <;> simp_all [Mode.Fits]

theorem Proc.wakeup_state (chan : Option Chan) (pr : Proc) :
    (pr.wakeup chan).state = pr.state ∨ pr.state = .sleeping ∧ (pr.wakeup chan).state = .runnable := by
  unfold Proc.wakeup
  split_ifs with h
  · exact .inr ⟨h.1, rfl⟩
  · exact .inl rfl

theorem Proc.wakeup_chan (chan : Option Chan) (pr : Proc) : (pr.wakeup chan).chan = pr.chan := by
  unfold Proc.wakeup
  split_ifs <;> rfl

theorem Proc.kill_state (pr : Proc) :
    pr.kill.state = pr.state ∨ pr.state = .sleeping ∧ pr.kill.state = .runnable := by
  unfold Proc.kill
  by_cases h : pr.state = .sleeping
  · exact .inr ⟨h, by simp [h]⟩
  · exact .inl (by simp [h])

/-- Who holds which lock, and which states go with which points of the code. -/
structure Threads (s : State) : Prop where
  waitLock : ∀ p, s.waitLock = some p ↔ (s.pc p).info.mode = .locked
  lock : ∀ q, s.lock q = none ↔ (s.pc q).info.mode ≠ .dying ∧ (s.pc q).info.mode ≠ .sleepLocked
  fits : ∀ p, (s.pc p).info.mode.Fits p (s.proc p)
  forking : ∀ p np, (s.pc p).info.forking = some np → (s.proc np).state = .used
  once : ∀ p q np, (s.pc p).info.forking = some np → (s.pc q).info.forking = some np → p = q

section

variable {s s' : State} {p q : Slot} {v : Prop}

section

variable (h : Threads s)

include h

theorem Threads.gone_of_used (hq : (s.proc q).state = .used) : (s.pc q).info.mode = .gone := by
  have hf := h.fits q
  cases hm : (s.pc q).info.mode <;> simp [hm, Mode.Fits, hq] at hf
  rfl

theorem Threads.gone_of_unused (hq : (s.proc q).state = .unused) :
    (s.pc q).info.mode = .gone := by
  have hf := h.fits q
  cases hm : (s.pc q).info.mode <;> simp [hm, Mode.Fits, hq] at hf
  rfl

theorem Threads.gone_of_zombie (hq : (s.proc q).state = .zombie) (hlock : s.lock q = none) :
    (s.pc q).info.mode = .gone := by
  have hf := h.fits q
  have hl := (h.lock q).mp hlock
  cases hm : (s.pc q).info.mode <;> simp [hm, Mode.Fits, hq] at hf hl
  rfl

theorem Threads.waitLock_move (m : Move v s p s') (q : Slot) :
    s'.waitLock = some q ↔ (s'.pc q).info.mode = .locked := by
  have hw := h.waitLock
  cases m with
  | goto hl => grind [hl.waitLock]
  | @start np pid hrun hpc =>
    have := h.gone_of_used (h.forking p np (by rw [hpc]; rfl))
    grind [Pc.info]
  | _ => grind [Pc.info]

theorem Threads.lock_move (m : Move v s p s') (q : Slot) :
    s'.lock q = none ↔ (s'.pc q).info.mode ≠ .dying ∧ (s'.pc q).info.mode ≠ .sleepLocked := by
  have hl := h.lock
  cases m with
  | goto hl => grind [hl.mode, hl.mode']
  | @start np pid hrun hpc =>
    have := h.gone_of_used (h.forking p np (by rw [hpc]; rfl))
    grind [Pc.info]
  | _ => grind [Pc.info]

theorem Threads.forking_move (m : Move v s p s') (q np : Slot)
    (hq : (s'.pc q).info.forking = some np) : (s'.proc np).state = .used := by
  have hf := h.forking
  cases m with
  | goto hl => grind [hl.forking]
  | @start np' pid hrun hpc =>
    have ho := h.once
    have := h.gone_of_used (h.forking p np' (by rw [hpc]; rfl))
    grind [Pc.info]
  | _ => grind [Pc.info, freeproc, Proc.kill, Proc.wakeup]

theorem Threads.once_move (m : Move v s p s') (q r np : Slot)
    (hq : (s'.pc q).info.forking = some np) (hr : (s'.pc r).info.forking = some np) : q = r := by
  have ho := h.once
  cases m with
  | goto hl => grind [hl.forking]
  | found hrun hpc hnp => grind [Pc.info, h.forking]
  | _ => grind [Pc.info]

end

/-- A running process fits at any point of the code that is not asleep. -/
theorem fits_running {m : Mode} {pr : Proc} (hm : m = .user ∨ m = .kernel ∨ m = .locked)
    (hrun : pr.state = .running) : m.Fits p pr := by
  rcases hm with rfl | rfl | rfl <;> simp [Mode.Fits, hrun]

variable {r : Slot} {f : Proc → Proc} {pc : Pc}

/-- The table changes at `r` and the thread of `p`, which runs, moves. -/
theorem Threads.fits_set (h : Threads s) (hr : r ≠ p → (s.pc r).info.mode.Fits r (f (s.proc r)))
    (hm : pc.info.mode = .user ∨ pc.info.mode = .kernel ∨ pc.info.mode = .locked)
    (hrun : (s.proc p).state = .running) (hf : r = p → (f (s.proc r)).state = .running) (q : Slot) :
    (((s.setProc r f).goto p pc).pc q).info.mode.Fits q (((s.setProc r f).goto p pc).proc q) := by
  by_cases hqp : q = p
  · subst hqp
    simp only [goto_pc, update_self, goto_proc, setProc_proc, update_apply]
    split_ifs with hqr
    · exact fits_running hm (hqr ▸ hf hqr.symm)
    · exact fits_running hm hrun
  · by_cases hqr : q = r
    · subst hqr
      simpa [hqp] using hr hqp
    · simpa [hqp, hqr] using h.fits q

theorem Threads.fits_goto (h : Threads s)
    (hm : pc.info.mode = .user ∨ pc.info.mode = .kernel ∨ pc.info.mode = .locked)
    (hrun : (s.proc p).state = .running) (q : Slot) :
    ((s.goto p pc).pc q).info.mode.Fits q ((s.goto p pc).proc q) := by
  by_cases hqp : q = p
  · subst hqp
    simpa using fits_running hm hrun
  · simpa [hqp] using h.fits q

theorem Threads.fits_proc (h : Threads s) (hr : (s.pc r).info.mode.Fits r (f (s.proc r))) (q : Slot) :
    ((s.setProc r f).pc q).info.mode.Fits q ((s.setProc r f).proc q) := by
  by_cases hqr : q = r
  · subst hqr
    simpa using hr
  · simpa [hqr] using h.fits q

theorem Threads.fits_move (h : Threads s) (m : Move v s p s') (q : Slot) :
    (s'.pc q).info.mode.Fits q (s'.proc q) := by
  have hf := h.fits
  cases m with
  | goto hl => exact h.fits_goto hl.mode' hl.running q
  | found hrun hpc hnp | noCopy hrun hpc hnp => grind [Pc.info, Mode.Fits, h.gone_of_unused hnp]
  | noMemory hrun hpc hnp => grind [Pc.info, Mode.Fits, freeproc, h.gone_of_unused hnp]
  | link hrun hpc hw =>
    exact h.fits_set (fun _ => (hf _).congr rfl rfl) (.inr (.inl rfl)) hrun (fun hr => hr ▸ hrun) q
  | @start np pid hrun hpc =>
    have := h.gone_of_used (h.forking p np (by rw [hpc]; rfl))
    grind [Pc.info, Mode.Fits]
  | adopt hrun hpc hc =>
    exact h.fits_set (fun _ => (hf _).congr rfl rfl) (.inr (.inr rfl)) hrun (fun hr => hr ▸ hrun) q
  | wakeInit hrun hpc hj hlock | wakeParent hrun hpc hj hlock =>
    exact h.fits_set (fun _ => (hf _).wake (Proc.wakeup_state _ _) (Proc.wakeup_chan _ _)) (.inr (.inr rfl)) hrun
      (fun hr => absurd hr hj) q
  | reap hrun hpc hparent hlock hz => grind [Pc.info, Mode.Fits, freeproc, h.gone_of_zombie hz hlock]
  | kill hrun hpc hlock =>
    refine h.fits_set (fun _ => (hf _).wake (Proc.kill_state _) rfl) (.inl rfl) hrun (fun hr => ?_) q
    subst hr
    simp [Proc.kill, hrun]
  | preempt hrun hpc =>
    refine h.fits_proc ?_ q
    cases hp : s.pc p <;> simp [hp, Pc.preemptible] at hpc <;> simp [Pc.info, Mode.Fits]
  | setkilled hrun hpc => exact h.fits_proc ((hf _).congr rfl rfl) q
  | resume hrun hlock hpc =>
    have hp := hf p
    refine h.fits_proc ?_ q
    cases hm : (s.pc p).info.mode <;> simp_all [Mode.Fits]
  | wakeOther hlock => exact h.fits_proc ((hf _).wake (Proc.wakeup_state _ _) (Proc.wakeup_chan _ _)) q
  | _ => grind [Pc.info, Mode.Fits]

theorem Threads.move (h : Threads s) (m : Move v s p s') : Threads s' :=
  ⟨h.waitLock_move m, h.lock_move m, h.fits_move m, h.forking_move m, h.once_move m⟩

/-- Only the holder of `wait_lock` is in the middle of a loop over the table. -/
theorem Pc.info_of_not_locked (h : pc.info.mode ≠ .locked) :
    pc.info.left = 0 ∧ pc.info.woke = 0 ∧ pc.info.scanned = 0 ∧ pc.info.pending = false := by
  cases pc <;> simp_all [Pc.info]

theorem Pc.status_of_pending (h : pc.info.pending = true) : pc.info.status ≠ none := by
  cases pc <;> simp_all [Pc.info]

theorem Threads.locked_unique (h : Threads s) (hp : (s.pc p).info.mode = .locked)
    (hq : (s.pc q).info.mode = .locked) : p = q := by
  have hp' := (h.waitLock p).mpr hp
  have hq' := (h.waitLock q).mpr hq
  rw [hp'] at hq'
  exact Option.some.inj hq'

/-- Every parent is alive. -/
structure Family (s : State) : Prop where
  alive : ∀ c p, (s.proc c).parent = some p → (s.pc p).info.mode ≠ .gone ∧ (s.pc p).info.mode ≠ .dying
  free : ∀ c, (s.proc c).state = .unused → (s.proc c).parent = none
  left : ∀ p c : Slot, c.val < (s.pc p).info.left → (s.proc c).parent ≠ some p
  initAlive : (s.pc initproc).info.mode ≠ .gone ∧ (s.pc initproc).info.mode ≠ .dying
  initStays : (s.pc initproc).info.status = none

theorem Family.initStays_move (h : Family s) (m : Move v s p s') : (s'.pc initproc).info.status = none := by
  have hi := h.initStays
  cases m with
  | goto hl => grind [hl.status]
  | _ => grind [Pc.info]

/-- Only `exit` ends a thread. -/
theorem alive_move (m : Move v s p s') (hq : (s.pc q).info.mode ≠ .gone ∧ (s.pc q).info.mode ≠ .dying)
    (hz : ∀ status, q = p → s.pc p ≠ .exitZombie status) :
    (s'.pc q).info.mode ≠ .gone ∧ (s'.pc q).info.mode ≠ .dying := by
  cases m with
  | goto hl => grind [hl.mode']
  | _ => grind [Pc.info]

theorem Family.free_move (h : Family s) (ht : Threads s) (m : Move v s p s') (c : Slot)
    (hc : (s'.proc c).state = .unused) : (s'.proc c).parent = none := by
  have hf := h.free
  cases m with
  | @link np pid hrun hpc hw =>
    have := ht.forking p np (by rw [hpc]; rfl)
    grind
  | _ => grind [freeproc, Proc.wakeup, Proc.kill]

/-- While a process that is not `initproc` is in `exit`, `initproc` is in no loop over the
table. -/
theorem Family.initFree (h : Family s) (ht : Threads s) (hp : (s.pc p).info.mode = .locked)
    (hstatus : (s.pc p).info.status ≠ none) : initproc ≠ p ∧ (s.pc initproc).info.mode ≠ .locked := by
  have hne : initproc ≠ p := by
    rintro rfl
    exact hstatus h.initStays
  exact ⟨hne, fun hi => hne (ht.locked_unique hi hp)⟩

theorem Family.left_move (h : Family s) (ht : Threads s) (m : Move v s p s') (q c : Slot)
    (hc : c.val < (s'.pc q).info.left) : (s'.proc c).parent ≠ some q := by
  have hl := h.left
  cases m with
  | goto hm => grind [hm.left]
  | @adopt status c' hrun hpc hparent =>
    obtain ⟨hne, hinit⟩ := h.initFree ht (p := p) (by rw [hpc]; rfl) (by simp [hpc, Pc.info])
    have := (Pc.info_of_not_locked hinit).1
    grind [Pc.info]
  | _ => grind [Pc.info, freeproc, Proc.wakeup, Proc.kill]

/-- Every parent after a step was one before, or is the process that forks, or `initproc`. -/
theorem parent_move (m : Move v s p s') (c : Slot) (hc : (s'.proc c).parent = some q) :
    (s.proc c).parent = some q ∨ (q = p ∧ ∃ pid, s.pc p = .forkLink c pid) ∨
      (q = initproc ∧ ∃ status, s.pc p = .exitReparent status c ∧ s'.pc p = .exitWakeInit status c 0) := by
  cases m <;> grind [freeproc, Proc.wakeup, Proc.kill]

theorem Family.move (h : Family s) (ht : Threads s) (m : Move v s p s') : Family s' := by
  have hinit : (s'.pc initproc).info.mode ≠ .gone ∧ (s'.pc initproc).info.mode ≠ .dying := by
    refine alive_move m h.initAlive fun status hp hpc => ?_
    have := h.initStays
    rw [hp, hpc] at this
    cases this
  refine ⟨fun c q hc => ?_, h.free_move ht m, h.left_move ht m, hinit, h.initStays_move m⟩
  rcases parent_move m c hc with hold | ⟨rfl, pid, hpc⟩ | ⟨rfl, _⟩
  · refine alive_move m (h.alive c q hold) ?_
    rintro status rfl hpc
    -- at its end `exit` has left all children
    exact h.left q c (by rw [hpc]; exact c.isLt) hold
  · exact alive_move m (by simp [hpc, Pc.info]) fun status _ => by simp [hpc]
  · exact hinit

/-- In `sleep(p, &wait_lock)`: asleep, or with `p->lock` held and about to be. -/
def Sleepy (s : State) (p : Slot) : Prop :=
  (s.proc p).state = .sleeping ∧ (s.pc p).info.mode = .asleep ∨ (s.pc p).info.mode = .sleepLocked

structure Wakeups (s : State) : Prop where
  chan : ∀ p status chan j, s.pc p = .exitWakeParent status chan j → chan = (s.proc p).parent
  woken : ∀ p q : Slot, q.val < (s.pc p).info.woke → (s.proc p).parent = some q → ¬ Sleepy s q
  scanned : ∀ p c : Slot, c.val < (s.pc p).info.scanned → (s.proc c).parent = some p →
    (s.proc c).state ≠ .zombie
  sleepy : ∀ c p, (s.proc c).parent = some p → (s.proc c).state = .zombie → Sleepy s p →
    p = initproc ∧ ∃ r, (s.pc r).info.pending = true

/-- A process falls asleep in `wait` only after a scan with `wait_lock` held. -/
theorem sleepy_move (m : Move v s p s') (hq : Sleepy s' q) :
    Sleepy s q ∨ (q = p ∧ ∃ k addr i, s.pc p = .waitScan k addr i true ∧ NPROC ≤ i) := by
  cases m with
  | goto hl => grind [Sleepy, hl.mode']
  | _ => grind [Sleepy, Pc.info, freeproc, Proc.wakeup, Proc.kill]

/-- A process dies only at the end of its `exit`. -/
theorem zombie_move (m : Move v s p s') (hq : (s'.proc q).state = .zombie) :
    (s.proc q).state = .zombie ∨ (q = p ∧ ∃ status, s.pc p = .exitZombie status) := by
  cases m <;> grind [freeproc, Proc.wakeup, Proc.kill]

/-- The thread of another process moves only when it starts. -/
theorem Threads.pc_move (h : Threads s) (m : Move v s p s') (hq : q ≠ p) :
    s'.pc q = s.pc q ∨ ((s.pc q).info.mode = .gone ∧ s'.pc q = .user) := by
  cases m with
  | @start np pid hrun hpc =>
    have := h.gone_of_used (h.forking p np (by rw [hpc]; rfl))
    grind
  | _ => grind

/-- Threads in a loop over the table keep still while another process moves. -/
theorem Threads.locked_still (h : Threads s) (m : Move v s p s') (hq : q ≠ p)
    (hl : (s'.pc q).info.mode = .locked) : s'.pc q = s.pc q ∧ (s.pc p).info.mode ≠ .locked := by
  have hpc : s'.pc q = s.pc q := by
    rcases h.pc_move m hq with hpc | ⟨_, hpc⟩
    · exact hpc
    · rw [hpc] at hl
      cases hl
  rw [hpc] at hl
  exact ⟨hpc, fun hp => hq (h.locked_unique hl hp)⟩

theorem Wakeups.chan_move (h : Wakeups s) (ht : Threads s) (m : Move v s p s') (q : Slot) (status : ℤ)
    (chan : Option Slot) (j : ℕ) (hq : s'.pc q = .exitWakeParent status chan j) :
    chan = (s'.proc q).parent := by
  have hrun : (s'.proc q).state = .running := by
    have := ht.fits_move m q
    rwa [hq] at this
  have hc := h.chan
  cases m with
  | goto hl =>
    by_cases hqp : q = p
    · subst hqp
      obtain ⟨j', hold⟩ := hl.chan status chan j (by simpa using hq)
      exact hc q status chan j' hold
    · exact hc q status chan j (by simpa [hqp] using hq)
  | @link np pid _ hpc hw =>
    have := ht.forking p np (by rw [hpc]; rfl)
    grind
  | adopt _ hpc hparent =>
    have hu : (s.pc q).info.mode = .locked → q = p := fun hl => ht.locked_unique hl (by rw [hpc]; rfl)
    grind [Pc.info]
  | _ => grind [freeproc, Proc.wakeup, Proc.kill]

/-- `wakeup` on a process that is asleep in `wait` wakes it: its lock is free, so it is
not just about to sleep. -/
theorem Threads.not_sleepy_wakeup (h : Threads s) {j : Slot} (hlock : s.lock j = none) {t : State}
    (hproc : t.proc j = Proc.wakeup (some (.proc j)) (s.proc j)) (hpc : t.pc j = s.pc j) : ¬ Sleepy t j := by
  have hf := h.fits j
  have hl := (h.lock j).mp hlock
  rintro (⟨hs, hm⟩ | hm)
  · rw [hpc] at hm
    rw [hm] at hf
    rw [hproc, Proc.wakeup] at hs
    split_ifs at hs with hcond
    exact hcond ⟨hs, hf.2⟩
  · rw [hpc] at hm
    exact hl.2 hm

/-- The parent of a thread in a loop over the table stays, whoever else moves. -/
theorem Threads.parent_still (h : Threads s) (m : Move v s p s') (hr : r ≠ p)
    (hl : (s'.pc r).info.mode = .locked) (hq : (s'.proc r).parent = some q) : (s.proc r).parent = some q := by
  obtain ⟨hpc, hfree⟩ := h.locked_still m hr hl
  rcases parent_move m r hq with hold | ⟨_, pid, hp⟩ | ⟨_, status, hp, _⟩
  · exact hold
  · have hgone := h.gone_of_used (h.forking p r (by rw [hp]; rfl))
    rw [hpc, hgone] at hl
    cases hl
  · exact absurd (by rw [hp]; rfl) hfree

theorem Wakeups.woken_move (h : Wakeups s) (ht : Threads s) (m : Move v s p s') (r q : Slot)
    (hlt : q.val < (s'.pc r).info.woke) (hr : (s'.proc r).parent = some q) : ¬ Sleepy s' q := by
  intro hsl
  have hlock : (s'.pc r).info.mode = .locked := by
    by_contra hl
    rw [(Pc.info_of_not_locked hl).2.1] at hlt
    omega
  by_cases hrp : r = p
  · subst hrp
    cases m with
    | goto hl =>
      simp only [goto_pc, update_self] at hlt hlock
      rcases hl.woke q hlt with hlt | rfl
      · rcases sleepy_move (@Move.goto v _ _ _ _ hl) hsl with hold | ⟨rfl, k, addr, i, hpc, _⟩
        · exact h.woken r q hlt hr hold
        · simp [hpc, Pc.info] at hlt
      · rcases hsl with ⟨_, hm⟩ | hm <;> simp [hlock] at hm
    | @wakeParent status chan j hrun hpc hj hjlock =>
      have hchan := h.chan r status chan j hpc
      simp only [goto_proc, setProc_proc, update_of_ne (Ne.symm hj)] at hr
      by_cases hqj : q = j
      · subst hqj
        refine ht.not_sleepy_wakeup hjlock ?_ ?_ hsl
        · simp [hchan, hr]
        · simp [hj]
      · rw [goto_pc, update_self] at hlt
        have hqlt : q.val < j.val := lt_of_le_of_ne (Nat.lt_succ_iff.mp hlt) fun hv => hqj (Fin.ext hv)
        rcases sleepy_move (@Move.wakeParent v _ _ _ _ _ hrun hpc hj hjlock) hsl with hold | ⟨_, k, addr, i, hp, _⟩
        · exact h.woken r q (by rw [hpc]; exact hqlt) hr hold
        · simp [hpc] at hp
    | sleepOther hrun hpc | setkilled hrun hpc => simp [hpc, Pc.info] at hlt
    | preempt hrun hpc => cases hp : s.pc r <;> simp [hp, Pc.preemptible, Pc.info] at hpc hlock
    | resume hrun hrlock hpc =>
      have hf := ht.fits r
      rw [show (s.pc r).info.mode = .locked from hlock] at hf
      rw [hf] at hrun
      cases hrun
    | wakeOther hrlock =>
      have hr' : (s.proc r).parent = some q := by
        simp only [setProc_proc, update_self, Proc.wakeup] at hr
        split_ifs at hr <;> exact hr
      rcases sleepy_move (@Move.wakeOther v _ _ hrlock) hsl with hold | ⟨rfl, k, addr, i, hp, _⟩
      · exact h.woken r q hlt hr' hold
      · rw [setProc_pc, hp] at hlt
        cases hlt
    | _ => simp [Pc.info] at hlt
  · obtain ⟨hpc, hfree⟩ := ht.locked_still m hrp hlock
    rw [hpc] at hlt
    have hpar := ht.parent_still m hrp hlock hr
    rcases sleepy_move m hsl with hold | ⟨_, k, addr, i, hp, _⟩
    · exact h.woken r q hlt hpar hold
    · exact hfree (by rw [hp]; rfl)

theorem Wakeups.scanned_move (h : Wakeups s) (ht : Threads s) (m : Move v s p s') (r c : Slot)
    (hlt : c.val < (s'.pc r).info.scanned) (hc : (s'.proc c).parent = some r) :
    (s'.proc c).state ≠ .zombie := by
  intro hz
  have hlock : (s'.pc r).info.mode = .locked := by
    by_contra hl
    rw [(Pc.info_of_not_locked hl).2.2.1] at hlt
    omega
  have hs := h.scanned
  by_cases hrp : r = p
  · subst hrp
    cases m with
    | goto hl => grind [hl.scanned]
    | preempt hrun hpc => cases hp : s.pc r <;> simp [hp, Pc.preemptible, Pc.info] at hpc hlock
    | _ => grind [Pc.info, Proc.wakeup]
  · obtain ⟨hpc, hfree⟩ := ht.locked_still m hrp hlock
    rw [hpc] at hlt
    have hpar : (s.proc c).parent = some r := by
      rcases parent_move m c hc with hold | ⟨hr, _⟩ | ⟨_, status, hp, _⟩
      · exact hold
      · exact absurd hr hrp
      · exact absurd (by rw [hp]; rfl) hfree
    rcases zombie_move m hz with hold | ⟨_, status, hp⟩
    · exact hs r c hlt hpar hold
    · exact hfree (by rw [hp]; rfl)

/-- `initproc` is still to be woken, or is not asleep any more. -/
theorem pending_move (hfam : Family s) (ht : Threads s) (m : Move v s p s')
    (hr : (s.pc r).info.pending = true) (hsl : Sleepy s' initproc) : ∃ r, (s'.pc r).info.pending = true := by
  have hlock : (s.pc r).info.mode = .locked := by
    by_contra hl
    rw [(Pc.info_of_not_locked hl).2.2.2] at hr
    cases hr
  by_cases hrp : r = p
  · subst hrp
    refine ⟨r, ?_⟩
    cases m with
    | goto hl =>
      rcases hl.pending hr with hnew | rfl
      · simpa using hnew
      · exact absurd hfam.initStays (Pc.status_of_pending hr)
    | @wakeInit status i j hrun hpc hj hjlock =>
      rw [hpc] at hr
      by_cases hji : j = initproc
      · subst hji
        exact absurd hsl (ht.not_sleepy_wakeup hjlock (by simp) (by simp [hj]))
      · have hle : j.val ≤ initproc.val := of_decide_eq_true hr
        have hne : j.val ≠ initproc.val := fun hv => hji (Fin.ext hv)
        simp only [goto_pc, update_self]
        exact decide_eq_true (show j.val + 1 ≤ initproc.val by omega)
    | _ => grind [Pc.info]
  · rcases ht.pc_move m hrp with hpc | ⟨hgone, _⟩
    · exact ⟨r, by rw [hpc]; exact hr⟩
    · rw [hgone] at hlock
      cases hlock

theorem Wakeups.dead_child_move (h : Wakeups s) (hfam : Family s) (ht : Threads s) (m : Move v s p s') (c q : Slot)
    (hc : (s'.proc c).parent = some q) (hz : (s'.proc c).state = .zombie) (hq : Sleepy s' q) :
    q = initproc ∧ ∃ r, (s'.pc r).info.pending = true := by
  rcases sleepy_move m hq with hold | ⟨rfl, k, addr, i, hpc, hi⟩
  · rcases parent_move m c hc with hpar | ⟨_, pid, hpc⟩ | ⟨rfl, status, _, hpc⟩
    · rcases zombie_move m hz with hzold | ⟨rfl, status, hpc⟩
      · obtain ⟨rfl, r, hr⟩ := h.sleepy c q hpar hzold hold
        exact ⟨rfl, pending_move hfam ht m hr hq⟩
      · exact absurd hold (h.woken c q (by rw [hpc]; exact q.isLt) hpar)
    · have hused := ht.forking p c (by rw [hpc]; rfl)
      rcases zombie_move m hz with hzold | ⟨rfl, status, hpc'⟩
      · rw [hused] at hzold
        cases hzold
      · rw [hpc] at hpc'
        cases hpc'
    · exact ⟨rfl, p, by rw [hpc]; rfl⟩
  · -- the scan has just seen all children, and none of them was dead
    have hpar : (s.proc c).parent = some q := by
      rcases parent_move m c hc with hpar | ⟨_, pid, hp⟩ | ⟨_, status, hp, _⟩
      · exact hpar
      · simp [hpc] at hp
      · simp [hpc] at hp
    rcases zombie_move m hz with hzold | ⟨_, status, hp⟩
    · exact absurd hzold (h.scanned q c (by rw [hpc]; exact lt_of_lt_of_le c.isLt hi) hpar)
    · simp [hpc] at hp

end

/-- All of it, in every reachable state. -/
structure Inv (s : State) : Prop where
  threads : Threads s
  family : Family s
  wakeups : Wakeups s

theorem Inv.step {s' : State} {e : Slot × Act} (h : Inv s) (hstep : s.step e = some s') : Inv s' := by
  have m := step_move hstep
  refine ⟨h.threads.move m, h.family.move h.threads m, ?_⟩
  exact ⟨h.wakeups.chan_move h.threads m, h.wakeups.woken_move h.threads m, h.wakeups.scanned_move h.threads m,
    h.wakeups.dead_child_move h.family h.threads m⟩

theorem init_pc (p : Slot) : init.pc p = if p = initproc then .user else .dead := by
  simp [init, Function.update_apply]

theorem init_proc (p : Slot) :
    init.proc p = if p = initproc then { Proc.free with state := .runnable, pid := 1 } else Proc.free := by
  simp [init, Function.update_apply]

theorem inv_init : Inv init := by
  have hpc := init_pc
  have hproc := init_proc
  have hpar : ∀ c, (init.proc c).parent = none := fun c => by grind [Proc.free]
  refine ⟨⟨?_, ?_, ?_, ?_, ?_⟩, ⟨?_, ?_, ?_, ?_, ?_⟩, ⟨?_, ?_, ?_, ?_⟩⟩
  · intro p
    grind [Pc.info, init]
  · intro p
    grind [Pc.info, init]
  · intro p
    grind [Pc.info, Mode.Fits, Proc.free]
  all_goals grind [Pc.info, Proc.free]

theorem inv_run {es : List (Slot × Act)} (h : run es = some s) : Inv s :=
  System.exec_invariant step inv_init (fun _ _ _ => Inv.step) es s h

/-- No lost wakeup. Whenever `wait_lock` is free, no process sleeps on its own
`struct proc` while it has a dead child, and no dead or free slot is anyone's parent. -/
theorem no_lost_wakeup (es : List (Slot × Act)) (s : State) (hrun : run es = some s) (hfree : s.waitLock = none) :
    (∀ p c, (s.proc p).state = .sleeping → (s.proc p).chan = some (.proc p) →
      (s.proc c).parent = some p → (s.proc c).state ≠ .zombie) ∧
    ∀ p c, (s.proc p).state = .zombie ∨ (s.proc p).state = .unused → (s.proc c).parent ≠ some p := by
  obtain ⟨hthreads, hfamily, hwakeups⟩ := inv_run hrun
  constructor
  · intro p c hstate hchan hparent hzombie
    have hmode : (s.pc p).info.mode = .asleep := by
      have hf := hthreads.fits p
      cases hm : (s.pc p).info.mode <;> simp [hm, Mode.Fits, hstate, hchan] at hf
      rfl
    obtain ⟨_, r, hr⟩ := hwakeups.sleepy c p hparent hzombie (.inl ⟨hstate, hmode⟩)
    have hlock : (s.pc r).info.mode = .locked := by
      by_contra hl
      rw [(Pc.info_of_not_locked hl).2.2.2] at hr
      cases hr
    rw [(hthreads.waitLock r).mpr hlock] at hfree
    cases hfree
  · intro p c hstate hparent
    have halive := hfamily.alive c p hparent
    have hf := hthreads.fits p
    cases hm : (s.pc p).info.mode <;> rcases hstate with hs | hs <;> simp_all [Mode.Fits]

/-- Init forks a child and waits for it. -/
def forkAndWait : List (Slot × Act) :=
  [(0, .dispatch), (0, .call .fork)] ++ List.replicate 4 (0, .go ⟨.ok, true⟩) ++
    (0, .call (.wait .wait true)) :: List.replicate 67 (0, .go ⟨.ok, true⟩)

theorem no_lost_wakeup_forkAndWait :
    ∃ s, run forkAndWait = some s ∧ s.waitLock = none ∧ (s.proc 0).state = .sleeping ∧
      (s.proc 1).parent = some 0 ∧ (s.proc 1).state ≠ .zombie := by
  have hrun : ((run forkAndWait).map fun s => (s.waitLock, (s.proc 0).state, (s.proc 0).chan, (s.proc 1).parent)) =
      some (none, .sleeping, some (.proc 0), some 0) := by decide +kernel
  obtain ⟨s, hs, heq⟩ := Option.map_eq_some_iff.mp hrun
  simp only [Prod.mk.injEq] at heq
  obtain ⟨hfree, hstate, hchan, hparent⟩ := heq
  exact ⟨s, hs, hfree, hstate, hparent, (no_lost_wakeup forkAndWait s hs hfree).1 0 1 hstate hchan hparent⟩

end Xv6.Life
