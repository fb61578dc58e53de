import Xv6.Proofs.LifeReap
import Xv6.Spec.Sleeplock

/-! The processes in the table have distinct pids, so that a pid names a process, and their parents live. -/

namespace Xv6.Life

/-- Before `int` overflows, a pid is positive and tells the number. -/
theorem pidOf_eq {n : ℕ} (h : n < 2 ^ 31 - 1) : pidOf n = n + 1 := by
  unfold pidOf int32
  omega

def forkOne : List (Slot × Act) := [(0, .dispatch), (0, .call .fork)] ++ List.replicate 4 (0, .go ⟨.ok, true⟩)

namespace Guarded

variable {s s' : Guarded} {e : Event}

structure Numbered (s : Guarded) : Prop where
  inv : Inv s.life
  numbers : Numbers s.life
  held : s.lk.locked = true → ∃ n < s.life.born, s.lk.holder = some n ∧ s.lk.pid = pidOf n
  free : s.lk.locked = false → s.lk.holder = none

theorem numbered_step (h : Numbered s) (hs : s.step e = some s') : Numbered s' := by
  cases e with
  | life e =>
    obtain ⟨t, ht, rfl⟩ := Option.map_eq_some_iff.mp hs
    have m := step_move ht
    refine ⟨h.inv.step ht, h.numbers.move h.inv.threads m, fun hl => ?_, h.free⟩
    obtain ⟨n, hn, hheld⟩ := h.held hl
    exact ⟨n, hn.trans_le (born_le_move m), hheld⟩
  | acquiresleep p =>
    rw [step] at hs
    split_ifs at hs with hp
    cases hs
    obtain ⟨hlt, hpid⟩ := h.numbers.born p (by rw [hp.1]; nofun)
    exact { h with held := fun _ => ⟨_, hlt, rfl, hpid⟩, free := nofun }
  | releasesleep p =>
    rw [step] at hs
    split_ifs at hs
    cases hs
    exact { h with held := nofun, free := fun _ => rfl }

/-- In every run with fewer than 2^31 - 1 calls of `allocpid` the processes have different positive pids, and
`holdingsleep` is true for the process that took the lock and for no other. -/
theorem live_pids (es : List Event) (s : Guarded) (hrun : run es = some s) (hborn : s.life.born < 2 ^ 31 - 1) :
    (∀ c d, (s.life.proc c).state ≠ .unused → (s.life.proc d).state ≠ .unused →
      0 < (s.life.proc c).pid ∧ ((s.life.proc c).pid = (s.life.proc d).pid → c = d)) ∧
    ∀ c, (s.life.proc c).state ≠ .unused → (s.holdingsleep c = true ↔ s.lk.holder = some (s.life.proc c).id) := by
  have h : Numbered s := System.exec_invariant step ⟨inv_init, numbers_init, nofun, fun _ => rfl⟩
    (fun _ _ _ => numbered_step) es s hrun
  have hpid (c : Slot) (hc : (s.life.proc c).state ≠ .unused) : (s.life.proc c).pid = (s.life.proc c).id + 1 := by
    obtain ⟨hlt, heq⟩ := h.numbers.born c hc
    rw [heq, pidOf_eq (hlt.trans hborn)]
  refine ⟨fun c d hc hd => ?_, fun c hc => ?_⟩
  · have := hpid c hc
    have := hpid d hd
    exact ⟨by omega, fun _ => h.numbers.distinct c d hc hd (by omega)⟩
  · cases hl : s.lk.locked with
    | false => simp [holdingsleep, hl, h.free hl]
    | true =>
      obtain ⟨n, hn, hholder, heq⟩ := h.held hl
      simp [holdingsleep, hl, heq, hholder, hpid c hc, pidOf_eq (hn.trans hborn)]

/-- Init forks and takes the lock. -/
theorem live_pids_forked : ∃ s, run (forkOne.map .life ++ [.acquiresleep 0]) = some s ∧ s.holdingsleep 1 = false ∧
    s.lk.holder = some (s.life.proc 0).id ∧ (s.life.proc 0).pid ≠ (s.life.proc 1).pid := by
  obtain ⟨hpids, hlock⟩ := live_pids (forkOne.map .life ++ [.acquiresleep 0]) _ rfl (by decide)
  refine ⟨_, rfl, by decide, (hlock 0 (by decide)).mp (by decide), fun heq => ?_⟩
  exact absurd ((hpids 0 1 (by decide) (by decide)).2 heq) (by decide)

end Guarded

section Tree

variable {s s' : State}

structure Rooted (s : State) : Prop where
  inv : Inv s
  started : ∀ c, c ≠ initproc → (s.proc c).state ≠ .unused → (s.proc c).state ≠ .used → (s.proc c).parent ≠ none
  linked : ∀ p np pid, s.pc p = .forkRun np pid → (s.proc np).parent ≠ none

theorem Rooted.step {e : Slot × Act} (h : Rooted s) (hstep : s.step e = some s') : Rooted s' := by
  have m := step_move hstep
  obtain ⟨hi, hs, hl⟩ := h
  have hf (q np pid) (hpc : s.pc q = .forkRun np pid) : (s.proc np).state = .used :=
    hi.threads.forking q np (by rw [hpc]; rfl)
  refine ⟨hi.step hstep, ?_, ?_⟩
  · cases m <;> grind [freeproc, Proc.wakeup, Proc.kill]
  · cases m with
    | goto hm => grind [hm.forking, Pc.info]
    | _ => grind [freeproc, Proc.wakeup, Proc.kill]

/-- In every state each process that `fork` has started, dead or not, has a parent that is alive. -/
theorem parents_alive (es : List (Slot × Act)) (s : State) (h : State.run es = some s) (c : Slot) (hc : c ≠ initproc)
    (hused : (s.proc c).state ≠ .unused ∧ (s.proc c).state ≠ .used) : ∃ p, (s.proc c).parent = some p ∧
      (s.proc p).state ≠ .unused ∧ (s.proc p).state ≠ .used ∧ (s.proc p).state ≠ .zombie := by
  have hroot : Rooted s := System.exec_invariant State.step
    ⟨inv_init, by grind [init_proc, Proc.free], by grind [init_pc]⟩ (fun _ _ _ => Rooted.step) es s h
  obtain ⟨p, hp⟩ := Option.ne_none_iff_exists'.mp (hroot.started c hc hused.1 hused.2)
  have halive := hroot.inv.family.alive c p hp
  have hfits := hroot.inv.threads.fits p
  refine ⟨p, hp, ?_⟩
  cases hmode : (s.pc p).info.mode <;> grind [Mode.Fits]

theorem parents_alive_forked : ∃ s p, State.run forkOne = some s ∧ (s.proc 1).parent = some p ∧
    (s.proc p).state ≠ .zombie := by
  obtain ⟨p, hp, -, -, halive⟩ := parents_alive forkOne _ rfl 1 (by decide) (by decide)
  exact ⟨_, p, rfl, hp, halive⟩

end Tree

end Xv6.Life
