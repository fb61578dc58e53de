import Xv6.Proofs.LogProtocol

/-! Who sleeps in `begin_op`. Each event either keeps a reason to wait or wakes the
processes that wait; `commit` takes the blocks away while `committing` is set. -/

namespace Xv6

open System

namespace LogState

section

variable {P : Type}

/-- Why `begin_op` cannot go on. -/
def Full (s : LogState P) : Prop := (s.lh.length : ℤ) + (s.outstanding + 1) * MAXOPBLOCKS > LOGSIZE

def Waits (s : LogState P) : Prop := ∀ p, s.pc p = .asleep → s.committing = true ∨ s.Full

theorem waits_wakeup (s : LogState P) : s.wakeup.Waits := by
  intro p hp
  unfold wakeup at hp
  dsimp only at hp
  split_ifs at hp with h
  exact absurd hp h

theorem length_le_absorb (lh : List ℕ) (b : ℕ) : lh.length ≤ (absorb lh b).length := by
  induction lh with
  | nil => simp [absorb]
  | cons x xs ih =>
    unfold absorb
    split_ifs
    · simp
    · simpa using ih

variable {s : LogState P}

theorem waits_logWrite (h : s.Waits) (p : P) (b : ℕ) : (s.logWrite p b).Waits := by
  unfold logWrite
  split_ifs
  · exact h
  · exact h
  · intro q hq
    rcases h q hq with hc | hf
    · exact .inl hc
    · have := length_le_absorb s.lh b
      refine .inr ?_
      unfold Full at hf ⊢
      dsimp only
      omega

variable [DecidableEq P]

theorem waits_goto (h : s.Waits) (p : P) {c : OpPc} (hc : c ≠ .asleep) : (s.goto p c).Waits := by
  intro q hq
  by_cases hqp : q = p
  · rw [hqp, goto_pc_self] at hq
    exact absurd hq hc
  · rw [goto_pc_ne s c hqp] at hq
    exact h q hq

/-- A process goes to sleep for a reason. -/
theorem waits_sleep (hreason : s.committing = true ∨ s.Full) (p : P) : (s.goto p .asleep).Waits :=
  fun _ _ => hreason

theorem waits_test (h : s.Waits) (p : P) : (s.test p).Waits := by
  unfold test
  split_ifs with hcommitting hfull
  · exact waits_sleep (.inl hcommitting) p
  · exact waits_sleep (.inr hfull) p
  · intro q hq
    rcases waits_goto h p (by simp : OpPc.inside ≠ .asleep) q hq with hc | hf
    · exact absurd hc hcommitting
    · exact absurd hf hfull

theorem waits_endOp (s : LogState P) (p : P) : (s.endOp p).Waits := by
  unfold endOp
  dsimp only
  split_ifs with hcommitting
  · exact fun _ _ => .inl hcommitting
  · exact fun _ _ => .inl rfl
  · exact waits_wakeup _

theorem waits_step (s : LogState P) (e : LogEvent P) (s' : LogState P) (h : Inv s ∧ s.Waits)
    (hs : step s e = some s') : Inv s' ∧ s'.Waits := by
  refine ⟨inv_step s e s' h.1 hs, ?_⟩
  cases (step_cases hs).2 with
  | beginOp | kill => exact waits_goto h.2 _ (by simp)
  | test => exact waits_test h.2 _
  | logWrite _ b => exact waits_logWrite h.2 _ b
  | endOp => exact waits_endOp s _
  | finish => exact waits_wakeup _
  | @commit p hp =>
    -- `log.lh.n` falls while `committing` is set
    have hcommitting : s.committing = true := h.1.committer.2 ⟨p, by rw [hp]; trivial⟩
    unfold commit
    split_ifs <;> exact fun _ _ => .inl hcommitting

/-- A process that sleeps in `begin_op` has a reason to, in every state of every interleaving. -/
theorem log_waiting (start size : ℕ) (evs : List (LogEvent P)) (s : LogState P) (hrun : run start size evs = some s)
    (p : P) (hp : s.pc p = .asleep) :
    s.committing = true ∨ (s.lh.length : ℤ) + (s.outstanding + 1) * MAXOPBLOCKS > LOGSIZE :=
  (exec_invariant step ⟨inv_init start size, nofun⟩ waits_step evs s hrun).2 p hp

end

/-- Three operations are inside when the fourth process comes. -/
def fourOps : List (LogEvent (Fin 4)) :=
  [.beginOp 0, .test 0, .beginOp 1, .test 1, .beginOp 2, .test 2, .beginOp 3, .test 3]

theorem log_waiting_fourOps : ∃ s, run 2 nlog fourOps = some s ∧ s.pc 3 = .asleep ∧
    (s.committing = true ∨ (s.lh.length : ℤ) + (s.outstanding + 1) * MAXOPBLOCKS > LOGSIZE) := by
  have hpc : (run 2 nlog fourOps).map (fun s => s.pc 3) = some .asleep := by decide
  obtain ⟨s, hs, hasleep⟩ := Option.map_eq_some_iff.1 hpc
  exact ⟨s, hs, hasleep, log_waiting 2 nlog fourOps s hs 3 hasleep⟩

end LogState

end Xv6
