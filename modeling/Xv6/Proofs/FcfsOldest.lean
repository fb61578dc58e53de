import Xv6.Proofs.MlfqLocks
import Xv6.Spec.Fcfs

/-! The FCFS loop keeps a running minimum together with its lock. A round either hands the lock on to the new candidate or
takes and drops the lock of the slot it looks at; both keep `Fcfs.Inv`, which at the end of the loop says what was chosen
and which lock is held. -/

namespace Xv6

open Prog Function

/-- The test of the loop for slot `p`. -/
def Sched.Beats (s : Sched) (p : Slot) (best : Option Slot) : Prop :=
  (s.proc p).state = .runnable ∧ ∀ b ∈ best, (s.proc p).creationTime < (s.proc b).creationTime

instance (s : Sched) (p : Slot) (best : Option Slot) : Decidable (s.Beats p best) := by
  unfold Sched.Beats
  infer_instance

/-- `s` with the lock of `p` taken by `c`. -/
def Sched.locked (s : Sched) (c : Cpu) (p : Slot) : Sched := { s with lock := Function.update s.lock p (some c) }

/-- `s` with the lock of `p` dropped. -/
def Sched.unlocked (s : Sched) (p : Slot) : Sched := { s with lock := Function.update s.lock p none }

theorem locked_lock (s : Sched) (c : Cpu) (p q : Slot) :
    (s.locked c p).lock q = if q = p then some c else s.lock q := update_apply ..

theorem unlocked_lock (s : Sched) (p q : Slot) : (s.unlocked p).lock q = if q = p then none else s.lock q :=
  update_apply ..

/-- The lock goes from the old candidate to `p`. -/
def Sched.handed (s : Sched) (c : Cpu) (p : Slot) : Option Slot → Sched
  | none => s.locked c p
  | some b => (s.locked c p).unlocked b

theorem handed_proc (s : Sched) (c : Cpu) (p : Slot) (best : Option Slot) : (s.handed c p best).proc = s.proc := by
  cases best <;> rfl

variable {s : Sched} {c : Cpu} {p : Slot}

theorem handed_lock {best : Option Slot} (h : ∀ q, s.lock q = some c ↔ best = some q)
    (hp : s.lock p = none) (q : Slot) : (s.handed c p best).lock q = some c ↔ q = p := by
  cases best with
  | none =>
    have hq : s.lock q ≠ some c := fun hl => nomatch (h q).mp hl
    by_cases hqp : q = p <;> simp [Sched.handed, locked_lock, hqp, hq]
  | some b =>
    have hbp : b ≠ p := fun hbp => by simp [← hbp, (h b).mpr rfl] at hp
    have hq : s.lock q = some c ↔ q = b := by rw [h q, Option.some.injEq, eq_comm]
    by_cases hqp : q = p
    · subst hqp
      simp [Sched.handed, locked_lock, unlocked_lock, Ne.symm hbp]
    · by_cases hqb : q = b <;> simp [Sched.handed, locked_lock, unlocked_lock, hqp, hqb, hq, hbp]

theorem locked_unlocked (h : s.lock p = none) : (s.locked c p).unlocked p = s := by
  rw [Sched.locked, Sched.unlocked, lock_taken_dropped h c]

theorem acquire_free (h : s.lock p = none) : acquire c p s = .ok () (s.locked c p) := by
  unfold acquire
  rw [bind_of_ok (gets_apply _ s), h]
  rfl

theorem fcfsSlot_free (h : s.lock p = none) (best : Option Slot) :
    fcfsSlot c best p s = .ok (if s.Beats p best then (some p, best) else (best, some p)) (s.locked c p) := by
  unfold fcfsSlot
  rw [bind_of_ok (acquire_free h), bind_of_ok (gets_apply _ _)]
  by_cases hrun : ((s.locked c p).proc p).state = .runnable
  · rw [if_pos hrun]
    cases best with
    | none =>
      rw [if_pos ⟨hrun, by simp⟩]
      rfl
    | some b =>
      dsimp only
      rw [bind_of_ok (gets_apply _ _)]
      by_cases hlt : ((s.locked c p).proc p).creationTime < ((s.locked c p).proc b).creationTime
      · have hbeats : s.Beats p (some b) := by
          refine ⟨hrun, fun b' hb' => ?_⟩
          cases hb'
          exact hlt
        rw [if_pos hlt, if_pos hbeats]
        rfl
      · rw [if_neg hlt, if_neg fun hbeats => hlt (hbeats.2 b rfl)]
        rfl
  · rw [if_neg hrun, if_neg fun hbeats => hrun hbeats.1]
    rfl

theorem fcfsSlot_taken {d : Cpu} (h : s.lock p = some d) (hd : d ≠ c) (best : Option Slot) :
    fcfsSlot c best p s = .fault .spin s := by
  have hother : s.lock p ≠ some c := by
    rw [h]
    exact fun heq => hd (Option.some.inj heq)
  unfold fcfsSlot
  rcases acquire_cases hother with hok | hspin
  · rw [acquire, bind_of_ok (gets_apply _ s), h] at hok
    simp [if_neg hd] at hok
  · exact bind_of_fault hspin _

namespace Fcfs

variable {c : Cpu} {v w : Fcfs}

/-- `best` is the choice among the slots below `n`. -/
def Least (view : Slot → Proc) (n : ℕ) : Option Slot → Prop
  | none => ∀ q : Slot, q.val < n → (view q).state ≠ .runnable
  | some p => p.val < n ∧ (view p).state = .runnable ∧ ∀ q : Slot, q.val < n → (view q).state = .runnable →
      (view p).creationTime < (view q).creationTime ∨ (view p).creationTime = (view q).creationTime ∧ p ≤ q

/-- The calls for the lock of `q` when the slots below `n` are done. -/
def paired (n : ℕ) (best : Option Slot) (q : Slot) : List LockCall :=
  if q.val < n then .acquire q :: (if best = some q then [] else [.release q]) else []

structure Inv (c : Cpu) (v : Fcfs) : Prop where
  sane : v.panicked = false
  bound : v.newProcess ≤ NPROC
  locks : ∀ q, v.sched.lock q = some c ↔ v.startProcess = some q
  least : Least v.seen v.newProcess v.startProcess
  /-- the candidate is locked, so it is as it was -/
  same : ∀ p, v.startProcess = some p → (v.sched.proc p).creationTime = (v.seen p).creationTime
  calls : ∀ q, v.callsOf q = paired v.newProcess v.startProcess q

variable {s : Sched} {p q : Slot} {n : ℕ} {view : Slot → Proc} {best : Option Slot} {pr : Proc}

theorem inv_start (hfree : ∀ q, s.lock q ≠ some c) : Inv c (start s) where
  sane := rfl
  bound := Nat.zero_le _
  locks q := by simp [start, hfree q]
  least := fun q hq => absurd hq (Nat.not_lt_zero _)
  same := by simp [start]
  calls q := by simp [start, callsOf, paired]

/-- The state after a round for slot `p` that left `best` and the lock words `lock`. -/
def next (v : Fcfs) (p : Slot) (best : Option Slot) (s : Sched) (calls : List LockCall) : Fcfs :=
  { v with
    sched := s, newProcess := v.newProcess + 1, startProcess := best, calls := v.calls ++ calls
    seen := Function.update v.seen p (v.sched.proc p) }

/-- A round hands the lock on, or takes and drops one. -/
theorem step_go (hv : Inv c v) (hp : p.val = v.newProcess) (hlock : v.sched.lock p = none) :
    v.step c .go = some (
      if v.sched.Beats p v.startProcess then
        v.next p (some p) (v.sched.handed c p v.startProcess) (.acquire p :: v.startProcess.toList.map .release)
      else v.next p v.startProcess v.sched [.acquire p, .release p]) := by
  have hslot : (⟨v.newProcess, by rw [← hp]; exact p.isLt⟩ : Slot) = p := Fin.ext hp.symm
  rw [step, dif_pos ⟨by rw [← hp]; exact p.isLt, hv.sane⟩]
  simp only [hslot]
  rw [fcfsSlot_free hlock]
  split_ifs with hbeats
  · cases hbest : v.startProcess with
    | none => rfl
    | some b =>
      -- the old candidate's lock is held
      have hheld : (v.sched.locked c p).lock b = some c := by
        by_cases hbp : b = p
        · rw [hbp]
          exact update_self ..
        · exact (update_of_ne hbp _ _).trans ((hv.locks b).mpr hbest)
      simp only [close]
      rw [release_held hheld]
      rfl
  · simp only [close]
    rw [release_held (show (v.sched.locked c p).lock p = some c from update_self ..)]
    change some (v.next p v.startProcess ((v.sched.locked c p).unlocked p) _) = _
    rw [locked_unlocked hlock]

/-- What is read of a process that the loop takes for its candidate. -/
def Better (view : Slot → Proc) (pr : Proc) (best : Option Slot) : Prop :=
  pr.state = .runnable ∧ ∀ b ∈ best, pr.creationTime < (view b).creationTime

theorem update_below (view : Slot → Proc) (hp : p.val = n) (hq : q.val < n) (pr : Proc) :
    update view p pr q = view q :=
  update_of_ne (fun hqp => by rw [hqp] at hq; omega) _ _

theorem Least.hand (h : Least view n best) (hp : p.val = n)
    (hpr : Better view pr best) : Least (update view p pr) (n + 1) (some p) := by
  refine ⟨by omega, by rw [update_self]; exact hpr.1, fun q hq hrun => ?_⟩
  rw [update_self]
  rcases Nat.lt_or_ge q.val n with hlt | hge
  · rw [update_below view hp hlt] at hrun ⊢
    left
    cases best with
    | none => exact absurd hrun (h q hlt)
    | some b =>
      have hb := hpr.2 b rfl
      rcases h.2.2 q hlt hrun with hless | ⟨heq, -⟩ <;> omega
  · obtain rfl : q = p := Fin.ext (by omega)
    rw [update_self]
    exact .inr ⟨rfl, le_rfl⟩

theorem Least.keep (h : Least view n best) (hp : p.val = n)
    (hpr : ¬Better view pr best) : Least (update view p pr) (n + 1) best := by
  cases best with
  | none =>
    intro q hq
    rcases Nat.lt_or_ge q.val n with hlt | hge
    · rw [update_below view hp hlt]
      exact h q hlt
    · obtain rfl : q = p := Fin.ext (by omega)
      rw [update_self]
      exact fun hrun => hpr ⟨hrun, by simp⟩
  | some b =>
    obtain ⟨hb, hrunb, hleast⟩ := h
    refine ⟨by omega, by rwa [update_below view hp hb], fun q hq hrun => ?_⟩
    rw [update_below view hp hb]
    rcases Nat.lt_or_ge q.val n with hlt | hge
    · rw [update_below view hp hlt] at hrun ⊢
      exact hleast q hlt hrun
    · obtain rfl : q = p := Fin.ext (by omega)
      rw [update_self] at hrun ⊢
      have hle : (view b).creationTime ≤ pr.creationTime := by
        by_contra hlt
        exact hpr ⟨hrun, by simpa using hlt⟩
      rcases hle.lt_or_eq with hlt | heq
      · exact .inl hlt
      · exact .inr ⟨heq, Fin.le_def.mpr (by omega)⟩

theorem Inv.below (hv : Inv c v) (hp : v.startProcess = some p) : p.val < v.newProcess := by
  have h := hv.least
  rw [hp] at h
  exact h.1

theorem Inv.beats_iff (hv : Inv c v) (p : Slot) :
    v.sched.Beats p v.startProcess ↔ Better v.seen (v.sched.proc p) v.startProcess := by
  refine and_congr_right fun _ => forall₂_congr fun b hb => ?_
  rw [hv.same b hb]

theorem callsOf_next (p : Slot) (best : Option Slot) (s : Sched) (calls : List LockCall) (q : Slot) :
    (v.next p best s calls).callsOf q = v.callsOf q ++ calls.filter fun call => call.slot = q :=
  List.filter_append ..

theorem paired_below (hq : q.val < n) :
    paired n best q = .acquire q :: (if best = some q then [] else [.release q]) := if_pos hq

theorem paired_above (hq : ¬q.val < n) : paired n best q = [] := if_neg hq

section

variable (hv : Inv c v) (hp : p.val = v.newProcess)

include hv hp

theorem inv_hand (hlock : v.sched.lock p = none) (hbeats : v.sched.Beats p v.startProcess) :
    Inv c (v.next p (some p) (v.sched.handed c p v.startProcess) (.acquire p :: v.startProcess.toList.map .release)) where
  sane := hv.sane
  bound := by
    change v.newProcess + 1 ≤ NPROC
    have := p.isLt
    omega
  locks q := by
    refine (handed_lock hv.locks hlock q).trans ?_
    change q = p ↔ some p = some q
    rw [Option.some.injEq, eq_comm]
  least := hv.least.hand hp ((hv.beats_iff p).mp hbeats)
  same q hq := by
    cases hq
    change ((v.sched.handed c p v.startProcess).proc p).creationTime =
      (update v.seen p (v.sched.proc p) p).creationTime
    rw [handed_proc, update_self]
  calls q := by
    rw [callsOf_next, hv.calls q]
    change _ = paired (v.newProcess + 1) (some p) q
    by_cases hqp : q = p
    · subst hqp
      have hold : ∀ b ∈ v.startProcess, b ≠ q := fun b hb hbq => by
        have := hv.below hb
        rw [hbq] at this
        omega
      rw [paired_above (by omega), paired_below (by omega)]
      cases hbest : v.startProcess with
      | none => simp [LockCall.slot]
      | some b => simp [LockCall.slot, hold b hbest]
    · have hne : q.val ≠ v.newProcess := fun h => hqp (Fin.ext (h.trans hp.symm))
      by_cases hlt : q.val < v.newProcess
      · rw [paired_below hlt, paired_below (by omega)]
        cases hbest : v.startProcess with
        | none => simp [LockCall.slot, Ne.symm hqp]
        | some b => by_cases hbq : b = q <;> simp [LockCall.slot, Ne.symm hqp, hbq]
      · rw [paired_above hlt, paired_above (by omega)]
        cases hbest : v.startProcess with
        | none => simp [LockCall.slot, Ne.symm hqp]
        | some b =>
          have hbq : b ≠ q := fun h => hlt (h ▸ hv.below hbest)
          simp [LockCall.slot, Ne.symm hqp, hbq]

theorem inv_keep (hbeats : ¬v.sched.Beats p v.startProcess) :
    Inv c (v.next p v.startProcess v.sched [.acquire p, .release p]) where
  sane := hv.sane
  bound := by
    change v.newProcess + 1 ≤ NPROC
    have := p.isLt
    omega
  locks := hv.locks
  least := hv.least.keep hp fun h => hbeats ((hv.beats_iff p).mpr h)
  same q hq := by
    change (v.sched.proc q).creationTime = (update v.seen p (v.sched.proc p) q).creationTime
    rw [update_below v.seen hp (hv.below hq)]
    exact hv.same q hq
  calls q := by
    rw [callsOf_next, hv.calls q]
    change _ = paired (v.newProcess + 1) v.startProcess q
    by_cases hqp : q = p
    · subst hqp
      have hbest : v.startProcess ≠ some q := fun h => by
        have := hv.below h
        omega
      rw [paired_above (by omega), paired_below (by omega)]
      simp [hbest, LockCall.slot]
    · have hne : q.val ≠ v.newProcess := fun h => hqp (Fin.ext (h.trans hp.symm))
      have hiff : q.val < v.newProcess + 1 ↔ q.val < v.newProcess := by omega
      simp [paired, hiff, LockCall.slot, Ne.symm hqp]

theorem inv_go (hlock : v.sched.lock p = none) :
    ∃ w, v.step c .go = some w ∧ Inv c w ∧ w.newProcess = v.newProcess + 1 := by
  refine ⟨_, step_go hv hp hlock, ?_⟩
  split_ifs with hbeats
  · exact ⟨inv_hand hv hp hlock hbeats, rfl⟩
  · exact ⟨inv_keep hv hp hbeats, rfl⟩

end

/-- A round takes a lock that was free. -/
theorem free_of_go (hv : Inv c v) (h : v.step c .go = some w) : ∃ p : Slot, p.val = v.newProcess ∧ v.sched.lock p = none := by
  rw [step] at h
  split_ifs at h with hgo
  refine ⟨⟨v.newProcess, hgo.1⟩, rfl, ?_⟩
  cases hl : v.sched.lock ⟨v.newProcess, hgo.1⟩ with
  | none => rfl
  | some d =>
    have hd : d ≠ c := fun hd => by
      have := hv.below ((hv.locks _).mp (hd ▸ hl))
      simp at this
    rw [fcfsSlot_taken hl hd] at h
    cases h

theorem world_cases {t : Sched} (h : v.step c (.world t) = some w) :
    w = { v with sched := t } ∧ (∀ q, t.lock q = some c ↔ v.sched.lock q = some c) ∧
      ∀ q, v.sched.lock q = some c → v.sched.Same t q := by
  rw [step] at h
  split_ifs at h with hworld
  exact ⟨(Option.some.inj h).symm, hworld⟩

theorem inv_step {x : Change} (hv : Inv c v) (h : v.step c x = some w) : Inv c w := by
  cases x with
  | go =>
    obtain ⟨p, hp, hlock⟩ := free_of_go hv h
    obtain ⟨w', hw', hinv, -⟩ := inv_go hv hp hlock
    obtain rfl := Option.some.inj (h.symm.trans hw')
    exact hinv
  | world t =>
    obtain ⟨rfl, hlocks, hsame⟩ := world_cases h
    exact { hv with
      locks := fun q => (hlocks q).trans (hv.locks q)
      same := fun p hp => (hsame p ((hv.locks p).mpr hp)).2.trans (hv.same p hp) }

theorem inv_run (hfree : ∀ q, s.lock q ≠ some c) : ∀ xs v, run c s xs = some v → Inv c v :=
  System.exec_invariant _ (inv_start hfree) fun _ _ _ hv h => inv_step hv h

/-- A round changes nothing but locks and what it saw of its slot. -/
theorem run_keeps {P : Fcfs → Prop} (hfree : ∀ q, s.lock q ≠ some c) {xs : List Change} (h : run c s xs = some v)
    (hstart : P (start s)) (hworld : ∀ u t, .world t ∈ xs → P u → P { u with sched := t })
    (hgo : ∀ u p best calls l, P u → P (u.next p best { u.sched with lock := l } calls)) : P v := by
  refine (@System.exec_invariant_along _ _ (step c) (fun v => Inv c v ∧ P v) _ (fun _ x => x ∈ xs)
    ⟨inv_start hfree, hstart⟩ (fun u x w ⟨hinv, hP⟩ hx h => ⟨inv_step hinv h, ?_⟩) xs v
    (System.along_of_mem _ fun _ _ hx => hx) h).2
  cases x with
  | world t =>
    obtain ⟨rfl, -⟩ := world_cases h
    exact hworld u t hx hP
  | go =>
    obtain ⟨p, hp, hlock⟩ := free_of_go hinv h
    rw [step_go hinv hp hlock] at h
    obtain rfl := Option.some.inj h
    split_ifs
    · cases u.startProcess <;> exact hgo u p _ _ _ hP
    · exact hgo u p _ _ _ hP

theorem leaves_run {γ : Type} {f : Sched → γ} (hf : ∀ s l, f { s with lock := l } = f s) {s : Sched}
    (hfree : ∀ q, s.lock q ≠ some c) {xs : List Change} {v : Fcfs} (h : run c s xs = some v)
    (hquiet : ∀ t, .world t ∈ xs → f t = f s) : f v.sched = f s :=
  run_keeps (P := fun v => f v.sched = f s) hfree h rfl (fun _ t ht _ => hquiet t ht)
    fun _ _ _ _ _ hu => (hf _ _).trans hu

/-- No process changed, so the loop saw the table as it is. -/
theorem seen_run (hfree : ∀ q, s.lock q ≠ some c) {xs : List Change} (h : run c s xs = some v)
    (hquiet : ∀ t, .world t ∈ xs → t.proc = s.proc) : v.seen = s.proc := by
  refine (run_keeps (P := fun v => v.seen = s.proc ∧ v.sched.proc = s.proc) hfree h ⟨rfl, rfl⟩
    (fun u t ht hu => ⟨hu.1, hquiet t ht⟩) fun u p _ _ _ ⟨hseen, hproc⟩ => ⟨?_, hproc⟩).1
  change update u.seen p (u.sched.proc p) = s.proc
  rw [hseen, hproc, update_eq_self]

theorem handed_others (h : ∀ q d, s.lock q = some d → d = c) (p : Slot) (best : Option Slot) :
    ∀ q d, (s.handed c p best).lock q = some d → d = c := by
  have hlocked : ∀ q d, (s.locked c p).lock q = some d → d = c := by
    intro q d hq
    rw [locked_lock] at hq
    split_ifs at hq
    · exact (Option.some.inj hq).symm
    · exact h q d hq
  intro q d hq
  cases best with
  | none => exact hlocked q d hq
  | some b =>
    rw [Sched.handed, unlocked_lock] at hq
    split_ifs at hq
    exact hlocked q d hq

/-- Alone, the CPU gets through the loop. -/
theorem run_alone (c : Cpu) (hfree : ∀ q, s.lock q = none) (hn : n ≤ NPROC) :
    ∃ v, run c s (List.replicate n .go) = some v ∧ v.newProcess = n ∧ ∀ q d, v.sched.lock q = some d → d = c := by
  induction n with
  | zero => exact ⟨start s, rfl, rfl, fun q d hq => by simp [start, hfree q] at hq⟩
  | succ n ih =>
    obtain ⟨v, hrun, hnext, hothers⟩ := ih (by omega)
    have hinv := inv_run (fun q => by simp [hfree q]) _ v hrun
    have hlock : v.sched.lock ⟨n, by omega⟩ = none := by
      cases hl : v.sched.lock ⟨n, by omega⟩ with
      | none => rfl
      | some d =>
        have := hinv.below ((hinv.locks _).mp (hothers _ d hl ▸ hl))
        simp [hnext] at this
    have hstep := step_go hinv (p := ⟨n, by omega⟩) hnext.symm hlock
    have hlast : run c s (List.replicate (n + 1) .go) = v.step c .go := by
      rw [List.replicate_succ', run, System.exec_snoc, ← run, hrun]
      rfl
    refine ⟨_, hlast.trans hstep, ?_, ?_⟩
    · split_ifs <;> exact congrArg (· + 1) hnext
    · split_ifs
      · exact handed_others hothers _ _
      · exact hothers

theorem Inv.oldest (hv : Inv c v) (hend : v.newProcess = NPROC) : Oldest v.seen v.startProcess := by
  have h := hv.least
  rw [hend] at h
  cases hbest : v.startProcess with
  | none =>
    rw [hbest] at h
    exact fun q => h q q.isLt
  | some p =>
    rw [hbest] at h
    exact ⟨h.2.1, fun q => h.2.2 q q.isLt⟩

end Fcfs

/-- Whatever the other CPUs do meanwhile, the loop waits only for locks that another CPU holds, and at its end it holds
just the lock of the oldest RUNNABLE process, having taken and dropped every other lock once. -/
theorem fcfs_oldest (c : Cpu) (s : Sched) (hfree : ∀ q, s.lock q ≠ some c) (xs : List Change) (v : Fcfs)
    (h : Fcfs.run c s xs = some v) :
    v.panicked = false ∧
    (∀ p : Slot, p.val = v.newProcess → v.sched.lock p = none →
      ∃ w, v.step c .go = some w ∧ w.newProcess = v.newProcess + 1) ∧
    ((∀ q, s.lock q = none) → ∃ w, Fcfs.run c s (List.replicate NPROC .go) = some w ∧ w.newProcess = NPROC) ∧
    ((∀ t, .world t ∈ xs → t.proc = s.proc) → v.seen = s.proc) ∧
    (v.newProcess = NPROC →
      Oldest v.seen v.startProcess ∧ (∀ q, v.sched.lock q = some c ↔ v.startProcess = some q) ∧
      ∀ q, v.callsOf q = if v.startProcess = some q then [.acquire q] else [.acquire q, .release q]) := by
  have hv := Fcfs.inv_run hfree xs v h
  refine ⟨hv.sane, fun p hp hlock => ?_, fun halone => ?_, fun hquiet => Fcfs.seen_run hfree h hquiet, fun hend => ?_⟩
  · obtain ⟨w, hw, -, hnext⟩ := Fcfs.inv_go hv hp hlock
    exact ⟨w, hw, hnext⟩
  · obtain ⟨w, hw, hnext, -⟩ := Fcfs.run_alone c halone le_rfl
    exact ⟨w, hw, hnext⟩
  · refine ⟨hv.oldest hend, hv.locks, fun q => ?_⟩
    rw [hv.calls q, Fcfs.paired_below (by rw [hend]; exact q.isLt)]
    split_ifs <;> rfl

/-- Two RUNNABLE processes that were never scheduled; the second one was created first. -/
def youngFirst : Sched :=
  { Sched.zero with proc := fun p =>
      if p.val < 2 then { Proc.zero with state := .runnable, creationTime := 5 - 2 * p } else Proc.zero }

theorem fcfs_oldest_two : ∃ v, Fcfs.run 0 youngFirst (List.replicate NPROC .go) = some v ∧
    Oldest youngFirst.proc v.startProcess ∧ ∀ q, v.sched.lock q = some 0 ↔ v.startProcess = some q := by
  obtain ⟨v, hv, hend, -⟩ := Fcfs.run_alone (s := youngFirst) 0 (fun _ => rfl) le_rfl
  obtain ⟨-, -, -, hseen, hchosen⟩ := fcfs_oldest 0 youngFirst (fun _ => nofun) _ v hv
  obtain ⟨hold, hlocks, -⟩ := hchosen hend
  rw [hseen (by simp)] at hold
  exact ⟨v, hv, hold, hlocks⟩

/-! ### The books -/

theorem int32_succ_ne (x : ℤ) : int32 (x + 1) ≠ x := by
  unfold int32
  omega

theorem Fcfs.dispatched (hfree : ∀ q, s.lock q ≠ some c) {xs : List Change} {v : Fcfs}
    (h : Fcfs.run c s xs = some v) (hquiet : ∀ t, .world t ∈ xs → t.proc = s.proc ∧ t.beyond = s.beyond) (p : Slot) :
    ∃ t, fcfsDispatch c p v.sched = .ok () t ∧ (t.proc p).numOfScheduled = (s.proc p).numOfScheduled ∧
      t.beyond = int32 (s.beyond + 1) := by
  have hproc : v.sched.proc = s.proc := Fcfs.leaves_run (fun _ _ => rfl) hfree h fun t ht => (hquiet t ht).1
  have hbeyond : v.sched.beyond = s.beyond := Fcfs.leaves_run (fun _ _ => rfl) hfree h fun t ht => (hquiet t ht).2
  have hcount : ((v.sched.setProc p fun pr => { pr with state := .running }).proc p).numOfScheduled =
      (s.proc p).numOfScheduled := by
    rw [Sched.setProc, ← hproc]
    simp
  exact ⟨_, rfl, hcount, congrArg (fun x => int32 (x + 1)) hbeyond⟩

/-- In no iteration are the books kept: the count goes to the word behind the table. -/
theorem fcfs_miscounts (c : Cpu) (s : Sched) (hfree : ∀ q, s.lock q ≠ some c) (xs : List Change) (v : Fcfs)
    (h : Fcfs.run c s xs = some v) (hquiet : ∀ t, .world t ∈ xs → t.proc = s.proc ∧ t.beyond = s.beyond)
    (hend : v.newProcess = NPROC) (hready : ∃ q, (s.proc q).state = .runnable) :
    ∃ p t, v.startProcess = some p ∧ Oldest s.proc (some p) ∧ fcfsDispatch c p v.sched = .ok () t ∧
      (t.proc p).numOfScheduled = (s.proc p).numOfScheduled ∧ t.beyond = int32 (s.beyond + 1) ∧ ¬Booked c p s t := by
  have hold := (Fcfs.inv_run hfree xs v h).oldest hend
  rw [Fcfs.seen_run hfree h fun t ht => (hquiet t ht).1] at hold
  cases hbest : v.startProcess with
  | none =>
    rw [hbest] at hold
    obtain ⟨q, hq⟩ := hready
    exact absurd hq (hold q)
  | some p =>
    rw [hbest] at hold
    obtain ⟨t, ht, hcount, hword⟩ := Fcfs.dispatched hfree h hquiet p
    refine ⟨p, t, rfl, hold, ht, hcount, hword, fun hbooked => int32_succ_ne s.beyond ?_⟩
    exact hword.symm.trans hbooked.2.2.2.2

theorem fcfs_miscounts_two : ∃ v, Fcfs.run 0 youngFirst (List.replicate NPROC .go) = some v ∧
    ∃ p t, v.startProcess = some p ∧ fcfsDispatch 0 p v.sched = .ok () t ∧ ¬Booked 0 p youngFirst t := by
  obtain ⟨v, hv, hend, -⟩ := Fcfs.run_alone (s := youngFirst) 0 (fun _ => rfl) le_rfl
  obtain ⟨p, t, hp, -, ht, -, -, hnot⟩ := fcfs_miscounts 0 youngFirst (fun _ => nofun) _ v hv (by simp) hend ⟨0, rfl⟩
  exact ⟨v, hv, p, t, hp, ht, hnot⟩

/-- Init, alone and RUNNABLE: its count stays 0 and the word behind the table becomes 1. -/
theorem initDispatch_miscounts : ∃ v t, Fcfs.run 0 userinit (List.replicate NPROC .go) = some v ∧
    v.startProcess = some 0 ∧ fcfsDispatch 0 0 v.sched = .ok () t ∧ (t.proc 0).numOfScheduled = 0 ∧
      userinit.beyond = 0 ∧ t.beyond = 1 ∧ ¬Booked 0 0 userinit t := by
  have hfree : ∀ q, userinit.lock q = none := by decide
  have hne : ∀ q, userinit.lock q ≠ some 0 := by simp [hfree]
  obtain ⟨v, hv, hend, -⟩ := Fcfs.run_alone 0 hfree le_rfl
  have hold := (Fcfs.inv_run hne _ v hv).oldest hend
  rw [Fcfs.seen_run hne hv (by simp)] at hold
  have honly : ∀ q, (userinit.proc q).state = .runnable → q = 0 := by decide
  have hchosen : v.startProcess = some 0 := by
    cases hbest : v.startProcess with
    | none =>
      rw [hbest] at hold
      exact absurd (by decide) (hold 0)
    | some p =>
      rw [hbest] at hold
      rw [honly p hold.1]
  obtain ⟨t, ht, hcount, hword⟩ := Fcfs.dispatched hne hv (by simp) 0
  have hone : t.beyond = 1 := hword.trans (by decide)
  refine ⟨v, t, hv, hchosen, ht, hcount.trans (by decide), by decide, hone, fun hbooked => ?_⟩
  exact absurd (hone.symm.trans hbooked.2.2.2.2) (by decide)

end Xv6
