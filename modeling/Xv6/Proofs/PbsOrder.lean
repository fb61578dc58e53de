import Xv6.Proofs.FcfsOldest

/-! The PBS loop. Its second flag is the first one with a further condition, so that `creationTime` is never the reason to
change the candidate: among the processes that are least by dynamic priority and `numOfScheduled` it stays with the first.
The dynamic priority divides before it multiplies, so that the niceness is 0, 5 or 10. -/

namespace Xv6

open Prog Function List

/-! ### The choice -/

/-- `a` has the smaller dynamic priority, or the same one and was scheduled less often. -/
def Proc.Ahead (a b : Proc) : Prop :=
  dynamicPr a < dynamicPr b ∨ dynamicPr a = dynamicPr b ∧ a.numOfScheduled < b.numOfScheduled

instance (a b : Proc) : Decidable (a.Ahead b) := inferInstanceAs (Decidable (_ ∨ _))

/-- `b` does not come before `a` by dynamic priority, then by `numOfScheduled`, then by `creationTime`. -/
def Proc.LexLe (a b : Proc) : Prop :=
  dynamicPr a < dynamicPr b ∨ dynamicPr a = dynamicPr b ∧
    (a.numOfScheduled < b.numOfScheduled ∨ a.numOfScheduled = b.numOfScheduled ∧ a.creationTime ≤ b.creationTime)

/-- What the loop is to select. -/
def LexLeast (view : Slot → Proc) : Option Slot → Prop
  | none => ∀ q, (view q).state ≠ .runnable
  | some p => (view p).state = .runnable ∧ ∀ q, (view q).state = .runnable → (view p).LexLe (view q)

/-- The first of the RUNNABLE processes that none is ahead of. -/
def FirstLeast (view : Slot → Proc) (p : Slot) : Prop :=
  (view p).state = .runnable ∧
    ∀ q, (view q).state = .runnable → ¬(view q).Ahead (view p) ∧ (q < p → (view p).Ahead (view q))

/-- The candidate behind the slots `seen`. -/
def Candidate (view : Slot → Proc) (seen : List Slot) : Option Slot → Prop
  | none => ∀ q ∈ seen, (view q).state ≠ .runnable
  | some p => p ∈ seen ∧ (view p).state = .runnable ∧
      ∀ q ∈ seen, (view q).state = .runnable → ¬(view q).Ahead (view p) ∧ (q < p → (view p).Ahead (view q))

theorem dynamicPr_range (pr : Proc) : 0 ≤ dynamicPr pr ∧ dynamicPr pr ≤ 100 := by
  unfold dynamicPr
  dsimp only
  split_ifs <;> omega

theorem checkProcess_false (best : Option Slot) (test : Proc → Bool) (s : Sched) :
    checkProcess false best test s = .ok false s := rfl

theorem checkProcess_some {c : Bool} {b : Slot} (test : Proc → Bool) (s : Sched) :
    checkProcess c (some b) test s = .ok (c && test (s.proc b)) s := by
  cases c <;> rfl

/-- The second flag adds nothing to the first. -/
theorem Proc.ahead_iff (a b : Proc) :
    (dynamicPr b > dynamicPr a ∨ (decide (dynamicPr b = dynamicPr a) && decide (a.numOfScheduled < b.numOfScheduled)) = true ∨
      ((decide (dynamicPr b = dynamicPr a) && decide (a.numOfScheduled < b.numOfScheduled)) &&
        decide (a.creationTime < b.creationTime)) = true) ↔ a.Ahead b := by
  simp only [Bool.and_eq_true, decide_eq_true_eq, Proc.Ahead]
  omega

variable {c : Cpu} {s : Sched} {p : Slot} {best : Option Slot} {view : Slot → Proc} {seen : List Slot} {pr : Proc}

/-- A round hands the lock on, or takes and drops one. -/
theorem scanPbs_cons {dp : ℤ} (ps : List Slot) (hp : s.lock p = none)
    (hlock : ∀ q, s.lock q = some c ↔ best = some q) (hdp : dp = (best.map fun b => dynamicPr (s.proc b)).getD 999) :
    scanPbs c (p :: ps) best dp s =
      if (s.proc p).state = .runnable ∧ ∀ b ∈ best, (s.proc p).Ahead (s.proc b) then
        scanPbs c ps (some p) (dynamicPr (s.proc p)) (s.handed c p best)
      else scanPbs c ps best dp s := by
  have hdrop : release c p (s.locked c p) = .ok () s :=
    (release_held (show (s.locked c p).lock p = some c from update_self ..)).trans
      (congrArg (Outcome.ok ()) (locked_unlocked hp))
  rw [scanPbs, bind_of_ok (acquire_free hp), bind_of_ok (gets_apply _ _)]
  cases best with
  | none =>
    have hne : dp ≠ dynamicPr (s.proc p) := by
      have := (dynamicPr_range (s.proc p)).2
      rw [hdp, Option.map_none, Option.getD_none]
      omega
    have hfalse : decide (dp = dynamicPr ((s.locked c p).proc p)) = false := decide_eq_false hne
    rw [hfalse, bind_of_ok (checkProcess_false ..), bind_of_ok (checkProcess_false ..)]
    by_cases hrun : (s.proc p).state = .runnable
    · rw [if_pos ⟨hrun, .inl rfl⟩, if_pos ⟨hrun, by simp⟩]
      rfl
    · rw [if_neg fun h => hrun h.1, if_neg fun h => hrun h.1, bind_of_ok hdrop]
  | some b =>
    rw [bind_of_ok (checkProcess_some ..), bind_of_ok (checkProcess_some ..)]
    subst hdp
    by_cases hpass : (s.proc p).state = .runnable ∧ (s.proc p).Ahead (s.proc b)
    · have hheld : (s.locked c p).lock b = some c := by
        rw [locked_lock, (hlock b).mpr rfl, ite_self]
      rw [if_pos ⟨hpass.1, .inr (((s.proc p).ahead_iff (s.proc b)).mpr hpass.2)⟩, if_pos ⟨hpass.1, by simpa using hpass.2⟩]
      exact bind_of_ok (release_held hheld) _
    · rw [if_neg fun h => hpass ⟨h.1, ((s.proc p).ahead_iff (s.proc b)).mp (h.2.resolve_left nofun)⟩,
        if_neg fun h => hpass ⟨h.1, h.2 b rfl⟩, bind_of_ok hdrop]

theorem Candidate.hand (h : Candidate view seen best) (hrun : (view p).state = .runnable)
    (hbest : ∀ b ∈ best, (view p).Ahead (view b)) : Candidate view (seen ++ [p]) (some p) := by
  refine ⟨by simp, hrun, fun q hq hqrun => ?_⟩
  rcases mem_append.mp hq with hq | hq
  · have hahead : (view p).Ahead (view q) := by
      cases best with
      | none => exact absurd hqrun (h q hq)
      | some b =>
        have hpb := hbest b rfl
        have hqb := (h.2.2 q hq hqrun).1
        unfold Proc.Ahead at *
        omega
    refine ⟨?_, fun _ => hahead⟩
    unfold Proc.Ahead at *
    omega
  · rw [mem_singleton.mp hq]
    refine ⟨?_, fun hlt => absurd hlt (lt_irrefl p)⟩
    unfold Proc.Ahead
    omega

theorem Candidate.keep (h : Candidate view seen best) (hlast : ∀ q ∈ seen, q < p)
    (hpass : ¬((view p).state = .runnable ∧ ∀ b ∈ best, (view p).Ahead (view b))) : Candidate view (seen ++ [p]) best := by
  cases best with
  | none =>
    intro q hq
    rcases mem_append.mp hq with hq | hq
    · exact h q hq
    · rw [mem_singleton.mp hq]
      exact fun hrun => hpass ⟨hrun, by simp⟩
  | some b =>
    refine ⟨mem_append_left _ h.1, h.2.1, fun q hq hrun => ?_⟩
    rcases mem_append.mp hq with hq | hq
    · exact h.2.2 q hq hrun
    · rw [mem_singleton.mp hq] at hrun ⊢
      refine ⟨fun hahead => hpass ⟨hrun, by simpa using hahead⟩, fun hlt => ?_⟩
      exact absurd (hlast b h.1) (not_lt.mpr hlt.le)

/-- The loop over `ps` behind the slots `seen`. -/
theorem scanPbs_candidate (ps seen : List Slot) (best : Option Slot) (dp : ℤ)
    (hsort : (seen ++ ps).Pairwise (· < ·)) (h : Candidate s.proc seen best)
    (hdp : dp = (best.map fun b => dynamicPr (s.proc b)).getD 999) (hlock : ∀ q, s.lock q = some c ↔ best = some q)
    (hfree : ∀ q ∈ ps, s.lock q = none) :
    ∃ r t, scanPbs c ps best dp s = .ok r t ∧ Candidate s.proc (seen ++ ps) r := by
  induction ps generalizing seen best dp s with
  | nil => exact ⟨best, s, rfl, by rwa [append_nil]⟩
  | cons p ps ih =>
    have hlast : ∀ q ∈ seen, q < p := fun q hq => (pairwise_append.mp hsort).2.2 q hq p (by simp)
    have hrest : ∀ q ∈ ps, p < q := (pairwise_cons.mp (pairwise_append.mp hsort).2.1).1
    have hp := hfree p (by simp)
    rw [scanPbs_cons ps hp hlock hdp, append_cons]
    rw [append_cons] at hsort
    split_ifs with hpass
    · have hproc : (s.handed c p best).proc = s.proc := handed_proc ..
      rw [← hproc]
      refine ih _ _ _ hsort (by rw [hproc]; exact h.hand hpass.1 hpass.2) rfl (fun q => ?_) fun q hq => ?_
      · rw [handed_lock hlock hp, Option.some.injEq, eq_comm]
      · have hqp : q ≠ p := (hrest q hq).ne'
        cases best with
        | none => rw [Sched.handed, locked_lock, if_neg hqp, hfree q (by simp [hq])]
        | some b => rw [Sched.handed, unlocked_lock, locked_lock, if_neg hqp, hfree q (by simp [hq]), ite_self]
    · exact ih _ _ _ hsort (h.keep hlast hpass) hdp hlock fun q hq => hfree q (by simp [hq])

theorem candidate_all {r : Option Slot} (h : Candidate view (List.finRange NPROC) r) :
    (∀ p, r = some p ↔ FirstLeast view p) ∧ (r = none ↔ ∀ q, (view q).state ≠ .runnable) := by
  cases r with
  | none =>
    have hnone (q : Slot) : (view q).state ≠ .runnable := h q (mem_finRange q)
    exact ⟨fun p => iff_of_false nofun fun hp => hnone p hp.1, iff_of_true rfl hnone⟩
  | some b =>
    have hall (q : Slot) := h.2.2 q (mem_finRange q)
    refine ⟨fun p => ⟨?_, fun hp => ?_⟩, iff_of_false nofun fun hnone => hnone b h.2.1⟩
    · rintro ⟨⟩
      exact ⟨h.2.1, hall⟩
    · rcases lt_trichotomy b p with hlt | heq | hlt
      · exact absurd ((hp.2 b h.2.1).2 hlt) (hall p hp.1).1
      · rw [heq]
      · exact absurd ((hall p hp.1).2 hlt) (hp.2 b h.2.1).1

theorem scanPbs_selects (c : Cpu) (hfree : ∀ p, s.lock p = none) :
    ∃ r t, scanPbs c (List.finRange NPROC) none 999 s = .ok r t ∧ (∀ p, r = some p ↔ FirstLeast s.proc p) ∧
      (r = none ↔ ∀ q, (s.proc q).state ≠ .runnable) := by
  obtain ⟨r, t, hrun, hr⟩ := scanPbs_candidate (c := c) (List.finRange NPROC) [] none 999
    (pairwise_lt_finRange NPROC) (by simp [Candidate]) rfl (fun q => by simp [hfree q]) fun q _ => hfree q
  exact ⟨r, t, hrun, candidate_all hr⟩

/-- The loop selects a RUNNABLE process that is least by dynamic priority, `numOfScheduled` and `creationTime` exactly if the
first one that is least by the first two keys is not younger than another one that is. -/
theorem pbs_least_iff (c : Cpu) (s : Sched) (hfree : ∀ p, s.lock p = none) :
    (∃ r t, scanPbs c (List.finRange NPROC) none 999 s = .ok r t ∧ LexLeast s.proc r) ↔
      ∀ p q, FirstLeast s.proc p → (s.proc q).state = .runnable → dynamicPr (s.proc q) = dynamicPr (s.proc p) →
        (s.proc q).numOfScheduled = (s.proc p).numOfScheduled → (s.proc p).creationTime ≤ (s.proc q).creationTime := by
  obtain ⟨r, t, hrun, hsome, hnone⟩ := scanPbs_selects c hfree
  constructor
  · rintro ⟨r', t', hrun', hleast⟩ p q hp hq hdp hnum
    cases hrun.symm.trans hrun'
    rw [(hsome p).mpr hp] at hleast
    have hle := hleast.2 q hq
    unfold Proc.LexLe at hle
    omega
  · intro hall
    refine ⟨r, t, hrun, ?_⟩
    cases r with
    | none => exact hnone.mp rfl
    | some p =>
      have hp := (hsome p).mp rfl
      refine ⟨hp.1, fun q hq => ?_⟩
      have hahead := (hp.2 q hq).1
      have hcreated := hall p q hp hq
      unfold Proc.Ahead at hahead
      unfold Proc.LexLe
      omega

/-- The same two processes, the older one in the first slot. -/
def oldFirst : Sched := { youngFirst with proc := fun p => youngFirst.proc (Equiv.swap 0 1 p) }

theorem pbs_least_oldFirst : ∃ r t, scanPbs 0 (List.finRange NPROC) none 999 oldFirst = .ok r t ∧ LexLeast oldFirst.proc r := by
  have hfirst : ∀ p, FirstLeast oldFirst.proc p → p = 0 := by
    unfold FirstLeast
    decide +kernel
  have hleast : ∀ q, (oldFirst.proc q).state = .runnable → (oldFirst.proc 0).creationTime ≤ (oldFirst.proc q).creationTime := by
    decide +kernel
  refine (pbs_least_iff 0 oldFirst fun _ => rfl).mpr fun p q hp hq _ _ => ?_
  rw [hfirst p hp]
  exact hleast q hq

theorem pbs_picks_younger : (∃ t, scanPbs 0 (List.finRange NPROC) none 999 youngFirst = .ok (some 0) t) ∧
    dynamicPr (youngFirst.proc 1) = dynamicPr (youngFirst.proc 0) ∧
    (youngFirst.proc 1).numOfScheduled = (youngFirst.proc 0).numOfScheduled ∧
    (youngFirst.proc 1).creationTime < (youngFirst.proc 0).creationTime ∧ ¬LexLeast youngFirst.proc (some 0) := by
  obtain ⟨r, t, hrun, hsome, -⟩ := scanPbs_selects 0 (s := youngFirst) fun _ => rfl
  have hfirst : FirstLeast youngFirst.proc 0 := by
    unfold FirstLeast
    decide +kernel
  rw [(hsome 0).mpr hfirst] at hrun
  refine ⟨⟨t, hrun⟩, by decide, by decide, by decide, fun h => ?_⟩
  have hle := h.2 1 rfl
  revert hle
  unfold Proc.LexLe
  decide

/-! ### The dynamic priority -/

/-- The part of the time that the process slept, in tenths. -/
def niceness (pr : Proc) : ℤ :=
  if pr.numOfScheduled > 0 ∧ pr.sleepTime + pr.runTime ≠ 0 then 10 * pr.sleepTime / (pr.sleepTime + pr.runTime) else 5

/-- The dynamic priority over the integers. -/
def exactPr (pr : Proc) : ℤ := max 0 (min 100 (pr.statPr - niceness pr + 5))

/-- The three numbers are what the code stores in an `int`, the times not negative. -/
structure Proc.Stored (pr : Proc) : Prop where
  stat : -2 ^ 31 ≤ pr.statPr ∧ pr.statPr < 2 ^ 31
  sleep : 0 ≤ pr.sleepTime ∧ pr.sleepTime < 2 ^ 31
  run : 0 ≤ pr.runTime ∧ pr.runTime < 2 ^ 31

/-- The sum of the priority, of 5 and of ten times what is left of the sleep as a multiple of the distance of the two times
from 2^32, modulo 2^32. -/
def Proc.residue (pr : Proc) : ℤ := (pr.statPr + 5 + 10 * (pr.sleepTime / (2 ^ 32 - pr.sleepTime - pr.runTime))) % 2 ^ 32

/-- Where the code is right: the niceness is 5; or it is 10; or it is 0, or does not matter since the result is cut at 0 or
at 100; and no sum overflows, or it does not matter either. -/
def Proc.PrExact (pr : Proc) : Prop :=
  pr.numOfScheduled ≤ 0 ∨ pr.sleepTime + pr.runTime = 0 ∨
  (0 < pr.sleepTime ∧ pr.runTime = 0 ∧ -2 ^ 31 + 5 ≤ pr.statPr) ∨
  (0 < pr.runTime ∧ pr.sleepTime + pr.runTime < 2 ^ 31 ∧ pr.statPr < 2 ^ 31 - 5 ∧
    (9 * pr.sleepTime < pr.runTime ∨ pr.statPr ≤ -5 ∨
      100 ≤ pr.statPr - 10 * pr.sleepTime / (pr.sleepTime + pr.runTime) + 5)) ∨
  (2 ^ 31 ≤ pr.sleepTime + pr.runTime ∧
    (9 * pr.sleepTime < pr.runTime ∧ pr.statPr < 2 ^ 31 - 5 ∨
      pr.statPr + 5 ≤ 10 * pr.sleepTime / (pr.sleepTime + pr.runTime) ∧ (pr.residue = 0 ∨ 2 ^ 31 ≤ pr.residue) ∨
      100 ≤ pr.statPr - 10 * pr.sleepTime / (pr.sleepTime + pr.runTime) + 5 ∧ 100 ≤ pr.residue ∧ pr.residue < 2 ^ 31))

theorem niceness_bounds (h : pr.Stored) (hn : pr.numOfScheduled > 0) (hrun : 0 < pr.runTime) :
    0 ≤ niceness pr ∧ niceness pr ≤ 9 ∧ (niceness pr = 0 ↔ 9 * pr.sleepTime < pr.runTime) := by
  have hs := h.sleep.1
  have hsum : 0 < pr.sleepTime + pr.runTime := by omega
  unfold niceness
  rw [if_pos ⟨hn, hsum.ne'⟩]
  have h9 : 10 * pr.sleepTime / (pr.sleepTime + pr.runTime) < 10 := Int.ediv_lt_of_lt_mul hsum (by omega)
  have hnonneg : 0 ≤ 10 * pr.sleepTime / (pr.sleepTime + pr.runTime) := Int.ediv_nonneg (by omega) hsum.le
  refine ⟨hnonneg, by omega, fun hzero => ?_, fun hlt => Int.ediv_eq_zero_of_lt (by omega) (by omega)⟩
  have := (Int.ediv_lt_iff_lt_mul hsum (a := 10 * pr.sleepTime) (b := 1)).mp (by omega)
  omega

/-- The dynamic priority from the niceness that the code computes. -/
theorem dynamicPr_eq {n : ℤ} (hn : pr.numOfScheduled > 0 ∧ int32 (pr.sleepTime + pr.runTime) ≠ 0)
    (heq : int32 (Int.tdiv pr.sleepTime (int32 (pr.sleepTime + pr.runTime)) * 10) = int32 n) :
    dynamicPr pr = max 0 (min 100 (int32 (pr.statPr - n + 5))) := by
  have hwrap : int32 (int32 (pr.statPr - int32 n) + 5) = int32 (pr.statPr - n + 5) := by
    unfold int32
    omega
  unfold dynamicPr
  rw [if_pos hn, heq]
  dsimp only
  rw [hwrap]
  generalize int32 (pr.statPr - n + 5) = v
  split_ifs <;> omega

theorem dynamicPr_five (h : pr.Stored) (hn : ¬(pr.numOfScheduled > 0 ∧ pr.sleepTime + pr.runTime ≠ 0)) :
    dynamicPr pr = exactPr pr := by
  obtain ⟨⟨hl, hu⟩, ⟨hs, -⟩, hr, -⟩ := h
  have hcode : ¬(pr.numOfScheduled > 0 ∧ int32 (pr.sleepTime + pr.runTime) ≠ 0) := by
    refine fun hcode => hn ⟨hcode.1, fun hzero => hcode.2 ?_⟩
    rw [hzero]
    rfl
  have hwrap : int32 (int32 (pr.statPr - 5) + 5) = pr.statPr := by
    unfold int32
    omega
  unfold dynamicPr exactPr niceness
  rw [if_neg hn, if_neg hcode]
  dsimp only
  rw [hwrap]
  split_ifs <;> omega

theorem int32_sum (h : pr.Stored) : int32 (pr.sleepTime + pr.runTime) =
    if pr.sleepTime + pr.runTime < 2 ^ 31 then pr.sleepTime + pr.runTime else pr.sleepTime + pr.runTime - 2 ^ 32 := by
  obtain ⟨-, ⟨hs, hs'⟩, hr, hr'⟩ := h
  unfold int32
  split_ifs <;> omega

/-- The niceness of the code, negative when the sum of the times has overflowed, is never wrong by a multiple of 2^32. -/
theorem niceness_error (h : pr.Stored) (hge : 2 ^ 31 ≤ pr.sleepTime + pr.runTime) (hn : pr.numOfScheduled > 0)
    (hzero : (10 * (pr.sleepTime / (2 ^ 32 - pr.sleepTime - pr.runTime)) + niceness pr) % 2 ^ 32 = 0) :
    9 * pr.sleepTime < pr.runTime := by
  have hdef : niceness pr = 10 * pr.sleepTime / (pr.sleepTime + pr.runTime) := if_pos ⟨hn, by omega⟩
  obtain ⟨-, ⟨hs, hs'⟩, hr, hr'⟩ := id h
  obtain ⟨h0, h9, hnice⟩ := niceness_bounds h hn (by omega)
  obtain ⟨d, hd⟩ : ∃ d, d = 2 ^ 32 - pr.sleepTime - pr.runTime := ⟨_, rfl⟩
  rw [← hd] at hzero
  have hq := Int.ediv_nonneg hs (show 0 ≤ d by omega)
  have hle := Int.mul_ediv_self_le (x := pr.sleepTime) (k := d) (by omega)
  rcases lt_or_ge (pr.sleepTime / d) 429496729 with hsmall | hlarge
  · rw [Int.emod_eq_of_lt (by omega) (by omega)] at hzero
    exact hnice.mp (by omega)
  · -- the sum of the times is one of the four largest
    have hd6 : d < 6 := by
      by_contra hd6
      have := mul_le_mul (not_lt.mp hd6) hlarge (by norm_num) (by omega)
      omega
    have hsum : pr.sleepTime + pr.runTime = 2 ^ 32 - d := by omega
    rw [hdef, hsum] at hzero
    generalize pr.sleepTime = x at *
    have hd2 : 2 ≤ d := by omega
    have hx : 2 ^ 31 - 4 ≤ x := by omega
    interval_cases d <;> interval_cases x <;> norm_num at hzero

section Scheduled

variable (h : pr.Stored) (hn : pr.numOfScheduled > 0 ∧ pr.sleepTime + pr.runTime ≠ 0)

include h hn

theorem int32_sum_ne : int32 (pr.sleepTime + pr.runTime) ≠ 0 := by
  obtain ⟨-, ⟨hs, hs'⟩, hr, hr'⟩ := id h
  rw [int32_sum h]
  split_ifs <;> omega

/-- The process only slept. -/
theorem prExact_of_slept (hzero : 0 = pr.runTime) : dynamicPr pr = exactPr pr ↔ pr.PrExact := by
  obtain ⟨⟨hl, hu⟩, ⟨hs, hs'⟩, -⟩ := id h
  have hquot : Int.tdiv pr.sleepTime (int32 (pr.sleepTime + pr.runTime)) = 1 := by
    rw [int32_sum h, ← hzero, add_zero, if_pos hs']
    exact Int.tdiv_self (by omega)
  have hnice : niceness pr = 10 := by
    rw [niceness, if_pos hn, ← hzero, add_zero]
    exact Int.mul_ediv_cancel _ (by omega)
  rw [dynamicPr_eq (n := 10) ⟨hn.1, int32_sum_ne h hn⟩ (by rw [hquot]; rfl), exactPr, hnice]
  unfold Proc.PrExact int32
  omega

theorem prExact_of_lt (hpos : 0 < pr.runTime) (hlt : pr.sleepTime + pr.runTime < 2 ^ 31) :
    dynamicPr pr = exactPr pr ↔ pr.PrExact := by
  obtain ⟨⟨hl, hu⟩, ⟨hs, -⟩, -⟩ := id h
  obtain ⟨h0, h9, hnice⟩ := niceness_bounds h hn.1 hpos
  have hdef : niceness pr = 10 * pr.sleepTime / (pr.sleepTime + pr.runTime) := if_pos hn
  have hquot : Int.tdiv pr.sleepTime (int32 (pr.sleepTime + pr.runTime)) = 0 := by
    rw [int32_sum h, if_pos hlt]
    exact Int.tdiv_eq_zero_of_lt hs (by omega)
  rw [dynamicPr_eq (n := 0) ⟨hn.1, int32_sum_ne h hn⟩ (by rw [hquot]; rfl), exactPr]
  unfold Proc.PrExact int32
  rw [← hdef]
  omega

/-- The code divides by a negative number. -/
theorem prExact_of_ge (hge : 2 ^ 31 ≤ pr.sleepTime + pr.runTime) : dynamicPr pr = exactPr pr ↔ pr.PrExact := by
  obtain ⟨⟨hl, hu⟩, ⟨hs, hs'⟩, hr, hr'⟩ := id h
  obtain ⟨h0, h9, hnice⟩ := niceness_bounds h hn.1 (by omega)
  have hdef : niceness pr = 10 * pr.sleepTime / (pr.sleepTime + pr.runTime) := if_pos hn
  have hquot : Int.tdiv pr.sleepTime (int32 (pr.sleepTime + pr.runTime)) =
      -(pr.sleepTime / (2 ^ 32 - pr.sleepTime - pr.runTime)) := by
    rw [int32_sum h, if_neg (not_lt.mpr hge), show pr.sleepTime + pr.runTime - 2 ^ 32 =
      -(2 ^ 32 - pr.sleepTime - pr.runTime) by ring, Int.tdiv_neg, Int.tdiv_eq_ediv_of_nonneg hs]
  rw [dynamicPr_eq (n := -(10 * (pr.sleepTime / (2 ^ 32 - pr.sleepTime - pr.runTime)))) ⟨hn.1, int32_sum_ne h hn⟩
    (by rw [hquot]; ring_nf), sub_neg_eq_add, exactPr]
  have herr := niceness_error h hge hn.1
  have hq : 9 * pr.sleepTime < pr.runTime → pr.sleepTime / (2 ^ 32 - pr.sleepTime - pr.runTime) = 0 := fun hlt =>
    Int.ediv_eq_zero_of_lt hs (by omega)
  unfold Proc.PrExact Proc.residue int32
  rw [← hdef]
  generalize pr.sleepTime / (2 ^ 32 - pr.sleepTime - pr.runTime) = q at *
  omega

end Scheduled

theorem dynamicPr_eq_iff (h : pr.Stored) : dynamicPr pr = exactPr pr ↔ pr.PrExact := by
  have hr := h.run.1
  by_cases hn : pr.numOfScheduled > 0 ∧ pr.sleepTime + pr.runTime ≠ 0
  case neg =>
    refine iff_of_true (dynamicPr_five h hn) ?_
    unfold Proc.PrExact
    omega
  rcases hr.eq_or_lt with hzero | hpos
  · exact prExact_of_slept h hn hzero
  rcases lt_or_ge (pr.sleepTime + pr.runTime) (2 ^ 31) with hlt | hge
  · exact prExact_of_lt h hn hpos hlt
  · exact prExact_of_ge h hn hge

theorem niceness_mono (h : pr.Stored) {x : ℤ} (hx : pr.sleepTime ≤ x) :
    niceness pr ≤ niceness { pr with sleepTime := x } := by
  have hs := h.sleep.1
  have hr := h.run.1
  unfold niceness
  dsimp only
  by_cases hn : pr.numOfScheduled > 0
  case neg => rw [if_neg fun h => hn h.1, if_neg fun h => hn h.1]
  by_cases hsum : pr.sleepTime + pr.runTime = 0
  · rw [if_neg fun h => h.2 hsum]
    split_ifs with hx0
    · rw [show pr.runTime = 0 by omega, add_zero, Int.mul_ediv_cancel _ (by omega)]
      norm_num
    · exact le_rfl
  · rw [if_pos ⟨hn, hsum⟩, if_pos ⟨hn, by omega⟩, Int.le_ediv_iff_mul_le (by omega)]
    have hle := Int.ediv_mul_le (10 * pr.sleepTime) hsum
    have hten : 10 * pr.sleepTime / (pr.sleepTime + pr.runTime) ≤ 10 :=
      Int.ediv_le_of_le_mul (by omega) (by omega)
    nlinarith

/-- The dynamic priority of the loop is the exact one just where `PrExact` says; it is between 0 and 100 anyway, and where it
is exact it does not fall with the static priority nor rise with the time slept. -/
theorem pbs_priority_iff (pr : Proc) (h : pr.Stored) :
    (dynamicPr pr = exactPr pr ↔ pr.PrExact) ∧ (0 ≤ dynamicPr pr ∧ dynamicPr pr ≤ 100) ∧
    (∀ x, { pr with statPr := x }.Stored → pr.PrExact → { pr with statPr := x }.PrExact → pr.statPr ≤ x →
      dynamicPr pr ≤ dynamicPr { pr with statPr := x }) ∧
    ∀ x, { pr with sleepTime := x }.Stored → pr.PrExact → { pr with sleepTime := x }.PrExact → pr.sleepTime ≤ x →
      dynamicPr { pr with sleepTime := x } ≤ dynamicPr pr := by
  refine ⟨dynamicPr_eq_iff h, dynamicPr_range pr, fun x hstored hold hnew hx => ?_, fun x hstored hold hnew hx => ?_⟩
  · rw [(dynamicPr_eq_iff h).mpr hold, (dynamicPr_eq_iff hstored).mpr hnew]
    have hsame : niceness { pr with statPr := x } = niceness pr := rfl
    unfold exactPr
    rw [hsame]
    dsimp only
    omega
  · rw [(dynamicPr_eq_iff h).mpr hold, (dynamicPr_eq_iff hstored).mpr hnew]
    have hmono := niceness_mono h hx
    unfold exactPr
    dsimp only
    omega

/-- A process that has run for most of its time; with a higher static priority it comes no earlier. -/
theorem pbs_priority_busy :
    let pr := { Proc.zero with statPr := 60, numOfScheduled := 3, sleepTime := 4, runTime := 50 }
    dynamicPr pr = exactPr pr ∧ exactPr pr = 65 ∧ dynamicPr pr ≤ dynamicPr { pr with statPr := 80 } := by
  have h := pbs_priority_iff { Proc.zero with statPr := 60, numOfScheduled := 3, sleepTime := 4, runTime := 50 }
    (by constructor <;> decide)
  exact ⟨h.1.mpr (by unfold Proc.PrExact; decide), by decide, h.2.2.1 80 (by constructor <;> decide)
    (by unfold Proc.PrExact; decide) (by unfold Proc.PrExact; decide) (by decide)⟩

/-- A process that slept half of the time has the niceness 5, and the loop takes 0 for it. -/
theorem pbs_priority_halfAsleep :
    let pr := { Proc.zero with statPr := 60, numOfScheduled := 1, sleepTime := 1, runTime := 1 }
    pr.Stored ∧ niceness pr = 5 ∧ exactPr pr = 60 ∧ dynamicPr pr = 65 := by
  refine ⟨⟨?_, ?_, ?_⟩, ?_, ?_, ?_⟩ <;> decide

end Xv6
