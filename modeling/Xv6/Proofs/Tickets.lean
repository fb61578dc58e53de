import Xv6.Proofs.FcfsOldest
import Xv6.Proofs.Lottery

/-! The tickets of the lottery. The second loop finds the holder of the ticket drawn, so that every process would be chosen
as often as it has tickets; but the only ticket that `getrand` draws is the first one. -/

namespace Xv6

open Prog Function List

/-- The tickets with which a process takes part. -/
def share (view : Slot → Proc) (p : Slot) : ℤ := if (view p).state = .runnable then (view p).tickets else 0

/-- Those of the lower slots. -/
def sharesBelow (view : Slot → Proc) (p : Slot) : ℤ := (((List.finRange NPROC).take p).map (share view)).sum

def HoldsTicket (view : Slot → Proc) (ans : ℤ) (p : Slot) : Prop :=
  (view p).state = .runnable ∧ sharesBelow view p ≤ ans ∧ ans < sharesBelow view p + (view p).tickets

/-- Every RUNNABLE process has a ticket, and they can be counted in an `int`. -/
structure Ticketed (view : Slot → Proc) : Prop where
  one : ∀ p, (view p).state = .runnable → 1 ≤ (view p).tickets
  total : ∑ p, share view p < 2 ^ 31

variable {view : Slot → Proc} {ans passed : ℤ} {s : Sched} {c : Cpu} {p : Slot}

/-- Without the other CPUs, the second loop stops at the process drawn, with its lock. -/
theorem scanLbs_draw (hfree : ∀ p, s.lock p = none) (ps : List Slot) (passed : ℤ) : scanLbs c ans ps passed s =
    .ok (draw s.proc ans ps passed) ((draw s.proc ans ps passed).elim s (s.locked c)) := by
  induction ps generalizing passed with
  | nil => rfl
  | cons p ps ih =>
    have hrelease : release c p (s.locked c p) = .ok () s := by
      rw [release_held (show (s.locked c p).lock p = some c from update_self ..)]
      exact congrArg _ (locked_unlocked (hfree p))
    have hnext (passed : ℤ) : (do release c p; scanLbs c ans ps passed : SchedM (Option Slot)) (s.locked c p) =
        scanLbs c ans ps passed s := bind_of_ok hrelease _
    unfold scanLbs draw
    rw [bind_of_ok (acquire_free (hfree p)), bind_of_ok (gets_apply _ _), show (s.locked c p).proc = s.proc from rfl]
    dsimp only
    by_cases hp : (s.proc p).state = .runnable
    · rw [if_pos hp, if_pos hp]
      by_cases hgt : ans < int32 (passed + (s.proc p).tickets)
      · rw [if_pos hgt, if_pos hgt]
        rfl
      · rw [if_neg hgt, if_neg hgt]
        exact (hnext _).trans (ih _)
    · rw [if_neg hp, if_neg hp]
      exact (hnext _).trans (ih _)

/-- An iteration that no other CPU disturbs is the lottery on the processes as they stand. -/
theorem pass_lottery (hfree : ∀ p, s.lock p = none) : pass .lbs c s =
    (lottery s.seed s.proc s.proc).elim (.ok () { s with seed := Int.tmod (int32 (s.seed * s.seed)) 100 }) fun q =>
      (do runChosen c q; release c q : SchedM Unit)
        ({ s with seed := Int.tmod (int32 (s.seed * s.seed)) 100 }.locked c q) := by
  have hrand : getrand (totTickets s) s =
      .ok (int32 (Int.tdiv (Int.tmod (int32 (s.seed * s.seed)) 100) 99 * totTickets s))
        { s with seed := Int.tmod (int32 (s.seed * s.seed)) 100 } := rfl
  unfold pass
  dsimp only
  rw [bind_of_ok (gets_apply _ _), bind_of_ok hrand,
    bind_of_ok (scanLbs_draw (s := { s with seed := Int.tmod (int32 (s.seed * s.seed)) 100 }) hfree _ _)]
  unfold lottery totTickets
  cases draw s.proc _ (List.finRange NPROC) 0 <;> rfl

theorem holdsTicket_iff : HoldsTicket view ans p ↔
    sharesBelow view p ≤ ans ∧ ans < sharesBelow view p + share view p := by
  unfold HoldsTicket share
  split_ifs with hp
  · simp [hp]
  · simp only [hp, false_and, false_iff]
    omega

theorem sharesBelow_split {pre post : List Slot} (h : List.finRange NPROC = pre ++ p :: post) :
    sharesBelow view p = (pre.map (share view)).sum := by
  rw [sharesBelow, h, ← length_split h, take_left]

theorem holder_split (ps : List Slot) (hlow : passed ≤ ans) (hhigh : ans < passed + (ps.map (share view)).sum) :
    ∃ pre p post, ps = pre ++ p :: post ∧ passed + (pre.map (share view)).sum ≤ ans ∧
      ans < passed + (pre.map (share view)).sum + share view p := by
  induction ps generalizing passed with
  | nil =>
    rw [map_nil, sum_nil] at hhigh
    omega
  | cons p ps ih =>
    rcases lt_or_ge ans (passed + share view p) with hlt | hge
    · exact ⟨[], p, ps, rfl, by simpa using hlow, by simpa using hlt⟩
    · rw [map_cons, sum_cons, ← add_assoc] at hhigh
      obtain ⟨pre, q, post, rfl, hq⟩ := ih hge hhigh
      refine ⟨p :: pre, q, post, rfl, ?_⟩
      rwa [map_cons, sum_cons, ← add_assoc]

/-- Every ticket has a holder. -/
theorem exists_holder (hlow : 0 ≤ ans) (hhigh : ans < ∑ p, share view p) : ∃ p, HoldsTicket view ans p := by
  rw [Fin.sum_univ_def, ← zero_add (List.sum _)] at hhigh
  obtain ⟨pre, p, post, hsplit, hp⟩ := holder_split _ hlow hhigh
  refine ⟨p, holdsTicket_iff.mpr ?_⟩
  rwa [sharesBelow_split hsplit, ← zero_add (List.sum _)]

section

variable (h : Ticketed view)

include h

theorem Ticketed.share_nonneg (p : Slot) : 0 ≤ share view p := by
  unfold share
  split_ifs with hrun
  · have := h.one p hrun
    omega
  · exact le_rfl

theorem Ticketed.shares_nonneg (ps : List Slot) : 0 ≤ (ps.map (share view)).sum :=
  sum_nonneg fun x hx => by
    obtain ⟨p, -, rfl⟩ := mem_map.mp hx
    exact h.share_nonneg p

/-- The tickets passed do not overflow. -/
theorem Ticketed.passed_eq (ps : List Slot) (hpassed : 0 ≤ passed) (hsum : passed + (ps.map (share view)).sum < 2 ^ 31) :
    ticketsFrom view passed ps = passed + (ps.map (share view)).sum := by
  induction ps generalizing passed with
  | nil => simp [ticketsFrom]
  | cons p ps ih =>
    rw [map_cons, sum_cons, ← add_assoc] at hsum ⊢
    have hp := h.share_nonneg p
    have hps := h.shares_nonneg ps
    rw [← ih (by omega) hsum]
    unfold ticketsFrom share
    rw [foldl_cons]
    split_ifs with hrun
    · rw [share, if_pos hrun] at hsum hp
      rw [int32_of_range (by omega) (by omega)]
    · rw [add_zero]

theorem Ticketed.draw_cons (ps : List Slot) (hpassed : 0 ≤ passed) (hle : passed ≤ ans)
    (hsum : passed + share view p < 2 ^ 31) : draw view ans (p :: ps) passed =
      if ans < passed + share view p then some p else draw view ans ps (passed + share view p) := by
  have hp := h.share_nonneg p
  rw [draw]
  unfold share at hp hsum ⊢
  by_cases hrun : (view p).state = .runnable
  · rw [if_pos hrun] at hp hsum
    rw [if_pos hrun, if_pos hrun, int32_of_range (by omega) hsum]
  · rw [if_neg hrun, if_neg hrun, add_zero, if_neg (not_lt.mpr hle)]

/-- The draw finds the ticket `ans` at its holder. -/
theorem Ticketed.draw_eq (pre post : List Slot) (hpassed : 0 ≤ passed)
    (hsum : passed + ((pre ++ p :: post).map (share view)).sum < 2 ^ 31)
    (hlow : passed + (pre.map (share view)).sum ≤ ans) (hhigh : ans < passed + (pre.map (share view)).sum + share view p) :
    draw view ans (pre ++ p :: post) passed = some p := by
  induction pre generalizing passed with
  | nil =>
    have hpost := h.shares_nonneg post
    rw [nil_append, map_cons, sum_cons] at hsum
    rw [map_nil, sum_nil, add_zero] at hlow hhigh
    rw [nil_append, h.draw_cons post hpassed hlow (by omega), if_pos hhigh]
  | cons q pre ih =>
    have hq := h.share_nonneg q
    have hpre := h.shares_nonneg pre
    have hrest := h.shares_nonneg (pre ++ p :: post)
    rw [cons_append, map_cons, sum_cons, ← add_assoc] at hsum
    rw [map_cons, sum_cons, ← add_assoc] at hlow hhigh
    rw [cons_append, h.draw_cons _ hpassed (by omega) (by omega), if_neg (by omega)]
    exact ih (by omega) hsum hlow hhigh

theorem Ticketed.totTickets_eq : ticketsOf view (List.finRange NPROC) = ∑ p, share view p := by
  have htotal := h.total
  rw [Fin.sum_univ_def] at htotal ⊢
  exact (h.passed_eq _ le_rfl (by rwa [zero_add])).trans (zero_add _)

theorem Ticketed.draw_holder (hp : HoldsTicket view ans p) : draw view ans (List.finRange NPROC) 0 = some p := by
  obtain ⟨hlow, hhigh⟩ := holdsTicket_iff.mp hp
  have htotal := h.total
  obtain ⟨pre, post, hsplit⟩ := append_of_mem (mem_finRange p)
  rw [Fin.sum_univ_def, hsplit] at htotal
  rw [sharesBelow_split hsplit] at hlow hhigh
  rw [hsplit]
  exact h.draw_eq pre post le_rfl (by rwa [zero_add]) (by rwa [zero_add]) (by rwa [zero_add])

theorem Ticketed.holder_lt (hp : HoldsTicket view ans p) : 0 ≤ ans ∧ ans < ∑ p, share view p := by
  obtain ⟨hlow, hhigh⟩ := holdsTicket_iff.mp hp
  obtain ⟨pre, post, hsplit⟩ := append_of_mem (mem_finRange p)
  rw [sharesBelow_split hsplit] at hlow hhigh
  have hpre := h.shares_nonneg pre
  have hpost := h.shares_nonneg post
  rw [Fin.sum_univ_def, hsplit, map_append, sum_append, map_cons, sum_cons]
  omega

end

/-- The second loop stops at the one process that holds the ticket drawn, with its lock and no other; over all draws every
process is chosen as often as it has tickets. -/
theorem scanLbs_fair (c : Cpu) (s : Sched) (hfree : ∀ p, s.lock p = none) (h : Ticketed s.proc) :
    totTickets s = ∑ p, share s.proc p ∧
    (∀ ans, 0 ≤ ans → ans < totTickets s → ∃ p, HoldsTicket s.proc ans p ∧ (∀ q, HoldsTicket s.proc ans q → q = p) ∧
      scanLbs c ans (List.finRange NPROC) 0 s = .ok (some p) (s.locked c p)) ∧
    ∀ p, (s.proc p).state = .runnable → Set.ncard {ans | 0 ≤ ans ∧ ans < totTickets s ∧
      ∃ t, scanLbs c ans (List.finRange NPROC) 0 s = .ok (some p) t} = (s.proc p).tickets := by
  have htot : totTickets s = ∑ p, share s.proc p := h.totTickets_eq
  have hscan {ans : ℤ} {p : Slot} (hp : HoldsTicket s.proc ans p) :
      scanLbs c ans (List.finRange NPROC) 0 s = .ok (some p) (s.locked c p) := by
    rw [scanLbs_draw hfree, h.draw_holder hp]
    rfl
  refine ⟨htot, fun ans hlow hhigh => ?_, fun p hrun => ?_⟩
  · obtain ⟨p, hp⟩ := exists_holder hlow (htot ▸ hhigh)
    refine ⟨p, hp, fun q hq => ?_, hscan hp⟩
    exact Option.some.inj ((h.draw_holder hq).symm.trans (h.draw_holder hp))
  · have hset : {ans | 0 ≤ ans ∧ ans < totTickets s ∧ ∃ t, scanLbs c ans (List.finRange NPROC) 0 s = .ok (some p) t} =
        Finset.Ico (sharesBelow s.proc p) (sharesBelow s.proc p + (s.proc p).tickets) := by
      ext ans
      rw [Finset.coe_Ico, Set.mem_Ico]
      constructor
      · rintro ⟨hlow, hhigh, t, ht⟩
        obtain ⟨q, hq⟩ := exists_holder hlow (htot ▸ hhigh)
        cases (hscan hq).symm.trans ht
        exact hq.2
      · intro hans
        have hp : HoldsTicket s.proc ans p := ⟨hrun, hans⟩
        have hrange := h.holder_lt hp
        exact ⟨hrange.1, htot ▸ hrange.2, _, hscan hp⟩
    have hone := h.one p hrun
    rw [hset, Set.ncard_coe_finset, Int.card_Ico]
    omega

/-- The second process has 99 of 100 tickets. -/
def rich : Sched :=
  { Sched.zero with proc := fun p =>
      if p.val < 2 then { Proc.zero with state := .runnable, tickets := 1 + 98 * p } else Proc.zero }

theorem rich_ticketed : Ticketed rich.proc where
  one := by decide +kernel
  total := by decide +kernel

theorem scanLbs_fair_rich : Set.ncard {ans | 0 ≤ ans ∧ ans < totTickets rich ∧
    ∃ t, scanLbs 0 ans (List.finRange NPROC) 0 rich = .ok (some 1) t} = (99 : ℤ) :=
  (scanLbs_fair 0 rich (fun _ => rfl) rich_ticketed).2.2 1 rfl

/-! ### The draws of `getrand` -/

/-- The seeds from 37 on. -/
def seedAt : ℕ → ℤ
  | 0 => 37
  | n + 1 => Int.tmod (int32 (seedAt n * seedAt n)) 100

theorem seedAt_mem (n : ℕ) : seedAt n ∈ seeds := by
  induction n with
  | zero => decide
  | succ n ih => exact nextSeed_mem ih

/-- The first RUNNABLE process. -/
def firstRunnable (view : Slot → Proc) : Option Slot := (List.finRange NPROC).find? fun p => (view p).state = .runnable

theorem getrand_zero (s : Sched) (tot : ℤ) (n : ℕ) :
    getrand tot { s with seed := seedAt n } = .ok 0 { s with seed := seedAt (n + 1) } :=
  congrArg (Outcome.ok · _) (rand_zero (seedAt_mem n) tot)

theorem Ticketed.share_le (h : Ticketed view) (p : Slot) : share view p ≤ ∑ p, share view p :=
  Finset.single_le_sum (fun q _ => h.share_nonneg q) (Finset.mem_univ p)

theorem Ticketed.draw_first (h : Ticketed view) : draw view 0 (List.finRange NPROC) 0 = firstRunnable view := by
  unfold firstRunnable
  induction List.finRange NPROC with
  | nil => rfl
  | cons p ps ih =>
    rw [h.draw_cons ps le_rfl le_rfl (by rw [zero_add]; exact (h.share_le p).trans_lt h.total), zero_add, List.find?_cons, share]
    by_cases hrun : (view p).state = .runnable
    · have hone : 0 < (view p).tickets := h.one p hrun
      rw [if_pos hrun, if_pos hone, decide_eq_true hrun]
    · rw [if_neg hrun, if_neg (lt_irrefl 0), decide_eq_false hrun, ih]

/-- With every seed the loop stops at the first RUNNABLE process. -/
theorem getrand_scan (c : Cpu) (hfree : ∀ p, s.lock p = none) (h : Ticketed s.proc) (n : ℕ) : ∃ t,
    (do scanLbs c (← getrand (totTickets s)) (List.finRange NPROC) 0) { s with seed := seedAt n } =
      .ok (firstRunnable s.proc) t := by
  rw [bind_of_ok (getrand_zero s _ n), scanLbs_draw (s := { s with seed := seedAt (n + 1) }) hfree, h.draw_first]
  exact ⟨_, rfl⟩

/-- The draws are tickets that exist, and every process with half of the tickets is selected for some seed, exactly if there
is a RUNNABLE process and only the first one may have half of the tickets. -/
theorem lottery_fair_iff (c : Cpu) (s : Sched) (hfree : ∀ p, s.lock p = none) (h : Ticketed s.proc) :
    ((∀ n, ∃ ans t, getrand (totTickets s) { s with seed := seedAt n } = .ok ans t ∧ 0 ≤ ans ∧ ans < totTickets s) ∧
      ∀ p, (s.proc p).state = .runnable → totTickets s ≤ 2 * (s.proc p).tickets → ∃ n t,
        (do scanLbs c (← getrand (totTickets s)) (List.finRange NPROC) 0) { s with seed := seedAt n } = .ok (some p) t) ↔
    (∃ p, (s.proc p).state = .runnable) ∧ ∀ p, (s.proc p).state = .runnable → totTickets s ≤ 2 * (s.proc p).tickets →
      firstRunnable s.proc = some p := by
  have htot : totTickets s = ∑ p, share s.proc p := h.totTickets_eq
  refine and_congr ⟨fun hdraw => ?_, fun ⟨p, hp⟩ n => ⟨0, _, getrand_zero s _ n, le_rfl, ?_⟩⟩
    (forall_congr' fun p => imp_congr_right fun hp => imp_congr_right fun _ => ⟨fun ⟨n, t, hscan⟩ => ?_, fun hfirst => ⟨0, ?_⟩⟩)
  · obtain ⟨ans, t, -, hlow, hhigh⟩ := hdraw 0
    obtain ⟨p, hp⟩ := exists_holder hlow (htot ▸ hhigh)
    exact ⟨p, hp.1⟩
  · have hshare := h.share_le p
    have hone := h.one p hp
    rw [share, if_pos hp] at hshare
    omega
  · obtain ⟨t', hscan'⟩ := getrand_scan c hfree h n
    rw [hscan] at hscan'
    injection hscan' with hfirst
    exact hfirst.symm
  · rw [← hfirst]
    exact getrand_scan c hfree h 0

/-- The first process has 99 of 100 tickets. -/
def richFirst : Sched := { rich with proc := fun p => rich.proc (Equiv.swap 0 1 p) }

theorem lottery_fair_richFirst : ∃ n t, (do scanLbs 0 (← getrand (totTickets richFirst)) (List.finRange NPROC) 0)
    { richFirst with seed := seedAt n } = .ok (some 0) t :=
  ((lottery_fair_iff 0 richFirst (fun _ => rfl) ⟨by decide +kernel, by decide +kernel⟩).mpr
    ⟨⟨0, by decide +kernel⟩, by decide +kernel⟩).2 0 (by decide +kernel) (by decide +kernel)

theorem lottery_starves : Ticketed rich.proc ∧ (rich.proc 1).state = .runnable ∧ (rich.proc 1).tickets = 99 ∧
    totTickets rich = 100 ∧ ∀ n t, (do scanLbs 0 (← getrand (totTickets rich)) (List.finRange NPROC) 0)
      { rich with seed := seedAt n } ≠ .ok (some 1) t := by
  refine ⟨rich_ticketed, rfl, by decide, by decide +kernel, fun n t hscan => ?_⟩
  obtain ⟨t', hscan'⟩ := getrand_scan 0 (fun _ => rfl) rich_ticketed n
  rw [hscan, show firstRunnable rich.proc = some 0 by decide +kernel] at hscan'
  cases hscan'

end Xv6
