import Xv6.Proofs.LogProtocol

/-! The admission test of `begin_op` against the panic test of `log_write`. With
mkfs's `nlog = LOGSIZE` the log has room for one block less than the three
admitted operations may fill. -/

namespace Xv6

open System List

namespace LogState

variable {P : Type}

theorem loggedSince_snoc (evs : List (LogEvent P)) (e : LogEvent P) :
    loggedSince (evs ++ [e]) = trackLogged (loggedSince evs) e := by
  simp [loggedSince, foldl_append]

/-- `log.lh` and the events agree on the blocks of the current transaction. -/
structure Tracks (evs : List (LogEvent P)) (s : LogState P) : Prop where
  same : s.panic = none → s.lh.toFinset = (loggedSince evs).toFinset
  nodup : s.lh.Nodup
  room : s.lh.length < s.size
  size : s.size = nlog

theorem Tracks.card {evs : List (LogEvent P)} {s : LogState P} (h : Tracks evs s) (hp : s.panic = none) :
    s.lh.length = (loggedSince evs).toFinset.card := by
  rw [← h.same hp, toFinset_card_of_nodup h.nodup]

theorem absorb_toFinset (lh : List ℕ) (b : ℕ) : (absorb lh b).toFinset = insert b lh.toFinset := by
  ext x
  simp [mem_absorb]

section

variable [DecidableEq P]

omit [DecidableEq P] in
theorem tracks_logWrite {evs : List (LogEvent P)} {s : LogState P} (h : Tracks evs s) (hp : s.panic = none)
    (p : P) (b : ℕ) : Tracks (evs ++ [.logWrite p b]) (s.logWrite p b) := by
  unfold logWrite
  split_ifs with hbig hout
  · exact ⟨fun hn => by simp at hn, h.nodup, h.room, h.size⟩
  · exact ⟨fun hn => by simp at hn, h.nodup, h.room, h.size⟩
  · refine ⟨fun _ => ?_, absorb_nodup _ _ h.nodup, ?_, h.size⟩
    · rw [absorb_toFinset, h.same hp, loggedSince_snoc]
      ext x
      simp [trackLogged]
    · have := absorb_length_le s.lh b
      simp only [tooBig, not_or, not_le] at hbig
      change (absorb s.lh b).length < s.size
      omega

theorem tracks_step (evs : List (LogEvent P)) (s : LogState P) (e : LogEvent P) (s' : LogState P)
    (h : Tracks evs s) (hs : step s e = some s') : Tracks (evs ++ [e]) s' := by
  obtain ⟨hp, hcases⟩ := step_cases hs
  have hkeep : ∀ s₁ : LogState P, s₁.lh = s.lh → s₁.size = s.size →
      loggedSince (evs ++ [e]) = loggedSince evs → Tracks (evs ++ [e]) s₁ := by
    intro s₁ hl hz hev
    refine ⟨fun _ => ?_, ?_, ?_, ?_⟩
    · rw [hl, hev]; exact h.same hp
    · rw [hl]; exact h.nodup
    · rw [hl, hz]; exact h.room
    · rw [hz]; exact h.size
  cases hcases with
  | beginOp | finish | kill => exact hkeep _ rfl rfl (loggedSince_snoc _ _)
  | test => apply hkeep _ _ _ (loggedSince_snoc _ _) <;> unfold test <;> split_ifs <;> rfl
  | logWrite _ b => exact tracks_logWrite h hp _ b
  | endOp => apply hkeep _ _ _ (loggedSince_snoc _ _) <;> unfold endOp <;> dsimp only <;> split_ifs <;> rfl
  | @commit p _ =>
    -- `commit()` starts the next transaction, whether or not it had blocks to write
    have hnil : (s.commit p).lh = [] := by
      unfold commit
      split_ifs with hn
      · rfl
      · exact length_eq_zero_iff.1 (Nat.eq_zero_of_not_pos hn)
    have hz : (s.commit p).size = s.size := by unfold commit; split_ifs <;> rfl
    refine ⟨fun _ => ?_, ?_, ?_, ?_⟩
    · rw [hnil, loggedSince_snoc]
      rfl
    · rw [hnil]; exact nodup_nil
    · rw [hnil, hz]; exact lt_of_le_of_lt (Nat.zero_le _) h.room
    · rw [hz]; exact h.size

theorem tracks_run {start : ℕ} {evs : List (LogEvent P)} {s : LogState P}
    (h : run start nlog evs = some s) : Tracks evs s := by
  have h0 : Tracks [] (init start nlog : LogState P) := ⟨fun _ => rfl, nodup_nil, Nat.succ_pos 29, rfl⟩
  exact exec_history step h0 (fun evs s e s' _ => tracks_step evs s e s') evs s h

omit [DecidableEq P] in
/-- With 29 distinct blocks in the transaction, `log_write` panics whatever it is given. -/
theorem logWrite_panics_iff {evs : List (LogEvent P)} {s : LogState P} (h : Tracks evs s) (hp : s.panic = none)
    (p : P) (b : ℕ) :
    (s.logWrite p b).panic = some .tooBig ↔ nlog - 1 ≤ (loggedSince evs).toFinset.card := by
  have hc := h.card hp
  have hiff : tooBig s.size s.lh ↔ nlog - 1 ≤ (loggedSince evs).toFinset.card := by
    unfold tooBig
    rw [h.size, hc]
    change ((30 : ℕ) : ℤ) ≤ _ ∨ ((30 : ℕ) : ℤ) - 1 ≤ _ ↔ 29 ≤ _
    omega
  unfold logWrite
  split_ifs with hbig hout
  · simp [hiff.1 hbig]
  · simp only [Option.some.injEq, reduceCtorEq, false_iff]
    exact fun h' => hbig (hiff.2 h')
  · simp only [hp, reduceCtorEq, false_iff]
    exact fun h' => hbig (hiff.2 h')

theorem panic_step {s s' : LogState P} {e : LogEvent P} (hs : step s e = some s')
    (ht : s'.panic = some .tooBig) : ∃ p b, e = .logWrite p b ∧ s' = s.logWrite p b := by
  obtain ⟨hp, hcases⟩ := step_cases hs
  cases hcases with
  | beginOp | kill => simp [goto, hp] at ht
  | test => unfold test at ht; split_ifs at ht <;> simp [goto, hp] at ht
  | logWrite _ b => exact ⟨_, b, rfl, rfl⟩
  | endOp => unfold endOp at ht; dsimp only at ht; split_ifs at ht <;> simp [goto, wakeup, hp] at ht
  | commit => unfold commit at ht; split_ifs at ht <;> simp [goto, hp] at ht
  | finish => simp [finish, goto, wakeup, hp] at ht

/-- The panic of `log_write`, and a log block outside the area, are avoided exactly in
the runs that never call `log_write` once the transaction has `nlog - 1` distinct
blocks, be the call for a new block or for one that would be absorbed. -/
theorem log_reservation_iff (start : ℕ) (evs : List (LogEvent P)) (s : LogState P)
    (hrun : run start nlog evs = some s) :
    (∀ pre post s', evs = pre ++ post → run start nlog pre = some s' →
      s'.panic ≠ some .tooBig ∧ s'.InRange) ↔
    ∀ pre p b post, evs = pre ++ .logWrite p b :: post → (loggedSince pre).toFinset.card < nlog - 1 := by
  constructor
  · intro hsafe pre p b post hev
    by_contra hge
    rw [not_lt] at hge
    subst hev
    -- the call at `pre` is made, and panics
    obtain ⟨t, ht, hrest⟩ := exec_prefix step hrun
    rw [exec_cons, Option.bind_eq_some_iff] at hrest
    obtain ⟨t', hstep, -⟩ := hrest
    have hrun' : run start nlog (pre ++ [.logWrite p b]) = some t' := by
      rw [run, exec_snoc, ht]; exact hstep
    obtain ⟨hp, hcases⟩ := step_cases hstep
    have ht' : t' = t.logWrite p b := by
      cases hcases
      rfl
    have hpanic := (logWrite_panics_iff (tracks_run ht) hp p b).2 hge
    rw [← ht'] at hpanic
    exact (hsafe (pre ++ [.logWrite p b]) post t' (by simp) hrun').1 hpanic
  · intro hcond pre post s' hev hrun'
    have htr := tracks_run hrun'
    refine ⟨?_, fun tail htail => ⟨by omega, by have := htr.room; omega⟩⟩
    intro hpanic
    rcases eq_nil_or_concat pre with rfl | ⟨pre', e, rfl⟩
    · cases hrun'
      simp [init] at hpanic
    · rw [concat_eq_append] at hrun' hev
      rw [run, exec_snoc, Option.bind_eq_some_iff] at hrun'
      obtain ⟨t, ht, hstep⟩ := hrun'
      obtain ⟨p, b, rfl, rfl⟩ := panic_step hstep hpanic
      have hge := (logWrite_panics_iff (tracks_run ht) (step_cases hstep).1 p b).1 hpanic
      have hlt := hcond pre' p b post (by simpa using hev)
      omega

end

/-- Three operations, admitted together, that log ten blocks each. -/
def threeFullOps : List (LogEvent (Fin 3)) :=
  [.beginOp 0, .test 0, .beginOp 1, .test 1, .beginOp 2, .test 2] ++
  (List.range 10).map (fun i => .logWrite 0 (100 + i)) ++
  (List.range 10).map (fun i => .logWrite 1 (200 + i)) ++
  (List.range 10).map (fun i => .logWrite 2 (300 + i))

/-- The block that process `p` logs at an event, if any. -/
def blockOf {P : Type} [DecidableEq P] (p : P) : LogEvent P → Option ℕ
  | .logWrite q b => if q = p then some b else none
  | _ => none

theorem threeFullOps_panics :
    (∀ p, (threeFullOps.filterMap (blockOf p)).dedup.length ≤ MAXOPBLOCKS) ∧
    (run 2 nlog threeFullOps).map LogState.panic = some (some .tooBig) := by
  constructor <;> decide +kernel

theorem loggedSince_length_le {P : Type} (evs : List (LogEvent P)) : (loggedSince evs).length ≤ evs.length := by
  induction evs using List.reverseRecOn with
  | nil => rfl
  | append_singleton evs e ih =>
    rw [loggedSince_snoc, length_append, length_singleton]
    cases e <;> simp only [trackLogged, length_append, length_singleton, length_nil] <;> omega

/-- A single operation that logs one block twice. -/
theorem log_reservation_iff_short :
    ∃ s, run 2 nlog ([.beginOp 0, .test 0, .logWrite 0 46, .logWrite 0 46] : List (LogEvent (Fin 1))) = some s ∧
      s.panic ≠ some .tooBig ∧ s.InRange := by
  set evs : List (LogEvent (Fin 1)) := [.beginOp 0, .test 0, .logWrite 0 46, .logWrite 0 46]
  have hsome : (run 2 nlog evs).isSome := by decide
  obtain ⟨s, hs⟩ := Option.isSome_iff_exists.1 hsome
  refine ⟨s, hs, (log_reservation_iff 2 evs s hs).2 ?_ evs [] s (by simp) hs⟩
  intro pre p b post hev
  have hlen := congrArg List.length hev
  have hcard := toFinset_card_le (loggedSince pre)
  have hle := loggedSince_length_le pre
  simp only [evs, length_cons, length_nil, length_append] at hlen
  change _ < 29
  omega

end LogState

end Xv6
