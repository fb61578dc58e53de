import Xv6.Sanity.LogHeader
import Xv6.Spec.LogOps

/-! The group-commit protocol of `begin_op`, `log_write`, `end_op` and `commit` over
all interleavings. One invariant ties `outstanding` to the set of processes inside
an operation and `committing` to the one process in `commit()`; a second one says
in which transaction each operation's blocks went. -/

namespace Xv6

open System List

namespace LogState

variable {P : Type}

/-- `F` is the set of processes between `begin_op` and `end_op`. -/
def Insiders (s : LogState P) (F : Finset P) : Prop := ∀ p, p ∈ F ↔ s.pc p = .inside

structure Inv (s : LogState P) : Prop where
  counted : ∃ F, s.Insiders F ∧ s.outstanding = F.card
  committer : s.committing = true ↔ ∃ p, (s.pc p).inCommit
  alone : ∀ p q, (s.pc p).inCommit → (s.pc q).inCommit → p = q
  idle : s.committing = true → s.outstanding = 0
  panics : s.panic = none ∨ s.panic = some .tooBig
  nodup : s.lh.Nodup

/-- Where the logged blocks went. -/
structure TxInv (s : LogState P) : Prop where
  fresh : ∀ o b t, (o, b, t) ∈ s.logged → o < s.nextOp
  placed : ∀ o b t, (o, b, t) ∈ s.logged → b ∈ (s.txs ++ [s.lh]).getD t []
  current : ∀ p, s.pc p = .inside → ∀ b t, (s.opNo p, b, t) ∈ s.logged → t = s.txs.length
  single : ∀ o b t b' t', (o, b, t) ∈ s.logged → (o, b', t') ∈ s.logged → t = t'
  issuedNo : ∀ p, s.pc p = .inside → s.opNo p < s.nextOp

variable {s : LogState P} {p : P}

theorem inside_outstanding (h : Inv s) (hp : s.pc p = .inside) :
    0 < s.outstanding := by
  obtain ⟨F, hF, hc⟩ := h.counted
  have : 0 < F.card := Finset.card_pos.2 ⟨p, (hF p).2 hp⟩
  omega

theorem inside_not_committing (h : Inv s) (hp : s.pc p = .inside) :
    s.committing = false := by
  by_contra hc
  have := h.idle (by simpa using hc)
  have := inside_outstanding h hp
  omega

theorem not_committing (h : Inv s) (hc : s.committing = false) (q : P) :
    ¬ (s.pc q).inCommit := by
  intro hq
  have := h.committer.2 ⟨q, hq⟩
  simp [hc] at this

theorem wakeup_inside (s : LogState P) (q : P) : s.wakeup.pc q = .inside ↔ s.pc q = .inside := by
  unfold wakeup
  dsimp only
  split_ifs with h
  · simp [h]
  · rfl

theorem wakeup_inCommit (s : LogState P) (q : P) : (s.wakeup.pc q).inCommit ↔ (s.pc q).inCommit := by
  unfold wakeup
  dsimp only
  split_ifs with h
  · simp [h, OpPc.inCommit]
  · rfl

theorem inv_init (start size : ℕ) : Inv (init start size : LogState P) := by
  refine ⟨⟨∅, by simp [Insiders, init], rfl⟩, ?_, ?_, ?_, .inl rfl, nodup_nil⟩
  · simp [init, OpPc.inCommit]
  · intro p q hp; simp [init, OpPc.inCommit] at hp
  · intro h; simp [init] at h

section

variable [DecidableEq P]

@[simp] theorem goto_pc_self (s : LogState P) (p : P) (c : OpPc) : (s.goto p c).pc p = c := by
  simp [goto]

variable {p : P} {s s' : LogState P} {F : Finset P} {c : OpPc} {e : LogEvent P} {start size : ℕ}
  {evs : List (LogEvent P)}

theorem goto_pc_ne (s : LogState P) {q : P} (c : OpPc) (h : q ≠ p) : (s.goto p c).pc q = s.pc q := by
  simp [goto, h]

theorem insiders_enter (hF : s.Insiders F) :
    (s.goto p .inside).Insiders (insert p F) := by
  intro q
  by_cases hq : q = p
  · subst hq; simp
  · rw [Finset.mem_insert, goto_pc_ne s _ hq, ← hF q]
    simp [hq]

theorem insiders_leave (hF : s.Insiders F) (hc : c ≠ .inside) : (s.goto p c).Insiders (F.erase p) := by
  intro q
  by_cases hq : q = p
  · subst hq; simp [hc]
  · rw [Finset.mem_erase, goto_pc_ne s _ hq, ← hF q]
    simp [hq]

/-- Moving a process that is not inside, into `commit()` or out of it excepted. -/
theorem inv_goto (h : Inv s) (hp : s.pc p ≠ .inside) (hc : c ≠ .inside) (hcc : c.inCommit ↔ (s.pc p).inCommit) :
    Inv (s.goto p c) := by
  have hin : ∀ q, ((s.goto p c).pc q).inCommit ↔ (s.pc q).inCommit := by
    intro q
    by_cases hq : q = p
    · rwa [hq, goto_pc_self]
    · rw [goto_pc_ne s _ hq]
  obtain ⟨F, hF, hcard⟩ := h.counted
  refine ⟨⟨F.erase p, insiders_leave hF hc, ?_⟩, ?_, ?_, h.idle, h.panics, h.nodup⟩
  · rwa [Finset.erase_eq_of_notMem (fun hm => hp ((hF p).1 hm))]
  · simp only [hin]
    exact h.committer
  · intro q r hq hr
    exact h.alone q r ((hin q).1 hq) ((hin r).1 hr)

theorem goto_nobody (hnone : ∀ q, q ≠ p → ¬ (s.pc q).inCommit) (hc : ¬ c.inCommit) (q : P) :
    ¬ ((s.goto p c).pc q).inCommit := by
  by_cases hq : q = p
  · rwa [hq, goto_pc_self]
  · rw [goto_pc_ne s _ hq]
    exact hnone q hq

omit [DecidableEq P] in
theorem inv_nobody (hF : s.Insiders F) (hcard : s.outstanding = F.card) (hnone : ∀ q, ¬ (s.pc q).inCommit)
    (hc : ¬ s.committing = true) (hpanics : s.panic = none ∨ s.panic = some .tooBig) (hnodup : s.lh.Nodup) : Inv s :=
  ⟨⟨F, hF, hcard⟩, ⟨fun ht => absurd ht hc, fun ⟨q, hq⟩ => absurd hq (hnone q)⟩, fun q _ hq => absurd hq (hnone q),
    fun ht => absurd ht hc, hpanics, hnodup⟩

omit [DecidableEq P] in
theorem inv_wakeup (h : Inv s) : Inv s.wakeup := by
  obtain ⟨F, hF, hcard⟩ := h.counted
  refine ⟨⟨F, fun q => (hF q).trans (wakeup_inside s q).symm, hcard⟩, ?_, ?_, h.idle, h.panics, h.nodup⟩
  · simp only [wakeup_inCommit]
    exact h.committer
  · intro q r hq hr
    exact h.alone q r ((wakeup_inCommit s q).1 hq) ((wakeup_inCommit s r).1 hr)

theorem inv_test (h : Inv s) (hp : s.pc p = .trying) : Inv (s.test p) := by
  have hsleep : Inv (s.goto p .asleep) :=
    inv_goto h (by simp [hp]) (by simp) (by simp [hp, OpPc.inCommit])
  unfold test
  split_ifs with hc hfull
  · exact hsleep
  · exact hsleep
  · -- admitted: one more insider, and nobody is in `commit()`
    have hcf : s.committing = false := by simpa using hc
    obtain ⟨F, hF, hcard⟩ := h.counted
    have hnone := goto_nobody (p := p) (c := .inside) (fun q _ => not_committing h hcf q) (by simp [OpPc.inCommit])
    refine inv_nobody (insiders_enter hF) ?_ hnone hc h.panics h.nodup
    rw [Finset.card_insert_of_notMem (fun hm => by simp [(hF p).1 hm] at hp)]
    push_cast
    omega

omit [DecidableEq P] in
theorem inv_logWrite (h : Inv s) (hp : s.pc p = .inside) (b : ℕ) :
    Inv (s.logWrite p b) := by
  have hout := inside_outstanding h hp
  unfold logWrite
  split_ifs with hbig ho
  · exact { h with panics := .inr rfl }
  · omega
  · exact { h with nodup := absorb_nodup _ _ h.nodup }

theorem inv_endOp (h : Inv s) (hp : s.pc p = .inside) : Inv (s.endOp p) := by
  have hcf := inside_not_committing h hp
  obtain ⟨F, hF, hcard⟩ := h.counted
  have hmem : p ∈ F := (hF p).2 hp
  have hcard' : s.outstanding - 1 = ((F.erase p).card : ℤ) := by
    rw [Finset.card_erase_of_mem hmem]
    have : 0 < F.card := Finset.card_pos.2 ⟨p, hmem⟩
    omega
  unfold endOp
  dsimp only
  split_ifs with hc hz
  · simp [hcf] at hc
  · -- the last insider turns into the committer
    refine ⟨⟨F.erase p, insiders_leave hF (by simp), hcard'⟩, ?_, ?_, fun _ => hz, h.panics, h.nodup⟩
    · simp only [true_iff]
      exact ⟨p, by simp [goto, OpPc.inCommit]⟩
    · have hself : ∀ q, (((s.goto p .committing).pc q).inCommit) → q = p := by
        intro q hq
        by_contra hne
        rw [goto_pc_ne s _ hne] at hq
        exact not_committing h hcf q hq
      intro q r hq hr
      rw [hself q hq, hself r hr]
  · apply inv_wakeup
    have hnone := goto_nobody (p := p) (c := .out) (fun q _ => not_committing h hcf q) (by simp [OpPc.inCommit])
    exact inv_nobody (insiders_leave hF (by simp)) hcard' hnone hc h.panics h.nodup

theorem inv_commit (h : Inv s) (hp : s.pc p = .committing) : Inv (s.commit p) := by
  have herased : Inv (s.goto p .erased) := inv_goto h (by simp [hp]) (by simp) (by simp [hp, OpPc.inCommit])
  unfold commit
  split_ifs
  · exact { herased with nodup := nodup_nil }
  · exact herased

theorem inv_finish (h : Inv s) (hp : s.pc p = .erased) : Inv (s.finish p) := by
  have hpin : (s.pc p).inCommit := by simp [hp, OpPc.inCommit]
  obtain ⟨F, hF, hcard⟩ := h.counted
  have hnone := goto_nobody (p := p) (c := .out) (fun q hq hqc => hq (h.alone q p hqc hpin)) (by simp [OpPc.inCommit])
  apply inv_wakeup
  refine inv_nobody (insiders_leave hF (by simp)) ?_ hnone (by simp) h.panics h.nodup
  rwa [Finset.erase_eq_of_notMem (fun hm => by simp [(hF p).1 hm] at hp)]

/-- What each event does, with its guard. -/
inductive Steps (s : LogState P) : LogEvent P → LogState P → Prop
  | beginOp {p : P} (hp : s.pc p = .out) : Steps s (.beginOp p) (s.goto p .trying)
  | test {p : P} (hp : s.pc p = .trying) : Steps s (.test p) (s.test p)
  | logWrite {p : P} (hp : s.pc p = .inside) (b : ℕ) : Steps s (.logWrite p b) (s.logWrite p b)
  | endOp {p : P} (hp : s.pc p = .inside) : Steps s (.endOp p) (s.endOp p)
  | commit {p : P} (hp : s.pc p = .committing) : Steps s (.commit p) (s.commit p)
  | finish {p : P} (hp : s.pc p = .erased) : Steps s (.finish p) (s.finish p)
  | kill {p : P} (hp : s.pc p = .asleep) : Steps s (.kill p) (s.goto p .trying)

theorem step_cases (h : step s e = some s') : s.panic = none ∧ Steps s e s' := by
  unfold step at h
  split_ifs at h with hp
  refine ⟨hp, ?_⟩
  cases e <;> simp only [Option.ite_none_right_eq_some, Option.some.injEq] at h <;>
    obtain ⟨hpc, rfl⟩ := h <;> constructor <;> exact hpc

theorem inv_step (s : LogState P) (e : LogEvent P) (s' : LogState P) (h : Inv s) (hs : step s e = some s') :
    Inv s' := by
  cases (step_cases hs).2 with
  | beginOp hp | kill hp => exact inv_goto h (by simp [hp]) (by simp) (by simp [hp, OpPc.inCommit])
  | test hp => exact inv_test h hp
  | logWrite hp b => exact inv_logWrite h hp b
  | endOp hp => exact inv_endOp h hp
  | commit hp => exact inv_commit h hp
  | finish hp => exact inv_finish h hp

theorem inv_run (h : run start size evs = some s) : Inv s :=
  exec_invariant step (inv_init start size) inv_step evs s h

omit [DecidableEq P] in
theorem tx_of_subset (h : TxInv s) (hl : s'.logged = s.logged) (hn : s'.nextOp = s.nextOp)
    (ht : s'.txs = s.txs) (hlh : s'.lh = s.lh) (ho : s'.opNo = s.opNo)
    (hpc : ∀ q, s'.pc q = .inside → s.pc q = .inside) : TxInv s' := by
  refine ⟨?_, ?_, ?_, ?_, ?_⟩
  · rw [hl, hn]; exact h.fresh
  · rw [hl, ht, hlh]; exact h.placed
  · rw [hl, ht, ho]; exact fun q hq => h.current q (hpc q hq)
  · rw [hl]; exact h.single
  · rw [ho, hn]; exact fun q hq => h.issuedNo q (hpc q hq)

theorem goto_inside (hc : c ≠ .inside) (q : P) (hq : (s.goto p c).pc q = .inside) : s.pc q = .inside := by
  by_cases h : q = p
  · subst h; simp [hc] at hq
  · rwa [goto_pc_ne s _ h] at hq

theorem tx_goto (h : TxInv s) (p : P) (hc : c ≠ .inside) : TxInv (s.goto p c) :=
  tx_of_subset h rfl rfl rfl rfl rfl (goto_inside hc)

theorem tx_test (h : TxInv s) (p : P) : TxInv (s.test p) := by
  unfold test
  split_ifs
  · exact tx_goto h p (by simp)
  · exact tx_goto h p (by simp)
  · -- the new operation's number is above every recorded one
    refine ⟨fun o b t hm => Nat.lt_succ_of_lt (h.fresh o b t hm), h.placed, ?_, h.single, ?_⟩
    · intro q hq b t hm
      by_cases hqp : q = p
      · subst hqp
        have := h.fresh _ _ _ hm
        simp at this
      · have hq' : s.pc q = .inside := by rwa [← goto_pc_ne s .inside hqp]
        simp only [Function.update_of_ne hqp] at hm
        exact h.current q hq' b t hm
    · intro q hq
      by_cases hqp : q = p
      · subst hqp; simp
      · have hq' : s.pc q = .inside := by rwa [← goto_pc_ne s .inside hqp]
        simp only [Function.update_of_ne hqp]
        exact Nat.lt_succ_of_lt (h.issuedNo q hq')

theorem getD_last (l : List (List ℕ)) (x : List ℕ) : (l ++ [x]).getD l.length [] = x := by
  simp

omit [DecidableEq P] in
theorem tx_logWrite (h : TxInv s) (hp : s.pc p = .inside) (b : ℕ) :
    TxInv (s.logWrite p b) := by
  unfold logWrite
  split_ifs with hbig hout
  · exact tx_of_subset h rfl rfl rfl rfl rfl (fun _ hq => hq)
  · exact tx_of_subset h rfl rfl rfl rfl rfl (fun _ hq => hq)
  · have hcur := h.current p hp
    refine ⟨?_, ?_, ?_, ?_, h.issuedNo⟩
    · intro o x t hm
      rcases mem_append.1 hm with hm | hm
      · exact h.fresh o x t hm
      · simp only [mem_singleton, Prod.mk.injEq] at hm
        rw [hm.1]; exact h.issuedNo p hp
    · intro o x t hm
      rcases mem_append.1 hm with hm | hm
      · have hx := h.placed o x t hm
        rcases Nat.lt_or_ge t s.txs.length with ht | ht
        · rw [getD_append _ _ _ _ ht] at hx ⊢
          exact hx
        · rcases Nat.eq_or_lt_of_le ht with rfl | hgt
          · rw [getD_last] at hx ⊢
            exact (mem_absorb _ _ _).2 (.inr hx)
          · rw [getD_eq_default _ _ (by simp; omega)] at hx
            simp at hx
      · simp only [mem_singleton, Prod.mk.injEq] at hm
        obtain ⟨-, rfl, rfl⟩ := hm
        rw [getD_last]
        exact (mem_absorb _ _ _).2 (.inl rfl)
    · intro q hq x t hm
      rcases mem_append.1 hm with hm | hm
      · exact h.current q hq x t hm
      · simp only [mem_singleton, Prod.mk.injEq] at hm
        exact hm.2.2
    · intro o x t x' t' hm hm'
      rcases mem_append.1 hm with hm | hm <;> rcases mem_append.1 hm' with hm' | hm'
      · exact h.single o x t x' t' hm hm'
      · simp only [mem_singleton, Prod.mk.injEq] at hm'
        obtain ⟨rfl, -, rfl⟩ := hm'
        exact hcur x t hm
      · simp only [mem_singleton, Prod.mk.injEq] at hm
        obtain ⟨rfl, -, rfl⟩ := hm
        exact (hcur x' t' hm').symm
      · simp only [mem_singleton, Prod.mk.injEq] at hm hm'
        rw [hm.2.2, hm'.2.2]

theorem tx_endOp (h : TxInv s) (p : P) : TxInv (s.endOp p) := by
  unfold endOp
  dsimp only
  split_ifs
  · exact tx_of_subset h rfl rfl rfl rfl rfl (fun _ hq => hq)
  · exact tx_of_subset h rfl rfl rfl rfl rfl (goto_inside (by simp))
  · exact tx_of_subset h rfl rfl rfl rfl rfl
      (fun q hq => goto_inside (by simp) q ((wakeup_inside _ q).1 hq))

theorem tx_commit (h : TxInv s) (hi : Inv s) (hp : s.pc p = .committing) :
    TxInv (s.commit p) := by
  have hpin : (s.pc p).inCommit := by simp [hp, OpPc.inCommit]
  -- with a process in `commit()` nobody is inside an operation
  have hnone : ∀ q, s.pc q ≠ .inside := by
    intro q hq
    have hc := inside_not_committing hi hq
    exact not_committing hi hc p hpin
  unfold commit
  split_ifs
  · refine ⟨h.fresh, ?_, ?_, h.single, ?_⟩
    · intro o b t hm
      have hb := h.placed o b t hm
      have ht : t < (s.txs ++ [s.lh]).length := by
        by_contra hge
        rw [getD_eq_default _ _ (by omega)] at hb
        simp at hb
      dsimp only
      rwa [getD_append _ _ _ _ ht]
    all_goals intro q hq; exact absurd (goto_inside (by simp) q hq) (hnone q)
  · exact tx_goto h p (by simp)

theorem tx_finish (h : TxInv s) (p : P) : TxInv (s.finish p) :=
  tx_of_subset h rfl rfl rfl rfl rfl
    (fun q hq => goto_inside (by simp) q ((wakeup_inside _ q).1 hq))

theorem tx_step (s : LogState P) (e : LogEvent P) (s' : LogState P) (h : Inv s ∧ TxInv s)
    (hs : step s e = some s') : Inv s' ∧ TxInv s' := by
  refine ⟨inv_step s e s' h.1 hs, ?_⟩
  cases (step_cases hs).2 with
  | beginOp | kill => exact tx_goto h.2 _ (by simp)
  | test => exact tx_test h.2 _
  | logWrite hp b => exact tx_logWrite h.2 hp b
  | endOp => exact tx_endOp h.2 _
  | commit hp => exact tx_commit h.2 h.1 hp
  | finish => exact tx_finish h.2 _

theorem tx_run (h : run start size evs = some s) : TxInv s := by
  refine (exec_invariant step ⟨inv_init start size, ?_⟩ tx_step evs s h).2
  exact ⟨by simp [init], by simp [init], by simp [init], by simp [init], by simp [init]⟩

/-- While a process is in `commit()`, an event leaves `log.lh` alone or erases it. -/
theorem lh_frozen (h : Inv s) (hs : step s e = some s')
    (hc : ∃ p, (s.pc p).inCommit) : s'.lh = s.lh ∨ s'.lh = [] := by
  cases (step_cases hs).2 with
  | beginOp | finish | kill => exact .inl rfl
  | test => unfold test; split_ifs <;> exact .inl rfl
  | logWrite hp b =>
    obtain ⟨q, hq⟩ := hc
    exact absurd hq (not_committing h (inside_not_committing h hp) q)
  | endOp => unfold endOp; dsimp only; split_ifs <;> exact .inl rfl
  | commit =>
    unfold commit; split_ifs
    · exact .inr rfl
    · exact .inl rfl

/-- The log protocol, in every state of every interleaving. -/
theorem log_protocol (start size : ℕ) (evs : List (LogEvent P)) (s : LogState P)
    (hrun : run start size evs = some s) :
    (s.committing = true → s.outstanding = 0) ∧
    (∀ p q, (s.pc p).inCommit → (s.pc q).inCommit → p = q) ∧
    (∀ e s', step s e = some s' → (∃ p, (s.pc p).inCommit) → s'.lh = s.lh ∨ s'.lh = []) ∧
    s.panic ≠ some .logCommitting ∧ s.panic ≠ some .outsideTrans ∧
    s.lh.Nodup ∧
    (∀ o, ∃ t, ∀ b t', (o, b, t') ∈ s.logged → t' = t ∧ b ∈ (s.txs ++ [s.lh]).getD t []) := by
  have hi := inv_run hrun
  have ht := tx_run hrun
  refine ⟨hi.idle, hi.alone, fun e s' hs hc => lh_frozen hi hs hc, ?_, ?_, hi.nodup, ?_⟩
  · rcases hi.panics with h | h <;> simp [h]
  · rcases hi.panics with h | h <;> simp [h]
  · intro o
    by_cases hex : ∃ b t, (o, b, t) ∈ s.logged
    · obtain ⟨b₀, t₀, hm⟩ := hex
      refine ⟨t₀, fun b t' hm' => ?_⟩
      have he : t' = t₀ := ht.single o b t' b₀ t₀ hm' hm
      exact ⟨he, he ▸ ht.placed o b t' hm'⟩
    · exact ⟨0, fun b t' hm' => absurd ⟨b, t', hm'⟩ hex⟩

end

/-- Two operations that join one transaction, the second one absorbing a block. -/
def groupCommit : List (LogEvent (Fin 2)) :=
  [.beginOp 0, .test 0, .beginOp 1, .test 1, .logWrite 0 46, .logWrite 1 47, .logWrite 1 46,
    .endOp 0, .endOp 1, .commit 1, .finish 1]

theorem log_protocol_groupCommit : ∃ s, run 2 nlog groupCommit = some s ∧ s.txs = [[46, 47]] ∧
    ∀ o, ∃ t, ∀ b t', (o, b, t') ∈ s.logged → t' = t ∧ b ∈ (s.txs ++ [s.lh]).getD t [] := by
  have htx : (run 2 nlog groupCommit).map LogState.txs = some [[46, 47]] := by decide
  obtain ⟨s, hs, htxs⟩ := Option.map_eq_some_iff.1 htx
  exact ⟨s, hs, htxs, (log_protocol 2 nlog groupCommit s hs).2.2.2.2.2.2⟩

end LogState

end Xv6
