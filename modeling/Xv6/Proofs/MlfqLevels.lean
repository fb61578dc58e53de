import Xv6.Proofs.MlfqLocks
import Xv6.Proofs.QueueBounds

/-! The levels of the MLFQ build. `num_of_ticks` is never incremented, so that no process ever leaves level 0 and every
process is switched to from queue 0; a process that yields is taken off that queue. -/

namespace Xv6

open Prog Function

/-- Nothing ever enters the queues 1 to 4. -/
structure Quiet (s : Sched) : Prop where
  others : ∀ k, k ≠ 0 → s.ptr k = -1
  noTicks : ∀ p, (s.proc p).NoTicks
  level : ∀ p, (s.proc p).currQueue = 0

variable {s t : Sched} {i : ℤ} {c : Cpu} {p : Slot}

theorem Quiet.congr (h : Quiet s) (hptr : t.ptr = s.ptr) (hproc : t.proc = s.proc) : Quiet t :=
  ⟨by rw [hptr]; exact h.others, by rw [hproc]; exact h.noTicks, by rw [hproc]; exact h.level⟩

theorem Quiet.setProc (h : Quiet s) (p : Slot) {f : Proc → Proc} (hf : Tame f) : Quiet (s.setProc p f) := by
  have hupd (P : Proc → Prop) (hall : ∀ q, P (s.proc q)) (hp : P (f (s.proc p))) (q : Slot) :
      P ((s.setProc p f).proc q) := by
    unfold Sched.setProc
    by_cases hq : q = p
    · subst hq
      simpa using hp
    · simpa [hq] using hall q
  exact ⟨h.others, hupd Proc.NoTicks h.noTicks (hf.noTicks _ (h.noTicks p)),
    hupd (fun pr => pr.currQueue = 0) h.level (hf.level _ (h.level p))⟩

theorem tick_level {pr : Proc} (h : pr.currQueue = 0) : pr.tick.currQueue = 0 := by
  unfold Proc.tick
  split <;> exact h

theorem quiet_ptr (h : Quiet s) (v : ℤ) : Quiet { s with ptr := update s.ptr 0 v } :=
  ⟨fun k hk => by simpa [hk] using h.others k hk, h.noTicks, h.level⟩

theorem quiet_lasts : Lasts Quiet fun _ => Quiet where
  proc _ p _ hf h := h.setProc p hf
  tick _ h := ⟨h.others, fun p => tick_noTicks (h.noTicks p), fun p => tick_level (h.level p)⟩
  pid _ _ h := h.congr rfl rfl
  note _ _ _ h := h.congr rfl rfl
  push p := by
    refine holds_conseq (holds_push (I := Quiet) (fun _ v h => quiet_ptr h v) (fun _ _ h => h.congr rfl rfl) (some p)) ?_
      fun _ _ h => h
    rintro t ⟨s, hs, rfl⟩
    exact hs.congr rfl rfl

theorem quiet_choose (c : Cpu) (p : Slot) : Keeps Quiet (choose c p) fun _ => Quiet :=
  keeps_bind (keeps_gets _) fun _ => keeps_bind (quiet_lasts.updProc p ⟨fun _ => id, fun _ => id⟩) fun _ =>
    keeps_bind (keeps_modify fun _ h => h.congr rfl rfl) fun _ => quiet_lasts.updProc p ⟨fun _ => id, fun _ => id⟩

theorem tame_zeroTicks (k : ℤ) : Tame fun pr => { pr with numOfTicks := update pr.numOfTicks k 0 } := by
  refine ⟨fun pr h i h0 h5 => ?_, fun _ => id⟩
  simp only [update_apply]
  split_ifs
  · rfl
  · exact h i h0 h5

/-- The processes that stand in queue 0 after the shift. -/
theorem at_shifted (h0 : 0 ≤ i) (hlast : i ≤ s.ptr 0 → s.ptr 0 + 1 < NPROC)
    (hqueue : t.queue 0 = shifted (s.queue 0) i (s.ptr 0 - i + 1).toNat) (hptr : t.ptr 0 = s.ptr 0 - 1) (q : Slot) :
    (∃ j, t.At 0 j q) ↔ ∃ j : Slot, (j.val : ℤ) ≠ min i (s.ptr 0) ∧ s.At 0 j q := by
  constructor
  · rintro ⟨j, hj, hq⟩
    rw [hptr] at hj
    rw [hqueue, shifted] at hq
    split_ifs at hq with hin hlt
    · exact ⟨⟨j.val + 1, hlt⟩, by simp only; omega, by simp only; omega, hq⟩
    · exact ⟨j, by omega, by omega, hq⟩
  · rintro ⟨j, hne, hj, hq⟩
    have hjlt := j.isLt
    by_cases hlow : (j.val : ℤ) < i
    · refine ⟨j, by rw [hptr]; omega, ?_⟩
      rwa [hqueue, shifted, if_neg (by omega)]
    · refine ⟨⟨j.val - 1, by omega⟩, by rw [hptr]; simp only; omega, ?_⟩
      rw [hqueue, shifted, if_pos ⟨by simp only; omega, by simp only; omega⟩, dif_pos (by simp only; omega)]
      rw [← hq]
      congr 1
      exact Fin.ext (by simp only; omega)

/-- A process comes back to queue 0: it is not demoted, and the shift takes one slot away. -/
theorem takeBack_quiet (h : Quiet s) (h0 : 0 ≤ i) (h1 : i < NPROC) (p : Slot) :
    (∃ t, takeBack 0 i p s = .ok () t ∧ Quiet t ∧ t.lock = s.lock ∧
        ∀ q, (∃ j, t.At 0 j q) ↔ ∃ j : Slot, (j.val : ℤ) ≠ min i (s.ptr 0) ∧ s.At 0 j q) ∨
      ∃ j t, takeBack 0 i p s = .fault (.queueBound 0 j) t ∧ Quiet t := by
  unfold takeBack
  rw [bind_of_ok (demote_of_noTicks 0 (h.noTicks p)), bind_of_ok (gets_apply _ s)]
  by_cases hlast : i ≤ s.ptr 0 → s.ptr 0 + 1 < NPROC
  · left
    rw [bind_of_ok (shiftQ_ok 0 _ h0 (by omega) s)]
    refine ⟨_, rfl, ?_, rfl, fun q => at_shifted h0 hlast ?_ ?_ q⟩
    · refine Quiet.setProc (quiet_ptr ?_ _) p (tame_zeroTicks _)
      exact h.congr rfl rfl
    · exact setQueue_queue s 0 _
    · exact update_self 0 (s.ptr 0 - 1) s.ptr
  · right
    have hle : i ≤ s.ptr 0 ∧ ¬ s.ptr 0 + 1 < NPROC := by tauto
    obtain ⟨j, q, hfault⟩ := shiftQ_fault 0 (s.ptr 0 - i + 1).toNat h0 h1 (by omega) s
    exact ⟨j, s.setQueue 0 q, by rw [bind_of_fault hfault], h.congr rfl rfl⟩

/-! ### What a CPU does next -/

/-- The positions that a CPU can take: it is away only in a process of queue 0. -/
def Pos.Low : Pos → Prop
  | .slot _ i => 0 ≤ i
  | .away k i _ => k = 0 ∧ 0 ≤ i ∧ i < NPROC
  | _ => True

def Pos.isAway : Pos → Bool
  | .away _ _ _ => true
  | _ => false

theorem ageing_quiet (h : Quiet s) {k : Fin 5} (hk : k ≠ 0) : ageing k s = .ok () s :=
  loopQ_empty (by rw [h.others k hk]; omega) _ _

/-- The process chosen, with its lock free again. -/
def chosen (c : Cpu) (p : Slot) (s : Sched) : Sched := (choose c p s).state

theorem lock_none_of_acquire (h : acquire c p s = .ok () t) :
    s.lock p = none ∧ t = { s with lock := update s.lock p (some c) } := by
  unfold acquire at h
  rw [bind_of_ok (gets_apply _ s)] at h
  cases hl : s.lock p with
  | none =>
    simp only [hl] at h
    cases h
    exact ⟨rfl, rfl⟩
  | some d =>
    simp only [hl] at h
    split_ifs at h <;> cases h

/-- In the scheduler: to the next slot with nothing changed, into a RUNNABLE process of queue 0, or nowhere. -/
theorem advance_cases {pos : Pos} (h : Quiet s) (hfree : ∀ q, s.lock q ≠ some c) (hlow : pos.Low)
    (haway : pos.isAway = false) :
    (∃ pos', pos'.Low ∧ pos'.isAway = false ∧ pos.advance c s = .ok pos' s) ∨
      (∃ i p, (Pos.away 0 i p).Low ∧ (s.proc p).state = .runnable ∧ pos.advance c s = .ok (.away 0 i p) (chosen c p s)) ∨
      ∃ f, pos.advance c s = .fault f s := by
  unfold Pos.advance
  cases pos with
  | away k i p => cases haway
  | crashed => exact .inl ⟨.crashed, trivial, rfl, rfl⟩
  | head =>
    refine .inl ⟨.slot 0 0, le_rfl, rfl, ?_⟩
    have hgo : Pos.head.go c s = .ok (.slot 0 0, none) s := by
      simp only [Pos.go]
      rw [bind_of_ok (ageing_quiet h (by decide)), bind_of_ok (ageing_quiet h (by decide)),
        bind_of_ok (ageing_quiet h (by decide)), bind_of_ok (ageing_quiet h (by decide))]
      rfl
    rw [bind_of_ok hgo]
    rfl
  | slot k i =>
    have h0 : 0 ≤ i := hlow
    by_cases hle : i ≤ s.ptr k
    · have hk : k = 0 := by
        by_contra hk
        rw [h.others k hk] at hle
        omega
      subst hk
      have hgo : (Pos.slot 0 i).go c s = (do
          let p ← derefQ 0 i
          acquire c p
          let pr ← gets fun s => s.proc p
          if pr.state = .runnable then
            choose c p
            pure (.away 0 i p, none)
          else
            let q ← derefQ 0 i
            pure (.slot 0 (i + 1), some (p, q)) : SchedM (Pos × Option (Slot × Slot))) s := by
        simp only [Pos.go]
        rw [bind_of_ok (gets_apply _ s), if_pos hle]
      rw [bind_apply, hgo]
      cases hentry : s.entry 0 i with
      | none =>
        obtain ⟨f, hf, -⟩ := derefQ_none hentry
        rw [bind_of_fault hf]
        exact .inr (.inr ⟨f, rfl⟩)
      | some p =>
        rw [bind_of_ok (derefQ_some hentry)]
        rcases acquire_cases (hfree p) with hacq | hspin
        · have hnone := (lock_none_of_acquire hacq).1
          rw [bind_of_ok hacq, bind_of_ok (gets_apply _ _)]
          dsimp only
          by_cases hrun : (s.proc p).state = .runnable
          · rw [if_pos hrun]
            refine .inr (.inl ⟨i, p, ⟨rfl, Visit.entry_range hentry⟩, hrun, ?_⟩)
            have hdrop : (chosen c p s).lock = s.lock := rfl
            change Outcome.ok (Pos.away 0 i p)
              { chosen c p s with lock := update (update s.lock p (some c)) p none } = _
            rw [lock_taken_dropped hnone]
            rfl
          · have hentry' : Sched.entry { s with lock := update s.lock p (some c) } 0 i = some p := hentry
            rw [if_neg hrun, bind_of_ok (derefQ_some hentry')]
            refine .inl ⟨.slot 0 (i + 1), by change 0 ≤ i + 1; omega, rfl, ?_⟩
            have hrel : release c p { s with lock := update s.lock p (some c) } = .ok () s := by
              rw [release_held (by simp), lock_taken_dropped hnone]
            change (endSlot c (some (p, p)) >>= fun _ => pure (Pos.slot 0 (i + 1)) : SchedM Pos) _ = _
            rw [endSlot, bind_of_ok hrel]
            rfl
        · rw [bind_of_fault hspin]
          exact .inr (.inr ⟨.spin, rfl⟩)
    · refine .inl ⟨if k = 4 then .head else .slot (k + 1) 0, ?_, ?_, ?_⟩
      · split_ifs
        · trivial
        · exact le_rfl
      · split_ifs <;> rfl
      · have hgo : (Pos.slot k i).go c s = .ok (if k = 4 then .head else .slot (k + 1) 0, none) s := by
          simp only [Pos.go]
          rw [bind_of_ok (gets_apply _ s), if_neg hle]
          rfl
        rw [bind_of_ok hgo]
        split_ifs <;> rfl

/-- What is left when a process has come back to queue 0. -/
structure CameBack (c : Cpu) (i : ℤ) (s t : Sched) : Prop where
  quiet : Quiet t
  locks : ∀ d, d ≠ c → ∀ q, t.lock q = some d → s.lock q = some d
  queue : ∀ q, (∃ j, t.At 0 j q) ↔ ∃ j : Slot, (j.val : ℤ) ≠ min i (s.ptr 0) ∧ s.At 0 j q

theorem giveUp_cases (h : Quiet s) (hfree : ∀ q, s.lock q ≠ some c) (b : Back) :
    Mlfq.giveUp c p b s = .fault .spin s ∨ ∃ t, Mlfq.giveUp c p b s = .ok () t ∧ Quiet t ∧
      t.lock = update s.lock p (some c) ∧ t.queue = s.queue ∧ t.ptr = s.ptr := by
  unfold Mlfq.giveUp
  rcases acquire_cases (hfree p) with hacq | hspin
  · right
    rw [bind_of_ok hacq]
    refine ⟨_, rfl, ?_, rfl, rfl, rfl⟩
    have hlocked : Quiet { s with lock := update s.lock p (some c) } := h.congr rfl rfl
    exact Quiet.congr (hlocked.setProc p (f := fun pr => { pr with state := b.state }) ⟨fun _ => id, fun _ => id⟩) rfl rfl
  · left
    rw [bind_of_fault hspin]

/-- The stretch after `swtch`: into the end of the array, into a panic at the release, or to the next slot. -/
theorem advance_away (h : Quiet s) (hheld : ∀ q, s.lock q = some c ↔ q = p) (hlow : (Pos.away 0 i p).Low) :
    (∃ j t, (Pos.away 0 i p).advance c s = .fault (.queueBound 0 j) t) ∨
      (∃ f t, (Pos.away 0 i p).advance c s = .fault f t ∧ CameBack c i s t) ∨
      ∃ t, (Pos.away 0 i p).advance c s = .ok (.slot 0 (i + 1)) t ∧ CameBack c i s t ∧ ∀ q, t.lock q ≠ some c := by
  obtain ⟨-, h0, h1⟩ := hlow
  have hidle : Quiet { s with cpuProc := update s.cpuProc c none } := h.congr rfl rfl
  have hadvance : (Pos.away 0 i p).advance c s = (do
      takeBack 0 i p
      let q ← derefQ 0 i
      release c q
      pure (.slot 0 (i + 1)) : SchedM Pos) { s with cpuProc := update s.cpuProc c none } := by
    unfold Pos.advance Pos.go
    simp only [bind_assoc, pure_bind]
    rfl
  rw [hadvance]
  rcases takeBack_quiet hidle h0 h1 p with ⟨t, ht, hquiet, hlock, hqueue⟩ | ⟨j, t, ht, -⟩
  · right
    have hback (u : Sched) (hptr : u.ptr = t.ptr) (hproc : u.proc = t.proc) (hq : u.queue = t.queue)
        (hlocks : ∀ d, d ≠ c → ∀ q, u.lock q = some d → t.lock q = some d) : CameBack c i s u := by
      refine ⟨hquiet.congr hptr hproc, fun d hd q hq => ?_, fun q => ?_⟩
      · have := hlocks d hd q hq
        rwa [hlock] at this
      · simp only [Sched.At, hq, hptr]
        exact hqueue q
    rw [bind_of_ok ht]
    cases hentry : t.entry 0 i with
    | none =>
      obtain ⟨f, hf, -⟩ := derefQ_none hentry
      rw [bind_of_fault hf]
      exact .inl ⟨f, t, rfl, hback t rfl rfl rfl fun _ _ _ => id⟩
    | some q =>
      rw [bind_of_ok (derefQ_some hentry)]
      by_cases hq : q = p
      · right
        have hheldt : t.lock q = some c := by
          rw [hlock, hq]
          exact (hheld p).mpr rfl
        rw [bind_of_ok (release_held hheldt)]
        refine ⟨_, rfl, hback _ rfl rfl rfl fun d _ x hx => ?_, fun x => ?_⟩
        · dsimp only at hx
          by_cases hxq : x = q
          · rw [hxq, update_self] at hx
            cases hx
          · rwa [update_of_ne hxq] at hx
        · by_cases hxq : x = q
          · simp [hxq]
          · simp only [update_of_ne hxq]
            rw [hlock]
            exact fun hx => hxq (by rw [hq]; exact (hheld x).mp hx)
      · left
        have hother : t.lock q ≠ some c := by
          rw [hlock]
          exact fun hx => hq ((hheld q).mp hx)
        rw [bind_of_fault (release_other hother)]
        exact ⟨_, t, rfl, hback t rfl rfl rfl fun _ _ _ => id⟩
  · exact .inl ⟨j, t, by rw [bind_of_fault ht]⟩

/-- A process of queue 0 comes back. -/
theorem back_cases (h : Quiet s) (hfree : ∀ q, s.lock q ≠ some c)
    (hlow : (Pos.away 0 i p).Low) (b : Back) {r : Outcome Sched SchedFault Pos}
    (hr : r = (do Mlfq.giveUp c p b; (Pos.away 0 i p).advance c : SchedM Pos) s) :
    r = .fault .spin s ∨ (∃ j t, r = .fault (.queueBound 0 j) t) ∨
      (∃ f t, r = .fault f t ∧ CameBack c i s t) ∨
      ∃ t, r = .ok (.slot 0 (i + 1)) t ∧ CameBack c i s t ∧ ∀ q, t.lock q ≠ some c := by
  subst hr
  rcases giveUp_cases (p := p) h hfree b with hspin | ⟨u, hu, hquiet, hlock, hqueue, hptr⟩
  · left
    rw [bind_of_fault hspin]
  · right
    have hheld : ∀ q, u.lock q = some c ↔ q = p := by
      rw [hlock]
      exact Visit.held_update hfree
    have hback {t : Sched} (ht : CameBack c i u t) : CameBack c i s t := by
      refine ⟨ht.quiet, fun d hd q hq => ?_, fun q => ?_⟩
      · have hdu := ht.locks d hd q hq
        rw [hlock] at hdu
        by_cases hqp : q = p
        · rw [hqp, update_self] at hdu
          exact absurd (Option.some.inj hdu).symm hd
        · rwa [update_of_ne hqp] at hdu
      · rw [ht.queue q]
        simp only [Sched.At, hqueue, hptr]
    rw [bind_of_ok hu]
    rcases advance_away hquiet hheld hlow with hbound | ⟨f, t, ht, hcame⟩ | ⟨t, ht, hcame, hnone⟩
    · exact .inl hbound
    · exact .inr (.inl ⟨f, t, ht, hback hcame⟩)
    · exact .inr (.inr ⟨t, ht, hback hcame, hnone⟩)

/-! ### The steps of the machine -/

theorem lock_lasts (l : Slot → Option Cpu) : Lasts (fun s => s.lock = l) fun _ s => s.lock = l where
  proc _ _ _ _ h := h
  tick _ h := h
  pid _ _ h := h
  note _ _ _ h := h
  push p := by
    refine holds_conseq (holds_push (I := fun s => s.lock = l) (fun _ _ h => h) (fun _ _ h => h) (some p)) ?_ fun _ _ h => h
    rintro t ⟨s, hs, rfl⟩
    exact hs

/-- The only fault of a slice is the push outside queue 0. -/
theorem bound_lasts : Lasts (fun _ => True) fun f _ => ∃ k i, f = .queueBound k i where
  proc _ _ _ _ h := h
  tick _ h := h
  pid _ _ h := h
  note _ _ _ h := h
  push p := by
    rintro s -
    simp only [pushQ, setPtr, bind_apply, gets_apply, modify_apply]
    unfold writeQ
    split_ifs
    · trivial
    · exact ⟨_, _, rfl⟩

namespace Mlfq

structure Inv (t : Mlfq) : Prop where
  quiet : Quiet t.sched
  low : ∀ c, (t.pos c).Low
  free : ∀ c, t.pos c ≠ .crashed → ∀ q, t.sched.lock q ≠ some c

/-- What a step does, as long as no access is outside a queue array. -/
inductive Does (t : Mlfq) (c : Cpu) : Act → Mlfq → Prop where
  | move (pos : Pos) (hlow : pos.Low) (haway : pos.isAway = false) :
      Does t c .go { t with pos := Function.update t.pos c pos, used := t.recount t.sched }
  | switch (i : ℤ) (p : Slot) (hlow : (Pos.away 0 i p).Low) (hrun : (t.sched.proc p).state = .runnable) :
      Does t c .go { t with
        sched := chosen c p t.sched, pos := Function.update t.pos c (.away 0 i p), used := t.recount (chosen c p t.sched) }
  | event (e : ProcEvent) (p : Slot) (s : Sched) (hrun : e.run p t.sched = .ok () s) :
      Does t c (.event e) { t.tally e with sched := s, used := (t.tally e).recount s }
  | back (b : Back) (i : ℤ) (p : Slot) (s : Sched) (pos : Pos) (hpos : t.pos c = .away 0 i p) (hlow : pos.Low)
      (hfree : pos ≠ .crashed → ∀ q, s.lock q ≠ some c) (haway : pos.isAway = false) (hcame : CameBack c i t.sched s) :
      Does t c (.back b) { t.leave p b with
        sched := s, pos := Function.update t.pos c pos, used := (t.leave p b).recount s }

variable {t t' : Mlfq} {c : Cpu} {a : Act}

theorem settle_ok (u : Mlfq) (c : Cpu) (pos : Pos) (s : Sched) :
    u.settle c (.ok pos s) = some { u with sched := s, pos := update u.pos c pos, used := u.recount s } := rfl

variable {u : Mlfq} {s : Sched} {pos : Pos} {i : ℤ} {p : Slot}

theorem settle_fault {f : SchedFault} (h : u.settle c (.fault f s) = some t') (hc : t'.corrupt = false) :
    t' = { u with sched := s, pos := update u.pos c .crashed, used := u.recount s } := by
  cases f with
  | spin => cases h
  | queueBound k i =>
    cases h
    cases hc
  | _ =>
    cases h
    rfl

theorem does_go (hi : t.Inv) (hpos : t.pos c = pos) (haway : pos.isAway = false) (hcrash : pos ≠ .crashed)
    (h : t.settle c (pos.advance c t.sched) = some t') (hc : t'.corrupt = false) : t.Does c .go t' := by
  have hlow : pos.Low := hpos ▸ hi.low c
  rcases advance_cases hi.quiet (hi.free c (by rw [hpos]; exact hcrash)) hlow haway with
    ⟨pos', hlow', haway', hr⟩ | ⟨i, p, hlow', hrun, hr⟩ | ⟨f, hr⟩
  · rw [hr, settle_ok] at h
    cases h
    exact .move pos' hlow' haway'
  · rw [hr, settle_ok] at h
    cases h
    exact .switch i p hlow' hrun
  · rw [hr] at h
    rw [settle_fault h hc]
    exact .move .crashed trivial rfl

theorem does_event (hpos : t.pos c = pos) (e : ProcEvent) (p : Slot)
    (h : (t.tally e).settle c ((do e.run p; pure pos : SchedM Pos) t.sched) = some t') (hc : t'.corrupt = false) :
    t.Does c (.event e) t' := by
  have hsame : (t.tally e).pos = t.pos := by cases e <;> rfl
  cases hr : e.run p t.sched with
  | ok u s =>
    rw [bind_of_ok hr, pure_apply, settle_ok, hsame, ← hpos, update_eq_self] at h
    have hdoes := Does.event (t := t) (c := c) e p s hr
    cases h
    rw [← hsame] at *
    exact hdoes
  | fault f s =>
    obtain ⟨k, i, rfl⟩ := (bound_lasts.event p e).fault trivial hr
    rw [bind_of_fault hr] at h
    cases h
    cases hc

theorem does_back {b : Back} (hi : t.Inv) (hpos : t.pos c = .away 0 i p)
    (h : (t.leave p b).settle c ((do giveUp c p b; (Pos.away 0 i p).advance c : SchedM Pos) t.sched) = some t')
    (hc : t'.corrupt = false) : t.Does c (.back b) t' := by
  have hsame : (t.leave p b).pos = t.pos := by cases b <;> rfl
  have hlow : (Pos.away 0 i p).Low := hpos ▸ hi.low c
  have hnext : (Pos.slot 0 (i + 1)).Low := by
    obtain ⟨-, h0, -⟩ := hlow
    change 0 ≤ i + 1
    omega
  rcases back_cases hi.quiet (hi.free c (by rw [hpos]; nofun)) hlow b rfl with
    hr | ⟨j, s, hr⟩ | ⟨f, s, hr, hcame⟩ | ⟨s, hr, hcame, hnone⟩
  · rw [hr] at h
    cases h
  · rw [hr] at h
    cases h
    cases hc
  · rw [hr] at h
    rw [settle_fault h hc, hsame]
    exact .back b i p s .crashed hpos trivial (fun hne => absurd rfl hne) rfl hcame
  · rw [hr, settle_ok, hsame] at h
    cases h
    exact .back b i p s _ hpos hnext (fun _ => hnone) rfl hcame

theorem step_does (hi : t.Inv) (h : t.step (c, a) = some t') (hc : t'.corrupt = false) : t.Does c a t' := by
  unfold step at h
  split_ifs at h with hcorrupt
  dsimp only at h
  cases hpos : t.pos c with
  | crashed =>
    rw [hpos] at h
    cases h
  | away k i p =>
    obtain rfl : k = 0 := by
      have := hi.low c
      rw [hpos] at this
      exact this.1
    rw [hpos] at h
    cases a with
    | go => cases h
    | event e => exact does_event hpos e p h hc
    | back b => exact does_back hi hpos h hc
  | head | slot =>
    rw [hpos] at h
    cases a with
    | go => exact does_go hi hpos rfl nofun h hc
    | event e =>
      dsimp only at h
      split_ifs at h
      exact does_event hpos e 0 h hc
    | back b => cases h

theorem inv_update (hi : t.Inv) (hquiet : Quiet s) (hlow : pos.Low) (hfree : pos ≠ .crashed → ∀ q, s.lock q ≠ some c)
    (hothers : ∀ d, d ≠ c → ∀ q, s.lock q = some d → t.sched.lock q = some d) (used : Slot → ℕ) :
    Inv { t with sched := s, pos := update t.pos c pos, used := used } := by
  refine ⟨hquiet, fun d => ?_, fun d => ?_⟩
  · by_cases hd : d = c
    · subst hd
      simpa using hlow
    · simpa [hd] using hi.low d
  · by_cases hd : d = c
    · subst hd
      simpa using hfree
    · simp only [update_of_ne hd]
      exact fun hne q hq => hi.free d hne q (hothers d hd q hq)

theorem inv_does (hi : t.Inv) (hcrash : t.pos c ≠ .crashed) (h : t.Does c a t') : t'.Inv := by
  cases h with
  | move pos hlow haway =>
    exact inv_update hi hi.quiet hlow (fun _ => hi.free c hcrash) (fun _ _ _ => id) _
  | switch i p hlow hrun =>
    have hquiet : Quiet (chosen c p t.sched) := (quiet_choose c p).ok hi.quiet (a := ()) rfl
    exact inv_update hi hquiet hlow (fun _ => hi.free c hcrash) (fun _ _ _ => id) _
  | event e p s hrun =>
    have hquiet : Quiet s := (quiet_lasts.event p e).ok hi.quiet hrun
    have hlock : s.lock = t.sched.lock := ((lock_lasts t.sched.lock).event p e).ok rfl hrun
    have hpos : (t.tally e).pos = t.pos := by cases e <;> rfl
    refine ⟨hquiet, ?_, ?_⟩
    · change ∀ d, ((t.tally e).pos d).Low
      rw [hpos]
      exact hi.low
    · change ∀ d, (t.tally e).pos d ≠ .crashed → ∀ q, s.lock q ≠ some d
      rw [hpos, hlock]
      exact hi.free
  | back b i p s pos hpos hlow hfree haway hcame =>
    cases b <;> exact inv_update hi hcame.quiet hlow hfree hcame.locks _

theorem pos_ne_crashed (h : t.step (c, a) = some t') : t.pos c ≠ .crashed := by
  intro hpos
  unfold step at h
  dsimp only at h
  split_ifs at h
  rw [hpos] at h
  cases h

theorem not_corrupt (h : t.step (c, a) = some t') : t.corrupt = false := by
  unfold step at h
  by_contra hne
  rw [if_pos (by simpa using hne)] at h
  cases h

theorem inv_boot : boot.Inv := by
  refine ⟨?_, fun _ => trivial, fun c _ q => ?_⟩
  · have hzero : Quiet Sched.zero := ⟨fun _ _ => rfl, fun _ _ _ _ => rfl, fun _ => rfl⟩
    exact (quiet_lasts.fork .ok).ok hzero (a := ()) rfl
  · have hlock : boot.sched.lock = Sched.zero.lock := ((lock_lasts Sched.zero.lock).fork .ok).ok rfl (a := ()) rfl
    rw [hlock]
    nofun

/-- The invariant holds in every run without an access outside a queue array. -/
theorem inv_run : ∀ xs t, run xs = some t → t.corrupt = false → t.Inv := by
  refine @System.exec_invariant _ _ step (fun t => t.corrupt = false → t.Inv) _ (fun _ => inv_boot) ?_
  rintro t ⟨c, a⟩ t' hi h hc
  have hbefore := not_corrupt h
  exact inv_does (hi hbefore) (pos_ne_crashed h) (step_does (hi hbefore) h hc)

theorem settle_corrupt {r : Outcome Sched SchedFault Pos} (h : t.settle c r = some t') (hbefore : t.corrupt = false)
    (hc : t'.corrupt = true) : t'.pos = t.pos := by
  cases r with
  | ok pos s =>
    cases h
    exact absurd hc (by simp [hbefore])
  | fault f s =>
    cases f with
    | queueBound k i =>
      cases h
      rfl
    | spin => cases h
    | _ =>
      cases h
      exact absurd hc (by simp [hbefore])

/-- A CPU that arrives in a process got there without leaving an array. -/
theorem not_corrupt_of_away {k : Fin 5} (h : t.step (c, .go) = some t') (haway : t'.pos c = .away k i p) :
    t'.corrupt = false := by
  by_contra hc
  have hbefore := not_corrupt h
  unfold step at h
  rw [if_neg (by simp [hbefore])] at h
  dsimp only at h
  cases hpos : t.pos c with
  | away k i p | crashed =>
    rw [hpos] at h
    cases h
  | head | slot =>
    rw [hpos] at h
    have hsame := settle_corrupt h hbefore (by simpa using hc)
    rw [hsame, hpos] at haway
    cases haway

/-! ### The count of ticks -/

theorem recount_zero (s : Sched) (h : ∀ q, u.used q = 0) (q : Slot) : u.recount s q = 0 := by
  unfold recount
  split_ifs
  · rfl
  · exact h q

/-- Without a tick under a RUNNING process, no tick is ever used. -/
theorem used_zero (h : t.Does c a t') (hzero : ∀ q, t.used q = 0) (hspared : t.Spared (c, a)) : ∀ q, t'.used q = 0 := by
  cases h with
  | move | switch => exact recount_zero _ hzero
  | event e p s hrun =>
    refine recount_zero s fun q => ?_
    cases e with
    | tick =>
      have hidle := hspared.1 rfl q
      simp only [tally, if_neg hidle]
      exact hzero q
    | _ => exact hzero q
  | back b i p s pos hpos hlow hfree haway hcame =>
    refine recount_zero s fun q => ?_
    cases b with
    | yield => exact hzero q
    | sleep | exit =>
      simp only [leave, update_apply]
      split_ifs
      · rfl
      · exact hzero q

theorem counts_of_zero (hquiet : Quiet t.sched) (hzero : ∀ q, t.used q = 0) : t.Counts := by
  intro p _ k _ _
  rw [hzero p]
  exact hquiet.noTicks p _ (by omega) (by omega)

/-- A tick under a RUNNING process is not counted. -/
theorem tick_uncounted (hi : t.Inv) (hdoes : t.Does c (.event .tick) t') (hzero : ∀ q, t.used q = 0)
    (hcounts : t'.Counts) (p : Slot) : (t.sched.proc p).state ≠ .running := by
  intro hrun
  cases hdoes with
  | event e p' s hs =>
    cases hs
    have hstate : ((t.sched.proc p).tick).state = .running := by
      unfold Proc.tick
      simp [hrun]
    have hlevel : ((t.sched.proc p).tick).currQueue = 0 := tick_level (hi.quiet.level p)
    have hused : (t.tally .tick).recount (tick t.sched).state p = 1 := by
      unfold recount tally
      have hsame : ((tick t.sched).state.proc p).currQueue = (t.sched.proc p).currQueue :=
        hlevel.trans (hi.quiet.level p).symm
      rw [if_neg (by simp [hrun, hsame])]
      simp [hrun, hzero p]
    have hcount := hcounts p (by rw [show _ = _ from hstate]; nofun) 0 (by decide) hlevel
    have hticks : ((t.sched.proc p).tick).numOfTicks 0 = 0 := tick_noTicks (hi.quiet.noTicks p) 0 le_rfl (by decide)
    have : ((t.sched.proc p).tick).numOfTicks 0 = ((t.tally .tick).recount (tick t.sched).state p : ℕ) := hcount
    rw [hticks, hused] at this
    cases this

/-- Where a process is that yielded. -/
theorem placed_iff (hdoes : t.Does c (.back .yield) t') (hzero : ∀ q, t.used q = 0) (hpos : t.pos c = .away 0 i p) :
    t.Placed t' 0 p ↔ ∃ j : Slot, (j.val : ℤ) ≠ min i (t.sched.ptr 0) ∧ t.sched.At 0 j p := by
  cases hdoes with
  | back b i' p' s pos hpos' hlow hfree haway hcame =>
    cases hpos.symm.trans hpos'
    unfold Placed
    rw [hzero p, if_neg (by decide), ← hcame.queue p]
    exact ⟨fun h => h.2, fun h => ⟨hcame.quiet.level p, h⟩⟩

/-- As long as no tick has been used, a step is right about the slices exactly if it is spared. -/
theorem sliced_iff (hi : t.Inv) (h : t.step (c, a) = some t') (hc : t'.corrupt = false) (hzero : ∀ q, t.used q = 0) :
    t.Sliced (c, a) ↔ t.Spared (c, a) := by
  have hdoes := step_does hi h hc
  have hi' := inv_does hi (pos_ne_crashed h) hdoes
  have hlevel : ∀ k i p, t.pos c = .away k i p → k = 0 := by
    intro k i p hpos
    have := hi.low c
    rw [hpos] at this
    exact this.1
  constructor
  · intro hsliced
    obtain ⟨hcounts, hplaced⟩ := hsliced t' h
    refine ⟨fun ha p => ?_, fun k i p ha hpos hk => ?_⟩
    · cases ha
      exact tick_uncounted hi hdoes hzero hcounts p
    · cases hlevel k i p hpos
      cases ha
      exact (placed_iff hdoes hzero hpos).mp (hplaced 0 i p rfl hpos hk)
  · intro hspared u hu
    cases h.symm.trans hu
    refine ⟨counts_of_zero hi'.quiet (used_zero hdoes hzero hspared), fun k i p ha hpos hk => ?_⟩
    cases hlevel k i p hpos
    cases ha
    exact (placed_iff hdoes hzero hpos).mpr (hspared.2 0 i p rfl hpos hk)

theorem zero_run : ∀ xs t, run xs = some t → System.Along step Spared boot xs → t.corrupt = false → ∀ q, t.used q = 0 := by
  refine System.exec_history step (fun _ _ _ => rfl) fun xs u x t hu ih hstep halong hc => ?_
  rw [System.along_snoc] at halong
  have hbefore := not_corrupt hstep
  exact used_zero (step_does (inv_run xs u hu hbefore) hstep hc) (ih halong.1 hbefore) (halong.2 u hu)

end Mlfq

/-- Whenever the MLFQ scheduler switches to a process, it takes it from the highest queue that has a RUNNABLE one. -/
theorem mlfq_highestFirst (xs : List (Cpu × Act)) (t t' : Mlfq) (c : Cpu) (h : Mlfq.run xs = some t)
    (hstep : t.step (c, .go) = some t') (k : Fin 5) (i : ℤ) (p : Slot) (haway : t'.pos c = .away k i p) :
    t'.HighestFirst k := by
  have hi := Mlfq.inv_run xs t h (Mlfq.not_corrupt hstep)
  have hdoes := Mlfq.step_does hi hstep (Mlfq.not_corrupt_of_away hstep haway)
  have hlow := (Mlfq.inv_does hi (Mlfq.pos_ne_crashed hstep) hdoes).low c
  rw [haway] at hlow
  obtain ⟨rfl, -⟩ := hlow
  intro j hj
  exact absurd hj (Fin.not_lt_zero j)

/-- Init has two children, and another CPU is at the first of them. -/
def twoReady (c d : Cpu) : List (Cpu × Act) :=
  [(c, .go), (c, .go), (c, .event (.fork .ok)), (c, .event (.fork .ok)), (d, .go), (d, .go)]

theorem mlfq_highestFirst_twoReady : ∃ t t', Mlfq.run (twoReady 0 1) = some t ∧ t.step (1, .go) = some t' ∧
    t'.pos 1 = .away 0 1 1 ∧ (t'.sched.proc 2).state = .runnable ∧ t'.HighestFirst 0 := by
  have hrun : ((Mlfq.run (twoReady 0 1)).bind fun t => t.step (1, .go)).map (fun t => (t.pos 1, (t.sched.proc 2).state)) =
      some (.away 0 1 1, .runnable) := by decide +kernel
  obtain ⟨t', ht', hmap⟩ := Option.map_eq_some_iff.mp hrun
  obtain ⟨hpos, hready⟩ := Prod.mk.inj hmap
  obtain ⟨t, ht, hstep⟩ := Option.bind_eq_some_iff.mp ht'
  exact ⟨t, t', ht, hstep, hpos, hready, mlfq_highestFirst _ t t' 1 ht hstep 0 1 1 hpos⟩

/-- In a run without an access outside a queue array, the slices of all steps are right exactly if no tick meets a RUNNING
process and every process that yields is in its queue a second time. -/
theorem mlfq_slices_iff (xs : List (Cpu × Act)) (t : Mlfq) (h : Mlfq.run xs = some t) (hc : t.corrupt = false) :
    System.Along Mlfq.step Mlfq.Sliced Mlfq.boot xs ↔ System.Along Mlfq.step Mlfq.Spared Mlfq.boot xs := by
  revert xs t
  refine System.exec_history Mlfq.step (fun _ => iff_of_true (System.along_nil _) (System.along_nil _))
    fun xs u x t hu ih hstep hc => ?_
  have hbefore := Mlfq.not_corrupt hstep
  rw [System.along_snoc, System.along_snoc, ih hbefore]
  -- the states before the last step are the same on both sides
  refine and_congr_right fun halong => forall_congr' fun v => forall_congr' fun hv => ?_
  cases hu.symm.trans hv
  exact Mlfq.sliced_iff (Mlfq.inv_run xs u hu hbefore) hstep hc (Mlfq.zero_run xs u hu halong hbefore)

/-- Init runs, forks and goes to sleep before the first tick. -/
theorem mlfq_slices_iff_sleep :
    System.Along Mlfq.step Mlfq.Sliced Mlfq.boot [(0, .go), (0, .go), (0, .event (.fork .ok)), (0, .back .sleep)] := by
  have hrun : (Mlfq.run [(0, .go), (0, .go), (0, .event (.fork .ok)), (0, .back .sleep)]).map (fun t => t.corrupt) =
      some false := by decide +kernel
  obtain ⟨t, ht, hc⟩ := Option.map_eq_some_iff.mp hrun
  refine (mlfq_slices_iff _ t ht hc).mpr (System.along_of_mem _ fun u x hx => ⟨fun ha => ?_, fun _ _ _ ha => ?_⟩)
  all_goals
    simp only [List.mem_cons, List.not_mem_nil, or_false] at hx
    rcases hx with rfl | rfl | rfl | rfl <;> cases ha

/-- Init is RUNNING at the one tick that level 0 allows, and comes back: `num_of_ticks[0]` is 0, `curr_queue` is 0, and both
queue 0 and queue 1 are empty. -/
theorem usedSlice_notDemoted :
    (Mlfq.run [(0, .go), (0, .go), (0, .event .tick)]).map (fun t =>
        ((t.sched.proc 0).state, t.used 0, (t.sched.proc 0).numOfTicks 0)) = some (.running, 1, 0) ∧
      (Mlfq.run [(0, .go), (0, .go), (0, .event .tick), (0, .back .yield)]).map (fun t =>
        ((t.sched.proc 0).state, (t.sched.proc 0).currQueue, t.sched.ptr 0, t.sched.ptr 1)) =
          some (.runnable, 0, -1, -1) := by
  decide +kernel

end Xv6
