import Xv6.Proofs.MlfqLocks

/-! The ageing loop of a queue. It takes an aged process off the queue twice, by its own decrement of the queue's pointer
and in `remove_from_queue`; the second time finds nothing only if the process was the last one. -/

namespace Xv6

open Prog Function List

variable {k : Fin 5} {s t u : Sched} {p : Slot}

theorem pred_ne (hk : k ≠ 0) : k - 1 ≠ k := by
  revert hk
  fin_cases k <;> decide

theorem pushQ_ok {j : Fin 5} (h0 : 0 ≤ s.ptr j + 1) (h1 : s.ptr j + 1 < NPROC) (q : Option Slot) :
    pushQ j q s = .ok () (({ s with ptr := update s.ptr j (s.ptr j + 1) } : Sched).setQueue j
      (update (s.queue j) ⟨(s.ptr j + 1).toNat, by omega⟩ q)) := by
  rw [pushQ, bind_of_ok (gets_apply _ s), setPtr, bind_of_ok (modify_apply _ s), bind_of_ok (gets_apply _ _)]
  simp only [update_self]
  exact writeQ_ok j h0 h1 q _

/-- The process after the ageing step. -/
def Proc.raised (pr : Proc) (ticks : ℤ) : Proc :=
  { pr with
    currQueue := int32 (pr.currQueue - 1)
    numOfTicks := Function.update pr.numOfTicks (int32 (pr.currQueue - 1)) 0, stTime := int32 ticks }

/-- From `s` to `u` the process `p` of queue `k` was moved to the tail of queue `k - 1`, and the pointer of queue `k`
decremented. -/
structure Raised (s : Sched) (k : Fin 5) (p : Slot) (u : Sched) : Prop where
  proc : u.proc = Function.update s.proc p ((s.proc p).raised s.ticks)
  above : ∀ i, u.entry (k - 1) i = if i = s.ptr (k - 1) + 1 then some p else s.entry (k - 1) i
  aboveEnd : u.ptr (k - 1) = s.ptr (k - 1) + 1
  same : u.queue k = s.queue k
  shorter : u.ptr k = s.ptr k - 1
  queues : ∀ j, j ≠ k → j ≠ k - 1 → u.queue j = s.queue j ∧ u.ptr j = s.ptr j

theorem Raised.pid (h : Raised s k p u) (q : Slot) : (u.proc q).pid = (s.proc q).pid := by
  rw [h.proc, update_apply]
  split_ifs with hq
  · rw [hq]
    rfl
  · rfl

variable {i pid x : ℤ} {n : ℕ}

theorem ageSlot_young (hi : s.entry k i = some p) (hp : ¬s.Aged p) : ageSlot k i s = .ok () s := by
  rw [ageSlot, bind_of_ok (derefQ_some hi), bind_of_ok (gets_apply _ s)]
  by_cases hrun : (s.proc p).state = .runnable
  · rw [if_pos hrun, bind_of_ok (gets_apply _ s), if_neg fun hwait => hp ⟨hrun, hwait⟩]
    rfl
  · rw [if_neg hrun]
    rfl

theorem ageSlot_aged (hk : k ≠ 0) (hi : s.entry k i = some p) (hp : s.Aged p) (h0 : 0 ≤ s.ptr (k - 1) + 1)
    (h1 : s.ptr (k - 1) + 1 < NPROC) :
    ∃ u, Raised s k p u ∧ ageSlot k i s = removeFromQueue (s.proc p).pid k u := by
  have hne := pred_ne hk
  let s₁ : Sched := s.setProc p fun pr => pr.raised s.ticks
  let s₂ : Sched := ({ s₁ with ptr := update s.ptr (k - 1) (s.ptr (k - 1) + 1) } : Sched).setQueue (k - 1)
    (update (s.queue (k - 1)) ⟨(s.ptr (k - 1) + 1).toNat, by omega⟩ (some p))
  let u : Sched := { s₂ with ptr := update s₂.ptr k (s₂.ptr k - 1) }
  have hpush : pushQ (k - 1) (some p) s₁ = .ok () s₂ := pushQ_ok (s := s₁) h0 h1 _
  have hqueue : u.queue k = s.queue k := update_of_ne hne.symm _ _
  have hptr : s₂.ptr k = s.ptr k := update_of_ne hne.symm _ _
  have hproc : (u.proc p).pid = (s.proc p).pid := by
    change (update s.proc p ((s.proc p).raised s.ticks) p).pid = _
    rw [update_self]
    rfl
  refine ⟨u, ⟨rfl, fun j => ?_, ?_, hqueue, ?_, fun j hj hj' => ⟨?_, ?_⟩⟩, ?_⟩
  · exact entry_written s (k - 1) ⟨h0, h1⟩ (some p) j
  · exact (update_of_ne hne _ _).trans (update_self ..)
  · exact (update_self ..).trans (by rw [hptr])
  · exact update_of_ne hj' _ _
  · exact (update_of_ne hj _ _).trans (update_of_ne hj' _ _)
  · rw [ageSlot, bind_of_ok (derefQ_some hi), bind_of_ok (gets_apply _ s), if_pos hp.1, bind_of_ok (gets_apply _ s),
      if_pos hp.2, updProc, bind_of_ok (modify_apply _ s)]
    change (pushQ (k - 1) (some p) >>= _) s₁ = _
    rw [bind_of_ok hpush, bind_of_ok (gets_apply _ _), setPtr, bind_of_ok (modify_apply _ _)]
    change (derefQ k i >>= _) u = _
    rw [bind_of_ok (derefQ_some ((entry_congr hqueue i).trans hi)), bind_of_ok (gets_apply _ u), hproc]

theorem ageSlot_full (hi : s.entry k i = some p) (hp : s.Aged p)
    (hroom : ¬(0 ≤ s.ptr (k - 1) + 1 ∧ s.ptr (k - 1) + 1 < NPROC)) : ∃ f u, ageSlot k i s = .fault f u := by
  rw [ageSlot, bind_of_ok (derefQ_some hi), bind_of_ok (gets_apply _ s), if_pos hp.1, bind_of_ok (gets_apply _ s),
    if_pos hp.2, updProc, bind_of_ok (modify_apply _ s)]
  rcases pushQ_cases (k - 1) (some p) (s.setProc p fun pr => pr.raised s.ticks) with ⟨h0, h1, -⟩ | ⟨-, f, u, hfault, -⟩
  · exact absurd ⟨h0, h1⟩ hroom
  · exact ⟨f, u, bind_of_fault hfault _⟩

/-! ### `remove_from_queue` -/

theorem removeScan_miss (h : ∀ x, i ≤ x → x < i + n → ∃ q, s.entry k x = some q ∧ (s.proc q).pid ≠ pid) :
    removeScan k pid n i s = .ok () s := by
  induction n generalizing i with
  | zero => rfl
  | succ n ih =>
    obtain ⟨q, hq, hpid⟩ := h i le_rfl (by omega)
    rw [removeScan, bind_of_ok (derefQ_some hq), bind_of_ok (gets_apply _ s), if_neg hpid]
    exact ih fun x hx hx' => h x (by omega) (by push_cast; omega)

theorem derefQ_state (h : derefQ k i s = .ok p u) : u = s ∧ s.entry k i = some p := by
  cases hi : s.entry k i with
  | none =>
    obtain ⟨f, hf, -⟩ := derefQ_none hi
    rw [hf] at h
    cases h
  | some q =>
    rw [derefQ_some hi] at h
    cases h
    exact ⟨rfl, rfl⟩

theorem shiftQ_ptr {j : ℤ} (h : shiftQ k n j s = .ok () u) : u.ptr = s.ptr := by
  refine Holds.ok (P := fun v => v.ptr = s.ptr) (Q := fun _ v => v.ptr = s.ptr) (E := fun _ _ => True) ?_ rfl h
  clear h
  induction n generalizing j with
  | zero => exact holds_pure fun _ hs => hs
  | succ n ih =>
    have hread : Keeps (fun v : Sched => v.ptr = s.ptr) (readQ k (j + 1)) fun _ _ => True := by
      unfold readQ
      split_ifs
      · exact keeps_gets _
      · exact keeps_fail fun _ _ => trivial
    have hwrite : ∀ q, Keeps (fun v : Sched => v.ptr = s.ptr) (writeQ k j q) fun _ _ => True := by
      intro q
      unfold writeQ
      split_ifs
      · exact keeps_modify fun _ hs => hs
      · exact keeps_fail fun _ _ => trivial
    exact holds_bind hread fun q => holds_bind (hwrite q) fun _ => ih

/-- The queue gets shorter by one, or no process in it has the pid. -/
theorem removeScan_ptr (h : removeScan k pid n i s = .ok () u) : u.ptr = update s.ptr k (s.ptr k - 1) ∨
    u.ptr = s.ptr ∧ ∀ x q, i ≤ x → x < i + n → s.entry k x = some q → (s.proc q).pid ≠ pid := by
  induction n generalizing i with
  | zero =>
    cases h
    exact .inr ⟨rfl, fun x q hx hx' => by omega⟩
  | succ n ih =>
    rw [removeScan, bind_eq_ok] at h
    obtain ⟨q, v, hderef, h⟩ := h
    obtain ⟨rfl, hq⟩ := derefQ_state hderef
    rw [bind_of_ok (gets_apply _ _)] at h
    split_ifs at h with hpid
    · rw [bind_of_ok (gets_apply _ _), bind_eq_ok] at h
      obtain ⟨_, v', hshift, hset⟩ := h
      cases hset
      left
      change update v'.ptr k _ = _
      rw [shiftQ_ptr hshift]
    · refine (ih h).imp_right fun ⟨hsame, hmiss⟩ => ⟨hsame, fun x q' hx hx' hq' => ?_⟩
      rcases hx.lt_or_eq with hlt | rfl
      · exact hmiss x q' (by omega) (by push_cast at hx'; omega) hq'
      · rw [hq'] at hq
        cases hq
        exact hpid

/-! ### The loop -/

/-- The number of processes in the two queues, less two. -/
def Sched.total (s : Sched) (k : Fin 5) : ℤ := s.ptr k + s.ptr (k - 1)

theorem removeFromQueue_total (hk : k ≠ 0) (h : removeFromQueue pid k s = .ok () u) : u.total k ≤ s.total k := by
  rw [removeFromQueue, bind_of_ok (gets_apply _ s)] at h
  rcases removeScan_ptr h with hless | ⟨hsame, -⟩
  · rw [Sched.total, hless, update_self, update_of_ne (pred_ne hk), Sched.total]
    omega
  · rw [Sched.total, hsame, Sched.total]

theorem Raised.total (h : Raised s k p u) : u.total k = s.total k := by
  rw [Sched.total, h.shorter, h.aboveEnd, Sched.total]
  omega

theorem ageSlot_total (hk : k ≠ 0) (h : ageSlot k i s = .ok () u) : u.total k ≤ s.total k := by
  have hdo := h
  rw [ageSlot, bind_eq_ok] at h
  obtain ⟨p, v, hderef, h⟩ := h
  obtain ⟨rfl, hp⟩ := derefQ_state hderef
  by_cases haged : v.Aged p
  · by_cases hroom : 0 ≤ v.ptr (k - 1) + 1 ∧ v.ptr (k - 1) + 1 < NPROC
    · obtain ⟨w, hraised, heq⟩ := ageSlot_aged hk hp haged hroom.1 hroom.2
      rw [heq] at hdo
      exact (removeFromQueue_total hk hdo).trans hraised.total.le
    · obtain ⟨f, w, hfault⟩ := ageSlot_full hp haged hroom
      rw [hfault] at hdo
      cases hdo
  · rw [ageSlot_young hp haged] at hdo
    cases hdo
    exact le_rfl

theorem loopQ_total (hk : k ≠ 0) (h : loopQ k (ageSlot k) n i s = .ok () u) :
    u.total k ≤ s.total k := by
  induction n generalizing i s with
  | zero =>
    cases h
    exact le_rfl
  | succ n ih =>
    rw [loopQ, bind_of_ok (gets_apply _ s)] at h
    split_ifs at h with hle
    · rw [bind_eq_ok] at h
      obtain ⟨_, v, hslot, hrest⟩ := h
      exact (ih hrest).trans (ageSlot_total hk hslot)
    · cases h
      exact le_rfl

theorem loopQ_next {body : ℤ → SchedM Unit} (hi : i ≤ s.ptr k) :
    loopQ k body (n + 1) i s = (do body i; loopQ k body n (i + 1) : SchedM Unit) s := by
  rw [loopQ, bind_of_ok (gets_apply _ s), if_pos hi]

/-- The loop passes over processes that are not aged. -/
theorem loopQ_young {m : ℕ} (h : ∀ x, i ≤ x → x < i + m → x ≤ s.ptr k ∧ ∃ q, s.entry k x = some q ∧ ¬s.Aged q) :
    loopQ k (ageSlot k) (n + m) i s = loopQ k (ageSlot k) n (i + m) s := by
  induction m generalizing i with
  | zero => simp
  | succ m ih =>
    obtain ⟨hi, q, hq, hyoung⟩ := h i le_rfl (by omega)
    rw [← Nat.add_assoc, loopQ_next hi, bind_of_ok (ageSlot_young hq hyoung),
      ih fun x hx hx' => h x (by omega) (by push_cast; omega)]
    congr 1
    push_cast
    omega

section Content

variable {old l a b : List Slot}

variable {q : Slot}

theorem Sched.Queued.entry_eq (h : s.Queued k l) {i : ℕ} (hq : l[i]? = some q) : s.entry k i = some q :=
  (h.2 i (List.getElem?_eq_some_iff.mp hq).1).trans hq

/-- The first processes of a queue, read as the loop reads them. -/
theorem Sched.Queued.front (h : s.Queued k (a ++ b)) {P : Slot → Prop} (ha : ∀ q ∈ a, P q) :
    ∀ x : ℤ, 0 ≤ x → x < 0 + a.length → x ≤ s.ptr k ∧ ∃ q, s.entry k x = some q ∧ P q := by
  intro x hx hx'
  obtain ⟨i, rfl⟩ := Int.eq_ofNat_of_zero_le hx
  have hi : i < a.length := by omega
  refine ⟨?_, a[i], h.entry_eq ?_, ha _ (getElem_mem hi)⟩
  · rw [h.1, length_append]
    push_cast
    omega
  · rw [List.getElem?_append_left hi, List.getElem?_eq_getElem hi]

theorem ageing_young (h : s.Queued k l) (hlen : l.length ≤ NPROC) (hyoung : ∀ p ∈ l, ¬s.Aged p) :
    ageing k s = .ok () s := by
  have hfront := Sched.Queued.front (b := []) (by rwa [append_nil]) hyoung
  rw [ageing, show NPROC + 1 = NPROC + 1 - l.length + l.length by omega, loopQ_young hfront]
  exact loopQ_empty (by rw [h.1]; omega) _ _

theorem ageing_first (h : s.Queued k (a ++ p :: b)) (hlen : a.length ≤ NPROC) (hyoung : ∀ q ∈ a, ¬s.Aged q) :
    ageing k s = (do ageSlot k a.length; loopQ k (ageSlot k) (NPROC - a.length) (a.length + 1) : SchedM Unit) s := by
  have hle : (a.length : ℤ) ≤ s.ptr k := by
    rw [h.1, length_append, length_cons]
    push_cast
    omega
  rw [ageing, show NPROC + 1 = NPROC - a.length + 1 + a.length by omega, loopQ_young (h.front hyoung), zero_add,
    loopQ_next hle]

theorem Sched.AgesTo.total (h : s.AgesTo t k old l) : t.total k = old.length + l.length - 2 := by
  have hsplit := length_eq_length_filter_add (l := l) s.Aged
  have hrest : (l.filter fun p => ¬s.Aged p).length = (l.filter fun p => !decide (s.Aged p)).length := by simp
  rw [Sched.total, h.above.1, h.rest.1, length_append, hrest]
  push_cast
  omega

/-- A second removal from the queue loses a process. -/
theorem ageing_loses (hk : k ≠ 0) (hl : s.Queued k (a ++ p :: b)) (hold : s.Queued (k - 1) old)
    (hlen : old.length + (a ++ p :: b).length ≤ NPROC) (hyoung : ∀ q ∈ a, ¬s.Aged q) (haged : s.Aged p) {x : ℕ}
    (hx : x < a.length + b.length) (hq : (a ++ p :: b)[x]? = some q) (hpid : (s.proc q).pid = (s.proc p).pid)
    (ht : ageing k s = .ok () t) : t.total k < s.total k := by
  rw [length_append, length_cons] at hlen
  have hroom : s.ptr (k - 1) + 1 = old.length := by
    rw [hold.1]
    omega
  have hp : s.entry k a.length = some p := hl.entry_eq (by simp)
  obtain ⟨u, hraised, hslot⟩ := ageSlot_aged hk hp haged (by omega) (by omega)
  rw [ageing_first hl (by omega) hyoung, bind_apply, hslot] at ht
  cases hremove : removeFromQueue (s.proc p).pid k u with
  | fault f v =>
    rw [hremove] at ht
    cases ht
  | ok _ v =>
    rw [hremove] at ht
    have hrest := loopQ_total hk ht
    rw [removeFromQueue, bind_of_ok (gets_apply _ u)] at hremove
    have hptr : u.ptr k = a.length + b.length - 1 := by
      rw [hraised.shorter, hl.1, length_append, length_cons]
      push_cast
      omega
    have hentry : u.entry k x = some q := (entry_congr hraised.same _).trans (hl.entry_eq hq)
    have hhit := (removeScan_ptr hremove).resolve_right fun hmiss =>
      hmiss.2 x q (by omega) (by omega) hentry ((hraised.pid q).trans hpid)
    have hless : v.total k = u.total k - 1 := by
      rw [Sched.total, hhit, update_self, update_of_ne (pred_ne hk), Sched.total]
      omega
    have := hraised.total
    omega

theorem nodup_length (h : (old ++ l).Nodup) : old.length + l.length ≤ NPROC := by
  have hle := h.length_le_card
  rwa [length_append, Fintype.card_fin] at hle

/-- The last process is aged: it is moved as it should be if its level is right. -/
theorem ageing_last (hk : k ≠ 0) (hl : s.Queued k (a ++ [p])) (hold : s.Queued (k - 1) old)
    (hnodup : (old ++ (a ++ [p])).Nodup) (hyoung : ∀ q ∈ a, ¬s.Aged q) (haged : s.Aged p)
    (hpid : ∀ q ∈ a, (s.proc q).pid ≠ (s.proc p).pid) : ∃ u, Raised s k p u ∧ ageing k s = .ok () u := by
  have hlen := nodup_length hnodup
  rw [length_append, length_singleton] at hlen
  have hroom : s.ptr (k - 1) + 1 = old.length := by
    rw [hold.1]
    omega
  have hend : s.ptr k = a.length := by
    rw [hl.1, length_append, length_singleton]
    push_cast
    omega
  have hp : s.entry k a.length = some p := hl.entry_eq (by simp)
  obtain ⟨u, hraised, hslot⟩ := ageSlot_aged hk hp haged (by omega) (by omega)
  have hcount : (u.ptr k + 1).toNat = a.length := by
    rw [hraised.shorter]
    omega
  have hmiss : removeFromQueue (s.proc p).pid k u = .ok () u := by
    rw [removeFromQueue, bind_of_ok (gets_apply _ u), hcount]
    refine removeScan_miss fun x hx hx' => ?_
    obtain ⟨-, q, hq, hne⟩ := hl.front hpid x hx hx'
    exact ⟨q, (entry_congr hraised.same _).trans hq, by rwa [hraised.pid q]⟩
  refine ⟨u, hraised, ?_⟩
  rw [ageing_first hl (by omega) hyoung, bind_of_ok (hslot.trans hmiss)]
  exact loopQ_empty (by rw [hraised.shorter]; omega) _ _

theorem Raised.agesTo (h : Raised s k p u) (hl : s.Queued k (a ++ [p])) (hold : s.Queued (k - 1) old)
    (hyoung : ∀ q ∈ a, ¬s.Aged q) (haged : s.Aged p) :
    s.AgesTo u k old (a ++ [p]) ↔ int32 ((s.proc p).currQueue - 1) = (k : ℕ) - 1 := by
  have hmoved : (a ++ [p]).filter s.Aged = [p] := by
    rw [filter_append, filter_eq_nil_iff.mpr fun q hq => by simpa using hyoung q hq]
    simp [haged]
  have hrest : ((a ++ [p]).filter fun q => ¬s.Aged q) = a := by
    rw [filter_append, filter_eq_self.mpr fun q hq => by simpa using hyoung q hq]
    simp [haged]
  have honly : ∀ q ∈ a ++ [p], s.Aged q → q = p := by
    intro q hq hqaged
    rcases mem_append.mp hq with hqa | hqp
    · exact absurd hqaged (hyoung q hqa)
    · exact mem_singleton.mp hqp
  have hproc : u.proc p = (s.proc p).raised s.ticks := by rw [h.proc, update_self]
  have hroom : s.ptr (k - 1) + 1 = old.length := by
    rw [hold.1]
    omega
  refine ⟨fun hages => ?_, fun hlevel => ⟨?_, ?_, ?_, ?_, h.queues⟩⟩
  · have hqueue := (hages.moved p (by simp) haged).1
    rwa [hproc] at hqueue
  · rw [hmoved]
    refine ⟨by rw [h.aboveEnd, hroom, length_append]; simp, fun i hi => ?_⟩
    rw [h.above, hroom]
    by_cases hlast : i = old.length
    · subst hlast
      simp
    · have hlt : i < old.length := by
        rw [length_append, length_singleton] at hi
        omega
      rw [if_neg (by omega), List.getElem?_append_left hlt]
      exact hold.2 i hlt
  · rw [hrest]
    refine ⟨by rw [h.shorter, hl.1, length_append]; simp, fun i hi => ?_⟩
    rw [entry_congr h.same, hl.2 i (by rw [length_append]; omega), List.getElem?_append_left hi]
  · intro q hq hqaged
    rw [honly q hq hqaged, hproc]
    exact ⟨hlevel, rfl⟩
  · intro q hq
    rw [h.proc]
    refine update_of_ne (fun hqp => hq ?_) _ _
    rw [hqp]
    exact ⟨by simp, haged⟩

theorem agesTo_self (hold : s.Queued (k - 1) old) (hl : s.Queued k l) (hyoung : ∀ p ∈ l, ¬s.Aged p) : s.AgesTo s k old l where
  above := by
    rwa [filter_eq_nil_iff.mpr fun q hq => by simpa using hyoung q hq, append_nil]
  rest := by
    rwa [filter_eq_self.mpr fun q hq => by simpa using hyoung q hq]
  moved p hp haged := absurd haged (hyoung p hp)
  procs _ _ := rfl
  queues _ _ _ := ⟨rfl, rfl⟩

/-- Nothing is lost if all goes well. -/
theorem Sched.AgesTo.total_eq (h : s.AgesTo t k old l) (hold : s.Queued (k - 1) old) (hl : s.Queued k l) : t.total k = s.total k := by
  rw [h.total, Sched.total, hold.1, hl.1]
  omega

end Content

theorem level_iff (hx : int32 x = x) (k : Fin 5) : int32 (x - 1) = (k : ℕ) - 1 ↔ x = (k : ℕ) := by
  have hk := k.isLt
  unfold int32 at hx ⊢
  omega

/-- The ageing loop of queue `k` moves just the aged processes if and only if none but the last one is aged, and that one
is in its level and no other process of the queue has its pid. -/
theorem ageing_agesTo_iff (k : Fin 5) (hk : k ≠ 0) (s : Sched) (old l : List Slot) (hold : s.Queued (k - 1) old)
    (hl : s.Queued k l) (hnodup : (old ++ l).Nodup) (hint : ∀ p ∈ l, int32 (s.proc p).currQueue = (s.proc p).currQueue) :
    (∃ t, ageing k s = .ok () t ∧ s.AgesTo t k old l) ↔
      (∀ p ∈ l.dropLast, ¬s.Aged p) ∧ ∀ p ∈ l.getLast?, s.Aged p →
        (s.proc p).currQueue = (k : ℕ) ∧ ∀ q ∈ l.dropLast, (s.proc q).pid ≠ (s.proc p).pid := by
  have hlen := nodup_length hnodup
  cases hfirst : l.find? (fun p => s.Aged p) with
  | none =>
    have hyoung : ∀ p ∈ l, ¬s.Aged p := by simpa using hfirst
    refine ⟨fun _ => ⟨fun p hp => hyoung p (mem_of_mem_dropLast hp), fun p hp haged => ?_⟩, fun _ => ?_⟩
    · exact absurd haged (hyoung p (mem_of_getLast? hp))
    · exact ⟨s, ageing_young hl (by omega) hyoung, agesTo_self hold hl hyoung⟩
  | some p =>
    obtain ⟨haged, a, b, rfl, hyoung⟩ := List.find?_eq_some_iff_append.mp hfirst
    replace haged : s.Aged p := by simpa using haged
    replace hyoung : ∀ q ∈ a, ¬s.Aged q := by simpa using hyoung
    rcases eq_nil_or_concat b with rfl | ⟨b', z, rfl⟩
    · rw [dropLast_concat, List.getLast?_concat]
      constructor
      · rintro ⟨t, ht, hages⟩
        have hpid : ∀ q ∈ a, (s.proc q).pid ≠ (s.proc p).pid := by
          intro q hq hsame
          obtain ⟨x, hx, hxq⟩ := getElem_of_mem hq
          have hat : (a ++ [p])[x]? = some q := by rw [List.getElem?_append_left hx, List.getElem?_eq_getElem hx, hxq]
          have hless := ageing_loses hk hl hold hlen hyoung haged (by simpa using hx) hat hsame ht
          exact absurd (hages.total_eq hold hl) hless.ne
        obtain ⟨u, hraised, hu⟩ := ageing_last hk hl hold hnodup hyoung haged hpid
        cases ht.symm.trans hu
        have hlevel := (level_iff (hint p (by simp)) k).mp ((hraised.agesTo hl hold hyoung haged).mp hages)
        refine ⟨hyoung, fun q hq _ => ?_⟩
        cases hq
        exact ⟨hlevel, hpid⟩
      · rintro ⟨-, hlast⟩
        obtain ⟨hlevel, hpid⟩ := hlast p rfl haged
        obtain ⟨u, hraised, hu⟩ := ageing_last hk hl hold hnodup hyoung haged hpid
        exact ⟨u, hu, (hraised.agesTo hl hold hyoung haged).mpr ((level_iff (hint p (by simp)) k).mpr hlevel)⟩
    · constructor
      · rintro ⟨t, ht, hages⟩
        have hless := ageing_loses hk hl hold hlen hyoung haged (x := a.length) (by simp) (by simp) rfl ht
        exact absurd (hages.total_eq hold hl) hless.ne
      · rintro ⟨hnone, -⟩
        have hcut : a ++ p :: b'.concat z = (a ++ p :: b') ++ [z] := by simp
        rw [hcut, dropLast_concat] at hnone
        exact absurd haged (hnone p (by simp))

/-- Two RUNNABLE processes in queue 1, of which `p` has waited for 10 ticks. -/
def waiting (p : Slot) : Sched :=
  { Sched.zero with
    proc := fun q => { Proc.zero with
      state := .runnable, pid := q.val + 1, currQueue := 1, waitTime := 3, stTime := if q = p then 0 else 10 }
    queue := fun k i => if k = 1 then some i else none
    ptr := fun k => if k = 1 then 1 else -1
    ticks := 10 }

theorem waiting_queued (p : Slot) : (waiting p).Queued (1 - 1) [] ∧ (waiting p).Queued 1 [0, 1] := by
  refine ⟨⟨rfl, fun i hi => absurd hi (by simp)⟩, rfl, fun i hi => ?_⟩
  rcases i with _ | _ | i
  · rfl
  · rfl
  · simp at hi

theorem ageing_agesTo_last : ∃ t, ageing 1 (waiting 1) = .ok () t ∧ (waiting 1).AgesTo t 1 [] [0, 1] :=
  (ageing_agesTo_iff 1 (by decide) (waiting 1) [] [0, 1] (waiting_queued 1).1 (waiting_queued 1).2 (by decide)
    (by decide)).mpr ⟨by decide, by decide⟩

/-- The first of two processes is aged: the other one is lost. -/
theorem ageing_drops_second : ∃ t, ageing 1 (waiting 0) = .ok () t ∧ t.ptr 0 = 0 ∧ t.entry 0 0 = some 0 ∧ t.ptr 1 = -1 ∧
    ¬(waiting 0).Aged 1 ∧ ¬(waiting 0).AgesTo t 1 [] [0, 1] := by
  have hrun : (ageing 1 (waiting 0)).casesOn (motive := fun _ => Option _)
      (fun _ t => some (t.ptr 0, t.entry 0 0, t.ptr 1)) (fun _ _ => none) = some (0, some 0, -1) := by decide +kernel
  cases ht : ageing 1 (waiting 0) with
  | fault f t =>
    rw [ht] at hrun
    cases hrun
  | ok u t =>
    rw [ht] at hrun
    simp only [Option.some.injEq, Prod.mk.injEq] at hrun
    obtain ⟨htail, hentry, hempty⟩ := hrun
    refine ⟨t, rfl, htail, hentry, hempty, by decide, fun hages => ?_⟩
    have hrest := hages.rest.1
    rw [hempty, show ([0, 1].filter fun p => ¬(waiting 0).Aged p) = [1] by decide] at hrest
    cases hrest

end Xv6
