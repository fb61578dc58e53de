import Xv6.Spec.Accesses

/-! What the queue operations do to a state and to the list of processes in a queue: loads, stores, the push and the shift. -/

namespace Xv6

open Prog Function

/-- The array `q` after `n` rounds of `q[j] = q[j+1]` from `j` on. -/
def shifted (q : Slot → Option Slot) (j : ℤ) (n : ℕ) (x : Slot) : Option Slot :=
  if j ≤ x ∧ x < j + n then if h : x.val + 1 < NPROC then q ⟨x.val + 1, h⟩ else none else q x

/-- `s` with queue `k` replaced. -/
@[simps proc ptr trace lock] def Sched.setQueue (s : Sched) (k : Fin 5) (q : Slot → Option Slot) : Sched :=
  { s with queue := Function.update s.queue k q }

theorem setQueue_self (s : Sched) (k : Fin 5) : s.setQueue k (s.queue k) = s := by
  simp [Sched.setQueue]

theorem setQueue_setQueue (s : Sched) (k : Fin 5) (q r) : (s.setQueue k q).setQueue k r = s.setQueue k r := by
  simp [Sched.setQueue]

theorem setQueue_queue (s : Sched) (k : Fin 5) (q) : (s.setQueue k q).queue k = q := by
  simp [Sched.setQueue]

variable {i j : ℤ}

theorem readQ_ok (k : Fin 5) (h0 : 0 ≤ i) (h1 : i < NPROC) (s : Sched) :
    readQ k i s = .ok (s.queue k ⟨i.toNat, by omega⟩) s := by
  rw [readQ, dif_pos ⟨h0, h1⟩, gets_apply]

theorem readQ_fault (k : Fin 5) (h : ¬ i < NPROC) (s : Sched) :
    readQ k i s = .fault (.queueBound k i) s := by
  rw [readQ, dif_neg (by omega), fail_apply]

theorem writeQ_ok (k : Fin 5) (h0 : 0 ≤ i) (h1 : i < NPROC) (v : Option Slot) (s : Sched) :
    writeQ k i v s = .ok () (s.setQueue k (update (s.queue k) ⟨i.toNat, by omega⟩ v)) := by
  rw [writeQ, dif_pos ⟨h0, h1⟩, modify_apply, Sched.setQueue]

theorem writeQ_fault (k : Fin 5) (h : ¬ i < NPROC) (v : Option Slot) (s : Sched) :
    writeQ k i v s = .fault (.queueBound k i) s := by
  rw [writeQ, dif_neg (by omega), fail_apply]

theorem shifted_zero (q : Slot → Option Slot) (j : ℤ) : shifted q j 0 = q := by
  funext x
  rw [shifted, if_neg (by omega)]

/-- One round, then the rest: the later rounds read nothing that the first one wrote. -/
theorem shifted_succ (q : Slot → Option Slot) (n : ℕ) (h0 : 0 ≤ j) (h1 : j + 1 < NPROC) :
    shifted (update q ⟨j.toNat, by omega⟩ (q ⟨(j + 1).toNat, by omega⟩)) (j + 1) n =
      shifted q j (n + 1) := by
  funext x
  by_cases hx : x.val = j.toNat
  · have hxe : x = ⟨j.toNat, by omega⟩ := Fin.ext hx
    have hlt : x.val + 1 < NPROC := by omega
    have hnext : (⟨x.val + 1, hlt⟩ : Slot) = ⟨(j + 1).toNat, by omega⟩ := Fin.ext (by simp only; omega)
    rw [shifted, if_neg (by omega), shifted, if_pos (by omega), dif_pos hlt, hnext, hxe, update_self]
  · have hne : x ≠ ⟨j.toNat, by omega⟩ := fun h => hx (by rw [h])
    by_cases hin : j + 1 ≤ x ∧ x < j + 1 + n
    · rw [shifted, if_pos hin, shifted, if_pos (by omega)]
      split_ifs with h
      · exact update_of_ne (fun h' => by have := congrArg Fin.val h'; simp only at this; omega) _ _
      · rfl
    · rw [shifted, if_neg hin, shifted, if_neg (by omega), update_of_ne hne]

theorem shiftQ_ok (k : Fin 5) (n : ℕ) (h0 : 0 ≤ j) (h1 : j + n < NPROC) (s : Sched) :
    shiftQ k n j s = .ok () (s.setQueue k (shifted (s.queue k) j n)) := by
  induction n generalizing j s with
  | zero => rw [shifted_zero, setQueue_self]; rfl
  | succ n ih =>
    rw [Nat.cast_succ] at h1
    rw [shiftQ, bind_of_ok (readQ_ok k (by omega) (by omega) s),
      bind_of_ok (writeQ_ok k h0 (by omega) _ s), ih (by omega) (by omega), setQueue_queue,
      setQueue_setQueue, shifted_succ _ n h0 (by omega)]

/-- A shift that reaches the end of the array faults there, with only the array changed. -/
theorem shiftQ_fault (k : Fin 5) (n : ℕ) (h0 : 0 ≤ j) (hj : j < NPROC) (h1 : ¬ j + n < NPROC)
    (s : Sched) : ∃ i q, shiftQ k n j s = .fault (.queueBound k i) (s.setQueue k q) := by
  induction n generalizing j s with
  | zero => exact absurd h1 (by simpa using hj)
  | succ n ih =>
    rw [Nat.cast_succ] at h1
    rw [shiftQ]
    by_cases hlast : j + 1 < NPROC
    · obtain ⟨i, q, h⟩ := ih (by omega) hlast (by omega)
        (s.setQueue k (update (s.queue k) ⟨j.toNat, by omega⟩ (s.queue k ⟨(j + 1).toNat, by omega⟩)))
      refine ⟨i, q, ?_⟩
      rw [bind_of_ok (readQ_ok k (by omega) hlast s), bind_of_ok (writeQ_ok k h0 (by omega) _ s), h,
        setQueue_setQueue]
    · refine ⟨j + 1, s.queue k, ?_⟩
      rw [bind_of_fault (readQ_fault k hlast s), setQueue_self]

theorem loopQ_empty {k : Fin 5} {s : Sched} (h : s.ptr k < i) (body : ℤ → SchedM Unit) (n : ℕ) :
    loopQ k body n i s = .ok () s := by
  cases n with
  | zero => rfl
  | succ n =>
    rw [loopQ, bind_of_ok (gets_apply _ s), if_neg (by omega)]
    rfl

section Contents

open List

variable {s t : Sched} {k : Fin 5} {l : List Slot}

theorem Sched.Content.push (h : s.Content k l) (hroom : s.ptr k + 1 < NPROC) (q : Slot) (hptr : t.ptr k = s.ptr k + 1)
    (hqueue : t.queue k = update (s.queue k) ⟨(s.ptr k + 1).toNat, by have := h.ptr; omega⟩ (some q)) : t.Content k (l ++ [q]) := by
  have hlast := h.ptr
  refine ⟨?_, ?_, fun i hi => ?_⟩
  · rw [length_append, length_singleton]
    omega
  · rw [length_append, length_singleton]
    omega
  · rw [hqueue]
    by_cases hlt : i.val < l.length
    · rw [update_of_ne (ne_of_apply_ne Fin.val (by simp only; omega)), h.slots i hlt, getElem?_append_left hlt]
    · have hval : i.val = l.length := by
        rw [length_append, length_singleton] at hi
        omega
      have heq : i = ⟨(s.ptr k + 1).toNat, by omega⟩ := Fin.ext (by simp only; omega)
      rw [← heq, update_self, hval, getElem?_concat_length]

/-- The processes behind slot `j` move up by one. -/
theorem Sched.Content.shift (h : s.Content k l) {j n : ℕ} (hj : j < l.length) (hn : l.length ≤ j + n + 1)
    (hptr : t.ptr k = s.ptr k - 1) (hqueue : t.queue k = shifted (s.queue k) j n) : t.Content k (l.eraseIdx j) where
  ptr := by
    have hlen := length_eraseIdx_of_lt hj
    have hlast := h.ptr
    omega
  fits := (eraseIdx_sublist l j).length_le.trans h.fits
  slots i hi := by
    have hlen := length_eraseIdx_of_lt hj
    have hfits := h.fits
    rw [hqueue, shifted, getElem?_eraseIdx]
    by_cases hlt : i.val < j
    · rw [if_neg (by omega), if_pos hlt]
      exact h.slots i (by omega)
    · rw [if_pos (by omega), if_neg hlt, dif_pos (by omega)]
      exact h.slots ⟨i.val + 1, by omega⟩ (by simp only; omega)

end Contents

section Rules

variable {I : Sched → Prop} {E : SchedFault → Sched → Prop}

theorem keeps_acquire (hlock : ∀ s l, I s → I { s with lock := l }) (hpanic : ∀ s, I s → E .panicAcquire s)
    (hspin : ∀ s, I s → E .spin s) (c : Cpu) (p : Slot) : Keeps I (acquire c p) E := by
  refine keeps_bind (keeps_gets _) fun holder => ?_
  cases holder with
  | none => exact keeps_modify fun s h => hlock s _ h
  | some d => exact keeps_ite (fun _ => keeps_fail hpanic) fun _ => keeps_fail hspin

theorem keeps_release (hlock : ∀ s l, I s → I { s with lock := l }) (hpanic : ∀ s, I s → E .panicRelease s)
    (c : Cpu) (p : Slot) : Keeps I (release c p) E :=
  keeps_bind (keeps_gets _) fun _ => keeps_ite (fun _ => keeps_modify fun s h => hlock s _ h)
    fun _ => keeps_fail hpanic

theorem keeps_scanLbs {c : Cpu} (hacquire : ∀ p, Keeps I (acquire c p) E) (hrelease : ∀ p, Keeps I (release c p) E)
    (ans : ℤ) (ps : List Slot) (passed : ℤ) : Keeps I (scanLbs c ans ps passed) E := by
  induction ps generalizing passed with
  | nil => exact keeps_pure _
  | cons p ps ih =>
    have hnext (n : ℤ) : Keeps I (do release c p; scanLbs c ans ps n) E := keeps_bind (hrelease p) fun _ => ih n
    exact keeps_bind (hacquire p) fun _ => keeps_bind (keeps_gets _) fun _ =>
      keeps_ite (fun _ => keeps_ite (fun _ => keeps_pure _) fun _ => hnext _) fun _ => hnext _

/-- A queue loop, from what its body does in a slot that is in use. -/
theorem keeps_loopQ {k : Fin 5} {body : ℤ → SchedM Unit}
    (hbody : ∀ i, 0 ≤ i → Holds (fun s => I s ∧ i ≤ s.ptr k) (body i) (fun _ => I) E) (n : ℕ) {i : ℤ}
    (h0 : 0 ≤ i) : Keeps I (loopQ k body n i) E := by
  induction n generalizing i with
  | zero => exact keeps_pure _
  | succ n ih =>
    refine holds_bind (holds_read _) fun last => holds_ite (fun hle => ?_) fun _ => holds_pure fun s h => h.1
    refine holds_bind (holds_conseq (hbody i h0) ?_ fun _ _ h => h) fun _ => ih (by omega)
    rintro s ⟨h, rfl⟩
    exact ⟨h, hle⟩

/-- While queues 1 to 4 are empty, a pass is the dispatch loop of queue 0. -/
theorem keeps_passMlfq (c : Cpu) (hothers : ∀ s k, I s → k ≠ 0 → s.ptr k = -1)
    (hslot : ∀ i, 0 ≤ i → Holds (fun s => I s ∧ i ≤ s.ptr 0) (dispatchSlot c 0 i) (fun _ => I) E) :
    Keeps I (passMlfq c) E := by
  have hempty : ∀ k body, k ≠ 0 → ∀ n, Keeps I (loopQ k body n 0) E := fun k body hk n =>
    keeps_loopQ (fun i h0 s ⟨h, hle⟩ => absurd (hothers s k h hk ▸ hle) (by omega)) n le_rfl
  have hdispatch : ∀ k, k ≠ 0 → Keeps I (dispatch c k) E := fun k hk =>
    keeps_bind (keeps_gets _) fun _ => keeps_ite (fun _ => hempty k _ hk _) fun _ => keeps_pure _
  have hdispatch0 : Keeps I (dispatch c 0) E :=
    keeps_bind (keeps_gets _) fun _ => keeps_ite (fun _ => keeps_loopQ hslot _ le_rfl) fun _ => keeps_pure _
  exact keeps_bind (hempty 1 _ (by decide) _) fun _ => keeps_bind (hempty 2 _ (by decide) _) fun _ =>
    keeps_bind (hempty 3 _ (by decide) _) fun _ => keeps_bind (hempty 4 _ (by decide) _) fun _ =>
    keeps_bind hdispatch0 fun _ => keeps_bind (hdispatch 1 (by decide)) fun _ =>
    keeps_bind (hdispatch 2 (by decide)) fun _ => keeps_bind (hdispatch 3 (by decide)) fun _ =>
    hdispatch 4 (by decide)

end Rules

end Xv6
