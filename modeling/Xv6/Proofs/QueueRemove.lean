import Xv6.Sanity.Queues

/-! `remove_from_queue` deletes the first process with the pid, and accesses no slot behind the last process. -/

namespace Xv6

open Prog Function List

variable {α : Type} {x : SchedM α} {s t : Sched} {k : Fin 5} {log : List ℤ} {l : List Slot} {pid i : ℤ}

theorem access_ok {a : α} (h : x s = .ok a t) (i : ℤ) (log : List ℤ) : access i x (s, log) = .ok a (t, log ++ [i]) := by
  rw [access, bind_of_ok (modify_apply _ _), quietly, zoom]
  simp only [h]

theorem shiftA_ok (k : Fin 5) (n : ℕ) {j : ℤ} (h0 : 0 ≤ j) (h1 : j + n < NPROC) (s : Sched) (log : List ℤ) :
    ∃ new, (∀ i ∈ new, i ≤ j + n) ∧ shiftA k n j (s, log) = .ok () (s.setQueue k (shifted (s.queue k) j n), log ++ new) := by
  induction n generalizing j s log with
  | zero => exact ⟨[], nofun, by rw [shifted_zero, setQueue_self, append_nil]; rfl⟩
  | succ n ih =>
    rw [Nat.cast_succ] at h1
    have hwrite := writeQ_ok k (i := j) h0 (by omega) (s.queue k ⟨(j + 1).toNat, by omega⟩) s
    obtain ⟨new, hnew, hrest⟩ := ih (j := j + 1) (by omega) (by omega)
      (s.setQueue k (update (s.queue k) ⟨j.toNat, by omega⟩ (s.queue k ⟨(j + 1).toNat, by omega⟩))) (log ++ [j + 1] ++ [j])
    refine ⟨(j + 1) :: j :: new, ?_, ?_⟩
    · rw [Nat.cast_succ, forall_mem_cons, forall_mem_cons]
      exact ⟨by omega, by omega, fun i hi => (hnew i hi).trans (by omega)⟩
    · rw [shiftA, bind_of_ok (access_ok (readQ_ok k (by omega) (by omega) s) _ _), bind_of_ok (access_ok hwrite _ _), hrest,
        setQueue_queue, setQueue_setQueue, shifted_succ _ n h0 (by omega)]
      simp

theorem derefQ_ok (h : s.Content k l) {j : ℕ} (hj : j < l.length) : derefQ k j s = .ok l[j] s := by
  have hlt : j < NPROC := hj.trans_le h.fits
  have hslot := h.slots ⟨j, hlt⟩ hj
  rw [List.getElem?_eq_getElem hj] at hslot
  unfold derefQ
  rw [bind_of_ok (readQ_ok k (Int.natCast_nonneg j) (by exact_mod_cast hlt) s)]
  simp only [Int.toNat_natCast, hslot]
  rfl

/-- The state without the process in slot `j`. -/
def Sched.without (s : Sched) (k : Fin 5) (j : ℕ) : Sched :=
  { s.setQueue k (shifted (s.queue k) j (s.ptr k - j).toNat) with ptr := update s.ptr k (s.ptr k - 1) }

theorem Sched.Content.without (h : s.Content k l) {j : ℕ} (hj : j < l.length) : (s.without k j).Content k (l.eraseIdx j) := by
  have hlast := h.ptr
  exact h.shift hj (by omega) (update_self ..) (setQueue_queue ..)

/-- The search from slot `j` on, when it has not found the pid before, in both versions. -/
theorem removeScan_ok (h : s.Content k l) {first : ℕ} (hfirst : (l.findIdx fun p => (s.proc p).pid = pid) = first) (n j : ℕ)
    (hn : j + n = l.length) (hj : j ≤ first) (log : List ℤ) :
    ∃ new, (∀ i ∈ new, i ≤ s.ptr k) ∧
      removeScanA k pid n j (s, log) = .ok () (if first < l.length then s.without k first else s, log ++ new) ∧
      removeScan k pid n j s = .ok () (if first < l.length then s.without k first else s) := by
  have hptr := h.ptr
  have hfits := h.fits
  induction n generalizing j log with
  | zero =>
    rw [if_neg (by omega)]
    exact ⟨[], nofun, by rw [append_nil]; rfl, rfl⟩
  | succ n ih =>
    have hlt : j < l.length := by omega
    have hderef := derefQ_ok h hlt
    rw [removeScanA, bind_of_ok (access_ok hderef _ _), bind_of_ok (gets_apply _ _), removeScan, bind_of_ok hderef,
      bind_of_ok (gets_apply _ _)]
    by_cases hpid : (s.proc l[j]).pid = pid
    · obtain rfl : first = j := by
        refine le_antisymm ?_ hj
        by_contra hgt
        exact absurd (not_of_lt_findIdx (hfirst ▸ not_le.mp hgt)) (by simpa using hpid)
      obtain ⟨new, hnew, hshift⟩ := shiftA_ok k (s.ptr k - first).toNat (j := first) (by omega) (by omega) s (log ++ [(first : ℤ)])
      rw [if_pos hpid, if_pos hpid, if_pos hlt, bind_of_ok (gets_apply _ _), bind_of_ok hshift, bind_of_ok (gets_apply _ _),
        bind_of_ok (shiftQ_ok k _ (by omega) (by omega) s)]
      refine ⟨first :: new, forall_mem_cons.mpr ⟨by omega, fun i hi => (hnew i hi).trans (by omega)⟩, ?_, rfl⟩
      simp [quietly, zoom, setPtr, Sched.without, Sched.setQueue]
    · have hnext : j + 1 ≤ first := by
        refine lt_of_le_of_ne hj fun heq => hpid ?_
        have := findIdx_getElem (p := fun p => decide ((s.proc p).pid = pid)) (w := hfirst ▸ heq ▸ hlt)
        simpa [hfirst, ← heq] using this
      obtain ⟨new, hnew, hA, hQ⟩ := ih (j + 1) (by omega) hnext (log ++ [(j : ℤ)])
      push_cast at hA
      rw [if_neg hpid, if_neg hpid, hA]
      exact ⟨j :: new, forall_mem_cons.mpr ⟨by omega, hnew⟩, by simp, hQ⟩

/-- `remove_from_queue(pid, k)` deletes the first process with this pid from queue `k`, leaves the other queues alone and
accesses no slot above the pointer. -/
theorem remove_deletes (s : Sched) (k : Fin 5) (l : List Slot) (h : s.Content k l) (pid : ℤ) :
    ∃ t accesses, removeFromQueueA pid k (s, []) = .ok () (t, accesses) ∧ removeFromQueue pid k s = .ok () t ∧
      t.Content k (l.eraseP fun p => (s.proc p).pid = pid) ∧ (∀ j, j ≠ k → t.queue j = s.queue j ∧ t.ptr j = s.ptr j) ∧
      ∀ i ∈ accesses, i ≤ s.ptr k := by
  have hn : (s.ptr k + 1).toNat = l.length := by
    have := h.ptr
    omega
  obtain ⟨first, hfirst⟩ : ∃ first, (l.findIdx fun p => (s.proc p).pid = pid) = first := ⟨_, rfl⟩
  obtain ⟨new, hnew, hA, hQ⟩ := removeScan_ok h hfirst l.length 0 (Nat.zero_add _) (Nat.zero_le _) []
  refine ⟨if first < l.length then s.without k first else s, new, ?_, ?_, ?_, fun j hj => ?_, hnew⟩
  · rw [removeFromQueueA, bind_of_ok (gets_apply _ _), hn]
    exact hA
  · rw [removeFromQueue, bind_of_ok (gets_apply _ _), hn]
    exact hQ
  · rw [eraseP_eq_eraseIdx]
    split_ifs with hlt
    · rw [findIdx?_eq_some_iff_findIdx_eq.mpr ⟨hlt, hfirst⟩]
      exact h.without hlt
    · rw [findIdx?_eq_none_iff_findIdx_eq.mpr (le_antisymm findIdx_le_length (hfirst ▸ not_lt.mp hlt))]
      exact h
  · split_ifs
    · exact ⟨update_of_ne hj _ _, update_of_ne hj _ _⟩
    · exact ⟨rfl, rfl⟩

/-- Two processes in queue 3; the first one goes. -/
theorem remove_deletes_first : ∃ t accesses,
    removeFromQueueA 7 3 ({ Sched.zero with
      proc := fun p => { Proc.zero with pid := 7 + p.val }, ptr := fun _ => 1, queue := fun _ i => some i }, []) =
        .ok () (t, accesses) ∧ t.Content 3 [1] := by
  set s : Sched := { Sched.zero with
    proc := fun p => { Proc.zero with pid := 7 + p.val }, ptr := fun _ => 1, queue := fun _ i => some i }
  have h : s.Content 3 [0, 1] := ⟨rfl, by decide, by decide⟩
  obtain ⟨t, accesses, hA, -, hcontent, -⟩ := remove_deletes s 3 [0, 1] h 7
  exact ⟨t, accesses, hA, hcontent⟩

end Xv6
