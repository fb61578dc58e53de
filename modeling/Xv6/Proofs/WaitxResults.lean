import Xv6.Sanity.ProcSteps
import Xv6.Spec.Waitx

/-! `sys_waitx` copies the two times out after `waitx` has reaped the child, and also when `waitx` has not set them. -/

namespace Xv6.Procs

open State

variable {ok : ℕ → Bool} {addr addr1 addr2 : ℕ} {w : Word} {c : Call} {s : State} {p q : Slot} {b : ℕ × Word}

/-- Nothing is stored that was never set. -/
def Call.Clean (c : Call) : Prop := ∀ b ∈ c.stored, b.2 ≠ .junk

theorem Call.Clean.copyout (h : c.Clean) (x : ℤ) : (c.copyout ok addr (.value x)).Clean := by
  intro b hb
  rcases List.mem_append.mp hb with hb | hb
  · exact h b hb
  · obtain ⟨i, -, rfl⟩ := List.mem_map.mp hb
    nofun

theorem copyout_keeps (h : b ∈ c.stored) : b ∈ (c.copyout ok addr w).stored := List.mem_append_left _ h

theorem copyout_stores (h : Fits ok addr) {i : ℕ} (hi : i < 4) : (addr + i, w) ∈ (c.copyout ok addr w).stored := by
  have hall : (List.range 4).takeWhile (fun i => ok (addr + i)) = List.range 4 :=
    List.takeWhile_eq_self_iff.mpr fun i hi => h i (List.mem_range.mp hi)
  refine List.mem_append_right _ ?_
  rw [hall]
  exact List.mem_map_of_mem (List.mem_range.mpr hi)

theorem copyout_first (h : ok addr = true) : (addr, w) ∈ (c.copyout ok addr w).stored := by
  simp [Call.copyout, List.range_succ_eq_map, List.takeWhile_cons, h]

theorem copyout_nothing (h : ok addr = false) : (c.copyout ok addr w).stored = c.stored := by
  simp [Call.copyout, List.range_succ_eq_map, h]

theorem copyStatus_state (s : State) (q : Slot) (ok : ℕ → Bool) (addr : ℕ) : (s.copyStatus q ok addr).state = s := by
  unfold copyStatus
  split_ifs <;> rfl

theorem copyStatus_clean (s : State) (q : Slot) (ok : ℕ → Bool) (addr : ℕ) : (s.copyStatus q ok addr).Clean := by
  have hnil : Call.Clean ⟨s, []⟩ := nofun
  unfold copyStatus
  split_ifs
  · exact hnil.copyout _
  · exact hnil

/-- The call fails and has done nothing. -/
theorem fails_well (hstate : c.state = s) (hclean : c.Clean) : s.AllOrNothing p addr addr1 addr2 (-1, c) :=
  ⟨fun _ => ⟨fun _ _ => hstate ▸ Iff.rfl, hclean⟩, fun hne => absurd rfl hne⟩

/-- The call returns -1 and has reaped a child. -/
theorem not_reaped {r : ℤ × Call} (h : s.deadChild p = some q) (hret : r.1 = -1) (hstate : r.2.state = s.set q freeproc) :
    ¬s.AllOrNothing p addr addr1 addr2 r := by
  intro hall
  have hdead := find_some h
  simp only [decide_eq_true_eq] at hdead
  have hgone := (((hall.1 hret).1 q _).mpr ⟨hdead.1, hdead.2, rfl⟩).2.1
  simp [hstate, State.set, freeproc] at hgone

/-- `sys_waitx` is all or nothing exactly if the status of the dead child cannot be stored, or both times can be and the
child's pid is not -1, or there is no dead child and not even a byte of the first time can be stored. -/
theorem waitx_atomic_iff (s : State) (p : Slot) (ok : ℕ → Bool) (addr addr1 addr2 : ℕ) (r : ℤ × Call)
    (h : s.sysWaitx p ok addr addr1 addr2 = some r) :
    s.AllOrNothing p addr addr1 addr2 r ↔ match s.deadChild p with
      | none => ok addr1 = false
      | some q => addr ≠ 0 ∧ ¬Fits ok addr ∨ Fits ok addr1 ∧ Fits ok addr2 ∧ (s.proc q).pid ≠ -1 := by
  obtain ⟨v, hv, rfl⟩ := Option.map_eq_some_iff.mp h
  unfold waitxScan at hv
  cases hq : s.deadChild p with
  | none =>
    rw [hq] at hv
    simp only [Option.ite_none_right_eq_some, Option.some.injEq] at hv
    obtain ⟨-, rfl⟩ := hv
    dsimp only
    rw [ite_self]
    refine ⟨fun hall => ?_, fun hok => ?_⟩
    · by_contra hok
      have hfirst : (addr1, Word.junk) ∈ (Call.copyout ⟨s, []⟩ ok addr1 .junk).stored :=
        copyout_first (Bool.eq_true_of_not_eq_false hok)
      split_ifs at hall
      · exact (hall.1 rfl).2 _ (copyout_keeps hfirst) rfl
      · exact (hall.1 rfl).2 _ hfirst rfl
    · rw [if_neg fun hfits => Bool.false_ne_true (hok.symm.trans (hfits 0 (by decide)))]
      refine fails_well rfl fun b hb => ?_
      rw [copyout_nothing hok] at hb
      cases hb
  | some q =>
    rw [hq] at hv
    dsimp only at hv ⊢
    by_cases hfail : addr ≠ 0 ∧ ¬Fits ok addr
    · have hstate := copyStatus_state s q ok addr
      have hclean := copyStatus_clean s q ok addr
      rw [if_pos hfail] at hv
      obtain rfl := Option.some.inj hv
      refine iff_of_true ?_ (.inl hfail)
      dsimp only
      split_ifs
      · exact fails_well hstate ((hclean.copyout _).copyout _)
      · exact fails_well hstate ((hclean.copyout _).copyout _)
      · exact fails_well hstate (hclean.copyout _)
    · rw [if_neg hfail] at hv
      obtain rfl := Option.some.inj hv
      rw [or_iff_right hfail]
      dsimp only
      split_ifs with h1 h2
      · refine ⟨fun hall => ⟨h1, h2, fun hpid => not_reaped hq hpid rfl hall⟩, fun hgood =>
          ⟨fun hret => absurd hret hgood.2.2, fun _ => ⟨q, hq, rfl, fun i hi =>
            ⟨fun haddr => ?_, copyout_keeps (copyout_stores h1 hi), copyout_stores h2 hi⟩⟩⟩⟩
        refine copyout_keeps (copyout_keeps ?_)
        unfold copyStatus
        rw [if_pos haddr]
        exact copyout_stores (not_not.mp fun h => hfail ⟨haddr, h⟩) hi
      · exact iff_of_false (not_reaped hq rfl rfl) fun hgood => h2 hgood.2.1
      · exact iff_of_false (not_reaped hq rfl rfl) fun hgood => h1 hgood.1

/-- The second process is a dead child of the first. -/
def oneDead : State :=
  { State.init with proc := fun q => if q = 1 then { Proc.zero with parent := some 0, state := .zombie, pid := 2 } else Proc.zero }

theorem waitx_atomic_valid : ∃ r, oneDead.sysWaitx 0 (fun _ => true) 0 100 200 = some r ∧ r.1 = 2 ∧
    oneDead.AllOrNothing 0 0 100 200 r := by
  have hrun : (oneDead.sysWaitx 0 (fun _ => true) 0 100 200).map (·.1) = some 2 := by decide +kernel
  obtain ⟨r, hr, hret⟩ := Option.map_eq_some_iff.mp hrun
  refine ⟨r, hr, hret, (waitx_atomic_iff _ _ _ _ _ _ r hr).mpr ?_⟩
  rw [show oneDead.deadChild 0 = some 1 by decide +kernel]
  exact .inr ⟨fun _ _ => rfl, fun _ _ => rfl, by decide⟩

/-- With bad addresses for the times the child is reaped and -1 returned. Without a child, what was on the kernel stack is
stored. -/
theorem waitx_loses_child :
    (oneDead.sysWaitx 0 (fun _ => false) 0 100 200).map (fun r => (r.1, (r.2.state.proc 1).state)) = some (-1, .unused) ∧
    (State.init.sysWaitx 0 (fun _ => true) 0 100 200).map (fun r => (r.1, r.2.stored.count (100, .junk))) = some (-1, 1) := by
  decide +kernel

end Xv6.Procs
