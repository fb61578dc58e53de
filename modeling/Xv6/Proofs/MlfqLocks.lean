import Xv6.Sanity.Queues
import Xv6.Spec.Mlfq

/-! The locks of the MLFQ dispatch loops. The slot that an iteration names when it releases has been shifted if its
process came back: the pass keeps the lock discipline as long as the process stands there all the same. -/

namespace Xv6

open Prog Function

/-! ### The slot and its lock -/

variable {s : Sched} {k : Fin 5} {i j : ℤ} {p : Slot} {c : Cpu}

theorem entry_congr {t : Sched} (h : t.queue k = s.queue k) (i : ℤ) : t.entry k i = s.entry k i := by
  unfold Sched.entry
  rw [h]

theorem derefQ_some (h : s.entry k i = some p) : derefQ k i s = .ok p s := by
  unfold Sched.entry at h
  split_ifs at h with hi
  unfold derefQ
  rw [bind_of_ok (readQ_ok k hi.1 hi.2 s), h]
  rfl

theorem derefQ_none (h : s.entry k i = none) :
    ∃ f, derefQ k i s = .fault f s ∧ f ≠ .spin := by
  unfold Sched.entry at h
  unfold derefQ
  split_ifs at h with hi
  · rw [bind_of_ok (readQ_ok k hi.1 hi.2 s), h]
    exact ⟨.nullDeref, rfl, nofun⟩
  · refine ⟨.queueBound k i, ?_, nofun⟩
    rw [readQ, dif_neg hi]
    rfl

theorem acquire_cases (h : s.lock p ≠ some c) :
    acquire c p s = .ok () { s with lock := update s.lock p (some c) } ∨ acquire c p s = .fault .spin s := by
  unfold acquire
  rw [bind_of_ok (gets_apply _ s)]
  cases hl : s.lock p with
  | none => exact .inl rfl
  | some d =>
    right
    have hd : d ≠ c := fun hd => h (by rw [hl, hd])
    simp only [if_neg hd]
    rfl

theorem lock_taken_dropped (h : s.lock p = none) (c : Cpu) :
    update (update s.lock p (some c)) p none = s.lock := by
  rw [update_idem, ← h, update_eq_self]

theorem release_held (h : s.lock p = some c) :
    release c p s = .ok () { s with lock := update s.lock p none } := by
  unfold release
  rw [bind_of_ok (gets_apply _ s), if_pos h]
  rfl

theorem release_other (h : s.lock p ≠ some c) :
    release c p s = .fault .panicRelease s := by
  unfold release
  rw [bind_of_ok (gets_apply _ s), if_neg h]
  rfl

/-- An iteration of a dispatch loop is its stretch up to `swtch`, the slice of the process, and the stretch after it. -/
theorem dispatchSlot_eq (c : Cpu) (k : Fin 5) (i : ℤ) (s : Sched) (hle : i ≤ s.ptr k) :
    (if k = 4 then dispatchSlot4 c i else dispatchSlot c k i) s =
      (do
        let r ← (Pos.slot k i).go c
        match r.1 with
        | .away k i p => do
          swtch c p
          let r ← (Pos.away k i p).go c
          endSlot c r.2
        | _ => endSlot c r.2 : SchedM Unit) s := by
  simp only [Pos.go]
  rw [bind_assoc, bind_of_ok (gets_apply _ s), if_pos hle]
  by_cases hk : k = 4
  · subst hk
    simp only [if_true, dispatchSlot4, dispatchProc4, bind_assoc]
    refine congrFun (bind_congr fun p => bind_congr fun _ => bind_congr fun pr => ?_) s
    split_ifs <;> simp only [runFrom, comeBack, if_true, bind_assoc, pure_bind, endSlot]
  · simp only [if_neg hk, dispatchSlot, dispatchProc, bind_assoc]
    refine congrFun (bind_congr fun p => bind_congr fun _ => bind_congr fun pr => ?_) s
    split_ifs <;> simp only [runFrom, comeBack, if_neg hk, bind_assoc, pure_bind, endSlot]

/-! ### A process comes back -/

theorem pushQ_cases (k : Fin 5) (p : Option Slot) (s : Sched) :
    (0 ≤ s.ptr k + 1 ∧ s.ptr k + 1 < NPROC ∧ ∃ t, pushQ k p s = .ok () t ∧ t.lock = s.lock ∧ t.proc = s.proc ∧
        ∀ j, j ≠ k → t.queue j = s.queue j ∧ t.ptr j = s.ptr j) ∨
      ¬ (0 ≤ s.ptr k + 1 ∧ s.ptr k + 1 < NPROC) ∧ ∃ f t, pushQ k p s = .fault f t ∧ f ≠ .spin := by
  simp only [pushQ, setPtr, bind_apply, gets_apply, modify_apply, update_self]
  unfold writeQ
  split_ifs with hroom
  · refine .inl ⟨hroom.1, hroom.2, _, rfl, rfl, rfl, fun j hj => ⟨?_, ?_⟩⟩
    · exact update_of_ne hj _ _
    · exact update_of_ne hj _ _
  · exact .inr ⟨hroom, _, _, rfl, nofun⟩

/-- Either the process may stay in its level or there is room in the next one. -/
def Sched.Room (s : Sched) (k : Fin 5) (p : Slot) : Prop :=
  (s.proc p).numOfTicks (k : ℕ) ≥ ticksAllowed k → (k = 3 ∨ (s.proc p).killed = false) →
    0 ≤ s.ptr (k + 1) + 1 ∧ s.ptr (k + 1) + 1 < NPROC

theorem demote_cases (hk : k ≠ 4) (p : Slot) (s : Sched) :
    (s.Room k p ∧ ∃ t, demote k p s = .ok () t ∧ t.lock = s.lock ∧ t.queue k = s.queue k ∧ t.ptr k = s.ptr k) ∨
      ¬ s.Room k p ∧ ∃ f t, demote k p s = .fault f t ∧ f ≠ .spin := by
  have hne : k ≠ k + 1 := by
    revert k
    decide
  unfold demote Sched.Room
  rw [bind_of_ok (gets_apply _ s)]
  by_cases hexp : (s.proc p).numOfTicks (k : ℕ) ≥ ticksAllowed k
  · by_cases hkill : k = 3 ∨ (s.proc p).killed = false
    · rw [if_pos hexp, if_pos hkill]
      have hupd : updProc p (fun pr => { pr with currQueue := int32 (pr.currQueue + 1) }) s =
          .ok () (s.setProc p fun pr => { pr with currQueue := int32 (pr.currQueue + 1) }) := rfl
      rw [bind_of_ok hupd]
      rcases pushQ_cases (k + 1) (some p) (s.setProc p fun pr => { pr with currQueue := int32 (pr.currQueue + 1) }) with
        ⟨h0, h1, t, ht, hlock, -, hsame⟩ | ⟨hroom, f, t, ht, hf⟩
      · exact .inl ⟨fun _ _ => ⟨h0, h1⟩, t, ht, hlock, (hsame k hne).1, (hsame k hne).2⟩
      · exact .inr ⟨fun h => hroom (h hexp hkill), f, t, ht, hf⟩
    · rw [if_pos hexp, if_neg hkill]
      exact .inl ⟨fun _ h => absurd h hkill, s, rfl, rfl, rfl, rfl⟩
  · rw [if_neg hexp]
    exact .inl ⟨fun h => absurd h hexp, s, rfl, rfl, rfl, rfl⟩

theorem entry_shifted {n : ℕ} (h0 : 0 ≤ i) (hn : 0 < n) (h1 : i + n < NPROC) :
    (s.setQueue k (shifted (s.queue k) i n)).entry k i = s.entry k (i + 1) := by
  unfold Sched.entry
  rw [dif_pos ⟨h0, by omega⟩, dif_pos ⟨by omega, by omega⟩, setQueue_queue, shifted,
    if_pos ⟨by simp only; omega, by simp only; omega⟩, dif_pos (by simp only; omega)]
  congr 1
  exact Fin.ext (by simp only; omega)

theorem shiftQ_spins_not (k : Fin 5) (n : ℕ) (h0 : 0 ≤ j) (hj : j < NPROC) (h1 : ¬ j + n < NPROC) (s : Sched) :
    ∃ f t, shiftQ k n j s = .fault f t ∧ f ≠ .spin := by
  obtain ⟨i, q, h⟩ := shiftQ_fault k n h0 hj h1 s
  exact ⟨_, _, h, nofun⟩

/-- What a returning process finds: either the loop runs into the end of an array, or it goes on, and names the process
again exactly if it `Returns`. -/
def Named (k : Fin 5) (i : ℤ) (p : Slot) (s : Sched) (r : Outcome Sched SchedFault Unit) : Prop :=
  (∃ t, r = .ok () t ∧ t.lock = s.lock ∧ (t.entry k i = some p ↔ s.Returns k i p)) ∨
    ¬ s.Returns k i p ∧ ∃ f t, r = .fault f t ∧ f ≠ .spin

theorem takeBack_named (hk : k ≠ 4) (h0 : 0 ≤ i) (h1 : i < NPROC) (p : Slot) (s : Sched) :
    Named k i p s (takeBack k i p s) := by
  have hreturns : s.Returns k i p ↔ s.Room k p ∧
      if i ≤ s.ptr k then s.ptr k + 1 < NPROC ∧ s.entry k (i + 1) = some p else s.entry k i = some p := by
    rw [Sched.Returns, if_neg hk]
    rfl
  unfold takeBack Named
  rw [hreturns]
  rcases demote_cases hk p s with ⟨hroom, t, ht, hlock, hqueue, hptr⟩ | ⟨hroom, f, t, ht, hf⟩
  · rw [bind_of_ok ht, bind_of_ok (gets_apply _ t), hptr]
    have hentry (j : ℤ) : t.entry k j = s.entry k j := entry_congr hqueue j
    by_cases hle : i ≤ s.ptr k
    · rw [if_pos hle]
      by_cases hlast : s.ptr k + 1 < NPROC
      · left
        rw [bind_of_ok (shiftQ_ok k _ h0 (by omega) t)]
        refine ⟨_, rfl, hlock, ?_⟩
        have hshift := entry_shifted (s := t) (k := k) (n := (s.ptr k - i + 1).toNat) h0 (by omega) (by omega)
        rw [hentry] at hshift
        change (t.setQueue k (shifted (t.queue k) i (s.ptr k - i + 1).toNat)).entry k i = some p ↔ _
        rw [hshift]
        exact ⟨fun h => ⟨hroom, hlast, h⟩, fun h => h.2.2⟩
      · right
        obtain ⟨f, u, hfault, hf⟩ := shiftQ_spins_not k (s.ptr k - i + 1).toNat h0 h1 (by omega) t
        exact ⟨fun h => hlast h.2.1, f, u, by rw [bind_of_fault hfault], hf⟩
    · left
      have hzero : (s.ptr k - i + 1).toNat = 0 := by omega
      rw [if_neg hle, hzero]
      refine ⟨_, rfl, hlock, ?_⟩
      change t.entry k i = some p ↔ _
      rw [hentry]
      exact ⟨fun h => ⟨hroom, h⟩, fun h => h.2⟩
  · right
    exact ⟨fun h => hroom h.1, f, t, by rw [bind_of_fault ht], hf⟩

theorem entry_written (s : Sched) (k : Fin 5) (hj : 0 ≤ j ∧ j < NPROC) (v : Option Slot) (i : ℤ) :
    (s.setQueue k (update (s.queue k) ⟨j.toNat, toNat_lt hj⟩ v)).entry k i = if i = j then v else s.entry k i := by
  unfold Sched.entry
  by_cases hij : i = j
  · subst hij
    rw [dif_pos hj, if_pos rfl, setQueue_queue, update_self]
  · rw [if_neg hij]
    split_ifs with hi
    · rw [setQueue_queue]
      exact update_of_ne (fun h => hij (by have := congrArg Fin.val h; simp only at this; omega)) _ _
    · rfl

theorem takeBack4_named (h0 : 0 ≤ i) (h1 : i < NPROC) (p : Slot) (s : Sched) :
    Named 4 i p s (takeBack4 i p s) := by
  unfold takeBack4 Named Sched.Returns
  rw [if_pos rfl, bind_of_ok (gets_apply _ s), bind_of_ok (gets_apply _ s)]
  by_cases hlt : i < s.ptr 4
  · rw [if_pos hlt]
    by_cases hlast : s.ptr 4 < NPROC
    · left
      have hshift := shiftQ_ok 4 (s.ptr 4 - i).toNat h0 (by omega) s
      have hentry := entry_shifted (s := s) (k := 4) (n := (s.ptr 4 - i).toNat) h0 (by omega) (by omega)
      by_cases hkilled : (s.proc p).killed = false
      · rw [if_pos hkilled, bind_of_ok hshift, writeQ_ok 4 (by omega) hlast]
        refine ⟨_, rfl, rfl, ?_⟩
        rw [entry_written _ 4 ⟨by omega, hlast⟩, if_neg (by omega), hentry]
        exact ⟨fun h => ⟨hlast, h⟩, fun h => h.2⟩
      · rw [if_neg hkilled, hshift]
        refine ⟨_, rfl, rfl, ?_⟩
        rw [hentry]
        exact ⟨fun h => ⟨hlast, h⟩, fun h => h.2⟩
    · right
      obtain ⟨f, t, hfault, hf⟩ := shiftQ_spins_not 4 (s.ptr 4 - i).toNat h0 h1 (by omega) s
      refine ⟨fun h => hlast h.1, f, t, ?_, hf⟩
      split_ifs
      · rw [bind_of_fault hfault]
      · exact hfault
  · have hzero : (s.ptr 4 - i).toNat = 0 := by omega
    have hstay : shiftQ 4 0 i s = .ok () s := rfl
    rw [if_neg hlt, hzero]
    by_cases hkilled : (s.proc p).killed = false
    · rw [if_pos hkilled, bind_of_ok hstay]
      by_cases heq : i = s.ptr 4
      · left
        rw [if_pos heq, writeQ_ok 4 (by omega) (by omega)]
        refine ⟨_, rfl, rfl, ?_⟩
        rw [entry_written s 4 ⟨by omega, by omega⟩, if_pos heq]
        exact ⟨fun _ => .inl hkilled, fun _ => rfl⟩
      · rw [if_neg heq]
        by_cases hpos : 0 ≤ s.ptr 4
        · left
          rw [writeQ_ok 4 hpos (by omega)]
          refine ⟨_, rfl, rfl, ?_⟩
          rw [entry_written s 4 ⟨hpos, by omega⟩, if_neg heq]
          exact ⟨fun h => ⟨h, fun _ => hpos⟩, fun h => h.1⟩
        · right
          refine ⟨fun h => hpos (h.2 hkilled), .queueBound 4 (s.ptr 4), s, ?_, nofun⟩
          rw [writeQ, dif_neg (by omega)]
          rfl
    · left
      rw [if_neg hkilled]
      refine ⟨s, hstay, rfl, ?_⟩
      split_ifs
      · simp [hkilled]
      · simp [hkilled]

/-! ### The steps of a pass -/

/-- The pass so far kept the discipline, and its index is inside the arrays while it is away. -/
structure Visit.Good (c : Cpu) (v : Visit) : Prop where
  disciplined : v.Disciplined c
  slot : ∀ k i, v.pos = .slot k i → 0 ≤ i
  away : ∀ k i p, v.pos = .away k i p → 0 ≤ i ∧ i < NPROC

namespace Visit

variable {c : Cpu} {v w : Visit}

variable {s t : Sched} {k : Fin 5} {i : ℤ} {p : Slot} {x : Change}

theorem entry_range (h : s.entry k i = some p) : 0 ≤ i ∧ i < NPROC := by
  unfold Sched.entry at h
  split_ifs at h with hi
  exact hi

/-- The release of the lock that the iteration had taken. -/
theorem close_good (hcalls : ∀ call ∈ v.calls, call.1 = call.2) (hi : 0 ≤ i)
    (hheld : ∀ q, t.lock q = some c ↔ q = p) : (v.close c t (.slot k (i + 1)) p p).Good c := by
  unfold close
  rw [release_held ((hheld p).mpr rfl)]
  refine ⟨⟨?_, ?_⟩, ?_, nofun⟩
  · intro call hcall
    rcases List.mem_append.mp hcall with hcall | hcall
    · exact hcalls call hcall
    · cases List.mem_singleton.mp hcall
      rfl
  · intro q
    by_cases hq : q = p
    · simp [hq]
    · simp only [update_of_ne hq]
      exact fun h => hq ((hheld q).mp h)
  · rintro k' i' h
    cases h
    omega

/-- The release of another lock is a panic. -/
theorem close_other {pos : Pos} {q : Slot} (hq : q ≠ p) (hheld : ∀ q, t.lock q = some c ↔ q = p) :
    (v.close c t pos p q).pos = .crashed := by
  unfold close
  rw [release_other fun h => hq ((hheld q).mp h)]

theorem held_update (h : ∀ q, s.lock q ≠ some c) (q : Slot) :
    update s.lock p (some c) q = some c ↔ q = p := by
  by_cases hq : q = p
  · simp [hq]
  · rw [update_of_ne hq]
    exact ⟨fun hl => absurd hl (h q), fun hl => absurd hl hq⟩

/-- An iteration begins. -/
theorem step_slot (hv : v.Good c) (hpos : v.pos = .slot k i) (h : v.step c .go = some w) :
    (v.Safe .go → w.Good c) ∧ (¬ v.Safe .go → w.pos = .crashed) := by
  have hi : 0 ≤ i := hv.slot k i hpos
  have hcalls := hv.disciplined.1
  have hfree : ∀ q, v.sched.lock q ≠ some c := by
    have := hv.disciplined.2
    rwa [hpos] at this
  have hsafe : v.Safe .go ↔ (i ≤ v.sched.ptr k → v.sched.entry k i ≠ none) := by
    unfold Safe
    rw [hpos, Sched.SafeAt]
  rw [hsafe]
  unfold step at h
  rw [hpos] at h
  simp only [reduceCtorEq, or_self, if_false, Pos.go] at h
  rw [bind_of_ok (gets_apply _ _)] at h
  by_cases hle : i ≤ v.sched.ptr k
  · rw [if_pos hle] at h
    cases hentry : v.sched.entry k i with
    | none =>
      obtain ⟨f, hf, hspin⟩ := derefQ_none hentry
      rw [bind_of_fault hf] at h
      refine ⟨fun hs => absurd rfl (hs hle), fun _ => ?_⟩
      cases f with
      | spin => exact absurd rfl hspin
      | _ => cases h; rfl
    | some p =>
      refine ⟨fun _ => ?_, fun hs => absurd (fun _ => nofun) hs⟩
      rw [bind_of_ok (derefQ_some hentry)] at h
      rcases acquire_cases (hfree p) with hacq | hspin
      · rw [bind_of_ok hacq, bind_of_ok (gets_apply _ _)] at h
        simp only at h
        by_cases hrun : (v.sched.proc p).state = .runnable
        · rw [if_pos hrun] at h
          cases h
          refine ⟨⟨hcalls, held_update hfree⟩, nofun, ?_⟩
          rintro k' i' p' hp
          cases hp
          exact entry_range hentry
        · have hentry' : Sched.entry { v.sched with lock := update v.sched.lock p (some c) } k i = some p :=
            hentry
          rw [if_neg hrun, bind_of_ok (derefQ_some hentry')] at h
          cases h
          exact close_good hcalls hi (held_update hfree)
      · rw [bind_of_fault hspin] at h
        cases h
  · rw [if_neg hle] at h
    cases h
    refine ⟨fun _ => ?_, fun hs => absurd (fun h => absurd h hle) hs⟩
    by_cases hk : k = 4
    · simp only [hk, if_true]
      exact ⟨⟨hcalls, hfree⟩, nofun, nofun⟩
    · simp only [hk, if_false]
      refine ⟨⟨hcalls, hfree⟩, ?_, nofun⟩
      rintro k' i' hp
      cases hp
      exact le_rfl

/-- The process comes back. -/
theorem step_away (hv : v.Good c) (hpos : v.pos = .away k i p)
    (h : v.step c .go = some w) : (v.Safe .go → w.Good c) ∧ (¬ v.Safe .go → w.pos = .crashed) := by
  obtain ⟨h0, h1⟩ := hv.away k i p hpos
  have hcalls := hv.disciplined.1
  have hheld : ∀ q, v.sched.lock q = some c ↔ q = p := by
    have := hv.disciplined.2
    rwa [hpos] at this
  have hsafe : v.Safe .go ↔ v.sched.Returns k i p := by
    unfold Safe
    rw [hpos, Sched.SafeAt]
  rw [hsafe]
  unfold step at h
  rw [hpos] at h
  simp only [reduceCtorEq, or_self, if_false, Pos.go] at h
  have hcpu : setCpuProc c none v.sched =
      .ok () { v.sched with cpuProc := update v.sched.cpuProc c none } := rfl
  rw [bind_of_ok hcpu] at h
  have hnamed : Named k i p { v.sched with cpuProc := update v.sched.cpuProc c none }
      (comeBack k i p { v.sched with cpuProc := update v.sched.cpuProc c none }) := by
    unfold comeBack
    by_cases hk : k = 4
    · subst hk
      rw [if_pos rfl]
      exact takeBack4_named h0 h1 p _
    · rw [if_neg hk]
      exact takeBack_named hk h0 h1 p _
  rcases hnamed with ⟨t, ht, hlock, hiff⟩ | ⟨hno, f, t, ht, hspin⟩
  · rw [bind_of_ok ht] at h
    have hheld' : ∀ q, t.lock q = some c ↔ q = p := by
      rwa [hlock]
    cases hentry : t.entry k i with
    | none =>
      obtain ⟨f, hf, hspin⟩ := derefQ_none hentry
      rw [bind_of_fault hf] at h
      refine ⟨fun hs => ?_, fun _ => ?_⟩
      · cases hentry.symm.trans (hiff.mpr hs)
      · cases f with
        | spin => exact absurd rfl hspin
        | _ => cases h; rfl
    | some q =>
      rw [bind_of_ok (derefQ_some hentry)] at h
      cases h
      refine ⟨fun hs => ?_, fun hs => ?_⟩
      · cases hentry.symm.trans (hiff.mpr hs)
        exact close_good hcalls h0 hheld'
      · refine close_other (fun hq => hs ?_) hheld'
        rw [hq] at hentry
        exact hiff.mp hentry
  · rw [bind_of_fault ht] at h
    refine ⟨fun hs => absurd hs hno, fun _ => ?_⟩
    cases f with
    | spin => exact absurd rfl hspin
    | _ => cases h; rfl

theorem step_world (hv : v.Good c) (h : v.step c (.world t) = some w) : w.Good c := by
  simp only [step] at h
  split_ifs at h with hlock
  cases h
  refine ⟨⟨hv.disciplined.1, ?_⟩, hv.slot, hv.away⟩
  have hd := hv.disciplined.2
  cases hpos : v.pos with
  | away k i p =>
    simp only [hpos] at hd ⊢
    exact fun q => (hlock q).trans (hd q)
  | crashed =>
    simp only [hpos] at hd
  | head | slot =>
    simp only [hpos] at hd ⊢
    exact fun q hq => hd q ((hlock q).mp hq)

theorem step_good (hv : v.Good c) (h : v.step c x = some w) :
    (v.Safe x → w.Good c) ∧ (¬ v.Safe x → w.pos = .crashed) := by
  cases x with
  | world t => exact ⟨fun _ => step_world hv h, fun hs => absurd trivial hs⟩
  | go =>
    cases hpos : v.pos with
    | slot k i => exact step_slot hv hpos h
    | away k i p => exact step_away hv hpos h
    | head | crashed =>
      unfold step at h
      simp [hpos] at h

theorem step_crashed (hv : v.pos = .crashed) (h : v.step c x = some w) : w.pos = .crashed := by
  cases x with
  | world t =>
    simp only [step] at h
    split_ifs at h
    cases h
    exact hv
  | go =>
    unfold step at h
    simp [hv] at h

end Visit

/-- Whatever the queues hold at the start of the dispatch loops and whatever happens while processes run: a pass keeps the
lock discipline exactly as long as each of its steps is safe. -/
theorem mlfq_disciplined_iff (c : Cpu) (s : Sched) (hfree : ∀ q, s.lock q ≠ some c) (xs : List Change) (v : Visit)
    (h : System.exec (Visit.step c) (Visit.start s) xs = some v) :
    v.Disciplined c ↔ System.Along (Visit.step c) Visit.Safe (Visit.start s) xs := by
  have hstart : (Visit.start s).Good c := by
    refine ⟨⟨nofun, hfree⟩, ?_, nofun⟩
    rintro k i hpos
    cases hpos
    exact le_rfl
  rcases @System.exec_along_cases _ _ (Visit.step c) _ Visit.Safe (Visit.Good c) (fun v => v.pos = .crashed) hstart
    (fun _ _ _ hv hsafe hs => (Visit.step_good hv hs).1 hsafe) (fun _ _ _ hv hsafe hs => (Visit.step_good hv hs).2 hsafe)
    (fun _ _ _ hv hs => Visit.step_crashed hv hs) xs v h with ⟨hgood, halong⟩ | ⟨hbad, halong⟩
  · exact ⟨fun _ => halong, fun _ => hgood.disciplined⟩
  · refine ⟨fun hd => absurd hd.2 ?_, fun ha => absurd ha halong⟩
    rw [hbad]
    exact id

/-- Init alone in queue 4, the only queue from whose last slot a process may be taken. -/
def inQueue4 : Sched :=
  { userinit with
    ptr := fun k => if k = 4 then 0 else -1
    queue := fun k i => if k = 4 ∧ i = 0 then some 0 else none }

/-- From there a pass runs init and ends with no lock held. -/
theorem mlfq_disciplined_inQueue4 : ∃ v,
    System.exec (Visit.step 0) (Visit.start inQueue4) [.go, .go, .go, .go, .go, .go, .go] = some v ∧
      v.pos = .head ∧ v.Disciplined 0 := by
  have hrun : (System.exec (Visit.step 0) (Visit.start inQueue4) [.go, .go, .go, .go, .go, .go, .go]).map (fun v => v.pos) =
      some .head := by decide +kernel
  obtain ⟨v, hv, hpos⟩ := Option.map_eq_some_iff.mp hrun
  refine ⟨v, hv, hpos, (mlfq_disciplined_iff 0 inQueue4 (by decide +kernel) _ v hv).mpr ?_⟩
  decide +kernel

/-- Init, dispatched after boot, when its first slice ends in `yield`. -/
def initBack : Sched :=
  ((do acquire 0 0; choose 0 0; swtch 0 0 : SchedM Unit) { userinit with script := [⟨[], .yield⟩] }).state

/-- The slot that the release then names is null, and the CPU is left with the lock of init. -/
theorem initYields_crashes :
    (System.exec (Visit.step 0) (Visit.start userinit) [.go, .world initBack, .go]).map (fun v => v.pos) = some .crashed ∧
      (Kernel.run .mlfq [(0, .pass [⟨[], .yield⟩])]).map (fun t => (t.halted 0, t.sched.lock 0)) = some (true, some 0) := by
  decide +kernel

end Xv6
