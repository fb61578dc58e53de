import Xv6.Sanity.ProcSteps

/-! What a new process inherits from the earlier processes of its slot. Of the fields that
nobody sets for a new process, `chan`, `xstate`, `ofile` and `end_time` are in a
known state in every UNUSED slot; `killed` and `tot_run_time` are not. -/

namespace Xv6.Procs

open Function Procs.Proc

def Proc.happens (pr : Proc) (hs : List Happen) : Proc := hs.foldl happen pr

/-- Equal in all fields, the names as strings. -/
def Proc.Alike (a b : Proc) : Prop := ∃ name, a = { b with name := name } ∧ cstr name = cstr b.name

/-- A step is a sequence of happenings for a slot, or a `fork` into it. -/
theorem step_sees {s s' : State} {e : Event} (hs : s.step e = some s') (q : Slot) :
    (∃ hs, s'.proc q = (s.proc q).happens hs) ∨
      (s.proc q).state = .unused ∧ ∃ p r, s'.proc q = (s.proc q).forked (s.proc p) p s.nextpid s.ticks r := by
  cases step_change hs q with
  | calm h _ _ hp => exact .inl ⟨[h], hp⟩
  | tick hp => exact .inl ⟨[.tick], hp⟩
  | exit status _ hp => exact .inl ⟨[.reparent q, .exit status], hp⟩
  | reap _ hp => exact .inl ⟨[.reap], hp⟩
  | fork p r hu hp => exact .inr ⟨hu, p, r, hp⟩

theorem cstr_freed (name : Name) : cstr (name.setIfInBounds 0 0) = [] := by
  obtain ⟨⟨l⟩, hl⟩ := name
  cases l with
  | nil => simp at hl
  | cons a l => simp [cstr]

variable {a b pr : Proc} {s : State}

theorem Proc.Alike.happen (h : a.Alike b) (x : Happen) : (a.happen x).Alike (b.happen x) := by
  obtain ⟨name, rfl, hname⟩ := h
  cases x with
  | tick =>
    unfold happen updateTime
    dsimp only
    split <;> exact ⟨name, rfl, hname⟩
  | wakeup chan =>
    unfold happen wakeup
    dsimp only
    split <;> exact ⟨name, rfl, hname⟩
  | reparent p =>
    unfold happen reparent
    dsimp only
    split <;> exact ⟨name, rfl, hname⟩
  | own d => exact ⟨d.name, rfl, rfl⟩
  | reap => exact ⟨name.setIfInBounds 0 0, rfl, (cstr_freed name).trans (cstr_freed b.name).symm⟩
  | _ => exact ⟨name, rfl, hname⟩

theorem Proc.Alike.happens (h : a.Alike b) (hs : List Happen) : (a.happens hs).Alike (b.happens hs) := by
  induction hs generalizing a b with
  | nil => exact h
  | cons x hs ih => exact ih (h.happen x)

section Names

variable {i : ℕ} {s s' : Name}

theorem takeWhile_agree {l l' : List UInt8} (h : ∀ j ≤ i, l[j]? = l'[j]?) (h0 : l[i]? = some 0) :
    l.takeWhile (· ≠ 0) = l'.takeWhile (· ≠ 0) := by
  induction i generalizing l l' with
  | zero =>
    obtain ⟨m, rfl⟩ : ∃ m, l = 0 :: m := by
      cases l with
      | nil => cases h0
      | cons a m => exact ⟨m, by cases h0; rfl⟩
    obtain ⟨m', rfl⟩ : ∃ m', l' = 0 :: m' := by
      have h0' := (h 0 le_rfl).symm.trans h0
      cases l' with
      | nil => cases h0'
      | cons a m' => exact ⟨m', by cases h0'; rfl⟩
    simp
  | succ i ih =>
    have hhead := h 0 (Nat.zero_le _)
    cases l with
    | nil => cases h0
    | cons a m =>
      cases l' with
      | nil => cases hhead
      | cons a' m' =>
        cases hhead
        have htail := @ih m m' (fun j hj => h (j + 1) (Nat.succ_le_succ hj)) h0
        simp only [List.takeWhile_cons, htail]

theorem cstr_agree (h : ∀ j ≤ i, s[j]? = s'[j]?) (h0 : s[i]? = some 0) : cstr s = cstr s' :=
  takeWhile_agree (i := i) (by simpa using h) (by simpa using h0)

/-- Two destinations that agree in front of byte `i` agree behind the copying of byte `i`. -/
theorem agree_set (h : ∀ j < i, s[j]? = s'[j]?) (b : UInt8) :
    ∀ j ≤ i, (s.setIfInBounds i b)[j]? = (s'.setIfInBounds i b)[j]? := by
  intro j hj
  rcases hj.lt_or_eq with hlt | rfl
  · simp [hlt.ne', h j hlt]
  · simp [Vector.getElem?_setIfInBounds]

theorem get_set_zero (s : Name) (hi : i < 16) : (s.setIfInBounds i 0)[i]? = some 0 := by
  simp [hi]

/-- The string that `safestrcpy` leaves does not depend on what the destination held. -/
theorem cstr_safestrcpyLoop (t : Name) (n i : ℕ) (hn : i + n = 15) (h : ∀ j < i, s[j]? = s'[j]?) :
    cstr (safestrcpyLoop t n i s) = cstr (safestrcpyLoop t n i s') := by
  induction n generalizing i s s' with
  | zero =>
    exact cstr_agree (i := i) (agree_set h 0) (get_set_zero s (by omega))
  | succ n ih =>
    have hagree := agree_set h (t[i]?.getD 0)
    simp only [safestrcpyLoop]
    split
    · rename_i hzero
      have hlt : ∀ j < i + 1, (s.setIfInBounds i (t[i]?.getD 0))[j]? = (s'.setIfInBounds i (t[i]?.getD 0))[j]? :=
        fun j hj => hagree j (Nat.le_of_lt_succ hj)
      exact cstr_agree (i := i + 1) (agree_set hlt 0) (get_set_zero _ (by omega))
    · exact ih (i + 1) (by omega) fun j hj => hagree j (Nat.le_of_lt_succ hj)

theorem cstr_safestrcpy (s s' t : Name) : cstr (safestrcpy s t) = cstr (safestrcpy s' t) :=
  cstr_safestrcpyLoop t 15 0 rfl fun j hj => absurd hj (Nat.not_lt_zero j)

end Names

/-- What `allocproc` and `fork` rely on in a slot that no process lives in. -/
structure Vacant (pr : Proc) : Prop where
  endTime : pr.endTime = 0
  ofile : pr.state = .unused ∨ pr.state = .zombie → pr.ofile = Vector.replicate NOFILE none
  chan : pr.state = .unused → pr.chan = none
  xstate : pr.state = .unused → pr.xstate = 0

theorem vacant_living (hend : pr.endTime = 0) (hu : pr.state ≠ .unused) (hz : pr.state ≠ .zombie) :
    Vacant pr :=
  ⟨hend, fun hs => absurd hs (not_or.mpr ⟨hu, hz⟩), (absurd · hu), (absurd · hu)⟩

theorem vacant_calm {pr' : Proc} (h : Vacant pr) (hc : Calm pr pr') : Vacant pr' := by
  refine ⟨hc.endTime.trans h.endTime, fun hs => ?_, fun hs => ?_, fun hs => ?_⟩
  · obtain ⟨hstate, hofile, -, -⟩ := hc.dead hs
    rw [hofile]
    exact h.ofile (hstate ▸ hs)
  · obtain ⟨hstate, -, hchan, -⟩ := hc.dead (.inl hs)
    rw [hchan]
    exact h.chan (hstate ▸ hs)
  · obtain ⟨hstate, -, -, hxstate⟩ := hc.dead (.inl hs)
    rw [hxstate]
    exact h.xstate (hstate ▸ hs)

theorem vacant_tick (h : Vacant pr) : Vacant pr.updateTime := by
  unfold updateTime
  split
  · rename_i hrun
    exact vacant_living h.endTime (by rw [hrun]; decide) (by rw [hrun]; decide)
  · exact { h with }
  · exact h

theorem vacant_fork (h : Vacant pr) (hu : pr.state = .unused) (p : Proc) (parent : Slot) (pid : ℤ)
    (ticks : ℕ) (r : ForkResult) : Vacant (pr.forked p parent pid ticks r) := by
  cases r with
  | ok | noCopy => exact vacant_living h.endTime nofun nofun
  | noTrapframe | noPagetable | noUvm => exact ⟨h.endTime, fun _ => h.ofile (.inl hu), fun _ => rfl, fun _ => rfl⟩

def State.Kept (s : State) : Prop := ∀ q, Vacant (s.proc q)

theorem kept_init : State.init.Kept := by
  intro q
  change Vacant (update (fun _ => zero) initproc State.userinit q)
  by_cases hq : q = initproc
  · rw [hq, update_self]
    exact vacant_living rfl nofun nofun
  · rw [update_of_ne hq]
    exact ⟨rfl, fun _ => rfl, fun _ => rfl, fun _ => rfl⟩

theorem kept_step (s : State) (e : Event) (s' : State) (h : s.Kept) (hs : s.step e = some s') : s'.Kept := by
  intro q
  cases step_change hs q with
  | calm x hquiet _ hp => exact vacant_calm (h q) (hp ▸ quiet_calm hquiet)
  | tick hp =>
    rw [hp]
    exact vacant_tick (h q)
  | exit status hrun hp =>
    rw [hp]
    exact ⟨(calm_reparent (s.proc q) q).endTime.trans (h q).endTime, fun _ => rfl, nofun,
      nofun⟩
  | reap hz hp =>
    rw [hp]
    exact ⟨(h q).endTime, fun _ => (h q).ofile (.inr hz), fun _ => rfl, fun _ => rfl⟩
  | fork p r hu hp =>
    rw [hp]
    exact vacant_fork (h q) hu (s.proc p) p s.nextpid s.ticks r

theorem vacant_run {es : List Event} (h : State.run es = some s) (q : Slot) : Vacant (s.proc q) :=
  System.exec_invariant State.step kept_init kept_step es s h q

/-- A child in a slot that others have used is the child it would be in a new slot, but for three fields. -/
theorem child_eq (h : Vacant pr) (hu : pr.state = .unused) (p : Proc) (parent : Slot) (pid : ℤ)
    (ticks : ℕ) : pr.child p parent pid ticks =
      { zero.child p parent pid ticks with
        name := safestrcpy pr.name p.name, killed := pr.killed, totRunTime := pr.totRunTime } := by
  obtain ⟨hend, hofile, hchan, hxstate⟩ := h
  simp only [child, copyFrom, noAlarm, setContext, found, zero, hend, hofile (.inl hu),
    hchan hu, hxstate hu]

theorem child_alike {pr₁ pr₂ : Proc} (h₁ : Vacant pr₁) (h₂ : Vacant pr₂) (hu₁ : pr₁.state = .unused)
    (hu₂ : pr₂.state = .unused) (hsame : pr₁.killed = pr₂.killed ∧ pr₁.totRunTime = pr₂.totRunTime) (p : Proc)
    (parent : Slot) (pid : ℤ) (ticks : ℕ) :
    (pr₁.child p parent pid ticks).Alike (pr₂.child p parent pid ticks) := by
  rw [child_eq h₁ hu₁, child_eq h₂ hu₂, hsame.1, hsame.2]
  exact ⟨_, rfl, cstr_safestrcpy _ _ _⟩

theorem Proc.Alike.inherited (h : a.Alike b) : a.killed = b.killed ∧ a.totRunTime = b.totRunTime := by
  obtain ⟨name, rfl, -⟩ := h
  exact ⟨rfl, rfl⟩

theorem child_ticks {ticks ticks' : ℕ} (h : ticks % 2 ^ 32 = ticks' % 2 ^ 32) (pr p : Proc) (parent : Slot) (pid : ℤ) :
    pr.child p parent pid ticks = pr.child p parent pid ticks' := by
  have hint : int32 ticks = int32 ticks' := by
    unfold int32
    omega
  simp only [child, found, hint]

def State.free (s : State) : Option Slot := s.find fun pr => pr.state = .unused

theorem fork_child {s' : State} {p np : Slot} (hnp : s.free = some np) (hs : s.step (.fork p .ok) = some s') :
    s'.proc np = (s.proc np).child (s.proc p) p s.nextpid s.ticks := by
  obtain ⟨-, rfl⟩ := running_some hs
  unfold State.free at hnp
  simp [State.fork, hnp, State.set, forked]

/-- In two runs that agree on the parent, on `ticks` and on `nextpid`, the new children are alike and stay
alike exactly when the slots they get hold the same `killed` and the same `tot_run_time`. -/
theorem fork_history_iff (es₁ es₂ : List Event) (s₁ s₂ t₁ t₂ : State) (p np₁ np₂ : Slot)
    (h₁ : State.run es₁ = some s₁) (h₂ : State.run es₂ = some s₂)
    (hparent : s₁.proc p = s₂.proc p) (hticks : s₁.ticks % 2 ^ 32 = s₂.ticks % 2 ^ 32) (hpid : s₁.nextpid = s₂.nextpid)
    (hnp₁ : s₁.free = some np₁) (hnp₂ : s₂.free = some np₂)
    (hfork₁ : s₁.step (.fork p .ok) = some t₁) (hfork₂ : s₂.step (.fork p .ok) = some t₂) :
    (∀ hs, ((t₁.proc np₁).happens hs).Alike ((t₂.proc np₂).happens hs)) ↔
      (s₁.proc np₁).killed = (s₂.proc np₂).killed ∧ (s₁.proc np₁).totRunTime = (s₂.proc np₂).totRunTime := by
  have hu₁ : (s₁.proc np₁).state = .unused := of_decide_eq_true (find_some hnp₁)
  have hu₂ : (s₂.proc np₂).state = .unused := of_decide_eq_true (find_some hnp₂)
  rw [fork_child hnp₁ hfork₁, fork_child hnp₂ hfork₂, hparent, hpid, child_ticks hticks]
  constructor
  · intro halike
    exact (halike []).inherited
  · intro hsame hs
    exact (child_alike (vacant_run h₁ np₁) (vacant_run h₂ np₂) hu₁ hu₂ hsame _ p _ _).happens hs

/-- Slot 1 has held a process that ran at one tick, or at none, while the parent did the same. -/
def ranOnce : List Event := [.dispatch 0, .fork 0 .ok, .dispatch 1, .tick, .exit 1 0, .wait 0]

def ranNever : List Event := [.dispatch 0, .fork 0 .ok, .tick, .dispatch 1, .exit 1 0, .wait 0]

/-- What `fork` may depend on. -/
def State.given (s : State) (p : Slot) : Proc × ℕ × ℤ × Option Slot := (s.proc p, s.ticks, s.nextpid, s.free)

/-- The two runs end in states that agree on what `fork` may depend on. -/
theorem same_given : ∃ s₁ s₂, State.run ranOnce = some s₁ ∧ State.run ranNever = some s₂ ∧ s₁.given 0 = s₂.given 0 ∧
    (s₂.proc 0).state = .running ∧ s₂.free = some 1 := by
  have hone : ((State.run ranOnce).map (·.given 0)) = (State.run ranNever).map (·.given 0) := by decide +kernel
  have hnever : ((State.run ranNever).map fun s => ((s.proc 0).state, s.free)) = some (.running, some 1) := by
    decide +kernel
  obtain ⟨s₂, hs₂, hstate⟩ := Option.map_eq_some_iff.mp hnever
  rw [hs₂] at hone
  obtain ⟨s₁, hs₁, hgiven⟩ := Option.map_eq_some_iff.mp hone
  exact ⟨s₁, s₂, hs₁, hs₂, hgiven, (Prod.mk.inj hstate).1, (Prod.mk.inj hstate).2⟩

theorem fork_history_iff_ranOnce : ∃ s₁ s₂ t₁ t₂, State.run ranOnce = some s₁ ∧ State.run ranNever = some s₂ ∧
    s₁.step (.fork 0 .ok) = some t₁ ∧ s₂.step (.fork 0 .ok) = some t₂ ∧
    ((∀ hs, ((t₁.proc 1).happens hs).Alike ((t₂.proc 1).happens hs)) ↔
      (s₁.proc 1).killed = (s₂.proc 1).killed ∧ (s₁.proc 1).totRunTime = (s₂.proc 1).totRunTime) := by
  obtain ⟨s₁, s₂, hs₁, hs₂, hgiven, hrun, hfree⟩ := same_given
  obtain ⟨hparent, hrest⟩ := Prod.mk.inj hgiven
  obtain ⟨hticks, hrest⟩ := Prod.mk.inj hrest
  obtain ⟨hpid, hfree'⟩ := Prod.mk.inj hrest
  have hfork₁ : s₁.step (.fork 0 .ok) = some (s₁.fork 0 .ok) := if_pos (hparent ▸ hrun)
  have hfork₂ : s₂.step (.fork 0 .ok) = some (s₂.fork 0 .ok) := if_pos hrun
  exact ⟨s₁, s₂, _, _, hs₁, hs₂, hfork₁, hfork₂,
    fork_history_iff ranOnce ranNever s₁ s₂ _ _ 0 1 1 hs₁ hs₂ hparent (by rw [hticks]) hpid (hfree'.trans hfree) hfree
      hfork₁ hfork₂⟩

/-- The second child starts with the running time of the first; one in a slot that `kill(0)` has
hit starts killed. -/
theorem child_depends_on_history :
    ((State.run ranOnce).map (·.given 0) = (State.run ranNever).map (·.given 0) ∧
      ((State.run (ranOnce ++ [.fork 0 .ok])).map fun s => (s.proc 1).totRunTime) = some 1 ∧
      ((State.run (ranNever ++ [.fork 0 .ok])).map fun s => (s.proc 1).totRunTime) = some 0) ∧
    ((State.run (ranNever ++ [.kill 0])).map (·.given 0) = (State.run ranNever).map (·.given 0) ∧
      ((State.run (ranNever ++ [.kill 0, .fork 0 .ok])).map fun s => (s.proc 1).killed) = some 1 ∧
      ((State.run (ranNever ++ [.fork 0 .ok])).map fun s => (s.proc 1).killed) = some 0) := by
  refine ⟨⟨?_, ?_, ?_⟩, ?_, ?_, ?_⟩ <;> decide +kernel

end Xv6.Procs
