import Xv6.Proofs.AlarmReturn

/-! Deliveries of the alarm and calls of `sigreturn`. They alternate as long as a program
calls `sigreturn` only from a handler and sets no new alarm there: `sys_sigalarm`
clears the flag that says a handler runs, and `sys_sigreturn` does not look at it. -/

namespace Xv6.Trap

/-- The registers of the delivery that no `sigreturn` has followed yet. -/
def pending (marks : List Mark) : Option User :=
  match marks.getLast? with
  | some (.saved u) => some u
  | _ => none

/-- A delivery comes when none is pending, and `sigreturn` restores what the pending one saved. -/
def Fits (marks : List Mark) : Mark → Prop
  | .saved _ => pending marks = none
  | .restored u => pending marks = some u

/-- Deliveries and calls of `sigreturn` alternate, and each frame is restored as it was saved. -/
def Bracketed (marks : List Mark) : Prop := System.Always Fits marks

/-- What a program keeps to: no `sigalarm` with a positive interval while a delivery is
pending, no `sigreturn` while none is. -/
def Proper (s : State) : Event → Prop
  | .syscall _ _ => (s.num = SYS_sigalarm → intOf (s.user.reg .a0) > 0 → (pending s.marks).isNone) ∧
      (s.num = SYS_sigreturn → (pending s.marks).isSome)
  | _ => True

instance (s : State) : (e : Event) → Decidable (Proper s e)
  | .syscall _ _ => inferInstanceAs (Decidable (_ ∧ _))
  | .user _ | .timer _ | .device _ => inferInstanceAs (Decidable True)

/-- The steps of a program that keeps to this. -/
def State.properStep (usertrapAddr : UInt64) (b : Build) (s : State) (e : Event) : Option State :=
  if Proper s e then s.step usertrapAddr b e else none

/-- A process that has just been created; what is in its two frames does not matter. -/
def Fresh (s : State) : Prop :=
  s.marks = [] ∧ s.proc.isSigalarm = false ∧ s.proc.tickss = 0

@[simp] theorem pending_saved (marks : List Mark) (u : User) : pending (marks ++ [.saved u]) = some u := by
  simp [pending]

@[simp] theorem pending_restored (marks : List Mark) (u : User) : pending (marks ++ [.restored u]) = none := by
  simp [pending]

structure Orderly (s : State) : Prop where
  bracketed : Bracketed s.marks
  /-- while a delivery is pending, no alarm can be due -/
  quiet : ∀ u, pending s.marks = some u → s.proc.isSigalarm = true ∨ s.proc.tickss ≤ 0
  copy : ∀ u, pending s.marks = some u → s.proc.trapframeCopy.user = u

variable {usertrapAddr : UInt64} {b : Build} {s s' : State} {e : Event}

theorem Proper.call (hp : Proper s e) (he : e.IsCall) :
    (s.num = SYS_sigalarm → intOf (s.user.reg .a0) > 0 → pending s.marks = none) ∧
      (s.num = SYS_sigreturn → pending s.marks ≠ none) := by
  cases e with
  | syscall i h =>
    exact ⟨fun hnum hpos => Option.isNone_iff_eq_none.mp (hp.1 hnum hpos), fun hnum => Option.isSome_iff_ne_none.mp (hp.2 hnum)⟩
  | _ => exact he.elim

theorem Orderly.step (hi : Orderly s) (hs : s.properStep usertrapAddr b e = some s') : Orderly s' := by
  rw [State.properStep] at hs
  split at hs
  case isFalse => cases hs
  rename_i hproper
  obtain ⟨m, hm, hacts⟩ := step_acts hs
  cases hacts with
  | rests h hmarks =>
    subst hmarks
    rw [List.append_nil] at hm
    exact ⟨hm ▸ hi.bracketed, fun u hu => by rw [h.isSigalarm, h.tickss]; exact hi.quiet u (hm ▸ hu),
      fun u hu => h.copy ▸ hi.copy u (hm ▸ hu)⟩
  | delivers hdue hcopy hsig htickss hmarks =>
    subst hmarks
    have hnone : pending s.marks = none := by
      cases hpending : pending s.marks with
      | none => rfl
      | some u =>
        have hsig' := hdue.2.2
        have hpos := hdue.1
        have hquiet := hi.quiet u hpending
        rw [hsig'] at hquiet
        exact absurd (hquiet.resolve_left (by decide)) (not_le.mpr hpos)
    refine ⟨hm ▸ (System.always_snoc Fits _ _).mpr ⟨hi.bracketed, hnone⟩, fun u _ => .inl hsig, fun u hu => ?_⟩
    rw [hm, pending_saved] at hu
    exact hcopy.trans (Option.some.inj hu)
  | sets hcall hnum hcopy hsig htickss hmarks =>
    subst hmarks
    rw [List.append_nil] at hm
    refine ⟨hm ▸ hi.bracketed, fun u hu => .inr ?_, fun u hu => hcopy ▸ hi.copy u (hm ▸ hu)⟩
    rw [htickss]
    by_contra hpos
    have hnone := (hproper.call hcall).1 hnum (not_le.mp hpos)
    rw [hm, hnone] at hu
    cases hu
  | returns hcall hnum hcopy hsig htickss hmarks =>
    subst hmarks
    obtain ⟨u, hu⟩ := Option.ne_none_iff_exists'.mp ((hproper.call hcall).2 hnum)
    have hfits : Fits s.marks (.restored s.proc.trapframeCopy.user) := by
      rwa [hi.copy u hu]
    have hnone (u) : pending s'.marks ≠ some u := by
      rw [hm, pending_restored]
      exact nofun
    exact ⟨hm ▸ (System.always_snoc Fits _ _).mpr ⟨hi.bracketed, hfits⟩, fun u hu => absurd hu (hnone u),
      fun u hu => absurd hu (hnone u)⟩

theorem Fresh.orderly (hs : Fresh s) : Orderly s := by
  obtain ⟨hmarks, -, -⟩ := hs
  have hnone (u) : pending s.marks ≠ some u := by
    rw [hmarks]
    exact nofun
  exact ⟨hmarks ▸ System.always_nil Fits, fun u hu => absurd hu (hnone u), fun u hu => absurd hu (hnone u)⟩

/-- In every run of a program that keeps to `Proper`, deliveries and calls of `sigreturn`
alternate, and every saved frame is restored once and unchanged. -/
theorem alarm_brackets (usertrapAddr : UInt64) (b : Build) (s₀ s : State) (es : List Event) (hfresh : Fresh s₀)
    (hrun : System.exec (State.properStep usertrapAddr b) s₀ es = some s) : Bracketed s.marks :=
  (System.exec_invariant _ hfresh.orderly (fun _ _ _ hi hs => hi.step hs) es s hrun).bracketed

/-- A process without an alarm. -/
def justCreated : State where
  user := ⟨0, fun _ => 0⟩
  proc := { pid := 3, kstack := 0x1000, mask := 0, trapframe := fun _ => 0, handler := 0, tickss := 0, nowTicks := 0,
            trapframeCopy := fun _ => 0, isSigalarm := false }
  console := []
  marks := []

/-- About to call `sigalarm(1, handler)`. -/
def callsSigalarm : User := ⟨0x40, fun r => if r = .a7 then 26 else if r = .a0 then 1 else if r = .a1 then 0x200 else 0⟩

/-- An alarm is set, and delivered at the next tick. -/
def firstAlarm : List Event := [.user callsSigalarm, .syscall noInput hart0, .timer hart0]

theorem bracketed_map {marks : List Mark} (hb : Bracketed marks) :
    marks.map Mark.isSaved ≠ [true, true] ∧ marks.map Mark.isSaved ≠ [false] := by
  refine ⟨fun hmap => ?_, fun hmap => ?_⟩
  · match marks, hmap with
    | [.saved u, .saved v], _ => cases hb [.saved u] (.saved v) [] rfl
  · match marks, hmap with
    | [.restored u], _ => cases hb [] (.restored u) [] rfl

theorem alarm_brackets_firstAlarm :
    ∃ s, System.exec (State.properStep 0 .rr) justCreated (firstAlarm ++ [.user dummyHandler, .syscall noInput hart0]) = some s ∧
      s.marks.map Mark.isSaved = [true, false] ∧ Bracketed s.marks := by
  have hrun : (System.exec (State.properStep 0 .rr) justCreated
      (firstAlarm ++ [.user dummyHandler, .syscall noInput hart0])).map (fun s => s.marks.map Mark.isSaved) =
        some [true, false] := by decide +kernel
  obtain ⟨s, hs, hmap⟩ := Option.map_eq_some_iff.mp hrun
  exact ⟨s, hs, hmap, alarm_brackets 0 .rr justCreated s _ ⟨rfl, rfl, rfl⟩ hs⟩

/-- A handler that sets the alarm again is interrupted by a second delivery; and `sigreturn`
outside of a handler restores what never was saved. -/
theorem alarm_not_bracketed : Fresh justCreated ∧
    (∃ s, System.exec (State.step 0 .rr) justCreated (firstAlarm ++ firstAlarm) = some s ∧ ¬Bracketed s.marks) ∧
    ∃ s, System.exec (State.step 0 .rr) justCreated [.user dummyHandler, .syscall noInput hart0] = some s ∧
      ¬Bracketed s.marks := by
  have hnested : (System.exec (State.step 0 .rr) justCreated (firstAlarm ++ firstAlarm)).map
      (fun s => s.marks.map Mark.isSaved) = some [true, true] := by decide +kernel
  have hstray : (System.exec (State.step 0 .rr) justCreated [.user dummyHandler, .syscall noInput hart0]).map
      (fun s => s.marks.map Mark.isSaved) = some [false] := by decide +kernel
  obtain ⟨s, hs, hmap⟩ := Option.map_eq_some_iff.mp hnested
  obtain ⟨t, ht, hmap'⟩ := Option.map_eq_some_iff.mp hstray
  exact ⟨⟨rfl, rfl, rfl⟩, ⟨s, hs, fun hb => (bracketed_map hb).1 hmap⟩, t, ht, fun hb => (bracketed_map hb).2 hmap'⟩

end Xv6.Trap
