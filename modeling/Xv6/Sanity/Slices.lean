import Xv6.Sanity.Queues

/-! What happens between two calls of `swtch`, for invariants of every kind: the system calls and interrupts of a slice
change processes, draw a pid, note an event and push on queue 0, and do nothing else. -/

namespace Xv6

open Prog

def Proc.NoTicks (pr : Proc) : Prop := ∀ i, 0 ≤ i → i < 5 → pr.numOfTicks i = 0

theorem tick_noTicks {pr : Proc} (h : pr.NoTicks) : pr.tick.NoTicks := by
  unfold Proc.tick
  split <;> exact h

/-- What the code does to a process outside ageing and demotion. -/
structure Tame (f : Proc → Proc) : Prop where
  noTicks : ∀ pr, pr.NoTicks → (f pr).NoTicks
  level : ∀ pr, pr.currQueue = 0 → (f pr).currQueue = 0

/-- `I` survives each thing that a slice does to the state; `E` is what is left at a fault. -/
structure Lasts (I : Sched → Prop) (E : SchedFault → Sched → Prop) : Prop where
  proc : ∀ s p (f : Proc → Proc), Tame f → I s → I (s.setProc p f)
  tick : ∀ s, I s → I { s with ticks := uint32 (s.ticks + 1), proc := fun p => (s.proc p).tick }
  pid : ∀ s n, I s → I { s with nextpid := n }
  note : ∀ s e, e = .failed ∨ e = .woke → I s → I { s with trace := s.trace ++ [e] }
  push : ∀ p, Holds (fun t => ∃ s, I s ∧ t = { s with trace := s.trace ++ [.took] }) (pushQ 0 (some p)) (fun _ => I) E

namespace Lasts

variable {I : Sched → Prop} {E : SchedFault → Sched → Prop}

section

variable (h : Lasts I E)

include h

theorem updProc (p : Slot) {f : Proc → Proc} (hf : Tame f) : Keeps I (updProc p f) E :=
  keeps_modify fun s hs => h.proc s p f hf hs

theorem freeproc (p : Slot) : Keeps I (freeproc p) E := h.updProc p ⟨fun _ => id, fun _ => id⟩

theorem record {e : SchedEvent} (he : e = .failed ∨ e = .woke) : Keeps I (record e) E :=
  keeps_modify fun s hs => h.note s e he hs

theorem initProc (p : Slot) : Keeps I (initProc p) E := by
  have hpid : Keeps I allocpid E :=
    keeps_bind (keeps_gets _) fun _ => keeps_bind (keeps_modify fun s hs => h.pid s _ hs) fun _ => keeps_pure _
  have htook : Holds I (Xv6.record .took) (fun _ t => ∃ s, I s ∧ t = { s with trace := s.trace ++ [.took] }) E :=
    holds_modify fun s hs => ⟨s, hs, rfl⟩
  refine keeps_bind hpid fun _ => keeps_bind (keeps_gets _) fun _ =>
    keeps_bind (h.updProc p ⟨fun _ => id, fun _ _ => rfl⟩) fun _ =>
    holds_bind htook fun _ => holds_bind (h.push p) fun _ => h.updProc p ⟨?_, fun _ => id⟩
  exact fun pr _ i h0 h5 => if_pos ⟨h0, h5⟩

theorem allocproc (r : ForkResult) : Keeps I (allocproc r) E := by
  refine keeps_bind (keeps_gets _) fun found => ?_
  cases found with
  | none => exact keeps_pure _
  | some p =>
    refine keeps_bind (h.initProc p) fun _ => ?_
    have hfree : Keeps I (do Xv6.freeproc p; pure (none : Option Slot)) E :=
      keeps_bind (h.freeproc p) fun _ => keeps_pure _
    cases r with
    | ok | noUvm => exact keeps_pure _
    | noTrapframe | noPagetable => exact keeps_bind (h.record (.inl rfl)) fun _ => hfree
    | noCopy => exact keeps_bind (h.record (.inl rfl)) fun _ => keeps_pure _

theorem fork (r : ForkResult) : Keeps I (fork r) E := by
  refine keeps_bind (h.allocproc r) fun found => ?_
  cases found with
  | none => exact keeps_pure _
  | some np =>
    exact keeps_ite (fun _ => keeps_bind (h.record (.inl rfl)) fun _ => h.freeproc np)
      fun _ => h.updProc np ⟨fun _ => id, fun _ => id⟩

theorem wake (p : Slot) : Keeps I (wake p) E :=
  keeps_bind (keeps_gets _) fun _ => keeps_ite
    (fun _ => keeps_bind (h.record (.inr rfl)) fun _ => h.updProc p ⟨fun _ => id, fun _ => id⟩) fun _ => keeps_pure _

theorem event (p : Slot) (e : ProcEvent) : Keeps I (e.run p) E := by
  cases e with
  | fork r => exact h.fork r
  | tick => exact keeps_modify fun s hs => h.tick s hs
  | wakeup q => exact h.wake q
  | kill pid =>
    refine keeps_bind (keeps_gets _) fun found => ?_
    cases found with
    | none => exact keeps_pure _
    | some q => exact keeps_bind (h.updProc q ⟨fun _ => id, fun _ => id⟩) fun _ => h.wake q
  | reap q => exact keeps_bind (keeps_gets _) fun _ => keeps_ite (fun _ => h.freeproc q) fun _ => keeps_pure _
  | settickets n => exact h.updProc p ⟨fun _ => id, fun _ => id⟩
  | setPriority n pid =>
    refine keeps_bind (keeps_gets _) fun found => ?_
    cases found with
    | none => exact keeps_pure _
    | some q => exact h.updProc q ⟨fun _ => id, fun _ => id⟩

theorem events (p : Slot) (es : List ProcEvent) : Keeps I (runEvents p es) E := by
  induction es with
  | nil => exact keeps_pure _
  | cons e es ih => exact keeps_bind (h.event p e) fun _ => ih

end

end Lasts

/-- What a property has to survive of the push in `allocproc`. -/
theorem holds_push {I : Sched → Prop} (hptr : ∀ s v, I s → I { s with ptr := Function.update s.ptr 0 v })
    (hqueue : ∀ s q, I s → I (s.setQueue 0 q)) (p : Option Slot) : Keeps I (pushQ 0 p) fun _ => I := by
  refine keeps_bind (keeps_gets _) fun v => keeps_bind (keeps_modify fun s hs => hptr s _ hs) fun _ =>
    keeps_bind (keeps_gets _) fun i => ?_
  unfold writeQ
  split_ifs with hi
  · exact keeps_modify fun s hs => hqueue s _ hs
  · exact keeps_fail fun _ h => h

end Xv6
