import Xv6.Spec.Mlfq

/-! The selection loop of the FCFS scheduler on one CPU, one slot at a time, while the other CPUs go on in between. They
can change neither the locks this CPU holds nor what it reads of the processes behind them; everything else they may. -/

namespace Xv6

inductive LockCall where
  | acquire (p : Slot)
  | release (p : Slot)
  deriving DecidableEq

def LockCall.slot : LockCall → Slot
  | .acquire p | .release p => p

/-- A CPU in the loop, with the calls of `acquire` and `release` it made. -/
structure Fcfs where
  sched : Sched
  /-- the slot that `newProcess` points to; `NPROC` behind the loop -/
  newProcess : ℕ
  startProcess : Option Slot
  calls : List LockCall
  /-- the processes, each as it was when its lock was taken -/
  seen : Slot → Proc
  panicked : Bool

/-- What the loop reads of `q` is as before. -/
def Sched.Same (s t : Sched) (q : Slot) : Prop :=
  (t.proc q).state = (s.proc q).state ∧ (t.proc q).creationTime = (s.proc q).creationTime

instance (s t : Sched) (q : Slot) : Decidable (s.Same t q) := by
  unfold Sched.Same
  infer_instance

namespace Fcfs

/-- Before the loop. -/
def start (s : Sched) : Fcfs := ⟨s, 0, none, [], s.proc, false⟩

/-- The rest of the body for slot `p`, after `fcfsSlot`. -/
def close (v : Fcfs) (c : Cpu) (p : Slot) (best : Option Slot) (t : Sched) : Option Slot → Fcfs
  | none =>
    { v with
      sched := t, newProcess := v.newProcess + 1, startProcess := best, calls := v.calls ++ [.acquire p]
      seen := Function.update v.seen p (v.sched.proc p) }
  | some q =>
    match release c q t with
    | .ok _ u =>
      { v with
        sched := u, newProcess := v.newProcess + 1, startProcess := best
        calls := v.calls ++ [.acquire p, .release q], seen := Function.update v.seen p (v.sched.proc p) }
    | .fault _ u => { v with sched := u, panicked := true }

/-- One round of the loop, or something the other CPUs do. The CPU spins as long as another one holds the lock. -/
def step (c : Cpu) (v : Fcfs) : Change → Option Fcfs
  | .go =>
    if h : v.newProcess < NPROC ∧ v.panicked = false then
      match fcfsSlot c v.startProcess ⟨v.newProcess, h.1⟩ v.sched with
      | .ok (best, drop) t => some (v.close c ⟨v.newProcess, h.1⟩ best t drop)
      | .fault .spin _ => none
      | .fault _ t => some { v with sched := t, panicked := true }
    else none
  | .world t =>
    if (∀ q, t.lock q = some c ↔ v.sched.lock q = some c) ∧ (∀ q, v.sched.lock q = some c → v.sched.Same t q) then
      some { v with sched := t }
    else none

def run (c : Cpu) (s : Sched) (xs : List Change) : Option Fcfs := System.exec (step c) (start s) xs

/-- The calls for the lock of `q`. -/
def callsOf (v : Fcfs) (q : Slot) : List LockCall := v.calls.filter fun call => call.slot = q

end Fcfs

/-- The RUNNABLE process of least `creationTime`, the lowest slot among equals, or none if there is no such process. -/
def Oldest (view : Slot → Proc) : Option Slot → Prop
  | none => ∀ q, (view q).state ≠ .runnable
  | some p => (view p).state = .runnable ∧ ∀ q, (view q).state = .runnable →
      (view p).creationTime < (view q).creationTime ∨ (view p).creationTime = (view q).creationTime ∧ p ≤ q

/-- From `s` to `t` the books are kept for `p`, and nothing else changes. -/
def Booked (c : Cpu) (p : Slot) (s t : Sched) : Prop :=
  (t.proc p).numOfScheduled = int32 ((s.proc p).numOfScheduled + 1) ∧ (t.proc p).state = .running ∧
    t.cpuProc c = some p ∧ (∀ q, q ≠ p → t.proc q = s.proc q) ∧ t.beyond = s.beyond

end Xv6
