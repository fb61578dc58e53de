import Xv6.Spec.Sched

/-! The MLFQ scheduler cut at its calls of `swtch`: a CPU stands before an iteration of a dispatch loop or is away in the
process it switched to, and goes on one iteration at a time. `Visit` is one CPU's pass while the processes and the other
CPUs do as they like, `Mlfq` the whole machine from boot on. -/

namespace Xv6

open Prog Function

/-- Where a CPU is in `scheduler`. -/
inductive Pos where
  /-- at the head of `for(;;)`, before ageing -/
  | head
  /-- before the iteration for slot `i` of queue `k` -/
  | slot (k : Fin 5) (i : ℤ)
  /-- in `p`, which it took from slot `i` of queue `k` -/
  | away (k : Fin 5) (i : ℤ) (p : Slot)
  /-- in `panic`, after a null pointer too -/
  | crashed
  deriving DecidableEq

/-- From the return of `swtch` to the release. -/
def comeBack (k : Fin 5) (i : ℤ) (p : Slot) : SchedM Unit := if k = 4 then takeBack4 i p else takeBack k i p

/-- How a CPU goes on from its position, up to `swtch` or to the `release` that ends an iteration: its next position, and
for a release the process whose lock the iteration took and the one that stands in the slot now. -/
def Pos.go (c : Cpu) : Pos → SchedM (Pos × Option (Slot × Slot))
  | .head => do
    ageing 1
    ageing 2
    ageing 3
    ageing 4
    pure (.slot 0 0, none)
  | .slot k i => do
    if i ≤ (← gets fun s => s.ptr k) then
      let p ← derefQ k i
      acquire c p
      let pr ← gets fun s => s.proc p
      if pr.state = .runnable then
        choose c p
        pure (.away k i p, none)
      else
        let q ← derefQ k i
        pure (.slot k (i + 1), some (p, q))
    else pure (if k = 4 then .head else .slot (k + 1) 0, none)
  | .away k i p => do
    setCpuProc c none
    comeBack k i p
    let q ← derefQ k i
    pure (.slot k (i + 1), some (p, q))
  | .crashed => pure (.crashed, none)

/-- The release at the end of an iteration. -/
def endSlot (c : Cpu) : Option (Slot × Slot) → SchedM Unit
  | some (_, q) => release c q
  | none => pure ()

/-! ### One pass among others -/

/-- The dispatch loops on one CPU, with every call of `release`: the process whose lock the iteration had acquired, and
the process whose lock is released. -/
structure Visit where
  sched : Sched
  pos : Pos
  calls : List (Slot × Slot)

inductive Change where
  | go
  /-- the dispatched process and the other CPUs; what they leave is of no concern but for this CPU's locks -/
  | world (t : Sched)

namespace Visit

/-- `release(&queuek[i]->lock)`, with `q` in the slot. -/
def close (v : Visit) (c : Cpu) (t : Sched) (pos : Pos) (p q : Slot) : Visit :=
  match release c q t with
  | .ok _ u => ⟨u, pos, v.calls ++ [(p, q)]⟩
  | .fault _ u => ⟨u, .crashed, v.calls ++ [(p, q)]⟩

/-- The pass is over at the head of the loop. A CPU spins as long as another one holds the lock. -/
def step (c : Cpu) (v : Visit) : Change → Option Visit
  | .go =>
    if v.pos = .head ∨ v.pos = .crashed then none
    else
      match v.pos.go c v.sched with
      | .ok (pos, none) t => some { v with sched := t, pos := pos }
      | .ok (pos, some (p, q)) t => some (v.close c t pos p q)
      | .fault .spin _ => none
      | .fault _ t => some { v with sched := t, pos := .crashed }
  | .world t => if ∀ q, t.lock q = some c ↔ v.sched.lock q = some c then some { v with sched := t } else none

/-- Before the dispatch loops. -/
def start (s : Sched) : Visit := ⟨s, .slot 0 0, []⟩

/-- Nothing went wrong with the locks so far: every release was of the lock that the iteration had taken, and the CPU
holds the lock of the process it switched to, or none. -/
def Disciplined (c : Cpu) (v : Visit) : Prop :=
  (∀ call ∈ v.calls, call.1 = call.2) ∧
    match v.pos with
    | .away _ _ p => ∀ q, v.sched.lock q = some c ↔ q = p
    | .crashed => False
    | _ => ∀ q, v.sched.lock q ≠ some c

end Visit

/-- The process in slot `i` of queue `k`, if there is such a slot and it is not null. -/
def Sched.entry (s : Sched) (k : Fin 5) (i : ℤ) : Option Slot :=
  if h : 0 ≤ i ∧ i < NPROC then s.queue k ⟨i.toNat, toNat_lt h⟩ else none

/-- `p` comes back and will be in slot `i` when its lock is released: in a queue below 4 the next slot holds it as well
(so that the shift brings it there), in queue 4 it is in the last slot. -/
def Sched.Returns (s : Sched) (k : Fin 5) (i : ℤ) (p : Slot) : Prop :=
  if k = 4 then
    if i < s.ptr 4 then s.ptr 4 < NPROC ∧ s.entry 4 (i + 1) = some p
    else if i = s.ptr 4 then (s.proc p).killed = false ∨ s.entry 4 i = some p
    else s.entry 4 i = some p ∧ ((s.proc p).killed = false → 0 ≤ s.ptr 4)
  else
    ((s.proc p).numOfTicks (k : ℕ) ≥ ticksAllowed k → (k = 3 ∨ (s.proc p).killed = false) →
      0 ≤ s.ptr (k + 1) + 1 ∧ s.ptr (k + 1) + 1 < NPROC) ∧
    if i ≤ s.ptr k then s.ptr k + 1 < NPROC ∧ s.entry k (i + 1) = some p else s.entry k i = some p

instance (s : Sched) (k : Fin 5) (i : ℤ) (p : Slot) : Decidable (s.Returns k i p) := by
  unfold Sched.Returns
  infer_instance

/-- The slots up to the queue's pointer exist and are not null, and a process that comes back `Returns`. -/
def Sched.SafeAt (s : Sched) : Pos → Prop
  | .slot k i => i ≤ s.ptr k → s.entry k i ≠ none
  | .away k i p => s.Returns k i p
  | _ => True

instance (s : Sched) : (pos : Pos) → Decidable (s.SafeAt pos)
  | .slot k i => inferInstanceAs (Decidable (i ≤ s.ptr k → s.entry k i ≠ none))
  | .away k i p => inferInstanceAs (Decidable (s.Returns k i p))
  | .head | .crashed => .isTrue trivial

def Visit.Safe (v : Visit) : Change → Prop
  | .world _ => True
  | .go => v.sched.SafeAt v.pos

instance (v : Visit) : (x : Change) → Decidable (v.Safe x)
  | .world _ => .isTrue trivial
  | .go => inferInstanceAs (Decidable (v.sched.SafeAt v.pos))

/-! ### The machine -/

structure Mlfq where
  sched : Sched
  pos : Cpu → Pos
  /-- an access was outside a queue array -/
  corrupt : Bool
  /-- the clock ticks at which the process was RUNNING since it entered its level or last left the CPU by itself -/
  used : Slot → ℕ

inductive Act where
  /-- the CPU goes on in `scheduler` -/
  | go
  /-- a system call of the process it runs, or an interrupt -/
  | event (e : ProcEvent)
  /-- the process gives the CPU back -/
  | back (b : Back)

/-- The events that can happen on an idle CPU. -/
def ProcEvent.interrupt : ProcEvent → Bool
  | .tick | .wakeup _ => true
  | _ => false

/-- One stretch of `scheduler`. The process switched to drops its lock. -/
def Pos.advance (c : Cpu) (pos : Pos) : SchedM Pos := do
  let r ← pos.go c
  endSlot c r.2
  match r.1 with
  | .away _ _ p => modify fun s => { s with lock := update s.lock p none }
  | _ => pure ()
  pure r.1

namespace Mlfq

def boot : Mlfq := ⟨userinit, fun _ => .head, false, fun _ => 0⟩

/-- Ticks count for the level they were used in. -/
def recount (t : Mlfq) (s : Sched) (q : Slot) : ℕ :=
  if (t.sched.proc q).state = .unused ∨ (s.proc q).currQueue ≠ (t.sched.proc q).currQueue then 0 else t.used q

/-- What is left after a program that ran on CPU `c`. -/
def settle (t : Mlfq) (c : Cpu) : Outcome Sched SchedFault Pos → Option Mlfq
  | .ok pos s => some { t with sched := s, pos := update t.pos c pos, used := t.recount s }
  | .fault .spin _ => none
  | .fault (.queueBound _ _) s => some { t with sched := s, corrupt := true }
  | .fault _ s => some { t with sched := s, pos := update t.pos c .crashed, used := t.recount s }

/-- `yield`, `sleep` or `exit` up to the switch back to the scheduler. -/
def giveUp (c : Cpu) (p : Slot) (b : Back) : SchedM Unit := do
  acquire c p
  updProc p fun pr => { pr with state := b.state }
  record (.back b)

/-- Leaving the CPU by itself ends the count. -/
def leave (t : Mlfq) (p : Slot) : Back → Mlfq
  | .yield => t
  | _ => { t with used := update t.used p 0 }

def tally (t : Mlfq) : ProcEvent → Mlfq
  | .tick => { t with used := fun q => if (t.sched.proc q).state = .running then t.used q + 1 else t.used q }
  | _ => t

def step (t : Mlfq) (x : Cpu × Act) : Option Mlfq :=
  if t.corrupt then none
  else
    match t.pos x.1, x.2 with
    | .crashed, _ => none
    | .away k i p, .back b =>
      (t.leave p b).settle x.1 ((do giveUp x.1 p b; (Pos.away k i p).advance x.1 : SchedM Pos) t.sched)
    | .away k i p, .event e =>
      (t.tally e).settle x.1 ((do e.run p; pure (Pos.away k i p) : SchedM Pos) t.sched)
    | .away _ _ _, .go => none
    | pos, .go => t.settle x.1 (pos.advance x.1 t.sched)
    | pos, .event e =>
      if e.interrupt then (t.tally e).settle x.1 ((do e.run 0; pure pos : SchedM Pos) t.sched) else none
    | _, .back _ => none

def run (xs : List (Cpu × Act)) : Option Mlfq := System.exec step boot xs

/-- No RUNNABLE process stands in a queue above queue `k`. -/
def HighestFirst (t : Mlfq) (k : Fin 5) : Prop :=
  ∀ j, j < k → ∀ x q, t.sched.At j x q → (t.sched.proc q).state ≠ .runnable

/-- `num_of_ticks` is the number of ticks used in the level. -/
def Counts (t : Mlfq) : Prop :=
  ∀ p, (t.sched.proc p).state ≠ .unused → ∀ k : Fin 5, k ≠ 4 → (t.sched.proc p).currQueue = (k : ℕ) →
    (t.sched.proc p).numOfTicks (k : ℕ) = t.used p

/-- Where `p`, which came back to the scheduler by `yield`, is afterwards: at the tail of the next queue if it used up its
slice of level `k`, else still in that level. -/
def Placed (t t' : Mlfq) (k : Fin 5) (p : Slot) : Prop :=
  if ticksAllowed k ≤ t.used p then
    (t'.sched.proc p).currQueue = (k : ℕ) + 1 ∧ t'.sched.entry (k + 1) (t'.sched.ptr (k + 1)) = some p
  else (t'.sched.proc p).currQueue = (k : ℕ) ∧ ∃ j, t'.sched.At k j p

/-- The slices are right in this step. -/
def Sliced (t : Mlfq) (x : Cpu × Act) : Prop :=
  ∀ t', t.step x = some t' → t'.Counts ∧
    ∀ k i p, x.2 = .back .yield → t.pos x.1 = .away k i p → k ≠ 4 → t.Placed t' k p

/-- No tick meets a RUNNING process, and a process that yields is in its queue a second time, besides the slot that the
shift removes. -/
def Spared (t : Mlfq) (x : Cpu × Act) : Prop :=
  (x.2 = .event .tick → ∀ p, (t.sched.proc p).state ≠ .running) ∧
    ∀ k i p, x.2 = .back .yield → t.pos x.1 = .away k i p → k ≠ 4 →
      ∃ j : Slot, (j.val : ℤ) ≠ min i (t.sched.ptr k) ∧ t.sched.At k j p

end Mlfq

/-! ### Ageing -/

namespace Sched

/-- Queue `k` holds the processes `l`, in this order. -/
def Queued (s : Sched) (k : Fin 5) (l : List Slot) : Prop :=
  s.ptr k = (l.length : ℤ) - 1 ∧ ∀ i : ℕ, i < l.length → s.entry k i = l[i]?

/-- RUNNABLE, and `ticks - st_time > wait_time` in the unsigned arithmetic of the code. -/
def Aged (s : Sched) (p : Slot) : Prop :=
  (s.proc p).state = .runnable ∧ uint32 (s.ticks - (s.proc p).stTime) > uint32 (s.proc p).waitTime

instance (s : Sched) : DecidablePred s.Aged := fun p => by
  unfold Aged
  infer_instance

/-- The step from `s` to `t` moves the aged processes of queue `k`, which holds `l`, to the tail of queue `k - 1`, which
holds `old`, and does nothing else. -/
structure AgesTo (s t : Sched) (k : Fin 5) (old l : List Slot) : Prop where
  above : t.Queued (k - 1) (old ++ l.filter s.Aged)
  rest : t.Queued k (l.filter fun p => ¬s.Aged p)
  moved : ∀ p ∈ l, s.Aged p → (t.proc p).currQueue = (k : ℕ) - 1 ∧ (t.proc p).stTime = int32 s.ticks
  procs : ∀ p, ¬(p ∈ l ∧ s.Aged p) → t.proc p = s.proc p
  queues : ∀ j, j ≠ k → j ≠ k - 1 → t.queue j = s.queue j ∧ t.ptr j = s.ptr j

end Sched

end Xv6
