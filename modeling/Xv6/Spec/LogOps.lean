import Xv6.Lib.System
import Xv6.Spec.Log

/-! The log as its callers see it: `begin_op`, `log_write`, `end_op` and `commit` of
any number of processes, each critical section under `log.lock` one event. A
process that slept on `&log` and was woken tests again from the top of the loop. -/

namespace Xv6

open System

/-- Where a process stands between `begin_op` and the end of `end_op`. -/
inductive OpPc where
  | out
  /-- in `begin_op`, about to take `log.lock` and test -/
  | trying
  /-- in `begin_op`, inside `sleep(&log, &log.lock)` -/
  | asleep
  | inside
  /-- in `end_op` with `do_commit` set, inside `commit()` -/
  | committing
  /-- `commit()` has erased the transaction; `log.committing` is still set -/
  | erased
  deriving DecidableEq

inductive LogPanic where
  | logCommitting
  | tooBig
  | outsideTrans
  deriving DecidableEq

/-- `struct log` with every process's position. The last four fields only record:
the number of the operation a process is in, and for each `log_write` its
operation, block and transaction. -/
structure LogState (P : Type) where
  start : ℕ
  size : ℕ
  outstanding : ℤ
  committing : Bool
  lh : List ℕ
  pc : P → OpPc
  panic : Option LogPanic
  opNo : P → ℕ
  nextOp : ℕ
  logged : List (ℕ × ℕ × ℕ)
  txs : List (List ℕ)

inductive LogEvent (P : Type) where
  | beginOp (p : P)
  | test (p : P)
  | logWrite (p : P) (b : ℕ)
  | endOp (p : P)
  | commit (p : P)
  | finish (p : P)
  | kill (p : P)
  deriving DecidableEq

namespace LogState

variable {P : Type} [DecidableEq P]

/-- The state `initlog` leaves: nothing logged, nobody inside. -/
def init (start size : ℕ) : LogState P where
  start := start
  size := size
  outstanding := 0
  committing := false
  lh := []
  pc := fun _ => .out
  panic := none
  opNo := fun _ => 0
  nextOp := 0
  logged := []
  txs := []

def goto (s : LogState P) (p : P) (c : OpPc) : LogState P := { s with pc := Function.update s.pc p c }

/-- `wakeup(&log)`. -/
def wakeup (s : LogState P) : LogState P :=
  { s with pc := fun q => if s.pc q = .asleep then .trying else s.pc q }

/-- One round of the loop in `begin_op`. -/
def test (s : LogState P) (p : P) : LogState P :=
  if s.committing then s.goto p .asleep
  else if (s.lh.length : ℤ) + (s.outstanding + 1) * MAXOPBLOCKS > LOGSIZE then s.goto p .asleep
  else { s.goto p .inside with
    outstanding := s.outstanding + 1, opNo := Function.update s.opNo p s.nextOp, nextOp := s.nextOp + 1 }

def logWrite (s : LogState P) (p : P) (b : ℕ) : LogState P :=
  if tooBig s.size s.lh then { s with panic := some .tooBig }
  else if s.outstanding < 1 then { s with panic := some .outsideTrans }
  else { s with lh := absorb s.lh b, logged := s.logged ++ [(s.opNo p, b, s.txs.length)] }

/-- The first critical section of `end_op`. -/
def endOp (s : LogState P) (p : P) : LogState P :=
  let s₁ := { s with outstanding := s.outstanding - 1 }
  if s₁.committing then { s₁ with panic := some .logCommitting }
  else if s₁.outstanding = 0 then { s₁.goto p .committing with committing := true }
  else (s₁.goto p .out).wakeup

/-- `commit()`, up to the erased header. -/
def commit (s : LogState P) (p : P) : LogState P :=
  if 0 < s.lh.length then { s.goto p .erased with lh := [], txs := s.txs ++ [s.lh] }
  else s.goto p .erased

/-- The second critical section of `end_op`. -/
def finish (s : LogState P) (p : P) : LogState P :=
  ({ s.goto p .out with committing := false }).wakeup

def step (s : LogState P) (e : LogEvent P) : Option (LogState P) :=
  if s.panic = none then
    match e with
    | .beginOp p => if s.pc p = .out then some (s.goto p .trying) else none
    | .test p => if s.pc p = .trying then some (s.test p) else none
    | .logWrite p b => if s.pc p = .inside then some (s.logWrite p b) else none
    | .endOp p => if s.pc p = .inside then some (s.endOp p) else none
    | .commit p => if s.pc p = .committing then some (s.commit p) else none
    | .finish p => if s.pc p = .erased then some (s.finish p) else none
    | .kill p => if s.pc p = .asleep then some (s.goto p .trying) else none
  else none

def run (start size : ℕ) (evs : List (LogEvent P)) : Option (LogState P) :=
  exec step (init start size) evs

end LogState

/-- In `commit()`, or behind it with `log.committing` still set. -/
def OpPc.inCommit : OpPc → Prop
  | .committing | .erased => True
  | _ => False

def trackLogged {P : Type} (l : List ℕ) : LogEvent P → List ℕ
  | .logWrite _ b => l ++ [b]
  | .commit _ => []
  | _ => l

/-- The blocks handed to `log_write` since the last `commit()`, as the events say. -/
def loggedSince {P : Type} (evs : List (LogEvent P)) : List ℕ := evs.foldl trackLogged []

/-- The log blocks `write_log` would write now all lie in the area. -/
def LogState.InRange {P : Type} (s : LogState P) : Prop :=
  ∀ tail < s.lh.length, s.start ≤ s.start + tail + 1 ∧ s.start + tail + 1 < s.start + s.size

end Xv6
