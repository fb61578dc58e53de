import Xv6.Lib.System
import Xv6.Spec.Param

/-! One call of `sys_sleep` of `kernel/sysproc.c`, among `clockintr`, `kill` and other wakeups on `&ticks`. `tickslock` is held
from `ticks0 = ticks` to the first test of the loop, and in each test up to the `sleep` behind it. -/

namespace Xv6.Ticks

inductive Pc where
  /-- behind `ticks0 = ticks` -/
  | start
  | asleep
  | woken
  | returned (r : ℤ)
  deriving DecidableEq

/-- A test of the loop: the ticks since the call, whether the process is killed, and what is returned then. -/
structure Look where
  elapsed : ℕ
  killed : Bool
  ret : Option ℤ

structure State where
  ticks : ℤ
  ticks0 : ℤ
  n : ℤ
  killed : Bool
  pc : Pc
  /-- history -/
  elapsed : ℕ
  looks : List Look

inductive Event where
  | clockintr
  | kill
  | wakeup
  /-- the process runs, and gets `tickslock` -/
  | run

namespace State

def wakeup (s : State) : State := { s with pc := if s.pc = .asleep then .woken else s.pc }

/-- `while(ticks - ticks0 < n)`, and `killed` in the body: what is returned. -/
def test (s : State) : Option ℤ :=
  if uint32 (s.ticks - s.ticks0) < uint32 s.n then if s.killed then some (-1) else none else some 0

def look (s : State) : State :=
  { s with
    pc := match s.test with
      | some r => .returned r
      | none => .asleep
    looks := s.looks ++ [⟨s.elapsed, s.killed, s.test⟩] }

def step (s : State) : Event → Option State
  | .clockintr =>
    if s.pc = .start then none
    else some { s with ticks := uint32 (s.ticks + 1), elapsed := s.elapsed + 1 }.wakeup
  | .kill => some { s with killed := true }.wakeup
  | .wakeup => some s.wakeup
  | .run => if s.pc = .start ∨ s.pc = .woken then some s.look else none

end State

/-- The call of `sys_sleep(n)`. -/
def sysSleep (ticks n : ℤ) (killed : Bool) : State := ⟨ticks, ticks, n, killed, .start, 0, []⟩

/-- The call returns 0 once `max n 0` ticks have passed, and before that -1 if the process is killed. -/
def Look.Right (n : ℤ) (l : Look) : Prop :=
  l.ret = if max n 0 ≤ l.elapsed then some 0 else if l.killed then some (-1) else none

end Xv6.Ticks
