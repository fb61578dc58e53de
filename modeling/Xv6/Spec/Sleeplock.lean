import Xv6.Spec.Life

/-! A sleep lock of `kernel/sleeplock.c` beside the life of the processes, which may take and release it as they like. -/

namespace Xv6.Life

/-- A `struct sleeplock`; `holder` only records the number of the process that took it. -/
structure Sleeplock where
  locked : Bool
  pid : ℤ
  holder : Option ℕ

structure Guarded where
  life : State
  lk : Sleeplock

inductive Guarded.Event where
  | life (e : Slot × Act)
  /-- the round of the loop in `acquiresleep` that finds the lock free -/
  | acquiresleep (p : Slot)
  | releasesleep (p : Slot)

namespace Guarded

def step (s : Guarded) : Event → Option Guarded
  | .life e => (s.life.step e).map fun t => { s with life := t }
  | .acquiresleep p =>
    if (s.life.proc p).state = .running ∧ s.lk.locked = false then
      some { s with lk := ⟨true, (s.life.proc p).pid, some (s.life.proc p).id⟩ }
    else none
  | .releasesleep p => if (s.life.proc p).state = .running then some { s with lk := ⟨false, 0, none⟩ } else none

def run (es : List Event) : Option Guarded := System.exec step ⟨.init, false, 0, none⟩ es

/-- `holdingsleep`, called by `p`. -/
def holdingsleep (s : Guarded) (p : Slot) : Bool := s.lk.locked && s.lk.pid = (s.life.proc p).pid

end Guarded

end Xv6.Life
