import Xv6.Lib.System
import Xv6.Spec.Param

/-! A pipe: `pipewrite`, `piperead` and `pipeclose` of `kernel/pipe.c` by any number of
processes, with `sleep`, `wakeup` and `kill` as far as they concern it. The loops run
one round at a time, since `kill` does not need `pi->lock`. -/

namespace Xv6.Pipe

open Function

abbrev PIPESIZE : ℕ := 512

/-- Where a process is. A call of `pipewrite(pi, addr, n)` has a number, and `src` are the bytes
that `copyin` can read from `addr` on; `start` is what `i` was when the process last took
`pi->lock`. In `piperead(pi, addr, n)`, `copyout` works for `room` bytes from `addr` on. -/
inductive Pc where
  | idle
  /-- at the top of the loop, with `pi->lock` -/
  | write (call : ℕ) (n : ℤ) (src : List UInt8) (start i : ℕ)
  /-- SLEEPING on `&pi->nwrite` -/
  | writeAsleep (call : ℕ) (n : ℤ) (src : List UInt8) (i : ℕ)
  /-- woken, in front of `acquire(lk)` in `sleep` -/
  | writeWoken (call : ℕ) (n : ℤ) (src : List UInt8) (i : ℕ)
  /-- at the top of the `while` loop, with `pi->lock` -/
  | read (n : ℤ) (room : ℕ)
  /-- SLEEPING on `&pi->nread` -/
  | readAsleep (n : ℤ) (room : ℕ)
  | readWoken (n : ℤ) (room : ℕ)
  /-- at the top of the `for` loop, with `pi->lock` -/
  | readCopy (n : ℤ) (room i : ℕ)
  deriving DecidableEq

/-- `struct pipe` and its users. The last six fields only record: who called `pipewrite` and the sources
of these calls, the bytes put in with the number of their call, the bytes that readers received,
what the last call of a process returned, and what each call of `pipewrite` returned. -/
structure State (P : Type) where
  data : ℕ → UInt8
  nread : ℕ
  nwrite : ℕ
  readopen : Bool
  writeopen : Bool
  lock : Option P
  pc : P → Pc
  killed : P → Bool
  callers : List P
  calls : List (List UInt8)
  put : List (Option ℕ × UInt8)
  got : List UInt8
  ret : P → Option ℤ
  wrote : List (ℕ × ℤ)

inductive Event (P : Type) where
  | pipewrite (p : P) (n : ℤ) (src : List UInt8)
  | piperead (p : P) (n : ℤ) (room : ℕ)
  | pipeclose (p : P) (writable : Bool)
  | kill (p : P)
  /-- the next round of the loop that `p` is in, or the end of its `sleep` -/
  | run (p : P)

/-- `x` as a `uint`. -/
def uint (x : ℕ) : ℕ := x % 2 ^ 32

namespace State

variable {P : Type} [DecidableEq P]

def goto (s : State P) (p : P) (c : Pc) : State P := { s with pc := update s.pc p c }

/-- `wakeup(&pi->nread)` -/
def wakeReaders (s : State P) : State P :=
  { s with pc := fun q => match s.pc q with
      | .readAsleep n room => .readWoken n room
      | c => c }

/-- `wakeup(&pi->nwrite)` -/
def wakeWriters (s : State P) : State P :=
  { s with pc := fun q => match s.pc q with
      | .writeAsleep call n src i => .writeWoken call n src i
      | c => c }

/-- `release(&pi->lock)` and return. -/
def leave (s : State P) (p : P) (r : ℤ) : State P :=
  { s.goto p .idle with lock := none, ret := update s.ret p (some r) }

def leaveWrite (s : State P) (p : P) (call : ℕ) (r : ℤ) : State P :=
  { s.leave p r with wrote := s.wrote ++ [(call, r)] }

/-- One round of the loop in `pipewrite`. -/
def write (s : State P) (p : P) (call : ℕ) (n : ℤ) (src : List UInt8) (start i : ℕ) : State P :=
  if i < n then
    if s.readopen = false ∨ s.killed p = true then s.leaveWrite p call (-1)
    else if s.nwrite = uint (s.nread + PIPESIZE) then
      { s.wakeReaders.goto p (.writeAsleep call n src i) with lock := none }
    else match src[i]? with
      | none => s.wakeReaders.leaveWrite p call i
      | some ch =>
        { s.goto p (.write call n src start (i + 1)) with
          data := update s.data (s.nwrite % PIPESIZE) ch
          nwrite := uint (s.nwrite + 1)
          put := s.put ++ [(some call, ch)] }
  else s.wakeReaders.leaveWrite p call i

/-- One round of the `while` loop in `piperead`. -/
def read (s : State P) (p : P) (n : ℤ) (room : ℕ) : State P :=
  if s.nread = s.nwrite ∧ s.writeopen = true then
    if s.killed p = true then s.leave p (-1)
    else { s.goto p (.readAsleep n room) with lock := none }
  else s.goto p (.readCopy n room 0)

/-- One round of the `for` loop in `piperead`. -/
def readCopy (s : State P) (p : P) (n : ℤ) (room i : ℕ) : State P :=
  if i < n then
    if s.nread = s.nwrite then s.wakeWriters.leave p i
    else
      let ch := s.data (s.nread % PIPESIZE)
      let s₁ := { s with nread := uint (s.nread + 1) }
      if i < room then { s₁.goto p (.readCopy n room (i + 1)) with got := s.got ++ [ch] }
      else s₁.wakeWriters.leave p i
  else s.wakeWriters.leave p i

def pipeclose (s : State P) (writable : Bool) : State P :=
  if writable then { s with writeopen := false }.wakeReaders
  else { s with readopen := false }.wakeWriters

def kill (s : State P) (p : P) : State P :=
  { s with
    killed := update s.killed p true
    pc := update s.pc p (match s.pc p with
      | .readAsleep n room => .readWoken n room
      | .writeAsleep call n src i => .writeWoken call n src i
      | c => c) }

/-- A process that is in no call takes `pi->lock`; when both ends are closed, the page is gone. -/
def enter (s : State P) (p : P) (t : State P) : Option (State P) :=
  if s.pc p = .idle ∧ s.lock = none ∧ (s.readopen = true ∨ s.writeopen = true) then some t else none

/-- The end of `sleep`: `acquire(lk)`. -/
def reenter (s : State P) (p : P) (c : Pc) : Option (State P) :=
  if s.lock = none then some { s.goto p c with lock := some p } else none

def step (s : State P) : Event P → Option (State P)
  | .pipewrite p n src =>
    s.enter p
      { s.goto p (.write s.calls.length n src 0 0) with
        lock := some p, callers := s.callers ++ [p], calls := s.calls ++ [src] }
  | .piperead p n room => s.enter p { s.goto p (.read n room) with lock := some p }
  | .pipeclose p writable => s.enter p (s.pipeclose writable)
  | .kill p => some (s.kill p)
  | .run p => match s.pc p with
    | .write call n src start i => some (s.write p call n src start i)
    | .writeWoken call n src i => s.reenter p (.write call n src i i)
    | .read n room => some (s.read p n room)
    | .readWoken n room => s.reenter p (.read n room)
    | .readCopy n room i => some (s.readCopy p n room i)
    | _ => none

/-- The `count` bytes in the buffer from `nread` on. -/
def content (data : ℕ → UInt8) (nread count : ℕ) : List UInt8 :=
  (List.range count).map fun k => data ((nread + k) % PIPESIZE)

/-- An open pipe whose counters have come to `nread` and `nread + count`. -/
def init (data : ℕ → UInt8) (nread count : ℕ) : State P where
  data := data
  nread := uint nread
  nwrite := uint (nread + count)
  readopen := true
  writeopen := true
  lock := none
  pc := fun _ => .idle
  killed := fun _ => false
  callers := []
  calls := []
  put := (content data nread count).map fun ch => (none, ch)
  got := []
  ret := fun _ => none
  wrote := []

def run (data : ℕ → UInt8) (nread count : ℕ) (es : List (Event P)) : Option (State P) :=
  System.exec step (init data nread count) es

end State

end Xv6.Pipe
