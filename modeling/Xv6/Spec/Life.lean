import Xv6.Lib.System
import Xv6.Spec.Param

/-! The life of processes in `kernel/proc.c`: `fork`, `exit` with `reparent`, `wait`,
`waitx`, `kill`, `sleep` and `wakeup`, interleaved at lock granularity. A step runs from
one acquisition of `wait_lock` or of a `p->lock` to the next, but the `killed(p)` of `wait` and the
`acquire` of the `sleep` behind it are one step; a lock that stays held between two steps is recorded
with its holder. -/

namespace Xv6.Life

open Function

/-- A sleep channel: the `struct proc` that `wait` sleeps on, or anything else. -/
inductive Chan where
  | proc (q : Slot)
  | other
  deriving DecidableEq

structure Proc where
  state : ProcState
  chan : Option Chan
  killed : Bool
  xstate : ℤ
  pid : ℤ
  parent : Option Slot
  /-- which process this is: the number of `allocpid` calls before its own -/
  id : ℕ

inductive WaitKind where
  | wait
  | waitx
  deriving DecidableEq

/-- Where the kernel thread of a process is. -/
inductive Pc where
  /-- no thread: the slot is free, being filled, or its process is dead -/
  | dead
  /-- in user mode, or in other kernel code without any of these locks -/
  | user
  | forkScan (i : ℕ)
  | forkLink (np : Slot) (pid : ℤ)
  | forkRun (np : Slot) (pid : ℤ)
  | exitStart (status : ℤ)
  | exitReparent (status : ℤ) (i : ℕ)
  | exitWakeInit (status : ℤ) (i j : ℕ)
  | exitWakeParent (status : ℤ) (chan : Option Slot) (j : ℕ)
  | exitZombie (status : ℤ)
  /-- ZOMBIE, in `sched` with `p->lock` still held -/
  | dying
  | waitStart (k : WaitKind) (addr : Bool)
  | waitScan (k : WaitKind) (addr : Bool) (i : ℕ) (havekids : Bool)
  /-- in `sleep(p, &wait_lock)`, with `p->lock` held and `wait_lock` released -/
  | sleepLocked (k : WaitKind) (addr : Bool)
  | asleep (k : WaitKind) (addr : Bool)
  | killScan (pid : ℤ) (i : ℕ)
  deriving DecidableEq

inductive Event where
  | forked (parent : Slot) (id : ℕ) (pid : ℤ)
  | exited (id : ℕ) (status : ℤ)
  /-- `wait` or `waitx` returned `pid`, having stored `status`, if anything, at `addr` -/
  | reaped (caller : Slot) (id : ℕ) (pid : ℤ) (status : Option ℤ) (parent : Option Slot)
  /-- `wait` or `waitx` returned -1 after a whole scan -/
  | waitFailed (caller : Slot) (hasChild killed : Bool)
  | copyFailed (caller : Slot)

structure State where
  proc : Slot → Proc
  pc : Slot → Pc
  waitLock : Option Slot
  lock : Slot → Option Slot
  nextpid : ℤ
  /-- how many times `allocpid` was called -/
  born : ℕ
  trace : List Event

/-- How the allocations of `allocproc` and `fork` end: `noMemory` for those after which
`freeproc` is called, `noCopy` for the one that leaves the slot USED. -/
inductive Alloc where
  | ok
  | noMemory
  | noCopy
  deriving DecidableEq

/-- What the code below this model decides in a step. -/
structure Choice where
  alloc : Alloc
  copyOk : Bool

inductive Syscall where
  | fork
  | exit (status : ℤ)
  | wait (k : WaitKind) (addr : Bool)
  | kill (pid : ℤ)
  /-- `sleep` on another channel -/
  | sleep
  /-- a fault in user mode -/
  | setkilled

inductive Act where
  | call (c : Syscall)
  | go (r : Choice)
  /-- the scheduler's side of `sched` for a ZOMBIE -/
  | swtch
  | preempt
  | dispatch
  /-- `wakeup` on another channel -/
  | wakeOther

/-- `initproc`, the slot that `userinit` takes. -/
def initproc : Slot := 0

def Proc.free : Proc := ⟨.unused, none, false, 0, 0, none, 0⟩

def freeproc (pr : Proc) : Proc :=
  { pr with pid := 0, parent := none, chan := none, killed := false, xstate := 0, state := .unused }

/-- The body of `wakeup` for one process. -/
def Proc.wakeup (chan : Option Chan) (pr : Proc) : Proc :=
  if pr.state = .sleeping ∧ pr.chan = chan then { pr with state := .runnable } else pr

/-- What `kill` does to its target. -/
def Proc.kill (pr : Proc) : Proc :=
  { pr with killed := true, state := if pr.state = .sleeping then .runnable else pr.state }

/-- Points at which no spinlock is held, so that a timer interrupt may yield. -/
def Pc.preemptible : Pc → Bool
  | .user | .forkScan _ | .forkLink _ _ | .forkRun _ _ | .exitStart _ | .waitStart _ _ | .killScan _ _ => true
  | _ => false

namespace State

@[simps] def setProc (s : State) (p : Slot) (f : Proc → Proc) : State :=
  { s with proc := update s.proc p (f (s.proc p)) }

@[simps] def goto (s : State) (p : Slot) (pc : Pc) : State := { s with pc := update s.pc p pc }

@[simps] def setLock (s : State) (p : Slot) (l : Option Slot) : State :=
  { s with lock := update s.lock p l }

@[simps] def setWaitLock (s : State) (l : Option Slot) : State := { s with waitLock := l }

@[simps] def record (s : State) (e : Event) : State := { s with trace := s.trace ++ [e] }

/-- One round of `wakeup`, called by `p`, on slot `j`. -/
def wakeupSlot (s : State) (p : Slot) (chan : Option Chan) (j : Slot) : Option State :=
  if j = p then some s
  else if s.lock j = none then some (s.setProc j (Proc.wakeup chan))
  else none

/-- `p->pid = allocpid(); p->state = USED`. -/
@[simps] def alloc (s : State) (np : Slot) : State :=
  { s.setProc np fun pr => { pr with pid := s.nextpid, state := .used, id := s.born } with
    nextpid := int32 (s.nextpid + 1), born := s.born + 1 }

/-- `allocproc` from `found:` to the `release(&np->lock)` of `fork`, for a call by `p`. -/
def found (s : State) (p np : Slot) : Alloc → State
  | .ok => (s.alloc np).goto p (.forkLink np s.nextpid)
  | .noMemory => ((s.alloc np).setProc np freeproc).goto p .user
  | .noCopy => (s.alloc np).goto p .user

/-- The end of `wait`: a ZOMBIE child `pp` of `p` was found. -/
def reap (s : State) (p : Slot) (addr : Bool) (pp : Slot) (r : Choice) : State :=
  let ch := s.proc pp
  if addr ∧ r.copyOk = false then
    (((s.record (.copyFailed p)).setWaitLock none).goto p .user)
  else
    (((s.record (.reaped p ch.id ch.pid (if addr then some ch.xstate else none) ch.parent)).setProc pp
      freeproc).setWaitLock none).goto p .user

def hasChild (s : State) (p : Slot) : Bool := decide (∃ c, (s.proc c).parent = some p)

/-- The next step of a running process inside one of the modelled functions. -/
def advance (s : State) (p : Slot) (r : Choice) : Option State :=
  match s.pc p with
  | .forkScan i =>
    if h : i < NPROC then
      if s.lock ⟨i, h⟩ = none then
        if (s.proc ⟨i, h⟩).state = .unused then some (s.found p ⟨i, h⟩ r.alloc)
        else some (s.goto p (.forkScan (i + 1)))
      else none
    else some (s.goto p .user)
  | .forkLink np pid =>
    if s.waitLock = none then
      some ((s.setProc np fun pr => { pr with parent := some p }).goto p (.forkRun np pid))
    else none
  | .forkRun np pid =>
    if s.lock np = none then
      some ((((s.setProc np fun pr => { pr with state := .runnable }).goto np .user).goto p .user).record
        (.forked p (s.proc np).id pid))
    else none
  | .exitStart status =>
    if s.waitLock = none then some ((s.setWaitLock (some p)).goto p (.exitReparent status 0)) else none
  | .exitReparent status i =>
    if h : i < NPROC then
      if (s.proc ⟨i, h⟩).parent = some p then
        some ((s.setProc ⟨i, h⟩ fun pr => { pr with parent := some initproc }).goto p (.exitWakeInit status i 0))
      else some (s.goto p (.exitReparent status (i + 1)))
    else some (s.goto p (.exitWakeParent status (s.proc p).parent 0))
  | .exitWakeInit status i j =>
    if h : j < NPROC then
      (s.wakeupSlot p (some (.proc initproc)) ⟨j, h⟩).map fun t => t.goto p (.exitWakeInit status i (j + 1))
    else some (s.goto p (.exitReparent status (i + 1)))
  | .exitWakeParent status chan j =>
    if h : j < NPROC then
      (s.wakeupSlot p (chan.map .proc) ⟨j, h⟩).map fun t => t.goto p (.exitWakeParent status chan (j + 1))
    else some (s.goto p (.exitZombie status))
  | .exitZombie status =>
    if s.lock p = none then
      some ((((s.setProc p fun pr => { pr with xstate := status, state := .zombie }).setLock p (some p)).setWaitLock
        none).goto p .dying)
    else none
  | .waitStart k addr =>
    if s.waitLock = none then some ((s.setWaitLock (some p)).goto p (.waitScan k addr 0 false)) else none
  | .waitScan k addr i havekids =>
    if h : i < NPROC then
      if (s.proc ⟨i, h⟩).parent = some p then
        if s.lock ⟨i, h⟩ = none then
          if (s.proc ⟨i, h⟩).state = .zombie then some (s.reap p addr ⟨i, h⟩ r)
          else some (s.goto p (.waitScan k addr (i + 1) true))
        else none
      else some (s.goto p (.waitScan k addr (i + 1) havekids))
    -- `killed(p)` and `sleep` take `p->lock`
    else if s.lock p = none then
      if havekids = false ∨ (s.proc p).killed then
        some (((s.record (.waitFailed p (s.hasChild p) (s.proc p).killed)).setWaitLock none).goto p .user)
      else some (((s.setLock p (some p)).setWaitLock none).goto p (.sleepLocked k addr))
    else none
  | .sleepLocked k addr =>
    some (((s.setProc p fun pr => { pr with chan := some (.proc p), state := .sleeping }).setLock p none).goto p
      (.asleep k addr))
  | .killScan pid i =>
    if h : i < NPROC then
      if s.lock ⟨i, h⟩ = none then
        if (s.proc ⟨i, h⟩).pid = pid then some ((s.setProc ⟨i, h⟩ Proc.kill).goto p .user)
        else some (s.goto p (.killScan pid (i + 1)))
      else none
    else some (s.goto p .user)
  | _ => none

/-- A running process in user mode enters the kernel. `exit` of `initproc` panics. -/
def call (s : State) (p : Slot) : Syscall → Option State
  | .fork => some (s.goto p (.forkScan 0))
  | .exit status =>
    if p = initproc then none else some ((s.record (.exited (s.proc p).id status)).goto p (.exitStart status))
  | .wait k addr => some (s.goto p (.waitStart k addr))
  | .kill pid => some (s.goto p (.killScan pid 0))
  | .sleep =>
    if s.lock p = none then some (s.setProc p fun pr => { pr with chan := some .other, state := .sleeping })
    else none
  | .setkilled => if s.lock p = none then some (s.setProc p fun pr => { pr with killed := true }) else none

/-- The process goes on behind `sched`, where `sleep` clears the channel. -/
def resume (s : State) (p : Slot) : State :=
  let t := s.setProc p fun pr => { pr with state := .running, chan := none }
  match s.pc p with
  | .asleep k addr => t.goto p (.waitStart k addr)
  | _ => t

def step (s : State) (e : Slot × Act) : Option State :=
  let p := e.1
  match e.2 with
  | .call c => if (s.proc p).state = .running ∧ s.pc p = .user then s.call p c else none
  | .go r => if (s.proc p).state = .running then s.advance p r else none
  | .swtch => if s.pc p = .dying then some ((s.setLock p none).goto p .dead) else none
  | .preempt =>
    if (s.proc p).state = .running ∧ (s.pc p).preemptible ∧ s.lock p = none then
      some (s.setProc p fun pr => { pr with state := .runnable })
    else none
  | .dispatch =>
    if (s.proc p).state = .runnable ∧ s.lock p = none then some (s.resume p) else none
  | .wakeOther => if s.lock p = none then some (s.setProc p (Proc.wakeup (some .other))) else none

/-- After `userinit`. -/
def init : State where
  proc := update (fun _ => Proc.free) initproc { Proc.free with state := .runnable, pid := 1 }
  pc := update (fun _ => Pc.dead) initproc .user
  waitLock := none
  lock := fun _ => none
  nextpid := 2
  born := 1
  trace := []

def run (es : List (Slot × Act)) : Option State := System.exec step init es

end State

end Xv6.Life
