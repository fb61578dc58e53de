import Xv6.Lib.Prog
import Xv6.Lib.System
import Xv6.Spec.Param

/-! `allocproc`, the five MLFQ queues and the scheduler loops of `kernel/proc.c`, for
all five builds. A scheduler pass is a program that can fault: on an access outside
a queue array, on a null pointer, in `acquire` or `release`. What a process does
between two calls of `swtch` is a script handed to the pass. -/

namespace Xv6

open Prog Function

/-- The scheduler that `-D$(SCHEDULER)` selects. -/
inductive Build where
  | rr
  | fcfs
  | pbs
  | lbs
  | mlfq
  deriving DecidableEq

/-- The fields of `struct proc` that `allocproc` and the schedulers use. -/
structure Proc where
  state : ProcState
  pid : ℤ
  killed : Bool
  creationTime : ℤ
  stTime : ℤ
  statPr : ℤ
  runTime : ℤ
  sleepTime : ℤ
  numOfScheduled : ℤ
  tickets : ℤ
  currQueue : ℤ
  numOfTicks : ℤ → ℤ
  waitTime : ℤ
  totRunTime : ℤ

def Proc.zero : Proc := ⟨.unused, 0, false, 0, 0, 0, 0, 0, 0, 0, 0, fun _ => 0, 0, 0⟩

/-- How a `fork` ends once `allocproc` has found a slot: the `kalloc` for the
trapframe, `proc_pagetable`, the `kalloc` for the trapframe copy or `uvmcopy` may fail. -/
inductive ForkResult where
  | ok
  | noTrapframe
  | noPagetable
  | noCopy
  | noUvm
  deriving DecidableEq

/-- What happens while a process runs: system calls of that process, interrupts. -/
inductive ProcEvent where
  | fork (r : ForkResult)
  | tick
  | wakeup (q : Slot)
  | kill (pid : ℤ)
  | reap (q : Slot)
  | settickets (n : ℤ)
  | setPriority (priority pid : ℤ)
  deriving DecidableEq

/-- How a process gives the CPU back. -/
inductive Back where
  | yield
  | sleep
  | exit
  deriving DecidableEq

structure Slice where
  events : List ProcEvent
  back : Back

/-- What the history records. -/
inductive SchedEvent where
  /-- `allocproc` took a slot -/
  | took
  /-- the slot was given up again: an allocation of `allocproc` or `fork` failed -/
  | failed
  /-- a process came back to the scheduler -/
  | back (b : Back)
  /-- a sleeping process was made RUNNABLE -/
  | woke
  deriving DecidableEq

inductive SchedFault where
  /-- an access to `queuek[i]` outside the array -/
  | queueBound (k : Fin 5) (i : ℤ)
  | nullDeref
  | panicAcquire
  | panicRelease
  /-- spinning on a lock whose holder is gone -/
  | spin
  /-- the process switched to never comes back -/
  | never

structure Sched where
  proc : Slot → Proc
  queue : Fin 5 → Slot → Option Slot
  ptr : Fin 5 → ℤ
  lock : Slot → Option Cpu
  cpuProc : Cpu → Option Slot
  ticks : ℤ
  nextpid : ℤ
  seed : ℤ
  /-- the word where `proc[NPROC].numOfScheduled` would be -/
  beyond : ℤ
  /-- what the processes switched to next will do -/
  script : List Slice
  trace : List SchedEvent

abbrev SchedM := Prog Sched SchedFault

namespace Sched

/-- The static data before `userinit`. -/
def zero : Sched where
  proc := fun _ => Proc.zero
  queue := fun _ _ => none
  ptr := fun _ => -1
  lock := fun _ => none
  cpuProc := fun _ => none
  ticks := 0
  nextpid := 1
  seed := 37
  beyond := 0
  script := []
  trace := []

def setProc (s : Sched) (p : Slot) (f : Proc → Proc) : Sched :=
  { s with proc := update s.proc p (f (s.proc p)) }

end Sched

def ticksAllowed : Fin 5 → ℤ := ![1, 2, 4, 8, 16]

def updProc (p : Slot) (f : Proc → Proc) : SchedM Unit := modify fun s => s.setProc p f

def record (e : SchedEvent) : SchedM Unit := modify fun s => { s with trace := s.trace ++ [e] }

def setPtr (k : Fin 5) (v : ℤ) : SchedM Unit := modify fun s => { s with ptr := update s.ptr k v }

def setCpuProc (c : Cpu) (p : Option Slot) : SchedM Unit :=
  modify fun s => { s with cpuProc := update s.cpuProc c p }

/-- The load `queuek[i]`. -/
def readQ (k : Fin 5) (i : ℤ) : SchedM (Option Slot) :=
  if h : 0 ≤ i ∧ i < NPROC then gets fun s => s.queue k ⟨i.toNat, by omega⟩ else fail (.queueBound k i)

/-- The store `queuek[i] = v`. -/
def writeQ (k : Fin 5) (i : ℤ) (v : Option Slot) : SchedM Unit :=
  if h : 0 ≤ i ∧ i < NPROC then
    modify fun s => { s with queue := update s.queue k (update (s.queue k) ⟨i.toNat, by omega⟩ v) }
  else fail (.queueBound k i)

/-- `queuek[i]->...`. -/
def derefQ (k : Fin 5) (i : ℤ) : SchedM Slot := do
  match ← readQ k i with
  | some p => pure p
  | none => fail .nullDeref

/-- `queuek_ptr++; queuek[queuek_ptr] = p`. -/
def pushQ (k : Fin 5) (p : Option Slot) : SchedM Unit := do
  setPtr k ((← gets fun s => s.ptr k) + 1)
  writeQ k (← gets fun s => s.ptr k) p

/-- `n` rounds of `queuek[j] = queuek[j+1]`, from `j` on. -/
def shiftQ (k : Fin 5) : ℕ → ℤ → SchedM Unit
  | 0, _ => pure ()
  | n + 1, j => do
    writeQ k j (← readQ k (j + 1))
    shiftQ k n (j + 1)

def acquire (c : Cpu) (p : Slot) : SchedM Unit := do
  match ← gets fun s => s.lock p with
  | none => modify fun s => { s with lock := update s.lock p (some c) }
  | some d => if d = c then fail .panicAcquire else fail .spin

def release (c : Cpu) (p : Slot) : SchedM Unit := do
  if (← gets fun s => s.lock p) = some c then
    modify fun s => { s with lock := update s.lock p none }
  else fail .panicRelease

def allocpid : SchedM ℤ := do
  let pid ← gets fun s => s.nextpid
  modify fun s => { s with nextpid := int32 (s.nextpid + 1) }
  pure pid

def freeproc (p : Slot) : SchedM Unit :=
  updProc p fun pr => { pr with pid := 0, killed := false, state := .unused }

/-- The first UNUSED slot, as the scan of `allocproc` finds it. -/
def firstUnused (s : Sched) : Option Slot :=
  (List.finRange NPROC).find? fun p => decide ((s.proc p).state = .unused)

/-- The block behind `found:`, up to the first `kalloc`. -/
def initProc (p : Slot) : SchedM Unit := do
  let pid ← allocpid
  let ticks ← gets fun s => s.ticks
  updProc p fun pr => { pr with
    pid := pid, state := .used, creationTime := int32 ticks, stTime := 0, statPr := 60, runTime := 0,
    sleepTime := 0, numOfScheduled := 0, tickets := 1, currQueue := 0 }
  record .took
  pushQ 0 (some p)
  updProc p fun pr => { pr with
    numOfTicks := fun i => if 0 ≤ i ∧ i < 5 then 0 else pr.numOfTicks i, waitTime := 3 }

def allocproc (r : ForkResult) : SchedM (Option Slot) := do
  match ← gets firstUnused with
  | none => pure none
  | some p =>
    initProc p
    match r with
    | .noTrapframe | .noPagetable => do
      record .failed
      freeproc p
      pure none
    | .noCopy => do
      record .failed
      pure none
    | .ok | .noUvm => pure (some p)

def fork (r : ForkResult) : SchedM Unit := do
  match ← allocproc r with
  | none => pure ()
  | some np =>
    if r = .noUvm then do
      record .failed
      freeproc np
    else updProc np fun pr => { pr with state := .runnable }

/-- `updateTime`, for one process. -/
def Proc.tick (pr : Proc) : Proc :=
  match pr.state with
  | .running => { pr with runTime := int32 (pr.runTime + 1), totRunTime := int32 (pr.totRunTime + 1) }
  | .sleeping => { pr with sleepTime := int32 (pr.sleepTime + 1) }
  | _ => pr

/-- `clockintr` without the wakeup. -/
def tick : SchedM Unit :=
  modify fun s => { s with ticks := uint32 (s.ticks + 1), proc := fun p => (s.proc p).tick }

/-- `if(p->state == SLEEPING) p->state = RUNNABLE`. -/
def wake (p : Slot) : SchedM Unit := do
  let pr ← gets fun s => s.proc p
  if pr.state = .sleeping then do
    record .woke
    updProc p fun pr => { pr with state := .runnable }
  else pure ()

/-- The first slot with this pid. -/
def findPid (pid : ℤ) (s : Sched) : Option Slot :=
  (List.finRange NPROC).find? fun p => decide ((s.proc p).pid = pid)

def kill (pid : ℤ) : SchedM Unit := do
  match ← gets (findPid pid) with
  | none => pure ()
  | some p =>
    updProc p fun pr => { pr with killed := true }
    wake p

/-- `setPriority` up to the `yield` that may follow. -/
def setPriority (priority pid : ℤ) : SchedM Unit := do
  match ← gets (findPid pid) with
  | none => pure ()
  | some p => updProc p fun pr => { pr with statPr := priority, runTime := 0, sleepTime := 0 }

/-- What `wait` and `waitx` do to a dead child. -/
def reap (q : Slot) : SchedM Unit := do
  let pr ← gets fun s => s.proc q
  if pr.state = .zombie then freeproc q else pure ()

def ProcEvent.run (p : Slot) : ProcEvent → SchedM Unit
  | .fork r => Xv6.fork r
  | .tick => Xv6.tick
  | .wakeup q => wake q
  | .kill pid => Xv6.kill pid
  | .reap q => Xv6.reap q
  | .settickets n => updProc p fun pr => { pr with tickets := n }
  | .setPriority priority pid => Xv6.setPriority priority pid

def runEvents (p : Slot) : List ProcEvent → SchedM Unit
  | [] => pure ()
  | e :: es => do
    e.run p
    runEvents p es

def Back.state : Back → ProcState
  | .yield => .runnable
  | .sleep => .sleeping
  | .exit => .zombie

/-- `swtch` to `p` and back: `p` drops its lock, runs its slice, and takes the lock
again before it returns to this CPU's scheduler. -/
def swtch (c : Cpu) (p : Slot) : SchedM Unit := do
  match ← gets fun s => s.script with
  | [] => fail .never
  | sl :: rest =>
    modify fun s => { s with script := rest, lock := update s.lock p none }
    runEvents p sl.events
    updProc p fun pr => { pr with state := sl.back.state }
    modify fun s => { s with lock := update s.lock p (some c) }
    record (.back sl.back)

/-- The scan of `remove_from_queue`: `n` slots from `i` on. -/
def removeScan (k : Fin 5) (pid : ℤ) : ℕ → ℤ → SchedM Unit
  | 0, _ => pure ()
  | n + 1, i => do
    let p ← derefQ k i
    if (← gets fun s => s.proc p).pid = pid then
      let last ← gets fun s => s.ptr k
      shiftQ k (last - i).toNat i
      setPtr k (last - 1)
    else removeScan k pid n (i + 1)

def removeFromQueue (pid : ℤ) (k : Fin 5) : SchedM Unit := do
  removeScan k pid ((← gets fun s => s.ptr k) + 1).toNat 0

/-- The body of the ageing loop of queue `k`, for slot `i`. -/
def ageSlot (k : Fin 5) (i : ℤ) : SchedM Unit := do
  let p ← derefQ k i
  let pr ← gets fun s => s.proc p
  if pr.state = .runnable then
    let ticks ← gets fun s => s.ticks
    if uint32 (ticks - pr.stTime) > uint32 pr.waitTime then
      let cqueue := int32 (pr.currQueue - 1)
      updProc p fun pr => { pr with
        currQueue := cqueue, numOfTicks := update pr.numOfTicks cqueue 0, stTime := int32 ticks }
      pushQ (k - 1) (some p)
      setPtr k ((← gets fun s => s.ptr k) - 1)
      let q ← derefQ k i
      removeFromQueue (← gets fun s => s.proc q).pid k

/-- `for(int i=0;i<=queuek_ptr;i++)`, from `i` on. At `i = NPROC` a body that reads
`queuek[i]` faults, so `NPROC + 1` rounds are all there can be. -/
def loopQ (k : Fin 5) (body : ℤ → SchedM Unit) : ℕ → ℤ → SchedM Unit
  | 0, _ => pure ()
  | n + 1, i => do
    if i ≤ (← gets fun s => s.ptr k) then
      body i
      loopQ k body n (i + 1)

def ageing (k : Fin 5) : SchedM Unit := loopQ k (ageSlot k) (NPROC + 1) 0

/-- "If time has expired": into the next queue. Only the loop of queue 3 does not look
at `killed`. -/
def demote (k : Fin 5) (p : Slot) : SchedM Unit := do
  let pr ← gets fun s => s.proc p
  if pr.numOfTicks (k : ℕ) ≥ ticksAllowed k then
    if k = 3 ∨ pr.killed = false then
      updProc p fun pr => { pr with currQueue := int32 (pr.currQueue + 1) }
      pushQ (k + 1) (some p)

/-- From `queuek[i]->st_time=ticks` up to `swtch`. -/
def choose (c : Cpu) (p : Slot) : SchedM Unit := do
  let ticks ← gets fun s => s.ticks
  updProc p fun pr => { pr with stTime := int32 ticks }
  setCpuProc c (some p)
  updProc p fun pr => { pr with state := .running, numOfScheduled := int32 (pr.numOfScheduled + 1) }

/-- Choose `p`, and what follows until it is back. -/
def runFrom (c : Cpu) (p : Slot) : SchedM Unit := do
  choose c p
  swtch c p
  setCpuProc c none

/-- What the loop of queue `k < 4` does with the process that came back. -/
def takeBack (k : Fin 5) (i : ℤ) (p : Slot) : SchedM Unit := do
  demote k p
  let last ← gets fun s => s.ptr k
  shiftQ k (last - i + 1).toNat i
  setPtr k (last - 1)
  updProc p fun pr => { pr with numOfTicks := update pr.numOfTicks (k : ℕ) 0 }

/-- The `if(queuek[i]->state == RUNNABLE)` part of the dispatch loop of queue `k < 4`. -/
def dispatchProc (c : Cpu) (k : Fin 5) (i : ℤ) (p : Slot) : SchedM Unit := do
  let pr ← gets fun s => s.proc p
  if pr.state = .runnable then do
    runFrom c p
    takeBack k i p
  else pure ()

/-- The body of that loop, for slot `i`. The lock released at the end is that of the
process that stands in the slot by then. -/
def dispatchSlot (c : Cpu) (k : Fin 5) (i : ℤ) : SchedM Unit := do
  let p ← derefQ k i
  acquire c p
  dispatchProc c k i p
  let q ← derefQ k i
  release c q

/-- Queue 4 has no next queue: the process goes to the tail. -/
def takeBack4 (i : ℤ) (p : Slot) : SchedM Unit := do
  let last ← gets fun s => s.ptr 4
  let pr ← gets fun s => s.proc p
  if pr.killed = false then do
    shiftQ 4 (last - i).toNat i
    writeQ 4 last (some p)
  else shiftQ 4 (last - i).toNat i

def dispatchProc4 (c : Cpu) (i : ℤ) (p : Slot) : SchedM Unit := do
  let pr ← gets fun s => s.proc p
  if pr.state = .runnable then do
    runFrom c p
    takeBack4 i p
  else pure ()

def dispatchSlot4 (c : Cpu) (i : ℤ) : SchedM Unit := do
  let p ← derefQ 4 i
  acquire c p
  dispatchProc4 c i p
  let q ← derefQ 4 i
  release c q

def dispatch (c : Cpu) (k : Fin 5) : SchedM Unit := do
  if (← gets fun s => s.ptr k) ≥ 0 then
    loopQ k (if k = 4 then dispatchSlot4 c else dispatchSlot c k) (NPROC + 1) 0

def passMlfq (c : Cpu) : SchedM Unit := do
  ageing 1
  ageing 2
  ageing 3
  ageing 4
  dispatch c 0
  dispatch c 1
  dispatch c 2
  dispatch c 3
  dispatch c 4

/-- `state = RUNNING; c->proc = p; swtch; c->proc = 0`. -/
def runChosen (c : Cpu) (p : Slot) : SchedM Unit := do
  updProc p fun pr => { pr with state := .running }
  setCpuProc c (some p)
  swtch c p
  setCpuProc c none

def runIfRunnable (c : Cpu) (p : Slot) : SchedM Unit := do
  let pr ← gets fun s => s.proc p
  if pr.state = .runnable then runChosen c p else pure ()

def scanRr (c : Cpu) : List Slot → SchedM Unit
  | [] => pure ()
  | p :: ps => do
    acquire c p
    runIfRunnable c p
    release c p
    scanRr c ps

/-- The body of the loop of FCFS for `newProcess = p`, up to its `release`: `startProcess` afterwards, and the process
whose lock is to be released. -/
def fcfsSlot (c : Cpu) (startProcess : Option Slot) (p : Slot) : SchedM (Option Slot × Option Slot) := do
  acquire c p
  let pr ← gets fun s => s.proc p
  if pr.state = .runnable then
    match startProcess with
    | none => pure (some p, none)
    | some b =>
      if pr.creationTime < (← gets fun s => s.proc b).creationTime then pure (some p, some b)
      else pure (some b, some p)
  else pure (startProcess, some p)

def releaseAny (c : Cpu) : Option Slot → SchedM Unit
  | none => pure ()
  | some q => release c q

/-- The selection loop of FCFS; the candidate's lock stays held. -/
def scanFcfs (c : Cpu) : List Slot → Option Slot → SchedM (Option Slot)
  | [], best => pure best
  | p :: ps, best => do
    let r ← fcfsSlot c best p
    releaseAny c r.2
    scanFcfs c ps r.1

/-- `startProcess->state = RUNNING` up to `swtch`. -/
def fcfsDispatch (c : Cpu) (p : Slot) : SchedM Unit := do
  updProc p fun pr => { pr with state := .running }
  setCpuProc c (some p)
  -- `newProcess` has run off the table
  modify fun s => { s with beyond := int32 (s.beyond + 1) }

/-- The dynamic priority that the PBS loop computes. -/
def dynamicPr (pr : Proc) : ℤ :=
  let niceness :=
    if pr.numOfScheduled > 0 ∧ int32 (pr.sleepTime + pr.runTime) ≠ 0 then
      int32 (Int.tdiv pr.sleepTime (int32 (pr.sleepTime + pr.runTime)) * 10)
    else 5
  let val := int32 (int32 (pr.statPr - niceness) + 5)
  let tmp := if val < 100 then val else 100
  if 0 > tmp then 0 else tmp

/-- `c && ... process->...`: the pointer is followed only if `c` holds. -/
def checkProcess (c : Bool) (process : Option Slot) (test : Proc → Bool) : SchedM Bool :=
  if c then
    match process with
    | none => fail .nullDeref
    | some b => gets fun s => test (s.proc b)
  else pure false

/-- The selection loop of PBS. `process->...` is read only after `dynamic_pr` matched,
and the first value of `dynamic_pr` matches no priority. -/
def scanPbs (c : Cpu) : List Slot → Option Slot → ℤ → SchedM (Option Slot)
  | [], best, _ => pure best
  | p :: ps, best, dp => do
    acquire c p
    let pr ← gets fun s => s.proc p
    let pdp := dynamicPr pr
    let cond1 ← checkProcess (dp = pdp) best fun b => pr.numOfScheduled < b.numOfScheduled
    let cond2 ← checkProcess cond1 best fun b => pr.creationTime < b.creationTime
    if pr.state = .runnable ∧ (best = none ∨ dp > pdp ∨ cond1 ∨ cond2) then
      match best with
      | none => scanPbs c ps (some p) pdp
      | some b =>
        release c b
        scanPbs c ps (some p) pdp
    else
      release c p
      scanPbs c ps best dp

/-- `getrand`: the cast binds to the quotient, so the result is `totTickets` when the
next seed is 99 and 0 for every smaller one. -/
def getrand (totTickets : ℤ) : SchedM ℤ := do
  let nxt := Int.tmod (int32 ((← gets fun s => s.seed) * (← gets fun s => s.seed))) 100
  modify fun s => { s with seed := nxt }
  pure (int32 (Int.tdiv nxt 99 * totTickets))

/-- The tickets of the RUNNABLE processes among `ps`, added up in an `int`. -/
def ticketsOf (view : Slot → Proc) (ps : List Slot) : ℤ :=
  ps.foldl (fun t p => if (view p).state = .runnable then int32 (t + (view p).tickets) else t) 0

def totTickets (s : Sched) : ℤ := ticketsOf s.proc (List.finRange NPROC)

/-- The second loop of LBS. -/
def scanLbs (c : Cpu) (ans : ℤ) : List Slot → ℤ → SchedM (Option Slot)
  | [], _ => pure none
  | p :: ps, passed => do
    acquire c p
    let pr ← gets fun s => s.proc p
    if pr.state = .runnable then
      let passed := int32 (passed + pr.tickets)
      if passed > ans then pure (some p)
      else
        release c p
        scanLbs c ans ps passed
    else
      release c p
      scanLbs c ans ps passed

/-- What the second loop of LBS makes of the processes as it finds them. -/
def draw (view : Slot → Proc) (ans : ℤ) : List Slot → ℤ → Option Slot
  | [], _ => none
  | p :: ps, passed =>
    if (view p).state = .runnable then
      if int32 (passed + (view p).tickets) > ans then some p else draw view ans ps (int32 (passed + (view p).tickets))
    else draw view ans ps passed

/-- An iteration of LBS while the other CPUs go on: the first loop sees the processes as in `first`, the second one
as in `second`. -/
def lottery (seed : ℤ) (first second : Slot → Proc) : Option Slot :=
  draw second (int32 (Int.tdiv (Int.tmod (int32 (seed * seed)) 100) 99 * ticketsOf first (List.finRange NPROC)))
    (List.finRange NPROC) 0

/-- One round of the loop in `scheduler`. -/
def pass (b : Build) (c : Cpu) : SchedM Unit :=
  match b with
  | .mlfq => passMlfq c
  | .rr => scanRr c (List.finRange NPROC)
  | .fcfs => do
    match ← scanFcfs c (List.finRange NPROC) none with
    | none => pure ()
    | some p =>
      fcfsDispatch c p
      swtch c p
      setCpuProc c none
      release c p
  | .pbs => do
    match ← scanPbs c (List.finRange NPROC) none 999 with
    | none => pure ()
    | some p =>
      let ticks ← gets fun s => s.ticks
      updProc p fun pr => { pr with
        runTime := 0, sleepTime := 0, numOfScheduled := int32 (pr.numOfScheduled + 1), state := .running,
        stTime := int32 ticks }
      setCpuProc c (some p)
      swtch c p
      setCpuProc c none
      release c p
  | .lbs => do
    let ans ← getrand (← gets totTickets)
    match ← scanLbs c ans (List.finRange NPROC) 0 with
    | none => pure ()
    | some p =>
      runChosen c p
      release c p

/-- `userinit`: the first process, in the first slot. -/
def userinit : Sched := (Xv6.fork .ok Sched.zero).state

/-- The machine between passes: a CPU that panicked or spins is halted, and after an
access outside a queue array memory is corrupt. -/
structure Kernel where
  sched : Sched
  halted : Cpu → Bool
  corrupt : Bool

/-- What a CPU does next: a pass, with the script of the processes it switches to, or
an interrupt handler. -/
inductive SysEvent where
  | pass (script : List Slice)
  | tick
  | wakeup (q : Slot)

def SysEvent.prog (b : Build) (c : Cpu) : SysEvent → SchedM Unit
  | .pass script => do
    modify fun s => { s with script := script }
    Xv6.pass b c
  | .tick => Xv6.tick
  | .wakeup q => wake q

namespace Kernel

def boot : Kernel := ⟨userinit, fun _ => false, false⟩

/-- What is left after a program that ran on CPU `c`. -/
def settle (t : Kernel) (c : Cpu) : Outcome Sched SchedFault Unit → Kernel
  | .ok _ s => { t with sched := s }
  | .fault (.queueBound _ _) s => { t with sched := s, corrupt := true }
  | .fault _ s => { t with sched := s, halted := update t.halted c true }

/-- A CPU that panics or spins is gone; the others go on. Nothing is said of what
happens after an access outside a queue array. -/
def step (b : Build) (t : Kernel) (e : Cpu × SysEvent) : Option Kernel :=
  if t.corrupt ∨ t.halted e.1 then none else some (t.settle e.1 (e.2.prog b e.1 t.sched))

def run (b : Build) (es : List (Cpu × SysEvent)) : Option Kernel := System.exec (step b) boot es

/-- Every queue pointer lies in `[-1, NPROC-1]` and no access was outside an array. -/
def InBounds (t : Kernel) : Prop :=
  t.corrupt = false ∧ ∀ k, -1 ≤ t.sched.ptr k ∧ t.sched.ptr k ≤ NPROC - 1

instance (t : Kernel) : Decidable t.InBounds :=
  inferInstanceAs (Decidable (t.corrupt = false ∧ ∀ k, -1 ≤ t.sched.ptr k ∧ t.sched.ptr k ≤ NPROC - 1))

end Kernel

/-- `p` stands in slot `i` of the used part of queue `k`. -/
def Sched.At (s : Sched) (k : Fin 5) (i : Slot) (p : Slot) : Prop :=
  (i.val : ℤ) ≤ s.ptr k ∧ s.queue k i = some p

/-- Every RUNNABLE process is in exactly one slot of exactly one queue, its own. -/
def Sched.NoneLost (s : Sched) : Prop :=
  ∀ p, (s.proc p).state = .runnable →
    ∃ k i, (∀ k' i', s.At k' i' p ↔ k' = k ∧ i' = i) ∧ (s.proc p).currQueue = (k : ℕ)

end Xv6
