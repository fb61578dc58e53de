import Xv6.Spec.Sched

/-! The process table with every field of `struct proc` but the lock and the addresses of
pages: `allocproc`, `freeproc`, `fork`, `exit`, `wait`, `kill`, `setkilled`,
`setPriority`, `updateTime` and `waitx` of `kernel/proc.c`. What a process does to its own fields
(system calls, timer traps, `exec`) and what a scheduler notes down may be
anything. The state also records when the process in a slot was created, when it
exited and at how many clock ticks it was RUNNING in between. -/

namespace Xv6.Procs

open Function

/-- The words of a `struct trapframe`; `a0` is the one at offset 112. -/
abbrev Trapframe := Vector UInt64 36

/-- `kalloc` fills a page with 5s. -/
def junkFrame : Trapframe := Vector.replicate 36 0x0505050505050505

abbrev Name := Vector UInt8 16

/-- The loop of `safestrcpy` from byte `i` on, when `n` more bytes may be copied. -/
def safestrcpyLoop (t : Name) : ℕ → ℕ → Name → Name
  | 0, i, s => s.setIfInBounds i 0
  | n + 1, i, s =>
    let s := s.setIfInBounds i (t[i]?.getD 0)
    if t[i]?.getD 0 = 0 then s.setIfInBounds (i + 1) 0 else safestrcpyLoop t n (i + 1) s

/-- `safestrcpy(s, t, sizeof(s))` -/
def safestrcpy (s t : Name) : Name := safestrcpyLoop t 15 0 s

/-- The string that a `char` array holds. -/
def cstr (s : Name) : List UInt8 := s.toList.takeWhile (· ≠ 0)

/-- Fields that a process changes itself. -/
structure Own where
  sz : ℕ
  trapframe : Option Trapframe
  ofile : Vector (Option ℕ) NOFILE
  cwd : Option ℕ
  name : Name
  mask : ℤ
  tickets : ℤ
  handler : UInt64
  tickss : ℤ
  nowTicks : ℤ
  trapframeCopy : Option Trapframe
  isSigalarm : ℤ
  deriving DecidableEq

/-- Fields that the schedulers change. -/
structure Noted where
  sleepTime : ℤ
  stTime : ℤ
  runTime : ℤ
  numOfScheduled : ℤ
  numOfTicks : Vector ℤ 5
  currQueue : ℤ
  waitTime : ℤ
  deriving DecidableEq

structure Proc extends Own, Noted where
  creationTime : ℤ
  state : ProcState
  chan : Option ℕ
  killed : ℤ
  xstate : ℤ
  pid : ℤ
  parent : Option Slot
  /-- whether the saved context is that of `forkret` -/
  forkret : Bool
  statPr : ℤ
  endTime : ℤ
  totRunTime : ℤ
  deriving DecidableEq

def Proc.zero : Proc where
  sz := 0
  trapframe := none
  ofile := Vector.replicate NOFILE none
  cwd := none
  name := Vector.replicate 16 0
  mask := 0
  tickets := 0
  handler := 0
  tickss := 0
  nowTicks := 0
  trapframeCopy := none
  isSigalarm := 0
  sleepTime := 0
  stTime := 0
  runTime := 0
  numOfScheduled := 0
  numOfTicks := Vector.replicate 5 0
  currQueue := 0
  waitTime := 0
  creationTime := 0
  state := .unused
  chan := none
  killed := 0
  xstate := 0
  pid := 0
  parent := none
  forkret := false
  statPr := 0
  endTime := 0
  totRunTime := 0

/-- Of the process in a slot: the value of `ticks` (without overflow) when it was created and
when it exited, the number of ticks at which it was RUNNING, and what `tot_run_time` was
when it was created. -/
structure Life where
  born : ℕ
  died : ℕ
  ran : ℕ
  stale : ℤ
  deriving DecidableEq

/-- What `waitx` reported of a child. `sys_waitx` passes its two variables in the wrong order and
also copies them out in that order, so `rtime` is what the caller finds at its first address. -/
structure Report where
  rtime : ℤ
  wtime : ℤ
  life : Life
  deriving DecidableEq

structure State where
  proc : Slot → Proc
  life : Slot → Life
  /-- the number of clock ticks; `ticks` holds it modulo 2^32 -/
  ticks : ℕ
  nextpid : ℤ
  reports : List Report

inductive Event where
  | fork (p : Slot) (r : ForkResult)
  /-- `clockintr` -/
  | tick
  /-- a scheduler switches to `p` -/
  | dispatch (p : Slot)
  | note (q : Slot) (d : Noted)
  | yield (p : Slot)
  | sleep (p : Slot) (chan : ℕ)
  | wakeup (chan : ℕ)
  | kill (pid : ℤ)
  | setkilled (p : Slot)
  | setPriority (priority pid : ℤ)
  | own (p : Slot) (d : Own)
  | exit (p : Slot) (status : ℤ)
  | wait (p : Slot)
  | waitx (p : Slot)

def initproc : Slot := 0

/-- `allocproc` from `found:` to the allocation of the trapframe. -/
def Proc.found (pr : Proc) (pid : ℤ) (ticks : ℕ) : Proc :=
  { pr with
    pid := pid, state := .used, creationTime := int32 ticks, stTime := 0, statPr := 60, runTime := 0, sleepTime := 0,
    numOfScheduled := 0, tickets := 1, currQueue := 0, numOfTicks := Vector.replicate 5 0, waitTime := 3 }

/-- `allocproc` behind `proc_pagetable`, up to the allocation of `trapframe_copy`. -/
def Proc.setContext (pr : Proc) : Proc := { pr with trapframe := some junkFrame, forkret := true }

/-- The rest of `allocproc`. -/
def Proc.noAlarm (pr : Proc) : Proc :=
  { pr with trapframeCopy := some junkFrame, isSigalarm := 0, tickss := 0, nowTicks := 0, handler := 0 }

def freeproc (pr : Proc) : Proc :=
  { pr with
    trapframe := none, sz := 0, pid := 0, parent := none, name := pr.name.setIfInBounds 0 0, chan := none, killed := 0,
    xstate := 0, state := .unused }

/-- `fork` behind `uvmcopy`, in the child `np` of `p`. -/
def Proc.copyFrom (np p : Proc) (parent : Slot) : Proc :=
  { np with
    sz := p.sz, trapframe := p.trapframe.map fun f => f.setIfInBounds 14 0,
    ofile := Vector.zipWith (fun f g => f <|> g) p.ofile np.ofile, cwd := p.cwd, name := safestrcpy np.name p.name,
    parent := some parent, state := .runnable }

/-- The child of a `fork` that succeeds, in a slot that held `pr`. -/
def Proc.child (pr p : Proc) (parent : Slot) (pid : ℤ) (ticks : ℕ) : Proc :=
  { (pr.found pid ticks).setContext.noAlarm with mask := p.mask }.copyFrom p parent

/-- What becomes of the slot when `fork` ends with `r`. -/
def Proc.forked (pr p : Proc) (parent : Slot) (pid : ℤ) (ticks : ℕ) : ForkResult → Proc
  | .ok => pr.child p parent pid ticks
  | .noTrapframe | .noPagetable => freeproc (pr.found pid ticks)
  | .noCopy => { (pr.found pid ticks).setContext with trapframeCopy := none }
  | .noUvm => freeproc { (pr.found pid ticks).setContext.noAlarm with mask := p.mask }

/-- `updateTime` for one process. -/
def Proc.updateTime (pr : Proc) : Proc :=
  match pr.state with
  | .running => { pr with runTime := int32 (pr.runTime + 1), totRunTime := int32 (pr.totRunTime + 1) }
  | .sleeping => { pr with sleepTime := int32 (pr.sleepTime + 1) }
  | _ => pr

/-- A scheduler switches to the process; one that comes back from `sched` in `sleep` clears
its channel. -/
def Proc.dispatch (pr : Proc) : Proc := { pr with state := .running, chan := none }

def Proc.yield (pr : Proc) : Proc := { pr with state := .runnable, forkret := false }

def Proc.sleep (pr : Proc) (chan : ℕ) : Proc := { pr with state := .sleeping, chan := some chan, forkret := false }

/-- `wakeup` for one process. -/
def Proc.wakeup (pr : Proc) (chan : ℕ) : Proc :=
  if pr.state = .sleeping ∧ pr.chan = some chan then { pr with state := .runnable } else pr

/-- `kill` of the process it finds. -/
def Proc.kill (pr : Proc) : Proc :=
  { pr with killed := 1, state := if pr.state = .sleeping then .runnable else pr.state }

def Proc.setkilled (pr : Proc) : Proc := { pr with killed := 1 }

/-- `exit`, in the process itself. -/
def Proc.exit (pr : Proc) (status : ℤ) : Proc :=
  { pr with
    ofile := Vector.replicate NOFILE none, cwd := none, xstate := status, state := .zombie, forkret := false }

/-- `setPriority` of the process it finds. -/
def Proc.setPriority (pr : Proc) (priority : ℤ) : Proc := { pr with statPr := priority, runTime := 0, sleepTime := 0 }

/-- `reparent(p)` for one process. -/
def Proc.reparent (pr : Proc) (p : Slot) : Proc :=
  if pr.parent = some p then { pr with parent := some initproc } else pr

/-- `*rtime` and `*wtime` of `waitx`, which are unsigned. -/
def Proc.rtime (pr : Proc) : ℤ := uint32 pr.totRunTime

def Proc.wtime (pr : Proc) : ℤ := uint32 (pr.endTime - int32 (pr.creationTime + pr.totRunTime))

namespace State

/-- The first slot for which `f` holds. -/
def find (s : State) (f : Proc → Bool) : Option Slot := (List.finRange NPROC).find? fun q => f (s.proc q)

def set (s : State) (q : Slot) (f : Proc → Proc) : State :=
  { s with proc := update s.proc q (f (s.proc q)) }

/-- `fork`; also when it fails for lack of memory, `nextpid` has moved on. -/
def fork (s : State) (p : Slot) (r : ForkResult) : State :=
  match s.find (fun pr => pr.state = .unused) with
  | none => s
  | some np =>
    { s.set np (fun pr => pr.forked (s.proc p) p s.nextpid s.ticks r) with
      nextpid := int32 (s.nextpid + 1)
      life := update s.life np ⟨s.ticks, 0, 0, (s.proc np).totRunTime⟩ }

/-- The process that `allocproc` returns, if there is a free slot and memory. -/
def allocproc (s : State) : Option Proc :=
  (s.find fun pr => pr.state = .unused).map fun np => ((s.proc np).found s.nextpid s.ticks).setContext.noAlarm

def updateTime (s : State) : State :=
  { s with
    proc := fun q => (s.proc q).updateTime
    life := fun q => if (s.proc q).state = .running then { s.life q with ran := (s.life q).ran + 1 } else s.life q
    ticks := s.ticks + 1 }

/-- `reparent(p)` -/
def reparent (s : State) (p : Slot) : State := { s with proc := fun q => (s.proc q).reparent p }

def exit (s : State) (p : Slot) (status : ℤ) : State :=
  { (s.reparent p).set p (fun pr => pr.exit status) with
    life := update s.life p { s.life p with died := s.ticks } }

/-- The first child that `wait` and `waitx` can reap. -/
def deadChild (s : State) (p : Slot) : Option Slot := s.find fun pr => pr.parent = some p ∧ pr.state = .zombie

def wait (s : State) (p : Slot) : State :=
  match s.deadChild p with
  | none => s
  | some q => s.set q freeproc

def waitx (s : State) (p : Slot) : State :=
  match s.deadChild p with
  | none => s
  | some q => { s.set q freeproc with reports := s.reports ++ [⟨(s.proc q).rtime, (s.proc q).wtime, s.life q⟩] }

def kill (s : State) (pid : ℤ) : State :=
  match s.find (fun pr => pr.pid = pid) with
  | none => s
  | some q => s.set q Proc.kill

/-- What `kill` returns. -/
def killRet (s : State) (pid : ℤ) : ℤ := if (s.find fun pr => pr.pid = pid).isSome then 0 else -1

def setPriority (s : State) (priority pid : ℤ) : State :=
  match s.find (fun pr => pr.pid = pid) with
  | none => s
  | some q => s.set q fun pr => pr.setPriority priority

/-- A system call, or a trap, of a process that runs. -/
def running (s : State) (p : Slot) (t : State) : Option State := if (s.proc p).state = .running then some t else none

def step (s : State) : Event → Option State
  | .fork p r => s.running p (s.fork p r)
  | .tick => some s.updateTime
  | .dispatch p => if (s.proc p).state = .runnable then some (s.set p Proc.dispatch) else none
  | .note q d => some (s.set q fun pr => { pr with toNoted := d })
  | .yield p => s.running p (s.set p Proc.yield)
  | .sleep p chan => s.running p (s.set p fun pr => pr.sleep chan)
  | .wakeup chan => some { s with proc := fun q => (s.proc q).wakeup chan }
  | .kill pid => some (s.kill pid)
  | .setkilled p => s.running p (s.set p Proc.setkilled)
  | .setPriority priority pid => some (s.setPriority priority pid)
  | .own p d => s.running p (s.set p fun pr => { pr with toOwn := d })
  | .exit p status => if p ≠ initproc then s.running p (s.exit p status) else none
  | .wait p => s.running p (s.wait p)
  | .waitx p => s.running p (s.waitx p)

/-- The process that `userinit` makes, with `/` as file 0. -/
def userinit : Proc :=
  { (Proc.zero.found 1 0).setContext.noAlarm with
    sz := 4096
    trapframe := some ((junkFrame.setIfInBounds 3 0).setIfInBounds 6 4096)
    name := Vector.ofFn fun i => ("initcode".toUTF8.toList)[i.val]?.getD 0
    cwd := some 0
    state := .runnable }

def init : State where
  proc := update (fun _ => Proc.zero) initproc userinit
  life := fun _ => ⟨0, 0, 0, 0⟩
  ticks := 0
  nextpid := 2
  reports := []

def run (es : List Event) : Option State := System.exec step init es

end State

end Xv6.Procs
