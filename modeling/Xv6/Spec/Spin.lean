import Xv6.Spec.Cpus

/-! Who spins on whom: the scheduler loops of the RR, FCFS, PBS and LBS builds, and the kernel code of
`kernel/proc.c`, `kernel/sysproc.c` and `kernel/trap.c` that uses the locks of processes, `wait_lock` and
`tickslock`, on any number of CPUs. Every `acquire` is a place of its own, so that where a CPU is says which
locks it holds and which one it wants. Other spinlocks are left out. -/

namespace Xv6.Spin

open Function
open Cpus (Policy SchedPc)

inductive Lk where
  | wait
  | ticks
  | proc (i : Slot)
  deriving DecidableEq

inductive Chan where
  | proc (q : Slot)
  | ticks
  | other (n : ℕ)
  deriving DecidableEq

structure Proc extends Xv6.Proc where
  chan : Option Chan
  parent : Option Slot

/-- A call of `wakeup(chan)`: at the top of its loop, in front of `acquire(&p->lock)`, and behind it. -/
inductive Wake where
  | scan (chan : Chan) (i : ℕ)
  | at (chan : Chan) (i : Slot)
  | locked (chan : Chan) (i : Slot)
  deriving DecidableEq

/-- What a call of `sleep` belongs to: `wait` or `waitx`, `sys_sleep`, or anything with another lock. -/
inductive Sleep where
  | wait (x : Bool)
  | ticks (n : ℤ) (ticks0 : ℕ)
  | other (chan : ℕ)
  deriving DecidableEq

/-- Where a system call is. -/
inductive Base where
  /-- in user mode, or anywhere else in the kernel -/
  | user
  | wakeup (w : Wake)
  | alloc (i : ℕ)
  | allocLocked (i : Slot)
  /-- in `fork`, with the lock of the new process -/
  | fork (np : Slot)
  | forkLink (np : Slot)
  | forkLinked (np : Slot)
  | forkRun (np : Slot)
  | forkRunLocked (np : Slot)
  | kill (pid : ℤ) (i : ℕ)
  | killLocked (pid : ℤ) (i : Slot)
  | setPriority (priority pid : ℤ) (i : ℕ)
  | setPriorityLocked (priority pid : ℤ) (i : Slot)
  /-- `killed` or `setkilled` of the process itself -/
  | self (set : Bool)
  | selfLocked (set : Bool)
  /-- `wait`, or `waitx` if `x` -/
  | wait (x : Bool)
  | waitScan (x : Bool) (i : ℕ) (havekids : Bool)
  | waitAt (x : Bool) (i : Slot)
  | waitLocked (x : Bool) (i : Slot)
  | waitKilled
  | waitKilledLocked
  | waitReturn
  | exit
  | reparent (i : ℕ)
  | reparentWake (i : ℕ) (w : Wake)
  | exitWake (w : Wake)
  | exitAt
  | exitLocked
  | exitFree
  | sysSleep (n : ℤ)
  | ticksLoop (n : ℤ) (ticks0 : ℕ)
  | ticksKilled (n : ℤ) (ticks0 : ℕ)
  | ticksKilledLocked (n : ℤ) (ticks0 : ℕ)
  | ticksReturn
  /-- in `sleep`, in front of `acquire(&p->lock)` -/
  | sleepAt (k : Sleep)
  | sleepLocked (k : Sleep)
  /-- behind `release(lk)` -/
  | sleepFree (k : Sleep)
  /-- behind `release(&p->lock)` -/
  | sleepEnd (k : Sleep)
  deriving DecidableEq

/-- An interrupt handler: `clockintr` with `updateTime`, or one that calls `wakeup` only. -/
inductive Handler where
  | none
  | clock
  | tick
  | update (i : ℕ)
  | updateLocked (i : Slot)
  | clockWake (w : Wake)
  | wake (w : Wake)
  deriving DecidableEq

/-- What `p->context` says. -/
inductive Resume where
  | forkret
  | yielded (k : Base)
  | slept (k : Sleep)
  | exited
  deriving DecidableEq

inductive Pc where
  | at (k : Base) (h : Handler)
  | yieldAt (k : Base)
  | yieldLocked (k : Base)
  /-- behind `swtch`, with `p->lock` -/
  | resumed (r : Resume)
  deriving DecidableEq

/-- What a CPU does: it is in `scheduler`, perhaps in an interrupt handler, or it runs the thread of a process. -/
inductive Ctl where
  | sched (pc : SchedPc) (h : Handler)
  | thread (p : Slot) (pc : Pc)
  deriving DecidableEq

/-! ### Locks held and wanted -/

def Wake.held : Wake → List Lk
  | .locked _ i => [.proc i]
  | _ => []

def Wake.wants : Wake → Option Lk
  | .at _ i => some (.proc i)
  | _ => none

/-- The lock that `sleep` was called with, if it is one of ours. -/
def Sleep.lk : Sleep → Option Lk
  | .wait _ => some .wait
  | .ticks _ _ => some .ticks
  | .other _ => none

def Sleep.chan (p : Slot) : Sleep → Chan
  | .wait _ => .proc p
  | .ticks _ _ => .ticks
  | .other n => .other n

/-- The lock of `proc[i]`, for a loop over the process table. -/
def tableLock (i : ℕ) : Option Lk := if h : i < NPROC then some (.proc ⟨i, h⟩) else none

def Base.held (p : Slot) : Base → List Lk
  | .wakeup w => w.held
  | .allocLocked i | .fork i | .forkRunLocked i | .killLocked _ i | .setPriorityLocked _ _ i => [.proc i]
  | .selfLocked _ | .exitFree | .sleepFree _ => [.proc p]
  | .forkLinked _ | .waitScan _ _ _ | .waitAt _ _ | .waitKilled | .waitReturn | .reparent _ | .exitAt => [.wait]
  | .waitLocked _ i => [.proc i, .wait]
  | .waitKilledLocked | .exitLocked => [.proc p, .wait]
  | .reparentWake _ w | .exitWake w => w.held ++ [.wait]
  | .ticksLoop _ _ | .ticksKilled _ _ | .ticksReturn => [.ticks]
  | .ticksKilledLocked _ _ => [.proc p, .ticks]
  | .sleepAt k => k.lk.toList
  | .sleepLocked k => .proc p :: k.lk.toList
  | _ => []

def Base.wants (p : Slot) : Base → Option Lk
  | .wakeup w | .reparentWake _ w | .exitWake w => w.wants
  | .alloc i | .kill _ i | .setPriority _ _ i => tableLock i
  | .forkLink _ | .wait _ | .exit => some .wait
  | .forkRun i | .waitAt _ i => some (.proc i)
  | .self _ | .waitKilled | .exitAt | .ticksKilled _ _ | .sleepAt _ => some (.proc p)
  | .sysSleep _ => some .ticks
  | .sleepEnd k => k.lk
  | _ => none

def Handler.held : Handler → List Lk
  | .tick | .update _ => [.ticks]
  | .updateLocked i => [.proc i, .ticks]
  | .clockWake w => w.held ++ [.ticks]
  | .wake w => w.held
  | _ => []

def Handler.wants : Handler → Option Lk
  | .clock => some .ticks
  | .update i => tableLock i
  | .clockWake w | .wake w => w.wants
  | _ => Option.none

def Pc.held (p : Slot) : Pc → List Lk
  | .at k .none => k.held p
  | .at _ h => h.held
  | .yieldAt _ => []
  | .yieldLocked _ | .resumed _ => [.proc p]

def Pc.wants (p : Slot) : Pc → Option Lk
  | .at k .none => k.wants p
  | .at _ h => h.wants
  | .yieldAt _ => some (.proc p)
  | _ => none

def schedWants : SchedPc → Option Lk
  | .rr i | .fcfs i _ | .pbs i _ _ | .lbs i _ _ => tableLock i
  | _ => none

def Ctl.held : Ctl → List Lk
  | .sched pc .none => pc.locks.map .proc
  | .sched _ h => h.held
  | .thread p pc => pc.held p

def Ctl.wants : Ctl → Option Lk
  | .sched pc .none => schedWants pc
  | .sched _ h => h.wants
  | .thread p pc => pc.wants p

/-! ### What the CPUs do -/

/-- The memory that the code below works on. -/
structure Data (κ : Type) where
  proc : Slot → Proc
  context : Slot → Resume
  /-- `c->proc` -/
  cpuProc : κ → Option Slot
  ticks : ℕ
  nextpid : ℤ

/-- What a CPU does next: spin until it has a lock, release one, go on, or crash. -/
inductive Move (κ : Type) where
  | acquire (l : Lk) (a : Ctl)
  | release (l : Lk) (a : Ctl) (d : Data κ)
  | go (a : Ctl) (d : Data κ)
  | crash (reason : String)

/-- The system calls and other kernel functions that a thread calls. -/
inductive Call where
  | fork
  | kill (pid : ℤ)
  | setPriority (priority pid : ℤ)
  | settickets (n : ℤ)
  | wait (x : Bool)
  | exit
  | sysSleep (n : ℤ)
  | sleep (chan : ℕ)
  | wakeup (chan : ℕ)
  | killed (set : Bool)
  deriving DecidableEq

/-- `r` says how allocations and copies end, `rand` what `getrand` returns. -/
inductive Act where
  | next (r : Cpus.Alloc) (rand : ℤ)
  | call (f : Call)
  | yield
  | clockintr
  | devintr (chan : ℕ)

def initproc : Slot := 0

def Proc.free (pr : Proc) : Proc :=
  { pr with pid := 0, parent := none, chan := none, killed := false, state := .unused }

def Proc.wakeup (chan : Chan) (pr : Proc) : Proc :=
  if pr.state = .sleeping ∧ pr.chan = some chan then { pr with state := .runnable } else pr

def Proc.kill (pr : Proc) : Proc :=
  { pr with killed := true, state := if pr.state = .sleeping then .runnable else pr.state }

/-- The body of `updateTime` for one process. -/
def Proc.tick (pr : Proc) : Proc :=
  { pr with
    runTime := if pr.state = .running then int32 (pr.runTime + 1) else pr.runTime
    totRunTime := if pr.state = .running then int32 (pr.totRunTime + 1) else pr.totRunTime
    sleepTime := if pr.state = .sleeping then int32 (pr.sleepTime + 1) else pr.sleepTime }

section

variable {κ : Type} [DecidableEq κ]

namespace Data

def setProc (d : Data κ) (p : Slot) (f : Proc → Proc) : Data κ :=
  { d with proc := update d.proc p (f (d.proc p)) }

/-- `allocproc` at `found:` -/
def found (d : Data κ) (np : Slot) : Data κ :=
  { d.setProc np fun pr =>
      { pr with
        pid := d.nextpid, state := .used, creationTime := int32 d.ticks, stTime := 0, statPr := 60, runTime := 0
        sleepTime := 0, numOfScheduled := 0, tickets := 1 } with
    nextpid := int32 (d.nextpid + 1)
    context := update d.context np .forkret }

/-- One step of `wakeup` on a CPU that runs `me`; `wrap` is where the code around it is, `fin` where it goes on. -/
def wakeStep (d : Data κ) (me : Option Slot) (wrap : Wake → Ctl) (fin : Move κ) : Wake → Move κ
  | .scan chan i =>
    if h : i < NPROC then
      if me = some ⟨i, h⟩ then .go (wrap (.scan chan (i + 1))) d else .go (wrap (.at chan ⟨i, h⟩)) d
    else fin
  | .at chan i => .acquire (.proc i) (wrap (.locked chan i))
  | .locked chan i => .release (.proc i) (wrap (.scan chan (i + 1))) (d.setProc i (Proc.wakeup chan))

/-- One step of an interrupt handler; `wrap` is what it has interrupted. -/
def handlerStep (d : Data κ) (c : κ) (wrap : Handler → Ctl) : Handler → Option (Move κ)
  | .none => none
  | .clock => some (.acquire .ticks (wrap .tick))
  | .tick => some (.go (wrap (.update 0)) { d with ticks := (d.ticks + 1) % 2 ^ 32 })
  | .update i =>
    if h : i < NPROC then some (.acquire (.proc ⟨i, h⟩) (wrap (.updateLocked ⟨i, h⟩)))
    else some (.go (wrap (.clockWake (.scan .ticks 0))) d)
  | .updateLocked i => some (.release (.proc i) (wrap (.update (i + 1))) (d.setProc i Proc.tick))
  | .clockWake w =>
    some (d.wakeStep (d.cpuProc c) (fun w => wrap (.clockWake w)) (.release .ticks (wrap .none) d) w)
  | .wake w => some (d.wakeStep (d.cpuProc c) (fun w => wrap (.wake w)) (.go (wrap .none) d) w)

/-- `sched` and `swtch` to the scheduler of this CPU. -/
def swtchBack (d : Data κ) (p : Slot) (r : Resume) : Move κ :=
  .go (.sched (.back p) .none) { d with context := update d.context p r }

/-- The loop over the process table of `kill`, `setPriority` or `allocproc`. -/
def tableStep (d : Data κ) (p : Slot) (i : ℕ) (k : Slot → Base) : Move κ :=
  if h : i < NPROC then .acquire (.proc ⟨i, h⟩) (.thread p (.at (k ⟨i, h⟩) .none))
  else .go (.thread p (.at .user .none)) d

/-- One step of the system call that `p` is in. -/
def baseStep (d : Data κ) (p : Slot) (r : Cpus.Alloc) (k : Base) : Option (Move κ) :=
  let at' (k : Base) : Ctl := .thread p (.at k .none)
  match k with
  | .user => none
  | .wakeup w => some (d.wakeStep (some p) (fun w => at' (.wakeup w)) (.go (at' .user) d) w)
  | .alloc i => some (d.tableStep p i .allocLocked)
  | .allocLocked i =>
    if (d.proc i).state = .unused then some (.go (at' (.fork i)) (d.found i))
    else some (.release (.proc i) (at' (.alloc (i + 1))) d)
  | .fork np =>
    match r with
    | .ok => some (.release (.proc np) (at' (.forkLink np)) d)
    | .noMemory => some (.release (.proc np) (at' .user) (d.setProc np Proc.free))
    | .noCopy => some (.release (.proc np) (at' .user) d)
  | .forkLink np => some (.acquire .wait (at' (.forkLinked np)))
  | .forkLinked np =>
    some (.release .wait (at' (.forkRun np)) (d.setProc np fun pr => { pr with parent := some p }))
  | .forkRun np => some (.acquire (.proc np) (at' (.forkRunLocked np)))
  | .forkRunLocked np =>
    some (.release (.proc np) (at' .user) (d.setProc np fun pr => { pr with state := .runnable }))
  | .kill pid i => some (d.tableStep p i (.killLocked pid))
  | .killLocked pid i =>
    if (d.proc i).pid = pid then some (.release (.proc i) (at' .user) (d.setProc i Proc.kill))
    else some (.release (.proc i) (at' (.kill pid (i + 1))) d)
  | .setPriority priority pid i => some (d.tableStep p i (.setPriorityLocked priority pid))
  | .setPriorityLocked priority pid i =>
    if (d.proc i).pid = pid then
      some (.release (.proc i)
        (if (d.proc i).statPr > priority then .thread p (.yieldAt .user) else at' .user)
        (d.setProc i fun pr => { pr with statPr := priority, runTime := 0, sleepTime := 0 }))
    else some (.release (.proc i) (at' (.setPriority priority pid (i + 1))) d)
  | .self set => some (.acquire (.proc p) (at' (.selfLocked set)))
  | .selfLocked set =>
    some (.release (.proc p) (at' .user) (if set then d.setProc p fun pr => { pr with killed := true } else d))
  | .wait x => some (.acquire .wait (at' (.waitScan x 0 false)))
  | .waitScan x i havekids =>
    if h : i < NPROC then
      if (d.proc ⟨i, h⟩).parent = some p then some (.go (at' (.waitAt x ⟨i, h⟩)) d)
      else some (.go (at' (.waitScan x (i + 1) havekids)) d)
    else if havekids = false then some (.go (at' .waitReturn) d)
    else if x then
      -- `waitx` reads `p->killed` without the lock
      if (d.proc p).killed then some (.go (at' .waitReturn) d) else some (.go (at' (.sleepAt (.wait true))) d)
    else some (.go (at' .waitKilled) d)
  | .waitAt x i => some (.acquire (.proc i) (at' (.waitLocked x i)))
  | .waitLocked x i =>
    if (d.proc i).state = .zombie then
      some (.release (.proc i) (at' .waitReturn) (if r = .ok then d.setProc i Proc.free else d))
    else some (.release (.proc i) (at' (.waitScan x (i + 1) true)) d)
  | .waitKilled => some (.acquire (.proc p) (at' .waitKilledLocked))
  | .waitKilledLocked =>
    some (.release (.proc p) (at' (if (d.proc p).killed then .waitReturn else .sleepAt (.wait false))) d)
  | .waitReturn => some (.release .wait (at' .user) d)
  | .exit => some (.acquire .wait (at' (.reparent 0)))
  | .reparent i =>
    if h : i < NPROC then
      if (d.proc ⟨i, h⟩).parent = some p then
        some (.go (at' (.reparentWake (i + 1) (.scan (.proc initproc) 0)))
          (d.setProc ⟨i, h⟩ fun pr => { pr with parent := some initproc }))
      else some (.go (at' (.reparent (i + 1))) d)
    else some (.go (at' (.exitWake (.scan (match (d.proc p).parent with
      | some q => .proc q
      | none => .other 0) 0))) d)
  | .reparentWake i w =>
    some (d.wakeStep (some p) (fun w => at' (.reparentWake i w)) (.go (at' (.reparent i)) d) w)
  | .exitWake w => some (d.wakeStep (some p) (fun w => at' (.exitWake w)) (.go (at' .exitAt) d) w)
  | .exitAt => some (.acquire (.proc p) (at' .exitLocked))
  | .exitLocked => some (.release .wait (at' .exitFree) (d.setProc p fun pr => { pr with state := .zombie }))
  | .exitFree => some (d.swtchBack p .exited)
  | .sysSleep n => some (.acquire .ticks (at' (.ticksLoop n d.ticks)))
  | .ticksLoop n ticks0 =>
    if uint32 ((d.ticks : ℤ) - ticks0) < uint32 n then some (.go (at' (.ticksKilled n ticks0)) d)
    else some (.go (at' .ticksReturn) d)
  | .ticksKilled n ticks0 => some (.acquire (.proc p) (at' (.ticksKilledLocked n ticks0)))
  | .ticksKilledLocked n ticks0 =>
    some (.release (.proc p) (at' (if (d.proc p).killed then .ticksReturn else .sleepAt (.ticks n ticks0))) d)
  | .ticksReturn => some (.release .ticks (at' .user) d)
  | .sleepAt k => some (.acquire (.proc p) (at' (.sleepLocked k)))
  | .sleepLocked k =>
    match k.lk with
    | none => some (.go (at' (.sleepFree k)) d)
    | some l => some (.release l (at' (.sleepFree k)) d)
  | .sleepFree k =>
    some ((d.setProc p fun pr => { pr with chan := some (k.chan p), state := .sleeping }).swtchBack p (.slept k))
  | .sleepEnd k =>
    match k with
    | .wait x => some (.acquire .wait (at' (.waitScan x 0 false)))
    | .ticks n ticks0 => some (.acquire .ticks (at' (.ticksLoop n ticks0)))
    | .other _ => some (.go (at' .user) d)

/-- Behind `swtch`: `yield`, `sleep` and `forkret` release the lock of the process, and a zombie would stay here in
`panic`. -/
def resumedStep (d : Data κ) (p : Slot) : Resume → Option (Move κ)
  | .forkret => some (.release (.proc p) (.thread p (.at .user .none)) d)
  | .yielded k => some (.release (.proc p) (.thread p (.at k .none)) d)
  | .slept k =>
    some (.release (.proc p) (.thread p (.at (.sleepEnd k) .none)) (d.setProc p fun pr => { pr with chan := none }))
  | .exited => none

def callStep (d : Data κ) (p : Slot) (f : Call) : Option (Move κ) :=
  let at' (k : Base) : Ctl := .thread p (.at k .none)
  match f with
  | .fork => some (.go (at' (.alloc 0)) d)
  | .kill pid => some (.go (at' (.kill pid 0)) d)
  | .setPriority priority pid => some (.go (at' (.setPriority priority pid 0)) d)
  | .settickets n => some (.go (at' .user) (d.setProc p fun pr => { pr with tickets := n }))
  | .wait x => some (.go (at' (.wait x)) d)
  | .exit => if p = initproc then none else some (.go (at' .exit) d)
  | .sysSleep n => some (.go (at' (.sysSleep n)) d)
  | .sleep chan => some (.go (at' (.sleepAt (.other chan))) d)
  | .wakeup chan => some (.go (at' (.wakeup (.scan (.other chan) 0))) d)
  | .killed set => some (.go (at' (.self set)) d)

/-- Interrupts and `yield` come where no spinlock is held. -/
def threadStep (d : Data κ) (c : κ) (p : Slot) : Pc → Act → Option (Move κ)
  | .at k .none, .next r _ => d.baseStep p r k
  | .at .user .none, .call f => d.callStep p f
  | .at k .none, .yield => if k.held p = [] then some (.go (.thread p (.yieldAt k)) d) else none
  | .at k .none, .clockintr => if k.held p = [] then some (.go (.thread p (.at k .clock)) d) else none
  | .at k .none, .devintr chan =>
    if k.held p = [] then some (.go (.thread p (.at k (.wake (.scan (.other chan) 0)))) d) else none
  | .at k h, .next _ _ => d.handlerStep c (fun h => .thread p (.at k h)) h
  | .yieldAt k, .next _ _ => some (.acquire (.proc p) (.thread p (.yieldLocked k)))
  | .yieldLocked k, .next _ _ =>
    some ((d.setProc p fun pr => { pr with state := .runnable }).swtchBack p (.yielded k))
  | .resumed r, .next _ _ => d.resumedStep p r
  | _, _ => none

/-! ### The scheduler -/

/-- `state = RUNNING; c->proc = p; swtch(&c->context, &p->context)`, after `f` has been done to `p`. FCFS also counts
up a word behind the process table. -/
def choose (d : Data κ) (c : κ) (p : Slot) (f : Xv6.Proc → Xv6.Proc) : Move κ :=
  .go (.thread p (.resumed (d.context p)))
    { d.setProc p fun pr => { pr with toProc := { f pr.toProc with state := .running } } with
      cpuProc := update d.cpuProc c (some p) }

/-- `dynamic_pr == processDp && p->numOfScheduled < process->numOfScheduled`; `none` if `process` is null where it
is dereferenced. -/
def pbsCond1 (d : Data κ) (i : Slot) (process : Option Slot) (dp : ℤ) : Option Bool :=
  if dp = dynamicPr (d.proc i).toProc then
    process.map fun b => decide ((d.proc i).numOfScheduled < (d.proc b).numOfScheduled)
  else some false

/-- `check_cond_1 && (p->creationTime < process->creationTime)` -/
def pbsCond2 (d : Data κ) (i : Slot) (process : Option Slot) (cond1 : Bool) : Option Bool :=
  if cond1 then process.map fun b => decide ((d.proc i).creationTime < (d.proc b).creationTime) else some false

/-- The scan keeps `i` as its candidate and releases the lock of the old one. -/
def keep (d : Data κ) (best : Option Slot) (pc : SchedPc) : Move κ :=
  match best with
  | none => .go (.sched pc .none) d
  | some b => .release (.proc b) (.sched pc .none) d

/-- The loop over the process table of a scheduler, with its end. -/
def scanStep (i : ℕ) (k : Slot → SchedPc) (fin : Move κ) : Move κ :=
  if h : i < NPROC then .acquire (.proc ⟨i, h⟩) (.sched (k ⟨i, h⟩) .none) else fin

def schedNext (b : Policy) (d : Data κ) (c : κ) (rand : ℤ) (pc : SchedPc) : Move κ :=
  let again : Move κ := .go (.sched (Cpus.State.top b) .none) d
  match pc with
  | .rr i => scanStep i .rrLocked again
  | .rrLocked i =>
    if (d.proc i).state = .runnable then d.choose c i id else .release (.proc i) (.sched (.rr (i + 1)) .none) d
  | .fcfs i best => scanStep i (.fcfsLocked · best) (match best with
    | none => again
    | some p => d.choose c p id)
  | .fcfsLocked i best =>
    if (d.proc i).state = .runnable ∧ ∀ b, best = some b → (d.proc i).creationTime < (d.proc b).creationTime then
      d.keep best (.fcfs (i + 1) (some i))
    else .release (.proc i) (.sched (.fcfs (i + 1) best) .none) d
  | .pbs i best dp => scanStep i (.pbsLocked · best dp) (match best with
    | none => again
    | some p => d.choose c p fun pr => { Cpus.State.pbsChosen pr with stTime := int32 d.ticks })
  | .pbsLocked i best dp =>
    match d.pbsCond1 i best dp with
    | none => .crash "kerneltrap"
    | some cond1 =>
      match d.pbsCond2 i best cond1 with
      | none => .crash "kerneltrap"
      | some cond2 =>
        let dp' := dynamicPr (d.proc i).toProc
        if (d.proc i).state = .runnable ∧ (best = none ∨ dp > dp' ∨ cond1 ∨ cond2) then
          d.keep best (.pbs (i + 1) (some i) dp')
        else .release (.proc i) (.sched (.pbs (i + 1) best dp) .none) d
  | .lbsCount i tot =>
    if h : i < NPROC then
      .go (.sched (.lbsCount (i + 1) (if (d.proc ⟨i, h⟩).state = .runnable then
        int32 (tot + (d.proc ⟨i, h⟩).tickets) else tot)) .none) d
    else .go (.sched (.lbs 0 rand 0) .none) d
  | .lbs i ans passed => scanStep i (.lbsLocked · ans passed) again
  | .lbsLocked i ans passed =>
    if (d.proc i).state = .runnable then
      if int32 (passed + (d.proc i).tickets) > ans then d.choose c i id
      else .release (.proc i) (.sched (.lbs (i + 1) ans (int32 (passed + (d.proc i).tickets))) .none) d
    else .release (.proc i) (.sched (.lbs (i + 1) ans passed) .none) d
  | .back p =>
    .release (.proc p) (.sched (if b = .rr then .rr (p + 1) else Cpus.State.top b) .none)
      { d with cpuProc := update d.cpuProc c none }

def schedStep (b : Policy) (d : Data κ) (c : κ) (pc : SchedPc) : Handler → Act → Option (Move κ)
  | .none, .next _ rand => some (d.schedNext b c rand pc)
  | .none, .clockintr => if pc.locks = [] then some (.go (.sched pc .clock) d) else none
  | .none, .devintr chan => if pc.locks = [] then some (.go (.sched pc (.wake (.scan (.other chan) 0))) d) else none
  | h, .next _ _ => d.handlerStep c (.sched pc) h
  | _, _ => none

def ctlStep (b : Policy) (d : Data κ) (c : κ) : Ctl → Act → Option (Move κ)
  | .sched pc h, a => d.schedStep b c pc h a
  | .thread p pc, a => d.threadStep c p pc a

end Data

/-- The last two fields count how often a lock was acquired and released. -/
structure State (κ : Type) where
  data : Data κ
  ctl : κ → Ctl
  lock : Lk → Option κ
  panicked : Option String
  acquires : Lk → ℕ
  releases : Lk → ℕ

namespace State

/-- `acquire` panics when the CPU has the lock, and spins while another one has it; `release` panics when the CPU
does not have the lock. -/
def perform (s : State κ) (c : κ) : Move κ → Option (State κ)
  | .acquire l a =>
    match s.lock l with
    | none => some { s with
        ctl := update s.ctl c a
        lock := update s.lock l (some c)
        acquires := update s.acquires l (s.acquires l + 1) }
    | some c' => if c' = c then some { s with panicked := some "acquire" } else none
  | .release l a d =>
    if s.lock l = some c then some { s with
      data := d
      ctl := update s.ctl c a
      lock := update s.lock l none
      releases := update s.releases l (s.releases l + 1) }
    else some { s with panicked := some "release" }
  | .go a d => some { s with data := d, ctl := update s.ctl c a }
  | .crash reason => some { s with panicked := some reason }

def step (b : Policy) (s : State κ) (e : κ × Act) : Option (State κ) :=
  if s.panicked.isSome then none else (s.data.ctlStep b e.1 (s.ctl e.1) e.2).bind fun m => s.perform e.1 m

/-- After `userinit`, when every CPU has called `scheduler`. -/
def init (b : Policy) : State κ where
  data :=
    { proc := update (fun _ => ⟨Xv6.Proc.zero, none, none⟩) initproc
        ⟨{ Xv6.Proc.zero with state := .runnable, pid := 1, statPr := 60, tickets := 1 }, none, none⟩
      context := fun _ => .forkret
      cpuProc := fun _ => none
      ticks := 0
      nextpid := 2 }
  ctl := fun _ => .sched (Cpus.State.top b) .none
  lock := fun _ => none
  panicked := none
  acquires := fun _ => 0
  releases := fun _ => 0

def run (b : Policy) (es : List (κ × Act)) : Option (State κ) := System.exec (step b) (init b) es

/-- `c` spins on a lock that `c'` holds. -/
def WaitsFor (s : State κ) (c c' : κ) : Prop := ∃ l, (s.ctl c).wants = some l ∧ s.lock l = some c'

/-- No null candidate is dereferenced and no `acquire` or `release` panics; every lock is released once for each time
it is acquired, and a scheduler that begins a new pass has none; no CPU wants a lock it has, and nobody waits in a
circle. -/
structure Safe (b : Policy) (s : State κ) : Prop where
  sane : s.panicked = none
  once : ∀ l, s.acquires l = s.releases l + if (s.lock l).isSome then 1 else 0
  top : ∀ c, s.ctl c = .sched (Cpus.State.top b) .none → ∀ l, s.lock l ≠ some c
  other : ∀ c, ¬s.WaitsFor c c
  acyclic : ∀ c, ¬Relation.TransGen s.WaitsFor c c

end State

end

end Xv6.Spin
