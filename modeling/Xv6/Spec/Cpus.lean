import Xv6.Spec.Sched

/-! Kernel threads on several CPUs: `swtch`, the scheduler loops of the RR, FCFS, PBS and
LBS builds, and `yield`, `sleep`, `wakeup`, `kill`, `fork`, `exit` and `wait` of
`kernel/proc.c`, interleaved at lock granularity. Every `acquire` is a step of its own.

A spinlock belongs to a CPU. The lock of a process that is switched to or from goes from
the scheduler to the thread and back without being released. Kernel code is any sequence
of the operations below that respects the locks, so that `wait` and `exit` are among it:
`wait_lock` is taken, children are looked at, `wakeup` is called, and so on.

`α` are the sleep channels of conditions that are protected by a spinlock, `β` the
spinlocks, `κ` the CPUs. -/

namespace Xv6.Cpus

open Function

/-- The schedulers that scan the process table. -/
inductive Policy where
  | rr
  | fcfs
  | pbs
  | lbs
  deriving DecidableEq

inductive Chan (α : Type) where
  /-- the `struct proc` that `wait` sleeps on -/
  | proc (q : Slot)
  /-- a channel on which one sleeps until a condition holds -/
  | cond (y : α)
  | other (n : ℕ)
  deriving DecidableEq

inductive Lk (β : Type) where
  | waitLock
  | spin (l : β)
  deriving DecidableEq

structure Proc (α : Type) extends Xv6.Proc where
  chan : Option (Chan α)
  parent : Option Slot

/-- Where a call of `wakeup` is. -/
inductive Code (α : Type) where
  | idle
  | scan (chan : Chan α) (i : ℕ)
  /-- `proc[i].lock` is held -/
  | locked (chan : Chan α) (i : Slot)
  deriving DecidableEq

/-- Kernel code between two points without spinlocks: the spinlocks it holds, and the
conditions it has made true without having called `wakeup` since. -/
structure Ctx (α β : Type) where
  code : Code α
  held : List (Lk β)
  owed : List α
  deriving DecidableEq

def Ctx.empty {α β : Type} : Ctx α β := ⟨.idle, [], []⟩

/-- A call of `wakeup` that was interrupted, if any. -/
def Ctx.ofScan {α β : Type} : Option (Chan α × ℕ) → Ctx α β
  | none => .empty
  | some (chan, i) => ⟨.scan chan i, [], []⟩

/-- What is left to do of kernel code that holds no spinlock. -/
def Ctx.suspend {α β : Type} : Ctx α β → Option (Option (Chan α × ℕ))
  | ⟨.idle, [], []⟩ => some none
  | ⟨.scan chan i, [], []⟩ => some (some (chan, i))
  | _ => none

/-- Points of a thread at which no spinlock is held. -/
inductive Base (β : Type) where
  /-- in user mode, or anywhere else in the kernel -/
  | user
  | fork (i : ℕ)
  | forkLink (np : Slot)
  | forkRun (np : Slot)
  /-- at the end of `sleep`, before `acquire(lk)` -/
  | sleepEnd (lk : Lk β)
  deriving DecidableEq

/-- What `p->context` says: where a thread goes on when it is switched to. -/
inductive Resume (α β : Type) where
  | forkret
  /-- in `yield`, behind `sched` -/
  | yielded (k : Base β) (w : Option (Chan α × ℕ))
  /-- in `sleep`, behind `sched` -/
  | slept (lk : Lk β)
  deriving DecidableEq

/-- How the allocations of `allocproc` and `fork` end: `noMemory` for those after which
`freeproc` is called, `noCopy` for the one that leaves the slot USED. -/
inductive Alloc where
  | ok
  | noMemory
  | noCopy
  deriving DecidableEq

/-- What a thread does to a process whose lock it has taken. -/
inductive LockedOp where
  | kill (pid : ℤ)
  | alloc (i : ℕ)
  | start
  | reap
  deriving DecidableEq

/-- Where the thread that a CPU runs is. -/
inductive Pc (α β : Type) where
  | base (k : Base β) (x : Ctx α β)
  | locked (o : LockedOp) (q : Slot) (held : List (Lk β)) (owed : List α)
  | yieldLocked (k : Base β) (w : Option (Chan α × ℕ))
  /-- just switched to, with `p->lock` held -/
  | resumed (r : Resume α β)
  /-- in `sleep`, with both locks held -/
  | sleepLocked (chan : Chan α) (lk : Lk β)
  /-- in `sleep`, behind `release(lk)` -/
  | sleepFree (chan : Chan α) (lk : Lk β)
  /-- `sleep` has returned -/
  | awake (lk : Lk β)
  | exitLocked
  deriving DecidableEq

/-- Where a scheduler is; `best` is the candidate, whose lock is kept. -/
inductive SchedPc where
  | rr (i : ℕ)
  | rrLocked (i : Slot)
  | fcfs (i : ℕ) (best : Option Slot)
  | fcfsLocked (i : Slot) (best : Option Slot)
  | pbs (i : ℕ) (best : Option Slot) (dynamicPr : ℤ)
  | pbsLocked (i : Slot) (best : Option Slot) (dynamicPr : ℤ)
  | lbsCount (i : ℕ) (totTickets : ℤ)
  | lbs (i : ℕ) (ans passed : ℤ)
  | lbsLocked (i : Slot) (ans passed : ℤ)
  /-- behind `swtch`, back from `p` -/
  | back (p : Slot)
  deriving DecidableEq

/-- What a CPU does: it is in `scheduler`, perhaps in an interrupt handler, or it runs the
thread of a process. -/
inductive Ctl (α β : Type) where
  | sched (pc : SchedPc) (x : Ctx α β)
  | thread (p : Slot) (pc : Pc α β)
  deriving DecidableEq

structure State (κ α β : Type) where
  proc : Slot → Proc α
  /-- `p->context`, while it is not live on a CPU -/
  context : Slot → Option (Resume α β)
  ctl : κ → Ctl α β
  /-- `c->proc` -/
  cpuProc : κ → Option Slot
  lock : Slot → Option κ
  spin : Lk β → Option κ
  cond : α → Bool
  nextpid : ℤ

/-- Steps inside kernel code or an interrupt handler. -/
inductive CtxAct (α β : Type) where
  | acquire (lk : Lk β)
  | release (lk : Lk β)
  /-- the data that the lock protects is changed, and with it the condition -/
  | set (y : α) (b : Bool)
  | wakeup (chan : Chan α)
  | go

inductive Act (α β : Type) where
  | ctx (a : CtxAct α β)
  /-- the next step of the code the CPU is in; `rand` is what `getrand` returns, which
  reads and writes `seed` without a lock -/
  | go (alloc : Alloc) (rand : ℤ)
  /-- `yield`, mostly from a timer interrupt -/
  | yield
  | sleep (chan : Chan α) (lk : Lk β)
  | fork
  /-- one round of the loop of `kill` -/
  | kill (q : Slot) (pid : ℤ)
  /-- one round of the loop of `wait` -/
  | reap (q : Slot)
  /-- one round of the loop of `reparent` -/
  | reparent (q : Slot)
  | exit
  /-- `clockintr`, `setPriority`, `settickets` or `setkilled` changes what schedulers look at -/
  | data (q : Slot) (d : Xv6.Proc)

def initproc : Slot := 0

def freeproc {α : Type} (pr : Proc α) : Proc α :=
  { pr with pid := 0, parent := none, chan := none, killed := false, state := .unused }

section

variable {κ α β : Type} [DecidableEq κ] [DecidableEq α] [DecidableEq β]

/-- The body of `wakeup` for one process. -/
def Proc.wakeup (chan : Chan α) (pr : Proc α) : Proc α :=
  if pr.state = .sleeping ∧ pr.chan = some chan then { pr with state := .runnable } else pr

/-- The body of `kill` for one process. -/
def Proc.kill (pid : ℤ) (pr : Proc α) : Proc α :=
  if pr.pid = pid then { pr with killed := true, state := if pr.state = .sleeping then .runnable else pr.state }
  else pr

namespace State

def setProc (s : State κ α β) (p : Slot) (f : Proc α → Proc α) : State κ α β :=
  { s with proc := update s.proc p (f (s.proc p)) }

def setContext (s : State κ α β) (p : Slot) (r : Option (Resume α β)) : State κ α β :=
  { s with context := update s.context p r }

def setCtl (s : State κ α β) (c : κ) (a : Ctl α β) : State κ α β := { s with ctl := update s.ctl c a }

def setCpuProc (s : State κ α β) (c : κ) (p : Option Slot) : State κ α β :=
  { s with cpuProc := update s.cpuProc c p }

def setLock (s : State κ α β) (p : Slot) (c : Option κ) : State κ α β :=
  { s with lock := update s.lock p c }

def setSpin (s : State κ α β) (lk : Lk β) (c : Option κ) : State κ α β :=
  { s with spin := update s.spin lk c }

def setCond (s : State κ α β) (y : α) (b : Bool) : State κ α β := { s with cond := update s.cond y b }

/-! ### Kernel code -/

variable (lockOf : α → Lk β)

/-- A condition is changed only with its lock held, and the lock is not dropped before
`wakeup` was called for a condition made true. -/
def ctxStep (s : State κ α β) (c : κ) (x : Ctx α β) : CtxAct α β → Option (State κ α β × Ctx α β)
  | .acquire lk =>
    if x.code = .idle ∧ s.spin lk = none then some (s.setSpin lk (some c), { x with held := lk :: x.held }) else none
  | .release lk =>
    if x.code = .idle ∧ lk ∈ x.held ∧ ∀ y ∈ x.owed, lockOf y ≠ lk then
      some (s.setSpin lk none, { x with held := x.held.filter (· ≠ lk) })
    else none
  | .set y b =>
    if x.code = .idle ∧ lockOf y ∈ x.held then
      some (s.setCond y b, { x with owed := if b then (if s.cond y then x.owed else y :: x.owed) else x.owed.filter (· ≠ y) })
    else none
  | .wakeup chan => if x.code = .idle then some (s, { x with code := .scan chan 0 }) else none
  | .go =>
    match x.code with
    | .idle => none
    | .scan chan i =>
      if h : i < NPROC then
        -- `if(p != myproc())`
        if s.cpuProc c = some ⟨i, h⟩ then some (s, { x with code := .scan chan (i + 1) })
        else if s.lock ⟨i, h⟩ = none then
          some (s.setLock ⟨i, h⟩ (some c), { x with code := .locked chan ⟨i, h⟩ })
        else none
      else some (s, { x with code := .idle, owed := x.owed.filter fun y => .cond y ≠ chan })
    | .locked chan i =>
      some ((s.setProc i (Proc.wakeup chan)).setLock i none, { x with code := .scan chan (i + 1) })

/-! ### Threads -/

/-- `sched` and `swtch` to the scheduler of this CPU. -/
def swtchBack (s : State κ α β) (c : κ) (p : Slot) (r : Option (Resume α β)) : State κ α β :=
  (s.setContext p r).setCtl c (.sched (.back p) .empty)

/-- The next step at a point without spinlocks. -/
def baseGo (s : State κ α β) (c : κ) (p : Slot) : Base β → Option (State κ α β)
  | .user => none
  | .fork i =>
    if h : i < NPROC then
      if s.lock ⟨i, h⟩ = none then
        some ((s.setLock ⟨i, h⟩ (some c)).setCtl c (.thread p (.locked (.alloc i) ⟨i, h⟩ [] [])))
      else none
    else some (s.setCtl c (.thread p (.base .user .empty)))
  | .forkLink np =>
    if s.spin .waitLock = none then
      some ((s.setProc np fun pr => { pr with parent := some p }).setCtl c (.thread p (.base (.forkRun np) .empty)))
    else none
  | .forkRun np =>
    if s.lock np = none then
      some ((s.setLock np (some c)).setCtl c (.thread p (.locked .start np [] [])))
    else none
  | .sleepEnd lk =>
    if s.spin lk = none then some ((s.setSpin lk (some c)).setCtl c (.thread p (.awake lk))) else none

/-- `allocproc` from `found:` to the `release(&np->lock)` of `fork`. -/
def found (s : State κ α β) (c : κ) (p np : Slot) (x : Ctx α β) : Alloc → State κ α β
  | .ok =>
    ((({ s with nextpid := int32 (s.nextpid + 1) }.setProc np fun pr =>
      { pr with pid := s.nextpid, state := .used }).setContext np (some .forkret)).setLock np none).setCtl c
        (.thread p (.base (.forkLink np) x))
  | .noMemory =>
    (({ s with nextpid := int32 (s.nextpid + 1) }.setProc np freeproc).setLock np none).setCtl c
      (.thread p (.base .user x))
  | .noCopy =>
    (({ s with nextpid := int32 (s.nextpid + 1) }.setProc np fun pr =>
      { pr with pid := s.nextpid, state := .used }).setLock np none).setCtl c (.thread p (.base .user x))

/-- What is done to `q` under its lock, up to the `release`. -/
def lockedGo (s : State κ α β) (c : κ) (p q : Slot) (x : Ctx α β) (r : Alloc) : LockedOp → State κ α β
  | .kill pid => ((s.setProc q (Proc.kill pid)).setLock q none).setCtl c (.thread p (.base .user x))
  | .alloc i =>
    if (s.proc q).state = .unused then s.found c p q x r
    else (s.setLock q none).setCtl c (.thread p (.base (.fork (i + 1)) x))
  | .start =>
    ((s.setProc q fun pr => { pr with state := .runnable }).setLock q none).setCtl c (.thread p (.base .user x))
  | .reap =>
    -- unless `copyout` fails
    if (s.proc q).state = .zombie ∧ r = .ok then
      ((s.setProc q freeproc).setLock q none).setCtl c (.thread p (.base .user x))
    else (s.setLock q none).setCtl c (.thread p (.base .user x))

/-- Behind `swtch`: `yield`, `sleep` and `forkret` release the lock of the process. -/
def resumedGo (s : State κ α β) (c : κ) (p : Slot) : Resume α β → State κ α β
  | .forkret => (s.setLock p none).setCtl c (.thread p (.base .user .empty))
  | .yielded k w => (s.setLock p none).setCtl c (.thread p (.base k (.ofScan w)))
  | .slept lk =>
    ((s.setProc p fun pr => { pr with chan := none }).setLock p none).setCtl c (.thread p (.base (.sleepEnd lk) .empty))

/-- A thread takes the lock of `q` for what it is going to do to `q`. -/
def lockFor (s : State κ α β) (c : κ) (p q : Slot) (pc : Pc α β) : Option (State κ α β) :=
  if s.lock q = none then some ((s.setLock q (some c)).setCtl c (.thread p pc)) else none

/-- One waits for a condition with its lock held and after it was found false. -/
def mayWait (s : State κ α β) (lk : Lk β) : Chan α → Bool
  | .cond y => decide (lk = lockOf y ∧ s.cond y = false)
  | _ => true

/-- `sched` panics if more locks are held than `sleep` or `exit` expect. -/
def threadStep (s : State κ α β) (c : κ) (p : Slot) : Pc α β → Act α β → Option (State κ α β)
  | .base k x, .ctx a => (s.ctxStep lockOf c x a).map fun t => t.1.setCtl c (.thread p (.base k t.2))
  | .base k x, .go _ _ => if x = .empty then s.baseGo c p k else none
  | .base k x, .yield => x.suspend.bind fun w => s.lockFor c p p (.yieldLocked k w)
  | .base .user x, .sleep chan lk =>
    if x = ⟨.idle, [lk], []⟩ ∧ s.mayWait lockOf lk chan then
      s.lockFor c p p (.sleepLocked chan lk)
    else none
  | .base .user x, .fork => if x = .empty then some (s.setCtl c (.thread p (.base (.fork 0) .empty))) else none
  | .base .user x, .kill q pid => if x = .empty then s.lockFor c p q (.locked (.kill pid) q [] []) else none
  | .base .user x, .reap q =>
    if x.code = .idle ∧ .waitLock ∈ x.held ∧ (s.proc q).parent = some p then s.lockFor c p q (.locked .reap q x.held x.owed)
    else none
  | .base .user x, .reparent q =>
    if x.code = .idle ∧ .waitLock ∈ x.held ∧ (s.proc q).parent = some p then
      some (s.setProc q fun pr => { pr with parent := some initproc })
    else none
  | .base .user x, .exit =>
    if x = ⟨.idle, [.waitLock], []⟩ ∧ p ≠ initproc then s.lockFor c p p .exitLocked else none
  | .locked o q held owed, .go r _ => some (s.lockedGo c p q ⟨.idle, held, owed⟩ r o)
  | .yieldLocked k w, .go _ _ =>
    some ((s.setProc p fun pr => { pr with state := .runnable }).swtchBack c p (some (.yielded k w)))
  | .resumed r, .go _ _ => some (s.resumedGo c p r)
  | .sleepLocked chan lk, .go _ _ => some ((s.setSpin lk none).setCtl c (.thread p (.sleepFree chan lk)))
  | .sleepFree chan lk, .go _ _ =>
    some ((s.setProc p fun pr => { pr with chan := some chan, state := .sleeping }).swtchBack c p (some (.slept lk)))
  | .awake lk, .go _ _ => some (s.setCtl c (.thread p (.base .user ⟨.idle, [lk], []⟩)))
  | .exitLocked, .go _ _ =>
    some (((s.setProc p fun pr => { pr with state := .zombie }).setSpin .waitLock none).swtchBack c p none)
  | _, _ => none

/-! ### The scheduler -/

/-- The top of the loop in `scheduler`. -/
def top : Policy → SchedPc
  | .rr => .rr 0
  | .fcfs => .fcfs 0 none
  | .pbs => .pbs 0 none 999
  | .lbs => .lbsCount 0 0

/-- `state = RUNNING; c->proc = p; swtch(&c->context, &p->context)`, after `f` has been
done to `p`. FCFS also counts up a word behind the process table. -/
def choose (s : State κ α β) (c : κ) (p : Slot) (f : Xv6.Proc → Xv6.Proc) : Option (State κ α β) :=
  (s.context p).map fun r =>
    (((s.setProc p fun pr => { pr with toProc := { f pr.toProc with state := .running } }).setCpuProc c
      (some p)).setContext p none).setCtl c (.thread p (.resumed r))

/-- What PBS does to the chosen process, apart from `st_time`. -/
def pbsChosen (pr : Xv6.Proc) : Xv6.Proc :=
  { pr with runTime := 0, sleepTime := 0, numOfScheduled := int32 (pr.numOfScheduled + 1) }

/-- `acquire(&p->lock)` of the scan. -/
def schedLock (s : State κ α β) (c : κ) (q : Slot) (pc : SchedPc) : Option (State κ α β) :=
  if s.lock q = none then some ((s.setLock q (some c)).setCtl c (.sched pc .empty)) else none

def schedUnlock (s : State κ α β) (c : κ) (q : Slot) (pc : SchedPc) : State κ α β :=
  (s.setLock q none).setCtl c (.sched pc .empty)

/-- The scan keeps `i` as its candidate and drops the lock of the old one. -/
def schedKeep (s : State κ α β) (c : κ) (best : Option Slot) (pc : SchedPc) : State κ α β :=
  match best with
  | none => s.setCtl c (.sched pc .empty)
  | some b => s.schedUnlock c b pc

/-- The conditions of PBS for a new candidate. `process->...` is read only if
`dynamic_pr` matches, which it does not before there is a candidate. -/
def pbsBetter (s : State κ α β) (i : Slot) (best : Option Slot) (dp : ℤ) : Bool :=
  match best with
  | none => true
  | some b =>
    let pr := s.proc i
    let cond1 := decide (dp = dynamicPr pr.toProc ∧ pr.numOfScheduled < (s.proc b).numOfScheduled)
    decide (dp > dynamicPr pr.toProc) || cond1 || (cond1 && decide (pr.creationTime < (s.proc b).creationTime))

def fcfsBetter (s : State κ α β) (i : Slot) (best : Option Slot) : Bool :=
  match best with
  | none => true
  | some b => decide ((s.proc i).creationTime < (s.proc b).creationTime)

/-- The end of the scan of FCFS or PBS. -/
def schedEnd (b : Policy) (s : State κ α β) (c : κ) (best : Option Slot) (f : Xv6.Proc → Xv6.Proc) :
    Option (State κ α β) :=
  match best with
  | none => some (s.setCtl c (.sched (top b) .empty))
  | some p => s.choose c p f

def schedGo (b : Policy) (s : State κ α β) (c : κ) (rand : ℤ) : SchedPc → Option (State κ α β)
  | .rr i =>
    if h : i < NPROC then s.schedLock c ⟨i, h⟩ (.rrLocked ⟨i, h⟩) else some (s.setCtl c (.sched (top b) .empty))
  | .rrLocked i =>
    if (s.proc i).state = .runnable then s.choose c i id else some (s.schedUnlock c i (.rr (i + 1)))
  | .fcfs i best =>
    if h : i < NPROC then s.schedLock c ⟨i, h⟩ (.fcfsLocked ⟨i, h⟩ best) else s.schedEnd b c best id
  | .fcfsLocked i best =>
    if (s.proc i).state = .runnable ∧ s.fcfsBetter i best then some (s.schedKeep c best (.fcfs (i + 1) (some i)))
    else some (s.schedUnlock c i (.fcfs (i + 1) best))
  | .pbs i best dp =>
    if h : i < NPROC then s.schedLock c ⟨i, h⟩ (.pbsLocked ⟨i, h⟩ best dp) else s.schedEnd b c best pbsChosen
  | .pbsLocked i best dp =>
    if (s.proc i).state = .runnable ∧ s.pbsBetter i best dp then
      some (s.schedKeep c best (.pbs (i + 1) (some i) (dynamicPr (s.proc i).toProc)))
    else some (s.schedUnlock c i (.pbs (i + 1) best dp))
  | .lbsCount i tot =>
    if h : i < NPROC then
      some (s.setCtl c (.sched (.lbsCount (i + 1) (if (s.proc ⟨i, h⟩).state = .runnable then
        int32 (tot + (s.proc ⟨i, h⟩).tickets) else tot)) .empty))
    else some (s.setCtl c (.sched (.lbs 0 rand 0) .empty))
  | .lbs i ans passed =>
    if h : i < NPROC then s.schedLock c ⟨i, h⟩ (.lbsLocked ⟨i, h⟩ ans passed)
    else some (s.setCtl c (.sched (top b) .empty))
  | .lbsLocked i ans passed =>
    if (s.proc i).state = .runnable then
      if int32 (passed + (s.proc i).tickets) > ans then s.choose c i id
      else some (s.schedUnlock c i (.lbs (i + 1) ans (int32 (passed + (s.proc i).tickets))))
    else some (s.schedUnlock c i (.lbs (i + 1) ans passed))
  | .back p =>
    some ((s.setCpuProc c none).schedUnlock c p (if b = .rr then .rr (p + 1) else top b))

end State

/-- The locks that a scheduler holds. -/
def SchedPc.locks : SchedPc → List Slot
  | .rrLocked i | .lbsLocked i _ _ | .back i => [i]
  | .fcfs _ best | .pbs _ best _ => best.toList
  | .fcfsLocked i best | .pbsLocked i best _ => i :: best.toList
  | _ => []

namespace State

variable (lockOf : α → Lk β)

/-- While a scheduler holds no lock, it takes interrupts. -/
def schedStep (b : Policy) (s : State κ α β) (c : κ) (pc : SchedPc) (x : Ctx α β) : Act α β → Option (State κ α β)
  | .ctx a =>
    if pc.locks = [] then (s.ctxStep lockOf c x a).map fun t => t.1.setCtl c (.sched pc t.2) else none
  | .go _ rand => if x = .empty then s.schedGo b c rand pc else none
  | _ => none

def step (b : Policy) (s : State κ α β) (e : κ × Act α β) : Option (State κ α β) :=
  match e.2 with
  | .data q d => some (s.setProc q fun pr => { pr with toProc := { d with state := pr.state, pid := pr.pid } })
  | a =>
    match s.ctl e.1 with
    | .sched pc x => s.schedStep lockOf b e.1 pc x a
    | .thread p pc => s.threadStep lockOf e.1 p pc a

/-- After `userinit`, when every CPU has called `scheduler`. -/
def init (b : Policy) : State κ α β where
  proc := update (fun _ => ⟨Xv6.Proc.zero, none, none⟩) initproc
    ⟨{ Xv6.Proc.zero with state := .runnable, pid := 1 }, none, none⟩
  context := update (fun _ => none) initproc (some .forkret)
  ctl := fun _ => .sched (top b) .empty
  cpuProc := fun _ => none
  lock := fun _ => none
  spin := fun _ => none
  cond := fun _ => false
  nextpid := 2

def run (b : Policy) (es : List (κ × Act α β)) : Option (State κ α β) := System.exec (step lockOf b) (init b) es

end State

end

end Xv6.Cpus
