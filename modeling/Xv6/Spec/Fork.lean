import Xv6.Lib.Chain
import Xv6.Spec.Procs
import Xv6.Spec.VmProc

/-! `allocproc`, `freeproc` and `fork` of `kernel/proc.c` with all that they touch: every field of `struct proc` but
the lock, the address of the kernel stack and `context`, the five queues, the memory, and the reference counts of files and inodes. -/

namespace Xv6.Fork

open Prog Function

/-- `struct proc`; pages are named by their number, as in `Vm`. -/
structure Proc where
  creationTime : ℤ
  state : ProcState
  chan : Option ℕ
  killed : ℤ
  xstate : ℤ
  pid : ℤ
  parent : Option Slot
  sz : ℕ
  pagetable : ℕ
  trapframe : ℕ
  /-- whether the saved context is that of `forkret` -/
  forkret : Bool
  ofile : Fin NOFILE → Option (Fin NFILE)
  cwd : Option (Fin NINODE)
  name : Procs.Name
  mask : ℤ
  statPr : ℤ
  sleepTime : ℤ
  stTime : ℤ
  runTime : ℤ
  numOfScheduled : ℤ
  tickets : ℤ
  numOfTicks : Fin 5 → ℤ
  currQueue : ℤ
  waitTime : ℤ
  endTime : ℤ
  totRunTime : ℤ
  handler : UInt64
  tickss : ℤ
  nowTicks : ℤ
  trapframeCopy : ℕ
  isSigalarm : ℤ
  deriving Inhabited

structure State where
  vm : Vm.State
  proc : Slot → Proc
  nextpid : ℤ
  ticks : ℤ
  queue : Fin 5 → Slot → Option Slot
  ptr : Fin 5 → ℤ
  fileRef : Fin NFILE → ℤ
  inodeRef : Fin NINODE → ℤ

inductive Fault where
  | vm (panic : Vm.Panic)
  /-- a store to `queue0[i]` outside the array -/
  | queueBound (i : ℤ)
  | filedup
  | nullDeref

abbrev ForkM := Prog State Fault

def lift {α : Type} (x : Vm.VmM α) : ForkM α := fun s =>
  match x s.vm with
  | .ok a v => .ok a { s with vm := v }
  | .fault e v => .fault (.vm e) { s with vm := v }

def getProc (p : Slot) : ForkM Proc := gets fun s => s.proc p

def updProc (p : Slot) (f : Proc → Proc) : ForkM Unit :=
  modify fun s => { s with proc := update s.proc p (f (s.proc p)) }

def allocpid : ForkM ℤ := do
  let pid ← gets State.nextpid
  modify fun s => { s with nextpid := int32 (s.nextpid + 1) }
  pure pid

/-- `queue0_ptr++; queue0[queue0_ptr] = p` -/
def pushQueue0 (p : Slot) : ForkM Unit := do
  modify fun s => { s with ptr := update s.ptr 0 (s.ptr 0 + 1) }
  let i ← gets fun s => s.ptr 0
  if h : 0 ≤ i ∧ i < NPROC then
    modify fun s => { s with queue := update s.queue 0 (update (s.queue 0) ⟨i.toNat, toNat_lt h⟩ (some p)) }
  else fail (.queueBound i)

def freeproc (p : Slot) : ForkM Unit := do
  let q ← getProc p
  lift (Vm.setActor (.slot p))
  lift (Vm.kfreeNonnull q.trapframeCopy)
  updProc p fun q => { q with trapframe := 0 }
  lift (Vm.freePagetable q.pagetable q.sz)
  updProc p fun q => { q with
    pagetable := 0, sz := 0, pid := 0, parent := none, name := q.name.setIfInBounds 0 0, chan := none, killed := 0,
    xstate := 0, state := .unused }

/-- The first UNUSED slot, as the scan of `allocproc` finds it. -/
def State.findUnused (s : State) : Option Slot := (List.finRange NPROC).find? fun p => (s.proc p).state = .unused

/-- A failed `allocproc` is recorded, as in `Vm`. -/
def giveUp (p : Slot) : ForkM Unit := do
  let q ← getProc p
  lift (Vm.record (.gaveUp p q.trapframe q.trapframeCopy))
  freeproc p

/-- The block behind `found:`, up to the first `kalloc`. -/
def found (p : Slot) : ForkM Unit := do
  let pid ← allocpid
  let ticks ← gets State.ticks
  updProc p fun q => { q with
    pid := pid, state := .used, creationTime := int32 ticks, stTime := 0, statPr := 60, runTime := 0, sleepTime := 0,
    numOfScheduled := 0, tickets := 1, currQueue := 0 }
  pushQueue0 p
  updProc p fun q => { q with numOfTicks := fun _ => 0, waitTime := 3 }

/-- The rest of `allocproc`. -/
def allocPages (p : Slot) : ForkM (Option Slot) := do
  lift (Vm.setActor (.slot p))
  let tf ← lift Vm.kalloc
  updProc p fun q => { q with trapframe := tf }
  if tf = 0 then do
    giveUp p
    pure none
  else do
    let pagetable ← lift (Vm.procPagetable tf)
    updProc p fun q => { q with pagetable := pagetable }
    if pagetable = 0 then do
      giveUp p
      pure none
    else do
      updProc p fun q => { q with forkret := true }
      let copy ← lift Vm.kalloc
      updProc p fun q => { q with trapframeCopy := copy }
      if copy = 0 then pure none
      else do
        updProc p fun q => { q with isSigalarm := 0, tickss := 0, nowTicks := 0, handler := 0 }
        pure (some p)

def allocproc : ForkM (Option Slot) := do
  match ← gets State.findUnused with
  | none => pure none
  | some p => do
    found p
    allocPages p

def filedup (f : Fin NFILE) : ForkM Unit := do
  if (← gets fun s => s.fileRef f) < 1 then fail .filedup
  else modify fun s => { s with fileRef := update s.fileRef f (int32 (s.fileRef f + 1)) }

/-- `idup(p->cwd)` -/
def idup (cwd : Option (Fin NINODE)) : ForkM Unit :=
  match cwd with
  | none => fail .nullDeref
  | some ip => modify fun s => { s with inodeRef := update s.inodeRef ip (int32 (s.inodeRef ip + 1)) }

def dupFiles (np : Slot) : List (Fin NOFILE × Option (Fin NFILE)) → ForkM Unit
  | [] => pure ()
  | (_, none) :: fs => dupFiles np fs
  | (i, some f) :: fs => do
    filedup f
    updProc np fun q => { q with ofile := update q.ofile i (some f) }
    dupFiles np fs

/-- `fork` behind `uvmcopy`, in the child `np` of `p`. -/
def finish (p np : Slot) (parent child : Proc) : ForkM (Option Slot) := do
  updProc np fun q => { q with sz := parent.sz }
  lift (Vm.copyTrapframe child.trapframe parent.trapframe)
  lift (Vm.poke child.trapframe (Vm.setWord 14 0))
  dupFiles np ((List.finRange NOFILE).map fun i => (i, parent.ofile i))
  idup parent.cwd
  updProc np fun q => { q with cwd := parent.cwd, name := Procs.safestrcpy q.name parent.name }
  updProc np fun q => { q with parent := some p }
  updProc np fun q => { q with state := .runnable }
  pure (some np)

/-- The child's slot, or `none` for -1. -/
def fork (p : Slot) : ForkM (Option Slot) := do
  match ← allocproc with
  | none => pure none
  | some np => do
    let parent ← getProc p
    updProc np fun q => { q with mask := parent.mask }
    let child ← getProc np
    if ← lift (Vm.uvmcopy parent.pagetable child.pagetable parent.sz) then finish p np parent child
    else do
      freeproc np
      pure none

/-- The part that `Vm` has of the state. -/
def Proc.vm (q : Proc) : Vm.Proc := ⟨q.state, q.xstate, q.trapframe, q.trapframeCopy, q.pagetable, q.sz, q.parent⟩

def State.machine (initproc : Option Slot) (s : State) : Vm.Machine := ⟨s.vm, fun p => (s.proc p).vm, initproc⟩

/-! ### What a call leaves behind -/

/-- The page is on `kmem.freelist`. -/
def State.Free (s : State) (page : ℕ) : Prop := Chain.Listed (Vm.next s.vm.mem) page s.vm.freelist

/-- Nothing of the call from `s` to `s'` is left: a slot that was tried is UNUSED again. -/
structure Traceless (s s' : State) : Prop where
  table : ∀ q, s'.proc q = s.proc q ∨
    (s.proc q).state = .unused ∧ (s'.proc q).state = .unused ∧ (s'.proc q).pid = 0 ∧ (s'.proc q).parent = none
  queues : s'.queue = s.queue ∧ s'.ptr = s.ptr
  files : s'.fileRef = s.fileRef
  inodes : s'.inodeRef = s.inodeRef
  pages : ∀ page, s'.Free page ↔ s.Free page

end Xv6.Fork
