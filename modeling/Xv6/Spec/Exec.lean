import Xv6.Lib.Chain
import Xv6.Spec.SpaceOps

/-! `exec` and `sys_exec` with what they take from the file system: the transaction, the references and locks of inodes
on the way of `namei`, and the file itself. What the directories and files hold is an input and does not change during the
call. Waiting for a lock or for room in the log, and the panics of the file system about its own tables, are left out. -/

namespace Xv6.Vm.Exec

open Prog Function

/-- maximum file path name -/
abbrev MAXPATH : ℕ := 128

/-- The file system as `exec` sees it. -/
structure Files where
  cwd : Slot → ℕ
  isDir : ℕ → Bool
  dirlookup : ℕ → List UInt8 → Option ℕ
  readi : ℕ → Readi

structure FsState where
  /-- `ip->ref` -/
  ref : ℕ → ℕ
  /-- the holder of `ip->lock` -/
  lock : ℕ → Option Slot
  /-- `log.outstanding` -/
  outstanding : ℕ

structure State where
  machine : Machine
  /-- `p->name` -/
  name : Slot → List UInt8
  fs : FsState

inductive Panic where
  | vm (e : Vm.Panic)
  | ilock
  | iunlock

abbrev ExecM := Prog State Panic

def onMachine {α : Type} (x : ProcM α) : ExecM α := fun st =>
  match x st.machine with
  | .ok r m => .ok r { st with machine := m }
  | .fault e m => .fault (.vm e) { st with machine := m }

def onVm {α : Type} (x : VmM α) : ExecM α := onMachine (lift x)

def updFs (f : FsState → FsState) : ExecM Unit := modify fun st => { st with fs := f st.fs }

/-! ### log.c and fs.c -/

def beginOp : ExecM Unit := updFs fun fs => { fs with outstanding := fs.outstanding + 1 }

def endOp : ExecM Unit := updFs fun fs => { fs with outstanding := fs.outstanding - 1 }

/-- One more reference: `iget` and `idup`. -/
def FsState.get (fs : FsState) (ip : ℕ) : FsState := { fs with ref := update fs.ref ip (fs.ref ip + 1) }

def FsState.put (fs : FsState) (ip : ℕ) : FsState := { fs with ref := update fs.ref ip (fs.ref ip - 1) }

def FsState.setLock (fs : FsState) (ip : ℕ) (l : Option Slot) : FsState := { fs with lock := update fs.lock ip l }

def iget (ip : ℕ) : ExecM Unit := updFs fun fs => fs.get ip

def ilock (p : Slot) (ip : ℕ) : ExecM Unit := do
  let fs ← gets State.fs
  if fs.ref ip < 1 then fail .ilock else updFs fun fs => fs.setLock ip (some p)

def iunlock (p : Slot) (ip : ℕ) : ExecM Unit := do
  let fs ← gets State.fs
  if fs.lock ip ≠ some p ∨ fs.ref ip < 1 then fail .iunlock else updFs fun fs => fs.setLock ip none

def iput (ip : ℕ) : ExecM Unit := updFs fun fs => fs.put ip

def iunlockput (p : Slot) (ip : ℕ) : ExecM Unit := do
  iunlock p ip
  iput ip

/-- `'/'` -/
abbrev slash : UInt8 := 47

/-- The rest of the path and its first element, none if there is no element left. -/
def skipelem (path : List UInt8) : Option (List UInt8 × List UInt8) :=
  let path := path.dropWhile (· = slash)
  if path = [] then none
  else some ((path.dropWhile (· ≠ slash)).dropWhile (· = slash), (path.takeWhile (· ≠ slash)).take DIRSIZ)

/-- The loop of `namex`. Every element takes at least one byte from the path. -/
def namexFrom (files : Files) (p : Slot) : ℕ → List UInt8 → ℕ → ExecM (Option ℕ)
  | 0, _, ip => pure (some ip)
  | fuel + 1, path, ip =>
    match skipelem path with
    | none => pure (some ip)
    | some (path, name) => do
      ilock p ip
      if files.isDir ip then
        match files.dirlookup ip name with
        | none => do
          iunlockput p ip
          pure none
        | some next => do
          iget next
          iunlockput p ip
          namexFrom files p fuel path next
      else do
        iunlockput p ip
        pure none

def namei (files : Files) (p : Slot) (path : List UInt8) : ExecM (Option ℕ) :=
  let start := if path.head? = some slash then ROOTINO else files.cwd p
  do
    iget start
    namexFrom files p path.length path start

/-! ### exec.c -/

/-- `safestrcpy(s, t, n)` into an array `s` of at least `n > 0` bytes. -/
def safestrcpy (s t : List UInt8) (n : ℕ) : List UInt8 :=
  let copied := (t ++ [0]).take (n - 1)
  copied ++ [0] ++ s.drop (copied.length + 1)

/-- What follows the last slash. -/
def lastElem (path : List UInt8) : List UInt8 :=
  path.foldl (fun last c => if c = slash then [] else last ++ [c]) []

def setName (p : Slot) (path : List UInt8) : ExecM Unit :=
  modify fun st => { st with name := update st.name p (safestrcpy (st.name p) (lastElem path) 16) }

/-- The return value of `exec`, `none` for -1. -/
def exec (files : Files) (p : Slot) (path : List UInt8) (argv : List ℕ) : ExecM (Option ℕ) := do
  beginOp
  match ← namei files p path with
  | none => do
    endOp
    pure none
  | some ip => do
    ilock p ip
    let q ← onMachine (getProc p)
    let file ← onVm (loadFile q.trapframe (files.readi ip))
    -- at `bad:` too
    iunlockput p ip
    endOp
    match file with
    | none => pure none
    | some (entry, pagetable, sz) => do
      match ← onVm (makeStack argv entry pagetable sz) with
      | none => pure none
      | some image => do
        onVm (setA1 q image)
        setName p path
        onMachine (commit p q image)

/-! ### sys_exec -/

/-- `exec` unless the arguments could not be fetched. -/
def execArgs (files : Files) (p : Slot) (path : List UInt8) (args : List ℕ × Bool) : ExecM (Option ℕ) :=
  if args.2 then exec files p path args.1 else pure none

/-- `argstr(0, path, MAXPATH)` without the NUL at the end, none if it fails. -/
def argPath (q : Proc) : VmM (Option (List UInt8)) := do
  let a0 ← gets fun s => s.mem q.trapframe 14
  let r ← copyinstr q.pagetable a0 MAXPATH
  pure (if r.2 then some r.1.dropLast else none)

def sysExec (files : Files) (p : Slot) : ExecM (Option ℕ) := do
  let q ← onMachine (getProc p)
  onVm (setActor (.slot p))
  match ← onVm (argPath q) with
  | none => pure none
  | some path => do
    let uargv ← onVm (gets fun s => s.mem q.trapframe 15)
    let args ← onVm (fetchArgs q uargv MAXARG 0)
    let ret ← execArgs files p path args
    onVm (freeArgs args.1)
    pure ret

/-! ### A call -/

/-- The machine when `p` has made a system call: its registers are in the trapframe. `oom` says which calls of `kalloc` are
to fail. -/
def trapped (m : Machine) (p : Slot) (registers : PageData) (oom : List Bool) : Machine :=
  { m with vm := { m.vm with mem := setPage m.vm.mem (m.proc p).trapframe registers, oom := oom, trace := [] } }

/-- The page is on the free list. -/
def State.Free (st : State) (page : ℕ) : Prop := Chain.Listed (next st.machine.vm.mem) page st.machine.vm.freelist

/-- The process is what it was, and so is the free memory. -/
structure Unchanged (p : Slot) (st st' : State) : Prop where
  proc : st'.machine.proc = st.machine.proc
  name : st'.name = st.name
  mapping : ∀ va, va < MAXVA →
    st'.machine.vm.leaf (st.machine.proc p).pagetable va = st.machine.vm.leaf (st.machine.proc p).pagetable va
  memory : ∀ va page, va < MAXVA → st.machine.vm.pageAt (st.machine.proc p).pagetable va = some page →
    st'.machine.vm.mem page = st.machine.vm.mem page
  trapframe : st'.machine.vm.mem (st.machine.proc p).trapframe = st.machine.vm.mem (st.machine.proc p).trapframe
  free : ∀ page, st'.Free page ↔ st.Free page

/-- The process has given back the references and locks and ended the transactions that it had not at `fs`. -/
structure Released (p : Slot) (fs fs' : FsState) : Prop where
  ref : fs'.ref = fs.ref
  outstanding : fs'.outstanding = fs.outstanding
  lock : ∀ ip, fs'.lock ip ≠ some p

end Xv6.Vm.Exec
