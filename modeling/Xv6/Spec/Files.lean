import Xv6.Lib.Count
import Xv6.Lib.System
import Xv6.Spec.Param

/-! Open files: `filealloc`, `filedup` and `fileclose` of `kernel/file.c`, `pipealloc` and
`pipeclose` of `kernel/pipe.c`, the system calls `open`, `dup`, `pipe` and `close` and
what `fork` and `exit` do to the descriptors. A call is one step. Which inode a path leads to, which
page `kalloc` returns and whether a copy to the user succeeds is given with the call. The
contents of files and pipes are left out. -/

namespace Xv6.Files

open Function

/-- A `struct file*` that is not null. -/
abbrev FilePtr := Fin NFILE

abbrev Fd := Fin NOFILE

inductive FileType where
  | none
  | pipe
  | inode
  | device
  deriving DecidableEq

/-- `pipe` is the address of a page. `serial` only records: the number of the pipe, or of the inode
that `sys_open` got. -/
structure File where
  type : FileType
  ref : ℕ
  readable : Bool
  writable : Bool
  pipe : ℕ
  ip : ℕ
  off : ℕ
  major : ℤ
  serial : ℕ

/-- A `struct pipe`; `serial` only records the number of the pipe. -/
structure Pipe where
  readopen : Bool
  writeopen : Bool
  serial : ℕ
  deriving DecidableEq

inductive InodeType where
  | dir
  | file
  | device
  deriving DecidableEq

/-- What `sys_open` gets from `create` or `namei`, locked. -/
structure Inode where
  ip : ℕ
  type : InodeType
  major : ℤ

inductive Panic where
  | filedup
  | fileclose
  | initExiting
  /-- `pipeclose` of a page that holds no pipe -/
  | noPipe
  deriving DecidableEq

/-- What the calls so far have given back. -/
inductive Call where
  | pipeclose (serial : ℕ) (writable : Bool)
  /-- `kfree` of the page of a pipe -/
  | kfree (serial : ℕ)
  | iput (serial : ℕ)
  deriving DecidableEq

inductive Status where
  | unused
  | used
  | zombie
  deriving DecidableEq

/-- `pipe` are the pages that hold a pipe. The last three fields only record: the number of pipes so far, the
number of inodes that `sys_open` has got so far, and the calls that gave something back. -/
structure State (P : Type) where
  file : FilePtr → File
  ofile : P → Fd → Option FilePtr
  status : P → Status
  pipe : ℕ → Option Pipe
  panic : Option Panic
  pipes : ℕ
  opens : ℕ
  log : List Call

inductive Event (P : Type) where
  /-- `ip` is none if the path cannot be read, or `create` or `namei` fails -/
  | open (p : P) (omode : BitVec 32) (ip : Option Inode)
  | dup (p : P) (fd : ℤ)
  /-- `page` is what `kalloc` returns, `ok₀` and `ok₁` whether the two copies succeed -/
  | pipe (p : P) (page : Option ℕ) (ok₀ ok₁ : Bool)
  | close (p : P) (fd : ℤ)
  /-- `np` is none if `allocproc` fails, `ok` tells whether `uvmcopy` succeeds -/
  | fork (p : P) (np : Option P) (ok : Bool)
  | exit (p : P)
  /-- `wait` finds the zombie `p` -/
  | reap (p : P)

def O_RDONLY : BitVec 32 := 0x000
def O_WRONLY : BitVec 32 := 0x001
def O_RDWR : BitVec 32 := 0x002
def O_CREATE : BitVec 32 := 0x200

namespace State

variable {P : Type}

/-- The first panic stays. -/
def panics (s : State P) (x : Panic) : State P := { s with panic := s.panic.or (some x) }

def setFile (s : State P) (f : FilePtr) (g : File → File) : State P :=
  { s with file := update s.file f (g (s.file f)) }

def setPipe (s : State P) (pi : ℕ) (x : Option Pipe) : State P := { s with pipe := update s.pipe pi x }

def record (s : State P) (c : Call) : State P := { s with log := s.log ++ [c] }

def filealloc (s : State P) : Option (FilePtr × State P) :=
  ((List.finRange NFILE).find? fun f => (s.file f).ref = 0).map fun f => (f, s.setFile f fun x => { x with ref := 1 })

def filedup (s : State P) (f : FilePtr) : State P :=
  if (s.file f).ref < 1 then s.panics .filedup else s.setFile f fun x => { x with ref := x.ref + 1 }

def pipeclose (s : State P) (pi : ℕ) (writable : Bool) : State P :=
  match s.pipe pi with
  | none => s.panics .noPipe
  | some x =>
    let x' := if writable then { x with writeopen := false } else { x with readopen := false }
    let s := s.record (.pipeclose x.serial writable)
    if x'.readopen = false ∧ x'.writeopen = false then (s.setPipe pi none).record (.kfree x.serial)
    else s.setPipe pi (some x')

def fileclose (s : State P) (f : FilePtr) : State P :=
  if (s.file f).ref < 1 then s.panics .fileclose
  else if 0 < (s.file f).ref - 1 then s.setFile f fun x => { x with ref := x.ref - 1 }
  else
    let ff := s.file f
    let s := s.setFile f fun x => { x with ref := 0, type := .none }
    match ff.type with
    | .pipe => s.pipeclose ff.pipe ff.writable
    | .inode | .device => s.record (.iput ff.serial)
    | .none => s

/-- `*f0` and `*f1`, or none for -1. -/
def pipealloc (s : State P) (page : Option ℕ) : Option (FilePtr × FilePtr) × State P :=
  match s.filealloc with
  | none => (none, s)
  | some (f0, s) =>
    match s.filealloc with
    | none => (none, s.fileclose f0)
    | some (f1, s) =>
      match page with
      | none => (none, (s.fileclose f0).fileclose f1)
      | some pi =>
        let s := s.setPipe pi (some ⟨true, true, s.pipes⟩)
        let s := s.setFile f0 fun x =>
          { x with type := .pipe, readable := true, writable := false, pipe := pi, serial := s.pipes }
        let s := s.setFile f1 fun x =>
          { x with type := .pipe, readable := false, writable := true, pipe := pi, serial := s.pipes }
        (some (f0, f1), { s with pipes := s.pipes + 1 })

variable [DecidableEq P]

def setFd (s : State P) (p : P) (fd : Fd) (f : Option FilePtr) : State P :=
  { s with ofile := update s.ofile p (update (s.ofile p) fd f) }

def argfd (s : State P) (p : P) (fd : ℤ) : Option (Fd × FilePtr) :=
  if h : 0 ≤ fd ∧ fd < NOFILE then
    let fd : Fd := ⟨fd.toNat, by omega⟩
    (s.ofile p fd).map fun f => (fd, f)
  else none

def fdalloc (s : State P) (p : P) (f : FilePtr) : Option (Fd × State P) :=
  ((List.finRange NOFILE).find? fun fd => s.ofile p fd = none).map fun fd => (fd, s.setFd p fd (some f))

def sysDup (s : State P) (p : P) (fd : ℤ) : ℤ × State P :=
  match s.argfd p fd with
  | none => (-1, s)
  | some (_, f) =>
    match s.fdalloc p f with
    | none => (-1, s)
    | some (fd, s) => (fd, s.filedup f)

def sysClose (s : State P) (p : P) (fd : ℤ) : ℤ × State P :=
  match s.argfd p fd with
  | none => (-1, s)
  | some (fd, f) => (0, (s.setFd p fd none).fileclose f)

/-- `serial` is the number of the inode that `sys_open` got. -/
def sysOpen (s : State P) (p : P) (omode : BitVec 32) (ip : Option Inode) : ℤ × State P :=
  match ip with
  | none => (-1, s)
  | some ip =>
    let serial := s.opens
    let s := { s with opens := s.opens + 1 }
    if omode &&& O_CREATE = 0 ∧ ip.type = .dir ∧ omode ≠ O_RDONLY then (-1, s.record (.iput serial))
    else if ip.type = .device ∧ (ip.major < 0 ∨ NDEV ≤ ip.major) then (-1, s.record (.iput serial))
    else
      match s.filealloc with
      | none => (-1, s.record (.iput serial))
      | some (f, s) =>
        match s.fdalloc p f with
        | none => (-1, (s.fileclose f).record (.iput serial))
        | some (fd, s) =>
          let s := s.setFile f fun x =>
            if ip.type = .device then { x with type := .device, major := ip.major }
            else { x with type := .inode, off := 0 }
          let s := s.setFile f fun x =>
            { x with
              ip := ip.ip
              readable := omode &&& O_WRONLY = 0
              writable := omode &&& O_WRONLY ≠ 0 ∨ omode &&& O_RDWR ≠ 0
              serial := serial }
          (fd, s)

def sysPipe (s : State P) (p : P) (page : Option ℕ) (ok₀ ok₁ : Bool) : ℤ × State P :=
  match s.pipealloc page with
  | (none, s) => (-1, s)
  | (some (rf, wf), s) =>
    match s.fdalloc p rf with
    | none => (-1, (s.fileclose rf).fileclose wf)
    | some (fd0, s) =>
      match s.fdalloc p wf with
      | none => (-1, ((s.setFd p fd0 none).fileclose rf).fileclose wf)
      | some (fd1, s) =>
        if ok₀ && ok₁ then (0, s)
        else (-1, (((s.setFd p fd0 none).setFd p fd1 none).fileclose rf).fileclose wf)

/-- The loop over the descriptors in `fork`. -/
def forkFiles (s : State P) (p np : P) : State P :=
  (List.finRange NOFILE).foldl (fun s i =>
    match s.ofile p i with
    | some f => (s.filedup f).setFd np i (some f)
    | none => s) s

def setStatus (s : State P) (p : P) (x : Status) : State P := { s with status := update s.status p x }

/-- `fork` as far as it is about descriptors; 1 stands for the pid. -/
def fork (s : State P) (p : P) (np : Option P) (ok : Bool) : ℤ × State P :=
  match np with
  | none => (-1, s)
  | some np =>
    let s := s.setStatus np .used
    if ok then (1, s.forkFiles p np) else (-1, s.setStatus np .unused)

/-- The loop over the descriptors in `exit`. -/
def exitFiles (s : State P) (p : P) : State P :=
  (List.finRange NOFILE).foldl (fun s fd =>
    match s.ofile p fd with
    | some f => (s.fileclose f).setFd p fd none
    | none => s) s

def exit (s : State P) (initproc p : P) : State P :=
  if p = initproc then s.panics .initExiting else (s.exitFiles p).setStatus p .zombie

/-- The process that makes the call is used, the one that `allocproc` finds is not, and `kalloc` returns a page that
holds no pipe. -/
def step (initproc : P) (s : State P) (e : Event P) : Option (State P) :=
  if s.panic ≠ none then none
  else
    match e with
    | .open p omode ip => if s.status p = .used then some (s.sysOpen p omode ip).2 else none
    | .dup p fd => if s.status p = .used then some (s.sysDup p fd).2 else none
    | .pipe p page ok₀ ok₁ =>
      if s.status p = .used ∧ ∀ pi, page = some pi → s.pipe pi = none then some (s.sysPipe p page ok₀ ok₁).2 else none
    | .close p fd => if s.status p = .used then some (s.sysClose p fd).2 else none
    | .fork p np ok =>
      if s.status p = .used ∧ ∀ q, np = some q → s.status q = .unused then some (s.fork p np ok).2 else none
    | .exit p => if s.status p = .used then some (s.exit initproc p) else none
    | .reap p => if s.status p = .zombie then some (s.setStatus p .unused) else none

/-- After `userinit`. -/
def init (initproc : P) : State P where
  file := fun _ => ⟨.none, 0, false, false, 0, 0, 0, 0, 0⟩
  ofile := fun _ _ => none
  status := fun p => if p = initproc then .used else .unused
  pipe := fun _ => none
  panic := none
  pipes := 0
  opens := 0
  log := []

def run (initproc : P) (es : List (Event P)) : Option (State P) := System.exec (step initproc) (init initproc) es

end State

end Xv6.Files
