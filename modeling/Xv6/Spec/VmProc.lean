import Xv6.Lib.System
import Xv6.Spec.Vm

/-! The memory of processes: `allocproc`, `freeproc`, `fork`, `exit`, `wait`, `waitx`,
`growproc` of `kernel/proc.c`, `exec` and `sys_exec`, as complete calls. Any call of
`kalloc` may be made to return 0. What `readi` delivers to `exec` is an input. -/

namespace Xv6.Vm

open Prog

structure Proc where
  state : ProcState
  xstate : ℤ
  trapframe : ℕ
  trapframeCopy : ℕ
  pagetable : ℕ
  sz : ℕ
  parent : Option Slot

structure Machine where
  vm : State
  proc : Slot → Proc
  initproc : Option Slot

abbrev ProcM := Prog Machine Panic

def lift {α : Type} (x : VmM α) : ProcM α := zoom Machine.vm (fun v m => { m with vm := v }) x

def getProc (p : Slot) : ProcM Proc := gets fun m => m.proc p

def updProc (p : Slot) (f : Proc → Proc) : ProcM Unit :=
  modify fun m => { m with proc := Function.update m.proc p (f (m.proc p)) }

def setActor (o : Owner) : VmM Unit := modify fun s => { s with actor := o }

def record (e : Event) : VmM Unit := modify fun s => { s with trace := s.trace ++ [e] }

/-! ### proc.c -/

/-- `if(page) kfree(page)` -/
def kfreeNonnull (page : ℕ) : VmM Unit := if page ≠ 0 then kfree page else pure ()

/-- `if(p->pagetable) proc_freepagetable(p->pagetable, p->sz)` -/
def freePagetable (pagetable sz : ℕ) : VmM Unit := if pagetable ≠ 0 then procFreepagetable pagetable sz else pure ()

/-- `trapframe_copy` keeps its value, and the trapframe page is forgotten. -/
def freeproc (p : Slot) : ProcM Unit := do
  let q ← getProc p
  lift (setActor (.slot p))
  lift (kfreeNonnull q.trapframeCopy)
  updProc p fun q => { q with trapframe := 0 }
  lift (freePagetable q.pagetable q.sz)
  updProc p fun q => { q with pagetable := 0, sz := 0, parent := none, xstate := 0, state := .unused }

def giveUp (p : Slot) : ProcM Unit := do
  let q ← getProc p
  lift (record (.gaveUp p q.trapframe q.trapframeCopy))
  freeproc p

def Machine.findUnused (m : Machine) : Option Slot := (List.finRange NPROC).find? fun p => (m.proc p).state = .unused

def allocprocAt (p : Slot) : ProcM (Option Slot) := do
  updProc p fun q => { q with state := .used }
  lift (setActor (.slot p))
  let tf ← lift kalloc
  updProc p fun q => { q with trapframe := tf }
  if tf = 0 then do
    giveUp p
    pure none
  else do
    let pagetable ← lift (procPagetable tf)
    updProc p fun q => { q with pagetable := pagetable }
    if pagetable = 0 then do
      giveUp p
      pure none
    else do
      let copy ← lift kalloc
      updProc p fun q => { q with trapframeCopy := copy }
      if copy = 0 then pure none else pure (some p)

def allocproc : ProcM (Option Slot) := do
  match ← gets Machine.findUnused with
  | none => pure none
  | some p => allocprocAt p

/-- The first user process; `allocproc` is not checked. -/
def userinit (initcode : List UInt8) : ProcM Unit := do
  match ← allocproc with
  | none => fail .nullDeref
  | some p => do
    modify fun m => { m with initproc := some p }
    let q ← getProc p
    lift (uvmfirst q.pagetable initcode)
    updProc p fun q => { q with sz := PGSIZE }
    lift (poke q.trapframe fun d => setWord 6 PGSIZE (setWord 3 0 d))
    updProc p fun q => { q with state := .runnable }

def growproc (p : Slot) (n : ℤ) : ProcM Bool := do
  let q ← getProc p
  lift (setActor (.slot p))
  if 0 < n then do
    let sz ← lift (uvmalloc q.pagetable q.sz (uint64 (q.sz + n)) PTE_W)
    if sz = 0 then pure false
    else do
      updProc p fun q => { q with sz := sz }
      pure true
  else if n < 0 then do
    let sz ← lift (uvmdealloc q.pagetable q.sz (uint64 (q.sz + n)))
    updProc p fun q => { q with sz := sz }
    pure true
  else pure true

/-- The 36 words of `struct trapframe`. -/
def copyTrapframe (dst src : ℕ) : VmM Unit := do
  let d ← gets fun s => s.mem src
  poke dst fun old j => if j < 36 then d j else old j

/-- The child's slot, or `none` for -1. -/
def fork (p : Slot) : ProcM (Option Slot) := do
  match ← allocproc with
  | none => pure none
  | some np => do
    let parent ← getProc p
    let child ← getProc np
    if ← lift (uvmcopy parent.pagetable child.pagetable parent.sz) then do
      updProc np fun q => { q with sz := parent.sz }
      lift (copyTrapframe child.trapframe parent.trapframe)
      lift (poke child.trapframe (setWord 14 0))
      updProc np fun q => { q with parent := some p }
      updProc np fun q => { q with state := .runnable }
      pure (some np)
    else do
      freeproc np
      pure none

def exit (p : Slot) (status : ℤ) : ProcM Unit := do
  let initproc ← gets Machine.initproc
  if initproc = some p then fail .initExiting
  else do
    modify fun m => { m with proc := fun c =>
      if (m.proc c).parent = some p then { m.proc c with parent := initproc } else m.proc c }
    updProc p fun q => { q with xstate := int32 status, state := .zombie }

/-- The four bytes of an `int`. -/
def intBytes (x : ℤ) : List UInt8 := (List.range 4).map fun i => UInt8.ofNat ((x % 2 ^ 32).toNat / 256 ^ i)

def Machine.findZombie (m : Machine) (p : Slot) : Option Slot :=
  (List.finRange NPROC).find? fun c => (m.proc c).parent = some p ∧ (m.proc c).state = .zombie

/-- The table scan of `wait` and of `waitx`: the child that was reaped. -/
def reap (p : Slot) (addr : ℕ) : ProcM (Option Slot) := do
  match ← gets fun m => m.findZombie p with
  | none => pure none
  | some c => do
    let parent ← getProc p
    let child ← getProc c
    if addr ≠ 0 then do
      if ← lift (copyout parent.pagetable addr (intBytes child.xstate)) then do
        freeproc c
        pure (some c)
      else pure none
    else do
      freeproc c
      pure (some c)

def wait (p : Slot) (addr : ℕ) : ProcM (Option Slot) := reap p addr

def waitx (p : Slot) (addr : ℕ) : ProcM (Option Slot) := reap p addr

/-! ### exec.c -/

/-- What `readi(ip, 0, dst, off, n)` stores at `dst`; it returns the number of bytes. -/
abbrev Readi := ℕ → ℕ → List UInt8

/-- The `k`-byte field at `off` of a structure read from the file. -/
def field (bs : List UInt8) (off k : ℕ) : ℕ := ((bs.drop off).take k).foldr (fun c acc => c.toNat + 256 * acc) 0

def flags2perm (flags : ℕ) : ℕ :=
  (if flags &&& 1 ≠ 0 then PTE_X else 0) ||| (if flags &&& 2 ≠ 0 then PTE_W else 0)

def loadsegFrom (pagetable va : ℕ) (readi : Readi) (offset sz : ℕ) : ℕ → ℕ → VmM Bool
  | 0, _ => pure true
  | k + 1, i => do
    let pa ← walkaddr pagetable (uint64 (va + i))
    if pa = 0 then fail .loadseg
    else do
      let n := min (sz - i) PGSIZE
      let bytes := readi (uint32 (offset + i)).toNat n
      poke pa fun d => putBytes d 0 (bytes.take n)
      if bytes.length = n then loadsegFrom pagetable va readi offset sz k (i + PGSIZE) else pure false

/-- Whether `loadseg` returned 0; `offset` and `sz` are `uint`. -/
def loadseg (pagetable va : ℕ) (readi : Readi) (offset sz : ℕ) : VmM Bool :=
  loadsegFrom pagetable va readi (uint32 offset).toNat (uint32 sz).toNat (pagesFrom 0 (uint32 sz).toNat) 0

/-- The program headers from offset `off` on: the size reached, and whether all went well. -/
def loadSegments (pagetable : ℕ) (readi : Readi) : ℕ → ℤ → ℕ → VmM (ℕ × Bool)
  | 0, _, sz => pure (sz, true)
  | k + 1, off, sz =>
    let ph := readi (uint32 off).toNat 56
    let vaddr := field ph 16 8
    let filesz := field ph 32 8
    let memsz := field ph 40 8
    if ph.length ≠ 56 then pure (sz, false)
    else if field ph 0 4 ≠ 1 then loadSegments pagetable readi k (int32 (off + 56)) sz
    else if memsz < filesz then pure (sz, false)
    else if uint64 (vaddr + memsz) < vaddr then pure (sz, false)
    else if vaddr % PGSIZE ≠ 0 then pure (sz, false)
    else do
      let sz1 ← uvmalloc pagetable sz (uint64 (vaddr + memsz)) (flags2perm (field ph 4 4))
      if sz1 = 0 then pure (sz, false)
      else do
        if ← loadseg pagetable vaddr readi (field ph 8 8) filesz then
          loadSegments pagetable readi k (int32 (off + 56)) sz1
        else pure (sz1, false)

/-- The pushes of the argument strings: `sp` and `ustack`, or `none` for `goto bad`. -/
def pushArgs (pagetable stackbase : ℕ) : List ℕ → ℕ → List ℕ → VmM (Option (ℕ × List ℕ))
  | [], sp, ustack => pure (some (sp, ustack))
  | arg :: argv, sp, ustack =>
    if MAXARG ≤ ustack.length then pure none
    else do
      let s ← gets fun s => (scanNul (s.mem arg) PGSIZE 0).1
      let sp := uint64 (sp - s.length)
      let sp := sp - sp % 16
      if sp < stackbase then pure none
      else do
        if ← copyout pagetable sp s then pushArgs pagetable stackbase argv sp (ustack ++ [sp]) else pure none

def wordBytes (x : ℕ) : List UInt8 := (List.range 8).map fun i => UInt8.ofNat (x / 256 ^ i)

/-- The argument stack below `sz`: the final `sp` and `argc`. -/
def buildStack (pagetable sz : ℕ) (argv : List ℕ) : VmM (Option (ℕ × ℕ)) := do
  let stackbase := uint64 (sz - PGSIZE)
  match ← pushArgs pagetable stackbase argv sz [] with
  | none => pure none
  | some (sp, ustack) => do
    let sp := uint64 (sp - (ustack.length + 1) * 8)
    let sp := sp - sp % 16
    if sp < stackbase then pure none
    else do
      if ← copyout pagetable sp ((ustack ++ [0]).flatMap wordBytes) then pure (some (sp, ustack.length)) else pure none

/-- What `exec` commits to. -/
structure Image where
  pagetable : ℕ
  sz : ℕ
  sp : ℕ
  entry : ℕ
  argc : ℕ

def badImage (pagetable sz : ℕ) : VmM (Option Image) := do
  procFreepagetable pagetable sz
  pure none

/-- `exec` until it is done with the file: the entry point, the new page table and the size reached; `none` is `goto bad`. -/
def loadFile (trapframe : ℕ) (readi : Readi) : VmM (Option (ℕ × ℕ × ℕ)) := do
  let elf := readi 0 64
  if elf.length ≠ 64 then pure none
  else if field elf 0 4 ≠ 0x464C457F then pure none
  else do
    let pagetable ← procPagetable trapframe
    if pagetable = 0 then pure none
    else do
      let r ← loadSegments pagetable readi (field elf 56 2) (int32 (field elf 32 8)) 0
      if r.2 then pure (some (field elf 24 8, pagetable, r.1))
      else do
        procFreepagetable pagetable r.1
        pure none

def makeStack (argv : List ℕ) (entry pagetable sz : ℕ) : VmM (Option Image) := do
  let sz := PGROUNDUP sz
  let sz1 ← uvmalloc pagetable sz (uint64 (sz + 2 * PGSIZE)) PTE_W
  if sz1 = 0 then badImage pagetable sz
  else do
    uvmclear pagetable (uint64 (sz1 - 2 * PGSIZE))
    match ← buildStack pagetable sz1 argv with
    | none => badImage pagetable sz1
    | some (sp, argc) => pure (some ⟨pagetable, sz1, sp, entry, argc⟩)

/-- `exec` up to the commit. -/
def loadImage (trapframe : ℕ) (readi : Readi) (argv : List ℕ) : VmM (Option Image) := do
  match ← loadFile trapframe readi with
  | none => pure none
  | some (entry, pagetable, sz) => makeStack argv entry pagetable sz

/-- `p->trapframe->a1 = sp` -/
def setA1 (q : Proc) (image : Image) : VmM Unit := poke q.trapframe (setWord 15 image.sp)

/-- `exec` from the commit on. -/
def commit (p : Slot) (q : Proc) (image : Image) : ProcM (Option ℕ) := do
  updProc p fun q => { q with pagetable := image.pagetable, sz := image.sz }
  lift (poke q.trapframe (setWord 3 image.entry))
  lift (poke q.trapframe (setWord 6 image.sp))
  lift (procFreepagetable q.pagetable q.sz)
  pure (some image.argc)

/-- The return value of `exec`, `none` for -1. `file` is what `namei` found. -/
def exec (p : Slot) (file : Option Readi) (argv : List ℕ) : ProcM (Option ℕ) := do
  match file with
  | none => pure none
  | some readi => do
    let q ← getProc p
    match ← lift (loadImage q.trapframe readi argv) with
    | none => pure none
    | some image => do
      lift (setA1 q image)
      commit p q image

/-! ### sys_exec -/

def fetchaddr (q : Proc) (addr : ℕ) : VmM (Option ℕ) :=
  if q.sz ≤ addr ∨ q.sz < uint64 (addr + 8) then pure none
  else do
    let r ← copyin q.pagetable addr 8
    pure (if r.2 then some (field r.1 0 8) else none)

/-- The loop of `sys_exec` from `argv[i]` on: the pages allocated, and whether the null
pointer that ends the array was met. -/
def fetchArgs (q : Proc) (uargv : ℕ) : ℕ → ℕ → VmM (List ℕ × Bool)
  | 0, _ => pure ([], false)
  | k + 1, i => do
    match ← fetchaddr q (uint64 (uargv + 8 * i)) with
    | none => pure ([], false)
    | some uarg =>
      if uarg = 0 then pure ([], true)
      else do
        let page ← kalloc
        if page = 0 then pure ([], false)
        else do
          let r ← copyinstr q.pagetable uarg PGSIZE
          poke page fun d => putBytes d 0 r.1
          if r.2 then do
            let rest ← fetchArgs q uargv k (i + 1)
            pure (page :: rest.1, rest.2)
          else pure ([page], false)

def freeArgs : List ℕ → VmM Unit
  | [] => pure ()
  | page :: argv => do
    kfree page
    freeArgs argv

/-- `exec` unless the arguments could not be fetched. -/
def execArgs (p : Slot) (file : Option Readi) (args : List ℕ × Bool) : ProcM (Option ℕ) :=
  if args.2 then exec p file args.1 else pure none

def sysExec (p : Slot) (uargv : ℕ) (file : Option Readi) : ProcM (Option ℕ) := do
  let q ← getProc p
  lift (setActor (.slot p))
  let args ← lift (fetchArgs q uargv MAXARG 0)
  let ret ← execArgs p file args
  lift (freeArgs args.1)
  pure ret

/-! ### Runs -/

/-- A store instruction of a user program; without the right to store it traps. -/
def userStore (p : Slot) (va : ℕ) (c : UInt8) : ProcM Unit := do
  let q ← getProc p
  if MAXVA ≤ va then pure ()
  else do
    match ← lift (walk q.pagetable va false) with
    | none => pure ()
    | some (t, i) => do
      let pte ← lift (readPte t i)
      if pte &&& PTE_V = 0 ∨ pte &&& PTE_U = 0 ∨ pte &&& PTE_W = 0 then pure ()
      else lift (poke (PTE2PA pte) fun d => putByte d (va % PGSIZE) c)

/-- The kernel takes a page for itself: page table, stacks, disk rings, pipes. -/
def kernelAlloc : ProcM Unit := do
  lift (setActor .kernel)
  let _ ← lift kalloc
  pure ()

def kernelFree (page : ℕ) : ProcM Unit := do
  lift (setActor .kernel)
  lift (kfree page)

inductive Call where
  | userinit (initcode : List UInt8)
  | fork (p : Slot)
  | exit (p : Slot) (status : ℤ)
  | wait (p : Slot) (addr : ℕ)
  | waitx (p : Slot) (addr : ℕ)
  | sbrk (p : Slot) (n : ℤ)
  | exec (p : Slot) (uargv : ℕ) (file : Option Readi)
  | store (p : Slot) (va : ℕ) (c : UInt8)
  | kernelAlloc
  | kernelFree (page : ℕ)

namespace Call

def prog : Call → ProcM Unit
  | .userinit initcode => Vm.userinit initcode
  | .fork p => do let _ ← Vm.fork p; pure ()
  | .exit p status => Vm.exit p status
  | .wait p addr => do let _ ← Vm.wait p addr; pure ()
  | .waitx p addr => do let _ ← Vm.waitx p addr; pure ()
  | .sbrk p n => do let _ ← growproc p n; pure ()
  | .exec p uargv file => do let _ ← sysExec p uargv file; pure ()
  | .store p va c => userStore p va c
  | .kernelAlloc => Vm.kernelAlloc
  | .kernelFree page => Vm.kernelFree page

/-- Calls are made by living processes; the kernel frees its own pages. -/
def Enabled (m : Machine) : Call → Prop
  | .userinit _ => m.initproc = none
  | .fork p | .exit p _ | .wait p _ | .waitx p _ | .sbrk p _ | .exec p _ _ | .store p _ _ =>
    (m.proc p).state = .runnable
  | .kernelAlloc => True
  | .kernelFree page => m.vm.holder page = some .kernel

instance (m : Machine) : (c : Call) → Decidable (c.Enabled m)
  | .userinit _ => inferInstanceAs (Decidable (m.initproc = none))
  | .fork p | .exit p _ | .wait p _ | .waitx p _ | .sbrk p _ | .exec p _ _ | .store p _ _ =>
    inferInstanceAs (Decidable ((m.proc p).state = .runnable))
  | .kernelAlloc => inferInstanceAs (Decidable True)
  | .kernelFree page => inferInstanceAs (Decidable (m.vm.holder page = some .kernel))

end Call

structure Kernel where
  machine : Machine
  /-- what the calls so far have recorded -/
  history : List Event
  halted : Bool

namespace Kernel

/-- A complete call, with the `kalloc` calls that are to fail. -/
def step (k : Kernel) (e : Call × List Bool) : Option Kernel :=
  if k.halted then none
  else if e.1.Enabled k.machine then
    match e.1.prog { k.machine with vm := { k.machine.vm with oom := e.2, trace := [] } } with
    | .ok _ m => some ⟨m, k.history ++ m.vm.trace, false⟩
    | .fault _ m => some ⟨m, k.history ++ m.vm.trace, true⟩
  else none

/-- The machine after `kinit`: `freerange` has freed the pages between `end` and
`PHYSTOP`, one after the other, which is not recorded, and every slot is zero. -/
def boot (l : Layout) (mem : ℕ → PageData) : Kernel where
  machine := {
    vm := { (upTo (fun i => kfree (l.base + i)) (PHYSTOP - l.base)
      ⟨l, mem, 0, [], .kernel, fun _ => none, []⟩).state with trace := [] }
    proc := fun _ => ⟨.unused, 0, 0, 0, 0, 0, none⟩
    initproc := none }
  history := []
  halted := false

def run (l : Layout) (mem : ℕ → PageData) (es : List (Call × List Bool)) : Option Kernel :=
  System.exec step (boot l mem) es

end Kernel

end Xv6.Vm
