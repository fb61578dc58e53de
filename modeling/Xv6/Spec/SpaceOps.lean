import Xv6.Spec.VmProc

/-! User address spaces on their own: the functions that make, resize, replace, copy and
drop the page table of a process, called in any order and with any `kalloc` made to
fail. In between, user programs store to their memory and the rest of the kernel takes
and gives back pages. -/

namespace Xv6.Vm

open Prog

/-- What `walk` finds for `va`: the page table entry, if it is valid. -/
def leafPte (pagetable va : ℕ) : VmM (Option ℕ) := do
  match ← walk pagetable va false with
  | none => pure none
  | some (t, i) => do
    let pte ← readPte t i
    pure (if pte &&& PTE_V = 0 then none else some pte)

def State.leaf (s : State) (pagetable va : ℕ) : Option ℕ :=
  match leafPte pagetable va s with
  | .ok r _ => r
  | .fault _ _ => none

/-- The physical page that `va` is mapped to. -/
def State.pageAt (s : State) (pagetable va : ℕ) : Option ℕ := (s.leaf pagetable va).map PTE2PA

/-- The pages that a page table consists of, with their levels. -/
inductive TablePage (mem : ℕ → PageData) (root : ℕ) : ℕ → ℕ → Prop
  | root : TablePage mem root 2 root
  | next {level t i : ℕ} (ht : TablePage mem root (level + 1) t) (hi : i < 512) (hv : mem t i &&& PTE_V ≠ 0) :
      TablePage mem root level (PTE2PA (mem t i))

/-! ### The operations -/

/-- The part of `allocproc` that makes an address space; when the page table cannot be
made, the trapframe page is forgotten. -/
def createSpace (p : Slot) : ProcM Unit := do
  lift (setActor (.slot p))
  let tf ← lift kalloc
  if tf = 0 then pure ()
  else do
    let pagetable ← lift (procPagetable tf)
    if pagetable = 0 then pure ()
    else updProc p fun q => { q with trapframe := tf, pagetable := pagetable, sz := 0 }

/-- `uvmalloc` as `exec` and `growproc` call it, with the rights of a segment. -/
def allocSpace (p : Slot) (newsz flags : ℕ) : ProcM Bool := do
  let q ← getProc p
  lift (setActor (.slot p))
  let sz ← lift (uvmalloc q.pagetable q.sz (uint64 newsz) (flags2perm flags))
  if sz = 0 then pure false
  else do
    updProc p fun q => { q with sz := sz }
    pure true

def deallocSpace (p : Slot) (newsz : ℕ) : ProcM Bool := do
  let q ← getProc p
  lift (setActor (.slot p))
  let sz ← lift (uvmdealloc q.pagetable q.sz (uint64 newsz))
  updProc p fun q => { q with sz := sz }
  pure true

def execSpace (p : Slot) (file : Option Readi) (argv : List ℕ) : ProcM (Option ℕ) := do
  lift (setActor (.slot p))
  exec p file argv

def dropSpace (p : Slot) : ProcM Unit := do
  let q ← getProc p
  lift (setActor (.slot p))
  lift (procFreepagetable q.pagetable q.sz)
  updProc p fun q => { q with pagetable := 0, sz := 0 }

/-- The part of `fork` that copies the parent's memory into the new page table of the child. -/
def copySpace (p np : Slot) : ProcM Unit := do
  let parent ← getProc p
  let child ← getProc np
  lift (setActor (.slot np))
  if ← lift (uvmcopy parent.pagetable child.pagetable parent.sz) then updProc np fun q => { q with sz := parent.sz }
  else dropSpace np

inductive SpaceOp where
  | create (p : Slot)
  | alloc (p : Slot) (newsz flags : ℕ)
  | dealloc (p : Slot) (newsz : ℕ)
  | grow (p : Slot) (n : ℤ)
  | exec (p : Slot) (file : Option Readi) (argv : List ℕ)
  | copy (p np : Slot)
  | drop (p : Slot)
  | store (p : Slot) (va : ℕ) (c : UInt8)
  | kernelAlloc
  | kernelFree (page : ℕ)

namespace SpaceOp

def prog : SpaceOp → ProcM Unit
  | .create p => createSpace p
  | .alloc p newsz flags => do let _ ← allocSpace p newsz flags; pure ()
  | .dealloc p newsz => do let _ ← deallocSpace p newsz; pure ()
  | .grow p n => do let _ ← growproc p n; pure ()
  | .exec p file argv => do let _ ← execSpace p file argv; pure ()
  | .copy p np => copySpace p np
  | .drop p => dropSpace p
  | .store p va c => userStore p va c
  | .kernelAlloc => Vm.kernelAlloc
  | .kernelFree page => Vm.kernelFree page

/-- An address space is made for a slot that has none and copied into one that is still
empty; the other operations are on address spaces that exist. -/
def Enabled (m : Machine) : SpaceOp → Prop
  | .create p => (m.proc p).pagetable = 0
  | .alloc p _ _ | .dealloc p _ | .grow p _ | .exec p _ _ | .drop p | .store p _ _ => (m.proc p).pagetable ≠ 0
  | .copy p np => p ≠ np ∧ (m.proc p).pagetable ≠ 0 ∧ (m.proc np).pagetable ≠ 0 ∧ (m.proc np).sz = 0
  | .kernelAlloc => True
  | .kernelFree page => m.vm.holder page = some .kernel

instance (m : Machine) : (e : SpaceOp) → Decidable (e.Enabled m)
  | .create p => inferInstanceAs (Decidable ((m.proc p).pagetable = 0))
  | .alloc p _ _ | .dealloc p _ | .grow p _ | .exec p _ _ | .drop p | .store p _ _ =>
    inferInstanceAs (Decidable ((m.proc p).pagetable ≠ 0))
  | .copy p np => inferInstanceAs
    (Decidable (p ≠ np ∧ (m.proc p).pagetable ≠ 0 ∧ (m.proc np).pagetable ≠ 0 ∧ (m.proc np).sz = 0))
  | .kernelAlloc => inferInstanceAs (Decidable True)
  | .kernelFree page => inferInstanceAs (Decidable (m.vm.holder page = some .kernel))

end SpaceOp

/-- The machine, and the panic that has stopped it. -/
structure SpaceRun where
  machine : Machine
  panic : Option Panic

namespace SpaceRun

/-- A complete operation, with the `kalloc` calls that are to fail. -/
def step (k : SpaceRun) (e : SpaceOp × List Bool) : Option SpaceRun :=
  if k.panic.isSome then none
  else if e.1.Enabled k.machine then
    match e.1.prog { k.machine with vm := { k.machine.vm with oom := e.2, trace := [] } } with
    | .ok _ m => some ⟨m, none⟩
    | .fault panic m => some ⟨m, some panic⟩
  else none

def run (l : Layout) (mem : ℕ → PageData) (es : List (SpaceOp × List Bool)) : Option SpaceRun :=
  System.exec step ⟨(Kernel.boot l mem).machine, none⟩ es

end SpaceRun

end Xv6.Vm
