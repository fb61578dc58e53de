import Xv6.Spec.SpaceOps

/-! Write protection: the operations on address spaces together with the stores that system calls make through `copyout`,
and the user pages that a program may only read. -/

namespace Xv6.Vm

open Prog

/-- What `walkaddr` returns. -/
def State.userPage (s : State) (pagetable va : ℕ) : ℕ :=
  if MAXVA ≤ va then 0
  else
    match s.leaf pagetable va with
    | none => 0
    | some pte => if pte &&& PTE_U = 0 then 0 else PTE2PA pte

/-- The rounds that `copyout` of `len` bytes makes: the page addresses from that of `dstva` on, as far as they are needed and
each one and those before it are user pages. -/
def Reaches (page : ℕ → ℕ) (dstva len va : ℕ) : Prop :=
  0 < len ∧ ∃ j, va = PGROUNDDOWN dstva + j * PGSIZE ∧ va < dstva + len ∧
    ∀ i, i ≤ j → page (PGROUNDDOWN dstva + i * PGSIZE) ≠ 0

/-- `va` is in a page of the user that the user cannot store to. -/
def Machine.ReadOnly (m : Machine) (p : Slot) (va pte : ℕ) : Prop :=
  (m.proc p).pagetable ≠ 0 ∧ va < MAXVA ∧ m.vm.leaf (m.proc p).pagetable va = some pte ∧ pte &&& PTE_U ≠ 0 ∧ pte &&& PTE_W = 0

/-- Every such page has the bytes it had. -/
def Machine.Spares (m m' : Machine) : Prop :=
  ∀ q va pte, m.ReadOnly q va pte → ∀ k, k < PGSIZE →
    getByte (m'.vm.mem (PTE2PA pte)) k = getByte (m.vm.mem (PTE2PA pte)) k

inductive KernelOp where
  | space (e : SpaceOp)
  /-- the store of `read`, `fstat`, `wait`, `waitx`, `pipe` and others -/
  | copyout (p : Slot) (dstva : ℕ) (src : List UInt8)

namespace KernelOp

def prog : KernelOp → ProcM Unit
  | .space e => e.prog
  | .copyout p dstva src => do
    let q ← getProc p
    let _ ← lift (Vm.copyout q.pagetable dstva src)
    pure ()

def Enabled (m : Machine) : KernelOp → Prop
  | .space e => e.Enabled m
  | .copyout p _ _ => (m.proc p).pagetable ≠ 0

instance (m : Machine) : (e : KernelOp) → Decidable (e.Enabled m)
  | .space e => inferInstanceAs (Decidable (e.Enabled m))
  | .copyout p _ _ => inferInstanceAs (Decidable ((m.proc p).pagetable ≠ 0))

end KernelOp

namespace SpaceRun

/-- A complete operation, with the `kalloc` calls that are to fail. -/
def kernelStep (k : SpaceRun) (e : KernelOp × List Bool) : Option SpaceRun :=
  if k.panic.isSome then none
  else if e.1.Enabled k.machine then
    match e.1.prog { k.machine with vm := { k.machine.vm with oom := e.2, trace := [] } } with
    | .ok _ m => some ⟨m, none⟩
    | .fault panic m => some ⟨m, some panic⟩
  else none

def kernelRun (l : Layout) (mem : ℕ → PageData) (es : List (KernelOp × List Bool)) : Option SpaceRun :=
  System.exec kernelStep ⟨(Kernel.boot l mem).machine, none⟩ es

end SpaceRun

end Xv6.Vm
