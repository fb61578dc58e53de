import Xv6.Spec.Copy

/-! What `fork` makes of the parent's memory, and stores of one process as another sees them. -/

namespace Xv6.Vm

/-- The child in the slot `np` has the memory and the registers that the parent `p` had. -/
structure Snapshot (m m' : Machine) (p np : Slot) : Prop where
  sz : (m'.proc np).sz = (m.proc p).sz
  parent : m'.proc p = m.proc p
  pages : ∀ va, va < PGROUNDUP (m.proc p).sz → ∃ pte pte', m.vm.leaf (m.proc p).pagetable va = some pte ∧
    m'.vm.leaf (m.proc p).pagetable va = some pte ∧ m'.vm.leaf (m'.proc np).pagetable va = some pte' ∧
    PTE_FLAGS pte' = PTE_FLAGS pte ∧ PTE2PA pte' ≠ PTE2PA pte ∧
    ∀ k, k < PGSIZE → getByte (m'.vm.mem (PTE2PA pte)) k = getByte (m.vm.mem (PTE2PA pte)) k ∧
      getByte (m'.vm.mem (PTE2PA pte')) k = getByte (m.vm.mem (PTE2PA pte)) k
  /-- `a0` is word 14 of `struct trapframe` -/
  registers : ∀ j, j < 36 → m'.vm.mem (m'.proc np).trapframe j = if j = 14 then 0 else m.vm.mem (m.proc p).trapframe j

/-- A store of the process, or of the kernel on its behalf, through its page table. -/
def KernelOp.StoreBy (q : Slot) : KernelOp → Prop
  | .space (.store p _ _) => p = q
  | .copyout p _ _ => p = q
  | _ => False

/-- The process `r` may read the same addresses in `m'` as in `m`, and finds the same bytes there. -/
def Machine.ReadsSame (m m' : Machine) (r : Slot) : Prop :=
  ∀ va, (m'.vm.UserOk (m'.proc r).pagetable va ↔ m.vm.UserOk (m.proc r).pagetable va) ∧
    (m.vm.UserOk (m.proc r).pagetable va →
      m'.vm.userByte (m'.proc r).pagetable va = m.vm.userByte (m.proc r).pagetable va)

/-- From `m` on no store of one process changes what another one reads, whatever happens to the address spaces meanwhile. -/
def Machine.Isolated (m : Machine) : Prop :=
  ∀ es k, System.exec SpaceRun.kernelStep ⟨m, none⟩ es = some k → ∀ q r, q ≠ r → (k.machine.proc q).pagetable ≠ 0 →
    (k.machine.proc r).pagetable ≠ 0 → ∀ (e : KernelOp) oom k', e.StoreBy q → SpaceRun.kernelStep k (e, oom) = some k' →
      k.machine.ReadsSame k'.machine r

end Xv6.Vm
