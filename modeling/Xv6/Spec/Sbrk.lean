import Xv6.Spec.SpaceOps

/-! `sys_sbrk`, and what its caller takes it to have done. -/

namespace Xv6.Vm

open Prog

/-- The size before, or `none` for -1; `n` is the `int` that `argint` has fetched. -/
def sysSbrk (p : Slot) (n : ℤ) : ProcM (Option ℕ) := do
  let q ← getProc p
  let addr := q.sz
  if ← growproc p n then pure (some addr) else pure none

/-- The page that `va` is mapped to, and its flags. -/
def State.binding (s : State) (pagetable va : ℕ) : Option (ℕ × ℕ) :=
  (s.leaf pagetable va).map fun pte => (PTE2PA pte, PTE_FLAGS pte)

/-- The process finds at `va` the page it had there, with the contents it had. -/
def Machine.SameAt (m m' : Machine) (p : Slot) (va : ℕ) : Prop :=
  m'.vm.binding (m'.proc p).pagetable va = m.vm.binding (m.proc p).pagetable va ∧
    ∀ y f, m.vm.binding (m.proc p).pagetable va = some (y, f) → m'.vm.mem y = m.vm.mem y

/-- `sbrk(n)` has done what it reports. A call that failed may keep pages only as page tables. -/
def Machine.Reports (m m' : Machine) (p : Slot) (n : ℤ) : Option ℕ → Prop
  | none => m'.proc = m.proc ∧ (∀ va, m.SameAt m' p va) ∧
    ∀ x, m'.vm.holder x ≠ none → m'.vm.holder x = m.vm.holder x ∨ ∃ level, TablePage m'.vm.mem (m.proc p).pagetable level x
  | some addr => addr = (m.proc p).sz ∧ ((m'.proc p).sz : ℤ) = (m.proc p).sz + n ∧
    (∀ va, va < min (m.proc p).sz (m'.proc p).sz → m.SameAt m' p va) ∧
    ∀ va, PGROUNDUP (m.proc p).sz ≤ va → va < PGROUNDUP (m'.proc p).sz →
      ∃ y f, m'.vm.binding (m'.proc p).pagetable va = some (y, f) ∧ ∀ k, k < PGSIZE → getByte (m'.vm.mem y) k = 0

end Xv6.Vm
