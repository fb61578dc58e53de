import Xv6.Spec.VmProc

/-! The page allocator on its own: `kalloc`, `kfree` of pages that are allocated, and the stores of the owners to their
pages. -/

namespace Xv6.Vm

structure Allocator where
  vm : State
  /-- the pages that were handed out and not given back -/
  live : List ℕ

namespace Allocator

inductive Event where
  | kalloc
  | kfree (page : ℕ)
  /-- the owner stores to its page -/
  | store (page : ℕ) (data : PageData)

def step (s : Allocator) : Event → Option Allocator
  | .kalloc =>
    match Vm.kalloc s.vm with
    | .ok r t => some ⟨t, if r = 0 then s.live else r :: s.live⟩
    | .fault _ _ => none
  | .kfree page =>
    if page ∈ s.live then
      match Vm.kfree page s.vm with
      | .ok _ t => some ⟨t, s.live.erase page⟩
      | .fault _ _ => none
    else none
  | .store page data =>
    if page ∈ s.live then some { s with vm := { s.vm with mem := setPage s.vm.mem page data } } else none

def kinit (l : Layout) (mem : ℕ → PageData) : Allocator := ⟨(Kernel.boot l mem).machine.vm, []⟩

def run (l : Layout) (mem : ℕ → PageData) (es : List Event) : Option Allocator := System.exec step (kinit l mem) es

end Allocator

end Xv6.Vm
