import Xv6.Lib.Chain
import Xv6.Spec.SpaceOps

/-! A page table as a partial map from virtual pages to entries, and what makes a tree of page-table pages well formed. -/

namespace Xv6.Vm

open Prog

/-- The pages of a page table with their places: `t` is the table of that level for the virtual pages whose number starts with
`pref`. -/
inductive TableAt (mem : ℕ → PageData) (root : ℕ) : ℕ → ℕ → ℕ → Prop
  | root : TableAt mem root 2 0 root
  | next {level pref t i : ℕ} (ht : TableAt mem root (level + 1) pref t) (hi : i < 512) (hv : mem t i &&& PTE_V ≠ 0) :
      TableAt mem root level (pref * 512 + i) (PTE2PA (mem t i))

/-- No page has two places. -/
def TablesDistinct (mem : ℕ → PageData) (root : ℕ) : Prop :=
  ∀ level level' pref pref' t, TableAt mem root level pref t → TableAt mem root level' pref' t → level = level' ∧ pref = pref'

/-- Page-table pages are pairwise distinct and disjoint from the data pages mapped, and `kalloc` will hand out pages of RAM that
are neither. -/
structure WellFormed (s : State) (root : ℕ) : Prop where
  distinct : TablesDistinct s.mem root
  data : ∀ va pte, s.leaf root va = some pte → ∀ level pref t, TableAt s.mem root level pref t → PTE2PA pte ≠ t
  free : ∃ L, Chain.Spells (next s.mem) s.freelist L ∧ L.Nodup ∧
    ∀ x ∈ L, s.layout.Contains x ∧ (∀ level pref, ¬TableAt s.mem root level pref x) ∧
      ∀ va pte, s.leaf root va = some pte → PTE2PA pte ≠ x

/-- The page of `a` meets `[va, va+size)`. -/
def Meets (va size a : ℕ) : Prop := va / PGSIZE ≤ a / PGSIZE ∧ a / PGSIZE ≤ (va + size - 1) / PGSIZE

instance (va size a : ℕ) : Decidable (Meets va size a) := inferInstanceAs (Decidable (_ ∧ _))

/-- From `s` to `t` the pages that meet `[va, va+size)` were mapped to the pages from `page` on, and no binding changed besides. -/
def MapsRange (s t : State) (root va size page perm : ℕ) : Prop :=
  ∀ a, a < MAXVA →
    if Meets va size a then
      ∃ pte, t.leaf root a = some pte ∧ PTE2PA pte = page + (a / PGSIZE - va / PGSIZE) ∧ PTE_FLAGS pte = perm ||| PTE_V
    else t.leaf root a = s.leaf root a

/-- From `s` to `t` the bindings of the `n` pages from `va` on were removed, all of them there before, and no other one. -/
def UnmapsRange (s t : State) (root va n : ℕ) : Prop :=
  ∀ a, a < MAXVA →
    if va ≤ a ∧ a < va + n * PGSIZE then s.leaf root a ≠ none ∧ t.leaf root a = none else t.leaf root a = s.leaf root a

/-- The page is neither part of the page table nor free. -/
def State.Apart (s : State) (root x : ℕ) : Prop :=
  (∀ level pref, ¬TableAt s.mem root level pref x) ∧ ¬Chain.Listed (next s.mem) x s.freelist

/-- No other virtual page is mapped to the page of `va`. -/
def State.MappedOnce (s : State) (root va : ℕ) : Prop :=
  ∀ pte, s.leaf root va = some pte → ∀ a pte', s.leaf root a = some pte' → PTE2PA pte' = PTE2PA pte → a / PGSIZE = va / PGSIZE

end Xv6.Vm
