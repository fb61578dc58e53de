import Xv6.Spec.Protect

/-! Transfers between user memory and kernel buffers: `copyin` with the kernel memory it stores to, `fetchstr` and `argstr`
with the buffer they fill, and the references that go byte by byte through the user's addresses. -/

namespace Xv6.Vm

open Prog

/-- `memmove(dst, bytes, n)` in kernel memory. -/
def fill (buf : ℕ → UInt8) (dst : ℕ) (bytes : List UInt8) (j : ℕ) : UInt8 :=
  if dst ≤ j then bytes[j - dst]?.getD (buf j) else buf j

/-- Whether `copyin` returned 0, and the kernel memory afterwards. -/
def copyinTo (pagetable dst srcva len : ℕ) (buf : ℕ → UInt8) : VmM (Bool × (ℕ → UInt8)) := do
  let r ← copyin pagetable srcva len
  pure (r.2, fill buf dst r.1)

/-- What a call that wants a string returns. -/
inductive Fetched where
  /-- -1 -/
  | failed
  | length (n : ℕ)
  /-- `strlen` ran past the end of the buffer -/
  | overrun
  deriving DecidableEq

/-- `strlen`, in a buffer. -/
def strlen (buf : List UInt8) : Fetched :=
  match buf.findIdx? fun c => c = 0 with
  | some n => .length n
  | none => .overrun

/-- `fetchstr(addr, buf, max)` with a buffer of `max` bytes, and the buffer afterwards. -/
def fetchstr (pagetable addr : ℕ) (buf : List UInt8) : VmM (Fetched × List UInt8) := do
  let r ← copyinstr pagetable addr buf.length
  let buf := r.1 ++ buf.drop r.1.length
  if r.2 then pure (strlen buf, buf) else pure (.failed, buf)

/-- `argraw`: a0 to a5 are the words 14 to 19 of the trapframe. -/
def argraw (trapframe : ℕ) (n : Fin 6) : VmM ℕ := gets fun s => s.mem trapframe (14 + n)

def argstr (q : Proc) (n : Fin 6) (buf : List UInt8) : VmM (Fetched × List UInt8) := do
  let addr ← argraw q.trapframe n
  fetchstr q.pagetable addr buf

/-! ### Byte by byte -/

/-- The user may access `va`: it is below MAXVA, in a page whose leaf PTE has PTE_V and PTE_U. -/
def State.UserOk (s : State) (pagetable va : ℕ) : Prop :=
  va < MAXVA ∧ ∃ pte, s.leaf pagetable va = some pte ∧ pte &&& PTE_U ≠ 0

/-- The byte there. -/
def State.userByte (s : State) (pagetable va : ℕ) : UInt8 := getByte (s.mem (s.userPage pagetable va)) (va % PGSIZE)

/-- The first `m` of the addresses from `va` on may be accessed, and if there are more than `m` then the next one not. -/
def State.OkFor (s : State) (pagetable va len m : ℕ) : Prop :=
  m ≤ len ∧ (∀ i, i < m → s.UserOk pagetable (va + i)) ∧ (m < len → ¬s.UserOk pagetable (va + m))

/-- One byte after the other is stored at the addresses from `va` on. -/
def storeBytes (page : ℕ → ℕ) : ℕ → List UInt8 → (ℕ → PageData) → ℕ → PageData
  | _, [], mem => mem
  | va, c :: cs, mem =>
    storeBytes page (va + 1) cs (setPage mem (page va) (putByte (mem (page va)) (va % PGSIZE) c))

/-- A string of `k` bytes and a NUL starts at `va`. -/
def State.StringAt (s : State) (pagetable va k : ℕ) : Prop :=
  (∀ i, i ≤ k → s.UserOk pagetable (va + i)) ∧ s.userByte pagetable (va + k) = 0 ∧
    ∀ i, i < k → s.userByte pagetable (va + i) ≠ 0

/-- The `n` bytes from `va` on. -/
def State.userBytes (s : State) (pagetable va n : ℕ) : List UInt8 := (List.range n).map fun i => s.userByte pagetable (va + i)

/-- `x` fetches the string at `va` into a buffer that held `buf`: on success it returns the length, and it never looks for
the end of a string that is not there. -/
def State.Fetches (s : State) (pagetable va : ℕ) (buf : List UInt8) (x : VmM (Fetched × List UInt8)) : Prop :=
  ∃ r buf', x s = .ok (r, buf') s ∧ r ≠ .overrun ∧ (r = .failed ↔ ∀ k, k < buf.length → ¬s.StringAt pagetable va k) ∧
    ∀ k, k < buf.length → s.StringAt pagetable va k →
      r = .length k ∧ buf' = s.userBytes pagetable va (k + 1) ++ buf.drop (k + 1)

/-- A page table that gives the user nothing but pages of RAM, and none of its own pages. -/
structure UserTable (s : State) (pagetable : ℕ) : Prop where
  ram : ∀ va pte, s.leaf pagetable va = some pte → pte &&& PTE_U ≠ 0 → s.layout.Contains (PTE2PA pte)
  apart : ∀ va pte, s.leaf pagetable va = some pte → pte &&& PTE_U ≠ 0 →
    ∀ level t, TablePage s.mem pagetable level t → PTE2PA pte ≠ t

end Xv6.Vm
