import Xv6.Lib.Logged
import Xv6.Spec.Trap

/-! `syscall` of `kernel/syscall.c` once more, with the accesses to its tables, the size of the array on the stack,
the calls of `argraw` and the handler that is run. -/

namespace Xv6.Trap

inductive Table where
  | syscallnum
  | syscalls
  | syscallNames
  deriving DecidableEq

/-- The declared length. -/
def Table.length : Table → ℤ
  | .syscallnum => Trap.syscallnum.length
  | .syscalls => nsyscalls
  | .syscallNames => Trap.syscallNames.length

inductive Op where
  | index (t : Table) (k : ℤ)
  /-- `int collec_syscall_names[length]` -/
  | snapshot (length : ℤ)
  | argraw (n : ℕ)
  | handler (num : ℤ)
  deriving DecidableEq

namespace Proc

/-- The number of the system call. -/
def num (p : Proc) : ℤ := intOf (p.trapframe.get (.reg .a7))

/-- The arguments, stored on the stack for the line of a traced call. -/
def snapshot (p : Proc) (length : ℤ) : Logged Op (List UInt64) := do
  Logged.emit (.snapshot length) (some ())
  Logged.traverse (fun n => Logged.emit (.argraw n) (argraw p.trapframe n)) (List.range length.toNat)

/-- The line for a traced call, with the name from the table. -/
def report (p : Proc) (i : Input) (num : ℤ) (args : List UInt64) : Logged Op (Proc × List Trace) := do
  Logged.emit (.index .syscallNames num) (if num.toNat < syscallNames.length ∨ i.named then some () else none)
  Logged.emit (.argraw 0) (some ())
  pure (p, [p.trace num args])

/-- The branch for the numbers of handlers. The entry is not null; it is read again for the call. -/
def handle (p : Proc) (i : Input) (num : ℤ) (args : List UInt64) : Logged Op (Proc × List Trace) := do
  Logged.emit (.index .syscalls num) (some ())
  Logged.emit (.index .syscalls num) (some ())
  let r ← Logged.emit (.handler num) (p.call i num)
  let q := r.1.setFrame (.reg .a0) r.2
  if q.traced num then q.report i num args else pure (q, [])

/-- `syscall`, where `num` is `p->trapframe->a7`. -/
def dispatch (p : Proc) (i : Input) (num : ℤ) : Logged Op (Proc × List Trace) := do
  let length ← Logged.emit (.index .syscallnum num) (nargs i num)
  let args ← p.snapshot length
  if 0 < num ∧ num < nsyscalls then p.handle i num args
  else pure (p.setFrame (.reg .a0) (-1), [])

/-- A handler has this number. -/
def Names (num : ℤ) : Prop := 0 < num ∧ num < nsyscalls

/-- The dispatch keeps to its tables, and it runs the handler that `a7` names, or none. -/
structure Dispatches (p : Proc) (i : Input) : Prop where
  inside : ∀ t k, .index t k ∈ (p.dispatch i p.num).log → 0 ≤ k ∧ k < t.length
  length : ∀ length, .snapshot length ∈ (p.dispatch i p.num).log → 0 ≤ length ∧ length ≤ 6
  argraw : ∀ n, .argraw n ∈ (p.dispatch i p.num).log → argraw p.trapframe n ≠ none
  handler : ∀ n, .handler n ∈ (p.dispatch i p.num).log ↔ n = p.num ∧ Names n
  unknown : ¬Names p.num → p.syscall i = some (p.setFrame (.reg .a0) (-1), [])

end Proc

end Xv6.Trap
