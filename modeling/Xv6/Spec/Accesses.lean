import Xv6.Spec.Sched

/-! `remove_from_queue` once more, with the slots of the array that it loads from or stores to. -/

namespace Xv6

open Prog

/-- Programs that record the slots they access. -/
abbrev AccessM := Prog (Sched × List ℤ) SchedFault

def quietly {α : Type} (x : SchedM α) : AccessM α := zoom Prod.fst (fun t s => (t, s.2)) x

/-- An access to slot `i`. -/
def access {α : Type} (i : ℤ) (x : SchedM α) : AccessM α := do
  modify fun s => (s.1, s.2 ++ [i])
  quietly x

def shiftA (k : Fin 5) : ℕ → ℤ → AccessM Unit
  | 0, _ => pure ()
  | n + 1, j => do
    let v ← access (j + 1) (readQ k (j + 1))
    access j (writeQ k j v)
    shiftA k n (j + 1)

def removeScanA (k : Fin 5) (pid : ℤ) : ℕ → ℤ → AccessM Unit
  | 0, _ => pure ()
  | n + 1, i => do
    let p ← access i (derefQ k i)
    if (← gets fun s => s.1.proc p).pid = pid then
      let last ← gets fun s => s.1.ptr k
      shiftA k (last - i).toNat i
      quietly (setPtr k (last - 1))
    else removeScanA k pid n (i + 1)

def removeFromQueueA (pid : ℤ) (k : Fin 5) : AccessM Unit := do
  removeScanA k pid ((← gets fun s => s.1.ptr k) + 1).toNat 0

/-- Queue `k` holds the processes `l`. -/
structure Sched.Content (s : Sched) (k : Fin 5) (l : List Slot) : Prop where
  ptr : s.ptr k = l.length - 1
  fits : l.length ≤ NPROC
  slots : ∀ i : Slot, i.val < l.length → s.queue k i = l[i.val]?

end Xv6
