import Xv6.Spec.Procs

/-! `sys_waitx`, in the scan of the table that ends the call: what becomes of the table, what is stored in user memory and
what is returned. Which addresses the user may store to is an input. -/

namespace Xv6.Procs

/-- What a variable of the kernel holds. -/
inductive Word where
  | value (x : ℤ)
  /-- it was never set -/
  | junk
  deriving DecidableEq

/-- The table, and the bytes stored so far: their address, and the variable they are from. -/
structure Call where
  state : State
  stored : List (ℕ × Word)

/-- `copyout` of a variable of four bytes: they are stored one by one, up to the first one that cannot be. -/
def Call.copyout (c : Call) (ok : ℕ → Bool) (addr : ℕ) (w : Word) : Call :=
  { c with stored := c.stored ++ ((List.range 4).takeWhile fun i => ok (addr + i)).map fun i => (addr + i, w) }

/-- That `copyout` returns 0. -/
def Fits (ok : ℕ → Bool) (addr : ℕ) : Prop := ∀ i, i < 4 → ok (addr + i) = true

instance (ok : ℕ → Bool) (addr : ℕ) : Decidable (Fits ok addr) := inferInstanceAs (Decidable (∀ i, i < 4 → _))

structure Waited extends Call where
  ret : ℤ
  rtime : Word
  wtime : Word

namespace State

/-- The status of `q` is copied out, if that is asked for. -/
def copyStatus (s : State) (q : Slot) (ok : ℕ → Bool) (addr : ℕ) : Call :=
  if addr ≠ 0 then Call.copyout ⟨s, []⟩ ok addr (.value (s.proc q).xstate) else ⟨s, []⟩

/-- The scan of `waitx`; none if it is going to sleep. -/
def waitxScan (s : State) (p : Slot) (ok : ℕ → Bool) (addr : ℕ) : Option Waited :=
  match s.deadChild p with
  | some q =>
    let np := s.proc q
    let c := s.copyStatus q ok addr
    if addr ≠ 0 ∧ ¬Fits ok addr then some ⟨c, -1, .value np.rtime, .value np.wtime⟩
    else some ⟨{ c with state := s.set q freeproc }, np.pid, .value np.rtime, .value np.wtime⟩
  | none =>
    if (s.find fun pr => pr.parent = some p) = none ∨ (s.proc p).killed ≠ 0 then some ⟨⟨s, []⟩, -1, .junk, .junk⟩
    else none

/-- What `sys_waitx` returns, and what it has done. It hands its variable `wtime` to `waitx` for `rtime`. -/
def sysWaitx (s : State) (p : Slot) (ok : ℕ → Bool) (addr addr1 addr2 : ℕ) : Option (ℤ × Call) :=
  (s.waitxScan p ok addr).map fun w =>
    let c := w.copyout ok addr1 w.rtime
    if Fits ok addr1 then (if Fits ok addr2 then w.ret else -1, c.copyout ok addr2 w.wtime) else (-1, c)

/-- `q` is a dead child of `p` with status `x`. -/
def Dead (s : State) (p q : Slot) (x : ℤ) : Prop :=
  (s.proc q).parent = some p ∧ (s.proc q).state = .zombie ∧ (s.proc q).xstate = x

/-- On -1 no child is reaped and nothing is stored that was never set; otherwise all results of the child are stored. -/
def AllOrNothing (s : State) (p : Slot) (addr addr1 addr2 : ℕ) (r : ℤ × Call) : Prop :=
  (r.1 = -1 → (∀ q x, r.2.state.Dead p q x ↔ s.Dead p q x) ∧ ∀ b ∈ r.2.stored, b.2 ≠ .junk) ∧
  (r.1 ≠ -1 → ∃ q, s.deadChild p = some q ∧ r.1 = (s.proc q).pid ∧ ∀ i, i < 4 →
    (addr ≠ 0 → (addr + i, .value (s.proc q).xstate) ∈ r.2.stored) ∧ (addr1 + i, .value (s.proc q).rtime) ∈ r.2.stored ∧
      (addr2 + i, .value (s.proc q).wtime) ∈ r.2.stored)

end State

end Xv6.Procs
