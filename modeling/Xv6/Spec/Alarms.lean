import Xv6.Spec.Trap

/-! The alarms of all processes: the traps of `Trap`, and `fork`, `exit` and the reuse of slots by `allocproc`. A slot
keeps the fields of its last process. The state also records which handlers the process in a slot has registered
since its last successful `exec`. -/

namespace Xv6.Alarms

open Trap Function

structure State where
  live : Slot → Bool
  task : Slot → Trap.State
  /-- history -/
  asked : Slot → List UInt64

inductive Event where
  /-- the program of `p` runs, or it traps; a `fork` that is made so has failed -/
  | trap (p : Slot) (e : Trap.Event)
  /-- a `fork` that succeeds; the child goes to user mode on `h'` -/
  | fork (p np : Slot) (pid : ℤ) (i : Input) (h h' : Hart)
  /-- `p` exits, or is killed, and is reaped -/
  | exit (p : Slot)

def SYS_fork : ℤ := 1

/-- `kalloc` fills a page with 5s. -/
def junk : Frame := fun _ => 0x0505050505050505

/-- What `allocproc` sets of these fields. -/
def allocproc (p : Trap.Proc) (pid : ℤ) : Trap.Proc :=
  { p with pid := pid, trapframe := junk, trapframeCopy := junk, isSigalarm := false, tickss := 0, nowTicks := 0, handler := 0 }

/-- The child of a `fork` of `p`, in the slot of `np`. -/
def fork (np p : Trap.Proc) (pid : ℤ) : Trap.Proc :=
  let np := allocproc np pid
  { np with mask := p.mask, trapframe := (np.trapframe.assign p.trapframe).set (.reg .a0) 0 }

/-- The handlers that the process has asked for, after the trap. -/
def heard (t : Trap.State) (asked : List UInt64) : Trap.Event → List UInt64
  | .syscall i _ =>
    if t.num = SYS_sigalarm then t.user.reg .a1 :: asked
    else if t.num = SYS_exec ∧ i.image ≠ none then [] else asked
  | _ => asked

section

variable (usertrapAddr : UInt64)

namespace State

def trap (b : Build) (s : State) (p : Slot) (e : Trap.Event) : Option State :=
  ((s.task p).step usertrapAddr b e).map fun t =>
    { s with task := update s.task p t, asked := update s.asked p (heard (s.task p) (s.asked p) e) }

/-- The process of `np`, when it goes to user mode for the first time. -/
def start (s : State) (np : Slot) (q : Trap.Proc) (h : Hart) : State :=
  { live := update s.live np true
    task := update s.task np ((s.task np).leave usertrapAddr q h [] [])
    asked := update s.asked np [] }

def step (b : Build) (s : State) : Event → Option State
  | .trap p e => if s.live p then s.trap usertrapAddr b p e else none
  | .fork p np pid i h h' =>
    if s.live p ∧ ¬s.live np ∧ (s.task p).num = SYS_fork then
      let parent := (s.task p).enter
      (s.trap usertrapAddr b p (.syscall i h)).map fun t =>
        t.start usertrapAddr np
          (Alarms.fork (s.task np).proc (parent.setFrame .epc (parent.trapframe.get .epc + 4)) pid) h'
    else none
  | .exit p => if s.live p then some { s with live := update s.live p false } else none

end State

/-- `procinit` and `userinit` -/
def boot (kstack : Slot → UInt64) (h : Hart) : State :=
  let none : State :=
    { live := fun _ => false
      task := fun p => ⟨⟨0, fun _ => 0⟩, ⟨0, kstack p, 0, fun _ => 0, 0, 0, 0, fun _ => 0, false⟩, [], []⟩
      asked := fun _ => [] }
  none.start usertrapAddr 0 (((allocproc (none.task 0).proc 1).setFrame .epc 0).setFrame (.reg .sp) 4096) h

def run (b : Build) (kstack : Slot → UInt64) (h : Hart) (es : List Event) : Option State :=
  System.exec (State.step usertrapAddr b) (boot usertrapAddr kstack h) es

end

end Xv6.Alarms
