import Xv6.Lib.Writes
import Xv6.Spec.Sched

/-! Traps from user space of one process: `uservec` and `userret` of `kernel/trampoline.S`,
`usertrap` and `usertrapret` of `kernel/trap.c`, `syscall` of `kernel/syscall.c`, and the
system calls that touch the trapframe or the alarm. Between two traps the program may
do anything to its registers. A trap in which the process exits, or the kernel panics,
has no next state. -/

namespace Xv6.Trap

/-- The registers `x1` to `x31`. -/
inductive Reg where
  | ra | sp | gp | tp | t0 | t1 | t2 | s0 | s1 | a0 | a1 | a2 | a3 | a4 | a5 | a6 | a7
  | s2 | s3 | s4 | s5 | s6 | s7 | s8 | s9 | s10 | s11 | t3 | t4 | t5 | t6
  deriving DecidableEq

/-- What a user program computes with. -/
@[ext] structure User where
  pc : UInt64
  reg : Reg → UInt64

/-- The members of `struct trapframe`. -/
inductive Word where
  | kernelSatp
  | kernelSp
  | kernelTrap
  | epc
  | kernelHartid
  | reg (r : Reg)
  deriving DecidableEq

def Reg.offset : Reg → ℕ
  | .ra => 40 | .sp => 48 | .gp => 56 | .tp => 64 | .t0 => 72 | .t1 => 80 | .t2 => 88 | .s0 => 96 | .s1 => 104
  | .a0 => 112 | .a1 => 120 | .a2 => 128 | .a3 => 136 | .a4 => 144 | .a5 => 152 | .a6 => 160 | .a7 => 168
  | .s2 => 176 | .s3 => 184 | .s4 => 192 | .s5 => 200 | .s6 => 208 | .s7 => 216 | .s8 => 224 | .s9 => 232
  | .s10 => 240 | .s11 => 248 | .t3 => 256 | .t4 => 264 | .t5 => 272 | .t6 => 280

def Word.offset : Word → ℕ
  | .kernelSatp => 0
  | .kernelSp => 8
  | .kernelTrap => 16
  | .epc => 24
  | .kernelHartid => 32
  | .reg r => r.offset

/-- `sizeof(struct trapframe)` -/
def frameSize : ℕ := 288

/-- A page that holds a `struct trapframe`: the words at the byte offsets. -/
abbrev Frame := ℕ → UInt64

namespace Frame

def get (f : Frame) (w : Word) : UInt64 := f w.offset

def set (f : Frame) (w : Word) (v : UInt64) : Frame := Function.update f w.offset v

/-- `*dst = *src` -/
def assign (dst src : Frame) : Frame := fun k => if k < frameSize then src k else dst k

/-- The user registers that a frame holds. -/
def user (f : Frame) : User := ⟨f.get .epc, fun r => f.get (.reg r)⟩

end Frame

/-- The stores of `uservec`; `a0` comes last, by way of `sscratch` and `t0`. -/
def uservec : List (Reg × ℕ) :=
  [(.ra, 40), (.sp, 48), (.gp, 56), (.tp, 64), (.t0, 72), (.t1, 80), (.t2, 88), (.s0, 96), (.s1, 104),
    (.a1, 120), (.a2, 128), (.a3, 136), (.a4, 144), (.a5, 152), (.a6, 160), (.a7, 168),
    (.s2, 176), (.s3, 184), (.s4, 192), (.s5, 200), (.s6, 208), (.s7, 216), (.s8, 224), (.s9, 232), (.s10, 240),
    (.s11, 248), (.t3, 256), (.t4, 264), (.t5, 272), (.t6, 280), (.a0, 112)]

/-- The loads of `userret`. -/
def userret : List (Reg × ℕ) :=
  [(.ra, 40), (.sp, 48), (.gp, 56), (.tp, 64), (.t0, 72), (.t1, 80), (.t2, 88), (.s0, 96), (.s1, 104),
    (.a1, 120), (.a2, 128), (.a3, 136), (.a4, 144), (.a5, 152), (.a6, 160), (.a7, 168),
    (.s2, 176), (.s3, 184), (.s4, 192), (.s5, 200), (.s6, 208), (.s7, 216), (.s8, 224), (.s9, 232), (.s10, 240),
    (.s11, 248), (.t3, 256), (.t4, 264), (.t5, 272), (.t6, 280), (.a0, 112)]

def store (reg : Reg → UInt64) (f : Frame) : Frame :=
  Writes.applyWrites f (uservec.map fun e => (e.2, reg e.1))

def load (f : Frame) (reg : Reg → UInt64) : Reg → UInt64 :=
  Writes.applyWrites reg (userret.map fun e => (e.1, f e.2))

/-- The fields of `struct proc` that traps use. -/
structure Proc where
  pid : ℤ
  kstack : UInt64
  mask : ℤ
  trapframe : Frame
  handler : UInt64
  tickss : ℤ
  nowTicks : ℤ
  trapframeCopy : Frame
  isSigalarm : Bool

/-- The hart that goes back to user mode, and what is left in its registers. -/
structure Hart where
  satp : UInt64
  hartid : UInt64
  reg : Reg → UInt64

/-- What a system call does that is not modelled here. -/
structure Input where
  /-- what it returns -/
  ret : UInt64
  /-- the entry point and the stack pointer of the image, if `exec` succeeds -/
  image : Option (UInt64 × UInt64)
  /-- what is read behind the end of `syscallnum`, unless the read faults -/
  behind : Option ℤ
  /-- whether a word behind the end of `syscall_names` can be printed as a name -/
  named : Bool

/-- A line that `syscall` prints for a traced call; the name is missing if it is read behind
the end of `syscall_names`. -/
structure Trace where
  pid : ℤ
  name : Option String
  args : List ℤ
  ret : ℤ
  deriving DecidableEq

def SYS_exit : ℤ := 2
def SYS_exec : ℤ := 7
def SYS_trace : ℤ := 22
def SYS_sigalarm : ℤ := 26
def SYS_sigreturn : ℤ := 27

/-- The number of arguments of each system call, from index 0 on. -/
def syscallnum : List ℤ :=
  [0, 0, 1, 1, 0, 3, 2, 2, 1, 1, 1, 0, 1, 1, 0, 2, 3, 3, 1, 2, 1, 1, 1, 2, 2, 3, 2, 0]

/-- Index 0 holds a null pointer, which is printed as `(null)`. -/
def syscallNames : List String :=
  ["(null)", "fork", "exit", "wait", "pipe", "read", "kill", "exec", "fstat", "chdir", "dup", "getpid", "sbrk",
    "sleep", "uptime", "open", "write", "mknod", "unlink", "link", "mkdir", "close", "trace", "setPriority",
    "settickets", "waitx"]

/-- `NELEM(syscalls)`; every entry but the first is a function. -/
def nsyscalls : ℤ := 28

def intOf (x : UInt64) : ℤ := int32 x.toNat

/-- `argraw`, which panics for other numbers. -/
def argraw (f : Frame) : ℕ → Option UInt64
  | 0 => some (f.get (.reg .a0))
  | 1 => some (f.get (.reg .a1))
  | 2 => some (f.get (.reg .a2))
  | 3 => some (f.get (.reg .a3))
  | 4 => some (f.get (.reg .a4))
  | 5 => some (f.get (.reg .a5))
  | _ => none

namespace Proc

def setFrame (p : Proc) (w : Word) (v : UInt64) : Proc := { p with trapframe := p.trapframe.set w v }

def sysTrace (p : Proc) : Proc := { p with mask := intOf (p.trapframe.get (.reg .a0)) }

def sysSigalarm (p : Proc) : Proc :=
  { p with isSigalarm := false, tickss := intOf (p.trapframe.get (.reg .a0)), nowTicks := 0,
           handler := p.trapframe.get (.reg .a1) }

def restore (p : Proc) : Proc :=
  let copy := (((p.trapframeCopy.set .kernelSatp (p.trapframe.get .kernelSatp)).set .kernelSp
    (p.trapframe.get .kernelSp)).set .kernelTrap (p.trapframe.get .kernelTrap)).set .kernelHartid
      (p.trapframe.get .kernelHartid)
  { p with trapframeCopy := copy, trapframe := p.trapframe.assign copy }

def sysSigreturn (p : Proc) : Proc := { p.restore with isSigalarm := false }

/-- What `exec` does to the trapframe. -/
def sysExec (p : Proc) : Option (UInt64 × UInt64) → Proc
  | none => p
  | some (entry, sp) => ((p.setFrame (.reg .a1) sp).setFrame .epc entry).setFrame (.reg .sp) sp

/-- `syscalls[num]()` -/
def call (p : Proc) (i : Input) (num : ℤ) : Option (Proc × UInt64) :=
  if num = SYS_exit then none
  else if num = SYS_exec then some (p.sysExec i.image, if i.image = none then -1 else i.ret)
  else if num = SYS_trace then some (p.sysTrace, 0)
  else if num = SYS_sigalarm then some (p.sysSigalarm, 0)
  else if num = SYS_sigreturn then some (p.sysSigreturn, 0)
  else some (p, i.ret)

/-- `p->mask & (1<<num)` -/
def traced (p : Proc) (num : ℤ) : Prop := p.mask / 2 ^ num.toNat % 2 = 1

instance (p : Proc) (num : ℤ) : Decidable (p.traced num) := inferInstanceAs (Decidable (_ = _))

/-- The line for a traced call. -/
def trace (p : Proc) (num : ℤ) (args : List UInt64) : Trace :=
  ⟨p.pid, syscallNames[num.toNat]?, args.map intOf, intOf (p.trapframe.get (.reg .a0))⟩

/-- `syscallnum[num]` -/
def nargs (i : Input) (num : ℤ) : Option ℤ :=
  if 0 ≤ num ∧ num < syscallnum.length then syscallnum[num.toNat]? else i.behind

def syscall (p : Proc) (i : Input) : Option (Proc × List Trace) :=
  let num := intOf (p.trapframe.get (.reg .a7))
  (nargs i num).bind fun length =>
  ((List.range length.toNat).mapM (argraw p.trapframe)).bind fun args =>
  if 0 < num ∧ num < nsyscalls then
    (p.call i num).bind fun (q, ret) =>
      let q := q.setFrame (.reg .a0) ret
      if q.traced num then
        if num.toNat < syscallNames.length ∨ i.named then some (q, [q.trace num args]) else none
      else some (q, [])
  else some (p.setFrame (.reg .a0) (-1), [])

/-- The alarm is due at the next timer interrupt. -/
def Due (p : Proc) : Prop := p.tickss > 0 ∧ int32 (p.nowTicks + 1) ≥ p.tickss ∧ p.isSigalarm = false

instance (p : Proc) : Decidable p.Due := inferInstanceAs (Decidable (_ ∧ _))

/-- What `usertrap` does for a timer interrupt, apart from `yield`. -/
def alarm (p : Proc) : Proc :=
  if p.Due then
    { p with nowTicks := 0, isSigalarm := true, trapframeCopy := p.trapframeCopy.assign p.trapframe,
             trapframe := p.trapframe.set .epc p.handler }
  else { p with nowTicks := int32 (p.nowTicks + 1) }

end Proc

/-- The builds whose `usertrap` has the code for timer interrupts. -/
def hasAlarm : Build → Bool
  | .rr | .lbs | .mlfq => true
  | .fcfs | .pbs => false

/-- What happened to the saved frame. -/
inductive Mark where
  /-- a handler is started, with these registers saved -/
  | saved (u : User)
  /-- `sigreturn` restored these registers -/
  | restored (u : User)

def Mark.isSaved : Mark → Bool
  | .saved _ => true
  | .restored _ => false

structure State where
  user : User
  proc : Proc
  console : List Trace
  /-- history -/
  marks : List Mark

inductive Event where
  /-- the program runs, up to registers `u` -/
  | user (u : User)
  | timer (h : Hart)
  | device (h : Hart)
  /-- `ecall` -/
  | syscall (i : Input) (h : Hart)

section

-- the address of `usertrap`
variable (usertrapAddr : UInt64)

def usertrapret (p : Proc) (h : Hart) : Proc × User :=
  let p := (((p.setFrame .kernelSatp h.satp).setFrame .kernelSp (p.kstack + 4096)).setFrame .kernelTrap
    usertrapAddr).setFrame .kernelHartid h.hartid
  (p, ⟨p.trapframe.get .epc, load p.trapframe h.reg⟩)

namespace State

/-- `uservec`, and `usertrap` up to the test of `scause`. -/
def enter (s : State) : Proc :=
  { s.proc with trapframe := (store s.user.reg s.proc.trapframe).set .epc s.user.pc }

def leave (s : State) (p : Proc) (h : Hart) (console : List Trace) (marks : List Mark) : State :=
  ⟨(usertrapret usertrapAddr p h).2, (usertrapret usertrapAddr p h).1, s.console ++ console, s.marks ++ marks⟩

/-- The process after a timer interrupt, and whether a handler is started. -/
def timer (b : Build) (s : State) (h : Hart) : State :=
  if hasAlarm b then
    s.leave usertrapAddr s.enter.alarm h [] (if s.enter.Due then [.saved s.user] else [])
  else s.leave usertrapAddr s.enter h [] []

/-- The number of the system call that an `ecall` makes now. -/
def num (s : State) : ℤ := intOf (s.user.reg .a7)

def syscall (s : State) (i : Input) (h : Hart) : Option State :=
  let p := s.enter.setFrame .epc (s.enter.trapframe.get .epc + 4)
  (p.syscall i).map fun (q, console) =>
    s.leave usertrapAddr q h console (if s.num = SYS_sigreturn then [.restored s.proc.trapframeCopy.user] else [])

def step (b : Build) (s : State) : Event → Option State
  | .user u => some { s with user := u }
  | .timer h => some (s.timer usertrapAddr b h)
  | .device h => some (s.leave usertrapAddr s.enter h [] [])
  | .syscall i h => s.syscall usertrapAddr i h

end State

end

end Xv6.Trap
