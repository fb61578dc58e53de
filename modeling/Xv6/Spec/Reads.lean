import Xv6.Spec.Console
import Xv6.Spec.Pipe

/-! What reads remove from a pipe or from the console, and what they report. The pipe is the one of `Pipe`. For
`consoleread` there are here also processes that are killed, and buffers of which only the first `room` bytes are mapped. -/

namespace Xv6

open Function

/-- A read that has returned: how many bytes it has removed from the buffer, whether it ended with an end-of-file mark and
no bytes, and what it returned. -/
structure Read where
  removed : ℕ
  eof : Bool
  ret : ℤ
  deriving DecidableEq

/-- The bytes removed are those reported (none, for -1), and the end-of-file mark. -/
def Read.Exact (x : Read) : Prop := x.removed = x.ret.toNat + if x.eof then 1 else 0

instance (x : Read) : Decidable x.Exact := inferInstanceAs (Decidable (_ = _))

namespace Pipe

/-- A pipe, the number of bytes that the calls under way have removed, and the calls of `piperead` that have returned. -/
structure Metered (P : Type) where
  pipe : State P
  removed : P → ℕ
  reads : List Read

def Pc.isRead : Pc → Bool
  | .read .. | .readAsleep .. | .readWoken .. | .readCopy .. => true
  | _ => false

namespace Metered

variable {P : Type} [DecidableEq P]

/-- A round of `p` that leads to `t`. -/
def round (m : Metered P) (p : P) (t : State P) : Metered P :=
  let k := m.removed p + if t.nread = m.pipe.nread then 0 else 1
  { pipe := t
    removed := update m.removed p k
    reads := if (m.pipe.pc p).isRead ∧ t.pc p = .idle then m.reads ++ [⟨k, false, (t.ret p).getD 0⟩] else m.reads }

def step (m : Metered P) (e : Event P) : Option (Metered P) :=
  (m.pipe.step e).map fun t => match e with
    | .piperead p _ _ => { m with pipe := t, removed := update m.removed p 0 }
    | .run p => m.round p t
    | _ => { m with pipe := t }

def init (data : ℕ → UInt8) (nread count : ℕ) : Metered P := ⟨State.init data nread count, fun _ => 0, []⟩

def run (data : ℕ → UInt8) (nread count : ℕ) (es : List (Event P)) : Option (Metered P) :=
  System.exec step (init data nread count) es

/-- The byte that a round takes out of the pipe can be stored. -/
def Fits (m : Metered P) : Event P → Prop
  | .run p => match m.pipe.pc p with
    | .readCopy n room i => i < n → m.pipe.nread ≠ m.pipe.nwrite → i < room
    | _ => True
  | _ => True

end Metered

end Pipe

namespace Console

/-- The console, the mapped bytes of the destinations, who is killed, the number of bytes that the calls under way have
removed, and the calls of `consoleread` that have returned. -/
structure Metered (P : Type) where
  cons : State P
  room : P → ℕ
  killed : P → Bool
  removed : P → ℕ
  reads : List Read

inductive Action (P : Type) where
  | consoleintr (c : UInt8)
  /-- a negative number of bytes is like 0 -/
  | consoleread (p : P) (n room : ℕ)
  | kill (p : P)
  | run (p : P)

/-- The event as an action, a read with `room` mapped bytes. -/
def Event.action {P : Type} (room : ℕ) : Event P → Action P
  | .consoleintr c => .consoleintr c
  | .consoleread p n => .consoleread p n room
  | .run p => .run p

namespace Metered

variable {P : Type} [DecidableEq P]

/-- One round of the loop in `consoleread`; if the call ends, whether by an end-of-file mark and no bytes, and
what it returns. -/
def round (m : Metered P) (p : P) (call target n : ℕ) : State P × Option (Bool × ℤ) :=
  let s := m.cons
  if 0 < n then
    if s.r = s.w then
      if m.killed p then ({ s.goto p .idle with lock := none }, some (false, -1))
      else ({ s.goto p (.reading .asleep call target n) with lock := none }, none)
    else
      let c := s.buf (s.r % INPUT_BUF_SIZE)
      let s₁ := { s with r := uintSucc s.r, history := s.history ++ [Mark.taken call] }
      if c = C 'D' then
        if n < target then
          ({ s with r := uintSub (uintSucc s.r) 1 }.leave p call (target - n), some (false, ((target - n : ℕ) : ℤ)))
        else (s₁.leave p call (target - n), some (true, ((target - n : ℕ) : ℤ)))
      else if target - n < m.room p then
        (s₁.deliver p call target n c, if c = newline then some (false, ((target - (n - 1) : ℕ) : ℤ)) else none)
      else (s₁.leave p call (target - n), some (false, ((target - n : ℕ) : ℤ)))
  else (s.leave p call (target - n), some (false, ((target - n : ℕ) : ℤ)))

/-- The state after a round of `p`. -/
def after (m : Metered P) (p : P) (t : State P × Option (Bool × ℤ)) : Metered P :=
  let k := m.removed p + if t.1.r = m.cons.r then 0 else 1
  { m with
    cons := t.1
    removed := update m.removed p k
    reads := m.reads ++ (t.2.map fun x => ⟨k, x.1, x.2⟩).toList }

def step (m : Metered P) : Action P → Option (Metered P)
  | .consoleintr c =>
    if m.cons.lock = none then
      some { m with cons := { m.cons.consoleintr c with history := m.cons.history ++ [Mark.typed c] } }
    else none
  | .consoleread p n room =>
    if m.cons.lock = none ∧ m.cons.pc p = .idle then
      some { m with
        cons := { m.cons.goto p (.reading .loop m.cons.calls n n) with lock := some p, calls := m.cons.calls + 1 }
        room := update m.room p room
        removed := update m.removed p 0 }
    else none
  | .kill p =>
    some { m with
      killed := update m.killed p true
      cons := match m.cons.pc p with
        | .reading .asleep call target n => m.cons.goto p (.reading .woken call target n)
        | _ => m.cons }
  | .run p => match m.cons.pc p with
    | .reading .loop call target n => some (m.after p (m.round p call target n))
    | .reading .woken call target n =>
      if m.cons.lock = none then
        some { m with cons := { m.cons.goto p (.reading .loop call target n) with lock := some p } }
      else none
    | _ => none

def init (buf : ℕ → UInt8) (start : ℕ) : Metered P :=
  ⟨State.init buf start, fun _ => 0, fun _ => false, fun _ => 0, []⟩

def run (buf : ℕ → UInt8) (start : ℕ) (as : List (Action P)) : Option (Metered P) :=
  System.exec step (init buf start) as

/-- The byte that a round takes out of the buffer can be stored, and a killed process has not taken any. -/
def Fits (m : Metered P) : Action P → Prop
  | .run p => match m.cons.pc p with
    | .reading .loop _ target n =>
      0 < n → (m.cons.r ≠ m.cons.w → m.cons.buf (m.cons.r % INPUT_BUF_SIZE) ≠ C 'D' → target - n < m.room p) ∧
        (m.cons.r = m.cons.w → m.killed p = true → n = target)
    | _ => True
  | _ => True

end Metered

end Console

end Xv6
