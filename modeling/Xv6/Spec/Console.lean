import Xv6.Lib.Counter
import Xv6.Lib.System

/-! Console input: `consoleintr` and `consoleread` of `kernel/console.c`, for processes that are
not killed and whose buffers are valid. `consoleintr` has `cons.lock` from its beginning to its end;
the loop of `consoleread` runs one round at a time. -/

namespace Xv6.Console

abbrev INPUT_BUF_SIZE : ℕ := 128

/-- `C(x)`, Control-x -/
def C (x : Char) : UInt8 := x.toUInt8 - '@'.toUInt8

def newline : UInt8 := '\n'.toUInt8

def carriageReturn : UInt8 := '\r'.toUInt8

def delete : UInt8 := 0x7f

/-- `x - y` for two `uint`s -/
def uintSub (x y : ℕ) : ℕ := Counter.sub (2 ^ 32) x y

def uintSucc (x : ℕ) : ℕ := (x + 1) % 2 ^ 32

/-- What happens to the input as a whole: a character is typed, or the call with the number `call` takes the
oldest committed one. -/
inductive Mark where
  | typed (c : UInt8)
  | taken (call : ℕ)
  deriving DecidableEq

/-- The edited input: all characters committed so far, who took the first of them, and those not committed yet. -/
structure Line where
  committed : List UInt8
  takers : List ℕ
  pending : List UInt8

/-- What the buffer has to hold. -/
def Line.held (l : Line) : ℕ := l.committed.length - l.takers.length + l.pending.length

def Line.commit (l : Line) : Line := { l with committed := l.committed ++ l.pending, pending := [] }

/-- The reference rule for a character other than the editing ones. -/
def Line.put (l : Line) (c : UInt8) : Line :=
  let l₁ := { l with pending := l.pending ++ [c] }
  if c = newline ∨ c = C 'D' ∨ l₁.held = INPUT_BUF_SIZE then l₁.commit else l₁

/-- The reference rule. -/
def Line.edit (l : Line) : Mark → Line
  | .taken call => { l with takers := l.takers ++ [call] }
  | .typed c =>
    if c = 0 ∨ c = C 'P' then l
    else if c = C 'U' then { l with pending := [] }
    else if c = C 'H' ∨ c = delete then { l with pending := l.pending.dropLast }
    else if l.held < INPUT_BUF_SIZE then l.put (if c = carriageReturn then newline else c)
    else l

def edited (history : List Mark) : Line := history.foldl Line.edit ⟨[], [], []⟩

/-- Where a process in `consoleread` is: at the top of the loop with `cons.lock`, SLEEPING on `&cons.r`, or woken
and in front of `acquire(lk)` in `sleep`. -/
inductive Phase where
  | loop
  | asleep
  | woken
  deriving DecidableEq

/-- Calls of `consoleread` have numbers; `target` and `n` are the variables of the call. -/
inductive Pc where
  | idle
  | reading (phase : Phase) (call target n : ℕ)
  deriving DecidableEq

/-- `cons` and its users. The last four fields only record: the number of calls of `consoleread`, what happened to
the input, the bytes delivered with the call that got them, and what the finished calls returned. -/
structure State (P : Type) where
  buf : ℕ → UInt8
  r : ℕ
  w : ℕ
  e : ℕ
  lock : Option P
  pc : P → Pc
  calls : ℕ
  history : List Mark
  got : List (ℕ × UInt8)
  returned : List (ℕ × ℕ)

inductive Event (P : Type) where
  | consoleintr (c : UInt8)
  | consoleread (p : P) (n : ℕ)
  /-- the next round of the loop that `p` is in, or the end of its `sleep` -/
  | run (p : P)

/-- The loop for Control-U, when `e - w` is `k`. -/
def killLine (buf : ℕ → UInt8) : ℕ → ℕ → ℕ
  | 0, e => e
  | k + 1, e => if buf (uintSub e 1 % INPUT_BUF_SIZE) ≠ newline then killLine buf k (uintSub e 1) else e

namespace State

variable {P : Type} [DecidableEq P]

def goto (s : State P) (p : P) (c : Pc) : State P := { s with pc := Function.update s.pc p c }

/-- `wakeup(&cons.r)` -/
def wakeup (s : State P) : State P :=
  { s with pc := fun q => match s.pc q with
      | .reading .asleep call target n => .reading .woken call target n
      | c => c }

/-- Store a character, and commit when a whole line (or end-of-file) has arrived. -/
def store (s : State P) (c : UInt8) : State P :=
  let s₁ := { s with buf := Function.update s.buf (s.e % INPUT_BUF_SIZE) c, e := uintSucc s.e }
  if c = newline ∨ c = C 'D' ∨ uintSub s₁.e s₁.r = INPUT_BUF_SIZE then { s₁ with w := s₁.e }.wakeup else s₁

def consoleintr (s : State P) (c : UInt8) : State P :=
  if c = C 'P' then s
  else if c = C 'U' then { s with e := killLine s.buf (uintSub s.e s.w) s.e }
  else if c = C 'H' ∨ c = delete then
    if s.e ≠ s.w then { s with e := uintSub s.e 1 } else s
  else if c ≠ 0 ∧ uintSub s.e s.r < INPUT_BUF_SIZE then s.store (if c = carriageReturn then newline else c)
  else s

/-- `release(&cons.lock)` and return. -/
def leave (s : State P) (p : P) (call k : ℕ) : State P :=
  { s.goto p .idle with lock := none, returned := s.returned ++ [(call, k)] }

/-- The rest of a round after the byte `c` has been taken: copy it, and return after a newline. -/
def deliver (s : State P) (p : P) (call target n : ℕ) (c : UInt8) : State P :=
  let s₁ := { s with got := s.got ++ [(call, c)] }
  if c = newline then s₁.leave p call (target - (n - 1)) else s₁.goto p (.reading .loop call target (n - 1))

/-- One round of the loop in `consoleread`. -/
def read (s : State P) (p : P) (call target n : ℕ) : State P :=
  if 0 < n then
    if s.r = s.w then { s.goto p (.reading .asleep call target n) with lock := none }
    else
      let c := s.buf (s.r % INPUT_BUF_SIZE)
      let s₁ := { s with r := uintSucc s.r, history := s.history ++ [Mark.taken call] }
      if c = C 'D' then
        -- with bytes already copied, the index goes back and nothing has been taken
        if n < target then { s with r := uintSub (uintSucc s.r) 1 }.leave p call (target - n)
        else s₁.leave p call (target - n)
      else s₁.deliver p call target n c
  else s.leave p call (target - n)

def step (s : State P) : Event P → Option (State P)
  | .consoleintr c =>
    if s.lock = none then some { s.consoleintr c with history := s.history ++ [Mark.typed c] } else none
  | .consoleread p n =>
    if s.lock = none ∧ s.pc p = .idle ∧ 0 < n then
      some { s.goto p (.reading .loop s.calls n n) with lock := some p, calls := s.calls + 1 }
    else none
  | .run p => match s.pc p with
    | .reading .loop call target n => some (s.read p call target n)
    | .reading .woken call target n =>
      if s.lock = none then some { s.goto p (.reading .loop call target n) with lock := some p } else none
    | _ => none

/-- The three indices have come to the same `uint`. -/
def init (buf : ℕ → UInt8) (start : ℕ) : State P where
  buf := buf
  r := start % 2 ^ 32
  w := start % 2 ^ 32
  e := start % 2 ^ 32
  lock := none
  pc := fun _ => .idle
  calls := 0
  history := []
  got := []
  returned := []

def run (buf : ℕ → UInt8) (start : ℕ) (es : List (Event P)) : Option (State P) :=
  System.exec step (init buf start) es

/-- The characters taken, each with the call that took it. -/
def taken (s : State P) : List (ℕ × UInt8) := (edited s.history).takers.zip (edited s.history).committed

def bytesOf (s : State P) (call : ℕ) : List UInt8 := (s.got.filter (·.1 = call)).map Prod.snd

/-- The line discipline: the indices are in order, readers get the edited input without its control-Ds, a read
gets nothing after a newline, and the reads that return 0 are those that took the control-Ds. -/
structure Disciplined (s : State P) : Prop where
  ordered : uintSub s.w s.r ≤ uintSub s.e s.r ∧ uintSub s.e s.r ≤ INPUT_BUF_SIZE
  bytes : s.got.map Prod.snd <+: (edited s.history).committed.filter (· ≠ C 'D')
  once : (s.returned.map Prod.fst).Nodup
  counts : ∀ call k, (call, k) ∈ s.returned → k = (s.bytesOf call).length
  lines : ∀ call, newline ∈ s.bytesOf call → newline ∉ (s.bytesOf call).dropLast ∧ ∃ k, (call, k) ∈ s.returned
  eofs : s.returned.filter (·.2 = 0) = (s.taken.filter (·.2 = C 'D')).map fun x => (x.1, 0)

end State

end Xv6.Console
