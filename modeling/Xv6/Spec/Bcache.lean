import Xv6.Lib.Count
import Xv6.Lib.Ring
import Xv6.Lib.System
import Xv6.Spec.Log

/-! The buffer cache of `kernel/bio.c` with the part of `kernel/log.c` that pins buffers.
Every critical section under `bcache.lock` is one event, as are the tests of a
sleep lock and the sections of `log_write` around its call of `bpin`. Processes may
call `bread`, `bwrite`, `brelse` and `log_write` as they like; `commit` is run
statement by statement. The contents of the blocks are left out. -/

namespace Xv6.Bcache

open Function

/-- `&bcache.buf[i]`, and `&bcache.head` behind them. -/
abbrev Ptr := Fin (NBUF + 1)

def head : Ptr := Fin.last NBUF

/-- A `struct buf`; `lock` is the holder of the sleep lock. -/
structure Buf (P : Type) where
  valid : Bool
  dev : ℕ
  blockno : ℕ
  refcnt : ℕ
  lock : Option P

/-- The block that `commit` reads next. -/
inductive Target where
  /-- `log.start+tail+1` -/
  | log (tail : ℕ)
  /-- `log.lh.block[tail]` -/
  | home (tail : ℕ)
  /-- `log.start` -/
  | header

/-- The statements of `commit`. Buffers are named by their place among those the process
holds, the last one locked being 0. -/
inductive Instr where
  | commit
  | writeLog (tail : ℕ)
  | writeHead
  | installTrans (tail : ℕ)
  | clear
  | bread (t : Target)
  | bwrite (i : ℕ)
  | bunpin (i : ℕ)
  | brelse (i : ℕ)

inductive Call where
  | idle
  /-- in `acquiresleep(&b->lock)`, about to test `locked` -/
  | locking (b : Ptr)
  | asleep (b : Ptr)
  /-- in `bread`, with the lock -/
  | reading (b : Ptr)
  /-- in `brelse`, behind `releasesleep` -/
  | releasing (b : Ptr)
  /-- in `log_write` with `log.lock`, in front of `bpin` -/
  | pinning (b : Ptr)
  /-- in `log_write` with `log.lock`, behind `bpin` -/
  | pinned (b : Ptr)
  deriving DecidableEq

/-- Where a process is with regard to `begin_op` and `end_op`. -/
inductive Op where
  | out
  | inside
  | committing (script : List Instr)

/-- The buffers that a process has locked, the last one first, and the call it is in. -/
structure Ctl where
  held : List Ptr
  call : Call

inductive Panic where
  | bget
  | bwrite
  | brelse
  | logCommitting
  | tooBig
  | outsideTrans
  deriving DecidableEq

structure Links where
  next : Ptr → Ptr
  prev : Ptr → Ptr

/-- The last three fields only record: the number of calls of `brelse` so far, when each buffer was
last released, and the blocks that `bpin` has pinned and `bunpin` not unpinned. -/
structure State (P : Type) where
  buf : Ptr → Buf P
  links : Links
  dev : ℕ
  start : ℕ
  size : ℕ
  lh : List ℕ
  outstanding : ℤ
  committing : Bool
  logLock : Option P
  ctl : P → Ctl
  op : P → Op
  panic : Option Panic
  now : ℕ
  released : Ptr → ℕ
  pins : List ℕ

inductive Event (P : Type) where
  /-- `bread`, up to the release of `bcache.lock` in `bget` -/
  | bread (p : P) (dev blockno : ℕ)
  | lock (p : P)
  /-- a sleeping process is woken without need, as by `kill` -/
  | wake (p : P)
  | read (p : P)
  | bwrite (p : P) (b : Ptr)
  | brelse (p : P) (b : Ptr)
  /-- the section of `brelse` under `bcache.lock` -/
  | unref (p : P)
  | logWrite (p : P) (b : Ptr)
  | bpin (p : P)
  | logged (p : P)
  | beginOp (p : P)
  | endOp (p : P)
  /-- the next statement of `commit` -/
  | commit (p : P)
  | finish (p : P)

namespace Links

/-- `b->next->prev = b->prev; b->prev->next = b->next;` -/
def unlink (l : Links) (b : Ptr) : Links :=
  let prev := update l.prev (l.next b) (l.prev b)
  ⟨update l.next (prev b) (l.next b), prev⟩

/-- `b->next = bcache.head.next; b->prev = &bcache.head; bcache.head.next->prev = b;
bcache.head.next = b;` -/
def insert (l : Links) (b : Ptr) : Links :=
  let next := update l.next b (l.next head)
  let prev := update l.prev b head
  ⟨update next head b, update prev (next head) b⟩

end Links

/-- The links that `binit` makes. -/
def binit : Links := ((List.finRange NBUF).map Fin.castSucc).foldl Links.insert ⟨fun _ => head, fun _ => head⟩

/-- `b->refcnt--` of a `uint`. -/
def decr (n : ℕ) : ℕ := if n = 0 then 2 ^ 32 - 1 else n - 1

namespace State

variable {P : Type} [DecidableEq P]

def setBuf (s : State P) (b : Ptr) (f : Buf P → Buf P) : State P :=
  { s with buf := update s.buf b (f (s.buf b)) }

def setCtl (s : State P) (p : P) (f : Ctl → Ctl) : State P :=
  { s with ctl := update s.ctl p (f (s.ctl p)) }

def setCall (s : State P) (p : P) (c : Call) : State P := s.setCtl p fun x => { x with call := c }

def setOp (s : State P) (p : P) (o : Op) : State P := { s with op := update s.op p o }

/-- The first loop of `bget`. -/
def cached (s : State P) (dev blockno : ℕ) : Option (Option Ptr) :=
  Ring.search s.links.next head (fun b => (s.buf b).dev = dev ∧ (s.buf b).blockno = blockno) (NBUF + 1)
    (s.links.next head)

/-- The second loop of `bget`. -/
def unused (s : State P) : Option (Option Ptr) :=
  Ring.search s.links.prev head (fun b => (s.buf b).refcnt = 0) (NBUF + 1) (s.links.prev head)

/-- `bget` up to `acquiresleep`; `none` if a loop does not end. -/
def bget (s : State P) (p : P) (dev blockno : ℕ) : Option (State P) :=
  match s.cached dev blockno with
  | none => none
  | some (some b) => some ((s.setBuf b fun x => { x with refcnt := x.refcnt + 1 }).setCall p (.locking b))
  | some none =>
    match s.unused with
    | none => none
    | some (some b) =>
      some ((s.setBuf b fun x => { x with dev := dev, blockno := blockno, valid := false, refcnt := 1 }).setCall p
        (.locking b))
    | some none => some { s with panic := some .bget }

/-- One round of the loop in `acquiresleep`. -/
def acquiresleep (s : State P) (p : P) (b : Ptr) : State P :=
  if (s.buf b).lock = none then (s.setBuf b fun x => { x with lock := some p }).setCall p (.reading b)
  else s.setCall p (.asleep b)

/-- The rest of `bread`. -/
def read (s : State P) (p : P) (b : Ptr) : State P :=
  (s.setBuf b fun x => { x with valid := true }).setCtl p fun x => { x with held := b :: x.held, call := .idle }

def bwrite (s : State P) (p : P) (b : Ptr) : State P :=
  if (s.buf b).lock = some p then s else { s with panic := some .bwrite }

/-- `wakeup(&b->lock)` -/
def wakeup (s : State P) (b : Ptr) : State P :=
  { s with ctl := fun q => if (s.ctl q).call = .asleep b then { s.ctl q with call := .locking b } else s.ctl q }

/-- `brelse` up to the end of `releasesleep`. -/
def brelse (s : State P) (p : P) (b : Ptr) : State P :=
  if (s.buf b).lock = some p then
    ((s.setBuf b fun x => { x with lock := none }).wakeup b).setCtl p fun x =>
      { x with held := x.held.erase b, call := .releasing b }
  else { s with panic := some .brelse }

/-- The rest of `brelse`. -/
def unref (s : State P) (p : P) (b : Ptr) : State P :=
  let refcnt := decr (s.buf b).refcnt
  { (s.setBuf b fun x => { x with refcnt := refcnt }).setCall p .idle with
    links := if refcnt = 0 then (s.links.unlink b).insert b else s.links
    now := s.now + 1
    released := update s.released b (s.now + 1) }

/-- `log_write` up to `bpin`, or to its end if the block is absorbed. -/
def logWrite (s : State P) (p : P) (b : Ptr) : State P :=
  if tooBig s.size s.lh then { s with panic := some .tooBig }
  else if s.outstanding < 1 then { s with panic := some .outsideTrans }
  else if (s.buf b).blockno ∈ s.lh then s
  else { s.setCall p (.pinning b) with logLock := some p }

def bpin (s : State P) (p : P) (b : Ptr) : State P :=
  { (s.setBuf b fun x => { x with refcnt := x.refcnt + 1 }).setCall p (.pinned b) with
    pins := s.pins ++ [(s.buf b).blockno] }

/-- The rest of `log_write`: `log.lh.n++`. -/
def logged (s : State P) (p : P) (b : Ptr) : State P :=
  { s.setCall p .idle with lh := s.lh ++ [(s.buf b).blockno], logLock := none }

/-- `begin_op`, when it finds that it need not sleep. -/
def beginOp (s : State P) (p : P) : Option (State P) :=
  if s.committing then none
  else if (s.lh.length : ℤ) + (s.outstanding + 1) * MAXOPBLOCKS > LOGSIZE then none
  else some { s.setOp p .inside with outstanding := s.outstanding + 1 }

/-- The first critical section of `end_op`. -/
def endOp (s : State P) (p : P) : State P :=
  let s₁ := { s with outstanding := s.outstanding - 1 }
  if s₁.committing then { s₁ with panic := some .logCommitting }
  else if s₁.outstanding = 0 then { s₁.setOp p (.committing [.commit]) with committing := true }
  else s₁.setOp p .out

/-- The second critical section of `end_op`. -/
def finish (s : State P) (p : P) : State P := { s.setOp p .out with committing := false }

def bunpin (s : State P) (b : Ptr) : State P :=
  { s.setBuf b (fun x => { x with refcnt := decr x.refcnt }) with pins := s.pins.erase (s.buf b).blockno }

def target (s : State P) : Target → ℕ
  | .log tail => s.start + tail + 1
  | .home tail => s.lh.getD tail 0
  | .header => s.start

/-- The body of `commit`, and of the loops in `write_log` and `install_trans`. -/
def body : Instr → List Instr
  | .commit => [.writeLog 0, .writeHead, .installTrans 0, .clear, .writeHead]
  | .writeLog tail => [.bread (.log tail), .bread (.home tail), .bwrite 1, .brelse 0, .brelse 0, .writeLog (tail + 1)]
  | .writeHead => [.bread .header, .bwrite 0, .brelse 0]
  | .installTrans tail =>
    [.bread (.log tail), .bread (.home tail), .bwrite 0, .bunpin 0, .brelse 1, .brelse 0, .installTrans (tail + 1)]
  | _ => []

/-- One statement of `commit`; `is` are the ones behind it. -/
def exec (s : State P) (p : P) (is : List Instr) (i : Instr) : Option (State P) :=
  let s₁ := s.setOp p (.committing is)
  let more := s.setOp p (.committing (body i ++ is))
  match i with
  | .commit => some (if 0 < s.lh.length then more else s₁)
  | .writeLog tail | .installTrans tail => some (if tail < s.lh.length then more else s₁)
  | .writeHead => some more
  | .clear => some { s₁ with lh := [] }
  | .bread t => s₁.bget p s.dev (s.target t)
  | .bwrite k => ((s.ctl p).held[k]?).map fun b => s₁.bwrite p b
  | .bunpin k => ((s.ctl p).held[k]?).map fun b => s₁.bunpin b
  | .brelse k => ((s.ctl p).held[k]?).map fun b => s₁.brelse p b

/-- A process that is not in `commit` makes a call. -/
def calls (s : State P) (p : P) (t : Option (State P)) : Option (State P) :=
  match (s.ctl p).call, s.op p with
  | .idle, .out | .idle, .inside => t
  | _, _ => none

def step (s : State P) (e : Event P) : Option (State P) :=
  if s.panic = none then
    match e with
    | .bread p dev blockno => s.calls p (s.bget p dev blockno)
    | .bwrite p b => s.calls p (some (s.bwrite p b))
    | .brelse p b => s.calls p (some (s.brelse p b))
    | .logWrite p b =>
      -- the caller holds the buffer, of the device with the log
      s.calls p (if s.logLock = none ∧ b ∈ (s.ctl p).held ∧ (s.buf b).dev = s.dev then some (s.logWrite p b) else none)
    | .beginOp p => s.calls p (if s.logLock = none then s.beginOp p else none)
    | .endOp p =>
      match s.op p with
      | .inside => s.calls p (if s.logLock = none then some (s.endOp p) else none)
      | _ => none
    | .commit p =>
      match (s.ctl p).call, s.op p with
      | .idle, .committing (i :: is) => s.exec p is i
      | _, _ => none
    | .finish p =>
      match (s.ctl p).call, s.op p with
      | .idle, .committing [] => if s.logLock = none then some (s.finish p) else none
      | _, _ => none
    | .lock p => match (s.ctl p).call with
      | .locking b => some (s.acquiresleep p b)
      | _ => none
    | .wake p => match (s.ctl p).call with
      | .asleep b => some (s.setCall p (.locking b))
      | _ => none
    | .read p => match (s.ctl p).call with
      | .reading b => some (s.read p b)
      | _ => none
    | .unref p => match (s.ctl p).call with
      | .releasing b => some (s.unref p b)
      | _ => none
    | .bpin p => match (s.ctl p).call with
      | .pinning b => some (s.bpin p b)
      | _ => none
    | .logged p => match (s.ctl p).call with
      | .pinned b => some (s.logged p b)
      | _ => none
  else none

/-- After `binit`, with the log on device `dev`. -/
def init (dev start size : ℕ) : State P where
  buf := fun _ => ⟨false, 0, 0, 0, none⟩
  links := binit
  dev := dev
  start := start
  size := size
  lh := []
  outstanding := 0
  committing := false
  logLock := none
  ctl := fun _ => ⟨[], .idle⟩
  op := fun _ => .out
  panic := none
  now := 0
  released := fun _ => 0
  pins := []

def run (dev start size : ℕ) (es : List (Event P)) : Option (State P) :=
  System.exec step (init dev start size) es

end State

end Xv6.Bcache
