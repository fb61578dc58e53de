import Xv6.Lib.System
import Xv6.Spec.Param

/-! `filewrite` of `kernel/file.c` by processes that share one `struct file` of type FD_INODE. A call stops in
front of `begin_op` and `ilock` for each of its chunks and has the inode's lock for `writei` and the update of
`f->off`. The content of the inode is a list of blocks; which of them is on the disk where is left to `bmap`. -/

namespace Xv6.Filewrite

/-- Where the bytes come from, at `src`, `src + 1`, ...: `none` where nothing is mapped. -/
abbrev Src := ℕ → Option UInt8

/-- How many of the `m` bytes from `start` on `either_copyin` copies. -/
def mapped (src : Src) (start : ℕ) : ℕ → ℕ
  | 0 => 0
  | m + 1 => if (src start).isSome then mapped src (start + 1) m + 1 else 0

/-- The bytes of an inode, block by block. -/
abbrev Blocks := ℕ → ℕ → UInt8

def Blocks.byte (d : Blocks) (k : ℕ) : UInt8 := d (k / BSIZE) (k % BSIZE)

/-- `either_copyin` into block `bn`, from byte `start` on, where `m` bytes can be copied. -/
def Blocks.copyin (d : Blocks) (bn start : ℕ) (src : ℕ → UInt8) (m : ℕ) : Blocks :=
  Function.update d bn fun j => if start ≤ j ∧ j < start + m then src (j - start) else d bn j

/-- The loop of `writei`: `tot` bytes are written, and at most `fuel` rounds are left. `alloc bn` says whether `bmap`
finds or allocates a block for `bn`. -/
def writeRounds (alloc : ℕ → Bool) (src : Src) (off n : ℕ) : ℕ → ℕ → Blocks → ℕ × Blocks
  | 0, tot, d => (tot, d)
  | fuel + 1, tot, d =>
    if tot < n then
      if alloc ((off + tot) / BSIZE) = false then (tot, d)
      else
        let m := min (n - tot) (BSIZE - (off + tot) % BSIZE)
        let d₁ := d.copyin ((off + tot) / BSIZE) ((off + tot) % BSIZE) (fun k => (src (tot + k)).getD 0) (mapped src tot m)
        if mapped src tot m < m then (tot, d₁) else writeRounds alloc src off n fuel (tot + m) d₁
    else (tot, d)

structure Inode where
  size : ℕ
  blocks : Blocks

/-- `writei`; every round writes a byte, so that `n` rounds are enough. -/
def writei (ip : Inode) (alloc : ℕ → Bool) (src : Src) (off n : ℕ) : ℤ × Inode :=
  if off > ip.size ∨ (off + n) % 2 ^ 32 < off then (-1, ip)
  else if (off + n) % 2 ^ 32 > MAXFILE * BSIZE then (-1, ip)
  else
    let (tot, d) := writeRounds alloc src off n n 0 ip.blocks
    (tot, ⟨max ip.size (off + tot), d⟩)

/-- `max` in `filewrite` -/
def maxChunk : ℕ := (MAXOPBLOCKS - 1 - 1 - 2) / 2 * BSIZE

/-- Calls of `filewrite(f, addr, n)` have numbers, and `src` are the bytes that `copyin` finds from `addr` on. -/
inductive Pc where
  | idle
  /-- at the top of the loop -/
  | loop (call : ℕ) (n : ℤ) (src : Src) (i : ℕ)
  /-- with the inode's lock -/
  | locked (call : ℕ) (n : ℤ) (src : Src) (i : ℕ)

/-- What one stretch with the inode's lock wrote. -/
structure Chunk where
  call : ℕ
  off : ℕ
  bytes : List UInt8

/-- The `struct file`, its inode and its users. The last four fields only record: the calls, the order in which they
took the inode's lock, what they wrote, and what they returned. -/
structure State (P : Type) where
  writable : Bool
  off : ℕ
  ip : Inode
  lock : Option P
  pc : P → Pc
  calls : List (ℤ × Src)
  order : List ℕ
  chunks : List Chunk
  returned : List (ℕ × ℤ)

inductive Event (P : Type) where
  | filewrite (p : P) (n : ℤ) (src : Src)
  /-- the top of the loop: `begin_op` and `ilock`, or the end of the call -/
  | next (p : P)
  /-- `writei`, `f->off += r`, `iunlock` and `end_op` -/
  | write (p : P) (alloc : ℕ → Bool)

namespace State

variable {P : Type} [DecidableEq P]

def goto (s : State P) (p : P) (c : Pc) : State P := { s with pc := Function.update s.pc p c }

def leave (s : State P) (p : P) (call : ℕ) (r : ℤ) : State P :=
  { s.goto p .idle with returned := s.returned ++ [(call, r)] }

/-- After the loop. -/
def finish (s : State P) (p : P) (call : ℕ) (n : ℤ) (i : ℕ) : State P := s.leave p call (if i = n then n else -1)

def write (s : State P) (p : P) (call : ℕ) (n : ℤ) (src : Src) (i : ℕ) (alloc : ℕ → Bool) : State P :=
  let n₁ := min (n - i).toNat maxChunk
  let r := (writei s.ip alloc (fun k => src (i + k)) s.off n₁).1
  let bytes := (List.range r.toNat).map fun k => (src (i + k)).getD 0
  let s₁ := { s with
    ip := (writei s.ip alloc (fun k => src (i + k)) s.off n₁).2
    off := if 0 < r then (s.off + r.toNat) % 2 ^ 32 else s.off
    lock := none
    chunks := s.chunks ++ [(⟨call, s.off, bytes⟩ : Chunk)] }
  if r ≠ n₁ then s₁.finish p call n i else s₁.goto p (.loop call n src (i + r.toNat))

def step (s : State P) : Event P → Option (State P)
  | .filewrite p n src => match s.pc p with
    | .idle =>
      let s₁ := { s with calls := s.calls ++ [(n, src)] }
      if s.writable = false then some (s₁.leave p s.calls.length (-1))
      else some (s₁.goto p (.loop s.calls.length n src 0))
    | _ => none
  | .next p => match s.pc p with
    | .loop call n src i =>
      if i < n then
        if s.lock = none then
          some { s.goto p (.locked call n src i) with lock := some p, order := s.order ++ [call] }
        else none
      else some (s.finish p call n i)
    | _ => none
  | .write p alloc => match s.pc p with
    | .locked call n src i => some (s.write p call n src i alloc)
    | _ => none

def init (writable : Bool) (off : ℕ) (ip : Inode) : State P where
  writable := writable
  off := off
  ip := ip
  lock := none
  pc := fun _ => .idle
  calls := []
  order := []
  chunks := []
  returned := []

def run (writable : Bool) (off : ℕ) (ip : Inode) (es : List (Event P)) : Option (State P) :=
  System.exec step (init writable off ip) es

/-- All that has been written, in order. -/
def written (s : State P) : List UInt8 := s.chunks.flatMap Chunk.bytes

/-- What one call has written. -/
def bytesOf (s : State P) (call : ℕ) : List UInt8 := (s.chunks.filter (·.call = call)).flatMap Chunk.bytes

end State

/-- The bytes of a call's buffer. -/
def bufferOf (n : ℤ) (src : Src) : List UInt8 := (List.range n.toNat).map fun k => (src k).getD 0

/-- All user copies and block allocations succeed. -/
def Event.Works {P : Type} : Event P → Prop
  | .filewrite _ n src => 0 ≤ n ∧ ∀ k : ℕ, k < n → (src k).isSome
  | .next _ => True
  | .write _ alloc => ∀ bn, alloc bn = true

def Event.length {P : Type} : Event P → ℕ
  | .filewrite _ n _ => n.toNat
  | _ => 0

/-- All user copies and block allocations succeed, and all that the calls write from `o₀` on fits into a file. -/
def Fits {P : Type} (o₀ : ℕ) (es : List (Event P)) : Prop :=
  (∀ e ∈ es, e.Works) ∧ o₀ + (es.map Event.length).sum ≤ MAXFILE * BSIZE

/-- The chunks stand one after the other from `o₀` on, in the order in which the inode's lock was taken, those of each
call make up its buffer, and every call returns its `n`. -/
structure Shared {P : Type} (o₀ : ℕ) (ip : Inode) (s : State P) : Prop where
  order : s.chunks.map Chunk.call <+: s.order ∧ (s.lock = none → s.order = s.chunks.map Chunk.call)
  consecutive : ∀ pre c post, s.chunks = pre ++ c :: post → c.off = o₀ + (pre.flatMap Chunk.bytes).length
  content : ∀ j b, s.written[j]? = some b → s.ip.blocks.byte (o₀ + j) = b
  outside : ∀ j, j < o₀ ∨ o₀ + s.written.length ≤ j → s.ip.blocks.byte j = ip.blocks.byte j
  pieces : ∀ call n src, s.calls[call]? = some (n, src) → s.bytesOf call <+: bufferOf n src
  returns : ∀ call r, (call, r) ∈ s.returned → ∃ src, s.calls[call]? = some (r, src) ∧ s.bytesOf call = bufferOf r src
  offset : s.off = o₀ + s.written.length
  ends : (∀ p, s.pc p = .idle) → s.off = o₀ + (s.calls.map fun c => c.1.toNat).sum

end Xv6.Filewrite
