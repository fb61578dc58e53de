import Xv6.Lib.Bytes
import Xv6.Lib.Writes
import Xv6.Spec.Param

/-! `kernel/log.c` seen from the disk: the header codec, `write_log`, `write_head`,
`install_trans`, `recover_from_log` and `commit`, with every `bwrite` they issue
recorded, and the runs of a machine that can stop between any two of them. -/

namespace Xv6

open Bytes Writes

abbrev Block := Buf BSIZE
abbrev Disk := ℕ → Block

/-- `log.start` and `log.size`: the header block and the log blocks behind it. -/
structure LogArea where
  start : ℕ
  size : ℕ
  hasHeader : 0 < size

def LogArea.Mem (a : LogArea) (b : ℕ) : Prop := a.start ≤ b ∧ b < a.start + a.size

/-- The stores of `write_head` into `hb->block[i]`, `hb->block[i+1]`, ... -/
def storeBlocks : Block → ℕ → List ℕ → Block
  | hb, _, [] => hb
  | hb, i, b :: bs => storeBlocks (putLe 4 hb (4 + 4 * i) b) (i + 1) bs

/-- What `write_head` makes of the cached header block: `n`, then `block[0..n)`;
the entries behind keep what an older transaction left there. -/
@[irreducible] def encodeHeader (hb : Block) (lh : List ℕ) : Block :=
  storeBlocks (putLe 4 hb 0 lh.length) 0 lh

/-- What `read_head` takes from the header block. -/
@[irreducible] def decodeHeader (hb : Block) : List ℕ :=
  (List.range (int32 (le 4 hb 0)).toNat).map fun i => le 4 hb (4 + 4 * i)

/-- `log_write`'s search for the block number, and the store to `block[i]`: an
already logged block is absorbed, a new one is appended. -/
def absorb : List ℕ → ℕ → List ℕ
  | [], b => [b]
  | x :: xs, b => if x = b then b :: xs else x :: absorb xs b

/-- The panic test of `log_write`: `log.lh.n >= LOGSIZE || log.lh.n >= log.size - 1`. -/
def tooBig (size : ℕ) (lh : List ℕ) : Prop :=
  (LOGSIZE : ℤ) ≤ lh.length ∨ (size : ℤ) - 1 ≤ lh.length

instance (size : ℕ) (lh : List ℕ) : Decidable (tooBig size lh) :=
  inferInstanceAs (Decidable (_ ∨ _))

/-- A running machine as the log sees it. `cache` holds the data of the buffers in
the buffer cache, `lh` is `log.lh.block[0..log.lh.n)`, and `writes` lists the
`bwrite` calls made so far. -/
structure Machine where
  disk : Disk
  cache : ℕ → Option Block
  lh : List ℕ
  writes : List (ℕ × Block)

namespace Machine

/-- `bread(log.dev, b)->data`: the cached copy, or the disk's. -/
def read (m : Machine) (b : ℕ) : Block := (m.cache b).getD (m.disk b)

/-- `bwrite` of the buffer for block `b` after its data became `v`. -/
def bwrite (m : Machine) (b : ℕ) (v : Block) : Machine :=
  { m with disk := Function.update m.disk b v, cache := Function.update m.cache b (some v),
           writes := m.writes ++ [(b, v)] }

/-- The loop of `write_log` from `tail` on. -/
def writeLogFrom (start : ℕ) : ℕ → List ℕ → Machine → Machine
  | _, [], m => m
  | tail, b :: bs, m => writeLogFrom start (tail + 1) bs (m.bwrite (start + tail + 1) (m.read b))

def writeLog (a : LogArea) (m : Machine) : Machine := writeLogFrom a.start 0 m.lh m

/-- The loop of `install_trans` from `tail` on. -/
def installFrom (start : ℕ) : ℕ → List ℕ → Machine → Machine
  | _, [], m => m
  | tail, b :: bs, m => installFrom start (tail + 1) bs (m.bwrite b (m.read (start + tail + 1)))

def installTrans (a : LogArea) (m : Machine) : Machine := installFrom a.start 0 m.lh m

def readHead (a : LogArea) (m : Machine) : Machine :=
  { m with lh := decodeHeader (m.read a.start) }

def writeHead (a : LogArea) (m : Machine) : Machine :=
  m.bwrite a.start (encodeHeader (m.read a.start) m.lh)

def recoverFromLog (a : LogArea) (m : Machine) : Machine :=
  writeHead a { installTrans a (readHead a m) with lh := [] }

def commit (a : LogArea) (m : Machine) : Machine :=
  if 0 < m.lh.length then
    writeHead a { installTrans a (writeHead a (writeLog a m)) with lh := [] }
  else m

/-- A file system call changes the cached data of block `b` and hands the buffer to
`log_write`; `none` is the panic. -/
def logWrite (a : LogArea) (m : Machine) (b : ℕ) (v : Block) : Option Machine :=
  if tooBig a.size m.lh then none
  else some { m with cache := Function.update m.cache b (some v), lh := absorb m.lh b }

/-- The machine after a power-on: only the disk has survived. -/
def boot (d : Disk) : Machine := ⟨d, fun _ => none, [], []⟩

/-- The `bwrite` calls a routine issues when it is started in `m`. -/
def issued (f : Machine → Machine) (m : Machine) : List (ℕ × Block) := (f { m with writes := [] }).writes

end Machine

/-- A transaction: the blocks recorded in `log.lh` with their cached data. -/
abbrev Tx := List (ℕ × Block)

def Machine.tx (m : Machine) : Tx := m.lh.map fun b => (b, m.read b)

/-- The disk after all transactions of a history, in order. -/
def applyTxs (d : Disk) (hist : List Tx) : Disk := hist.foldl applyWrites d

/-- A header with `n > 0` is among these writes. -/
def headerReached (a : LogArea) (ws : List (ℕ × Block)) : Bool :=
  ws.any fun w => w.1 == a.start && decide (0 < int32 (le 4 w.2 0))

/-- The history after the writes `ws` of the commit of `t`. -/
def extend (a : LogArea) (hist : List Tx) (t : Tx) (ws : List (ℕ × Block)) : List Tx :=
  if headerReached a ws then hist ++ [t] else hist

inductive Power where
  | up (m : Machine)
  | down (d : Disk)

/-- Runs from a disk `d₀`. The history lists the transactions whose header with
`n > 0` has reached the disk; stopping is possible before, between and after the
block writes of `commit` and of `recover_from_log`. -/
inductive Run (a : LogArea) (d₀ : Disk) : List Tx → Power → Prop
  | start : Run a d₀ [] (.down d₀)
  | write {hist m m'} (b : ℕ) (v : Block) (hrun : Run a d₀ hist (.up m))
      (hout : ¬ a.Mem b) (hb : b < 2 ^ 32) (hw : m.logWrite a b v = some m') : Run a d₀ hist (.up m')
  | commit {hist m} (hrun : Run a d₀ hist (.up m)) :
      Run a d₀ (extend a hist m.tx (Machine.issued (Machine.commit a) m)) (.up (m.commit a))
  | stop {hist m} (k : ℕ) (hrun : Run a d₀ hist (.up m)) :
      Run a d₀ (extend a hist m.tx ((Machine.issued (Machine.commit a) m).take k))
        (.down (applyWrites m.disk ((Machine.issued (Machine.commit a) m).take k)))
  | restop {hist d} (k : ℕ) (hrun : Run a d₀ hist (.down d)) :
      Run a d₀ hist (.down (applyWrites d
        ((Machine.issued (Machine.recoverFromLog a) (Machine.boot d)).take k)))
  | recover {hist d} (hrun : Run a d₀ hist (.down d)) :
      Run a d₀ hist (.up (Machine.recoverFromLog a (Machine.boot d)))

end Xv6
