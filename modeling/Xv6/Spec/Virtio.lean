import Xv6.Lib.Counter
import Xv6.Lib.System
import Xv6.Spec.Param

/-! The disk driver of `kernel/virtio_disk.c` and the device. A process in `virtio_disk_rw` stops where it
sleeps, where it raises `avail->idx` and where it looks at `b->disk`, the interrupt handler at each round of
its loop, and the device between any two of its accesses to the rings; what the driver does in between with
`disk.vdisk_lock` is out of the device's sight. -/

namespace Xv6.Virtio

open Function

abbrev NUM : ℕ := 8

abbrev VRING_DESC_F_NEXT : ℕ := 1
abbrev VRING_DESC_F_WRITE : ℕ := 2

abbrev VIRTIO_BLK_T_IN : ℕ := 0
abbrev VIRTIO_BLK_T_OUT : ℕ := 1

/-- What descriptors point to: `disk.ops[i]`, `b->data` and `disk.info[i].status`. -/
inductive Addr (B : Type) where
  | null
  | op (i : ℕ)
  | data (b : B)
  | status (i : ℕ)

/-- `struct virtq_desc` -/
structure Desc (B : Type) where
  addr : Addr B
  len : ℕ
  flags : ℕ
  next : ℕ

def Desc.zero {B : Type} : Desc B := ⟨.null, 0, 0, 0⟩

/-- `struct virtio_blk_req`; `reserved` is 0. -/
structure Op where
  type : ℕ
  sector : ℕ
  deriving DecidableEq

/-- What `virtio_disk_rw` asks for. -/
def opOf (blockno : ℕ) (write : Bool) : Op :=
  ⟨if write then VIRTIO_BLK_T_OUT else VIRTIO_BLK_T_IN, blockno * (BSIZE / 512) % 2 ^ 32⟩

structure Info (B : Type) where
  b : Option B
  status : ℕ

/-- The driver's tables; the device reads `desc` and `ops` and writes `status`. -/
structure Table (B : Type) where
  desc : ℕ → Desc B
  free : ℕ → Bool
  info : ℕ → Info B
  ops : ℕ → Op

/-- The request for `b`: `idx[0]`, `idx[1]` and `idx[2]`. -/
structure Chain (B : Type) where
  b : B
  op : Op
  i0 : ℕ
  i1 : ℕ
  i2 : ℕ

def Chain.idx {B : Type} (c : Chain B) : List ℕ := [c.i0, c.i1, c.i2]

namespace Table

variable {B : Type}

def allocDesc (t : Table B) : Option (ℕ × Table B) :=
  match (List.range NUM).find? t.free with
  | none => none
  | some i => some (i, { t with free := update t.free i false })

def freeDesc (t : Table B) (i : ℕ) : Except String (Table B) :=
  if NUM ≤ i then .error "free_desc 1"
  else if t.free i = true then .error "free_desc 2"
  else .ok { t with desc := update t.desc i Desc.zero, free := update t.free i true }

/-- The loop of `free_chain`, which `free_desc` stops with a panic if it comes to a descriptor twice. -/
def freeChainLoop : ℕ → Table B → ℕ → Except String (Table B)
  | 0, t, _ => .ok t
  | rounds + 1, t, i =>
    match t.freeDesc i with
    | .error e => .error e
    | .ok t₁ => if (t.desc i).flags &&& VRING_DESC_F_NEXT ≠ 0 then freeChainLoop rounds t₁ (t.desc i).next else .ok t₁

def freeChain (t : Table B) (i : ℕ) : Except String (Table B) := freeChainLoop (NUM + 1) t i

def freeAll : List ℕ → Table B → Except String (Table B)
  | [], t => .ok t
  | i :: is, t =>
    match t.freeDesc i with
    | .error e => .error e
    | .ok t₁ => freeAll is t₁

/-- The loop of `alloc3_desc` when `n` descriptors are missing. -/
def allocLoop : ℕ → List ℕ → Table B → Except String (Option (List ℕ) × Table B)
  | 0, idx, t => .ok (some idx, t)
  | n + 1, idx, t =>
    match t.allocDesc with
    | some (i, t₁) => allocLoop n (idx ++ [i]) t₁
    | none =>
      match freeAll idx t with
      | .error e => .error e
      | .ok t₁ => .ok (none, t₁)

def alloc3Desc (t : Table B) : Except String (Option (List ℕ) × Table B) := allocLoop 3 [] t

/-- Format the three descriptors. -/
def format (t : Table B) (c : Chain B) : Table B where
  free := t.free
  ops := update t.ops c.i0 c.op
  desc :=
    let data := if c.op.type = VIRTIO_BLK_T_OUT then 0 else VRING_DESC_F_WRITE
    update (update (update t.desc
      c.i0 ⟨.op c.i0, 16, VRING_DESC_F_NEXT, c.i1⟩)
      c.i1 ⟨.data c.b, BSIZE, data ||| VRING_DESC_F_NEXT, c.i2⟩)
      c.i2 ⟨.status c.i0, 1, VRING_DESC_F_WRITE, 0⟩
  info := update t.info c.i0 ⟨some c.b, 0xff⟩

/-- `disk.info[i].b = 0` -/
def forget (t : Table B) (i : ℕ) : Table B :=
  { t with info := update t.info i { t.info i with b := none } }

/-- The device writes the status of a request. -/
def setStatus (t : Table B) (i : ℕ) : Table B :=
  { t with info := update t.info i { t.info i with status := 0 } }

/-- The request that the device finds at `head`: what to do, the buffer, and where the status goes. -/
def fetch (t : Table B) (head : ℕ) : Option (Op × B × ℕ) :=
  let d₀ := t.desc head
  let d₁ := t.desc d₀.next
  let d₂ := t.desc d₁.next
  match d₀.addr, d₁.addr, d₂.addr with
  | .op i, .data b, .status j => some (t.ops i, b, j)
  | _, _, _ => none

end Table

/-- What a call of `virtio_disk_rw` is about: it still has to get descriptors, it is about to raise `avail->idx`,
or it waits for request `k` to be done. -/
inductive Job (B : Type) where
  | none
  | trying (b : B) (op : Op)
  | submitted (c : Chain B)
  | waiting (c : Chain B) (k : ℕ)

def Job.buf {B : Type} : Job B → Option B
  | .none => .none
  | .trying b _ => some b
  | .submitted c => some c.b
  | .waiting c _ => some c.b

def Job.chain {B : Type} : Job B → Option (Chain B)
  | .submitted c => some c
  | .waiting c _ => some c
  | _ => .none

/-- The `k`-th time that `avail->idx` was raised. -/
structure Request (P B : Type) where
  caller : P
  b : B
  op : Op
  head : ℕ

/-- `struct disk` with the rings, the `disk` flags of the bufs and the calls, and the device: it has its own two
indices, the requests it took but did not perform, and those it performed but did not put into the used ring,
each with its number. The last seven fields only record: the requests, how many of them the device took, what it
performed, which ones it put into the used ring and how many of these it announced, the bufs whose flags were
cleared, and the requests whose calls returned. -/
structure Disk (P B : Type) where
  table : Table B
  availRing : ℕ → ℕ
  availIdx : ℕ
  usedRing : ℕ → ℕ
  usedIdx : ℕ
  /-- `disk.used_idx` -/
  seenIdx : ℕ
  flag : B → Bool
  job : P → Job B
  devAvail : ℕ
  devUsed : ℕ
  todo : List (ℕ × ℕ)
  done : List (ℕ × ℕ)
  requests : List (Request P B)
  taken : ℕ
  performed : List (ℕ × Op × B)
  completed : List ℕ
  raised : ℕ
  cleared : List B
  returned : List ℕ

def uint16Succ (x : ℕ) : ℕ := (x + 1) % 2 ^ 16

namespace Disk

variable {P B : Type} [DecidableEq P] [DecidableEq B]

def setJob (d : Disk P B) (p : P) (j : Job B) : Disk P B := { d with job := update d.job p j }

/-- What `virtio_disk_rw` does with its three descriptors: format them, set `b->disk`, and store the first one into
the avail ring. -/
def enqueue (d : Disk P B) (p : P) (c : Chain B) (t : Table B) : Disk P B :=
  { d.setJob p (.submitted c) with
    table := t.format c
    flag := update d.flag c.b true
    availRing := update d.availRing (d.availIdx % NUM) c.i0 }

/-- From `alloc3_desc` to the store into the avail ring; the result says whether there were three descriptors. -/
def submit (d : Disk P B) (p : P) (b : B) (op : Op) : Except String (Bool × Disk P B) :=
  match d.table.alloc3Desc with
  | .error e => .error e
  | .ok (some [i0, i1, i2], t) => .ok (true, d.enqueue p ⟨b, op, i0, i1, i2⟩ t)
  | .ok (_, t) => .ok (false, { d with table := t })

/-- `disk.avail->idx += 1` -/
def publish (d : Disk P B) (p : P) (c : Chain B) : Disk P B :=
  { d.setJob p (.waiting c d.requests.length) with
    availIdx := uint16Succ d.availIdx
    requests := d.requests ++ [⟨p, c.b, c.op, c.i0⟩] }

/-- The end of `virtio_disk_rw`. -/
def finish (d : Disk P B) (p : P) (c : Chain B) (k : ℕ) : Except String (Disk P B) :=
  match (d.table.forget c.i0).freeChain c.i0 with
  | .error e => .error e
  | .ok t₁ => .ok { d.setJob p .none with table := t₁, returned := d.returned ++ [k] }

/-- One round of the loop in `virtio_disk_intr`; a null `info[id].b` is a fault. -/
def intrRound (d : Disk P B) : Except String (B × Disk P B) :=
  let id := d.usedRing (d.seenIdx % NUM)
  if (d.table.info id).status ≠ 0 then .error "virtio_disk_intr status"
  else match (d.table.info id).b with
    | none => .error "kerneltrap"
    | some b => .ok (b, { d with
        flag := update d.flag b false
        seenIdx := uint16Succ d.seenIdx
        cleared := d.cleared ++ [b] })

/-- The device takes the next head out of the avail ring. -/
def take (d : Disk P B) : Option (Disk P B) :=
  if d.devAvail = d.availIdx then none
  else some { d with
    devAvail := uint16Succ d.devAvail
    todo := d.todo ++ [(d.taken, d.availRing (d.devAvail % NUM))]
    taken := d.taken + 1 }

/-- The device performs the `n`-th request that it has taken; one that makes no sense is an error. -/
def perform (d : Disk P B) (n : ℕ) : Option (Except String (Disk P B)) :=
  match d.todo[n]? with
  | none => none
  | some (k, head) =>
    match d.table.fetch head with
    | none => some (.error "device")
    | some (op, b, j) => some (.ok { d with
        table := d.table.setStatus j
        todo := d.todo.eraseIdx n
        done := d.done ++ [(k, head)]
        performed := d.performed ++ [(k, op, b)] })

/-- The device puts the `n`-th request that it has performed into the used ring. -/
def complete (d : Disk P B) (n : ℕ) : Option (Disk P B) :=
  match d.done[n]? with
  | none => none
  | some (k, head) => some { d with
      usedRing := update d.usedRing (d.devUsed % NUM) head
      devUsed := uint16Succ d.devUsed
      done := d.done.eraseIdx n
      completed := d.completed ++ [k] }

/-- The device announces one more entry of the used ring. -/
def raise (d : Disk P B) : Option (Disk P B) :=
  if d.usedIdx = d.devUsed then none else some { d with usedIdx := uint16Succ d.usedIdx, raised := d.raised + 1 }

/-- A call on `b` has made its request, and the interrupt handler has not seen it completed. -/
def Pending (d : Disk P B) (p : P) (b : B) : Prop :=
  match d.job p with
  | .submitted c => c.b = b
  | .waiting c k => c.b = b ∧ k ∉ d.completed.take d.cleared.length
  | _ => False

/-- The protocol between driver and device, when the indices were at `start` in the beginning. -/
structure Sound (start : ℕ) (d : Disk P B) : Prop where
  bounded : ∀ p c, (d.job p).chain = some c → c.idx.Nodup ∧ ∀ i ∈ c.idx, i < NUM
  apart : ∀ p q c c', p ≠ q → (d.job p).chain = some c → (d.job q).chain = some c' → c.idx.Disjoint c'.idx
  free : ∀ i < NUM, d.table.free i = true ↔ ∀ p c, (d.job p).chain = some c → i ∉ c.idx
  untaken : ∀ k r, d.taken ≤ k → d.requests[k]? = some r → d.availRing ((start + k) % NUM) = r.head
  own : ∀ k ∈ d.returned, k ∈ d.completed ∧ ∃ r, d.requests[k]? = some r ∧ (k, r.op, r.b) ∈ d.performed
  clears : d.cleared.map some = (d.completed.take d.cleared.length).map fun k => d.requests[k]?.map Request.b
  flags : ∀ b, d.flag b = true ↔ ∃ p, d.Pending p b

end Disk

/-- Where a process is: not in `virtio_disk_rw`, with `disk.vdisk_lock`, SLEEPING on `&disk.free[0]` or on its buf,
or woken and in front of `acquire(lk)` in `sleep`. -/
inductive Phase where
  | out
  | locked
  | asleep
  | woken
  deriving DecidableEq

inductive Holder (P : Type) where
  | proc (p : P)
  | intr
  deriving DecidableEq

structure State (P B : Type) where
  disk : Disk P B
  lock : Option (Holder P)
  phase : P → Phase
  sleepLock : B → Option P
  panicked : Option String

inductive Event (P B : Type) where
  | acquiresleep (p : P) (b : B)
  | releasesleep (p : P) (b : B)
  | virtioDiskRw (p : P) (b : B) (blockno : ℕ) (write : Bool)
  /-- the next stretch of the call that `p` is in, or the end of its `sleep` -/
  | run (p : P)
  | kill (p : P)
  | virtioDiskIntr
  /-- the next round of the loop in `virtio_disk_intr` -/
  | round
  | take
  | perform (n : ℕ)
  | complete (n : ℕ)
  | raise

namespace State

variable {P B : Type} [DecidableEq P] [DecidableEq B]

def goto (s : State P B) (p : P) (ph : Phase) : State P B := { s with phase := update s.phase p ph }

/-- `wakeup(&disk.free[0])` -/
def wakeFree (s : State P B) : State P B :=
  { s with phase := fun q => match s.phase q, s.disk.job q with
      | .asleep, .trying _ _ => .woken
      | ph, _ => ph }

/-- `wakeup(b)` -/
def wakeBuf (s : State P B) (b : B) : State P B :=
  { s with phase := fun q => match s.phase q, s.disk.job q with
      | .asleep, .waiting c _ => if c.b = b then .woken else .asleep
      | ph, _ => ph }

/-- `sleep(chan, &disk.vdisk_lock)`, up to `sched` -/
def sleep (s : State P B) (p : P) : State P B := { s.goto p .asleep with lock := none }

def panic (s : State P B) (e : String) : State P B := { s with panicked := some e }

/-- What a process with `disk.vdisk_lock` does next. -/
def go (s : State P B) (p : P) : Option (State P B) :=
  match s.disk.job p with
  | .none => none
  | .trying b op => match s.disk.submit p b op with
    | .error e => some (s.panic e)
    | .ok (true, d) => some { s with disk := d }
    | .ok (false, d) =>
      -- `free_desc` has been called if there were descriptors to give back
      if (s.disk.table.allocDesc).isSome then some ({ s with disk := d }.wakeFree.sleep p)
      else some ({ s with disk := d }.sleep p)
  | .submitted c => some { s with disk := s.disk.publish p c }
  | .waiting c k =>
    if s.disk.flag c.b = true then some (s.sleep p)
    else match s.disk.finish p c k with
      | .error e => some (s.panic e)
      | .ok d => some { { s with disk := d }.wakeFree.goto p .out with lock := none }

def virtioDiskRw (s : State P B) (p : P) (b : B) (op : Op) : State P B :=
  { s.goto p .locked with lock := some (.proc p), disk := s.disk.setJob p (.trying b op) }

/-- One round of the loop in `virtio_disk_intr`, or its end. -/
def round (s : State P B) : State P B :=
  if s.disk.seenIdx = s.disk.usedIdx then { s with lock := none }
  else match s.disk.intrRound with
    | .error e => s.panic e
    | .ok (b, d) => { s with disk := d }.wakeBuf b

def step (s : State P B) (e : Event P B) : Option (State P B) :=
  if s.panicked.isSome then none
  else match e with
    | .acquiresleep p b =>
      if s.phase p = .out ∧ s.sleepLock b = none then
        some { s with sleepLock := update s.sleepLock b (some p) }
      else none
    | .releasesleep p b =>
      if s.phase p = .out ∧ s.sleepLock b = some p then
        some { s with sleepLock := update s.sleepLock b none }
      else none
    | .virtioDiskRw p b blockno write =>
      if s.phase p = .out ∧ s.sleepLock b = some p ∧ s.lock = none then
        some (s.virtioDiskRw p b (opOf blockno write))
      else none
    | .run p => match s.phase p with
      | .locked => s.go p
      | .woken => if s.lock = none then some { s.goto p .locked with lock := some (.proc p) } else none
      | _ => none
    | .kill p => if s.phase p = .asleep then some (s.goto p .woken) else none
    | .virtioDiskIntr => if s.lock = none then some { s with lock := some .intr } else none
    | .round => if s.lock = some .intr then some s.round else none
    | .take => (s.disk.take).map fun d => { s with disk := d }
    | .perform n => (s.disk.perform n).map fun
      | .error e => s.panic e
      | .ok d => { s with disk := d }
    | .complete n => (s.disk.complete n).map fun d => { s with disk := d }
    | .raise => (s.disk.raise).map fun d => { s with disk := d }

/-- The disk after `virtio_disk_init`, with indices that have come to `start`. -/
def init (start : ℕ) : State P B where
  disk :=
    { table := ⟨fun _ => Desc.zero, fun _ => true, fun _ => ⟨none, 0⟩, fun _ => ⟨0, 0⟩⟩
      availRing := fun _ => 0
      availIdx := start % 2 ^ 16
      usedRing := fun _ => 0
      usedIdx := start % 2 ^ 16
      seenIdx := start % 2 ^ 16
      flag := fun _ => false
      job := fun _ => .none
      devAvail := start % 2 ^ 16
      devUsed := start % 2 ^ 16
      todo := []
      done := []
      requests := []
      taken := 0
      performed := []
      completed := []
      raised := 0
      cleared := []
      returned := [] }
  lock := none
  phase := fun _ => .out
  sleepLock := fun _ => none
  panicked := none

def run (start : ℕ) (es : List (Event P B)) : Option (State P B) := System.exec step (init start) es

end State

end Xv6.Virtio
