import Xv6.Lib.Count
import Xv6.Lib.System
import Xv6.Spec.Param

/-! The table of in-memory inodes of `kernel/fs.c`: `ialloc`, `iupdate`, `iget`, `idup`, `ilock`,
`iunlock` and `iput`. A critical section under `itable.lock`, under the lock of the buffer with an on-disk
inode, or at a sleep lock is one event. Between its calls a process may change the
fields of an inode that it has locked. The disk is what is seen through the buffer cache. -/

namespace Xv6.Itable

/-- `&itable.inode[i]` -/
abbrev Ptr := Fin NINODE

/-- The fields that live on disk. -/
structure Dinode where
  type : ℤ
  major : ℤ
  minor : ℤ
  nlink : ℤ
  size : ℕ
  addrs : Vector ℕ (NDIRECT + 1)
  deriving DecidableEq

/-- A `struct inode`; `lock` is the holder of the sleep lock. `dirty` only records that the fields have changed
since they were last read from the disk or written to it. -/
structure Inode (P : Type) where
  dev : ℕ
  inum : ℕ
  ref : ℕ
  lock : Option P
  valid : Bool
  body : Dinode
  dirty : Bool

/-- The statements of `iput` from `itrunc` to `releasesleep`. -/
inductive Free where
  /-- `itrunc` up to its call of `iupdate`; the blocks are left out -/
  | itrunc
  | iupdate
  /-- `ip->type = 0` -/
  | untype
  | iupdate'
  /-- `ip->valid = 0` -/
  | invalid
  | releasesleep
  deriving DecidableEq

inductive Call where
  | idle
  /-- in `acquiresleep` of `ilock` -/
  | locking (ip : Ptr)
  /-- in `ilock`, with the lock -/
  | reading (ip : Ptr)
  /-- in `iput`, without `itable.lock` -/
  | freeing (ip : Ptr) (next : Free)
  /-- in `iput`, in front of its last critical section -/
  | putting (ip : Ptr)
  /-- in the loop of `ialloc` -/
  | probing (dev : ℕ) (type : ℤ) (inum : ℕ)
  /-- in `ialloc`, in front of `iget` -/
  | taking (dev inum : ℕ)
  deriving DecidableEq

/-- The references of a process, and the inodes that it has locked. -/
structure Ctl where
  refs : List Ptr
  locks : List Ptr
  call : Call

inductive Panic where
  | iget
  | ilock
  | iunlock
  | noType
  /-- `sleep` with `itable.lock` held -/
  | schedLocks
  deriving DecidableEq

structure State (P : Type) where
  inode : Ptr → Inode P
  disk : ℕ → ℕ → Dinode
  ctl : P → Ctl
  panic : Option Panic

inductive Event (P : Type) where
  | iget (p : P) (dev inum : ℕ)
  | idup (p : P) (ip : Ptr)
  | ilock (p : P) (ip : Ptr)
  | acquiresleep (p : P)
  | read (p : P)
  /-- the process stores other values in the fields -/
  | change (p : P) (ip : Ptr) (body : Dinode)
  | iupdate (p : P) (ip : Ptr)
  | iunlock (p : P) (ip : Ptr)
  | iput (p : P) (ip : Ptr)
  | free (p : P)
  | put (p : P)
  | ialloc (p : P) (dev : ℕ) (type : ℤ)
  | probe (p : P)
  | take (p : P)

/-- `memset(dip, 0, sizeof(*dip)); dip->type = type;` -/
def Dinode.fresh (type : ℤ) : Dinode := ⟨type, 0, 0, 0, 0, Vector.replicate _ 0⟩

namespace State

variable {P : Type}

@[simps ctl disk panic] def setInode (s : State P) (ip : Ptr) (f : Inode P → Inode P) : State P :=
  { s with inode := Function.update s.inode ip (f (s.inode ip)) }

@[simps inode ctl panic] def setDisk (s : State P) (dev inum : ℕ) (d : Dinode) : State P :=
  { s with disk := Function.update s.disk dev (Function.update (s.disk dev) inum d) }

/-- The entry that `iget` finds or recycles. -/
def find (s : State P) (dev inum : ℕ) : Option Ptr :=
  ((List.finRange NINODE).find? fun ip => 0 < (s.inode ip).ref ∧ (s.inode ip).dev = dev ∧ (s.inode ip).inum = inum)

def empty (s : State P) : Option Ptr := (List.finRange NINODE).find? fun ip => (s.inode ip).ref = 0

variable [DecidableEq P]

@[simps inode disk panic] def setCtl (s : State P) (p : P) (f : Ctl → Ctl) : State P :=
  { s with ctl := Function.update s.ctl p (f (s.ctl p)) }

def goto (s : State P) (p : P) (c : Call) : State P := s.setCtl p fun x => { x with call := c }

/-- `iget`; the process has the reference. -/
def iget (s : State P) (p : P) (dev inum : ℕ) : State P :=
  match s.find dev inum with
  | some ip =>
    (s.setInode ip fun x => { x with ref := x.ref + 1 }).setCtl p fun x => { x with refs := ip :: x.refs, call := .idle }
  | none =>
    match s.empty with
    | none => { s with panic := some .iget }
    | some ip =>
      (s.setInode ip fun x => { x with dev := dev, inum := inum, ref := 1, valid := false, dirty := false }).setCtl p
        fun x => { x with refs := ip :: x.refs, call := .idle }

def idup (s : State P) (p : P) (ip : Ptr) : State P :=
  (s.setInode ip fun x => { x with ref := x.ref + 1 }).setCtl p fun x => { x with refs := ip :: x.refs }

/-- `ilock` up to `acquiresleep` -/
def ilock (s : State P) (p : P) (ip : Ptr) : State P :=
  if (s.inode ip).ref < 1 then { s with panic := some .ilock } else s.goto p (.locking ip)

/-- `acquiresleep` of `ilock`; a process that does not get the lock sleeps. -/
def acquiresleep (s : State P) (p : P) (ip : Ptr) : Option (State P) :=
  if (s.inode ip).lock = none then some ((s.setInode ip fun x => { x with lock := some p }).goto p (.reading ip)) else none

/-- The rest of `ilock`. -/
def read (s : State P) (p : P) (ip : Ptr) : State P :=
  let x := s.inode ip
  let done := s.setCtl p fun c => { c with locks := ip :: c.locks, call := .idle }
  if x.valid then done
  else
    let d := s.disk x.dev x.inum
    let s := done.setInode ip fun x => { x with body := d, valid := true, dirty := false }
    if d.type = 0 then { s with panic := some .noType } else s

def change (s : State P) (ip : Ptr) (body : Dinode) : State P := s.setInode ip fun x => { x with body := body, dirty := true }

def iupdate (s : State P) (ip : Ptr) : State P :=
  (s.setDisk (s.inode ip).dev (s.inode ip).inum (s.inode ip).body).setInode ip fun x => { x with dirty := false }

def iunlock (s : State P) (p : P) (ip : Ptr) : State P :=
  if (s.inode ip).lock ≠ some p ∨ (s.inode ip).ref < 1 then { s with panic := some .iunlock }
  else (s.setInode ip fun x => { x with lock := none }).setCtl p fun c => { c with locks := c.locks.erase ip }

/-- `ip->ref--` -/
def unref (s : State P) (p : P) (ip : Ptr) : State P :=
  (s.setInode ip fun x => { x with ref := x.ref - 1 }).setCtl p fun c => { c with refs := c.refs.erase ip, call := .idle }

/-- `iput` up to the release of `itable.lock`. -/
def iput (s : State P) (p : P) (ip : Ptr) : State P :=
  if (s.inode ip).ref = 1 ∧ (s.inode ip).valid ∧ (s.inode ip).body.nlink = 0 then
    if (s.inode ip).lock = none then (s.setInode ip fun x => { x with lock := some p }).goto p (.freeing ip .itrunc)
    else { s with panic := some .schedLocks }
  else s.unref p ip

/-- One statement of `iput` without `itable.lock`. -/
def free (s : State P) (p : P) (ip : Ptr) : Free → State P
  | .itrunc =>
    (s.setInode ip fun x => { x with body := { x.body with size := 0, addrs := Vector.replicate _ 0 }, dirty := true }).goto
      p (.freeing ip .iupdate)
  | .iupdate => (s.iupdate ip).goto p (.freeing ip .untype)
  | .untype =>
    (s.setInode ip fun x => { x with body := { x.body with type := 0 }, dirty := true }).goto p (.freeing ip .iupdate')
  | .iupdate' => (s.iupdate ip).goto p (.freeing ip .invalid)
  | .invalid => (s.setInode ip fun x => { x with valid := false }).goto p (.freeing ip .releasesleep)
  | .releasesleep => (s.setInode ip fun x => { x with lock := none }).goto p (.putting ip)

/-- One round of the loop in `ialloc`. -/
def probe (s : State P) (ninodes : ℕ) (p : P) (dev : ℕ) (type : ℤ) (inum : ℕ) : State P :=
  if inum < ninodes then
    if (s.disk dev inum).type = 0 then (s.setDisk dev inum (.fresh type)).goto p (.taking dev inum)
    else s.goto p (.probing dev type (inum + 1))
  else s.goto p .idle

/-- A process uses an inode only while it has a reference and changes its fields only while it has it locked; it keeps a
reference to what it has locked. -/
def step (ninodes : ℕ) (s : State P) (e : Event P) : Option (State P) :=
  if s.panic ≠ none then none
  else
    match e with
    | .iget p dev inum => if (s.ctl p).call = .idle then some (s.iget p dev inum) else none
    | .idup p ip => if (s.ctl p).call = .idle ∧ ip ∈ (s.ctl p).refs then some (s.idup p ip) else none
    | .ilock p ip => if (s.ctl p).call = .idle ∧ ip ∈ (s.ctl p).refs then some (s.ilock p ip) else none
    | .acquiresleep p => match (s.ctl p).call with
      | .locking ip => s.acquiresleep p ip
      | _ => none
    | .read p => match (s.ctl p).call with
      | .reading ip => some (s.read p ip)
      | _ => none
    | .change p ip body => if (s.ctl p).call = .idle ∧ ip ∈ (s.ctl p).locks then some (s.change ip body) else none
    | .iupdate p ip => if (s.ctl p).call = .idle ∧ ip ∈ (s.ctl p).locks then some (s.iupdate ip) else none
    | .iunlock p ip => if (s.ctl p).call = .idle ∧ ip ∈ (s.ctl p).refs then some (s.iunlock p ip) else none
    | .iput p ip =>
      if (s.ctl p).call = .idle ∧ ip ∈ (s.ctl p).refs ∧ (ip ∈ (s.ctl p).locks → 2 ≤ (s.ctl p).refs.count ip) then
        some (s.iput p ip)
      else none
    | .free p => match (s.ctl p).call with
      | .freeing ip next => some (s.free p ip next)
      | _ => none
    | .put p => match (s.ctl p).call with
      | .putting ip => some (s.unref p ip)
      | _ => none
    | .ialloc p dev type => if (s.ctl p).call = .idle then some (s.goto p (.probing dev type 1)) else none
    | .probe p => match (s.ctl p).call with
      | .probing dev type inum => some (s.probe ninodes p dev type inum)
      | _ => none
    | .take p => match (s.ctl p).call with
      | .taking dev inum => some (s.iget p dev inum)
      | _ => none

/-- After `iinit`, with any disk. -/
def init (disk : ℕ → ℕ → Dinode) : State P where
  inode := fun _ => ⟨0, 0, 0, none, false, .fresh 0, false⟩
  disk := disk
  ctl := fun _ => ⟨[], [], .idle⟩
  panic := none

def run (ninodes : ℕ) (disk : ℕ → ℕ → Dinode) (es : List (Event P)) : Option (State P) :=
  System.exec (step ninodes) (init disk) es

end State

end Xv6.Itable
