import Mathlib

/-! The constants of `kernel/param.h`, `kernel/fs.h`, `kernel/riscv.h` and
`mkfs/mkfs.c` that the modelled code reads. -/

namespace Xv6

/-- maximum number of processes -/
abbrev NPROC : ℕ := 64
/-- maximum number of CPUs -/
abbrev NCPU : ℕ := 8
/-- open files per process -/
abbrev NOFILE : ℕ := 16
/-- open files per system -/
abbrev NFILE : ℕ := 100
/-- maximum number of active i-nodes -/
abbrev NINODE : ℕ := 50
/-- maximum major device number -/
abbrev NDEV : ℕ := 10
/-- max # of blocks any FS op writes -/
abbrev MAXOPBLOCKS : ℕ := 10
/-- max data blocks in on-disk log -/
abbrev LOGSIZE : ℕ := MAXOPBLOCKS * 3
/-- size of disk block cache -/
abbrev NBUF : ℕ := MAXOPBLOCKS * 3
/-- block size -/
abbrev BSIZE : ℕ := 1024

/-- direct blocks of an inode -/
abbrev NDIRECT : ℕ := 12
/-- block numbers in an indirect block -/
abbrev NINDIRECT : ℕ := BSIZE / 4
/-- blocks of the longest file -/
abbrev MAXFILE : ℕ := NDIRECT + NINDIRECT
/-- bytes of a name in a directory entry -/
abbrev DIRSIZ : ℕ := 14
/-- root i-number -/
abbrev ROOTINO : ℕ := 1

/-- bytes per page -/
abbrev PGSIZE : ℕ := 4096
/-- one beyond the highest possible virtual address -/
abbrev MAXVA : ℕ := 2 ^ 38
/-- the trampoline page, at the highest user virtual address -/
abbrev TRAMPOLINE : ℕ := MAXVA - PGSIZE
/-- the trapframe page, just below it -/
abbrev TRAPFRAME : ℕ := TRAMPOLINE - PGSIZE
/-- the number of the page at `PHYSTOP`, one beyond the last page of RAM -/
abbrev PHYSTOP : ℕ := 0x88000
/-- max exec arguments -/
abbrev MAXARG : ℕ := 32

/-- `int nlog = LOGSIZE` of mkfs: what `sb.nlog`, hence `log.size`, is set to. -/
abbrev nlog : ℕ := LOGSIZE

/-- A slot of `proc[NPROC]`. -/
abbrev Slot := Fin NPROC
abbrev Cpu := Fin NCPU

-- for the literals of index types
instance : NeZero NPROC := ⟨by decide⟩
instance neZero5 : NeZero 5 := ⟨by decide⟩
instance neZero3 : NeZero 3 := ⟨by decide⟩
instance neZero2 : NeZero 2 := ⟨by decide⟩

theorem toNat_lt {i : ℤ} {n : ℕ} (h : 0 ≤ i ∧ i < n) : i.toNat < n := by
  omega

inductive ProcState where
  | unused
  | used
  | sleeping
  | runnable
  | running
  | zombie
  deriving DecidableEq, Inhabited

/-- The value an `int` holds when the integer `x` is stored in it. -/
def int32 (x : ℤ) : ℤ := (x + 2 ^ 31) % 2 ^ 32 - 2 ^ 31

/-- The value an `int` or `uint` has in unsigned 32-bit arithmetic. -/
def uint32 (x : ℤ) : ℤ := x % 2 ^ 32

/-- The value a `uint64` holds when the integer `x` is stored in it. -/
def uint64 (x : ℤ) : ℕ := (x % 2 ^ 64).toNat

theorem int32_of_range {x : ℤ} (hl : -2 ^ 31 ≤ x) (hu : x < 2 ^ 31) : int32 x = x := by
  unfold int32
  omega

end Xv6
