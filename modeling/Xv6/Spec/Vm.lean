import Xv6.Lib.Prog
import Xv6.Spec.Param

/-! `kernel/kalloc.c` and `kernel/vm.c` over physical memory. Pages are named by their
number, so a pointer to a page is the page's number and 0 is the null pointer; a page
is 512 words of 64 bits, which is how the page tables and the free list use it. For
every page the model also records for whom `kalloc` handed it out, and it records
every `kfree`. -/

namespace Xv6.Vm

open Prog

/-- The words of a page. -/
abbrev PageData := ℕ → ℕ

/-- What the linker fixes: the first page behind the kernel image, that is
`PGROUNDUP(end)`, and the page of the trampoline inside the image. -/
structure Layout where
  base : ℕ
  trampoline : ℕ
  trampoline_lt : trampoline < base
  base_le : base ≤ PHYSTOP

/-- The page lies between `end` and `PHYSTOP`. -/
def Layout.Contains (l : Layout) (page : ℕ) : Prop := l.base ≤ page ∧ page < PHYSTOP

instance (l : Layout) (page : ℕ) : Decidable (l.Contains page) := inferInstanceAs (Decidable (_ ∧ _))

inductive Owner where
  | slot (p : Slot)
  /-- kernel page table, kernel stacks, disk rings, pipes -/
  | kernel
  deriving DecidableEq

inductive Event where
  /-- `kfree(page)` on behalf of an owner, and for whom the page was held at that time -/
  | freed (actor : Owner) (page : ℕ) (holder : Option Owner)
  /-- `allocproc` gives the slot up because its first or second allocation failed; the
  slot's `trapframe` and `trapframe_copy` at that time -/
  | gaveUp (p : Slot) (trapframe copy : ℕ)
  deriving DecidableEq

inductive Panic where
  | kfree
  | walk
  | mappagesSize
  | remap
  | uvmunmapAligned
  | uvmunmapWalk
  | uvmunmapMapped
  | uvmunmapLeaf
  | freewalkLeaf
  | uvmfirst
  | uvmcopyPte
  | uvmcopyPage
  | uvmclear
  | loadseg
  | initExiting
  | nullDeref
  /-- a recursion or loop deeper than any the code can reach -/
  | outOfFuel

structure State where
  layout : Layout
  mem : ℕ → PageData
  /-- `kmem.freelist` -/
  freelist : ℕ
  /-- which of the next `kalloc` calls return 0 -/
  oom : List Bool
  /-- on whose behalf the kernel allocates and frees -/
  actor : Owner
  holder : ℕ → Option Owner
  trace : List Event

abbrev VmM := Prog State Panic

/-! ### Memory -/

def setPage (mem : ℕ → PageData) (x : ℕ) (d : PageData) : ℕ → PageData := fun y => if y = x then d else mem y

def poke (x : ℕ) (f : PageData → PageData) : VmM Unit :=
  modify fun s => { s with mem := setPage s.mem x (f (s.mem x)) }

/-- `memset(x, c, PGSIZE)` -/
def memset (x c : ℕ) : VmM Unit := poke x fun _ _ => c * 0x0101010101010101

def setWord (i v : ℕ) (d : PageData) : PageData := fun j => if j = i then v else d j

def getByte (d : PageData) (k : ℕ) : UInt8 := UInt8.ofNat (d (k / 8) / 256 ^ (k % 8))

def putByte (d : PageData) (k : ℕ) (c : UInt8) : PageData :=
  setWord (k / 8) (d (k / 8) + c.toNat * 256 ^ (k % 8) - (getByte d k).toNat * 256 ^ (k % 8)) d

/-- `memmove` of the bytes to offset `k` of a page. -/
def putBytes : PageData → ℕ → List UInt8 → PageData
  | d, _, [] => d
  | d, k, c :: cs => putBytes (putByte d k c) (k + 1) cs

def getBytes (d : PageData) (k n : ℕ) : List UInt8 := (List.range n).map fun i => getByte d (k + i)

/-! ### kalloc.c -/

/-- `r->next` -/
def next (mem : ℕ → PageData) (r : ℕ) : ℕ := mem r 0 / PGSIZE

def kfree (page : ℕ) : VmM Unit := do
  let inRam ← gets fun s => decide (s.layout.Contains page)
  if inRam then do
    memset page 1
    modify fun s => { s with
      mem := setPage s.mem page (setWord 0 (s.freelist * PGSIZE) (s.mem page))
      freelist := page
      holder := Function.update s.holder page none
      trace := s.trace ++ [.freed s.actor page (s.holder page)] }
  else fail .kfree

def kalloc : VmM ℕ := do
  let fails ← gets fun s => s.oom.headD false
  modify fun s => { s with oom := s.oom.tail }
  let r ← gets fun s => s.freelist
  if fails ∨ r = 0 then pure 0
  else do
    modify fun s => { s with
      freelist := next s.mem r
      holder := Function.update s.holder r (some s.actor) }
    memset r 5
    pure r

/-! ### riscv.h -/

abbrev PTE_V : ℕ := 1
abbrev PTE_R : ℕ := 2
abbrev PTE_W : ℕ := 4
abbrev PTE_X : ℕ := 8
abbrev PTE_U : ℕ := 16

def PGROUNDUP (sz : ℕ) : ℕ := (sz + PGSIZE - 1) % 2 ^ 64 / PGSIZE * PGSIZE

def PGROUNDDOWN (a : ℕ) : ℕ := a / PGSIZE * PGSIZE

def PX (level va : ℕ) : ℕ := va / PGSIZE / 512 ^ level % 512

def PA2PTE (page : ℕ) : ℕ := page <<< 10

def PTE2PA (pte : ℕ) : ℕ := pte / 2 ^ 10 % 2 ^ 52

def PTE_FLAGS (pte : ℕ) : ℕ := pte % 2 ^ 10

/-! ### vm.c -/

def readPte (x i : ℕ) : VmM ℕ := gets fun s => s.mem x i

def writePte (x i v : ℕ) : VmM Unit := poke x (setWord i v)

/-- The loop of `walk` from `level` on. A `pte_t *` is a page and an index in it. -/
def walkFrom (va : ℕ) (alloc : Bool) : ℕ → ℕ → VmM (Option (ℕ × ℕ))
  | 0, pagetable => pure (some (pagetable, PX 0 va))
  | level + 1, pagetable => do
    let pte ← readPte pagetable (PX (level + 1) va)
    if pte &&& PTE_V ≠ 0 then walkFrom va alloc level (PTE2PA pte)
    else if alloc then do
      let child ← kalloc
      if child = 0 then pure none
      else do
        memset child 0
        writePte pagetable (PX (level + 1) va) (PA2PTE child ||| PTE_V)
        walkFrom va alloc level child
    else pure none

def walk (pagetable va : ℕ) (alloc : Bool) : VmM (Option (ℕ × ℕ)) :=
  if MAXVA ≤ va then fail .walk else walkFrom va alloc 2 pagetable

/-- The physical page of a user address, 0 if it is not mapped. -/
def walkaddr (pagetable va : ℕ) : VmM ℕ :=
  if MAXVA ≤ va then pure 0
  else do
    match ← walk pagetable va false with
    | none => pure 0
    | some (t, i) => do
      let pte ← readPte t i
      if pte &&& PTE_V = 0 then pure 0
      else if pte &&& PTE_U = 0 then pure 0
      else pure (PTE2PA pte)

def mapPte (t i page perm : ℕ) : VmM Unit := do
  let pte ← readPte t i
  if pte &&& PTE_V ≠ 0 then fail .remap else writePte t i (PA2PTE page ||| perm ||| PTE_V)

/-- The loop of `mappages`; `walk` panics before the fuel is used up. -/
def mappagesFrom (pagetable last perm : ℕ) : ℕ → ℕ → ℕ → VmM Bool
  | 0, _, _ => fail .outOfFuel
  | fuel + 1, a, page => do
    match ← walk pagetable a true with
    | none => pure false
    | some (t, i) => do
      mapPte t i page perm
      if a = last then pure true else mappagesFrom pagetable last perm fuel (a + PGSIZE) (page + 1)

/-- Whether `mappages` returned 0. -/
def mappages (pagetable va size page perm : ℕ) : VmM Bool :=
  if size = 0 then fail .mappagesSize
  else mappagesFrom pagetable (PGROUNDDOWN (uint64 (va + size - 1))) perm (MAXVA / PGSIZE + 1) (PGROUNDDOWN va) page

def unmapPte (t i : ℕ) (doFree : Bool) : VmM Unit := do
  let pte ← readPte t i
  if pte &&& PTE_V = 0 then fail .uvmunmapMapped
  else if PTE_FLAGS pte = PTE_V then fail .uvmunmapLeaf
  else do
    if doFree then kfree (PTE2PA pte) else pure ()
    writePte t i 0

def uvmunmapFrom (pagetable : ℕ) (doFree : Bool) : ℕ → ℕ → VmM Unit
  | 0, _ => pure ()
  | n + 1, a => do
    match ← walk pagetable a false with
    | none => fail .uvmunmapWalk
    | some (t, i) => do
      unmapPte t i doFree
      uvmunmapFrom pagetable doFree n (a + PGSIZE)

/-- How often `for(a = from; a < bound; a += PGSIZE)` is gone through. -/
def pagesFrom (start bound : ℕ) : ℕ := (bound - start + PGSIZE - 1) / PGSIZE

def uvmunmap (pagetable va npages : ℕ) (doFree : Bool) : VmM Unit :=
  if va % PGSIZE ≠ 0 then fail .uvmunmapAligned
  else uvmunmapFrom pagetable doFree (pagesFrom va (uint64 (va + npages * PGSIZE))) va

def uvmcreate : VmM ℕ := do
  let pagetable ← kalloc
  if pagetable = 0 then pure 0
  else do
    memset pagetable 0
    pure pagetable

/-- `uvmfirst`; `kalloc` and `mappages` are not checked. -/
def uvmfirst (pagetable : ℕ) (src : List UInt8) : VmM Unit :=
  if PGSIZE ≤ src.length then fail .uvmfirst
  else do
    let mem ← kalloc
    if mem = 0 then fail .nullDeref
    else do
      memset mem 0
      let _ ← mappages pagetable 0 PGSIZE mem (PTE_W ||| PTE_R ||| PTE_X ||| PTE_U)
      poke mem fun d => putBytes d 0 src

def uvmdealloc (pagetable oldsz newsz : ℕ) : VmM ℕ :=
  if oldsz ≤ newsz then pure oldsz
  else do
    if PGROUNDUP newsz < PGROUNDUP oldsz then
      uvmunmap pagetable (PGROUNDUP newsz)
        (uint64 (int32 ((PGROUNDUP oldsz - PGROUNDUP newsz) / PGSIZE : ℕ))) true
    else pure ()
    pure newsz

/-- The loop of `uvmalloc` at `a`; false when a page could not be had, with the pages
from `oldsz` on given back. -/
def uvmallocFrom (pagetable oldsz perm : ℕ) : ℕ → ℕ → VmM Bool
  | 0, _ => pure true
  | n + 1, a => do
    let mem ← kalloc
    if mem = 0 then do
      let _ ← uvmdealloc pagetable a oldsz
      pure false
    else do
      memset mem 0
      if ← mappages pagetable a PGSIZE mem perm then uvmallocFrom pagetable oldsz perm n (a + PGSIZE)
      else do
        kfree mem
        let _ ← uvmdealloc pagetable a oldsz
        pure false

/-- The new size, or 0 on error. -/
def uvmalloc (pagetable oldsz newsz xperm : ℕ) : VmM ℕ :=
  if newsz < oldsz then pure oldsz
  else do
    if ← uvmallocFrom pagetable (PGROUNDUP oldsz) (PTE_R ||| PTE_U ||| xperm)
        (pagesFrom (PGROUNDUP oldsz) newsz) (PGROUNDUP oldsz) then pure newsz
    else pure 0

def freewalkEntry (free : ℕ → VmM Unit) (pagetable i : ℕ) : VmM Unit := do
  let pte ← readPte pagetable i
  if pte &&& PTE_V ≠ 0 ∧ pte &&& (PTE_R ||| PTE_W ||| PTE_X) = 0 then do
    free (PTE2PA pte)
    writePte pagetable i 0
  else if pte &&& PTE_V ≠ 0 then fail .freewalkLeaf
  else pure ()

/-- `freewalk` to the given depth; a page table has three levels. -/
def freewalk : ℕ → ℕ → VmM Unit
  | 0, _ => fail .outOfFuel
  | depth + 1, pagetable => do
    upTo (freewalkEntry (freewalk depth) pagetable) 512
    kfree pagetable

def uvmfree (pagetable sz : ℕ) : VmM Unit := do
  if 0 < sz then uvmunmap pagetable 0 (PGROUNDUP sz / PGSIZE) true else pure ()
  freewalk 3 pagetable

def uvmcopyFrom (old new : ℕ) : ℕ → ℕ → VmM Bool
  | 0, _ => pure true
  | n + 1, i => do
    match ← walk old i false with
    | none => fail .uvmcopyPte
    | some (t, k) => do
      let pte ← readPte t k
      if pte &&& PTE_V = 0 then fail .uvmcopyPage
      else do
        let mem ← kalloc
        if mem = 0 then do
          uvmunmap new 0 (i / PGSIZE) true
          pure false
        else do
          let data ← gets fun s => s.mem (PTE2PA pte)
          poke mem fun _ => data
          if ← mappages new i PGSIZE mem (PTE_FLAGS pte) then uvmcopyFrom old new n (i + PGSIZE)
          else do
            kfree mem
            uvmunmap new 0 (i / PGSIZE) true
            pure false

/-- Whether `uvmcopy` returned 0. -/
def uvmcopy (old new sz : ℕ) : VmM Bool := uvmcopyFrom old new (pagesFrom 0 sz) 0

def uvmclear (pagetable va : ℕ) : VmM Unit := do
  match ← walk pagetable va false with
  | none => fail .uvmclear
  | some (t, i) => do
    let pte ← readPte t i
    writePte t i (pte &&& (2 ^ 64 - 1 - PTE_U))

def copyoutFrom (pagetable : ℕ) : ℕ → ℕ → List UInt8 → VmM Bool
  | 0, _, _ => pure true
  | fuel + 1, dstva, src =>
    if src = [] then pure true
    else do
      let va0 := PGROUNDDOWN dstva
      let pa0 ← walkaddr pagetable va0
      if pa0 = 0 then pure false
      else do
        let n := min (PGSIZE - (dstva - va0)) src.length
        poke pa0 fun d => putBytes d (dstva - va0) (src.take n)
        copyoutFrom pagetable fuel (uint64 (va0 + PGSIZE)) (src.drop n)

/-- Whether `copyout` returned 0. Every round copies at least one byte. -/
def copyout (pagetable dstva : ℕ) (src : List UInt8) : VmM Bool := copyoutFrom pagetable src.length dstva src

def copyinFrom (pagetable : ℕ) : ℕ → ℕ → ℕ → VmM (List UInt8 × Bool)
  | 0, _, _ => pure ([], true)
  | fuel + 1, srcva, len =>
    if len = 0 then pure ([], true)
    else do
      let va0 := PGROUNDDOWN srcva
      let pa0 ← walkaddr pagetable va0
      if pa0 = 0 then pure ([], false)
      else do
        let n := min (PGSIZE - (srcva - va0)) len
        let bytes ← gets fun s => getBytes (s.mem pa0) (srcva - va0) n
        let rest ← copyinFrom pagetable fuel (uint64 (va0 + PGSIZE)) (len - n)
        pure (bytes ++ rest.1, rest.2)

/-- The bytes stored at the destination, and whether `copyin` returned 0. Every round copies at least one byte. -/
def copyin (pagetable srcva len : ℕ) : VmM (List UInt8 × Bool) := copyinFrom pagetable len srcva len

/-- The bytes up to the first NUL among `n` bytes at offset `k`, and whether it was met. -/
def scanNul (d : PageData) : ℕ → ℕ → List UInt8 × Bool
  | 0, _ => ([], false)
  | n + 1, k =>
    if getByte d k = 0 then ([0], true)
    else let r := scanNul d n (k + 1); (getByte d k :: r.1, r.2)

def copyinstrFrom (pagetable : ℕ) : ℕ → ℕ → ℕ → VmM (List UInt8 × Bool)
  | 0, _, _ => pure ([], false)
  | fuel + 1, srcva, max =>
    if max = 0 then pure ([], false)
    else do
      let va0 := PGROUNDDOWN srcva
      let pa0 ← walkaddr pagetable va0
      if pa0 = 0 then pure ([], false)
      else do
        let n := min (PGSIZE - (srcva - va0)) max
        let r ← gets fun s => scanNul (s.mem pa0) n (srcva - va0)
        if r.2 then pure r
        else do
          let rest ← copyinstrFrom pagetable fuel (uint64 (va0 + PGSIZE)) (max - n)
          pure (r.1 ++ rest.1, rest.2)

/-- The bytes stored at the destination, and whether `copyinstr` returned 0. -/
def copyinstr (pagetable srcva max : ℕ) : VmM (List UInt8 × Bool) := copyinstrFrom pagetable max srcva max

/-! ### The page table part of proc.c -/

def procPagetable (trapframe : ℕ) : VmM ℕ := do
  let pagetable ← uvmcreate
  if pagetable = 0 then pure 0
  else do
    let trampoline ← gets fun s => s.layout.trampoline
    if ← mappages pagetable TRAMPOLINE PGSIZE trampoline (PTE_R ||| PTE_X) then do
      if ← mappages pagetable TRAPFRAME PGSIZE trapframe (PTE_R ||| PTE_W) then pure pagetable
      else do
        uvmunmap pagetable TRAMPOLINE 1 false
        uvmfree pagetable 0
        pure 0
    else do
      uvmfree pagetable 0
      pure 0

def procFreepagetable (pagetable sz : ℕ) : VmM Unit := do
  uvmunmap pagetable TRAMPOLINE 1 false
  uvmunmap pagetable TRAPFRAME 1 false
  uvmfree pagetable sz

end Xv6.Vm
