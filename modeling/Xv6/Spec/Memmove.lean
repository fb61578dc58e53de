import Mathlib

/-! The two `memmove`: that of `kernel/string.c`, whose length is a `uint`, and that of `user/ulib.c`, whose length is
an `int`. Pointers are 64 bits wide and wrap. -/

namespace Xv6

open Function

abbrev ByteMemory := BitVec 64 → UInt8

/-- `*d++ = *s++`, `n` times -/
def copyUp : ℕ → BitVec 64 → BitVec 64 → ByteMemory → ByteMemory
  | 0, _, _, mem => mem
  | n + 1, d, s, mem => copyUp n (d + 1) (s + 1) (update mem d (mem s))

/-- `*--d = *--s`, `n` times -/
def copyDown : ℕ → BitVec 64 → BitVec 64 → ByteMemory → ByteMemory
  | 0, _, _, mem => mem
  | n + 1, d, s, mem => copyDown n (d - 1) (s - 1) (update mem (d - 1) (mem (s - 1)))

def Kernel.memmove (dst src : BitVec 64) (n : BitVec 32) (mem : ByteMemory) : ByteMemory :=
  if n = 0 then mem
  else if src < dst ∧ src + n.setWidth 64 > dst then
    copyDown n.toNat (dst + n.setWidth 64) (src + n.setWidth 64) mem
  else copyUp n.toNat dst src mem

/-- The loops make no round for a negative length. -/
def User.memmove (dst src : BitVec 64) (n : BitVec 32) (mem : ByteMemory) : ByteMemory :=
  if src > dst then copyUp n.toInt.toNat dst src mem
  else copyDown n.toInt.toNat (dst + n.signExtend 64) (src + n.signExtend 64) mem

/-- The memory with the bytes of [dst, dst + n), whose distance from `dst` is below `n`, replaced by those of
[src, src + n). -/
def replaced (dst src : BitVec 64) (n : ℕ) (mem : ByteMemory) : ByteMemory := fun a =>
  if (a - dst).toNat < n then mem (src + (a - dst)) else mem a

end Xv6
