import Xv6.Spec.Memmove

/-! Each loop is right if the byte that it stores is not one that it is still to load: copying up if `dst` is not among
the bytes behind `src`, copying down if `src` is not among those behind `dst`. -/

namespace Xv6

open Function

variable {d s : BitVec 64} {n : ℕ}

theorem copyUp_eq (hn : n ≤ 2 ^ 64) (h : n ≤ (d - s).toNat ∨ d = s) (mem : ByteMemory) :
    copyUp n d s mem = replaced d s n mem := by
  induction n generalizing d s mem with
  | zero => rfl
  | succ n ih =>
    rw [copyUp, ih (by omega) (by bv_omega)]
    funext a
    unfold replaced
    rw [show s + 1 + (a - (d + 1)) = s + (a - d) by bv_omega]
    by_cases ha : a = d
    · subst ha
      rw [if_neg (by bv_omega), if_pos (by simp), update_self, BitVec.sub_self, BitVec.add_zero]
    · have hlt : (a - (d + 1)).toNat < n ↔ (a - d).toNat < n + 1 := by bv_omega
      simp only [hlt]
      split_ifs with hin
      · rw [update_of_ne]
        intro heq
        bv_omega
      · rw [update_of_ne ha]

theorem copyDown_eq (hn : n < 2 ^ 64) (h : n ≤ (s - d).toNat ∨ s = d) (mem : ByteMemory) :
    copyDown n (d + BitVec.ofNat 64 n) (s + BitVec.ofNat 64 n) mem = replaced d s n mem := by
  induction n generalizing mem with
  | zero => rfl
  | succ n ih =>
    have hback (x : BitVec 64) : x + BitVec.ofNat 64 (n + 1) - 1 = x + BitVec.ofNat 64 n := by bv_omega
    rw [copyDown, hback, hback, ih (by omega) (h.imp_left Nat.le_of_succ_le)]
    funext a
    unfold replaced
    by_cases ha : a = d + BitVec.ofNat 64 n
    · subst ha
      rw [if_neg (by bv_omega), if_pos (by bv_omega), update_self, BitVec.add_comm d, BitVec.add_sub_cancel]
    · have hlt : (a - d).toNat < n ↔ (a - d).toNat < n + 1 := by bv_omega
      simp only [hlt]
      split_ifs with hin
      · rw [update_of_ne]
        intro heq
        bv_omega
      · rw [update_of_ne ha]

/-- Both `memmove` leave the bytes of [dst, dst + n) as those of [src, src + n) were, however the two ranges overlap. -/
theorem memmove_overlap (dst src : BitVec 64) (n : BitVec 32) (mem : ByteMemory) (hdst : dst.toNat + n.toNat ≤ 2 ^ 64)
    (hsrc : src.toNat + n.toNat ≤ 2 ^ 64) : Kernel.memmove dst src n mem = replaced dst src n.toNat mem ∧
      (0 ≤ n.toInt → User.memmove dst src n mem = replaced dst src n.toNat mem ∧
        User.memmove dst src n mem = Kernel.memmove dst src n mem) := by
  have hn := n.isLt
  have hup (h : ¬src < dst ∨ n.toNat ≤ (dst - src).toNat) : copyUp n.toNat dst src mem = replaced dst src n.toNat mem :=
    copyUp_eq (by omega) (by bv_omega) mem
  have hdown (h : ¬dst < src) : copyDown n.toNat (dst + BitVec.ofNat 64 n.toNat) (src + BitVec.ofNat 64 n.toNat) mem =
      replaced dst src n.toNat mem :=
    copyDown_eq (by omega) (by bv_omega) mem
  have hwide : n.setWidth 64 = BitVec.ofNat 64 n.toNat := by simp
  have hkernel : Kernel.memmove dst src n mem = replaced dst src n.toNat mem := by
    unfold Kernel.memmove
    rw [hwide]
    split_ifs with hzero hbehind
    · subst hzero
      exact hup (.inr (Nat.zero_le _))
    · exact hdown (by bv_omega)
    · exact hup (by bv_omega)
  refine ⟨hkernel, fun hpos => ?_⟩
  rw [hkernel, and_self]
  have hmsb : n.msb = false := by
    rw [BitVec.msb_eq_false_iff_two_mul_lt]
    rw [BitVec.toInt_eq_toNat_cond] at hpos
    split_ifs at hpos <;> omega
  have hrounds : n.toInt.toNat = n.toNat := by
    rw [BitVec.toInt_eq_toNat_of_msb hmsb, Int.toNat_natCast]
  unfold User.memmove
  rw [hrounds, BitVec.signExtend_eq_setWidth_of_msb_false hmsb, hwide]
  split_ifs with hbehind
  · exact hup (by bv_omega)
  · exact hdown (by bv_omega)

/-- Three bytes go one byte up, and all of them arrive. -/
theorem memmove_overlap_one_up : (List.range 5).map (fun i =>
    (Kernel.memmove 1 0 3 (fun a => UInt8.ofNat a.toNat) (BitVec.ofNat 64 i),
      User.memmove 1 0 3 (fun a => UInt8.ofNat a.toNat) (BitVec.ofNat 64 i))) =
    [(0, 0), (0, 0), (1, 1), (2, 2), (4, 4)] := by
  obtain ⟨hkernel, huser⟩ := memmove_overlap 1 0 3 (fun a => UInt8.ofNat a.toNat) (by decide) (by decide)
  rw [hkernel, (huser (by decide)).1]
  decide

end Xv6
