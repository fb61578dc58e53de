import Xv6.Spec.Log

/-! The on-disk log header: what `write_head` stores is what `read_head` reads
back, and `log_write` keeps the block list free of duplicates. -/

namespace Xv6

open Bytes

theorem storeBlocks_n (hb : Block) (i : ℕ) (lh : List ℕ) : le 4 (storeBlocks hb i lh) 0 = le 4 hb 0 := by
  induction lh generalizing hb i with
  | nil => rfl
  | cons b bs ih => rw [storeBlocks, ih, le_putLe_of_disjoint _ _ _ _ _ _ (by omega)]

theorem storeBlocks_before (hb : Block) (i j : ℕ) (lh : List ℕ) (h : j < i) :
    le 4 (storeBlocks hb i lh) (4 + 4 * j) = le 4 hb (4 + 4 * j) := by
  induction lh generalizing hb i with
  | nil => rfl
  | cons b bs ih =>
    rw [storeBlocks, ih _ _ (by omega), le_putLe_of_disjoint _ _ _ _ _ _ (by omega)]

theorem storeBlocks_at (hb : Block) (i j : ℕ) (lh : List ℕ) (hj : j < lh.length)
    (hfit : 4 + 4 * (i + lh.length) ≤ BSIZE) (hlt : ∀ b ∈ lh, b < 2 ^ 32) :
    le 4 (storeBlocks hb i lh) (4 + 4 * (i + j)) = lh[j] := by
  induction lh generalizing hb i j with
  | nil => simp at hj
  | cons b bs ih =>
    have hb32 : b < 256 ^ 4 := lt_of_lt_of_eq (hlt b (by simp)) (by norm_num)
    simp only [List.length_cons] at hj hfit
    cases j with
    | zero =>
      rw [storeBlocks, storeBlocks_before _ _ _ _ (by omega), Nat.add_zero,
        le_putLe_same _ _ _ _ (by omega), Nat.mod_eq_of_lt hb32]
      rfl
    | succ j =>
      rw [storeBlocks, show i + (j + 1) = i + 1 + j by omega,
        ih _ _ _ (by omega) (by omega) (fun x hx => hlt x (by simp [hx]))]
      rfl

theorem encodeHeader_n (hb : Block) (lh : List ℕ) (hlen : lh.length ≤ LOGSIZE) :
    int32 (le 4 (encodeHeader hb lh) 0) = lh.length := by
  change lh.length ≤ 30 at hlen
  have hl : lh.length < 256 ^ 4 := lt_of_le_of_lt hlen (by norm_num)
  rw [encodeHeader, storeBlocks_n, le_putLe_same _ _ _ _ (by norm_num), Nat.mod_eq_of_lt hl]
  apply int32_of_range <;> omega

/-- The header round trip. -/
theorem decode_encode (hb : Block) (lh : List ℕ) (hlen : lh.length ≤ LOGSIZE)
    (hlt : ∀ b ∈ lh, b < 2 ^ 32) : decodeHeader (encodeHeader hb lh) = lh := by
  unfold decodeHeader
  rw [encodeHeader_n hb lh hlen, Int.toNat_natCast]
  apply List.ext_getElem
  · simp
  · intro i hi hj
    simp only [List.getElem_map, List.getElem_range]
    have hfit : 4 + 4 * (0 + lh.length) ≤ BSIZE := by change lh.length ≤ 30 at hlen; change _ ≤ 1024; omega
    have h := storeBlocks_at (putLe 4 hb 0 lh.length) 0 i lh hj hfit hlt
    rwa [Nat.zero_add, ← encodeHeader] at h

theorem decode_encode_nil (hb : Block) : decodeHeader (encodeHeader hb []) = [] :=
  decode_encode hb [] (by simp) (by simp)

/-- Absorption as a list operation. -/
theorem absorb_eq (lh : List ℕ) (b : ℕ) : absorb lh b = if b ∈ lh then lh else lh ++ [b] := by
  induction lh with
  | nil => simp [absorb]
  | cons x xs ih =>
    unfold absorb
    by_cases hx : x = b
    · subst hx; simp
    · rw [if_neg hx, ih]
      by_cases hb : b ∈ xs
      · simp [hb]
      · simp [hb, Ne.symm hx]

theorem mem_absorb (lh : List ℕ) (b x : ℕ) : x ∈ absorb lh b ↔ x = b ∨ x ∈ lh := by
  rw [absorb_eq]
  split_ifs with h
  · constructor
    · exact .inr
    · rintro (rfl | hx)
      · exact h
      · exact hx
  · simp [or_comm]

theorem absorb_nodup (lh : List ℕ) (b : ℕ) (h : lh.Nodup) : (absorb lh b).Nodup := by
  rw [absorb_eq]
  split_ifs with hb
  · exact h
  · exact h.append (by simp) (by simpa using hb)

theorem absorb_length_le (lh : List ℕ) (b : ℕ) : (absorb lh b).length ≤ lh.length + 1 := by
  rw [absorb_eq]
  split_ifs <;> simp

end Xv6
