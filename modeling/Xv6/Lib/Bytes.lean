import Mathlib

/-! Fixed-size byte arrays with little-endian fields of any width. A field read
back after a store of the same width at the same offset is the stored value
modulo the width; a store to a disjoint field leaves it alone. -/

namespace Bytes

variable {n : ℕ}

/-- A buffer of exactly `n` bytes. -/
abbrev Buf (n : ℕ) := Fin n → UInt8

def get (b : Buf n) (i : ℕ) : UInt8 := if h : i < n then b ⟨i, h⟩ else 0

def put (b : Buf n) (i : ℕ) (v : UInt8) : Buf n := fun j => if j.val = i then v else b j

/-- Every byte set to `v`, as `memset` over the whole buffer leaves it. -/
def fill (n : ℕ) (v : UInt8) : Buf n := fun _ => v

/-- The `k`-byte little-endian field at offset `off`. -/
def le : ℕ → Buf n → ℕ → ℕ
  | 0, _, _ => 0
  | k + 1, b, off => (get b off).toNat + 256 * le k b (off + 1)

/-- Store `v` modulo `256 ^ k` in the `k`-byte field at `off`. -/
def putLe : ℕ → Buf n → ℕ → ℕ → Buf n
  | 0, b, _, _ => b
  | k + 1, b, off, v => putLe k (put b off (UInt8.ofNat v)) (off + 1) (v / 256)

variable {i hi lo c r r' : ℕ}

theorem get_put_same (b : Buf n) (v : UInt8) (h : i < n) : get (put b i v) i = v := by
  simp [get, put, h]

theorem get_put_ne (b : Buf n) {j : ℕ} (v : UInt8) (h : i ≠ j) : get (put b i v) j = get b j := by
  by_cases hj : j < n
  · simp [get, put, hj, Ne.symm h]
  · simp [get, hj]

theorem get_putLe_of_outside (k : ℕ) (b : Buf n) (off v i : ℕ) (h : i < off ∨ off + k ≤ i) :
    get (putLe k b off v) i = get b i := by
  induction k generalizing b off v with
  | zero => rfl
  | succ k ih =>
    rw [putLe, ih _ _ _ (by omega), get_put_ne _ _ (by omega)]

theorem le_congr (k : ℕ) (b b' : Buf n) (off : ℕ)
    (h : ∀ i, off ≤ i → i < off + k → get b i = get b' i) : le k b off = le k b' off := by
  induction k generalizing off with
  | zero => rfl
  | succ k ih =>
    rw [le, le, h off le_rfl (by omega), ih (off + 1) (fun i hi hk => h i (by omega) (by omega))]

theorem le_putLe_of_disjoint (k l : ℕ) (b : Buf n) (off off' v : ℕ)
    (h : off' + k ≤ off ∨ off + l ≤ off') : le k (putLe l b off v) off' = le k b off' := by
  apply le_congr
  intro i hi hk
  exact get_putLe_of_outside l b off v i (by omega)

theorem le_putLe_same (k : ℕ) (b : Buf n) (off v : ℕ) (h : off + k ≤ n) :
    le k (putLe k b off v) off = v % 256 ^ k := by
  induction k generalizing b off v with
  | zero => simp [le, Nat.mod_one]
  | succ k ih =>
    have hhead : get (putLe (k + 1) b off v) off = UInt8.ofNat v := by
      rw [putLe, get_putLe_of_outside _ _ _ _ _ (by omega), get_put_same _ _ (by omega)]
    rw [le, hhead, putLe, ih _ _ _ (by omega), pow_succ', Nat.mod_mul]
    simp

/-- A zero-filled buffer reads zero in every field. -/
theorem le_fill_zero (k off : ℕ) : le k (fill n 0) off = 0 := by
  induction k generalizing off with
  | zero => rfl
  | succ k ih =>
    have : get (fill n 0) off = 0 := by unfold get fill; split_ifs <;> rfl
    rw [le, this, ih]
    rfl

/-! ### Digits of base 256 -/

theorem split_digit (w r : ℕ) : w = w / 256 ^ (r + 1) * 256 ^ (r + 1) + w / 256 ^ r % 256 * 256 ^ r + w % 256 ^ r := by
  have h1 := Nat.div_add_mod w (256 ^ r)
  have h2 := Nat.div_add_mod (w / 256 ^ r) 256
  rw [Nat.div_div_eq_div_mul, ← pow_succ] at h2
  calc w = 256 ^ r * (w / 256 ^ r) + w % 256 ^ r := h1.symm
    _ = 256 ^ r * (256 * (w / 256 ^ (r + 1)) + w / 256 ^ r % 256) + w % 256 ^ r := by rw [h2]
    _ = _ := by ring

theorem digit_same (hlo : lo < 256 ^ r) (hc : c < 256) :
    (hi * 256 ^ (r + 1) + c * 256 ^ r + lo) / 256 ^ r % 256 = c := by
  have hpos : 0 < 256 ^ r := by positivity
  have heq : hi * 256 ^ (r + 1) + c * 256 ^ r + lo = lo + 256 ^ r * (hi * 256 + c) := by ring
  rw [heq, Nat.add_mul_div_left _ _ hpos, Nat.div_eq_of_lt hlo]
  omega

theorem digit_above (hlo : lo < 256 ^ r) (hc : c < 256) (h : r < r') :
    (hi * 256 ^ (r + 1) + c * 256 ^ r + lo) / 256 ^ r' = hi / 256 ^ (r' - (r + 1)) := by
  have hpow : 256 ^ r' = 256 ^ (r + 1) * 256 ^ (r' - (r + 1)) := by
    rw [← pow_add]
    congr 1
    omega
  have hlow : c * 256 ^ r + lo < 256 ^ (r + 1) := by
    calc c * 256 ^ r + lo < c * 256 ^ r + 256 ^ r := by omega
      _ = (c + 1) * 256 ^ r := by ring
      _ ≤ 256 * 256 ^ r := Nat.mul_le_mul_right _ hc
      _ = 256 ^ (r + 1) := by ring
  have heq : hi * 256 ^ (r + 1) + c * 256 ^ r + lo = c * 256 ^ r + lo + 256 ^ (r + 1) * hi := by ring
  rw [hpow, ← Nat.div_div_eq_div_mul, heq, Nat.add_mul_div_left _ _ (by positivity), Nat.div_eq_of_lt hlow, zero_add]

theorem digit_below (h : r' < r) :
    (hi * 256 ^ (r + 1) + c * 256 ^ r + lo) / 256 ^ r' % 256 = lo / 256 ^ r' % 256 := by
  have hpow : 256 ^ r = 256 ^ r' * 256 * 256 ^ (r - (r' + 1)) := by
    rw [← pow_succ, ← pow_add]
    congr 1
    omega
  have heq : hi * 256 ^ (r + 1) + c * 256 ^ r + lo = lo + 256 ^ r' * (256 * (256 ^ (r - (r' + 1)) * (hi * 256 + c))) := by
    rw [pow_succ, hpow]
    ring
  rw [heq, Nat.add_mul_div_left _ _ (by positivity), Nat.add_mul_mod_self_left]

/-- A digit of base 256 replaced by another one. -/
theorem digit_replace (w : ℕ) (hc : c < 256) (r r' : ℕ) :
    (w + c * 256 ^ r - w / 256 ^ r % 256 * 256 ^ r) / 256 ^ r' % 256 = if r' = r then c else w / 256 ^ r' % 256 := by
  have hsplit := split_digit w r
  have hlo : w % 256 ^ r < 256 ^ r := Nat.mod_lt _ (by positivity)
  have hd : w / 256 ^ r % 256 < 256 := Nat.mod_lt _ (by norm_num)
  have hnew : w + c * 256 ^ r - w / 256 ^ r % 256 * 256 ^ r =
      w / 256 ^ (r + 1) * 256 ^ (r + 1) + c * 256 ^ r + w % 256 ^ r := by
    generalize w / 256 ^ (r + 1) * 256 ^ (r + 1) = x at *
    generalize w / 256 ^ r % 256 * 256 ^ r = y at *
    generalize w % 256 ^ r = z at *
    generalize c * 256 ^ r = u at *
    omega
  rw [hnew]
  rcases lt_trichotomy r' r with hlt | rfl | hgt
  · rw [digit_below hlt, if_neg (by omega)]
    conv_rhs => rw [hsplit, digit_below hlt]
  · rw [digit_same hlo hc, if_pos rfl]
  · rw [digit_above hlo hc hgt, if_neg (by omega)]
    conv_rhs => rw [hsplit, digit_above hlo hd hgt]

end Bytes
