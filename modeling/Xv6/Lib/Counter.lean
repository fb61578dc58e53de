import Mathlib

/-! Free-running counters: natural numbers of which a machine keeps the remainder
modulo `m`. As long as two of them are less than `m` apart, the machine sees their
difference and whether they are equal; and the slots of a buffer whose length divides
`m` can be found from the remainders. -/

namespace Counter

variable {m a b k : ℕ}

/-- `x - y` for two counters, as the machine computes it. -/
def sub (m x y : ℕ) : ℕ := (x + (m - y)) % m

theorem sub_mod (hle : a ≤ b) (hlt : b - a < m) : sub m (b % m) (a % m) = b - a := by
  have hm : 0 < m := by omega
  have ha : a % m < m := Nat.mod_lt a hm
  have hsplit : b + (m - a % m) = (b - a) + m * (a / m + 1) := by
    have hdiv := Nat.div_add_mod a m
    rw [Nat.mul_add]
    omega
  unfold sub
  rw [Nat.mod_add_mod, hsplit, Nat.add_mul_mod_self_left, Nat.mod_eq_of_lt hlt]

theorem mod_eq_iff (hle : a ≤ b) (hlt : b - a < m) : b % m = a % m ↔ b = a := by
  constructor
  · intro h
    have hzero := sub_mod hle hlt
    rw [h, sub_mod le_rfl (by omega)] at hzero
    omega
  · rintro rfl
    rfl

theorem succ_mod : (a % m + 1) % m = (a + 1) % m := Nat.mod_add_mod a m 1

theorem pred_mod (hm : 1 < m) : sub m ((a + 1) % m) 1 = a % m := by
  unfold sub
  rw [Nat.mod_add_mod, show a + 1 + (m - 1) = a + m by omega, Nat.add_mod_right]

theorem slot_mod (hk : k ∣ m) : a % m % k = a % k := Nat.mod_mod_of_dvd a hk

/-- Two places less than `k` apart are in different slots. -/
theorem slot_ne (hlt : a < b) (hnear : b < a + k) : a % k ≠ b % k := by
  intro h
  have := (mod_eq_iff (m := k) hlt.le (by omega)).mp h.symm
  omega

end Counter
