import Mathlib

/-! Counting over parties. Each party `c` is at a place `place c`, which has a weight; when
one party moves, the total changes by the difference of two weights. -/

namespace Count

open Function Finset

variable {κ α : Type} [Fintype κ]

def total (w : α → ℕ) (place : κ → α) : ℕ := ∑ c, w (place c)

variable {w w' : α → ℕ} {place place' : κ → α}

theorem total_congr (h : ∀ c, w' (place' c) = w (place c)) : total w' place' = total w place :=
  sum_congr rfl fun c _ => h c

theorem total_eq_zero (h : ∀ c, w (place c) = 0) : total w place = 0 := sum_eq_zero fun c _ => h c

theorem le_total (c : κ) : w (place c) ≤ total w place :=
  single_le_sum (f := fun c => w (place c)) (fun _ _ => Nat.zero_le _) (mem_univ c)

variable [DecidableEq κ]

theorem total_update (c : κ) (a : α) : total w (update place c a) + w (place c) = total w place + w a := by
  have hsplit (g : κ → α) : total w g = w (g c) + ∑ d ∈ Finset.univ.erase c, w (g d) :=
    (add_sum_erase Finset.univ (fun d => w (g d)) (mem_univ c)).symm
  have hrest : ∑ d ∈ Finset.univ.erase c, w (update place c a d) = ∑ d ∈ Finset.univ.erase c, w (place d) := by
    refine sum_congr rfl fun d hd => ?_
    rw [update_of_ne (ne_of_mem_erase hd)]
  rw [hsplit (update place c a), hsplit place, hrest, update_self]
  omega

section Sums

variable {β : Type} [Fintype β] [DecidableEq β]

theorem sum_count (l : List β) : ∑ b, l.count b = l.length := by
  have := Multiset.sum_count_eq_card (m := (l : Multiset β)) fun b _ => mem_univ b
  simpa only [Multiset.coe_count, Multiset.coe_card] using this

theorem sum_some (o : Option β) : (∑ b, if o = some b then 1 else 0) = if o.isSome then 1 else 0 := by
  cases o with
  | none => exact sum_const_zero
  | some b =>
    simp only [Option.some.injEq, Option.isSome_some, if_true]
    exact (sum_ite_eq Finset.univ b fun _ => 1).trans (if_pos (mem_univ b))

end Sums

end Count
