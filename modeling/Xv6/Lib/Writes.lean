import Mathlib

/-! Stores as functions from addresses to values, and lists of writes applied to
them in order. Replaying a list of writes over a store on which any prefix of
that list was already carried out gives what one complete replay gives. -/

namespace Writes

open Function List

variable {α β : Type} [DecidableEq α]

def applyWrites (d : α → β) (ws : List (α × β)) : α → β :=
  ws.foldl (fun d w => Function.update d w.1 w.2) d

@[simp] theorem applyWrites_nil (d : α → β) : applyWrites d [] = d := rfl

@[simp] theorem applyWrites_cons (d : α → β) (w : α × β) (ws : List (α × β)) :
    applyWrites d (w :: ws) = applyWrites (update d w.1 w.2) ws := rfl

theorem applyWrites_append (d : α → β) (ws vs : List (α × β)) :
    applyWrites d (ws ++ vs) = applyWrites (applyWrites d ws) vs := by
  simp [applyWrites, foldl_append]

theorem applyWrites_of_unwritten (d : α → β) (ws : List (α × β)) (a : α)
    (h : ∀ w ∈ ws, w.1 ≠ a) : applyWrites d ws a = d a := by
  induction ws generalizing d with
  | nil => rfl
  | cons w ws ih =>
    rw [applyWrites_cons, ih _ (fun v hv => h v (by simp [hv]))]
    exact update_of_ne (Ne.symm (h w (by simp))) _ _

/-- An address that some write covers ends with a value that does not depend on
the store the writes started from. -/
theorem applyWrites_congr (d d' : α → β) (ws : List (α × β)) (a : α)
    (h : (∀ w ∈ ws, w.1 ≠ a) → d a = d' a) : applyWrites d ws a = applyWrites d' ws a := by
  induction ws generalizing d d' with
  | nil => exact h (by simp)
  | cons w ws ih =>
    rw [applyWrites_cons, applyWrites_cons]
    apply ih
    intro hun
    by_cases hw : w.1 = a
    · subst hw; simp
    · rw [update_of_ne (Ne.symm hw), update_of_ne (Ne.symm hw)]
      apply h
      intro v hv
      rcases mem_cons.1 hv with rfl | hv
      · exact hw
      · exact hun v hv

theorem applyWrites_replay (d : α → β) (ws : List (α × β)) (k : ℕ) (a : α) :
    applyWrites (applyWrites d (ws.take k)) ws a = applyWrites d ws a := by
  apply applyWrites_congr
  intro hun
  exact applyWrites_of_unwritten _ _ _ (fun w hw => hun w (mem_of_mem_take hw))

theorem applyWrites_of_mem (d : α → β) (ws : List (α × β)) (w : α × β)
    (hnd : (ws.map Prod.fst).Nodup) (hw : w ∈ ws) : applyWrites d ws w.1 = w.2 := by
  induction ws generalizing d with
  | nil => simp at hw
  | cons v ws ih =>
    rw [map_cons, nodup_cons] at hnd
    rcases mem_cons.1 hw with rfl | hw
    · rw [applyWrites_cons, applyWrites_of_unwritten]
      · simp
      · intro u hu heq
        exact hnd.1 (mem_map.2 ⟨u, hu, heq⟩)
    · exact ih _ hnd.2 hw

/-- A cut of a list with a marked element `x` falls before `x`, or behind it in the
middle part, or leaves the list whole. -/
theorem take_phases {γ : Type} (A B : List γ) (x y : γ) (k : ℕ) :
    (A ++ x :: (B ++ [y])).take k = A.take k ∨
      (∃ j, (A ++ x :: (B ++ [y])).take k = A ++ x :: B.take j) ∨
      (A ++ x :: (B ++ [y])).take k = A ++ x :: (B ++ [y]) := by
  rcases Nat.lt_or_ge A.length k with hA | hA
  · obtain ⟨i, rfl⟩ : ∃ i, k = A.length + (i + 1) := ⟨k - A.length - 1, by omega⟩
    rw [take_length_add_append, take_succ_cons]
    rcases Nat.lt_or_ge B.length i with hB | hB
    · exact .inr (.inr (by rw [take_of_length_le (by simp; omega)]))
    · exact .inr (.inl ⟨i, by rw [take_append_of_le_length hB]⟩)
  · exact .inl (take_append_of_le_length hA)

theorem take_snoc {γ : Type} (B : List γ) (y : γ) (k : ℕ) :
    (∃ j, (B ++ [y]).take k = B.take j) ∨ (B ++ [y]).take k = B ++ [y] := by
  rcases Nat.lt_or_ge B.length k with hB | hB
  · exact .inr (take_of_length_le (by simp; omega))
  · exact .inl ⟨k, take_append_of_le_length hB⟩

end Writes
