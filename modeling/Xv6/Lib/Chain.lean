import Mathlib

/-! Linked lists threaded through their own cells: `next x` is the link word of the
cell `x`, and 0 is the null link. -/

namespace Chain

variable {next next' : ℕ → ℕ} {h x : ℕ} {L : List ℕ}

/-- The cells from the link `h` on are exactly `L`, in order. -/
def Spells (next : ℕ → ℕ) : ℕ → List ℕ → Prop
  | h, [] => h = 0
  | h, x :: xs => h = x ∧ x ≠ 0 ∧ Spells next (next x) xs

/-- The cell `x` is met when the links are followed from `h`. -/
inductive Listed (next : ℕ → ℕ) (x : ℕ) : ℕ → Prop
  | here (hx : x ≠ 0) : Listed next x x
  | there {h : ℕ} (hh : h ≠ 0) (ht : Listed next x (next h)) : Listed next x h

theorem listed_iff_mem (hs : Spells next h L) : Listed next x h ↔ x ∈ L := by
  induction L generalizing h with
  | nil =>
    have h0 : h = 0 := hs
    constructor
    · rintro (hx | ⟨hh, _⟩)
      · exact absurd h0 hx
      · exact absurd h0 hh
    · simp
  | cons y ys ih =>
    obtain ⟨rfl, hy, hrest⟩ := hs
    constructor
    · rintro (hx | ⟨_, ht⟩)
      · simp
      · exact List.mem_cons_of_mem _ ((ih hrest).mp ht)
    · intro hx
      rcases List.mem_cons.mp hx with rfl | hx
      · exact .here hy
      · exact .there hy ((ih hrest).mpr hx)

theorem Spells.congr (hs : Spells next h L) (heq : ∀ y ∈ L, next' y = next y) : Spells next' h L := by
  induction L generalizing h with
  | nil => exact hs
  | cons y ys ih =>
    obtain ⟨rfl, hy, hrest⟩ := hs
    refine ⟨rfl, hy, ?_⟩
    rw [heq h (by simp)]
    exact ih hrest (fun z hz => heq z (by simp [hz]))

/-- A cell that is not on the list is put in front. -/
theorem Spells.push (hs : Spells next h L) (hx : x ≠ 0) (hlink : next' x = h)
    (heq : ∀ y ∈ L, next' y = next y) : Spells next' x (x :: L) := by
  refine ⟨rfl, hx, ?_⟩
  rw [hlink]
  exact hs.congr heq

theorem Spells.pop (hs : Spells next h L) (hh : h ≠ 0) : ∃ xs, L = h :: xs ∧ Spells next (next h) xs := by
  cases L with
  | nil => exact absurd hs hh
  | cons y ys =>
    obtain ⟨rfl, _, hrest⟩ := hs
    exact ⟨ys, rfl, hrest⟩

end Chain
