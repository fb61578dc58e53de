import Mathlib

/-! Who holds which lock. The parties `κ` are each at some place `α`, and `held` says
which locks a party at a place holds; `Owns` says that the locks agree. A party that
moves takes or drops at most one lock of a kind. If everybody takes locks in one order,
nobody waits in a circle. -/

namespace Locks

open Function

variable {ι κ α : Type}

structure Owns (held : α → List ι) (lock : ι → Option κ) (place : κ → α) : Prop where
  iff : ∀ i c, lock i = some c ↔ i ∈ held (place c)
  nodup : ∀ c, (held (place c)).Nodup

variable {held : α → List ι} {lock lock' : ι → Option κ} {place : κ → α} {i : ι} {c d : κ} {a : α} {l l' : List ι}

/-- A lock has at most one holder. -/
theorem Owns.unique (h : Owns held lock place) (hc : i ∈ held (place c)) (hd : i ∈ held (place d)) : c = d :=
  Option.some.inj (((h.iff i c).mpr hc).symm.trans ((h.iff i d).mpr hd))

theorem Owns.not_mem (h : Owns held lock place) (hfree : lock i = none) : i ∉ held (place d) := fun hd => by
  rw [← h.iff, hfree] at hd
  cases hd

theorem Owns.congr {place' : κ → α} (h : Owns held lock place) (hlock : ∀ i, lock' i = lock i)
    (hplace : ∀ c, held (place' c) = held (place c)) : Owns held lock' place' :=
  ⟨fun i c => by rw [hlock, hplace, h.iff], fun c => by rw [hplace]; exact h.nodup c⟩

/-- `c` wants a lock that `d` has. -/
def WaitsFor (wants : α → Option ι) (lock : ι → Option κ) (place : κ → α) (c d : κ) : Prop :=
  ∃ i, wants (place c) = some i ∧ lock i = some d

section Order

variable {wants : α → Option ι} {rank : ι → ℕ}

/-- Along a chain of waiting parties, the locks wanted go up. -/
theorem Owns.rank_lt (h : Owns held lock place)
    (hrank : ∀ c i, wants (place c) = some i → ∀ j ∈ held (place c), rank j < rank i)
    (hpath : Relation.TransGen (WaitsFor wants lock place) c d) {i j : ι} (hi : wants (place c) = some i)
    (hj : wants (place d) = some j) : rank i < rank j := by
  have hedge : ∀ {x y : κ} {k l : ι}, WaitsFor wants lock place x y → wants (place x) = some k →
      wants (place y) = some l → rank k < rank l := by
    rintro x y k l ⟨m, hm, hy⟩ hk hl
    have hmk : m = k := Option.some.inj (hm.symm.trans hk)
    rw [hmk] at hy
    exact hrank y l hl k ((h.iff k y).mp hy)
  induction hpath generalizing j with
  | single hstep => exact hedge hstep hi hj
  | tail _ hstep ih =>
    obtain ⟨m, hm, -⟩ := id hstep
    exact (ih hm).trans (hedge hstep hm hj)

/-- Nobody waits in a circle. -/
theorem Owns.acyclic (h : Owns held lock place)
    (hrank : ∀ c i, wants (place c) = some i → ∀ j ∈ held (place c), rank j < rank i) (c : κ) :
    ¬Relation.TransGen (WaitsFor wants lock place) c c := by
  intro hpath
  obtain ⟨d, ⟨i, hi, -⟩, -⟩ := Relation.TransGen.head'_iff.mp hpath
  exact lt_irrefl _ (h.rank_lt hrank hpath hi hi)

end Order

variable [DecidableEq ι] [DecidableEq κ]

/-- The locks after a step of `c`, which held `l` and then holds `l'`. -/
inductive Delta (lock : ι → Option κ) (c : κ) (l l' : List ι) : (ι → Option κ) → Prop
  | keep (h : l' = l) : Delta lock c l l' lock
  | acquire (i : ι) (hfree : lock i = none) (h : l' = i :: l) : Delta lock c l l' (Function.update lock i (some c))
  | release (i : ι) (hi : i ∈ l) (h : l.Nodup → l'.Nodup ∧ ∀ j, j ∈ l' ↔ j ≠ i ∧ j ∈ l) :
      Delta lock c l l' (Function.update lock i none)

omit [DecidableEq ι] in
theorem Owns.nodup_update (h : Owns held lock place) (ha : (held a).Nodup) (d : κ) :
    (held (update place c a d)).Nodup := by
  by_cases hd : d = c
  · subst hd
    rwa [update_self]
  · rw [update_of_ne hd]
    exact h.nodup d

omit [DecidableEq ι] in
/-- For the parties that do not move, and the locks that are not touched. -/
theorem Owns.iff_update {j : ι} (h : Owns held lock place) (hlock : lock' j = lock j)
    (ha : j ∈ held a ↔ j ∈ held (place c)) (d : κ) : lock' j = some d ↔ j ∈ held (update place c a d) := by
  rw [hlock, h.iff]
  by_cases hd : d = c
  · subst hd
    rw [update_self, ha]
  · rw [update_of_ne hd]

omit [DecidableEq κ] in
/-- A lock is dropped that is among those held. -/
theorem Delta.drop (i : ι) (h : l.Perm (i :: l')) : Delta lock c l l' (update lock i none) := by
  refine .release i (h.mem_iff.mpr List.mem_cons_self) fun hnodup => ?_
  have hcons := List.nodup_cons.mp (h.nodup_iff.mp hnodup)
  refine ⟨hcons.2, fun j => ?_⟩
  rw [h.mem_iff, List.mem_cons]
  constructor
  · intro hj
    refine ⟨?_, .inr hj⟩
    rintro rfl
    exact hcons.1 hj
  · rintro ⟨hne, rfl | hj⟩
    · exact absurd rfl hne
    · exact hj

theorem Owns.move (h : Owns held lock place) (hd : Delta lock c (held (place c)) (held a) lock') :
    Owns held lock' (update place c a) := by
  cases hd with
  | keep heq => exact ⟨fun j d => h.iff_update rfl (by rw [heq]) d, h.nodup_update (heq ▸ h.nodup c)⟩
  | acquire i hfree heq =>
    refine ⟨fun j d => ?_, h.nodup_update (heq ▸ List.nodup_cons.mpr ⟨h.not_mem hfree, h.nodup c⟩)⟩
    by_cases hj : j = i
    · subst hj
      rw [update_self]
      by_cases hd : d = c
      · subst hd
        rw [update_self, heq]
        exact iff_of_true rfl List.mem_cons_self
      · rw [update_of_ne hd]
        exact iff_of_false (fun h' => hd (Option.some.inj h').symm) (h.not_mem hfree)
    · exact h.iff_update (update_of_ne hj _ _) (by rw [heq, List.mem_cons, or_iff_right hj]) d
  | release i hi hrel =>
    obtain ⟨hnodup, hmem⟩ := hrel (h.nodup c)
    refine ⟨fun j d => ?_, h.nodup_update hnodup⟩
    by_cases hj : j = i
    · subst hj
      rw [update_self]
      refine iff_of_false (by simp) ?_
      by_cases hd : d = c
      · subst hd
        rw [update_self, hmem]
        exact fun hin => hin.1 rfl
      · rw [update_of_ne hd]
        exact fun hin => hd (h.unique hin hi)
    · exact h.iff_update (update_of_ne hj _ _) (by rw [hmem, and_iff_right hj]) d

end Locks
