import Mathlib

/-! Circular doubly linked lists, threaded through the links `next` and `prev` of their
cells. `Walk next prev x L y` says that `next` leads from `x` through the cells `L` to
`y`, and `prev` back again; a ring is a walk from its head to its head. -/

namespace Ring

open Function List

variable {α : Type}

def Walk (next prev : α → α) : α → List α → α → Prop
  | x, [], y => next x = y ∧ prev y = x
  | x, z :: zs, y => next x = z ∧ prev z = x ∧ Walk next prev z zs y

/-- The ring through `head` and the cells `L`, each once. -/
structure IsRing (next prev : α → α) (head : α) (L : List α) : Prop where
  walk : Walk next prev head L head
  nodup : (head :: L).Nodup

variable {next prev next' prev' : α → α} {x y b head : α} {L A B : List α}

theorem walk_append : Walk next prev x (A ++ b :: B) y ↔ Walk next prev x A b ∧ Walk next prev b B y := by
  induction A generalizing x with
  | nil => simp [Walk, and_assoc]
  | cons a A ih => simp [Walk, ih, and_assoc]

section

variable (h : Walk next prev x L y)

include h

theorem walk_reverse : Walk prev next y L.reverse x := by
  induction L generalizing x with
  | nil => exact ⟨h.2, h.1⟩
  | cons z zs ih =>
    obtain ⟨hnext, hprev, hrest⟩ := h
    rw [reverse_cons, walk_append]
    exact ⟨ih hrest, hprev, hnext⟩

theorem Walk.congr (hnext : ∀ z ∈ x :: L, next' z = next z)
    (hprev : ∀ z ∈ y :: L, prev' z = prev z) : Walk next' prev' x L y := by
  induction L generalizing x with
  | nil =>
    obtain ⟨hx, hy⟩ := h
    exact ⟨(hnext x (by simp)).trans hx, (hprev y (by simp)).trans hy⟩
  | cons z zs ih =>
    obtain ⟨hx, hz, hrest⟩ := h
    refine ⟨(hnext x (by simp)).trans hx, (hprev z (by simp)).trans hz, ih hrest ?_ ?_⟩
    · intro w hw
      exact hnext w (mem_cons_of_mem x hw)
    · intro w hw
      rcases mem_cons.mp hw with rfl | hw
      · exact hprev w (by simp)
      · exact hprev w (by simp [hw])

/-- The last cell in front of the end of a walk. -/
theorem Walk.prev_mem : prev y ∈ x :: L := by
  induction L generalizing x with
  | nil => simp [h.2]
  | cons z zs ih => exact mem_cons_of_mem x (ih h.2.2)

theorem Walk.next_mem : next x ∈ y :: L := by
  cases L with
  | nil | cons z zs => simp [h.1]

end

section Surgery

variable [DecidableEq α]

/-- `b->next->prev = b->prev; b->prev->next = b->next`. The links of `b` itself stay. -/
theorem Walk.unlink (h : Walk next prev x (A ++ b :: B) y) (hnodup : (A ++ b :: B).Nodup) (hx : x ∉ A ++ b :: B)
    (hy : y ∉ A ++ b :: B) :
    Walk (update next (prev b) (next b)) (update prev (next b) (prev b)) x (A ++ B) y := by
  obtain ⟨hA, hB⟩ := walk_append.mp h
  induction A generalizing x with
  | nil =>
    obtain ⟨hxb, hbx⟩ := hA
    simp only [nil_append, nodup_cons, mem_cons, not_or] at hnodup hx hy
    cases B with
    | nil =>
      obtain ⟨hby, -⟩ := hB
      refine ⟨?_, ?_⟩
      · rw [hbx, update_self, hby]
      · rw [hby, update_self, hbx]
    | cons z zs =>
      obtain ⟨hbz, -, hrest⟩ := hB
      simp only [nodup_cons, mem_cons, not_or] at hnodup hx hy
      refine ⟨?_, ?_, hrest.congr ?_ ?_⟩
      · rw [hbx, update_self, hbz]
      · rw [hbz, update_self, hbx]
      · intro w hw
        rw [hbx]
        refine update_of_ne ?_ _ _
        rintro rfl
        rcases mem_cons.mp hw with hw | hw
        · exact hx.2.1 hw
        · exact hx.2.2 hw
      · intro w hw
        rw [hbz]
        refine update_of_ne ?_ _ _
        rintro rfl
        rcases mem_cons.mp hw with hw | hw
        · exact hy.2.1 hw.symm
        · exact hnodup.2.1 hw
  | cons a A ih =>
    obtain ⟨hxa, hax, hA⟩ := hA
    simp only [cons_append, nodup_cons, mem_cons, not_or] at hnodup hx hy
    have hpb : prev b ∈ a :: A := hA.prev_mem
    have hnb : next b ∈ y :: B := hB.next_mem
    refine ⟨?_, ?_, ih (walk_append.mpr ⟨hA, hB⟩) hnodup.2 hnodup.1 hy.2 hA⟩
    · rw [update_of_ne ?_, hxa]
      intro heq
      rw [← heq] at hpb
      rcases mem_cons.mp hpb with hpb | hpb
      · exact hx.1 hpb
      · exact hx.2 (mem_append_left _ hpb)
    · rw [update_of_ne ?_, hax]
      intro heq
      rw [← heq] at hnb
      rcases mem_cons.mp hnb with hnb | hnb
      · exact hy.1 hnb.symm
      · exact hnodup.1 (mem_append_right _ (mem_cons_of_mem _ hnb))

theorem IsRing.unlink (h : IsRing next prev head (A ++ b :: B)) :
    IsRing (update next (prev b) (next b)) (update prev (next b) (prev b)) head (A ++ B) := by
  obtain ⟨hhead, hnodup⟩ := nodup_cons.mp h.nodup
  refine ⟨h.walk.unlink hnodup hhead hhead, h.nodup.sublist ?_⟩
  exact List.Sublist.cons_cons head (List.Sublist.append_left (sublist_cons_self b B) A)

/-- `b->next = head->next; b->prev = head; head->next->prev = b; head->next = b`. -/
theorem IsRing.insert (h : IsRing next prev head L) (hb : b ∉ head :: L) :
    IsRing (update (update next b (next head)) head b)
      (update (update prev b head) (next head) b) head (b :: L) := by
  obtain ⟨hwalk, hnodup⟩ := h
  have hbh : b ≠ head := fun heq => hb (by simp [heq])
  have hbL : b ∉ L := fun hmem => hb (mem_cons_of_mem head hmem)
  have hhL : head ∉ L := (nodup_cons.mp hnodup).1
  have hnh : next head ≠ b := by
    intro heq
    exact hb (heq ▸ hwalk.next_mem)
  refine ⟨⟨update_self .., ?_, ?_⟩, ?_⟩
  · rw [update_of_ne (Ne.symm hnh), update_self]
  · have hcell : ∀ z ∈ L, update (update next b (next head)) head b z = next z := by
      intro z hz
      have hzh : z ≠ head := fun heq => hhL (heq ▸ hz)
      have hzb : z ≠ b := fun heq => hbL (heq ▸ hz)
      rw [update_of_ne hzh, update_of_ne hzb]
    cases L with
    | nil =>
      obtain ⟨hn, -⟩ := hwalk
      refine ⟨?_, ?_⟩
      · rw [update_of_ne hbh, update_self, hn]
      · rw [hn, update_self]
    | cons z zs =>
      obtain ⟨hn, -, hrest⟩ := hwalk
      refine ⟨?_, ?_, hrest.congr hcell ?_⟩
      · rw [update_of_ne hbh, update_self, hn]
      · rw [hn, update_self]
      · intro w hw
        rw [hn]
        simp only [mem_cons, not_or, nodup_cons] at hnodup hw hbL
        rw [update_of_ne, update_of_ne]
        · rcases hw with rfl | hw
          · exact Ne.symm hbh
          · exact fun heq => hbL.2 (heq ▸ hw)
        · rcases hw with rfl | hw
          · exact hnodup.1.1
          · exact fun heq => hnodup.2.1 (heq ▸ hw)
  · simp only [nodup_cons, mem_cons, not_or]
    exact ⟨⟨Ne.symm hbh, hhL⟩, hbL, (nodup_cons.mp hnodup).2⟩

/-- Follow the links from `x` until `f` holds or the head is met: the cell that was found, or `none`
when the links go on for longer than that. -/
def search (next : α → α) (head : α) (f : α → Bool) : ℕ → α → Option (Option α)
  | 0, _ => none
  | n + 1, x => if x = head then some none else if f x then some (some x) else search next head f n (next x)

theorem Walk.search (h : Walk next prev x L head) (hhead : head ∉ L) (f : α → Bool) {n : ℕ} (hn : L.length < n) :
    search next head f n (next x) = some (L.find? f) := by
  induction L generalizing x n with
  | nil =>
    obtain ⟨m, rfl⟩ : ∃ m, n = m + 1 := ⟨n - 1, by simp at hn; omega⟩
    simp [Ring.search, h.1]
  | cons z zs ih =>
    obtain ⟨m, rfl⟩ : ∃ m, n = m + 1 := ⟨n - 1, by simp at hn; omega⟩
    obtain ⟨hxz, -, hrest⟩ := h
    simp only [mem_cons, not_or] at hhead
    rw [hxz, Ring.search, if_neg (Ne.symm hhead.1), List.find?_cons]
    cases hf : f z with
    | true => simp
    | false => simpa using ih hrest hhead.2 (by simpa using hn)

theorem IsRing.search_next (h : IsRing next prev head L) (f : α → Bool) {n : ℕ} (hn : L.length < n) :
    search next head f n (next head) = some (L.find? f) :=
  h.walk.search (nodup_cons.mp h.nodup).1 f hn

theorem IsRing.search_prev (h : IsRing next prev head L) (f : α → Bool) {n : ℕ} (hn : L.length < n) :
    search prev head f n (prev head) = some (L.reverse.find? f) :=
  (walk_reverse h.walk).search (by simpa using (nodup_cons.mp h.nodup).1) f (by simpa using hn)

end Surgery

end Ring
