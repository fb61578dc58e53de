import Xv6.Spec.Virtio

/-! The descriptor table. Every descriptor is free or belongs to the chain of one call, and the chain of a
call stands in the table as `virtio_disk_rw` has formatted it. -/

namespace Xv6.Virtio

open Function List

variable {P B : Type} {t t' : Table B} {c c' : Chain B}

namespace Table

/-- `t'` is `t` with the descriptors in `idx` given back. -/
structure Frees (idx : List ℕ) (t t' : Table B) : Prop where
  free : ∀ i, t'.free i = (decide (i ∈ idx) || t.free i)
  desc : ∀ i, i ∉ idx → t'.desc i = t.desc i
  info : t'.info = t.info
  ops : t'.ops = t.ops

variable {i : ℕ} {idx : List ℕ} {t₁ : Table B}

theorem freeDesc_ok (hi : i < NUM) (hfree : t.free i = false) :
    ∃ t', t.freeDesc i = .ok t' ∧ Frees [i] t t' := by
  unfold freeDesc
  rw [if_neg (by omega), if_neg (by simp [hfree])]
  refine ⟨_, rfl, ⟨fun j => ?_, fun j hj => ?_, rfl, rfl⟩⟩
  · by_cases hj : j = i
    · simp [hj]
    · simp [hj]
  · rw [mem_singleton] at hj
    simp [hj]

theorem Frees.cons (h₁ : Frees [i] t t₁) (h : Frees idx t₁ t') :
    Frees (i :: idx) t t' := by
  refine ⟨fun j => ?_, fun j hj => ?_, h.info.trans h₁.info, h.ops.trans h₁.ops⟩
  · rw [h.free, h₁.free]
    by_cases hj : j = i
    · simp [hj]
    · simp [hj]
  · rw [mem_cons, not_or] at hj
    rw [h.desc j hj.2, h₁.desc j (by simpa using hj.1)]

/-- Giving back descriptors that are in use works. -/
theorem freeAll_ok (hnodup : idx.Nodup) (hbound : ∀ i ∈ idx, i < NUM)
    (hbusy : ∀ i ∈ idx, t.free i = false) : ∃ t', freeAll idx t = .ok t' ∧ Frees idx t t' := by
  induction idx generalizing t with
  | nil => exact ⟨t, rfl, ⟨fun i => by simp, fun i _ => rfl, rfl, rfl⟩⟩
  | cons i idx ih =>
    rw [nodup_cons] at hnodup
    obtain ⟨t₁, hok, hfrees⟩ := freeDesc_ok (hbound i mem_cons_self) (hbusy i mem_cons_self)
    have hbusy₁ : ∀ j ∈ idx, t₁.free j = false := by
      intro j hj
      have hne : j ≠ i := by
        rintro rfl
        exact hnodup.1 hj
      rw [hfrees.free, hbusy j (mem_cons_of_mem i hj)]
      simpa using hne
    obtain ⟨t', hrest, hfrees'⟩ := ih hnodup.2 (fun j hj => hbound j (mem_cons_of_mem i hj)) hbusy₁
    refine ⟨t', ?_, hfrees.cons hfrees'⟩
    rwa [freeAll, hok]

theorem allocDesc_some (h : t.allocDesc = some (i, t')) :
    i < NUM ∧ t.free i = true ∧ t' = { t with free := update t.free i false } := by
  unfold allocDesc at h
  split at h
  · cases h
  · rename_i j hj
    cases h
    exact ⟨mem_range.mp (mem_of_find?_eq_some hj), List.find?_some hj, rfl⟩

/-- `t'` is `t` with the free descriptors in `idx` taken. -/
structure Takes (idx : List ℕ) (t t' : Table B) : Prop where
  bound : ∀ i ∈ idx, i < NUM
  nodup : idx.Nodup
  were : ∀ i ∈ idx, t.free i = true
  free : ∀ i, t'.free i = (!decide (i ∈ idx) && t.free i)
  desc : t'.desc = t.desc
  info : t'.info = t.info
  ops : t'.ops = t.ops

theorem Takes.nil : Takes [] t t :=
  ⟨fun i hi => absurd hi not_mem_nil, nodup_nil, fun i hi => absurd hi not_mem_nil, fun i => by simp,
    rfl, rfl, rfl⟩

theorem Takes.snoc (h : Takes idx t t₁) (hi : t₁.allocDesc = some (i, t')) :
    Takes (idx ++ [i]) t t' := by
  obtain ⟨hlt, hfree, rfl⟩ := allocDesc_some hi
  have hwas := hfree
  rw [h.free, Bool.and_eq_true, Bool.not_eq_true', decide_eq_false_iff_not] at hwas
  refine ⟨?_, ?_, ?_, ?_, h.desc, h.info, h.ops⟩
  · intro j hj
    rcases mem_append.mp hj with hj | hj
    · exact h.bound j hj
    · rwa [mem_singleton.mp hj]
  · rw [nodup_append]
    refine ⟨h.nodup, nodup_singleton _, ?_⟩
    rintro x hx y hy rfl
    exact hwas.1 (mem_singleton.mp hy ▸ hx)
  · intro j hj
    rcases mem_append.mp hj with hj | hj
    · exact h.were j hj
    · rw [mem_singleton.mp hj]
      exact hwas.2
  · intro j
    by_cases hj : j = i
    · simp [hj]
    · simp [hj, h.free]

/-- `t'` is `t` but for what stands in free descriptors. -/
structure Same (t t' : Table B) : Prop where
  free : t'.free = t.free
  desc : ∀ i, t.free i = false → t'.desc i = t.desc i
  info : t'.info = t.info
  ops : t'.ops = t.ops

theorem Takes.undo (h : Takes idx t t₁) :
    ∃ t', freeAll idx t₁ = .ok t' ∧ Same t t' := by
  have hbusy : ∀ i ∈ idx, t₁.free i = false := by
    intro i hi
    rw [h.free]
    simp [hi]
  obtain ⟨t', hok, hfrees⟩ := freeAll_ok h.nodup h.bound hbusy
  refine ⟨t', hok, ⟨?_, ?_, hfrees.info.trans h.info, hfrees.ops.trans h.ops⟩⟩
  · funext i
    rw [hfrees.free, h.free]
    by_cases hi : i ∈ idx
    · simp [hi, h.were i hi]
    · simp [hi]
  · intro i hfree
    have hi : i ∉ idx := by
      intro hi
      rw [h.were i hi] at hfree
      cases hfree
    rw [hfrees.desc i hi, h.desc]

/-- The loop of `alloc3_desc` gets all that is missing, or gives back what it got. -/
theorem allocLoop_ok (n : ℕ) (h : Takes idx t t₁) :
    (∃ idx' t', allocLoop n idx t₁ = .ok (some idx', t') ∧ Takes idx' t t' ∧ idx'.length = idx.length + n) ∨
    ∃ t', allocLoop n idx t₁ = .ok (none, t') ∧ Same t t' := by
  induction n generalizing idx t₁ with
  | zero => exact .inl ⟨idx, t₁, rfl, h, rfl⟩
  | succ n ih =>
    unfold allocLoop
    cases halloc : t₁.allocDesc with
    | none =>
      obtain ⟨t', hok, hsame⟩ := h.undo
      refine .inr ⟨t', ?_, hsame⟩
      dsimp only
      rw [hok]
    | some r =>
      have hnext := ih (h.snoc halloc)
      rwa [length_append, length_singleton, Nat.add_assoc, Nat.add_comm 1] at hnext

theorem alloc3Desc_ok (t : Table B) :
    (∃ i0 i1 i2 t', t.alloc3Desc = .ok (some [i0, i1, i2], t') ∧ Takes [i0, i1, i2] t t') ∨
    ∃ t', t.alloc3Desc = .ok (none, t') ∧ Same t t' := by
  rcases allocLoop_ok 3 (Takes.nil (t := t)) with ⟨idx, t', hok, htakes, hlen⟩ | hnone
  · obtain ⟨i0, i1, i2, rfl⟩ := length_eq_three.mp hlen
    exact .inl ⟨i0, i1, i2, t', hok, htakes⟩
  · exact .inr hnone

end Table

open Table

/-- The chain stands in the table. -/
structure Placed (t : Table B) (c : Chain B) : Prop where
  bound : ∀ i ∈ c.idx, i < NUM
  nodup : c.idx.Nodup
  busy : ∀ i ∈ c.idx, t.free i = false
  first : t.desc c.i0 = ⟨.op c.i0, 16, VRING_DESC_F_NEXT, c.i1⟩
  second : (t.desc c.i1).addr = .data c.b ∧ (t.desc c.i1).flags &&& VRING_DESC_F_NEXT ≠ 0 ∧ (t.desc c.i1).next = c.i2
  third : t.desc c.i2 = ⟨.status c.i0, 1, VRING_DESC_F_WRITE, 0⟩
  op : t.ops c.i0 = c.op
  buf : (t.info c.i0).b = some c.b

theorem Chain.i0_mem : c.i0 ∈ c.idx := by simp [Chain.idx]

theorem Chain.i1_mem : c.i1 ∈ c.idx := by simp [Chain.idx]

theorem Chain.i2_mem : c.i2 ∈ c.idx := by simp [Chain.idx]

/-- Only what the table has for the chain matters. -/
theorem Placed.congr (h : Placed t c) (hfree : ∀ i ∈ c.idx, t'.free i = t.free i)
    (hdesc : ∀ i ∈ c.idx, t'.desc i = t.desc i) (hop : t'.ops c.i0 = t.ops c.i0)
    (hbuf : (t'.info c.i0).b = (t.info c.i0).b) : Placed t' c := by
  refine ⟨h.bound, h.nodup, fun i hi => (hfree i hi).trans (h.busy i hi), ?_, ?_, ?_, hop.trans h.op, hbuf.trans h.buf⟩
  · rw [hdesc _ Chain.i0_mem, h.first]
  · rw [hdesc _ Chain.i1_mem]
    exact h.second
  · rw [hdesc _ Chain.i2_mem, h.third]

/-- The device finds the request that was made. -/
theorem Placed.fetch (h : Placed t c) : t.fetch c.i0 = some (c.op, c.b, c.i0) := by
  unfold Table.fetch
  simp only [h.first, h.second.1, h.second.2.2, h.third, h.op]

theorem Placed.format (hbound : ∀ i ∈ c.idx, i < NUM) (hnodup : c.idx.Nodup)
    (hbusy : ∀ i ∈ c.idx, t.free i = false) : Placed (t.format c) c := by
  have hne := hnodup
  simp only [Chain.idx, nodup_cons, mem_cons, not_mem_nil, or_false, not_or] at hne
  obtain ⟨⟨h01, h02⟩, h12, -⟩ := hne
  refine ⟨hbound, hnodup, hbusy, ?_, ?_, ?_, ?_, ?_⟩
  · simp [Table.format, h01, h02]
  · simp only [Table.format, update_of_ne h12, update_self, true_and, and_true]
    split <;> decide
  all_goals simp [Table.format]

theorem freeDesc_desc {i : ℕ} (h : t.freeDesc i = .ok t') {j : ℕ} (hj : j ≠ i) : t'.desc j = t.desc j := by
  unfold freeDesc at h
  split_ifs at h
  cases h
  exact update_of_ne hj _ _

/-- `free_chain` gives back the three descriptors of the chain. -/
theorem freeChain_eq (hnodup : c.idx.Nodup) (hfirst : t.desc c.i0 = ⟨.op c.i0, 16, VRING_DESC_F_NEXT, c.i1⟩)
    (hsecond : (t.desc c.i1).flags &&& VRING_DESC_F_NEXT ≠ 0 ∧ (t.desc c.i1).next = c.i2)
    (hthird : t.desc c.i2 = ⟨.status c.i0, 1, VRING_DESC_F_WRITE, 0⟩) : t.freeChain c.i0 = freeAll c.idx t := by
  have hne := hnodup
  simp only [Chain.idx, nodup_cons, mem_cons, not_mem_nil, or_false, not_or] at hne
  obtain ⟨⟨h01, h02⟩, h12, -⟩ := hne
  unfold Table.freeChain Chain.idx
  rw [freeChainLoop, freeAll]
  cases hfree₀ : t.freeDesc c.i0 with
  | error e => rfl
  | ok t₁ =>
    have hsecond₁ := freeDesc_desc hfree₀ (Ne.symm h01)
    have hthird₁ := freeDesc_desc hfree₀ (Ne.symm h02)
    dsimp only
    rw [hfirst, if_pos (show VRING_DESC_F_NEXT &&& VRING_DESC_F_NEXT ≠ 0 by decide), freeChainLoop, freeAll]
    cases hfree₁ : t₁.freeDesc c.i1 with
    | error e => rfl
    | ok t₂ =>
      have hthird₂ := freeDesc_desc hfree₁ (Ne.symm h12)
      dsimp only
      rw [hsecond₁, if_pos hsecond.1, hsecond.2, freeChainLoop, freeAll]
      cases hfree₂ : t₂.freeDesc c.i2 with
      | error e => rfl
      | ok t₃ =>
        dsimp only
        rw [hthird₂, hthird₁, hthird, if_neg (show ¬VRING_DESC_F_WRITE &&& VRING_DESC_F_NEXT ≠ 0 by decide)]
        rfl

section Tabled

/-- Every descriptor is free or belongs to the chain that one process holds. -/
structure Tabled (t : Table B) (held : P → Option (Chain B)) : Prop where
  placed : ∀ p c, held p = some c → Placed t c
  apart : ∀ p q c c', p ≠ q → held p = some c → held q = some c' → c.idx.Disjoint c'.idx
  covered : ∀ i, i < NUM → t.free i = false → ∃ p c, held p = some c ∧ i ∈ c.idx

variable {held : P → Option (Chain B)} {p : P}

theorem Tabled.same (h : Tabled t held) (hsame : Same t t') : Tabled t' held := by
  refine ⟨fun p c hp => ?_, h.apart, fun i hi hfree => h.covered i hi (by rwa [hsame.free] at hfree)⟩
  have hplaced := h.placed p c hp
  exact hplaced.congr (fun i _ => congrFun hsame.free i) (fun i hi => hsame.desc i (hplaced.busy i hi))
    (by rw [hsame.ops]) (by rw [hsame.info])

variable [DecidableEq P]

/-- A process that holds nothing formats descriptors that it has taken. -/
theorem Tabled.submit (h : Tabled t held) (hp : held p = none) (htakes : Takes c.idx t t') :
    Tabled (t'.format c) (update held p (some c)) := by
  -- what others hold was not free
  have hother : ∀ q c', held q = some c' → ∀ i ∈ c'.idx, i ∉ c.idx := by
    intro q c' hq i hi hmem
    have hbusy := (h.placed q c' hq).busy i hi
    rw [htakes.were i hmem] at hbusy
    cases hbusy
  have hcases : ∀ q c', update held p (some c) q = some c' → (q = p ∧ c' = c) ∨ (q ≠ p ∧ held q = some c') := by
    intro q c' hq
    by_cases hqp : q = p
    · subst hqp
      rw [update_self] at hq
      exact .inl ⟨rfl, (Option.some.inj hq).symm⟩
    · rw [update_of_ne hqp] at hq
      exact .inr ⟨hqp, hq⟩
  refine ⟨fun q c' hq => ?_, fun q q' c₁ c₂ hne hq hq' => ?_, fun i hi hfree => ?_⟩
  · rcases hcases q c' hq with ⟨rfl, rfl⟩ | ⟨-, hq⟩
    · refine Placed.format htakes.bound htakes.nodup fun i hi => ?_
      rw [htakes.free]
      simp [hi]
    · have hno := hother q c' hq
      refine (h.placed q c' hq).congr (fun i hi => ?_) (fun i hi => ?_) ?_ ?_
      · have hi' := hno i hi
        simp [Table.format, htakes.free, hi']
      · have hi' := hno i hi
        simp only [Chain.idx, mem_cons, not_mem_nil, or_false, not_or] at hi'
        simp [Table.format, htakes.desc, hi']
      · have hi' := hno _ Chain.i0_mem
        simp only [Chain.idx, mem_cons, not_mem_nil, or_false, not_or] at hi'
        simp [Table.format, htakes.ops, hi']
      · have hi' := hno _ Chain.i0_mem
        simp only [Chain.idx, mem_cons, not_mem_nil, or_false, not_or] at hi'
        simp [Table.format, htakes.info, hi']
  · rcases hcases q c₁ hq with ⟨rfl, rfl⟩ | ⟨-, hold⟩ <;> rcases hcases q' c₂ hq' with ⟨rfl, rfl⟩ | ⟨-, hold'⟩
    · exact absurd rfl hne
    · exact fun i hi hi' => hother q' c₂ hold' i hi' hi
    · exact fun i hi hi' => hother q c₁ hold i hi hi'
    · exact h.apart q q' c₁ c₂ hne hold hold'
  · by_cases hmem : i ∈ c.idx
    · exact ⟨p, c, update_self _ _ _, hmem⟩
    · have hbusy : t.free i = false := by
        have hfree' : t'.free i = false := hfree
        rw [htakes.free] at hfree'
        simpa [hmem] using hfree'
      obtain ⟨q, c', hq, hi'⟩ := h.covered i hi hbusy
      have hqp : q ≠ p := ne_of_apply_ne held (by simp [hp, hq])
      exact ⟨q, c', by rwa [update_of_ne hqp], hi'⟩

/-- A process gives its chain back. -/
theorem Tabled.release (h : Tabled t held) (hp : held p = some c) (hfrees : Frees c.idx (t.forget c.i0) t') :
    Tabled t' (update held p none) := by
  have hcases : ∀ q c', update held p none q = some c' → q ≠ p ∧ held q = some c' := by
    intro q c' hq
    have hqp : q ≠ p := by
      rintro rfl
      rw [update_self] at hq
      cases hq
    rw [update_of_ne hqp] at hq
    exact ⟨hqp, hq⟩
  refine ⟨fun q c' hq => ?_, fun q q' c₁ c₂ hne hq hq' => ?_, fun i hi hfree => ?_⟩
  · obtain ⟨hqp, hq⟩ := hcases q c' hq
    have hno : ∀ i ∈ c'.idx, i ∉ c.idx := fun i hi => h.apart q p c' c hqp hq hp hi
    refine (h.placed q c' hq).congr (fun i hi => ?_) (fun i hi => ?_) (by rw [hfrees.ops]; rfl) ?_
    · rw [hfrees.free]
      simp [Table.forget, hno i hi]
    · rw [hfrees.desc i (hno i hi)]
      rfl
    · have hne : c'.i0 ≠ c.i0 := by
        intro heq
        exact hno c'.i0 Chain.i0_mem (heq ▸ Chain.i0_mem)
      rw [hfrees.info]
      simp [Table.forget, hne]
  · exact h.apart q q' c₁ c₂ hne (hcases q c₁ hq).2 (hcases q' c₂ hq').2
  · rw [hfrees.free, Bool.or_eq_false_iff, decide_eq_false_iff_not] at hfree
    obtain ⟨q, c', hq, hi'⟩ := h.covered i hi hfree.2
    have hqp : q ≠ p := by
      rintro rfl
      rw [hp] at hq
      cases hq
      exact hfree.1 hi'
    exact ⟨q, c', by rwa [update_of_ne hqp], hi'⟩

omit [DecidableEq P] in
/-- The device writes a status. -/
theorem Tabled.status (h : Tabled t held) (j : ℕ) :
    Tabled (t.setStatus j) held := by
  refine ⟨fun p c hp => ?_, h.apart, h.covered⟩
  refine (h.placed p c hp).congr (fun i _ => rfl) (fun i _ => rfl) rfl ?_
  by_cases hj : c.i0 = j
  · simp [Table.setStatus, hj]
  · simp [Table.setStatus, hj]

end Tabled

end Xv6.Virtio
