import Xv6.Sanity.Contents

/-! What is in the pages that `uvmalloc` and `uvmcopy` map. Both take a page, fill it and map it, position by position; while
they go on, the pages filled so far and the pages elsewhere are not written to. -/

namespace Xv6.Vm

open Prog Radix

variable {α : Type} {C : Prop} {M : PageMap} {a o : Owner} {g₀ : Pages} {s : State} {k : ℕ × ℕ} {root va page lo hi : ℕ}
  {w : ℕ → PageData} {D : ℕ → PageData} {P : State → Prop} {Q : α → State → Prop} {E : Panic → State → Prop}

/-- The user pages at the positions from `lo` to `hi` hold what `D` says, and the pages outside the page table what `w` says. -/
def Stocked (M : PageMap) (a : Owner) (root : ℕ) (g₀ : Pages) (w D : ℕ → PageData) (lo hi : ℕ) (s : State) : Prop :=
  (∀ y, ¬ Tied a root (g₀ y) → s.mem y = w y) ∧
    ∀ pos, lo ≤ pos → pos < hi → ∃ y f, M root pos = some (y, f) ∧ ¬ sv39.pinned pos ∧ s.mem y = D pos

variable {x : VmM α} {perm old new : ℕ} {d : PageData}

theorem stocked_keeps (h : Holds P x Q E) (hx : ∀ y, Unmoved M a root g₀ hi y → Frames P (contents y) x) :
    Holds (fun s => P s ∧ Stocked M a root g₀ w D lo hi s) x (fun r s => Q r s ∧ Stocked M a root g₀ w D lo hi s) E := by
  rintro s ⟨hs, hout, hin⟩
  have hpost := h s hs
  have hsame (y : ℕ) (hy : Unmoved M a root g₀ hi y) := hx y hy s hs
  cases hr : x s with
  | fault e t =>
    rwa [hr] at hpost
  | ok r t =>
    rw [hr] at hpost hsame
    refine ⟨hpost, fun y hy => (hsame y (.inl hy)).trans (hout y hy), fun pos hlo hhi => ?_⟩
    obtain ⟨y, f, hm, hpin, hdata⟩ := hin pos hlo hhi
    exact ⟨y, f, hm, hpin, (hsame y (.inr ⟨pos, f, hhi, hpin, hm⟩)).trans hdata⟩

theorem kalloc_stocked : Holds (fun s => Now C M a root g₀ s ∧ Stocked M a root g₀ w D lo hi s) kalloc
    (fun r s => r ≠ 0 → Hand C M a root g₀ r s ∧ Stocked M a root g₀ w D lo hi s) (Faults C) := by
  refine holds_conseq (stocked_keeps kalloc_now fun y hy => kalloc_frames_now hy) (fun _ h => h) fun r s hs h0 => ?_
  rwa [if_neg h0] at hs

/-- The page in hand is filled. -/
theorem poke_stocked (d : PageData) : Holds (fun s => Hand C M a root g₀ page s ∧ Stocked M a root g₀ w D lo hi s)
    (poke page fun _ => d)
    (fun _ s => (Hand C M a root g₀ page s ∧ s.mem page = d) ∧ Stocked M a root g₀ w D lo hi s) (Faults C) := by
  refine stocked_keeps ?_ fun y hy => poke_frames_hand hy _
  intro s hs
  exact ⟨(poke_hand fun _ => d).ok hs rfl, if_pos rfl⟩

/-- It becomes the next page of the page table. -/
theorem mappages_stocked (hpins : Pins M root k) (halign : va % PGSIZE = 0) (hperm : perm < 2 ^ 10)
    (hrwx : perm &&& (PTE_R ||| PTE_W ||| PTE_X) ≠ 0) (hC : C → va < TRAPFRAME ∧ M root (va / PGSIZE) = none)
    (hd : D (va / PGSIZE) = d) :
    Holds (fun s => (Hand C M a root g₀ page s ∧ s.mem page = d) ∧ Stocked M a root g₀ w D lo (va / PGSIZE) s)
      (mappages root va PGSIZE page perm)
      (fun ok s => ok = true → (Now C (M.set root (va / PGSIZE) (some (page, perm ||| PTE_V))) a root g₀ s ∧
          Stocked (M.set root (va / PGSIZE) (some (page, perm ||| PTE_V))) a root g₀ w D lo (va / PGSIZE + 1) s) ∧
        M root (va / PGSIZE) = none ∧ ¬ sv39.pinned (va / PGSIZE)) (Faults C) := by
  have hself : Frames (Hand C M a root g₀ page) (contents page) (mappages root va PGSIZE page perm) := by
    rintro s ⟨g, hinv, _, hroot, hfree⟩
    refine mappages_frames (g := Function.update g page (.held a)) ?_ halign ?_ s hinv
    · rw [update_hand_eq hfree (by simp [hroot]), hroot]
    · rw [Function.update_self]
      exact ⟨nofun, nofun⟩
  have hmap : Holds (Hand C M a root g₀ page) (mappages root va PGSIZE page perm) _ (Faults C) :=
    mappages_user hpins halign hperm hrwx hC
  refine holds_conseq (stocked_keeps (hmap.frames hself d) fun y hy => frames_conseq (mappages_frames_hand hy halign) fun s hs => hs.1)
    (fun _ h => h) ?_
  rintro ok s ⟨⟨hpost, hpage⟩, hout, hin⟩ rfl
  obtain ⟨hnow, hnone, hpin⟩ := hpost
  refine ⟨⟨hnow, hout, fun pos hlo hhi => ?_⟩, hnone, hpin⟩
  rcases Nat.lt_succ_iff_lt_or_eq.mp hhi with hlt | rfl
  · obtain ⟨y, f, hm, hpin', hdata⟩ := hin pos hlo hlt
    exact ⟨y, f, by rwa [PageMap.set_other (by omega)], hpin', hdata⟩
  · exact ⟨page, _, PageMap.set_self .., hpin, hpage.trans hd.symm⟩

/-! ### The loops -/

/-- What comes first does not matter. -/
theorem holds_last {β : Type} {y : α → VmM β} {R : β → State → Prop}
    (h : ∀ r, Holds (fun _ => True) (y r) R (fun _ _ => True)) : Holds P (x >>= y) R (fun _ _ => True) := by
  refine holds_bind (Q := fun _ _ => True) (fun s _ => ?_) h
  cases x s <;> trivial

/-- A round of both loops, from the page taken to the next round; only success is of interest. -/
theorem fill_round {mem : ℕ} {back x : VmM Bool} {R : State → Prop} (hpins : Pins M root k)
    (halign : va % PGSIZE = 0) (hperm : perm < 2 ^ 10) (hrwx : perm &&& (PTE_R ||| PTE_W ||| PTE_X) ≠ 0)
    (hd : D (va / PGSIZE) = d) (hback : Holds (fun _ => True) back (fun ok s => ok = true → R s) (fun _ _ => True))
    (hx : M root (va / PGSIZE) = none → ¬ sv39.pinned (va / PGSIZE) →
      Holds (fun s => Now False (M.set root (va / PGSIZE) (some (mem, perm ||| PTE_V))) a root g₀ s ∧
        Stocked (M.set root (va / PGSIZE) (some (mem, perm ||| PTE_V))) a root g₀ w D lo (va / PGSIZE + 1) s) x
        (fun ok s => ok = true → R s) (fun _ _ => True)) :
    Holds (fun s => Hand False M a root g₀ mem s ∧ Stocked M a root g₀ w D lo (va / PGSIZE) s)
      (do
        poke mem fun _ => d
        if ← mappages root va PGSIZE mem perm then x
        else do
          kfree mem
          back) (fun ok s => ok = true → R s) (fun _ _ => True) := by
  refine holds_bind (holds_faults (poke_stocked d) fun _ _ _ => trivial) fun _ => ?_
  refine holds_bind (holds_faults (mappages_stocked hpins halign hperm hrwx False.elim hd) fun _ _ _ => trivial) fun ok => ?_
  cases ok with
  | true =>
    refine holds_ite (fun _ => ?_) fun h => absurd rfl h
    refine holds_assume (fun s hs => (hs rfl).2) fun ⟨hnone, hpin⟩ => holds_conseq (hx hnone hpin) (fun s hs => (hs rfl).1) ?_
    exact fun _ _ h => h
  | false => exact holds_ite (nofun) fun _ => holds_last fun _ => hback

/-- The pages that `uvmalloc` has mapped are zero. -/
theorem uvmallocFrom_stocked {oldsz : ℕ} (hperm : perm < 2 ^ 10) (hrwx : perm &&& (PTE_R ||| PTE_W ||| PTE_X) ≠ 0) (n : ℕ)
    (hpins : Pins M root k) (halign : va % PGSIZE = 0) :
    Holds (fun s => Now False M a root g₀ s ∧ Stocked M a root g₀ w (fun _ _ => 0) lo (va / PGSIZE) s)
      (uvmallocFrom root oldsz perm n va)
      (fun ok s => ok = true → ∃ M', Now False M' a root g₀ s ∧ Stocked M' a root g₀ w (fun _ _ => 0) lo (va / PGSIZE + n) s)
      (fun _ _ => True) := by
  induction n generalizing va M with
  | zero => exact holds_pure fun s hs _ => ⟨M, hs⟩
  | succ n ih =>
    refine holds_bind (holds_faults kalloc_stocked fun _ _ _ => trivial) fun mem => ?_
    refine holds_ite (fun _ => holds_last fun _ => holds_pure nofun) fun h0 => ?_
    refine holds_conseq (fill_round hpins halign hperm hrwx rfl (holds_last fun _ => holds_pure nofun) ?_)
      (fun s hs => hs h0) fun _ _ h => h
    intro hnone hpin
    have hdiv : (va + PGSIZE) / PGSIZE = va / PGSIZE + 1 := Nat.add_div_right _ (by norm_num)
    have hrest := @ih _ (va + PGSIZE) (hpins.set hpin (some (mem, perm ||| PTE_V))) (by rwa [Nat.add_mod_right])
    rwa [hdiv, Nat.add_assoc, Nat.add_comm 1 n] at hrest

/-- A page of another page table is not written to. -/
theorem untied_leaf {g : Pages} {pos y : ℕ} (hne : old ≠ new) (hwithin : Within a new g₀ g)
    (hplace : places g y = some (.leaf old pos)) : ¬ Tied a new (g₀ y) := by
  have hout : ¬ Tied a new (g y) := by
    obtain ⟨o, ho⟩ := Status.place_eq_some.mp hplace
    rw [ho]
    rintro (h | ⟨n, hn, hroot⟩)
    · cases h
    · cases hn
      exact hne hroot
  rcases hwithin y with heq | ⟨_, htied⟩
  · rwa [← heq]
  · exact absurd htied hout

/-- The pages that `uvmcopy` has mapped hold what those of the old page table hold. -/
theorem uvmcopyFrom_stocked (hold : g₀ old = .node o (.table old 2 0)) (hne : old ≠ new) (n i : ℕ)
    (hpins : Pins M new k) (hi : i + n * PGSIZE ≤ TRAPFRAME) (halign : i % PGSIZE = 0)
    (hD : ∀ pos v, M old pos = some v → D pos = w v.1) (hsrc : ∀ pos, i / PGSIZE ≤ pos → pos < i / PGSIZE + n → M old pos ≠ none) :
    Holds (fun s => Now False M a new g₀ s ∧ Stocked M a new g₀ w D lo (i / PGSIZE) s) (uvmcopyFrom old new n i)
      (fun ok s => ok = true → ∃ M', Now False M' a new g₀ s ∧ Stocked M' a new g₀ w D lo (i / PGSIZE + n) s)
      (fun _ _ => True) := by
  induction n generalizing i M with
  | zero => exact holds_pure fun s hs _ => ⟨M, hs⟩
  | succ n ih =>
    have htop : i < TRAPFRAME := by
      rw [Nat.succ_mul] at hi
      exact lt_of_lt_of_le (by unfold PGSIZE; omega) hi
    have hunpin := unpinned_below htop
    obtain ⟨src, hsrc'⟩ := Option.ne_none_iff_exists'.mp (hsrc _ le_rfl (by omega))
    rintro s ⟨⟨g, hinv, hwithin, hroot⟩, hstock⟩
    have holdg := hwithin.root_keep hold hne
    have hsource : ¬ Tied a new (g₀ src.1) := by
      obtain ⟨y, f⟩ := src
      exact untied_leaf hne hwithin (hinv.mapped_page hunpin hsrc')
    have hwalk : Holds (fun u => u = s) (walk old i false) (fun r u => u = s ∧ ∀ c j, r = some (c, j) →
        s.mem c j &&& PTE_V ≠ 0 ∧ PTE2PA (s.mem c j) = src.1 ∧ PTE_FLAGS (s.mem c j) &&& (PTE_R ||| PTE_W ||| PTE_X) ≠ 0)
        (fun _ _ => True) := by
      rintro u rfl
      have hlook := @walk_look False M a o g old i holdg False.elim u hinv
      have hstill := @walk_still old i (fun _ => True) _ id u trivial
      cases hr : walk old i false u with
      | fault e t => trivial
      | ok r t =>
        rw [hr] at hlook hstill
        refine ⟨hstill, fun c j hcj => ?_⟩
        obtain ⟨hc, rfl⟩ := hlook.2.1 c j hcj
        have hv := hinv.mapped_valid hc (by rw [hsrc']; nofun)
        exact ⟨hv, (decode_leaf (hinv.mapped_entry (y := src.1) (f := src.2) hc hsrc')).1, leaf_flags (hinv.leaf_entry hc hv)⟩
    refine holds_bind hwalk (fun r => ?_) s rfl
    cases r with
    | none => exact holds_fail fun _ _ => trivial
    | some t =>
      refine holds_assume (fun _ hu => hu.2 t.1 t.2 rfl) fun ⟨hv, hpa, hrwx⟩ => ?_
      refine holds_bind (Q := fun pte u => u = s ∧ pte = s.mem t.1 t.2) (holds_gets fun u hu => ⟨hu.1, by rw [hu.1]⟩) fun pte => ?_
      refine holds_assume (fun _ hu => hu.2) ?_
      rintro rfl
      rw [if_neg hv]
      have hkalloc : Holds (fun u => u = s ∧ s.mem t.1 t.2 = s.mem t.1 t.2) kalloc
          (fun r u => r ≠ 0 → Hand False M a new g₀ r u ∧ Stocked M a new g₀ w D lo (i / PGSIZE) u) (fun _ _ => True) := by
        refine holds_faults (holds_conseq kalloc_stocked ?_ fun _ _ h => h) fun _ _ _ => trivial
        rintro u ⟨rfl, -⟩
        exact ⟨⟨g, hinv, hwithin, hroot⟩, hstock⟩
      refine holds_bind hkalloc fun mem => ?_
      refine holds_ite (fun _ => holds_last fun _ => holds_pure nofun) fun h0 => ?_
      refine holds_bind (Q := fun d u => (Hand False M a new g₀ mem u ∧ Stocked M a new g₀ w D lo (i / PGSIZE) u) ∧
        D (i / PGSIZE) = d) (holds_gets fun u hu => ⟨hu h0, ?_⟩) fun d => ?_
      · rw [hpa, hD _ _ hsrc', (hu h0).2.1 _ hsource]
      refine holds_assume (fun _ hu => hu.2) fun hd => ?_
      have hperm : PTE_FLAGS (s.mem t.1 t.2) < 2 ^ 10 := Nat.mod_lt _ (by norm_num)
      refine holds_conseq (fill_round hpins halign hperm hrwx hd (holds_last fun _ => holds_pure nofun) ?_)
        (fun _ hu => hu.1) fun _ _ h => h
      intro hnone hpin
      have hdiv : (i + PGSIZE) / PGSIZE = i / PGSIZE + 1 := Nat.add_div_right _ (by norm_num)
      have hother : ∀ v pos, M.set new (i / PGSIZE) v old pos = M old pos := fun v pos => PageMap.set_other fun h => hne h.1
      have hrest := @ih (M.set new (i / PGSIZE) (some (mem, PTE_FLAGS (s.mem t.1 t.2) ||| PTE_V))) (i + PGSIZE)
        (hpins.set hpin _) (by rwa [Nat.succ_mul, ← Nat.add_assoc, Nat.add_right_comm] at hi)
        (by rwa [Nat.add_mod_right]) (fun pos v => by rw [hother]; exact hD pos v)
        (fun pos hge hlt => by
          rw [hdiv] at hge hlt
          rw [hother]
          exact hsrc pos (by omega) (by omega))
      rwa [hdiv, Nat.add_assoc, Nat.add_comm 1 n] at hrest

end Xv6.Vm
