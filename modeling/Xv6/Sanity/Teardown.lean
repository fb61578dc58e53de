import Xv6.Sanity.Spaces

/-! Making and unmaking a page table: `proc_pagetable`, `freewalk`, `uvmfree` and
`proc_freepagetable`. After `freewalk` no page of the page table is left. -/

namespace Xv6.Vm

open Prog Radix Function PageMap

variable {C : Prop} {D : Set (ℕ × ℕ)} {M M' : PageMap} {a o : Owner} {g g₀ g' : Pages} {s : State} {k : ℕ × ℕ}
  {root va page : ℕ}

/-! ### freewalk -/

/-- Tables of `root` below level `k` have been freed. -/
def Shrinks (a : Owner) (root k : ℕ) (g g' : Pages) : Prop :=
  ∀ x, g' x = g x ∨ (g' x = .free ∧ ∃ level pref, level < k ∧ g x = .node a (.table root level pref))

theorem Shrinks.refl (a : Owner) (root k : ℕ) (g : Pages) : Shrinks a root k g g := fun _ => .inl rfl

variable {x level pref i sz r : ℕ} {m : ℕ → PageData} {free : ℕ → VmM Unit}

theorem Shrinks.node {k : ℕ} {n : Node} (h : Shrinks a root k g g') (hx : g' x = .node o n) : g x = .node o n := by
  rcases h x with heq | ⟨hfree, _⟩
  · rw [← heq, hx]
  · rw [hfree] at hx
    cases hx

theorem Shrinks.table {k : ℕ} {root' : ℕ} (h : Shrinks a root k g g')
    (hx : g x = .node o (.table root' level pref)) (hk : k ≤ level) : g' x = .node o (.table root' level pref) := by
  rcases h x with heq | ⟨_, level', pref', hlt, hx'⟩
  · rw [heq, hx]
  · rw [hx] at hx'
    cases hx'
    omega

theorem Shrinks.trans {k l : ℕ} {g'' : Pages} (h : Shrinks a root k g g') (h' : Shrinks a root l g' g'') (hl : l ≤ k) :
    Shrinks a root k g g'' := by
  intro x
  rcases h' x with heq | ⟨hfree, level, pref, hlt, hx⟩
  · rcases h x with heq' | ⟨hfree, hx⟩
    · exact .inl (heq.trans heq')
    · exact .inr ⟨heq.trans hfree, hx⟩
  · exact .inr ⟨hfree, level, pref, by omega, h.node hx⟩

theorem Shrinks.within {k : ℕ} (h : Shrinks a root k g g') : Within a root g g' := by
  intro x
  rcases h x with heq | ⟨hfree, level, pref, _, hx⟩
  · exact .inl heq
  · exact .inr ⟨.inr ⟨_, hx, rfl⟩, .inl hfree⟩

/-- The entries being taken down lie above `level`. -/
def Above (level : ℕ) (g : Pages) (D : Set (ℕ × ℕ)) : Prop :=
  ∀ w ∈ D, ∃ o root level' pref, level < level' ∧ g w.1 = .node o (.table root level' pref)

/-- Tables above `level` have the words they had in `m`. -/
def Upper (level : ℕ) (g : Pages) (m : ℕ → PageData) (s : State) : Prop :=
  ∀ x o root level' pref, level < level' → g x = .node o (.table root level' pref) → s.mem x = m x

/-- The page table below `x` is being freed, up to entry `i`. -/
def Walking (C : Prop) (D : Set (ℕ × ℕ)) (M : PageMap) (a : Owner) (root level : ℕ) (g : Pages)
    (m : ℕ → PageData) (x i : ℕ) (s : State) : Prop :=
  ∃ g', Inv C D M a g' s ∧ Shrinks a root level g g' ∧ Upper level g m s ∧ ∀ j, j < i → entry s.mem x j = .empty

/-- What `freewalk` does to a table of level `level`. -/
def Frees (C : Prop) (M : PageMap) (a : Owner) (root level : ℕ) (free : ℕ → VmM Unit) : Prop :=
  ∀ D g m x pref, g x = .node a (.table root level pref) → Above level g D →
    (∀ y, places g y = some (sv39.parent (.table root level pref)) → (y, sv39.slot (.table root level pref)) ∈ D) →
    Holds (fun s => Inv C D M a g s ∧ s.mem = m) (free x)
      (fun _ s => ∃ g', Inv C D M a g' s ∧ Shrinks a root (level + 1) g g' ∧ g' x = .free ∧ Upper level g m s) (Faults C)

/-- An entry of a table that is no leaf leads one level down. -/
theorem Inv.below (h : Inv C D M a g s) (hx : g x = .node a (.table root level pref))
    (hi : i < 512) (hout : (x, i) ∉ D) (hd : decode (s.mem x i) = .table (PTE2PA (s.mem x i))) :
    ∃ l, level = l + 1 ∧ g (PTE2PA (s.mem x i)) = .node a (.table root l (pref * 512 + i)) := by
  have hplace : places g x = some (.table root level pref) := by simp [places, hx, Status.place]
  have hfits := h.tree.down x _ _ _ _ hplace hi hout
  change sv39.Fits _ _ (decode (s.mem x i)) at hfits
  rw [hd] at hfits
  rcases hfits with hempty | ⟨_, _, _, _, _, _, hleaf, _⟩ | ⟨_, y, hleads, hy⟩
  · cases hempty
  · cases hleaf
  · cases level with
    | zero => exact absurd hleads (by simp [Shape.child, Leads])
    | succ l =>
      obtain ⟨o', ho'⟩ := Status.place_eq_some.mp hy
      have hyp : PTE2PA (s.mem x i) = y := hleads
      refine ⟨l, rfl, ?_⟩
      rw [hyp, ho', h.same_owner hx ho' rfl]
      rfl

/-- A leaf stands in a lowest table, and the map knows it, if it knows all. -/
theorem Inv.leaf_known (h : Inv C D M a g s) (hC : C) {y f : ℕ}
    (hx : g x = .node o (.table root level pref)) (hi : i < 512) (hout : (x, i) ∉ D)
    (hd : decode (s.mem x i) = .leaf y f) : level = 0 ∧ M root (pref * 512 + i) = some (y, f) := by
  have hplace : places g x = some (.table root level pref) := by simp [places, hx, Status.place]
  have hfits := h.tree.down x _ _ _ _ hplace hi hout
  change sv39.Fits _ _ (decode (s.mem x i)) at hfits
  rw [hd] at hfits
  cases level with
  | zero =>
    obtain ⟨hpref, hpi⟩ := (@pos_eq sv39 _ pref _ hi).mpr rfl
    refine ⟨rfl, h.maps.full hC _ _ _ _ ⟨x, ?_, ?_⟩⟩
    · rw [hplace]
      change _ = some (Node.table root 0 ((pref * sv39.fan + i) / sv39.fan))
      rw [hpref]
    · change entry s.mem x ((pref * sv39.fan + i) % sv39.fan) = _
      rwa [hpi]
  | succ level =>
    rcases hfits with hempty | ⟨_, _, _, _, hn, _⟩ | ⟨_, _, hleads, _⟩
    · cases hempty
    · cases hn
    · exact absurd hleads (by simp [Shape.child, Leads])

theorem decode_pointer {pte : ℕ} (h : pte &&& PTE_V ≠ 0 ∧ pte &&& (PTE_R ||| PTE_W ||| PTE_X) = 0) :
    decode pte = .table (PTE2PA pte) := by
  rw [decode, if_neg h.1, if_pos h.2]

theorem upper_of_mem (hup : Upper level g m s) (hx : g x = .node a (.table root level pref)) (v : ℕ) :
    Upper level g m { s with mem := setPage s.mem x (setWord i v (s.mem x)) } := by
  intro y o root' level' pref' hlt hy
  have hne : y ≠ x := by
    rintro rfl
    rw [hx] at hy
    cases hy
    omega
  change setPage s.mem x _ y = m y
  rw [setPage, if_neg hne]
  exact hup y o root' level' pref' hlt hy

/-- The table below the entry that `freewalk` has come to may be freed, with that entry exempt. -/
theorem Inv.child_ready (hinv : Inv C D M a g' s) (hx : g x = .node a (.table root level pref))
    (hshr : Shrinks a root level g g') (habove : Above level g D) (hi : i < 512)
    (hptr : s.mem x i &&& PTE_V ≠ 0 ∧ s.mem x i &&& (PTE_R ||| PTE_W ||| PTE_X) = 0) :
    ∃ l, level = l + 1 ∧ g' (PTE2PA (s.mem x i)) = .node a (.table root l (pref * 512 + i)) ∧
      Above l g' (insert (x, i) D) ∧
      ∀ y, places g' y = some (sv39.parent (.table root l (pref * 512 + i))) →
        (y, sv39.slot (.table root l (pref * 512 + i))) ∈ insert (x, i) D := by
  have hout : (x, i) ∉ D := by
    intro hin
    obtain ⟨o, r, level', pref', hlt, hx'⟩ := habove _ hin
    rw [hx] at hx'
    cases hx'
    omega
  have hx' := hshr.table hx le_rfl
  obtain ⟨l, rfl, hy⟩ := hinv.below hx' hi hout (decode_pointer hptr)
  refine ⟨l, rfl, hy, ?_, fun y hyp => ?_⟩
  · rintro w (rfl | hw)
    · exact ⟨a, root, l + 1, pref, by omega, hx'⟩
    · obtain ⟨o, r, level', pref', hlt, hw'⟩ := habove w hw
      exact ⟨o, r, level', pref', by omega, hshr.table hw' (by omega)⟩
  · have hnode : sv39.parent (.table root l (pref * 512 + i)) = .table root (l + 1) pref :=
      sv39.parent_child root (l + 1) pref hi
    have hslot : sv39.slot (.table root l (pref * 512 + i)) = i := sv39.slot_child root (l + 1) pref hi
    rw [hnode] at hyp
    rw [hslot, hinv.tree.unique hyp (z := x) (by simp [places, hx', Status.place])]
    exact Set.mem_insert _ _

/-- One round of the loop of `freewalk`. -/
theorem freewalkEntry_spec (hfree : ∀ l, level = l + 1 → Frees C M a root l free)
    (hC : C → ∀ pos, M root pos = none) (hx : g x = .node a (.table root level pref))
    (habove : Above level g D) (hi : i < 512) :
    Holds (Walking C D M a root level g m x i) (freewalkEntry free x i)
      (fun _ => Walking C D M a root level g m x (i + 1)) (Faults C) := by
  have hout : (x, i) ∉ D := by
    intro hin
    obtain ⟨o, r, level', pref', hlt, hx'⟩ := habove _ hin
    rw [hx] at hx'
    cases hx'
    omega
  refine holds_bind (readPte_spec x i) fun pte => holds_ite (fun hptr => ?_) fun hptr => ?_
  · -- a lower table: it is freed with the entry exempt, then the entry is cleared
    refine holds_bind (Q := fun _ s => ∃ g' l, level = l + 1 ∧ Inv C (insert (x, i) D) M a g' s ∧ Shrinks a root level g g' ∧
      Upper level g m s ∧ (∀ j, j < i → entry s.mem x j = .empty) ∧
      ∀ z, places g' z ≠ some (.table root l (pref * 512 + i))) ?_ fun _ => ?_
    · rintro s ⟨⟨g', hinv, hshr, hup, hempty⟩, rfl⟩
      have hx' := hshr.table hx le_rfl
      obtain ⟨l, rfl, hy, habove', hparent⟩ := hinv.child_ready hx hshr habove hi hptr
      have honly : ∀ z, places g' z = some (.table root l (pref * 512 + i)) → z = PTE2PA (s.mem x i) :=
        fun z hz => hinv.tree.unique hz (by simp [places, hy, Status.place])
      refine @holds_conseq _ _ _ _ (fun t => t = s) _ _ _ _ (hfree l rfl _ g' s.mem _ _ hy habove' hparent) ?_ ?_ s rfl
      · rintro t rfl
        exact ⟨hinv.mono (Set.subset_insert _ _), rfl⟩
      · rintro _ t ⟨g'', hinv'', hshr'', hgone, hup''⟩
        refine ⟨g'', l, rfl, hinv'', hshr.trans hshr'' le_rfl, ?_, ?_, ?_⟩
        · intro y o r level' pref' hlt hy'
          rw [hup'' y o r level' pref' (by omega) (hshr.table hy' (by omega))]
          exact hup y o r level' pref' hlt hy'
        · intro j hj
          rw [entry, hup'' x a root (l + 1) pref (by omega) hx']
          exact hempty j hj
        · intro z hz
          obtain ⟨o', ho'⟩ := Status.place_eq_some.mp hz
          have hzy := honly z (by simp [places, hshr''.node ho', Status.place])
          rw [hzy, hgone] at ho'
          cases ho'
    · refine holds_modify ?_
      rintro s ⟨g', l, rfl, hinv, hshr, hup, hempty, hnone⟩
      have hx' := hshr.table hx le_rfl
      refine ⟨g', ?_, hshr, upper_of_mem hup hx 0, ?_⟩
      · refine hinv.store hx' hi ?_ (fits_empty _) le_rfl ?_
        · exact fun y hy _ => absurd hy (hnone y)
        · have hplace : places g' x = some (.table root (l + 1) pref) := by simp [places, hx', Status.place]
          exact hinv.maps.set_table hinv.tree hplace hi
      · intro j hj
        change entry (setPage s.mem x (setWord i 0 (s.mem x))) x j = .empty
        rw [entry_setWord]
        by_cases hji : j = i
        · subst hji
          simp [decode]
        · rw [setEntry_other (by simp [hji])]
          exact hempty j (by omega)
  · refine holds_ite (fun hv => holds_fail ?_) fun hv => holds_pure ?_
    · rintro s ⟨⟨g', hinv, hshr, _⟩, rfl⟩
      refine ⟨hinv.good, fun hc => ?_⟩
      have hleaf := decode_eq_leaf.mpr ⟨hv, fun h0 => hptr ⟨hv, h0⟩⟩
      obtain ⟨rfl, hm⟩ := hinv.leaf_known hc (hshr.table hx le_rfl) hi hout hleaf
      rw [hC hc] at hm
      cases hm
    rintro s ⟨⟨g', hinv, hshr, hup, hempty⟩, rfl⟩
    refine ⟨g', hinv, hshr, hup, fun j hj => ?_⟩
    by_cases hji : j = i
    · subst hji
      exact decode_empty.mpr (by simpa using hv)
    · exact hempty j (by omega)

theorem freewalk_table (hC : C → ∀ pos, M root pos = none) (hfree : ∀ l, level = l + 1 → Frees C M a root l free) :
    Frees C M a root level (fun x => upTo (freewalkEntry free x) 512 >>= fun _ => kfree x) := by
  intro D g m x pref hx habove hparent
  refine holds_bind (Q := fun _ => Walking C D M a root level g m x 512) ?_ fun _ => ?_
  · refine holds_conseq (holds_upTo (I := Walking C D M a root level g m x) 512 fun i hi =>
      freewalkEntry_spec hfree hC hx habove hi) ?_ fun _ _ h => h
    rintro s ⟨hinv, rfl⟩
    exact ⟨g, hinv, Shrinks.refl a root level g, fun _ _ _ _ _ _ _ => rfl, fun j hj => by omega⟩
  · rintro s ⟨g', hinv, hshr, hup, hempty⟩
    have hx' := hshr.table hx le_rfl
    rw [kfree_apply, if_pos (hinv.contains (by simp [hx']))]
    refine ⟨update g' x .free, ?_, ?_, by simp, ?_⟩
    · refine hinv.push_node hx' (fun _ _ _ _ j hj => hempty j hj) fun y hy => hparent y ?_
      obtain ⟨o', ho'⟩ := Status.place_eq_some.mp hy
      simp [places, hshr.node ho', Status.place]
    · intro y
      by_cases hy : y = x
      · subst hy
        exact .inr ⟨by simp, level, pref, by omega, hx⟩
      · rcases hshr y with heq | ⟨hfree, level', pref', hlt, hy'⟩
        · exact .inl (by simpa [hy] using heq)
        · exact .inr ⟨by simpa [hy] using hfree, level', pref', by omega, hy'⟩
    · intro y o r level' pref' hlt hy
      have hne : y ≠ x := by
        rintro rfl
        rw [hx] at hy
        cases hy
        omega
      change setPage s.mem x _ y = m y
      rw [setPage, if_neg hne]
      exact hup y o r level' pref' hlt hy

theorem freewalk_spec (hC : C → ∀ pos, M root pos = none) (level : ℕ) : Frees C M a root level (freewalk (level + 1)) := by
  induction level with
  | zero => exact freewalk_table hC fun l hl => by omega
  | succ level ih =>
    refine freewalk_table hC fun l hl => ?_
    obtain rfl : l = level := by omega
    exact ih

/-- No page of the page table `root` is left. -/
def Gone (C : Prop) (M : PageMap) (a : Owner) (root : ℕ) (g₀ : Pages) (s : State) : Prop :=
  ∃ g, Inv C ∅ M a g s ∧ Within a root g₀ g ∧ ∀ x, Tied a root (g x) → g x = .free

theorem freewalk_gone (hC : C → ∀ pos, M root pos = none) :
    Holds (Now C M a root g₀) (freewalk 3 root) (fun _ => Gone C (M.clear root) a root g₀) (Faults C) := by
  refine holds_now fun g hwithin hroot => ?_
  intro s hs
  have hparent : ∀ y, places g y = some (sv39.parent (.table root 2 0)) → (y, sv39.slot (.table root 2 0)) ∈ (∅ : Set (ℕ × ℕ)) :=
    fun y hy => absurd (hs.tree.level_le hy) (by simp [sv39])
  have hwalk := freewalk_spec (a := a) hC 2 ∅ g s.mem root 0 hroot (by simp [Above]) hparent
  refine @holds_conseq _ _ _ _ (fun t => t = s) _ _ _ _ hwalk ?_ ?_ s rfl
  · rintro t rfl
    exact ⟨hs, rfl⟩
  · rintro _ t ⟨g', hinv, hshr, hgone, _⟩
    have hnone : ∀ x n, places g' x = some n → n.root ≠ root := by
      intro x n hx hn
      have hr := hinv.tree.rooted hx
      rw [hn] at hr
      simp [places, hgone, Status.place] at hr
    refine ⟨g', ?_, hwithin.trans hshr.within, ?_⟩
    · rwa [clear_eq fun pos => hinv.maps.none_of_rootless hnone]
    · rintro x (hx | ⟨n, hx, hn⟩)
      · exact hx
      · exact absurd hn (hnone x n (by simp [places, hx, Status.place]))

theorem uvmfree_spec (hsz : sz ≤ TRAPFRAME)
    (hC : C → Exact M root (pageCount sz) ∧ ∀ pos, sv39.pinned pos → M root pos = none) :
    Holds (Now C M a root g₀) (uvmfree root sz) (fun _ => Gone C (M.clear root) a root g₀) (Faults C) := by
  have hrest : ∀ n, (C → Exact M root n) → C → ∀ pos, M.cut root 0 n root pos = none := by
    intro n hn hc pos
    by_cases hpos : pos < n
    · simp [cut, hpos]
    · rw [cut_other (by omega)]
      by_cases hpin : sv39.pinned pos
      · exact (hC hc).2 pos hpin
      · by_contra hne
        exact hpos ((hn hc pos hpin).mp hne)
  unfold uvmfree
  refine holds_ite (fun _ => ?_) fun h0 => ?_
  · obtain ⟨_, htop, halign⟩ := PGROUNDUP_le hsz
    have hunmap := @uvmunmap_user C M a g₀ root 0 (PGROUNDUP sz / PGSIZE) ?_ (by norm_num) ?_
    · rw [Nat.zero_div, Nat.zero_add] at hunmap
      refine holds_bind hunmap fun _ => ?_
      have hfree := @freewalk_gone C _ a g₀ root (hrest (pageCount sz) fun hc => (hC hc).1)
      rwa [clear_cut] at hfree
    · rwa [Nat.zero_add, Nat.div_mul_cancel (Nat.dvd_of_mod_eq_zero halign)]
    · intro hc pos _ hlt
      rw [Nat.zero_div, Nat.zero_add] at hlt
      exact ((hC hc).1 pos (unpinned_of_lt (lt_of_lt_of_le hlt (Nat.div_le_div_right htop)))).mpr hlt
  · have hzero : pageCount sz = 0 := by
      rw [Nat.le_zero.mp (not_lt.mp h0)]
      rfl
    have hfree := @freewalk_gone C _ a g₀ root (hrest 0 fun hc => hzero ▸ (hC hc).1)
    rwa [cut_empty le_rfl] at hfree

theorem Exact.set_pin {n pos : ℕ} (h : Exact M root n) (hpos : sv39.pinned pos) (v : Option (ℕ × ℕ)) :
    Exact (M.set root pos v) root n := by
  intro p hp
  rw [set_other]
  · exact h p hp
  · rintro ⟨_, rfl⟩
    exact hp hpos

theorem pins_ne : TRAPFRAME / PGSIZE ≠ TRAMPOLINE / PGSIZE := by norm_num

theorem procFreepagetable_spec (hsz : sz ≤ TRAPFRAME) (hC : C → Exact M root (pageCount sz) ∧ Pins M root k) :
    Holds (Now C M a root g₀) (procFreepagetable root sz) (fun _ => Gone C (M.clear root) a root g₀) (Faults C) := by
  refine holds_bind (uvmunmap_pin (.inl rfl) (by norm_num) (by norm_num) fun hc => (hC hc).2.ne_none (.inl rfl)) fun _ => ?_
  refine holds_bind (uvmunmap_pin (.inr rfl) (by norm_num) (by norm_num) fun hc => ?_) fun _ => ?_
  · rw [set_other (fun h => pins_ne h.2)]
    exact (hC hc).2.ne_none (.inr rfl)
  · have hfree := @uvmfree_spec C ((M.set root (TRAMPOLINE / PGSIZE) none).set root (TRAPFRAME / PGSIZE) none)
      a g₀ root _ hsz fun hc =>
        ⟨((hC hc).1.set_pin (.inl rfl) none).set_pin (.inr rfl) none, ?_⟩
    · rwa [clear_set, clear_set] at hfree
    · rintro pos (rfl | rfl)
      · rw [set_other (fun h => pins_ne h.2.symm), set_self]
      · rw [set_self]

/-! ### proc_pagetable -/

/-- A zeroed page in hand becomes the root of a page table. -/
theorem Inv.plant (h : Inv C D M a g s) (hr : g r = .held a) (hbare : Tree.Bare sv39 (entry s.mem) r) :
    Inv C D M a (update g r (.node a (.table r 2 0))) s := by
  have hplr : places g r = none := by simp [places, hr, Status.place]
  refine h.place hr (fun _ hspell _ => hspell) (.inl rfl) (h.tree.plant hplr hbare) ?_
  exact h.maps.congr fun _ _ _ _ => present_update (fun _ _ => hbare) fun _ _ => hbare

/-- Nothing refers to `root` as a page table. -/
def Fresh (M : PageMap) (a : Owner) (root : ℕ) (g₀ : Pages) : Prop :=
  g₀ root = .free ∧ (∀ x, Tied a root (g₀ x) → g₀ x = .free) ∧ ∀ pos, M root pos = none

theorem Inv.fresh (h : Inv C D M a g s) (hroot : g root = .free) : Fresh M a root g := by
  have hnone : ∀ y n, places g y = some n → n.root ≠ root := by
    intro y n hy heq
    have hr := h.tree.rooted hy
    rw [heq] at hr
    simp [places, hroot, Status.place] at hr
  refine ⟨hroot, ?_, fun pos => h.maps.none_of_rootless hnone⟩
  rintro x (hx | ⟨n, hx, hn⟩)
  · exact hx
  · exact absurd hn (hnone x n (by simp [places, hx, Status.place]))

/-- A page table that came and went leaves everything as it was. -/
theorem Gone.restore (h : Gone C (M.clear root) a root g₀ s) (hfresh : Fresh M a root g₀) : Inv C ∅ M a g₀ s := by
  obtain ⟨g, hinv, hwithin, hgone⟩ := h
  have hg : g = g₀ := by
    funext x
    rcases hwithin x with heq | ⟨htied, htied'⟩
    · exact heq
    · rw [hgone x htied', hfresh.2.1 x htied]
  rwa [clear_eq hfresh.2.2, hg] at hinv

theorem uvmcreate_spec : Holds (Inv C ∅ M a g₀) uvmcreate
    (fun r => if r = 0 then Inv C ∅ M a g₀ else fun s => Fresh M a r g₀ ∧ Now C M a r g₀ s) (Faults C) := by
  refine holds_bind (Q := fun r => if r = 0 then Inv C ∅ M a g₀ else fun s =>
    Fresh M a r g₀ ∧ Inv C ∅ M a (update g₀ r (.held a)) s) ?_ fun r => ?_
  · intro s hs
    rw [kalloc_apply]
    by_cases hc : s.oom.headD false = true ∨ s.freelist = 0
    · rw [if_pos hc]
      exact { hs with }
    · rw [if_neg hc]
      have hne : s.freelist ≠ 0 := fun h0 => hc (.inr h0)
      obtain ⟨hfree, hpop⟩ := hs.pop hne
      change (if s.freelist = 0 then _ else _ : State → Prop) _
      rw [if_neg hne]
      exact ⟨hs.fresh hfree, hpop⟩
  · refine holds_ite (fun h0 => ?_) fun h0 => ?_
    · rw [if_pos h0]
      refine holds_pure fun s hs => ?_
      rwa [if_pos rfl]
    · rw [if_neg h0]
      refine holds_bind (Q := fun _ s => Fresh M a r g₀ ∧ Now C M a r g₀ s) ?_ fun _ => holds_pure fun s hs => ?_
      · refine holds_modify fun s hs => ⟨hs.1, ?_⟩
        have hzero := hs.2.setPage (x := r) (by simp [Status.Plain]) fun _ => 0 * 0x0101010101010101
        have hplant := hzero.plant (r := r) (by simp) (bare_memset _ _)
        rw [update_idem] at hplant
        refine ⟨_, hplant, ?_, by simp⟩
        exact (Within.refl a r g₀).update (.inl hs.1.1) (.inr ⟨_, rfl, rfl⟩)
      · rwa [if_neg h0]

/-- The trampoline or the trapframe is mapped. -/
theorem mappages_pin {perm : ℕ} (hpin : sv39.pinned (va / PGSIZE)) (hva : va < MAXVA) (halign : va % PGSIZE = 0)
    (hpage : page < 2 ^ 52) (hperm : perm < 2 ^ 10) (hrwx : perm &&& (PTE_R ||| PTE_W ||| PTE_X) ≠ 0)
    (hu : (perm ||| PTE_V) &&& PTE_U = 0) (hC : C → M root (va / PGSIZE) = none) :
    Holds (Now C M a root g₀) (mappages root va PGSIZE page perm)
      (fun ok => if ok then Now C (M.set root (va / PGSIZE) (some (page, perm ||| PTE_V))) a root g₀
        else Now C M a root g₀) (Faults C) := by
  refine holds_now fun g hwithin hroot => mappages_page halign (walk_alloc hroot fun _ => hva) ?_ fun t i => ?_
  · rintro s ⟨g', hinv, hgrows, _⟩
    exact ⟨g', hinv, hwithin.trans hgrows.within, by rw [hgrows.keep (by simp [hroot]), hroot]⟩
  · refine holds_bind (readPte_spec t i) fun pte => ?_
    refine holds_ite (fun hv => holds_fail ?_) fun hv => holds_modify ?_
    · rintro s ⟨⟨g', hinv, _, hres⟩, rfl⟩
      obtain ⟨ht, rfl⟩ := hres t i rfl
      refine ⟨hinv.good, fun hc => ?_⟩
      have hknown := hinv.known hc ht hv
      rw [hC hc] at hknown
      cases hknown
    · rintro s ⟨⟨g', hinv, hgrows, hres⟩, _⟩
      obtain ⟨ht, rfl⟩ := hres t i rfl
      have hleaf : decode (PA2PTE page ||| perm ||| PTE_V) = .leaf page (perm ||| PTE_V) := by
        rw [decode_pte hpage hperm, if_neg hrwx]
      have hmaps := hinv.set_maps ht (PA2PTE page ||| perm ||| PTE_V)
      have htarget : (decode (PA2PTE page ||| perm ||| PTE_V)).target = some (page, perm ||| PTE_V) := by
        rw [hleaf]
        rfl
      rw [htarget] at hmaps
      refine ⟨g', hinv.store ht (PX_lt 0 va) ?_ ?_ (by simp) hmaps, hwithin.trans hgrows.within,
        by rw [hgrows.keep (by simp [hroot]), hroot]⟩
      · rw [child_PX_zero]
        intro y hy _
        rcases hinv.tree.up y _ hy with heq | ⟨hbelow, _⟩
        · cases heq
        · exact absurd hpin hbelow
      · rw [child_PX_zero, hleaf]
        exact .inr (.inl ⟨root, _, page, _, rfl, hpin, rfl, hu⟩)

/-- The map of a page table made by `proc_pagetable`. -/
def withPins (M : PageMap) (root trampoline trapframe : ℕ) : PageMap :=
  (M.set root (TRAMPOLINE / PGSIZE) (some (trampoline, PTE_R ||| PTE_X ||| PTE_V))).set root (TRAPFRAME / PGSIZE)
    (some (trapframe, PTE_R ||| PTE_W ||| PTE_V))

theorem pins_withPins (M : PageMap) (root t tf : ℕ) : Pins (withPins M root t tf) root (t, tf) := by
  refine ⟨⟨PTE_R ||| PTE_X ||| PTE_V, ?_⟩, _, set_self _ _⟩
  rw [withPins, set_other (fun h => pins_ne h.2.symm), set_self]

theorem withPins_other (M : PageMap) (t tf : ℕ) (h : r ≠ root) : withPins M root t tf r = M r := by
  funext pos
  rw [withPins, set_other (fun hc => h hc.1), set_other (fun hc => h hc.1)]

theorem exact_withPins (h : ∀ pos, M root pos = none) (t tf : ℕ) : Exact (withPins M root t tf) root 0 := by
  refine Exact.set_pin (Exact.set_pin (fun pos _ => ?_) (.inl rfl) _) (.inr rfl) _
  simp [h pos]

/-- What `proc_pagetable` leaves: everything as it was, or a new page table. -/
def Made (C : Prop) (M : PageMap) (a : Owner) (g₀ : Pages) (trapframe r : ℕ) (s : State) : Prop :=
  if r = 0 then Inv C ∅ M a g₀ s else Fresh M a r g₀ ∧ ∃ t, g₀ t = .outside ∧ Now C (withPins M r t trapframe) a r g₀ s

theorem procPagetable_spec {trapframe : ℕ} (htf : trapframe < 2 ^ 52) :
    Holds (Inv C ∅ M a g₀) (procPagetable trapframe) (Made C M a g₀ trapframe) (Faults C) := by
  refine holds_bind uvmcreate_spec fun r => holds_ite (fun h0 => ?_) fun h0 => ?_
  · rw [if_pos h0]
    refine holds_pure fun s hs => ?_
    rwa [Made, if_pos rfl]
  · rw [if_neg h0]
    refine holds_assume (fun s hs => hs.1) fun hfresh => ?_
    have hback : Holds (Gone C (M.clear r) a r g₀) (pure 0 : VmM ℕ) (Made C M a g₀ trapframe) (Faults C) :=
      holds_pure fun s hs => by
        rw [Made, if_pos rfl]
        exact hs.restore hfresh
    have hempty : Exact M r 0 := fun pos _ => by simp [hfresh.2.2 pos]
    refine holds_bind (Q := fun t s => Now C M a r g₀ s ∧ t < 2 ^ 52 ∧ g₀ t = .outside) (holds_gets fun s hs => ⟨hs.2, ?_, ?_⟩)
      fun t => ?_
    · exact lt_of_lt_of_le s.layout.trampoline_lt (le_trans s.layout.base_le (by norm_num))
    · obtain ⟨g', hinv, hwithin, _⟩ := hs.2
      have hout : g' s.layout.trampoline = .outside :=
        (hinv.range _).mpr fun h => absurd h.1 (not_le.mpr s.layout.trampoline_lt)
      exact hwithin.outside hout
    · refine holds_assume (fun s hs => hs.2) fun ⟨ht, hout⟩ => ?_
      refine holds_bind (holds_conseq (mappages_pin (.inl rfl) (by norm_num) (by norm_num) ht (by decide) (by decide)
        (by decide) fun _ => hfresh.2.2 _) (fun s hs => hs.1) fun _ _ h => h) fun ok => ?_
      refine holds_ite (fun hok => ?_) fun hok => ?_
      · rw [if_pos hok]
        refine holds_bind (mappages_pin (.inr rfl) (by norm_num) (by norm_num) htf (by decide) (by decide) (by decide)
          fun _ => ?_) fun ok' => ?_
        · rw [set_other (fun h => pins_ne h.2)]
          exact hfresh.2.2 _
        refine holds_ite (fun hok' => ?_) fun hok' => ?_
        · rw [if_pos hok']
          refine holds_pure fun s hs => ?_
          rw [Made, if_neg h0]
          exact ⟨hfresh, t, hout, hs⟩
        · rw [if_neg hok']
          refine holds_bind (uvmunmap_pin (.inl rfl) (by norm_num) (by norm_num) fun _ => ?_) fun _ => ?_
          · rw [set_self]
            simp
          have hfree := @uvmfree_spec C
            ((M.set r (TRAMPOLINE / PGSIZE) (some (t, PTE_R ||| PTE_X ||| PTE_V))).set r (TRAMPOLINE / PGSIZE) none) a g₀ r 0
            (by norm_num) fun _ => ⟨(hempty.set_pin (.inl rfl) _).set_pin (.inl rfl) none, ?_⟩
          · rw [clear_set, clear_set] at hfree
            exact holds_bind hfree fun _ => hback
          · rintro pos (rfl | rfl)
            · rw [set_self]
            · rw [set_other (fun h => pins_ne h.2), set_other (fun h => pins_ne h.2)]
              exact hfresh.2.2 _
      · rw [if_neg hok]
        exact holds_bind (uvmfree_spec (by norm_num) fun _ => ⟨hempty, fun pos _ => hfresh.2.2 pos⟩) fun _ => hback

end Xv6.Vm
