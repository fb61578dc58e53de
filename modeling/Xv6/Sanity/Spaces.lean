import Xv6.Sanity.Pages

/-! The operations of `vm.c` on one user page table. Each of them moves pages only
between the free list and that page table (`Within`), on behalf of one owner. -/

namespace Xv6.Vm

open Prog Radix Function

variable {C : Prop} {D : Set (ℕ × ℕ)} {M M' : PageMap} {a o : Owner} {g g₀ g' : Pages} {s : State} {k : ℕ × ℕ}
  {root va page : ℕ}

/-- A free page, or a page of the page table. -/
def Tied (a : Owner) (root : ℕ) (st : Status) : Prop := st = .free ∨ ∃ n, st = .node a n ∧ n.root = root

def Within (a : Owner) (root : ℕ) (g g' : Pages) : Prop :=
  ∀ x, g' x = g x ∨ (Tied a root (g x) ∧ Tied a root (g' x))

theorem Within.refl (a : Owner) (root : ℕ) (g : Pages) : Within a root g g := fun _ => .inl rfl

variable {x perm lo hi y f r n pos t sz oldsz newsz xperm : ℕ} {D' : Set (ℕ × ℕ)}

theorem Within.tied (h : Within a root g g') (hx : Tied a root (g' x)) : Tied a root (g x) := by
  rcases h x with heq | ⟨htied, _⟩
  · rwa [← heq]
  · exact htied

theorem Within.outside (h : Within a root g g') (hx : g' x = .outside) : g x = .outside := by
  rcases h x with heq | ⟨_, hfree | ⟨n, hn, _⟩⟩
  · rwa [← heq]
  · rw [hx] at hfree
    cases hfree
  · rw [hx] at hn
    cases hn

/-- A root in another page table's pages. -/
theorem Within.root_keep {root' : ℕ} (h : Within a root' g g') (hroot : g root = .node o (.table root 2 0))
    (hne : root ≠ root') : g' root = .node o (.table root 2 0) := by
  rcases h root with heq | ⟨hfree | ⟨n, hn, hnr⟩, _⟩
  · rw [heq, hroot]
  · rw [hroot] at hfree
    cases hfree
  · rw [hroot] at hn
    cases hn
    exact absurd hnr hne

theorem Within.trans {g'' : Pages} (h : Within a root g g') (h' : Within a root g' g'') : Within a root g g'' := by
  intro x
  rcases h' x with heq | ⟨htied, htied'⟩
  · rcases h x with heq' | ⟨htied, htied'⟩
    · exact .inl (heq.trans heq')
    · exact .inr ⟨htied, by rwa [heq]⟩
  · exact .inr ⟨h.tied htied, htied'⟩

theorem Within.update (h : Within a root g g') {st : Status} (hx : Tied a root (g' x)) (hst : Tied a root st) :
    Within a root g (update g' x st) := by
  refine h.trans fun y => ?_
  by_cases hy : y = x
  · subst hy
    exact .inr ⟨hx, by simpa using hst⟩
  · exact .inl (by simp [hy])

theorem Grows.within (h : Grows a root g g') : Within a root g g' := by
  intro x
  rcases h x with heq | ⟨hfree, level, pref, hx⟩
  · exact .inl heq
  · exact .inr ⟨.inl hfree, .inr ⟨_, hx, rfl⟩⟩

/-- Since `g₀`, pages have moved only between the free list and the page table `root`. -/
def Now (C : Prop) (M : PageMap) (a : Owner) (root : ℕ) (g₀ : Pages) (s : State) : Prop :=
  ∃ g, Inv C ∅ M a g s ∧ Within a root g₀ g ∧ g root = .node a (.table root 2 0)

/-- The same, and one free page has been taken and is in hand. -/
def Hand (C : Prop) (M : PageMap) (a : Owner) (root : ℕ) (g₀ : Pages) (page : ℕ) (s : State) : Prop :=
  ∃ g, Inv C ∅ M a (Function.update g page (.held a)) s ∧ Within a root g₀ g ∧ g root = .node a (.table root 2 0) ∧
    g page = .free

section Rules

variable {α : Type} {x : VmM α} {Q : α → State → Prop} {E : Panic → State → Prop}

theorem holds_now (h : ∀ g, Within a root g₀ g → g root = .node a (.table root 2 0) → Holds (Inv C ∅ M a g) x Q E) :
    Holds (Now C M a root g₀) x Q E := by
  rintro s ⟨g, hinv, hwithin, hroot⟩
  exact h g hwithin hroot s hinv

theorem holds_hand (h : ∀ g, Within a root g₀ g → g root = .node a (.table root 2 0) → g page = .free →
    Holds (Inv C ∅ M a (update g page (.held a))) x Q E) : Holds (Hand C M a root g₀ page) x Q E := by
  rintro s ⟨g, hinv, hwithin, hroot, hfree⟩
  exact h g hwithin hroot hfree s hinv

theorem Now.good (h : Now C M a root g₀ s) : GoodSoFar s := by
  obtain ⟨g, hinv, _⟩ := h
  exact hinv.good

end Rules

/-! ### Pages in hand -/

theorem kalloc_now : Holds (Now C M a root g₀) kalloc
    (fun r => if r = 0 then Now C M a root g₀ else Hand C M a root g₀ r) (Faults C) := by
  refine holds_now fun g hwithin hroot => holds_conseq kalloc_spec (fun _ h => h) ?_
  rintro r s (⟨rfl, hinv⟩ | ⟨hfree, hinv⟩)
  · rw [if_pos rfl]
    exact ⟨g, hinv, hwithin, hroot⟩
  · have hr : r ≠ 0 := ((hinv.page_lt (x := r) (by simp)).1).ne'
    rw [if_neg hr]
    exact ⟨g, hinv, hwithin, hroot, hfree⟩

theorem poke_hand (f : PageData → PageData) : Keeps (Hand C M a root g₀ page) (poke page f) (Faults C) := by
  refine holds_hand fun g hwithin hroot hfree => holds_conseq (poke_spec (by simp [Status.Plain]) f) (fun _ h => h) ?_
  exact fun _ s hinv => ⟨g, hinv, hwithin, hroot, hfree⟩

theorem kfree_hand : Holds (Hand C M a root g₀ page) (kfree page) (fun _ => Now C M a root g₀) (Faults C) := by
  refine holds_hand fun g hwithin hroot hfree => holds_conseq (kfree_held (by simp)) (fun _ h => h) ?_
  intro _ s hinv
  rw [update_idem] at hinv
  have hg : update g page .free = g := update_eq_self_iff.mpr hfree.symm
  rw [hg] at hinv
  exact ⟨g, hinv, hwithin, hroot⟩

/-! ### mappages -/

/-- `mappages` of one page is one round of its loop. -/
theorem mappages_page {P : State → Prop} {R : Option (ℕ × ℕ) → State → Prop} {Q : Bool → State → Prop}
    (halign : va % PGSIZE = 0) (hwalk : Holds P (walk root va true) R (Faults C)) (hnone : ∀ s, R none s → Q false s)
    (hsome : ∀ t i, Holds (R (some (t, i))) (mapPte t i page perm) (fun _ => Q true) (Faults C)) :
    Holds P (mappages root va PGSIZE page perm) Q (Faults C) := by
  have hdown : PGROUNDDOWN va = va := Nat.div_mul_cancel (Nat.dvd_of_mod_eq_zero halign)
  rw [mappages, if_neg (by norm_num), hdown]
  generalize MAXVA / PGSIZE = fuel
  by_cases hva : MAXVA ≤ va
  · intro s hs
    have hfault : walk root va true s = .fault .walk s := by
      rw [walk, if_pos hva]
      rfl
    have hgood := hwalk.fault hs hfault
    rwa [mappagesFrom, bind_of_fault hfault]
  · have hlast : PGROUNDDOWN (uint64 (va + PGSIZE - 1)) = va := by
      unfold PGROUNDDOWN uint64 PGSIZE
      unfold PGSIZE at halign
      unfold MAXVA at hva
      omega
    rw [hlast]
    refine holds_bind hwalk fun r => ?_
    cases r with
    | none => exact holds_pure hnone
    | some t =>
      refine holds_bind (hsome t.1 t.2) fun _ => ?_
      rw [if_pos rfl]
      exact holds_pure fun _ h => h

/-! ### Positions of a page table -/

/-- The trampoline and the trapframe are mapped, to the pages `k`. -/
def Pins (M : PageMap) (root : ℕ) (k : ℕ × ℕ) : Prop :=
  (∃ f, M root (TRAMPOLINE / PGSIZE) = some (k.1, f)) ∧ ∃ f, M root (TRAPFRAME / PGSIZE) = some (k.2, f)

/-- Exactly the first `n` user positions are mapped. -/
def Exact (M : PageMap) (root n : ℕ) : Prop := ∀ pos, ¬ sv39.pinned pos → (M root pos ≠ none ↔ pos < n)

/-- The number of pages of a size. -/
def pageCount (sz : ℕ) : ℕ := PGROUNDUP sz / PGSIZE

/-- The positions from `lo` to `hi` have been mapped, with flags as `F` says. -/
structure Extends (M M' : PageMap) (root lo hi : ℕ) (F : ℕ → ℕ → Prop) : Prop where
  other : ∀ r pos, ¬ (r = root ∧ lo ≤ pos ∧ pos < hi) → M' r pos = M r pos
  fresh : ∀ pos, lo ≤ pos → pos < hi → M root pos = none
  new : ∀ pos, lo ≤ pos → pos < hi → ∃ y f, M' root pos = some (y, f) ∧ F pos f

variable {F : ℕ → ℕ → Prop}

theorem Extends.refl (M : PageMap) (root n : ℕ) (F : ℕ → ℕ → Prop) : Extends M M root n n F :=
  ⟨fun _ _ _ => rfl, fun _ h h' => by omega, fun _ h h' => by omega⟩

theorem Extends.cons (hlo : lo < hi) (hnone : M root lo = none) (hf : F lo f)
    (h : Extends (M.set root lo (some (y, f))) M' root (lo + 1) hi F) : Extends M M' root lo hi F := by
  refine ⟨fun r pos hout => ?_, fun pos hge hlt => ?_, fun pos hge hlt => ?_⟩
  · rw [h.other r pos (fun hin => hout ⟨hin.1, by omega, hin.2.2⟩), PageMap.set_other]
    rintro ⟨rfl, rfl⟩
    exact hout ⟨rfl, le_rfl, hlo⟩
  · rcases Nat.eq_or_lt_of_le hge with rfl | hgt
    · exact hnone
    · have hfresh := h.fresh pos hgt hlt
      rwa [PageMap.set_other (by omega)] at hfresh
  · rcases Nat.eq_or_lt_of_le hge with rfl | hgt
    · refine ⟨y, f, ?_, hf⟩
      rw [h.other _ _ (by omega), PageMap.set_self]
    · exact h.new pos hgt hlt

theorem Extends.elsewhere (h : Extends M M' root lo hi F) (hr : r ≠ root) : M' r = M r := by
  funext pos
  exact h.other r pos fun hin => hr hin.1

theorem Exact.extend (h : Exact M root lo) (he : Extends M M' root lo hi F) (hle : lo ≤ hi) :
    Exact M' root hi := by
  intro pos hpin
  by_cases hin : lo ≤ pos ∧ pos < hi
  · obtain ⟨y, f, hy, _⟩ := he.new pos hin.1 hin.2
    simp [hy, hin.2]
  · rw [he.other root pos (by simpa using hin), h pos hpin]
    omega

theorem Exact.cut (h : Exact M root hi) (hle : lo ≤ hi) : Exact (M.cut root lo hi) root lo := by
  intro pos hpin
  by_cases hin : lo ≤ pos ∧ pos < hi
  · simp [PageMap.cut, hin]
  · rw [PageMap.cut_other (by simpa using hin), h pos hpin]
    omega

theorem Exact.succ (h : Exact M root n) (v : ℕ × ℕ) : Exact (M.set root n (some v)) root (n + 1) := by
  intro pos hpin
  by_cases hpos : pos = n
  · subst hpos
    simp
  · rw [PageMap.set_other (by simp [hpos]), h pos hpin]
    omega

theorem Pins.ne_none (h : Pins M root k) (hpos : sv39.pinned pos) : M root pos ≠ none := by
  obtain ⟨⟨f, hf⟩, f', hf'⟩ := h
  rcases hpos with rfl | rfl
  · simp [hf]
  · simp [hf']

theorem Pins.congr (h : Pins M root k) (heq : ∀ pos, sv39.pinned pos → M' r pos = M root pos) : Pins M' r k := by
  refine ⟨?_, ?_⟩
  · rw [heq _ (.inl rfl)]
    exact h.1
  · rw [heq _ (.inr rfl)]
    exact h.2

theorem Pins.extend (h : Pins M root k) (he : Extends M M' root lo hi F) : Pins M' root k :=
  h.congr fun pos hpos => he.other root pos fun hin => h.ne_none hpos (he.fresh pos hin.2.1 hin.2.2)

theorem Pins.cut (h : Pins M root k) (hhi : hi * PGSIZE ≤ TRAPFRAME) : Pins (M.cut root lo hi) root k := by
  refine h.congr fun pos hpos => PageMap.cut_other ?_
  unfold sv39 TRAPFRAME TRAMPOLINE MAXVA PGSIZE at *
  rcases hpos with rfl | rfl <;> omega

theorem Pins.set (h : Pins M root k) (hpos : ¬ sv39.pinned pos) (v : Option (ℕ × ℕ)) :
    Pins (M.set root pos v) root k := by
  refine h.congr fun p hp => PageMap.set_other ?_
  rintro ⟨_, rfl⟩
  exact hpos hp

/-- The table of a position. -/
theorem place_table (ht : g t = .node o (.table root 0 (va / PGSIZE / 512))) :
    places g t = some (.table root 0 (va / PGSIZE / 512)) := by
  simp [places, ht, Status.place]

theorem PX_zero (va : ℕ) : va / PGSIZE % sv39.fan = PX 0 va := by
  rw [PX, pow_zero, Nat.div_one]
  rfl

theorem pos_PX (va : ℕ) : va / PGSIZE / 512 * sv39.fan + PX 0 va = va / PGSIZE := by
  rw [← PX_zero]
  exact Nat.div_add_mod' (va / PGSIZE) 512

theorem decode_eq_leaf {pte : ℕ} : decode pte = .leaf (PTE2PA pte) (PTE_FLAGS pte) ↔
    pte &&& PTE_V ≠ 0 ∧ pte &&& (PTE_R ||| PTE_W ||| PTE_X) ≠ 0 := by
  unfold decode
  split_ifs with hv hrwx <;> simp_all

/-- A valid entry of a lowest table is a leaf. -/
theorem Inv.leaf_entry (h : Inv C ∅ M a g s) (ht : g t = .node o (.table root 0 (va / PGSIZE / 512)))
    (hv : s.mem t (PX 0 va) &&& PTE_V ≠ 0) :
    decode (s.mem t (PX 0 va)) = .leaf (PTE2PA (s.mem t (PX 0 va))) (PTE_FLAGS (s.mem t (PX 0 va))) := by
  have hfits := h.tree.down t _ _ _ _ (place_table ht) (PX_lt 0 va) (by simp)
  rw [child_PX_zero] at hfits
  change sv39.Fits _ _ (decode (s.mem t (PX 0 va))) at hfits
  refine decode_eq_leaf.mpr ⟨hv, fun h0 => ?_⟩
  rw [decode, if_neg hv, if_pos h0] at hfits
  rcases hfits with hempty | ⟨_, _, _, _, _, _, hleaf, _⟩ | ⟨_, _, hleads, _⟩
  · cases hempty
  · cases hleaf
  · exact hleads

/-- The map knows a valid entry, if it knows all. -/
theorem Inv.known (h : Inv C ∅ M a g s) (hC : C) (ht : g t = .node o (.table root 0 (va / PGSIZE / 512)))
    (hv : s.mem t (PX 0 va) &&& PTE_V ≠ 0) :
    M root (va / PGSIZE) = some (PTE2PA (s.mem t (PX 0 va)), PTE_FLAGS (s.mem t (PX 0 va))) :=
  h.maps.full hC _ _ _ _ ⟨t, place_table ht, by rw [PX_zero]; exact h.leaf_entry ht hv⟩

/-- What the map says of a position stands in the table. -/
theorem Inv.mapped_entry (h : Inv C D M a g s) (ht : g t = .node o (.table root 0 (va / PGSIZE / 512)))
    (hm : M root (va / PGSIZE) = some (y, f)) : decode (s.mem t (PX 0 va)) = .leaf y f := by
  have he := h.maps.entry_eq h.tree (place_table ht) hm
  rwa [PX_zero] at he

theorem Inv.mapped_valid (h : Inv C D M a g s) (ht : g t = .node o (.table root 0 (va / PGSIZE / 512)))
    (hm : M root (va / PGSIZE) ≠ none) : s.mem t (PX 0 va) &&& PTE_V ≠ 0 := by
  obtain ⟨v, hv⟩ := Option.ne_none_iff_exists'.mp hm
  intro h0
  have he := h.mapped_entry (y := v.1) (f := v.2) ht hv
  rw [decode_empty.mpr h0] at he
  cases he

/-- The entry of a user position that is not empty leads to the page at that position. -/
theorem Inv.user_page (h : Inv C ∅ M a g s) (ht : g t = .node o (.table root 0 (va / PGSIZE / 512)))
    (hpin : ¬ sv39.pinned (va / PGSIZE)) (hv : s.mem t (PX 0 va) &&& PTE_V ≠ 0) :
    g (PTE2PA (s.mem t (PX 0 va))) = .node o (.leaf root (va / PGSIZE)) := by
  have hfits := h.tree.down t _ _ _ _ (place_table ht) (PX_lt 0 va) (by simp)
  rw [child_PX_zero] at hfits
  change sv39.Fits _ _ (decode (s.mem t (PX 0 va))) at hfits
  rw [h.leaf_entry ht hv] at hfits
  rcases hfits with hempty | ⟨r, pos, y, f, hleaf, hp, _⟩ | ⟨_, y, hleads, hy⟩
  · cases hempty
  · cases hleaf
    exact absurd hp hpin
  · obtain ⟨o', ho'⟩ := Status.place_eq_some.mp hy
    have hyp : PTE2PA (s.mem t (PX 0 va)) = y := hleads
    rw [hyp, ho', h.same_owner ht ho' rfl]

/-- The page at a user position of the map. -/
theorem Inv.mapped_page (h : Inv C ∅ M a g s) (hpin : ¬ sv39.pinned pos) (hm : M root pos = some (y, f)) :
    places g y = some (.leaf root pos) := by
  obtain ⟨x, hx, he⟩ := h.maps.sound _ _ _ _ hm
  have hfits := h.tree.down x _ _ _ _ hx (Nat.mod_lt pos sv39.fanPos) (by simp)
  have hchild : sv39.child (.table root 0 (pos / sv39.fan)) (pos % sv39.fan) = .leaf root pos :=
    sv39.child_parent (.leaf root pos)
  rw [he, hchild] at hfits
  rcases hfits with hempty | ⟨r, p, y', f', hleaf, hp, _⟩ | ⟨_, y', hleads, hy⟩
  · cases hempty
  · cases hleaf
    exact absurd hp hpin
  · have hyy : y = y' := hleads
    rw [hyy, hy]

theorem unpinned_of_lt (h : pos < TRAPFRAME / PGSIZE) : ¬ sv39.pinned pos := by
  unfold sv39 TRAPFRAME TRAMPOLINE MAXVA PGSIZE at *
  rintro (rfl | rfl) <;> omega

theorem unpinned_below {va : ℕ} (h : va < TRAPFRAME) : ¬ sv39.pinned (va / PGSIZE) :=
  unpinned_of_lt (Nat.div_lt_div_of_lt_of_dvd (by norm_num) h)

/-- There are not enough pages for user memory to reach the trapframe. -/
theorem Inv.exact_le (h : Inv C ∅ M a g s) (hexact : Exact M root n) : n ≤ PHYSTOP := by
  by_contra hlt
  have hsmall : PHYSTOP + 1 ≤ TRAPFRAME / PGSIZE := by norm_num
  have hpage : ∀ pos : ℕ, ∃ y, pos < PHYSTOP + 1 → y < PHYSTOP ∧ places g y = some (.leaf root pos) := by
    intro pos
    by_cases hpos : pos < PHYSTOP + 1
    · have hpin := unpinned_of_lt (lt_of_lt_of_le hpos hsmall)
      obtain ⟨v, hv⟩ := Option.ne_none_iff_exists'.mp ((hexact pos hpin).mpr (by omega))
      have hplace := h.mapped_page (y := v.1) (f := v.2) hpin hv
      obtain ⟨o, ho⟩ := Status.place_eq_some.mp hplace
      exact ⟨v.1, fun _ => ⟨(h.contains (by simp [ho])).2, hplace⟩⟩
    · exact ⟨0, fun hc => absurd hc hpos⟩
  choose page hspec using hpage
  obtain ⟨i, hi, j, hj, hne, heq⟩ := Finset.exists_ne_map_eq_of_card_lt_of_maps_to
    (s := Finset.range (PHYSTOP + 1)) (t := Finset.range PHYSTOP) (f := page) (by simp)
    (fun i hi => Finset.mem_coe.mpr (Finset.mem_range.mpr (hspec i (Finset.mem_range.mp (Finset.mem_coe.mp hi))).1))
  have hpi := (hspec i (Finset.mem_range.mp hi)).2
  rw [heq, (hspec j (Finset.mem_range.mp hj)).2] at hpi
  injection hpi with hleaf
  injection hleaf with _ hij
  exact hne hij.symm

theorem below_trapframe (halign : va % PGSIZE = 0) (hle : va / PGSIZE ≤ PHYSTOP) : va < TRAPFRAME := by
  unfold PHYSTOP TRAPFRAME TRAMPOLINE MAXVA PGSIZE at *
  omega

/-! ### mappages for the user -/

theorem update_hand_eq (hfree : g page = .free) (hx : g x ≠ .free) (st : Status) :
    update g page st x = g x := by
  rw [update_of_ne]
  rintro rfl
  exact hx hfree

/-- A user page in hand is mapped, or stays in hand. A page table whose trampoline and
trapframe are mapped panics rather than mapping over them. -/
theorem mappages_user (hpins : Pins M root k) (halign : va % PGSIZE = 0) (hperm : perm < 2 ^ 10)
    (hrwx : perm &&& (PTE_R ||| PTE_W ||| PTE_X) ≠ 0) (hC : C → va < TRAPFRAME ∧ M root (va / PGSIZE) = none) :
    Holds (Hand C M a root g₀ page) (mappages root va PGSIZE page perm)
      (fun ok => if ok then fun s => Now C (M.set root (va / PGSIZE) (some (page, perm ||| PTE_V))) a root g₀ s ∧
          M root (va / PGSIZE) = none ∧ ¬ sv39.pinned (va / PGSIZE)
        else Hand C M a root g₀ page) (Faults C) := by
  refine holds_hand fun g hwithin hroot hfree => ?_
  have hroot' : update g page (.held a) root = .node a (.table root 2 0) := by
    rw [update_hand_eq hfree (by simp [hroot]), hroot]
  have hpage : ∀ g', Grows a root (update g page (.held a)) g' → g' page = .held a := by
    intro g' hgrows
    rw [hgrows.keep (by simp), update_self]
  have hstep : ∀ g' st, Grows a root (update g page (.held a)) g' → Tied a root st →
      Within a root g₀ (update g' page st) ∧
        update g' page st root = .node a (.table root 2 0) := by
    intro g' st hgrows hst
    constructor
    · refine hwithin.trans fun x => ?_
      by_cases hx : x = page
      · subst hx
        exact .inr ⟨.inl hfree, by simpa using hst⟩
      · have := hgrows.within x
        simpa [hx] using this
    · have hne : root ≠ page := ne_of_apply_ne g (by simp [hfree, hroot])
      rw [update_of_ne hne, hgrows.keep (by rw [hroot']; simp), hroot']
  have hmax : C → va < MAXVA := fun hc => lt_trans (hC hc).1 (by norm_num)
  refine mappages_page halign (walk_alloc hroot' hmax) ?_ fun t i => ?_
  · rintro s ⟨g', hinv, hgrows, _⟩
    obtain ⟨hw, hr⟩ := hstep g' .free hgrows (.inl rfl)
    refine ⟨update g' page .free, ?_, hw, hr, by simp⟩
    have hself : update g' page (.held a) = g' := update_eq_self_iff.mpr (hpage g' hgrows).symm
    rwa [update_idem, hself]
  · refine holds_bind (readPte_spec t i) fun pte => ?_
    refine holds_ite (fun hv => holds_fail ?_) fun hv => holds_modify ?_
    · rintro s ⟨⟨g', hinv, _, hres⟩, rfl⟩
      obtain ⟨ht, rfl⟩ := hres t i rfl
      refine ⟨hinv.good, fun hc => ?_⟩
      have hknown := hinv.known hc ht hv
      rw [(hC hc).2] at hknown
      cases hknown
    · rintro s ⟨⟨g', hinv, hgrows, hres⟩, rfl⟩
      obtain ⟨ht, rfl⟩ := hres t i rfl
      have hempty : entry s.mem t (PX 0 va) = .empty := decode_empty.mpr (by simpa using hv)
      have hnone : M root (va / PGSIZE) = none :=
        hinv.maps.none_of_empty hinv.tree (place_table ht) (by rw [PX_zero]; exact hempty)
      have hpin : ¬ sv39.pinned (va / PGSIZE) := fun hpin => hpins.ne_none hpin hnone
      have hlt : page < 2 ^ 52 := (hinv.page_lt (by simp [hpage g' hgrows])).2
      have hleaf : decode (PA2PTE page ||| perm ||| PTE_V) = .leaf page (perm ||| PTE_V) := by
        rw [decode_pte hlt hperm, if_neg hrwx]
      have hmaps := hinv.maps.link_leaf (e := decode (PA2PTE page ||| perm ||| PTE_V)) (z := page) hinv.tree
        (place_table ht) (PX_lt 0 va) (by simp [places, hpage g' hgrows, Status.place])
      rw [pos_PX, hleaf] at hmaps
      have hlink := hinv.link (y := page) (v := PA2PTE page ||| perm ||| PTE_V) ht (PX_lt 0 va) hempty
        (hpage g' hgrows) (fun h => absurd rfl h) (by rw [child_PX_zero]; exact hpin)
        (by rw [child_PX_zero, hleaf]; rfl) (by rw [hleaf]; exact hmaps)
      rw [child_PX_zero] at hlink
      obtain ⟨hw, hr⟩ := hstep g' (.node a (.leaf root (va / PGSIZE))) hgrows (.inr ⟨_, rfl, rfl⟩)
      exact ⟨⟨_, hlink, hw, hr⟩, hnone, hpin⟩

/-! ### uvmunmap -/

/-- A store to a table entry that no page hangs from, before or after. -/
theorem Inv.store (h : Inv C D M a g s) {i v level pref : ℕ}
    (hx : g x = .node o (.table root level pref)) (hi : i < 512)
    (hleads : ∀ y, places g y = some (sv39.child (.table root level pref) i) →
      Leads (entry s.mem x i) (sv39.child (.table root level pref) i) y →
      Leads (decode v) (sv39.child (.table root level pref) i) y)
    (hfits : sv39.Fits (places g) (sv39.child (.table root level pref) i) (decode v))
    (hD : D ⊆ insert (x, i) D') (hmaps : Maps C sv39 M' (setEntry (entry s.mem) x i (decode v)) (places g)) :
    Inv C D' M' a g { s with mem := Vm.setPage s.mem x (setWord i v (s.mem x)) } := by
  obtain ⟨L, hspell, hnodup, hmem⟩ := h.list
  have hplx : places g x = some (.table root level pref) := by simp [places, hx, Status.place]
  refine ⟨⟨L, ?_, hnodup, hmem⟩, h.range, h.holder, h.actor, ?_, h.owner, ?_, h.good⟩
  · exact spells_setPage hspell (fun hin => by simp [(hmem x).mp hin] at hx) _
  · rw [entry_setWord]
    exact h.tree.set_loose hplx hi hleads hfits hD
  · rwa [entry_setWord]

/-- The map after a store to the entry of a position. -/
theorem Inv.set_maps (h : Inv C D M a g s) (ht : g t = .node o (.table root 0 (va / PGSIZE / 512))) (v : ℕ) :
    Maps C sv39 (M.set root (va / PGSIZE) (decode v).target) (setEntry (entry s.mem) t (PX 0 va) (decode v)) (places g) := by
  have hset := h.maps.set_leaf (e := decode v) h.tree (place_table ht) (PX_lt 0 va)
  rwa [pos_PX] at hset

/-- The exemption of an entry that is about to be taken down. -/
theorem Inv.mono (h : Inv C D M a g s) (hD : D ⊆ D') : Inv C D' M a g s :=
  { h with tree := h.tree.mono hD }

/-- `kfree` of a page that still has a place in a page table, but nothing below it. -/
theorem Inv.push_node (h : Inv C D M a g s) {n : Node} (hy : g y = .node a n)
    (hbare : ∀ root level pref, n = .table root level pref → Tree.Bare sv39 (entry s.mem) y)
    (hD : ∀ x, places g x = some (sv39.parent n) → (x, sv39.slot n) ∈ D) :
    Inv C D M a (update g y .free) (s.push y) := by
  have hply : places g y = some n := by simp [places, hy, Status.place]
  have hplaces : places (update g y .free) = update (places g) y none := places_update g y .free
  refine h.push (by simp [hy, Status.holder]) ?_ ?_
  · rw [hplaces]
    exact h.tree.drop hply hbare hD
  · rw [hplaces]
    exact h.maps.congr fun _ _ _ _ => present_update (fun _ h => hbare _ _ _ (Option.some.inj (hply.symm.trans h))) (by simp)

theorem fits_empty (n : Node) : sv39.Fits (places g) n (decode 0) := .inl (by simp [decode])

/-- The checks of `uvmunmap` on an entry. -/
theorem Inv.unmap_checks (h : Inv C ∅ M a g s) (ht : g t = .node o (.table root 0 (va / PGSIZE / 512)))
    (hv : s.mem t (PX 0 va) &&& PTE_V ≠ 0) : PTE_FLAGS (s.mem t (PX 0 va)) ≠ PTE_V := by
  intro hflags
  have hrwx := (decode_eq_leaf.mp (h.leaf_entry ht hv)).2
  rw [and_flags (by decide)] at hrwx
  change PTE_FLAGS (s.mem t (PX 0 va)) &&& _ ≠ 0 at hrwx
  rw [hflags] at hrwx
  exact hrwx (by decide)

section

variable (ht : g t = .node a (.table root 0 (va / PGSIZE / 512)))

include ht

theorem unmapPte_free (hpin : ¬ sv39.pinned (va / PGSIZE)) (hC : C → M root (va / PGSIZE) ≠ none) :
    Holds (Inv C ∅ M a g) (unmapPte t (PX 0 va) true)
      (fun _ s => ∃ y, g y = .node a (.leaf root (va / PGSIZE)) ∧
        Inv C ∅ (M.set root (va / PGSIZE) none) a (update g y .free) s) (Faults C) := by
  refine holds_bind (readPte_spec t (PX 0 va)) fun pte => ?_
  refine holds_ite (fun hv => holds_fail ?_) fun hv => ?_
  · rintro s ⟨hs, rfl⟩
    exact ⟨hs.good, fun hc => hs.mapped_valid ht (hC hc) hv⟩
  refine holds_ite (fun hflags => holds_fail ?_) fun _ => ?_
  · rintro s ⟨hs, rfl⟩
    exact absurd hflags (hs.unmap_checks ht hv)
  have hchild := child_PX_zero root va
  refine holds_assume (c := g (PTE2PA pte) = .node a (.leaf root (va / PGSIZE)) ∧
    ∀ y, places g y = some (.leaf root (va / PGSIZE)) → y = PTE2PA pte) ?_ fun hc => ?_
  · rintro s ⟨hs, rfl⟩
    have hy := hs.user_page ht hpin hv
    exact ⟨hy, fun y hyp => hs.tree.unique hyp (by simp [places, hy, Status.place])⟩
  · obtain ⟨hy, honly⟩ := hc
    rw [if_pos rfl]
    have hty : t ≠ PTE2PA pte := ne_of_apply_ne g (by simp [hy, ht])
    have ht' : update g (PTE2PA pte) .free t = .node a (.table root 0 (va / PGSIZE / 512)) := by
      rw [update_of_ne hty, ht]
    -- while the entry still names the freed page it is exempt
    refine holds_bind (Q := fun _ => Inv C {(t, PX 0 va)} M a (update g (PTE2PA pte) .free)) ?_ fun _ => ?_
    · refine kfree_of_push (D := ∅) (by simp [hy]) (fun s hs => hs.1) fun s hs => ?_
      refine (hs.1.mono (by simp)).push_node hy (by simp) fun x hx => ?_
      have hxt : x = t := hs.1.tree.unique hx (by simpa [Shape.parent, sv39] using place_table ht)
      rw [hxt]
      simp [Shape.slot, sv39, PX]
    · refine holds_modify fun s hs => ⟨PTE2PA pte, hy, ?_⟩
      refine hs.store ht' (PX_lt 0 va) ?_ (fits_empty _) (by simp) (hs.set_maps ht' 0)
      rw [hchild]
      intro y hyp _
      by_cases hyy : y = PTE2PA pte
      · subst hyy
        simp [places, Status.place] at hyp
      · exact absurd (honly y (by simpa [places, hyy] using hyp)) hyy

/-- The trampoline or the trapframe is unmapped. -/
theorem unmapPte_pin (hpin : sv39.pinned (va / PGSIZE)) (hC : C → M root (va / PGSIZE) ≠ none) :
    Holds (Inv C ∅ M a g) (unmapPte t (PX 0 va) false) (fun _ => Inv C ∅ (M.set root (va / PGSIZE) none) a g)
      (Faults C) := by
  refine holds_bind (readPte_spec t (PX 0 va)) fun pte => ?_
  refine holds_ite (fun hv => holds_fail ?_) fun hv => ?_
  · rintro s ⟨hs, rfl⟩
    exact ⟨hs.good, fun hc => hs.mapped_valid ht (hC hc) hv⟩
  refine holds_ite (fun hflags => holds_fail ?_) fun _ => ?_
  · rintro s ⟨hs, rfl⟩
    exact absurd hflags (hs.unmap_checks ht hv)
  refine holds_ite (nofun) fun _ => holds_modify ?_
  rintro s ⟨hs, _⟩
  refine hs.store ht (PX_lt 0 va) ?_ (fits_empty _) (by simp) (hs.set_maps ht 0)
  rw [child_PX_zero]
  intro y hy _
  rcases hs.tree.up y _ hy with heq | ⟨hbelow, _⟩
  · cases heq
  · exact absurd hpin hbelow

theorem unmapPte_now (hpin : ¬ sv39.pinned (va / PGSIZE))
    (hC : C → M root (va / PGSIZE) ≠ none) (hwithin : Within a root g₀ g)
    (hroot : g root = .node a (.table root 2 0)) :
    Holds (Inv C ∅ M a g) (unmapPte t (PX 0 va) true) (fun _ => Now C (M.set root (va / PGSIZE) none) a root g₀)
      (Faults C) := by
  refine holds_conseq (unmapPte_free ht hpin hC) (fun _ hs => hs) ?_
  rintro _ s ⟨y, hy, hinv⟩
  have hne : root ≠ y := ne_of_apply_ne g (by simp [hroot, hy])
  exact ⟨_, hinv, hwithin.update (.inr ⟨_, hy, rfl⟩) (.inl rfl), by rw [update_of_ne hne, hroot]⟩

end

theorem uvmunmapFrom_user (n : ℕ) (hva : va + n * PGSIZE ≤ TRAPFRAME) (halign : va % PGSIZE = 0)
    (hC : C → ∀ pos, va / PGSIZE ≤ pos → pos < va / PGSIZE + n → M root pos ≠ none) :
    Holds (Now C M a root g₀) (uvmunmapFrom root true n va)
      (fun _ => Now C (M.cut root (va / PGSIZE) (va / PGSIZE + n)) a root g₀) (Faults C) := by
  induction n generalizing va M with
  | zero =>
    rw [Nat.add_zero, PageMap.cut_empty le_rfl]
    exact keeps_pure ()
  | succ n ih =>
    have hnext : (va + PGSIZE) / PGSIZE = va / PGSIZE + 1 := Nat.add_div_right _ (by norm_num)
    have hpin : ¬ sv39.pinned (va / PGSIZE) := by
      refine unpinned_below ?_
      rw [Nat.succ_mul] at hva
      exact lt_of_lt_of_le (by unfold PGSIZE; omega) hva
    have hmax : C → va < MAXVA := by
      intro _
      refine lt_of_le_of_lt (le_trans (Nat.le_add_right _ _) hva) (by norm_num)
    have hhere : C → M root (va / PGSIZE) ≠ none := fun hc => hC hc _ le_rfl (by omega)
    refine holds_now fun g hwithin hroot => ?_
    refine holds_bind (walk_look hroot hmax) fun r => ?_
    cases r with
    | none => exact holds_fail fun s hs => ⟨hs.1.good, fun hc => hhere hc (hs.2.2 rfl)⟩
    | some t =>
      refine holds_assume (c := g t.1 = .node a (.table root 0 (va / PGSIZE / 512)) ∧ t.2 = PX 0 va)
        (fun s hs => hs.2.1 t.1 t.2 rfl) fun ⟨ht, hi⟩ => ?_
      change Holds _ (unmapPte t.1 t.2 true >>= fun _ => uvmunmapFrom root true n (va + PGSIZE)) _ _
      rw [hi]
      refine holds_bind (holds_conseq (unmapPte_now ht hpin hhere hwithin hroot) (fun s hs => hs.1) fun _ _ h => h)
        fun _ => ?_
      have hrest := @ih (M.set root (va / PGSIZE) none) (va + PGSIZE) ?_ ?_ ?_
      · rwa [hnext, Nat.add_assoc, Nat.add_comm 1 n, PageMap.cut_set (by omega)] at hrest
      · rw [Nat.succ_mul] at hva
        omega
      · rwa [Nat.add_mod_right]
      · intro hc pos hge hlt
        rw [hnext] at hge hlt
        rw [PageMap.set_other (by omega)]
        exact hC hc pos (by omega) (by omega)

theorem pagesFrom_count (h : va + n * PGSIZE < 2 ^ 64) : pagesFrom va (uint64 (va + n * PGSIZE)) = n := by
  unfold pagesFrom uint64 PGSIZE at *
  omega

/-- `uvmunmap` of user pages, which it frees. -/
theorem uvmunmap_user (hva : va + n * PGSIZE ≤ TRAPFRAME) (halign : va % PGSIZE = 0)
    (hC : C → ∀ pos, va / PGSIZE ≤ pos → pos < va / PGSIZE + n → M root pos ≠ none) :
    Holds (Now C M a root g₀) (uvmunmap root va n true)
      (fun _ => Now C (M.cut root (va / PGSIZE) (va / PGSIZE + n)) a root g₀) (Faults C) := by
  refine holds_ite (fun h => absurd halign h) fun _ => ?_
  rw [pagesFrom_count (lt_of_le_of_lt hva (by norm_num))]
  exact uvmunmapFrom_user n hva halign hC

/-- `uvmunmap` of the trampoline or the trapframe. -/
theorem uvmunmap_pin (hpin : sv39.pinned (va / PGSIZE)) (hva : va < MAXVA) (halign : va % PGSIZE = 0)
    (hC : C → M root (va / PGSIZE) ≠ none) :
    Holds (Now C M a root g₀) (uvmunmap root va 1 false) (fun _ => Now C (M.set root (va / PGSIZE) none) a root g₀)
      (Faults C) := by
  refine holds_ite (fun h => absurd halign h) fun _ => ?_
  rw [pagesFrom_count (lt_trans (Nat.add_lt_add_right hva _) (by norm_num))]
  refine holds_now fun g hwithin hroot => holds_bind (walk_look hroot fun _ => hva) fun r => ?_
  cases r with
  | none => exact holds_fail fun s hs => ⟨hs.1.good, fun hc => hC hc (hs.2.2 rfl)⟩
  | some t =>
    refine holds_assume (c := g t.1 = .node a (.table root 0 (va / PGSIZE / 512)) ∧ t.2 = PX 0 va)
      (fun s hs => hs.2.1 t.1 t.2 rfl) fun ⟨ht, hi⟩ => ?_
    change Holds _ (unmapPte t.1 t.2 false >>= fun _ => uvmunmapFrom root false 0 (va + PGSIZE)) _ _
    rw [hi]
    refine holds_bind (holds_conseq (unmapPte_pin ht hpin hC) (fun s hs => hs.1) fun _ _ h => h) fun _ => ?_
    exact holds_pure fun s hs => ⟨g, hs, hwithin, hroot⟩

/-! ### uvmdealloc and uvmalloc -/

theorem PGROUNDUP_le (h : sz ≤ TRAPFRAME) : sz ≤ PGROUNDUP sz ∧ PGROUNDUP sz ≤ TRAPFRAME ∧
    PGROUNDUP sz % PGSIZE = 0 := by
  unfold PGROUNDUP TRAPFRAME TRAMPOLINE MAXVA PGSIZE at *
  omega

theorem lt_pageCount {va : ℕ} (h : sz ≤ TRAPFRAME) (hva : va < PGROUNDUP sz) : va / PGSIZE < pageCount sz :=
  Nat.div_lt_div_of_lt_of_dvd (Nat.dvd_of_mod_eq_zero (PGROUNDUP_le h).2.2) hva

theorem PGROUNDUP_mono {sz' : ℕ} (h : sz ≤ sz') (hsz' : sz' ≤ TRAPFRAME) : PGROUNDUP sz ≤ PGROUNDUP sz' := by
  unfold PGROUNDUP TRAPFRAME TRAMPOLINE MAXVA PGSIZE at *
  omega

theorem PGROUNDUP_eq (h : sz ≤ TRAPFRAME) : PGROUNDUP sz = pageCount sz * PGSIZE :=
  (Nat.div_mul_cancel (Nat.dvd_of_mod_eq_zero (PGROUNDUP_le h).2.2)).symm

theorem pageCount_of_aligned (h : sz ≤ TRAPFRAME) (halign : sz % PGSIZE = 0) : pageCount sz = sz / PGSIZE := by
  unfold pageCount PGROUNDUP TRAPFRAME TRAMPOLINE MAXVA PGSIZE at *
  omega

theorem uint64_int32 {k : ℕ} (h : k < 2 ^ 31) : uint64 (int32 k) = k := by
  rw [int32_of_range (by omega) (by exact_mod_cast h), uint64]
  omega

theorem uvmdealloc_spec (hold : oldsz ≤ TRAPFRAME) (hC : C → Exact M root (pageCount oldsz)) :
    Holds (Now C M a root g₀) (uvmdealloc root oldsz newsz)
      (fun r s => r = min oldsz newsz ∧ Now C (M.cut root (pageCount r) (pageCount oldsz)) a root g₀ s) (Faults C) := by
  refine holds_ite (fun hle => holds_pure fun s hs => ⟨(min_eq_left hle).symm, ?_⟩) fun hlt => ?_
  · rwa [PageMap.cut_empty le_rfl]
  have hnew : newsz ≤ TRAPFRAME := by omega
  have hmin : newsz = min oldsz newsz := by omega
  have hmono : PGROUNDUP newsz ≤ PGROUNDUP oldsz := PGROUNDUP_mono (by omega) hold
  refine holds_ite (fun hup => ?_) fun hup => ?_
  · obtain ⟨_, htop, halign⟩ := PGROUNDUP_le hold
    obtain ⟨_, _, halign'⟩ := PGROUNDUP_le hnew
    have hpages : (PGROUNDUP oldsz - PGROUNDUP newsz) / PGSIZE < 2 ^ 31 :=
      Nat.div_lt_of_lt_mul (lt_of_le_of_lt (Nat.sub_le _ _) (lt_of_le_of_lt htop (by norm_num)))
    rw [uint64_int32 hpages]
    have hcount : PGROUNDUP newsz / PGSIZE + (PGROUNDUP oldsz - PGROUNDUP newsz) / PGSIZE = pageCount oldsz := by
      unfold pageCount PGSIZE at *
      omega
    have hunmap := @uvmunmap_user C M a g₀ root (PGROUNDUP newsz)
      ((PGROUNDUP oldsz - PGROUNDUP newsz) / PGSIZE) (by unfold PGSIZE at *; omega) halign' ?_
    · rw [hcount] at hunmap
      exact holds_bind hunmap fun _ => holds_pure fun s hs => ⟨hmin, hs⟩
    · intro hc pos hge hpos
      rw [hcount] at hpos
      refine (hC hc pos (unpinned_of_lt (lt_of_lt_of_le hpos (Nat.div_le_div_right htop)))).mpr hpos
  · refine holds_pure fun s hs => ⟨hmin, ?_⟩
    have heq : PGROUNDUP oldsz = PGROUNDUP newsz := by omega
    rwa [PageMap.cut_empty (by rw [pageCount, pageCount, heq])]

theorem perm_user (h : xperm < 2 ^ 10) : PTE_R ||| PTE_U ||| xperm < 2 ^ 10 ∧
    (PTE_R ||| PTE_U ||| xperm) &&& (PTE_R ||| PTE_W ||| PTE_X) ≠ 0 := by
  constructor
  · exact Nat.or_lt_two_pow (by decide) h
  · rw [Nat.and_or_distrib_right]
    intro h0
    have := (Nat.or_eq_zero_iff.mp h0).1
    revert this
    decide

theorem Now.exact_le (h : Now C M a root g₀ s) (hexact : Exact M root n) : n ≤ PHYSTOP := by
  obtain ⟨g, hinv, _⟩ := h
  exact hinv.exact_le hexact

/-- The pages above `oldsz` are given back. -/
theorem uvmallocFrom_back (hle : oldsz ≤ va) (hva : va ≤ TRAPFRAME) (holdal : oldsz % PGSIZE = 0)
    (halign : va % PGSIZE = 0) (hC : C → Exact M root (va / PGSIZE)) :
    Holds (Now C M a root g₀) (do let _ ← uvmdealloc root va oldsz; pure false)
      (fun ok s => ok = false ∧ Now C (M.cut root (oldsz / PGSIZE) (va / PGSIZE)) a root g₀ s) (Faults C) := by
  rw [← pageCount_of_aligned hva halign] at hC ⊢
  refine holds_bind (uvmdealloc_spec hva hC) fun r => holds_pure ?_
  rintro s ⟨rfl, hs⟩
  rw [min_eq_right hle, pageCount_of_aligned (le_trans hle hva) holdal] at hs
  exact ⟨rfl, hs⟩

theorem uvmallocFrom_spec (hperm : perm < 2 ^ 10) (hrwx : perm &&& (PTE_R ||| PTE_W ||| PTE_X) ≠ 0)
    (holdal : oldsz % PGSIZE = 0) (n : ℕ) (hpins : Pins M root k) (hle : oldsz ≤ va) (hva : va ≤ TRAPFRAME)
    (halign : va % PGSIZE = 0) (hC : C → Exact M root (va / PGSIZE)) :
    Holds (Now C M a root g₀) (uvmallocFrom root oldsz perm n va)
      (fun ok s => if ok then va + n * PGSIZE ≤ TRAPFRAME ∧
          ∃ M', Extends M M' root (va / PGSIZE) (va / PGSIZE + n) (fun _ f => f = perm ||| PTE_V) ∧ Now C M' a root g₀ s
        else Now C (M.cut root (oldsz / PGSIZE) (va / PGSIZE)) a root g₀ s) (Faults C) := by
  induction n generalizing va M with
  | zero => exact holds_pure fun s hs => ⟨by omega, M, Extends.refl M root _ _, hs⟩
  | succ n ih =>
    have hback : Holds (Now C M a root g₀) (uvmdealloc root va oldsz >>= fun _ => pure false)
        (fun ok s => if ok then va + (n + 1) * PGSIZE ≤ TRAPFRAME ∧
            ∃ M', Extends M M' root (va / PGSIZE) (va / PGSIZE + (n + 1)) (fun _ f => f = perm ||| PTE_V) ∧
              Now C M' a root g₀ s
          else Now C (M.cut root (oldsz / PGSIZE) (va / PGSIZE)) a root g₀ s) (Faults C) := by
      refine holds_conseq (uvmallocFrom_back hle hva holdal halign hC) (fun _ h => h) ?_
      rintro ok s ⟨rfl, hs⟩
      exact hs
    refine holds_assume (c := C → va < TRAPFRAME ∧ M root (va / PGSIZE) = none) ?_ fun hroom => ?_
    · intro s hs hc
      have hlt := below_trapframe halign (hs.exact_le (hC hc))
      refine ⟨hlt, ?_⟩
      have hpin := unpinned_below hlt
      by_contra hne
      exact lt_irrefl _ ((hC hc _ hpin).mp hne)
    refine holds_bind kalloc_now fun mem => ?_
    refine holds_ite (fun h0 => ?_) fun h0 => ?_
    · rwa [if_pos h0]
    · rw [if_neg h0]
      refine holds_bind (poke_hand _) fun _ => holds_bind (mappages_user hpins halign hperm hrwx hroom) fun ok => ?_
      cases ok with
      | true =>
        refine holds_ite (fun _ => ?_) fun h => absurd rfl h
        rw [if_pos rfl]
        refine holds_assume (fun s hs => hs.2) fun ⟨hnone, hpin⟩ => ?_
        have hdiv : (va + PGSIZE) / PGSIZE = va / PGSIZE + 1 := Nat.add_div_right _ (by norm_num)
        have hnext : va + PGSIZE ≤ TRAPFRAME := by
          have hne : va / PGSIZE ≠ TRAPFRAME / PGSIZE := fun h => hpin (.inr h)
          unfold TRAPFRAME TRAMPOLINE MAXVA PGSIZE at *
          omega
        have hrest := @ih (M.set root (va / PGSIZE) (some (mem, perm ||| PTE_V))) (va + PGSIZE) (hpins.set hpin _) (by omega) hnext
          (by rw [Nat.add_mod_right]; exact halign) (fun hc => by rw [hdiv]; exact (hC hc).succ _)
        rw [hdiv] at hrest
        refine holds_conseq hrest (fun s hs => hs.1) ?_
        intro ok s hs
        cases ok with
        | true =>
          obtain ⟨hend, M', hext, hnow⟩ := hs
          rw [Nat.add_assoc, Nat.add_comm 1 n] at hext
          exact ⟨by rwa [Nat.succ_mul, ← Nat.add_assoc, Nat.add_right_comm], M', Extends.cons (by omega) hnone rfl hext, hnow⟩
        | false =>
          change Now C (PageMap.cut _ _ _ _) a root g₀ s at hs
          rwa [PageMap.cut_set_last hnone (Nat.div_le_div_right hle)] at hs
      | false =>
        refine holds_ite (nofun) fun _ => ?_
        rw [if_neg (by simp)]
        exact holds_bind kfree_hand fun _ => hback

theorem uvmalloc_spec (hpins : Pins M root k) (hxperm : xperm < 2 ^ 10) (hold : oldsz ≤ TRAPFRAME)
    (hC : C → Exact M root (pageCount oldsz)) :
    Holds (Now C M a root g₀) (uvmalloc root oldsz newsz xperm)
      (fun r s => (r = 0 ∧ Now C M a root g₀ s) ∨ (r = max oldsz newsz ∧ r ≤ TRAPFRAME ∧
        ∃ M', Extends M M' root (pageCount oldsz) (pageCount r)
            (fun _ f => f = PTE_R ||| PTE_U ||| xperm ||| PTE_V) ∧
          Now C M' a root g₀ s)) (Faults C) := by
  refine holds_ite (fun hlt => holds_pure fun s hs => ?_) fun hle => ?_
  · exact .inr ⟨(max_eq_left (le_of_lt hlt)).symm, hold, M, Extends.refl M root _ _, hs⟩
  obtain ⟨hperm, hrwx⟩ := perm_user hxperm
  obtain ⟨hup, htop, halign⟩ := PGROUNDUP_le hold
  refine holds_bind (uvmallocFrom_spec hperm hrwx halign (pagesFrom (PGROUNDUP oldsz) newsz) hpins le_rfl htop halign hC)
    fun ok => ?_
  cases ok with
  | true =>
    refine holds_ite (fun _ => holds_pure fun s hs => .inr ?_) fun h => absurd rfl h
    obtain ⟨hend, M', hext, hnow⟩ := hs
    have hnew : newsz ≤ TRAPFRAME := by
      unfold pagesFrom PGSIZE at *
      omega
    refine ⟨by omega, hnew, M', ?_, hnow⟩
    have hcount : PGROUNDUP oldsz / PGSIZE + pagesFrom (PGROUNDUP oldsz) newsz = pageCount newsz := by
      unfold pageCount pagesFrom PGROUNDUP TRAPFRAME TRAMPOLINE MAXVA PGSIZE at *
      omega
    rwa [hcount] at hext
  | false =>
    refine holds_ite (nofun) fun _ => holds_pure fun s hs => .inl ⟨rfl, ?_⟩
    change Now C (PageMap.cut _ _ _ _) a root g₀ s at hs
    rwa [PageMap.cut_empty le_rfl] at hs

end Xv6.Vm
