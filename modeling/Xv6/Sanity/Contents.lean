import Xv6.Sanity.Syscalls
import Xv6.Spec.SpaceOps

/-! The contents of pages. An operation on one page table writes only to free pages and to
pages of that page table; what a failed `exec` has written to is free again. -/

namespace Xv6.Vm

open Prog Radix Function

variable {α : Type} {C : Prop} {D : Set (ℕ × ℕ)} {M M' : PageMap} {a o : Owner} {g g₀ g' : Pages} {s : State}
  {k : ℕ × ℕ} {root va page n y : ℕ} {P : State → Prop}

def contents (y : ℕ) (s : State) : PageData := s.mem y

theorem Inv.weaken (h : Inv C D M a g s) : Inv False D M a g s :=
  ⟨h.list, h.range, h.holder, h.actor, h.tree, h.owner, ⟨h.maps.sound, fun hc => hc.elim⟩, h.good⟩

theorem Within.untied (h : Within a root g g') (hy : ¬ Tied a root (g y)) : g' y = g y ∧ ¬ Tied a root (g' y) :=
  ⟨(h y).resolve_right fun ht => hy ht.1, fun ht => hy (h.tied ht)⟩

/-! ### Single stores -/

variable {γ : Type} {x t perm pos oldsz newsz level sz : ℕ} {f : State → γ} {free : ℕ → VmM Unit} {argv : List ℕ}

theorem poke_frames (hne : y ≠ x) (f : PageData → PageData) : Frames P (contents y) (poke x f) :=
  frames_modify fun _ _ => if_neg hne

theorem kfree_frames (hne : y ≠ x) : Frames P (contents y) (kfree x) := by
  intro s _
  rw [kfree_apply]
  split_ifs
  · exact if_neg hne
  · rfl

theorem kalloc_frames (hy : g y ≠ .free) : Frames (Inv C D M a g) (contents y) kalloc := by
  intro s hs
  rw [kalloc_apply]
  split_ifs with hc
  · rfl
  · have hne : y ≠ s.freelist := by
      rintro rfl
      exact hy (hs.pop fun h0 => hc (.inr h0)).1
    exact if_neg hne

/-! ### walk and mappages -/

theorem walkFrom_still (level t : ℕ) : Frames P f (walkFrom va false level t) := by
  induction level generalizing P t with
  | zero => exact frames_pure _
  | succ level ih =>
    exact frames_seq (frames_gets _) fun pte => frames_ite (fun _ => ih _) fun _ =>
      frames_ite (nofun) fun _ => frames_pure _

theorem walk_still : Frames P f (walk root va false) :=
  frames_ite (fun _ => frames_fail _) fun _ => walkFrom_still 2 root

theorem walkaddr_still : Frames P f (walkaddr root va) := by
  refine frames_ite (fun _ => frames_pure _) fun _ => frames_seq walk_still fun r => ?_
  cases r with
  | none => exact frames_pure _
  | some t =>
    exact frames_seq (frames_gets _) fun pte => frames_ite (fun _ => frames_pure _) fun _ =>
      frames_ite (fun _ => frames_pure _) fun _ => frames_pure _

/-- Neither free nor a table of the page table `root`. -/
def OffTable (a : Owner) (root : ℕ) (st : Status) : Prop :=
  st ≠ .free ∧ ∀ level pref, st ≠ .node a (.table root level pref)

theorem offTable_of_untied {st : Status} (h : ¬ Tied a root st) : OffTable a root st :=
  ⟨fun hfree => h (.inl hfree), fun _ _ hn => h (.inr ⟨_, hn, rfl⟩)⟩

theorem walkFrom_frames (level x : ℕ) (hlevel : level ≤ 2)
    (hx : g x = .node a (.table root level (va / PGSIZE / 512 ^ (level + 1)))) (hy : OffTable a root (g y)) :
    Frames (Inv C ∅ M a g) (contents y) (walkFrom va true level x) := by
  induction level generalizing x g with
  | zero => exact frames_pure _
  | succ level ih =>
    intro s hs
    simp only [walkFrom, bind_apply, readPte, gets_apply]
    by_cases hv : s.mem x (PX (level + 1) va) &&& PTE_V = 0
    · rw [if_neg (by simpa using hv), if_pos trivial, bind_apply, kalloc_apply]
      by_cases hc : s.oom.headD false = true ∨ s.freelist = 0
      · simp only [if_pos hc, if_true, pure_apply]
        rfl
      · have hne : s.freelist ≠ 0 := fun h0 => hc (.inr h0)
        have hfree := (hs.pop hne).1
        have hyfree : y ≠ s.freelist := by
          rintro rfl
          exact hy.1 hfree
        have hyx : y ≠ x := by
          rintro rfl
          exact hy.2 _ _ hx
        simp only [if_neg hc, if_neg hne]
        refine (ih s.freelist (by omega) (by simp) ?_ _ (hs.hang hne hlevel hx hv)).trans ?_
        · rwa [update_of_ne hyfree, update_of_ne hyfree]
        · change setPage _ x _ y = s.mem y
          rw [setPage, if_neg hyx, setPage, if_neg hyfree]
          exact if_neg hyfree
    · rw [if_pos hv]
      exact ih _ (by omega) (hs.next_table hx hv) hy s hs

theorem mapPte_frames (hne : y ≠ t) (i perm : ℕ) : Frames P (contents y) (mapPte t i page perm) :=
  frames_seq (frames_gets _) fun _ => frames_ite (fun _ => frames_fail _) fun _ => poke_frames hne _

theorem mappages_frames (hroot : g root = .node a (.table root 2 0)) (halign : va % PGSIZE = 0)
    (hy : OffTable a root (g y)) : Frames (Inv C ∅ M a g) (contents y) (mappages root va PGSIZE page perm) := by
  have hdown : PGROUNDDOWN va = va := Nat.div_mul_cancel (Nat.dvd_of_mod_eq_zero halign)
  rw [mappages, if_neg (by norm_num), hdown]
  generalize MAXVA / PGSIZE = fuel
  by_cases hva : MAXVA ≤ va
  · intro s _
    have hfault : walk root va true s = .fault .walk s := by
      rw [walk, if_pos hva]
      rfl
    rw [mappagesFrom, bind_of_fault hfault]
    rfl
  · have hlast : PGROUNDDOWN (uint64 (va + PGSIZE - 1)) = va := by
      unfold PGROUNDDOWN uint64 PGSIZE
      unfold PGSIZE at halign
      unfold MAXVA at hva
      omega
    have hwalk : Frames (Inv C ∅ M a g) (contents y) (walk root va true) :=
      frames_ite (fun _ => frames_fail _) fun _ =>
        walkFrom_frames 2 root le_rfl (by rw [top_table hva]; exact hroot) hy
    rw [hlast]
    refine frames_bind hwalk (walk_alloc hroot fun _ => not_le.mp hva) fun r => ?_
    cases r with
    | none => exact frames_pure _
    | some t =>
      refine frames_assume (c := y ≠ t.1) ?_ fun hne => frames_seq (mapPte_frames hne _ _) fun _ => ?_
      · rintro s ⟨g', _, hgrows, hres⟩ rfl
        refine hy.2 0 (va / PGSIZE / 512) ?_
        rw [← hgrows.keep hy.1]
        exact (hres _ _ rfl).1
      · rw [if_pos rfl]
        exact frames_pure _

/-! ### Now and Hand -/

/-- Neither free nor part of the page table `root`, or its user page of a position below `n`. -/
def Unmoved (M : PageMap) (a : Owner) (root : ℕ) (g₀ : Pages) (n y : ℕ) : Prop :=
  ¬ Tied a root (g₀ y) ∨ ∃ pos f, pos < n ∧ ¬ sv39.pinned pos ∧ M root pos = some (y, f)

theorem Unmoved.set (h : Unmoved M a root g₀ n y) (hn : n ≤ pos) (v : Option (ℕ × ℕ)) :
    Unmoved (M.set root pos v) a root g₀ n y := by
  rcases h with h | ⟨pos', f, hlt, hpin, hm⟩
  · exact .inl h
  · refine .inr ⟨pos', f, hlt, hpin, ?_⟩
    rwa [PageMap.set_other (by omega)]

theorem Unmoved.offTable (h : Unmoved M a root g₀ n y) (hinv : Inv C ∅ M a g s) (hwithin : Within a root g₀ g) :
    OffTable a root (g y) := by
  rcases h with h | ⟨pos, f, _, hpin, hm⟩
  · exact offTable_of_untied (hwithin.untied h).2
  · obtain ⟨o, ho⟩ := Status.place_eq_some.mp (hinv.mapped_page hpin hm)
    rw [ho]
    exact ⟨nofun, nofun⟩

/-- The page is at no position from `n` on. -/
theorem Unmoved.place (h : Unmoved M a root g₀ n y) (hinv : Inv C ∅ M a g s) (hwithin : Within a root g₀ g)
    (hpos : n ≤ pos) : g y ≠ .node a (.leaf root pos) := by
  intro hg
  rcases h with h | ⟨pos', f, hlt, hpin, hm⟩
  · exact (hwithin.untied h).2 (.inr ⟨_, hg, rfl⟩)
  · have hplace := hinv.mapped_page hpin hm
    rw [places, hg] at hplace
    injection hplace with hleaf
    injection hleaf with _ heq
    omega

theorem now_frames {x : VmM α} (hy : ¬ Tied a root (g₀ y))
    (h : ∀ g, Within a root g₀ g → g root = .node a (.table root 2 0) → ¬ Tied a root (g y) →
      Frames (Inv C ∅ M a g) (contents y) x) : Frames (Now C M a root g₀) (contents y) x :=
  fun s ⟨g, hinv, hwithin, hroot⟩ => h g hwithin hroot (hwithin.untied hy).2 s hinv

theorem Hand.unmoved (h : Hand C M a root g₀ page s) (hy : Unmoved M a root g₀ n y) :
    y ≠ page ∧ ∃ g, Inv C ∅ M a (update g page (.held a)) s ∧ Within a root g₀ g ∧
      g root = .node a (.table root 2 0) ∧ g page = .free ∧ OffTable a root (g y) := by
  obtain ⟨g, hinv, hwithin, hroot, hfree⟩ := h
  have hne : y ≠ page := by
    rintro rfl
    rcases hy with hy | ⟨pos, f, _, hpin, hm⟩
    · exact (hwithin.untied hy).2 (.inl hfree)
    · have hplace := hinv.mapped_page hpin hm
      rw [places, update_self] at hplace
      cases hplace
  refine ⟨hne, g, hinv, hwithin, hroot, hfree, ?_⟩
  rcases hy with hy | ⟨pos, f, _, hpin, hm⟩
  · exact offTable_of_untied (hwithin.untied hy).2
  · obtain ⟨o, ho⟩ := Status.place_eq_some.mp (hinv.mapped_page hpin hm)
    rw [update_of_ne hne] at ho
    simp [ho, OffTable]

section

variable (hy : Unmoved M a root g₀ n y)

include hy

theorem kalloc_frames_now : Frames (Now C M a root g₀) (contents y) kalloc :=
  fun s ⟨_, hinv, hwithin, _⟩ => kalloc_frames (hy.offTable hinv hwithin).1 s hinv

theorem poke_frames_hand (f : PageData → PageData) :
    Frames (Hand C M a root g₀ page) (contents y) (poke page f) :=
  frames_assume (fun _ hs => (hs.unmoved hy).1) fun hne => poke_frames hne f

theorem kfree_frames_hand : Frames (Hand C M a root g₀ page) (contents y) (kfree page) :=
  frames_assume (fun _ hs => (hs.unmoved hy).1) fun hne => kfree_frames hne

theorem mappages_frames_hand {perm : ℕ} (halign : va % PGSIZE = 0) :
    Frames (Hand C M a root g₀ page) (contents y) (mappages root va PGSIZE page perm) := by
  intro s hs
  obtain ⟨hne, g, hinv, _, hroot, hfree, hoff⟩ := hs.unmoved hy
  refine mappages_frames (g := update g page (.held a)) ?_ halign ?_ s hinv
  · rw [update_hand_eq hfree (by simp [hroot]), hroot]
  · rwa [update_of_ne hne]

end

/-! ### uvmunmap, uvmdealloc, uvmalloc -/

theorem unmapPte_frames (ht : g t = .node a (.table root 0 (va / PGSIZE / 512)))
    (hpin : ¬ sv39.pinned (va / PGSIZE)) (hy : OffTable a root (g y)) (hpos : g y ≠ .node a (.leaf root (va / PGSIZE))) :
    Frames (Inv C ∅ M a g) (contents y) (unmapPte t (PX 0 va) true) := by
  refine frames_bind (E := Faults C) (frames_gets _) (readPte_spec t (PX 0 va)) fun pte => ?_
  refine frames_ite (fun _ => frames_fail _) fun hv => frames_ite (fun _ => frames_fail _) fun _ => ?_
  refine frames_assume (c := y ≠ PTE2PA pte ∧ y ≠ t) ?_ fun ⟨hpa, hyt⟩ =>
    frames_seq (kfree_frames hpa) fun _ => poke_frames hyt _
  rintro s ⟨hs, rfl⟩
  constructor <;> rintro rfl
  · exact hpos (hs.user_page ht hpin hv)
  · exact hy.2 _ _ ht

theorem unmapPte_frames_pin (hne : y ≠ t) (i : ℕ) : Frames P (contents y) (unmapPte t i false) :=
  frames_seq (frames_gets _) fun _ => frames_ite (fun _ => frames_fail _) fun _ => frames_ite (fun _ => frames_fail _)
    fun _ => frames_ite (nofun) fun _ => poke_frames hne _

theorem uvmunmapFrom_frames (j : ℕ) (hva : va + j * PGSIZE ≤ TRAPFRAME) (hy : Unmoved M a root g₀ n y)
    (hn : n ≤ va / PGSIZE) : Frames (Now False M a root g₀) (contents y) (uvmunmapFrom root true j va) := by
  induction j generalizing va M with
  | zero => exact frames_pure _
  | succ j ih =>
    rw [Nat.succ_mul] at hva
    have hlt : va < TRAPFRAME := lt_of_lt_of_le (by unfold PGSIZE; omega) hva
    have hpin := unpinned_below hlt
    rintro s ⟨g, hinv, hwithin, hroot⟩
    refine frames_bind walk_still (walk_look (C := False) hroot False.elim) (fun r => ?_) s hinv
    cases r with
    | none => exact frames_fail _
    | some t =>
      refine frames_assume (c := g t.1 = .node a (.table root 0 (va / PGSIZE / 512)) ∧ t.2 = PX 0 va)
        (fun s hs => hs.2.1 t.1 t.2 rfl) fun ⟨ht, hi⟩ => frames_conseq (P := Inv False ∅ M a g) ?_ fun s hs => hs.1
      change Frames _ _ (unmapPte t.1 t.2 true >>= fun _ => uvmunmapFrom root true j (va + PGSIZE))
      rw [hi]
      exact frames_bind (unmapPte_frames ht hpin (hy.offTable hinv hwithin) (hy.place hinv hwithin hn))
        (unmapPte_now ht hpin False.elim hwithin hroot) fun _ => ih (by omega) (hy.set hn none)
          (le_trans hn (Nat.div_le_div_right (Nat.le_add_right _ _)))

theorem uvmunmap_frames {j : ℕ} (hva : va + j * PGSIZE ≤ TRAPFRAME) (hy : Unmoved M a root g₀ n y) (hn : n ≤ va / PGSIZE) :
    Frames (Now False M a root g₀) (contents y) (uvmunmap root va j true) := by
  refine frames_ite (fun _ => frames_fail _) fun _ => ?_
  rw [pagesFrom_count (lt_of_le_of_lt hva (by norm_num))]
  exact uvmunmapFrom_frames j hva hy hn

theorem uvmunmap_frames_pin (hva : va < MAXVA) (hy : ¬ Tied a root (g₀ y)) :
    Frames (Now False M a root g₀) (contents y) (uvmunmap root va 1 false) := by
  refine frames_ite (fun _ => frames_fail _) fun _ => ?_
  rw [pagesFrom_count (lt_trans (Nat.add_lt_add_right hva _) (by norm_num))]
  refine now_frames hy fun g _ hroot hyg =>
    frames_bind walk_still (walk_look (C := False) hroot False.elim) fun r => ?_
  cases r with
  | none => exact frames_fail _
  | some t =>
    refine frames_assume (c := y ≠ t.1) ?_ fun hne => frames_seq (unmapPte_frames_pin hne _) fun _ => frames_pure _
    rintro s ⟨_, hres, _⟩ rfl
    exact hyg (.inr ⟨_, (hres _ _ rfl).1, rfl⟩)

theorem uvmdealloc_frames (hold : oldsz ≤ TRAPFRAME) (hy : Unmoved M a root g₀ n y) (hn : n ≤ pageCount newsz) :
    Frames (Now False M a root g₀) (contents y) (uvmdealloc root oldsz newsz) := by
  refine frames_ite (fun _ => frames_pure _) fun hlt => frames_ite (fun hup => ?_) fun _ => frames_pure _
  obtain ⟨_, htop, halign⟩ := PGROUNDUP_le hold
  have hpages : (PGROUNDUP oldsz - PGROUNDUP newsz) / PGSIZE < 2 ^ 31 :=
    Nat.div_lt_of_lt_mul (lt_of_le_of_lt (Nat.sub_le _ _) (lt_of_le_of_lt htop (by norm_num)))
  rw [uint64_int32 hpages]
  exact frames_seq (uvmunmap_frames (by unfold PGSIZE at *; omega) hy hn) fun _ => frames_pure _

theorem uvmallocFrom_frames (hperm : perm < 2 ^ 10)
    (hrwx : perm &&& (PTE_R ||| PTE_W ||| PTE_X) ≠ 0) (j : ℕ) (hpins : Pins M root k) (hva : va ≤ TRAPFRAME)
    (halign : va % PGSIZE = 0) (hy : Unmoved M a root g₀ n y) (hold : n ≤ pageCount oldsz) (hn : n ≤ va / PGSIZE) :
    Frames (Now False M a root g₀) (contents y) (uvmallocFrom root oldsz perm j va) := by
  induction j generalizing va M with
  | zero => exact frames_pure _
  | succ j ih =>
    have hback : Frames (Now False M a root g₀) (contents y) (uvmdealloc root va oldsz >>= fun _ => pure false) :=
      frames_seq (uvmdealloc_frames hva hy hold) fun _ => frames_pure _
    refine frames_bind (kalloc_frames_now hy) kalloc_now fun mem => frames_ite (fun h0 => ?_) fun h0 => ?_
    · rwa [if_pos h0]
    · rw [if_neg h0]
      refine frames_bind (poke_frames_hand hy _) (poke_hand _) fun _ => ?_
      refine frames_bind (mappages_frames_hand hy halign) (mappages_user hpins halign hperm hrwx False.elim) fun ok => ?_
      cases ok with
      | true =>
        refine frames_ite (fun _ => ?_) fun h => absurd rfl h
        rw [if_pos rfl]
        refine frames_assume (fun s hs => hs.2.2) fun hpin => frames_conseq (ih (hpins.set hpin _) ?_ ?_ (hy.set hn _)
          (le_trans hn (Nat.div_le_div_right (Nat.le_add_right _ _)))) fun s hs => hs.1
        · have hne : va / PGSIZE ≠ TRAPFRAME / PGSIZE := fun h => hpin (.inr h)
          unfold TRAPFRAME TRAMPOLINE MAXVA PGSIZE at *
          omega
        · rwa [Nat.add_mod_right]
      | false =>
        refine frames_ite (nofun) fun _ => ?_
        rw [if_neg (by simp)]
        exact frames_bind (kfree_frames_hand hy) kfree_hand fun _ => hback

theorem uvmalloc_frames {xperm : ℕ} (hpins : Pins M root k) (hxperm : xperm < 2 ^ 10)
    (hold : oldsz ≤ TRAPFRAME) (hy : Unmoved M a root g₀ n y) (hn : n ≤ pageCount oldsz) :
    Frames (Now False M a root g₀) (contents y) (uvmalloc root oldsz newsz xperm) := by
  obtain ⟨hperm, hrwx⟩ := perm_user hxperm
  obtain ⟨_, htop, halign⟩ := PGROUNDUP_le hold
  have hup : n ≤ pageCount (PGROUNDUP oldsz) := by
    rwa [pageCount_of_aligned htop halign]
  exact frames_ite (fun _ => frames_pure _) fun _ => frames_seq (uvmallocFrom_frames hperm hrwx _ hpins htop halign hy hup hn)
    fun _ => frames_ite (fun _ => frames_pure _) fun _ => frames_pure _

/-! ### Making and unmaking a page table -/

/-- Under the conditions of `Frees`, the page is not written to. -/
def FreesOther (M : PageMap) (a : Owner) (root level : ℕ) (free : ℕ → VmM Unit) (y : ℕ) : Prop :=
  ∀ D g m x pref, g x = .node a (.table root level pref) → Above level g D →
    (∀ z, places g z = some (sv39.parent (.table root level pref)) → (z, sv39.slot (.table root level pref)) ∈ D) →
    ¬ Tied a root (g y) → Frames (fun s => Inv False D M a g s ∧ s.mem = m) (contents y) (free x)

theorem freewalkEntry_frames {i pref : ℕ} {m : ℕ → PageData}
    (hfree : ∀ l, level = l + 1 → FreesOther M a root l free y) (hx : g x = .node a (.table root level pref))
    (habove : Above level g D) (hi : i < 512) (hy : ¬ Tied a root (g y)) :
    Frames (Walking False D M a root level g m x i) (contents y) (freewalkEntry free x i) := by
  have hyx : y ≠ x := by
    rintro rfl
    exact hy (.inr ⟨_, hx, rfl⟩)
  refine frames_bind (E := Faults False) (frames_gets _) (readPte_spec x i) fun pte => frames_ite (fun hptr => ?_) fun _ =>
    frames_ite (fun _ => frames_fail _) fun _ => frames_pure _
  refine frames_seq ?_ fun _ => poke_frames hyx _
  rintro s ⟨⟨g', hinv, hshr, _, _⟩, rfl⟩
  obtain ⟨l, rfl, hc, habove', hparent⟩ := hinv.child_ready hx hshr habove hi hptr
  exact hfree l rfl _ g' s.mem _ _ hc habove' hparent (hshr.within.untied hy).2 s
    ⟨hinv.mono (Set.subset_insert _ _), rfl⟩

theorem freewalk_frames_table (hspec : ∀ l, level = l + 1 → Frees False M a root l free)
    (hfree : ∀ l, level = l + 1 → FreesOther M a root l free y) :
    FreesOther M a root level (fun x => upTo (freewalkEntry free x) 512 >>= fun _ => kfree x) y := by
  intro D g m x pref hx habove _ hy
  have hyx : y ≠ x := by
    rintro rfl
    exact hy (.inr ⟨_, hx, rfl⟩)
  refine frames_seq (frames_conseq (frames_upTo (I := Walking False D M a root level g m x) 512
    (fun i hi => freewalkEntry_spec hspec False.elim hx habove hi)
    fun i hi => freewalkEntry_frames hfree hx habove hi hy) ?_) fun _ => kfree_frames hyx
  rintro s ⟨hinv, rfl⟩
  exact ⟨g, hinv, Shrinks.refl a root level g, fun _ _ _ _ _ _ _ => rfl, fun j hj => by omega⟩

theorem freewalk_frames (level : ℕ) : FreesOther M a root level (freewalk (level + 1)) y := by
  induction level with
  | zero => exact freewalk_frames_table (fun l hl => by omega) fun l hl => by omega
  | succ level ih =>
    have hl : ∀ l, level + 1 = l + 1 → l = level := fun l h => by omega
    refine freewalk_frames_table (fun l h => ?_) fun l h => ?_ <;> obtain rfl := hl l h
    · exact freewalk_spec False.elim l
    · exact ih

theorem freewalk_frames_root (hy : ¬ Tied a root (g₀ y)) :
    Frames (Now False M a root g₀) (contents y) (freewalk 3 root) := by
  refine now_frames hy fun g _ hroot hyg s hs => ?_
  refine freewalk_frames 2 ∅ g s.mem root 0 hroot (by simp [Above]) (fun z hz => ?_) hyg s ⟨hs, rfl⟩
  exact absurd (hs.tree.level_le hz) (by simp [sv39])

theorem uvmfree_frames (hsz : sz ≤ TRAPFRAME) (hy : ¬ Tied a root (g₀ y)) :
    Frames (Now False M a root g₀) (contents y) (uvmfree root sz) := by
  unfold uvmfree
  refine frames_ite (fun _ => ?_) fun _ => freewalk_frames_root hy
  obtain ⟨_, htop, halign⟩ := PGROUNDUP_le hsz
  have hend : 0 + PGROUNDUP sz / PGSIZE * PGSIZE ≤ TRAPFRAME := by
    rwa [Nat.zero_add, Nat.div_mul_cancel (Nat.dvd_of_mod_eq_zero halign)]
  exact frames_bind (uvmunmap_frames hend (.inl hy) (Nat.zero_le _)) (uvmunmap_user hend (by norm_num) False.elim) fun _ =>
    freewalk_frames_root hy

theorem procFreepagetable_frames (hsz : sz ≤ TRAPFRAME) (hy : ¬ Tied a root (g₀ y)) :
    Frames (Now False M a root g₀) (contents y) (procFreepagetable root sz) := by
  refine frames_bind (uvmunmap_frames_pin (by norm_num) hy)
    (uvmunmap_pin (.inl rfl) (by norm_num) (by norm_num) False.elim) fun _ => ?_
  exact frames_bind (uvmunmap_frames_pin (by norm_num) hy)
    (uvmunmap_pin (.inr rfl) (by norm_num) (by norm_num) False.elim) fun _ => uvmfree_frames hsz hy

theorem Fresh.untied (h : Fresh M a root g₀) (hy : g₀ y ≠ .free) : ¬ Tied a root (g₀ y) := fun ht => hy (h.2.1 y ht)

theorem mappages_frames_now (hy : ¬ Tied a root (g₀ y)) (halign : va % PGSIZE = 0) :
    Frames (Now C M a root g₀) (contents y) (mappages root va PGSIZE page perm) :=
  now_frames hy fun _ _ hroot hyg => mappages_frames hroot halign (offTable_of_untied hyg)

theorem procPagetable_frames {trapframe : ℕ} (htf : trapframe < 2 ^ 52) (hy : g₀ y ≠ .free) :
    Frames (Inv False ∅ M a g₀) (contents y) (procPagetable trapframe) := by
  have hcreate : Frames (Inv False ∅ M a g₀) (contents y) uvmcreate := by
    refine frames_bind (kalloc_frames hy) kalloc_spec fun r => frames_ite (fun _ => frames_pure _) fun h0 => ?_
    refine frames_assume (c := y ≠ r) ?_ fun hne => frames_seq (poke_frames hne _) fun _ => frames_pure _
    rintro s (⟨h, _⟩ | ⟨hfree, _⟩) rfl
    · exact h0 h
    · exact hy hfree
  refine frames_bind hcreate uvmcreate_spec fun r => frames_ite (fun _ => frames_pure _) fun h0 => ?_
  rw [if_neg h0]
  refine frames_assume (fun s hs => hs.1) fun hfresh => ?_
  have hyr := hfresh.untied hy
  refine frames_bind (Q := fun t s => Now False M a r g₀ s ∧ t < 2 ^ 52) (E := Faults False) (frames_gets _)
    (holds_gets fun s hs => ⟨hs.2, lt_of_lt_of_le s.layout.trampoline_lt (le_trans s.layout.base_le (by norm_num))⟩)
    fun t => ?_
  refine frames_assume (fun s hs => hs.2) fun ht => frames_conseq (P := Now False M a r g₀) ?_ fun s hs => hs.1
  refine frames_bind (mappages_frames_now hyr (by norm_num)) (mappages_pin (.inl rfl) (by norm_num) (by norm_num) ht
    (by decide) (by decide) (by decide) False.elim) fun ok => frames_ite (fun hok => ?_) fun hok => ?_
  · rw [if_pos hok]
    refine frames_bind (mappages_frames_now hyr (by norm_num)) (mappages_pin (.inr rfl) (by norm_num) (by norm_num) htf
      (by decide) (by decide) (by decide) False.elim) fun ok' => frames_ite (fun _ => frames_pure _) fun hok' => ?_
    rw [if_neg hok']
    exact frames_bind (uvmunmap_frames_pin (by norm_num) hyr)
      (uvmunmap_pin (.inl rfl) (by norm_num) (by norm_num) False.elim) fun _ =>
        frames_seq (uvmfree_frames (by norm_num) hyr) fun _ => frames_pure _
  · rw [if_neg hok]
    exact frames_seq (uvmfree_frames (by norm_num) hyr) fun _ => frames_pure _

/-! ### Images -/

section

variable (hroot : g root = .node a (.table root 2 0)) (hy : ¬ Tied a root (g y))

include hroot hy

theorem uvmclear_frames :
    Frames (Inv C ∅ M a g) (contents y) (uvmclear root va) := by
  refine frames_conseq (P := Inv False ∅ M a g) ?_ fun s hs => hs.weaken
  refine frames_bind walk_still (walk_look hroot False.elim) fun r => ?_
  cases r with
  | none => exact frames_fail _
  | some t =>
    refine frames_assume (c := y ≠ t.1) ?_ fun hne => frames_seq (frames_gets _) fun _ => poke_frames hne _
    rintro s ⟨_, hres, _⟩ rfl
    exact hy (.inr ⟨_, (hres _ _ rfl).1, rfl⟩)

theorem copyoutFrom_frames (fuel dstva : ℕ)
    (src : List UInt8) : Frames (Inv C ∅ M a g) (contents y) (copyoutFrom root fuel dstva src) := by
  induction fuel generalizing dstva src with
  | zero => exact frames_pure _
  | succ fuel ih =>
    refine frames_ite (fun _ => frames_pure _) fun _ => frames_bind walkaddr_still (walkaddr_leaf hroot) fun pa0 => ?_
    refine frames_ite (fun _ => frames_pure _) fun h0 => frames_assume (fun s hs => hs.2.1 h0) fun hleaf => ?_
    have hne : y ≠ pa0 := by
      rintro rfl
      exact hy (.inr ⟨_, hleaf, rfl⟩)
    have hplain : (g pa0).Plain := by
      rw [hleaf]
      simp [Status.Plain]
    exact frames_bind (poke_frames hne _) (holds_conseq (poke_spec hplain _) (fun s hs => hs.1) fun _ _ h => h)
      fun _ => ih _ _

theorem loadsegFrom_frames (readi : Readi)
    (offset sz k i : ℕ) : Frames (Inv C ∅ M a g) (contents y) (loadsegFrom root va readi offset sz k i) := by
  induction k generalizing i with
  | zero => exact frames_pure _
  | succ k ih =>
    refine frames_bind walkaddr_still (walkaddr_leaf hroot) fun pa => frames_ite (fun _ => frames_fail _) fun h0 => ?_
    refine frames_assume (fun s hs => hs.2.1 h0) fun hleaf => ?_
    have hne : y ≠ pa := by
      rintro rfl
      exact hy (.inr ⟨_, hleaf, rfl⟩)
    have hplain : (g pa).Plain := by
      rw [hleaf]
      simp [Status.Plain]
    exact frames_bind (poke_frames hne _) (holds_conseq (poke_spec hplain _) (fun s hs => hs.1) fun _ _ h => h)
      fun _ => frames_ite (fun _ => ih _) fun _ => frames_pure _

end

theorem loadSegments_frames (hy : ¬ Tied a root (g₀ y)) (readi : Readi) (n : ℕ) (off : ℤ) (sz : ℕ) :
    Frames (Segments False M a root k g₀ sz) (contents y) (loadSegments root readi n off sz) := by
  induction n generalizing off sz with
  | zero => exact frames_pure _
  | succ n ih =>
    refine frames_ite (fun _ => frames_pure _) fun _ => frames_ite (fun _ => ih _ sz) fun _ => ?_
    refine frames_ite (fun _ => frames_pure _) fun hmem => frames_ite (fun _ => frames_pure _) fun hwrap => ?_
    refine frames_ite (fun _ => frames_pure _) fun halign => ?_
    refine frames_exists fun M' => frames_assume (fun s hs => hs.1) fun hlaid => ?_
    refine frames_conseq (P := Now False M' a root g₀) ?_ fun s hs => hs.2.2
    refine frames_bind (uvmalloc_frames hlaid.pins (flags2perm_lt _) hlaid.sz (.inl hy) (Nat.zero_le _))
      (uvmalloc_spec hlaid.pins (flags2perm_lt _) hlaid.sz False.elim) fun sz1 =>
        frames_ite (fun _ => frames_pure _) fun h0 => ?_
    refine frames_bind (Q := fun _ => Segments False M a root k g₀ sz1) (E := Faults False) ?_ ?_ fun ok =>
      frames_ite (fun _ => ih _ sz1) fun _ => frames_pure _
    · rintro s (⟨h, _⟩ | ⟨_, _, M'', _, hnow⟩)
      · exact absurd h h0
      · exact now_frames hy (fun g _ hroot hyg => loadsegFrom_frames hroot hyg readi _ _ _ _) s hnow
    · rintro s (⟨h, _⟩ | ⟨hmax, hsz1, M'', hext, hnow⟩)
      · exact absurd h h0
      · have hlaid' := hlaid.grow hext (by omega) hsz1
        refine holds_conseq (keeps_now fun g hroot => loadsegFrom_spec hroot readi _ _ (pageCount sz1) _ _ False.elim)
          (fun _ h => h) (fun _ t ht => ?_) s hnow
        exact ⟨M'', hlaid', False.elim, ht⟩

theorem pushArgs_frames (hroot : g root = .node a (.table root 2 0)) (hy : ¬ Tied a root (g y)) (stackbase : ℕ)
    (argv : List ℕ) (sp : ℕ) (ustack : List ℕ) :
    Frames (Inv C ∅ M a g) (contents y) (pushArgs root stackbase argv sp ustack) := by
  induction argv generalizing sp ustack with
  | nil => exact frames_pure _
  | cons arg argv ih =>
    refine frames_ite (fun _ => frames_pure _) fun _ => frames_bind (E := Faults C) (frames_gets _) (keeps_gets _) fun str => ?_
    refine frames_ite (fun _ => frames_pure _) fun _ => ?_
    exact frames_bind (copyoutFrom_frames hroot hy _ _ _) (copyout_spec hroot _ _) fun ok =>
      frames_ite (fun _ => ih _ _) fun _ => frames_pure _

theorem buildStack_frames (hroot : g root = .node a (.table root 2 0)) (hy : ¬ Tied a root (g y)) (sz : ℕ)
    (argv : List ℕ) : Frames (Inv C ∅ M a g) (contents y) (buildStack root sz argv) := by
  refine frames_bind (pushArgs_frames hroot hy _ argv sz []) (pushArgs_spec hroot _ argv sz []) fun r => ?_
  cases r with
  | none => exact frames_pure _
  | some r =>
    exact frames_ite (fun _ => frames_pure _) fun _ => frames_seq (copyoutFrom_frames hroot hy _ _ _) fun ok =>
      frames_ite (fun _ => frames_pure _) fun _ => frames_pure _

/-! ### Images that are being built -/

theorem Laid.weaken (h : Laid C M M' root k sz) : Laid False M M' root k sz :=
  ⟨h.other, h.pins, False.elim, h.sz⟩

theorem Now.weaken (h : Now C M a root g₀ s) : Now False M a root g₀ s :=
  let ⟨g, hinv, hwithin, hroot⟩ := h
  ⟨g, hinv.weaken, hwithin, hroot⟩

theorem Segments.weaken (h : Segments C M a root k g₀ sz s) : Segments False M a root k g₀ sz s :=
  let ⟨M', hlaid, _, hnow⟩ := h
  ⟨M', hlaid.weaken, False.elim, hnow.weaken⟩

theorem ready_frames {x : VmM α} (h : ∀ M', Laid C M M' root k sz → Frames (Now False M' a root g₀) (contents y) x) :
    Frames (Image.Ready C M a g₀ root k sz) (contents y) x :=
  fun s ⟨M', hlaid, hnow⟩ => h M' hlaid s hnow.weaken

theorem stackPages_frames (hsz : sz ≤ TRAPFRAME) (hy : ¬ Tied a root (g₀ y)) :
    Frames (Image.Ready C M a g₀ root k sz) (contents y) (uvmalloc root (PGROUNDUP sz) newsz PTE_W) :=
  ready_frames fun _ hlaid => uvmalloc_frames hlaid.pins (by decide) (PGROUNDUP_le hsz).2.1 (.inl hy) (Nat.zero_le _)

theorem guardPage_frames (hy : ¬ Tied a root (g₀ y)) :
    Frames (Image.Ready C M a g₀ root k sz) (contents y) (uvmclear root va) :=
  ready_frames fun _ _ => now_frames hy fun _ _ hroot hyg => uvmclear_frames hroot hyg

theorem buildStack_frames_ready (hy : ¬ Tied a root (g₀ y)) (argv : List ℕ) :
    Frames (Image.Ready C M a g₀ root k sz) (contents y) (buildStack root sz argv) :=
  ready_frames fun _ _ => now_frames hy fun _ _ hroot hyg => buildStack_frames hroot hyg sz argv

theorem freeImage_frames (hy : ¬ Tied a root (g₀ y)) :
    Frames (Image.Ready C M a g₀ root k sz) (contents y) (procFreepagetable root sz) :=
  ready_frames fun _ hlaid => procFreepagetable_frames hlaid.sz hy

theorem loadFile_frames {trapframe : ℕ} (htf : trapframe < 2 ^ 52) (hy : g₀ y ≠ .free) (readi : Readi) :
    Frames (Inv C ∅ M a g₀) (contents y) (loadFile trapframe readi) := by
  refine frames_ite (fun _ => frames_pure _) fun _ => frames_ite (fun _ => frames_pure _) fun _ => ?_
  refine frames_bind (frames_conseq (procPagetable_frames htf hy) fun s hs => hs.weaken) (procPagetable_spec htf) fun r =>
    frames_ite (fun _ => frames_pure _) fun h0 => frames_assume (fun s hs => hs.fresh h0) fun hfresh => ?_
  have hyr := hfresh.untied hy
  refine frames_conseq (frames_exists fun t => ?_) fun s hs => (hs.segments h0).imp fun _ h => h.2
  refine frames_bind (frames_conseq (loadSegments_frames hyr readi _ _ 0) fun s hs => hs.weaken)
    (loadSegments_spec readi _ _ 0) fun seg => frames_ite (fun _ => frames_pure _) fun _ => ?_
  exact frames_seq (frames_conseq (freeImage_frames hyr) fun s hs => hs.ready) fun _ => frames_pure _

theorem makeStack_frames (hy : ¬ Tied a root (g₀ y)) (argv : List ℕ) (entry sz : ℕ) :
    Frames (Segments C M a root k g₀ sz) (contents y) (makeStack argv entry root sz) := by
  refine frames_assume (fun s hs => hs.le) fun hsz => frames_conseq (P := Image.Ready C M a g₀ root k sz) ?_ fun s hs => hs.ready
  have hbad {sz : ℕ} : Frames (Image.Ready C M a g₀ root k sz) (contents y) (badImage root sz) :=
    frames_seq (freeImage_frames hy) fun _ => frames_pure _
  refine frames_bind (stackPages_frames hsz hy) (stackPages_spec hsz) fun sz1 => frames_ite (fun h0 => ?_) fun h0 => ?_
  · exact frames_conseq hbad fun s hs => (if_pos h0).mp hs
  · refine frames_assume (fun s hs => ((if_neg h0).mp hs).1) fun heq => ?_
    refine frames_conseq (P := Image.Ready C M a g₀ root k sz1) ?_ fun s hs => ((if_neg h0).mp hs).2
    refine frames_bind (guardPage_frames hy) (guardPage_spec (PGROUNDUP_le hsz).2.2 heq) fun _ => ?_
    refine frames_bind (buildStack_frames_ready hy argv) (buildStack_ready argv) fun st => ?_
    cases st with
    | none => exact hbad
    | some st => exact frames_pure _

/-! ### The arguments of exec -/

theorem copyinstrFrom_still (fuel srcva max : ℕ) :
    Frames P f (copyinstrFrom root fuel srcva max) := by
  induction fuel generalizing P srcva max with
  | zero => exact frames_pure _
  | succ fuel ih =>
    refine frames_ite (fun _ => frames_pure _) fun _ => frames_seq walkaddr_still fun pa0 => ?_
    refine frames_ite (fun _ => frames_pure _) fun _ => frames_seq (frames_gets _) fun r => ?_
    exact frames_ite (fun _ => frames_pure _) fun _ => frames_seq (ih _ _) fun _ => frames_pure _

theorem copyinFrom_still (fuel srcva len : ℕ) :
    Frames P f (copyinFrom root fuel srcva len) := by
  induction fuel generalizing P srcva len with
  | zero => exact frames_pure _
  | succ fuel ih =>
    refine frames_ite (fun _ => frames_pure _) fun _ => frames_seq walkaddr_still fun pa0 => ?_
    refine frames_ite (fun _ => frames_pure _) fun _ => frames_seq (frames_gets _) fun r => ?_
    exact frames_seq (ih _ _) fun _ => frames_pure _

theorem fetchaddr_still (v : Proc) (addr : ℕ) : Frames P f (fetchaddr v addr) :=
  frames_ite (fun _ => frames_pure _) fun _ => frames_seq (copyinFrom_still _ _ _) fun _ => frames_pure _

theorem fetchArgs_frames {v : Proc} (hroot : g v.pagetable = .node o (.table v.pagetable 2 0)) (hy : g y ≠ .free)
    (uargv n i : ℕ) : Frames (Inv C ∅ M a g) (contents y) (fetchArgs v uargv n i) := by
  induction n generalizing i g with
  | zero => exact frames_pure _
  | succ n ih =>
    refine frames_bind (fetchaddr_still v _) (fetchaddr_spec hroot _) fun r => ?_
    cases r with
    | none => exact frames_pure _
    | some uarg =>
      refine frames_ite (fun _ => frames_pure _) fun _ => frames_bind (kalloc_frames hy) kalloc_spec fun page => ?_
      refine frames_ite (fun _ => frames_pure _) fun h0 => ?_
      refine frames_assume (c := g page = .free) ?_ fun hfree => ?_
      · rintro s (⟨h, _⟩ | ⟨hfree, _⟩)
        · exact absurd h h0
        · exact hfree
      have hne : y ≠ page := by
        rintro rfl
        exact hy hfree
      have hroot' : update g page (.held a) v.pagetable = .node o (.table v.pagetable 2 0) := by
        rw [update_hand_eq hfree (by rw [hroot]; simp), hroot]
      refine frames_conseq (P := Inv C ∅ M a (update g page (.held a))) ?_ ?_
      · refine frames_bind (copyinstrFrom_still _ _ _) (copyinstrFrom_spec hroot' _ _ _) fun str => ?_
        refine frames_bind (poke_frames hne _) (poke_spec (by simp [Status.Plain]) _) fun _ => ?_
        refine frames_ite (fun _ => frames_seq (ih hroot' ?_ _) fun _ => frames_pure _) fun _ => frames_pure _
        rwa [update_of_ne hne]
      · rintro s (⟨h, _⟩ | ⟨_, hs⟩)
        · exact absurd h h0
        · exact hs

theorem freeArgs_frames (hy : y ∉ argv) : Frames P (contents y) (freeArgs argv) := by
  induction argv generalizing P with
  | nil => exact frames_pure _
  | cons page argv ih =>
    obtain ⟨hne, hrest⟩ := not_or.mp fun h => hy (List.mem_cons.mpr h)
    exact frames_seq (kfree_frames hne) fun _ => ih hrest

/-- The argument pages are given back after `exec` has failed: the same pages are free as before. -/
theorem Taken.restore {g'' : Pages} (h : Taken a g argv g') (hfree : ∀ x, x ∈ argv → g'' x = .free)
    (hother : ∀ x, x ∉ argv → g'' x = g' x) : g'' = g := by
  funext x
  by_cases hx : x ∈ argv
  · rw [hfree x hx, h.free x hx]
  · rw [hother x hx, h.other x hx]

/-! ### Memory that has not changed -/

theorem Inv.free_iff (h : Inv C ∅ M a g s) (page : ℕ) :
    Chain.Listed (next s.mem) page s.freelist ↔ g page = .free := by
  obtain ⟨L, hspell, _, hmem⟩ := h.list
  exact (Chain.listed_iff_mem hspell).trans (hmem page)

end Xv6.Vm
