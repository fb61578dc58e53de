import Xv6.Proofs.TablePlaces

/-! A page table as a partial map: `mappages` adds bindings and `uvmunmap` removes them. The loops go through the virtual pages one
by one; in each round the tree may grow, which no binding sees, and one entry of a lowest table is written. -/

namespace Xv6.Vm

open Prog Radix Function

variable {s t : State} {root level pref x y c i v va : ℕ}

section Tabled

variable {K Q : Prop} {A : Set ℕ} {F : ℕ → Option ℕ}

/-! ### mappages -/

/-- The tables with an entry of an upper table that is still empty. -/
structure Hollow (K Q : Prop) (A : Set ℕ) (F : ℕ → Option ℕ) (root level pref x i : ℕ) (s : State) : Prop where
  tabled : Tabled K Q A F root s
  place : TableAt s.mem root (level + 1) pref x
  empty : s.mem x i &&& PTE_V = 0

theorem kalloc_tabled (hq : Q) : Holds (Hollow K Q A F root level pref x i) kalloc
    (fun r s => Hollow K Q A F root level pref x i s ∧ (r ≠ 0 → InHand K A F root s r)) (fun _ _ => False) := by
  intro s hs
  rw [kalloc_apply]
  split_ifs with hc
  · refine ⟨⟨hs.tabled.congr (fun _ _ _ _ => rfl) fun hq => ?_, hs.place, hs.empty⟩, fun h => absurd rfl h⟩
    obtain ⟨L, hspell, hnodup, hL⟩ := hs.tabled.free hq
    exact ⟨L, hspell, hnodup, fun z hz => (hL z hz).congr (fun _ _ _ _ => rfl) rfl⟩
  · have hne : s.freelist ≠ 0 := fun h0 => hc (.inr h0)
    have hmem := hs.tabled.pop_mem hq hne
    obtain ⟨hpop, hhand⟩ := hs.tabled.pop hq hne
    refine ⟨⟨hpop, (TableAt.congr hmem).mpr hs.place, ?_⟩, fun _ => hhand⟩
    rw [hmem _ _ _ hs.place]
    exact hs.empty

/-- A new table is hung at the empty entry. -/
theorem hang_tabled (hq : Q) (hi : i < 512) (hy : y ≠ 0) :
    Holds (fun s => Hollow K Q A F root level pref x i s ∧ (y ≠ 0 → InHand K A F root s y))
      (do memset y 0; writePte x i (PA2PTE y ||| PTE_V))
      (fun _ s => Tabled K Q A F root s ∧ TableAt s.mem root level (pref * 512 + i) y) (fun _ _ => False) := by
  rintro s ⟨hs, hhand⟩
  have hhand := hhand hy
  have hram := hhand.spare.ram
  have hlt : y < 2 ^ 52 := lt_trans hram.2 (by norm_num)
  have hpage : PTE2PA (PA2PTE y ||| PTE_V) = y := by
    have h := pte_page hlt (show 0 < 2 ^ 10 by norm_num)
    rwa [Nat.or_zero] at h
  have hvalid : (PA2PTE y ||| PTE_V) &&& PTE_V ≠ 0 := by
    rw [Nat.and_or_distrib_right]
    simp
  have hyx : x ≠ y := by
    rintro rfl
    exact hhand.spare.table _ _ hs.place
  have hclear := hs.tabled.setPage hhand.spare.table (fun _ => hhand.listed) fun _ => 0 * 0x0101010101010101
  have hhand' := InHand.setPage hs.tabled hq hhand fun _ => 0 * 0x0101010101010101
  have hbare (j : ℕ) : (Vm.setPage s.mem y fun _ => 0 * 0x0101010101010101) y j &&& PTE_V = 0 := by
    rw [setPage_self]
    rfl
  have hmem := setPage_tables hhand.spare.table fun _ => 0 * 0x0101010101010101
  have hplace := (TableAt.congr hmem).mpr hs.place
  have hempty := hs.empty
  rw [← hmem _ _ x hs.place] at hempty
  refine ⟨hclear.hang hhand' hbare hplace hi hempty hpage hvalid, ?_⟩
  exact (tableAt_hang hclear.distinct hplace hi hempty hyx.symm hbare hpage hvalid).mpr (.inr ⟨rfl, rfl, rfl⟩)

theorem walkFrom_tabled (hq : Q) (va level x : ℕ) :
    Holds (fun s => Tabled K Q A F root s ∧ TableAt s.mem root level (va / PGSIZE / 512 ^ (level + 1)) x)
      (walkFrom va true level x)
      (fun r s => Tabled K Q A F root s ∧ ∀ c j, r = some (c, j) → TableAt s.mem root 0 (va / PGSIZE / 512) c ∧ j = PX 0 va)
      (fun _ _ => False) := by
  induction level generalizing x with
  | zero =>
    rintro s ⟨hs, hx⟩
    refine ⟨hs, fun c j h => ?_⟩
    cases h
    exact ⟨by simpa using hx, rfl⟩
  | succ level ih =>
    rintro s ⟨hs, hx⟩
    unfold walkFrom readPte
    rw [bind_of_ok (gets_apply _ s)]
    by_cases hv : s.mem x (PX (level + 1) va) &&& PTE_V ≠ 0
    · rw [if_pos hv]
      refine ih _ s ⟨hs, ?_⟩
      have hnext := hx.next (PX_lt (level + 1) va) hv
      rwa [PX, pref_step] at hnext
    · rw [if_neg hv, if_pos rfl]
      have hhang (child : ℕ) (hne : child ≠ 0) := @hang_tabled root level (va / PGSIZE / 512 ^ (level + 2)) x child
        (PX (level + 1) va) K Q A F hq (PX_lt _ _) hne
      refine holds_bind (kalloc_tabled hq) (fun child => ?_) s ⟨hs, hx, not_ne_iff.mp hv⟩
      refine holds_ite (fun _ => holds_pure fun t ht => ⟨ht.1.tabled, by simp⟩) fun hne => ?_
      rw [← bind_assoc]
      refine holds_bind (hhang child hne) fun _ => holds_conseq (ih child) (fun t ht => ?_) fun _ _ h => h
      rwa [PX, pref_step] at ht

theorem walk_tabled (hq : Q) (hva : va < MAXVA) : Holds (Tabled K Q A F root) (walk root va true)
    (fun r s => Tabled K Q A F root s ∧ ∀ c j, r = some (c, j) → TableAt s.mem root 0 (va / PGSIZE / 512) c ∧ j = PX 0 va)
    (fun _ _ => False) := by
  unfold walk
  rw [if_neg (not_le.mpr hva)]
  refine holds_conseq (walkFrom_tabled hq va 2 root) (fun s hs => ⟨hs, ?_⟩) fun _ _ h => h
  rw [top_pref hva]
  exact .root

theorem page_div (pos : ℕ) : pos * PGSIZE / PGSIZE = pos := Nat.mul_div_cancel _ (by decide)

theorem page_PX (pos : ℕ) : PX 0 (pos * PGSIZE) = pos % 512 := by
  rw [PX, page_div, pow_zero, Nat.div_one]

theorem pos_split (pos : ℕ) : pos / 512 * 512 + pos % 512 = pos := Nat.div_add_mod' pos 512

theorem page_index (va k : ℕ) : (va + k * PGSIZE) / PGSIZE = va / PGSIZE + k := Nat.add_mul_div_right _ _ (by decide)

variable {pos page perm : ℕ} {doFree : Bool} {l : Layout}

section

variable (h : Tabled K Q A F root s) (hpos : pos < 2 ^ 26) (hc : TableAt s.mem root 0 (pos / 512) c)

include h hpos hc

/-- The entry of a virtual page, valid or not. -/
theorem Tabled.entry :
    F pos = if s.mem c (pos % 512) &&& PTE_V = 0 then none else some (s.mem c (pos % 512)) := by
  rw [← h.binds pos hpos]
  have hleaf := leaf_at hc (Nat.mod_lt pos (by norm_num)) (by rwa [pos_split]) rfl
  rwa [pos_split] at hleaf

theorem Tabled.write (hv : K → v &&& PTE_V ≠ 0 → PTE2PA v ∈ A) :
    Tabled K Q A (update F pos (if v &&& PTE_V = 0 then none else some v)) root
      { s with mem := Vm.setPage s.mem c (setWord (pos % 512) v (s.mem c)) } := by
  have hstore := h.store hc (Nat.mod_lt pos (by norm_num)) (by rwa [pos_split]) hv
  rwa [pos_split] at hstore

end

/-- The entry that `mappages` writes. -/
def pteFor (page perm : ℕ) : ℕ := PA2PTE page ||| perm ||| PTE_V

theorem pteFor_valid (page perm : ℕ) : pteFor page perm &&& PTE_V ≠ 0 := by
  rw [pteFor, Nat.and_or_distrib_right]
  simp

theorem mapPte_tabled (hpos : pos < 2 ^ 26) (hF : F pos = none) (hpage : page < 2 ^ 52)
    (hperm : perm < 2 ^ 10) (hA : K → page ∈ A) :
    Holds (fun s => Tabled K Q A F root s ∧ TableAt s.mem root 0 (pos / 512) c) (mapPte c (pos % 512) page perm)
      (fun _ => Tabled K Q A (update F pos (some (pteFor page perm))) root) (fun _ _ => False) := by
  rintro s ⟨hs, hc⟩
  have hempty : s.mem c (pos % 512) &&& PTE_V = 0 := by
    by_contra hv
    have hentry := hs.entry hpos hc
    rw [hF, if_neg hv] at hentry
    cases hentry
  unfold mapPte readPte
  rw [bind_of_ok (gets_apply _ s), if_neg (not_ne_iff.mpr hempty)]
  have hwrite := hs.write hpos hc (v := pteFor page perm) fun hk _ => by
    rw [pteFor, pte_page hpage hperm]
    exact hA hk
  rwa [if_neg (pteFor_valid page perm)] at hwrite

/-- The bindings of the `n` pages from `pos` on are those of `v`. -/
def spread (F : ℕ → Option ℕ) (pos n : ℕ) (v : ℕ → Option ℕ) : ℕ → Option ℕ :=
  fun i => if pos ≤ i ∧ i < pos + n then v (i - pos) else F i

theorem spread_succ (F : ℕ → Option ℕ) (pos n : ℕ) (v : ℕ → Option ℕ) :
    spread (update F pos (v 0)) (pos + 1) n (fun k => v (k + 1)) = spread F pos (n + 1) v := by
  funext i
  unfold spread
  by_cases hi : i = pos
  · subst hi
    rw [if_neg (by omega), if_pos (by omega), update_self, Nat.sub_self]
  · rw [update_of_ne hi]
    by_cases hin : pos ≤ i ∧ i < pos + (n + 1)
    · rw [if_pos hin, if_pos (by omega)]
      exact congrArg v (by omega)
    · rw [if_neg hin, if_neg (by omega)]

theorem spread_zero (F : ℕ → Option ℕ) (pos : ℕ) (v : ℕ → Option ℕ) : spread F pos 0 v = F :=
  funext fun i => if_neg (by omega)

/-- `n` pages from `pos` on are mapped to those from `page` on. -/
def mapped (F : ℕ → Option ℕ) (pos page perm n : ℕ) : ℕ → Option ℕ :=
  spread F pos n fun k => some (pteFor (page + k) perm)

theorem mapped_succ (F : ℕ → Option ℕ) (pos page perm n : ℕ) :
    mapped (update F pos (some (pteFor page perm))) (pos + 1) (page + 1) perm n = mapped F pos page perm (n + 1) := by
  refine Eq.trans ?_ (spread_succ F pos n _)
  unfold mapped
  congr 1
  funext k
  rw [Nat.add_right_comm, Nat.add_assoc]

/-- What `mappages` leaves; when it gives up, some of the pages are mapped. -/
def MapsTo (K Q : Prop) (A : Set ℕ) (G : ℕ → Option ℕ) (root : ℕ) (r : Bool) (s : State) : Prop :=
  ∃ F, Tabled K Q A F root s ∧ (r = true → F = G)

/-- A round of `mappages`. -/
theorem round_tabled (hq : Q) (hpos : pos < 2 ^ 26) (hF : F pos = none) (hpage : page < 2 ^ 52)
    (hperm : perm < 2 ^ 10) (hA : K → page ∈ A) {k : VmM Bool} {R : Bool → State → Prop}
    (hnone : ∀ s, Tabled K Q A F root s → R false s)
    (hk : Holds (Tabled K Q A (update F pos (some (pteFor page perm))) root) k R (fun _ _ => False)) :
    Holds (Tabled K Q A F root) (do
      match ← walk root (pos * PGSIZE) true with
      | none => pure false
      | some (t, i) => do
        mapPte t i page perm
        k) R (fun _ _ => False) := by
  refine holds_bind (walk_tabled hq (pos_va hpos)) fun r => ?_
  cases r with
  | none => exact holds_pure fun s hs => hnone s hs.1
  | some cj =>
    refine holds_assume (c := cj.2 = pos % 512) (fun s hs => ?_) fun hj => ?_
    · rw [(hs.2 cj.1 cj.2 rfl).2, page_PX]
    dsimp only
    rw [hj]
    refine holds_bind (holds_conseq (mapPte_tabled hpos hF hpage hperm hA) (fun s hs => ⟨hs.1, ?_⟩) fun _ _ h => h) fun _ => hk
    have hc := (hs.2 cj.1 cj.2 rfl).1
    rwa [page_div] at hc

theorem mappagesFrom_tabled (hq : Q) (hperm : perm < 2 ^ 10) (m : ℕ) : ∀ (F : ℕ → Option ℕ) (pos page fuel : ℕ),
    m < fuel → pos + m < 2 ^ 26 → page + m < 2 ^ 52 → (∀ k, k ≤ m → F (pos + k) = none) → (K → ∀ k, k ≤ m → page + k ∈ A) →
    Holds (Tabled K Q A F root) (mappagesFrom root ((pos + m) * PGSIZE) perm fuel (pos * PGSIZE) page)
      (MapsTo K Q A (mapped F pos page perm (m + 1)) root) (fun _ _ => False) := by
  induction m with
  | zero =>
    intro F pos page fuel hfuel hpos hpage hF hA
    obtain ⟨fuel, rfl⟩ := Nat.exists_eq_succ_of_ne_zero (show fuel ≠ 0 by omega)
    refine round_tabled hq hpos (hF 0 le_rfl) hpage hperm (fun hk => hA hk 0 le_rfl) (fun s hs => ⟨F, hs, nofun⟩) ?_
    rw [if_pos (by rw [Nat.add_zero])]
    refine holds_pure fun s hs => ⟨_, hs, fun _ => ?_⟩
    rw [← mapped_succ]
    exact (spread_zero ..).symm
  | succ m ih =>
    intro F pos page fuel hfuel hpos hpage hF hA
    obtain ⟨fuel, rfl⟩ := Nat.exists_eq_succ_of_ne_zero (show fuel ≠ 0 by omega)
    refine round_tabled hq (by omega) (hF 0 (by omega)) (by omega) hperm (fun hk => hA hk 0 (by omega))
      (fun s hs => ⟨F, hs, nofun⟩) ?_
    have hne : ¬pos * PGSIZE = (pos + (m + 1)) * PGSIZE := by
      unfold PGSIZE
      omega
    have hnext : pos * PGSIZE + PGSIZE = (pos + 1) * PGSIZE := (Nat.succ_mul pos PGSIZE).symm
    rw [if_neg hne, hnext, show pos + (m + 1) = pos + 1 + m by omega, ← mapped_succ]
    refine ih _ (pos + 1) (page + 1) fuel (by omega) (by omega) (by omega) (fun k hk => ?_) fun hK k hk => ?_
    · rw [update_of_ne (by omega), show pos + 1 + k = pos + (k + 1) by omega]
      exact hF (k + 1) (by omega)
    · rw [show page + 1 + k = page + (k + 1) by omega]
      exact hA hK (k + 1) (by omega)

/-! ### uvmunmap -/

/-- The virtual page has no entry that `uvmunmap` takes. -/
def Stuck (l : Layout) (F : ℕ → Option ℕ) (doFree : Bool) (pos : ℕ) : Prop :=
  ∀ pte, F pos = some pte → PTE_FLAGS pte = PTE_V ∨ doFree = true ∧ ¬l.Contains (PTE2PA pte)

/-- No other virtual page is mapped to the same page. -/
def Once (F : ℕ → Option ℕ) (pos : ℕ) : Prop :=
  ∀ pte, F pos = some pte → ∀ i pte', i < 2 ^ 26 → F i = some pte' → PTE2PA pte' = PTE2PA pte → i = pos

theorem unbound {i pte : ℕ} (hi : update F pos none i = some pte) : i ≠ pos ∧ F i = some pte := by
  by_cases hp : i = pos
  · rw [hp, update_self] at hi
    cases hi
  · rw [update_of_ne hp] at hi
    exact ⟨hp, hi⟩

/-- The page that was mapped last is freed after its entry has been cleared. -/
theorem Tabled.push {pte : ℕ} (h : Tabled True Q ∅ F root s) (hpos : pos < 2 ^ 26) (hF : F pos = some pte)
    (hram : s.layout.Contains (PTE2PA pte)) (hc : TableAt s.mem root 0 (pos / 512) c) (honce : Q → Once F pos) :
    Tabled True Q ∅ (update F pos none) root
      { s.push (PTE2PA pte) with
        mem := Vm.setPage (s.push (PTE2PA pte)).mem c (setWord (pos % 512) 0 ((s.push (PTE2PA pte)).mem c)) } := by
  have htable := h.data trivial pos pte hpos hF
  have hmem (level pref x : ℕ) (hx : TableAt s.mem root level pref x) : (s.push (PTE2PA pte)).mem x = s.mem x :=
    setPage_tables htable _ level pref x hx
  have hfirst : Tabled True False ∅ F root (s.push (PTE2PA pte)) := h.congr hmem False.elim
  have hwrite := hfirst.write hpos ((TableAt.congr hmem).mpr hc) (v := 0) fun _ hv => absurd (Nat.zero_and PTE_V) hv
  rw [if_pos (Nat.zero_and PTE_V)] at hwrite
  refine { hwrite with free := fun hq => ?_ }
  obtain ⟨L, hspell, hnodup, hL⟩ := h.free hq
  have hat {l p z : ℕ} (hz : TableAt (Vm.setPage (s.push (PTE2PA pte)).mem c
      (setWord (pos % 512) 0 ((s.push (PTE2PA pte)).mem c))) root l p z) : TableAt s.mem root l p z :=
    (TableAt.congr hmem).mp ((tableAt_store hfirst.distinct ((TableAt.congr hmem).mpr hc)).mp hz)
  have hnot : PTE2PA pte ∉ L := fun hmem => (hL _ hmem).data trivial pos pte hpos hF rfl
  have hyc : PTE2PA pte ≠ c := fun heq => htable 0 (pos / 512) (heq ▸ hc)
  have hzc {z : ℕ} (hz : z ∈ L) : z ≠ c := by
    rintro rfl
    exact (hL z hz).table _ _ hc
  have hzero : PTE2PA pte ≠ 0 := by
    have := hram.1
    have := s.layout.trampoline_lt
    omega
  refine ⟨PTE2PA pte :: L, hspell.push hzero ?_ fun z hz => ?_, List.nodup_cons.mpr ⟨hnot, hnodup⟩, fun z hz => ?_⟩
  · change Vm.setPage (s.push (PTE2PA pte)).mem c _ (PTE2PA pte) 0 / PGSIZE = s.freelist
    rw [setWord_entry, if_neg fun h => hyc h.1]
    change Vm.setPage s.mem (PTE2PA pte) _ (PTE2PA pte) 0 / PGSIZE = s.freelist
    rw [setPage_self]
    exact Nat.mul_div_cancel _ (by decide)
  · refine congrArg (· / PGSIZE) ?_
    change Vm.setPage (s.push (PTE2PA pte)).mem c _ z 0 = s.mem z 0
    rw [setWord_entry, if_neg fun h => hzc hz h.1]
    refine congrFun (if_neg ?_) 0
    rintro rfl
    exact hnot hz
  · rcases List.mem_cons.mp hz with rfl | hz
    · refine ⟨hram, fun l p h => htable l p (hat h), nofun, fun _ i pte' hi hF' => ?_⟩
      obtain ⟨hne, hF'⟩ := unbound hF'
      exact fun heq => hne (honce hq pte hF i pte' hi hF' heq)
    · exact ⟨(hL z hz).ram, fun l p h => (hL z hz).table l p (hat h), nofun,
        fun hk i pte' hi hF' => (hL z hz).data hk i pte' hi (unbound hF').2⟩

theorem unmapPte_tabled (hpos : pos < 2 ^ 26) (honce : Q → doFree = true → Once F pos) :
    Holds (fun s => (Tabled True Q ∅ F root s ∧ TableAt s.mem root 0 (pos / 512) c) ∧ s.layout = l)
      (unmapPte c (pos % 512) doFree)
      (fun _ s => (F pos ≠ none ∧ Tabled True Q ∅ (update F pos none) root s) ∧ s.layout = l)
      (fun _ _ => Stuck l F doFree pos) := by
  rintro s ⟨⟨hs, hc⟩, rfl⟩
  have hentry := hs.entry hpos hc
  unfold unmapPte readPte
  rw [bind_of_ok (gets_apply _ s)]
  generalize s.mem c (pos % 512) = pte at hentry ⊢
  by_cases hv : pte &&& PTE_V = 0
  · rw [if_pos hv] at hentry ⊢
    intro _ hF
    rw [hentry] at hF
    cases hF
  · rw [if_neg hv] at hentry ⊢
    by_cases hflags : PTE_FLAGS pte = PTE_V
    · rw [if_pos hflags]
      intro _ hF
      rw [hentry] at hF
      cases hF
      exact .inl hflags
    · rw [if_neg hflags]
      have hsome : F pos ≠ none := by
        rw [hentry]
        exact nofun
      cases doFree with
      | false =>
        refine ⟨⟨hsome, ?_⟩, rfl⟩
        have hwrite := hs.write hpos hc (v := 0) fun _ hv => absurd (Nat.zero_and PTE_V) hv
        rwa [if_pos (Nat.zero_and PTE_V)] at hwrite
      | true =>
        by_cases hram : s.layout.Contains (PTE2PA pte)
        · have hfree : kfree (PTE2PA pte) s = .ok () (s.push (PTE2PA pte)) := by
            rw [kfree_apply, if_pos hram]
          rw [if_pos rfl, bind_of_ok hfree]
          exact ⟨⟨hsome, hs.push hpos hentry hram hc fun hq => honce hq rfl⟩, rfl⟩
        · have hfault : kfree (PTE2PA pte) s = .fault .kfree s := by
            rw [kfree_apply, if_neg hram]
          rw [if_pos rfl, bind_of_fault hfault]
          intro _ hF
          rw [hentry] at hF
          cases hF
          exact .inr ⟨rfl, hram⟩

/-- `n` pages from `pos` on are no longer mapped. -/
def unmapped (F : ℕ → Option ℕ) (pos n : ℕ) : ℕ → Option ℕ := spread F pos n fun _ => none

theorem uvmunmapFrom_tabled (n : ℕ) : ∀ (F : ℕ → Option ℕ) (pos : ℕ), pos + n ≤ 2 ^ 26 →
    (Q → doFree = true → ∀ k, k < n → Once F (pos + k)) →
    Holds (fun s => Tabled True Q ∅ F root s ∧ s.layout = l) (uvmunmapFrom root doFree n (pos * PGSIZE))
      (fun _ s => (∀ k, k < n → F (pos + k) ≠ none) ∧ Tabled True Q ∅ (unmapped F pos n) root s)
      (fun _ _ => ∃ k, k < n ∧ Stuck l F doFree (pos + k)) := by
  induction n with
  | zero =>
    intro F pos _ _
    refine holds_pure fun s hs => ⟨fun k hk => absurd hk (Nat.not_lt_zero k), ?_⟩
    rw [unmapped, spread_zero]
    exact hs.1
  | succ n ih =>
    intro F pos hpos honce s hs
    unfold uvmunmapFrom
    have hlt : pos < 2 ^ 26 := by omega
    obtain ⟨r, hr, hplace⟩ := walk_place (pos_va hlt) s root
    rw [bind_of_ok hr]
    rw [page_div, page_PX] at hplace
    cases r with
    | none =>
      refine ⟨0, by omega, fun pte hF => ?_⟩
      rw [Nat.add_zero, ← hs.1.binds pos hlt] at hF
      obtain ⟨c, hc, -⟩ := (leaf_iff (pos_va hlt)).mp hF
      rw [page_div] at hc
      exact nomatch (hplace c (pos % 512)).mpr ⟨hc, rfl⟩
    | some cj =>
      obtain ⟨hc, hj⟩ := (hplace cj.1 cj.2).mp rfl
      dsimp only
      rw [hj, ← Nat.succ_mul]
      have hfirst := @unmapPte_tabled root cj.1 Q F pos doFree l hlt fun hq hf => honce hq hf 0 (by omega)
      refine holds_bind (holds_faults hfirst fun _ _ hstuck => ⟨0, by omega, hstuck⟩) (fun _ => ?_) s ⟨⟨hs.1, hc⟩, hs.2⟩
      refine holds_assume (c := F pos ≠ none) (fun t ht => ht.1.1) fun hsome => ?_
      refine holds_faults (holds_conseq (ih (update F pos none) (pos + 1) (by omega) fun hq hf k hk => ?_)
        (fun t ht => ⟨ht.1.2, ht.2⟩) fun _ t ht => ⟨fun k hk => ?_, ?_⟩) ?_
      · intro pte hF i pte' hi hF' heq
        rw [show pos + 1 + k = pos + (k + 1) by omega] at hF ⊢
        exact honce hq hf (k + 1) (by omega) pte (unbound hF).2 i pte' hi (unbound hF').2 heq
      · cases k with
        | zero => exact hsome
        | succ k =>
          have hne := ht.1 k (by omega)
          rwa [update_of_ne (by omega), show pos + 1 + k = pos + (k + 1) by omega] at hne
      · rw [unmapped, ← spread_succ]
        exact ht.2
      · rintro - - ⟨k, hk, hstuck⟩
        refine ⟨k + 1, by omega, fun pte hF => hstuck pte ?_⟩
        rwa [update_of_ne (by omega), show pos + 1 + k = pos + (k + 1) by omega]

end Tabled

/-! ### The partial map -/

theorem pos_lt (hva : va < MAXVA) : va / PGSIZE < 2 ^ 26 := Nat.div_lt_of_lt_mul (by norm_num at hva ⊢; exact hva)

/-- The entries of all virtual pages. -/
def State.leaves (s : State) (root : ℕ) : ℕ → Option ℕ := fun pos => s.leaf root (pos * PGSIZE)

theorem leaf_leaves (s : State) (root va : ℕ) : s.leaf root va = s.leaves root (va / PGSIZE) :=
  leaf_va (page_div (va / PGSIZE)).symm s root

variable {K Q : Prop} {A : Set ℕ} {F : ℕ → Option ℕ} {p : Slot} {size page perm n : ℕ}

theorem WellFormed.tabled (h : WellFormed s root) (hA : ∀ x ∈ A, s.Apart root x) :
    Tabled K True A (s.leaves root) root s where
  distinct := h.distinct
  binds _ _ := rfl
  aside x hx := (hA x hx).1
  data _ pos pte _ hleaf level pref hat := h.data _ pte hleaf level pref _ hat rfl
  free _ := by
    obtain ⟨L, hspell, hnodup, hL⟩ := h.free
    refine ⟨L, hspell, hnodup, fun x hx => ⟨(hL x hx).1, (hL x hx).2.1, fun hin => ?_, fun _ pos pte _ hleaf => ?_⟩⟩
    · exact (hA x hin).2 ((Chain.listed_iff_mem hspell).mpr hx)
    · exact (hL x hx).2.2 _ pte hleaf

theorem WellFormed.plain (h : WellFormed s root) : Tabled K True ∅ (s.leaves root) root s :=
  h.tabled fun _ hx => hx.elim

theorem Tabled.forget (h : Tabled K Q A F root s) : Tabled K False A F root s :=
  { h with free := False.elim }

theorem Tabled.wellFormed (h : Tabled True True A F root s) : WellFormed s root := by
  have hF {va pte : ℕ} (hleaf : s.leaf root va = some pte) : va / PGSIZE < 2 ^ 26 ∧ F (va / PGSIZE) = some pte := by
    have hlt := pos_lt (leaf_below hleaf)
    rw [leaf_leaves, State.leaves, h.binds _ hlt] at hleaf
    exact ⟨hlt, hleaf⟩
  refine ⟨h.distinct, fun va pte hleaf level pref x hat heq => ?_, ?_⟩
  · obtain ⟨hlt, hleaf⟩ := hF hleaf
    exact h.data trivial _ pte hlt hleaf level pref (heq ▸ hat)
  · obtain ⟨L, hspell, hnodup, hL⟩ := h.free trivial
    refine ⟨L, hspell, hnodup, fun x hx => ⟨(hL x hx).ram, (hL x hx).table, fun va pte hleaf => ?_⟩⟩
    obtain ⟨hlt, hleaf⟩ := hF hleaf
    exact (hL x hx).data trivial _ pte hlt hleaf

/-- The page tables of processes. -/
theorem Mapped.wellFormed {M : PageMap} {a : Owner} {g : Pages} {m : Machine} (hall : Mapped True M g m.proc)
    (h : Inv True ∅ M a g m.vm) (hp : (m.proc p).pagetable ≠ 0) : WellFormed m.vm (m.proc p).pagetable := by
  have hroot := (hall.space hp).root
  have hpage {va pte : ℕ} (hleaf : m.vm.leaf (m.proc p).pagetable va = some pte) : (g (PTE2PA pte)).Plain := by
    have hat : m.vm.pageAt (m.proc p).pagetable va = some (PTE2PA pte) := by rw [State.pageAt, hleaf, Option.map_some]
    rcases (hall.space hp).page_status h (leaf_below hleaf) hat with ⟨_, hg⟩ | ⟨_, hg⟩ | ⟨_, hg⟩ <;> rw [hg]
    all_goals exact ⟨nofun, nofun⟩
  refine ⟨fun level level' pref pref' t ht ht' => ?_, fun va pte hleaf level pref t ht heq => ?_, ?_⟩
  · have heq := (h.tableAt hroot ht).symm.trans (h.tableAt hroot ht')
    injection heq with _ heq
    injection heq with _ hlevel hpref
    exact ⟨hlevel, hpref⟩
  · exact (hpage hleaf).2 _ _ _ _ (heq ▸ h.tableAt hroot ht)
  · obtain ⟨L, hspell, hnodup, hL⟩ := h.list
    refine ⟨L, hspell, hnodup, fun x hx => ?_⟩
    have hfree := (hL x).mp hx
    refine ⟨h.contains (by rw [hfree]; nofun), fun level pref hat => ?_, fun va pte hleaf heq => ?_⟩
    · rw [h.tableAt hroot hat] at hfree
      cases hfree
    · exact (hpage hleaf).1 (heq ▸ hfree)

theorem wellFormed_kernelRun {l : Layout} {mem : ℕ → PageData} {es : List (KernelOp × List Bool)} {k : SpaceRun}
    (h : SpaceRun.kernelRun l mem es = some k) (hp : (k.machine.proc p).pagetable ≠ 0) :
    WellFormed k.machine.vm (k.machine.proc p).pagetable := by
  obtain ⟨-, M, g, ⟨a, hinv⟩, hall⟩ := tidy_kernelRun h
  exact hall.wellFormed hinv hp

/-- The loop of `mappages` from the page of `va` to that of the last address. -/
theorem mappages_eq (hsize : 0 < size) (hend : va + size ≤ MAXVA) : ∃ m,
    m = (va + size - 1) / PGSIZE - va / PGSIZE ∧ va / PGSIZE + m = (va + size - 1) / PGSIZE ∧ va / PGSIZE + m < 2 ^ 26 ∧
      mappages root va size page perm =
        mappagesFrom root ((va / PGSIZE + m) * PGSIZE) perm (MAXVA / PGSIZE + 1) (va / PGSIZE * PGSIZE) page := by
  have hle : va / PGSIZE ≤ (va + size - 1) / PGSIZE := Nat.div_le_div_right (by omega)
  have hlt : (va + size - 1) / PGSIZE < 2 ^ 26 := pos_lt (by omega)
  have hadd : va / PGSIZE + ((va + size - 1) / PGSIZE - va / PGSIZE) = (va + size - 1) / PGSIZE := by omega
  refine ⟨_, rfl, hadd, by rwa [hadd], ?_⟩
  have hword : uint64 ((va : ℤ) + size - 1) = va + size - 1 := by
    rw [show MAXVA = 2 ^ 38 by norm_num] at hend
    unfold uint64
    omega
  unfold mappages PGROUNDDOWN
  rw [if_neg (by omega), hword, hadd]

/-- What the loop leaves, whether or not the pages may be handed out. -/
theorem mappages_maps (hsize : 0 < size) (hend : va + size ≤ MAXVA)
    (hpage : page < 2 ^ 44) (hperm : perm < 2 ^ 10) (hfree : ∀ a, Meets va size a → s.leaf root a = none)
    (hA : K → ∀ k, va / PGSIZE + k ≤ (va + size - 1) / PGSIZE → page + k ∈ A) (h : Tabled K True A (s.leaves root) root s) :
    ∃ r t, mappages root va size page perm s = .ok r t ∧ MapsTo K True A
      (mapped (s.leaves root) (va / PGSIZE) page perm ((va + size - 1) / PGSIZE - va / PGSIZE + 1)) root r t := by
  obtain ⟨m, hm, hlast, hlt, heq⟩ := @mappages_eq root va size page perm hsize hend
  have hcount : m < 2 ^ 26 := lt_of_le_of_lt (Nat.le_add_left m _) hlt
  have hfuel : m < MAXVA / PGSIZE + 1 := lt_trans hcount (by norm_num)
  rw [heq, ← hm]
  refine (mappagesFrom_tabled trivial hperm m (s.leaves root) (va / PGSIZE) page (MAXVA / PGSIZE + 1)
    hfuel hlt (by omega) (fun k hk => ?_) fun hK k hk => hA hK k (by omega)).returns (fun _ _ => id) h
  refine hfree _ ⟨?_, ?_⟩ <;> rw [page_div] <;> omega

theorem meets_mapped (va size : ℕ) (hsize : 0 < size) (a : ℕ) : Meets va size a ↔
    va / PGSIZE ≤ a / PGSIZE ∧ a / PGSIZE < va / PGSIZE + ((va + size - 1) / PGSIZE - va / PGSIZE + 1) := by
  have hle : va / PGSIZE ≤ (va + size - 1) / PGSIZE := Nat.div_le_div_right (by omega)
  unfold Meets
  omega

theorem MapsTo.mapsRange (hsize : 0 < size) (hpage : page < 2 ^ 44) (hperm : perm < 2 ^ 10)
    (h : MapsTo K True A (mapped (s.leaves root) (va / PGSIZE) page perm ((va + size - 1) / PGSIZE - va / PGSIZE + 1)) root true t) :
    MapsRange s t root va size page perm := by
  obtain ⟨F, ht, hF⟩ := h
  rw [hF rfl] at ht
  intro a ha
  have hleaf := ht.binds _ (pos_lt ha)
  change t.leaves root (a / PGSIZE) = _ at hleaf
  rw [← leaf_leaves] at hleaf
  unfold mapped spread at hleaf
  by_cases hmeets : Meets va size a
  · rw [if_pos hmeets]
    rw [if_pos ((meets_mapped va size hsize a).mp hmeets)] at hleaf
    have hlt : page + (a / PGSIZE - va / PGSIZE) < 2 ^ 52 := by
      have := lt_of_le_of_lt (Nat.sub_le (a / PGSIZE) (va / PGSIZE)) (pos_lt ha)
      omega
    exact ⟨_, hleaf, pte_page hlt hperm, pte_flags _ hperm⟩
  · rw [if_neg hmeets, hleaf, if_neg (mt (meets_mapped va size hsize a).mpr hmeets), leaf_leaves s]

theorem uvmunmap_eq {doFree : Bool} (hal : va % PGSIZE = 0) (hend : va + n * PGSIZE ≤ MAXVA) :
    va = va / PGSIZE * PGSIZE ∧ va / PGSIZE + n ≤ 2 ^ 26 ∧
      uvmunmap root va n doFree = uvmunmapFrom root doFree n (va / PGSIZE * PGSIZE) := by
  have hva : va = va / PGSIZE * PGSIZE := (Nat.div_mul_cancel (Nat.dvd_of_mod_eq_zero hal)).symm
  refine ⟨hva, ?_, ?_⟩
  · have hle := Nat.div_le_div_right (c := PGSIZE) hend
    rwa [page_index, show MAXVA / PGSIZE = 2 ^ 26 by norm_num] at hle
  · unfold uvmunmap
    rw [if_neg (not_ne_iff.mpr hal), pagesFrom_count (lt_of_le_of_lt hend (by norm_num)), ← hva]

theorem unmaps_range (hva : va = va / PGSIZE * PGSIZE)  (hthere : ∀ k, k < n → s.leaves root (va / PGSIZE + k) ≠ none)
    (ht : Tabled True Q ∅ (unmapped (s.leaves root) (va / PGSIZE) n) root t) : UnmapsRange s t root va n := by
  intro a ha
  have hleaf := ht.binds _ (pos_lt ha)
  change t.leaves root (a / PGSIZE) = _ at hleaf
  rw [← leaf_leaves] at hleaf
  unfold unmapped spread at hleaf
  have hin : (va ≤ a ∧ a < va + n * PGSIZE) ↔ va / PGSIZE ≤ a / PGSIZE ∧ a / PGSIZE < va / PGSIZE + n := by
    rw [Nat.le_div_iff_mul_le (by decide), ← hva, Nat.div_lt_iff_lt_mul (by decide), Nat.add_mul, ← hva]
  by_cases hmem : va ≤ a ∧ a < va + n * PGSIZE
  · rw [if_pos (hin.mp hmem)] at hleaf
    rw [if_pos hmem]
    refine ⟨?_, hleaf⟩
    have hne := hthere (a / PGSIZE - va / PGSIZE) (by have := hin.mp hmem; omega)
    rwa [Nat.add_sub_cancel' (hin.mp hmem).1, ← leaf_leaves] at hne
  · rw [if_neg (mt hin.mpr hmem)] at hleaf
    rw [if_neg hmem, hleaf, leaf_leaves s]

/-- The page table of a well-formed tree is a partial map, and `mappages` and `uvmunmap` are its updates. -/
theorem table_refines_map (s : State) (root : ℕ) (h : WellFormed s root) :
    (∀ va size page perm, 0 < size → va + size ≤ MAXVA → page < 2 ^ 44 → perm < 2 ^ 10 →
      (∀ a, Meets va size a → s.leaf root a = none) →
      ∃ r t, mappages root va size page perm s = .ok r t ∧ (r = true → MapsRange s t root va size page perm) ∧
        TablesDistinct t.mem root ∧
        ((∀ k, va / PGSIZE + k ≤ (va + size - 1) / PGSIZE → s.Apart root (page + k)) → WellFormed t root)) ∧
    ∀ va n doFree, va + n * PGSIZE ≤ MAXVA →
      (va % PGSIZE = 0 →
        (∀ k, k < n → ∃ pte, s.leaf root (va + k * PGSIZE) = some pte ∧ PTE_FLAGS pte ≠ PTE_V ∧
          (doFree = true → s.layout.Contains (PTE2PA pte))) →
        ∃ t, uvmunmap root va n doFree s = .ok () t) ∧
      ∀ t, uvmunmap root va n doFree s = .ok () t → UnmapsRange s t root va n ∧ TablesDistinct t.mem root ∧
        ((doFree = true → ∀ k, k < n → s.MappedOnce root (va + k * PGSIZE)) → WellFormed t root) := by
  refine ⟨fun va size page perm hsize hend hpage hperm hfree => ?_, fun va n doFree hend => ⟨fun hal hall => ?_, fun t ht => ?_⟩⟩
  · obtain ⟨r, t, hrun, hmaps⟩ := mappages_maps hsize hend hpage hperm hfree False.elim h.plain
    refine ⟨r, t, hrun, fun hr => ?_, hmaps.choose_spec.1.distinct, fun hapart => ?_⟩
    · subst hr
      exact hmaps.mapsRange hsize hpage hperm
    · -- the same run, with the pages to be mapped kept aside
      let A : Set ℕ := {x | ∃ k, va / PGSIZE + k ≤ (va + size - 1) / PGSIZE ∧ x = page + k}
      have haside : Tabled True True A (s.leaves root) root s := by
        refine h.tabled ?_
        rintro x ⟨k, hk, rfl⟩
        exact hapart k hk
      obtain ⟨r', t', hrun', F, hF, -⟩ := mappages_maps hsize hend hpage hperm hfree
        (fun _ k hk => show page + k ∈ A from ⟨k, hk, rfl⟩) haside
      rw [hrun] at hrun'
      cases hrun'
      exact hF.wellFormed
  · obtain ⟨hva, hlt, heq⟩ := @uvmunmap_eq root va n doFree hal hend
    have hspec := @uvmunmapFrom_tabled root False doFree s.layout n (s.leaves root) (va / PGSIZE) hlt False.elim s
      ⟨h.plain.forget, rfl⟩
    rw [heq]
    cases hrun : uvmunmapFrom root doFree n (va / PGSIZE * PGSIZE) s with
    | ok u t => exact ⟨t, rfl⟩
    | fault e t =>
      rw [hrun] at hspec
      obtain ⟨k, hk, hstuck⟩ := hspec
      obtain ⟨pte, hpte, hflags, hram⟩ := hall k hk
      rw [leaf_leaves, page_index] at hpte
      rcases hstuck pte hpte with hbad | ⟨hfree, hbad⟩
      · exact absurd hbad hflags
      · exact absurd (hram hfree) hbad
  · have hal : va % PGSIZE = 0 := by
      by_contra hal
      unfold uvmunmap at ht
      rw [if_pos hal] at ht
      cases ht
    obtain ⟨hva, hlt, heq⟩ := @uvmunmap_eq root va n doFree hal hend
    rw [heq] at ht
    have hspec := (@uvmunmapFrom_tabled root False doFree s.layout n (s.leaves root) (va / PGSIZE) hlt False.elim).ok
      ⟨h.plain.forget, rfl⟩ ht
    refine ⟨unmaps_range hva hspec.1 hspec.2, hspec.2.distinct, fun honce => ?_⟩
    have hkept := (@uvmunmapFrom_tabled root True doFree s.layout n (s.leaves root) (va / PGSIZE) hlt
      fun _ hfree k hk pte hF i pte' hi hF' hsame => ?_).ok ⟨h.plain, rfl⟩ ht
    · exact hkept.2.wellFormed
    · rw [← page_index, ← leaf_leaves] at hF
      have hpage := honce hfree k hk pte hF (i * PGSIZE) pte' hF' hsame
      rwa [page_div, page_index] at hpage

/-- Ten bytes across a page boundary behind the heap of a process. -/
theorem table_refines_map_grown : ∃ k, SpaceRun.kernelRun smallKernel (fun _ _ => 0) grown = some k ∧
    ∃ r t, mappages (k.machine.proc 0).pagetable 20475 10 7 PTE_R k.machine.vm = .ok r t ∧
      (r = true → MapsRange k.machine.vm t (k.machine.proc 0).pagetable 20475 10 7 PTE_R) := by
  have hrun : (SpaceRun.kernelRun smallKernel (fun _ _ => 0) grown).map (fun k =>
      (decide ((k.machine.proc 0).pagetable ≠ 0), k.machine.vm.leaf (k.machine.proc 0).pagetable (4 * PGSIZE),
        k.machine.vm.leaf (k.machine.proc 0).pagetable (5 * PGSIZE))) = some (true, none, none) := by
    rw [SpaceRun.kernelRun, boot_eq]
    decide +kernel
  obtain ⟨k, hk, hfacts⟩ := Option.map_eq_some_iff.mp hrun
  obtain ⟨hp, hfour, hfive⟩ : decide ((k.machine.proc 0).pagetable ≠ 0) = true ∧
      k.machine.vm.leaf (k.machine.proc 0).pagetable (4 * PGSIZE) = none ∧
      k.machine.vm.leaf (k.machine.proc 0).pagetable (5 * PGSIZE) = none := by
    simpa only [Prod.mk.injEq] using hfacts
  refine ⟨k, hk, ?_⟩
  obtain ⟨r, t, hmap, hrange, -⟩ := (table_refines_map _ _ (wellFormed_kernelRun hk (of_decide_eq_true hp))).1 20475 10 7 PTE_R
    (by decide) (by decide) (by decide) (by decide) fun a ha => by
      rw [leaf_leaves]
      obtain ⟨hge, hle⟩ := ha
      have hpage : a / PGSIZE = 4 ∨ a / PGSIZE = 5 := by
        rw [show 20475 / PGSIZE = 4 by decide] at hge
        rw [show (20475 + 10 - 1) / PGSIZE = 5 by decide] at hle
        omega
      rcases hpage with h | h <;> rw [h]
      · exact hfour
      · exact hfive
  exact ⟨r, t, hmap, hrange⟩

end Xv6.Vm
