import Xv6.Proofs.UserCopies

/-! The places of page-table pages. A store to a table page changes either the tree, by hanging a fresh page at an empty entry of
an upper table, or one binding, by writing an entry of a lowest table; what is mapped elsewhere and the places of the other
pages stay. -/

namespace Xv6.Vm

open Prog Function

variable {s t : State} {mem mem' : ℕ → PageData} {root level pref x y c i j v va : ℕ}

/-! ### Places -/

theorem TableAt.level_le (h : TableAt mem root level pref x) : level ≤ 2 := by
  induction h with
  | root => exact le_rfl
  | next _ _ _ ih => omega

theorem TableAt.unique (h : TableAt mem root level pref x) : ∀ y, TableAt mem root level pref y → x = y := by
  induction h with
  | root =>
    intro y hy
    generalize hl : 2 = l at hy
    generalize hp : 0 = p at hy
    cases hy with
    | root => rfl
    | next ht =>
      have := ht.level_le
      omega
  | @next level pref t i ht hi hv ih =>
    intro y hy
    generalize hp : pref * 512 + i = p at hy
    cases hy with
    | root =>
      have := ht.level_le
      omega
    | @next _ pref' t' i' ht' hi' hv' =>
      obtain rfl : pref = pref' := by omega
      obtain rfl : i = i' := by omega
      rw [ih t' ht']

/-- Upper tables that have not changed. -/
theorem TableAt.congr_upper (hmem : ∀ level pref x, TableAt mem root (level + 1) pref x → mem' x = mem x) :
    TableAt mem' root level pref x ↔ TableAt mem root level pref x := by
  constructor
  · intro h
    induction h with
    | root => exact .root
    | next ht hi hv ih =>
      rw [hmem _ _ _ ih] at hv ⊢
      exact .next ih hi hv
  · intro h
    induction h with
    | root => exact .root
    | @next level pref t i ht hi hv ih =>
      rw [← hmem _ _ _ ht] at hv ⊢
      exact .next ih hi hv

theorem TableAt.congr (hmem : ∀ level pref x, TableAt mem root level pref x → mem' x = mem x) :
    TableAt mem' root level pref x ↔ TableAt mem root level pref x := congr_upper fun _ => hmem _

theorem setPage_tables (h : ∀ level pref, ¬TableAt mem root level pref y) (d : PageData) (level pref x : ℕ)
    (hx : TableAt mem root level pref x) : setPage mem y d x = mem x :=
  if_neg fun heq : x = y => h level pref (heq ▸ hx)

/-! ### The entry of a virtual page -/

theorem pref_step (V level : ℕ) : V / 512 ^ (level + 2) * 512 + V / 512 ^ (level + 1) % 512 = V / 512 ^ (level + 1) := by
  rw [show level + 2 = level + 1 + 1 from rfl, pow_succ 512 (level + 1), ← Nat.div_div_eq_div_mul, Nat.div_add_mod']

/-- The tables on the way to a lowest table. -/
theorem TableAt.above (V : ℕ) (hc : TableAt mem root 0 (V / 512) c) (hk : level ≤ 1) :
    ∃ x, TableAt mem root (level + 1) (V / 512 ^ (level + 2)) x ∧ mem x (V / 512 ^ (level + 1) % 512) &&& PTE_V ≠ 0 := by
  have hup : ∀ k x, TableAt mem root k (V / 512 ^ (k + 1)) x → k ≤ 1 →
      ∃ x, TableAt mem root (k + 1) (V / 512 ^ (k + 2)) x ∧ mem x (V / 512 ^ (k + 1) % 512) &&& PTE_V ≠ 0 := by
    intro k x hx hk
    have hstep := pref_step V k
    generalize V / 512 ^ (k + 1) = p at hx hstep
    cases hx with
    | root => omega
    | @next _ pref t i ht hi hv =>
      have hpref : V / 512 ^ (k + 2) = pref := by omega
      have hidx : (pref * 512 + i) % 512 = i := by omega
      rw [hpref, hidx]
      exact ⟨t, ht, hv⟩
  have hfirst := hup 0 c (by simpa using hc) (by omega)
  interval_cases level
  · exact hfirst
  · obtain ⟨x, hx, -⟩ := hfirst
    exact hup 1 x hx le_rfl

theorem walkFrom_place (va level x : ℕ) (hx : TableAt s.mem root level (va / PGSIZE / 512 ^ (level + 1)) x) :
    ∃ r, walkFrom va false level x s = .ok r s ∧
      ∀ c j, r = some (c, j) ↔ TableAt s.mem root 0 (va / PGSIZE / 512) c ∧ j = PX 0 va := by
  induction level generalizing x with
  | zero =>
    refine ⟨_, rfl, fun c j => ⟨fun h => ?_, ?_⟩⟩
    · cases h
      exact ⟨by simpa using hx, rfl⟩
    · rintro ⟨hc, hj⟩
      rw [(show TableAt s.mem root 0 (va / PGSIZE / 512) x by simpa using hx).unique c hc, hj]
  | succ level ih =>
    unfold walkFrom readPte
    rw [bind_of_ok (gets_apply _ s)]
    by_cases hv : s.mem x (PX (level + 1) va) &&& PTE_V ≠ 0
    · rw [if_pos hv]
      refine ih _ ?_
      have hnext := hx.next (PX_lt (level + 1) va) hv
      rwa [PX, pref_step] at hnext
    · rw [if_neg hv]
      refine ⟨none, rfl, fun c j => iff_of_false (by simp) ?_⟩
      rintro ⟨hc, -⟩
      refine hv ?_
      have hle := hx.level_le
      obtain ⟨x', hx', hv'⟩ := TableAt.above (va / PGSIZE) hc (show level ≤ 1 by omega)
      rwa [hx.unique x' hx']

theorem top_pref (hva : va < MAXVA) : va / PGSIZE / 512 ^ 3 = 0 := by
  unfold MAXVA at hva
  unfold PGSIZE
  omega

/-- What `walk` finds without allocating. -/
theorem walk_place (hva : va < MAXVA) (s : State) (root : ℕ) : ∃ r, walk root va false s = .ok r s ∧
    ∀ c j, r = some (c, j) ↔ TableAt s.mem root 0 (va / PGSIZE / 512) c ∧ j = PX 0 va := by
  unfold walk
  rw [if_neg (not_le.mpr hva)]
  exact walkFrom_place va 2 root (by rw [top_pref hva]; exact .root)

theorem leaf_iff (hva : va < MAXVA) {pte : ℕ} : s.leaf root va = some pte ↔
    ∃ c, TableAt s.mem root 0 (va / PGSIZE / 512) c ∧ s.mem c (PX 0 va) = pte ∧ pte &&& PTE_V ≠ 0 := by
  obtain ⟨r, hr, hplace⟩ := walk_place hva s root
  unfold State.leaf leafPte
  rw [bind_of_ok hr]
  cases r with
  | none =>
    refine iff_of_false nofun ?_
    rintro ⟨c, hc, -⟩
    exact nomatch (hplace c _).mpr ⟨hc, rfl⟩
  | some cj =>
    obtain ⟨hc, hj⟩ := (hplace cj.1 cj.2).mp rfl
    dsimp only
    unfold readPte
    rw [bind_of_ok (gets_apply _ s), pure_apply, hj]
    dsimp only
    constructor
    · intro h
      split_ifs at h with hv
      cases h
      exact ⟨cj.1, hc, rfl, hv⟩
    · rintro ⟨c, hc', rfl, hv⟩
      rw [hc.unique c hc', if_neg hv]

/-- The entry of a virtual page in the table it belongs to. -/
theorem leaf_at (hc : TableAt s.mem root 0 pref c) (hj : j < 512) (hpos : pref * 512 + j < 2 ^ 26) (hentry : s.mem c j = v) :
    s.leaf root ((pref * 512 + j) * PGSIZE) = if v &&& PTE_V = 0 then none else some v := by
  subst hentry
  have hquot : (pref * 512 + j) / 512 = pref := by omega
  have hrem : (pref * 512 + j) % 512 = j := by omega
  have hva : (pref * 512 + j) * PGSIZE < MAXVA := by
    have hlt := Nat.mul_lt_mul_of_pos_right hpos (show 0 < PGSIZE by decide)
    rwa [show 2 ^ 26 * PGSIZE = MAXVA by norm_num] at hlt
  have hpage : (pref * 512 + j) * PGSIZE / PGSIZE = pref * 512 + j := Nat.mul_div_cancel _ (by decide)
  have hpre : (pref * 512 + j) * PGSIZE / PGSIZE / 512 = pref := by rw [hpage, hquot]
  have hidx : PX 0 ((pref * 512 + j) * PGSIZE) = j := by rw [PX, hpage, pow_zero, Nat.div_one, hrem]
  cases hleaf : s.leaf root ((pref * 512 + j) * PGSIZE) with
  | some pte =>
    obtain ⟨c', hc', rfl, hv⟩ := (leaf_iff hva).mp hleaf
    rw [hpre] at hc'
    rw [hidx] at hv ⊢
    rw [hc.unique c' hc', if_neg hv]
  | none =>
    by_cases hv : s.mem c j &&& PTE_V = 0
    · rw [if_pos hv]
    · have hsome : s.leaf root ((pref * 512 + j) * PGSIZE) = some (s.mem c j) :=
        (leaf_iff hva).mpr ⟨c, by rwa [hpre], by rw [hidx], hv⟩
      rw [hleaf] at hsome
      cases hsome

theorem leaf_congr_at (hva : va < MAXVA)
    (h : ∀ c, TableAt s.mem root 0 (va / PGSIZE / 512) c → s.mem c (PX 0 va) &&& PTE_V ≠ 0 →
      TableAt t.mem root 0 (va / PGSIZE / 512) c ∧ t.mem c (PX 0 va) = s.mem c (PX 0 va))
    (h' : ∀ c, TableAt t.mem root 0 (va / PGSIZE / 512) c → t.mem c (PX 0 va) &&& PTE_V ≠ 0 →
      TableAt s.mem root 0 (va / PGSIZE / 512) c ∧ s.mem c (PX 0 va) = t.mem c (PX 0 va)) :
    t.leaf root va = s.leaf root va := by
  refine Option.ext fun pte => ?_
  rw [leaf_iff hva, leaf_iff hva]
  constructor
  · rintro ⟨c, hc, rfl, hv⟩
    obtain ⟨hc', heq⟩ := h' c hc hv
    exact ⟨c, hc', heq, hv⟩
  · rintro ⟨c, hc, rfl, hv⟩
    obtain ⟨hc', heq⟩ := h c hc hv
    exact ⟨c, hc', heq, hv⟩

/-! ### Hanging a page -/

theorem setWord_entry (mem : ℕ → PageData) (x i v z j : ℕ) :
    setPage mem x (setWord i v (mem x)) z j = if z = x ∧ j = i then v else mem z j := by
  unfold setPage setWord
  by_cases hz : z = x
  · subst hz
    simp
  · simp [hz]

/-- Writing an empty entry keeps every place. -/
theorem TableAt.grow (hempty : mem x i &&& PTE_V = 0) {l p z : ℕ} (h : TableAt mem root l p z) :
    TableAt (setPage mem x (setWord i v (mem x))) root l p z := by
  induction h with
  | root => exact .root
  | @next l p z j hz hj hv ih =>
    have hsame : setPage mem x (setWord i v (mem x)) z j = mem z j := by
      rw [setWord_entry, if_neg]
      rintro ⟨rfl, rfl⟩
      exact hv hempty
    rw [← hsame] at hv ⊢
    exact .next ih hj hv

/-- A page without valid entries that is hung there gets its place, and no other page another one. -/
theorem tableAt_hang (hdist : TablesDistinct mem root) (hx : TableAt mem root (level + 1) pref x) (hi : i < 512)
    (hempty : mem x i &&& PTE_V = 0) (hy : y ≠ x) (hbare : ∀ j, mem y j &&& PTE_V = 0) (hpage : PTE2PA v = y)
    (hvalid : v &&& PTE_V ≠ 0) {l p z : ℕ} : TableAt (setPage mem x (setWord i v (mem x))) root l p z ↔
      TableAt mem root l p z ∨ l = level ∧ p = pref * 512 + i ∧ z = y := by
  constructor
  · intro h
    induction h with
    | root => exact .inl .root
    | @next l p z j hz hj hv ih =>
      rcases ih with hz' | ⟨-, -, rfl⟩
      · by_cases hzx : z = x ∧ j = i
        · obtain ⟨rfl, rfl⟩ := hzx
          obtain ⟨hl, rfl⟩ := hdist _ _ _ _ _ hz' hx
          rw [setWord_entry, if_pos ⟨rfl, rfl⟩, hpage]
          exact .inr ⟨by omega, rfl, rfl⟩
        · rw [setWord_entry, if_neg hzx] at hv ⊢
          exact .inl (.next hz' hj hv)
      · -- the new page has no entries
        rw [setWord_entry, if_neg (fun h => hy h.1)] at hv
        exact absurd (hbare j) hv
  · rintro (h | ⟨rfl, rfl, rfl⟩)
    · exact h.grow hempty
    · have hentry : setPage mem x (setWord i v (mem x)) x i = v := by rw [setWord_entry, if_pos ⟨rfl, rfl⟩]
      have hnext := (TableAt.grow (v := v) hempty hx).next hi (by rwa [hentry])
      rwa [hentry, hpage] at hnext

/-- Writing an entry of a lowest table changes no place. -/
theorem tableAt_store (hdist : TablesDistinct mem root) (hc : TableAt mem root 0 pref c) {l p z : ℕ} :
    TableAt (setPage mem c (setWord j v (mem c))) root l p z ↔ TableAt mem root l p z := by
  refine TableAt.congr_upper fun l p z hz => funext fun k => ?_
  rw [setWord_entry, if_neg]
  rintro ⟨rfl, -⟩
  exact absurd (hdist _ _ _ _ _ hz hc).1 (Nat.succ_ne_zero l)

/-! ### The state of the tables -/

/-- A page of RAM that is no table, not in `A` and, where `K` is known, not mapped. -/
structure Spare (K : Prop) (A : Set ℕ) (F : ℕ → Option ℕ) (root : ℕ) (s : State) (x : ℕ) : Prop where
  ram : s.layout.Contains x
  table : ∀ level pref, ¬TableAt s.mem root level pref x
  aside : x ∉ A
  data : K → ∀ pos pte, pos < 2 ^ 26 → F pos = some pte → PTE2PA pte ≠ x

/-- `F` gives the entry of every virtual page. The pages in `A` are neither tables nor free. Where `K` is known data pages are no
tables, and where `Q` is known the free list is in order. -/
structure Tabled (K Q : Prop) (A : Set ℕ) (F : ℕ → Option ℕ) (root : ℕ) (s : State) : Prop where
  distinct : TablesDistinct s.mem root
  binds : ∀ pos, pos < 2 ^ 26 → s.leaf root (pos * PGSIZE) = F pos
  aside : ∀ x ∈ A, ∀ level pref, ¬TableAt s.mem root level pref x
  data : K → ∀ pos pte, pos < 2 ^ 26 → F pos = some pte → ∀ level pref, ¬TableAt s.mem root level pref (PTE2PA pte)
  free : Q → ∃ L, Chain.Spells (next s.mem) s.freelist L ∧ L.Nodup ∧ ∀ x ∈ L, Spare K A F root s x

section Tabled

variable {K Q : Prop} {A : Set ℕ} {F : ℕ → Option ℕ}

theorem pos_va {pos : ℕ} (hpos : pos < 2 ^ 26) : pos * PGSIZE < MAXVA := by
  have hlt := Nat.mul_lt_mul_of_pos_right hpos (show 0 < PGSIZE by decide)
  rwa [show 2 ^ 26 * PGSIZE = MAXVA by norm_num] at hlt

theorem Spare.congr (h : Spare K A F root s x) (hmem : ∀ level pref x, TableAt s.mem root level pref x → t.mem x = s.mem x)
    (hlayout : t.layout = s.layout) : Spare K A F root t x where
  ram := by rw [hlayout]; exact h.ram
  table level pref hat := h.table level pref ((TableAt.congr hmem).mp hat)
  aside := h.aside
  data := h.data

section

variable (h : Tabled K Q A F root s)

include h

/-- The tables are as before. -/
theorem Tabled.congr {Q' : Prop} (hmem : ∀ level pref x, TableAt s.mem root level pref x → t.mem x = s.mem x)
    (hfree : Q' → ∃ L, Chain.Spells (next t.mem) t.freelist L ∧ L.Nodup ∧ ∀ x ∈ L, Spare K A F root t x) :
    Tabled K Q' A F root t where
  distinct := fun l l' p p' x hx hx' => h.distinct l l' p p' x ((TableAt.congr hmem).mp hx) ((TableAt.congr hmem).mp hx')
  binds pos hpos := by
    rw [← h.binds pos hpos]
    exact leaf_tables (fun level x hx => by
      obtain ⟨pref, hpref⟩ := hx.tableAt
      exact hmem level pref x hpref) _
  aside x hx level pref hat := h.aside x hx level pref ((TableAt.congr hmem).mp hat)
  data hk pos pte hpos hF level pref hat := h.data hk pos pte hpos hF level pref ((TableAt.congr hmem).mp hat)
  free := hfree

/-- Stores to a page that is neither a table nor free. -/
theorem Tabled.setPage (htable : ∀ level pref, ¬TableAt s.mem root level pref y)
    (hlist : Q → ¬Chain.Listed (next s.mem) y s.freelist) (d : PageData) :
    Tabled K Q A F root { s with mem := setPage s.mem y d } := by
  have hmem := setPage_tables htable d
  refine h.congr hmem fun hq => ?_
  obtain ⟨L, hspell, hnodup, hL⟩ := h.free hq
  have hnot : y ∉ L := fun hin => hlist hq ((Chain.listed_iff_mem hspell).mpr hin)
  exact ⟨L, spells_setPage hspell hnot d, hnodup, fun x hx => (hL x hx).congr hmem rfl⟩

/-- A page that `kalloc` has handed out and that is not used yet. -/
structure InHand (K : Prop) (A : Set ℕ) (F : ℕ → Option ℕ) (root : ℕ) (s : State) (y : ℕ) : Prop where
  spare : Spare K A F root s y
  listed : ¬Chain.Listed (next s.mem) y s.freelist

theorem Tabled.pop_mem (hq : Q) (hne : s.freelist ≠ 0) (level pref x : ℕ)
    (hx : TableAt s.mem root level pref x) : s.pop.mem x = s.mem x := by
  obtain ⟨L, hspell, -, hL⟩ := h.free hq
  obtain ⟨xs, rfl, -⟩ := hspell.pop hne
  exact setPage_tables (hL s.freelist (by simp)).table _ level pref x hx

theorem Tabled.pop (hq : Q) (hne : s.freelist ≠ 0) :
    Tabled K Q A F root s.pop ∧ InHand K A F root s.pop s.freelist := by
  obtain ⟨L, hspell, hnodup, hL⟩ := h.free hq
  obtain ⟨xs, rfl, hrest⟩ := hspell.pop hne
  obtain ⟨hnot, hnodup'⟩ := List.nodup_cons.mp hnodup
  have hspare := hL s.freelist (by simp)
  have hmem := h.pop_mem hq hne
  have hspell' : Chain.Spells (next s.pop.mem) s.pop.freelist xs := spells_setPage hrest hnot _
  refine ⟨h.congr hmem fun _ => ⟨xs, hspell', hnodup', fun x hx => (hL x (by simp [hx])).congr hmem rfl⟩,
    hspare.congr hmem rfl, ?_⟩
  rwa [Chain.listed_iff_mem hspell']

theorem InHand.setPage (hq : Q) (hy : InHand K A F root s y) (d : PageData) :
    InHand K A F root { s with mem := setPage s.mem y d } y := by
  refine ⟨hy.spare.congr (setPage_tables hy.spare.table d) rfl, ?_⟩
  obtain ⟨L, hspell, -, -⟩ := h.free hq
  have hnot : y ∉ L := by
    rw [← Chain.listed_iff_mem hspell]
    exact hy.listed
  rwa [Chain.listed_iff_mem (spells_setPage hspell hnot d)]

/-- The page becomes a table without entries. -/
theorem Tabled.hang (hy : InHand K A F root s y) (hbare : ∀ j, s.mem y j &&& PTE_V = 0)
    (hx : TableAt s.mem root (level + 1) pref x) (hi : i < 512) (hempty : s.mem x i &&& PTE_V = 0) (hpage : PTE2PA v = y)
    (hvalid : v &&& PTE_V ≠ 0) :
    Tabled K Q A F root { s with mem := Vm.setPage s.mem x (setWord i v (s.mem x)) } := by
  have hne : y ≠ x := by
    rintro rfl
    exact hy.spare.table _ _ hx
  have hhang {l p z : ℕ} : TableAt (Vm.setPage s.mem x (setWord i v (s.mem x))) root l p z ↔
      TableAt s.mem root l p z ∨ l = level ∧ p = pref * 512 + i ∧ z = y :=
    tableAt_hang h.distinct hx hi hempty hne hbare hpage hvalid
  -- a page that was no table before is one now only if it is the new one
  have hother {z : ℕ} (hz : ∀ l p, ¬TableAt s.mem root l p z) (hzy : z ≠ y) (l p : ℕ) :
      ¬TableAt (Vm.setPage s.mem x (setWord i v (s.mem x))) root l p z := by
    rw [hhang]
    rintro (hat | ⟨-, -, heq⟩)
    · exact hz l p hat
    · exact hzy heq
  constructor
  · intro l l' p p' z hz hz'
    rcases hhang.mp hz with hz | ⟨rfl, rfl, rfl⟩ <;> rcases hhang.mp hz' with hz' | ⟨rfl, rfl, heq⟩
    · exact h.distinct l l' p p' z hz hz'
    · exact absurd (heq ▸ hz) (hy.spare.table _ _)
    · exact absurd hz' (hy.spare.table _ _)
    · exact ⟨rfl, rfl⟩
  · intro pos hpos
    rw [← h.binds pos hpos]
    -- the entry written is not in a lowest table
    have hsame (c j : ℕ) (hv : s.mem c j &&& PTE_V ≠ 0) :
        Vm.setPage s.mem x (setWord i v (s.mem x)) c j = s.mem c j := by
      rw [setWord_entry, if_neg]
      rintro ⟨rfl, rfl⟩
      exact hv hempty
    refine leaf_congr_at (pos_va hpos) (fun c hc hv => ⟨hhang.mpr (.inl hc), hsame c _ hv⟩) fun c hc hv => ?_
    rcases hhang.mp hc with hold | ⟨hl, -, rfl⟩
    · have hcx : c ≠ x := by
        rintro rfl
        exact absurd (h.distinct _ _ _ _ _ hold hx).1.symm (Nat.succ_ne_zero level)
      refine ⟨hold, ?_⟩
      dsimp only
      rw [setWord_entry, if_neg fun hand => hcx hand.1]
    · dsimp only at hv
      rw [setWord_entry, if_neg fun hand => hne hand.1] at hv
      exact absurd (hbare _) hv
  · intro z hz
    refine hother (h.aside z hz) ?_
    rintro rfl
    exact hy.spare.aside hz
  · intro hk pos pte hpos hF
    exact hother (h.data hk pos pte hpos hF) (hy.spare.data hk pos pte hpos hF)
  · intro hq
    obtain ⟨L, hspell, hnodup, hL⟩ := h.free hq
    refine ⟨L, spells_setPage hspell (fun hin => (hL x hin).table _ _ hx) _, hnodup,
      fun z hz => ⟨(hL z hz).ram, hother (hL z hz).table ?_, (hL z hz).aside, (hL z hz).data⟩⟩
    rintro rfl
    exact hy.listed ((Chain.listed_iff_mem hspell).mpr hz)

/-- An entry of a lowest table is written. -/
theorem Tabled.store (hc : TableAt s.mem root 0 pref c) (hj : j < 512)
    (hpos : pref * 512 + j < 2 ^ 26) (hv : K → v &&& PTE_V ≠ 0 → PTE2PA v ∈ A) :
    Tabled K Q A (update F (pref * 512 + j) (if v &&& PTE_V = 0 then none else some v)) root
      { s with mem := Vm.setPage s.mem c (setWord j v (s.mem c)) } := by
  have hplace {l p z : ℕ} : TableAt (Vm.setPage s.mem c (setWord j v (s.mem c))) root l p z ↔ TableAt s.mem root l p z :=
    tableAt_store h.distinct hc
  -- what is mapped now was mapped before, or is in `A`
  have hbound {pos pte : ℕ} (hk : K)
      (hF : update F (pref * 512 + j) (if v &&& PTE_V = 0 then none else some v) pos = some pte) :
      F pos = some pte ∨ PTE2PA pte ∈ A := by
    by_cases hp : pos = pref * 512 + j
    · subst hp
      rw [update_self] at hF
      split_ifs at hF with hvalid
      cases hF
      exact .inr (hv hk hvalid)
    · rw [update_of_ne hp] at hF
      exact .inl hF
  constructor
  · intro l l' p p' z hz hz'
    exact h.distinct l l' p p' z (hplace.mp hz) (hplace.mp hz')
  · intro pos hlt
    by_cases hp : pos = pref * 512 + j
    · subst hp
      rw [update_self]
      refine leaf_at (hplace.mpr hc) hj hpos ?_
      dsimp only
      rw [setWord_entry, if_pos ⟨rfl, rfl⟩]
    · rw [update_of_ne hp, ← h.binds pos hlt]
      have hpage : pos * PGSIZE / PGSIZE = pos := Nat.mul_div_cancel _ (by decide)
      have hsame (z : ℕ) (hz : TableAt s.mem root 0 (pos * PGSIZE / PGSIZE / 512) z) :
          Vm.setPage s.mem c (setWord j v (s.mem c)) z (PX 0 (pos * PGSIZE)) = s.mem z (PX 0 (pos * PGSIZE)) := by
        rw [setWord_entry, if_neg]
        rintro ⟨rfl, hidx⟩
        have hpref := (h.distinct _ _ _ _ _ hz hc).2
        rw [hpage] at hpref
        rw [PX, hpage, pow_zero, Nat.div_one] at hidx
        omega
      exact leaf_congr_at (pos_va hlt) (fun z hz _ => ⟨hplace.mpr hz, hsame z hz⟩)
        fun z hz _ => ⟨hplace.mp hz, (hsame z (hplace.mp hz)).symm⟩
  · intro z hz l p hat
    exact h.aside z hz l p (hplace.mp hat)
  · intro hk pos pte hlt hF l p hat
    rcases hbound hk hF with hF | hA
    · exact h.data hk pos pte hlt hF l p (hplace.mp hat)
    · exact h.aside _ hA l p (hplace.mp hat)
  · intro hq
    obtain ⟨L, hspell, hnodup, hL⟩ := h.free hq
    refine ⟨L, spells_setPage hspell (fun hin => (hL c hin).table _ _ hc) _, hnodup, fun z hz => ⟨(hL z hz).ram,
      fun l p hat => (hL z hz).table l p (hplace.mp hat), (hL z hz).aside, fun hk pos pte hlt hF => ?_⟩⟩
    rcases hbound hk hF with hF | hA
    · exact (hL z hz).data hk pos pte hlt hF
    · rintro rfl
      exact (hL _ hz).aside hA

end

end Tabled

end Xv6.Vm
