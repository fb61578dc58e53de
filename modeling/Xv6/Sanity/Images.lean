import Xv6.Sanity.Teardown
import Xv6.Spec.VmProc

/-! Copying through page tables, and the images that `fork` and `exec` build. -/

namespace Xv6.Vm

open Prog Radix

variable {C : Prop} {D : Set (ℕ × ℕ)} {M M' : PageMap} {a o : Owner} {g g₀ g' : Pages} {s : State} {k : ℕ × ℕ}
  {root va page : ℕ}

/-- What keeps every state of memory with the page table `root` in it. -/
theorem keeps_now {α : Type} {x : VmM α}
    (h : ∀ g, g root = .node a (.table root 2 0) → Keeps (Inv C ∅ M a g) x (Faults C)) :
    Keeps (Now C M a root g₀) x (Faults C) :=
  holds_now fun g hwithin hroot => holds_conseq (h g hroot) (fun _ hs => hs) fun _ _ hs => ⟨g, hs, hwithin, hroot⟩

/-! ### copyout, copyin, copyinstr -/

/-- The user may use the address. -/
def UserAt (M : PageMap) (root va : ℕ) : Prop := va < MAXVA ∧ ∃ y f, M root (va / PGSIZE) = some (y, f) ∧ f &&& PTE_U ≠ 0

/-- An entry with PTE_U leads to the user page of its position. -/
theorem Inv.user_leaf {t : ℕ} (hs : Inv C ∅ M a g s) (ht : g t = .node o (.table root 0 (va / PGSIZE / 512)))
    (hv : s.mem t (PX 0 va) &&& PTE_V ≠ 0) (hu : s.mem t (PX 0 va) &&& PTE_U ≠ 0) :
    g (PTE2PA (s.mem t (PX 0 va))) = .node o (.leaf root (va / PGSIZE)) := by
  refine hs.user_page ht (fun hpin => ?_) hv
  have hfits := hs.tree.down t _ _ _ _ (place_table ht) (PX_lt 0 va) (by simp)
  rw [child_PX_zero] at hfits
  rcases hfits with hempty | ⟨_, _, y, f, _, _, he, hf⟩ | ⟨hbelow, _⟩
  · exact hv (decode_empty.mp hempty)
  · have hflags := (decode_leaf he).2
    rw [and_flags (by decide)] at hu
    have hf' : f &&& PTE_U = 0 := hf
    rw [← hflags] at hf'
    exact hu hf'
  · exact hbelow hpin

/-- `walkaddr` finds the user page at the position. -/
theorem walkaddr_leaf (hroot : g root = .node o (.table root 2 0)) :
    Holds (Inv C ∅ M a g) (walkaddr root va)
      (fun r s => Inv C ∅ M a g s ∧ (r ≠ 0 → g r = .node o (.leaf root (va / PGSIZE))) ∧ (UserAt M root va → r ≠ 0)) (Faults C) := by
  have hzero : ∀ P : State → Prop, (∀ s, P s → Inv C ∅ M a g s) → (∀ s, P s → ¬ UserAt M root va) →
      Holds P (pure 0 : VmM ℕ)
        (fun r s => Inv C ∅ M a g s ∧ (r ≠ 0 → g r = .node o (.leaf root (va / PGSIZE))) ∧ (UserAt M root va → r ≠ 0)) (Faults C) :=
    fun P hP hno => holds_pure fun s hs => ⟨hP s hs, fun h => absurd rfl h, fun hu => absurd hu (hno s hs)⟩
  refine holds_ite (fun hva => hzero _ (fun _ hs => hs) fun _ _ hu => absurd hu.1 (not_lt.mpr hva)) fun hva => ?_
  refine holds_bind (walk_look hroot fun _ => not_le.mp hva) fun r => ?_
  cases r with
  | none =>
    refine hzero _ (fun _ hs => hs.1) ?_
    rintro s ⟨_, _, hnone⟩ ⟨_, y, f, hm, _⟩
    rw [hnone rfl] at hm
    cases hm
  | some t =>
    refine holds_assume (c := g t.1 = .node o (.table root 0 (va / PGSIZE / 512)) ∧ t.2 = PX 0 va)
      (fun s hs => hs.2.1 t.1 t.2 rfl) fun ⟨ht, hi⟩ => ?_
    refine holds_bind (readPte_spec t.1 t.2) fun pte => ?_
    rw [hi]
    refine holds_ite (fun hv => hzero _ (fun _ hs => hs.1.1) ?_) fun hv => ?_
    · rintro s ⟨⟨hs, _⟩, rfl⟩ ⟨_, y, f, hm, _⟩
      exact hs.mapped_valid ht (by simp [hm]) hv
    refine holds_ite (fun hu => hzero _ (fun _ hs => hs.1.1) ?_) fun hu => holds_pure ?_
    · rintro s ⟨⟨hs, _⟩, rfl⟩ ⟨_, y, f, hm, hf⟩
      rw [← (decode_leaf (hs.mapped_entry ht hm)).2, PTE_FLAGS, ← and_flags (by decide)] at hf
      exact hf hu
    · rintro s ⟨⟨hs, _⟩, rfl⟩
      have hy := hs.user_leaf ht hv hu
      exact ⟨hs, fun _ => hy, fun _ => (hs.page_lt (by rw [hy]; simp)).1.ne'⟩

/-- A user page is neither free nor a page table. -/
theorem walkaddr_spec (hroot : g root = .node o (.table root 2 0)) :
    Holds (Inv C ∅ M a g) (walkaddr root va)
      (fun r s => Inv C ∅ M a g s ∧ (r ≠ 0 → (g r).Plain) ∧ (UserAt M root va → r ≠ 0)) (Faults C) := by
  refine holds_conseq (walkaddr_leaf hroot) (fun _ h => h) ?_
  rintro r s ⟨hs, hleaf, huser⟩
  refine ⟨hs, fun h0 => ?_, huser⟩
  rw [hleaf h0]
  simp [Status.Plain]

theorem copyoutFrom_spec (hroot : g root = .node o (.table root 2 0)) (fuel dstva : ℕ) (src : List UInt8) :
    Keeps (Inv C ∅ M a g) (copyoutFrom root fuel dstva src) (Faults C) := by
  induction fuel generalizing dstva src with
  | zero => exact keeps_pure true
  | succ fuel ih =>
    refine holds_ite (fun _ => keeps_pure true) fun _ => holds_bind (walkaddr_spec hroot) fun pa0 => ?_
    refine holds_ite (fun _ => holds_pure fun s hs => hs.1) fun h0 => ?_
    refine holds_assume (fun s hs => hs.2.1 h0) fun hplain => ?_
    exact holds_bind (holds_conseq (poke_spec hplain _) (fun s hs => hs.1) fun _ _ h => h) fun _ => ih _ _

theorem copyout_spec (hroot : g root = .node o (.table root 2 0)) (dstva : ℕ) (src : List UInt8) :
    Keeps (Inv C ∅ M a g) (copyout root dstva src) (Faults C) := copyoutFrom_spec hroot _ dstva src

theorem copyinFrom_spec (hroot : g root = .node o (.table root 2 0)) (fuel srcva len : ℕ) :
    Keeps (Inv C ∅ M a g) (copyinFrom root fuel srcva len) (Faults C) := by
  induction fuel generalizing srcva len with
  | zero => exact keeps_pure _
  | succ fuel ih =>
    refine holds_ite (fun _ => keeps_pure _) fun _ => holds_bind (walkaddr_spec hroot) fun pa0 => ?_
    refine holds_ite (fun _ => holds_pure fun s hs => hs.1) fun _ => ?_
    refine holds_bind (Q := fun _ => Inv C ∅ M a g) (holds_gets fun s hs => hs.1) fun _ => ?_
    exact holds_bind (ih _ _) fun _ => keeps_pure _

theorem copyinstrFrom_spec (hroot : g root = .node o (.table root 2 0)) (fuel srcva max : ℕ) :
    Keeps (Inv C ∅ M a g) (copyinstrFrom root fuel srcva max) (Faults C) := by
  induction fuel generalizing srcva max with
  | zero => exact keeps_pure ([], false)
  | succ fuel ih =>
    refine holds_ite (fun _ => keeps_pure ([], false)) fun _ => holds_bind (walkaddr_spec hroot) fun pa0 => ?_
    refine holds_ite (fun _ => holds_pure fun s hs => hs.1) fun _ => ?_
    refine holds_bind (Q := fun _ => Inv C ∅ M a g) (holds_gets fun s hs => hs.1) fun r => ?_
    exact holds_ite (fun _ => keeps_pure r) fun _ => holds_bind (ih _ _) fun _ => keeps_pure _

/-! ### fork's copy -/

variable {pte old new sz sz' sz1 trapframe r : ℕ} {M'' : PageMap} {F : ℕ → ℕ → Prop}

/-- The flags of a mapped page. -/
theorem leaf_flags {y f : ℕ} (h : decode pte = .leaf y f) : PTE_FLAGS pte &&& (PTE_R ||| PTE_W ||| PTE_X) ≠ 0 := by
  have heq := decode_leaf h
  rw [PTE_FLAGS, ← and_flags (by decide)]
  exact (decode_eq_leaf.mp (by rw [heq.1, heq.2]; exact h)).2

theorem flags_or_valid (hv : pte &&& PTE_V ≠ 0) : PTE_FLAGS pte ||| PTE_V = PTE_FLAGS pte := by
  have hbit : (PTE_FLAGS pte).testBit 0 = true := by
    rw [and_flags (by decide)] at hv
    change PTE_FLAGS pte &&& 1 ≠ 0 at hv
    rw [Nat.and_one_is_mod] at hv
    rw [Nat.testBit_zero]
    simp only [decide_eq_true_eq]
    omega
  refine Nat.eq_of_testBit_eq fun i => ?_
  rw [Nat.testBit_or]
  cases i with
  | zero => rw [hbit, Bool.true_or]
  | succ i =>
    have hone : PTE_V.testBit (i + 1) = false := by
      rw [Nat.testBit_succ]
      exact Nat.zero_testBit i
    rw [hone, Bool.or_false]

theorem uvmcopyFrom_spec (hold : g₀ old = .node o (.table old 2 0)) (hne : old ≠ new) (n i : ℕ)
    (hpins : Pins M new k) (hi : i + n * PGSIZE ≤ TRAPFRAME) (halign : i % PGSIZE = 0)
    (hC : C → Exact M new (i / PGSIZE) ∧ ∀ pos, i / PGSIZE ≤ pos → pos < i / PGSIZE + n → M old pos ≠ none) :
    Holds (Now C M a new g₀) (uvmcopyFrom old new n i)
      (fun ok s => if ok then ∃ M', Extends M M' new (i / PGSIZE) (i / PGSIZE + n)
          (fun pos f => ∀ v, M old pos = some v → v.2 = f) ∧ Now C M' a new g₀ s
        else Now C (M.cut new 0 (i / PGSIZE)) a new g₀ s) (Faults C) := by
  induction n generalizing i M with
  | zero => exact holds_pure fun s hs => ⟨M, Extends.refl M new _ _, hs⟩
  | succ n ih =>
    have htop : i < TRAPFRAME := by
      rw [Nat.succ_mul] at hi
      exact lt_of_lt_of_le (by unfold PGSIZE; omega) hi
    have hhere : C → M old (i / PGSIZE) ≠ none := fun hc => (hC hc).2 _ le_rfl (by omega)
    have hunpin : ∀ pos, pos ≤ i / PGSIZE → ¬ sv39.pinned pos := fun pos hle =>
      unpinned_of_lt (lt_of_le_of_lt hle (Nat.div_lt_div_of_lt_of_dvd (by norm_num) htop))
    have hback : Holds (Now C M a new g₀) (do uvmunmap new 0 (i / PGSIZE) true; pure false)
        (fun ok s => if ok then ∃ M', Extends M M' new (i / PGSIZE) (i / PGSIZE + (n + 1))
            (fun pos f => ∀ v, M old pos = some v → v.2 = f) ∧ Now C M' a new g₀ s
          else Now C (M.cut new 0 (i / PGSIZE)) a new g₀ s) (Faults C) := by
      have hunmap := @uvmunmap_user C M a g₀ new 0 (i / PGSIZE) ?_
        (by norm_num) ?_
      · rw [Nat.zero_div, Nat.zero_add] at hunmap
        exact holds_bind hunmap fun _ => holds_pure fun s hs => hs
      · rw [Nat.zero_add, Nat.div_mul_cancel (Nat.dvd_of_mod_eq_zero halign)]
        exact le_of_lt htop
      · intro hc pos _ hlt
        rw [Nat.zero_div, Nat.zero_add] at hlt
        exact ((hC hc).1 pos (hunpin pos hlt.le)).mpr hlt
    refine holds_now fun g hwithin hroot => ?_
    have holdg := hwithin.root_keep hold hne
    refine holds_bind (walk_look holdg fun _ => lt_trans htop (by norm_num)) fun r => ?_
    cases r with
    | none => exact holds_fail fun s hs => ⟨hs.1.good, fun hc => hhere hc (hs.2.2 rfl)⟩
    | some t =>
      refine holds_assume (c := g t.1 = .node o (.table old 0 (i / PGSIZE / 512)) ∧ t.2 = PX 0 i)
        (fun s hs => hs.2.1 t.1 t.2 rfl) fun ⟨ht, hk⟩ => ?_
      refine holds_bind (readPte_spec t.1 t.2) fun pte => ?_
      rw [hk]
      refine holds_ite (fun hv => holds_fail ?_) fun hv => ?_
      · rintro s ⟨⟨hs, _⟩, rfl⟩
        exact ⟨hs.good, fun hc => hs.mapped_valid ht (hhere hc) hv⟩
      refine holds_assume (c := PTE_FLAGS pte &&& (PTE_R ||| PTE_W ||| PTE_X) ≠ 0 ∧
        ∀ v, M old (i / PGSIZE) = some v → v.2 = PTE_FLAGS pte) ?_ fun ⟨hrwx, hflags⟩ => ?_
      · rintro s ⟨⟨hs, _⟩, rfl⟩
        exact ⟨leaf_flags (hs.leaf_entry ht hv), fun v hm =>
          (decode_leaf (hs.mapped_entry (y := v.1) (f := v.2) ht hm)).2.symm⟩
      · have hperm : PTE_FLAGS pte < 2 ^ 10 := Nat.mod_lt _ (by norm_num)
        refine holds_bind (holds_conseq (@kalloc_now C M a g₀ new)
          (fun s hs => ⟨g, hs.1.1, hwithin, hroot⟩) fun _ _ h => h) fun mem => ?_
        refine holds_ite (fun h0 => ?_) fun h0 => ?_
        · rwa [if_pos h0]
        · rw [if_neg h0]
          refine holds_bind (keeps_gets _) fun data => holds_bind (poke_hand _) fun _ => ?_
          have hroom : C → i < TRAPFRAME ∧ M new (i / PGSIZE) = none := by
            refine fun hc => ⟨htop, ?_⟩
            by_contra hm
            exact lt_irrefl _ (((hC hc).1 _ (hunpin _ le_rfl)).mp hm)
          refine holds_bind (mappages_user hpins halign hperm hrwx hroom) fun ok => ?_
          rw [flags_or_valid hv]
          cases ok with
          | true =>
            refine holds_ite (fun _ => ?_) fun h => absurd rfl h
            rw [if_pos rfl]
            refine holds_assume (fun s hs => hs.2.1) fun hnone => ?_
            have hdiv : (i + PGSIZE) / PGSIZE = i / PGSIZE + 1 := Nat.add_div_right _ (by norm_num)
            have hother : ∀ v pos, M.set new (i / PGSIZE) v old pos = M old pos := fun v pos =>
              PageMap.set_other fun h => hne h.1
            have hrest := ih (M := M.set new (i / PGSIZE) (some (mem, PTE_FLAGS pte))) (i + PGSIZE)
              (hpins.set (hunpin _ le_rfl) _)
              (by rwa [Nat.succ_mul, ← Nat.add_assoc, Nat.add_right_comm] at hi)
              (by rw [Nat.add_mod_right]; exact halign) (fun hc => by
                rw [hdiv]
                refine ⟨(hC hc).1.succ _, fun pos hge hlt => ?_⟩
                rw [hother]
                exact (hC hc).2 pos (by omega) (by omega))
            rw [hdiv] at hrest
            refine holds_conseq hrest (fun s hs => hs.1) ?_
            intro ok s hs
            cases ok with
            | true =>
              obtain ⟨M', hext, hnow⟩ := hs
              simp only [hother] at hext
              rw [Nat.add_assoc, Nat.add_comm 1 n] at hext
              exact ⟨M', Extends.cons (by omega) hnone hflags hext, hnow⟩
            | false =>
              change Now C (PageMap.cut _ _ _ _) a new g₀ s at hs
              rwa [PageMap.cut_set_last hnone (Nat.zero_le _)] at hs
          | false =>
            refine holds_ite (nofun) fun _ => ?_
            rw [if_neg (by simp)]
            exact holds_bind kfree_hand fun _ => hback

theorem pagesFrom_zero (hsz : sz ≤ TRAPFRAME) : pagesFrom 0 sz = pageCount sz := by
  unfold pagesFrom pageCount PGROUNDUP TRAPFRAME TRAMPOLINE MAXVA PGSIZE at *
  omega

theorem uvmcopy_spec (hold : g₀ old = .node o (.table old 2 0)) (hne : old ≠ new) (hpins : Pins M new k)
    (hsz : sz ≤ TRAPFRAME) (hC : C → Exact M new 0 ∧ ∀ pos, pos < pageCount sz → M old pos ≠ none) :
    Holds (Now C M a new g₀) (uvmcopy old new sz)
      (fun ok s => if ok then ∃ M', Extends M M' new 0 (pageCount sz) (fun pos f => ∀ v, M old pos = some v → v.2 = f) ∧
          Now C M' a new g₀ s
        else Now C M a new g₀ s) (Faults C) := by
  have hcopy := uvmcopyFrom_spec (a := a) (C := C) hold hne (pagesFrom 0 sz) 0 hpins ?_ (by norm_num) ?_
  · rw [Nat.zero_div, Nat.zero_add, PageMap.cut_empty le_rfl, pagesFrom_zero hsz] at hcopy
    rwa [uvmcopy, pagesFrom_zero hsz]
  · rw [pagesFrom_zero hsz, Nat.zero_add, ← PGROUNDUP_eq hsz]
    exact (PGROUNDUP_le hsz).2.1
  · intro hc
    rw [Nat.zero_div, Nat.zero_add, pagesFrom_zero hsz]
    exact ⟨(hC hc).1, fun pos _ => (hC hc).2 pos⟩

/-! ### exec's image -/

theorem and_clear {m : ℕ} (hm : 2 ^ 64 - 1 - PTE_U &&& m = m) (pte : ℕ) :
    pte &&& (2 ^ 64 - 1 - PTE_U) &&& m = pte &&& m := by
  rw [Nat.and_assoc, hm]

/-- Clearing PTE_U leaves an entry what it is, but not for the user. -/
theorem decode_clear (pte : ℕ) : decode (pte &&& (2 ^ 64 - 1 - PTE_U)) = match decode pte with
    | .empty => .empty
    | .table y => .table y
    | .leaf y _ => .leaf y (PTE_FLAGS (pte &&& (2 ^ 64 - 1 - PTE_U))) := by
  have hpage : PTE2PA (pte &&& (2 ^ 64 - 1 - PTE_U)) = PTE2PA pte := by
    have hshift : (pte &&& (2 ^ 64 - 1 - PTE_U)) / 2 ^ 10 = pte / 2 ^ 10 % 2 ^ 54 := by
      rw [← Nat.shiftRight_eq_div_pow, Nat.shiftRight_and_distrib, ← Nat.and_two_pow_sub_one_eq_mod,
        Nat.shiftRight_eq_div_pow]
      rfl
    rw [PTE2PA, PTE2PA, hshift, Nat.mod_mod_of_dvd _ (by norm_num)]
  unfold decode
  rw [and_clear (by decide), and_clear (by decide), hpage]
  split_ifs <;> rfl

theorem flags_clear (pte : ℕ) : PTE_FLAGS (pte &&& (2 ^ 64 - 1 - PTE_U)) &&& PTE_U = 0 := by
  rw [PTE_FLAGS, ← and_flags (by decide), Nat.and_assoc]
  have h : 2 ^ 64 - 1 - PTE_U &&& PTE_U = 0 := by decide
  rw [h, Nat.and_zero]

theorem uvmclear_spec (hroot : g root = .node a (.table root 2 0)) (hC : C → va < MAXVA ∧ M root (va / PGSIZE) ≠ none) :
    Holds (Inv C ∅ M a g) (uvmclear root va)
      (fun _ s => ∃ v, Inv C ∅ (M.set root (va / PGSIZE) v) a g s ∧ (M root (va / PGSIZE) ≠ none → v ≠ none)) (Faults C) := by
  refine holds_bind (walk_look hroot fun hc => (hC hc).1) fun r => ?_
  cases r with
  | none => exact holds_fail fun s hs => ⟨hs.1.good, fun hc => (hC hc).2 (hs.2.2 rfl)⟩
  | some t =>
    refine holds_bind (readPte_spec t.1 t.2) fun pte => holds_modify ?_
    rintro s ⟨⟨hs, hres, _⟩, rfl⟩
    obtain ⟨ht, hi⟩ := hres t.1 t.2 rfl
    rw [hi]
    have hfits := hs.tree.down t.1 _ _ _ _ (place_table ht) (PX_lt 0 va) (by simp)
    have hentry : entry s.mem t.1 (PX 0 va) = decode (s.mem t.1 (PX 0 va)) := rfl
    refine ⟨_, hs.store ht (PX_lt 0 va) ?_ ?_ (by simp) (hs.set_maps ht _), fun hm => ?_⟩
    · rw [child_PX_zero, hentry, decode_clear]
      intro y _ hleads
      cases hd : decode (s.mem t.1 (PX 0 va)) <;> simp_all [Leads]
    · rw [child_PX_zero] at hfits ⊢
      rw [hentry] at hfits
      rw [decode_clear]
      rcases hfits with hempty | ⟨r, pos, y, f, hn, hpos, he, _⟩ | ⟨hbelow, y, hleads, hy⟩
      · rw [hempty]
        exact .inl rfl
      · rw [he]
        exact .inr (.inl ⟨r, pos, y, _, hn, hpos, rfl, flags_clear _⟩)
      · refine .inr (.inr ⟨hbelow, y, ?_, hy⟩)
        cases hd : decode (s.mem t.1 (PX 0 va)) <;> simp_all [Leads]
    · obtain ⟨v, hv⟩ := Option.ne_none_iff_exists'.mp hm
      rw [decode_clear, hs.mapped_entry (y := v.1) (f := v.2) ht hv]
      simp [Entry.target]

/-- The first `n` positions are there for the user. -/
def Backed (M : PageMap) (root n : ℕ) : Prop := ∀ pos, pos < n → ∃ y f, M root pos = some (y, f) ∧ f &&& PTE_U ≠ 0

theorem loadsegFrom_spec (hroot : g root = .node a (.table root 2 0)) (readi : Readi) (offset sz n k i : ℕ)
    (hC : C → Backed M root n ∧ va + i + k * PGSIZE ≤ n * PGSIZE ∧ n * PGSIZE ≤ TRAPFRAME) :
    Keeps (Inv C ∅ M a g) (loadsegFrom root va readi offset sz k i) (Faults C) := by
  induction k generalizing i with
  | zero => exact keeps_pure true
  | succ k ih =>
    refine holds_bind (walkaddr_spec hroot) fun pa => ?_
    refine holds_ite (fun h0 => holds_fail fun s hs => ⟨hs.1.good, fun hc => hs.2.2 ?_ h0⟩) fun h0 => ?_
    · obtain ⟨hback, hend, htop⟩ := hC hc
      rw [Nat.succ_mul] at hend
      have hlt : va + i < n * PGSIZE := lt_of_lt_of_le (by unfold PGSIZE; omega) hend
      have hmax : va + i < MAXVA := lt_of_lt_of_le hlt (le_trans htop (by norm_num))
      have heq : uint64 (va + i) = va + i := by
        unfold uint64 MAXVA at *
        omega
      rw [heq]
      exact ⟨hmax, hback _ (Nat.div_lt_of_lt_mul (by rwa [Nat.mul_comm]))⟩
    refine holds_assume (fun s hs => hs.2.1 h0) fun hplain => ?_
    refine holds_bind (holds_conseq (poke_spec hplain _) (fun s hs => hs.1) fun _ _ h => h) fun _ => ?_
    refine holds_ite (fun _ => ih _ fun hc => ?_) fun _ => keeps_pure false
    obtain ⟨hback, hend, htop⟩ := hC hc
    exact ⟨hback, by rw [Nat.succ_mul] at hend; omega, htop⟩

theorem flags2perm_lt (flags : ℕ) : flags2perm flags < 2 ^ 10 := by
  unfold flags2perm
  split_ifs <;> decide

theorem user_flag (xperm : ℕ) : (PTE_R ||| PTE_U ||| xperm ||| PTE_V) &&& PTE_U ≠ 0 := by
  rw [Nat.or_comm PTE_R PTE_U, Nat.or_assoc, Nat.or_assoc, Nat.and_or_distrib_right]
  intro h0
  have := (Nat.or_eq_zero_iff.mp h0).1
  revert this
  decide

theorem field_lt (bs : List UInt8) (off k : ℕ) : field bs off k < 256 ^ k := by
  have hlist : ∀ l : List UInt8, l.foldr (fun c acc => c.toNat + 256 * acc) 0 < 256 ^ l.length := by
    intro l
    induction l with
    | nil => simp
    | cons c l ih =>
      have hc := c.toNat_lt
      rw [List.foldr_cons, List.length_cons, pow_succ]
      omega
  refine lt_of_lt_of_le (hlist _) (Nat.pow_le_pow_right (by norm_num) ?_)
  rw [List.length_take]
  exact min_le_left _ _

/-- A page table of its own with user memory of the given size; nothing else differs. -/
structure Laid (C : Prop) (M M' : PageMap) (root : ℕ) (k : ℕ × ℕ) (sz : ℕ) : Prop where
  other : ∀ r, r ≠ root → M' r = M r
  pins : Pins M' root k
  exact_ : C → Exact M' root (pageCount sz)
  sz : sz ≤ TRAPFRAME

theorem Laid.clear (h : Laid C M M' root k sz) : M'.clear root = M.clear root := by
  funext r pos
  by_cases hr : r = root
  · simp [PageMap.clear, hr]
  · rw [PageMap.clear_other hr, PageMap.clear_other hr, h.other r hr]

theorem pageCount_mono (h : sz ≤ sz') (hsz' : sz' ≤ TRAPFRAME) : pageCount sz ≤ pageCount sz' :=
  Nat.div_le_div_right (PGROUNDUP_mono h hsz')

theorem Laid.grow (h : Laid C M M' root k sz)
    (he : Extends M' M'' root (pageCount sz) (pageCount sz') F) (hle : sz ≤ sz') (hsz' : sz' ≤ TRAPFRAME) :
    Laid C M M'' root k sz' where
  other r hr := by rw [he.elsewhere hr, h.other r hr]
  pins := h.pins.extend he
  exact_ hc := (h.exact_ hc).extend he (pageCount_mono hle hsz')
  sz := hsz'

theorem Backed.grow {n n' : ℕ} (h : Backed M' root n)
    (he : Extends M' M'' root n n' F) (hF : ∀ pos f, F pos f → f &&& PTE_U ≠ 0) : Backed M'' root n' := by
  intro pos hlt
  by_cases hpos : pos < n
  · rw [he.other root pos (by omega)]
    exact h pos hpos
  · obtain ⟨y, f, hm, hf⟩ := he.new pos (by omega) hlt
    exact ⟨y, f, hm, hF pos f hf⟩

/-- What `loadSegments` keeps: user memory laid out up to the size reached. -/
def Segments (C : Prop) (M : PageMap) (a : Owner) (root : ℕ) (k : ℕ × ℕ) (g₀ : Pages) (sz : ℕ) (s : State) : Prop :=
  ∃ M', Laid C M M' root k sz ∧ (C → Backed M' root (pageCount sz)) ∧ Now C M' a root g₀ s

theorem uint32_le (k : ℕ) : (uint32 k).toNat ≤ k := by
  unfold uint32
  omega

/-- A segment lies in the memory that was made for it. -/
theorem segment_fits {vaddr memsz filesz : ℕ} (hmem : filesz ≤ memsz) (halign : vaddr % PGSIZE = 0)
    (hend : vaddr + memsz ≤ sz1) (hsz1 : sz1 ≤ TRAPFRAME) :
    vaddr + 0 + pagesFrom 0 (uint32 filesz).toNat * PGSIZE ≤ pageCount sz1 * PGSIZE ∧
      pageCount sz1 * PGSIZE ≤ TRAPFRAME := by
  have h32 := uint32_le filesz
  rw [← PGROUNDUP_eq hsz1]
  refine ⟨?_, (PGROUNDUP_le hsz1).2.1⟩
  generalize (uint32 filesz).toNat = k at *
  unfold pagesFrom PGROUNDUP TRAPFRAME TRAMPOLINE MAXVA PGSIZE at *
  omega

theorem loadSegments_spec (readi : Readi) (n : ℕ) (off : ℤ) (sz : ℕ) :
    Holds (Segments C M a root k g₀ sz) (loadSegments root readi n off sz)
      (fun r => Segments C M a root k g₀ r.1) (Faults C) := by
  induction n generalizing off sz with
  | zero => exact holds_pure fun s hs => hs
  | succ n ih =>
    have hbad : Holds (Segments C M a root k g₀ sz) (pure (sz, false) : VmM (ℕ × Bool))
        (fun r => Segments C M a root k g₀ r.1) (Faults C) := holds_pure fun s hs => hs
    refine holds_ite (fun _ => hbad) fun _ => holds_ite (fun _ => ih _ sz) fun _ => ?_
    refine holds_ite (fun _ => hbad) fun hmem => holds_ite (fun _ => hbad) fun hwrap => ?_
    refine holds_ite (fun _ => hbad) fun halign => ?_
    set vaddr := field (readi (uint32 off).toNat 56) 16 8
    set memsz := field (readi (uint32 off).toNat 56) 40 8
    set filesz := field (readi (uint32 off).toNat 56) 32 8
    have hnowrap : uint64 (vaddr + memsz) = vaddr + memsz := by
      have h1 : vaddr < 2 ^ 64 := lt_of_lt_of_le (field_lt _ _ _) (by norm_num)
      have h2 : memsz < 2 ^ 64 := lt_of_lt_of_le (field_lt _ _ _) (by norm_num)
      unfold uint64 at *
      omega
    refine holds_exists fun M' => ?_
    refine holds_assume (c := Laid C M M' root k sz ∧ (C → Backed M' root (pageCount sz))) (fun s hs => ⟨hs.1, hs.2.1⟩)
      fun ⟨hlaid, hback⟩ => ?_
    refine holds_bind (holds_conseq (uvmalloc_spec hlaid.pins (flags2perm_lt _) hlaid.sz hlaid.exact_)
      (fun s hs => hs.2.2) fun _ _ h => h) fun sz1 => ?_
    refine holds_ite (fun h0 => holds_pure ?_) fun h0 => ?_
    · rintro s (⟨_, hnow⟩ | ⟨hmax, _, M'', hext, hnow⟩)
      · exact ⟨M', hlaid, hback, hnow⟩
      · have hsz : sz = 0 := by omega
        rw [h0] at hext
        subst hsz
        exact ⟨M'', hlaid.grow hext le_rfl hlaid.sz, fun hc => (hback hc).grow hext fun _ _ hf => hf ▸ user_flag _, hnow⟩
    · refine holds_bind (Q := fun ok s => Segments C M a root k g₀ sz1 s) ?_ fun ok => ?_
      · rintro s (⟨h, _⟩ | ⟨hmax, hsz1, M'', hext, hnow⟩)
        · exact absurd h h0
        have hlaid' := hlaid.grow hext (by omega) hsz1
        have hback' : C → Backed M'' root (pageCount sz1) := fun hc =>
          (hback hc).grow hext fun _ _ hf => hf ▸ user_flag _
        have hseg : Keeps (Now C M'' a root g₀) (loadseg root vaddr readi
            (field (readi (uint32 off).toNat 56) 8 8) filesz) (Faults C) :=
          keeps_now fun g hroot => loadsegFrom_spec hroot readi _ _ (pageCount sz1) _ _ fun hc =>
            ⟨hback' hc, segment_fits (not_lt.mp hmem) (by simpa using halign)
              (by rw [hmax, hnowrap]; exact le_max_right _ _) hsz1⟩
        exact holds_conseq hseg (fun _ h => h) (fun _ _ h => ⟨M'', hlaid', hback', h⟩) s hnow
      · exact holds_ite (fun _ => ih _ sz1) fun _ => holds_pure fun s hs => hs

theorem pushArgs_spec (hroot : g root = .node a (.table root 2 0)) (stackbase : ℕ) (argv : List ℕ) (sp : ℕ)
    (ustack : List ℕ) : Keeps (Inv C ∅ M a g) (pushArgs root stackbase argv sp ustack) (Faults C) := by
  induction argv generalizing sp ustack with
  | nil => exact keeps_pure _
  | cons arg argv ih =>
    refine holds_ite (fun _ => keeps_pure none) fun _ => holds_bind (keeps_gets _) fun str => ?_
    refine holds_ite (fun _ => keeps_pure none) fun _ => holds_bind (copyout_spec hroot _ _) fun ok => ?_
    exact holds_ite (fun _ => ih _ _) fun _ => keeps_pure none

theorem buildStack_spec (hroot : g root = .node a (.table root 2 0)) (sz : ℕ) (argv : List ℕ) :
    Keeps (Inv C ∅ M a g) (buildStack root sz argv) (Faults C) := by
  refine holds_bind (pushArgs_spec hroot _ argv sz []) fun r => ?_
  cases r with
  | none => exact keeps_pure none
  | some r =>
    refine holds_ite (fun _ => keeps_pure none) fun _ => holds_bind (copyout_spec hroot _ _) fun ok => ?_
    exact holds_ite (fun _ => keeps_pure _) fun _ => keeps_pure none

/-- A new page table with user memory. -/
def Image.Ready (C : Prop) (M : PageMap) (a : Owner) (g₀ : Pages) (root : ℕ) (k : ℕ × ℕ) (sz : ℕ) (s : State) : Prop :=
  ∃ M', Laid C M M' root k sz ∧ Now C M' a root g₀ s

/-- What `loadImage` leaves: everything as it was, or a complete new page table. -/
def Loaded (C : Prop) (M : PageMap) (a : Owner) (g₀ : Pages) (trapframe : ℕ) : Option Image → State → Prop
  | none => Inv C ∅ M a g₀
  | some image => fun s => Fresh M a image.pagetable g₀ ∧ ∃ t, g₀ t = .outside ∧
      Image.Ready C M a g₀ image.pagetable (t, trapframe) image.sz s

/-- An image is taken down again. -/
theorem freeImage_spec (hfresh : Fresh M a root g₀) :
    Holds (Image.Ready C M a g₀ root k sz) (procFreepagetable root sz) (fun _ => Inv C ∅ M a g₀) (Faults C) := by
  refine holds_exists fun M' => holds_assume (fun s hs => hs.1) fun hlaid => ?_
  have hfree := @procFreepagetable_spec C M' a g₀ k _ _ hlaid.sz fun hc => ⟨hlaid.exact_ hc, hlaid.pins⟩
  rw [hlaid.clear] at hfree
  exact holds_conseq hfree (fun s hs => hs.2) fun _ s hs => hs.restore hfresh

theorem badImage_spec (hfresh : Fresh M a root g₀) :
    Holds (Image.Ready C M a g₀ root k sz) (badImage root sz) (Loaded C M a g₀ trapframe) (Faults C) :=
  holds_bind (freeImage_spec hfresh) fun _ => holds_pure fun _ hs => hs

/-- The two pages of the stack, with the lower one taken from the user. -/
theorem stackPages_spec (hsz : sz ≤ TRAPFRAME) :
    Holds (Image.Ready C M a g₀ root k sz) (uvmalloc root (PGROUNDUP sz) (uint64 (PGROUNDUP sz + 2 * PGSIZE)) PTE_W)
      (fun sz1 s => if sz1 = 0 then Image.Ready C M a g₀ root k (PGROUNDUP sz) s
        else sz1 = PGROUNDUP sz + 2 * PGSIZE ∧ Image.Ready C M a g₀ root k sz1 s) (Faults C) := by
  obtain ⟨_, htop, halign⟩ := PGROUNDUP_le hsz
  have hcount : pageCount (PGROUNDUP sz) = pageCount sz := pageCount_of_aligned htop halign
  have hadd : uint64 (PGROUNDUP sz + 2 * PGSIZE) = PGROUNDUP sz + 2 * PGSIZE := by
    unfold uint64 TRAPFRAME TRAMPOLINE MAXVA PGSIZE at *
    omega
  refine holds_exists fun M' => holds_assume (fun s hs => hs.1) fun hlaid => ?_
  have hlaid' : Laid C M M' root k (PGROUNDUP sz) :=
    ⟨hlaid.other, hlaid.pins, fun hc => by rw [hcount]; exact hlaid.exact_ hc, htop⟩
  refine holds_conseq (uvmalloc_spec hlaid'.pins (by decide) htop hlaid'.exact_) (fun s hs => hs.2) ?_
  rintro sz1 s (⟨h0, hnow⟩ | ⟨hmax, hsz1, M'', hext, hnow⟩)
  · rw [if_pos h0]
    exact ⟨M', hlaid', hnow⟩
  · have heq : sz1 = PGROUNDUP sz + 2 * PGSIZE := by
      rw [hmax, hadd]
      exact max_eq_right (Nat.le_add_right _ _)
    rw [if_neg (by unfold PGSIZE at heq; omega)]
    exact ⟨heq, M'', hlaid'.grow hext (by rw [heq]; exact Nat.le_add_right _ _) hsz1, hnow⟩

/-- The page below the stack is taken from the user. -/
theorem guardPage_spec {base : ℕ} (halign : base % PGSIZE = 0) (hsz1 : sz1 = base + 2 * PGSIZE) :
    Keeps (Image.Ready C M a g₀ root k sz1) (uvmclear root (uint64 (sz1 - 2 * PGSIZE))) (Faults C) := by
  refine holds_exists fun M' => holds_assume (fun s hs => hs.1) fun hlaid => ?_
  have hsz := hlaid.sz
  have hbase : uint64 (sz1 - 2 * PGSIZE) = base := by
    unfold uint64 TRAPFRAME TRAMPOLINE MAXVA PGSIZE at *
    omega
  have hlt : base / PGSIZE < pageCount sz1 := by
    rw [pageCount_of_aligned hsz (by unfold PGSIZE at *; omega)]
    unfold PGSIZE at *
    omega
  have hunpin : ¬ sv39.pinned (base / PGSIZE) := by
    refine unpinned_of_lt (lt_of_lt_of_le hlt ?_)
    exact Nat.div_le_div_right (PGROUNDUP_le hsz).2.1
  have hC : C → base < MAXVA ∧ M' root (base / PGSIZE) ≠ none := fun hc =>
    ⟨lt_of_le_of_lt (le_trans (by omega) hsz) (by norm_num), (hlaid.exact_ hc _ hunpin).mpr hlt⟩
  rw [hbase]
  rintro s ⟨_, hnow⟩
  refine holds_now (x := uvmclear root base) (fun g hwithin hroot => ?_) s hnow
  refine holds_conseq (uvmclear_spec hroot hC) (fun _ h => h) ?_
  rintro _ t ⟨v, hinv, hv⟩
  refine ⟨M'.set root (base / PGSIZE) v, ⟨fun r hr => ?_, hlaid.pins.set hunpin v, fun hc pos hpos => ?_, hsz⟩, g, hinv,
    hwithin, hroot⟩
  · rw [← hlaid.other r hr]
    funext pos
    exact PageMap.set_other fun h => hr h.1
  · by_cases hp : pos = base / PGSIZE
    · subst hp
      rw [PageMap.set_self]
      exact iff_of_true (hv (hC hc).2) hlt
    · rw [PageMap.set_other fun h => hp h.2]
      exact hlaid.exact_ hc pos hpos

theorem buildStack_ready (argv : List ℕ) :
    Keeps (Image.Ready C M a g₀ root k sz) (buildStack root sz argv) (Faults C) := by
  refine holds_exists fun M' => holds_assume (fun s hs => hs.1) fun hlaid => ?_
  exact holds_conseq (keeps_now fun g hroot => buildStack_spec hroot _ argv) (fun s hs => hs.2)
    fun _ _ h => ⟨M', hlaid, h⟩

theorem Made.fresh (h : Made C M a g₀ trapframe r s) (h0 : r ≠ 0) : Fresh M a r g₀ := by
  rw [Made, if_neg h0] at h
  exact h.1

/-- A new page table has no user memory. -/
theorem Made.segments (h : Made C M a g₀ trapframe r s) (h0 : r ≠ 0) :
    ∃ t, g₀ t = .outside ∧ Segments C M a r (t, trapframe) g₀ 0 s := by
  rw [Made, if_neg h0] at h
  obtain ⟨hfresh, t, hout, hnow⟩ := h
  refine ⟨t, hout, withPins M r t trapframe, ⟨fun _ => withPins_other M t trapframe, pins_withPins M r t trapframe,
    fun _ => exact_withPins hfresh.2.2 t trapframe, by norm_num⟩, fun _ pos hpos => ?_, hnow⟩
  exact absurd hpos (Nat.not_lt_zero pos)

theorem Segments.ready (h : Segments C M a root k g₀ sz s) : Image.Ready C M a g₀ root k sz s :=
  let ⟨M', hlaid, _, hnow⟩ := h
  ⟨M', hlaid, hnow⟩

theorem Segments.le (h : Segments C M a root k g₀ sz s) : sz ≤ TRAPFRAME :=
  let ⟨_, hlaid, _⟩ := h
  hlaid.sz

/-- What `loadFile` leaves: everything as it was, or a new page table with the segments. -/
def Opened (C : Prop) (M : PageMap) (a : Owner) (g₀ : Pages) (trapframe : ℕ) : Option (ℕ × ℕ × ℕ) → State → Prop
  | none => Inv C ∅ M a g₀
  | some (_, root, sz) => fun s =>
    Fresh M a root g₀ ∧ ∃ t, g₀ t = .outside ∧ Segments C M a root (t, trapframe) g₀ sz s

theorem loadFile_spec (htf : trapframe < 2 ^ 52) (readi : Readi) :
    Holds (Inv C ∅ M a g₀) (loadFile trapframe readi) (Opened C M a g₀ trapframe) (Faults C) := by
  refine holds_ite (fun _ => holds_pure fun s hs => hs) fun _ => holds_ite (fun _ => holds_pure fun s hs => hs) fun _ => ?_
  refine holds_bind (procPagetable_spec htf) fun r => holds_ite (fun h0 => ?_) fun h0 => ?_
  · refine holds_pure fun s hs => ?_
    rwa [Made, if_pos h0] at hs
  · refine holds_assume (fun s hs => hs.fresh h0) fun hfresh => ?_
    refine holds_conseq (holds_exists fun t => holds_assume (fun s hs => hs.1) fun hout => ?_) (fun s hs => hs.segments h0)
      fun _ _ h => h
    refine holds_bind (holds_conseq (loadSegments_spec readi _ _ 0) (fun s hs => hs.2) fun _ _ h => h) fun seg => ?_
    refine holds_ite (fun _ => holds_pure fun s hs => ⟨hfresh, t, hout, hs⟩) fun _ => ?_
    exact holds_bind (holds_conseq (freeImage_spec hfresh) (fun s hs => hs.ready) fun _ _ h => h) fun _ =>
      holds_pure fun _ h => h

theorem makeStack_spec {t : ℕ} (hfresh : Fresh M a root g₀) (hout : g₀ t = .outside) (argv : List ℕ) (entry sz : ℕ) :
    Holds (Segments C M a root (t, trapframe) g₀ sz) (makeStack argv entry root sz) (Loaded C M a g₀ trapframe)
      (Faults C) := by
  refine holds_assume (fun s hs => hs.le) fun hsz => ?_
  refine holds_bind (holds_conseq (stackPages_spec hsz) (fun s hs => hs.ready) fun _ _ h => h) fun sz1 => ?_
  refine holds_ite (fun h0 => ?_) fun h0 => ?_
  · exact holds_conseq (badImage_spec hfresh) (fun s hs => (if_pos h0).mp hs) fun _ _ h => h
  · refine holds_assume (fun s hs => ((if_neg h0).mp hs).1) fun heq => ?_
    refine holds_bind (holds_conseq (guardPage_spec (PGROUNDUP_le hsz).2.2 heq) (fun s hs => ((if_neg h0).mp hs).2)
      fun _ _ h => h) fun _ => holds_bind (buildStack_ready argv) fun st => ?_
    cases st with
    | none => exact badImage_spec hfresh
    | some st => exact holds_pure fun s hs => ⟨hfresh, t, hout, hs⟩

theorem loadImage_spec (htf : trapframe < 2 ^ 52) (readi : Readi) (argv : List ℕ) :
    Holds (Inv C ∅ M a g₀) (loadImage trapframe readi argv) (Loaded C M a g₀ trapframe) (Faults C) := by
  refine holds_bind (loadFile_spec htf readi) fun file => ?_
  obtain _ | ⟨entry, root, sz⟩ := file
  · exact holds_pure fun _ h => h
  · refine holds_assume (fun s hs => hs.1) fun hfresh => ?_
    refine holds_conseq (holds_exists fun t => holds_assume (fun s hs => hs.1) fun hout => ?_) (fun s hs => hs.2)
      fun _ _ h => h
    exact holds_conseq (makeStack_spec hfresh hout argv entry sz) (fun s hs => hs.2) fun _ _ h => h

end Xv6.Vm
