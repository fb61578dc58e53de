import Xv6.Proofs.PageOwners
import Xv6.Sanity.Fills
import Xv6.Spec.TableMap

/-! The user address spaces in every run of the operations on them: what is mapped is
exactly the memory below `sz`, the trapframe and the trampoline, no page is mapped twice
or used as a page table, and no operation panics. -/

namespace Xv6.Vm

open Prog Radix Function

variable {C : Prop} {M M' : PageMap} {a o : Owner} {g g' : Pages} {p q : Slot} {pr : Slot → Proc} {m : Machine}
  {s : State} {root va : ℕ}

/-! ### What the operations do -/

/-- After an operation on one slot, which has an address space or none. -/
def Touched (C : Prop) (M : PageMap) (g : Pages) (p : Slot) (pr : Slot → Proc) (m : Machine) : Prop :=
  ∃ M' g' v, Inv C ∅ M' (.slot p) g' m.vm ∧ Moves (.slot p) M g M' g' ∧ m.proc = Function.update pr p v ∧
    (v.pagetable = 0 ∨ Space C M' g' p v)

theorem Kept.touched (h : Kept C M g p pr m) : Touched C M g p pr m := by
  obtain ⟨M', g', pt, sz, hinv, hsteady, hpr, hsp⟩ := h
  exact ⟨M', g', _, hinv, hsteady.toMoves, hpr, .inr hsp⟩

theorem createSpace_spec (hpt : (pr p).pagetable = 0) :
    Holds (At (Inv C ∅ M a g) pr) (createSpace p) (fun _ => Touched C M g p pr) (Stops C) := by
  have hsame : ∀ m : Machine, m.proc = pr → m.proc = update pr p (pr p) := fun m hm => by
    rw [hm, update_eq_self]
  refine holds_bind (lift_at (setActor_spec (.slot p))) fun _ => holds_bind (lift_at kalloc_spec) fun tf => ?_
  refine holds_ite (fun h0 => holds_pure ?_) fun h0 => ?_
  · rintro m ⟨⟨_, hinv⟩ | ⟨_, hinv⟩, hpr⟩
    · exact ⟨M, g, pr p, hinv, Moves.refl _ M g, hsame m hpr, .inl hpt⟩
    · exact absurd (hinv.page_lt (x := tf) (by simp)).1 (by omega)
  · refine at_assume (c := g tf = .free) ?_ fun hfree => ?_
    · rintro s (⟨h, _⟩ | ⟨hfree, _⟩)
      · exact absurd h h0
      · exact hfree
    have hmoves : Moves (.slot p) M g M (update g tf (.held (.slot p))) :=
      Moves.of_update (.inl hfree) (.inr rfl)
    refine holds_at (Inv C ∅ M (.slot p) (update g tf (.held (.slot p)))) ?_ ?_
    · refine at_assume (c := tf < 2 ^ 52) (fun s hs => (hs.page_lt (x := tf) (by simp)).2) fun hlt => ?_
      refine holds_bind (lift_at (procPagetable_spec hlt)) fun pt => holds_ite (fun hp0 => holds_pure ?_) fun hp0 => ?_
      · rintro m ⟨hinv, hpr⟩
        rw [Made, if_pos hp0] at hinv
        exact ⟨M, _, pr p, hinv, hmoves, hsame m hpr, .inl hpt⟩
      · refine holds_conseq (updProc_at _) (fun _ h => h) ?_
        rintro _ m ⟨hmade, hpr⟩
        rw [Made, if_neg hp0] at hmade
        obtain ⟨hfresh, t, hout, g', hinv, hwithin, hroot⟩ := hmade
        have hsteady := hwithin.steady (M := M) (.inl hfresh.1) fun r hr => withPins_other M t tf hr
        refine ⟨_, g', _, hinv, hmoves.trans hsteady.toMoves, hpr, .inr ⟨hroot, ⟨t, hsteady.outside hout, ?_⟩, ?_, ?_, ?_⟩⟩
        · exact pins_withPins M pt t tf
        · intro _
          change Exact _ pt (pageCount 0)
          exact exact_withPins hfresh.2.2 t tf
        · exact Nat.zero_le _
        · exact hsteady.held _ _ (update_self _ _ _)
    · rintro s (⟨h, _⟩ | ⟨_, hs⟩)
      · exact absurd h h0
      · exact hs

theorem allocSpace_spec (hsp : Space C M g p (pr p)) (newsz flags : ℕ) :
    Holds (At (Inv C ∅ M a g) pr) (allocSpace p newsz flags) (fun _ => Kept C M g p pr) (Stops C) :=
  getProc_at (holds_bind (lift_at (setActor_spec (.slot p))) fun _ => allocSize_spec hsp (flags2perm_lt flags) _)

theorem deallocSpace_spec (hsp : Space C M g p (pr p)) (newsz : ℕ) :
    Holds (At (Inv C ∅ M a g) pr) (deallocSpace p newsz) (fun _ => Kept C M g p pr) (Stops C) :=
  getProc_at (holds_bind (lift_at (setActor_spec (.slot p))) fun _ => deallocSize_spec hsp _)

theorem dropSpace_spec (hsp : Space C M g p (pr p)) :
    Holds (At (Inv C ∅ M a g) pr) (dropSpace p) (fun _ => Touched C M g p pr) (Stops C) := by
  obtain ⟨t, hout, hpins⟩ := hsp.pins
  refine getProc_at (holds_bind (lift_at (setActor_spec (.slot p))) fun _ => ?_)
  refine holds_bind (lift_at (holds_conseq (procFreepagetable_spec hsp.sz fun hc => ⟨hsp.exact_ hc, hpins⟩)
    (fun s hs => hs.now hsp.root) fun _ _ h => h)) fun _ => ?_
  refine holds_conseq (updProc_at _) (fun _ h => h) ?_
  rintro _ m ⟨⟨g', hinv, hwithin, _⟩, hpr⟩
  have hsteady := hwithin.steady (M := M) (.inr ⟨_, hsp.root, rfl⟩) fun r hr => PageMap.clear_other hr
  exact ⟨_, g', _, hinv, hsteady.toMoves, hpr, .inl rfl⟩

theorem copySpace_spec {np : Slot} (hne : p ≠ np) (hsp : Space C M g p (pr p)) (hnew : Space C M g np (pr np))
    (hsz : (pr np).sz = 0) :
    Holds (At (Inv C ∅ M a g) pr) (copySpace p np) (fun _ => Touched C M g np pr) (Stops C) := by
  obtain ⟨t, hout, hpins⟩ := hnew.pins
  have hroots : (pr p).pagetable ≠ (pr np).pagetable := by
    intro heq
    have hroot := hsp.root
    rw [heq, hnew.root] at hroot
    injection hroot with hslot
    injection hslot with hslot
    exact hne hslot.symm
  have hcopyC : C → Exact M (pr np).pagetable 0 ∧ ∀ pos, pos < pageCount (pr p).sz → M (pr p).pagetable pos ≠ none := by
    intro hc
    have hexact := hnew.exact_ hc
    rw [hsz] at hexact
    refine ⟨hexact, fun pos hpos => (hsp.exact_ hc pos ?_).mpr hpos⟩
    exact unpinned_of_lt (lt_of_lt_of_le hpos (Nat.div_le_div_right (PGROUNDUP_le hsp.sz).2.1))
  refine getProc_at (getProc_at (holds_bind (lift_at (setActor_spec (.slot np))) fun _ => ?_))
  refine holds_bind (lift_at (holds_conseq (uvmcopy_spec hsp.root hroots hpins hsp.sz hcopyC)
    (fun s hs => hs.now hnew.root) fun _ _ h => h)) fun ok => ?_
  cases ok with
  | true =>
    refine holds_ite (fun _ => ?_) fun h => absurd rfl h
    refine holds_conseq (updProc_at _) (fun _ h => h) ?_
    rintro _ m ⟨⟨M', hext, g', hinv, hwithin, hroot⟩, hpr⟩
    have hsteady := hwithin.steady (M := M) (.inr ⟨_, hnew.root, rfl⟩) fun r hr => hext.elsewhere hr
    exact ⟨M', g', _, hinv, hsteady.toMoves, hpr, .inr ⟨hroot, ⟨t, hsteady.outside hout, hpins.extend hext⟩,
      fun hc => (hcopyC hc).1.extend hext (Nat.zero_le _), hsp.sz, hsteady.held _ _ hnew.trapframe⟩⟩
  | false =>
    refine holds_ite (nofun) fun _ => ?_
    refine holds_at (fun s => ∃ g', (Within (.slot np) (pr np).pagetable g g' ∧
      g' (pr np).pagetable = .node (.slot np) (.table (pr np).pagetable 2 0)) ∧ Inv C ∅ M (.slot np) g' s) ?_
        fun s ⟨g', hinv, hw, hroot⟩ => ⟨g', ⟨hw, hroot⟩, hinv⟩
    refine at_exists fun g' => at_assume (fun s hs => hs.1) fun ⟨hwithin, hroot⟩ => ?_
    have hsteady : Steady (.slot np) M g M g' := hwithin.steady (.inr ⟨_, hnew.root, rfl⟩) fun _ _ => rfl
    have hdrop := dropSpace_spec (C := C) (a := .slot np)
      (⟨hroot, ⟨t, hsteady.outside hout, hpins⟩, hnew.exact_, hnew.sz, hsteady.held _ _ hnew.trapframe⟩ :
        Space C M g' np (pr np))
    refine holds_conseq (holds_at _ hdrop fun s hs => hs.2) (fun _ h => h) ?_
    rintro _ m ⟨M', g'', v, hinv, hmoves, hpr, hv⟩
    exact ⟨M', g'', v, hinv, hsteady.toMoves.trans hmoves, hpr, hv⟩

/-! ### All address spaces -/

/-- Every slot has an address space or none. -/
structure Mapped (C : Prop) (M : PageMap) (g : Pages) (pr : Slot → Proc) : Prop where
  kernel : ∀ x n, g x ≠ .node .kernel n
  slot : ∀ q, (pr q).pagetable = 0 ∨ Space C M g q (pr q)

theorem Mapped.space (h : Mapped C M g pr) (hp : (pr p).pagetable ≠ 0) : Space C M g p (pr p) :=
  (h.slot p).resolve_left hp

def Tidy (C : Prop) (m : Machine) : Prop := ∃ M g, (∃ a, Inv C ∅ M a g m.vm) ∧ Mapped C M g m.proc

theorem Touched.tidy (hall : Mapped C M g pr) (h : Touched C M g p pr m) : Tidy C m := by
  obtain ⟨M', g', v, hinv, hmoves, hpr, hv⟩ := h
  refine ⟨M', g', ⟨_, hinv⟩, fun x n hx => ?_, fun q => ?_⟩
  · rcases hmoves.pages x with heq | ⟨_, hfree | hmine⟩
    · exact hall.kernel x n (heq ▸ hx)
    · rw [hx] at hfree
      cases hfree
    · rw [hx] at hmine
      cases hmine
  · rw [hpr]
    by_cases hq : q = p
    · subst hq
      rwa [update_self]
    · rw [update_of_ne hq]
      exact (hall.slot q).imp id fun hsp => hsp.other hmoves (by simpa using hq)

theorem KernelMoved.tidy (hall : Mapped C M g pr) (h : KernelMoved C M g pr m) : Tidy C m := by
  obtain ⟨g', hinv, hmoves, hkernel, hpr⟩ := h
  refine ⟨M, g', ⟨_, hinv⟩, hkernel, fun q => ?_⟩
  rw [hpr]
  exact (hall.slot q).imp id fun hsp => hsp.other hmoves (by simp)

theorem spaceOp_spec (e : SpaceOp) :
    Holds (fun m => Tidy C m ∧ e.Enabled m) e.prog (fun _ => Tidy C) (Stops C) := by
  rintro m ⟨⟨M, g, ⟨a, hinv⟩, hall⟩, hen⟩
  have hat : At (Inv C ∅ M a g) m.proc m := ⟨hinv, rfl⟩
  cases e with
  | create p => exact (createSpace_spec hen).start hat (fun _ t ht => ht.tidy hall) m rfl
  | alloc p newsz flags =>
    refine holds_discard ((allocSpace_spec (hall.space hen) newsz flags).start hat ?_) m rfl
    exact fun _ t ht => ht.touched.tidy hall
  | dealloc p newsz =>
    refine holds_discard ((deallocSpace_spec (hall.space hen) newsz).start hat ?_) m rfl
    exact fun _ t ht => ht.touched.tidy hall
  | grow p n =>
    refine holds_discard ((growproc_spec (hall.space hen) n).start hat ?_) m rfl
    exact fun _ t ht => ht.touched.tidy hall
  | exec p file argv =>
    have hexec : Holds (At (Inv C ∅ M a g) m.proc) (execSpace p file argv) (fun _ => Kept C M g p m.proc) (Stops C) :=
      holds_bind (lift_at (setActor_spec (.slot p))) fun _ => exec_spec (hall.space hen) file argv
    refine holds_discard (hexec.start hat ?_) m rfl
    exact fun _ t ht => ht.touched.tidy hall
  | copy p np =>
    obtain ⟨hne, hp, hnp, hsz⟩ := hen
    exact (copySpace_spec hne (hall.space hp) (hall.space hnp) hsz).start hat (fun _ t ht => ht.tidy hall) m rfl
  | drop p => exact (dropSpace_spec (hall.space hen)).start hat (fun _ t ht => ht.tidy hall) m rfl
  | store p va c =>
    refine (userStore_spec (hall.space hen).root va c).start hat (fun _ t ht => ⟨M, g, ⟨a, ht.1⟩, ?_⟩) m rfl
    rwa [ht.2]
  | kernelAlloc => exact (kernelAlloc_spec hall.kernel).start hat (fun _ t ht => ht.tidy hall) m rfl
  | kernelFree page =>
    have hpage : (g page).holder = some .kernel := by
      rwa [← hinv.holder]
    exact (kernelFree_spec hall.kernel hpage).start hat (fun _ t ht => ht.tidy hall) m rfl

theorem Tidy.restart (h : Tidy C m) (oom : List Bool) :
    Tidy C { m with vm := { m.vm with oom := oom, trace := [] } } := by
  obtain ⟨M, g, ⟨a, hinv⟩, hall⟩ := h
  exact ⟨M, g, ⟨a, hinv.restart oom⟩, hall⟩

theorem SpaceOp.enabled_restart {e : SpaceOp} (h : e.Enabled m) (oom : List Bool) :
    e.Enabled { m with vm := { m.vm with oom := oom, trace := [] } } := by
  cases e <;> exact h

theorem tidy_step {k k' : SpaceRun} {e : SpaceOp × List Bool} (hk : k.panic = none ∧ Tidy True k.machine)
    (h : k.step e = some k') : k'.panic = none ∧ Tidy True k'.machine := by
  unfold SpaceRun.step at h
  split_ifs at h with hpanic hen
  obtain ⟨_, t, heq, ht⟩ := (spaceOp_spec e.1).returns no_stops ⟨hk.2.restart e.2, SpaceOp.enabled_restart hen e.2⟩
  rw [heq] at h
  cases h
  exact ⟨rfl, ht⟩

theorem tidy_boot (l : Layout) (mem : ℕ → PageData) : Tidy C (Kernel.boot l mem).machine := by
  refine ⟨_, _, ⟨_, boot_inv l mem⟩, fun x n => ?_, fun q => .inl rfl⟩
  unfold bootPages
  split_ifs <;> simp

theorem tidy_run {l : Layout} {mem : ℕ → PageData} {es : List (SpaceOp × List Bool)} {k : SpaceRun}
    (h : SpaceRun.run l mem es = some k) : k.panic = none ∧ Tidy True k.machine :=
  @System.exec_invariant _ _ SpaceRun.step (fun k => k.panic = none ∧ Tidy True k.machine) _ ⟨rfl, tidy_boot l mem⟩
    (fun _ _ _ hk hs => tidy_step hk hs) es k h

/-! ### What the page tables in memory say -/

theorem walkFrom_pure (va level t : ℕ) (s : State) : ∃ r, walkFrom va false level t s = .ok r s := by
  induction level generalizing t with
  | zero => exact ⟨_, rfl⟩
  | succ level ih =>
    unfold walkFrom readPte
    rw [bind_of_ok (gets_apply _ s)]
    by_cases hv : s.mem t (PX (level + 1) va) &&& PTE_V ≠ 0
    · rw [if_pos hv]
      exact ih _
    · rw [if_neg hv]
      exact ⟨none, rfl⟩

/-- `walk` finds what the map says. -/
theorem leafPte_spec (hroot : g root = .node o (.table root 2 0)) (hva : va < MAXVA) :
    Holds (Inv True ∅ M a g) (leafPte root va) (fun r _ =>
      r.map (fun pte => (PTE2PA pte, PTE_FLAGS pte)) = M root (va / PGSIZE) ∧
        ∀ pte, r = some pte → pte &&& (PTE_R ||| PTE_W ||| PTE_X) ≠ 0) (Faults True) := by
  refine holds_bind (walk_look hroot fun _ => hva) fun r => ?_
  cases r with
  | none =>
    refine holds_pure ?_
    rintro s ⟨_, _, hnone⟩
    exact ⟨(hnone rfl).symm, nofun⟩
  | some t =>
    refine holds_assume (c := g t.1 = .node o (.table root 0 (va / PGSIZE / 512)) ∧ t.2 = PX 0 va)
      (fun s hs => hs.2.1 t.1 t.2 rfl) fun ⟨ht, hi⟩ => ?_
    refine holds_bind (readPte_spec t.1 t.2) fun pte => holds_pure ?_
    rintro s ⟨⟨hs, _⟩, rfl⟩
    rw [hi]
    by_cases hv : s.mem t.1 (PX 0 va) &&& PTE_V = 0
    · rw [if_pos hv]
      refine ⟨?_, nofun⟩
      by_contra hm
      exact hs.mapped_valid ht (fun h => hm h.symm) hv
    · rw [if_neg hv]
      refine ⟨(hs.known trivial ht hv).symm, ?_⟩
      rintro _ ⟨⟩
      exact (decode_eq_leaf.mp (hs.leaf_entry ht hv)).2

section

variable (h : Inv True ∅ M a g s) (hroot : g root = .node o (.table root 2 0)) (hva : va < MAXVA)

include h hroot hva

theorem Inv.leaf_eq :
    (s.leaf root va).map (fun pte => (PTE2PA pte, PTE_FLAGS pte)) = M root (va / PGSIZE) ∧
      ∀ pte, s.leaf root va = some pte → pte &&& (PTE_R ||| PTE_W ||| PTE_X) ≠ 0 := by
  obtain ⟨r, t, hr, hpost⟩ := (leafPte_spec hroot hva).returns no_faults h
  unfold State.leaf
  rwa [hr]

theorem Inv.leaf_some {v : ℕ × ℕ} (hm : M root (va / PGSIZE) = some v) :
    ∃ pte, s.leaf root va = some pte ∧ PTE2PA pte = v.1 ∧ PTE_FLAGS pte = v.2 ∧
      pte &&& (PTE_R ||| PTE_W ||| PTE_X) ≠ 0 := by
  obtain ⟨heq, hrwx⟩ := h.leaf_eq hroot hva
  rw [hm, Option.map_eq_some_iff] at heq
  obtain ⟨pte, hpte, rfl⟩ := heq
  exact ⟨pte, hpte, rfl, rfl, hrwx pte hpte⟩

end

/-- The map need not be complete for that. -/
theorem Inv.leaf_sound (h : Inv C ∅ M a g s) (hroot : g root = .node o (.table root 2 0)) (hva : va < MAXVA)
    {v : ℕ × ℕ} (hm : M root (va / PGSIZE) = some v) :
    ∃ pte, s.leaf root va = some pte ∧ PTE2PA pte = v.1 ∧ PTE_FLAGS pte = v.2 := by
  obtain ⟨r, hr⟩ := walkFrom_pure va 2 root s
  have hwalk : walk root va false s = .ok r s := by
    rwa [walk, if_neg (not_le.mpr hva)]
  have hlook := (walk_look hroot fun _ => hva).ok h hwalk
  cases r with
  | none =>
    rw [hlook.2.2 rfl] at hm
    cases hm
  | some t =>
    obtain ⟨ht, hi⟩ := hlook.2.1 t.1 t.2 rfl
    have hv := h.mapped_valid ht (by simp [hm])
    refine ⟨s.mem t.1 (PX 0 va), ?_, decode_leaf (h.mapped_entry (y := v.1) (f := v.2) ht hm)⟩
    unfold State.leaf leafPte
    rw [bind_of_ok hwalk]
    dsimp only
    rw [hi, readPte, bind_of_ok (gets_apply _ s), pure_apply]
    exact if_neg hv

/-- What stands in the pages that were filled. -/
theorem Stocked.leaf {w D : ℕ → PageData} {lo hi : ℕ} {g₀ : Pages} (h : Stocked M a root g₀ w D lo hi s)
    (hnow : Now False M a root g₀ s) (hva : va < MAXVA) (hlo : lo ≤ va / PGSIZE) (hhi : va / PGSIZE < hi) :
    ∃ pte, s.leaf root va = some pte ∧ s.mem (PTE2PA pte) = D (va / PGSIZE) := by
  obtain ⟨g, hinv, -, hroot⟩ := hnow
  obtain ⟨y, f, hm, -, hdata⟩ := h.2 _ hlo hhi
  obtain ⟨pte, hpte, rfl, -⟩ := hinv.leaf_sound hroot hva hm
  exact ⟨pte, hpte, hdata⟩

theorem Inv.leaf_none (h : Inv True ∅ M a g s) (hroot : g root = .node o (.table root 2 0)) (hva : va < MAXVA)
    (hm : M root (va / PGSIZE) = none) : s.leaf root va = none := by
  have heq := (h.leaf_eq hroot hva).1
  rwa [hm, Option.map_eq_none_iff] at heq

/-- The trampoline and the trapframe are not for the user. -/
theorem Inv.pin_flags (h : Inv C ∅ M a g s) {pos y f : ℕ} (hpin : sv39.pinned pos) (hm : M root pos = some (y, f)) :
    f &&& PTE_U = 0 := by
  obtain ⟨x, hx, he⟩ := h.maps.sound _ _ _ _ hm
  have hfits := h.tree.down x _ _ _ _ hx (Nat.mod_lt pos sv39.fanPos) (by simp)
  rw [he, show sv39.child (.table root 0 (pos / sv39.fan)) (pos % sv39.fan) = .leaf root pos from
    sv39.child_parent (.leaf root pos)] at hfits
  rcases hfits with hempty | ⟨_, _, y', f', _, _, hleaf, hpf⟩ | ⟨hbelow, _⟩
  · cases hempty
  · cases hleaf
    exact hpf
  · exact absurd hpin hbelow

/-- The pages of a page table are what the state of memory says they are. -/
theorem Inv.tableAt (h : Inv C ∅ M a g s) (hroot : g root = .node o (.table root 2 0)) {level pref t : ℕ}
    (ht : TableAt s.mem root level pref t) : g t = .node o (.table root level pref) := by
  induction ht with
  | root => exact hroot
  | @next level pref t i _ hi hv hg =>
    have hquot : (pref * 512 + i) / 512 = pref := by omega
    have hrem : (pref * 512 + i) % 512 = i := by omega
    -- an address whose walk passes through this entry
    set va := (pref * 512 + i) * 512 ^ (level + 1) * PGSIZE
    have hpage : va / PGSIZE = (pref * 512 + i) * 512 ^ (level + 1) := Nat.mul_div_cancel _ (by norm_num)
    have hdiv : va / PGSIZE / 512 ^ (level + 1) = pref * 512 + i := by
      rw [hpage, Nat.mul_div_cancel _ (by positivity)]
    have hpref : va / PGSIZE / 512 ^ (level + 2) = pref := by
      rw [pow_succ, ← Nat.div_div_eq_div_mul, hdiv, hquot]
    have hPX : PX (level + 1) va = i := by
      rw [PX, hdiv, hrem]
    rw [← hpref] at hg
    have hnext := h.next_table hg (by rw [hPX]; exact hv)
    rwa [hPX, hdiv] at hnext

theorem TablePage.tableAt {mem : ℕ → PageData} {level t : ℕ} (h : TablePage mem root level t) :
    ∃ pref, TableAt mem root level pref t := by
  induction h with
  | root => exact ⟨0, .root⟩
  | next _ hi hv ih =>
    obtain ⟨pref, hpref⟩ := ih
    exact ⟨_, .next hpref hi hv⟩

theorem Inv.tablePage (h : Inv C ∅ M a g s) (hroot : g root = .node o (.table root 2 0)) {level t : ℕ}
    (ht : TablePage s.mem root level t) : ∃ pref, g t = .node o (.table root level pref) := by
  obtain ⟨pref, hpref⟩ := ht.tableAt
  exact ⟨pref, h.tableAt hroot hpref⟩

/-! ### The address spaces -/

/-- The address space of a process: its memory is mapped, nothing else below the
trapframe is, and no page twice. -/
structure UserSpace (s : State) (q : Proc) : Prop where
  mapped : ∀ va, va % PGSIZE = 0 → va < PGROUNDUP q.sz →
    ∃ pte, s.leaf q.pagetable va = some pte ∧ pte &&& (PTE_R ||| PTE_W ||| PTE_X) ≠ 0
  unmapped : ∀ va, PGROUNDUP q.sz ≤ va → va < TRAPFRAME → s.leaf q.pagetable va = none
  trapframe : ∃ pte, s.leaf q.pagetable TRAPFRAME = some pte ∧ PTE2PA pte = q.trapframe ∧ pte &&& PTE_U = 0
  trampoline : ∃ pte, s.leaf q.pagetable TRAMPOLINE = some pte ∧ pte &&& PTE_U = 0
  distinct : ∀ va va' y, va % PGSIZE = 0 → va' % PGSIZE = 0 → va < MAXVA → va' < MAXVA →
    s.pageAt q.pagetable va = some y → s.pageAt q.pagetable va' = some y → va = va'

/-- Pages that are mapped are no page table pages, and below the trampoline, which all
processes share, they are the process's own. -/
structure Separate (m : Machine) : Prop where
  tables : ∀ p q va y level t, (m.proc p).pagetable ≠ 0 → (m.proc q).pagetable ≠ 0 → va < MAXVA →
    m.vm.pageAt (m.proc p).pagetable va = some y → TablePage m.vm.mem (m.proc q).pagetable level t → y ≠ t
  processes : ∀ p q va va' y, p ≠ q → (m.proc p).pagetable ≠ 0 → (m.proc q).pagetable ≠ 0 → va < TRAMPOLINE →
    va' < TRAMPOLINE → m.vm.pageAt (m.proc p).pagetable va = some y → m.vm.pageAt (m.proc q).pagetable va' ≠ some y

/-- What the page at a position is used for. -/
theorem Space.page_status (hsp : Space True M g p (pr p)) (h : Inv True ∅ M a g s) (hva : va < MAXVA) {y : ℕ}
    (hy : s.pageAt (pr p).pagetable va = some y) :
    (¬ sv39.pinned (va / PGSIZE) ∧ g y = .node (.slot p) (.leaf (pr p).pagetable (va / PGSIZE))) ∨
      (va / PGSIZE = TRAPFRAME / PGSIZE ∧ g y = .held (.slot p)) ∨
      (va / PGSIZE = TRAMPOLINE / PGSIZE ∧ g y = .outside) := by
  obtain ⟨pte, hpte, rfl⟩ := Option.map_eq_some_iff.mp hy
  have hm := (h.leaf_eq hsp.root hva).1
  rw [hpte, Option.map_some] at hm
  obtain ⟨t, hout, ⟨f, hf⟩, f', hf'⟩ := hsp.pins
  by_cases hpin : sv39.pinned (va / PGSIZE)
  · rcases hpin with hpos | hpos
    · rw [hpos, hf] at hm
      refine .inr (.inr ⟨hpos, ?_⟩)
      rwa [(Prod.mk.inj (Option.some.inj hm)).1]
    · rw [hpos, hf'] at hm
      refine .inr (.inl ⟨hpos, ?_⟩)
      rw [(Prod.mk.inj (Option.some.inj hm)).1]
      exact hsp.trapframe
  · obtain ⟨o, ho⟩ := Status.place_eq_some.mp (h.mapped_page hpin hm.symm)
    exact .inl ⟨hpin, by rw [ho, h.same_owner ho hsp.root rfl]⟩

theorem Space.userSpace (hsp : Space True M g p (pr p)) (h : Inv True ∅ M a g s) : UserSpace s (pr p) := by
  obtain ⟨-, htop, -⟩ := PGROUNDUP_le hsp.sz
  obtain ⟨t, hout, ⟨f, hf⟩, f', hf'⟩ := hsp.pins
  have hflags : ∀ pte, PTE_FLAGS pte &&& PTE_U = 0 → pte &&& PTE_U = 0 := fun pte h0 => by
    rwa [and_flags (by decide)]
  have hbelow : ∀ va, va < TRAPFRAME → va < MAXVA := fun va hva => lt_trans hva (by norm_num)
  refine ⟨fun va hal hva => ?_, fun va hge hva => ?_, ?_, ?_, fun va va' y hal hal' hva hva' hy hy' => ?_⟩
  · have hlt := lt_of_lt_of_le hva htop
    have hpos := lt_pageCount hsp.sz hva
    obtain ⟨v, hv⟩ := Option.ne_none_iff_exists'.mp ((hsp.exact_ trivial _ (unpinned_below hlt)).mpr hpos)
    obtain ⟨pte, hpte, _, _, hrwx⟩ := h.leaf_some hsp.root (hbelow va hlt) hv
    exact ⟨pte, hpte, hrwx⟩
  · refine h.leaf_none hsp.root (hbelow va hva) ?_
    by_contra hm
    have hpos := (hsp.exact_ trivial _ (unpinned_below hva)).mp hm
    exact absurd (Nat.div_le_div_right hge) (not_le.mpr hpos)
  · obtain ⟨pte, hpte, hpa, hfl, _⟩ := h.leaf_some hsp.root (by norm_num : TRAPFRAME < MAXVA) hf'
    exact ⟨pte, hpte, hpa, hflags pte (by rw [hfl]; exact h.pin_flags (.inr rfl) hf')⟩
  · obtain ⟨pte, hpte, _, hfl, _⟩ := h.leaf_some hsp.root (by norm_num : TRAMPOLINE < MAXVA) hf
    exact ⟨pte, hpte, hflags pte (by rw [hfl]; exact h.pin_flags (.inl rfl) hf)⟩
  · have hpos : va / PGSIZE = va' / PGSIZE := by
      rcases hsp.page_status h hva hy with ⟨_, hg⟩ | ⟨hpos, hg⟩ | ⟨hpos, hg⟩ <;>
        rcases hsp.page_status h hva' hy' with ⟨_, hg'⟩ | ⟨hpos', hg'⟩ | ⟨hpos', hg'⟩ <;> rw [hg] at hg'
      · injection hg' with _ hleaf
        injection hleaf
      all_goals first
        | exact hpos.trans hpos'.symm
        | cases hg'
    rw [← Nat.div_mul_cancel (Nat.dvd_of_mod_eq_zero hal), hpos, Nat.div_mul_cancel (Nat.dvd_of_mod_eq_zero hal')]

theorem Mapped.separate (hall : Mapped True M g m.proc) (h : Inv True ∅ M a g m.vm) : Separate m := by
  refine ⟨fun p q va y level t hp hq hva hy ht heq => ?_, fun p q va va' y hne hp hq hva hva' hy hy' => ?_⟩
  · obtain ⟨pref, hg⟩ := h.tablePage (hall.space hq).root ht
    rw [← heq] at hg
    rcases (hall.space hp).page_status h hva hy with ⟨_, hg'⟩ | ⟨_, hg'⟩ | ⟨_, hg'⟩ <;> rw [hg] at hg' <;> cases hg'
  · have howner : ∀ r va, (m.proc r).pagetable ≠ 0 → va < TRAMPOLINE → m.vm.pageAt (m.proc r).pagetable va = some y →
        (g y).holder = some (.slot r) := by
      intro r va hr hva hy
      rcases (hall.space hr).page_status h (lt_trans hva (by norm_num)) hy with ⟨_, hg⟩ | ⟨_, hg⟩ | ⟨hpos, _⟩
      · rw [hg]
        rfl
      · rw [hg]
        rfl
      · have hlt : va / PGSIZE < TRAMPOLINE / PGSIZE := Nat.div_lt_div_of_lt_of_dvd (by norm_num) hva
        exact absurd hpos hlt.ne
    have heq := (howner p va hp hva hy).symm.trans (howner q va' hq hva' hy')
    injection heq with heq
    injection heq with heq
    exact hne heq

/-- In every run, the address spaces are as they should be, and nothing has panicked. -/
theorem address_spaces {l : Layout} {mem : ℕ → PageData} {es : List (SpaceOp × List Bool)} {k : SpaceRun}
    (hrun : SpaceRun.run l mem es = some k) :
    k.panic = none ∧ (∀ p, (k.machine.proc p).pagetable ≠ 0 → UserSpace k.machine.vm (k.machine.proc p)) ∧
      Separate k.machine := by
  obtain ⟨hpanic, M, g, ⟨a, hinv⟩, hall⟩ := tidy_run hrun
  exact ⟨hpanic, fun p hp => (hall.space hp).userSpace hinv, hall.separate hinv⟩

/-- A process grows and is copied, the copy shrinks, and the first one then finds no memory
for more. -/
def growAndCopy : List (SpaceOp × List Bool) :=
  [(.create 0, []), (.grow 0 5000, []), (.create 1, []), (.copy 0 1, []), (.grow 1 (-1000), []),
    (.grow 0 100000, [false, false, true])]

theorem address_spaces_growAndCopy : ∃ k, SpaceRun.run smallKernel (fun _ _ => 0) growAndCopy = some k ∧
    (k.machine.proc 0).sz = 5000 ∧ (k.machine.proc 1).sz = 4000 ∧ k.panic = none ∧
    UserSpace k.machine.vm (k.machine.proc 0) ∧ UserSpace k.machine.vm (k.machine.proc 1) ∧ Separate k.machine := by
  have hrun : (SpaceRun.run smallKernel (fun _ _ => 0) growAndCopy).map (fun k =>
      ((k.machine.proc 0).sz, (k.machine.proc 1).sz, (k.machine.proc 0).pagetable, (k.machine.proc 1).pagetable)) =
        some (5000, 4000, 557054, 557046) := by
    rw [SpaceRun.run, boot_eq]
    decide +kernel
  obtain ⟨k, hk, hout⟩ := Option.map_eq_some_iff.mp hrun
  simp only [Prod.mk.injEq] at hout
  obtain ⟨hsz0, hsz1, hpt0, hpt1⟩ := hout
  obtain ⟨hpanic, hspace, hsep⟩ := address_spaces hk
  exact ⟨k, hk, hsz0, hsz1, hpanic, hspace 0 (by rw [hpt0]; decide), hspace 1 (by rw [hpt1]; decide), hsep⟩

end Xv6.Vm
