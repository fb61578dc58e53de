import Xv6.Proofs.FreeOnce
import Xv6.Spec.Sbrk

/-! `sbrk` does what it reports, unless it is asked to take away more than there is. -/

namespace Xv6.Vm

open Prog Radix

variable {C : Prop} {M M' : PageMap} {a a' o : Owner} {g g' : Pages} {p : Slot} {m m' : Machine} {s t : State} {n : ℤ}
  {k : ℕ × ℕ} {root va r oldsz newsz xperm : ℕ}

/-! ### What stands in the map -/

theorem Inv.binding_eq (h : Inv True ∅ M a g s) (hroot : g root = .node o (.table root 2 0)) (hva : va < MAXVA) :
    s.binding root va = M root (va / PGSIZE) := (h.leaf_eq hroot hva).1

theorem binding_above (hva : MAXVA ≤ va) (s : State) (root : ℕ) : s.binding root va = none := by
  unfold State.binding
  cases hleaf : s.leaf root va with
  | none => rfl
  | some pte => exact absurd (leaf_below hleaf) (not_lt.mpr hva)

/-! ### The parts of growproc -/

/-- The pages added by `uvmalloc` are zero. -/
theorem uvmalloc_zero (hinv : Inv True ∅ M a g s) (hroot : g root = .node a (.table root 2 0)) (hpins : Pins M root k)
    (hxperm : xperm < 2 ^ 10) (hold : oldsz ≤ TRAPFRAME) (hle : oldsz ≤ newsz) (hnew : newsz ≤ TRAPFRAME)
    (hrun : uvmalloc root oldsz newsz xperm s = .ok r t) (hr : r ≠ 0) (hlo : PGROUNDUP oldsz ≤ va) (hhi : va < PGROUNDUP newsz) :
    ∃ pte, t.leaf root va = some pte ∧ t.mem (PTE2PA pte) = fun _ => 0 := by
  obtain ⟨hperm, hrwx⟩ := perm_user hxperm
  obtain ⟨hup, htop, halign⟩ := PGROUNDUP_le hold
  obtain ⟨hup', htop', halign'⟩ := PGROUNDUP_le hnew
  rw [uvmalloc, if_neg (not_lt.mpr hle)] at hrun
  obtain ⟨ok, u, hloop, hrun⟩ := bind_eq_ok.mp hrun
  cases ok with
  | false =>
    cases hrun
    exact absurd rfl hr
  | true =>
    cases hrun
    have hstart : Now False M a root g s ∧
        Stocked M a root g s.mem (fun _ _ => 0) (PGROUNDUP oldsz / PGSIZE) (PGROUNDUP oldsz / PGSIZE) s :=
      ⟨hinv.weaken.now hroot, fun _ _ => rfl, fun pos hge hlt => absurd hlt (not_lt.mpr hge)⟩
    obtain ⟨M', hnow, hstock⟩ := (uvmallocFrom_stocked hperm hrwx _ hpins halign).ok hstart hloop rfl
    have hcount : va / PGSIZE < PGROUNDUP oldsz / PGSIZE + pagesFrom (PGROUNDUP oldsz) r := by
      unfold pagesFrom PGROUNDUP TRAPFRAME TRAMPOLINE MAXVA PGSIZE at *
      omega
    exact hstock.leaf hnow (lt_trans (lt_of_lt_of_le hhi htop') (by norm_num)) (Nat.div_le_div_right hlo) hcount

/-- A page that the map has at a low position, or at a pinned one, is not written to when the memory above is resized. -/
theorem Space.unmoved {q : Proc} {pos y f n : ℕ} (hsp : Space True M g p q) (hm : M q.pagetable pos = some (y, f))
    (hpos : ¬ sv39.pinned pos → pos < n) : Unmoved M (.slot p) q.pagetable g n y := by
  by_cases hpin : sv39.pinned pos
  · obtain ⟨t, hout, ⟨f₁, hf₁⟩, f₂, hf₂⟩ := hsp.pins
    refine .inl ?_
    rcases hpin with rfl | rfl
    · rw [hf₁] at hm
      cases hm
      rw [hout]
      rintro (h | ⟨_, h, -⟩) <;> cases h
    · rw [hf₂] at hm
      cases hm
      rw [hsp.trapframe]
      rintro (h | ⟨_, h, -⟩) <;> cases h
  · exact .inr ⟨pos, f, hpos hpin, hpin, hm⟩

/-- What is mapped and kept is found again. -/
theorem sameAt_of_kept (hinv : Inv True ∅ M a g m.vm) (hroot : g (m.proc p).pagetable = .node o (.table (m.proc p).pagetable 2 0))
    (hinv' : Inv True ∅ M' a' g' m'.vm) (hroot' : g' (m.proc p).pagetable = .node o (.table (m.proc p).pagetable 2 0))
    (hpt : (m'.proc p).pagetable = (m.proc p).pagetable)
    (hM : va < MAXVA → M' (m.proc p).pagetable (va / PGSIZE) = M (m.proc p).pagetable (va / PGSIZE))
    (hkept : ∀ y f, M (m.proc p).pagetable (va / PGSIZE) = some (y, f) → m'.vm.mem y = m.vm.mem y) : m.SameAt m' p va := by
  unfold Machine.SameAt
  rw [hpt]
  by_cases hva : va < MAXVA
  · rw [hinv.binding_eq hroot hva, hinv'.binding_eq hroot' hva, hM hva]
    exact ⟨rfl, hkept⟩
  · rw [binding_above (not_lt.mp hva), binding_above (not_lt.mp hva)]
    exact ⟨rfl, nofun⟩

/-! ### The runs -/

/-- The process has the size `sz` now. -/
def resized (m : Machine) (p : Slot) (t : State) (sz : ℕ) : Machine :=
  { m with vm := t, proc := Function.update m.proc p { m.proc p with sz := sz } }

theorem resized_proc (m : Machine) (p : Slot) (t : State) (sz : ℕ) : (resized m p t sz).proc p = { m.proc p with sz := sz } :=
  Function.update_self p _ m.proc

theorem sysSbrk_up (hn : 0 < n) (h : uvmalloc (m.proc p).pagetable (m.proc p).sz (uint64 ((m.proc p).sz + n)) PTE_W
    { m.vm with actor := .slot p } = .ok r t) : sysSbrk p n m = if r = 0 then .ok none { m with vm := t } else
      .ok (some (m.proc p).sz) (resized m p t r) := by
  change (growproc p n >>= _) m = _
  simp only [growproc, if_pos hn, getProc, bind_apply, gets_apply, lift, zoom, setActor, modify_apply, h]
  split_ifs <;> rfl

theorem sysSbrk_down (hn : n < 0) (h : uvmdealloc (m.proc p).pagetable (m.proc p).sz (uint64 ((m.proc p).sz + n))
    { m.vm with actor := .slot p } = .ok r t) : sysSbrk p n m =
      .ok (some (m.proc p).sz) (resized m p t r) := by
  change (growproc p n >>= _) m = _
  simp only [growproc, if_neg hn.not_gt, if_pos hn, getProc, bind_apply, gets_apply, lift, zoom, setActor, modify_apply, h]
  rfl

/-! ### What is reported -/

theorem uint64_sum {sz : ℕ} (hsz : sz ≤ TRAPFRAME) (h : 0 ≤ (sz : ℤ) + n) (hn : n < 2 ^ 31) :
    (uint64 (sz + n) : ℤ) = sz + n := by
  unfold uint64
  unfold TRAPFRAME TRAMPOLINE MAXVA PGSIZE at hsz
  omega

/-- Asked for more than all, `uvmdealloc` is given a size far above the old one. -/
theorem uint64_below {sz : ℕ} (hsz : sz ≤ TRAPFRAME) (h : (sz : ℤ) + n < 0) (hn : -2 ^ 31 ≤ n) : sz ≤ uint64 (sz + n) := by
  unfold uint64
  unfold TRAPFRAME TRAMPOLINE MAXVA PGSIZE at hsz
  omega

/-- Whatever was allocated and is still in use after a failed `uvmalloc` is part of the page table. -/
theorem Now.no_user_page (hinv : Inv True ∅ M a g s) (hnow : Now True M a root g t) {x : ℕ} (hx : t.holder x ≠ none) :
    t.holder x = s.holder x ∨ ∃ level, TablePage t.mem root level x := by
  obtain ⟨g', hinv', hwithin, -⟩ := hnow
  rw [hinv'.holder] at hx ⊢
  rw [hinv.holder]
  rcases hwithin x with heq | ⟨htied, hfree | ⟨n, hn, hroot⟩⟩
  · exact .inl (by rw [heq])
  · rw [hfree] at hx
    exact absurd rfl hx
  · cases n with
    | table r level pref =>
      obtain rfl : r = root := hroot
      exact .inr ⟨level, hinv'.table_reached hn⟩
    | leaf r pos =>
      -- the map has not changed, so the page was mapped before
      obtain rfl : r = root := hroot
      obtain ⟨hpin, f, hm⟩ := hinv'.leaf_mapped hn
      obtain ⟨o, ho⟩ := Status.place_eq_some.mp (hinv.mapped_page hpin hm)
      rcases htied with hfree | ⟨n, hg, -⟩
      · rw [hfree] at ho
        cases ho
      · exact .inl (by rw [hg, hn]; rfl)

theorem sbrk_grows (hinv : Inv True ∅ M a g m.vm) (hsp : Space True M g p (m.proc p)) (hn : 0 < n) (hmax : n < 2 ^ 31) :
    ∃ r m', sysSbrk p n m = .ok r m' ∧ m.Reports m' p n r := by
  have hinv₀ := hinv.acting (.slot p)
  obtain ⟨t₀, -, hpins⟩ := hsp.pins
  have hnewsz := uint64_sum hsp.sz (by omega) hmax
  have hle : (m.proc p).sz ≤ uint64 ((m.proc p).sz + n) := by omega
  have hspec : Holds (Now True M (.slot p) (m.proc p).pagetable g)
      (uvmalloc (m.proc p).pagetable (m.proc p).sz (uint64 ((m.proc p).sz + n)) PTE_W) _ (Faults True) :=
    uvmalloc_spec hpins (by decide) hsp.sz hsp.exact_
  obtain ⟨r, t, hrun, hpost⟩ := hspec.returns no_faults (hinv₀.now hsp.root)
  have hkept (y : ℕ) (hy : Unmoved M (.slot p) (m.proc p).pagetable g (pageCount (m.proc p).sz) y) : t.mem y = m.vm.mem y := by
    have hframe := (uvmalloc_frames hpins (by decide) hsp.sz hy le_rfl).ok (hinv₀.weaken.now hsp.root) hrun
    exact hframe
  have hmine (pos y f : ℕ) (hm : M (m.proc p).pagetable pos = some (y, f)) : t.mem y = m.vm.mem y :=
    hkept y (hsp.unmoved hm fun hpin => (hsp.exact_ trivial pos hpin).mp (by rw [hm]; nofun))
  rcases hpost with ⟨rfl, hnow⟩ | ⟨rfl, htop, M', hext, g', hinv', hwithin, hroot⟩
  · refine ⟨none, { m with vm := t }, sysSbrk_up hn hrun, rfl, fun va => ?_, fun x hx => hnow.no_user_page hinv₀ hx⟩
    obtain ⟨g', hinv', -, hroot⟩ := hnow
    exact sameAt_of_kept hinv hsp.root hinv' hroot rfl (fun _ => rfl) fun y f hm => hmine _ y f hm
  · rw [max_eq_right hle] at hrun htop hext
    have hr : uint64 ((m.proc p).sz + n) ≠ 0 := by omega
    refine ⟨_, _, (sysSbrk_up hn hrun).trans (if_neg hr), rfl, ?_, fun va hva => ?_, fun va hlo hhi => ?_⟩
    · rwa [resized_proc]
    · have hpos := lt_pageCount hsp.sz (lt_of_lt_of_le (lt_of_lt_of_le hva (min_le_left _ _)) (PGROUNDUP_le hsp.sz).1)
      refine sameAt_of_kept hinv hsp.root hinv' hroot (by rw [resized_proc]) (fun _ => ?_) fun y f hm => hmine _ y f hm
      exact hext.other _ _ fun hin => absurd hpos (not_lt.mpr hin.2.1)
    · rw [resized_proc] at hhi ⊢
      obtain ⟨pte, hpte, hzero⟩ := uvmalloc_zero hinv₀ hsp.root hpins (by decide) hsp.sz hle htop hrun hr hlo hhi
      refine ⟨PTE2PA pte, PTE_FLAGS pte, ?_, fun k _ => ?_⟩
      · change (t.leaf (m.proc p).pagetable va).map _ = _
        rw [hpte, Option.map_some]
      · change getByte (t.mem _) k = 0
        rw [hzero]
        simp [getByte]

theorem sbrk_shrinks (hinv : Inv True ∅ M a g m.vm) (hsp : Space True M g p (m.proc p)) (hn : n < 0) (hmin : -2 ^ 31 ≤ n) :
    ∃ r m', sysSbrk p n m = .ok r m' ∧ (m.Reports m' p n r ↔ 0 ≤ ((m.proc p).sz : ℤ) + n) := by
  have hinv₀ := hinv.acting (.slot p)
  have hspec : Holds (Now True M (.slot p) (m.proc p).pagetable g)
      (uvmdealloc (m.proc p).pagetable (m.proc p).sz (uint64 ((m.proc p).sz + n))) _ (Faults True) :=
    uvmdealloc_spec hsp.sz hsp.exact_
  obtain ⟨r, t, hrun, hr, g', hinv', hwithin, hroot⟩ := hspec.returns no_faults (hinv₀.now hsp.root)
  refine ⟨_, _, sysSbrk_down hn hrun, ?_⟩
  constructor
  · -- the size would have to change
    rintro ⟨-, hsz, -⟩
    rw [resized_proc] at hsz
    by_contra hlow
    have hle := uint64_below hsp.sz (not_le.mp hlow) hmin
    rw [hr, min_eq_left hle] at hsz
    omega
  · intro hlow
    have hnewsz := uint64_sum hsp.sz hlow (by omega)
    have hle : uint64 ((m.proc p).sz + n) ≤ (m.proc p).sz := by omega
    rw [min_eq_right hle] at hr
    subst hr
    refine ⟨rfl, ?_, fun va hva => ?_, fun va hlo hhi => ?_⟩
    · rwa [resized_proc]
    · rw [resized_proc] at hva
      have hlt := lt_of_lt_of_le hva (min_le_right _ _)
      have htop := le_trans hle hsp.sz
      have hpos := lt_pageCount htop (lt_of_lt_of_le hlt (PGROUNDUP_le htop).1)
      refine sameAt_of_kept hinv hsp.root hinv' hroot (by rw [resized_proc]) (fun _ => ?_) fun y f hm => ?_
      · exact PageMap.cut_other fun hin => absurd hpos (not_lt.mpr hin.2.1)
      · have hframe := (uvmdealloc_frames hsp.sz (hsp.unmoved hm fun _ => hpos) le_rfl).ok (hinv₀.weaken.now hsp.root) hrun
        exact hframe
    · rw [resized_proc] at hhi
      exact absurd (lt_of_lt_of_le hhi (PGROUNDUP_mono hle hsp.sz)) (not_lt.mpr hlo)

/-- `sbrk` runs to its end, and has done what it reports just when there was as much memory as it was to take away. -/
theorem sbrk_reports_iff (m : Machine) (h : Tidy True m) (p : Slot) (hp : (m.proc p).pagetable ≠ 0) (n : ℤ)
    (hn : -2 ^ 31 ≤ n ∧ n < 2 ^ 31) :
    ∃ r m', sysSbrk p n m = .ok r m' ∧ (m.Reports m' p n r ↔ 0 ≤ ((m.proc p).sz : ℤ) + n) := by
  obtain ⟨M, g, ⟨a, hinv⟩, hall⟩ := h
  have hsp := hall.space hp
  rcases lt_trichotomy n 0 with hneg | rfl | hpos
  · exact sbrk_shrinks hinv hsp hneg hn.1
  · refine ⟨some (m.proc p).sz, { m with vm := { m.vm with actor := .slot p } }, rfl, iff_of_true ?_ (by omega)⟩
    refine ⟨rfl, (add_zero _).symm, fun va _ => ?_, fun va hlo hhi => ?_⟩
    · have hinv₀ := hinv.acting (.slot p)
      exact sameAt_of_kept hinv hsp.root hinv₀ hsp.root rfl (fun _ => rfl) fun _ _ _ => rfl
    · exact absurd hhi (not_lt.mpr hlo)
  · obtain ⟨r, m', hrun, hreports⟩ := sbrk_grows hinv hsp hpos hn.2
    exact ⟨r, m', hrun, iff_of_true hreports (by omega)⟩

theorem grown_size : ∃ k, SpaceRun.kernelRun smallKernel (fun _ _ => 0) grown = some k ∧ Tidy True k.machine ∧
    (k.machine.proc 0).pagetable ≠ 0 ∧ (k.machine.proc 0).sz = 5000 ∧
    ∃ m', sysSbrk 0 (-5001) k.machine = .ok (some 5000) m' ∧ (m'.proc 0).sz = 5000 := by
  have hrun : (SpaceRun.kernelRun smallKernel (fun _ _ => 0) grown).map (fun k =>
      (decide ((k.machine.proc 0).pagetable ≠ 0), (k.machine.proc 0).sz,
        match sysSbrk 0 (-5001) k.machine with
        | .ok r m' => decide (r = some 5000 ∧ (m'.proc 0).sz = 5000)
        | .fault _ _ => false)) = some (true, 5000, true) := by
    rw [SpaceRun.kernelRun, boot_eq]
    decide +kernel
  obtain ⟨k, hk, hout⟩ := Option.map_eq_some_iff.mp hrun
  simp only [Prod.mk.injEq, decide_eq_true_eq] at hout
  obtain ⟨hp, hsz, hsbrk⟩ := hout
  refine ⟨k, hk, (tidy_kernelRun hk).2, hp, hsz, ?_⟩
  split at hsbrk
  · next r m' heq =>
    obtain ⟨rfl, hsz'⟩ := of_decide_eq_true hsbrk
    exact ⟨m', heq, hsz'⟩
  · cases hsbrk

/-- The process of 5000 bytes gives back 5000. -/
theorem sbrk_reports_all : ∃ k, SpaceRun.kernelRun smallKernel (fun _ _ => 0) grown = some k ∧
    ∃ r m', sysSbrk 0 (-5000) k.machine = .ok r m' ∧ k.machine.Reports m' 0 (-5000) r := by
  obtain ⟨k, hk, htidy, hp, hsz, -⟩ := grown_size
  obtain ⟨r, m', hrun, hiff⟩ := sbrk_reports_iff k.machine htidy 0 hp (-5000) (by norm_num)
  exact ⟨k, hk, r, m', hrun, hiff.mpr (by rw [hsz]; norm_num)⟩

/-- Asked to give back one more it reports success, and has done nothing. -/
theorem sbrk_misreports : ∃ k, SpaceRun.kernelRun smallKernel (fun _ _ => 0) grown = some k ∧ (k.machine.proc 0).sz = 5000 ∧
    ∃ m', sysSbrk 0 (-5001) k.machine = .ok (some 5000) m' ∧ (m'.proc 0).sz = 5000 ∧
      ¬ k.machine.Reports m' 0 (-5001) (some 5000) := by
  obtain ⟨k, hk, -, -, hsz, m', hrun, hsz'⟩ := grown_size
  refine ⟨k, hk, hsz, m', hrun, hsz', fun hreports => ?_⟩
  have hsum := hreports.2.1
  rw [hsz, hsz'] at hsum
  norm_num at hsum

end Xv6.Vm
