import Xv6.Proofs.UserPages

/-! `copyout` and write protection. `walkaddr` asks for PTE_V and PTE_U and not for PTE_W, so that `copyout` stores to every
page it reaches, read-only or not, and to no other one. -/

namespace Xv6.Vm

open Prog Radix List

variable {M : PageMap} {a o : Owner} {g : Pages} {s : State} {root va : ℕ} {p q : Slot} {m : Machine}

/-- The page that the map says. -/
def mapPage (M : PageMap) (root va : ℕ) : ℕ :=
  if MAXVA ≤ va then 0
  else
    match M root (va / PGSIZE) with
    | none => 0
    | some (y, f) => if f &&& PTE_U = 0 then 0 else y

theorem Inv.userPage_eq (h : Inv True ∅ M a g s) (hroot : g root = .node o (.table root 2 0)) (va : ℕ) :
    s.userPage root va = mapPage M root va := by
  unfold State.userPage mapPage
  by_cases hva : MAXVA ≤ va
  · rw [if_pos hva, if_pos hva]
  · rw [if_neg hva, if_neg hva]
    have heq := (h.leaf_eq hroot (not_le.mp hva)).1
    cases hleaf : s.leaf root va with
    | none =>
      rw [hleaf] at heq
      rw [← heq]
      rfl
    | some pte =>
      rw [hleaf] at heq
      rw [← heq]
      have hflag : pte &&& PTE_U = PTE_FLAGS pte &&& PTE_U := and_flags (by decide) pte
      simp only [Option.map_some, hflag]

/-- A user page belongs to its position. -/
theorem Inv.mapPage_node (h : Inv True ∅ M a g s) (hroot : g root = .node o (.table root 2 0)) (hy : mapPage M root va ≠ 0) :
    ∃ f, va < MAXVA ∧ M root (va / PGSIZE) = some (mapPage M root va, f) ∧ f &&& PTE_U ≠ 0 ∧
      g (mapPage M root va) = .node o (.leaf root (va / PGSIZE)) := by
  unfold mapPage at hy ⊢
  split_ifs at hy ⊢ with hva
  · exact absurd rfl hy
  · cases hm : M root (va / PGSIZE) with
    | none =>
      rw [hm] at hy
      exact absurd rfl hy
    | some v =>
      obtain ⟨y, f⟩ := v
      rw [hm] at hy
      dsimp only at hy ⊢
      split_ifs at hy ⊢ with hu
      · exact absurd rfl hy
      · refine ⟨f, not_le.mp hva, rfl, hu, ?_⟩
        have hpin : ¬ sv39.pinned (va / PGSIZE) := fun hpin => hu (h.pin_flags hpin hm)
        obtain ⟨o', ho'⟩ := Status.place_eq_some.mp (h.mapped_page hpin hm)
        rw [ho', h.same_owner ho' hroot rfl]

/-! ### copyout -/

variable {page : ℕ → ℕ} {dstva len n i pte : ℕ} {src : List UInt8} {k : SpaceRun} {b : UInt8}

/-- The pages that `copyout` reaches are those of the bytes that it stores. -/
theorem reaches_iff (h : UserTable s root) (hok : s.OkFor root dstva len n) :
    Reaches (s.userPage root) dstva len va ↔ ∃ i, i < n ∧ va = PGROUNDDOWN (dstva + i) := by
  have hpage (i : ℕ) (hi : i < n) {v : ℕ} (hv : v / PGSIZE = (dstva + i) / PGSIZE) : s.userPage root v ≠ 0 :=
    (h.userPage_iff v).mpr ((userOk_va hv s root).mpr (hok.2.1 i hi))
  constructor
  · rintro ⟨hlen, j, rfl, hlt, hall⟩
    refine ⟨PGROUNDDOWN dstva + j * PGSIZE - dstva, ?_, by unfold PGROUNDDOWN PGSIZE at *; omega⟩
    by_contra hge
    -- the byte that cannot be stored is in a page before
    have hbad := hok.2.2 (by omega)
    refine hall ((dstva + n) / PGSIZE - dstva / PGSIZE) (by unfold PGROUNDDOWN PGSIZE at *; omega) ?_
    by_contra hne
    refine hbad ((userOk_va ?_ s root).mp ((h.userPage_iff _).mp hne))
    unfold PGROUNDDOWN PGSIZE at *
    omega
  · rintro ⟨i, hi, rfl⟩
    have hle := hok.1
    refine ⟨by omega, (dstva + i) / PGSIZE - dstva / PGSIZE, ?_, ?_, fun j hj => ?_⟩
    · unfold PGROUNDDOWN PGSIZE
      omega
    · unfold PGROUNDDOWN PGSIZE
      omega
    · refine hpage (PGROUNDDOWN dstva + j * PGSIZE - dstva) ?_ ?_
      all_goals unfold PGROUNDDOWN PGSIZE at *
      all_goals omega

theorem storeBytes_const (page : ℕ → ℕ) (b : UInt8) (n va : ℕ) (mem : ℕ → PageData) {y k : ℕ}
    (h : getByte (mem y) k = b ∨ ∃ i, i < n ∧ y = page (va + i) ∧ k = (va + i) % PGSIZE) :
    getByte (storeBytes page va (List.replicate n b) mem y) k = b := by
  induction n generalizing va mem with
  | zero => exact h.resolve_right fun ⟨i, hi, _⟩ => absurd hi (Nat.not_lt_zero i)
  | succ n ih =>
    rw [replicate_succ, storeBytes]
    refine ih (va + 1) _ ?_
    unfold setPage
    by_cases hnow : y = page va ∧ k = va % PGSIZE
    · left
      rw [if_pos hnow.1, getByte_putByte, if_pos hnow.2]
    · rcases h with h | ⟨i, hi, hy, hk⟩
      · left
        split_ifs with hy
        · rwa [getByte_putByte, if_neg fun hk => hnow ⟨hy, hk⟩, ← hy]
        · exact h
      · cases i with
        | zero => exact absurd ⟨hy, hk⟩ hnow
        | succ i =>
          rw [show va + (i + 1) = va + 1 + i by omega] at hy hk
          exact .inr ⟨i, by omega, hy, hk⟩

/-! ### Runs -/

theorem kernelOp_spec (e : KernelOp) : Holds (fun m => Tidy True m ∧ e.Enabled m) e.prog (fun _ => Tidy True) (Stops True) := by
  cases e with
  | space e => exact spaceOp_spec e
  | copyout p dstva src =>
    rintro m ⟨⟨M, g, ⟨a, hinv⟩, hall⟩, hen⟩
    have hspec : Holds (At (Inv True ∅ M a g) m.proc) (KernelOp.copyout p dstva src).prog
        (fun _ => At (Inv True ∅ M a g) m.proc) (Stops True) :=
      getProc_at (holds_bind (lift_at (copyout_spec (hall.space hen).root dstva src)) fun _ => holds_pure fun _ h => h)
    refine hspec.start ⟨hinv, rfl⟩ (fun _ t ht => ⟨M, g, ⟨a, ht.1⟩, ?_⟩) m rfl
    rwa [ht.2]

theorem KernelOp.enabled_restart {e : KernelOp} (h : e.Enabled m) (oom : List Bool) :
    e.Enabled { m with vm := { m.vm with oom := oom, trace := [] } } := by
  cases e with
  | space e => exact SpaceOp.enabled_restart h oom
  | copyout => exact h

theorem tidy_kernelStep {k' : SpaceRun} {e : KernelOp × List Bool} (hk : k.panic = none ∧ Tidy True k.machine)
    (h : k.kernelStep e = some k') : k'.panic = none ∧ Tidy True k'.machine := by
  unfold SpaceRun.kernelStep at h
  split_ifs at h with hpanic hen
  obtain ⟨_, t, heq, ht⟩ := (kernelOp_spec e.1).returns no_stops ⟨hk.2.restart e.2, KernelOp.enabled_restart hen e.2⟩
  rw [heq] at h
  cases h
  exact ⟨rfl, ht⟩

theorem tidy_kernelRun {l : Layout} {mem : ℕ → PageData} {es : List (KernelOp × List Bool)}
    (h : SpaceRun.kernelRun l mem es = some k) : k.panic = none ∧ Tidy True k.machine :=
  @System.exec_invariant _ _ SpaceRun.kernelStep (fun k => k.panic = none ∧ Tidy True k.machine) _ ⟨rfl, tidy_boot l mem⟩
    (fun _ _ _ hk hs => tidy_kernelStep hk hs) es k h

/-- The step of a system call that stores. -/
theorem copyout_step (hpanic : k.panic = none) (hp : (k.machine.proc p).pagetable ≠ 0)
    (h : UserTable k.machine.vm (k.machine.proc p).pagetable) (dstva : ℕ) (src : List UInt8) (oom : List Bool) :
    ∃ n t, k.machine.vm.OkFor (k.machine.proc p).pagetable dstva src.length n ∧
      k.kernelStep (.copyout p dstva src, oom) = some ⟨{ k.machine with vm := t }, none⟩ ∧
      t.mem = storeBytes (k.machine.vm.userPage (k.machine.proc p).pagetable) dstva (src.take n) k.machine.vm.mem := by
  set m : Machine := { k.machine with vm := { k.machine.vm with oom := oom, trace := [] } } with hm
  have hmem (level x : ℕ) (_ : TablePage k.machine.vm.mem (k.machine.proc p).pagetable level x) :
      m.vm.mem x = k.machine.vm.mem x := rfl
  obtain ⟨n, hok, ht⟩ := copyoutFrom_bytes src.length dstva src le_rfl m.vm (h.keep hmem rfl)
  have hprog : (KernelOp.copyout p dstva src).prog m = .ok () { m with vm := { m.vm with
      mem := storeBytes (m.vm.userPage (k.machine.proc p).pagetable) dstva (src.take n) m.vm.mem } } := by
    change (lift (copyoutFrom _ src.length dstva src) >>= fun _ => pure ()) m = _
    unfold lift
    rw [bind_of_ok (show zoom _ _ _ m = .ok (decide (n = src.length)) _ by unfold zoom; rw [ht])]
    rfl
  rw [userPage_tables hmem] at hprog
  refine ⟨n, { m.vm with mem := _ }, ?_, ?step, rfl⟩
  case step =>
    unfold SpaceRun.kernelStep
    dsimp only
    rw [if_neg (by simp [hpanic]), if_pos (show (KernelOp.copyout p dstva src).Enabled k.machine from hp), hprog]
  unfold State.OkFor at hok ⊢
  simpa only [userOk_tables hmem] using hok

/-- A read-only page in the map. -/
theorem Machine.ReadOnly.mapped (hro : m.ReadOnly q va pte) (h : Inv True ∅ M a g m.vm)
    (hroot : g (m.proc q).pagetable = .node o (.table (m.proc q).pagetable 2 0)) :
    M (m.proc q).pagetable (va / PGSIZE) = some (PTE2PA pte, PTE_FLAGS pte) ∧
      mapPage M (m.proc q).pagetable va = PTE2PA pte ∧ PTE2PA pte ≠ 0 := by
  obtain ⟨-, hva, hleaf, hu, -⟩ := hro
  have hm := (h.leaf_eq hroot hva).1
  rw [hleaf, Option.map_some] at hm
  have hflag : PTE_FLAGS pte &&& PTE_U ≠ 0 := by
    rwa [PTE_FLAGS, ← and_flags (by decide)]
  have hpin : ¬ sv39.pinned (va / PGSIZE) := fun hpin => hflag (h.pin_flags hpin hm.symm)
  obtain ⟨o', ho'⟩ := Status.place_eq_some.mp (h.mapped_page hpin hm.symm)
  refine ⟨hm.symm, ?_, (h.page_lt (by simp [ho'])).1.ne'⟩
  unfold mapPage
  rw [if_neg (not_le.mpr hva), ← hm]
  exact if_neg hflag

/-- The only read-only page that a store to `v` could change is the one at `v` itself. -/
theorem Mapped.same_page {v : ℕ} (hall : Mapped True M g m.proc) (h : Inv True ∅ M a g m.vm) (hro : m.ReadOnly q va pte)
    (hp : (m.proc p).pagetable ≠ 0) (heq : mapPage M (m.proc p).pagetable v = PTE2PA pte) : ∃ pte', m.ReadOnly p v pte' := by
  have hrootp := (hall.space hp).root
  have hrootq := (hall.space hro.1).root
  obtain ⟨hmq, hpage, hne⟩ := hro.mapped h hrootq
  have hnev : mapPage M (m.proc p).pagetable v ≠ 0 := heq ▸ hne
  have hneq : mapPage M (m.proc q).pagetable va ≠ 0 := hpage ▸ hne
  obtain ⟨f, hv, hmp, hu, hgp⟩ := h.mapPage_node hrootp hnev
  obtain ⟨-, -, -, -, hgq⟩ := h.mapPage_node hrootq hneq
  -- the page belongs to one position of one process
  rw [heq] at hgp hmp
  rw [hpage, hgp] at hgq
  injection hgq with hslot hleaf
  injection hleaf with hroots hpos
  rw [hroots, hpos, hmq] at hmp
  obtain ⟨pte', hpte', -, hflags, -⟩ := h.leaf_some hrootp hv (v := (PTE2PA pte, PTE_FLAGS pte)) (by rw [hroots, hpos, hmq])
  have hsame {x : ℕ} (hx : 1023 &&& x = x) : pte' &&& x = pte &&& x := by
    rw [and_flags hx, and_flags hx pte]
    exact congrArg (· &&& x) hflags
  refine ⟨pte', hp, hv, hpte', ?_, ?_⟩
  · rw [hsame (by decide)]
    exact hro.2.2.2.1
  · rw [hsame (by decide)]
    exact hro.2.2.2.2

/-- In every state that a run of the kernel reaches: a system call that stores `len` bytes at `dstva` leaves every read-only
user page as it is, whatever the bytes, exactly if it reaches no read-only page. -/
theorem copyout_spares_iff {l : Layout} {mem : ℕ → PageData} {es : List (KernelOp × List Bool)} {k : SpaceRun}
    (hrun : SpaceRun.kernelRun l mem es = some k) (p : Slot) (hp : (k.machine.proc p).pagetable ≠ 0) (dstva len : ℕ) :
    (∀ src : List UInt8, src.length = len → ∀ k', k.kernelStep (.copyout p dstva src, []) = some k' →
        k.machine.Spares k'.machine) ↔
      ∀ va pte, Reaches (k.machine.vm.userPage (k.machine.proc p).pagetable) dstva len va → ¬ k.machine.ReadOnly p va pte := by
  obtain ⟨hpanic, M, g, ⟨a, hinv⟩, hall⟩ := tidy_kernelRun hrun
  have hroot := (hall.space hp).root
  have htable := hinv.userTable hroot
  constructor
  · intro hspares va pte hreach hro
    obtain ⟨-, hpage, -⟩ := hro.mapped hinv hroot
    obtain ⟨n, hok⟩ : ∃ n, k.machine.vm.OkFor (k.machine.proc p).pagetable dstva len n := by
      obtain ⟨n, -, hok, -⟩ := copyout_step hpanic hp htable dstva (replicate len 0) []
      exact ⟨n, by rwa [length_replicate] at hok⟩
    obtain ⟨i, hi, rfl⟩ := (reaches_iff htable hok).mp hreach
    -- store a byte that is not there
    set old := getByte (k.machine.vm.mem (PTE2PA pte)) ((dstva + i) % PGSIZE)
    obtain ⟨n', t, hok', hstep, hmem⟩ := copyout_step hpanic hp htable dstva (replicate len (old + 1)) []
    rw [length_replicate] at hok'
    have hin : i < min n' len := by
      have hle := hok.1
      by_contra hge
      exact hok'.2.2 (by omega) (hok.2.1 n' (by omega))
    have hsame := hspares _ length_replicate _ hstep p _ pte hro ((dstva + i) % PGSIZE) (Nat.mod_lt _ (by decide))
    change getByte (t.mem _) _ = old at hsame
    rw [hmem, take_replicate, ← hpage, ← hinv.userPage_eq hroot, userPage_va (roundDown_page _),
      storeBytes_const _ _ _ _ _ (.inr ⟨i, hin, rfl, rfl⟩)] at hsame
    exact absurd hsame (by simp)
  · intro hsafe src hlen k' hstep q va pte hro off _
    obtain ⟨n, t, hok, ht, hmem⟩ := copyout_step hpanic hp htable dstva src []
    cases ht.symm.trans hstep
    change getByte (t.mem _) off = _
    rw [hmem]
    refine getByte_storeBytes _ _ _ _ _ off fun i hi heq => ?_
    rw [hlen] at hok
    have hin : i < n := by
      rw [length_take] at hi
      omega
    obtain ⟨pte', hro'⟩ := hall.same_page hinv hro hp (v := PGROUNDDOWN (dstva + i)) (by
      rw [← hinv.userPage_eq hroot, userPage_va (roundDown_page _), heq])
    exact absurd hro' (hsafe _ pte' ((reaches_iff htable hok).mpr ⟨i, hin, rfl⟩))

/-- An ELF file with one segment, which may be read and executed: one byte at address 0. -/
def tinyElf : List UInt8 :=
  [0x7f, 0x45, 0x4c, 0x46] ++ List.replicate 28 0 ++ [64] ++ List.replicate 23 0 ++ [1] ++ List.replicate 7 0 ++
    [1, 0, 0, 0, 5, 0, 0, 0, 120] ++ List.replicate 23 0 ++ [1] ++ List.replicate 7 0 ++ [1] ++ List.replicate 15 0 ++ [0x2a]

def execTiny : List (KernelOp × List Bool) :=
  [(.space (.create 0), []), (.space (.exec 0 (some fun off n => (tinyElf.drop off).take n) []), [])]

/-- After `exec` of that file, a `read` to the stack page leaves the text as it is. -/
theorem copyout_spares_stack : ∃ k, SpaceRun.kernelRun smallKernel (fun _ _ => 0) execTiny = some k ∧
    ∀ src : List UInt8, src.length = 4 → ∀ k', k.kernelStep (.copyout 0 8192 src, []) = some k' →
      k.machine.Spares k'.machine := by
  have hrun : (SpaceRun.kernelRun smallKernel (fun _ _ => 0) execTiny).map (fun k =>
      (decide ((k.machine.proc 0).pagetable ≠ 0), (k.machine.vm.leaf (k.machine.proc 0).pagetable 8192).map (· &&& PTE_W))) =
        some (true, some 4) := by
    rw [SpaceRun.kernelRun, boot_eq]
    decide +kernel
  obtain ⟨k, hk, hout⟩ := Option.map_eq_some_iff.mp hrun
  obtain ⟨hp, hw⟩ := Prod.mk.inj hout
  refine ⟨k, hk, (copyout_spares_iff hk 0 (of_decide_eq_true hp) 8192 4).mpr ?_⟩
  rintro va pte ⟨-, j, rfl, hlt, -⟩ ⟨-, -, hleaf, -, hro⟩
  obtain rfl : j = 0 := by
    unfold PGROUNDDOWN PGSIZE at hlt
    omega
  rw [show PGROUNDDOWN 8192 + 0 * PGSIZE = 8192 from rfl] at hleaf
  rw [hleaf, Option.map_some, hro] at hw
  cases hw

/-- A `read` to address 0 overwrites the text, whose page table entry has PTE_V, PTE_R, PTE_X and PTE_U and not PTE_W. -/
theorem text_overwritten :
    ((SpaceRun.kernelRun smallKernel (fun _ _ => 0) execTiny).bind fun k =>
      (k.kernelStep (.copyout 0 0 [0x63], [])).map fun k' =>
        (k.machine.vm.leaf (k.machine.proc 0).pagetable 0).map fun pte => (pte &&& 31,
          getByte (k.machine.vm.mem (PTE2PA pte)) 0, getByte (k'.machine.vm.mem (PTE2PA pte)) 0)) =
      some (some (PTE_V ||| PTE_R ||| PTE_X ||| PTE_U, 0x2a, 0x63)) := by
  rw [SpaceRun.kernelRun, boot_eq]
  decide +kernel

end Xv6.Vm
