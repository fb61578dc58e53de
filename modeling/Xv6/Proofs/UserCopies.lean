import Xv6.Proofs.WriteProtect

/-! `copyin`, `copyout` and `copyinstr` against the references that go byte by byte. -/

namespace Xv6.Vm

open Prog Radix List

variable {s : State} {root va va' len n m i k : ℕ} {p : Slot}

/-! ### `copyin` -/

theorem length_userBytes (s : State) (root va n : ℕ) : (s.userBytes root va n).length = n := by simp [State.userBytes]

theorem userBytes_add (s : State) (root va n m : ℕ) :
    s.userBytes root va (n + m) = s.userBytes root va n ++ s.userBytes root (va + n) m := by
  unfold State.userBytes
  rw [range_add, map_append, map_map]
  simp only [Function.comp_def, add_assoc]

theorem Round.getBytes (h : Round va len n) (hm : m ≤ n) (s : State) (root : ℕ) :
    getBytes (s.mem (s.userPage root va)) (va % PGSIZE) m = s.userBytes root va m := by
  unfold Vm.getBytes State.userBytes State.userByte
  refine map_congr_left fun i hi => ?_
  have hin : i < n := (mem_range.mp hi).trans_le hm
  rw [userPage_va (h.page hin), h.offset hin]

theorem copyinFrom_bytes (h : UserTable s root) (fuel va len : ℕ) (hfuel : len ≤ fuel) :
    ∃ m, s.OkFor root va len m ∧ copyinFrom root fuel va len s = .ok (s.userBytes root va m, decide (m = len)) s := by
  have hempty (va : ℕ) : s.OkFor root va 0 0 :=
    ⟨le_rfl, fun i hi => absurd hi (Nat.not_lt_zero i), fun h => absurd h (Nat.not_lt_zero 0)⟩
  induction fuel generalizing va len with
  | zero =>
    obtain rfl : len = 0 := by omega
    exact ⟨0, hempty va, rfl⟩
  | succ fuel ih =>
    rw [copyinFrom]
    by_cases hzero : len = 0
    · subst hzero
      exact ⟨0, hempty va, rfl⟩
    rw [if_neg hzero, bind_of_ok (walkaddr_eq _ _ s), userPage_va (roundDown_page va), roundDown_offset]
    by_cases hpage : s.userPage root va = 0
    · rw [if_pos hpage]
      refine ⟨0, okFor_nothing h hpage, ?_⟩
      rw [decide_eq_false (Ne.symm hzero)]
      rfl
    rw [if_neg hpage]
    set n := min (PGSIZE - va % PGSIZE) len
    have hround : Round va len n := round_min (Nat.pos_of_ne_zero hzero)
    obtain ⟨m, hok, hrest⟩ := ih (PGROUNDDOWN va + PGSIZE) (len - n) (by have := hround.pos; omega)
    refine ⟨n + m, hround.okFor h hpage hok, ?_⟩
    rw [bind_of_ok (gets_apply _ s), hround.getBytes le_rfl, next_round hpage, bind_of_ok hrest]
    have hle := hround.le
    have hcount : (m = len - n) = (n + m = len) := propext (by omega)
    have hbytes : s.userBytes root (PGROUNDDOWN va + PGSIZE) m = s.userBytes root (va + n) m := by
      rcases hround.last with hlast | hlast
      · obtain rfl : m = 0 := by
          have := hok.1
          omega
        rfl
      · rw [hlast]
    simp only [pure_apply, hcount, hbytes, userBytes_add]

/-! ### `copyinstr` -/

theorem scanNul_spec (d : PageData) (n k : ℕ) :
    (∃ j, j < n ∧ getByte d (k + j) = 0 ∧ (∀ i, i < j → getByte d (k + i) ≠ 0) ∧ scanNul d n k = (getBytes d k (j + 1), true)) ∨
      (∀ i, i < n → getByte d (k + i) ≠ 0) ∧ scanNul d n k = (getBytes d k n, false) := by
  induction n generalizing k with
  | zero => exact .inr ⟨fun i hi => absurd hi (Nat.not_lt_zero i), rfl⟩
  | succ n ih =>
    have hcons (j : ℕ) : getByte d k :: getBytes d (k + 1) j = getBytes d k (j + 1) := by
      unfold getBytes
      rw [range_succ_eq_map, map_cons, map_map]
      simp only [Function.comp_def, Nat.succ_eq_add_one, add_zero, add_assoc, add_comm 1]
    have hshift (i : ℕ) (hi : 0 < i) : k + i = k + 1 + (i - 1) := by omega
    rw [scanNul]
    by_cases hnul : getByte d k = 0
    · rw [if_pos hnul]
      refine .inl ⟨0, Nat.succ_pos n, hnul, fun i hi => absurd hi (Nat.not_lt_zero i), ?_⟩
      rw [← hcons 0, hnul]
      rfl
    · rw [if_neg hnul]
      have hhead (i : ℕ) (hi : 0 < i → getByte d (k + 1 + (i - 1)) ≠ 0) : getByte d (k + i) ≠ 0 := by
        rcases Nat.eq_zero_or_pos i with rfl | hpos
        · exact hnul
        · rw [hshift i hpos]
          exact hi hpos
      rcases ih (k + 1) with ⟨j, hj, hzero, hbefore, heq⟩ | ⟨hall, heq⟩
      · refine .inl ⟨j + 1, by omega, ?_, fun i hi => hhead i fun hpos => hbefore (i - 1) (by omega), ?_⟩
        · rwa [hshift (j + 1) (by omega)]
        · rw [heq]
          exact congrArg (·, true) (hcons (j + 1))
      · refine .inr ⟨fun i hi => hhead i fun hpos => hall (i - 1) (by omega), ?_⟩
        rw [heq]
        exact congrArg (·, false) (hcons n)

theorem Round.userByte (h : Round va len n) (hi : i < n) (s : State) (root : ℕ) :
    s.userByte root (va + i) = getByte (s.mem (s.userPage root va)) (va % PGSIZE + i) := by
  unfold State.userByte
  rw [userPage_va (h.page hi), h.offset hi]

theorem copyinstrFrom_bytes (h : UserTable s root) (fuel va max : ℕ) (hfuel : max ≤ fuel) :
    ∃ bs, bs.length ≤ max ∧
      ((∃ k, k < max ∧ s.StringAt root va k ∧ bs = s.userBytes root va (k + 1) ∧
          copyinstrFrom root fuel va max s = .ok (bs, true) s) ∨
        (∀ k, k < max → ¬s.StringAt root va k) ∧ copyinstrFrom root fuel va max s = .ok (bs, false) s) := by
  have hempty (va : ℕ) : ∀ k, k < 0 → ¬s.StringAt root va k := fun k hk => absurd hk (Nat.not_lt_zero k)
  induction fuel generalizing va max with
  | zero =>
    obtain rfl : max = 0 := by omega
    exact ⟨[], le_rfl, .inr ⟨hempty va, rfl⟩⟩
  | succ fuel ih =>
    rw [copyinstrFrom]
    by_cases hzero : max = 0
    · subst hzero
      exact ⟨[], le_rfl, .inr ⟨hempty va, rfl⟩⟩
    rw [if_neg hzero, bind_of_ok (walkaddr_eq _ _ s), userPage_va (roundDown_page va), roundDown_offset]
    by_cases hpage : s.userPage root va = 0
    · rw [if_pos hpage]
      exact ⟨[], Nat.zero_le _, .inr ⟨fun k _ hstr => h.noAccess hpage (hstr.1 0 (Nat.zero_le k)), rfl⟩⟩
    rw [if_neg hpage]
    set n := min (PGSIZE - va % PGSIZE) max
    have hround : Round va max n := round_min (Nat.pos_of_ne_zero hzero)
    have hle := hround.le
    rw [bind_of_ok (gets_apply _ s)]
    rcases scanNul_spec (s.mem (s.userPage root va)) n (va % PGSIZE) with ⟨j, hj, hnul, hbefore, heq⟩ | ⟨hall, heq⟩
    · -- the string ends in this page
      have hstr : s.StringAt root va j := by
        refine ⟨fun i hi => hround.userOk h hpage (by omega), ?_, fun i hi => ?_⟩
        · rwa [hround.userByte hj]
        · rw [hround.userByte (by omega)]
          exact hbefore i hi
      refine ⟨s.userBytes root va (j + 1), by rw [length_userBytes]; omega, .inl ⟨j, by omega, hstr, rfl, ?_⟩⟩
      rw [heq, if_pos rfl, hround.getBytes hj]
      rfl
    · obtain ⟨bs, hbs, hrest⟩ := ih (PGROUNDDOWN va + PGSIZE) (max - n) (by have := hround.pos; omega)
      have hnonzero (i : ℕ) (hi : i < n) : s.userByte root (va + i) ≠ 0 := by
        rw [hround.userByte hi]
        exact hall i hi
      -- a longer string goes on in the next page
      have hnext (hlt : n < max) : PGROUNDDOWN va + PGSIZE = va + n := by
        rcases hround.last with hlast | hlast
        · omega
        · exact hlast.symm
      have hlength : (s.userBytes root va n ++ bs).length ≤ max := by
        have hadd := Nat.add_le_add_left hbs n
        rwa [length_append, length_userBytes, ← Nat.add_sub_cancel' hle]
      refine ⟨s.userBytes root va n ++ bs, hlength, ?_⟩
      rw [heq, if_neg (by simp), hround.getBytes le_rfl, next_round hpage]
      rcases hrest with ⟨k, hk, hstr, hbytes, hrest⟩ | ⟨hnone, hrest⟩
      · have hmore : n < max := Nat.lt_of_sub_pos ((Nat.zero_le k).trans_lt hk)
        rw [hnext hmore] at hstr hbytes
        refine .inl ⟨n + k, by omega, ⟨fun i hi => ?_, ?_, fun i hi => ?_⟩, ?_, ?_⟩
        · rcases Nat.lt_or_ge i n with hin | hin
          · exact hround.userOk h hpage hin
          · have := hstr.1 (i - n) (by omega)
            rwa [add_assoc, Nat.add_sub_cancel' hin] at this
        · rw [← add_assoc]
          exact hstr.2.1
        · rcases Nat.lt_or_ge i n with hin | hin
          · exact hnonzero i hin
          · have := hstr.2.2 (i - n) (by omega)
            rwa [add_assoc, Nat.add_sub_cancel' hin] at this
        · rw [add_assoc, userBytes_add, hbytes]
        · rw [bind_of_ok hrest]
          rfl
      · refine .inr ⟨fun k hk hstr => ?_, ?_⟩
        · have hkn : n ≤ k := by
            by_contra hlt
            exact hnonzero k (not_le.mp hlt) hstr.2.1
          refine hnone (k - n) (by omega) ?_
          rw [hnext (by omega)]
          have hindex (i : ℕ) : va + n + i = va + (n + i) := add_assoc ..
          refine ⟨fun i hi => ?_, ?_, fun i hi => ?_⟩
          · rw [hindex]
            exact hstr.1 _ (by omega)
          · rw [hindex, Nat.add_sub_cancel' hkn]
            exact hstr.2.1
          · rw [hindex]
            exact hstr.2.2 _ (by omega)
        · rw [bind_of_ok hrest]
          rfl

/-! ### Runs -/

theorem userTable_kernelRun {l : Layout} {mem : ℕ → PageData} {es : List (KernelOp × List Bool)} {k : SpaceRun}
    (h : SpaceRun.kernelRun l mem es = some k) (hp : (k.machine.proc p).pagetable ≠ 0) :
    UserTable k.machine.vm (k.machine.proc p).pagetable := by
  obtain ⟨-, M, g, ⟨a, hinv⟩, hall⟩ := tidy_kernelRun h
  exact hinv.userTable (hall.space hp).root

/-! ### The transfers -/

theorem State.OkFor.all_iff (h : s.OkFor root va len m) : m = len ↔ ∀ i, i < len → s.UserOk root (va + i) := by
  constructor
  · rintro rfl
    exact h.2.1
  · intro hall
    by_contra hne
    have hlt : m < len := lt_of_le_of_ne h.1 hne
    exact h.2.2 hlt (hall m hlt)

/-- Both transfers go through the addresses one by one as far as the user may access them, and change nothing else. -/
theorem user_copies (s : State) (root : ℕ) (h : UserTable s root) (va : ℕ) :
    (∀ dst len buf, ∃ m b, s.OkFor root va len m ∧ (b = true ↔ ∀ i, i < len → s.UserOk root (va + i)) ∧
      copyinTo root dst va len buf s = .ok (b, fill buf dst (s.userBytes root va m)) s) ∧
    ∀ src : List UInt8, ∃ m b mem, s.OkFor root va src.length m ∧
      (b = true ↔ ∀ i, i < src.length → s.UserOk root (va + i)) ∧
      copyout root va src s = .ok b { s with mem := mem } ∧ mem = storeBytes (s.userPage root) va (src.take m) s.mem ∧
      ∀ y k, (∀ i, i < m → s.userPage root (va + i) = y → (va + i) % PGSIZE ≠ k) →
        getByte (mem y) k = getByte (s.mem y) k := by
  refine ⟨fun dst len buf => ?_, fun src => ?_⟩
  · obtain ⟨m, hok, hrun⟩ := copyinFrom_bytes h len va len le_rfl
    refine ⟨m, _, hok, ?_, bind_of_ok hrun _⟩
    rw [decide_eq_true_iff]
    exact hok.all_iff
  · obtain ⟨m, hok, hrun⟩ := copyoutFrom_bytes src.length va src le_rfl s h
    refine ⟨m, _, _, hok, ?_, hrun, rfl, fun y k hy => ?_⟩
    · rw [decide_eq_true_iff]
      exact hok.all_iff
    · refine getByte_storeBytes _ _ _ _ y k fun i hi => hy i ?_
      rw [length_take] at hi
      omega

/-- A process of 5000 bytes that has stored `hi` across its page boundary. -/
def grown : List (KernelOp × List Bool) :=
  [(.space (.create 0), []), (.space (.grow 0 5000), []), (.space (.store 0 4095 104), []), (.space (.store 0 4096 105), [])]

theorem grown_runs : ∃ k, SpaceRun.kernelRun smallKernel (fun _ _ => 0) grown = some k ∧
    (k.machine.proc 0).pagetable ≠ 0 := by
  have hrun : (SpaceRun.kernelRun smallKernel (fun _ _ => 0) grown).map (fun k => decide ((k.machine.proc 0).pagetable ≠ 0)) =
      some true := by
    rw [SpaceRun.kernelRun, boot_eq]
    decide +kernel
  obtain ⟨k, hk, hp⟩ := Option.map_eq_some_iff.mp hrun
  exact ⟨k, hk, of_decide_eq_true hp⟩

/-- Twenty bytes across its page boundary. -/
theorem user_copies_grown : ∃ k, SpaceRun.kernelRun smallKernel (fun _ _ => 0) grown = some k ∧
    ∃ m b, k.machine.vm.OkFor (k.machine.proc 0).pagetable 4090 20 m ∧
      (b = true ↔ ∀ i, i < 20 → k.machine.vm.UserOk (k.machine.proc 0).pagetable (4090 + i)) ∧
      copyinTo (k.machine.proc 0).pagetable 0 4090 20 (fun _ => 7) k.machine.vm =
        .ok (b, fill (fun _ => 7) 0 (k.machine.vm.userBytes (k.machine.proc 0).pagetable 4090 m)) k.machine.vm := by
  obtain ⟨k, hk, hp⟩ := grown_runs
  exact ⟨k, hk, (user_copies _ _ (userTable_kernelRun hk hp) 4090).1 0 20 fun _ => 7⟩

/-! ### Strings -/

theorem State.StringAt.unique {k' : ℕ} (h : s.StringAt root va k) (h' : s.StringAt root va k') : k = k' := by
  rcases Nat.lt_trichotomy k k' with hlt | heq | hlt
  · exact absurd h.2.1 (h'.2.2 k hlt)
  · exact heq
  · exact absurd h'.2.1 (h.2.2 k' hlt)

theorem strlen_string (h : s.StringAt root va k) (rest : List UInt8) :
    strlen (s.userBytes root va (k + 1) ++ rest) = .length k := by
  have hidx : (s.userBytes root va (k + 1) ++ rest).findIdx? (fun c => c = 0) = some k := by
    rw [List.findIdx?_eq_some_iff_getElem]
    have hlen := length_userBytes s root va (k + 1)
    refine ⟨by rw [length_append]; omega, ?_, fun j hj => ?_⟩
    · rw [getElem_append_left (by omega)]
      simpa [State.userBytes] using h.2.1
    · rw [getElem_append_left (by omega)]
      simpa [State.userBytes] using h.2.2 j hj
  unfold strlen
  rw [hidx]

theorem fetchstr_fetches (h : UserTable s root) (va : ℕ) (buf : List UInt8) : s.Fetches root va buf (fetchstr root va buf) := by
  unfold State.Fetches fetchstr copyinstr
  obtain ⟨bs, -, ⟨k, hk, hstr, rfl, hrun⟩ | ⟨hnone, hrun⟩⟩ := copyinstrFrom_bytes h buf.length va buf.length le_rfl
  · rw [bind_of_ok hrun]
    refine ⟨_, _, rfl, ?_, ?_, fun k' _ hstr' => ?_⟩
    · rw [strlen_string hstr]
      nofun
    · rw [strlen_string hstr]
      exact iff_of_false nofun fun hnone => hnone k hk hstr
    · rw [strlen_string hstr, hstr.unique hstr', length_userBytes]
      exact ⟨rfl, rfl⟩
  · rw [bind_of_ok hrun]
    exact ⟨_, _, rfl, nofun, iff_of_true rfl hnone, fun k hk hstr => absurd hstr (hnone k hk)⟩

theorem user_strings (s : State) (root : ℕ) (h : UserTable s root) :
    (∀ va max, ∃ bs b, copyinstr root va max s = .ok (bs, b) s ∧ bs.length ≤ max ∧
      (b = true ↔ ∃ k, k < max ∧ s.StringAt root va k) ∧
      ∀ k, k < max → s.StringAt root va k → bs = s.userBytes root va (k + 1)) ∧
    (∀ va buf, s.Fetches root va buf (fetchstr root va buf)) ∧
    ∀ (q : Proc) (n : Fin 6) buf, q.pagetable = root → s.Fetches root (s.mem q.trapframe (14 + n)) buf (argstr q n buf) := by
  refine ⟨fun va max => ?_, fun va buf => fetchstr_fetches h va buf, fun q n buf hq => ?_⟩
  · obtain ⟨bs, hbs, ⟨k, hk, hstr, rfl, hrun⟩ | ⟨hnone, hrun⟩⟩ := copyinstrFrom_bytes h max va max le_rfl
    · refine ⟨_, true, hrun, hbs, iff_of_true rfl ⟨k, hk, hstr⟩, fun k' _ hstr' => ?_⟩
      rw [hstr.unique hstr']
    · refine ⟨bs, false, hrun, hbs, iff_of_false nofun fun ⟨k, hk, hstr⟩ => hnone k hk hstr, fun k hk hstr => ?_⟩
      exact absurd hstr (hnone k hk)
  · subst hq
    exact fetchstr_fetches h _ buf

/-- The string across the page boundary, into a buffer that holds no NUL. -/
theorem user_strings_grown : ∃ k s, SpaceRun.kernelRun smallKernel (fun _ _ => 0) grown = some k ∧
    fetchstr (k.machine.proc 0).pagetable 4095 (replicate 128 1) k.machine.vm =
      .ok (.length 2, [104, 105, 0] ++ replicate 125 1) s ∧
    k.machine.vm.Fetches (k.machine.proc 0).pagetable 4095 (replicate 128 1)
      (fetchstr (k.machine.proc 0).pagetable 4095 (replicate 128 1)) := by
  obtain ⟨k, hk, hp⟩ := grown_runs
  have hrun : (SpaceRun.kernelRun smallKernel (fun _ _ => 0) grown).map (fun k =>
      match fetchstr (k.machine.proc 0).pagetable 4095 (replicate 128 1) k.machine.vm with
      | .ok r _ => some r
      | .fault _ _ => none) = some (some (.length 2, [104, 105, 0] ++ replicate 125 1)) := by
    rw [SpaceRun.kernelRun, boot_eq]
    decide +kernel
  rw [hk] at hrun
  have hfetch := (user_strings _ _ (userTable_kernelRun hk hp)).2.1 4095 (replicate 128 1)
  obtain ⟨r, buf, hok, -⟩ := id hfetch
  simp only [Option.map_some, hok, Option.some.injEq] at hrun
  exact ⟨k, _, hk, hrun ▸ hok, hfetch⟩

end Xv6.Vm
