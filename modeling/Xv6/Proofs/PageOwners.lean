import Xv6.Sanity.Syscalls

/-! Who frees which page, over whole runs. A page is freed for someone who does not hold
it exactly if `allocproc` gives a slot up whose `trapframe_copy` still points to the
page of an earlier life: `freeproc` then frees that page again. -/

namespace Xv6.Vm

open Prog Radix

variable {C : Prop} {M M' : PageMap} {a : Owner} {g g' : Pages} {p : Slot} {pr : Slot → Proc} {m : Machine}

/-! ### The first process -/

theorem uvmfirst_spec {root : ℕ} {k : ℕ × ℕ} (hpins : Pins M root k) (src : List UInt8) :
    Holds (Now False M a root g) (uvmfirst root src) (fun _ s => ∃ M' g', Inv False ∅ M' a g' s ∧ Pins M' root k ∧
      Steady a M g M' g' ∧ g' root = .node a (.table root 2 0)) (Faults False) := by
  refine holds_ite (fun _ => holds_fail fun s hs => ⟨hs.good, id⟩) fun _ => holds_bind kalloc_now fun mem => ?_
  refine holds_ite (fun h0 => ?_) fun h0 => ?_
  · rw [if_pos h0]
    exact holds_fail fun s hs => ⟨hs.good, id⟩
  · rw [if_neg h0]
    refine holds_bind (poke_hand _) fun _ => ?_
    refine holds_assume (c := Tied a root (g root)) ?_ fun htied => ?_
    · rintro s ⟨g', _, hwithin, hroot, _⟩
      exact hwithin.tied (.inr ⟨_, hroot, rfl⟩)
    refine holds_bind (mappages_user hpins (by norm_num) (by decide) (by decide) fun h => h.elim) fun ok => ?_
    cases ok with
    | true =>
      rw [if_pos rfl]
      rintro s ⟨⟨g', hinv, hwithin, hroot⟩, hnone, hpin⟩
      have hplace := hinv.mapped_page hpin (PageMap.set_self _ _)
      obtain ⟨o, ho⟩ := Status.place_eq_some.mp hplace
      refine ⟨_, g', hinv.setPage (by rw [ho]; simp [Status.Plain]) _, hpins.set hpin _, ?_, hroot⟩
      exact hwithin.steady htied fun r hr => funext fun pos => PageMap.set_other fun h => hr h.1
    | false =>
      rw [if_neg (by simp)]
      refine holds_conseq (poke_hand _) (fun _ h => h) ?_
      rintro _ s ⟨g', hinv, hwithin, hroot, hfree⟩
      have hsteady : Steady a M g M g' := hwithin.steady htied fun _ _ => rfl
      refine ⟨M, _, hinv, hpins, hsteady.trans ⟨Moves.of_update (.inl hfree) (.inr rfl), fun x o hx => ?_⟩, ?_⟩
      · rw [update_hand_eq hfree (by simp [hx]), hx]
      · rw [update_hand_eq hfree (by simp [hroot]), hroot]

theorem userinit_spec (hall : Slots False M g pr) (initcode : List UInt8) :
    Holds (At (Inv False ∅ M a g) pr) (userinit initcode) (fun _ => Sound False) (Stops False) := by
  refine holds_bind (allocproc_spec hall) fun r => ?_
  cases r with
  | none =>
    refine holds_fail ?_
    rintro m ⟨_, hbroken | ⟨_, _, ⟨a, hinv⟩, _⟩⟩
    · exact ⟨.inr hbroken, id⟩
    · exact ⟨.inl hinv.good, id⟩
  | some p =>
    rintro m ⟨_, _, M₁, g₁, tf, pt, copy, hinv, hmoves, hpr, hsp, hcopied, _⟩
    refine (?_ : Holds (At (Inv False ∅ M₁ (.slot p) g₁) _) _ _ _) m ⟨hinv, hpr⟩
    refine holds_bind (Q := fun _ => At (Inv False ∅ M₁ (.slot p) g₁) _) (holds_modify fun m hm => hm) fun _ => ?_
    obtain ⟨t, hout, hpins⟩ := hsp.pins
    refine getProc_set ?_
    refine holds_bind (lift_at (holds_conseq (uvmfirst_spec hpins initcode) (fun s hs => hs.now hsp.root)
      fun _ _ h => h)) fun _ => holds_bind (updProc_set _) fun _ => ?_
    refine at_exists fun M₂ => at_exists fun g₂ => at_assume (fun s hs => hs.2) fun ⟨hpins, hsteady, hroot⟩ => ?_
    have htf := hsteady.held _ _ hsp.trapframe
    refine holds_bind (lift_at (holds_conseq (poke_spec (by rw [htf]; simp [Status.Plain]) _) (fun s hs => hs.1)
      fun _ _ h => h)) fun _ => ?_
    refine holds_conseq (updProc_set _) (fun _ h => h) ?_
    rintro _ m ⟨hinv, hpr⟩
    exact ⟨M₂, g₂, SoundAt.of_slot hall hinv (hmoves.trans hsteady.toMoves) hpr (.inr (.inl ⟨.inl rfl,
      ⟨hroot, ⟨t, hsteady.outside hout, hpins⟩, fun h => h.elim, by norm_num, htf⟩, hsteady.held _ _ hcopied.1, hcopied.2⟩))⟩

/-! ### One call -/

/-- A call leaves every slot with its pages, unless a stale page has been freed. -/
theorem call_spec (c : Call) : Holds (fun m => Sound False m ∧ c.Enabled m) c.prog
    (fun _ m => Sound False m ∨ Broken m.vm.trace) (Stops False) := by
  rintro m ⟨⟨M, g, ⟨a, hinv⟩, hall⟩, hen⟩
  have hat : At (Inv False ∅ M a g) m.proc m := ⟨hinv, rfl⟩
  have hsound : ∀ t M' g', SoundAt False M' g' t → Sound False t ∨ Broken t.vm.trace :=
    fun t M' g' h => .inl ⟨M', g', h⟩
  cases c with
  | userinit initcode => exact (userinit_spec hall initcode).start hat (fun _ t ht => .inl ht) m rfl
  | fork p =>
    refine holds_discard ((fork_spec hall hen).start hat ?_) m rfl
    rintro _ t ⟨_, hbroken | ⟨M', g', ht⟩⟩
    · exact .inr hbroken
    · exact hsound t M' g' ht
  | exit p status => exact (exit_spec hall hen status id).start hat (fun _ t ht => hsound t M g ht.1) m rfl
  | wait p addr | waitx p addr =>
    refine holds_discard ((reap_spec hall hen addr).start hat ?_) m rfl
    exact fun _ t ⟨M', g', ht, _⟩ => hsound t M' g' ht
  | sbrk p n =>
    obtain ⟨hsp, _⟩ := (hall.slot p).space (.inl hen)
    refine holds_discard ((growproc_spec hsp n).start hat ?_) m rfl
    exact fun _ t ht => let ⟨M', g', h, _⟩ := ht.sound hall hen; hsound t M' g' h
  | exec p uargv file =>
    obtain ⟨hsp, _⟩ := (hall.slot p).space (.inl hen)
    refine holds_discard ((sysExec_spec hsp uargv file).start hat ?_) m rfl
    exact fun _ t ht => let ⟨M', g', h, _⟩ := ht.sound hall hen; hsound t M' g' h
  | store p va c =>
    obtain ⟨hsp, _⟩ := (hall.slot p).space (.inl hen)
    refine (userStore_spec hsp.root va c).start hat (fun _ t ht => hsound t M g ⟨⟨a, ht.1⟩, ?_⟩) m rfl
    rwa [ht.2]
  | kernelAlloc => exact (kernelAlloc_spec hall.kernel).start hat (fun _ t ht => .inl (ht.sound hall)) m rfl
  | kernelFree page =>
    have hpage : (g page).holder = some .kernel := by
      rwa [← hinv.holder]
    exact (kernelFree_spec hall.kernel hpage).start hat (fun _ t ht => .inl (ht.sound hall)) m rfl

/-! ### Boot -/

/-- Memory after the first `n` pages behind the kernel have been freed. -/
def freedMem (l : Layout) (mem : ℕ → PageData) (n : ℕ) : ℕ → PageData := fun x j =>
  if l.base ≤ x ∧ x < l.base + n then
    if j = 0 then (if x = l.base then 0 else (x - 1) * PGSIZE) else 1 * 0x0101010101010101
  else mem x j

section

variable (l : Layout) (mem : ℕ → PageData)

include l mem

theorem freerange_apply (n : ℕ) (hn : l.base + n ≤ PHYSTOP) :
    ∃ tr, upTo (fun i => kfree (l.base + i)) n ⟨l, mem, 0, [], .kernel, fun _ => none, []⟩ =
      .ok () ⟨l, freedMem l mem n, if n = 0 then 0 else l.base + n - 1, [], .kernel, fun _ => none, tr⟩ := by
  induction n with
  | zero =>
    refine ⟨[], ?_⟩
    have hmem : freedMem l mem 0 = mem := by
      funext x j
      rw [freedMem, if_neg (by omega)]
    rw [upTo_zero, hmem]
    rfl
  | succ n ih =>
    obtain ⟨tr, htr⟩ := ih (by omega)
    refine ⟨tr ++ [.freed .kernel (l.base + n) none], ?_⟩
    have hin : l.Contains (l.base + n) := ⟨by omega, by omega⟩
    have hmem : setPage (freedMem l mem n) (l.base + n) (setWord 0 ((if n = 0 then 0 else l.base + n - 1) * PGSIZE)
        fun _ => 1 * 0x0101010101010101) = freedMem l mem (n + 1) := by
      funext x j
      by_cases hx : x = l.base + n
      · subst hx
        rcases Nat.eq_zero_or_pos n with rfl | hpos
        · simp [setPage, setWord, freedMem]
        · simp [setPage, setWord, freedMem, hpos.ne']
      · have hiff : (l.base ≤ x ∧ x < l.base + (n + 1)) ↔ (l.base ≤ x ∧ x < l.base + n) := by omega
        simp only [setPage, if_neg hx, freedMem, hiff]
    have hholder : Function.update (fun _ : ℕ => (none : Option Owner)) (l.base + n) none = fun _ => none :=
      Function.update_eq_self_iff.mpr rfl
    rw [upTo_succ, bind_of_ok htr, kfree_apply, if_pos hin, State.push]
    simp only [hmem, hholder]
    simp

theorem freerange_list (n : ℕ) :
    ∃ L, Chain.Spells (next (freedMem l mem n)) (if n = 0 then 0 else l.base + n - 1) L ∧ L.Nodup ∧
      ∀ x, x ∈ L ↔ l.base ≤ x ∧ x < l.base + n := by
  have hbase := l.trampoline_lt
  induction n with
  | zero => exact ⟨[], rfl, List.nodup_nil, fun x => by simp⟩
  | succ n ih =>
    obtain ⟨L, hspell, hnodup, hmem⟩ := ih
    refine ⟨(l.base + n) :: L, ?_, List.nodup_cons.mpr ⟨fun h => ?_, hnodup⟩, fun x => ?_⟩
    · rw [if_neg (Nat.succ_ne_zero n), show l.base + (n + 1) - 1 = l.base + n by omega]
      refine hspell.push (by omega) ?_ fun y hy => ?_
      · rcases Nat.eq_zero_or_pos n with rfl | hpos
        · simp [next, freedMem]
        · simp [next, freedMem, hpos.ne']
      · have hy' := (hmem y).mp hy
        have hlt : y < l.base + (n + 1) := by omega
        simp [next, freedMem, hy', hlt]
    · have := (hmem _).mp h
      omega
    · rw [List.mem_cons, hmem]
      omega

/-- The state of memory after boot. -/
def bootPages (l : Layout) : Pages := fun x => if l.Contains x then .free else .outside

/-- The kernel after boot, with the memory written out. -/
def bootState (l : Layout) (mem : ℕ → PageData) : Kernel where
  machine := {
    vm := ⟨l, freedMem l mem (PHYSTOP - l.base), if PHYSTOP - l.base = 0 then 0 else l.base + (PHYSTOP - l.base) - 1, [],
      .kernel, fun _ => none, []⟩
    proc := fun _ => ⟨.unused, 0, 0, 0, 0, 0, none⟩
    initproc := none }
  history := []
  halted := false

theorem boot_eq : Kernel.boot l mem = bootState l mem := by
  have hle := l.base_le
  obtain ⟨tr, htr⟩ := freerange_apply l mem (PHYSTOP - l.base) (by omega)
  simp only [Kernel.boot, htr, Outcome.state, bootState]

theorem boot_inv :
    Inv C ∅ (fun _ _ => none) .kernel (bootPages l) (Kernel.boot l mem).machine.vm := by
  rw [boot_eq]
  have hle := l.base_le
  have hplaces : ∀ x, places (bootPages l) x = none := by
    intro x
    unfold places bootPages
    split_ifs <;> rfl
  have hnode : ∀ x o n, bootPages l x ≠ .node o n := by
    intro x o n
    unfold bootPages
    split_ifs <;> simp
  obtain ⟨L, hspell, hnodup, hmem⟩ := freerange_list l mem (PHYSTOP - l.base)
  refine ⟨⟨L, hspell, hnodup, fun x => ?_⟩, fun x => ?_, fun x => ?_, rfl, ⟨?_, ?_⟩, fun x o n hx => ?_,
    ⟨nofun, ?_⟩, nofun⟩
  · rw [hmem, bootPages]
    by_cases h : l.Contains x
    · rw [if_pos h]
      exact iff_of_true ⟨h.1, by have := h.2; omega⟩ rfl
    · rw [if_neg h]
      exact iff_of_false (fun hx => h ⟨hx.1, by omega⟩) (by simp)
  · change _ ↔ ¬ l.Contains x
    unfold bootPages
    split_ifs with h <;> simp [h]
  · unfold bootPages
    split_ifs <;> rfl
  · intro x _ _ _ _ hx
    rw [hplaces] at hx
    cases hx
  · intro y _ hy
    rw [hplaces] at hy
    cases hy
  · exact absurd hx (hnode x o n)
  · rintro _ _ _ _ _ ⟨x, hx, _⟩
    rw [hplaces] at hx
    cases hx

theorem boot_sound :
    SoundAt C (fun _ _ => none) (bootPages l) (Kernel.boot l mem).machine := by
  refine ⟨⟨.kernel, boot_inv l mem⟩, fun x n => ?_, fun q => .inl ⟨rfl, rfl, rfl, fun h => absurd rfl h, ?_⟩⟩
  · unfold bootPages
    split_ifs <;> simp
  · unfold bootPages
    split_ifs <;> simp [Status.holder]

end

/-! ### Runs -/

theorem Broken.mono {tr tr' : List Event} (h : Broken tr) (hsub : ∀ e ∈ tr, e ∈ tr') : Broken tr' := by
  obtain ⟨⟨p, tf, copy, hgave, hbad⟩, actor, x, holder, hfreed, hbad'⟩ := h
  exact ⟨⟨p, tf, copy, hsub _ hgave, hbad⟩, actor, x, holder, hsub _ hfreed, hbad'⟩

/-- A kernel in which every page has its owner, or in which a stale page has been freed. -/
def Kernel.Fine (k : Kernel) : Prop :=
  Broken k.history ∨ ((∀ e ∈ k.history, e.Good) ∧ (k.halted = false → Sound False k.machine))

theorem Inv.restart {s : State} {D : Set (ℕ × ℕ)} (h : Inv C D M a g s) (oom : List Bool) :
    Inv C D M a g { s with oom := oom, trace := [] } :=
  { h with good := nofun }

theorem Sound.restart (h : Sound C m) (oom : List Bool) :
    Sound C { m with vm := { m.vm with oom := oom, trace := [] } } := by
  obtain ⟨M, g, ⟨a, hinv⟩, hall⟩ := h
  exact ⟨M, g, ⟨a, hinv.restart oom⟩, hall⟩

theorem Call.enabled_restart {c : Call} (h : c.Enabled m) (oom : List Bool) :
    c.Enabled { m with vm := { m.vm with oom := oom, trace := [] } } := by
  cases c <;> exact h

theorem step_fine {k k' : Kernel} {e : Call × List Bool} (hk : k.Fine) (h : k.step e = some k') : k'.Fine := by
  unfold Kernel.step at h
  split_ifs at h with hhalt hen
  have hpast : ∀ t : Machine, Broken k.history → Broken (k.history ++ t.vm.trace) := fun t hb =>
    hb.mono fun _ he => List.mem_append_left _ he
  have hnow : ∀ t : Machine, Broken t.vm.trace → Broken (k.history ++ t.vm.trace) := fun t hb =>
    hb.mono fun _ he => List.mem_append_right _ he
  rcases hk with hbroken | ⟨hgood, hsound⟩
  · split at h <;> cases h <;> exact .inl (hpast _ hbroken)
  · have hstart := (hsound (by simpa using hhalt)).restart e.2
    have hspec := call_spec e.1 _ ⟨hstart, Call.enabled_restart hen e.2⟩
    have hall : ∀ t : Machine, GoodSoFar t.vm → ∀ ev ∈ k.history ++ t.vm.trace, ev.Good := by
      intro t ht ev hev
      rcases List.mem_append.mp hev with hev | hev
      · exact hgood ev hev
      · exact ht ev hev
    split at h
    · next r t heq =>
      cases h
      rw [heq] at hspec
      rcases hspec with ⟨M, g, hst⟩ | hb
      · obtain ⟨a, hinv⟩ := hst.1
        exact .inr ⟨hall t hinv.good, fun _ => ⟨M, g, hst⟩⟩
      · exact .inl (hnow t hb)
    · next r t heq =>
      cases h
      rw [heq] at hspec
      rcases hspec.1 with ht | hb
      · exact .inr ⟨hall t ht, nofun⟩
      · exact .inl (hnow t hb)

theorem run_fine {l : Layout} {mem : ℕ → PageData} {es : List (Call × List Bool)} {k : Kernel}
    (h : Kernel.run l mem es = some k) : k.Fine :=
  @System.exec_invariant _ _ Kernel.step Kernel.Fine _
    (.inr ⟨fun _ he => (by cases he), fun _ => ⟨_, _, boot_sound l mem⟩⟩) (fun _ _ _ hk hs => step_fine hk hs) es k h

/-- The free list has no page twice, and no page that is held. -/
def Kernel.FreeListSound (k : Kernel) : Prop :=
  ∃ L, Chain.Spells (next k.machine.vm.mem) k.machine.vm.freelist L ∧ L.Nodup ∧
    ∀ x ∈ L, k.machine.vm.holder x = none

theorem Sound.freeList {k : Kernel} (h : Sound C k.machine) : k.FreeListSound := by
  obtain ⟨M, g, ⟨a, hinv⟩, _⟩ := h
  obtain ⟨L, hspell, hnodup, hmem⟩ := hinv.list
  refine ⟨L, hspell, hnodup, fun x hx => ?_⟩
  rw [hinv.holder, (hmem x).mp hx]
  rfl

/-- Every page is freed by its owner exactly in the runs in which `allocproc`, when it is
refused a trapframe or a page table, never finds an old page in `trapframe_copy`, except
the one it has just been handed as trapframe. -/
theorem freed_by_owner_iff {l : Layout} {mem : ℕ → PageData} {es : List (Call × List Bool)} {k : Kernel}
    (hrun : Kernel.run l mem es = some k) :
    ((∀ actor x holder, .freed actor x holder ∈ k.history → holder = some actor) ∧
      (k.halted = false → k.FreeListSound)) ↔
    ∀ p tf copy, .gaveUp p tf copy ∈ k.history → copy = 0 ∨ copy = tf := by
  rcases run_fine hrun with ⟨⟨p, tf, copy, hgave, hbad⟩, actor, x, holder, hfreed, hbad'⟩ | ⟨hgood, hsound⟩
  · exact iff_of_false (fun h => hbad' (h.1 actor x holder hfreed)) fun h => hbad (h p tf copy hgave)
  · refine iff_of_true ⟨fun actor x holder h => hgood _ h, fun h => (hsound h).freeList⟩ fun p tf copy h => hgood _ h

/-- A kernel image of 136 KB; the trampoline is its eighth page. -/
def smallKernel : Layout := ⟨0x80022, 0x80007, by norm_num, by norm_num⟩

/-- Init forks, and the child exits and is reaped. -/
def oneChild : List (Call × List Bool) :=
  [(.userinit [], []), (.fork 0, []), (.exit 1 0, []), (.wait 0 0, [])]

/-- The pages given back by the reaping: `trapframe_copy`, the user page, the page table. -/
def childPages : List Event :=
  [557043, 557042, 557040, 557041, 557044, 557045, 557046].map fun x => .freed (.slot 1) x (some (.slot 1))

theorem freed_by_owner_oneChild : ∃ k, Kernel.run smallKernel (fun _ _ => 0) oneChild = some k ∧
    (∀ actor x holder, .freed actor x holder ∈ k.history → holder = some actor) ∧ k.FreeListSound := by
  have hrun : (Kernel.run smallKernel (fun _ _ => 0) oneChild).map (fun k => (k.history, k.halted)) =
      some (childPages, false) := by
    rw [Kernel.run, boot_eq]
    decide +kernel
  obtain ⟨k, hk, hout⟩ := Option.map_eq_some_iff.mp hrun
  obtain ⟨hhistory, hhalted⟩ := Prod.mk.inj hout
  have howner := (freed_by_owner_iff hk).mpr (by simp [hhistory, childPages])
  exact ⟨k, hk, howner.1, howner.2 hhalted⟩

/-- The next `fork` takes the same slot, `kalloc` returns 0, and the page of the child's
`trapframe_copy` is freed once more. -/
theorem page_freed_twice : ∃ k, Kernel.run smallKernel (fun _ _ => 0) (oneChild ++ [(.fork 0, [true])]) = some k ∧
    k.history = childPages ++ [.gaveUp 1 0 557043, .freed (.slot 1) 557043 none] ∧
    ¬ ∀ actor x holder, .freed actor x holder ∈ k.history → holder = some actor := by
  have hrun : (Kernel.run smallKernel (fun _ _ => 0) (oneChild ++ [(.fork 0, [true])])).map (fun k => k.history) =
      some (childPages ++ [.gaveUp 1 0 557043, .freed (.slot 1) 557043 none]) := by
    rw [Kernel.run, boot_eq]
    decide +kernel
  obtain ⟨k, hk, hhistory⟩ := Option.map_eq_some_iff.mp hrun
  refine ⟨k, hk, hhistory, fun hall => ?_⟩
  have hnone := hall (.slot 1) 557043 none (by rw [hhistory]; simp)
  cases hnone

end Xv6.Vm
