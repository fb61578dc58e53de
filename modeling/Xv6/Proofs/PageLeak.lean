import Xv6.Proofs.PageOwners

/-! The pages of one process, from the `fork` that makes it to the `wait` that reaps it.
The page of its trapframe is taken from the free list and never comes back: `freeproc`
forgets `trapframe` without freeing it. -/

namespace Xv6.Vm

open Prog Radix Option

variable {k k₁ k₂ k₃ : Kernel} {p c : Slot}

/-- The pages on `kmem.freelist`. -/
def Kernel.freePages (k : Kernel) : Set ℕ :=
  {x | Chain.Listed (next k.machine.vm.mem) x k.machine.vm.freelist}

variable {M : PageMap} {g : Pages} {C : Prop} {e : Call × List Bool} {x : ℕ} {es : List (Call × List Bool)}

theorem SoundAt.freePages (h : SoundAt C M g k.machine) (x : ℕ) :
    x ∈ k.freePages ↔ g x = .free := by
  obtain ⟨⟨a, hinv⟩, _⟩ := h
  obtain ⟨L, hspell, _, hmem⟩ := hinv.list
  exact (Chain.listed_iff_mem hspell).trans (hmem x)

/-- A call that came to its end. -/
theorem step_ok (h : k.step e = some k₁) (hk₁ : k₁.halted = false) :
    k.halted = false ∧ e.1.Enabled k.machine ∧
      ∃ r, e.1.prog { k.machine with vm := { k.machine.vm with oom := e.2, trace := [] } } = .ok r k₁.machine := by
  unfold Kernel.step at h
  split_ifs at h with hhalt hen
  split at h
  · next r t heq =>
    cases h
    exact ⟨by simpa using hhalt, hen, r, heq⟩
  · cases h
    cases hk₁

theorem at_restart {a : Owner} {m : Machine} (hinv : Inv C ∅ M a g m.vm) (oom : List Bool) :
    At (Inv C ∅ M a g) m.proc { m with vm := { m.vm with oom := oom, trace := [] } } := ⟨hinv.restart oom, rfl⟩

/-- What the process itself may do, and what others may do without touching the free list. -/
def Quiet (c : Slot) : Call → Prop
  | .sbrk p _ | .exec p _ _ | .exit p _ => p = c
  | .store _ _ _ => True
  | _ => False

/-- The process in slot `c` has the page `x` as trapframe. -/
def Holding (c : Slot) (x : ℕ) (k : Kernel) : Prop :=
  ∃ M g, SoundAt False M g k.machine ∧ g x = .held (.slot c) ∧ (k.machine.proc c).trapframe = x

theorem Holding.step (h : Holding c x k) (hstep : k.step e = some k₁)
    (hk₁ : k₁.halted = false) (hquiet : Quiet c e.1) : Holding c x k₁ := by
  obtain ⟨_, hen, r, hprog⟩ := step_ok hstep hk₁
  obtain ⟨M, g, ⟨⟨a, hinv⟩, hall⟩, hheld, htf⟩ := h
  obtain ⟨call, oom⟩ := e
  have hat := at_restart hinv oom
  have hkept : (k.machine.proc c).state = .runnable → Kept False M g c k.machine.proc k₁.machine → Holding c x k₁ := by
    intro hst hk
    obtain ⟨M', g', hsound, hsame, hproc⟩ := hk.sound hall hst
    exact ⟨M', g', hsound, hsame x _ hheld, by rw [(hproc c).2, htf]⟩
  cases call with
  | sbrk q n =>
    obtain rfl : q = c := hquiet
    exact hkept hen ((holds_discard (growproc_spec ((hall.slot q).space (.inl hen)).1 n)).ok hat hprog)
  | exec q uargv file =>
    obtain rfl : q = c := hquiet
    exact hkept hen ((holds_discard (sysExec_spec ((hall.slot q).space (.inl hen)).1 uargv file)).ok hat hprog)
  | exit q status =>
    obtain ⟨hsound, hproc⟩ := (exit_spec hall hen status id).ok hat hprog
    exact ⟨M, g, hsound, hheld, by rw [hproc c, htf]⟩
  | store q va b =>
    obtain ⟨hinv', hproc⟩ := (userStore_spec ((hall.slot q).space (.inl hen)).1.root va b).ok hat hprog
    exact ⟨M, g, ⟨⟨a, hinv'⟩, by rw [hproc]; exact hall⟩, hheld, by rw [hproc, htf]⟩
  | userinit _ | fork _ | wait _ _ | waitx _ _ | kernelAlloc | kernelFree _ => exact hquiet.elim

theorem exec_running (h : System.exec Kernel.step k es = some k₁) (hk₁ : k₁.halted = false) :
    k.halted = false := by
  cases es with
  | nil =>
    cases h
    exact hk₁
  | cons e es =>
    rw [System.exec_cons, bind_eq_some_iff] at h
    obtain ⟨k', hstep, _⟩ := h
    unfold Kernel.step at hstep
    split_ifs at hstep with hhalt
    · simpa using hhalt

theorem Holding.exec (h : Holding c x k)
    (hrun : System.exec Kernel.step k es = some k₁) (hk₁ : k₁.halted = false) (hquiet : ∀ e ∈ es, Quiet c e.1) :
    Holding c x k₁ := by
  induction es generalizing k with
  | nil =>
    cases hrun
    exact h
  | cons e es ih =>
    rw [System.exec_cons, bind_eq_some_iff] at hrun
    obtain ⟨k', hstep, hrest⟩ := hrun
    exact ih (h.step hstep (exec_running hrest hk₁) (hquiet e List.mem_cons_self)) hrest
      fun e' he' => hquiet e' (List.mem_cons_of_mem _ he')

/-- The life of a process: made by `fork` in the free slot `c`, it then does what it likes
until `wait` or `waitx` reaps it. -/
structure Lifetime (c : Slot) (k k₁ k₃ : Kernel) : Prop where
  forked : ∃ p oom, k.step (.fork p, oom) = some k₁
  unused : (k.machine.proc c).state = .unused
  runnable : (k₁.machine.proc c).state = .runnable
  reaped : ∃ life k₂ p addr oom, System.exec Kernel.step k₁ life = some k₂ ∧ (∀ e ∈ life, Quiet c e.1) ∧
    (k₂.machine.proc c).state = .zombie ∧
    (k₂.step (.wait p addr, oom) = some k₃ ∨ k₂.step (.waitx p addr, oom) = some k₃)
  gone : (k₃.machine.proc c).state = .unused
  running : k₃.halted = false

theorem Lifetime.trapframe (h : Lifetime c k k₁ k₃) (hk : Sound False k.machine) :
    (k₁.machine.proc c).trapframe ∈ k.freePages ∧ (k₁.machine.proc c).trapframe ∉ k₃.freePages := by
  obtain ⟨p, oom, hfork⟩ := h.forked
  obtain ⟨life, k₂, q, addr, oom', hlife, hquiet, hzombie, hreap⟩ := h.reaped
  have hk₂ : k₂.halted = false := by
    rcases hreap with hreap | hreap
    all_goals exact (step_ok hreap h.running).1
  have hk₁ := exec_running hlife hk₂
  obtain ⟨M, g, ⟨⟨a, hinv⟩, hall⟩⟩ := hk
  -- the fork takes the page from the free list
  obtain ⟨_, hen, r, hprog⟩ := step_ok hfork hk₁
  have hforked := (holds_discard (fork_spec hall hen)).ok (at_restart hinv oom) hprog
  obtain ⟨hfree, M₁, g₁, hsound₁⟩ := hforked.1 c h.unused h.runnable
  have hheld := ((hsound₁.2.slot c).space (.inl h.runnable)).1.trapframe
  refine ⟨(SoundAt.freePages ⟨⟨a, hinv⟩, hall⟩ _).mpr hfree, ?_⟩
  -- it is held until the reaping, and after it
  obtain ⟨M₂, g₂, ⟨⟨a₂, hinv₂⟩, hall₂⟩, _, htf₂⟩ :=
    (show Holding c _ k₁ from ⟨M₁, g₁, hsound₁, hheld, rfl⟩).exec hlife hk₂ hquiet
  have hreaped : Reaped False k₂.machine.proc k₃.machine := by
    rcases hreap with hreap | hreap
    all_goals
      obtain ⟨_, hen₂, r₂, hprog₂⟩ := step_ok hreap h.running
      exact (holds_discard (reap_spec hall₂ hen₂ addr)).ok (at_restart hinv₂ oom') hprog₂
  obtain ⟨M₃, g₃, hsound₃, hkeep⟩ := hreaped
  have hstill := hkeep c hzombie h.gone
  rw [htf₂] at hstill
  rw [hsound₃.freePages, hstill]
  simp

/-- No process gives all its pages back: whenever it is made in a run in which no page has
been freed twice so far, the set of free pages after its reaping is not the one before
the `fork`. -/
theorem freePages_not_restored {l : Layout} {mem : ℕ → PageData} {es : List (Call × List Bool)}
    (hrun : Kernel.run l mem es = some k)
    (hgood : ∀ p tf copy, .gaveUp p tf copy ∈ k.history → copy = 0 ∨ copy = tf) (h : Lifetime c k k₁ k₃) :
    k₃.freePages ≠ k.freePages := by
  have hsound : Sound False k.machine := by
    obtain ⟨p, oom, hfork⟩ := h.forked
    have hk : k.halted = false := by
      unfold Kernel.step at hfork
      split_ifs at hfork with hhalt
      · simpa using hhalt
    rcases run_fine hrun with ⟨⟨q, tf, copy, hgave, hbad⟩, _⟩ | ⟨_, hsound⟩
    · exact absurd (hgood q tf copy hgave) hbad
    · exact hsound hk
  obtain ⟨hin, hout⟩ := h.trapframe hsound
  intro heq
  rw [heq] at hout
  exact hout hin

/-- Init is there. -/
theorem oneChild_start : ∃ k, Kernel.run smallKernel (fun _ _ => 0) [(.userinit [], [])] = some k ∧ k.history = [] ∧
    k.halted = false ∧ (k.machine.proc 1).state = .unused := by
  have hrun : (Kernel.run smallKernel (fun _ _ => 0) [(.userinit [], [])]).map
      (fun k => (k.history, k.halted, (k.machine.proc 1).state)) = some ([], false, .unused) := by
    rw [Kernel.run, boot_eq]
    decide +kernel
  obtain ⟨k, hk, hout⟩ := map_eq_some_iff.mp hrun
  simp only [Prod.mk.injEq] at hout
  exact ⟨k, hk, hout.1, hout.2.1, hout.2.2⟩

/-- The child of `oneChild` is made in slot 1, with the trapframe page 557047, and reaped. -/
theorem oneChild_lifetime (hk : Kernel.run smallKernel (fun _ _ => 0) [(.userinit [], [])] = some k)
    (hunused : (k.machine.proc 1).state = .unused) :
    ∃ k₁ k₃, Kernel.run smallKernel (fun _ _ => 0) oneChild = some k₃ ∧ Lifetime 1 k k₁ k₃ ∧
      (k₁.machine.proc 1).trapframe = 557047 := by
  have hrun₁ : (Kernel.run smallKernel (fun _ _ => 0) ([(.userinit [], [])] ++ [(.fork 0, [])])).map
      (fun k => ((k.machine.proc 1).state, (k.machine.proc 1).trapframe)) = some (.runnable, 557047) := by
    rw [Kernel.run, boot_eq]
    decide +kernel
  have hrun₂ : (Kernel.run smallKernel (fun _ _ => 0) ([(.userinit [], []), (.fork 0, [])] ++ [(.exit 1 0, [])])).map
      (fun k => (k.machine.proc 1).state) = some .zombie := by
    rw [Kernel.run, boot_eq]
    decide +kernel
  have hrun₃ : (Kernel.run smallKernel (fun _ _ => 0)
      ([(.userinit [], []), (.fork 0, []), (.exit 1 0, [])] ++ [(.wait 0 0, [])])).map
      (fun k => ((k.machine.proc 1).state, k.halted)) = some (.unused, false) := by
    rw [Kernel.run, boot_eq]
    decide +kernel
  obtain ⟨k₁, hk₁, hout₁⟩ := map_eq_some_iff.mp hrun₁
  obtain ⟨k₂, hk₂, hzombie⟩ := map_eq_some_iff.mp hrun₂
  obtain ⟨k₃, hk₃, hout₃⟩ := map_eq_some_iff.mp hrun₃
  simp only [Prod.mk.injEq] at hout₁ hout₃
  have hstep₁ : k.step (.fork 0, []) = some k₁ := by
    rwa [Kernel.run, System.exec_snoc, show System.exec Kernel.step _ _ = some k from hk] at hk₁
  have hstep₂ : k₁.step (.exit 1 0, []) = some k₂ := by
    rwa [Kernel.run, System.exec_snoc, show System.exec Kernel.step _ [_, (.fork 0, [])] = some k₁ from hk₁] at hk₂
  have hstep₃ : k₂.step (.wait 0 0, []) = some k₃ := by
    rwa [Kernel.run, System.exec_snoc, show System.exec Kernel.step _ [_, _, (.exit 1 0, [])] = some k₂ from hk₂] at hk₃
  refine ⟨k₁, k₃, hk₃, ⟨⟨0, [], hstep₁⟩, hunused, hout₁.1, ⟨[(.exit 1 0, [])], k₂, 0, 0, [], ?_, ?_, hzombie,
    .inl hstep₃⟩, hout₃.1, hout₃.2⟩, hout₁.2⟩
  · rw [System.exec_cons, hstep₂, bind_some]
    rfl
  · intro e he
    rw [List.mem_singleton.mp he]
    rfl

theorem freePages_not_restored_oneChild : ∃ k k₃, Kernel.run smallKernel (fun _ _ => 0) [(.userinit [], [])] = some k ∧
    Kernel.run smallKernel (fun _ _ => 0) oneChild = some k₃ ∧ k₃.freePages ≠ k.freePages := by
  obtain ⟨k, hk, hhistory, _, hunused⟩ := oneChild_start
  obtain ⟨k₁, k₃, hk₃, hlife, _⟩ := oneChild_lifetime hk hunused
  exact ⟨k, k₃, hk, hk₃, freePages_not_restored hk (by simp [hhistory]) hlife⟩

/-- The trapframe page of the child is free before the `fork` and not after the `wait`. -/
theorem trapframe_page_lost : ∃ k k₃, Kernel.run smallKernel (fun _ _ => 0) [(.userinit [], [])] = some k ∧
    Kernel.run smallKernel (fun _ _ => 0) oneChild = some k₃ ∧ 557047 ∈ k.freePages ∧ 557047 ∉ k₃.freePages := by
  obtain ⟨k, hk, hhistory, hhalted, hunused⟩ := oneChild_start
  obtain ⟨k₁, k₃, hk₃, hlife, htf⟩ := oneChild_lifetime hk hunused
  have hsound : Sound False k.machine := by
    rcases run_fine hk with ⟨⟨q, tf, copy, hgave, _⟩, _⟩ | ⟨_, hsound⟩
    · rw [hhistory] at hgave
      cases hgave
    · exact hsound hhalted
  have hlost := hlife.trapframe hsound
  rw [htf] at hlost
  exact ⟨k, k₃, hk, hk₃, hlost⟩

end Xv6.Vm
