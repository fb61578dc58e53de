import Xv6.Spec.Fork

/-! What a failed `fork` leaves behind. `allocproc` puts the slot on queue 0 before its first `kalloc`, and nobody takes it
off when an allocation fails; so a failed call leaves no trace only if it did not find a slot. -/

namespace Xv6.Fork

open Prog Function

variable {s s' t : State} {p q : Slot}

/-! ### The call as `Vm` has it -/

section Machine

variable {α : Type} {init : Option Slot}

theorem lift_machine (x : Vm.VmM α) : Projects (State.machine init) (lift x) (Vm.lift x) := by
  intro s a t h
  unfold lift at h
  unfold Vm.lift zoom
  cases hx : x s.vm with
  | ok b v =>
    rw [hx] at h
    cases h
    simp [State.machine, hx]
  | fault e v =>
    rw [hx] at h
    cases h

theorem updProc_machine {f : Proc → Proc} {g : Vm.Proc → Vm.Proc} (p : Slot) (h : ∀ q, (f q).vm = g q.vm) :
    Projects (State.machine init) (updProc p f) (Vm.updProc p g) := by
  refine projects_modify fun s => ?_
  unfold State.machine
  congr 1
  funext q
  rcases eq_or_ne q p with rfl | hq <;> simp [*]

theorem updProc_unseen {f : Proc → Proc} (p : Slot) (h : ∀ q, (f q).vm = q.vm) :
    Frames (fun _ => True) (State.machine init) (updProc p f) := by
  intro s _
  have hid : Vm.updProc p id (s.machine init) = .ok () ((updProc p f s).state.machine init) :=
    updProc_machine p h s () _ rfl
  simpa [Vm.updProc] using (Outcome.ok.inj hid).2.symm

theorem pushQueue0_unseen (p : Slot) : Frames (fun _ => True) (State.machine init) (pushQueue0 p) := by
  refine frames_seq (frames_modify fun _ _ => rfl) fun _ => frames_seq (frames_gets _) fun i => ?_
  split
  · exact frames_modify fun _ _ => rfl
  · exact frames_fail _

theorem dupFiles_unseen (np : Slot) (fs : List (Fin NOFILE × Option (Fin NFILE))) :
    Frames (fun _ => True) (State.machine init) (dupFiles np fs) := by
  induction fs with
  | nil => exact frames_pure ()
  | cons a fs ih =>
    obtain ⟨i, _ | f⟩ := a
    · exact ih
    · have hdup : Frames (fun _ => True) (State.machine init) (filedup f) :=
        frames_seq (frames_gets _) fun _ => frames_ite (fun _ => frames_fail _) fun _ => frames_modify fun _ _ => rfl
      exact frames_seq hdup fun _ => frames_seq (updProc_unseen np fun _ => by rfl) fun _ => ih

theorem idup_unseen (cwd : Option (Fin NINODE)) : Frames (fun _ => True) (State.machine init) (idup cwd) := by
  cases cwd with
  | none => exact frames_fail _
  | some ip => exact frames_modify fun _ _ => rfl

theorem freeproc_machine (p : Slot) : Projects (State.machine init) (freeproc p) (Vm.freeproc p) := by
  refine projects_gets fun s => projects_bind (lift_machine _) fun _ => projects_bind (lift_machine _) fun _ => ?_
  refine projects_bind (updProc_machine p fun _ => rfl) fun _ => projects_bind (lift_machine _) fun _ => ?_
  exact updProc_machine p fun _ => rfl

theorem allocPages_machine (p : Slot) : Projects (State.machine init) (found p >>= fun _ => allocPages p) (Vm.allocprocAt p) := by
  have hgive : Projects (State.machine init) (giveUp p >>= fun _ => pure none : ForkM (Option Slot))
      (Vm.giveUp p >>= fun _ => pure none) := by
    refine projects_bind (projects_gets fun s => ?_) fun _ => projects_pure none
    exact projects_bind (lift_machine _) fun _ => freeproc_machine p
  simp only [found, bind_assoc]
  refine projects_skip (frames_seq (frames_gets _) fun _ => frames_seq (frames_modify fun _ _ => rfl) fun _ => frames_pure _)
    fun pid => projects_skip (frames_gets _) fun ticks => projects_bind (updProc_machine p fun _ => rfl) fun _ => ?_
  refine projects_skip (pushQueue0_unseen p) fun _ => projects_skip (updProc_unseen p fun _ => by rfl) fun _ => ?_
  refine projects_bind (lift_machine _) fun _ => projects_bind (lift_machine _) fun tf => ?_
  refine projects_bind (updProc_machine p fun _ => rfl) fun _ => projects_ite hgive ?_
  refine projects_bind (lift_machine _) fun pagetable => ?_
  refine projects_bind (updProc_machine p fun _ => rfl) fun _ => projects_ite hgive ?_
  refine projects_skip (updProc_unseen p fun _ => by rfl) fun _ => projects_bind (lift_machine _) fun copy => ?_
  refine projects_bind (updProc_machine p fun _ => rfl) fun _ => projects_ite (projects_pure none) ?_
  exact projects_skip (updProc_unseen p fun _ => by rfl) fun _ => projects_pure _

/-- Every call that returns is one of `Vm.fork`, with the same result and the same memory. -/
theorem fork_machine (p : Slot) : Projects (State.machine init) (fork p) (Vm.fork p) := by
  have halloc : Projects (State.machine init) allocproc Vm.allocproc := by
    refine projects_gets fun s => ?_
    have hfind : (s.machine init).findUnused = s.findUnused := rfl
    rw [hfind]
    cases s.findUnused with
    | none => exact projects_pure none
    | some p => exact allocPages_machine p
  refine projects_bind halloc fun o => ?_
  cases o with
  | none => exact projects_pure none
  | some np =>
    refine projects_gets fun s => projects_skip (updProc_unseen np fun _ => by rfl) fun _ => projects_gets fun t => ?_
    refine projects_bind (lift_machine _) fun copied => projects_ite ?_ ?_
    · refine projects_bind (updProc_machine np fun _ => rfl) fun _ => projects_bind (lift_machine _) fun _ => ?_
      refine projects_bind (lift_machine _) fun _ => projects_skip (dupFiles_unseen np _) fun _ => ?_
      refine projects_skip (idup_unseen _) fun _ => projects_skip (updProc_unseen np fun _ => by rfl) fun _ => ?_
      refine projects_bind (updProc_machine np fun _ => rfl) fun _ => ?_
      exact projects_bind (updProc_machine np fun _ => rfl) fun _ => projects_pure _
    · exact projects_bind (freeproc_machine np) fun _ => projects_pure none

end Machine

/-! ### Queue 0 -/

theorem lift_ptr {α : Type} (x : Vm.VmM α) : Frames (fun _ => True) State.ptr (lift x) := by
  intro s _
  unfold lift
  cases x s.vm <;> rfl

theorem updProc_ptr (p : Slot) (f : Proc → Proc) : Frames (fun _ => True) State.ptr (updProc p f) :=
  frames_modify fun _ _ => rfl

theorem freeproc_ptr (p : Slot) : Frames (fun _ => True) State.ptr (freeproc p) := by
  refine frames_seq (frames_gets _) fun q => frames_seq (lift_ptr _) fun _ => frames_seq (lift_ptr _) fun _ => ?_
  exact frames_seq (updProc_ptr p _) fun _ => frames_seq (lift_ptr _) fun _ => updProc_ptr p _

theorem allocPages_ptr (p : Slot) : Frames (fun _ => True) State.ptr (allocPages p) := by
  have hgiveUp : Frames (fun _ => True) State.ptr (do giveUp p; pure none : ForkM (Option Slot)) :=
    frames_seq (frames_seq (frames_gets _) fun _ => frames_seq (lift_ptr _) fun _ => freeproc_ptr p) fun _ => frames_pure _
  refine frames_seq (lift_ptr _) fun _ => frames_seq (lift_ptr _) fun tf => frames_seq (updProc_ptr p _) fun _ => ?_
  refine frames_ite (fun _ => hgiveUp) fun _ => frames_seq (lift_ptr _) fun pagetable => frames_seq (updProc_ptr p _) fun _ => ?_
  refine frames_ite (fun _ => hgiveUp) fun _ => frames_seq (updProc_ptr p _) fun _ => frames_seq (lift_ptr _) fun copy => ?_
  refine frames_seq (updProc_ptr p _) fun _ => frames_ite (fun _ => frames_pure _) fun _ => ?_
  exact frames_seq (updProc_ptr p _) fun _ => frames_pure _

/-- The slot is on queue 0 now. -/
theorem pushQueue0_ptr (h : pushQueue0 p s = .ok () s') : s'.ptr 0 = s.ptr 0 + 1 := by
  unfold pushQueue0 at h
  obtain ⟨_, t, ht, h⟩ := bind_eq_ok.mp h
  obtain rfl : { s with ptr := update s.ptr 0 (s.ptr 0 + 1) } = t := (Outcome.ok.inj ht).2
  obtain ⟨i, t, ht, h⟩ := bind_eq_ok.mp h
  obtain ⟨-, rfl⟩ := Outcome.ok.inj ht
  split at h
  · obtain ⟨-, rfl⟩ := Outcome.ok.inj h
    exact update_self (0 : Fin 5) (s.ptr 0 + 1) s.ptr
  · cases h

theorem allocpid_ptr {pid : ℤ} (h : allocpid s = .ok pid s') : s'.ptr = s.ptr := by
  cases h
  rfl

theorem found_ptr (h : found p s = .ok () s') : s'.ptr 0 = s.ptr 0 + 1 := by
  unfold found at h
  obtain ⟨pid, t₁, h₁, h⟩ := bind_eq_ok.mp h
  obtain ⟨_, _, ⟨⟩, h⟩ := bind_eq_ok.mp h
  obtain ⟨_, t₃, h₃, h⟩ := bind_eq_ok.mp h
  obtain ⟨_, t₄, h₄, h⟩ := bind_eq_ok.mp h
  have hpush := pushQueue0_ptr h₄
  rw [(updProc_ptr p _).ok trivial h₃, allocpid_ptr h₁] at hpush
  rw [(updProc_ptr p _).ok trivial h, hpush]

theorem find_unused (h : s.findUnused = some p) : (s.proc p).state = .unused :=
  of_decide_eq_true (List.find?_some (p := fun q => decide ((s.proc q).state = .unused)) h)

/-- A call that finds no slot, or one that has put a slot on queue 0. -/
def FullOrQueued (s s' : State) : Prop :=
  (∀ q, (s.proc q).state ≠ .unused) ∧ s' = s ∨ ∃ p, (s.proc p).state = .unused ∧ s'.ptr 0 = s.ptr 0 + 1

theorem allocproc_cases {o : Option Slot} (h : allocproc s = .ok o s') :
    FullOrQueued s s' ∧ (o ≠ none → s'.ptr 0 = s.ptr 0 + 1) := by
  unfold allocproc at h
  obtain ⟨o, t, ht, h⟩ := bind_eq_ok.mp h
  obtain ⟨rfl, rfl⟩ := Outcome.ok.inj ht
  cases hfind : s.findUnused with
  | none =>
    rw [hfind] at h
    cases h
    refine ⟨.inl ⟨fun q hq => ?_, rfl⟩, fun h => absurd rfl h⟩
    exact List.find?_eq_none.mp hfind q (List.mem_finRange q) (decide_eq_true hq)
  | some p =>
    rw [hfind] at h
    obtain ⟨_, t, ht, h⟩ := bind_eq_ok.mp h
    have hptr : s'.ptr 0 = s.ptr 0 + 1 := by
      rw [(allocPages_ptr p).ok trivial h]
      exact found_ptr ht
    exact ⟨.inr ⟨p, find_unused hfind, hptr⟩, fun _ => hptr⟩

theorem finish_some {np : Slot} {parent child : Proc} {o : Option Slot} (h : finish p np parent child s = .ok o s') :
    o ≠ none := by
  unfold finish at h
  iterate 8 obtain ⟨_, _, -, h⟩ := bind_eq_ok.mp h
  cases h
  exact Option.some_ne_none np

theorem fork_cases (h : fork p s = .ok none s') : FullOrQueued s s' := by
  unfold fork at h
  obtain ⟨o, t, ht, h⟩ := bind_eq_ok.mp h
  obtain ⟨hcases, hqueued⟩ := allocproc_cases ht
  cases o with
  | none =>
    cases h
    exact hcases
  | some np =>
    have hptr := hqueued (Option.some_ne_none np)
    obtain ⟨parent, t₁, h₁, h⟩ := bind_eq_ok.mp h
    cases h₁
    obtain ⟨_, t₂, h₂, h⟩ := bind_eq_ok.mp h
    obtain ⟨child, t₃, h₃, h⟩ := bind_eq_ok.mp h
    cases h₃
    obtain ⟨copied, t₄, h₄, h⟩ := bind_eq_ok.mp h
    cases copied with
    | true => exact absurd rfl (finish_some h)
    | false =>
      obtain ⟨_, t₅, h₅, h⟩ := bind_eq_ok.mp h
      cases h
      rcases hcases with ⟨hfull, rfl⟩ | ⟨q, hq, -⟩
      · exact absurd hptr (by omega)
      · refine .inr ⟨q, hq, ?_⟩
        rw [(freeproc_ptr np).ok trivial h₅, (lift_ptr _).ok trivial h₄, (updProc_ptr np _).ok trivial h₂, hptr]

theorem Traceless.refl (s : State) : Traceless s s :=
  ⟨fun _ => .inl rfl, ⟨rfl, rfl⟩, rfl, rfl, fun _ => Iff.rfl⟩

theorem traceless_iff (h : FullOrQueued s s') : Traceless s s' ↔ ∀ q, (s.proc q).state ≠ .unused := by
  rcases h with ⟨hfull, rfl⟩ | ⟨p, hp, hptr⟩
  · exact iff_of_true (.refl s') hfull
  · refine iff_of_false (fun htraceless => ?_) fun hfull => hfull p hp
    rw [htraceless.queues.2] at hptr
    omega

/-- `allocproc` that returns 0 and `fork` that returns -1 leave no trace if and only if no slot is UNUSED. -/
theorem failed_fork_traceless_iff (s s' : State) :
    (allocproc s = .ok none s' → (Traceless s s' ↔ ∀ q, (s.proc q).state ≠ .unused)) ∧
    ∀ p, fork p s = .ok none s' → (Traceless s s' ↔ ∀ q, (s.proc q).state ≠ .unused) :=
  ⟨fun h => traceless_iff (allocproc_cases h).1, fun _ h => traceless_iff (fork_cases h)⟩

/-- A process, or a slot, without anything. -/
def bare (state : ProcState) : Proc := { (default : Proc) with state := state }

/-- One process runs and the other slots are in `state`; there are `pages` free pages, from page 0x80001 on. -/
def small (state : ProcState) (pages : ℕ) (oom : List Bool) : State where
  vm :=
    { layout := ⟨0x80001, 0x80000, by decide, by decide⟩
      mem := fun x _ => if x + 1 < 0x80001 + pages then (x + 1) * PGSIZE else 0
      freelist := if 0 < pages then 0x80001 else 0
      oom := oom
      actor := .kernel
      holder := fun _ => none
      trace := [] }
  proc := fun p => bare (if p = 0 then .running else state)
  nextpid := 2
  ticks := 0
  queue := fun _ _ => none
  ptr := fun _ => -1
  fileRef := fun _ => 0
  inodeRef := fun _ => 0

theorem failed_fork_traceless_iff_full : ∃ s', fork 0 (small .sleeping 0 []) = .ok none s' ∧ Traceless (small .sleeping 0 []) s' :=
  ⟨_, rfl, ((failed_fork_traceless_iff _ _).2 0 rfl).mpr (by decide)⟩

/-- What can be seen of the outcome of a call: what it returned, `queue0_ptr`, the state of the slot that was tried and the
first free page. -/
def seen : Outcome State Fault (Option Slot) → Option (Option Slot × ℤ × ProcState × ℕ)
  | .ok o s => some (o, s.ptr 0, (s.proc 1).state, s.vm.freelist)
  | .fault _ _ => none

/-- Without memory, slot 1 stays on queue 0. If `proc_pagetable` fails, the trapframe page is lost too; if the page for
`trapframe_copy` is missing, the slot stays USED. -/
theorem failed_fork_leaves_traces :
    (∃ s', fork 0 (small .unused 0 []) = .ok none s' ∧ ¬Traceless (small .unused 0 []) s') ∧
    seen (fork 0 (small .unused 0 [])) = some (none, 0, .unused, 0) ∧
    seen (fork 0 (small .unused 8 [false, true])) = some (none, 0, .unused, 0x80002) ∧
    seen (fork 0 (small .unused 8 [false, false, false, false, true])) = some (none, 0, .used, 0x80005) := by
  have hseen : seen (fork 0 (small .unused 0 [])) = some (none, 0, .unused, 0) := by decide +kernel
  refine ⟨?_, hseen, by decide +kernel, by decide +kernel⟩
  cases hcall : fork 0 (small .unused 0 []) with
  | fault e s' =>
    rw [hcall] at hseen
    cases hseen
  | ok o s' =>
    rw [hcall] at hseen
    obtain ⟨rfl, hrest⟩ := Prod.mk.inj (Option.some.inj hseen)
    refine ⟨s', rfl, fun htraceless => ?_⟩
    have hptr : s'.ptr 0 = 0 := (Prod.mk.inj hrest).1
    rw [htraceless.queues.2] at hptr
    exact absurd hptr (by decide)

end Xv6.Fork
