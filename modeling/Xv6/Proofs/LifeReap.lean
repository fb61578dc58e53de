import Xv6.Proofs.LifeWait

/-! Each child is reaped once, with its own status. A process is known by the number of
`allocpid` calls before its own, which is never used again, whereas its slot is and, after
2^32 calls, its pid too. -/

namespace Xv6.Life

open State

theorem int32_succ (x : ℤ) : int32 (int32 x + 1) = int32 (x + 1) := by
  unfold int32
  omega

/-- The pid of the process with number `n`. -/
def pidOf (n : ℕ) : ℤ := int32 (1 + n)

theorem pidOf_succ (n : ℕ) : int32 (pidOf n + 1) = pidOf (n + 1) := by
  rw [pidOf, int32_succ, pidOf]
  push_cast
  ring_nf

theorem pidOf_inj {m n : ℕ} (hm : m < 2 ^ 32) (hn : n < 2 ^ 32) (h : pidOf m = pidOf n) : m = n := by
  unfold pidOf int32 at h
  omega

/-- Numbers and pids in the table. -/
structure Numbers (s : State) : Prop where
  next : s.nextpid = pidOf s.born
  born : ∀ c, (s.proc c).state ≠ .unused → (s.proc c).id < s.born ∧ (s.proc c).pid = pidOf (s.proc c).id
  distinct : ∀ c d, (s.proc c).state ≠ .unused → (s.proc d).state ≠ .unused → (s.proc c).id = (s.proc d).id → c = d
  link : ∀ p np pid, s.pc p = .forkLink np pid ∨ s.pc p = .forkRun np pid → (s.proc np).pid = pid

/-- What the history says of the processes in the table. -/
structure Recorded (s : State) : Prop where
  forked : ∀ c, c ≠ initproc → (s.proc c).state ≠ .unused → (s.proc c).state ≠ .used →
    ∃ q, .forked q (s.proc c).id (s.proc c).pid ∈ s.trace
  exiting : ∀ p status, (s.pc p).info.status = some status → .exited (s.proc p).id status ∈ s.trace
  exited : ∀ c, (s.proc c).state = .zombie → .exited (s.proc c).id (s.proc c).xstate ∈ s.trace
  reaped : ∀ q id pid st par, .reaped q id pid st par ∈ s.trace →
    id < s.born ∧ pid = pidOf id ∧ ∀ c, (s.proc c).state ≠ .unused → (s.proc c).id ≠ id

section

variable {s s' : State} {p : Slot} {v : Prop}

theorem Numbers.next_move (h : Numbers s) (m : Move v s p s') : s'.nextpid = pidOf s'.born := by
  have hn := h.next
  have := pidOf_succ s.born
  cases m <;> grind

/-- A slot in use keeps its number and pid, or has just been given new ones. -/
theorem Threads.number_move (ht : Threads s) (m : Move v s p s') (c : Slot) (hc : (s'.proc c).state ≠ .unused) :
    ((s.proc c).state ≠ .unused ∧ (s'.proc c).id = (s.proc c).id ∧ (s'.proc c).pid = (s.proc c).pid) ∨
      ((s'.proc c).id = s.born ∧ (s'.proc c).pid = s.nextpid ∧ s'.born = s.born + 1 ∧
        ∀ d, d ≠ c → s'.proc d = s.proc d) := by
  cases m with
  | @start np pid hrun hpc => grind [ht.forking p np (by rw [hpc]; rfl)]
  | _ => grind [freeproc, Proc.wakeup, Proc.kill]

theorem born_le_move (m : Move v s p s') : s.born ≤ s'.born := by
  cases m <;> grind

section

variable (h : Numbers s) (ht : Threads s) (m : Move v s p s')

include h ht m

theorem Numbers.born_move (c : Slot) (hc : (s'.proc c).state ≠ .unused) :
    (s'.proc c).id < s'.born ∧ (s'.proc c).pid = pidOf (s'.proc c).id := by
  rcases ht.number_move m c hc with ⟨hold, hid, hpid⟩ | ⟨hid, hpid, hborn, _⟩
  · rw [hid, hpid]
    exact ⟨lt_of_lt_of_le (h.born c hold).1 (born_le_move m), (h.born c hold).2⟩
  · rw [hid, hpid, hborn, h.next]
    exact ⟨Nat.lt_succ_self _, rfl⟩

theorem Numbers.distinct_move (c d : Slot) (hc : (s'.proc c).state ≠ .unused) (hd : (s'.proc d).state ≠ .unused)
    (hid : (s'.proc c).id = (s'.proc d).id) : c = d := by
  by_contra hne
  rcases ht.number_move m c hc with ⟨hc', hcid, _⟩ | ⟨hcid, _, _, hother⟩
  · rcases ht.number_move m d hd with ⟨hd', hdid, _⟩ | ⟨hdid, _⟩
    · exact hne (h.distinct c d hc' hd' (by rw [← hcid, ← hdid, hid]))
    · have := (h.born c hc').1
      omega
  · rw [hother d (Ne.symm hne)] at hd hid
    have := (h.born d hd).1
    omega

theorem Numbers.link_move (q np : Slot) (pid : ℤ)
    (hq : s'.pc q = .forkLink np pid ∨ s'.pc q = .forkRun np pid) : (s'.proc np).pid = pid := by
  have hl := h.link
  have hf : ∀ q np pid, s.pc q = .forkLink np pid ∨ s.pc q = .forkRun np pid → (s.proc np).state = .used := by
    rintro q np pid (hpc | hpc) <;> exact ht.forking q np (by rw [hpc]; rfl)
  cases m with
  | goto hm => grind [hm.forking, Pc.info]
  | _ => grind [freeproc, Proc.wakeup, Proc.kill]

theorem Numbers.move : Numbers s' :=
  ⟨h.next_move m, h.born_move ht m, h.distinct_move ht m, h.link_move ht m⟩

end

theorem Recorded.forked_move (h : Recorded s) (hn : Numbers s) (m : Move v s p s') (c : Slot)
    (hc : c ≠ initproc) (h1 : (s'.proc c).state ≠ .unused) (h2 : (s'.proc c).state ≠ .used) :
    ∃ q, .forked q (s'.proc c).id (s'.proc c).pid ∈ s'.trace := by
  have hf := h.forked
  cases m with
  | @start np pid hrun hpc =>
    by_cases hcn : c = np
    · subst hcn
      refine ⟨p, ?_⟩
      simp [hn.link p c pid (.inr hpc)]
    · obtain ⟨q, hq⟩ := hf c hc (by simpa [hcn] using h1) (by simpa [hcn] using h2)
      exact ⟨q, by simp [hcn, hq]⟩
  | _ => grind [freeproc, Proc.wakeup, Proc.kill]

theorem Pc.status_of_gone {pc : Pc} (h : pc.info.mode = .gone) : pc.info.status = none := by
  cases pc <;> simp_all [Pc.info]

theorem Recorded.exiting_move (h : Recorded s) (ht : Threads s) (m : Move v s p s') (q : Slot) (status : ℤ)
    (hq : (s'.pc q).info.status = some status) : .exited (s'.proc q).id status ∈ s'.trace := by
  have he := h.exiting
  have hnew : ∀ np, (s.proc np).state = .unused → (s.pc np).info.status = none := fun np hnp =>
    Pc.status_of_gone (ht.gone_of_unused hnp)
  cases m with
  | goto hl => grind [hl.status]
  | _ => grind [Pc.info, freeproc, Proc.wakeup, Proc.kill]

theorem Recorded.exited_move (h : Recorded s) (m : Move v s p s') (c : Slot)
    (hc : (s'.proc c).state = .zombie) : .exited (s'.proc c).id (s'.proc c).xstate ∈ s'.trace := by
  have he := h.exited
  cases m with
  | @zombie status hrun hpc =>
    have hs := h.exiting p status (by rw [hpc]; rfl)
    grind
  | _ => grind [freeproc, Proc.wakeup, Proc.kill]

/-- A return of `wait` is in the history already, or is that of the process now reaped. -/
theorem reaped_new (m : Move v s p s') {q : Slot} {id : ℕ} {pid : ℤ} {st : Option ℤ} {par : Option Slot}
    (hq : .reaped q id pid st par ∈ s'.trace) :
    .reaped q id pid st par ∈ s.trace ∨
      ∃ pp, (s.proc pp).state = .zombie ∧ (s.proc pp).id = id ∧ (s.proc pp).pid = pid ∧
        (s'.proc pp).state = .unused := by
  cases m with
  | @reap k addr havekids pp hrun hpc hparent hlock hz =>
    simp only [goto_trace, setWaitLock_trace, setProc_trace, record_trace, List.mem_append, List.mem_singleton] at hq
    rcases hq with hq | hq
    · exact .inl hq
    · cases hq
      exact .inr ⟨pp, hz, rfl, rfl, by simp [freeproc]⟩
  | _ => exact .inl (by simpa using hq)

theorem Recorded.reaped_move (h : Recorded s) (hn : Numbers s) (ht : Threads s) (m : Move v s p s') (q : Slot)
    (id : ℕ) (pid : ℤ) (st : Option ℤ) (par : Option Slot) (hq : .reaped q id pid st par ∈ s'.trace) :
    id < s'.born ∧ pid = pidOf id ∧ ∀ c, (s'.proc c).state ≠ .unused → (s'.proc c).id ≠ id := by
  have hold : id < s.born ∧ pid = pidOf id ∧
      ∀ c, (s'.proc c).state ≠ .unused → (s.proc c).state ≠ .unused → (s.proc c).id ≠ id := by
    rcases reaped_new m hq with hq | ⟨pp, hz, rfl, rfl, hfree⟩
    · obtain ⟨hlt, hpid, hids⟩ := h.reaped q id pid st par hq
      exact ⟨hlt, hpid, fun c _ hc => hids c hc⟩
    · have hpp : (s.proc pp).state ≠ .unused := by simp [hz]
      refine ⟨(hn.born pp hpp).1, (hn.born pp hpp).2, fun c hc' hc hid => ?_⟩
      rw [hn.distinct c pp hc hpp hid] at hc'
      exact hc' hfree
  refine ⟨lt_of_lt_of_le hold.1 (born_le_move m), hold.2.1, fun c hc => ?_⟩
  rcases ht.number_move m c hc with ⟨hc', hid, _⟩ | ⟨hid, _⟩
  · rw [hid]
    exact hold.2.2 c hc hc'
  · have := hold.1
    omega

theorem Recorded.move (h : Recorded s) (hn : Numbers s) (ht : Threads s) (m : Move v s p s') : Recorded s' :=
  ⟨h.forked_move hn m, h.exiting_move ht m, h.exited_move m, h.reaped_move hn ht m⟩

end

/-- What the history before an event must show for it. -/
def Justified (pre : List Event) : Event → Prop
  | .reaped q id pid st par =>
    (∃ r, .forked r id pid ∈ pre) ∧ (∃ status, .exited id status ∈ pre ∧ ∀ x, st = some x → x = status) ∧
      par = some q ∧ ∀ q' pid' st' par', .reaped q' id pid' st' par' ∉ pre
  | .waitFailed _ hasChild killed => hasChild = false ∨ killed = true
  | .copyFailed _ => False
  | _ => True

theorem justified_move {s s' : State} {p : Slot} {v : Prop} (h : Inv s) (hr : Recorded s)
    (hv : v) (m : Move v s p s') (ha : System.Always Justified s.trace) : System.Always Justified s'.trace := by
  cases m with
  | start hrun hpc | exitCall status hrun hpc hp => exact (System.always_snoc _ _ _).mpr ⟨ha, trivial⟩
  | copyFailed hnv => exact absurd hv hnv
  | @reap k addr havekids pp hrun hpc hparent hlock hz =>
    have hinit : pp ≠ initproc := by
      rintro rfl
      exact h.family.initAlive.1 (h.threads.gone_of_zombie hz hlock)
    refine (System.always_snoc _ _ _).mpr ⟨ha, hr.forked pp hinit (by simp [hz]) (by simp [hz]), ?_, hparent, ?_⟩
    · refine ⟨(s.proc pp).xstate, hr.exited pp hz, fun x hx => ?_⟩
      split_ifs at hx
      exact (Option.some.inj hx).symm
    · intro q' pid' st' par' hmem
      exact (hr.reaped q' _ pid' st' par' hmem).2.2 pp (by simp [hz]) rfl
  | @waitFailed k addr havekids i hrun hpc hi hk =>
    refine (System.always_snoc _ _ _).mpr ⟨ha, ?_⟩
    rcases hk with rfl | hk
    · -- the scan saw no child, and `wait_lock` was held all along
      have hnone : ∀ c, (s.proc c).parent ≠ some p := fun c =>
        h.family.left p c (by rw [hpc]; exact lt_of_lt_of_le c.isLt hi)
      exact .inl (by simp [State.hasChild, hnone])
    · exact .inr hk
  | _ => exact ha

theorem numbers_init : Numbers init := by
  have hproc := init_proc
  have hpc := init_pc
  refine ⟨by norm_num [init, pidOf, int32], ?_, ?_, ?_⟩
  · intro c hc
    rw [hproc] at hc ⊢
    split_ifs at hc ⊢ with h
    · exact ⟨Nat.zero_lt_one, by norm_num [Proc.free, pidOf, int32]⟩
    · exact absurd rfl hc
  all_goals grind [Proc.free]

theorem recorded_init : Recorded init := by
  have hproc := init_proc
  have hpc := init_pc
  refine ⟨?_, ?_, ?_, ?_⟩
  · grind [Proc.free]
  · grind [Pc.info]
  · grind [Proc.free]
  · intro q id pid st par h
    simp [init] at h

/-- The invariants of a run whose `copyout` calls all succeed. -/
structure Lives (s : State) : Prop where
  inv : Inv s
  numbers : Numbers s
  recorded : Recorded s
  justified : System.Always Justified s.trace

theorem lives_run {es : List (Slot × Act)} {s : State} (h : run es = some s) (hes : ∀ e ∈ es, e.2.Valid) :
    Lives s := by
  refine System.exec_invariant_along step ⟨inv_init, numbers_init, recorded_init, System.always_nil _⟩
    (fun s e s' hs he hstep => ?_) es s (System.along_of_mem _ fun _ => hes) h
  have m := step_move hstep
  exact ⟨hs.inv.step hstep, hs.numbers.move hs.inv.threads m, hs.recorded.move hs.numbers hs.inv.threads m,
    justified_move hs.inv hs.recorded he m hs.justified⟩

/-- What must be true of an event after the history `pre`: a pid that `wait` or `waitx`
returns was returned by an earlier `fork`, is that of a process that called `exit`, with
the stored status, is that of a child of the caller, is not -1 and was not returned before; -1
is returned only to a caller without children or that is killed. -/
def ReapedOnce (pre : List Event) : Event → Prop
  | .reaped q id pid st par =>
    pid ≠ -1 ∧ (∃ r, .forked r id pid ∈ pre) ∧ (∃ status, .exited id status ∈ pre ∧ ∀ x, st = some x → x = status) ∧
      par = some q ∧ ∀ q' id' st' par', .reaped q' id' pid st' par' ∉ pre
  | .waitFailed _ hasChild killed => hasChild = false ∨ killed = true
  | .copyFailed _ => False
  | _ => True

/-- Each child is reaped exactly once, with its own status, in every run with valid user
addresses that calls `allocpid` at most 2^32 - 2 times. -/
theorem reaped_once (es : List (Slot × Act)) (s : State) (hrun : run es = some s) (hes : ∀ e ∈ es, e.2.Valid)
    (hborn : s.born ≤ 2 ^ 32 - 2) : System.Always ReapedOnce s.trace := by
  obtain ⟨_, _, hrec, hjust⟩ := lives_run hrun hes
  intro pre e post htr
  have he := hjust pre e post htr
  cases e with
  | reaped q id pid st par =>
    obtain ⟨hfork, hexit, hpar, honce⟩ := he
    obtain ⟨hlt, hpid, _⟩ := hrec.reaped q id pid st par (by simp [htr])
    refine ⟨?_, hfork, hexit, hpar, fun q' id' st' par' hmem => ?_⟩
    · rw [hpid, pidOf, int32]
      omega
    obtain ⟨hlt', hpid', _⟩ := hrec.reaped q' id' pid st' par' (by simp [htr, hmem])
    have hid : id' = id := pidOf_inj (by omega) (by omega) (hpid'.symm.trans hpid)
    exact honce q' pid st' par' (hid ▸ hmem)
  | _ => exact he

end Xv6.Life
