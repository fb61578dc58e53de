import Xv6.Sanity.CpuSteps

/-! A process runs on at most one CPU. What `c->proc` is follows from where the CPU is;
the thread of a RUNNING process is on exactly one CPU, and a CPU that is back from a
process, or keeps one as a candidate, has its lock. -/

namespace Xv6.Cpus

open Locks

variable {κ α β : Type} [DecidableEq κ] [DecidableEq β]

/-- The thread of `p`, on a CPU or not, is in `fork` and has not started `np` yet. -/
def HasChild (s : State κ α β) (p np : Slot) : Prop :=
  (∃ c, (s.ctl c).runs = some p ∧ (s.ctl c).child = some np) ∨ ∃ r, s.context p = some r ∧ r.child = some np

structure Placed (s : State κ α β) : Prop where
  lock : Owns Ctl.locks s.lock s.ctl
  spin : Owns Ctl.spins s.spin s.ctl
  cpu : ∀ c, s.cpuProc c = (s.ctl c).proc
  running : ∀ c p, (s.ctl c).runs = some p → (s.proc p).state = .running ∧ s.context p = none
  away : ∀ c p, (s.ctl c).runs = none → (s.ctl c).proc = some p → (s.proc p).state ≠ .running
  best : ∀ c b, (s.ctl c).best = some b → (s.proc b).state = .runnable
  once : ∀ c d p, (s.ctl c).runs = some p → (s.ctl d).runs = some p → c = d
  runs : ∀ p, (s.proc p).state = .running → ∃ c, (s.ctl c).runs = some p
  ready : ∀ p, (s.proc p).state = .runnable ∨ (s.proc p).state = .sleeping → s.context p ≠ none
  kid : ∀ p np, HasChild s p np → (s.proc np).state = .used ∧ s.context np ≠ none
  kids : ∀ p p' np, HasChild s p np → HasChild s p' np → p = p'

section

variable {lockOf : α → Lk β} {s s' : State κ α β} {c : κ} {a : Ctl α β}

theorem Turn.apply (t : Turn lockOf s s' c a) (d : κ) : s'.ctl d = if d = c then a else s.ctl d := by
  rw [t.ctl, Function.update_apply]

section

variable (h : Placed s) (t : Turn lockOf s s' c a)

include h t

theorem Placed.cpu_turn (d : κ) : s'.cpuProc d = (s'.ctl d).proc := by
  have hctl := t.apply d
  have hcpu := h.cpu d
  have hproc := fun p => @Ctl.proc_of_runs _ _ a p
  have hproc' := fun p => @Ctl.proc_of_runs _ _ (s.ctl c) p
  cases t.change with
  | quiet _ hstay | slot _ _ _ _ hstay => grind [Stays]
  | adopt | start | leave | enter | back => grind

theorem Placed.running_turn (d : κ) (p : Slot) (hp : (s'.ctl d).runs = some p) :
    (s'.proc p).state = .running ∧ s'.context p = none := by
  have hctl := t.apply d
  have hrunning := h.running d p
  have honce := h.once c d p
  cases t.change with
  | quiet => grind [Stays, Same]
  | slot q hq hsame hshift => cases hshift <;> grind [Stays, Same]
  | adopt | leave | enter | back => grind [Same]
  | start r q _ _ _ _ _ _ hruns _ hchild =>
    have hused := (h.kid r q (.inl ⟨c, hruns, hchild⟩)).1
    grind [Same]

theorem Placed.away_turn (d : κ) (p : Slot) (hruns : (s'.ctl d).runs = none)
    (hp : (s'.ctl d).proc = some p) : (s'.proc p).state ≠ .running := by
  have hctl := t.apply d
  have haway := h.away d p
  -- the lock of a process one is back from is not free
  have hlocks : (s.ctl d).runs = none → (s.ctl d).proc = some p → p ∈ (s.ctl c).locks → c = d :=
    fun h1 h2 hp => h.lock.unique hp (Ctl.mem_locks_of_proc h1 h2)
  cases t.change with
  | quiet => grind [Stays, Same]
  | slot q hq hsame hshift => cases hshift <;> grind [Stays, Same]
  | adopt | start | leave | enter | back => grind [Same]

theorem Placed.best_turn (d : κ) (b : Slot) (hb : (s'.ctl d).best = some b) :
    (s'.proc b).state = .runnable := by
  have hctl := t.apply d
  have hbest := h.best d b
  have hlocks : (s.ctl d).best = some b → b ∈ (s.ctl c).locks → c = d :=
    fun h1 hb => h.lock.unique hb (Ctl.mem_locks_of_best h1)
  have hnone := fun p => @Ctl.best_of_runs _ _ a p
  cases t.change with
  | quiet | slot => grind [Stays, Same]
  | adopt | start | leave | enter | back => grind [Same]

theorem Placed.once_turn (d e : κ) (p : Slot) (hd : (s'.ctl d).runs = some p)
    (he : (s'.ctl e).runs = some p) : d = e := by
  have hctl := t.apply d
  have hctl' := t.apply e
  have honce := h.once
  have hrunning := h.running
  cases t.change with
  | quiet | slot => grind [Stays]
  | adopt | start | leave | enter | back => grind

theorem Placed.runs_turn (p : Slot) (hp : (s'.proc p).state = .running) :
    ∃ d, (s'.ctl d).runs = some p := by
  have hctl := t.apply
  have hself : s'.ctl c = a := by rw [hctl, if_pos rfl]
  -- a thread that runs on another CPU stays there
  have hkeep : (s.proc p).state = .running → a.runs = (s.ctl c).runs ∨ (s.ctl c).runs ≠ some p →
      ∃ d, (s'.ctl d).runs = some p := by
    intro hrun hstay
    obtain ⟨d, hd⟩ := h.runs p hrun
    exact ⟨d, by grind⟩
  cases t.change with
  | quiet hsame hstay => exact hkeep ((hsame p).1 ▸ hp) (.inl hstay.runs)
  | slot q hq hsame hshift hstay =>
    refine hkeep ?_ (.inl hstay.runs)
    cases hshift <;> grind [Same]
  | adopt r q | start r q | leave q => exact hkeep (by grind [Same]) (by grind)
  | enter q =>
    by_cases hq : p = q
    · exact ⟨c, by grind⟩
    · exact hkeep (by grind [Same]) (by grind)
  | back hsame => exact hkeep ((hsame p).1 ▸ hp) (by grind)

theorem Placed.ready_turn (p : Slot)
    (hp : (s'.proc p).state = .runnable ∨ (s'.proc p).state = .sleeping) : s'.context p ≠ none := by
  have hready := h.ready p
  cases t.change with
  | quiet => grind [Stays, Same]
  | slot q hq hsame hshift => cases hshift <;> grind [Stays, Same]
  | adopt | leave | enter | back => grind [Same]
  | start r q _ _ _ _ _ _ hruns _ hchild =>
    have hkid := h.kid r q (.inl ⟨c, hruns, hchild⟩)
    grind [Same]

/-- Only `fork` brings a child. -/
theorem Placed.child_turn {p np : Slot} (hp : HasChild s' p np) :
    HasChild s p np ∨ (s.proc np).state = .unused ∧ a.runs = some p ∧ (s'.proc np).state = .used ∧
      s'.context np ≠ none := by
  have hctl := t.apply
  have honce := h.once
  have hrunning := h.running
  obtain ⟨d, hd, hchild⟩ | ⟨r, hr, hchild⟩ := hp
  · cases t.change with
    | quiet | slot => grind [HasChild, Stays]
    | adopt | start | leave | enter | back => grind [HasChild]
  · cases t.change with
    | quiet | slot => grind [HasChild, Stays]
    | adopt => grind [HasChild, Resume.child]
    | start | leave | enter | back => grind [HasChild]

theorem Placed.kid_turn (p np : Slot) (hp : HasChild s' p np) :
    (s'.proc np).state = .used ∧ s'.context np ≠ none := by
  obtain hold | ⟨-, -, hnew⟩ := h.child_turn t hp
  · have hkid := h.kid p np hold
    have hkids := h.kids
    cases t.change with
    | quiet => grind [Stays, Same]
    | slot q hq hsame hshift => cases hshift <;> grind [Stays, Same]
    | adopt | back => grind [Same]
    | start r q _ hsame _ _ hcontext _ hruns _ hchild hchild' =>
      -- the child that was started is nobody's child any more
      have hne : np ≠ q := by
        rintro rfl
        obtain rfl := h.kids p r np hold (.inl ⟨c, hruns, hchild⟩)
        have hctl := t.apply
        have honce := h.once c
        have hnone := (h.running c p hruns).2
        grind [HasChild]
      grind [Same]
    | leave q _ _ _ hruns =>
      have hrunning := h.running c q hruns
      grind [Same]
    | enter q _ _ _ hstate =>
      have hbest := h.best c q
      grind [Same]
  · exact hnew

theorem Placed.kids_turn (p q np : Slot) (hp : HasChild s' p np) (hq : HasChild s' q np) : p = q := by
  obtain hp | ⟨hp, hruns, -⟩ := h.child_turn t hp <;> obtain hq | ⟨hq, hruns', -⟩ := h.child_turn t hq
  · exact h.kids p q np hp hq
  · exact absurd ((h.kid p np hp).1.symm.trans hq) (by decide)
  · exact absurd ((h.kid q np hq).1.symm.trans hp) (by decide)
  · exact Option.some.inj (hruns.symm.trans hruns')

theorem Placed.turn : Placed s' where
  lock := t.ctl ▸ h.lock.move t.lock
  spin := t.ctl ▸ h.spin.move t.spin
  cpu := h.cpu_turn t
  running := h.running_turn t
  away := h.away_turn t
  best := h.best_turn t
  once := h.once_turn t
  runs := h.runs_turn t
  ready := h.ready_turn t
  kid := h.kid_turn t
  kids := h.kids_turn t

end

omit [DecidableEq κ] [DecidableEq β] in
theorem not_hasChild_init (b : Policy) (p np : Slot) : ¬HasChild (State.init b : State κ α β) p np := by
  rintro (⟨c, h, -⟩ | ⟨r, hr, hchild⟩)
  · cases h
  · by_cases hp : p = initproc <;> simp [State.init, hp] at hr
    subst hr
    cases hchild

omit [DecidableEq κ] [DecidableEq β] in
theorem placed_init (b : Policy) : Placed (State.init b : State κ α β) where
  lock := ⟨fun i c => by cases b <;> simp [State.init, State.top, SchedPc.locks], fun c => by
    cases b <;> simp [State.init, State.top, SchedPc.locks]⟩
  spin := ⟨fun i c => by simp [State.init], fun c => by simp [State.init]⟩
  cpu c := by cases b <;> rfl
  running c p h := by cases h
  away c p _ h := by cases b <;> cases h
  best c p h := by cases b <;> cases h
  once c d p h := by cases h
  runs p h := by
    by_cases hp : p = initproc <;> simp [State.init, hp, Xv6.Proc.zero] at h
  ready p h := by
    by_cases hp : p = initproc
    · simp [State.init, hp]
    · simp [State.init, hp, Xv6.Proc.zero] at h
  kid p np h := absurd h (not_hasChild_init b p np)
  kids p q np h := absurd h (not_hasChild_init b p np)

theorem placed_run [DecidableEq α] (b : Policy) (es : List (κ × Act α β)) (hrun : State.run lockOf b es = some s) : Placed s :=
  System.exec_invariant _ (placed_init b) (fun _ _ _ hi hs => by
    obtain ⟨a, t⟩ := step_turn hs
    exact hi.turn t) es s hrun

omit [DecidableEq κ] [DecidableEq β] in
/-- `c->proc` is a process whose lock the CPU holds, or which it runs. -/
theorem Placed.cpuProc_unique (h : Placed s) {d : κ} {p : Slot} (hc : s.cpuProc c = some p) (hd : s.cpuProc d = some p) :
    c = d := by
  rw [h.cpu] at hc hd
  cases hrc : (s.ctl c).runs with
  | none =>
    cases hrd : (s.ctl d).runs with
    | none => exact h.lock.unique (Ctl.mem_locks_of_proc hrc hc) (Ctl.mem_locks_of_proc hrd hd)
    | some q =>
      obtain rfl := Option.some.inj ((Ctl.proc_of_runs hrd).symm.trans hd)
      exact absurd (h.running d q hrd).1 (h.away c q hrc hc)
  | some q =>
    obtain rfl := Option.some.inj ((Ctl.proc_of_runs hrc).symm.trans hc)
    cases hrd : (s.ctl d).runs with
    | none => exact absurd (h.running c q hrc).1 (h.away d q hrd hd)
    | some r =>
      obtain rfl := Option.some.inj ((Ctl.proc_of_runs hrd).symm.trans hd)
      exact h.once c d r hrc hrd

omit [DecidableEq κ] [DecidableEq β] in
/-- Only with its lock held does `c->proc` differ from what runs. -/
theorem Placed.running_iff (h : Placed s) {p : Slot} (hfree : s.lock p = none) :
    (s.proc p).state = .running ↔ ∃ c, s.cpuProc c = some p := by
  constructor
  · intro hrun
    obtain ⟨c, hc⟩ := h.runs p hrun
    exact ⟨c, (h.cpu c).trans (Ctl.proc_of_runs hc)⟩
  · rintro ⟨c, hc⟩
    rw [h.cpu] at hc
    cases hrc : (s.ctl c).runs with
    | none => exact absurd (Ctl.mem_locks_of_proc hrc hc) (h.lock.not_mem hfree)
    | some q =>
      obtain rfl := Option.some.inj ((Ctl.proc_of_runs hrc).symm.trans hc)
      exact (h.running c q hrc).1

/-- A process is switched to when it is RUNNABLE and the scheduler has its lock. -/
theorem Placed.switch (h : Placed s) (t : Turn lockOf s s' c a) {d : κ} {p : Slot} (hd : (s.ctl d).runs ≠ some p)
    (hd' : (s'.ctl d).runs = some p) : (s.proc p).state = .runnable ∧ s.lock p = some d := by
  have hctl := t.apply d
  have hbest := h.best d p
  have hlock := h.lock.iff p d
  cases t.change with
  | quiet | slot => grind [Stays]
  | adopt | start | leave | enter | back => grind

end

/-- A process is `c->proc` of at most one CPU; while its lock is free, it is so exactly when
it is RUNNING; and a CPU switches to it only with its lock, when it is RUNNABLE. A
RUNNABLE process has a context to switch to. -/
theorem one_cpu [DecidableEq α] (lockOf : α → Lk β) (b : Policy) (es : List (κ × Act α β)) (s : State κ α β)
    (hrun : State.run lockOf b es = some s) :
    (∀ c d p, s.cpuProc c = some p → s.cpuProc d = some p → c = d) ∧
      (∀ p, s.lock p = none → ((s.proc p).state = .running ↔ ∃ c, s.cpuProc c = some p)) ∧
      (∀ e s' c p, s.step lockOf b e = some s' → (s.ctl c).runs ≠ some p → (s'.ctl c).runs = some p →
        (s.proc p).state = .runnable ∧ s.lock p = some c) ∧
      ∀ p, (s.proc p).state = .runnable → s.context p ≠ none := by
  have h := placed_run b es hrun
  refine ⟨fun c d p => h.cpuProc_unique, fun p => h.running_iff, fun e s' c p hstep hc hc' => ?_,
    fun p hp => h.ready p (.inl hp)⟩
  obtain ⟨a, t⟩ := step_turn hstep
  exact h.switch t hc hc'

/-- `init` forks on CPU 0, and CPU 1 takes up the child. -/
def forkOnTwo : List (Fin 2 × Act Unit Unit) :=
  let go (c : Fin 2) : Fin 2 × Act Unit Unit := (c, .go .ok 0)
  [go 0, go 0, go 0, (0, .fork), go 0, go 0, go 0, go 0, go 0, go 0, go 0, go 1, go 1, go 1, go 1, go 1]

theorem one_cpu_forkOnTwo : ∃ s, State.run (fun _ => .spin ()) .rr forkOnTwo = some s ∧
    s.cpuProc 0 = some 0 ∧ s.cpuProc 1 = some 1 ∧ s.lock 1 = none ∧
    ((s.proc 1).state = .running ↔ ∃ c, s.cpuProc c = some 1) := by
  have hrun : (State.run (fun _ => .spin ()) .rr forkOnTwo).map (fun s => (s.cpuProc 0, s.cpuProc 1, s.lock 1)) =
      some (some 0, some 1, none) := by decide +kernel
  obtain ⟨s, hs, hval⟩ := Option.map_eq_some_iff.mp hrun
  obtain ⟨h0, h1, hlock⟩ : _ ∧ _ ∧ _ := by simpa using hval
  exact ⟨s, hs, h0, h1, hlock, (one_cpu _ _ _ s hs).2.1 1 hlock⟩

end Xv6.Cpus
