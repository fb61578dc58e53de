import Xv6.Sanity.PipeSteps

/-! Who sleeps on a pipe. A reader sleeps while the pipe is empty, or until the writer that
holds `pi->lock` is done; but a writer that finds itself killed in the middle of its
loop leaves without the wakeup. -/

namespace Xv6.Pipe

open State Function

variable {P : Type}

def State.AsleepReader (s : State P) (q : P) : Prop := ∃ n room, s.pc q = .readAsleep n room

def State.AsleepWriter (s : State P) (q : P) : Prop := ∃ call n src i, s.pc q = .writeAsleep call n src i

def State.Empty (s : State P) : Prop := s.nread = s.nwrite

def State.Full (s : State P) : Prop := s.nwrite = uint (s.nread + PIPESIZE)

/-- A `kill` that hits a process in the loop of `pipewrite`, behind a byte that it has put in since it took
`pi->lock` and in front of another one, while a reader sleeps. -/
def Late (s : State P) (e : Event P) : Prop :=
  ∃ p call n src start i, e = .kill p ∧ s.pc p = .write call n src start i ∧ start < i ∧ i < n ∧ ∃ q, s.AsleepReader q

/-- The holder of the lock has put in bytes and will wake the readers. -/
def Delivering (s : State P) : Prop :=
  ∃ p call n src start i, s.pc p = .write call n src start i ∧ start < i ∧ s.readopen = true ∧
    (s.killed p = false ∨ n ≤ i)

/-- The holder of the lock takes bytes out and will wake the writers. -/
def Copying (s : State P) : Prop := ∃ p n room i, s.pc p = .readCopy n room i

def Readers (s : State P) : Prop := ∀ q, s.AsleepReader q → s.writeopen = true ∧ (s.Empty ∨ Delivering s)

def Writers (s : State P) : Prop := ∀ q, s.AsleepWriter q → s.readopen = true ∧ (s.Full ∨ Copying s)

def Starts (s : State P) : Prop := ∀ q call n src start i, s.pc q = .write call n src start i → start ≤ i

variable {s s' : State P} {e : Event P} {p : P}

theorem not_delivering_of_free (hl : Locked s) (hfree : s.lock = none) : ¬ Delivering s := by
  rintro ⟨p, call, n, src, start, i, hpc, -⟩
  have := (hl p).mpr (by rw [hpc]; trivial)
  rw [hfree] at this
  cases this

theorem not_copying_of_free (hl : Locked s) (hfree : s.lock = none) : ¬ Copying s := by
  rintro ⟨p, n, room, i, hpc⟩
  have := (hl p).mpr (by rw [hpc]; trivial)
  rw [hfree] at this
  cases this

variable {q : P} {data : ℕ → UInt8} {nread count : ℕ} {es : List (Event P)}

/-- Two processes in the loops are one. -/
theorem Locked.unique (hl : Locked s) (hp : (s.pc p).locked) (hq : (s.pc q).locked) : p = q :=
  Option.some.inj (((hl p).mpr hp).symm.trans ((hl q).mpr hq))

theorem not_delivering (hl : Locked s) (hp : (s.pc p).locked) (hpc : ∀ call n src start i, s.pc p ≠ .write call n src start i) :
    ¬ Delivering s := by
  rintro ⟨r, call, n, src, start, i, hr, -⟩
  have : p = r := hl.unique hp (by rw [hr]; trivial)
  subst this
  exact hpc call n src start i hr

theorem not_copying (hl : Locked s) (hp : (s.pc p).locked) (hpc : ∀ n room i, s.pc p ≠ .readCopy n room i) :
    ¬ Copying s := by
  rintro ⟨r, n, room, i, hr⟩
  have : p = r := hl.unique hp (by rw [hr]; trivial)
  subst this
  exact hpc n room i hr

theorem Readers.empty (h : Readers s) (hd : ¬ Delivering s) (hq : s.AsleepReader q) :
    s.writeopen = true ∧ s.Empty := ⟨(h q hq).1, (h q hq).2.resolve_right hd⟩

theorem Writers.full (h : Writers s) (hc : ¬ Copying s) (hq : s.AsleepWriter q) :
    s.readopen = true ∧ s.Full := ⟨(h q hq).1, (h q hq).2.resolve_right hc⟩

theorem wakeReaders_awake (s : State P) (q : P) : ¬ s.wakeReaders.AsleepReader q := by
  rintro ⟨n, room, hq⟩
  unfold wakeReaders at hq
  dsimp only at hq
  split at hq
  · cases hq
  · rename_i hne
    exact hne n room hq

theorem wakeWriters_awake (s : State P) (q : P) : ¬ s.wakeWriters.AsleepWriter q := by
  rintro ⟨call, n, src, i, hq⟩
  unfold wakeWriters at hq
  dsimp only at hq
  split at hq
  · cases hq
  · rename_i hne
    exact hne call n src i hq

theorem Pc.Wakes.asleepReader (h : (s.pc q).Wakes (s'.pc q)) (hq : s'.AsleepReader q) : s.AsleepReader q := by
  obtain ⟨n, room, hq⟩ := hq
  exact ⟨n, room, h.eq_of_readAsleep hq⟩

theorem Pc.Wakes.asleepWriter (h : (s.pc q).Wakes (s'.pc q)) (hq : s'.AsleepWriter q) : s.AsleepWriter q := by
  obtain ⟨call, n, src, i, hq⟩ := hq
  exact ⟨call, n, src, i, h.eq_of_writeAsleep hq⟩

variable [DecidableEq P]

/-- A process that has just moved to a place where nobody sleeps. -/
theorem goto_awake {c : Pc} {pc : P → Pc} (hc : ∀ n room, c ≠ .readAsleep n room)
    (hc' : ∀ call n src i, c ≠ .writeAsleep call n src i) (hs : s'.pc = update pc p c) :
    ¬ s'.AsleepReader p ∧ ¬ s'.AsleepWriter p := by
  have hp : s'.pc p = c := by rw [hs, update_self]
  refine ⟨?_, ?_⟩
  · rintro ⟨n, room, h⟩
    exact hc n room (hp.symm.trans h)
  · rintro ⟨call, n, src, i, h⟩
    exact hc' call n src i (hp.symm.trans h)

theorem starts_does (h : Starts s) (hd : Does s e s') : Starts s' := by
  intro q call n src start i hq
  by_cases hqp : q = e.proc
  · subst hqp
    cases hd with
    | @put p call' n' src' start' i' ch hpc =>
      simp only [goto, Event.proc, update_self] at hq
      cases hq
      have := h p _ _ _ _ _ hpc
      omega
    | startWrite | resumeWrite =>
      simp only [goto, Event.proc, update_self] at hq
      cases hq
      exact le_rfl
    | close => exact h _ call n src start i ((pipeclose_wakes s _ _).eq_of_locked (by rw [hq]; trivial) ▸ hq)
    | kill => exact h _ call n src start i ((kill_wakes s _ _).eq_of_locked (by rw [hq]; trivial) ▸ hq)
    | _ => simp [goto, leave, leaveWrite, Event.proc] at hq
  · exact h q call n src start i ((does_others hd hqp).eq_of_locked (by rw [hq]; trivial) ▸ hq)

/-- The readers that sleep slept before, unless it is the process of this step. -/
theorem asleepReader_does (hd : Does s e s') (hp : ¬ s'.AsleepReader e.proc) (hq : s'.AsleepReader q) :
    s.AsleepReader q := by
  have hqp : q ≠ e.proc := fun heq => hp (heq ▸ hq)
  exact (does_others hd hqp).asleepReader hq

theorem asleepWriter_does (hd : Does s e s') (hp : ¬ s'.AsleepWriter e.proc) (hq : s'.AsleepWriter q) :
    s.AsleepWriter q := by
  have hqp : q ≠ e.proc := fun heq => hp (heq ▸ hq)
  exact (does_others hd hqp).asleepWriter hq

theorem readers_does (hl : Locked s) (hstarts : Starts s) (h : Readers s) (hlate : ¬ Late s e) (hd : Does s e s') :
    Readers s' := by
  intro q hq
  have hd' := hd
  cases hd with
  | startWrite _ _ _ hlock | startRead _ _ _ hlock | resumeWrite _ _ _ _ _ hlock | resumeRead _ _ _ hlock =>
    have hold := asleepReader_does hd' (goto_awake (by simp) (by simp) rfl).1 hq
    exact (h.empty (not_delivering_of_free hl hlock) hold).imp_right .inl
  | close writable hlock =>
    unfold pipeclose at hq ⊢
    split_ifs at hq ⊢
    · exact absurd hq (wakeReaders_awake _ q)
    · have hold : s.AsleepReader q := (wakeWriters_wakes { s with readopen := false } q).asleepReader hq
      exact (h.empty (not_delivering_of_free hl hlock) hold).imp_right .inl
  | @kill p =>
    have hold := (kill_wakes s p q).asleepReader hq
    obtain ⟨hopen, hempty | ⟨r, call, n, src, start, i, hpc, hlt, hro, hgo⟩⟩ := h q hold
    · exact ⟨hopen, .inl hempty⟩
    · have hpc' : (s.kill p).pc r = .write call n src start i := by
        unfold State.kill
        dsimp only
        by_cases hrp : r = p
        · rw [hrp, update_self, ← hrp, hpc]
        · rw [update_of_ne hrp, hpc]
      refine ⟨hopen, .inr ⟨r, call, n, src, start, i, hpc', hlt, hro, ?_⟩⟩
      rcases lt_or_ge (i : ℤ) n with hin | hin
      · -- the kill would be late if it hit the writer
        have hrp : r ≠ p := by
          rintro rfl
          exact hlate ⟨r, call, n, src, start, i, rfl, hpc, hlt, hin, q, hold⟩
        refine .inl ?_
        unfold State.kill
        dsimp only
        rw [update_of_ne hrp]
        exact hgo.resolve_right (by omega)
      · exact .inr hin
  | @refuse p call n src start i hpc hn hrefuse =>
    have hold := asleepReader_does hd' (goto_awake (by simp) (by simp) rfl).1 hq
    have hnot : ¬ Delivering s := by
      rintro ⟨r, call', n', src', start', i', hr, -, hopen, hgo⟩
      have hpr : p = r := hl.unique (by rw [hpc]; trivial) (by rw [hr]; trivial)
      subst hpr
      cases hpc.symm.trans hr
      rcases hrefuse with hclosed | hkilled
      · rw [hopen] at hclosed
        cases hclosed
      · rcases hgo with hgo | hgo
        · rw [hkilled] at hgo
          cases hgo
        · omega
    exact (h.empty hnot hold).imp_right .inl
  | @full p | @wrote p =>
    by_cases hqp : q = p
    · obtain ⟨n, room, hq⟩ := hqp ▸ hq
      simp [goto, leave, leaveWrite] at hq
    · obtain ⟨n, room, hq⟩ := hq
      simp only [goto, leave, leaveWrite, update_of_ne hqp] at hq
      exact absurd ⟨n, room, hq⟩ (wakeReaders_awake s q)
  | @put p call n src start i ch hpc hopen hkilled =>
    have hold := asleepReader_does hd' (goto_awake (by simp) (by simp) rfl).1 hq
    have hle := hstarts p call n src start i hpc
    refine ⟨(h q hold).1, .inr ⟨p, call, n, src, start, i + 1, ?_, by omega, hopen, .inl hkilled⟩⟩
    simp [goto]
  | @giveUp p _ _ hpc | @ready p _ _ hpc | @drained p _ _ _ hpc =>
    have hold := asleepReader_does hd' (goto_awake (by simp) (by simp) rfl).1 hq
    exact (h.empty (not_delivering (p := p) hl (by rw [hpc]; trivial) (by simp [hpc])) hold).imp_right .inl
  | empty n room hpc hempty hopen => exact ⟨hopen, .inl hempty⟩
  | @take p _ _ _ hpc hdata | @lose p _ _ _ hpc _ _ hdata =>
    have hold := asleepReader_does hd' (goto_awake (by simp) (by simp) rfl).1 hq
    obtain ⟨-, hempty⟩ := h.empty (not_delivering (p := p) hl (by rw [hpc]; trivial) (by simp [hpc])) hold
    exact absurd hempty hdata

theorem writers_does (hl : Locked s) (h : Writers s) (hd : Does s e s') : Writers s' := by
  intro q hq
  have hd' := hd
  cases hd with
  | startWrite _ _ _ hlock | startRead _ _ _ hlock | resumeWrite _ _ _ _ _ hlock | resumeRead _ _ _ hlock =>
    have hold := asleepWriter_does hd' (goto_awake (by simp) (by simp) rfl).2 hq
    exact (h.full (not_copying_of_free hl hlock) hold).imp_right .inl
  | close writable hlock =>
    unfold pipeclose at hq ⊢
    split_ifs at hq ⊢
    · have hold : s.AsleepWriter q := (wakeReaders_wakes { s with writeopen := false } q).asleepWriter hq
      exact (h.full (not_copying_of_free hl hlock) hold).imp_right .inl
    · exact absurd hq (wakeWriters_awake _ q)
  | @kill p =>
    have hold := (kill_wakes s p q).asleepWriter hq
    obtain ⟨hopen, hfull | ⟨r, n, room, i, hpc⟩⟩ := h q hold
    · exact ⟨hopen, .inl hfull⟩
    · refine ⟨hopen, .inr ⟨r, n, room, i, ?_⟩⟩
      unfold State.kill
      dsimp only
      by_cases hrp : r = p
      · rw [hrp, update_self, ← hrp, hpc]
      · rw [update_of_ne hrp, hpc]
  | @refuse p _ _ _ _ _ hpc | @wrote p _ _ _ _ _ hpc | @giveUp p _ _ hpc =>
    have hold := asleepWriter_does hd' (goto_awake (by simp) (by simp) rfl).2 hq
    exact (h.full (not_copying (p := p) hl (by rw [hpc]; trivial) (by simp [hpc])) hold).imp_right .inl
  | full call n src start i hpc hopen hfull => exact ⟨hopen, .inl hfull⟩
  | @put p call n src start i ch hpc hopen hkilled hspace =>
    have hold := asleepWriter_does hd' (goto_awake (by simp) (by simp) rfl).2 hq
    obtain ⟨-, hfull⟩ := h.full (not_copying (p := p) hl (by rw [hpc]; trivial) (by simp [hpc])) hold
    exact absurd hfull hspace
  | @empty p n room hpc =>
    have hold := asleepWriter_does hd' (by rintro ⟨_, _, _, _, hp⟩; simp [goto, Event.proc] at hp) hq
    exact (h.full (not_copying (p := p) hl (by rw [hpc]; trivial) (by simp [hpc])) hold).imp_right .inl
  | @ready p n room hpc =>
    have hold := asleepWriter_does hd' (goto_awake (by simp) (by simp) rfl).2 hq
    exact ⟨(h q hold).1, .inr ⟨p, n, room, 0, by simp [goto]⟩⟩
  | @take p n room i hpc =>
    have hold := asleepWriter_does hd' (goto_awake (by simp) (by simp) rfl).2 hq
    exact ⟨(h q hold).1, .inr ⟨p, n, room, i + 1, by simp [goto]⟩⟩
  | @lose p | @drained p =>
    by_cases hqp : q = p
    · exact absurd hq (hqp ▸ (goto_awake (by simp) (by simp) rfl).2)
    · obtain ⟨call, n', src, j, hq⟩ := hq
      simp only [goto, leave, update_of_ne hqp] at hq
      exact absurd ⟨call, n', src, j, hq⟩ (wakeWriters_awake _ q)

/-- No step of the run is a late `kill`. -/
def Punctual (data : ℕ → UInt8) (nread count : ℕ) (es : List (Event P)) : Prop :=
  ∀ pre e post t, es = pre ++ e :: post → run data nread count pre = some t → ¬ Late t e

structure Rests (s : State P) : Prop where
  locked : Locked s
  starts : Starts s
  readers : Readers s
  writers : Writers s

omit [DecidableEq P] in
theorem rests_init (data : ℕ → UInt8) (nread count : ℕ) : Rests (init data nread count : State P) := by
  refine ⟨fun q => iff_of_false (by simp [init]) (by simp [init, Pc.locked]), fun q _ _ _ _ _ hq => ?_, ?_, ?_⟩
  · cases hq
  · rintro q ⟨n, room, hq⟩
    cases hq
  · rintro q ⟨call, n, src, i, hq⟩
    cases hq

theorem rests_run (hes : Punctual data nread count es) (h : run data nread count es = some s) : Rests s := by
  refine System.exec_invariant_along _ (rests_init data nread count) (fun s e s' hrests hlate hs => ?_) es s hes h
  have hd := step_does hs
  exact ⟨locked_does hrests.locked hd, starts_does hrests.starts hd,
    readers_does hrests.locked hrests.starts hrests.readers hlate hd, writers_does hrests.locked hrests.writers hd⟩

/-- In a run without a late `kill`, whenever `pi->lock` is free a sleeping reader means an empty pipe with an open
write end, and a sleeping writer a full pipe with an open read end. -/
theorem pipe_sleepers (data : ℕ → UInt8) (nread count : ℕ) (es : List (Event P)) (hes : Punctual data nread count es)
    (s : State P) (h : run data nread count es = some s) (hfree : s.lock = none) :
    (∀ q, s.AsleepReader q → s.Empty ∧ s.writeopen = true) ∧ (∀ q, s.AsleepWriter q → s.Full ∧ s.readopen = true) := by
  have hrests := rests_run hes h
  refine ⟨fun q hq => ?_, fun q hq => ?_⟩
  · exact (hrests.readers.empty (not_delivering_of_free hrests.locked hfree) hq).symm
  · exact (hrests.writers.full (not_copying_of_free hrests.locked hfree) hq).symm

/-- A reader waits on a new pipe. -/
def waitingReader : List (Event (Fin 2)) := [.piperead 0 1 1, .run 0]

theorem punctual_of_no_kill (hes : ∀ p, Event.kill p ∉ es) : Punctual data nread count es := by
  rintro pre e post t rfl - ⟨p, call, n, src, start, i, rfl, -⟩
  exact hes p (by simp)

theorem pipe_sleepers_waitingReader : ∃ s, run (fun _ => 0) 0 0 waitingReader = some s ∧ s.AsleepReader 0 ∧
    (∀ q, s.AsleepReader q → s.Empty ∧ s.writeopen = true) := by
  have hrun : (run (fun _ => 0) 0 0 waitingReader).map (fun s => (s.pc 0, s.lock)) = some (.readAsleep 1 1, none) := by
    decide +kernel
  obtain ⟨s, hs, hpc⟩ := Option.map_eq_some_iff.mp hrun
  obtain ⟨hpc, hlock⟩ := Prod.mk.inj hpc
  have hpunctual : Punctual (fun _ => 0) 0 0 waitingReader := punctual_of_no_kill (by simp [waitingReader])
  exact ⟨s, hs, ⟨1, 1, hpc⟩, (pipe_sleepers _ 0 0 waitingReader hpunctual s hs hlock).1⟩

/-- The writer is killed behind the first of its two bytes. -/
def lateKill : List (Event (Fin 2)) := waitingReader ++ [.pipewrite 1 2 [7, 8], .run 1, .kill 1, .run 1]

/-- The reader sleeps though there is a byte, and nobody is left to wake it. -/
theorem reader_sleeps_on_data : (run (fun _ => 0) 0 0 lateKill).map
    (fun s => (s.pc 0, s.pc 1, s.lock, s.nread, s.nwrite, s.writeopen)) =
      some (.readAsleep 1 1, .idle, none, 0, 1, true) := by
  decide +kernel

end Xv6.Pipe
