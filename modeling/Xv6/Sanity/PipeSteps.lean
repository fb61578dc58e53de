import Xv6.Spec.Pipe

/-! What the events of a pipe can do. -/

namespace Xv6.Pipe

open State Function

variable {P : Type} [DecidableEq P]

/-- What an event does, with its guard. -/
inductive Does (s : State P) : Event P → State P → Prop
  | startWrite {p : P} (n : ℤ) (src : List UInt8) (hpc : s.pc p = .idle) (hlock : s.lock = none) :
      Does s (.pipewrite p n src)
        { s.goto p (.write s.calls.length n src 0 0) with
          lock := some p, callers := s.callers ++ [p], calls := s.calls ++ [src] }
  | startRead {p : P} (n : ℤ) (room : ℕ) (hpc : s.pc p = .idle) (hlock : s.lock = none) :
      Does s (.piperead p n room) { s.goto p (.read n room) with lock := some p }
  | close {p : P} (writable : Bool) (hlock : s.lock = none) : Does s (.pipeclose p writable) (s.pipeclose writable)
  | kill {p : P} : Does s (.kill p) (s.kill p)
  | refuse {p : P} (call : ℕ) (n : ℤ) (src : List UInt8) (start i : ℕ) (hpc : s.pc p = .write call n src start i)
      (hn : i < n) (h : s.readopen = false ∨ s.killed p = true) : Does s (.run p) (s.leaveWrite p call (-1))
  | full {p : P} (call : ℕ) (n : ℤ) (src : List UInt8) (start i : ℕ) (hpc : s.pc p = .write call n src start i)
      (hopen : s.readopen = true) (hfull : s.nwrite = uint (s.nread + PIPESIZE)) :
      Does s (.run p) { s.wakeReaders.goto p (.writeAsleep call n src i) with lock := none }
  | put {p : P} (call : ℕ) (n : ℤ) (src : List UInt8) (start i : ℕ) (ch : UInt8) (hpc : s.pc p = .write call n src start i)
      (hopen : s.readopen = true) (hkilled : s.killed p = false) (hspace : s.nwrite ≠ uint (s.nread + PIPESIZE))
      (hch : src[i]? = some ch) :
      Does s (.run p) { s.goto p (.write call n src start (i + 1)) with
        data := Function.update s.data (s.nwrite % PIPESIZE) ch
        nwrite := uint (s.nwrite + 1)
        put := s.put ++ [(some call, ch)] }
  | wrote {p : P} (call : ℕ) (n : ℤ) (src : List UInt8) (start i : ℕ) (hpc : s.pc p = .write call n src start i) :
      Does s (.run p) (s.wakeReaders.leaveWrite p call i)
  | resumeWrite {p : P} (call : ℕ) (n : ℤ) (src : List UInt8) (i : ℕ) (hpc : s.pc p = .writeWoken call n src i)
      (hlock : s.lock = none) : Does s (.run p) { s.goto p (.write call n src i i) with lock := some p }
  | giveUp {p : P} (n : ℤ) (room : ℕ) (hpc : s.pc p = .read n room) : Does s (.run p) (s.leave p (-1))
  | empty {p : P} (n : ℤ) (room : ℕ) (hpc : s.pc p = .read n room) (hempty : s.nread = s.nwrite)
      (hopen : s.writeopen = true) : Does s (.run p) { s.goto p (.readAsleep n room) with lock := none }
  | ready {p : P} (n : ℤ) (room : ℕ) (hpc : s.pc p = .read n room) (h : ¬ (s.nread = s.nwrite ∧ s.writeopen = true)) :
      Does s (.run p) (s.goto p (.readCopy n room 0))
  | resumeRead {p : P} (n : ℤ) (room : ℕ) (hpc : s.pc p = .readWoken n room) (hlock : s.lock = none) :
      Does s (.run p) { s.goto p (.read n room) with lock := some p }
  | take {p : P} (n : ℤ) (room i : ℕ) (hpc : s.pc p = .readCopy n room i) (hdata : s.nread ≠ s.nwrite) :
      Does s (.run p) { s.goto p (.readCopy n room (i + 1)) with
        nread := uint (s.nread + 1), got := s.got ++ [s.data (s.nread % PIPESIZE)] }
  | lose {p : P} (n : ℤ) (room i : ℕ) (hpc : s.pc p = .readCopy n room i) (hn : i < n) (hroom : room ≤ i)
      (hdata : s.nread ≠ s.nwrite) : Does s (.run p) ({ s with nread := uint (s.nread + 1) }.wakeWriters.leave p i)
  | drained {p : P} (n : ℤ) (room i : ℕ) (hpc : s.pc p = .readCopy n room i) (h : s.nread = s.nwrite ∨ n ≤ i) :
      Does s (.run p) (s.wakeWriters.leave p i)

def Event.proc : Event P → P
  | .pipewrite p _ _ | .piperead p _ _ | .pipeclose p _ | .kill p | .run p => p

variable {s s' : State P} {p : P}

variable {n : ℤ} {i room : ℕ} {e : Event P}

theorem does_write {call : ℕ} {src : List UInt8} {start : ℕ} (hpc : s.pc p = .write call n src start i) :
    Does s (.run p) (s.write p call n src start i) := by
  unfold write
  split_ifs with hn hrefuse hfull
  · exact .refuse call n src start i hpc hn hrefuse
  · simp only [not_or, Bool.not_eq_false] at hrefuse
    exact .full call n src start i hpc hrefuse.1 hfull
  · simp only [not_or, Bool.not_eq_false, Bool.not_eq_true] at hrefuse
    split
    · exact .wrote call n src start i hpc
    · rename_i ch hch
      exact .put call n src start i ch hpc hrefuse.1 hrefuse.2 hfull hch
  · exact .wrote call n src start i hpc

theorem does_read (hpc : s.pc p = .read n room) : Does s (.run p) (s.read p n room) := by
  unfold State.read
  split_ifs with hempty hkilled
  · exact .giveUp n room hpc
  · exact .empty n room hpc hempty.1 hempty.2
  · exact .ready n room hpc hempty

theorem does_readCopy (hpc : s.pc p = .readCopy n room i) :
    Does s (.run p) (s.readCopy p n room i) := by
  unfold readCopy
  dsimp only
  split_ifs with hn hempty hroom
  · exact .drained n room i hpc (.inl hempty)
  · exact .take n room i hpc hempty
  · exact .lose n room i hpc hn (not_lt.mp hroom) hempty
  · exact .drained n room i hpc (.inr (not_lt.mp hn))

omit [DecidableEq P] in
theorem enter_some {t : State P} (h : s.enter p t = some s') : s.pc p = .idle ∧ s.lock = none ∧ s' = t := by
  unfold enter at h
  split_ifs at h with hguard
  exact ⟨hguard.1, hguard.2.1, (Option.some.inj h).symm⟩

theorem reenter_some {c : Pc} (h : s.reenter p c = some s') :
    s.lock = none ∧ s' = { s.goto p c with lock := some p } := by
  unfold reenter at h
  split_ifs at h with hlock
  exact ⟨hlock, (Option.some.inj h).symm⟩

theorem step_does (hs : s.step e = some s') : Does s e s' := by
  cases e with
  | pipewrite p n src =>
    obtain ⟨hpc, hlock, rfl⟩ := enter_some hs
    exact .startWrite n src hpc hlock
  | piperead p n room =>
    obtain ⟨hpc, hlock, rfl⟩ := enter_some hs
    exact .startRead n room hpc hlock
  | pipeclose p writable =>
    obtain ⟨-, hlock, rfl⟩ := enter_some hs
    exact .close writable hlock
  | kill p =>
    cases hs
    exact .kill
  | run p =>
    rw [step] at hs
    split at hs
    · rename_i hpc
      cases hs
      exact does_write hpc
    · rename_i hpc
      obtain ⟨hlock, rfl⟩ := reenter_some hs
      exact .resumeWrite _ _ _ _ hpc hlock
    · rename_i hpc
      cases hs
      exact does_read hpc
    · rename_i hpc
      obtain ⟨hlock, rfl⟩ := reenter_some hs
      exact .resumeRead _ _ hpc hlock
    · rename_i hpc
      cases hs
      exact does_readCopy hpc
    · cases hs

/-- A place in the loops, where the process has `pi->lock`. -/
def Pc.locked : Pc → Prop
  | .write .. | .read .. | .readCopy .. => True
  | _ => False

/-- The call of `pipewrite` that a process is in, its source and how many bytes are done. -/
def Pc.writing : Pc → Option (ℕ × List UInt8 × ℕ)
  | .write call _ src _ i | .writeAsleep call _ src i | .writeWoken call _ src i => some (call, src, i)
  | _ => none

/-- How a wakeup changes a place, if at all. -/
inductive Pc.Wakes : Pc → Pc → Prop
  | same (c : Pc) : Wakes c c
  | reader (n : ℤ) (room : ℕ) : Wakes (.readAsleep n room) (.readWoken n room)
  | writer (call : ℕ) (n : ℤ) (src : List UInt8) (i : ℕ) : Wakes (.writeAsleep call n src i) (.writeWoken call n src i)

namespace Pc.Wakes

variable {c c' : Pc}

theorem locked (h : c.Wakes c') : c'.locked ↔ c.locked := by cases h <;> simp [Pc.locked]

theorem writing (h : c.Wakes c') : c'.writing = c.writing := by cases h <;> rfl

/-- A place that a wakeup leads to, if it is none of the two woken ones, is the old place. -/
theorem eq_of_locked (h : c.Wakes c') (hc : c'.locked) : c' = c := by
  cases h with
  | same => rfl
  | reader | writer => cases hc

variable {n : ℤ}

/-- Nobody falls asleep by a wakeup. -/
theorem eq_of_readAsleep {room : ℕ} (h : c.Wakes c') (hc : c' = .readAsleep n room) : c = .readAsleep n room := by
  cases h with
  | same => exact hc
  | reader | writer => cases hc

theorem eq_of_writeAsleep {call : ℕ} {src : List UInt8} {i : ℕ} (h : c.Wakes c')
    (hc : c' = .writeAsleep call n src i) : c = .writeAsleep call n src i := by
  cases h with
  | same => exact hc
  | reader | writer => cases hc

end Pc.Wakes

omit [DecidableEq P] in
theorem wakeReaders_wakes (s : State P) (q : P) : (s.pc q).Wakes (s.wakeReaders.pc q) := by
  unfold wakeReaders
  dsimp only
  split
  · rename_i h
    rw [h]
    exact .reader ..
  · exact .same _

omit [DecidableEq P] in
theorem wakeWriters_wakes (s : State P) (q : P) : (s.pc q).Wakes (s.wakeWriters.pc q) := by
  unfold wakeWriters
  dsimp only
  split
  · rename_i h
    rw [h]
    exact .writer ..
  · exact .same _

omit [DecidableEq P] in
theorem pipeclose_wakes (s : State P) (writable : Bool) (q : P) : (s.pc q).Wakes ((s.pipeclose writable).pc q) := by
  unfold pipeclose
  split_ifs
  · exact wakeReaders_wakes _ q
  · exact wakeWriters_wakes _ q

theorem kill_wakes (s : State P) (p q : P) : (s.pc q).Wakes ((s.kill p).pc q) := by
  unfold kill
  dsimp only
  by_cases hq : q = p
  · subst hq
    rw [update_self]
    split
    · rename_i h
      rw [h]
      exact .reader ..
    · rename_i h
      rw [h]
      exact .writer ..
    · exact .same _
  · rw [update_of_ne hq]
    exact .same _

/-- Everybody else is at most woken. -/
theorem does_others (h : Does s e s') {q : P} (hq : q ≠ e.proc) : (s.pc q).Wakes (s'.pc q) := by
  cases h with
  | close writable => exact pipeclose_wakes s writable q
  | kill => exact kill_wakes s _ q
  | full | wrote =>
    simp only [Event.proc] at hq
    simp only [goto, leaveWrite, leave, update_of_ne hq]
    exact wakeReaders_wakes s q
  | lose | drained =>
    simp only [Event.proc] at hq
    simp only [goto, leave, update_of_ne hq]
    exact wakeWriters_wakes _ q
  | _ =>
    simp only [Event.proc] at hq
    simp only [goto, leaveWrite, leave, update_of_ne hq]
    exact .same _

/-- `pi->lock` is held by the process that is in one of the loops. -/
def Locked (s : State P) : Prop := ∀ q, s.lock = some q ↔ (s.pc q).locked

/-- A process takes the free lock. -/
theorem locked_take (h : Locked s) (hfree : s.lock = none) (hlock : s'.lock = some p) (hp : (s'.pc p).locked)
    (hothers : ∀ q, q ≠ p → (s.pc q).Wakes (s'.pc q)) : Locked s' := by
  intro q
  by_cases hq : q = p
  · subst hq
    exact iff_of_true hlock hp
  · have hold : ¬ (s.pc q).locked := by
      rw [← h q, hfree]
      simp
    rw [(hothers q hq).locked, hlock]
    exact iff_of_false (fun heq => hq (Option.some.inj heq).symm) hold

/-- The holder of the lock stays in its loop. -/
theorem locked_keep (h : Locked s) (hlock : s'.lock = s.lock) (hp : (s'.pc p).locked ↔ (s.pc p).locked)
    (hothers : ∀ q, q ≠ p → (s.pc q).Wakes (s'.pc q)) : Locked s' := by
  intro q
  rw [hlock, h q]
  by_cases hq : q = p
  · rw [hq, hp]
  · rw [(hothers q hq).locked]

theorem locked_drop (h : Locked s) (hheld : (s.pc p).locked) (hlock : s'.lock = none) (hp : ¬ (s'.pc p).locked)
    (hothers : ∀ q, q ≠ p → (s.pc q).Wakes (s'.pc q)) : Locked s' := by
  intro q
  rw [hlock]
  refine iff_of_false (by simp) ?_
  by_cases hq : q = p
  · rwa [hq]
  · rw [(hothers q hq).locked, ← h q, (h p).mpr hheld]
    exact fun heq => hq (Option.some.inj heq).symm

theorem locked_does (h : Locked s) (hd : Does s e s') : Locked s' := by
  have hothers : ∀ q, q ≠ e.proc → (s.pc q).Wakes (s'.pc q) := fun q => does_others hd
  cases hd with
  | @startWrite p n src hpc hlock | @startRead p n room hpc hlock | @resumeWrite p call n src i hpc hlock
  | @resumeRead p n room hpc hlock => exact locked_take (p := p) h hlock rfl (by simp [goto, Pc.locked]) hothers
  | @close p writable hlock =>
    refine locked_keep (p := p) h ?_ (pipeclose_wakes s writable p).locked hothers
    unfold pipeclose
    split_ifs <;> rfl
  | @kill p => exact locked_keep (p := p) h rfl (kill_wakes s p p).locked hothers
  | @put p call n src start i ch hpc | @ready p n room hpc | @take p n room i hpc =>
    exact locked_keep (p := p) h rfl (by rw [hpc]; simp [goto, Pc.locked]) hothers
  | @refuse p call n src start i hpc | @wrote p call n src start i hpc =>
    exact locked_drop (p := p) h (by rw [hpc]; trivial) rfl (by simp [goto, leaveWrite, leave, Pc.locked]) hothers
  | @full p call n src start i hpc | @empty p n room hpc =>
    exact locked_drop (p := p) h (by rw [hpc]; trivial) rfl (by simp [goto, Pc.locked]) hothers
  | @giveUp p n room hpc | @lose p n room i hpc | @drained p n room i hpc =>
    exact locked_drop (p := p) h (by rw [hpc]; trivial) rfl (by simp [goto, leave, Pc.locked]) hothers

end Xv6.Pipe
