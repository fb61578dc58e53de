import Xv6.Proofs.OneCpu

/-! No wakeup is lost between `sleep` and `wakeup`. Whoever sleeps for a condition that
is true, or has dropped the lock in order to, is ahead of the scan of a `wakeup` that
is to come or under way, and the one who owes it holds the lock of the condition. -/

namespace Xv6.Cpus

variable {κ α β : Type} [DecidableEq κ] [DecidableEq β]

/-- Asleep on `chan`, or in `sleep` behind the `release(lk)`. -/
def Sleepy (s : State κ α β) (p : Slot) (chan : Chan α) : Prop :=
  ((s.proc p).state = .sleeping ∧ (s.proc p).chan = some chan) ∨
    ∃ c, (s.ctl c).runs = some p ∧ (s.ctl c).falls = some chan

/-- In `sleep`, behind the `sched`. -/
def Tidies (s : State κ α β) (p : Slot) : Prop :=
  (∃ lk, s.context p = some (.slept lk)) ∨ ∃ c, (s.ctl c).runs = some p ∧ (s.ctl c).slept = true

structure Waiting (lockOf : α → Lk β) (s : State κ α β) : Prop where
  owed : ∀ c, ∀ y ∈ (s.ctl c).ctx.owed, lockOf y ∈ (s.ctl c).spins
  tested : ∀ c y lk, (s.ctl c).waits = some (.cond y, lk) → lk = lockOf y ∧ s.cond y = false
  woken : ∀ p y, Sleepy s p (.cond y) → s.cond y = true → ∃ c, (s.ctl c).ctx.Wakes y p
  chan : ∀ p, (s.proc p).chan ≠ none → Tidies s p ∧
    ((s.proc p).state = .sleeping ∨ (s.proc p).state = .runnable ∨ (s.proc p).state = .running)

section

variable {lockOf : α → Lk β} {s s' : State κ α β} {c : κ} {a : Ctl α β}

theorem Waiting.owed_turn (w : Waiting lockOf s) (t : Turn lockOf s s' c a) (d : κ) :
    ∀ y ∈ (s'.ctl d).ctx.owed, lockOf y ∈ (s'.ctl d).spins := by
  rw [t.apply d]
  split_ifs with hd
  · exact t.signals.owed (w.owed c)
  · exact w.owed d

/-- A condition changes only for the one who holds its lock. -/
theorem Waiting.tested_turn (h : Placed s) (w : Waiting lockOf s) (t : Turn lockOf s s' c a) (d : κ) (y : α) (lk : Lk β)
    (hd : (s'.ctl d).waits = some (.cond y, lk)) : lk = lockOf y ∧ s'.cond y = false := by
  have hcond := t.signals.cond y
  rw [t.apply d] at hd
  split_ifs at hd with hdc
  · have hsame : s'.cond y = s.cond y := hcond.resolve_right fun h => by
      rw [h.2.1] at hd
      cases hd
    rw [hsame]
    obtain rfl | ⟨hmay, -⟩ := t.signals.waits _ _ hd
    · exact w.tested c y lk hd
    · exact of_decide_eq_true hmay
  · obtain ⟨hlk, hfalse⟩ := w.tested d y lk hd
    obtain hsame | ⟨hmem, -⟩ := hcond
    · exact ⟨hlk, hsame.trans hfalse⟩
    · exact absurd (h.spin.unique (Ctl.mem_spins_of_waits hd) (hlk ▸ hmem)) hdc

theorem Turn.asleep (t : Turn lockOf s s' c a) {p : Slot} {chan : Chan α} (hstate : (s'.proc p).state = .sleeping)
    (hchan : (s'.proc p).chan = some chan) : Sleepy s p chan := by
  cases t.change with
  | quiet | adopt | start | leave | enter | back => grind [Sleepy, Same]
  | slot q _ _ hshift => cases hshift <;> grind [Sleepy, Same]

/-- Who goes to sleep has seen the condition false. -/
theorem Waiting.sleepy_turn (w : Waiting lockOf s) (t : Turn lockOf s s' c a) {p : Slot} {y : α}
    (hp : Sleepy s' p (.cond y)) (hy : s'.cond y = true) : Sleepy s p (.cond y) := by
  obtain ⟨hstate, hchan⟩ | ⟨d, hruns, hfalls⟩ := hp
  · exact t.asleep hstate hchan
  · rw [t.apply d] at hruns hfalls
    split_ifs at hruns hfalls with hd
    · obtain rfl | ⟨lk, hwaits, hcond⟩ := t.signals.falls _ hfalls
      · exact .inr ⟨c, hruns, hfalls⟩
      · rw [hcond, (w.tested c y lk hwaits).2] at hy
        cases hy
    · exact .inr ⟨d, hruns, hfalls⟩

theorem Waiting.woken_turn (h : Placed s) (h' : Placed s') (w : Waiting lockOf s) (t : Turn lockOf s s' c a) (p : Slot) (y : α)
    (hp : Sleepy s' p (.cond y)) (hy : s'.cond y = true) : ∃ d, (s'.ctl d).ctx.Wakes y p := by
  have hself : s'.ctl c = a := by rw [t.apply, if_pos rfl]
  obtain hsame | ⟨-, -, hwakes⟩ := t.signals.cond y
  · obtain ⟨d, hd⟩ := w.woken p y (w.sleepy_turn t hp hy) (hsame ▸ hy)
    by_cases hdc : d = c
    · subst hdc
      obtain hw | hfalse | ⟨hfalls, hmine | ⟨hmem, hawake⟩⟩ := t.signals.wakes y p hd
      · exact ⟨d, hself ▸ hw⟩
      · rw [hfalse] at hy
        cases hy
      · -- the one who calls `wakeup` does not sleep
        have hruns : (s'.ctl d).runs = some p := by rw [hself, hmine.2, ← hself, ← h'.cpu, hmine.1]
        obtain ⟨hstate, -⟩ | ⟨e, he, hefalls⟩ := hp
        · rw [(h'.running d p hruns).1] at hstate
          cases hstate
        · obtain rfl := h'.once d e p hruns he
          rw [hself, hfalls] at hefalls
          cases hefalls
      · -- the lock of `p` keeps it from being in `sleep`
        obtain hasleep | ⟨e, he, hefalls⟩ := hp
        · exact absurd hasleep hawake
        · rw [t.apply e] at he hefalls
          split_ifs at he hefalls with hed
          · rw [hfalls] at hefalls
            cases hefalls
          · exact absurd (h.lock.unique (Ctl.mem_locks_of_falls he hefalls) hmem) hed
    · exact ⟨d, by rwa [t.apply d, if_neg hdc]⟩
  · exact ⟨c, hself ▸ hwakes hy p⟩

theorem Waiting.chan_turn (h : Placed s) (w : Waiting lockOf s) (t : Turn lockOf s s' c a) (p : Slot)
    (hp : (s'.proc p).chan ≠ none) : Tidies s' p ∧
      ((s'.proc p).state = .sleeping ∨ (s'.proc p).state = .runnable ∨ (s'.proc p).state = .running) := by
  have hctl := t.apply
  have hchan := w.chan p
  have hself : s'.ctl c = a := by rw [t.apply, if_pos rfl]
  have hrunning := h.running
  have honce := h.once
  cases t.change with
  | quiet => grind [Tidies, Same, Stays]
  | slot q _ _ hshift => cases hshift <;> grind [Tidies, Same, Stays]
  | adopt | leave | back => grind [Tidies, Same]
  | start r q _ _ _ _ _ _ hruns _ hchild =>
    have hused := (h.kid r q (.inl ⟨c, hruns, hchild⟩)).1
    grind [Tidies, Same]
  | enter q =>
    have hbest := h.best c q
    grind [Tidies, Same, Resume.isSlept]

omit [DecidableEq κ] [DecidableEq β] in
theorem waiting_init (b : Policy) : Waiting lockOf (State.init b : State κ α β) where
  owed c y hy := absurd hy List.not_mem_nil
  tested c y lk h := by cases h
  woken p y _ h := by cases h
  chan p h := by
    by_cases hp : p = initproc <;> simp [State.init, hp] at h

theorem waiting_run [DecidableEq α] (b : Policy) (es : List (κ × Act α β)) (hrun : State.run lockOf b es = some s) :
    Placed s ∧ Waiting lockOf s :=
  @System.exec_invariant _ _ (State.step lockOf b) (fun s => Placed s ∧ Waiting lockOf s) _ ⟨placed_init b, waiting_init b⟩
    (fun s e s' ⟨h, w⟩ hs => by
      obtain ⟨a, t⟩ := step_turn hs
      have h' := h.turn t
      exact ⟨h', w.owed_turn t, w.tested_turn h t, w.woken_turn h h' t, w.chan_turn h t⟩) es s hrun

omit [DecidableEq κ] [DecidableEq β] in
/-- The one who still has to wake somebody holds the lock. -/
theorem Waiting.held (h : Placed s) (w : Waiting lockOf s) {p : Slot} {y : α} (hp : Sleepy s p (.cond y))
    (hy : s.cond y = true) : ∃ c, s.spin (lockOf y) = some c := by
  obtain ⟨c, hc⟩ := w.woken p y hp hy
  exact ⟨c, (h.spin.iff _ _).mpr (w.owed c y hc.1)⟩

omit [DecidableEq κ] [DecidableEq β] in
/-- At the end of `sleep` the channel is cleared. -/
theorem Waiting.chan_eq_none (h : Placed s) (w : Waiting lockOf s) {p : Slot} (hruns : (s.ctl c).runs = some p)
    (hslept : (s.ctl c).slept = false) : (s.proc p).chan = none := by
  by_contra hchan
  obtain ⟨⟨lk, hlk⟩ | ⟨d, hd, hdslept⟩, -⟩ := w.chan p hchan
  · rw [(h.running c p hruns).2] at hlk
    cases hlk
  · obtain rfl := h.once c d p hruns hd
    rw [hslept] at hdslept
    cases hdslept

end

/-- While the lock of a condition that is true is free, nobody sleeps for it; and `sleep`
returns with the lock held and the channel cleared. -/
theorem sleep_wakeup [DecidableEq α] (lockOf : α → Lk β) (b : Policy) (es : List (κ × Act α β)) (s : State κ α β)
    (hrun : State.run lockOf b es = some s) :
    (∀ y, s.spin (lockOf y) = none → s.cond y = true →
      ∀ p, ¬((s.proc p).state = .sleeping ∧ (s.proc p).chan = some (.cond y))) ∧
      ∀ c p lk, s.ctl c = .thread p (.awake lk) → s.spin lk = some c ∧ (s.proc p).chan = none := by
  obtain ⟨h, w⟩ := waiting_run b es hrun
  refine ⟨fun y hfree hy p hp => ?_, fun c p lk hc => ⟨(h.spin.iff _ _).mpr ?_, w.chan_eq_none h (c := c) ?_ ?_⟩⟩
  · obtain ⟨c, hc⟩ := w.held h (.inl hp) hy
    rw [hfree] at hc
    cases hc
  all_goals simp [hc]

/-- Process 0 waits for a condition, process 1 makes it true and wakes it, and process 0
returns from `sleep`. -/
def waitOnTwo : List (Fin 2 × Act Unit Unit) :=
  let lk : Lk Unit := .spin ()
  forkOnTwo ++ [(0, .ctx (.acquire lk)), (0, .sleep (.cond ()) lk), (0, .go .ok 0), (0, .go .ok 0), (0, .go .ok 0),
    (1, .ctx (.acquire lk)), (1, .ctx (.set () true)), (1, .ctx (.wakeup (.cond ())))] ++
    List.replicate 128 (1, .ctx .go) ++ [(1, .ctx (.release lk))] ++ List.replicate 131 (0, .go .ok 0)

theorem sleep_wakeup_waitOnTwo : ∃ s, State.run (fun _ => .spin ()) .rr waitOnTwo = some s ∧
    s.ctl 0 = .thread 0 (.awake (.spin ())) ∧ s.spin (.spin ()) = some 0 ∧ (s.proc 0).chan = none := by
  have hrun : (State.run (fun _ => .spin ()) .rr waitOnTwo).map (fun s => s.ctl 0) =
      some (.thread 0 (.awake (.spin ()))) := by decide +kernel
  obtain ⟨s, hs, hctl⟩ := Option.map_eq_some_iff.mp hrun
  exact ⟨s, hs, hctl, (sleep_wakeup _ _ _ s hs).2 0 0 _ hctl⟩

end Xv6.Cpus
