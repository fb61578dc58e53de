import Xv6.Proofs.QueueBounds

/-! Which RUNNABLE processes the MLFQ queues lose. A process that the scheduler chose is
always taken off queue 0 when it comes back, and is put in no queue, since its time never
expires. It is lost as soon as it is RUNNABLE again. -/

namespace Xv6

open Prog Function

/-- The events after which a process is RUNNABLE and in no queue. -/
def SchedEvent.Loses : SchedEvent → Prop
  | .back .yield => True
  | .woke => True
  | _ => False

/-- No allocation fails in a slice. -/
def Slice.AllocOk (sl : Slice) : Prop := ∀ r, .fork r ∈ sl.events → r = .ok

def SysEvent.AllocOk : SysEvent → Prop
  | .pass script => ∀ sl ∈ script, sl.AllocOk
  | _ => True

/-- Queue 0 holds the processes `l`, `who` being the one that runs and its slot in the queue. -/
structure Held (who : Option (Slot × ℕ)) (l : List Slot) (s : Sched) : Prop where
  content : s.Content 0 l
  others : ∀ k, k ≠ 0 → s.ptr k = -1
  noTicks : ∀ p, (s.proc p).NoTicks
  nodup : l.Nodup
  entry : ∀ p ∈ l, ((s.proc p).state = .runnable ∨ (s.proc p).state = .running) ∧ (s.proc p).currQueue = 0
  kept : (∀ e ∈ s.trace, ¬ e.Loses) → ∀ p, (s.proc p).state = .runnable → p ∈ l
  lost : (∃ e ∈ s.trace, e.Loses) → ∃ p, (s.proc p).state = .runnable ∧ p ∉ l
  running : ∀ p i, who = some (p, i) → l[i]? = some p ∧ (s.proc p).state = .running
  script : ∀ sl ∈ s.script, sl.AllocOk

def Listed (who : Option (Slot × ℕ)) (s : Sched) : Prop := ∃ l, Held who l s

/-- Where a program may stop: after an access outside an array nothing is said. -/
def Leaves : SchedFault → Sched → Prop
  | .queueBound _ _, _ => True
  | _, s => Listed none s

/-- The fields that decide about queues are the same. -/
structure Proc.Same (a b : Proc) : Prop where
  state : a.state = b.state
  currQueue : a.currQueue = b.currQueue
  numOfTicks : a.numOfTicks = b.numOfTicks

theorem Proc.Same.refl (a : Proc) : a.Same a := ⟨rfl, rfl, rfl⟩

variable {l : List Slot}

section Steps

variable {who : Option (Slot × ℕ)}

variable {s t : Sched} {p q : Slot} {f : Proc → Proc}

theorem Held.stop (h : Held who l s) {f : SchedFault} : Leaves f s := by
  cases f with
  | queueBound k i => trivial
  | _ => exact ⟨l, { h with running := nofun }⟩

/-- The queues stay: what remains to be shown is that the processes in them and the
RUNNABLE ones are accounted for. -/
theorem Held.change {who' : Option (Slot × ℕ)} (h : Held who l s) (hqueue : t.queue = s.queue)
    (hptr : t.ptr = s.ptr) (hscript : t.script ⊆ s.script) (hticks : ∀ p, (t.proc p).NoTicks)
    (hin : ∀ p ∈ l, ((t.proc p).state = .runnable ∨ (t.proc p).state = .running) ∧ (t.proc p).currQueue = 0)
    (hkept : (∀ e ∈ t.trace, ¬ e.Loses) → ∀ p, (t.proc p).state = .runnable → p ∈ l)
    (hlost : (∃ e ∈ t.trace, e.Loses) → ∃ p, (t.proc p).state = .runnable ∧ p ∉ l)
    (hrun : ∀ p i, who' = some (p, i) → l[i]? = some p ∧ (t.proc p).state = .running) : Held who' l t :=
  ⟨⟨hptr ▸ h.content.ptr, h.content.fits, hqueue ▸ h.content.slots⟩, hptr ▸ h.others, hticks, h.nodup, hin, hkept, hlost,
    hrun, fun sl hsl => h.script sl (hscript hsl)⟩

theorem Held.congr (h : Held who l s) (hproc : ∀ p, (t.proc p).Same (s.proc p))
    (hqueue : t.queue = s.queue) (hptr : t.ptr = s.ptr) (htrace : t.trace = s.trace)
    (hscript : t.script ⊆ s.script) : Held who l t := by
  have hstate (p : Slot) : (t.proc p).state = (s.proc p).state := (hproc p).state
  refine h.change hqueue hptr hscript (fun p i h0 h5 => ?_) (fun p hp => ?_) ?_ ?_ fun p i hw => ?_
  · rw [(hproc p).numOfTicks]
    exact h.noTicks p i h0 h5
  · rw [hstate, (hproc p).currQueue]
    exact h.entry p hp
  · simpa only [htrace, hstate] using h.kept
  · simpa only [htrace, hstate] using h.lost
  · rw [hstate]
    exact h.running p i hw

theorem held_modify {f : Sched → Sched} (hproc : ∀ s p, ((f s).proc p).Same (s.proc p))
    (hqueue : ∀ s, (f s).queue = s.queue) (hptr : ∀ s, (f s).ptr = s.ptr) (htrace : ∀ s, (f s).trace = s.trace)
    (hscript : ∀ s, (f s).script = s.script) : Keeps (Listed who) (modify f) Leaves :=
  keeps_modify fun s ⟨l, h⟩ =>
    ⟨l, h.congr (hproc s) (hqueue s) (hptr s) (htrace s) (by rw [hscript s]; exact List.Subset.refl _)⟩

theorem setProc_same (hf : ∀ pr, (f pr).Same pr) (q : Slot) :
    ((s.setProc p f).proc q).Same (s.proc q) := by
  by_cases hq : q = p
  · subst hq
    simpa [Sched.setProc] using hf (s.proc q)
  · simpa [Sched.setProc, hq] using Proc.Same.refl (s.proc q)

/-- Changes to the other fields of a process do not matter. -/
theorem held_updProc (p : Slot) (hf : ∀ pr, (f pr).Same pr) :
    Keeps (Listed who) (updProc p f) Leaves :=
  held_modify (fun _ => setProc_same hf) (fun _ => rfl) (fun _ => rfl) (fun _ => rfl) (fun _ => rfl)

theorem setProc_of_ne (f : Proc → Proc) (h : q ≠ p) :
    (s.setProc p f).proc q = s.proc q := by
  simp [Sched.setProc, h]

theorem setProc_self (s : Sched) (p : Slot) (f : Proc → Proc) : (s.setProc p f).proc p = f (s.proc p) := by
  simp [Sched.setProc]

/-- A process whose state is neither RUNNABLE nor RUNNING is in no queue. -/
theorem Held.not_mem (h : Held who l s) (h1 : (s.proc p).state ≠ .runnable) (h2 : (s.proc p).state ≠ .running) : p ∉ l :=
  fun hp => (h.entry p hp).1.elim h1 h2

/-- A process outside queue 0 changes, and is RUNNABLE afterwards only if that is
recorded as a loss. -/
theorem Held.outside (h : Held who l s) (h1 : (s.proc q).state ≠ .runnable)
    (h2 : (s.proc q).state ≠ .running) (hproc : ∀ p, p ≠ q → t.proc p = s.proc p)
    (hticks : (t.proc q).NoTicks) (hqueue : t.queue = s.queue) (hptr : t.ptr = s.ptr)
    (hscript : t.script = s.script)
    (hq : ((t.proc q).state ≠ .runnable ∧ t.trace = s.trace) ∨
      ((t.proc q).state = .runnable ∧ ∃ e, e.Loses ∧ t.trace = s.trace ++ [e])) : Held who l t := by
  have hne : ∀ p ∈ l, p ≠ q := fun p hp hpq => h.not_mem h1 h2 (hpq ▸ hp)
  refine h.change hqueue hptr (by rw [hscript]; exact List.Subset.refl _) (fun p => ?_) (fun p hp => ?_) ?_ ?_
    fun p i hw => ?_
  · by_cases hp : p = q
    · exact hp ▸ hticks
    · rw [hproc p hp]
      exact h.noTicks p
  · rw [hproc p (hne p hp)]
    exact h.entry p hp
  · intro hclean p hp
    rcases hq with ⟨hq, htrace⟩ | ⟨_, e, he, htrace⟩
    · have hpq : p ≠ q := fun hpq => hq (hpq ▸ hp)
      rw [hproc p hpq] at hp
      exact h.kept (htrace ▸ hclean) p hp
    · exact absurd he (hclean e (by simp [htrace]))
  · intro hlost
    rcases hq with ⟨_, htrace⟩ | ⟨hq, _⟩
    · obtain ⟨p, hp, hno⟩ := h.lost (htrace ▸ hlost)
      have hpq : p ≠ q := fun hpq => h1 (hpq ▸ hp)
      exact ⟨p, by rwa [hproc p hpq], hno⟩
    · exact ⟨q, hq, h.not_mem h1 h2⟩
  · obtain ⟨hp, hrun⟩ := h.running p i hw
    rw [hproc p (hne p (List.mem_of_getElem? hp))]
    exact ⟨hp, hrun⟩

theorem held_reap (q : Slot) : Keeps (Listed who) (reap q) Leaves := by
  rintro s ⟨l, h⟩
  rw [reap, bind_of_ok (gets_apply _ s)]
  split_ifs with hz
  · refine ⟨l, h.outside (q := q) (by simp [hz]) (by simp [hz]) (fun p hp => setProc_of_ne _ hp) ?_ rfl rfl rfl
      (.inl ⟨?_, rfl⟩)⟩
    · rw [setProc_self]
      exact h.noTicks q
    · rw [setProc_self]
      simp
  · exact ⟨l, h⟩

theorem held_wake (q : Slot) : Keeps (Listed who) (wake q) Leaves := by
  rintro s ⟨l, h⟩
  rw [wake, bind_of_ok (gets_apply _ s)]
  split_ifs with hz
  · refine ⟨l, h.outside (q := q) (by simp [hz]) (by simp [hz]) (fun p hp => setProc_of_ne _ hp) ?_ rfl rfl rfl
      (.inr ⟨?_, .woke, trivial, rfl⟩)⟩
    · rw [setProc_self]
      exact h.noTicks q
    · rw [setProc_self]
  · exact ⟨l, h⟩

theorem held_tick : Keeps (Listed who) tick Leaves := by
  refine held_modify (fun s p => ?_) (fun _ => rfl) (fun _ => rfl) (fun _ => rfl) (fun _ => rfl)
  show (s.proc p).tick.Same (s.proc p)
  unfold Proc.tick
  split <;> exact ⟨rfl, rfl, rfl⟩

/-- A successful `fork` pushes the slot it found. -/
structure Forked (s : Sched) (q : Slot) (t : Sched) : Prop where
  content : ∀ l, s.Content 0 l → t.Content 0 (l ++ [q])
  ptr : ∀ k, k ≠ 0 → t.ptr k = s.ptr k
  trace : t.trace = s.trace ++ [.took]
  script : t.script = s.script
  proc : ∀ p, p ≠ q → t.proc p = s.proc p
  state : (t.proc q).state = .runnable
  currQueue : (t.proc q).currQueue = 0
  noTicks : (t.proc q).NoTicks

theorem fork_ok_cases (h0 : -1 ≤ s.ptr 0) :
    (fork .ok s = .ok () s) ∨ (∃ k i t, fork .ok s = .fault (.queueBound k i) t) ∨
      ∃ q t, (s.proc q).state = .unused ∧ fork .ok s = .ok () t ∧ Forked s q t := by
  cases hq : firstUnused s with
  | none => exact .inl (by simp [fork, allocproc, bind_apply, hq])
  | some q =>
    right
    have hunused : (s.proc q).state = .unused := by simpa using List.find?_some hq
    simp only [fork, allocproc, bind_apply, gets_apply, hq, initProc, allocpid, modify_apply, pure_apply, updProc,
      record, pushQ, setPtr, update_self, Sched.setProc]
    by_cases hroom : s.ptr 0 + 1 < NPROC
    · right
      rw [writeQ_ok 0 (by omega) hroom]
      refine ⟨q, _, hunused, rfl, fun l hl => hl.push hroom q (by simp) (by simp [Sched.setQueue]),
        fun k hk => update_of_ne hk _ _, rfl, rfl, fun p hp => ?_, ?_, ?_, fun i hi0 hi5 => ?_⟩
      · simp [hp]
      · simp
      · simp
      · simp [hi0, hi5]
    · left
      rw [writeQ_fault 0 hroom]
      exact ⟨_, _, _, rfl⟩

theorem Held.fork (h : Held who l s) (hq : (s.proc q).state = .unused) (hf : Forked s q t) : Held who (l ++ [q]) t := by
  have hnot : q ∉ l := h.not_mem (by simp [hq]) (by simp [hq])
  have hne : ∀ p ∈ l, p ≠ q := fun p hp hpq => hnot (hpq ▸ hp)
  refine ⟨hf.content l h.content, fun k hk => (hf.ptr k hk).trans (h.others k hk), fun p => ?_, ?_, fun p hp => ?_,
    fun hclean p hp => ?_, fun hlost => ?_, fun p i hw => ?_, hf.script ▸ h.script⟩
  · by_cases hp : p = q
    · exact hp ▸ hf.noTicks
    · rw [hf.proc p hp]
      exact h.noTicks p
  · rw [← List.concat_eq_append]
    exact h.nodup.concat hnot
  · rcases List.mem_append.mp hp with hp | hp
    · rw [hf.proc p (hne p hp)]
      exact h.entry p hp
    · rw [List.mem_singleton.mp hp]
      exact ⟨.inl hf.state, hf.currQueue⟩
  · rw [List.mem_append, List.mem_singleton]
    by_cases hpq : p = q
    · exact .inr hpq
    · rw [hf.proc p hpq] at hp
      exact .inl (h.kept (fun e he => hclean e (by simp [hf.trace, he])) p hp)
  · obtain ⟨p, hp, hno⟩ := h.lost (by simpa [hf.trace, or_and_right, exists_or, SchedEvent.Loses] using hlost)
    have hpq : p ≠ q := ne_of_apply_ne (fun p => (s.proc p).state) (by simp [hp, hq])
    exact ⟨p, by rwa [hf.proc p hpq], by simp [hno, hpq]⟩
  · obtain ⟨hp, hrun⟩ := h.running p i hw
    rw [hf.proc p (hne p (List.mem_of_getElem? hp))]
    exact ⟨List.getElem?_append_left (List.getElem?_eq_some_iff.mp hp).1 ▸ hp, hrun⟩

theorem held_fork : Keeps (Listed who) (fork .ok) Leaves := by
  rintro s ⟨l, h⟩
  have hlast := h.content.ptr
  rcases fork_ok_cases (s := s) (by omega) with hr | ⟨k, i, t, hr⟩ | ⟨q, t, hq, hr, hf⟩
  · rw [hr]
    exact ⟨l, h⟩
  · rw [hr]
    trivial
  · rw [hr]
    exact ⟨_, h.fork hq hf⟩

theorem held_event (p : Slot) {e : ProcEvent} (he : ∀ r, e = .fork r → r = .ok) :
    Keeps (Listed who) (e.run p) Leaves := by
  cases e with
  | fork r =>
    rw [he r rfl]
    exact held_fork
  | tick => exact held_tick
  | wakeup q => exact held_wake q
  | kill pid =>
    refine keeps_bind (keeps_gets _) fun found => ?_
    cases found with
    | none => exact keeps_pure _
    | some q => exact keeps_bind (held_updProc q fun _ => ⟨rfl, rfl, rfl⟩) fun _ => held_wake q
  | reap q => exact held_reap q
  | settickets n => exact held_updProc p fun _ => ⟨rfl, rfl, rfl⟩
  | setPriority n pid =>
    refine keeps_bind (keeps_gets _) fun found => ?_
    cases found with
    | none => exact keeps_pure _
    | some q => exact held_updProc q fun _ => ⟨rfl, rfl, rfl⟩

theorem held_events (p : Slot) {es : List ProcEvent} (hes : ∀ r, .fork r ∈ es → r = .ok) :
    Keeps (Listed who) (runEvents p es) Leaves := by
  induction es with
  | nil => exact keeps_pure _
  | cons e es ih =>
    exact keeps_bind (held_event p fun r hr => hes r (by simp [hr])) fun _ =>
      ih fun r hr => hes r (List.mem_cons_of_mem _ hr)

theorem held_release (c : Cpu) (p : Slot) : Keeps (Listed who) (release c p) Leaves :=
  keeps_release (fun _ _ ⟨l, h⟩ => ⟨l, h.congr (fun _ => .refl _) rfl rfl rfl (List.Subset.refl _)⟩) (fun _ ⟨_, h⟩ => h.stop) c p

end Steps

section Dispatch

variable {p : Slot} {i : ℕ}

/-- `p`, chosen from slot `i`, is back by `bk` and still in its slot. -/
def Came (p : Slot) (i : ℕ) (bk : Back) (s : Sched) : Prop :=
  ∃ u, Listed (some (p, i)) u ∧ s.queue = u.queue ∧ s.ptr = u.ptr ∧ s.script = u.script ∧
    s.trace = u.trace ++ [.back bk] ∧ s.proc = Function.update u.proc p { u.proc p with state := bk.state }

theorem held_swtch (c : Cpu) (p : Slot) (i : ℕ) :
    Holds (Listed (some (p, i))) (swtch c p) (fun _ s => ∃ bk, Came p i bk s) Leaves := by
  rintro s ⟨l, h⟩
  rw [swtch, bind_of_ok (gets_apply _ s)]
  cases hs : s.script with
  | nil => exact h.stop
  | cons sl rest =>
    have hsl : ∀ r, .fork r ∈ sl.events → r = .ok := h.script sl (by simp [hs])
    have hstart : Held (some (p, i)) l { s with script := rest, lock := update s.lock p none } :=
      h.congr (fun _ => .refl _) rfl rfl rfl (by simp [hs])
    have hrest : Holds (Listed (some (p, i)))
        (do
          updProc p fun pr => { pr with state := sl.back.state }
          modify fun s => { s with lock := update s.lock p (some c) }
          record (.back sl.back))
        (fun _ s => ∃ bk, Came p i bk s) Leaves :=
      fun u hu => ⟨sl.back, u, hu, rfl, rfl, rfl, rfl, rfl⟩
    exact holds_bind (held_events p hsl) (fun _ => hrest) _ ⟨l, hstart⟩

/-- The process in slot `i` is chosen. -/
theorem Held.choose {s : Sched} (h : Held none l s) (hat : l[i]? = some p)
    {f : Proc → Proc} (hstate : ∀ pr, (f pr).state = .running) (hcurr : ∀ pr, (f pr).currQueue = pr.currQueue)
    (hticks : ∀ pr, (f pr).numOfTicks = pr.numOfTicks) : Held (some (p, i)) l (s.setProc p f) := by
  have hp := List.mem_of_getElem? hat
  refine h.change rfl rfl (List.Subset.refl _) (fun q => ?_) (fun q hq => ?_) ?_ ?_ fun q j hw => ?_
  · by_cases hqp : q = p
    · subst hqp
      intro j h0 h5
      rw [setProc_self, hticks]
      exact h.noTicks q j h0 h5
    · rw [setProc_of_ne f hqp]
      exact h.noTicks q
  · by_cases hqp : q = p
    · subst hqp
      rw [setProc_self, hstate, hcurr]
      exact ⟨.inr rfl, (h.entry q hq).2⟩
    · rw [setProc_of_ne f hqp]
      exact h.entry q hq
  · intro hclean q hq
    by_cases hqp : q = p
    · exact hqp ▸ hp
    · rw [setProc_of_ne f hqp] at hq
      exact h.kept hclean q hq
  · intro hlost
    obtain ⟨q, hq, hno⟩ := h.lost hlost
    have hqp : q ≠ p := fun hqp => hno (hqp ▸ hp)
    exact ⟨q, by rwa [setProc_of_ne f hqp], hno⟩
  · cases hw
    rw [setProc_self, hstate]
    exact ⟨hat, rfl⟩

/-- `p` stands in slot `i`. -/
def Ready (p : Slot) (i : ℕ) (s : Sched) : Prop := ∃ l, Held none l s ∧ l[i]? = some p

theorem Ready.congr {s t : Sched} (h : Ready p i s) (hproc : ∀ q, (t.proc q).Same (s.proc q)) (hqueue : t.queue = s.queue)
    (hptr : t.ptr = s.ptr) (htrace : t.trace = s.trace) (hscript : t.script = s.script) : Ready p i t := by
  obtain ⟨l, h, hat⟩ := h
  exact ⟨l, h.congr hproc hqueue hptr htrace (by rw [hscript]; exact List.Subset.refl _), hat⟩

theorem held_runFrom (c : Cpu) (p : Slot) (i : ℕ) :
    Holds (Ready p i) (runFrom c p) (fun _ s => ∃ bk, Came p i bk s) Leaves := by
  have hstamp : ∀ t, Keeps (Ready p i) (updProc p fun pr => { pr with stTime := t }) Leaves := fun t =>
    keeps_modify fun s h => h.congr (setProc_same fun _ => ⟨rfl, rfl, rfl⟩) rfl rfl rfl rfl
  have hcpu : Keeps (Ready p i) (setCpuProc c (some p)) Leaves :=
    keeps_modify fun s h => h.congr (fun _ => .refl _) rfl rfl rfl rfl
  refine holds_bind (holds_bind (keeps_gets _) fun ticks => holds_bind (hstamp _) fun _ => holds_bind hcpu fun _ => ?_)
    fun _ => holds_bind (held_swtch c p i) fun _ => ?_
  · exact holds_modify fun s ⟨l, h, hat⟩ => ⟨l, h.choose hat (fun _ => rfl) (fun _ => rfl) fun _ => rfl⟩
  · exact holds_modify fun s h => h

/-- Queue 0 of `t` is that of `u` without slot `i`, whose process came back by `bk`. -/
structure TakenOut (u : Sched) (p : Slot) (i : ℕ) (bk : Back) (t : Sched) : Prop where
  content : ∀ l, u.Content 0 l → i < l.length → t.Content 0 (l.eraseIdx i)
  ptr : ∀ k, k ≠ 0 → t.ptr k = u.ptr k
  trace : t.trace = u.trace ++ [.back bk]
  script : t.script = u.script
  proc : ∀ q, q ≠ p → t.proc q = u.proc q
  state : (t.proc p).state = bk.state
  noTicks : (t.proc p).NoTicks

variable {u t : Sched} {bk : Back}

theorem Held.takeOut (h : Held (some (p, i)) l u) (ht : TakenOut u p i bk t) : Held none (l.erase p) t := by
  obtain ⟨hat, hrun⟩ := h.running p i rfl
  obtain ⟨hi, hpi⟩ := List.getElem?_eq_some_iff.mp hat
  have hmem (q : Slot) : q ∈ l.erase p ↔ q ≠ p ∧ q ∈ l := h.nodup.mem_erase_iff
  refine ⟨?_, fun k hk => (ht.ptr k hk).trans (h.others k hk), fun q => ?_, h.nodup.erase p, fun q hq => ?_,
    fun hclean q hq => ?_, ?_, nofun, ht.script ▸ h.script⟩
  · rw [← hpi, h.nodup.erase_getElem i hi]
    exact ht.content l h.content hi
  · by_cases hq : q = p
    · exact hq ▸ ht.noTicks
    · rw [ht.proc q hq]
      exact h.noTicks q
  · obtain ⟨hqp, hq⟩ := (hmem q).mp hq
    rw [ht.proc q hqp]
    exact h.entry q hq
  · have hback : bk ≠ .yield := by
      rintro rfl
      exact hclean (.back .yield) (by simp [ht.trace]) trivial
    have hqp : q ≠ p := by
      rintro rfl
      rw [ht.state] at hq
      cases bk <;> first | exact hback rfl | cases hq
    rw [ht.proc q hqp] at hq
    exact (hmem q).mpr ⟨hqp, h.kept (fun e he => hclean e (by simp [ht.trace, he])) q hq⟩
  · rintro ⟨e, he, hl⟩
    rw [ht.trace, List.mem_append, List.mem_singleton] at he
    rcases he with he | rfl
    · obtain ⟨q, hq, hno⟩ := h.lost ⟨e, he, hl⟩
      have hqp : q ≠ p := fun hqp => hno (hqp ▸ List.mem_of_getElem? hat)
      exact ⟨q, by rwa [ht.proc q hqp], fun hin => hno ((hmem q).mp hin).2⟩
    · -- back by `yield`: `p` itself is the lost one
      have hback : bk = .yield := by
        cases bk <;> first | rfl | exact hl.elim
      exact ⟨p, by rw [ht.state, hback]; rfl, fun hin => ((hmem p).mp hin).1 rfl⟩

/-- Taking the process that came back out of its slot. -/
theorem held_takeBack (p : Slot) (i : ℕ) :
    Holds (fun s => ∃ bk, Came p i bk s) (takeBack 0 i p) (fun _ => Listed none) Leaves := by
  rintro s ⟨bk, u, ⟨l, hu⟩, hqueue, hptr, hscript, htrace, hproc⟩
  have hno : (s.proc p).NoTicks := by
    rw [hproc, update_self]
    exact hu.noTicks p
  have hi := (List.getElem?_eq_some_iff.mp (hu.running p i rfl).1).1
  have hlast : s.ptr 0 = l.length - 1 := hptr ▸ hu.content.ptr
  have hfits := hu.content.fits
  rw [takeBack, bind_of_ok (demote_of_noTicks 0 hno), bind_of_ok (gets_apply _ s)]
  by_cases hroom : s.ptr 0 + 1 < NPROC
  · rw [bind_of_ok (shiftQ_ok 0 _ (by omega) (by omega) s)]
    simp only [setPtr, updProc, bind_apply, modify_apply]
    refine ⟨_, @Held.takeOut _ _ _ _ _ bk hu ⟨fun l hl hil => ?_, fun k hk => ?_, htrace, hscript, fun q hq => ?_, ?_, ?_⟩⟩
    · have := hl.ptr
      refine hl.shift (n := (s.ptr 0 - i + 1).toNat) hil (by rw [hptr]; omega) ?_ ?_
      · simp [Sched.setProc, hptr]
      · simp [Sched.setProc, Sched.setQueue, hqueue]
    · rw [← hptr]
      exact update_of_ne hk _ _
    · rw [setProc_of_ne _ hq]
      simp [hproc, hq]
    · rw [setProc_self]
      simp [hproc]
    · rw [setProc_self]
      intro j h0 h5
      simp only [update_apply]
      split_ifs
      · rfl
      · exact hno j h0 h5
  · obtain ⟨j, q, hfault⟩ := shiftQ_fault 0 (s.ptr 0 - i + 1).toNat (j := i) (by omega) (by omega) (by omega) s
    rw [bind_of_fault hfault]
    trivial

theorem held_dispatchProc (c : Cpu) (p : Slot) (i : ℕ) :
    Holds (Ready p i) (dispatchProc c 0 i p) (fun _ => Listed none) Leaves :=
  holds_bind (keeps_gets _) fun _ => holds_ite
    (fun _ => holds_bind (held_runFrom c p i) fun _ => held_takeBack p i) fun _ => holds_pure fun _ ⟨l, h⟩ => ⟨l, h.1⟩

theorem held_derefQ {i : ℤ} (h0 : 0 ≤ i) (R : Sched → Prop) :
    Holds (fun s => Listed none s ∧ R s) (derefQ 0 i)
      (fun p s => (Listed none s ∧ R s) ∧ ∃ j : Slot, i = j.val ∧ s.queue 0 j = some p) Leaves := by
  rintro s ⟨⟨l, h⟩, hR⟩
  by_cases h1 : i < NPROC
  · rw [derefQ, bind_of_ok (readQ_ok 0 h0 h1 s)]
    cases hq : s.queue 0 ⟨i.toNat, by omega⟩ with
    | none => exact h.stop
    | some p => exact ⟨⟨⟨l, h⟩, hR⟩, ⟨i.toNat, by omega⟩, by simp only; omega, hq⟩
  · rw [derefQ, bind_of_fault (readQ_fault 0 h1 s)]
    trivial

theorem held_dispatchSlot (c : Cpu) {i : ℤ} (h0 : 0 ≤ i) :
    Holds (fun s => Listed none s ∧ i ≤ s.ptr 0) (dispatchSlot c 0 i) (fun _ => Listed none) Leaves := by
  refine holds_bind (held_derefQ h0 _) fun p => ?_
  rintro s ⟨⟨⟨l, h⟩, hle⟩, j, rfl, hq⟩
  have hlast := h.content.ptr
  have hacquire : Keeps (Ready p j) (acquire c p) Leaves :=
    keeps_acquire (fun _ _ ht => ht.congr (fun _ => .refl _) rfl rfl rfl rfl)
      (fun _ ⟨_, ht, _⟩ => ht.stop) (fun _ ⟨_, ht, _⟩ => ht.stop) c p
  refine holds_bind hacquire (fun _ => holds_bind (held_dispatchProc c p j) fun _ => ?_) s
    ⟨l, h, (h.content.slots j (by omega)).symm.trans hq⟩
  refine holds_bind (holds_conseq (held_derefQ h0 fun _ => True) (fun _ h => ⟨h, trivial⟩) fun _ _ h => h.1.1) ?_
  exact fun q => held_release c q

theorem held_prog (c : Cpu) {e : SysEvent} (he : e.AllocOk) : Keeps (Listed none) (e.prog .mlfq c) Leaves := by
  cases e with
  | pass script =>
    have hscript : Keeps (Listed none) (modify fun s => { s with script := script }) Leaves :=
      keeps_modify fun s ⟨l, h⟩ => ⟨l, { h with content := ⟨h.content.ptr, h.content.fits, h.content.slots⟩, script := he }⟩
    exact keeps_bind hscript fun _ => keeps_passMlfq c (fun _ k ⟨_, h⟩ hk => h.others k hk) fun _ h0 => held_dispatchSlot c h0
  | tick => exact held_tick
  | wakeup q => exact held_wake q

end Dispatch

theorem held_boot : Listed none Kernel.boot.sched := by
  have hzero : Held none [] Sched.zero :=
    ⟨⟨rfl, Nat.zero_le _, nofun⟩, fun _ _ => rfl, fun _ _ _ _ => rfl, List.nodup_nil, nofun, nofun,
      fun ⟨_, he, _⟩ => absurd he List.not_mem_nil, nofun, nofun⟩
  exact held_fork.ok ⟨[], hzero⟩ (a := ()) rfl

variable {t : Kernel}

theorem held_step {t' : Kernel} {e : Cpu × SysEvent} (h : t.corrupt = false → Listed none t.sched)
    (he : e.2.AllocOk) (hstep : t.step .mlfq e = some t') : t'.corrupt = false → Listed none t'.sched := by
  unfold Kernel.step at hstep
  split_ifs at hstep with hc
  cases hstep
  have ht := h (by simpa using fun hc' => hc (.inl hc'))
  have hkeep := held_prog e.1 he t.sched ht
  cases hr : e.2.prog .mlfq e.1 t.sched with
  | ok a u =>
    rw [hr] at hkeep
    exact fun _ => hkeep
  | fault f u =>
    rw [hr] at hkeep
    cases f with
    | queueBound k i => exact nofun
    | _ => exact fun _ => hkeep

/-- A run in which every allocation succeeds. -/
theorem held_run {es : List (Cpu × SysEvent)} (h : Kernel.run .mlfq es = some t)
    (hes : ∀ e ∈ es, e.2.AllocOk) : t.corrupt = false → Listed none t.sched :=
  System.exec_invariant_along (Kernel.step .mlfq) (fun _ => held_boot) (fun _ _ _ ht he hs => held_step ht he hs) es t
    (System.along_of_mem _ fun _ => hes) h

theorem Held.at_iff {s : Sched} (h : Held none l s) (k : Fin 5) (i p : Slot) : s.At k i p ↔ k = 0 ∧ l[i.val]? = some p := by
  have hlast := h.content.ptr
  constructor
  · rintro ⟨hle, hq⟩
    by_cases hk : k = 0
    · subst hk
      exact ⟨rfl, (h.content.slots i (by omega)).symm.trans hq⟩
    · rw [h.others k hk] at hle
      omega
  · rintro ⟨rfl, hp⟩
    have hi := (List.getElem?_eq_some_iff.mp hp).1
    exact ⟨by omega, (h.content.slots i hi).trans hp⟩

theorem Held.noneLost_iff {s : Sched} (h : Held none l s) : s.NoneLost ↔ ∀ e ∈ s.trace, ¬ e.Loses := by
  constructor
  · intro hnone e he hl
    obtain ⟨p, hp, hno⟩ := h.lost ⟨e, he, hl⟩
    obtain ⟨k, i, hat, _⟩ := hnone p hp
    exact hno (List.mem_of_getElem? ((h.at_iff k i p).mp ((hat k i).mpr ⟨rfl, rfl⟩)).2)
  · intro hclean p hp
    have hin := h.kept hclean p hp
    obtain ⟨i, hi, heq⟩ := List.getElem_of_mem hin
    refine ⟨0, ⟨i, hi.trans_le h.content.fits⟩, fun k' i' => ?_, (h.entry p hin).2⟩
    rw [h.at_iff]
    refine and_congr_right fun _ => ⟨fun hi' => ?_, ?_⟩
    · obtain ⟨hlt, hp'⟩ := List.getElem?_eq_some_iff.mp hi'
      exact Fin.ext ((h.nodup.getElem_inj_iff).mp (hp'.trans heq.symm))
    · rintro rfl
      exact List.getElem?_eq_some_iff.mpr ⟨hi, heq⟩

/-- In every MLFQ run in which no allocation of `allocproc` or `fork` fails, the queues
hold every RUNNABLE process, once and in its own queue, exactly as long as no process came
back by `yield` and no sleeping process was woken. -/
theorem mlfq_noneLost_iff (es : List (Cpu × SysEvent)) (t : Kernel) (h : Kernel.run .mlfq es = some t)
    (hes : ∀ e ∈ es, e.2.AllocOk) (hc : t.corrupt = false) :
    t.sched.NoneLost ↔ ∀ e ∈ t.sched.trace, ¬ e.Loses :=
  (held_run h hes hc).elim fun _ ht => ht.noneLost_iff

/-- Init forks and sleeps: the child stays in queue 0. -/
theorem mlfq_noneLost_iff_sleep :
    ∃ t, Kernel.run .mlfq [(0, .pass [⟨[.fork .ok], .sleep⟩])] = some t ∧ t.corrupt = false ∧
      (t.sched.proc 1).state = .runnable ∧ t.sched.NoneLost := by
  have hrun : ((Kernel.run .mlfq [(0, .pass [⟨[.fork .ok], .sleep⟩])]).map
      fun t => (t.corrupt, decide ((t.sched.proc 1).state = .runnable), t.sched.trace)) =
        some (false, true, [.took, .took, .back .sleep]) := by decide +kernel
  obtain ⟨t, ht, heq⟩ := Option.map_eq_some_iff.mp hrun
  simp only [Prod.mk.injEq, decide_eq_true_eq] at heq
  obtain ⟨hc, hp, htrace⟩ := heq
  refine ⟨t, ht, hc, hp, (mlfq_noneLost_iff _ t ht ?_ hc).mpr ?_⟩
  · simp [SysEvent.AllocOk, Slice.AllocOk]
  · simp [htrace, SchedEvent.Loses]

/-- Init is chosen from queue 0 by CPU 0 and yields. CPU 1, which goes on making passes,
finds five empty queues: init is RUNNABLE and in none of them. -/
theorem initYields_lost :
    ∃ t, Kernel.run .mlfq [(0, .pass [⟨[], .yield⟩]), (1, .pass [])] = some t ∧ t.corrupt = false ∧
      t.halted 1 = false ∧ (t.sched.proc 0).state = .runnable ∧ (∀ k i, ¬ t.sched.At k i 0) ∧
      ¬ t.sched.NoneLost := by
  have hrun : ((Kernel.run .mlfq [(0, .pass [⟨[], .yield⟩]), (1, .pass [])]).map
      fun t => (t.corrupt, t.halted 1, decide ((t.sched.proc 0).state = .runnable),
        decide (∀ k, t.sched.ptr k = -1))) = some (false, false, true, true) := by decide +kernel
  obtain ⟨t, ht, heq⟩ := Option.map_eq_some_iff.mp hrun
  simp only [Prod.mk.injEq, decide_eq_true_eq] at heq
  obtain ⟨hc, hcpu, hp, hptr⟩ := heq
  have hno : ∀ k i, ¬ t.sched.At k i 0 := by
    intro k i hat
    have := hat.1
    rw [hptr k] at this
    omega
  refine ⟨t, ht, hc, hcpu, hp, hno, fun hnone => ?_⟩
  obtain ⟨k, i, hat, _⟩ := hnone 0 hp
  exact hno k i ((hat k i).mpr ⟨rfl, rfl⟩)

end Xv6
