import Xv6.Sanity.Slices

/-! The bounds of the five queue arrays. Every build pushes each new process on queue 0
and only the MLFQ build takes processes off it, so how full queue 0 is can be read off
the history. `num_of_ticks` is never incremented: nothing ever enters queues 1 to 4. -/

namespace Xv6

open Prog Function

/-- What an event adds to queue 0. -/
def SchedEvent.weight (b : Build) : SchedEvent → ℤ
  | .took => 1
  | .back _ => if b = .mlfq then -1 else 0
  | _ => 0

def occupied (b : Build) (tr : List SchedEvent) : ℤ := (tr.map (SchedEvent.weight b)).sum

/-- A push stores to the slot behind the last one, and the MLFQ shift loads from it. -/
def SchedEvent.NeedsRoom (b : Build) : SchedEvent → Prop
  | .took => True
  | .back _ => b = .mlfq
  | _ => False

/-- Whenever the history needs a slot behind the last one, there is one. -/
def Fits (b : Build) (tr : List SchedEvent) : Prop :=
  System.Always (fun pre e => e.NeedsRoom b → occupied b pre < NPROC) tr

theorem occupied_snoc (b : Build) (tr : List SchedEvent) (e : SchedEvent) :
    occupied b (tr ++ [e]) = occupied b tr + e.weight b := by
  simp [occupied]

theorem fits_nil (b : Build) : Fits b [] := System.always_nil _

theorem fits_snoc (b : Build) (tr : List SchedEvent) (e : SchedEvent) :
    Fits b (tr ++ [e]) ↔ Fits b tr ∧ (e.NeedsRoom b → occupied b tr < NPROC) := System.always_snoc _ tr e

/-- The history determines the pointers; `m` is a lower bound for that of queue 0. -/
structure Tally (b : Build) (m : ℤ) (s : Sched) : Prop where
  others : ∀ k, k ≠ 0 → s.ptr k = -1
  noTicks : ∀ p, (s.proc p).NoTicks
  count : s.ptr 0 + 1 = occupied b s.trace
  low : m ≤ s.ptr 0
  high : s.ptr 0 < NPROC
  fits : Fits b s.trace

/-- `s` is a tallied state with one more event in its history. -/
def After (b : Build) (m : ℤ) (e : SchedEvent) (s : Sched) : Prop :=
  ∃ tr, s.trace = tr ++ [e] ∧ Tally b m { s with trace := tr }

/-- Where a faulting program stops: only an access outside a queue says that the
history did not fit. -/
def Stops (b : Build) : SchedFault → Sched → Prop
  | .queueBound _ _, s => ¬ Fits b s.trace
  | _, s => Tally b (-1) s

section Steps

variable {b : Build} {m : ℤ}

variable {s : Sched} {f : Proc → Proc}

theorem Tally.congr {t : Sched} (h : Tally b m s) (hproc : t.proc = s.proc) (hptr : t.ptr = s.ptr)
    (htrace : t.trace = s.trace) : Tally b m t := by
  obtain ⟨h1, h2, h3, h4, h5, h6⟩ := h
  constructor <;> (try rw [hproc]) <;> (try rw [hptr]) <;> (try rw [htrace]) <;> assumption

theorem Tally.mono {m' : ℤ} (h : Tally b m s) (hm : m' ≤ m) : Tally b m' s :=
  { h with low := le_trans hm h.low }

theorem tally_modify {f : Sched → Sched} (hproc : ∀ s, (f s).proc = s.proc) (hptr : ∀ s, (f s).ptr = s.ptr)
    (htrace : ∀ s, (f s).trace = s.trace) : Keeps (Tally b m) (modify f) (Stops b) :=
  keeps_modify fun s h => h.congr (hproc s) (hptr s) (htrace s)

theorem Tally.setProc (h : Tally b m s) (p : Slot)
    (hf : (s.proc p).NoTicks → (f (s.proc p)).NoTicks) : Tally b m (s.setProc p f) := by
  refine { h with noTicks := fun q => ?_ }
  by_cases hq : q = p
  · subst hq
    simpa [Sched.setProc] using hf (h.noTicks q)
  · simpa [Sched.setProc, hq] using h.noTicks q

theorem tally_updProc (p : Slot) (hf : ∀ pr, pr.NoTicks → (f pr).NoTicks) :
    Keeps (Tally b m) (updProc p f) (Stops b) :=
  keeps_modify fun _ h => h.setProc p (hf _)

theorem tally_record (e : SchedEvent) :
    Holds (Tally b m) (record e) (fun _ => After b m e) (Stops b) :=
  holds_modify fun _ h => ⟨_, rfl, h.congr rfl rfl rfl⟩

/-- An event that neither needs a slot nor frees one. -/
theorem After.tally {e : SchedEvent} (h : After b m e s) (hw : e.weight b = 0)
    (hroom : ¬ e.NeedsRoom b) : Tally b m s := by
  obtain ⟨tr, htr, ht⟩ := h
  refine { ht with count := ?_, fits := ?_ }
  · rw [htr, occupied_snoc, hw, add_zero]
    exact ht.count
  · rw [htr, fits_snoc]
    exact ⟨ht.fits, fun h => absurd h hroom⟩

/-- The push of `allocproc`, in the history that already has the event. -/
theorem tally_push (hm : -1 ≤ m) (p : Slot) :
    Holds (After b m .took) (pushQ 0 (some p)) (fun _ => Tally b m) (Stops b) := by
  rintro s ⟨tr, htr, ht⟩
  have hlow : -1 ≤ s.ptr 0 := le_trans hm ht.low
  have hcount : s.ptr 0 + 1 = occupied b tr := ht.count
  simp only [pushQ, bind_apply, gets_apply, setPtr, modify_apply, update_self]
  by_cases hroom : s.ptr 0 + 1 < NPROC
  · rw [writeQ_ok 0 (by omega) hroom]
    refine ⟨fun k hk => ?_, ht.noTicks, ?_, ?_, ?_, ?_⟩
    · simpa [hk] using ht.others k hk
    · simp [htr, occupied_snoc, hcount, SchedEvent.weight]
    · have := ht.low
      simp only [Sched.setQueue_ptr, update_self]
      simp only at this
      omega
    · simpa using hroom
    · simp only [Sched.setQueue_trace, htr, fits_snoc]
      exact ⟨ht.fits, fun _ => by omega⟩
  · rw [writeQ_fault 0 hroom]
    intro hfits
    simp only [htr, fits_snoc] at hfits
    have := hfits.2 trivial
    omega

theorem tally_lasts (hm : -1 ≤ m) : Lasts (Tally b m) (Stops b) where
  proc _ p _ hf h := h.setProc p (hf.noTicks _)
  tick _ h := { h with noTicks := fun p => tick_noTicks (h.noTicks p) }
  pid _ _ h := h.congr rfl rfl rfl
  note s e he h := by
    have hafter : After b m e { s with trace := s.trace ++ [e] } := ⟨_, rfl, h.congr rfl rfl rfl⟩
    rcases he with rfl | rfl
    · exact hafter.tally rfl id
    · exact hafter.tally rfl id
  push p := by
    refine holds_conseq (tally_push hm p) ?_ fun _ _ h => h
    rintro t ⟨s, hs, rfl⟩
    exact ⟨s.trace, rfl, hs.congr rfl rfl rfl⟩

theorem Tally.stop (h : Tally b m s) (hm : -1 ≤ m) {f : SchedFault}
    (hf : ∀ k i, f ≠ .queueBound k i) : Stops b f s := by
  cases f with
  | queueBound k i => exact absurd rfl (hf k i)
  | _ => exact h.mono hm

/-- A process that is switched to leaves one event behind when it comes back. -/
theorem tally_swtch (hm : -1 ≤ m) (c : Cpu) (p : Slot) :
    Holds (Tally b m) (swtch c p) (fun _ s => ∃ bk, After b m (.back bk) s) (Stops b) := by
  refine holds_bind (keeps_gets _) fun script => ?_
  cases script with
  | nil => exact holds_fail fun s h => h.stop hm (by simp)
  | cons sl rest =>
    refine holds_bind (tally_modify (fun _ => rfl) (fun _ => rfl) fun _ => rfl) fun _ =>
      holds_bind ((tally_lasts hm).events p sl.events) fun _ => holds_bind (tally_updProc p fun _ h => h) fun _ =>
      holds_bind (tally_modify (fun _ => rfl) (fun _ => rfl) fun _ => rfl) fun _ => ?_
    exact holds_conseq (tally_record _) (fun _ h => h) fun _ _ h => ⟨_, h⟩

theorem tally_acquire (hm : -1 ≤ m) (c : Cpu) (p : Slot) : Keeps (Tally b m) (acquire c p) (Stops b) :=
  keeps_acquire (fun _ _ h => h.congr rfl rfl rfl) (fun _ h => h.mono hm) (fun _ h => h.mono hm) c p

theorem tally_release (hm : -1 ≤ m) (c : Cpu) (p : Slot) : Keeps (Tally b m) (release c p) (Stops b) :=
  keeps_release (fun _ _ h => h.congr rfl rfl rfl) (fun _ h => h.mono hm) c p

theorem tally_setCpuProc (c : Cpu) (p : Option Slot) : Keeps (Tally b m) (setCpuProc c p) (Stops b) :=
  tally_modify (fun _ => rfl) (fun _ => rfl) fun _ => rfl

theorem tally_derefQ (hm : -1 ≤ m) (k : Fin 5) {i : ℤ} (h0 : 0 ≤ i) (h1 : i < NPROC) :
    Keeps (Tally b m) (derefQ k i) (Stops b) := by
  have hread : Keeps (Tally b m) (readQ k i) (Stops b) := by
    rw [readQ, dif_pos ⟨h0, h1⟩]
    exact keeps_gets _
  refine keeps_bind hread fun entry => ?_
  cases entry with
  | some p => exact keeps_pure _
  | none => exact keeps_fail fun s h => h.stop hm (by simp)

theorem tally_back_of_ne (hb : b ≠ .mlfq) (h : ∃ bk, After b m (.back bk) s) : Tally b m s := by
  obtain ⟨bk, h⟩ := h
  exact h.tally (by simp [SchedEvent.weight, hb]) hb

section

variable (hm : -1 ≤ m)

include hm

theorem tally_runChosen (hb : b ≠ .mlfq) (c : Cpu) (p : Slot) :
    Keeps (Tally b m) (runChosen c p) (Stops b) :=
  keeps_bind (tally_updProc p fun _ h => h) fun _ => keeps_bind (tally_setCpuProc c _) fun _ =>
    keeps_bind (holds_conseq (tally_swtch hm c p) (fun _ h => h) fun _ _ h => tally_back_of_ne hb h)
      fun _ => tally_setCpuProc c _

theorem tally_scanRr (hb : b ≠ .mlfq) (c : Cpu) (ps : List Slot) :
    Keeps (Tally b m) (scanRr c ps) (Stops b) := by
  induction ps with
  | nil => exact keeps_pure _
  | cons p ps ih =>
    exact keeps_bind (tally_acquire hm c p) fun _ => keeps_bind
      (keeps_bind (keeps_gets _) fun _ => keeps_ite (fun _ => tally_runChosen hm hb c p) fun _ => keeps_pure _)
      fun _ => keeps_bind (tally_release hm c p) fun _ => ih

theorem tally_fcfsSlot (c : Cpu) (best : Option Slot) (p : Slot) : Keeps (Tally b m) (fcfsSlot c best p) (Stops b) := by
  refine keeps_bind (tally_acquire hm c p) fun _ => keeps_bind (keeps_gets _) fun _ =>
    keeps_ite (fun _ => ?_) fun _ => keeps_pure _
  cases best with
  | none => exact keeps_pure _
  | some q => exact keeps_bind (keeps_gets _) fun _ => keeps_ite (fun _ => keeps_pure _) fun _ => keeps_pure _

theorem tally_scanFcfs (c : Cpu) (ps : List Slot) (best : Option Slot) :
    Keeps (Tally b m) (scanFcfs c ps best) (Stops b) := by
  induction ps generalizing best with
  | nil => exact keeps_pure _
  | cons p ps ih =>
    refine keeps_bind (tally_fcfsSlot hm c best p) fun r => keeps_bind ?_ fun _ => ih _
    cases r.2 with
    | none => exact keeps_pure _
    | some q => exact tally_release hm c q

theorem tally_checkProcess (cond : Bool) (best : Option Slot) (test : Proc → Bool) :
    Keeps (Tally b m) (checkProcess cond best test) (Stops b) := by
  refine keeps_ite (fun _ => ?_) fun _ => keeps_pure _
  cases best with
  | none => exact keeps_fail fun _ h => h.stop hm (by simp)
  | some q => exact keeps_gets _

theorem tally_scanPbs (c : Cpu) (ps : List Slot) (best : Option Slot) (dp : ℤ) :
    Keeps (Tally b m) (scanPbs c ps best dp) (Stops b) := by
  induction ps generalizing best dp with
  | nil => exact keeps_pure _
  | cons p ps ih =>
    refine keeps_bind (tally_acquire hm c p) fun _ => keeps_bind (keeps_gets _) fun _ =>
      keeps_bind (tally_checkProcess hm _ _ _) fun _ => keeps_bind (tally_checkProcess hm _ _ _) fun _ =>
      keeps_ite (fun _ => ?_) fun _ => keeps_bind (tally_release hm c p) fun _ => ih _ _
    cases best with
    | none => exact ih _ _
    | some q => exact keeps_bind (tally_release hm c q) fun _ => ih _ _

/-- The builds that never take a process off queue 0. -/
theorem tally_pass_of_ne (hb : b ≠ .mlfq) (c : Cpu) : Keeps (Tally b m) (pass b c) (Stops b) := by
  have hback : ∀ p, Keeps (Tally b m) (do swtch c p; setCpuProc c none; release c p) (Stops b) := fun p =>
    keeps_bind (holds_conseq (tally_swtch hm c p) (fun _ h => h) fun _ _ h => tally_back_of_ne hb h) fun _ =>
      keeps_bind (tally_setCpuProc c _) fun _ => tally_release hm c p
  cases b with
  | mlfq => exact absurd rfl hb
  | rr => exact tally_scanRr hm hb c _
  | fcfs =>
    refine keeps_bind (tally_scanFcfs hm c _ _) fun chosen => ?_
    cases chosen with
    | none => exact keeps_pure _
    | some p =>
      refine keeps_bind ?_ fun _ => hback p
      exact keeps_bind (tally_updProc p fun _ h => h) fun _ => keeps_bind (tally_setCpuProc c _) fun _ =>
        tally_modify (fun _ => rfl) (fun _ => rfl) fun _ => rfl
  | pbs =>
    refine keeps_bind (tally_scanPbs hm c _ _ _) fun chosen => ?_
    cases chosen with
    | none => exact keeps_pure _
    | some p =>
      exact keeps_bind (keeps_gets _) fun _ => keeps_bind (tally_updProc p fun _ h => h) fun _ =>
        keeps_bind (tally_setCpuProc c _) fun _ => hback p
  | lbs =>
    have hrand : ∀ t, Keeps (Tally Build.lbs m) (getrand t) (Stops .lbs) := fun t =>
      keeps_bind (keeps_gets _) fun _ => keeps_bind (keeps_gets _) fun _ =>
        keeps_bind (tally_modify (fun _ => rfl) (fun _ => rfl) fun _ => rfl) fun _ => keeps_pure _
    refine keeps_bind (keeps_gets _) fun _ => keeps_bind (hrand _) fun ans =>
      keeps_bind (keeps_scanLbs (tally_acquire hm c) (tally_release hm c) ans _ _) fun chosen => ?_
    cases chosen with
    | none => exact keeps_pure _
    | some p => exact keeps_bind (tally_runChosen hm hb c p) fun _ => tally_release hm c p

end

end Steps

section Mlfq

theorem ticksAllowed_pos (k : Fin 5) : 0 < ticksAllowed k := by
  fin_cases k <;> decide

/-- Without ticks no time ever expires. -/
theorem demote_of_noTicks (k : Fin 5) {p : Slot} {s : Sched} (h : (s.proc p).NoTicks) :
    demote k p s = .ok () s := by
  have hzero : (s.proc p).numOfTicks (k : ℕ) = 0 := h _ (by omega) (by omega)
  have hpos := ticksAllowed_pos k
  rw [demote, bind_of_ok (gets_apply _ s), if_neg (by omega), pure_apply]

theorem tally_choose {m : ℤ} (c : Cpu) (p : Slot) : Keeps (Tally .mlfq m) (choose c p) (Stops .mlfq) :=
  keeps_bind (keeps_gets _) fun _ => keeps_bind (tally_updProc p fun _ h => h) fun _ =>
    keeps_bind (tally_setCpuProc c _) fun _ => tally_updProc p fun _ h => h

theorem tally_runFrom {m : ℤ} (hm : -1 ≤ m) (c : Cpu) (p : Slot) :
    Holds (Tally .mlfq m) (runFrom c p) (fun _ s => ∃ bk, After .mlfq m (.back bk) s) (Stops .mlfq) :=
  holds_bind (tally_choose c p) fun _ => holds_bind (tally_swtch hm c p) fun _ =>
    holds_modify fun _ ⟨bk, tr, htr, h⟩ => ⟨bk, tr, htr, h.congr rfl rfl rfl⟩

variable {i : ℤ}

theorem tally_takeBack (h0 : 0 ≤ i) (p : Slot) :
    Holds (fun s => ∃ bk, After .mlfq i (.back bk) s) (takeBack 0 i p) (fun _ => Tally .mlfq (-1)) (Stops .mlfq) := by
  rintro s ⟨bk, tr, htr, ht⟩
  have hlow : i ≤ s.ptr 0 := ht.low
  have hhigh : s.ptr 0 < NPROC := ht.high
  have hcount : s.ptr 0 + 1 = occupied .mlfq tr := ht.count
  have hno : (s.proc p).NoTicks := ht.noTicks p
  rw [takeBack, bind_of_ok (demote_of_noTicks 0 hno), bind_of_ok (gets_apply _ s)]
  by_cases hroom : s.ptr 0 + 1 < NPROC
  · rw [bind_of_ok (shiftQ_ok 0 _ h0 (by omega) s)]
    simp only [setPtr, updProc, bind_apply, modify_apply]
    refine Tally.setProc ⟨fun k hk => ?_, ?_, ?_, ?_, ?_, ?_⟩ p fun h i h0 h5 => ?_
    · simpa [hk] using ht.others k hk
    · exact ht.noTicks
    · simp only [update_self, Sched.setQueue_trace, htr, occupied_snoc, SchedEvent.weight, if_true]
      omega
    · simp only [update_self]
      omega
    · simp only [update_self]
      omega
    · simp only [Sched.setQueue_trace, htr, fits_snoc]
      exact ⟨ht.fits, fun _ => by omega⟩
    · simp only [update_apply]
      split_ifs
      · rfl
      · exact h i h0 h5
  · obtain ⟨j, q, hfault⟩ := shiftQ_fault 0 (s.ptr 0 - i + 1).toNat h0 (by omega) (by omega) s
    rw [bind_of_fault hfault]
    intro hfits
    simp only [Sched.setQueue_trace, htr, fits_snoc] at hfits
    have := hfits.2 rfl
    omega

theorem tally_dispatchSlot (c : Cpu) (h0 : 0 ≤ i) :
    Holds (Tally .mlfq i) (dispatchSlot c 0 i) (fun _ => Tally .mlfq (-1)) (Stops .mlfq) := by
  refine holds_assume (c := i < NPROC) (fun s h => lt_of_le_of_lt h.low h.high) fun h1 => ?_
  have hm : -1 ≤ i := by omega
  refine holds_bind (tally_derefQ hm 0 h0 h1) fun p => holds_bind (tally_acquire hm c p) fun _ =>
    holds_bind (Q := fun _ => Tally .mlfq (-1)) ?_ fun _ =>
    keeps_bind (tally_derefQ le_rfl 0 h0 h1) fun q => tally_release le_rfl c q
  refine holds_bind (keeps_gets _) fun _ => holds_ite (fun _ => ?_) fun _ =>
    holds_pure fun s h => h.mono hm
  exact holds_bind (tally_runFrom hm c p) fun _ => tally_takeBack h0 p

theorem tally_passMlfq (c : Cpu) : Keeps (Tally .mlfq (-1)) (passMlfq c) (Stops .mlfq) :=
  keeps_passMlfq c (fun _ k h hk => h.others k hk) fun _ h0 =>
    holds_conseq (tally_dispatchSlot c h0) (fun _ ⟨h, hle⟩ => { h with low := hle }) fun _ _ h => h

end Mlfq

theorem tally_pass (b : Build) (c : Cpu) : Keeps (Tally b (-1)) (pass b c) (Stops b) := by
  by_cases hb : b = .mlfq
  · subst hb
    exact tally_passMlfq c
  · exact tally_pass_of_ne le_rfl hb c

/-- Either no access was outside an array and the history fits, or neither. -/
def Accounted (b : Build) (t : Kernel) : Prop :=
  (t.corrupt = false ∧ Tally b (-1) t.sched) ∨ (t.corrupt = true ∧ ¬ Fits b t.sched.trace)

theorem accounted_boot (b : Build) : Accounted b Kernel.boot := by
  refine .inl ⟨rfl, ?_⟩
  have hzero : Tally b (-1) Sched.zero :=
    ⟨fun _ _ => rfl, fun _ _ _ _ => rfl, rfl, le_rfl, by decide, fits_nil b⟩
  exact ((tally_lasts le_rfl).fork .ok).ok hzero (a := ()) rfl

variable {b : Build} {t : Kernel}

theorem accounted_settle (hc : t.corrupt = false) (c : Cpu)
    {x : SchedM Unit} {s : Sched} (hx : Keeps (Tally b (-1)) x (Stops b)) (hs : Tally b (-1) s) :
    Accounted b (t.settle c (x s)) := by
  cases hr : x s with
  | ok a u => exact .inl ⟨hc, hx.ok hs hr⟩
  | fault f u =>
    have hstop := hx.fault hs hr
    cases f with
    | queueBound k i => exact .inr ⟨rfl, hstop⟩
    | _ => exact .inl ⟨hc, hstop⟩

theorem tally_prog (b : Build) (c : Cpu) (e : SysEvent) :
    Keeps (Tally b (-1)) (e.prog b c) (Stops b) := by
  cases e with
  | pass script =>
    exact keeps_bind (tally_modify (fun _ => rfl) (fun _ => rfl) fun _ => rfl) fun _ => tally_pass b c
  | tick => exact (tally_lasts le_rfl).event 0 .tick
  | wakeup q => exact (tally_lasts le_rfl).wake q

theorem accounted_step {t' : Kernel} {e : Cpu × SysEvent} (h : Accounted b t)
    (hstep : t.step b e = some t') : Accounted b t' := by
  unfold Kernel.step at hstep
  split_ifs at hstep with hc
  cases hstep
  rcases h with ⟨hc', ht⟩ | ⟨hc', _⟩
  · exact accounted_settle hc' e.1 (tally_prog b e.1 e.2) ht
  · exact absurd (.inl hc') hc

theorem accounted_run {es : List (Cpu × SysEvent)} (h : Kernel.run b es = some t) : Accounted b t :=
  System.exec_invariant (Kernel.step b) (accounted_boot b) (fun _ _ _ => accounted_step) es t h

theorem Tally.inBounds (hc : t.corrupt = false) (h : Tally b (-1) t.sched) :
    t.InBounds := by
  refine ⟨hc, fun k => ?_⟩
  by_cases hk : k = 0
  · subst hk
    have := h.low
    have := h.high
    omega
  · rw [h.others k hk]
    decide

/-- In every build and every run the queue pointers stay in range and no access falls
outside an array exactly as long as the history fits: `allocproc` may take a slot, and
in the MLFQ build a process may come back, only while fewer than `NPROC` processes have
been pushed on queue 0 and not been taken off it. -/
theorem queue_bounds_iff (b : Build) (es : List (Cpu × SysEvent)) (t : Kernel) (h : Kernel.run b es = some t) :
    t.InBounds ↔ Fits b t.sched.trace := by
  rcases accounted_run h with ⟨hc, ht⟩ | ⟨hc, hfits⟩
  · exact ⟨fun _ => ht.fits, fun _ => ht.inBounds hc⟩
  · constructor
    · rintro ⟨hc', _⟩
      rw [hc] at hc'
      cases hc'
    · exact fun hf => absurd hf hfits

/-- One fork and one round-robin pass. -/
theorem queue_bounds_iff_oneFork :
    ∃ t, Kernel.run .rr [(0, .pass [⟨[.fork .ok], .yield⟩, ⟨[], .exit⟩])] = some t ∧
      t.sched.ptr 0 = 1 ∧ t.InBounds ∧ Fits .rr t.sched.trace := by
  have hrun : ((Kernel.run .rr [(0, .pass [⟨[.fork .ok], .yield⟩, ⟨[], .exit⟩])]).map
      fun t => (t.sched.ptr 0, decide t.InBounds)) = some (1, true) := by decide +kernel
  obtain ⟨t, ht, heq⟩ := Option.map_eq_some_iff.mp hrun
  obtain ⟨hptr, hin⟩ := Prod.mk.inj heq
  have hin' : t.InBounds := of_decide_eq_true hin
  exact ⟨t, ht, hptr, hin', (queue_bounds_iff .rr _ t ht).mp hin'⟩

/-- Init forks 63 children and the first of them exits. -/
def fullTable : List Slice :=
  ⟨List.replicate 63 (.fork .ok), .yield⟩ :: ⟨[], .exit⟩ :: List.replicate 62 ⟨[], .yield⟩

/-- Round robin with a process table that was full once: init reaps the dead child and
forks again, and `allocproc` stores to `queue0[64]`. -/
theorem forkAfterWait_outOfBounds :
    ∃ t, Kernel.run .rr [(0, .pass fullTable), (0, .pass [⟨[.reap 1, .fork .ok], .yield⟩])] = some t ∧
      t.corrupt = true ∧ t.sched.ptr 0 = NPROC ∧ ¬ t.InBounds := by
  have hrun : ((Kernel.run .rr [(0, .pass fullTable), (0, .pass [⟨[.reap 1, .fork .ok], .yield⟩])]).map
      fun t => (t.corrupt, t.sched.ptr 0)) = some (true, 64) := by decide +kernel
  obtain ⟨t, ht, heq⟩ := Option.map_eq_some_iff.mp hrun
  obtain ⟨hc, hptr⟩ := Prod.mk.inj heq
  refine ⟨t, ht, hc, hptr, fun h => ?_⟩
  rw [h.1] at hc
  cases hc

end Xv6
