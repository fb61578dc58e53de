import Xv6.Lib.Locks
import Xv6.Spec.Spin

/-! Spinlocks are taken in one order: `wait_lock` or `tickslock` first, then the locks of processes by their
place in the table. So the CPUs that spin do not wait for each other in a circle. -/

open Function List

namespace Xv6.Spin

open Cpus (Policy SchedPc)
open Locks

/-- The order in which locks are taken. -/
def Lk.rank : Lk → ℕ
  | .wait | .ticks => 0
  | .proc i => i + 1

/-- A candidate is one that the scan has passed. -/
def before (i : ℕ) (best : Option Slot) : Prop := ∀ b, best = some b → (b : ℕ) < i

def schedGood : SchedPc → Prop
  | .fcfs i best => before i best
  | .fcfsLocked i best => before i best
  | .pbs i best dp => before i best ∧ (best = none → dp = 999)
  | .pbsLocked i best dp => before i best ∧ (best = none → dp = 999)
  | _ => True

/-- Interrupts have come, and `yield` was called, where no lock was held. -/
def Ctl.Good : Ctl → Prop
  | .sched pc h => schedGood pc ∧ (h ≠ .none → pc.locks = [])
  | .thread p (.at k h) => h ≠ .none → k.held p = []
  | .thread p (.yieldAt k) | .thread p (.yieldLocked k) | .thread p (.resumed (.yielded k)) => k.held p = []
  | .thread _ (.resumed _) => True

theorem dynamicPr_le (pr : Xv6.Proc) : dynamicPr pr ≤ 100 := by
  unfold dynamicPr
  dsimp only
  split_ifs <;> omega

theorem tableLock_eq {i : ℕ} {l : Lk} (h : tableLock i = some l) : l.rank = i + 1 := by
  unfold tableLock at h
  split at h
  · cases h
    rfl
  · cases h

variable {h : Handler}

/-- In an interrupt handler, only its own locks matter. -/
theorem Ctl.sched_handler {pc : SchedPc} (hh : h ≠ .none) :
    (Ctl.sched pc h).held = h.held ∧ (Ctl.sched pc h).wants = h.wants := by
  cases h with
  | none => exact absurd rfl hh
  | _ => exact ⟨rfl, rfl⟩

theorem Ctl.thread_handler {p : Slot} {k : Base} (hh : h ≠ .none) :
    (Ctl.thread p (.at k h)).held = h.held ∧ (Ctl.thread p (.at k h)).wants = h.wants := by
  cases h with
  | none => exact absurd rfl hh
  | _ => exact ⟨rfl, rfl⟩

section Rank

variable {l : Lk}

theorem Wake.rank_lt {w : Wake} (hw : w.wants = some l) : w.held = [] ∧ 0 < l.rank := by
  cases w with
  | scan chan i | locked chan i => cases hw
  | «at» chan i =>
    cases hw
    exact ⟨rfl, Nat.succ_pos _⟩

theorem tableLock_pos {i : ℕ} (h : tableLock i = some l) : 0 < l.rank := by
  rw [tableLock_eq h]
  exact Nat.succ_pos _

/-- A system call takes its locks in order. -/
theorem Base.rank_lt {p : Slot} {k : Base} (hw : k.wants p = some l) : ∀ x ∈ k.held p, x.rank < l.rank := by
  cases k with
  | wakeup w => simp [Base.held, (Wake.rank_lt hw).1]
  | reparentWake i w | exitWake w =>
    obtain ⟨hnil, hpos⟩ := Wake.rank_lt hw
    simpa [Base.held, hnil, Lk.rank] using hpos
  | sleepAt k =>
    cases hw
    cases k <;> simp [Base.held, Sleep.lk, Lk.rank]
  | alloc i | kill pid i | setPriority pr pid i | sleepEnd k => simp [Base.held]
  | _ => cases hw <;> simp [Base.held, Lk.rank]

theorem Handler.rank_lt {h : Handler} (hw : h.wants = some l) : ∀ x ∈ h.held, x.rank < l.rank := by
  cases h with
  | update i => simpa [Handler.held, Lk.rank] using tableLock_pos hw
  | clockWake w =>
    obtain ⟨hnil, hpos⟩ := Wake.rank_lt hw
    simpa [Handler.held, hnil, Lk.rank] using hpos
  | wake w => simp [Handler.held, (Wake.rank_lt hw).1]
  | _ => cases hw <;> simp [Handler.held]

theorem sched_rank_lt {pc : SchedPc} (hgood : schedGood pc) (hw : schedWants pc = some l) :
    ∀ x ∈ pc.locks.map Lk.proc, x.rank < l.rank := by
  have hbest : ∀ {i : ℕ} {best : Option Slot}, before i best → tableLock i = some l →
      ∀ x ∈ best.toList.map Lk.proc, x.rank < l.rank := by
    intro i best hbefore hl x hx
    rw [tableLock_eq hl]
    obtain ⟨b, hb, rfl⟩ := mem_map.mp hx
    have hlt := hbefore b (Option.mem_toList.mp hb)
    exact Nat.succ_lt_succ hlt
  cases pc with
  | fcfs i best => exact hbest hgood hw
  | pbs i best dp => exact hbest hgood.1 hw
  | rr i | lbs i ans passed => simp [SchedPc.locks]
  | _ => cases hw

/-- Every CPU takes its locks in order. -/
theorem Ctl.rank_lt {x : Ctl} (hgood : x.Good) (hw : x.wants = some l) : ∀ y ∈ x.held, y.rank < l.rank := by
  cases x with
  | sched pc h =>
    by_cases hh : h = .none
    · subst hh
      exact sched_rank_lt hgood.1 hw
    · rw [(sched_handler hh).2] at hw
      rw [(sched_handler hh).1]
      exact Handler.rank_lt hw
  | thread p pc =>
    cases pc with
    | «at» k h =>
      by_cases hh : h = .none
      · subst hh
        exact Base.rank_lt hw
      · rw [(thread_handler hh).2] at hw
        rw [(thread_handler hh).1]
        exact Handler.rank_lt hw
    | yieldAt k => simp [Ctl.held, Pc.held]
    | yieldLocked k | resumed r => cases hw

end Rank

section Moves

variable {κ : Type} {d : Data κ} {x : Ctl} {c : κ}

/-- The threads that called `yield` held no lock. -/
def Tidy (d : Data κ) : Prop := ∀ p k, d.context p = .yielded k → k.held p = []

/-- A move takes the lock that the CPU wants, or drops one that it holds, or keeps its locks. -/
inductive MoveOk (x : Ctl) : Move κ → Prop
  | acquire {l : Lk} {a : Ctl} (hwants : x.wants = some l) (hheld : a.held = l :: x.held) (hgood : a.Good) :
      MoveOk x (.acquire l a)
  | release {l : Lk} {a : Ctl} {d : Data κ} (hheld : x.held.Perm (l :: a.held)) (hgood : a.Good) (htidy : Tidy d) :
      MoveOk x (.release l a d)
  | go {a : Ctl} {d : Data κ} (hheld : a.held = x.held) (hgood : a.Good) (htidy : Tidy d) : MoveOk x (.go a d)

theorem Tidy.setProc (h : Tidy d) (p : Slot) (f : Proc → Proc) : Tidy (d.setProc p f) := h

theorem Tidy.setContext (h : Tidy d) {p : Slot} {r : Resume} (hr : ∀ k, r = .yielded k → k.held p = []) :
    Tidy { d with context := update d.context p r } := by
  intro q k hq
  by_cases hqp : q = p
  · subst hqp
    exact hr k ((update_self _ _ _).symm.trans hq)
  · exact h q k ((update_of_ne hqp _ _).symm.trans hq)

variable {fin m : Move κ} {h : Handler} {i : ℕ} {a : Act} {pc : SchedPc} {best : Option Slot} {b : Policy}

/-- `wakeup` takes and drops one lock at a time, whatever is held around it. -/
theorem wakeStep_ok {me : Option Slot} {wrap : Wake → Ctl} {w : Wake} (outer : List Lk) (htidy : Tidy d)
    (hx : x = wrap w) (hheld : ∀ w, (wrap w).held = w.held ++ outer) (hwants : ∀ w, (wrap w).wants = w.wants)
    (hgood : ∀ w, (wrap w).Good) (hfin : w.held = [] → MoveOk x fin) : MoveOk x (d.wakeStep me wrap fin w) := by
  subst hx
  cases w with
  | scan chan i =>
    dsimp only [Data.wakeStep]
    split
    · split
      all_goals exact .go (by rw [hheld, hheld]; rfl) (hgood _) htidy
    · exact hfin rfl
  | «at» chan i => exact .acquire (hwants _) (by rw [hheld, hheld]; rfl) (hgood _)
  | locked chan i => exact .release (by rw [hheld, hheld]; exact List.Perm.refl _) (hgood _) htidy

/-- A step of an interrupt handler. -/
theorem handlerStep_ok {wrap : Handler → Ctl} (htidy : Tidy d) (hx : x = wrap h)
    (hheld : ∀ h, (wrap h).held = h.held) (hwants : ∀ h, h ≠ .none → (wrap h).wants = h.wants)
    (hgood : ∀ h, (wrap h).Good) (hm : d.handlerStep c wrap h = some m) : MoveOk x m := by
  cases h with
  | none => cases hm
  | clock =>
    cases hm
    subst hx
    exact .acquire (hwants _ nofun) (by rw [hheld, hheld]; rfl) (hgood _)
  | tick =>
    cases hm
    subst hx
    exact .go (by rw [hheld, hheld]; rfl) (hgood _) htidy
  | update i =>
    dsimp only [Data.handlerStep] at hm
    split at hm
    · rename_i hi
      cases hm
      subst hx
      refine .acquire ?_ (by rw [hheld, hheld]; rfl) (hgood _)
      rw [hwants (.update i) nofun]
      exact dif_pos hi
    · cases hm
      subst hx
      exact .go (by rw [hheld, hheld]; rfl) (hgood _) htidy
  | updateLocked i =>
    cases hm
    subst hx
    exact .release (by rw [hheld, hheld]; exact List.Perm.refl _) (hgood _) (htidy.setProc _ _)
  | clockWake w =>
    cases hm
    refine wakeStep_ok [.ticks] htidy hx (fun w => hheld _) (fun w => hwants _ nofun) (fun w => hgood _) fun hnil => ?_
    subst hx
    refine .release ?_ (hgood _) htidy
    rw [hheld, hheld, Handler.held, hnil]
    exact List.Perm.refl _
  | wake w =>
    cases hm
    refine wakeStep_ok [] htidy hx (fun w => (hheld _).trans (append_nil _).symm) (fun w => hwants _ nofun)
      (fun w => hgood _) fun hnil => ?_
    subst hx
    refine .go ?_ (hgood _) htidy
    rw [hheld, hheld, Handler.held, hnil]
    rfl

variable {p : Slot}

/-- A round of a loop over the process table. -/
theorem tableStep_ok {k : Slot → Base} {k₀ : Base} (htidy : Tidy d) (hheld₀ : k₀.held p = [])
    (hwants₀ : k₀.wants p = tableLock i) (hk : ∀ j, (k j).held p = [.proc j]) :
    MoveOk (.thread p (.at k₀ .none)) (d.tableStep p i k) := by
  unfold Data.tableStep
  split
  · rename_i hi
    refine .acquire (hwants₀.trans (dif_pos hi)) ?_ (fun hh => absurd rfl hh)
    exact (hk _).trans (congrArg _ hheld₀.symm)
  · exact .go hheld₀.symm (fun hh => absurd rfl hh) htidy

/-- A step of a system call. -/
theorem baseStep_ok {r : Cpus.Alloc} {k : Base} (htidy : Tidy d) (hm : d.baseStep p r k = some m) :
    MoveOk (.thread p (.at k .none)) m := by
  have hgood : ∀ k, (Ctl.thread p (.at k .none)).Good := fun k hh => absurd rfl hh
  cases k with
  | user => cases hm
  | wakeup w =>
    cases hm
    refine wakeStep_ok [] htidy rfl (fun w => (append_nil _).symm) (fun w => rfl) (fun w => hgood _) fun hnil => ?_
    exact .go hnil.symm (hgood _) htidy
  | alloc i | kill pid i | setPriority pr pid i =>
    cases hm
    exact tableStep_ok htidy rfl rfl fun j => rfl
  | reparentWake i w | exitWake w =>
    cases hm
    refine wakeStep_ok [.wait] htidy rfl (fun w => rfl) (fun w => rfl) (fun w => hgood _) fun hnil => ?_
    refine .go ?_ (hgood _) htidy
    change [Lk.wait] = w.held ++ [.wait]
    rw [hnil]
    rfl
  | forkLink np | forkRun np | self set | wait x | waitAt x i | waitKilled | exit | exitAt | sysSleep n
  | ticksKilled n ticks0 | sleepAt k =>
    cases hm
    exact .acquire rfl rfl (hgood _)
  | forkLinked np | forkRunLocked np | waitReturn | ticksReturn =>
    cases hm
    exact .release (.refl _) (hgood _) htidy
  | allocLocked i =>
    dsimp only [Data.baseStep] at hm
    split at hm
    · cases hm
      refine .go rfl (hgood _) (Tidy.setContext htidy nofun)
    · cases hm
      exact .release (.refl _) (hgood _) htidy
  | fork np =>
    cases r with
    | ok | noMemory | noCopy =>
      cases hm
      exact .release (.refl _) (hgood _) htidy
  | killLocked pid i =>
    dsimp only [Data.baseStep] at hm
    split at hm
    all_goals
      cases hm
      exact .release (.refl _) (hgood _) htidy
  | setPriorityLocked pr pid i =>
    dsimp only [Data.baseStep] at hm
    split at hm
    · cases hm
      split
      · exact .release (.refl _) rfl htidy
      · exact .release (.refl _) (hgood _) htidy
    · cases hm
      exact .release (.refl _) (hgood _) htidy
  | selfLocked set =>
    cases hm
    refine .release (.refl _) (hgood _) ?_
    split <;> exact htidy
  | waitScan x i havekids | reparent i =>
    dsimp only [Data.baseStep] at hm
    split_ifs at hm
    all_goals
      cases hm
      exact .go rfl (hgood _) htidy
  | waitLocked x i =>
    dsimp only [Data.baseStep] at hm
    split at hm
    · cases hm
      refine .release (.refl _) (hgood _) ?_
      split <;> exact htidy
    · cases hm
      exact .release (.refl _) (hgood _) htidy
  | waitKilledLocked | ticksKilledLocked n ticks0 =>
    cases hm
    split
    all_goals exact .release (.refl _) (hgood _) htidy
  | exitLocked =>
    cases hm
    exact .release (.swap _ _ _) (hgood _) htidy
  | exitFree | sleepFree k =>
    cases hm
    exact .go rfl ⟨trivial, fun hh => absurd rfl hh⟩ (Tidy.setContext htidy nofun)
  | ticksLoop n ticks0 =>
    dsimp only [Data.baseStep] at hm
    split at hm
    all_goals
      cases hm
      exact .go rfl (hgood _) htidy
  | sleepLocked k =>
    cases k with
    | wait x | ticks n ticks0 =>
      cases hm
      exact .release (.swap _ _ _) (hgood _) htidy
    | other n =>
      cases hm
      exact .go rfl (hgood _) htidy
  | sleepEnd k =>
    cases k with
    | wait x | ticks n ticks0 =>
      cases hm
      exact .acquire rfl rfl (hgood _)
    | other n =>
      cases hm
      exact .go rfl (hgood _) htidy

theorem callStep_ok {f : Call} (htidy : Tidy d) (hm : d.callStep p f = some m) :
    MoveOk (.thread p (.at .user .none)) m := by
  have hgood : ∀ k, (Ctl.thread p (.at k .none)).Good := fun k hh => absurd rfl hh
  cases f with
  | exit =>
    dsimp only [Data.callStep] at hm
    split at hm
    · cases hm
    · cases hm
      exact .go rfl (hgood _) htidy
  | _ =>
    cases hm
    exact .go rfl (hgood _) htidy

theorem threadStep_ok {pc : Pc} (htidy : Tidy d) (hx : (Ctl.thread p pc).Good)
    (hm : d.threadStep c p pc a = some m) : MoveOk (.thread p pc) m := by
  cases pc with
  | «at» k h =>
    by_cases hh : h = .none
    · subst hh
      cases a with
      | next r rand => exact baseStep_ok htidy (by simpa [Data.threadStep] using hm)
      | call f =>
        have hk : k = .user := by
          by_contra hk
          cases k <;> first | exact hk rfl | cases hm
        subst hk
        exact callStep_ok htidy hm
      | yield | clockintr | devintr chan =>
        simp only [Data.threadStep] at hm
        split at hm
        · rename_i hk
          cases hm
          exact .go hk.symm (by first | exact hk | exact fun _ => hk) htidy
        · cases hm
    · have hnil : k.held p = [] := hx hh
      cases a with
      | next r rand =>
        have hm' : d.handlerStep c (fun h => .thread p (.at k h)) h = some m := by
          cases h <;> first | exact absurd rfl hh | exact hm
        refine handlerStep_ok htidy rfl (fun h => ?_) (fun h hh => (Ctl.thread_handler hh).2) (fun h _ => hnil) hm'
        cases h with
        | none => exact hnil
        | _ => rfl
      | _ => cases h <;> first | exact absurd rfl hh | cases hm
  | yieldAt k =>
    cases a with
    | next r rand =>
      cases hm
      exact .acquire rfl rfl hx
    | _ => cases hm
  | yieldLocked k =>
    cases a with
    | next r rand =>
      cases hm
      refine .go rfl ⟨trivial, fun hh => absurd rfl hh⟩ (Tidy.setContext htidy fun k' hk' => ?_)
      cases hk'
      exact hx
    | _ => cases hm
  | resumed r =>
    cases a with
    | next r' rand =>
      cases r with
      | forkret | slept k =>
        cases hm
        exact .release (.refl _) (fun hh => absurd rfl hh) htidy
      | exited => cases hm
      | yielded k =>
        cases hm
        refine .release ?_ (fun hh => absurd rfl hh) htidy
        change [Lk.proc p].Perm (.proc p :: k.held p)
        rw [show k.held p = [] from hx]
    | _ => cases hm

theorem choose_ok [DecidableEq κ] {q : Slot} {f : Xv6.Proc → Xv6.Proc} (htidy : Tidy d) (hx : x.held = [.proc q]) :
    MoveOk x (d.choose c q f) := by
  refine .go hx.symm ?_ htidy
  cases hr : d.context q with
  | forkret | slept k | exited => trivial
  | yielded k => exact htidy q k hr

/-- A scan goes on to the next process, or ends. -/
theorem scanStep_ok {k : Slot → SchedPc} (hwants : schedWants pc = tableLock i)
    (hheld : ∀ j, (k j).locks = j :: pc.locks) (hgood : ∀ j : Slot, (j : ℕ) = i → schedGood (k j))
    (hfin : MoveOk (.sched pc .none) fin) : MoveOk (.sched pc .none) (Data.scanStep i k fin) := by
  unfold Data.scanStep
  split
  · rename_i hi
    refine .acquire (hwants.trans (dif_pos hi)) ?_ ⟨hgood _ rfl, fun hh => absurd rfl hh⟩
    change (k ⟨i, hi⟩).locks.map Lk.proc = _
    rw [hheld]
    rfl
  · exact hfin

/-- The process at which the scan is becomes the candidate. -/
theorem keep_ok {i : Slot} {pc' : SchedPc} (htidy : Tidy d) (hpc : pc.locks = i :: best.toList)
    (hpc' : pc'.locks = [i]) (hgood : schedGood pc') : MoveOk (.sched pc .none) (d.keep best pc') := by
  have hheld : (Ctl.sched pc .none).held = .proc i :: best.toList.map Lk.proc := by
    change pc.locks.map Lk.proc = _
    rw [hpc]
    rfl
  have hheld' : (Ctl.sched pc' .none).held = [.proc i] := by
    change pc'.locks.map Lk.proc = _
    rw [hpc']
    rfl
  cases best with
  | none => exact .go (hheld'.trans hheld.symm) ⟨hgood, fun hh => absurd rfl hh⟩ htidy
  | some b =>
    refine .release ?_ ⟨hgood, fun hh => absurd rfl hh⟩ htidy
    rw [hheld, hheld']
    exact .swap _ _ _

theorem before_succ {i : Slot} : before (i + 1) (some i) := by
  intro b hb
  cases hb
  exact Nat.lt_succ_self _

theorem before_mono (h : before i best) : before (i + 1) best :=
  fun b hb => (h b hb).trans (Nat.lt_succ_self _)

theorem before_of_eq {j : Slot} (h : before i best) (hj : (j : ℕ) = i) :
    before j best := by
  rwa [hj]

theorem top_locks (b : Policy) : (Cpus.State.top b).locks = [] := by
  cases b <;> rfl

theorem top_good (b : Policy) : schedGood (Cpus.State.top b) := by
  cases b with
  | rr | lbs => trivial
  | fcfs => exact nofun
  | pbs => exact ⟨nofun, fun _ => rfl⟩

/-- A pass ends without a process to run. -/
theorem again_ok (htidy : Tidy d) (hpc : pc.locks = []) :
    MoveOk (.sched pc .none) (.go (.sched (Cpus.State.top b) .none) d) := by
  refine .go ?_ ⟨top_good b, fun hh => absurd rfl hh⟩ htidy
  change (Cpus.State.top b).locks.map Lk.proc = pc.locks.map Lk.proc
  rw [hpc, top_locks]

/-- PBS looks at the candidate only when there is one: before that, `dynamic_pr` is 999. -/
theorem pbs_conds {i : Slot} {dp : ℤ} (hnone : best = none → dp = 999) :
    ∃ cond1 cond2, d.pbsCond1 i best dp = some cond1 ∧ d.pbsCond2 i best cond1 = some cond2 := by
  have hle := dynamicPr_le (d.proc i).toProc
  cases best with
  | none =>
    have hdp := hnone rfl
    refine ⟨false, false, ?_, rfl⟩
    unfold Data.pbsCond1
    rw [if_neg (by omega)]
  | some b =>
    unfold Data.pbsCond1 Data.pbsCond2
    split
    · refine ⟨_, ?_, rfl, ?_⟩
      · exact if decide ((d.proc i).numOfScheduled < (d.proc b).numOfScheduled) then
          decide ((d.proc i).creationTime < (d.proc b).creationTime) else false
      · dsimp only
        split <;> simp_all
    · exact ⟨false, false, rfl, rfl⟩

theorem schedNext_ok [DecidableEq κ] {rand : ℤ} (htidy : Tidy d) (hx : schedGood pc) :
    MoveOk (.sched pc .none) (d.schedNext b c rand pc) := by
  have hgood : ∀ {pc}, schedGood pc → (Ctl.sched pc .none).Good := fun h => ⟨h, fun hh => absurd rfl hh⟩
  cases pc with
  | rr i => exact scanStep_ok rfl (fun j => rfl) (fun j _ => trivial) (again_ok htidy rfl)
  | rrLocked i =>
    dsimp only [Data.schedNext]
    split
    · exact choose_ok htidy rfl
    · exact .release (.refl _) (hgood trivial) htidy
  | fcfs i best =>
    refine scanStep_ok (k := fun j => .fcfsLocked j best) rfl (fun j => rfl) (fun j hj => before_of_eq hx hj) ?_
    cases best with
    | none => exact again_ok htidy rfl
    | some p => exact choose_ok htidy rfl
  | fcfsLocked i best =>
    dsimp only [Data.schedNext]
    split
    · exact keep_ok htidy rfl rfl before_succ
    · exact .release (.refl _) (hgood (before_mono hx)) htidy
  | pbs i best dp =>
    refine scanStep_ok (k := fun j => .pbsLocked j best dp) rfl (fun j => rfl)
      (fun j hj => ⟨before_of_eq hx.1 hj, hx.2⟩) ?_
    cases best with
    | none => exact again_ok htidy rfl
    | some p => exact choose_ok htidy rfl
  | pbsLocked i best dp =>
    obtain ⟨cond1, cond2, h1, h2⟩ := pbs_conds (d := d) (i := i) hx.2
    dsimp only [Data.schedNext]
    rw [h1]
    dsimp only
    rw [h2]
    dsimp only
    split
    · exact keep_ok htidy rfl rfl ⟨before_succ, nofun⟩
    · exact .release (.refl _) (hgood ⟨before_mono hx.1, hx.2⟩) htidy
  | lbsCount i tot =>
    dsimp only [Data.schedNext]
    split
    all_goals exact .go rfl (hgood trivial) htidy
  | lbs i ans passed =>
    exact scanStep_ok (k := fun j => .lbsLocked j ans passed) rfl (fun j => rfl) (fun j _ => trivial)
      (again_ok htidy rfl)
  | lbsLocked i ans passed =>
    dsimp only [Data.schedNext]
    split
    · split
      · exact choose_ok htidy rfl
      · exact .release (.refl _) (hgood trivial) htidy
    · exact .release (.refl _) (hgood trivial) htidy
  | back p =>
    dsimp only [Data.schedNext]
    split
    · exact .release (.refl _) (hgood trivial) htidy
    · refine .release ?_ (hgood (top_good b)) htidy
      change [Lk.proc p].Perm (.proc p :: (Cpus.State.top b).locks.map Lk.proc)
      rw [top_locks]
      exact .refl _

theorem schedStep_ok [DecidableEq κ] (htidy : Tidy d)
    (hx : (Ctl.sched pc h).Good) (hm : d.schedStep b c pc h a = some m) : MoveOk (.sched pc h) m := by
  by_cases hh : h = .none
  · subst hh
    cases a with
    | next r rand =>
      cases hm
      exact schedNext_ok htidy hx.1
    | call f | yield => cases hm
    | clockintr | devintr chan =>
      simp only [Data.schedStep] at hm
      split at hm
      · rename_i hpc
        cases hm
        refine .go ?_ ⟨hx.1, fun _ => hpc⟩ htidy
        change [] = pc.locks.map Lk.proc
        rw [hpc]
        rfl
      · cases hm
  · have hnil : pc.locks = [] := hx.2 hh
    cases a with
    | next r rand =>
      have hm' : d.handlerStep c (.sched pc) h = some m := by
        cases h <;> first | exact absurd rfl hh | exact hm
      refine handlerStep_ok htidy rfl (fun h => ?_) (fun h hh => (Ctl.sched_handler hh).2) (fun h => ⟨hx.1, fun _ => hnil⟩) hm'
      cases h with
      | none =>
        change pc.locks.map Lk.proc = []
        rw [hnil]
        rfl
      | _ => rfl
    | _ => cases h <;> first | exact absurd rfl hh | cases hm

theorem ctlStep_ok [DecidableEq κ] (htidy : Tidy d) (hx : x.Good) (hm : d.ctlStep b c x a = some m) : MoveOk x m := by
  cases x with
  | sched pc h => exact schedStep_ok htidy hx hm
  | thread p pc => exact threadStep_ok htidy hx hm

end Moves

section Runs

variable {κ : Type} [DecidableEq κ] {b : Policy} {s s' : State κ}

structure Inv (s : State κ) : Prop where
  owns : Owns Ctl.held s.lock s.ctl
  good : ∀ c, (s.ctl c).Good
  tidy : Tidy s.data
  sane : s.panicked = none
  once : ∀ l, s.acquires l = s.releases l + if (s.lock l).isSome then 1 else 0

variable {c : κ}

theorem good_update {a : Ctl} (h : ∀ c, (s.ctl c).Good) (ha : a.Good) :
    ∀ c', (update s.ctl c a c').Good := by
  intro c'
  by_cases hc : c' = c
  · subst hc
    rwa [update_self]
  · rw [update_of_ne hc]
    exact h c'

theorem inv_perform {m : Move κ} (h : Inv s) (hm : MoveOk (s.ctl c) m) (hs : s.perform c m = some s') :
    Inv s' := by
  cases hm with
  | @acquire l a hwants hheld hgood =>
    dsimp only [State.perform] at hs
    split at hs
    · rename_i hfree
      cases hs
      refine ⟨h.owns.move (.acquire l hfree hheld), good_update h.good hgood, h.tidy, h.sane, fun l' => ?_⟩
      by_cases hl : l' = l
      · subst hl
        have honce := h.once l'
        rw [hfree] at honce
        simpa using honce
      · simpa [hl] using h.once l'
    · rename_i c' hc'
      split at hs
      · rename_i heq
        -- the CPU holds only locks that come before the one it wants
        have hmem := (h.owns.iff l c).mp (heq ▸ hc')
        exact absurd (Ctl.rank_lt (h.good c) hwants l hmem) (lt_irrefl _)
      · cases hs
  | @release l a d hheld hgood htidy =>
    have hown : s.lock l = some c := (h.owns.iff l c).mpr (hheld.mem_iff.mpr mem_cons_self)
    dsimp only [State.perform] at hs
    rw [if_pos hown] at hs
    cases hs
    refine ⟨h.owns.move (.drop l hheld), good_update h.good hgood, htidy, h.sane, fun l' => ?_⟩
    by_cases hl : l' = l
    · subst hl
      have honce := h.once l'
      rw [hown] at honce
      simpa using honce
    · simpa [hl] using h.once l'
  | go hheld hgood htidy =>
    cases hs
    exact ⟨h.owns.move (.keep hheld), good_update h.good hgood, htidy, h.sane, h.once⟩

theorem inv_step {e : κ × Act} (h : Inv s) (hs : s.step b e = some s') : Inv s' := by
  unfold State.step at hs
  split at hs
  · cases hs
  · obtain ⟨m, hm, hs⟩ := Option.bind_eq_some_iff.mp hs
    exact inv_perform h (ctlStep_ok h.tidy (h.good e.1) hm) hs

omit [DecidableEq κ] in
theorem inv_init (b : Policy) : Inv (State.init b : State κ) := by
  refine ⟨⟨fun l c => ?_, fun c => ?_⟩, fun c => ⟨top_good b, fun hh => absurd rfl hh⟩, nofun, rfl, fun l => rfl⟩
  · refine iff_of_false nofun ?_
    change l ∉ (Cpus.State.top b).locks.map Lk.proc
    rw [top_locks]
    exact not_mem_nil
  · change ((Cpus.State.top b).locks.map Lk.proc).Nodup
    rw [top_locks]
    exact nodup_nil

omit [DecidableEq κ] in
theorem Inv.safe (h : Inv s) : s.Safe b := by
  have hrank : ∀ c l, (s.ctl c).wants = some l → ∀ l' ∈ (s.ctl c).held, l'.rank < l.rank :=
    fun c l hw => Ctl.rank_lt (h.good c) hw
  have hacyclic : ∀ c, ¬Relation.TransGen s.WaitsFor c c := h.owns.acyclic hrank
  refine ⟨h.sane, h.once, fun c hc l hl => ?_, fun c hc => hacyclic c (.single hc), hacyclic⟩
  have hmem := (h.owns.iff l c).mp hl
  rw [hc, show (Ctl.sched (Cpus.State.top b) .none).held = (Cpus.State.top b).locks.map Lk.proc from rfl, top_locks] at hmem
  exact not_mem_nil hmem

/-- In the builds whose schedulers scan the process table, no scheduler dereferences a null candidate, locks are
released exactly once, and nobody waits in a circle. -/
theorem spin_safe (b : Policy) (es : List (κ × Act)) : ∀ s, State.run b es = some s → s.Safe b := by
  intro s hs
  have hinv : Inv s := System.exec_invariant (State.step b) (inv_init b) (fun s e s' h hs => inv_step h hs) es s hs
  exact hinv.safe

end Runs

/-- Two CPUs scan the table for FCFS: one has `initproc` as its candidate, the other spins on its lock. -/
def twoScans : List (Bool × Act) :=
  [(false, .next .ok 0), (false, .next .ok 0), (false, .next .ok 0)]

theorem twoScans_safe :
    ∃ s, State.run .fcfs twoScans = some s ∧ s.WaitsFor true false ∧ s.Safe .fcfs := by
  have hrun : (State.run .fcfs twoScans).map (fun s => (s.ctl true, s.lock (.proc 0))) =
      some (.sched (.fcfs 0 none) .none, some false) := by
    decide +kernel
  obtain ⟨s, hs, heq⟩ := Option.map_eq_some_iff.mp hrun
  obtain ⟨hctl, hlock⟩ := Prod.mk.inj heq
  refine ⟨s, hs, ⟨.proc 0, ?_, hlock⟩, spin_safe _ _ s hs⟩
  rw [hctl]
  rfl

end Xv6.Spin
