import Xv6.Lib.Locks
import Xv6.Spec.Cpus

/-! What a step of a CPU can do. Every place a CPU can be at is described by the locks it
holds, the process it runs, the candidate it keeps, the child it is forking; a step is
a `Turn`, in which one CPU moves and at most one slot changes. -/

namespace Xv6.Cpus

open Locks Function List

section places

variable {α β : Type}

@[simp] theorem Ctx.empty_code : (Ctx.empty : Ctx α β).code = .idle := rfl

@[simp] theorem Ctx.empty_held : (Ctx.empty : Ctx α β).held = [] := rfl

@[simp] theorem Ctx.empty_owed : (Ctx.empty : Ctx α β).owed = [] := rfl

@[simp] theorem Ctx.ofScan_held (w : Option (Chan α × ℕ)) : (Ctx.ofScan w : Ctx α β).held = [] := by
  cases w <;> rfl

@[simp] theorem Ctx.ofScan_owed (w : Option (Chan α × ℕ)) : (Ctx.ofScan w : Ctx α β).owed = [] := by
  cases w <;> rfl

theorem Ctx.suspend_eq {x : Ctx α β} {w : Option (Chan α × ℕ)} (h : x.suspend = some w) : x = .ofScan w := by
  unfold Ctx.suspend at h
  split at h <;> cases h <;> rfl

def Code.locks : Code α → List Slot
  | .locked _ i => [i]
  | _ => []

@[simp] theorem Code.locks_idle : (Code.idle : Code α).locks = [] := rfl

@[simp] theorem Code.locks_scan (chan : Chan α) (i : ℕ) : (Code.scan chan i).locks = [] := rfl

@[simp] theorem Code.locks_locked (chan : Chan α) (i : Slot) : (Code.locked chan i).locks = [i] := rfl

@[simp] theorem Ctx.ofScan_locks (w : Option (Chan α × ℕ)) : (Ctx.ofScan w : Ctx α β).code.locks = [] := by
  cases w <;> rfl

/-- The child that `fork` has not started yet. -/
@[simp] def Base.child : Base β → Option Slot
  | .forkLink np | .forkRun np => some np
  | _ => none

@[simp] def Resume.child : Resume α β → Option Slot
  | .yielded k _ => k.child
  | _ => none

def Resume.isSlept : Resume α β → Bool
  | .slept _ => true
  | _ => false

def SchedPc.best : SchedPc → Option Slot
  | .fcfs _ best | .fcfsLocked _ best | .pbs _ best _ | .pbsLocked _ best _ => best
  | _ => none

def SchedPc.proc : SchedPc → Option Slot
  | .back p => some p
  | _ => none

namespace Ctl

/-- The process whose thread runs. -/
@[simp] def runs : Ctl α β → Option Slot
  | .sched _ _ => none
  | .thread p _ => some p

/-- What `c->proc` has to be. -/
@[simp] def proc : Ctl α β → Option Slot
  | .sched pc _ => pc.proc
  | .thread p _ => some p

@[simp] def locks : Ctl α β → List Slot
  | .sched pc x => pc.locks ++ x.code.locks
  | .thread _ (.base _ x) => x.code.locks
  | .thread _ (.locked _ q _ _) => [q]
  | .thread _ (.awake _) => []
  | .thread p _ => [p]

@[simp] def spins : Ctl α β → List (Lk β)
  | .sched _ x | .thread _ (.base _ x) => x.held
  | .thread _ (.locked _ _ held _) => held
  | .thread _ (.sleepLocked _ lk) | .thread _ (.awake lk) => [lk]
  | .thread _ .exitLocked => [.waitLock]
  | _ => []

@[simp] def best : Ctl α β → Option Slot
  | .sched pc _ => pc.best
  | .thread _ _ => none

@[simp] def child : Ctl α β → Option Slot
  | .thread _ (.base k _) | .thread _ (.yieldLocked k _) => k.child
  | .thread _ (.locked .start q _ _) => some q
  | .thread _ (.resumed r) => r.child
  | _ => none

/-- The kernel code that runs. -/
@[simp] def ctx : Ctl α β → Ctx α β
  | .sched _ x | .thread _ (.base _ x) => x
  | .thread _ (.locked _ _ held owed) => ⟨.idle, held, owed⟩
  | _ => .empty

/-- Just switched to in the middle of `sleep`. -/
@[simp] def slept : Ctl α β → Bool
  | .thread _ (.resumed r) => r.isSlept
  | _ => false

/-- What the thread will sleep on, and the lock it still holds. -/
@[simp] def waits : Ctl α β → Option (Chan α × Lk β)
  | .thread _ (.sleepLocked chan lk) => some (chan, lk)
  | _ => none

/-- What the thread will sleep on, once it holds no other lock. -/
@[simp] def falls : Ctl α β → Option (Chan α)
  | .thread _ (.sleepFree chan _) => some chan
  | _ => none

theorem proc_of_runs {a : Ctl α β} {p : Slot} (h : a.runs = some p) : a.proc = some p := by
  cases a with
  | sched pc x => cases h
  | thread q pc => exact h

theorem best_of_runs {a : Ctl α β} {p : Slot} (h : a.runs = some p) : a.best = none := by
  cases a with
  | sched pc x => cases h
  | thread q pc => rfl

theorem mem_locks_of_best {a : Ctl α β} {b : Slot} (h : a.best = some b) : b ∈ a.locks := by
  cases a with
  | thread q pc => cases h
  | sched pc x =>
    cases pc <;> simp_all [SchedPc.best, SchedPc.locks]

variable {chan : Chan α}

theorem mem_locks_of_falls {a : Ctl α β} {p : Slot} (hruns : a.runs = some p)
    (h : a.falls = some chan) : p ∈ a.locks := by
  cases a with
  | sched pc x => cases h
  | thread q pc =>
    cases hruns
    cases pc <;> cases h
    exact mem_singleton_self p

theorem mem_spins_of_waits {a : Ctl α β} {lk : Lk β} (h : a.waits = some (chan, lk)) :
    lk ∈ a.spins := by
  cases a with
  | sched pc x => cases h
  | thread q pc =>
    cases pc <;> cases h
    exact mem_singleton_self lk

theorem mem_locks_of_proc {a : Ctl α β} {p : Slot} (hruns : a.runs = none) (h : a.proc = some p) : p ∈ a.locks := by
  cases a with
  | thread q pc => cases hruns
  | sched pc x =>
    cases pc <;> simp_all [SchedPc.proc, SchedPc.locks]

end Ctl

end places

section

variable {κ α β : Type} [DecidableEq κ] [DecidableEq β]

/-- A slot keeps its state and what it sleeps on. -/
def Same (pr pr' : Proc α) : Prop := pr'.state = pr.state ∧ pr'.chan = pr.chan

/-- What a thread does to a slot under its lock, other than to start or to switch. -/
inductive Shift (pr pr' : Proc α) : Prop
  | woken (h : pr.state = .sleeping) (h' : pr'.state = .runnable) (hchan : pr'.chan = pr.chan)
  | used (h : pr.state = .unused) (h' : pr'.state = .used) (hchan : pr'.chan = pr.chan)
  | freed (h : pr.state = .unused ∨ pr.state = .zombie) (h' : pr'.state = .unused) (hchan : pr'.chan = none)
  | cleared (h : pr'.state = pr.state) (hchan : pr'.chan = none)

/-- CPU `c` moves from `a` to `a'` and stays with what it runs. -/
structure Stays (s s' : State κ α β) (a a' : Ctl α β) : Prop where
  context : s'.context = s.context
  cpuProc : s'.cpuProc = s.cpuProc
  runs : a'.runs = a.runs
  proc : a'.proc = a.proc
  child : a'.child = a.child

/-- What becomes of the slots, while CPU `c` moves from `a` to `a'`. -/
inductive Change (s s' : State κ α β) (c : κ) (a a' : Ctl α β) : Prop
  | quiet (hsame : ∀ q, Same (s.proc q) (s'.proc q)) (hstay : Stays s s' a a') (hslept : a'.slept = a.slept)
      (hbest : ∀ b, a'.best = some b → a.best = some b ∨ b ∈ a.locks ∧ (s.proc b).state = .runnable)
  | slot (q : Slot) (hq : q ∈ a.locks) (hsame : ∀ r ≠ q, Same (s.proc r) (s'.proc r))
      (hshift : Shift (s.proc q) (s'.proc q)) (hstay : Stays s s' a a')
      (hslept : a.slept = true → a.runs = some q ∧ (s'.proc q).chan = none) (hbest : a'.best = none)
  | adopt (p q : Slot) (hq : q ∈ a.locks) (hsame : ∀ r ≠ q, Same (s.proc r) (s'.proc r))
      (h : (s.proc q).state = .unused) (h' : (s'.proc q).state = .used) (hchan : (s'.proc q).chan = (s.proc q).chan)
      (hcontext : ∀ r, s'.context r = if r = q then some .forkret else s.context r) (hcpu : s'.cpuProc = s.cpuProc)
      (hruns : a.runs = some p) (hruns' : a'.runs = some p) (hchild : a'.child = some q) (hslept : a.slept = false)
  | start (p q : Slot) (hq : q ∈ a.locks) (hsame : ∀ r ≠ q, Same (s.proc r) (s'.proc r))
      (h' : (s'.proc q).state = .runnable) (hchan : (s'.proc q).chan = (s.proc q).chan)
      (hcontext : s'.context = s.context) (hcpu : s'.cpuProc = s.cpuProc)
      (hruns : a.runs = some p) (hruns' : a'.runs = some p) (hchild : a.child = some q) (hchild' : a'.child = none)
      (hslept : a.slept = false)
  | leave (p : Slot) (r : Option (Resume α β)) (hp : p ∈ a.locks) (hsame : ∀ q ≠ p, Same (s.proc q) (s'.proc q))
      (hruns : a.runs = some p) (hruns' : a'.runs = none) (hproc' : a'.proc = some p) (hbest : a'.best = none)
      (h' : (s'.proc p).state = .runnable ∨ (s'.proc p).state = .sleeping ∨ (s'.proc p).state = .zombie)
      (hr : r = none → (s'.proc p).state = .zombie) (hchild : r.bind Resume.child = a.child)
      (hchan : (s'.proc p).state ≠ .sleeping ∧ (s'.proc p).chan = (s.proc p).chan ∧ a.slept = false ∨
        (s'.proc p).state = .sleeping ∧ ∃ chan lk, r = some (.slept lk) ∧ (s'.proc p).chan = some chan ∧ a.falls = some chan)
      (hcontext : ∀ q, s'.context q = if q = p then r else s.context q) (hcpu : s'.cpuProc = s.cpuProc)
  | enter (p : Slot) (r : Resume α β) (hp : p ∈ a.locks) (hsame : ∀ q ≠ p, Same (s.proc q) (s'.proc q))
      (h : a.best = some p ∨ (s.proc p).state = .runnable) (h' : (s'.proc p).state = .running)
      (hchan : (s'.proc p).chan = (s.proc p).chan) (hr : s.context p = some r)
      (hcontext : ∀ q, s'.context q = if q = p then none else s.context q)
      (hcpu : ∀ d, s'.cpuProc d = if d = c then some p else s.cpuProc d) (hruns : a.runs = none) (hproc : a.proc = none)
      (hruns' : a'.runs = some p) (hchild : a'.child = r.child) (hslept : a'.slept = r.isSlept)
  | back (hsame : ∀ q, Same (s.proc q) (s'.proc q)) (hcontext : s'.context = s.context)
      (hcpu : ∀ d, s'.cpuProc d = if d = c then none else s.cpuProc d) (hruns : a.runs = none) (hruns' : a'.runs = none)
      (hproc' : a'.proc = none) (hbest : a'.best = none)

/-- The code is going to look at `p` for a condition `y` that it has made true. -/
def Ctx.Wakes (x : Ctx α β) (y : α) (p : Slot) : Prop :=
  y ∈ x.owed ∧ match x.code with
    | .idle => True
    | .scan chan i => chan = .cond y → i ≤ p.val
    | .locked chan i => chan = .cond y → i ≤ p

/-- What becomes of the conditions and of those who wait for them. -/
structure Signals (lockOf : α → Lk β) (s s' : State κ α β) (c : κ) (a a' : Ctl α β) : Prop where
  owed : (∀ y ∈ a.ctx.owed, lockOf y ∈ a.spins) → ∀ y ∈ a'.ctx.owed, lockOf y ∈ a'.spins
  cond : ∀ y, s'.cond y = s.cond y ∨ lockOf y ∈ a.spins ∧ a'.waits = none ∧ (s'.cond y = true → ∀ p, a'.ctx.Wakes y p)
  wakes : ∀ y p, a.ctx.Wakes y p → a'.ctx.Wakes y p ∨ s'.cond y = false ∨ a'.falls = none ∧
    (s'.cpuProc c = some p ∧ a'.runs = a'.proc ∨
      p ∈ a.locks ∧ ¬((s'.proc p).state = .sleeping ∧ (s'.proc p).chan = some (.cond y)))
  waits : ∀ chan lk, a'.waits = some (chan, lk) → a' = a ∨ s.mayWait lockOf lk chan ∧ s'.cond = s.cond
  falls : ∀ chan, a'.falls = some chan → a' = a ∨ ∃ lk, a.waits = some (chan, lk) ∧ s'.cond = s.cond

structure Turn (lockOf : α → Lk β) (s s' : State κ α β) (c : κ) (a : Ctl α β) : Prop where
  ctl : s'.ctl = Function.update s.ctl c a
  lock : Delta s.lock c (s.ctl c).locks a.locks s'.lock
  spin : Delta s.spin c (s.ctl c).spins a.spins s'.spin
  change : Change s s' c (s.ctl c) a
  signals : Signals lockOf s s' c (s.ctl c) a

end

variable {κ α β : Type} [DecidableEq β] {lockOf : α → Lk β} {s s' : State κ α β} {c : κ} {a a' : Ctl α β} {p q : Slot}

/-- A step that does not touch the conditions, nor the debts of the code. -/
theorem Signals.plain (hcond : s'.cond = s.cond) (howed : a'.ctx = a.ctx ∧ a'.spins = a.spins ∨ a.ctx.owed = [] ∧ a'.ctx.owed = [])
    (hwaits : a'.waits = none) (hfalls : a'.falls = none) : Signals lockOf s s' c a a' := by
  refine ⟨fun h => ?_, fun y => .inl (by rw [hcond]), fun y p hw => ?_, fun chan lk h => ?_, fun chan h => ?_⟩
  · obtain ⟨hctx, hspins⟩ | ⟨-, h'⟩ := howed
    · rwa [hctx, hspins]
    · rw [h']
      exact fun y hy => absurd hy not_mem_nil
  · obtain ⟨hctx, -⟩ | ⟨h', -⟩ := howed
    · exact .inl (hctx ▸ hw)
    · exact absurd (h' ▸ hw.1) not_mem_nil
  · rw [hwaits] at h
    cases h
  · rw [hfalls] at h
    cases h

theorem Same.refl (pr : Proc α) : Same pr pr := ⟨rfl, rfl⟩

variable {f : Slot → Proc α} {pr : Proc α} {x x' : Ctx α β} {y : α} {lk : Lk β} {chan : Chan α} {i : Slot}
  {k : Base β} {pc pc' : SchedPc} {lock' : Slot → Option κ} {spin' : Lk β → Option κ} {held : List (Lk β)}
  {owed : List α} {o : LockedOp} {r : Alloc} {act : Act α β} {best : Option Slot} {b : Policy}

theorem same_update {r : Slot} (h : r ≠ q) : Same (f r) (update f q pr r) := by
  rw [update_of_ne h]
  exact .refl _

theorem same_update_of (h : Same (f q) pr) (r : Slot) :
    Same (f r) (update f q pr r) := by
  by_cases hr : r = q
  · subst hr
    rwa [update_self]
  · exact same_update hr

/-! ### Kernel code -/

/-- A step of the code `x`, wherever it runs. -/
structure CtxTurn (lockOf : α → Lk β) (s s' : State κ α β) (c : κ) (x x' : Ctx α β) : Prop where
  ctl : s'.ctl = s.ctl := by rfl
  context : s'.context = s.context := by rfl
  cpuProc : s'.cpuProc = s.cpuProc := by rfl
  lock : Delta s.lock c x.code.locks x'.code.locks s'.lock
  spin : Delta s.spin c x.held x'.held s'.spin := by exact .keep rfl
  slots : (∀ q, Same (s.proc q) (s'.proc q)) ∨
    ∃ q ∈ x.code.locks, (∀ r ≠ q, Same (s.proc r) (s'.proc r)) ∧ Shift (s.proc q) (s'.proc q) := by exact .inl fun _ => .refl _
  owed : (∀ y ∈ x.owed, lockOf y ∈ x.held) → ∀ y ∈ x'.owed, lockOf y ∈ x'.held := by exact id
  cond : ∀ y, s'.cond y = s.cond y ∨ lockOf y ∈ x.held ∧ (s'.cond y = true → ∀ p, x'.Wakes y p) := by exact fun _ => .inl rfl
  wakes : ∀ y p, x.Wakes y p → x'.Wakes y p ∨ s'.cond y = false ∨ s'.cpuProc c = some p ∨
    p ∈ x.code.locks ∧ ¬((s'.proc p).state = .sleeping ∧ (s'.proc p).chan = some (.cond y))

omit [DecidableEq β] in
theorem Ctx.wakes_idle (hcode : x.code = .idle) (p : Slot) : x.Wakes y p ↔ y ∈ x.owed := by
  simp [Wakes, hcode]

theorem acquire_turn (hfree : s.spin lk = none) :
    CtxTurn lockOf s (s.setSpin lk (some c)) c x { x with held := lk :: x.held } where
  lock := .keep rfl
  spin := .acquire lk hfree rfl
  owed h y hy := mem_cons_of_mem _ (h y hy)
  wakes _ _ hw := .inl hw

theorem release_turn (hmem : lk ∈ x.held) (howed : ∀ y ∈ x.owed, lockOf y ≠ lk) :
    CtxTurn lockOf s (s.setSpin lk none) c x { x with held := x.held.filter (· ≠ lk) } where
  lock := .keep rfl
  spin := .release lk hmem fun hnodup => ⟨hnodup.filter _, fun j => by simp [and_comm]⟩
  owed h y hy := mem_filter.mpr ⟨h y hy, decide_eq_true (howed y hy)⟩
  wakes _ _ hw := .inl hw

theorem set_turn [DecidableEq α] {b : Bool} (hcode : x.code = .idle) (hmem : lockOf y ∈ x.held) :
    CtxTurn lockOf s (s.setCond y b) c x
      { x with owed := if b then (if s.cond y then x.owed else y :: x.owed) else x.owed.filter (· ≠ y) } where
  lock := .keep rfl
  owed h z hz := by
    by_cases hzy : z = y
    · exact hzy ▸ hmem
    · refine h z ?_
      split_ifs at hz
      · exact hz
      · exact (mem_cons.mp hz).resolve_left hzy
      · exact (mem_filter.mp hz).1
  cond z := by
    by_cases hzy : z = y
    · subst hzy
      refine (eq_or_ne b (s.cond z)).imp (fun h => ?_) fun h => ⟨hmem, fun htrue p => (Ctx.wakes_idle (by exact hcode) p).mpr ?_⟩
      · rw [← h]
        exact update_self _ _ _
      · -- the condition was false
        have hb : b = true := by simpa [State.setCond] using htrue
        subst hb
        rw [if_pos rfl, if_neg (fun h' => h h'.symm)]
        exact mem_cons_self
    · exact .inl (update_of_ne hzy _ _)
  wakes z p hw := by
    by_cases hz : z = y ∧ b = false
    · obtain ⟨rfl, rfl⟩ := hz
      exact .inr (.inl (update_self _ _ _))
    · refine .inl ((Ctx.wakes_idle (by exact hcode) p).mpr ?_)
      have := hw.1
      grind

theorem wakeup_turn (hcode : x.code = .idle) :
    CtxTurn lockOf s s c x { x with code := .scan chan 0 } where
  lock := .keep (by rw [hcode]; rfl)
  wakes _ _ hw := .inl ⟨hw.1, fun _ => Nat.zero_le _⟩

theorem scanSkip_turn (hcode : x.code = .scan chan i)
    (hmine : s.cpuProc c = some i) : CtxTurn lockOf s s c x { x with code := .scan chan (i + 1) } where
  lock := .keep (by rw [hcode]; rfl)
  wakes y p hw := by
    obtain ⟨hy, hle⟩ := hw
    rw [hcode] at hle
    by_cases hp : p = i
    · exact .inr (.inr (.inl (hp ▸ hmine)))
    · exact .inl ⟨hy, fun hchan => Nat.lt_of_le_of_ne (hle hchan) fun h => hp (Fin.ext h.symm)⟩

theorem scanLock_turn (hcode : x.code = .scan chan i) (hfree : s.lock i = none) :
    CtxTurn lockOf s (s.setLock i (some c)) c x { x with code := .locked chan i } where
  lock := .acquire i hfree (by rw [hcode]; rfl)
  wakes y p hw := by
    obtain ⟨hy, hle⟩ := hw
    rw [hcode] at hle
    exact .inl ⟨hy, hle⟩

theorem scanEnd_turn [DecidableEq α] {i : ℕ} (hcode : x.code = .scan chan i) (hi : ¬i < NPROC) :
    CtxTurn lockOf s s c x { x with code := .idle, owed := x.owed.filter fun y => .cond y ≠ chan } where
  lock := .keep (by rw [hcode]; rfl)
  owed h y hy := h y (mem_filter.mp hy).1
  wakes y p hw := by
    obtain ⟨hy, hle⟩ := hw
    rw [hcode] at hle
    have hchan : Chan.cond y ≠ chan := fun h => hi (lt_of_le_of_lt (hle h.symm) p.isLt)
    exact .inl ((Ctx.wakes_idle rfl p).mpr (mem_filter.mpr ⟨hy, decide_eq_true hchan⟩))

theorem Proc.wakeup_shift [DecidableEq α] (chan : Chan α) (pr : Proc α) :
    Same pr (pr.wakeup chan) ∨ Shift pr (pr.wakeup chan) := by
  unfold Proc.wakeup
  split_ifs with h
  · exact .inr (.woken h.1 rfl rfl)
  · exact .inl (.refl _)

theorem Proc.wakeup_awake [DecidableEq α] (chan : Chan α) (pr : Proc α) :
    ¬((pr.wakeup chan).state = .sleeping ∧ (pr.wakeup chan).chan = some chan) := by
  unfold Proc.wakeup
  split_ifs with h
  · rintro ⟨h', -⟩
    cases h'
  · exact h

theorem scanUnlock_turn [DecidableEq α] (hcode : x.code = .locked chan i) :
    CtxTurn lockOf s ((s.setProc i (Proc.wakeup chan)).setLock i none) c x { x with code := .scan chan (i + 1) } where
  lock := .release i (by simp [hcode]) fun _ => by simp [hcode]
  slots := by
    refine (Proc.wakeup_shift chan (s.proc i)).imp same_update_of fun h => ?_
    refine ⟨i, by simp [hcode], fun r hr => same_update hr, ?_⟩
    rwa [← update_self i (Proc.wakeup chan (s.proc i)) s.proc] at h
  wakes y p hw := by
    obtain ⟨hy, hle⟩ := hw
    rw [hcode] at hle
    by_cases hp : p = i
    · subst hp
      by_cases hchan : chan = .cond y
      · subst hchan
        refine .inr (.inr (.inr ⟨by simp [hcode], ?_⟩))
        have := Proc.wakeup_awake (.cond y) (s.proc p)
        rwa [← update_self p (Proc.wakeup (.cond y) (s.proc p)) s.proc] at this
      · exact .inl ⟨hy, fun h => absurd h hchan⟩
    · exact .inl ⟨hy, fun hchan => lt_of_le_of_ne (hle hchan) (Ne.symm hp)⟩

theorem ctxStep_turn [DecidableEq α] {act : CtxAct α β} (h : s.ctxStep lockOf c x act = some (s', x')) :
    CtxTurn lockOf s s' c x x' := by
  unfold State.ctxStep at h
  split at h
  · split at h <;> cases h
    rename_i hg
    exact acquire_turn hg.2
  · split at h <;> cases h
    rename_i hg
    exact release_turn hg.2.1 hg.2.2
  · split at h <;> cases h
    rename_i hg
    exact set_turn hg.1 hg.2
  · split at h <;> cases h
    rename_i hg
    exact wakeup_turn hg
  · split at h
    · cases h
    · rename_i chan i hcode
      split at h
      · rename_i hi
        split at h
        · cases h
          rename_i hmine
          exact scanSkip_turn (i := ⟨i, hi⟩) hcode hmine
        · split at h <;> cases h
          rename_i hfree
          exact scanLock_turn (i := ⟨i, hi⟩) hcode hfree
      · cases h
        rename_i hi
        exact scanEnd_turn hcode hi
    · cases h
      rename_i hcode
      exact scanUnlock_turn hcode

variable [DecidableEq κ]

theorem CtxTurn.thread (h : CtxTurn lockOf s s' c x x') (hc : s.ctl c = .thread p (.base k x)) :
    Turn lockOf s (s'.setCtl c (.thread p (.base k x'))) c (.thread p (.base k x')) := by
  refine ⟨congrArg (update · c _) h.ctl, hc ▸ h.lock, hc ▸ h.spin, hc ▸ ?_, hc ▸ ?_⟩
  · have hstay : Stays s (s'.setCtl c (.thread p (.base k x'))) (.thread p (.base k x)) (.thread p (.base k x')) :=
      ⟨h.context, h.cpuProc, rfl, rfl, rfl⟩
    obtain hsame | ⟨q, hq, hsame, hshift⟩ := h.slots
    · exact .quiet hsame hstay rfl fun b hb => .inl hb
    · exact .slot q hq hsame hshift hstay (nofun) rfl
  · exact ⟨h.owed, fun y => (h.cond y).imp_right fun ⟨h1, h2⟩ => ⟨h1, rfl, h2⟩,
      fun y p hw => (h.wakes y p hw).imp_right (Or.imp_right fun h => ⟨rfl, h.imp_left fun h => ⟨h, rfl⟩⟩),
      nofun, nofun⟩

theorem CtxTurn.sched (h : CtxTurn lockOf s s' c x x') (hc : s.ctl c = .sched pc x)
    (hpc : pc.locks = []) : Turn lockOf s (s'.setCtl c (.sched pc x')) c (.sched pc x') := by
  have hlocks (z : Ctx α β) : (Ctl.sched pc z).locks = z.code.locks := by rw [Ctl.locks, hpc, nil_append]
  refine ⟨congrArg (update · c _) h.ctl, ?_, hc ▸ h.spin, hc ▸ ?_, hc ▸ ?_⟩
  · rw [hc, hlocks, hlocks]
    exact h.lock
  · have hstay : Stays s (s'.setCtl c (.sched pc x')) (.sched pc x) (.sched pc x') :=
      ⟨h.context, h.cpuProc, rfl, rfl, rfl⟩
    obtain hsame | ⟨q, hq, hsame, hshift⟩ := h.slots
    · exact .quiet hsame hstay rfl fun b hb => .inl hb
    · refine .slot q (hlocks x ▸ hq) hsame hshift hstay (nofun) ?_
      cases hbest : (Ctl.sched pc (Ctx.empty : Ctx α β)).best with
      | none => exact hbest
      | some b => exact absurd (hlocks _ ▸ Ctl.mem_locks_of_best hbest) not_mem_nil
  · refine ⟨h.owed, fun y => (h.cond y).imp_right fun ⟨h1, h2⟩ => ⟨h1, rfl, h2⟩,
      fun y p hw => (h.wakes y p hw).imp_right (Or.imp_right fun h => ⟨rfl, h.imp (fun h => ⟨h, ?_⟩) ?_⟩),
      nofun, nofun⟩
    · cases hproc : (Ctl.sched pc (Ctx.empty : Ctx α β)).proc with
      | none => exact hproc.symm
      | some q => exact absurd (hlocks .empty ▸ Ctl.mem_locks_of_proc rfl hproc) not_mem_nil
    · rw [hlocks]
      exact id

/-! ### Threads -/

/-- A thread goes on without touching a slot. -/
theorem Turn.quiet (hlock : Delta s.lock c (s.ctl c).locks a.locks lock')
    (hspin : Delta s.spin c (s.ctl c).spins a.spins spin') (hruns : a.runs = (s.ctl c).runs)
    (hproc : a.proc = (s.ctl c).proc) (hchild : a.child = (s.ctl c).child) (hslept : a.slept = (s.ctl c).slept)
    (hbest : ∀ b, a.best = some b → (s.ctl c).best = some b ∨ b ∈ (s.ctl c).locks ∧ (s.proc b).state = .runnable)
    (hsignals : Signals lockOf s ({ s with lock := lock', spin := spin' }.setCtl c a) c (s.ctl c) a) :
    Turn lockOf s ({ s with lock := lock', spin := spin' }.setCtl c a) c a :=
  ⟨rfl, hlock, hspin, .quiet (fun _ => .refl _) ⟨rfl, rfl, hruns, hproc, hchild⟩ hslept hbest, hsignals⟩

theorem baseGo_turn (hc : s.ctl c = .thread p (.base k .empty)) (h : s.baseGo c p k = some s') :
    ∃ a, Turn lockOf s s' c a := by
  cases k with
  | user => cases h
  | fork i =>
    simp only [State.baseGo] at h
    split at h
    · split at h <;> cases h
      rename_i hi hfree
      refine ⟨_, .quiet (.acquire _ hfree ?_) (.keep ?_) ?_ ?_ ?_ ?_ ?_ (.plain rfl ?_ rfl rfl)⟩
      all_goals simp [hc]
    · cases h
      refine ⟨_, .quiet (.keep ?_) (.keep ?_) ?_ ?_ ?_ ?_ ?_ (.plain rfl ?_ rfl rfl)⟩
      all_goals simp [hc]
  | forkLink np =>
    simp only [State.baseGo] at h
    split at h <;> cases h
    refine ⟨_, rfl, .keep ?_, .keep ?_, .quiet (same_update_of ⟨rfl, rfl⟩) ⟨rfl, rfl, ?_, ?_, ?_⟩ ?_ ?_,
      .plain rfl ?_ rfl rfl⟩
    all_goals simp [hc]
  | forkRun np =>
    simp only [State.baseGo] at h
    split at h <;> cases h
    rename_i hfree
    refine ⟨_, .quiet (.acquire _ hfree ?_) (.keep ?_) ?_ ?_ ?_ ?_ ?_ (.plain rfl ?_ rfl rfl)⟩
    all_goals simp [hc]
  | sleepEnd lk =>
    simp only [State.baseGo] at h
    split at h <;> cases h
    rename_i hfree
    refine ⟨_, .quiet (.keep ?_) (.acquire _ hfree ?_) ?_ ?_ ?_ ?_ ?_ (.plain rfl ?_ rfl rfl)⟩
    all_goals simp [hc]

/-- A thread changes the slot whose lock it holds, and goes on. -/
theorem Turn.slot (n : ℤ) (hc : s.ctl c = .thread p (.locked o q held owed)) (hchild : k.child = (s.ctl c).child)
    (h : Same (s.proc q) pr ∨ Shift (s.proc q) pr) :
    Turn lockOf s ((({ s with nextpid := n }.setProc q fun _ => pr).setLock q none).setCtl c
      (.thread p (.base k ⟨.idle, held, owed⟩))) c (.thread p (.base k ⟨.idle, held, owed⟩)) := by
  have hstay : Stays s ((({ s with nextpid := n }.setProc q fun _ => pr).setLock q none).setCtl c
      (.thread p (.base k ⟨.idle, held, owed⟩))) (s.ctl c) (.thread p (.base k ⟨.idle, held, owed⟩)) :=
    ⟨rfl, rfl, by simp [hc], by simp [hc], by simpa using hchild⟩
  refine ⟨rfl, .release q ?_ ?_, .keep ?_, ?_, .plain rfl (.inl ?_) rfl rfl⟩
  · simp [hc]
  · simp [hc]
  · simp [hc]
  · obtain hsame | hshift := h
    · exact .quiet (same_update_of hsame) hstay (by simp [hc]) nofun
    · refine .slot q (by simp [hc]) (fun r hr => same_update hr) ?_ hstay (by simp [hc]) rfl
      rwa [← update_self q pr s.proc] at hshift
  · simp [hc]

theorem Proc.kill_shift (pid : ℤ) (pr : Proc α) : Same pr (pr.kill pid) ∨ Shift pr (pr.kill pid) := by
  unfold Proc.kill
  split_ifs with h h'
  · exact .inr (.woken h' rfl rfl)
  · exact .inl (.refl _)
  · exact .inl (.refl _)

theorem found_turn {i : ℕ}
    (hc : s.ctl c = .thread p (.locked (.alloc i) q held owed)) (hunused : (s.proc q).state = .unused) :
    ∃ a, Turn lockOf s (s.found c p q ⟨.idle, held, owed⟩ r) c a := by
  cases r with
  | ok =>
    refine ⟨_, rfl, .release q ?_ ?_, .keep ?_, .adopt p q ?_ (fun r hr => same_update hr) hunused ?_ ?_
      (update_apply _ _ _) rfl ?_ rfl rfl ?_,
      .plain rfl (.inl ?_) rfl rfl⟩
    all_goals simp [hc, State.found, State.setProc, State.setContext, State.setLock, State.setCtl]
  | noMemory => exact ⟨_, .slot _ hc (by simp [hc]) (.inr (.freed (.inl hunused) rfl rfl))⟩
  | noCopy => exact ⟨_, .slot _ hc (by simp [hc]) (.inr (.used hunused rfl rfl))⟩

theorem unlock_turn (hc : s.ctl c = .thread p (.locked o q held owed)) (hchild : k.child = (s.ctl c).child) :
    Turn lockOf s ((s.setLock q none).setCtl c (.thread p (.base k ⟨.idle, held, owed⟩))) c
      (.thread p (.base k ⟨.idle, held, owed⟩)) := by
  refine .quiet (.release q ?_ ?_) (.keep ?_) ?_ ?_ hchild ?_ ?_ (.plain rfl (.inl ?_) rfl rfl)
  all_goals simp [hc]

theorem lockedGo_turn (hc : s.ctl c = .thread p (.locked o q held owed)) :
    ∃ a, Turn lockOf s (s.lockedGo c p q ⟨.idle, held, owed⟩ r o) c a := by
  cases o with
  | kill pid => exact ⟨_, .slot s.nextpid hc (by simp [hc]) (Proc.kill_shift pid _)⟩
  | alloc i =>
    simp only [State.lockedGo]
    split
    · rename_i hunused
      exact found_turn hc hunused
    · exact ⟨_, unlock_turn hc (by simp [hc])⟩
  | start =>
    refine ⟨_, rfl, .release q ?_ ?_, .keep ?_, .start p q ?_ (fun r hr => same_update hr) ?_ ?_ rfl rfl ?_ rfl ?_ rfl ?_,
      .plain rfl (.inl ?_) rfl rfl⟩
    all_goals simp [hc, State.lockedGo, State.setProc, State.setLock, State.setCtl]
  | reap =>
    simp only [State.lockedGo]
    split
    · rename_i hzombie
      exact ⟨_, .slot s.nextpid hc (by simp [hc]) (.inr (.freed (.inr hzombie.1) rfl rfl))⟩
    · exact ⟨_, unlock_turn hc (by simp [hc])⟩

theorem resumedGo_turn {r : Resume α β} (hc : s.ctl c = .thread p (.resumed r)) :
    ∃ a, Turn lockOf s (s.resumedGo c p r) c a := by
  cases r with
  | forkret | yielded k w =>
    refine ⟨_, .quiet (.release p ?_ ?_) (.keep ?_) ?_ ?_ ?_ ?_ ?_ (.plain rfl ?_ rfl rfl)⟩
    all_goals simp [hc, Resume.isSlept]
  | slept lk =>
    refine ⟨_, rfl, .release p ?_ ?_, .keep ?_, .slot p ?_ (fun r hr => same_update hr) (.cleared ?_ ?_)
      ⟨rfl, rfl, ?_, ?_, ?_⟩ (fun _ => ⟨?_, ?_⟩) rfl, .plain rfl ?_ rfl rfl⟩
    all_goals simp [hc, State.resumedGo, State.setProc, State.setLock, State.setCtl]

theorem lockFor_turn {pc pc' : Pc α β} (hc : s.ctl c = .thread p pc) (h : s.lockFor c p q pc' = some s')
    (hlocks : (Ctl.thread p pc').locks = q :: (s.ctl c).locks) (hspins : (Ctl.thread p pc').spins = (s.ctl c).spins)
    (hchild : (Ctl.thread p pc').child = (s.ctl c).child) (hslept : (Ctl.thread p pc').slept = (s.ctl c).slept)
    (hsignals : Signals lockOf s s' c (s.ctl c) (.thread p pc')) : Turn lockOf s s' c (.thread p pc') := by
  unfold State.lockFor at h
  split at h <;> cases h
  rename_i hfree
  exact .quiet (.acquire q hfree hlocks) (.keep hspins) (by simp [hc]) (by simp [hc]) hchild hslept (nofun)
    hsignals

omit [DecidableEq β] in
theorem lockFor_cond {pc : Pc α β} (h : s.lockFor c p q pc = some s') : s'.cond = s.cond := by
  unfold State.lockFor at h
  split at h <;> cases h
  rfl

theorem sleep_turn (hc : s.ctl c = .thread p (.base .user ⟨.idle, [lk], []⟩))
    (hmay : s.mayWait lockOf lk chan) (h : s.lockFor c p p (.sleepLocked chan lk) = some s') :
    Turn lockOf s s' c (.thread p (.sleepLocked chan lk)) := by
  have hcond := lockFor_cond h
  refine lockFor_turn hc h ?_ ?_ ?_ ?_ ⟨fun _ y hy => ?_, fun y => .inl (by rw [hcond]), fun y q hw => ?_, fun chan' lk' h => ?_,
    nofun⟩
  · simp [hc]
  · simp [hc]
  · simp [hc]
  · simp [hc]
  · exact absurd hy not_mem_nil
  · rw [hc] at hw
    exact absurd hw.1 not_mem_nil
  · cases h
    exact .inr ⟨hmay, hcond⟩

/-- A thread goes back to the scheduler and leaves its slot as `pr`. -/
theorem swtchBack_turn (pr : Proc α) {pc : Pc α β} {r : Option (Resume α β)}
    (hc : s.ctl c = .thread p pc) (hlocks : (s.ctl c).locks = [p]) (hspin : Delta s.spin c (s.ctl c).spins [] spin')
    (h : pr.state = .runnable ∨ pr.state = .sleeping ∨ pr.state = .zombie) (hr : r = none → pr.state = .zombie)
    (hchild : r.bind Resume.child = (s.ctl c).child)
    (hchan : pr.state ≠ .sleeping ∧ pr.chan = (s.proc p).chan ∧ (s.ctl c).slept = false ∨
      pr.state = .sleeping ∧ ∃ chan lk, r = some (.slept lk) ∧ pr.chan = some chan ∧ (s.ctl c).falls = some chan)
    (howed : (s.ctl c).ctx.owed = []) :
    ∃ a, Turn lockOf s (({ s with spin := spin' }.setProc p fun _ => pr).swtchBack c p r) c a := by
  refine ⟨_, rfl, .keep ?_, hspin, .leave p r ?_ (fun r hr => same_update hr) ?_ rfl rfl rfl ?_ ?_ hchild ?_
    (update_apply _ _ _) rfl,
    .plain rfl (.inr ⟨howed, rfl⟩) rfl rfl⟩
  · rw [hlocks]
    rfl
  · rw [hlocks]
    exact mem_singleton_self p
  · simp [hc]
  · simpa [State.swtchBack, State.setProc, State.setContext, State.setCtl] using h
  · simpa [State.swtchBack, State.setProc, State.setContext, State.setCtl] using hr
  · simpa [State.swtchBack, State.setProc, State.setContext, State.setCtl] using hchan

theorem threadStep_turn [DecidableEq α] {pc : Pc α β} (hc : s.ctl c = .thread p pc)
    (h : s.threadStep lockOf c p pc act = some s') : ∃ a, Turn lockOf s s' c a := by
  unfold State.threadStep at h
  split at h
  · obtain ⟨⟨t, x'⟩, ht, rfl⟩ := Option.map_eq_some_iff.mp h
    exact ⟨_, (ctxStep_turn ht).thread hc⟩
  · split at h
    · rename_i hx
      exact baseGo_turn (hx ▸ hc) h
    · cases h
  · -- `yield`
    obtain ⟨w, hw, hlock⟩ := Option.bind_eq_some_iff.mp h
    have hx := Ctx.suspend_eq hw
    refine ⟨_, lockFor_turn hc hlock ?_ ?_ ?_ ?_ (.plain (lockFor_cond hlock) (.inr ?_) rfl rfl)⟩
    all_goals simp [hc, hx]
  · split at h
    · rename_i hx
      exact ⟨_, sleep_turn (hx.1 ▸ hc) hx.2 h⟩
    · cases h
  · split at h <;> cases h
    rename_i hx
    refine ⟨_, .quiet (.keep ?_) (.keep ?_) ?_ ?_ ?_ ?_ ?_ (.plain rfl ?_ rfl rfl)⟩
    all_goals simp [hc, hx]
  · split at h
    · rename_i hx
      refine ⟨_, lockFor_turn hc h ?_ ?_ ?_ ?_ (.plain (lockFor_cond h) (.inr ?_) rfl rfl)⟩
      all_goals simp [hc, hx]
    · cases h
  · split at h
    · rename_i x q hx
      obtain ⟨code, held, owed⟩ := x
      obtain rfl : code = .idle := hx.1
      refine ⟨_, lockFor_turn hc h ?_ ?_ ?_ ?_ (.plain (lockFor_cond h) (.inl ⟨?_, ?_⟩) rfl rfl)⟩
      all_goals simp [hc]
    · cases h
  · -- `reparent`
    split at h <;> cases h
    refine ⟨_, (update_eq_self c s.ctl).symm, .keep rfl, .keep rfl,
      .quiet (same_update_of ⟨rfl, rfl⟩) ⟨rfl, rfl, rfl, rfl, rfl⟩ rfl fun b hb => .inl hb, .plain rfl (.inl ⟨rfl, rfl⟩) ?_ ?_⟩
    all_goals simp [hc]
  · split at h
    · rename_i hx
      refine ⟨_, lockFor_turn hc h ?_ ?_ ?_ ?_ (.plain (lockFor_cond h) (.inr ?_) rfl rfl)⟩
      all_goals simp [hc, hx.1]
    · cases h
  · cases h
    exact lockedGo_turn hc
  · cases h
    refine swtchBack_turn { s.proc p with state := .runnable } hc ?_ (.keep ?_) (.inl rfl) (nofun) ?_ (.inl ⟨?_, rfl, ?_⟩) ?_
    all_goals simp [hc]
  · cases h
    exact resumedGo_turn hc
  · -- `release(lk)` in `sleep`
    cases h
    refine ⟨_, .quiet (.keep ?_) (.release _ ?_ ?_) ?_ ?_ ?_ ?_ ?_ ⟨fun _ y hy => ?_, fun y => .inl rfl, fun y q hw => ?_,
      nofun, fun chan' h => ?_⟩⟩
    · simp [hc]
    · simp [hc]
    · simp [hc]
    · simp [hc]
    · simp [hc]
    · simp [hc]
    · simp [hc]
    · simp [hc]
    · exact absurd hy not_mem_nil
    · rw [hc] at hw
      exact absurd hw.1 not_mem_nil
    · cases h
      exact .inr ⟨_, by rw [hc]; rfl, rfl⟩
  · cases h
    refine swtchBack_turn { s.proc p with chan := some _, state := .sleeping } hc ?_ (.keep ?_) (.inr (.inl rfl)) (nofun) ?_
      (.inr ⟨rfl, _, _, rfl, rfl, ?_⟩) ?_
    all_goals simp [hc]
  · cases h
    refine ⟨_, .quiet (.keep ?_) (.keep ?_) ?_ ?_ ?_ ?_ ?_ (.plain rfl (.inr ?_) rfl rfl)⟩
    all_goals simp [hc]
  · cases h
    refine swtchBack_turn { s.proc p with state := .zombie } hc ?_ (.release .waitLock ?_ ?_) (.inr (.inr rfl)) (fun _ => rfl) ?_
      (.inl ⟨?_, rfl, ?_⟩) ?_
    all_goals simp [hc]
  · cases h

/-! ### Schedulers -/

section

variable (hc : s.ctl c = .sched pc .empty)

include hc

/-- A scheduler goes on, with its locks. -/
theorem Turn.scan (hproc : pc.proc = none) (hproc' : pc'.proc = none)
    (hlock : Delta s.lock c pc.locks pc'.locks lock')
    (hbest : ∀ b, pc'.best = some b → pc.best = some b ∨ b ∈ pc.locks ∧ (s.proc b).state = .runnable) :
    Turn lockOf s ({ s with lock := lock' }.setCtl c (.sched pc' .empty)) c (.sched pc' .empty) := by
  refine .quiet ?_ (.keep ?_) ?_ ?_ ?_ ?_ ?_ (.plain rfl ?_ rfl rfl)
  · simpa [hc] using hlock
  · simp [hc]
  · simp [hc]
  · rw [hc]
    exact hproc'.trans hproc.symm
  · simp [hc]
  · simp [hc]
  · simpa [hc] using hbest
  · simp [hc]

theorem schedLock_turn (h : s.schedLock c q pc' = some s')
    (hproc : pc.proc = none) (hproc' : pc'.proc = none) (hlocks : pc'.locks = q :: pc.locks) (hbest : pc'.best = pc.best) :
    ∃ a, Turn lockOf s s' c a := by
  unfold State.schedLock at h
  split at h <;> cases h
  rename_i hfree
  exact ⟨_, .scan hc hproc hproc' (.acquire q hfree hlocks) fun b hb => .inl (hbest ▸ hb)⟩

theorem choose_turn {f : Xv6.Proc → Xv6.Proc}
    (h : s.choose c p f = some s') (hproc : pc.proc = none) (hlocks : pc.locks = [p])
    (hstate : pc.best = some p ∨ (s.proc p).state = .runnable) : ∃ a, Turn lockOf s s' c a := by
  obtain ⟨r, hr, rfl⟩ := Option.map_eq_some_iff.mp h
  refine ⟨_, rfl, .keep ?_, .keep ?_, .enter p r ?_ (fun q hq => same_update hq) ?_ ?_ ?_ hr
    (update_apply _ _ _) (update_apply _ _ _) ?_ ?_ rfl rfl rfl,
    .plain rfl ?_ rfl rfl⟩
  · simp [hc, hlocks]
  · simp [hc]
  · simp [hc, hlocks]
  · simpa [hc] using hstate
  · simp [State.setProc, State.setCpuProc, State.setContext, State.setCtl]
  · simp [State.setProc, State.setCpuProc, State.setContext, State.setCtl]
  · simp [hc]
  · simpa [hc] using hproc
  · simp [hc]

theorem schedKeep_turn (hproc : pc.proc = none) (hproc' : pc'.proc = none)
    (hlocks : pc.locks = i :: best.toList) (hlocks' : pc'.locks = [i])
    (hbest : pc'.best = some i) (hi : (s.proc i).state = .runnable) :
    ∃ a, Turn lockOf s (s.schedKeep c best pc') c a := by
  have hmem : ∀ b, pc'.best = some b → pc.best = some b ∨ b ∈ pc.locks ∧ (s.proc b).state = .runnable := by
    intro b hb
    obtain rfl := Option.some.inj (hbest.symm.trans hb)
    exact .inr ⟨hlocks ▸ mem_cons_self, hi⟩
  cases best with
  | none => exact ⟨_, .scan hc hproc hproc' (.keep (by rw [hlocks, hlocks']; rfl)) hmem⟩
  | some b =>
    refine ⟨_, .scan hc hproc hproc' (.release b ?_ ?_) hmem⟩
    · simp [hlocks]
    · rw [hlocks, hlocks']
      intro hnodup
      have hne : i ≠ b := by simpa using hnodup
      exact ⟨nodup_singleton i, fun j => by grind⟩

theorem schedUnlock_turn (hproc : pc.proc = none) (hproc' : pc'.proc = none) (hlocks : pc.locks = q :: best.toList)
    (hlocks' : pc'.locks = best.toList) (hbest : pc'.best = pc.best) :
    ∃ a, Turn lockOf s (s.schedUnlock c q pc') c a := by
  refine ⟨_, .scan hc hproc hproc' (.release q ?_ ?_) fun b hb => .inl (hbest ▸ hb)⟩
  · simp [hlocks]
  · rw [hlocks, hlocks']
    intro hnodup
    have := nodup_cons.mp hnodup
    exact ⟨this.2, fun j => by grind⟩

theorem top_turn (hproc : pc.proc = none)
    (hlocks : pc.locks = []) : ∃ a, Turn lockOf s (s.setCtl c (.sched (State.top b) .empty)) c a := by
  refine ⟨_, .scan hc hproc ?_ (.keep ?_) ?_⟩
  · cases b <;> rfl
  · rw [hlocks]
    cases b <;> rfl
  · cases b <;> exact nofun

theorem schedEnd_turn {f : Xv6.Proc → Xv6.Proc} (h : s.schedEnd b c best f = some s') (hproc : pc.proc = none)
    (hlocks : pc.locks = best.toList) (hbest : pc.best = best) : ∃ a, Turn lockOf s s' c a := by
  cases best with
  | none =>
    cases h
    exact top_turn hc hproc hlocks
  | some p => exact choose_turn hc h hproc hlocks (.inl hbest)

end

theorem back_turn (hc : s.ctl c = .sched (.back p) .empty) (hlocks : pc.locks = [])
    (hproc : pc.proc = none) (hbest : pc.best = none) :
    ∃ a, Turn lockOf s ((s.setCpuProc c none).schedUnlock c p pc) c a := by
  have hback : (SchedPc.back p).locks = [p] := rfl
  refine ⟨_, rfl, .release p ?_ ?_, .keep ?_, .back (fun _ => .refl _) rfl
    (update_apply _ _ _) ?_ rfl hproc hbest, .plain rfl ?_ rfl rfl⟩
  all_goals simp [hc, hlocks, hback]

theorem schedGo_turn [DecidableEq α] {rand : ℤ} (hc : s.ctl c = .sched pc .empty)
    (h : s.schedGo b c rand pc = some s') : ∃ a, Turn lockOf s s' c a := by
  cases pc with
  | rr i | lbs i ans passed =>
    simp only [State.schedGo] at h
    split at h
    · exact schedLock_turn hc h rfl rfl rfl rfl
    · cases h
      exact top_turn hc rfl rfl
  | rrLocked i =>
    simp only [State.schedGo] at h
    split at h
    · rename_i hrun
      exact choose_turn hc h rfl rfl (.inr hrun)
    · cases h
      exact @schedUnlock_turn _ _ _ _ _ _ _ _ _ _ none _ hc rfl rfl rfl rfl rfl
  | fcfs i best | pbs i best dp =>
    simp only [State.schedGo] at h
    split at h
    · exact schedLock_turn hc h rfl rfl rfl rfl
    · exact schedEnd_turn hc h rfl rfl rfl
  | fcfsLocked i best | pbsLocked i best dp =>
    simp only [State.schedGo] at h
    split at h
    · cases h
      rename_i hbetter
      exact schedKeep_turn hc rfl rfl rfl rfl rfl hbetter.1
    · cases h
      exact schedUnlock_turn hc rfl rfl rfl rfl rfl
  | lbsCount i tot =>
    simp only [State.schedGo] at h
    split at h
    all_goals
      cases h
      exact ⟨_, .scan hc rfl rfl (.keep rfl) nofun⟩
  | lbsLocked i ans passed =>
    simp only [State.schedGo] at h
    split at h
    · rename_i hrun
      split at h
      · exact choose_turn hc h rfl rfl (.inr hrun)
      · cases h
        exact @schedUnlock_turn _ _ _ _ _ _ _ _ _ _ none _ hc rfl rfl rfl rfl rfl
    · cases h
      exact @schedUnlock_turn _ _ _ _ _ _ _ _ _ _ none _ hc rfl rfl rfl rfl rfl
  | back p =>
    cases h
    refine back_turn hc ?_ ?_ ?_
    all_goals cases b <;> rfl

theorem schedStep_turn [DecidableEq α] (hc : s.ctl c = .sched pc x)
    (h : s.schedStep lockOf b c pc x act = some s') : ∃ a, Turn lockOf s s' c a := by
  unfold State.schedStep at h
  split at h
  · split at h
    · rename_i hpc
      obtain ⟨⟨t, x'⟩, ht, rfl⟩ := Option.map_eq_some_iff.mp h
      exact ⟨_, (ctxStep_turn ht).sched hc hpc⟩
    · cases h
  · split at h
    · rename_i hx
      exact schedGo_turn (hx ▸ hc) h
    · cases h
  · cases h

theorem data_turn {d : Xv6.Proc} :
    Turn lockOf s (s.setProc q fun pr => { pr with toProc := { d with state := pr.state, pid := pr.pid } }) c (s.ctl c) := by
  refine ⟨(update_eq_self c s.ctl).symm, .keep rfl, .keep rfl,
    .quiet (same_update_of ⟨rfl, rfl⟩) ⟨rfl, rfl, rfl, rfl, rfl⟩ rfl fun b hb => .inl hb, ?_⟩
  exact ⟨id, fun y => .inl rfl, fun y p hw => .inl hw, fun chan lk h => .inl rfl, fun chan h => .inl rfl⟩

theorem step_turn [DecidableEq α] {e : κ × Act α β} (h : s.step lockOf b e = some s') : ∃ a, Turn lockOf s s' e.1 a := by
  obtain ⟨c, act⟩ := e
  unfold State.step at h
  split at h
  · cases h
    exact ⟨_, data_turn⟩
  · split at h
    · rename_i hc
      exact schedStep_turn hc h
    · rename_i hc
      exact threadStep_turn hc h

end Xv6.Cpus
