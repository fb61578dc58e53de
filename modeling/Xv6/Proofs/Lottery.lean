import Xv6.Sanity.Slices

/-! The lottery scheduler. `getrand` returns 0 in every run, so that an iteration selects the first RUNNABLE process at
which the tickets passed, added up in an `int`, are positive; there need not be one. -/

namespace Xv6

open Prog Function List

/-! ### The seed -/

/-- The seeds that `getrand` goes through from 37 on. -/
def seeds : List ℤ := [37, 69, 61, 21, 41, 81]

def Seeded (s : Sched) : Prop := s.seed ∈ seeds

/-- A program that leaves the seed in that cycle, also when it faults. -/
abbrev KeepsSeed {α : Type} (x : SchedM α) : Prop := Keeps Seeded x fun _ => Seeded

variable {seed ans passed : ℤ} {view : Slot → Proc} {ps : List Slot} {q : Slot}

theorem nextSeed_mem (h : seed ∈ seeds) : Int.tmod (int32 (seed * seed)) 100 ∈ seeds := by
  revert seed
  decide

/-- No seed of the cycle is 99. -/
theorem rand_zero (h : seed ∈ seeds) (tot : ℤ) :
    int32 (Int.tdiv (Int.tmod (int32 (seed * seed)) 100) 99 * tot) = 0 := by
  have hquot : ∀ seed ∈ seeds, Int.tdiv (Int.tmod (int32 (seed * seed)) 100) 99 = 0 := by decide
  rw [hquot seed h, zero_mul]
  rfl

theorem seed_modify {f : Sched → Sched} (h : ∀ s, (f s).seed = s.seed) : KeepsSeed (modify f) :=
  keeps_modify fun s hs => by
    unfold Seeded
    rwa [h s]

theorem seed_acquire (c : Cpu) (p : Slot) : KeepsSeed (acquire c p) :=
  keeps_acquire (I := Seeded) (fun _ _ h => h) (fun _ h => h) (fun _ h => h) c p

theorem seed_release (c : Cpu) (p : Slot) : KeepsSeed (release c p) :=
  keeps_release (I := Seeded) (fun _ _ h => h) (fun _ h => h) c p

theorem seed_lasts : Lasts Seeded fun _ => Seeded where
  proc _ _ _ _ h := h
  tick _ h := h
  pid _ _ h := h
  note _ _ _ h := h
  push p := by
    refine holds_conseq (holds_push (I := Seeded) (fun _ _ h => h) (fun _ _ h => h) (some p)) ?_ fun _ _ h => h
    rintro t ⟨s, hs, rfl⟩
    exact hs

theorem seed_runChosen (c : Cpu) (p : Slot) : KeepsSeed (runChosen c p) := by
  refine keeps_bind (seed_modify fun _ => rfl) fun _ => keeps_bind (seed_modify fun _ => rfl) fun _ =>
    keeps_bind ?_ fun _ => seed_modify fun _ => rfl
  refine keeps_bind (keeps_gets _) fun script => ?_
  cases script with
  | nil => exact keeps_fail fun _ h => h
  | cons sl rest =>
    exact keeps_bind (seed_modify fun _ => rfl) fun _ => keeps_bind (seed_lasts.events p sl.events) fun _ =>
      keeps_bind (seed_modify fun _ => rfl) fun _ => keeps_bind (seed_modify fun _ => rfl) fun _ =>
      seed_modify fun _ => rfl

theorem seed_getrand (tot : ℤ) : KeepsSeed (getrand tot) := by
  intro s hs
  exact nextSeed_mem hs

theorem seed_pass (c : Cpu) : KeepsSeed (pass .lbs c) := by
  refine keeps_bind (keeps_gets _) fun tot => keeps_bind (seed_getrand tot) fun ans =>
    keeps_bind (keeps_scanLbs (seed_acquire c) (seed_release c) ans _ 0) fun found => ?_
  cases found with
  | none => exact keeps_pure _
  | some p => exact keeps_bind (seed_runChosen c p) fun _ => seed_release c p

theorem seed_prog (c : Cpu) (e : SysEvent) : KeepsSeed (e.prog .lbs c) := by
  cases e with
  | pass script => exact keeps_bind (seed_modify fun _ => rfl) fun _ => seed_pass c
  | tick => exact seed_modify fun _ => rfl
  | wakeup q => exact seed_lasts.wake q

theorem settle_sched (t : Kernel) (c : Cpu) (r : Outcome Sched SchedFault Unit) : (t.settle c r).sched = r.state := by
  cases r with
  | ok a s => rfl
  | fault e s => cases e <;> rfl

theorem seed_run {es : List (Cpu × SysEvent)} {t : Kernel} (h : Kernel.run .lbs es = some t) : Seeded t.sched := by
  have hboot : Seeded Kernel.boot.sched := by
    unfold Seeded
    decide +kernel
  refine @System.exec_invariant _ _ (Kernel.step .lbs) (fun t => Seeded t.sched) _ hboot (fun t e t' ht hs => ?_) es t h
  unfold Kernel.step at hs
  split_ifs at hs
  cases hs
  have hprog := seed_prog e.1 e.2 t.sched ht
  rw [settle_sched]
  cases hr : e.2.prog .lbs e.1 t.sched with
  | ok a s | fault f s =>
    rwa [hr] at hprog

/-! ### The draw -/

theorem draw_runnable (h : draw view ans ps passed = some q) : (view q).state = .runnable := by
  induction ps generalizing passed with
  | nil => cases h
  | cons p ps ih =>
    unfold draw at h
    split_ifs at h with hp hpassed
    · cases h
      exact hp
    · exact ih h
    · exact ih h

/-- The running sum from `passed` on. -/
def ticketsFrom (view : Slot → Proc) (passed : ℤ) (ps : List Slot) : ℤ :=
  ps.foldl (fun t p => if (view p).state = .runnable then int32 (t + (view p).tickets) else t) passed

/-- Somebody is drawn exactly if the running sum exceeds `ans` at a RUNNABLE process. -/
theorem draw_isSome_iff :
    (∃ q, draw view ans ps passed = some q) ↔
      ∃ pre q post, ps = pre ++ q :: post ∧ (view q).state = .runnable ∧ ans < ticketsFrom view passed (pre ++ [q]) := by
  induction ps generalizing passed with
  | nil => simp [draw]
  | cons p ps ih =>
    have hcons : (∃ pre q post, p :: ps = pre ++ q :: post ∧ (view q).state = .runnable ∧
          ans < ticketsFrom view passed (pre ++ [q])) ↔
        ((view p).state = .runnable ∧ ans < ticketsFrom view passed [p]) ∨
          ∃ pre q post, ps = pre ++ q :: post ∧ (view q).state = .runnable ∧
            ans < ticketsFrom view (ticketsFrom view passed [p]) (pre ++ [q]) := by
      constructor
      · rintro ⟨pre, q, post, hsplit, hq, hlt⟩
        cases pre with
        | nil =>
          cases hsplit
          exact .inl ⟨hq, hlt⟩
        | cons x pre =>
          cases hsplit
          exact .inr ⟨pre, q, post, rfl, hq, hlt⟩
      · rintro (⟨hp, hlt⟩ | ⟨pre, q, post, hsplit, hq, hlt⟩)
        · exact ⟨[], p, ps, rfl, hp, hlt⟩
        · exact ⟨p :: pre, q, post, by rw [hsplit]; rfl, hq, hlt⟩
    rw [hcons, ← ih, draw]
    by_cases hp : (view p).state = .runnable
    · have hsum : ticketsFrom view passed [p] = int32 (passed + (view p).tickets) := by simp [ticketsFrom, hp]
      rw [hsum, if_pos hp]
      by_cases hgt : ans < int32 (passed + (view p).tickets)
      · simp [hgt, hp]
      · simp [hgt]
    · have hsum : ticketsFrom view passed [p] = passed := by simp [ticketsFrom, hp]
      rw [hsum, if_neg hp]
      simp [hp]

theorem length_split {pre post : List Slot} (h : List.finRange NPROC = pre ++ q :: post) : pre.length = q := by
  have hlen : pre.length < NPROC := by
    have := congrArg List.length h
    simp only [length_finRange, length_append, length_cons] at this
    omega
  have hget : (List.finRange NPROC)[pre.length]? = some q := by
    rw [h, List.getElem?_append_right le_rfl, Nat.sub_self]
    rfl
  rw [List.getElem?_eq_getElem (by simpa using hlen), getElem_finRange] at hget
  rw [← Option.some.inj hget]
  rfl

theorem mem_split (pre post : List Slot) (h : List.finRange NPROC = pre ++ q :: post) :
    pre ++ [q] = (List.finRange NPROC).take (q.val + 1) := by
  rw [h, ← length_split h, take_append, take_of_length_le (by omega)]
  simp

/-- In every run, an iteration selects a RUNNABLE process exactly if at some RUNNABLE process that its second loop meets
the tickets passed, added up in an `int`, are positive. -/
theorem lottery_selects_iff (es : List (Cpu × SysEvent)) (t : Kernel) (h : Kernel.run .lbs es = some t)
    (first second : Slot → Proc) :
    (∃ q, lottery t.sched.seed first second = some q ∧ (second q).state = .runnable) ↔
      ∃ q, (second q).state = .runnable ∧ 0 < ticketsOf second ((List.finRange NPROC).take (q.val + 1)) := by
  have hdraw : (∃ q, lottery t.sched.seed first second = some q ∧ (second q).state = .runnable) ↔
      ∃ q, draw second 0 (List.finRange NPROC) 0 = some q := by
    unfold lottery
    rw [rand_zero (seed_run h)]
    exact ⟨fun ⟨q, hq, _⟩ => ⟨q, hq⟩, fun ⟨q, hq⟩ => ⟨q, hq, draw_runnable hq⟩⟩
  rw [hdraw, draw_isSome_iff]
  constructor
  · rintro ⟨pre, q, post, hsplit, hq, hlt⟩
    rw [mem_split pre post hsplit] at hlt
    exact ⟨q, hq, hlt⟩
  · rintro ⟨q, hq, hlt⟩
    obtain ⟨pre, post, hsplit⟩ := append_of_mem (mem_finRange q)
    rw [← mem_split pre post hsplit] at hlt
    exact ⟨pre, q, post, hsplit, hq, hlt⟩

/-- Init forks and sets its tickets to 0; the child has its one ticket. -/
theorem lottery_selects_forked : ∃ t, Kernel.run .lbs [(0, .pass [⟨[.fork .ok, .settickets 0], .yield⟩])] = some t ∧
    (t.sched.proc 0).state = .runnable ∧
    ∃ q, lottery t.sched.seed t.sched.proc t.sched.proc = some q ∧ (t.sched.proc q).state = .runnable := by
  have hrun : (Kernel.run .lbs [(0, .pass [⟨[.fork .ok, .settickets 0], .yield⟩])]).map (fun t => ((t.sched.proc 0).state,
      (t.sched.proc 1).state, ticketsOf t.sched.proc ((List.finRange NPROC).take 2))) = some (.runnable, .runnable, 1) := by
    decide +kernel
  obtain ⟨t, ht, hout⟩ := Option.map_eq_some_iff.mp hrun
  simp only [Prod.mk.injEq] at hout
  obtain ⟨hinit, hchild, hsum⟩ := hout
  exact ⟨t, ht, hinit, (lottery_selects_iff _ t ht _ _).mpr ⟨1, hchild, hsum.symm ▸ one_pos⟩⟩

/-- Init sets its tickets to 0: it is the only process, RUNNABLE, and no iteration selects it. -/
theorem noTickets_idle : (Kernel.run .lbs [(0, .pass [⟨[.settickets 0], .yield⟩])]).map (fun t =>
    ((t.sched.proc 0).state, (t.sched.proc 0).tickets, lottery t.sched.seed t.sched.proc t.sched.proc)) =
      some (.runnable, 0, none) := by
  decide +kernel

end Xv6
