import Xv6.Spec.Ticks

/-! `sys_sleep` compares the ticks since the call, which are unsigned, with an `int`: a negative `n` becomes large, and after
2^32 ticks the count starts again. -/

namespace Xv6.Ticks

open System

/-- A test that finds the time over sees that. -/
def State.Sees (s : State) : Event → Prop
  | .run => max s.n 0 ≤ s.elapsed → uint32 s.n ≤ uint32 s.elapsed
  | _ => True

instance (s : State) : (e : Event) → Decidable (s.Sees e)
  | .run => inferInstanceAs (Decidable (_ → _))
  | .clockintr | .kill | .wakeup => inferInstanceAs (Decidable True)

structure Inv (ticks n : ℤ) (s : State) : Prop where
  n : s.n = n
  ticks0 : s.ticks0 = ticks
  ticks : s.ticks = uint32 (ticks + s.elapsed)

variable {ticks n : ℤ} {s s' : State}

theorem Inv.right_iff (h : Inv ticks n s) (hn : -2 ^ 31 ≤ n ∧ n < 2 ^ 31) :
    Look.Right n ⟨s.elapsed, s.killed, s.test⟩ ↔ s.Sees .run := by
  have helapsed : uint32 (s.ticks - s.ticks0) = uint32 s.elapsed := by
    rw [h.ticks, h.ticks0]
    unfold uint32
    omega
  have hless : (s.elapsed : ℤ) < max n 0 → uint32 s.elapsed < uint32 n := by
    unfold uint32
    omega
  unfold Look.Right State.test State.Sees
  rw [helapsed, h.n]
  by_cases hover : max n 0 ≤ s.elapsed
  · rw [if_pos hover]
    split_ifs with hlt hk
    · simp [hover, hlt]
    · simp [hover, hlt]
    · simpa using fun _ => not_lt.mp hlt
  · rw [if_neg hover, if_pos (hless (not_le.mp hover))]
    simp [hover]

theorem inv_step {e : Event} (h : Inv ticks n s) (hn : -2 ^ 31 ≤ n ∧ n < 2 ^ 31) (hs : s.step e = some s') :
    Inv ticks n s' ∧ ∃ new, s'.looks = s.looks ++ new ∧ ((∀ l ∈ new, l.Right n) ↔ s.Sees e) := by
  have hquiet : (∀ l ∈ ([] : List Look), l.Right n) ↔ True := iff_of_true (by simp) trivial
  cases e with
  | clockintr =>
    simp only [State.step, Option.ite_none_left_eq_some, Option.some.injEq] at hs
    obtain ⟨-, rfl⟩ := hs
    refine ⟨⟨h.n, h.ticks0, ?_⟩, [], (List.append_nil _).symm, hquiet⟩
    change uint32 (s.ticks + 1) = uint32 (ticks + (s.elapsed + 1 : ℕ))
    rw [h.ticks]
    unfold uint32
    push_cast
    omega
  | kill | wakeup =>
    cases hs
    exact ⟨⟨h.n, h.ticks0, h.ticks⟩, [], (List.append_nil _).symm, hquiet⟩
  | run =>
    simp only [State.step, Option.ite_none_right_eq_some, Option.some.injEq] at hs
    obtain ⟨-, rfl⟩ := hs
    refine ⟨⟨h.n, h.ticks0, h.ticks⟩, [⟨s.elapsed, s.killed, s.test⟩], rfl, ?_⟩
    rw [List.forall_mem_singleton]
    exact h.right_iff hn

/-- In every run of a call, all tests are right exactly if each one that finds the time over sees that. -/
theorem sleep_right_iff (ticks n : ℤ) (killed : Bool) (ht : 0 ≤ ticks ∧ ticks < 2 ^ 32) (hn : -2 ^ 31 ≤ n ∧ n < 2 ^ 31)
    (es : List Event) (s : State) (h : exec State.step (sysSleep ticks n killed) es = some s) :
    (∀ l ∈ s.looks, l.Right n) ↔ Along State.step State.Sees (sysSleep ticks n killed) es := by
  have hinit : Inv ticks n (sysSleep ticks n killed) := by
    refine ⟨rfl, rfl, ?_⟩
    change ticks = uint32 (ticks + (0 : ℕ))
    unfold uint32
    omega
  exact exec_records State.step hinit rfl (fun _ _ _ hinv hs => inv_step hinv hn hs) es s h

/-- Two ticks, across the wrap of the counter. -/
theorem sleep_right_two : ∃ s, exec State.step (sysSleep (2 ^ 32 - 1) 2 false) [.run, .clockintr, .run, .clockintr, .run] =
    some s ∧ s.pc = .returned 0 ∧ ∀ l ∈ s.looks, l.Right 2 := by
  have hrun : (exec State.step (sysSleep (2 ^ 32 - 1) 2 false) [.run, .clockintr, .run, .clockintr, .run]).map State.pc =
      some (.returned 0) := by decide
  obtain ⟨s, hs, hpc⟩ := Option.map_eq_some_iff.mp hrun
  exact ⟨s, hs, hpc, (sleep_right_iff (2 ^ 32 - 1) 2 false (by decide) (by decide) _ s hs).mpr (by decide)⟩

/-- `sleep(-1)` sleeps. -/
theorem sleep_negative : ∃ s, exec State.step (sysSleep 0 (-1) false) [.run] = some s ∧ s.pc = .asleep ∧
    ¬∀ l ∈ s.looks, l.Right (-1) := by
  refine ⟨_, rfl, by decide, fun h => ?_⟩
  have hright := h _ (List.mem_singleton_self _)
  revert hright
  unfold Look.Right
  decide

end Xv6.Ticks
