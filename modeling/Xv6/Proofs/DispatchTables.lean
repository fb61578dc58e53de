import Xv6.Spec.Dispatch

/-! The dispatch keeps to its tables exactly for the numbers from 0 to 27, and for `sigalarm` and `sigreturn` only if
they are not traced: `syscallnum` is read before the number is checked, and `syscall_names` ends at `waitx`. -/

namespace Xv6.Trap.Proc

open List Logged

variable {p q : Proc} {i : Input} {num : ℤ} {args : List UInt64} {o : Op}

theorem report_result (p : Proc) (i : Input) (num : ℤ) (args : List UInt64) :
    (p.report i num args).result =
      if num.toNat < syscallNames.length ∨ i.named then some (p, [p.trace num args]) else none := by
  unfold report
  simp only [bind_result, emit_result, pure_result, Option.bind_some]
  split <;> rfl

theorem handle_result (p : Proc) (i : Input) (num : ℤ) (args : List UInt64) :
    (p.handle i num args).result = (p.call i num).bind fun (q, ret) =>
      let q := q.setFrame (.reg .a0) ret
      if q.traced num then
        if num.toNat < syscallNames.length ∨ i.named then some (q, [q.trace num args]) else none
      else some (q, []) := by
  unfold handle
  simp only [bind_result, emit_result, Option.bind_some, apply_ite result, report_result,
    pure_result]

/-- The operations aside, `dispatch` is `syscall`. -/
theorem dispatch_result (p : Proc) (i : Input) : (p.dispatch i p.num).result = p.syscall i := by
  have hall : ∀ num, (p.dispatch i num).result = (nargs i num).bind fun length =>
      ((List.range length.toNat).mapM (argraw p.trapframe)).bind fun args =>
        if 0 < num ∧ num < nsyscalls then (p.handle i num args).result
        else some (p.setFrame (.reg .a0) (-1), []) := by
    intro num
    unfold dispatch snapshot
    simp only [bind_result, emit_result, traverse_result, Option.bind_some,
      apply_ite result, pure_result]
  simp only [hall, handle_result]
  rfl

theorem length_syscallnum : Table.length .syscallnum = 28 := rfl

theorem length_syscallNames : Table.length .syscallNames = 26 := rfl

theorem names_iff : Names num ↔ 0 < num ∧ num < 28 := Iff.rfl

/-- No system call has more than three arguments. -/
theorem nargs_of_lt (h₀ : 0 ≤ num) (h₁ : num < 28) : ∃ length, nargs i num = some length ∧ 0 ≤ length ∧ length ≤ 3 := by
  have hall : ∀ length ∈ syscallnum, 0 ≤ length ∧ length ≤ 3 := by decide
  have hlt : num.toNat < syscallnum.length := by
    change num.toNat < 28
    omega
  refine ⟨syscallnum.get ⟨num.toNat, hlt⟩, ?_, hall _ (get_mem _ _)⟩
  unfold nargs
  rw [if_pos ⟨h₀, h₁⟩]
  exact List.getElem?_eq_getElem hlt

theorem argraw_ne_none {f : Frame} {n : ℕ} (h : n < 6) : argraw f n ≠ none := by
  match n, h with
  | 0, _ | 1, _ | 2, _ | 3, _ | 4, _ | 5, _ => exact Option.some_ne_none _

theorem snapshot_spec {length : ℤ} (h₀ : 0 ≤ length) (h₁ : length ≤ 3) :
    (∃ args, (p.snapshot length).result = some args) ∧
    ∀ o ∈ (p.snapshot length).log, o = .snapshot length ∨ ∃ n < 6, o = .argraw n := by
  have hlt : ∀ n ∈ List.range length.toNat, n < 6 := by
    intro n hn
    have := mem_range.mp hn
    omega
  unfold snapshot
  constructor
  · rw [bind_result, emit_result, Option.bind_some]
    exact traverse_returns fun n hn => Option.ne_none_iff_exists'.mp (argraw_ne_none (hlt n hn))
  · intro o ho
    rw [mem_bind] at ho
    rcases ho with ho | ⟨-, -, ho⟩
    · exact .inl (mem_singleton.mp ho)
    · obtain ⟨n, hn, ho⟩ := mem_traverse ho
      exact .inr ⟨n, hlt n hn, mem_singleton.mp ho⟩

theorem mem_or_nil {c : Prop} [Decidable c] {x : Logged Op (Proc × List Trace)} :
    o ∈ (if c then x else pure (q, [])).log ↔ c ∧ o ∈ x.log := by
  split <;> simp [*]

theorem mem_report (h : o ∈ (p.report i num args).log) : o = .index .syscallNames num ∨ o = .argraw 0 := by
  simp only [report, mem_bind, emit_log, pure_log, mem_singleton, not_mem_nil] at h
  tauto

theorem mem_report_name : .index .syscallNames num ∈ (p.report i num args).log := by
  rw [report, mem_bind]
  exact .inl mem_cons_self

theorem mem_handle : o ∈ (p.handle i num args).log ↔ o = .index .syscalls num ∨ o = .handler num ∨
    ∃ r, p.call i num = some r ∧ (r.1.setFrame (.reg .a0) r.2).traced num ∧
      o ∈ ((r.1.setFrame (.reg .a0) r.2).report i num args).log := by
  simp only [handle, mem_bind, emit_log, emit_result, mem_singleton, mem_or_nil, true_and,
    exists_const]
  tauto

theorem mem_dispatch : o ∈ (p.dispatch i num).log ↔ o = .index .syscallnum num ∨
    ∃ length, nargs i num = some length ∧ (o ∈ (p.snapshot length).log ∨
      ∃ args, (p.snapshot length).result = some args ∧ Names num ∧ o ∈ (p.handle i num args).log) := by
  simp only [dispatch, mem_bind, emit_log, emit_result, mem_singleton, mem_or_nil, Names]

/-- Neither `sigalarm` nor `sigreturn` changes the mask. -/
theorem call_unnamed (h₀ : 26 ≤ num) (h₁ : num < 28) : ∃ q, p.call i num = some (q, 0) ∧ q.mask = p.mask := by
  obtain rfl | rfl : num = 26 ∨ num = 27 := by omega
  · exact ⟨p.sysSigalarm, rfl, rfl⟩
  · exact ⟨p.sysSigreturn, rfl, rfl⟩

/-- What a dispatch can do, for the numbers of the table. -/
theorem dispatch_ops (h₀ : 0 ≤ num) (h₁ : num < 28) (h : o ∈ (p.dispatch i num).log) :
    o = .index .syscallnum num ∨ (∃ length, o = .snapshot length ∧ 0 ≤ length ∧ length ≤ 3) ∨ (∃ n < 6, o = .argraw n) ∨
    (Names num ∧ (o = .index .syscalls num ∨ o = .handler num ∨ o = .index .syscallNames num ∧
      ∃ r, p.call i num = some r ∧ (r.1.setFrame (.reg .a0) r.2).traced num)) := by
  obtain ⟨length, hlength, hle⟩ := nargs_of_lt (i := i) h₀ h₁
  rcases mem_dispatch.mp h with rfl | ⟨length', hlength', hrest⟩
  · exact .inl rfl
  obtain rfl : length = length' := Option.some.inj (hlength.symm.trans hlength')
  rcases hrest with hsnap | ⟨args, -, hnames, hhandle⟩
  · rcases (snapshot_spec hle.1 hle.2).2 o hsnap with rfl | hargraw
    · exact .inr (.inl ⟨length, rfl, hle⟩)
    · exact .inr (.inr (.inl hargraw))
  · rcases mem_handle.mp hhandle with rfl | rfl | ⟨r, hr, htraced, hreport⟩
    · exact .inr (.inr (.inr ⟨hnames, .inl rfl⟩))
    · exact .inr (.inr (.inr ⟨hnames, .inr (.inl rfl)⟩))
    · rcases mem_report hreport with rfl | rfl
      · exact .inr (.inr (.inr ⟨hnames, .inr (.inr ⟨rfl, r, hr, htraced⟩)⟩))
      · exact .inr (.inr (.inl ⟨0, by decide, rfl⟩))

/-- The handler is reached, for the numbers that have one. -/
theorem dispatch_handles (hnames : Names num) :
    ∃ args, ∀ o ∈ (p.handle i num args).log, o ∈ (p.dispatch i num).log := by
  obtain ⟨length, hlength, h₀, h₁⟩ := nargs_of_lt (i := i) hnames.1.le hnames.2
  obtain ⟨args, hargs⟩ := (snapshot_spec (p := p) h₀ h₁).1
  exact ⟨args, fun o ho => mem_dispatch.mpr (.inr ⟨length, hlength, .inr ⟨args, hargs, hnames, ho⟩⟩)⟩

theorem traced_congr {w : Word} {v : UInt64} (hmask : q.mask = p.mask) : (q.setFrame w v).traced num ↔ p.traced num := by
  unfold traced
  rw [← hmask]
  rfl

section

variable (h₀ : 0 ≤ num) (h₁ : num < 28)

include h₀ h₁

/-- Inside the names, the name is read only for the calls that have one. -/
theorem dispatch_inside (hbehind : 26 ≤ num → ¬p.traced num) {t : Table} {k : ℤ}
    (h : .index t k ∈ (p.dispatch i num).log) : 0 ≤ k ∧ k < t.length := by
  rcases dispatch_ops h₀ h₁ h with h | ⟨_, h, -⟩ | ⟨_, -, h⟩ | ⟨-, h | h | ⟨h, r, hr, htraced⟩⟩ <;> cases h
  · exact ⟨h₀, h₁⟩
  · exact ⟨h₀, h₁⟩
  · refine ⟨h₀, not_le.mp fun hle => ?_⟩
    obtain ⟨q, hcall, hmask⟩ := call_unnamed (p := p) (i := i) hle h₁
    cases hcall.symm.trans hr
    exact hbehind hle ((traced_congr hmask).mp htraced)

theorem dispatch_snapshot {length : ℤ} (h : .snapshot length ∈ (p.dispatch i num).log) : 0 ≤ length ∧ length ≤ 6 := by
  rcases dispatch_ops h₀ h₁ h with h | ⟨_, h, hle⟩ | ⟨_, -, h⟩ | ⟨-, h | h | ⟨h, -⟩⟩ <;> cases h
  exact ⟨hle.1, hle.2.trans (by decide)⟩

theorem dispatch_argraw {n : ℕ} (h : .argraw n ∈ (p.dispatch i num).log) : n < 6 := by
  rcases dispatch_ops h₀ h₁ h with h | ⟨_, h, -⟩ | ⟨_, hlt, h⟩ | ⟨-, h | h | ⟨h, -⟩⟩ <;> cases h
  exact hlt

theorem dispatch_handler {n : ℤ} :
    .handler n ∈ (p.dispatch i num).log ↔ n = num ∧ Names n := by
  constructor
  · intro h
    rcases dispatch_ops h₀ h₁ h with h | ⟨_, h, -⟩ | ⟨_, -, h⟩ | ⟨hnames, h | h | ⟨h, -⟩⟩ <;> cases h
    exact ⟨rfl, hnames⟩
  · rintro ⟨rfl, hnames⟩
    obtain ⟨args, hargs⟩ := dispatch_handles (p := p) (i := i) hnames
    exact hargs _ (mem_handle.mpr (.inr (.inl rfl)))

end

/-- A traced call behind the names reads behind the names. -/
theorem dispatch_behind (h₀ : 26 ≤ num) (h₁ : num < 28) (htraced : p.traced num) :
    .index .syscallNames num ∈ (p.dispatch i num).log := by
  obtain ⟨q, hcall, hmask⟩ := call_unnamed (p := p) (i := i) h₀ h₁
  obtain ⟨args, hargs⟩ := dispatch_handles (p := p) (i := i) (names_iff.mpr ⟨by omega, h₁⟩)
  exact hargs _ (mem_handle.mpr (.inr (.inr ⟨_, hcall, (traced_congr hmask).mpr htraced, mem_report_name⟩)))

theorem syscall_unknown (h : p.num = 0) : p.syscall i = some (p.setFrame (.reg .a0) (-1), []) := by
  rw [← dispatch_result, h]
  rfl

/-- The dispatch is safe exactly for the numbers of `syscallnum`, if those behind the names are not traced. -/
theorem dispatches_iff (p : Proc) (i : Input) : p.Dispatches i ↔
    0 ≤ p.num ∧ p.num < Table.length .syscallnum ∧ (Table.length .syscallNames ≤ p.num → ¬p.traced p.num) := by
  rw [length_syscallnum, length_syscallNames]
  constructor
  · intro h
    obtain ⟨h₀, h₁⟩ := h.inside _ _ (mem_dispatch.mpr (.inl rfl))
    rw [length_syscallnum] at h₁
    refine ⟨h₀, h₁, fun hbehind htraced => ?_⟩
    have hname := h.inside _ _ (dispatch_behind hbehind h₁ htraced)
    rw [length_syscallNames] at hname
    omega
  · rintro ⟨h₀, h₁, hbehind⟩
    refine ⟨fun t k => dispatch_inside h₀ h₁ hbehind, fun length => dispatch_snapshot h₀ h₁,
      fun n hn => argraw_ne_none (dispatch_argraw h₀ h₁ hn), fun n => dispatch_handler h₀ h₁, fun hunknown => ?_⟩
    refine syscall_unknown ?_
    rw [names_iff] at hunknown
    omega

/-- A process that makes a system call with this number, under this mask. -/
def caller (a7 : UInt64) (mask : ℤ) : Proc :=
  { pid := 1, kstack := 0, mask, trapframe := Frame.set (fun _ => 0) (.reg .a7) a7, handler := 0, tickss := 0,
    nowTicks := 0, trapframeCopy := fun _ => 0, isSigalarm := false }

/-- The number 28 is used as an index before it is checked; the name of a traced `sigalarm` is read behind the names. -/
theorem dispatch_behind_tables : ¬(caller 28 0).Dispatches ⟨0, none, some 0, true⟩ ∧
    ¬(caller 26 (2 ^ 26)).Dispatches ⟨0, none, some 0, true⟩ := by
  constructor
  · intro h
    have hnum : (caller 28 0).num = 28 := by decide +kernel
    have hread := h.inside .syscallnum 28 (by rw [hnum]; decide +kernel)
    exact absurd hread.2 (by decide)
  · intro h
    have hnum : (caller 26 (2 ^ 26)).num = 26 := by decide +kernel
    have hread := h.inside .syscallNames 26 (by rw [hnum]; decide +kernel)
    exact absurd hread.2 (by decide)

end Xv6.Trap.Proc
