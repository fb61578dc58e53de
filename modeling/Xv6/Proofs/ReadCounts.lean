import Xv6.Proofs.LineDiscipline
import Xv6.Sanity.PipeSteps
import Xv6.Spec.Reads

/-! Reads remove exactly what they report, unless the copy to user memory fails: `piperead` and `consoleread` take a byte
out of the buffer before they copy it. A killed process that waits for the rest of its input has taken bytes too. -/

namespace Xv6

open Function

variable {k j : ℕ}

theorem exact_bytes : Read.Exact ⟨k, false, j⟩ ↔ k = j := by simp [Read.Exact]

theorem exact_eof : Read.Exact ⟨k, true, j⟩ ↔ k = j + 1 := by simp [Read.Exact]

theorem exact_failed : Read.Exact ⟨k, false, -1⟩ ↔ k = 0 := by simp [Read.Exact]

namespace Pipe

variable {P : Type} {m m' : Metered P} {s s' : State P} {p : P}

/-- The bytes that the call has taken so far. -/
def Pc.done : Pc → Option ℕ
  | .read .. | .readAsleep .. | .readWoken .. => some 0
  | .readCopy _ _ i => some i
  | _ => none

variable {c c' : Pc} {e : Event P} {k : ℕ} {t : State P} {r : ℤ}

theorem Pc.Wakes.done (h : c.Wakes c') : c'.done = c.done := by
  cases h <;> rfl

/-- The count of every call under way is right. -/
def Metered.Counts (m : Metered P) : Prop := ∀ p k, (m.pipe.pc p).done = some k → m.removed p = k

theorem uint_succ_ne (x : ℕ) : uint (x + 1) ≠ x := by
  unfold uint
  omega

variable [DecidableEq P]

theorem goto_pc (s : State P) (p : P) (c : Pc) : (s.goto p c).pc p = c := update_self _ _ _

theorem leave_pc (s : State P) (p : P) (r : ℤ) : (s.leave p r).pc p = .idle := update_self _ _ _

theorem leave_ret (s : State P) (p : P) (r : ℤ) : (s.leave p r).ret p = some r := update_self _ _ _

theorem counts_others (h : m.Counts) (hd : Does m.pipe e s') {q : P} (hq : q ≠ e.proc)
    (hk : (s'.pc q).done = some k) : m.removed q = k := by
  rw [(does_others hd hq).done] at hk
  exact h q k hk

omit [DecidableEq P] in
theorem unmoved (k : ℕ) (h : t.nread = m.pipe.nread) : (k + if t.nread = m.pipe.nread then 0 else 1) = k := by
  rw [if_pos h, Nat.add_zero]

theorem round_goes (h : (m.pipe.pc p).isRead = false ∨ t.pc p ≠ .idle) : (m.round p t).reads = m.reads := by
  refine if_neg fun hend => ?_
  rcases h with h | h
  · rw [h] at hend
    cases hend.1
  · exact h hend.2

theorem round_returns (hread : (m.pipe.pc p).isRead = true) (t : State P) :
    (m.round p (t.leave p r)).reads =
      m.reads ++ [⟨m.removed p + if t.nread = m.pipe.nread then 0 else 1, false, r⟩] := by
  have hret := leave_ret t p r
  refine (if_pos ⟨hread, leave_pc t p r⟩).trans ?_
  rw [hret]
  rfl

/-- The counts after a round. -/
theorem counts_round (h : m.Counts) (hd : Does m.pipe (.run p) t)
    (hp : ∀ k, (t.pc p).done = some k → (m.removed p + if t.nread = m.pipe.nread then 0 else 1) = k) :
    (m.round p t).Counts := by
  intro q k hk
  by_cases hq : q = p
  · subst hq
    exact (update_self _ _ _).trans (hp k hk)
  · exact (update_of_ne hq _ _).trans (counts_others h hd hq hk)

/-- A call that goes on has room for the byte it took. -/
theorem room_of_take {n : ℤ} {room i : ℕ} (hpc : s.pc p = .readCopy n room i) (hs : s.step (.run p) = some s')
    (hgoes : s'.pc p ≠ .idle) : i < n → s.nread ≠ s.nwrite → i < room := by
  intro hn hdata
  by_contra hroom
  rw [State.step, hpc] at hs
  have hlost : s' = { s with nread := uint (s.nread + 1) }.wakeWriters.leave p i := by
    rw [← Option.some.inj hs, State.readCopy, if_pos hn, if_neg hdata, if_neg hroom]
  exact hgoes (hlost ▸ leave_pc _ p _)

/-- The state after an event is counted right, and what it adds to the calls is exact if the byte taken can be stored. -/
def Counted (m : Metered P) (e : Event P) (m' : Metered P) : Prop :=
  m'.Counts ∧ ∃ new, m'.reads = m.reads ++ new ∧ ((∀ x ∈ new, x.Exact) ↔ m.Fits e)

omit [DecidableEq P] in
theorem counted_nothing (h : m'.Counts) (hreads : m'.reads = m.reads) (hfits : m.Fits e) : Counted m e m' :=
  ⟨h, [], by rw [hreads, List.append_nil], iff_of_true (fun x hx => absurd hx List.not_mem_nil) hfits⟩

omit [DecidableEq P] in
theorem fits_of_pc (hpc : m.pipe.pc p = c) (hc : ∀ n room i, c ≠ .readCopy n room i) : m.Fits (.run p) := by
  unfold Metered.Fits
  dsimp only
  split
  · rename_i h
    exact absurd (hpc.symm.trans h) (hc _ _ _)
  · trivial

theorem counted_writes (h : m.Counts) (hd : Does m.pipe (.run p) t) (hpc : m.pipe.pc p = c)
    (hc : c.isRead = false) (hpc' : t.pc p = c') (hc' : c'.isRead = false) : Counted m (.run p) (m.round p t) := by
  refine counted_nothing (counts_round h hd fun k hk => ?_) (round_goes (.inl (hpc ▸ hc))) (fits_of_pc hpc ?_)
  · have hnone : c'.done = none := by
      cases c' <;> first | rfl | exact Bool.noConfusion hc'
    rw [hpc', hnone] at hk
    cases hk
  · rintro n room i rfl
    cases hc

theorem counted_goes (h : m.Counts) (hd : Does m.pipe (.run p) t) (hdone : (t.pc p).done = some k)
    (hk : (m.removed p + if t.nread = m.pipe.nread then 0 else 1) = k) (hfits : m.Fits (.run p)) :
    Counted m (.run p) (m.round p t) := by
  refine counted_nothing (counts_round h hd fun k' hk' => ?_) (round_goes (.inr fun hidle => ?_)) hfits
  · exact hk.trans (Option.some.inj (hdone.symm.trans hk'))
  · rw [hidle] at hdone
    cases hdone

theorem counted_returns (h : m.Counts) (hd : Does m.pipe (.run p) (t.leave p r)) (hread : (m.pipe.pc p).isRead = true)
    (hfits : Read.Exact ⟨m.removed p + if t.nread = m.pipe.nread then 0 else 1, false, r⟩ ↔ m.Fits (.run p)) :
    Counted m (.run p) (m.round p (t.leave p r)) := by
  refine ⟨counts_round h hd fun k hk => ?_, _, round_returns hread t, ?_⟩
  · rw [leave_pc] at hk
    cases hk
  · rwa [List.forall_mem_singleton]

theorem run_counts (h : m.Counts) (hs : m.pipe.step (.run p) = some t) :
    Counted m (.run p) (m.round p t) := by
  have hd := step_does hs
  cases hd with
  | refuse call n src start i hpc => exact counted_writes h (step_does hs) hpc rfl (leave_pc m.pipe p (-1)) rfl
  | full call n src start i hpc | put call n src start i ch hpc | resumeWrite call n src i hpc =>
    exact counted_writes h (step_does hs) hpc rfl (goto_pc _ p _) rfl
  | wrote call n src start i hpc => exact counted_writes h (step_does hs) hpc rfl (leave_pc m.pipe.wakeReaders p i) rfl
  | giveUp n room hpc =>
    have hzero : m.removed p = 0 := h p 0 (by rw [hpc]; rfl)
    refine counted_returns h (step_does hs) (by rw [hpc]; rfl) (iff_of_true ?_ (fits_of_pc hpc nofun))
    exact exact_failed.mpr ((unmoved _ rfl).trans hzero)
  | empty n room hpc | ready n room hpc | resumeRead n room hpc =>
    have hzero : m.removed p = 0 := h p 0 (by rw [hpc]; rfl)
    exact counted_goes h (step_does hs) (congrArg Pc.done (goto_pc _ p _)) ((unmoved _ rfl).trans hzero) (fits_of_pc hpc nofun)
  | take n room i hpc hdata =>
    have hi : m.removed p = i := h p i (by rw [hpc]; rfl)
    refine counted_goes h (step_does hs) (congrArg Pc.done (goto_pc _ p _)) ?_ ?_
    · rw [hi, if_neg (uint_succ_ne _)]
    · rw [Metered.Fits, hpc]
      exact room_of_take hpc hs (by rw [show _ = _ from goto_pc m.pipe p _]; nofun)
  | lose n room i hpc hn hroom hdata =>
    have hi : m.removed p = i := h p i (by rw [hpc]; rfl)
    refine counted_returns h (step_does hs) (by rw [hpc]; rfl) (iff_of_false ?_ ?_)
    · change ¬ Read.Exact ⟨m.removed p + (if uint (m.pipe.nread + 1) = m.pipe.nread then 0 else 1), false, i⟩
      rw [exact_bytes, hi, if_neg (uint_succ_ne _)]
      omega
    · rw [Metered.Fits, hpc]
      exact fun hfits => absurd (hfits hn hdata) (not_lt.mpr hroom)
  | drained n room i hpc hend =>
    have hi : m.removed p = i := h p i (by rw [hpc]; rfl)
    refine counted_returns h (step_does hs) (by rw [hpc]; rfl) (iff_of_true ?_ ?_)
    · exact exact_bytes.mpr ((unmoved (t := m.pipe.wakeWriters) _ rfl).trans hi)
    · rw [Metered.Fits, hpc]
      rintro hn hdata
      rcases hend with hempty | hle
      · exact absurd hempty hdata
      · exact absurd hn (not_lt.mpr hle)

theorem step_counts (h : m.Counts) (hs : m.step e = some m') : Counted m e m' := by
  obtain ⟨t, ht, rfl⟩ := Option.map_eq_some_iff.mp hs
  have hd := step_does ht
  cases e with
  | run p => exact run_counts h ht
  | piperead p n room =>
    refine counted_nothing (fun q k hk => ?_) rfl trivial
    by_cases hq : q = p
    · subst hq
      cases hd with
      | startRead n room =>
        have hread : (m.pipe.goto q (.read n room)).pc q = .read n room := goto_pc _ q _
        exact (update_self _ _ _).trans (Option.some.inj ((congrArg Pc.done hread).symm.trans hk))
    · exact (update_of_ne hq _ _).trans (counts_others h hd hq hk)
  | pipewrite p n src =>
    refine counted_nothing (fun q k hk => ?_) rfl trivial
    by_cases hq : q = p
    · subst hq
      cases hd with
      | startWrite n src =>
        have hwrite := congrArg Pc.done (goto_pc m.pipe q (.write m.pipe.calls.length n src 0 0))
        cases hwrite.symm.trans hk
    · exact counts_others h hd hq hk
  | pipeclose p writable =>
    refine counted_nothing (fun q k hk => ?_) rfl trivial
    cases hd with
    | close => exact h q k ((pipeclose_wakes m.pipe writable q).done ▸ hk)
  | kill p =>
    refine counted_nothing (fun q k hk => ?_) rfl trivial
    cases hd with
    | kill => exact h q k ((kill_wakes m.pipe p q).done ▸ hk)

/-- The calls of `piperead` in a run are all exact if and only if every byte they take can be stored. -/
theorem pipe_reads_iff {data : ℕ → UInt8} {nread count : ℕ} {es : List (Event P)} (h : Metered.run data nread count es = some m) :
    (∀ x ∈ m.reads, x.Exact) ↔ System.Along Metered.step Metered.Fits (.init data nread count) es :=
  have hinit : (Metered.init data nread count : Metered P).Counts := nofun
  System.exec_records Metered.step hinit rfl (fun _ _ _ hi hs => step_counts hi hs) es m h

end Pipe

namespace Console

variable {P : Type} {m m' : Metered P} {s : State P} {p : P} {call target n : ℕ}

/-- The count of every call under way is right, and the read index is a `uint`. -/
structure Metered.Counts (m : Metered P) : Prop where
  calls : ∀ p call target n, (m.cons.pc p).job = some (call, target, n) → n ≤ target ∧ m.removed p = target - n
  index : m.cons.r < 2 ^ 32

theorem uintSucc_lt (x : ℕ) : uintSucc x < 2 ^ 32 := Nat.mod_lt _ (by decide)

theorem uintSucc_ne (x : ℕ) : uintSucc x ≠ x := by
  unfold uintSucc
  omega

theorem uintSub_succ {x : ℕ} (h : x < 2 ^ 32) : uintSub (uintSucc x) 1 = x :=
  (Counter.pred_mod (by decide)).trans (Nat.mod_eq_of_lt h)

theorem consoleintr_r (s : State P) (c : UInt8) : (s.consoleintr c).r = s.r := by
  have hstore : ∀ c, (s.store c).r = s.r := by
    intro c
    unfold State.store
    dsimp only
    split <;> rfl
  unfold State.consoleintr
  split_ifs
  all_goals first | exact hstore _ | rfl

variable [DecidableEq P]

/-- As for pipes. -/
def Counted (m : Metered P) (a : Action P) (m' : Metered P) : Prop :=
  m'.Counts ∧ ∃ new, m'.reads = m.reads ++ new ∧ ((∀ x ∈ new, x.Exact) ↔ m.Fits a)

variable {a : Action P} {t : State P}

omit [DecidableEq P] in
theorem counted_nothing (h : m'.Counts) (hreads : m'.reads = m.reads) (hfits : m.Fits a) : Counted m a m' :=
  ⟨h, [], by rw [hreads, List.append_nil], iff_of_true (fun x hx => absurd hx List.not_mem_nil) hfits⟩

/-- The counts after a round that leaves `p` at `c`. -/
theorem counts_after {d : Option (Bool × ℤ)} {c : Pc} (h : m.Counts)
    (hpc : t.pc = update m.cons.pc p c) (hr : t.r < 2 ^ 32)
    (hc : ∀ call target n, c.job = some (call, target, n) →
      n ≤ target ∧ (m.removed p + if t.r = m.cons.r then 0 else 1) = target - n) : (m.after p (t, d)).Counts := by
  refine ⟨fun q call target n hjob => ?_, hr⟩
  change (t.pc q).job = _ at hjob
  change n ≤ target ∧ update m.removed p _ q = target - n
  rw [hpc] at hjob
  by_cases hq : q = p
  · subst hq
    rw [update_self] at hjob ⊢
    exact hc call target n hjob
  · rw [update_of_ne hq] at hjob ⊢
    exact h.calls q call target n hjob

theorem counted_returns {eof : Bool} {ret : ℤ} (h : m.Counts)
    (hpc : t.pc = update m.cons.pc p .idle) (hr : t.r < 2 ^ 32)
    (hfits : Read.Exact ⟨m.removed p + if t.r = m.cons.r then 0 else 1, eof, ret⟩ ↔ m.Fits (.run p)) :
    Counted m (.run p) (m.after p (t, some (eof, ret))) := by
  refine ⟨counts_after h hpc hr nofun, _, rfl, ?_⟩
  rwa [Option.map_some, Option.toList_some, List.forall_mem_singleton]

theorem counted_goes {phase : Phase} (h : m.Counts)
    (hpc : t.pc = update m.cons.pc p (.reading phase call target n)) (hr : t.r < 2 ^ 32) (hle : n ≤ target)
    (hk : (m.removed p + if t.r = m.cons.r then 0 else 1) = target - n) (hfits : m.Fits (.run p)) :
    Counted m (.run p) (m.after p (t, none)) := by
  refine counted_nothing (counts_after h hpc hr fun _ _ _ hjob => ?_) (List.append_nil _) hfits
  cases hjob
  exact ⟨hle, hk⟩

omit [DecidableEq P] in
theorem fits_loop (hp : m.cons.pc p = .reading .loop call target n) : m.Fits (.run p) ↔
    (0 < n → (m.cons.r ≠ m.cons.w → m.cons.buf (m.cons.r % INPUT_BUF_SIZE) ≠ C 'D' → target - n < m.room p) ∧
      (m.cons.r = m.cons.w → m.killed p = true → n = target)) := by
  rw [Metered.Fits, hp]

/-- The round is the one of `Console`, unless the process is killed or its byte cannot be stored. -/
theorem round_read (hp : m.cons.pc p = .reading .loop call target n) (hlive : m.killed p = false) (hfits : m.Fits (.run p)) :
    (m.round p call target n).1 = m.cons.read p call target n := by
  rw [fits_loop hp] at hfits
  unfold Metered.round State.read
  dsimp only
  split_ifs with hn hempty hkilled heof hpart hroom
  all_goals try rfl
  · exact absurd (hlive.symm.trans hkilled) (by decide)
  · exact absurd ((hfits hn).1 hempty heof) hroom

/-- So are the steps. -/
theorem step_cons (e : Event P) (room : ℕ) (hlive : ∀ p, m.killed p = false) (hfits : m.Fits (e.action room))
    (hs : m.cons.step e = some s) : ∃ m', m.step (e.action room) = some m' ∧ m'.cons = s := by
  cases e with
  | consoleintr c =>
    rw [State.step] at hs
    split at hs <;> cases hs
    exact ⟨_, if_pos ‹_›, rfl⟩
  | consoleread p n =>
    rw [State.step] at hs
    split at hs <;> cases hs
    rename_i h
    exact ⟨_, if_pos ⟨h.1, h.2.1⟩, rfl⟩
  | run p =>
    rw [State.step] at hs
    rw [Event.action, Metered.step]
    rcases hp : m.cons.pc p with - | ⟨_ | _ | _, call, target, n⟩ <;> rw [hp] at hs
    · cases hs
    · cases hs
      exact ⟨_, rfl, round_read hp (hlive p) hfits⟩
    · cases hs
    · dsimp only at hs ⊢
      split_ifs at hs with hlock
      cases hs
      exact ⟨_, if_pos hlock, rfl⟩

theorem round_counts (h : m.Counts) (hp : m.cons.pc p = .reading .loop call target n) :
    Counted m (.run p) (m.after p (m.round p call target n)) := by
  obtain ⟨hle, hk⟩ := h.calls p call target n (by rw [hp]; rfl)
  have hfits := fits_loop hp
  have hsame : (m.removed p + if m.cons.r = m.cons.r then 0 else 1) = target - n := by rw [if_pos rfl, hk, Nat.add_zero]
  have hmore : (m.removed p + if uintSucc m.cons.r = m.cons.r then 0 else 1) = target - n + 1 := by
    rw [if_neg (uintSucc_ne _), hk]
  unfold Metered.round
  dsimp only
  by_cases hn : 0 < n
  · rw [if_pos hn]
    rw [iff_true_intro hn, true_imp_iff] at hfits
    by_cases hempty : m.cons.r = m.cons.w
    · rw [if_pos hempty]
      by_cases hkilled : m.killed p = true
      · rw [if_pos hkilled]
        refine counted_returns h rfl h.index (exact_failed.trans ?_)
        refine Iff.trans (b := target - n = 0) (by rw [← hsame]; rfl) (hfits.trans ?_).symm
        constructor
        · rintro ⟨-, hfull⟩
          rw [hfull hempty hkilled, Nat.sub_self]
        · exact fun hzero => ⟨fun hne => absurd hempty hne, fun _ _ => by omega⟩
      · rw [if_neg hkilled]
        exact counted_goes h rfl h.index hle hsame (hfits.mpr ⟨fun hne => absurd hempty hne, fun _ hk => absurd hk hkilled⟩)
    · rw [if_neg hempty]
      by_cases heof : m.cons.buf (m.cons.r % INPUT_BUF_SIZE) = C 'D'
      · have hfit : m.Fits (.run p) := hfits.mpr ⟨fun _ hne => absurd heof hne, fun he => absurd he hempty⟩
        rw [if_pos heof]
        by_cases hlt : n < target
        · rw [if_pos hlt]
          have hback := uintSub_succ h.index
          rw [hback]
          exact counted_returns h rfl h.index (iff_of_true (exact_bytes.mpr hsame) hfit)
        · rw [if_neg hlt]
          exact counted_returns h rfl (uintSucc_lt _) (iff_of_true (exact_eof.mpr hmore) hfit)
      · rw [if_neg heof]
        by_cases hroom : target - n < m.room p
        · have hfit : m.Fits (.run p) := hfits.mpr ⟨fun _ _ => hroom, fun he => absurd he hempty⟩
          have hcount : target - n + 1 = target - (n - 1) := by omega
          rw [if_pos hroom]
          unfold State.deliver
          dsimp only
          by_cases hline : m.cons.buf (m.cons.r % INPUT_BUF_SIZE) = newline
          · rw [if_pos hline, if_pos hline]
            exact counted_returns h rfl (uintSucc_lt _) (iff_of_true (exact_bytes.mpr (hmore.trans hcount)) hfit)
          · rw [if_neg hline, if_neg hline]
            exact counted_goes h rfl (uintSucc_lt _) ((Nat.sub_le n 1).trans hle) (hmore.trans hcount) hfit
        · rw [if_neg hroom]
          refine counted_returns h rfl (uintSucc_lt _) (iff_of_false (fun hexact => ?_) fun hfit => ?_)
          · have := hmore.symm.trans (exact_bytes.mp hexact)
            omega
          · exact hroom ((hfits.mp hfit).1 hempty heof)
  · rw [if_neg hn]
    exact counted_returns h rfl h.index (iff_of_true (exact_bytes.mpr hsame) (hfits.mpr fun hpos => absurd hpos hn))

theorem step_counts (h : m.Counts) (hs : m.step a = some m') : Counted m a m' := by
  cases a with
  | consoleintr c =>
    rw [Metered.step] at hs
    split at hs <;> cases hs
    refine counted_nothing ⟨fun q call target n hjob => h.calls q call target n ?_, ?_⟩ rfl trivial
    · exact ((consoleintr_spares m.cons c).jobs q).symm.trans hjob
    · exact (consoleintr_r m.cons c).trans_lt h.index
  | consoleread p n room =>
    rw [Metered.step] at hs
    split at hs <;> cases hs
    refine counted_nothing ⟨fun q call target k hjob => ?_, h.index⟩ rfl trivial
    change (update m.cons.pc p _ q).job = _ at hjob
    change k ≤ target ∧ update m.removed p 0 q = target - k
    by_cases hq : q = p
    · subst hq
      rw [update_self] at hjob ⊢
      cases hjob
      exact ⟨le_rfl, (Nat.sub_self _).symm⟩
    · rw [update_of_ne hq] at hjob ⊢
      exact h.calls q call target k hjob
  | kill p =>
    cases hs
    refine counted_nothing ⟨fun q call target k hjob => h.calls q call target k ?_, ?_⟩ rfl trivial
    · dsimp only at hjob
      split at hjob
      · rename_i hp
        change (update m.cons.pc p _ q).job = _ at hjob
        by_cases hq : q = p
        · subst hq
          rw [update_self] at hjob
          rwa [hp]
        · rwa [update_of_ne hq] at hjob
      · exact hjob
    · dsimp only
      split <;> exact h.index
  | run p =>
    rw [Metered.step] at hs
    split at hs
    · rename_i call target n hp
      cases hs
      exact round_counts h hp
    · rename_i call target n hp
      split at hs <;> cases hs
      have hfits : m.Fits (.run p) := by
        rw [Metered.Fits, hp]
        trivial
      refine counted_nothing ⟨fun q call' target' k hjob => h.calls q call' target' k ?_, h.index⟩ rfl hfits
      change (update m.cons.pc p _ q).job = _ at hjob
      by_cases hq : q = p
      · subst hq
        rw [update_self] at hjob
        rwa [hp]
      · rwa [update_of_ne hq] at hjob
    · cases hs

/-- The calls of `consoleread` in a run are all exact if and only if every byte they take can be stored and no process is killed
while it waits for more. -/
theorem console_reads_iff {buf : ℕ → UInt8} {start : ℕ} {as : List (Action P)} (h : Metered.run buf start as = some m) :
    (∀ x ∈ m.reads, x.Exact) ↔ System.Along Metered.step Metered.Fits (.init buf start) as :=
  have hinit : (Metered.init buf start : Metered P).Counts :=
    ⟨nofun, Nat.mod_lt _ (by decide)⟩
  System.exec_records Metered.step hinit rfl (fun _ _ _ hi hs => step_counts hi hs) as m h

end Console

/-- Reads of a pipe and of the console remove exactly what they report, if and only if every byte they take can be stored and
no process is killed between two bytes of a read of the console. -/
theorem reads_exact_iff (P : Type) [DecidableEq P] :
    (∀ data nread count es (m : Pipe.Metered P), Pipe.Metered.run data nread count es = some m →
      ((∀ x ∈ m.reads, x.Exact) ↔ System.Along Pipe.Metered.step Pipe.Metered.Fits (.init data nread count) es)) ∧
    ∀ buf start as (m : Console.Metered P), Console.Metered.run buf start as = some m →
      ((∀ x ∈ m.reads, x.Exact) ↔ System.Along Console.Metered.step Console.Metered.Fits (.init buf start) as) :=
  ⟨fun _ _ _ _ _ h => Pipe.pipe_reads_iff h, fun _ _ _ _ h => Console.console_reads_iff h⟩

/-- A read of two bytes from a pipe that holds two; `room` of them can be stored. -/
def readTwo (room rounds : ℕ) : List (Pipe.Event Unit) := .piperead () 2 room :: List.replicate rounds (.run ())

/-- A line is typed, and read. -/
def readLine (room : ℕ) : List (Console.Action Unit) :=
  [.consoleintr 'a'.toUInt8, .consoleintr Console.newline, .consoleread () 8 room, .run (), .run ()]

theorem reads_exact_iff_mapped :
    (∃ m, Pipe.Metered.run (fun _ => 0) 0 2 (readTwo 2 4) = some m ∧ m.reads = [⟨2, false, 2⟩] ∧
      System.Along Pipe.Metered.step Pipe.Metered.Fits (.init (fun _ => 0) 0 2) (readTwo 2 4)) ∧
    ∃ m, Console.Metered.run (fun _ => 0) 0 (readLine 8) = some m ∧ m.reads = [⟨2, false, 2⟩] ∧
      System.Along Console.Metered.step Console.Metered.Fits (.init (fun _ => 0) 0) (readLine 8) := by
  have hpipe : (Pipe.Metered.run (fun _ => 0) 0 2 (readTwo 2 4)).map (·.reads) = some [⟨2, false, 2⟩] := by decide +kernel
  have hcons : (Console.Metered.run (fun _ => 0) 0 (readLine 8)).map (·.reads) = some [⟨2, false, 2⟩] := by decide +kernel
  obtain ⟨m, hm, hreads⟩ := Option.map_eq_some_iff.mp hpipe
  obtain ⟨m', hm', hreads'⟩ := Option.map_eq_some_iff.mp hcons
  refine ⟨⟨m, hm, hreads, ((reads_exact_iff Unit).1 _ _ _ _ m hm).mp ?_⟩,
    m', hm', hreads', ((reads_exact_iff Unit).2 _ _ _ m' hm').mp ?_⟩
  · rw [hreads]
    decide
  · rw [hreads']
    decide

/-- If only the first byte of the destination is mapped, the second byte is removed but not reported. -/
theorem reads_lose_byte :
    (Pipe.Metered.run (fun _ => 0) 0 2 (readTwo 1 3)).map (·.reads) = some [⟨2, false, 1⟩] ∧
    (Console.Metered.run (fun _ => 0) 0 (readLine 1)).map (·.reads) = some [⟨2, false, 1⟩] ∧
    ¬Read.Exact ⟨2, false, 1⟩ := by
  refine ⟨?_, ?_, ?_⟩ <;> decide +kernel

end Xv6
