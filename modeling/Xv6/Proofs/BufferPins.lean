import Xv6.Proofs.BufferCache

/-! The log pins the blocks of a transaction from `log_write` to their installation. The pins
are those of the header, up to the block that `log_write` is about to add and those that
`install_trans` has installed. -/

namespace Xv6.Bcache

open State Function List Option

variable {P : Type}

/-- The buffer that a process in `log_write` adds to the log. -/
def Call.log : Call → Option Ptr
  | .pinning b | .pinned b => some b
  | _ => none

/-- The block that is pinned and not yet in the header. -/
def State.written (s : State P) : List ℕ :=
  match s.logLock with
  | some p => match (s.ctl p).call with
    | .pinned b => [(s.buf b).blockno]
    | _ => []
  | none => []

def Target.block (start : ℕ) (lh : List ℕ) : Target → ℕ
  | .log tail => start + tail + 1
  | .home tail => lh.getD tail 0
  | .header => start

/-- The statements run by a process that has the blocks of `stack` locked unpin the blocks `pins`, each
while it is locked, and leave the pins to be those of the header. -/
def Good (dev start : ℕ) : List Instr → List ℕ → List ℕ → List (ℕ × ℕ) → Prop
  | [], lh, pins, _ => pins = lh
  | .commit :: is, lh, pins, _ => is = [] ∧ pins = lh
  | .writeLog _ :: is, lh, pins, stack | .writeHead :: is, lh, pins, stack | .bwrite _ :: is, lh, pins, stack =>
    Good dev start is lh pins stack
  | .installTrans tail :: is, lh, pins, stack => pins = lh.drop tail ∧ Good dev start is lh [] stack
  | .clear :: is, _, pins, stack => pins = [] ∧ Good dev start is [] [] stack
  | .bread t :: is, lh, pins, stack => Good dev start is lh pins ((dev, t.block start lh) :: stack)
  | .bunpin i :: is, lh, pins, stack =>
    ∃ n rest, pins = n :: rest ∧ stack[i]? = some (dev, n) ∧ Good dev start is lh rest stack
  | .brelse i :: is, lh, pins, stack => Good dev start is lh pins (stack.eraseIdx i)

structure Logging (s : State P) : Prop where
  calls : ∀ p b, (s.ctl p).call.log = some b →
    s.logLock = some p ∧ b ∈ (s.ctl p).held ∧ (s.buf b).dev = s.dev ∧ (s.buf b).blockno ∉ s.lh
  locked : s.logLock ≠ none → 1 ≤ s.outstanding
  nodup : s.lh.Nodup
  waiting : s.committing = false → s.pins = s.lh ++ s.written
  pins : s.pins <:+ s.lh ++ s.written
  busy : s.committing = true → s.outstanding < 1 ∧ ∃ p is, s.op p = .committing is
  sole : ∀ p q is js, s.op p = .committing is → s.op q = .committing js → p = q
  plan : ∀ p is, s.op p = .committing is → s.committing = true ∧
    ∃ stack, (s.panic = none → stack = (s.ctl p).stack.map s.home) ∧ Good s.dev s.start is s.lh s.pins stack

variable {s s' : State P} {p : P}

theorem logging_init (dev start size : ℕ) : Logging (init dev start size : State P) where
  calls p b h := by cases h
  locked h := absurd rfl h
  nodup := nodup_nil
  waiting _ := rfl
  pins := suffix_refl []
  busy h := by cases h
  sole p q is js h := by cases h
  plan p is h := by cases h

/-- While a process is in `log_write`, no transaction commits. -/
theorem Logging.not_committing (h : Logging s) (hlock : s.logLock ≠ none) : s.committing = false := by
  cases hc : s.committing with
  | false => rfl
  | true =>
    have := h.locked hlock
    have := (h.busy hc).1
    omega

theorem written_eq_nil (h : ∀ p, s.logLock = some p → ∀ b, (s.ctl p).call ≠ .pinned b) : s.written = [] := by
  unfold State.written
  split
  · rename_i p hlock
    split
    · rename_i b hcall
      exact absurd hcall (h p hlock b)
    · rfl
  · rfl

theorem written_of_pinned {b : Ptr} (hlock : s.logLock = some p) (hcall : (s.ctl p).call = .pinned b) :
    s.written = [(s.buf b).blockno] := by
  unfold State.written
  rw [hlock]
  dsimp only
  rw [hcall]

theorem written_of_pinning {b : Ptr} (hlock : s.logLock = some p) (hcall : (s.ctl p).call = .pinning b) : s.written = [] :=
  written_eq_nil fun r hr c hc => by
    cases hlock.symm.trans hr
    rw [hcall] at hc
    cases hc

structure SameLog (s s' : State P) : Prop where
  dev : s'.dev = s.dev := by rfl
  start : s'.start = s.start := by rfl
  lh : s'.lh = s.lh := by rfl
  outstanding : s'.outstanding = s.outstanding := by rfl
  committing : s'.committing = s.committing := by rfl
  logLock : s'.logLock = s.logLock := by rfl
  pins : s'.pins = s.pins := by rfl

/-- The process does something that is no business of the log's. -/
structure Quiet (s : State P) (p : P) (s' : State P) : Prop where
  log : SameLog s s'
  op : ∀ q, q ≠ p → s'.op q = s.op q
  commits : (∃ is, s'.op p = .committing is) ↔ ∃ is, s.op p = .committing is
  home : ∀ b, 0 < (s.buf b).refcnt → s'.home b = s.home b
  ctl : ∀ q, s'.ctl q = s.ctl q ∨ (s.ctl q).call.log = none ∧ (s'.ctl q).call.log = none
  stack : ∀ q, q ≠ p → (s'.ctl q).stack = (s.ctl q).stack

theorem mem_stack_refs {c : Ctl} {b : Ptr} (h : b ∈ c.stack) : 0 < c.refs b := by
  unfold Ctl.stack at h
  unfold Ctl.refs
  rw [Nat.add_pos_iff_pos_or_pos, count_pos_iff]
  split at h
  all_goals
    first
    | exact .inl h
    | rename_i c' hcall
      rcases mem_cons.mp h with rfl | h
      · right
        rw [hcall, Call.ref, if_pos rfl]
        exact Nat.one_pos
      · exact .inl h

section Quiet

variable [Fintype P]

theorem Quiet.written (q : Quiet s p s') (h : Logging s) (hc : Counted s) : s'.written = s.written := by
  cases hlock : s.logLock with
  | none =>
    rw [written_eq_nil (s := s) (by simp [hlock]), written_eq_nil (s := s') (by simp [q.log.logLock, hlock])]
  | some r =>
    have hlock' : s'.logLock = some r := q.log.logLock.trans hlock
    have hnil (t : State P) (ht : t.logLock = some r) (hnone : ∀ b, (t.ctl r).call ≠ .pinned b) : t.written = [] := by
      refine written_eq_nil fun r' hr' b => ?_
      cases ht.symm.trans hr'
      exact hnone b
    by_cases hpinned : ∃ b, (s.ctl r).call = .pinned b
    · obtain ⟨b, hcall⟩ := hpinned
      have hb : b ∈ (s.ctl r).held := (h.calls r b (by rw [hcall]; rfl)).2.1
      have hhome := q.home b (hc.refcnt_pos (Ctl.refs_pos_of_held hb))
      have hsame : s'.ctl r = s.ctl r := by
        refine (q.ctl r).resolve_right fun hnone => ?_
        rw [hcall] at hnone
        cases hnone.1
      rw [written_of_pinned hlock hcall, written_of_pinned hlock' (hsame ▸ hcall)]
      exact congrArg (fun n => [n]) (Prod.mk.inj hhome).2
    · push Not at hpinned
      rw [hnil s hlock hpinned]
      refine hnil s' hlock' fun b hb => ?_
      rcases q.ctl r with heq | ⟨-, hnone⟩
      · exact hpinned b (heq ▸ hb)
      · rw [hb] at hnone
        cases hnone

theorem Logging.quiet (h : Logging s) (hc : Counted s) (q : Quiet s p s') (hpanic : s.panic = none)
    (hplan : ∀ is, s'.op p = .committing is →
      ∃ stack, (s'.panic = none → stack = (s'.ctl p).stack.map s'.home) ∧ Good s.dev s.start is s.lh s.pins stack) :
    Logging s' := by
  have hcommits (r : P) (is : List Instr) (hr : s'.op r = .committing is) : ∃ js, s.op r = .committing js := by
    by_cases hrp : r = p
    · subst hrp
      exact q.commits.mp ⟨is, hr⟩
    · exact ⟨is, (q.op r hrp).symm.trans hr⟩
  refine ⟨fun r b hcall => ?_, ?_, ?_, ?_, ?_, ?_, fun r r' is js hr hr' => ?_, fun r is hr => ?_⟩
  · have hsame : s'.ctl r = s.ctl r := by
      refine (q.ctl r).resolve_right fun hnone => ?_
      rw [hcall] at hnone
      cases hnone.2
    rw [hsame] at hcall ⊢
    obtain ⟨hlock, hheld, hdev, hnot⟩ := h.calls r b hcall
    obtain ⟨hd, hn⟩ := Prod.mk.inj (q.home b (hc.refcnt_pos (Ctl.refs_pos_of_held hheld)))
    rw [q.log.logLock, q.log.dev, q.log.lh, hd, hn]
    exact ⟨hlock, hheld, hdev, hnot⟩
  · rw [q.log.logLock, q.log.outstanding]
    exact h.locked
  · rw [q.log.lh]
    exact h.nodup
  · rw [q.log.committing, q.log.pins, q.log.lh, q.written h hc]
    exact h.waiting
  · rw [q.log.pins, q.log.lh, q.written h hc]
    exact h.pins
  · rw [q.log.committing, q.log.outstanding]
    intro hcom
    obtain ⟨hout, r, is, hr⟩ := h.busy hcom
    by_cases hrp : r = p
    · subst hrp
      exact ⟨hout, r, q.commits.mpr ⟨is, hr⟩⟩
    · exact ⟨hout, r, is, (q.op r hrp).trans hr⟩
  · obtain ⟨is', hr⟩ := hcommits r is hr
    obtain ⟨js', hr'⟩ := hcommits r' js hr'
    exact h.sole r r' is' js' hr hr'
  · rw [q.log.committing, q.log.dev, q.log.start, q.log.lh, q.log.pins]
    obtain ⟨js, hold⟩ := hcommits r is hr
    refine ⟨(h.plan r js hold).1, ?_⟩
    by_cases hrp : r = p
    · subst hrp
      exact hplan is hr
    · rw [q.op r hrp] at hr
      obtain ⟨-, stack, hstack, hgood⟩ := h.plan r is hr
      refine ⟨stack, fun _ => ?_, hgood⟩
      rw [hstack hpanic, q.stack r hrp]
      exact map_congr_left fun b hb => (q.home b (hc.refcnt_pos (mem_stack_refs hb))).symm

end Quiet

section Calls

variable [DecidableEq P]

/-- The process goes on, and may wake others. -/
theorem quiet_ctl (hlog : SameLog s s') (hop : s'.op = s.op) (hold : (s.ctl p).call.log = none)
    (hnew : (s'.ctl p).call.log = none) (hhome : ∀ b, 0 < (s.buf b).refcnt → s'.home b = s.home b)
    (hother : ∀ q, q ≠ p → s'.ctl q = s.ctl q ∨
      ∃ b, (s.ctl q).call = .asleep b ∧ s'.ctl q = { s.ctl q with call := .locking b }) : Quiet s p s' := by
  refine ⟨hlog, fun q _ => by rw [hop], by rw [hop], hhome, fun q => ?_, fun q hq => ?_⟩
  · by_cases hq : q = p
    · rw [hq]
      exact .inr ⟨hold, hnew⟩
    · rcases hother q hq with heq | ⟨b, hcall, heq⟩
      · exact .inl heq
      · rw [heq, hcall]
        exact .inr ⟨rfl, rfl⟩
  · rcases hother q hq with heq | ⟨b, hcall, heq⟩
    · rw [heq]
    · rw [heq]
      unfold Ctl.stack
      rw [hcall]

theorem quiet_update {a : Ctl} (hctl : s'.ctl = update s.ctl p a) (hlog : SameLog s s') (hop : s'.op = s.op)
    (hold : (s.ctl p).call.log = none) (hnew : a.call.log = none)
    (hhome : ∀ b, 0 < (s.buf b).refcnt → s'.home b = s.home b) : Quiet s p s' := by
  refine quiet_ctl hlog hop hold ?_ hhome fun q hq => .inl ?_
  · rwa [hctl, update_self]
  · rw [hctl, update_of_ne hq]

omit [DecidableEq P] in
theorem quiet_panic (s : State P) (p : P) (x : Option Panic) : Quiet s p { s with panic := x } :=
  ⟨{}, fun _ _ => rfl, Iff.rfl, fun _ _ => rfl, fun _ => .inl rfl, fun _ _ => rfl⟩

theorem Quiet.setOp (q : Quiet s p s') {is : List Instr} (hop : s.op p = .committing is) (js : List Instr) :
    Quiet s p (s'.setOp p (.committing js)) := by
  refine ⟨{ q.log with },
    fun r hr => ?_, ⟨fun _ => ⟨is, hop⟩, fun _ => ⟨js, update_self ..⟩⟩, q.home, q.ctl, q.stack⟩
  rw [← q.op r hr]
  exact update_of_ne hr _ _

/-- `bget` leaves the process waiting for the buffer of the block, or panics. -/
theorem bget_spec (hord : Ordered s) (hidle : (s.ctl p).call = .idle) {dev blockno : ℕ}
    (h : s.bget p dev blockno = some s') : Quiet s p s' ∧ s'.op = s.op ∧
      (s'.panic = some .bget ∨ s'.panic = s.panic ∧ ∃ b, s'.home b = (dev, blockno) ∧
        s'.ctl = update s.ctl p { s.ctl p with call := .locking b }) := by
  have hlog : (s.ctl p).call.log = none := by rw [hidle]; rfl
  unfold State.bget at h
  split at h
  · cases h
  · rename_i b hb
    cases h
    refine ⟨quiet_update rfl {} rfl hlog rfl fun c _ => home_frame rfl (by rfl) c, rfl,
      .inr ⟨rfl, b, ?_, rfl⟩⟩
    rcases hord.cached dev blockno with ⟨c, hc, -, heq⟩ | ⟨hc, -⟩
    · cases hb.symm.trans hc
      exact (home_frame rfl (by rfl) b).trans heq
    · cases hb.symm.trans hc
  · split at h
    · cases h
    · rename_i b hb
      cases h
      refine ⟨quiet_update rfl {} rfl hlog rfl fun c hc => ?_, rfl,
        .inr ⟨rfl, b, ?_, rfl⟩⟩
      · -- the buffer that is recycled is not in use
        rcases hord.unused with ⟨d, hd, -, hzero, -⟩ | ⟨hd, -⟩
        · cases hb.symm.trans hd
          have hcb : c ≠ b := fun hcb => by
            rw [hcb, hzero] at hc
            exact absurd hc (Nat.lt_irrefl 0)
          unfold State.home
          rw [setCall_buf, setBuf_of_ne _ _ _ hcb]
        · cases hb.symm.trans hd
      · unfold State.home
        rw [setCall_buf, setBuf_self]
    · cases h
      exact ⟨quiet_panic s p _, rfl, .inl rfl⟩

theorem brelse_spec (hidle : (s.ctl p).call = .idle) (b : Ptr) : Quiet s p (s.brelse p b) ∧
    ((s.brelse p b).panic = none → ((s.brelse p b).ctl p).stack = (s.ctl p).held.erase b) ∧
    ∀ c, (s.brelse p b).home c = s.home c := by
  unfold State.brelse
  split_ifs with hlock
  · have hself : ((s.setBuf b fun x => { x with lock := none }).wakeup b).ctl p = s.ctl p :=
      if_neg (by rw [setBuf_ctl, hidle]; simp)
    refine ⟨quiet_ctl {} rfl (by rw [hidle]; rfl) ?_
      (fun c _ => home_frame (b := b) rfl (by rfl) c) fun q hq => ?_, fun _ => ?_, fun c => home_frame (b := b) rfl (by rfl) c⟩
    · rw [setCtl_ctl, update_self]
      rfl
    · rw [setCtl_ctl, update_of_ne hq]
      by_cases hcall : (s.ctl q).call = .asleep b
      · exact .inr ⟨b, hcall, if_pos hcall⟩
      · exact .inl (if_neg hcall)
    · rw [setCtl_ctl, update_self, hself]
      rfl
  · refine ⟨quiet_panic s p _, ?_, fun _ => rfl⟩
    rintro ⟨⟩

end Calls

section Transactions

theorem written_of_unlocked (hlock : s.logLock = none) : s.written = [] :=
  written_eq_nil fun p hp => by rw [hlock] at hp; cases hp

/-- Only the holder of `log.lock` is in `log_write`. -/
theorem Logging.call_none (h : Logging s) (hlock : s.logLock = none) (r : P) : (s.ctl r).call.log = none := by
  cases hcall : (s.ctl r).call.log with
  | none => rfl
  | some b =>
    have := (h.calls r b hcall).1
    rw [hlock] at this
    cases this

theorem Logging.not_op (h : Logging s) (hcom : s.committing = false) (r : P) (is : List Instr) :
    s.op r ≠ .committing is := fun hr => by
  have := (h.plan r is hr).1
  rw [hcom] at this
  cases this

/-- `log.lock` is free while a process commits. -/
theorem Logging.unlocked (h : Logging s) {is : List Instr} (hop : s.op p = .committing is) : s.logLock = none := by
  by_contra hlock
  exact h.not_op (h.not_committing hlock) p is hop

variable [DecidableEq P]

section

variable (h : Logging s)

include h

theorem logging_pinning {b : Ptr} (hlock : s.logLock = none) (hop : ∀ is, s.op p ≠ .committing is)
    (hheld : b ∈ (s.ctl p).held) (hdev : (s.buf b).dev = s.dev) (hout : ¬s.outstanding < 1)
    (hnew : (s.buf b).blockno ∉ s.lh) : Logging { s.setCall p (.pinning b) with logLock := some p } := by
  have hself : ({ s.setCall p (.pinning b) with logLock := some p } : State P).ctl p =
      { s.ctl p with call := .pinning b } := update_self ..
  have hother (r : P) (hr : r ≠ p) : ({ s.setCall p (.pinning b) with logLock := some p } : State P).ctl r = s.ctl r :=
    update_of_ne hr _ _
  have hwritten : ({ s.setCall p (.pinning b) with logLock := some p } : State P).written = s.written := by
    rw [written_of_unlocked hlock]
    exact written_of_pinning (b := b) rfl (by rw [hself])
  refine ⟨fun r c hcall => ?_, fun _ => not_lt.mp hout, h.nodup, ?_, ?_, h.busy, h.sole, fun r is hr => ?_⟩
  · by_cases hr : r = p
    · rw [hr, hself] at hcall ⊢
      cases hcall
      exact ⟨rfl, hheld, hdev, hnew⟩
    · rw [hother r hr, h.call_none hlock r] at hcall
      cases hcall
  · rw [hwritten]
    exact h.waiting
  · rw [hwritten]
    exact h.pins
  · obtain ⟨hcom, stack, hstack, hgood⟩ := h.plan r is hr
    refine ⟨hcom, stack, fun hpanic => ?_, hgood⟩
    rw [hother r fun hrp => hop is (hrp ▸ hr)]
    exact hstack hpanic

/-- The process that holds `log.lock` goes on in `log_write`. -/
theorem logging_bpin {b : Ptr} (hcall : (s.ctl p).call = .pinning b) : Logging (s.bpin p b) := by
  obtain ⟨hlock, hheld, hdev, hnew⟩ := h.calls p b (by rw [hcall]; rfl)
  have hcom : s.committing = false := h.not_committing (by rw [hlock]; nofun)
  have hself : (s.bpin p b).ctl p = { s.ctl p with call := .pinned b } := update_self ..
  have hother (r : P) (hr : r ≠ p) : (s.bpin p b).ctl r = s.ctl r := update_of_ne hr _ _
  have hbuf : (s.bpin p b).buf = update s.buf b { s.buf b with refcnt := (s.buf b).refcnt + 1 } := rfl
  have hblock (c : Ptr) : ((s.bpin p b).buf c).blockno = (s.buf c).blockno := update_frame Buf.blockno hbuf rfl c
  have hbdev (c : Ptr) : ((s.bpin p b).buf c).dev = (s.buf c).dev := update_frame Buf.dev hbuf rfl c
  have hpins : (s.bpin p b).pins = s.lh ++ (s.bpin p b).written := by
    rw [written_of_pinned (s := s.bpin p b) (b := b) hlock (by rw [hself]), hblock]
    change s.pins ++ _ = _
    rw [h.waiting hcom, written_of_pinning hlock hcall, append_nil]
  refine ⟨fun r c hc => ?_, h.locked, h.nodup, fun _ => hpins, ⟨[], hpins⟩, h.busy, h.sole,
    fun r is hr => absurd hr (h.not_op hcom r is)⟩
  rw [hblock, hbdev]
  by_cases hr : r = p
  · rw [hr, hself] at hc ⊢
    cases hc
    exact ⟨hlock, hheld, hdev, hnew⟩
  · rw [hother r hr] at hc ⊢
    exact h.calls r c hc

theorem logging_logged {b : Ptr} (hcall : (s.ctl p).call = .pinned b) : Logging (s.logged p b) := by
  obtain ⟨hlock, hheld, hdev, hnew⟩ := h.calls p b (by rw [hcall]; rfl)
  have hcom : s.committing = false := h.not_committing (by rw [hlock]; nofun)
  have hself : (s.logged p b).ctl p = { s.ctl p with call := .idle } := update_self ..
  have hother (r : P) (hr : r ≠ p) : (s.logged p b).ctl r = s.ctl r := update_of_ne hr _ _
  have hpins : (s.logged p b).pins = (s.logged p b).lh ++ (s.logged p b).written := by
    rw [written_of_unlocked (s := s.logged p b) rfl, append_nil]
    change s.pins = s.lh ++ _
    rw [h.waiting hcom, written_of_pinned hlock hcall]
  refine ⟨fun r c hc => ?_, fun hne => absurd rfl hne, ?_, fun _ => hpins, ⟨[], hpins⟩, h.busy, h.sole,
    fun r is hr => absurd hr (h.not_op hcom r is)⟩
  · by_cases hr : r = p
    · rw [hr, hself] at hc
      cases hc
    · rw [hother r hr] at hc
      cases hlock.symm.trans (h.calls r c hc).1
      exact absurd rfl hr
  · refine nodup_append.mpr ⟨h.nodup, nodup_singleton _, fun n hn m hm heq => hnew ?_⟩
    rwa [← mem_singleton.mp hm, ← heq]

/-- `begin_op`, and an `end_op` that is not the last one. -/
theorem logging_outstanding (hcom : s.committing = false) (hlock : s.logLock = none) {o : Op}
    (ho : ∀ is, o ≠ .committing is) (n : ℤ) : Logging { s.setOp p o with outstanding := n } := by
  have hop (r : P) (is : List Instr) : (update s.op p o) r ≠ .committing is := by
    by_cases hr : r = p
    · rw [hr, update_self]
      exact ho is
    · rw [update_of_ne hr]
      exact h.not_op hcom r is
  refine ⟨h.calls, fun hne => absurd hlock hne, h.nodup, h.waiting, h.pins, fun hc => ?_,
    fun r r' is js hr => absurd hr (hop r is), fun r is hr => absurd hr (hop r is)⟩
  cases hcom.symm.trans hc

theorem logging_endOp (hlock : s.logLock = none) (hop : s.op p = .inside) : Logging (s.endOp p) := by
  unfold State.endOp
  dsimp only
  split_ifs with hcom hzero
  · obtain ⟨hout, hcommits⟩ := h.busy hcom
    refine ⟨h.calls, fun hne => absurd hlock hne, h.nodup, h.waiting, h.pins, fun _ => ⟨?_, hcommits⟩, h.sole,
      fun r is hr => ?_⟩
    · change s.outstanding - 1 < 1
      omega
    · obtain ⟨hc, stack, -, hgood⟩ := h.plan r is hr
      exact ⟨hc, stack, nofun, hgood⟩
  · have hcom : s.committing = false := by simpa using hcom
    have hop' (r : P) (is : List Instr) (hr : (update s.op p (.committing [.commit])) r = .committing is) :
        r = p ∧ is = [.commit] := by
      by_cases hrp : r = p
      · rw [hrp, update_self] at hr
        cases hr
        exact ⟨hrp, rfl⟩
      · rw [update_of_ne hrp] at hr
        exact absurd hr (h.not_op hcom r is)
    have hpins : s.pins = s.lh := by
      rw [h.waiting hcom, written_of_unlocked hlock, append_nil]
    refine ⟨h.calls, fun hne => absurd hlock hne, h.nodup, nofun, h.pins, fun _ => ⟨?_, p, [.commit], ?_⟩,
      fun r r' is js hr hr' => ?_, fun r is hr => ?_⟩
    · change s.outstanding - 1 < 1
      omega
    · exact update_self ..
    · exact (hop' r is hr).1.trans (hop' r' js hr').1.symm
    · obtain ⟨rfl, rfl⟩ := hop' r is hr
      exact ⟨rfl, _, fun _ => rfl, rfl, hpins⟩
  · exact logging_outstanding (o := .out) h (by simpa using hcom) hlock (fun _ => nofun) _

theorem logging_finish (hop : s.op p = .committing []) : Logging (s.finish p) := by
  have hlock := h.unlocked hop
  have hpins : s.pins = s.lh ++ s.written := by
    obtain ⟨-, stack, -, hgood⟩ := h.plan p [] hop
    rwa [written_of_unlocked hlock, append_nil]
  have hop' (r : P) (is : List Instr) : (update s.op p .out) r ≠ .committing is := by
    intro hr
    by_cases hrp : r = p
    · rw [hrp, update_self] at hr
      cases hr
    · rw [update_of_ne hrp] at hr
      exact hrp (h.sole r p is [] hr hop)
  exact ⟨h.calls, h.locked, h.nodup, fun _ => hpins, h.pins, (nofun),
    fun r r' is js hr => absurd hr (hop' r is),
    fun r is hr => absurd hr (hop' r is)⟩

/-- A statement of `commit` that changes the header or the pins. -/
theorem logging_commit {is js : List Instr} (hop : s.op p = .committing is)
    (hctl : s'.ctl = s.ctl) (hlock : s'.logLock = s.logLock) (hout : s'.outstanding = s.outstanding)
    (hcom : s'.committing = s.committing) (hop' : s'.op = update s.op p (.committing js))
    (hnodup : s'.lh.Nodup) (hpins : s'.pins <:+ s'.lh)
    (hplan : ∃ stack, (s'.panic = none → stack = (s'.ctl p).stack.map s'.home) ∧
      Good s'.dev s'.start js s'.lh s'.pins stack) : Logging s' := by
  have hnone := h.unlocked hop
  have htrue := (h.plan p is hop).1
  have hself (r : P) (ks : List Instr) (hr : s'.op r = .committing ks) : r = p ∧ ks = js := by
    rw [hop'] at hr
    by_cases hrp : r = p
    · rw [hrp, update_self] at hr
      cases hr
      exact ⟨hrp, rfl⟩
    · rw [update_of_ne hrp] at hr
      exact absurd (h.sole r p ks is hr hop) hrp
  have hwritten : s'.written = [] := written_of_unlocked (hlock.trans hnone)
  refine ⟨fun r b hcall => ?_, fun hne => absurd (hlock.trans hnone) hne, hnodup, fun hfalse => ?_, ?_, fun _ => ?_,
    fun r r' ks ks' hr hr' => (hself r ks hr).1.trans (hself r' ks' hr').1.symm, fun r ks hr => ?_⟩
  · rw [hctl, h.call_none hnone r] at hcall
    cases hcall
  · rw [hcom, htrue] at hfalse
    cases hfalse
  · rwa [hwritten, append_nil]
  · rw [hout, hop']
    exact ⟨(h.busy htrue).1, p, js, update_self ..⟩
  · obtain ⟨rfl, rfl⟩ := hself r ks hr
    exact ⟨hcom.trans htrue, hplan⟩

end

end Transactions

section Steps

variable [Fintype P] [DecidableEq P]

theorem stack_of_idle {c : Ctl} (h : c.call = .idle) : c.stack = c.held := by
  unfold Ctl.stack
  rw [h]

/-- The process goes on, and stays where it was in `commit`. -/
theorem Logging.goes (h : Logging s) (hc : Counted s) (hpanic : s.panic = none) {a : Ctl}
    (hctl : s'.ctl = update s.ctl p a) (hlog : SameLog s s') (hop : s'.op = s.op)
    (hold : (s.ctl p).call.log = none) (hnew : a.call.log = none) (hstack : a.stack = (s.ctl p).stack)
    (hhome : ∀ b, s'.home b = s.home b) : Logging s' := by
  refine h.quiet hc (quiet_update hctl hlog hop hold hnew fun b _ => hhome b) hpanic fun is his => ?_
  rw [hop] at his
  obtain ⟨-, stack, hs, hgood⟩ := h.plan p is his
  refine ⟨stack, fun _ => ?_, hgood⟩
  rw [hs hpanic, hctl, update_self, hstack]
  exact map_congr_left fun b _ => (hhome b).symm

omit [DecidableEq P] in
/-- The process is not in `commit`. -/
theorem Logging.outside (h : Logging s) (hc : Counted s) (q : Quiet s p s') (hpanic : s.panic = none)
    (hop : ∀ is, s.op p ≠ .committing is) : Logging s' := by
  refine h.quiet hc q hpanic fun is his => ?_
  obtain ⟨js, hjs⟩ := q.commits.mp ⟨is, his⟩
  exact absurd hjs (hop js)

/-- A statement of `commit` that is no business of the log's, with the statements `js` behind it. -/
theorem Logging.moves (h : Logging s) (hc : Counted s) (q : Quiet s p s') (hpanic : s.panic = none) {is js : List Instr}
    (hop : s.op p = .committing is) {stack : List (ℕ × ℕ)} (hgood : Good s.dev s.start js s.lh s.pins stack)
    (hstack : s'.panic = none → stack = (s'.ctl p).stack.map s'.home) : Logging (s'.setOp p (.committing js)) := by
  refine h.quiet hc (q.setOp hop js) hpanic fun ks hks => ⟨stack, hstack, ?_⟩
  change update s'.op p _ p = _ at hks
  rw [update_self] at hks
  cases hks
  exact hgood

theorem logging_exec (hord : Ordered s) (hown : Owned s) (hc : Counted s) (h : Logging s) {i : Instr} {is : List Instr}
    (hpanic : s.panic = none) (hidle : (s.ctl p).call = .idle) (hop : s.op p = .committing (i :: is))
    (hs : s.exec p is i = some s') : Logging s' := by
  obtain ⟨-, stack, hstack, hgood⟩ := h.plan p _ hop
  have hstack := hstack hpanic
  -- a statement that only changes what comes next
  have hgoto (js : List Instr) (hjs : Good s.dev s.start js s.lh s.pins stack) :
      Logging (s.setOp p (.committing js)) :=
    h.moves hc (quiet_panic s p s.panic) hpanic hop hjs fun _ => hstack
  unfold State.exec at hs
  cases i with
  | commit =>
    cases hs
    obtain ⟨rfl, hpins⟩ := hgood
    split_ifs with hlen
    · exact hgoto _ ⟨hpins, rfl, rfl⟩
    · refine hgoto _ ?_
      exact hpins
  | writeLog tail =>
    cases hs
    split_ifs with hlen
    · exact hgoto _ hgood
    · exact hgoto _ hgood
  | writeHead =>
    cases hs
    exact hgoto _ hgood
  | installTrans tail =>
    cases hs
    obtain ⟨hpins, hgood⟩ := hgood
    split_ifs with hlen
    · refine hgoto _ ⟨s.lh.getD tail 0, s.lh.drop (tail + 1), ?_, rfl, rfl, hgood⟩
      rw [hpins, drop_eq_getElem_cons hlen, getD_eq_getElem?_getD,
        List.getElem?_eq_getElem hlen, getD_some]
    · refine hgoto _ ?_
      rwa [hpins, drop_eq_nil_of_le (not_lt.mp hlen)]
  | clear =>
    cases hs
    obtain ⟨hpins, hgood⟩ := hgood
    refine logging_commit h hop rfl rfl rfl rfl rfl nodup_nil ?_ ⟨stack, fun _ => hstack, ?_⟩
    · change s.pins <:+ []
      rw [hpins]
    · change Good s.dev s.start is [] s.pins stack
      rwa [hpins]
  | bread t =>
    change (s.setOp p (.committing is)).bget p s.dev (s.target t) = some s' at hs
    rw [bget_setOp] at hs
    obtain ⟨s₁, hs₁, rfl⟩ := map_eq_some_iff.mp hs
    obtain ⟨q, -, hcall⟩ := bget_spec hord hidle hs₁
    refine h.moves hc q hpanic hop hgood fun hp => ?_
    obtain ⟨-, b, hhome, hctl⟩ := hcall.resolve_left (by rw [hp]; nofun)
    have hb : (s₁.ctl p).stack = b :: (s.ctl p).stack := by
      rw [hctl, update_self]
      simp [Ctl.stack, hidle]
    have hrest : (s.ctl p).stack.map s₁.home = (s.ctl p).stack.map s.home :=
      map_congr_left fun c hcs => q.home c (hc.refcnt_pos (mem_stack_refs hcs))
    rw [hb, map_cons, hhome, hstack, hrest]
    cases t <;> rfl
  | bwrite k =>
    obtain ⟨b, -, rfl⟩ := map_eq_some_iff.mp hs
    rw [bwrite_setOp]
    unfold State.bwrite
    split_ifs
    · exact hgoto is hgood
    · exact h.moves hc (quiet_panic s p _) hpanic hop hgood nofun
  | bunpin k =>
    obtain ⟨b, hb, rfl⟩ := map_eq_some_iff.mp hs
    obtain ⟨n, rest, hpins, hk, hgood⟩ := hgood
    have hblock : s.home b = (s.dev, n) := by
      rw [hstack, stack_of_idle hidle, List.getElem?_map, hb] at hk
      exact Option.some.inj hk
    have herase : s.pins.erase (s.buf b).blockno = rest := by
      rw [show (s.buf b).blockno = n from congrArg Prod.snd hblock, hpins, erase_cons_head]
    have hsuffix : s.pins <:+ s.lh := by
      have := h.pins
      rwa [written_of_unlocked (h.unlocked hop), append_nil] at this
    refine logging_commit h hop rfl rfl rfl rfl rfl h.nodup ?_ ⟨stack, fun _ => ?_, ?_⟩
    · change s.pins.erase (s.buf b).blockno <:+ s.lh
      rw [herase]
      rw [hpins] at hsuffix
      exact (suffix_cons n rest).trans hsuffix
    · rw [hstack]
      refine map_congr_left fun c _ => ?_
      exact (home_frame (b := b) (s := s) rfl (by rfl) c).symm
    · change Good s.dev s.start is s.lh (s.pins.erase (s.buf b).blockno) stack
      rwa [herase]
  | brelse k =>
    obtain ⟨b, hb, rfl⟩ := map_eq_some_iff.mp hs
    rw [brelse_setOp]
    obtain ⟨q, hnew, hhome⟩ := brelse_spec (s := s) hidle b
    refine h.moves hc q hpanic hop hgood fun hp => ?_
    have hnodup : (s.ctl p).held.Nodup := by
      have := hown.nodup p
      unfold Ctl.locks at this
      rwa [hidle] at this
    obtain ⟨hlen, rfl⟩ := List.getElem?_eq_some_iff.mp hb
    rw [hnew hp, hnodup.erase_getElem, hstack, stack_of_idle hidle, eraseIdx_map]
    exact map_congr_left fun c _ => (hhome c).symm

theorem logging_step (hord : Ordered s) (hown : Owned s) (hc : Counted s) (h : Logging s) {e : Event P}
    (hs : s.step e = some s') : Logging s' := by
  unfold State.step at hs
  by_cases hpanic : s.panic = none
  case neg =>
    rw [if_neg hpanic] at hs
    cases hs
  rw [if_pos hpanic] at hs
  cases e
  case' bread p _ _ | bwrite p _ | brelse p _ | logWrite p _ | beginOp p => obtain ⟨hidle, hop, hs⟩ := calls_some hs
  case' bwrite | brelse => cases hs
  case' lock p | wake p | read p | unref p | bpin p | logged p =>
    dsimp only at hs
    split at hs
    case' h_2 => cases hs
    rename_i b hcall
    cases hs
  case' wake | read | unref =>
    refine h.goes hc hpanic rfl {} rfl (by rw [hcall]; rfl) rfl (by simp [Ctl.stack, hcall]) ?_
  case bread => exact h.outside hc (bget_spec hord hidle hs).1 hpanic hop
  case bwrite =>
    unfold State.bwrite
    split_ifs
    · exact h
    · exact h.outside hc (quiet_panic s p _) hpanic hop
  case brelse b => exact h.outside hc (brelse_spec hidle b).1 hpanic hop
  case logWrite =>
    split_ifs at hs with hguard
    obtain ⟨hlock, hheld, hdev⟩ := hguard
    cases hs
    unfold State.logWrite
    split_ifs with hbig hout hmem
    · exact h.outside hc (quiet_panic s p _) hpanic hop
    · exact h.outside hc (quiet_panic s p _) hpanic hop
    · exact h
    · exact logging_pinning h hlock hop hheld hdev hout hmem
  case beginOp =>
    split_ifs at hs with hlock
    unfold State.beginOp at hs
    split_ifs at hs with hcom
    cases hs
    exact logging_outstanding (o := .inside) h (by simpa using hcom) hlock (fun _ => nofun) _
  case endOp p =>
    dsimp only at hs
    split at hs
    · rename_i hop
      obtain ⟨-, -, hs⟩ := calls_some hs
      split_ifs at hs with hlock
      cases hs
      exact logging_endOp h hlock hop
    · cases hs
  case commit p =>
    dsimp only at hs
    split at hs
    · rename_i hidle hop
      exact logging_exec hord hown hc h hpanic hidle hop hs
    · cases hs
  case finish p =>
    dsimp only at hs
    split at hs
    · rename_i hop
      split_ifs at hs
      cases hs
      exact logging_finish h hop
    · cases hs
  case lock =>
    unfold State.acquiresleep
    split_ifs
    all_goals
      refine h.goes hc hpanic rfl {} rfl (by rw [hcall]; rfl) rfl
        (by simp [Ctl.stack, hcall]) ?_
    · exact home_frame rfl (by rfl)
    · exact fun _ => rfl
  case wake => exact fun _ => rfl
  case read => exact home_frame rfl (by rfl)
  case unref => exact home_frame rfl (by rfl)
  case bpin => exact logging_bpin h hcall
  case logged => exact logging_logged h hcall

end Steps

section Runs

/-- The block that `bpin` pins is not pinned yet. -/
theorem Logging.bpin_new (h : Logging s) (b : Ptr) (hcall : (s.ctl p).call = .pinning b) :
    b ∈ (s.ctl p).held ∧ (s.buf b).dev = s.dev ∧ (s.buf b).blockno ∉ s.pins := by
  obtain ⟨hlock, hheld, hdev, hnew⟩ := h.calls p b (by rw [hcall]; rfl)
  refine ⟨hheld, hdev, ?_⟩
  rwa [h.waiting (h.not_committing (by rw [hlock]; nofun)), written_of_pinning hlock hcall, append_nil]

variable [Fintype P]

structure Sound (s : State P) : Prop where
  ordered : Ordered s
  owned : Owned s
  counted : Counted s
  logging : Logging s

theorem sound_init {dev : ℕ} (hdev : dev ≠ 0) (start size : ℕ) : Sound (init dev start size : State P) :=
  ⟨ordered_init dev start size, owned_init dev start size, counted_init hdev start size, logging_init dev start size⟩

/-- The block that `bunpin` unpins is pinned. -/
theorem Sound.bunpin_pinned (h : Sound s) (hpanic : s.panic = none) (hidle : (s.ctl p).call = .idle) (b : Ptr) (i : ℕ)
    (is : List Instr) (hop : s.op p = .committing (.bunpin i :: is)) (hheld : (s.ctl p).held[i]? = some b) :
    s.Pinned b := by
  obtain ⟨-, stack, hstack, n, rest, hpins, hi, -⟩ := h.logging.plan p _ hop
  rw [hstack hpanic, stack_of_idle hidle, List.getElem?_map, hheld] at hi
  obtain ⟨hdev, hblock⟩ := Prod.mk.inj (Option.some.inj hi)
  refine ⟨h.counted.real p b (Ctl.refs_pos_of_held (mem_of_getElem? hheld)), hdev, ?_⟩
  rw [hblock, hpins]
  exact mem_cons_self

variable [DecidableEq P]

omit [Fintype P] in
theorem step_panic {e : Event P} (hs : s.step e = some s') : s.panic = none := by
  by_contra hpanic
  unfold State.step at hs
  rw [if_neg hpanic] at hs
  cases hs

theorem sound_step (h : Sound s) {e : Event P} (hs : s.step e = some s') : Sound s' := by
  obtain ⟨t, hd, ha⟩ := step_does hs
  have hbunpin := h.bunpin_pinned (p := e.proc) (step_panic hs)
  have hord := ordered_does h.ordered h.counted hbunpin hd
  have hown := owned_does h.owned hd
  have hcount := counted_does h.ordered h.owned h.counted h.logging.bpin_new hbunpin hd
  refine ⟨?_, ?_, ?_, logging_step h.ordered h.owned h.counted h.logging hs⟩
  · exact hord.of_refcnt ha.links ha.released ha.now fun c hc => by rwa [ha.buf] at hc
  · exact hown.congr (fun c => by rw [ha.buf]) fun q => by rw [ha.ctl]
  · exact hcount.congr ha.dev ha.pins (fun c => by unfold State.home; rw [ha.buf]) (fun c => by rw [ha.buf])
      (fun c => by rw [ha.buf]) (fun q => by rw [ha.ctl]) fun q c => by rw [ha.ctl]

theorem sound_run {dev start size : ℕ} (hdev : dev ≠ 0) {es : List (Event P)} (hrun : run dev start size es = some s) :
    Sound s := System.exec_invariant step (sound_init hdev start size) (fun _ _ _ h hs => sound_step h hs) es s hrun

omit [Fintype P] in
/-- A buffer keeps its block, or is recycled: it is unused, and the one of these released longest ago. -/
theorem does_buf (hord : Ordered s) (hd : Does s p s') (b : Ptr) :
    (s'.home b = s.home b ∧ ((s.buf b).valid = true → (s'.buf b).valid = true)) ∨
      ((s.buf b).refcnt = 0 ∧ ∀ c, c ≠ head → (s.buf c).refcnt = 0 → s.released b ≤ s.released c) := by
  have hkeep {a : Ptr} {x : Buf P} (hbuf : s'.buf = update s.buf a x) (hx : (x.dev, x.blockno) = s.home a)
      (hvalid : (s.buf a).valid = true → x.valid = true) :
      s'.home b = s.home b ∧ ((s.buf b).valid = true → (s'.buf b).valid = true) := by
    refine ⟨home_frame hbuf hx b, ?_⟩
    rw [hbuf]
    by_cases hb : b = a
    · rwa [hb, update_self]
    · rw [update_of_ne hb]
      exact id
  cases hd with
  | nothing | sleep | wake | pinning | logged => exact .inl ⟨rfl, id⟩
  | hit dev blockno a | acquire a | release a | unref a | bpin a | bunpin a =>
    exact .inl (hkeep (a := a) rfl (by rfl) (by exact id))
  | read a => exact .inl (hkeep (a := a) rfl (by rfl) fun _ => rfl)
  | recycle dev blockno a hidle hnone hfound =>
    rcases hord.unused with ⟨c, hc, -, hzero, hold⟩ | ⟨hc, -⟩
    · cases hfound.symm.trans hc
      by_cases hb : b = a
      · exact .inr (hb ▸ ⟨hzero, hold⟩)
      · left
        unfold State.home
        rw [setCall_buf, setBuf_of_ne _ _ _ hb]
        exact ⟨rfl, id⟩
    · cases hfound.symm.trans hc

/-- The list holds every buffer once, in both directions; no two buffers hold the same block; `refcnt` counts the
references of processes and the pin of the log, which a block has from `log_write` to its installation; a
step gives only unused buffers to another block, of these the one released longest ago, so that a pinned
block stays. -/
theorem buffer_cache {dev : ℕ} (hdev : dev ≠ 0) (start size : ℕ) (es : List (Event P)) (s : State P)
    (hrun : run dev start size es = some s) :
    (∃ L, (∀ b, b ∈ L ↔ b ≠ head) ∧ L.Nodup ∧ Ring.Walk s.links.next s.links.prev head L head) ∧
    (∀ b c, b ≠ head → c ≠ head → (s.buf b).dev ≠ 0 → s.home b = s.home c → b = c) ∧
    (∀ b, b ≠ head → (s.buf b).refcnt = s.refs b + if s.Pinned b then 1 else 0) ∧
    (s.logLock = none → s.pins <:+ s.lh ∧ (s.committing = false → s.pins = s.lh)) ∧
    (∀ dev' blockno, s.cached dev' blockno ≠ none ∧ s.unused ≠ none) ∧
    ∀ e s', s.step e = some s' →
      (∀ b, b ≠ head → s'.home b ≠ s.home b →
        (s.buf b).refcnt = 0 ∧ ∀ c, c ≠ head → (s.buf c).refcnt = 0 → s.released b ≤ s.released c) ∧
      ∀ b, s.Pinned b → s'.home b = s.home b ∧ (s'.buf b).valid = true := by
  have h := sound_run hdev hrun
  refine ⟨?_, h.counted.unique, h.counted.count, fun hlock => ?_, fun dev' blockno => ⟨?_, ?_⟩, fun e s' hs => ?_⟩
  · obtain ⟨L, hL⟩ := h.ordered.list
    exact ⟨L, hL.mem, (nodup_cons.mp hL.ring.nodup).2, hL.ring.walk⟩
  · have hpins := h.logging.pins
    have hwaiting := h.logging.waiting
    rw [written_of_unlocked hlock, append_nil] at hpins hwaiting
    exact ⟨hpins, hwaiting⟩
  · rcases h.ordered.cached dev' blockno with ⟨b, hb, -⟩ | ⟨hb, -⟩ <;> rw [hb] <;> nofun
  · rcases h.ordered.unused with ⟨b, hb, -⟩ | ⟨hb, -⟩ <;> rw [hb] <;> nofun
  · obtain ⟨t, hd, ha⟩ := step_does hs
    have hhome (b : Ptr) : s'.home b = t.home b := by
      unfold State.home
      rw [ha.buf]
    refine ⟨fun b hb hne => ?_, fun b hpin => ?_⟩
    · rw [hhome] at hne
      exact (does_buf h.ordered hd b).resolve_left fun hsame => hne hsame.1
    · rw [hhome, ha.buf]
      rcases does_buf h.ordered hd b with ⟨hsame, hvalid⟩ | ⟨hzero, -⟩
      · exact ⟨hsame, hvalid (h.counted.valid b hpin)⟩
      · have := h.counted.pinned_pos hpin
        omega

/-- Between `bread` and `brelse` the data of a block is valid, and no other process has the block. -/
theorem block_exclusive {dev : ℕ} (hdev : dev ≠ 0) (start size : ℕ) (es : List (Event P)) (s : State P)
    (hrun : run dev start size es = some s) (p : P) (b : Ptr) (hb : b ∈ (s.ctl p).held) : (s.buf b).valid = true ∧
      ((s.buf b).dev ≠ 0 → ∀ q, ∀ c ∈ (s.ctl q).held, s.home b = s.home c → q = p ∧ c = b) := by
  have h := sound_run hdev hrun
  have hlocks (q : P) (hq : b ∈ (s.ctl q).held) : b ∈ (s.ctl q).locks := by
    grind [Ctl.locks]
  refine ⟨h.counted.held p b hb, fun hd q c hc heq => ?_⟩
  obtain rfl := h.counted.unique b c (h.counted.real p b (Ctl.refs_pos_of_held hb))
    (h.counted.real q c (Ctl.refs_pos_of_held hc)) hd heq
  exact ⟨h.owned.unique (hlocks q hc) (hlocks p hb), rfl⟩

/-- Two processes have read blocks of their own. -/
def twoReads : List (Event (Fin 2)) := [.bread 0 1 50, .lock 0, .read 0, .bread 1 1 51, .lock 1, .read 1]

theorem block_exclusive_twoReads : ∃ s : State (Fin 2), run 1 2 30 twoReads = some s ∧ 1 ∈ (s.ctl 1).held ∧
    (s.buf 0).valid = true ∧ s.home 0 ≠ s.home 1 := by
  have hrun : (run 1 2 30 twoReads).map (fun s => ((s.ctl 0).held, (s.ctl 1).held, (s.buf 0).dev)) = some ([0], [1], 1) := by
    decide +kernel
  obtain ⟨s, hs, heq⟩ := map_eq_some_iff.mp hrun
  simp only [Prod.mk.injEq] at heq
  obtain ⟨h0, h1, hdev⟩ := heq
  obtain ⟨hvalid, hothers⟩ := block_exclusive one_ne_zero 2 30 _ s hs 0 0 (by simp [h0])
  refine ⟨s, hs, by simp [h1], hvalid, fun hhome => ?_⟩
  exact absurd (hothers (by simp [hdev]) 1 1 (by simp [h1]) hhome).1 (by decide)

end Runs

/-- A transaction that changes block 50, up to its commit. -/
def logBlock : List (Event (Fin 1)) :=
  [.beginOp 0, .bread 0 1 50, .lock 0, .read 0, .logWrite 0 0, .bpin 0, .logged 0, .brelse 0 0, .unref 0, .endOp 0]

/-- The commit up to the `bunpin` of the block. -/
def installBlock : List (Event (Fin 1)) :=
  let bread : List (Event (Fin 1)) := [.commit 0, .lock 0, .read 0]
  let brelse : List (Event (Fin 1)) := [.commit 0, .unref 0]
  [Event.commit 0, .commit 0] ++ bread ++ bread ++ [Event.commit 0] ++ brelse ++ brelse ++ [Event.commit 0, .commit 0] ++
    bread ++ [Event.commit 0] ++ brelse ++ [Event.commit 0] ++ bread ++ bread ++ [Event.commit 0, .commit 0]

theorem buffer_cache_logged : ∃ s : State (Fin 1), run 1 2 30 logBlock = some s ∧ (1 : ℕ) ≠ 0 ∧ s.Pinned 0 ∧
    s.pins <:+ s.lh ∧ (s.buf 0).refcnt = s.refs 0 + 1 := by
  have hrun : (run (P := Fin 1) 1 2 30 logBlock).map (fun s => (decide (s.Pinned 0), s.logLock)) = some (true, none) := by
    decide +kernel
  obtain ⟨s, hs, heq⟩ := map_eq_some_iff.mp hrun
  obtain ⟨hpin, hlock⟩ := Prod.mk.inj heq
  have hpin : s.Pinned 0 := of_decide_eq_true hpin
  obtain ⟨-, -, hcount, hpins, -⟩ := buffer_cache one_ne_zero 2 30 logBlock s hs
  have hcount := hcount 0 hpin.1
  rw [if_pos hpin] at hcount
  exact ⟨s, hs, one_ne_zero, hpin, (hpins hlock).1, hcount⟩

/-- A process in `brelse` that has given up the lock still counts; and in `install_trans` a block is unpinned while it
is in the header. -/
theorem refcnt_behind_releasesleep :
    (∃ s : State (Fin 1), run 1 2 30 [.bread 0 1 50, .lock 0, .read 0, .brelse 0 0] = some s ∧
      s.home 0 = (1, 50) ∧ (s.buf 0).refcnt = 1 ∧ (∀ p, (s.ctl p).stack = []) ∧ s.lh = []) ∧
    ∃ s : State (Fin 1), run 1 2 30 (logBlock ++ installBlock) = some s ∧
      s.home 0 = (1, 50) ∧ (s.buf 0).refcnt = 1 ∧ (s.ctl 0).stack = [0, 1] ∧ s.lh = [50] := by
  have hrelse : (run (P := Fin 1) 1 2 30 [.bread 0 1 50, .lock 0, .read 0, .brelse 0 0]).map (fun s =>
      (s.home 0, (s.buf 0).refcnt, (s.ctl 0).stack, s.lh)) = some ((1, 50), 1, [], []) := by
    decide +kernel
  have hinstall : (run (P := Fin 1) 1 2 30 (logBlock ++ installBlock)).map (fun s =>
      (s.home 0, (s.buf 0).refcnt, (s.ctl 0).stack, s.lh)) = some ((1, 50), 1, [0, 1], [50]) := by
    decide +kernel
  obtain ⟨s, hs, heq⟩ := map_eq_some_iff.mp hrelse
  obtain ⟨t, ht, heq'⟩ := map_eq_some_iff.mp hinstall
  simp only [Prod.mk.injEq] at heq heq'
  exact ⟨⟨s, hs, heq.1, heq.2.1, fun p => Subsingleton.elim 0 p ▸ heq.2.2.1, heq.2.2.2⟩,
    ⟨t, ht, heq'.1, heq'.2.1, heq'.2.2.1, heq'.2.2.2⟩⟩

end Xv6.Bcache
