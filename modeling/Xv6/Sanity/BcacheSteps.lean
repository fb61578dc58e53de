import Xv6.Spec.Bcache

/-! What a step can do to the buffer cache, the log aside: one process runs one of the critical
sections, in `bread`, in `brelse`, or around a pin. -/

namespace Xv6.Bcache

open State Function

variable {P : Type}

/-- The reference that a call stands for. -/
def Call.ref : Call → Option Ptr
  | .locking b | .asleep b | .reading b | .releasing b => some b
  | _ => none

/-- How often the process counts in `b->refcnt`: it holds the buffer, waits for it, or is about to give up
its reference. -/
def Ctl.refs (b : Ptr) (c : Ctl) : ℕ := c.held.count b + if c.call.ref = some b then 1 else 0

/-- The sleep locks that the process holds. -/
def Ctl.locks (c : Ctl) : List Ptr :=
  match c.call with
  | .reading b => b :: c.held
  | _ => c.held

/-- The buffers that the process has got from `bget` and not given to `brelse`. -/
def Ctl.stack (c : Ctl) : List Ptr :=
  match c.call with
  | .locking b | .asleep b | .reading b => b :: c.held
  | _ => c.held

namespace State

/-- The processes that hold the buffer or wait for it. -/
def refs [Fintype P] (s : State P) (b : Ptr) : ℕ := Count.total (Ctl.refs b) s.ctl

/-- The block that a buffer holds. -/
def home (s : State P) (b : Ptr) : ℕ × ℕ := ((s.buf b).dev, (s.buf b).blockno)

/-- The buffer holds a block that is pinned. -/
def Pinned (s : State P) (b : Ptr) : Prop := b ≠ head ∧ (s.buf b).dev = s.dev ∧ (s.buf b).blockno ∈ s.pins

instance (s : State P) (b : Ptr) : Decidable (s.Pinned b) := inferInstanceAs (Decidable (_ ∧ _))

end State

section Frames

/-- An update changes nothing that `f` reads. -/
theorem update_frame {ι α β : Type} [DecidableEq ι] (f : α → β) {g g' : ι → α} {i : ι} {x : α}
    (h : g' = update g i x) (hx : f x = f (g i)) (j : ι) : f (g' j) = f (g j) := by
  rw [h]
  by_cases hj : j = i
  · rw [hj, update_self, hx]
  · rw [update_of_ne hj]

variable (s : State P) (b : Ptr) (f : Buf P → Buf P)

@[simp] theorem setBuf_self : (s.setBuf b f).buf b = f (s.buf b) := update_self ..

theorem setBuf_of_ne {c : Ptr} (h : c ≠ b) : (s.setBuf b f).buf c = s.buf c := update_of_ne h _ _

@[simp] theorem setBuf_ctl : (s.setBuf b f).ctl = s.ctl := rfl

variable [DecidableEq P] (p : P) (g : Ctl → Ctl) (c : Call)

@[simp] theorem setCtl_ctl : (s.setCtl p g).ctl = update s.ctl p (g (s.ctl p)) := rfl

@[simp] theorem setCall_buf : (s.setCall p c).buf = s.buf := rfl

end Frames

/-- The two states have the same cache and the same processes in it. -/
structure Agree (t s : State P) : Prop where
  buf : s.buf = t.buf := by rfl
  links : s.links = t.links := by rfl
  dev : s.dev = t.dev := by rfl
  ctl : s.ctl = t.ctl := by rfl
  now : s.now = t.now := by rfl
  released : s.released = t.released := by rfl
  pins : s.pins = t.pins := by rfl

theorem Agree.refl (s : State P) : Agree s s := {}

variable [DecidableEq P]

/-- What process `p` can do. -/
inductive Does (s : State P) (p : P) : State P → Prop
  | nothing : Does s p s
  | hit (dev blockno : ℕ) (b : Ptr) (hidle : (s.ctl p).call = .idle) (h : s.cached dev blockno = some (some b)) :
      Does s p ((s.setBuf b fun x => { x with refcnt := x.refcnt + 1 }).setCall p (.locking b))
  | recycle (dev blockno : ℕ) (b : Ptr) (hidle : (s.ctl p).call = .idle) (hnone : s.cached dev blockno = some none)
      (h : s.unused = some (some b)) :
      Does s p ((s.setBuf b fun x => { x with dev := dev, blockno := blockno, valid := false, refcnt := 1 }).setCall p
        (.locking b))
  | sleep (b : Ptr) (h : (s.ctl p).call = .locking b) : Does s p (s.setCall p (.asleep b))
  | wake (b : Ptr) (h : (s.ctl p).call = .asleep b) : Does s p (s.setCall p (.locking b))
  | acquire (b : Ptr) (h : (s.ctl p).call = .locking b) (hfree : (s.buf b).lock = none) :
      Does s p ((s.setBuf b fun x => { x with lock := some p }).setCall p (.reading b))
  | read (b : Ptr) (h : (s.ctl p).call = .reading b) : Does s p (s.read p b)
  | release (b : Ptr) (hidle : (s.ctl p).call = .idle) (h : (s.buf b).lock = some p) :
      Does s p (((s.setBuf b fun x => { x with lock := none }).wakeup b).setCtl p fun x =>
        { x with held := x.held.erase b, call := .releasing b })
  | unref (b : Ptr) (h : (s.ctl p).call = .releasing b) : Does s p (s.unref p b)
  | pinning (b : Ptr) (hidle : (s.ctl p).call = .idle) : Does s p (s.setCall p (.pinning b))
  | bpin (b : Ptr) (h : (s.ctl p).call = .pinning b) : Does s p (s.bpin p b)
  | logged (b : Ptr) (h : (s.ctl p).call = .pinned b) : Does s p (s.setCall p .idle)
  | bunpin (b : Ptr) (i : ℕ) (is : List Instr) (hidle : (s.ctl p).call = .idle)
      (hop : s.op p = .committing (.bunpin i :: is)) (hheld : (s.ctl p).held[i]? = some b) : Does s p (s.bunpin b)

variable {s s' t : State P} {p : P}

theorem does_bget {dev blockno : ℕ} (hidle : (s.ctl p).call = .idle) (h : s.bget p dev blockno = some s') :
    ∃ t, Does s p t ∧ Agree t s' := by
  unfold State.bget at h
  split at h
  · cases h
  · rename_i b hb
    cases h
    exact ⟨_, .hit dev blockno b hidle hb, .refl _⟩
  · rename_i hnone
    split at h
    · cases h
    · rename_i b hb
      cases h
      exact ⟨_, .recycle dev blockno b hidle hnone hb, .refl _⟩
    · cases h
      exact ⟨s, .nothing, {}⟩

theorem does_brelse {b : Ptr} (hidle : (s.ctl p).call = .idle) : ∃ t, Does s p t ∧ Agree t (s.brelse p b) := by
  unfold State.brelse
  split_ifs with h
  · exact ⟨_, .release b hidle h, .refl _⟩
  · exact ⟨s, .nothing, {}⟩

theorem does_bwrite {b : Ptr} : ∃ t, Does s p t ∧ Agree t (s.bwrite p b) := by
  unfold State.bwrite
  split_ifs
  · exact ⟨s, .nothing, .refl s⟩
  · exact ⟨s, .nothing, {}⟩

theorem does_logWrite {b : Ptr} (hidle : (s.ctl p).call = .idle) : ∃ t, Does s p t ∧ Agree t (s.logWrite p b) := by
  unfold State.logWrite
  split_ifs
  · exact ⟨s, .nothing, {}⟩
  · exact ⟨s, .nothing, {}⟩
  · exact ⟨s, .nothing, .refl s⟩
  · exact ⟨_, .pinning b hidle, {}⟩

/-- `begin_op` and `end_op` leave the cache alone. -/
theorem agree_endOp (s : State P) (p : P) : Agree s (s.endOp p) := by
  unfold State.endOp
  dsimp only
  split_ifs <;> exact {}

theorem agree_beginOp (h : s.beginOp p = some s') : Agree s s' := by
  unfold State.beginOp at h
  split_ifs at h
  cases h
  exact {}

theorem agree_setOp (s : State P) (p : P) (o : Op) : Agree s (s.setOp p o) := {}

omit [DecidableEq P] in
theorem Agree.trans {r : State P} (h : Agree t s) (h' : Agree s r) : Agree t r :=
  ⟨h'.buf.trans h.buf, h'.links.trans h.links, h'.dev.trans h.dev, h'.ctl.trans h.ctl, h'.now.trans h.now,
    h'.released.trans h.released, h'.pins.trans h.pins⟩

theorem bget_setOp (s : State P) (p : P) (o : Op) (dev blockno : ℕ) :
    (s.setOp p o).bget p dev blockno = (s.bget p dev blockno).map (·.setOp p o) := by
  unfold State.bget
  rw [show (s.setOp p o).cached dev blockno = s.cached dev blockno from rfl]
  cases s.cached dev blockno with
  | none => rfl
  | some x =>
    cases x with
    | some b => rfl
    | none =>
      rw [show (s.setOp p o).unused = s.unused from rfl]
      dsimp only
      cases s.unused with
      | none => rfl
      | some y => cases y <;> rfl

theorem brelse_setOp (s : State P) (p : P) (o : Op) (b : Ptr) :
    (s.setOp p o).brelse p b = (s.brelse p b).setOp p o := by
  unfold State.brelse
  change (if (s.buf b).lock = some p then _ else _) = _
  split_ifs <;> rfl

theorem bwrite_setOp (s : State P) (p : P) (o : Op) (b : Ptr) :
    (s.setOp p o).bwrite p b = (s.bwrite p b).setOp p o := by
  unfold State.bwrite
  change (if (s.buf b).lock = some p then _ else _) = _
  split_ifs <;> rfl

/-- A statement of `commit`. -/
theorem does_exec {i : Instr} {is : List Instr} (hidle : (s.ctl p).call = .idle) (hop : s.op p = .committing (i :: is))
    (h : s.exec p is i = some s') : ∃ t, Does s p t ∧ Agree t s' := by
  unfold State.exec at h
  cases i with
  | commit | writeLog | installTrans =>
    cases h
    refine ⟨s, .nothing, ?_⟩
    split_ifs <;> exact agree_setOp s p _
  | writeHead =>
    cases h
    exact ⟨s, .nothing, agree_setOp s p _⟩
  | clear =>
    cases h
    exact ⟨s, .nothing, {}⟩
  | bread t =>
    change (s.setOp p (.committing is)).bget p s.dev (s.target t) = some s' at h
    rw [bget_setOp] at h
    obtain ⟨s₁, hs₁, rfl⟩ := Option.map_eq_some_iff.mp h
    obtain ⟨t, hd, ha⟩ := does_bget hidle hs₁
    exact ⟨t, hd, ha.trans (agree_setOp s₁ p _)⟩
  | bwrite k =>
    obtain ⟨b, -, rfl⟩ := Option.map_eq_some_iff.mp h
    rw [bwrite_setOp]
    obtain ⟨t, hd, ha⟩ := does_bwrite (s := s) (p := p) (b := b)
    exact ⟨t, hd, ha.trans (agree_setOp _ p _)⟩
  | bunpin k =>
    obtain ⟨b, hb, rfl⟩ := Option.map_eq_some_iff.mp h
    exact ⟨_, .bunpin b k is hidle hop hb, {}⟩
  | brelse k =>
    obtain ⟨b, -, rfl⟩ := Option.map_eq_some_iff.mp h
    rw [brelse_setOp]
    obtain ⟨t, hd, ha⟩ := does_brelse (b := b) hidle
    exact ⟨t, hd, ha.trans (agree_setOp _ p _)⟩

omit [DecidableEq P] in
theorem calls_some {x : Option (State P)} (h : s.calls p x = some s') :
    (s.ctl p).call = .idle ∧ (∀ is, s.op p ≠ .committing is) ∧ x = some s' := by
  unfold State.calls at h
  split at h
  · rename_i hcall hop
    exact ⟨hcall, fun is => by rw [hop]; simp, h⟩
  · rename_i hcall hop
    exact ⟨hcall, fun is => by rw [hop]; simp, h⟩
  · cases h

def Event.proc : Event P → P
  | .bread p _ _ | .lock p | .wake p | .read p | .bwrite p _ | .brelse p _ | .unref p | .logWrite p _ | .bpin p
  | .logged p | .beginOp p | .endOp p | .commit p | .finish p => p

theorem step_does {e : Event P} (hs : s.step e = some s') : ∃ t, Does s e.proc t ∧ Agree t s' := by
  unfold State.step at hs
  by_cases hpanic : s.panic = none
  case neg =>
    rw [if_neg hpanic] at hs
    cases hs
  rw [if_pos hpanic] at hs
  cases e
  case' bread | bwrite | brelse | logWrite | beginOp => obtain ⟨hidle, -, hs⟩ := calls_some hs
  case' bwrite | brelse => cases hs
  case' lock | wake | read | unref | bpin | logged =>
    dsimp only at hs
    split at hs
    case' h_2 => cases hs
    rename_i b hb
    cases hs
  case bread => exact does_bget hidle hs
  case bwrite => exact does_bwrite
  case brelse => exact does_brelse hidle
  case logWrite =>
    split_ifs at hs
    cases hs
    exact does_logWrite hidle
  case beginOp =>
    split_ifs at hs
    exact ⟨s, .nothing, agree_beginOp hs⟩
  case endOp p =>
    dsimp only at hs
    split at hs
    · obtain ⟨-, -, hs⟩ := calls_some hs
      split_ifs at hs
      cases hs
      exact ⟨s, .nothing, agree_endOp s p⟩
    · cases hs
  case commit =>
    dsimp only at hs
    split at hs
    · rename_i hidle hop
      exact does_exec hidle hop hs
    · cases hs
  case finish =>
    dsimp only at hs
    split at hs
    · split_ifs at hs
      cases hs
      exact ⟨s, .nothing, {}⟩
    · cases hs
  case lock =>
    unfold State.acquiresleep
    split_ifs with hfree
    · exact ⟨_, .acquire b hb hfree, .refl _⟩
    · exact ⟨_, .sleep b hb, .refl _⟩
  case wake => exact ⟨_, .wake b hb, .refl _⟩
  case read => exact ⟨_, .read b hb, .refl _⟩
  case unref => exact ⟨_, .unref b hb, .refl _⟩
  case bpin => exact ⟨_, .bpin b hb, .refl _⟩
  case logged => exact ⟨_, .logged b hb, {}⟩

end Xv6.Bcache
