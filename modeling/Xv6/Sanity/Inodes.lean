import Xv6.Spec.Itable

/-! What the processes have to do with an entry of the inode table, and when a valid entry agrees with the disk. -/

namespace Xv6.Itable

open State Function

variable {P : Type}

/-- The locks of a process: those that it has got from `ilock`, and the one of the call it is in. -/
def Ctl.held (c : Ctl) : List Ptr :=
  match c.call with
  | .reading ip | .freeing ip _ => ip :: c.locks
  | _ => c.locks

/-- The reference that the call it is in needs. -/
def Call.uses : Call → Option Ptr
  | .locking ip | .reading ip | .freeing ip _ | .putting ip => some ip
  | _ => none

/-- A process has references to what it uses. -/
structure Ctl.Fine (c : Ctl) : Prop where
  locks : ∀ ip ∈ c.locks, ip ∈ c.refs
  call : ∀ ip, c.call.uses = some ip → ip ∈ c.refs
  putting : ∀ ip, c.call = .putting ip → ip ∉ c.locks

inductive Role where
  | user
  | reader
  | freeing (next : Free)

/-- What the holder of the lock of `ip` is doing with it. -/
def Ctl.role (c : Ctl) (ip : Ptr) : Role :=
  match c.call with
  | .reading jp => if jp = ip then .reader else .user
  | .freeing jp next => if jp = ip then .freeing next else .user
  | _ => .user

namespace State

/-- The on-disk inode of an entry. -/
def dinode (s : State P) (ip : Ptr) : Dinode := s.disk (s.inode ip).dev (s.inode ip).inum

def key (s : State P) (ip : Ptr) : ℕ × ℕ := ((s.inode ip).dev, (s.inode ip).inum)

def refs [Fintype P] (s : State P) (ip : Ptr) : ℕ := Count.total (fun c : Ctl => c.refs.count ip) s.ctl

/-- The on-disk inode is allocated. -/
def Typed (s : State P) (ip : Ptr) : Prop := s.panic = none → (s.dinode ip).type ≠ 0

def Agrees (s : State P) (ip : Ptr) : Prop := (s.inode ip).body = s.dinode ip ∧ s.Typed ip

/-- How a valid entry and the disk agree while somebody has it locked. -/
def Fits (s : State P) (ip : Ptr) : Role → Prop
  | .user => s.Typed ip ∧ ((s.inode ip).dirty = true → (s.inode ip).body.type ≠ 0) ∧
      ((s.inode ip).dirty = false → (s.inode ip).body = s.dinode ip)
  | .reader | .freeing .itrunc | .freeing .untype => s.Agrees ip
  | .freeing .iupdate => s.Typed ip ∧ (s.inode ip).body.type ≠ 0
  | .freeing .iupdate' => s.Typed ip
  | .freeing .invalid => True
  | .freeing .releasesleep => False

/-- A valid entry in use agrees with the disk, as far as its lock lets others see; what `ilock` has returned is valid. -/
def Coherent (s : State P) (ip : Ptr) : Prop :=
  0 < (s.inode ip).ref →
    match (s.inode ip).lock with
    | none => (s.inode ip).valid = true → s.Agrees ip
    | some p => ((s.ctl p).role ip = .user → (s.inode ip).valid = true) ∧
        ((s.inode ip).valid = true → s.Fits ip ((s.ctl p).role ip))

end State

variable {s s' : State P} {p : P} {ip : Ptr}

theorem Ctl.Fine.held {c : Ctl} (h : c.Fine) (hip : ip ∈ c.held) : ip ∈ c.refs := by
  unfold Ctl.held at hip
  split at hip
  · rename_i jp hcall
    rcases List.mem_cons.mp hip with rfl | hip
    · exact h.call ip (by rw [hcall]; rfl)
    · exact h.locks ip hip
  · rename_i jp next hcall
    rcases List.mem_cons.mp hip with rfl | hip
    · exact h.call ip (by rw [hcall]; rfl)
    · exact h.locks ip hip
  · exact h.locks ip hip

variable {r : Role}

theorem coherent_held (hlock : (s.inode ip).lock = some p) (hrole : (s.ctl p).role ip = r)
    (huser : r = .user → (s.inode ip).valid = true)
    (h : (s.inode ip).valid = true → s.Fits ip r) : s.Coherent ip := by
  intro _
  rw [hlock]
  dsimp only
  rw [hrole]
  exact ⟨huser, h⟩

theorem coherent_free (hlock : (s.inode ip).lock = none) (h : (s.inode ip).valid = true → s.Agrees ip) :
    s.Coherent ip := by
  intro _
  rwa [hlock]

/-- What the holder of the lock knows. -/
theorem coherent_fits (h : s.Coherent ip) (hlock : (s.inode ip).lock = some p)
    (hrole : (s.ctl p).role ip = r) (hr : 0 < (s.inode ip).ref) :
    (r = .user → (s.inode ip).valid = true) ∧ ((s.inode ip).valid = true → s.Fits ip r) := by
  have := h hr
  rw [hlock] at this
  dsimp only at this
  rwa [hrole] at this

theorem coherent_agrees (h : s.Coherent ip) (hlock : (s.inode ip).lock = none) (hr : 0 < (s.inode ip).ref)
    (hv : (s.inode ip).valid = true) : s.Agrees ip := by
  have := h hr
  rw [hlock] at this
  exact this hv

/-- Nothing changes for an entry, nor for the holder of its lock. -/
theorem coherent_congr (h : s.Coherent ip) (href : 0 < (s'.inode ip).ref → 0 < (s.inode ip).ref)
    (hinode : ((s'.inode ip).valid, (s'.inode ip).lock, (s'.inode ip).body, (s'.inode ip).dirty) =
      ((s.inode ip).valid, (s.inode ip).lock, (s.inode ip).body, (s.inode ip).dirty))
    (hdisk : s'.dinode ip = s.dinode ip) (hpanic : s'.panic = none → s.panic = none)
    (hrole : ∀ q, (s.inode ip).lock = some q → (s'.ctl q).role ip = (s.ctl q).role ip) : s'.Coherent ip := by
  simp only [Prod.mk.injEq] at hinode
  obtain ⟨hvalid, hlock, hbody, hdirty⟩ := hinode
  have htyped (ht : s.Typed ip) : s'.Typed ip := fun hp => by rw [hdisk]; exact ht (hpanic hp)
  have hagrees (ha : s.Agrees ip) : s'.Agrees ip := ⟨by rw [hbody, hdisk]; exact ha.1, htyped ha.2⟩
  have hfits (r : Role) (hold : s.Fits ip r) : s'.Fits ip r := by
    match r, hold with
    | .user, hold =>
      exact ⟨htyped hold.1, by rw [hdirty, hbody]; exact hold.2.1, by rw [hdirty, hbody, hdisk]; exact hold.2.2⟩
    | .reader, hold | .freeing .itrunc, hold | .freeing .untype, hold => exact hagrees hold
    | .freeing .iupdate, hold => exact ⟨htyped hold.1, by rw [hbody]; exact hold.2⟩
    | .freeing .iupdate', hold => exact htyped hold
    | .freeing .invalid, _ => exact trivial
    | .freeing .releasesleep, hold => exact hold
  intro hr
  have hold := h (href hr)
  rw [hlock, hvalid]
  cases hq : (s.inode ip).lock with
  | none =>
    rw [hq] at hold
    exact fun hv => hagrees (hold hv)
  | some q =>
    rw [hq] at hold
    dsimp only at hold ⊢
    rw [hrole q hq]
    exact ⟨hold.1, fun hv => hfits _ (hold.2 hv)⟩

section Frames

variable (s : State P) (ip : Ptr) (f : Inode P → Inode P)

@[simp] theorem setInode_self : (s.setInode ip f).inode ip = f (s.inode ip) := update_self ..

@[simp] theorem setDisk_self (dev inum : ℕ) (d : Dinode) : (s.setDisk dev inum d).disk dev inum = d := by
  simp [State.setDisk]

theorem setDisk_of_ne {dev inum dev' inum' : ℕ} (d : Dinode) (h : (dev', inum') ≠ (dev, inum)) :
    (s.setDisk dev inum d).disk dev' inum' = s.disk dev' inum' := by
  unfold State.setDisk
  dsimp only
  by_cases hdev : dev' = dev
  · subst hdev
    rw [update_self, update_of_ne fun hinum => h (by rw [hinum])]
  · rw [update_of_ne hdev]

variable [DecidableEq P] (p : P) (g : Ctl → Ctl) (c : Call)

@[simp] theorem setCtl_self : (s.setCtl p g).ctl p = g (s.ctl p) := update_self ..

@[simp] theorem goto_inode : (s.goto p c).inode = s.inode := rfl

@[simp] theorem goto_disk : (s.goto p c).disk = s.disk := rfl

@[simp] theorem goto_panic : (s.goto p c).panic = s.panic := rfl

@[simp] theorem goto_self : (s.goto p c).ctl p = { s.ctl p with call := c } := update_self ..

end Frames

section Calls

/-- The call has no lock of its own. -/
def Call.quiet : Call → Bool
  | .reading _ | .freeing _ _ => false
  | _ => true

variable {c : Ctl} {next : Free}

theorem role_user (h : c.call.quiet = true) (jp : Ptr) : c.role jp = .user := by
  unfold Ctl.role
  split <;> rename_i hc
  · rw [hc] at h
    cases h
  · rw [hc] at h
    cases h
  · rfl

theorem held_locks (h : c.call.quiet = true) : c.held = c.locks := by
  unfold Ctl.held
  split <;> rename_i hc
  · rw [hc] at h
    cases h
  · rw [hc] at h
    cases h
  · rfl

theorem Ctl.Fine.idle {c' : Ctl} (h : c.Fine) (hrefs : ∀ ip ∈ c'.locks, ip ∈ c.refs → ip ∈ c'.refs)
    (hlocks : ∀ ip ∈ c'.locks, ip ∈ c.locks) (hcall : c'.call.uses = none) : c'.Fine :=
  ⟨fun ip hip => hrefs ip hip (h.locks ip (hlocks ip hip)), fun _ hip => (nomatch hcall.symm.trans hip),
    fun _ hip => (nomatch (congrArg Call.uses hip).symm.trans hcall)⟩

theorem Ctl.role_reading (h : c.call = .reading ip) : c.role ip = .reader := by
  unfold Ctl.role
  rw [h]
  exact if_pos rfl

theorem Ctl.role_freeing (h : c.call = .freeing ip next) : c.role ip = .freeing next := by
  unfold Ctl.role
  rw [h]
  exact if_pos rfl

/-- A call on `ip` says nothing of another entry. -/
theorem Ctl.role_other (h : c.call.uses = some ip) {jp : Ptr} (hj : jp ≠ ip) : c.role jp = .user := by
  unfold Ctl.role
  split <;> rename_i hc
  · rw [hc] at h
    cases h
    exact if_neg (Ne.symm hj)
  · rw [hc] at h
    cases h
    exact if_neg (Ne.symm hj)
  · rfl

theorem Ctl.held_freeing (h : c.call = .freeing ip next) : c.held = ip :: c.locks := by
  unfold Ctl.held
  rw [h]

end Calls

end Xv6.Itable
