import Xv6.Lib.Locks
import Xv6.Sanity.Inodes

/-! The table of in-memory inodes: one entry for an inode, `ref` counts the references, and an entry that
is valid and not locked agrees with the disk, if processes call `iupdate` after every change. -/

namespace Xv6.Itable

open State Function List Option

variable {P : Type}

structure Inv [Fintype P] (s : State P) : Prop where
  unique : ∀ ip jp, 0 < (s.inode ip).ref → 0 < (s.inode jp).ref → s.key ip = s.key jp → ip = jp
  count : ∀ ip, (s.inode ip).ref = s.refs ip
  owns : Locks.Owns Ctl.held (fun ip => (s.inode ip).lock) s.ctl
  fine : ∀ p, (s.ctl p).Fine
  coherent : ∀ ip, s.Coherent ip

variable {s s' : State P} {p : P} {ip : Ptr}

theorem inv_init [Fintype P] (disk : ℕ → ℕ → Dinode) : Inv (init disk : State P) where
  unique ip jp h := by simp [init] at h
  count ip := (Count.total_eq_zero fun c => rfl).symm
  owns := ⟨fun ip p => by simp [init, Ctl.held], fun p => by simp [init, Ctl.held]⟩
  fine p := ⟨fun ip h => absurd h not_mem_nil, nofun, nofun⟩
  coherent ip h := by simp [init] at h

section Move

variable {c : Ctl} {x : Inode P}

theorem lock_update {inode inode' : Ptr → Inode P} (h : inode' = update inode ip x) :
    (fun jp => (inode' jp).lock) = update (fun jp => (inode jp).lock) ip x.lock := by
  funext jp
  rw [h]
  exact apply_update (fun _ => Inode.lock) inode ip x jp

variable [DecidableEq P]

theorem role_update (hctl : s'.ctl = update s.ctl p c) {jp : Ptr} (hrole : c.role jp = (s.ctl p).role jp) (q : P) :
    (s'.ctl q).role jp = (s.ctl q).role jp := by
  rw [hctl]
  by_cases hq : q = p
  · rw [hq, update_self, hrole]
  · rw [update_of_ne hq]

variable [Fintype P]

theorem refs_update (hctl : s'.ctl = update s.ctl p c) (jp : Ptr) :
    s'.refs jp + (s.ctl p).refs.count jp = s.refs jp + c.refs.count jp := by
  unfold State.refs
  rw [hctl]
  exact Count.total_update p c

theorem fine_update (h : Inv s) (hctl : s'.ctl = update s.ctl p c) (hfine : c.Fine) (q : P) :
    (s'.ctl q).Fine := by
  rw [hctl]
  by_cases hq : q = p
  · rwa [hq, update_self]
  · rw [update_of_ne hq]
    exact h.fine q

/-- A step of process `p` on entry `ip`. -/
theorem Inv.move (h : Inv s) (hinode : s'.inode = update s.inode ip x)
    (hctl : s'.ctl = update s.ctl p c) (hpanic : s'.panic = none → s.panic = none)
    (hkey : ∀ jp, jp ≠ ip → 0 < x.ref → 0 < (s.inode jp).ref → s.key jp ≠ (x.dev, x.inum))
    (href : x.ref + (s.ctl p).refs.count ip = (s.inode ip).ref + c.refs.count ip)
    (hrefs : ∀ jp, jp ≠ ip → c.refs.count jp = (s.ctl p).refs.count jp)
    (hlocks : Locks.Delta (fun jp => (s.inode jp).lock) p (s.ctl p).held c.held
      (update (fun jp => (s.inode jp).lock) ip x.lock))
    (hfine : c.Fine)
    (hdisk : ∀ jp, jp ≠ ip → 0 < (s.inode jp).ref →
      s'.disk (s.inode jp).dev (s.inode jp).inum = s.disk (s.inode jp).dev (s.inode jp).inum)
    (hrole : ∀ jp, jp ≠ ip → c.role jp = (s.ctl p).role jp) (hcoh : s'.Coherent ip) : Inv s' := by
  have hself : s'.inode ip = x := by rw [hinode, update_self]
  have hother (jp : Ptr) (hj : jp ≠ ip) : s'.inode jp = s.inode jp := by rw [hinode, update_of_ne hj]
  refine ⟨fun jp kp hj hk heq => ?_, fun jp => ?_, ?_, fine_update h hctl hfine, fun jp => ?_⟩
  · unfold State.key at heq
    by_cases hji : jp = ip
    · by_cases hki : kp = ip
      · rw [hji, hki]
      · rw [hji, hself] at hj heq
        rw [hother kp hki] at hk heq
        exact absurd heq.symm (hkey kp hki hj hk)
    · by_cases hki : kp = ip
      · rw [hki, hself] at hk heq
        rw [hother jp hji] at hj heq
        exact absurd heq (hkey jp hji hk hj)
      · rw [hother jp hji] at hj heq
        rw [hother kp hki] at hk heq
        exact h.unique jp kp hj hk heq
  · have htotal := refs_update hctl jp
    have hold := h.count jp
    by_cases hji : jp = ip
    · rw [hji] at htotal hold ⊢
      rw [hself]
      omega
    · have := hrefs jp hji
      rw [hother jp hji]
      omega
  · rw [lock_update hinode, hctl]
    exact h.owns.move hlocks
  · by_cases hji : jp = ip
    · rwa [hji]
    · have hsame := hother jp hji
      intro hr
      rw [hsame] at hr
      refine coherent_congr (h.coherent jp) (fun _ => hr) (by rw [hsame]) ?_ hpanic (fun q _ => role_update hctl (hrole jp hji) q)
        (by rwa [hsame])
      unfold State.dinode
      rw [hsame]
      exact hdisk jp hji hr

/-- The process goes on in its call, or to another one. -/
theorem Inv.goto (h : Inv s) (hinode : s'.inode = s.inode) (hdisk : s'.disk = s.disk)
    (hctl : s'.ctl = update s.ctl p c) (hpanic : s'.panic = none → s.panic = none)
    (hrefs : c.refs = (s.ctl p).refs) (hheld : c.held = (s.ctl p).held) (hfine : c.Fine)
    (hrole : ∀ jp, c.role jp = (s.ctl p).role jp) : Inv s' := by
  refine h.move (show s'.inode = update s.inode 0 (s.inode 0) by rw [hinode, update_eq_self]) hctl hpanic
    (fun jp hj h0 hr heq => hj (h.unique jp 0 hr h0 heq)) (by rw [hrefs]) (fun jp _ => by rw [hrefs]) ?_ hfine
    (fun _ _ _ => by rw [hdisk]) (fun jp _ => hrole jp) ?_
  · rw [update_eq_self 0 fun jp => (s.inode jp).lock]
    exact .keep hheld
  · refine coherent_congr (h.coherent 0) (fun hr => by rwa [hinode] at hr) (by rw [hinode]) ?_ hpanic fun q _ =>
      role_update hctl (hrole 0) q
    unfold State.dinode
    rw [hinode, hdisk]

end Move

section Calls

variable [Fintype P]

/-- The entry is in use by the process. -/
theorem Inv.ref_pos (h : Inv s) (hip : ip ∈ (s.ctl p).refs) : 0 < (s.inode ip).ref := by
  rw [h.count]
  exact (count_pos_iff.mpr hip).trans_le (Count.le_total (w := fun c : Ctl => c.refs.count ip) p)

/-- What a process knows of the entry whose lock its call holds. -/
theorem Inv.busy (h : Inv s) {r : Role} (huses : (s.ctl p).call.uses = some ip) (hheld : ip ∈ (s.ctl p).held)
    (hrole : (s.ctl p).role ip = r) :
    ip ∈ (s.ctl p).refs ∧ (s.inode ip).lock = some p ∧ ((s.inode ip).valid = true → s.Fits ip r) := by
  have hip := (h.fine p).call ip huses
  have hlock := (h.owns.iff ip p).mpr hheld
  exact ⟨hip, hlock, (coherent_fits (h.coherent ip) hlock hrole (h.ref_pos hip)).2⟩

/-- The holder of a lock has a reference. -/
theorem Inv.unlocked (h : Inv s) (hzero : (s.inode ip).ref = 0) : (s.inode ip).lock = none := by
  cases hlock : (s.inode ip).lock with
  | none => rfl
  | some q =>
    have := h.ref_pos ((h.fine q).held ((h.owns.iff ip q).mp hlock))
    omega

theorem Inv.other_key (h : Inv s) {jp : Ptr} (hne : jp ≠ ip) (hj : 0 < (s.inode jp).ref) (hi : 0 < (s.inode ip).ref) :
    s.key jp ≠ s.key ip := fun heq => hne (h.unique jp ip hj hi heq)

theorem inv_panic (h : Inv s) (x : Panic) : Inv { s with panic := some x } :=
  { h with coherent := fun jp => coherent_congr (h.coherent jp) id rfl rfl nofun fun _ _ => rfl }

variable [DecidableEq P]

variable {c : Ctl} {x : Inode P} {next : Free} {dev inum : ℕ}

section

variable (h : Inv s)

include h

/-- Another reference to an entry in use. -/
theorem inv_bump (hpos : 0 < (s.inode ip).ref)
    (hinode : s'.inode = update s.inode ip { s.inode ip with ref := (s.inode ip).ref + 1 })
    (hctl : s'.ctl = update s.ctl p c) (hdisk : s'.disk = s.disk) (hpanic : s'.panic = none → s.panic = none)
    (hrefs : c.refs = ip :: (s.ctl p).refs) (hlocks : c.locks = (s.ctl p).locks) (hcall : c.call.uses = none)
    (hquiet : (s.ctl p).call.quiet = true) (hquiet' : c.call.quiet = true) : Inv s' := by
  have hrole (jp : Ptr) : c.role jp = (s.ctl p).role jp := by rw [role_user hquiet, role_user hquiet']
  have hself : s'.inode ip = { s.inode ip with ref := (s.inode ip).ref + 1 } := by rw [hinode, update_self]
  refine h.move hinode hctl hpanic (fun jp hj _ hr => h.other_key hj hr hpos) ?_ (fun jp hj => ?_) ?_ ?_
    (fun jp _ _ => by rw [hdisk]) (fun jp _ => hrole jp) ?_
  · rw [hrefs, count_cons_self]
    dsimp only
    omega
  · rw [hrefs, count_cons_of_ne (Ne.symm hj)]
  · rw [update_eq_self ip fun jp => (s.inode jp).lock]
    exact .keep (by rw [held_locks hquiet, held_locks hquiet', hlocks])
  · refine (h.fine p).idle (fun jp _ hj => ?_) (fun jp hj => hlocks ▸ hj) hcall
    rw [hrefs]
    exact mem_cons_of_mem ip hj
  · refine coherent_congr (h.coherent ip) (fun _ => hpos) (by rw [hself]) ?_ hpanic fun q _ => role_update hctl (hrole ip) q
    unfold State.dinode
    rw [hself, hdisk]

theorem inv_iget (hquiet : (s.ctl p).call.quiet = true) (dev inum : ℕ) :
    Inv (s.iget p dev inum) := by
  unfold State.iget
  cases hfind : s.find dev inum with
  | some ip =>
    have hpos := List.find?_some hfind
    simp only [decide_eq_true_eq] at hpos
    exact inv_bump h hpos.1 rfl rfl rfl id rfl rfl rfl hquiet rfl
  | none =>
    have hno := List.find?_eq_none.mp hfind
    dsimp only
    cases hempty : s.empty with
    | none => exact inv_panic h .iget
    | some ip =>
      have hzero := List.find?_some hempty
      simp only [decide_eq_true_eq] at hzero
      refine h.move rfl rfl id (fun jp hj _ hr heq => ?_) ?_ (fun jp hj => count_cons_of_ne (Ne.symm hj)) ?_ ?_
        (fun _ _ _ => rfl) (fun jp _ => by rw [role_user hquiet]; rfl) ?_
      · have := hno jp (mem_finRange jp)
        obtain ⟨hdev, hinum⟩ := Prod.mk.inj heq
        simp [hr, hdev, hinum] at this
      · rw [count_cons_self, hzero]
        change 1 + (s.ctl p).refs.count ip = 0 + ((s.ctl p).refs.count ip + 1)
        omega
      · rw [update_eq_self ip fun jp => (s.inode jp).lock]
        exact .keep (by rw [held_locks hquiet]; rfl)
      · exact (h.fine p).idle (fun jp _ hj => mem_cons_of_mem ip hj) (fun jp hj => hj) rfl
      · refine coherent_free ?_ (by simp)
        simpa using h.unlocked hzero

theorem inv_ilock (hidle : (s.ctl p).call = .idle) (hip : ip ∈ (s.ctl p).refs) : Inv (s.ilock p ip) := by
  unfold State.ilock
  rw [if_neg (by have := h.ref_pos hip; omega)]
  have hquiet : (s.ctl p).call.quiet = true := by rw [hidle]; rfl
  refine h.goto rfl rfl rfl id rfl ?_ ⟨(h.fine p).locks, fun jp hj => ?_, nofun⟩ fun jp => ?_
  · rw [held_locks hquiet]
    rfl
  · cases hj
    exact hip
  · rw [role_user hquiet]
    rfl

/-- A step of a process on an entry that it has a reference to, and on its on-disk inode. -/
theorem Inv.holder (hip : ip ∈ (s.ctl p).refs)
    (hinode : s'.inode = update s.inode ip x) (hctl : s'.ctl = update s.ctl p c)
    (hpanic : s'.panic = none → s.panic = none)
    (hx : (x.dev, x.inum, x.ref) = ((s.inode ip).dev, (s.inode ip).inum, (s.inode ip).ref))
    (hrefs : c.refs = (s.ctl p).refs)
    (hlocks : Locks.Delta (fun jp => (s.inode jp).lock) p (s.ctl p).held c.held
      (update (fun jp => (s.inode jp).lock) ip x.lock))
    (hfine : c.Fine) (hdisk : ∀ dev inum, (dev, inum) ≠ s.key ip → s'.disk dev inum = s.disk dev inum)
    (hrole : ∀ jp, jp ≠ ip → c.role jp = (s.ctl p).role jp) (hcoh : s'.Coherent ip) : Inv s' := by
  simp only [Prod.mk.injEq] at hx
  obtain ⟨hdev, hinum, href⟩ := hx
  have hpos := h.ref_pos hip
  have hother (jp : Ptr) (hj : jp ≠ ip) (hr : 0 < (s.inode jp).ref) := h.other_key hj hr hpos
  refine h.move hinode hctl hpanic (fun jp hj _ hr => ?_) (by rw [href, hrefs]) (fun jp _ => by rw [hrefs]) hlocks hfine
    (fun jp hj hr => hdisk _ _ (hother jp hj hr)) hrole hcoh
  rw [hdev, hinum]
  exact hother jp hj hr

theorem inv_acquiresleep (hcall : (s.ctl p).call = .locking ip) (hs : s.acquiresleep p ip = some s') :
    Inv s' := by
  unfold State.acquiresleep at hs
  split_ifs at hs with hfree
  cases hs
  have hquiet : (s.ctl p).call.quiet = true := by rw [hcall]; rfl
  have hip : ip ∈ (s.ctl p).refs := (h.fine p).call ip (by rw [hcall]; rfl)
  refine h.holder hip rfl rfl id rfl rfl ?_ ?_ (fun _ _ _ => rfl) (fun jp hj => ?_) ?_
  · refine .acquire ip hfree ?_
    rw [held_locks hquiet]
    rfl
  · refine ⟨(h.fine p).locks, fun jp hj => ?_, nofun⟩
    cases hj
    exact hip
  · rw [role_user hquiet]
    exact Ctl.role_other rfl hj
  · refine coherent_held (p := p) (r := .reader) (by simp) (by rw [goto_self]; exact Ctl.role_reading rfl) nofun fun hv => ?_
    have hold := coherent_agrees (h.coherent ip) hfree (h.ref_pos hip) (by simpa using hv)
    simpa [State.Fits, State.Agrees, State.Typed, State.dinode] using hold

theorem inv_read (hp : s.panic = none) (hcall : (s.ctl p).call = .reading ip) : Inv (s.read p ip) := by
  have huses : (s.ctl p).call.uses = some ip := by rw [hcall]; rfl
  have hheld : (s.ctl p).held = ip :: (s.ctl p).locks := by
    unfold Ctl.held
    rw [hcall]
  obtain ⟨hip, hlock, hold⟩ := h.busy huses (hheld ▸ mem_cons_self) (Ctl.role_reading hcall)
  have hfine : ({ s.ctl p with locks := ip :: (s.ctl p).locks, call := .idle } : Ctl).Fine := by
    refine ⟨fun jp hj => ?_, nofun, nofun⟩
    rcases mem_cons.mp hj with rfl | hj
    · exact hip
    · exact (h.fine p).locks jp hj
  -- the three ways out differ in what the entry has
  have hdone {s' : State P} {x : Inode P} (hinode : s'.inode = update s.inode ip x)
      (hctl : s'.ctl = update s.ctl p { s.ctl p with locks := ip :: (s.ctl p).locks, call := .idle })
      (hdisk : s'.disk = s.disk) (hpanic : s'.panic = none → s.panic = none)
      (hx : (x.dev, x.inum, x.ref) = ((s.inode ip).dev, (s.inode ip).inum, (s.inode ip).ref)) (hxlock : x.lock = some p)
      (hxvalid : x.valid = true) (hfits : s'.Fits ip .user) : Inv s' := by
    refine h.holder hip hinode hctl hpanic hx rfl ?_ hfine (fun _ _ _ => by rw [hdisk])
      (fun jp hj => (Ctl.role_other huses hj).symm) ?_
    · rw [hxlock, ← hlock, update_eq_self ip fun jp => (s.inode jp).lock]
      exact .keep hheld.symm
    · have hself : s'.inode ip = x := by rw [hinode, update_self]
      refine coherent_held (p := p) (by rw [hself, hxlock]) ?_ (fun _ => by rw [hself, hxvalid]) fun _ => hfits
      rw [hctl, update_self]
      rfl
  unfold State.read
  dsimp only
  split_ifs with hv htype
  · obtain ⟨hbody, htyped⟩ := hold hv
    refine hdone (update_eq_self ip s.inode).symm rfl rfl id rfl hlock hv ⟨htyped, fun _ => ?_, fun _ => hbody⟩
    change (s.inode ip).body.type ≠ 0
    rw [hbody]
    exact htyped hp
  · refine hdone rfl rfl rfl nofun rfl hlock rfl ⟨nofun, ?_, fun _ => ?_⟩
    · simp
    · simp [State.dinode]
  · refine hdone rfl rfl rfl id rfl hlock rfl ⟨fun _ => ?_, ?_, fun _ => ?_⟩
    · simpa [State.dinode] using htype
    · simp
    · simp [State.dinode]

/-- A step of a process on what it has got from `ilock`. -/
theorem Inv.locked (hidle : (s.ctl p).call = .idle) (hip : ip ∈ (s.ctl p).locks)
    (hinode : s'.inode = update s.inode ip x) (hctl : s'.ctl = s.ctl) (hpanic : s'.panic = s.panic)
    (hx : (x.dev, x.inum, x.ref, x.lock, x.valid) =
      ((s.inode ip).dev, (s.inode ip).inum, (s.inode ip).ref, (s.inode ip).lock, (s.inode ip).valid))
    (hdisk : ∀ dev inum, (dev, inum) ≠ s.key ip → s'.disk dev inum = s.disk dev inum)
    (hfits : s.Fits ip .user → s'.Fits ip .user) : Inv s' := by
  have hquiet : (s.ctl p).call.quiet = true := by rw [hidle]; rfl
  have hlock : (s.inode ip).lock = some p := (h.owns.iff ip p).mpr (by rwa [held_locks hquiet])
  have hrefs := (h.fine p).locks ip hip
  obtain ⟨huser, hold⟩ := coherent_fits (h.coherent ip) hlock (role_user hquiet ip) (h.ref_pos hrefs)
  have hvalid := huser rfl
  simp only [Prod.mk.injEq] at hx
  obtain ⟨hdev, hinum, href, hxlock, hxvalid⟩ := hx
  have hself : s'.inode ip = x := by rw [hinode, update_self]
  refine h.holder (c := s.ctl p) hrefs hinode (by rw [hctl, update_eq_self]) (fun hp => hpanic ▸ hp)
    (by rw [hdev, hinum, href]) rfl ?_ (h.fine p) hdisk (fun _ _ => rfl) ?_
  · rw [hxlock, update_eq_self ip fun jp => (s.inode jp).lock]
    exact .keep rfl
  · refine coherent_held (r := .user) (by rw [hself, hxlock, hlock]) ?_ (fun _ => by rw [hself, hxvalid, hvalid])
      fun _ => hfits (hold hvalid)
    rw [hctl, role_user hquiet]

theorem inv_change (hidle : (s.ctl p).call = .idle) (hip : ip ∈ (s.ctl p).locks) {body : Dinode}
    (htype : body.type ≠ 0) : Inv (s.change ip body) := by
  refine h.locked hidle hip rfl rfl rfl rfl (fun _ _ _ => rfl) fun hold => ?_
  refine ⟨by simpa [State.change, State.Typed, State.dinode] using hold.1, ?_, ?_⟩
  · simpa [State.change] using htype
  · simp [State.change]

end

omit [Fintype P] [DecidableEq P] in
/-- `iupdate` makes the on-disk inode what the entry is. -/
theorem iupdate_dinode : (s.iupdate ip).dinode ip = (s.inode ip).body := by
  simp [State.iupdate, State.dinode]

section

variable (h : Inv s)

include h

theorem inv_iupdate (hp : s.panic = none) (hidle : (s.ctl p).call = .idle) (hip : ip ∈ (s.ctl p).locks) :
    Inv (s.iupdate ip) := by
  refine h.locked hidle hip rfl rfl rfl rfl (fun dev inum hne => setDisk_of_ne s _ hne) fun ⟨htyped, hdirty, hclean⟩ => ?_
  have htype : (s.inode ip).body.type ≠ 0 := by
    cases hd : (s.inode ip).dirty with
    | true => exact hdirty hd
    | false =>
      rw [hclean hd]
      exact htyped hp
  refine ⟨fun _ => by rwa [iupdate_dinode], fun _ => ?_, fun _ => ?_⟩
  · simpa [State.iupdate] using htype
  · rw [iupdate_dinode]
    simp [State.iupdate]

theorem inv_iunlock (hidle : (s.ctl p).call = .idle) (hip : ip ∈ (s.ctl p).refs)
    (hclean : (s.inode ip).dirty = false) : Inv (s.iunlock p ip) := by
  unfold State.iunlock
  split_ifs with hbad
  · exact inv_panic h .iunlock
  have hlock : (s.inode ip).lock = some p := by
    by_contra hne
    exact hbad (.inl hne)
  have hquiet : (s.ctl p).call.quiet = true := by rw [hidle]; rfl
  have hheld : ip ∈ (s.ctl p).held := (h.owns.iff ip p).mp hlock
  obtain ⟨huser, hold⟩ := coherent_fits (h.coherent ip) hlock (role_user hquiet ip) (h.ref_pos hip)
  obtain ⟨htyped, -, hbody⟩ := hold (huser rfl)
  refine h.holder (c := { s.ctl p with locks := (s.ctl p).locks.erase ip }) hip rfl rfl id rfl rfl ?_ ?_
    (fun _ _ _ => rfl) (fun jp _ => ?_) ?_
  · refine .release ip hheld fun hnodup => ?_
    rw [held_locks hquiet] at hnodup ⊢
    rw [held_locks (c := { s.ctl p with locks := (s.ctl p).locks.erase ip }) hquiet]
    exact ⟨hnodup.erase ip, fun j => hnodup.mem_erase_iff⟩
  · exact (h.fine p).idle (fun jp _ hj => hj) (fun jp hj => mem_of_mem_erase hj) (by rw [hidle]; rfl)
  · rw [role_user hquiet]
    exact role_user hquiet jp
  · refine coherent_free (by simp) fun _ => ?_
    simpa [State.Agrees, State.Typed, State.dinode] using And.intro (hbody hclean) htyped

/-- A reference goes, from `iput` or behind it. -/
theorem inv_unref (hquiet : (s.ctl p).call.quiet = true) (hip : ip ∈ (s.ctl p).refs)
    (hkeep : ip ∈ (s.ctl p).locks → 2 ≤ (s.ctl p).refs.count ip) : Inv (s.unref p ip) := by
  have hpos := h.ref_pos hip
  have hcount := count_pos_iff.mpr hip
  refine h.move (c := { s.ctl p with refs := (s.ctl p).refs.erase ip, call := .idle }) rfl rfl id
    (fun jp hj _ hr => h.other_key hj hr hpos) ?_ (fun jp hj => count_erase_of_ne hj) ?_ ?_
    (fun _ _ _ => rfl) (fun jp _ => by rw [role_user hquiet]; rfl) ?_
  · rw [count_erase_self]
    dsimp only
    omega
  · rw [update_eq_self ip fun jp => (s.inode jp).lock]
    exact .keep (by rw [held_locks hquiet]; rfl)
  · refine (h.fine p).idle (fun jp hj hmem => ?_) (fun jp hj => hj) rfl
    by_cases hji : jp = ip
    · rw [hji] at hj ⊢
      refine count_pos_iff.mp ?_
      rw [count_erase_self]
      have := hkeep hj
      omega
    · exact (mem_erase_of_ne hji).mpr hmem
  · refine coherent_congr (h.coherent ip) (fun _ => hpos) (by simp [State.unref]) ?_ id fun q _ =>
      role_update rfl (by rw [role_user hquiet]; rfl) q
    simp [State.unref, State.dinode]

theorem inv_iput (hidle : (s.ctl p).call = .idle) (hip : ip ∈ (s.ctl p).refs)
    (hkeep : ip ∈ (s.ctl p).locks → 2 ≤ (s.ctl p).refs.count ip) : Inv (s.iput p ip) := by
  have hquiet : (s.ctl p).call.quiet = true := by rw [hidle]; rfl
  unfold State.iput
  split_ifs with hlast hfree
  · refine h.holder hip rfl rfl id rfl rfl (.acquire ip hfree (by rw [held_locks hquiet]; rfl)) ?_ (fun _ _ _ => rfl)
      (fun jp hj => ?_) ?_
    · refine ⟨(h.fine p).locks, fun jp hj => ?_, nofun⟩
      cases hj
      exact hip
    · rw [role_user hquiet]
      exact Ctl.role_other rfl hj
    · refine coherent_held (p := p) (r := .freeing .itrunc) (by simp) ?_ nofun fun _ => ?_
      · rw [goto_self]
        exact Ctl.role_freeing rfl
      · have hold := coherent_agrees (h.coherent ip) hfree (h.ref_pos hip) hlast.2.1
        simpa [State.Fits, State.Agrees, State.Typed, State.dinode] using hold
  · exact inv_panic h .schedLocks
  · exact inv_unref h hquiet hip hkeep

/-- One statement of `iput` behind another; the lock is kept. -/
theorem Inv.freeing {next' : Free} (hcall : (s.ctl p).call = .freeing ip next)
    (hinode : s'.inode = update s.inode ip x)
    (hctl : s'.ctl = update s.ctl p { s.ctl p with call := .freeing ip next' }) (hpanic : s'.panic = s.panic)
    (hx : (x.dev, x.inum, x.ref, x.lock) =
      ((s.inode ip).dev, (s.inode ip).inum, (s.inode ip).ref, (s.inode ip).lock))
    (hdisk : ∀ dev inum, (dev, inum) ≠ s.key ip → s'.disk dev inum = s.disk dev inum)
    (hfits : ((s.inode ip).valid = true → s.Fits ip (.freeing next)) → x.valid = true → s'.Fits ip (.freeing next')) :
    Inv s' := by
  have huses : (s.ctl p).call.uses = some ip := by rw [hcall]; rfl
  have hheld := Ctl.held_freeing hcall
  obtain ⟨hip, hlock, hold⟩ := h.busy huses (hheld ▸ mem_cons_self) (Ctl.role_freeing hcall)
  simp only [Prod.mk.injEq] at hx
  obtain ⟨hdev, hinum, href, hxlock⟩ := hx
  have hself : s'.inode ip = x := by rw [hinode, update_self]
  refine h.holder hip hinode hctl (fun hp => hpanic ▸ hp) (by rw [hdev, hinum, href]) rfl ?_ ?_ hdisk (fun jp hj => ?_) ?_
  · rw [hxlock, update_eq_self ip fun jp => (s.inode jp).lock]
    exact .keep (by rw [hheld]; rfl)
  · refine ⟨(h.fine p).locks, fun jp hj => ?_, nofun⟩
    cases hj
    exact hip
  · rw [Ctl.role_other huses hj]
    exact Ctl.role_other rfl hj
  · refine coherent_held (p := p) (r := .freeing next') (by rw [hself, hxlock, hlock]) ?_ nofun fun hv => ?_
    · rw [hctl, update_self]
      exact Ctl.role_freeing rfl
    · rw [hself] at hv
      exact hfits hold hv

theorem inv_free (hp : s.panic = none) (hcall : (s.ctl p).call = .freeing ip next) :
    Inv (s.free p ip next) := by
  cases next with
  | itrunc =>
    refine h.freeing hcall rfl rfl rfl rfl (fun _ _ _ => rfl) fun hold hv => ?_
    obtain ⟨hbody, htyped⟩ := hold hv
    have htype : (s.inode ip).body.type ≠ 0 := hbody ▸ htyped hp
    exact ⟨by simpa [State.free, State.Typed, State.dinode] using htyped, by simpa [State.free] using htype⟩
  | iupdate =>
    refine h.freeing hcall rfl rfl rfl rfl (fun dev inum hne => setDisk_of_ne s _ hne) fun hold hv => ?_
    have hdinode : (s.free p ip .iupdate).dinode ip = (s.inode ip).body := iupdate_dinode
    refine ⟨?_, fun _ => ?_⟩
    · rw [hdinode]
      simp [State.free, State.iupdate]
    · rw [hdinode]
      exact (hold hv).2
  | untype =>
    refine h.freeing hcall rfl rfl rfl rfl (fun _ _ _ => rfl) fun hold hv => ?_
    simpa [State.free, State.Fits, State.Typed, State.dinode] using (hold hv).2
  | iupdate' => exact h.freeing hcall rfl rfl rfl rfl (fun dev inum hne => setDisk_of_ne s _ hne) fun _ _ => trivial
  | invalid => exact h.freeing hcall rfl rfl rfl rfl (fun _ _ _ => rfl) fun _ hv => (nomatch hv)
  | releasesleep =>
    have huses : (s.ctl p).call.uses = some ip := by rw [hcall]; rfl
    have hheld := Ctl.held_freeing hcall
    obtain ⟨hip, hlock, hold⟩ := h.busy huses (hheld ▸ mem_cons_self) (Ctl.role_freeing hcall)
    have hnodup := h.owns.nodup p
    rw [hheld, nodup_cons] at hnodup
    refine h.holder hip rfl rfl id rfl rfl ?_ ⟨(h.fine p).locks, fun jp hj => ?_, fun jp hj => ?_⟩ (fun _ _ _ => rfl)
      (fun jp hj => ?_) ?_
    · rw [hheld]
      refine .release ip mem_cons_self fun _ => ⟨hnodup.2, fun jp => ?_⟩
      rw [mem_cons]
      constructor
      · exact fun hj => ⟨fun heq => hnodup.1 (heq ▸ hj), .inr hj⟩
      · exact fun ⟨hne, hj⟩ => hj.resolve_left hne
    · cases hj
      exact hip
    · cases hj
      exact hnodup.1
    · rw [Ctl.role_other huses hj]
      rfl
    · refine coherent_free (by simp [State.free]) fun hv => ?_
      exact (hold (by simpa [State.free] using hv)).elim

omit [DecidableEq P] in
/-- Nobody relies on an on-disk inode that is free. -/
theorem inv_allocate (hp : s.panic = none) (hfree : (s.disk dev inum).type = 0) (d : Dinode) :
    Inv (s.setDisk dev inum d) := by
  refine { h with coherent := fun jp hr => ?_ }
  by_cases hkey : s.key jp = (dev, inum)
  · have hdinode : (s.dinode jp).type = 0 := by
      obtain ⟨hdev, hinum⟩ := Prod.mk.inj hkey
      unfold State.dinode
      rw [hdev, hinum, hfree]
    have huntyped : ¬ s.Typed jp := fun ht => ht hp hdinode
    have hold := h.coherent jp hr
    simp only [setDisk_inode, setDisk_ctl]
    cases hq : (s.inode jp).lock with
    | none =>
      rw [hq] at hold
      exact fun hv => absurd (hold hv).2 huntyped
    | some q =>
      rw [hq] at hold
      refine ⟨hold.1, fun hv => ?_⟩
      have hfits := hold.2 hv
      -- only the process between the second `iupdate` of `iput` and `ip->valid = 0` is left
      revert hfits
      generalize (s.ctl q).role jp = r
      intro hfits
      match r, hfits with
      | .user, hfits => exact absurd hfits.1 huntyped
      | .reader, hfits | .freeing .itrunc, hfits | .freeing .untype, hfits => exact absurd hfits.2 huntyped
      | .freeing .iupdate, hfits => exact absurd hfits.1 huntyped
      | .freeing .iupdate', hfits => exact absurd hfits huntyped
      | .freeing .invalid, _ => exact trivial
      | .freeing .releasesleep, hfits => exact hfits
  · exact coherent_congr (h.coherent jp) id rfl (setDisk_of_ne s d hkey) id (fun _ _ => rfl) hr

/-- From one call without a lock of its own to another. -/
theorem inv_goto {c : Call} (hquiet : (s.ctl p).call.quiet = true) (hquiet' : c.quiet = true)
    (huses : c.uses = none) : Inv (s.goto p c) := by
  refine h.goto rfl rfl rfl id rfl ?_ ((h.fine p).idle (fun _ _ hj => hj) (fun _ hj => hj) huses) fun jp => ?_
  · rw [held_locks hquiet]
    exact held_locks hquiet'
  · rw [role_user hquiet]
    exact role_user hquiet' jp

theorem inv_probe (hp : s.panic = none) {ninodes : ℕ} {type : ℤ}
    (hcall : (s.ctl p).call = .probing dev type inum) : Inv (s.probe ninodes p dev type inum) := by
  have hquiet : (s.ctl p).call.quiet = true := by rw [hcall]; rfl
  unfold State.probe
  split_ifs with hlt hfree
  · exact inv_goto (inv_allocate h hp hfree _) hquiet rfl rfl
  · exact inv_goto h hquiet rfl rfl
  · exact inv_goto h hquiet rfl rfl

end

end Calls

section Runs

/-- A process calls `iupdate` after every change and before it unlocks, and leaves `ip->type = 0` to `iput`. -/
def Updates (s : State P) : Event P → Prop
  | .change _ _ body => body.type ≠ 0
  | .iunlock _ ip => (s.inode ip).dirty = false
  | _ => True

instance (s : State P) : ∀ e : Event P, Decidable (Updates s e)
  | .change _ _ body => inferInstanceAs (Decidable (body.type ≠ 0))
  | .iunlock _ ip => inferInstanceAs (Decidable ((s.inode ip).dirty = false))
  | .iget .. | .idup .. | .ilock .. | .acquiresleep .. | .read .. | .iupdate .. | .iput .. | .free .. | .put .. | .ialloc ..
  | .probe .. | .take .. => .isTrue trivial

variable [Fintype P] [DecidableEq P]

variable {ninodes : ℕ}

theorem inv_step {e : Event P} (h : Inv s) (he : Updates s e) (hs : s.step ninodes e = some s') : Inv s' := by
  unfold State.step at hs
  split_ifs at hs with hp
  rw [not_not] at hp
  cases e
  case' iget | idup | ilock | change | iupdate | iunlock | iput | ialloc =>
    simp only [ite_none_right_eq_some, Option.some.injEq] at hs
    obtain ⟨hguard, rfl⟩ := hs
  -- the events in the middle of a call ask which call it is
  case' read | free | put | probe | take =>
    dsimp only at hs
    split at hs <;> cases hs
  case iget p dev inum => exact inv_iget h (by rw [hguard]; rfl) dev inum
  case idup p ip =>
    obtain ⟨hidle, hip⟩ := hguard
    have hquiet : (s.ctl p).call.quiet = true := by rw [hidle]; rfl
    exact inv_bump h (h.ref_pos hip) rfl rfl rfl id rfl rfl (by simp [hidle, Call.uses]) hquiet (by simp [hquiet])
  case ilock => exact inv_ilock h hguard.1 hguard.2
  case change => exact inv_change h hguard.1 hguard.2 he
  case iupdate => exact inv_iupdate h hp hguard.1 hguard.2
  case iunlock => exact inv_iunlock h hguard.1 hguard.2 he
  case iput => exact inv_iput h hguard.1 hguard.2.1 hguard.2.2
  case ialloc => exact inv_goto h (by rw [hguard]; rfl) rfl rfl
  case acquiresleep =>
    dsimp only at hs
    split at hs
    · exact inv_acquiresleep h ‹_› hs
    · cases hs
  case read => exact inv_read h hp ‹_›
  case free => exact inv_free h hp ‹_›
  case probe => exact inv_probe h hp ‹_›
  case put p _ ip hcall =>
    have hip : ip ∈ (s.ctl p).refs := (h.fine p).call ip (by rw [hcall]; rfl)
    exact inv_unref h (by rw [hcall]; rfl) hip fun hmem => absurd hmem ((h.fine p).putting ip hcall)
  case take hcall => exact inv_iget h (by rw [hcall]; rfl) _ _

theorem inv_run {disk : ℕ → ℕ → Dinode} {es : List (Event P)}
    (hes : System.Along (State.step ninodes) Updates (init disk) es) (hrun : run ninodes disk es = some s) : Inv s :=
  System.exec_invariant_along _ (inv_init disk) (fun _ _ _ h he hs => inv_step h he hs) es s hes hrun

/-- What `ilock` returns is valid, and what the disk has. -/
theorem read_fresh (h : Inv s) (hcall : (s.ctl p).call = .reading ip) :
    ip ∈ ((s.read p ip).ctl p).locks ∧ ((s.read p ip).inode ip).valid = true ∧
      ((s.read p ip).inode ip).body = (s.read p ip).dinode ip := by
  obtain ⟨-, -, hold⟩ := h.busy (by rw [hcall]; rfl) (by simp [Ctl.held, hcall]) (Ctl.role_reading hcall)
  unfold State.read
  dsimp only
  split_ifs with hv
  · exact ⟨by simp, hv, (hold hv).1⟩
  all_goals exact ⟨by simp, by simp, by simp [State.dinode]⟩

/-- In every run in which a process calls `iupdate` after a change and before it unlocks: an inode has at most one
entry, `ref` is the number of references, an entry that is valid and not locked is what the disk has, and so is what
`ilock` returns. -/
theorem inode_table (ninodes : ℕ) (disk : ℕ → ℕ → Dinode) (es : List (Event P))
    (hes : System.Along (State.step ninodes) Updates (init disk) es) (s : State P) (hrun : run ninodes disk es = some s) :
    (∀ ip jp, 0 < (s.inode ip).ref → 0 < (s.inode jp).ref → s.key ip = s.key jp → ip = jp) ∧
    (∀ ip, (s.inode ip).ref = s.refs ip) ∧
    (∀ ip, 0 < (s.inode ip).ref → (s.inode ip).valid = true → (s.inode ip).lock = none → (s.inode ip).body = s.dinode ip) ∧
    ∀ p ip t, (s.ctl p).call = .reading ip → s.step ninodes (.read p) = some t →
      ip ∈ (t.ctl p).locks ∧ (t.inode ip).valid = true ∧ (t.inode ip).body = t.dinode ip := by
  have h := inv_run hes hrun
  refine ⟨h.unique, h.count, fun ip hr hv hlock => (coherent_agrees (h.coherent ip) hlock hr hv).1, fun p ip t hcall ht => ?_⟩
  unfold State.step at ht
  split_ifs at ht
  dsimp only at ht
  rw [hcall] at ht
  cases ht
  exact read_fresh h hcall

/-- An on-disk inode with one link. -/
def linked (nlink : ℤ) : Dinode := { Dinode.fresh 2 with nlink := nlink }

/-- Process 1 allocates inode 1 while process 0 is in `iput`, in front of `ip->valid = 0`, waits for the lock and gets it. -/
def reuse : List (Event (Fin 2)) :=
  [.iget 0 1 1, .ilock 0 0, .acquiresleep 0, .read 0, .iunlock 0 0, .iput 0 0, .free 0, .free 0, .free 0, .free 0,
    .ialloc 1 1 3, .probe 1, .take 1, .ilock 1 0, .free 0, .free 0, .acquiresleep 1]

theorem inode_table_reuse : ∃ s, run 10 (fun _ _ => linked 0) reuse = some s ∧ (s.inode 0).ref = s.refs 0 ∧
    (s.inode 0).ref = 2 ∧ ∃ t, s.step 10 (.read 1) = some t ∧
      0 ∈ (t.ctl 1).locks ∧ (t.inode 0).valid = true ∧ (t.inode 0).body = t.dinode 0 := by
  have hrun : (run 10 (fun _ _ => linked 0) reuse).map (fun s => ((s.inode 0).ref, (s.ctl 1).call, (s.step 10 (.read 1)).isSome)) =
      some (2, .reading 0, true) := by decide +kernel
  obtain ⟨s, hs, hout⟩ := map_eq_some_iff.mp hrun
  simp only [Prod.mk.injEq] at hout
  obtain ⟨href, hcall, hread⟩ := hout
  obtain ⟨t, ht⟩ := Option.isSome_iff_exists.mp hread
  have hes : System.Along (State.step 10) Updates (init fun _ _ => linked 0) reuse := by decide +kernel
  have h := inode_table 10 (fun _ _ => linked 0) reuse hes s hs
  exact ⟨s, hs, h.2.1 0, href, t, ht, h.2.2.2 1 0 t hcall ht⟩

/-- What a process sees of the first entry once it has got its lock and done `es`. -/
def firstEntry (es : List (Event (Fin 2))) : Option (ℕ × Bool × Option (Fin 2) × Dinode × Dinode) :=
  (run 10 (fun _ _ => linked 1) ([.iget 0 1 1, .ilock 0 0, .acquiresleep 0, .read 0] ++ es)).map fun s =>
    ((s.inode 0).ref, (s.inode 0).valid, (s.inode 0).lock, (s.inode 0).body, s.dinode 0)

/-- An entry that is in use, valid and not locked differs from the disk: after a change without a call of `iupdate`, and
after `ip->type = 0` outside of `iput`, when `ialloc` takes the inode for free. -/
theorem unlocked_differs :
    firstEntry [.change 0 0 (linked 2), .iunlock 0 0] = some (1, true, none, linked 2, linked 1) ∧
    firstEntry [.change 0 0 (.fresh 0), .iupdate 0 0, .iunlock 0 0, .ialloc 0 1 3, .probe 0] =
      some (1, true, none, .fresh 0, .fresh 3) := by
  constructor <;> decide +kernel

end Runs

end Xv6.Itable
