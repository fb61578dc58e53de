import Xv6.Sanity.FileSteps

/-! References to open files are counted right, and what stands behind a file is given back once. -/

namespace Xv6.Files

open State Function List Count

variable {P : Type} {s s' : State P} {f : FilePtr}

/-! ### What the functions leave as it is -/

theorem asPipe_setFile (s : State P) (f : FilePtr) (u : File → File) : (fun g => ((s.setFile f u).file g).asPipe) =
    update (fun g => (s.file g).asPipe) f (u (s.file f)).asPipe := by
  funext g
  exact apply_update (fun _ => File.asPipe) s.file f (u (s.file f)) g

theorem asInode_setFile (s : State P) (f : FilePtr) (u : File → File) : (fun g => ((s.setFile f u).file g).asInode) =
    update (fun g => (s.file g).asInode) f (u (s.file f)).asInode := by
  funext g
  exact apply_update (fun _ => File.asInode) s.file f (u (s.file f)) g

theorem filealloc_some (hs : s.filealloc = some (f, s')) : s' = s.setFile f fun x => { x with ref := 1 } := by
  unfold filealloc at hs
  obtain ⟨g, -, heq⟩ := Option.map_eq_some_iff.mp hs
  cases heq
  rfl

theorem filealloc_status (hs : s.filealloc = some (f, s')) : s'.status = s.status := by
  rw [filealloc_some hs]
  rfl

theorem pipeclose_frame (s : State P) (pi : ℕ) (w : Bool) :
    (s.pipeclose pi w).status = s.status ∧ (s.pipeclose pi w).ofile = s.ofile := by
  unfold pipeclose
  split
  · exact ⟨rfl, rfl⟩
  · dsimp only
    split_ifs <;> exact ⟨rfl, rfl⟩

theorem fileclose_frame (s : State P) (f : FilePtr) :
    (s.fileclose f).status = s.status ∧ (s.fileclose f).ofile = s.ofile := by
  unfold fileclose
  split_ifs
  · exact ⟨rfl, rfl⟩
  · exact ⟨rfl, rfl⟩
  · dsimp only
    split
    · exact pipeclose_frame (s.setFile f fun x => { x with ref := 0, type := .none }) _ _
    all_goals exact ⟨rfl, rfl⟩

theorem pipealloc_status (s : State P) (page : Option ℕ) : (s.pipealloc page).2.status = s.status := by
  unfold pipealloc
  cases h0 : s.filealloc with
  | none => rfl
  | some x =>
    obtain ⟨f0, s₀⟩ := x
    dsimp only
    cases h1 : s₀.filealloc with
    | none => rw [(fileclose_frame _ _).1, filealloc_status h0]
    | some x =>
      obtain ⟨f1, s₁⟩ := x
      dsimp only
      cases page with
      | none => rw [(fileclose_frame _ _).1, (fileclose_frame _ _).1, filealloc_status h1, filealloc_status h0]
      | some pi => exact (filealloc_status h1).trans (filealloc_status h0)

theorem setFile_setFile (s : State P) (f : FilePtr) (u u' : File → File) :
    (s.setFile f u).setFile f u' = s.setFile f fun x => u' (u x) := by
  unfold setFile
  simp

theorem argfd_some {p : P} {fd : ℤ} {x : Fd × FilePtr} (h : s.argfd p fd = some x) : s.ofile p x.1 = some x.2 := by
  unfold argfd at h
  split_ifs at h
  obtain ⟨f, hf, rfl⟩ := Option.map_eq_some_iff.mp h
  exact hf

section

variable [DecidableEq P] {p : P} {fd : Fd}

theorem setFd_self (s : State P) (p : P) (fd : Fd) (o : Option FilePtr) : (s.setFd p fd o).ofile p fd = o := by
  simp [setFd]

theorem setFd_of_ne (s : State P) (p : P) {fd' : Fd} (h : fd' ≠ fd) (o : Option FilePtr) :
    (s.setFd p fd o).ofile p fd' = s.ofile p fd' := by
  simp [setFd, h]

theorem setFd_other (s : State P) {q : P} (h : q ≠ p) (fd : Fd) (o : Option FilePtr) :
    (s.setFd p fd o).ofile q = s.ofile q := by
  simp [setFd, h]

theorem filedup_setFd (s : State P) (f : FilePtr) (p : P) (fd : Fd) (o : Option FilePtr) :
    (s.setFd p fd o).filedup f = (s.filedup f).setFd p fd o := by
  unfold filedup
  change (if (s.file f).ref < 1 then _ else _) = _
  split_ifs <;> rfl

theorem pipeclose_setFd (s : State P) (pi : ℕ) (w : Bool) (p : P) (fd : Fd) (o : Option FilePtr) :
    (s.setFd p fd o).pipeclose pi w = (s.pipeclose pi w).setFd p fd o := by
  unfold pipeclose
  rw [show (s.setFd p fd o).pipe pi = s.pipe pi from rfl]
  cases s.pipe pi with
  | none => rfl
  | some x =>
    dsimp only
    split_ifs <;> rfl

theorem fileclose_setFd (s : State P) (f : FilePtr) (p : P) (fd : Fd) (o : Option FilePtr) :
    (s.setFd p fd o).fileclose f = (s.fileclose f).setFd p fd o := by
  unfold fileclose
  rw [show (s.setFd p fd o).file f = s.file f from rfl]
  split_ifs
  · rfl
  · rfl
  · dsimp only
    cases (s.file f).type with
    | pipe =>
      exact pipeclose_setFd (s.setFile f fun x => { x with ref := 0, type := .none }) (s.file f).pipe (s.file f).writable
        p fd o
    | _ => rfl

end

/-! ### The counts -/

variable [Fintype P]

/-- The descriptors that point to the file. -/
def State.slots (s : State P) (f : FilePtr) : ℕ :=
  total (fun t : Fd → Option FilePtr => total (fun o => if o = some f then 1 else 0) t) s.ofile

/-- A system call has the references `held` to files and `pending` to inodes. -/
structure Holds (s : State P) (held : List FilePtr) (pending : List ℕ) : Prop where
  panic : s.panic = none
  ref : ∀ f, (s.file f).ref = s.slots f + held.count f
  free : ∀ f, (s.file f).ref = 0 → (s.file f).type = .none
  tables : ∀ p, s.status p ≠ .used → ∀ fd, s.ofile p fd = none
  pipes : Piped (fun f => (s.file f).asPipe) s.pipe s.pipes s.log
  inodes : Opened (fun f => (s.file f).asInode) s.opens s.log pending

variable {held held' : List FilePtr} {pending : List ℕ} {u : File → File} {k : ℕ}

/-- The counts when `f` is changed. -/
theorem Holds.refs (h : Holds s held pending) (hfree : (u (s.file f)).ref = 0 → (u (s.file f)).type = .none)
    (hself : (u (s.file f)).ref + held.count f = (s.file f).ref + held'.count f)
    (hother : ∀ g, g ≠ f → held'.count g = held.count g) :
    (∀ g, ((s.setFile f u).file g).ref = s.slots g + held'.count g) ∧
      ∀ g, ((s.setFile f u).file g).ref = 0 → ((s.setFile f u).file g).type = .none := by
  refine ⟨fun g => ?_, fun g => ?_⟩
  · have hold := h.ref g
    change (update s.file f (u (s.file f)) g).ref = s.slots g + _
    by_cases hg : g = f
    · rw [hg] at hold ⊢
      rw [update_self]
      omega
    · rwa [update_of_ne hg, hother g hg]
  · change (update s.file f (u (s.file f)) g).ref = 0 → (update s.file f (u (s.file f)) g).type = _
    by_cases hg : g = f
    · rwa [hg, update_self]
    · rw [update_of_ne hg]
      exact h.free g

/-- A reference to `f` comes or goes. -/
theorem Holds.setRef (h : Holds s held pending)
    (hpipe : (u (s.file f)).asPipe = (s.file f).asPipe) (hinode : (u (s.file f)).asInode = (s.file f).asInode)
    (hfree : (u (s.file f)).ref = 0 → (u (s.file f)).type = .none)
    (hself : (u (s.file f)).ref + held.count f = (s.file f).ref + held'.count f)
    (hother : ∀ g, g ≠ f → held'.count g = held.count g) : Holds (s.setFile f u) held' pending := by
  obtain ⟨href, hfree⟩ := h.refs hfree hself hother
  refine ⟨h.panic, href, hfree, h.tables, ?_, ?_⟩
  · rw [asPipe_setFile, hpipe, update_eq_self f (fun g => (s.file g).asPipe)]
    exact h.pipes
  · rw [asInode_setFile, hinode, update_eq_self f (fun g => (s.file g).asInode)]
    exact h.inodes

theorem holds_filealloc (h : Holds s held pending) (hs : s.filealloc = some (f, s')) :
    Holds s' (f :: held) pending ∧ (s'.file f).type = .none ∧ (s.file f).ref = 0 := by
  unfold filealloc at hs
  obtain ⟨g, hg, heq⟩ := Option.map_eq_some_iff.mp hs
  obtain ⟨rfl, rfl⟩ := Prod.mk.inj heq
  have hzero := List.find?_some hg
  simp only [decide_eq_true_eq] at hzero
  have htype := h.free g hzero
  refine ⟨h.setRef rfl rfl (nofun) ?_ fun e he => count_cons_of_ne (Ne.symm he), ?_, hzero⟩
  · rw [count_cons_self, hzero]
    dsimp only
    omega
  · change (update s.file g _ g).type = _
    rwa [update_self]

theorem Holds.perm (h : Holds s held pending) (hp : held.Perm held') : Holds s held' pending :=
  { h with ref := fun f => by rw [h.ref, hp.count_eq] }

theorem holds_filedup (h : Holds s held pending) (hf : 0 < (s.file f).ref) : Holds (s.filedup f) (f :: held) pending := by
  unfold filedup
  rw [if_neg (by omega)]
  refine h.setRef rfl rfl (nofun) ?_ fun e he => count_cons_of_ne (Ne.symm he)
  rw [count_cons_self]
  dsimp only
  omega

theorem holds_fileclose (h : Holds s (f :: held) pending) : Holds (s.fileclose f) held pending := by
  have hf := h.ref f
  rw [count_cons_self] at hf
  unfold fileclose
  rw [if_neg (by omega)]
  split_ifs with hmore
  · refine h.setRef rfl rfl (fun hx => ?_) ?_ fun e he => (count_cons_of_ne (Ne.symm he)).symm
    · dsimp only at hx
      omega
    · rw [count_cons_self]
      dsimp only
      omega
  · obtain ⟨href, hfree⟩ := h.refs (u := fun x => { x with ref := 0, type := .none }) (fun _ => rfl)
      (by rw [count_cons_self]; dsimp only; omega) fun e he => (count_cons_of_ne (Ne.symm he)).symm
    have hpipes := h.pipes
    have hinodes := h.inodes
    have hview : (fun g => ((s.setFile f fun x => { x with ref := 0, type := .none }).file g).asPipe) =
        update (fun g => (s.file g).asPipe) f none := asPipe_setFile s f _
    have hview' : (fun g => ((s.setFile f fun x => { x with ref := 0, type := .none }).file g).asInode) =
        update (fun g => (s.file g).asInode) f none := asInode_setFile s f _
    have hsame (hp : (s.file f).asPipe = none) :
        update (fun g => (s.file g).asPipe) f none = fun g => (s.file g).asPipe := by
      rw [← hp]
      exact update_eq_self f _
    have hsame' (hi : (s.file f).asInode = none) :
        update (fun g => (s.file g).asInode) f none = fun g => (s.file g).asInode := by
      rw [← hi]
      exact update_eq_self f _
    dsimp only
    cases htype : (s.file f).type with
    | none =>
      refine ⟨h.panic, href, hfree, h.tables, ?_, ?_⟩
      · rwa [hview, hsame (by simp [File.asPipe, htype])]
      · rwa [hview', hsame' (by simp [File.asInode, htype])]
    | pipe =>
      have hp : (s.file f).asPipe = some ((s.file f).pipe, (s.file f).writable, (s.file f).serial) := by
        simp [File.asPipe, htype]
      obtain ⟨x, hx, -⟩ := hpipes.page f _ _ _ hp
      obtain ⟨y, l, hshut, heq⟩ := pipeclose_shut
        (s := s.setFile f fun x => { x with ref := 0, type := .none }) hx (s.file f).writable
      dsimp only
      rw [heq]
      refine ⟨h.panic, href, hfree, h.tables, ?_, ?_⟩
      · rw [hview]
        exact piped_shut hpipes hp hx hshut
      · rw [hview', hsame' (by simp [File.asInode, htype])]
        exact hinodes.keep hshut.not_iput
    | inode | device =>
      have hi : (s.file f).asInode = some (s.file f).serial := by simp [File.asInode, htype]
      refine ⟨h.panic, href, hfree, h.tables, ?_, ?_⟩
      · change Piped (fun g => ((s.setFile f fun x => { x with ref := 0, type := .none }).file g).asPipe) _ _ _
        rw [hview, hsame (by simp [File.asPipe, htype])]
        exact hpipes.iput (s.file f).serial
      · change Opened (fun g => ((s.setFile f fun x => { x with ref := 0, type := .none }).file g).asInode) _ _ _
        rw [hview']
        exact opened_iput hinodes hi

theorem slots_pos {p : P} {fd : Fd} (h : s.ofile p fd = some f) : 0 < s.slots f := by
  have hfd : 1 ≤ total (fun o => if o = some f then 1 else 0) (s.ofile p) := by
    have hone : (if s.ofile p fd = some f then 1 else 0) ≤ total (fun o => if o = some f then 1 else 0) (s.ofile p) :=
      le_total (w := fun o : Option FilePtr => if o = some f then 1 else 0) fd
    rwa [if_pos h] at hone
  exact hfd.trans (le_total (w := fun t => total _ t) p)

/-- A new file for the inode that `sys_open` got. -/
theorem holds_inode (h : Holds s [] [k]) (htype : (s.file f).type = .none)
    (hpos : 0 < (s.file f).ref) (href : (u (s.file f)).ref = (s.file f).ref) (hpipe : (u (s.file f)).asPipe = none)
    (hinode : (u (s.file f)).asInode = some k) : Holds (s.setFile f u) [] [] := by
  obtain ⟨hcount, hfree⟩ := h.refs (by omega) (congrArg (· + _) href) fun _ _ => rfl
  refine ⟨h.panic, hcount, hfree, h.tables, ?_, ?_⟩
  · have hp : (s.file f).asPipe = none := by simp [File.asPipe, htype]
    rw [asPipe_setFile, hpipe, ← hp, update_eq_self f (fun g => (s.file g).asPipe)]
    exact h.pipes
  · rw [asInode_setFile, hinode]
    exact opened_file h.inodes (by simp [File.asInode, htype])

theorem holds_iput (h : Holds s [] [k]) : Holds (s.record (.iput k)) [] [] :=
  ⟨h.panic, h.ref, h.free, h.tables, h.pipes.iput k, opened_fail h.inodes⟩

/-- Two new files become the ends of a new pipe. -/
theorem holds_pipe {g : FilePtr} (h : Holds s [g, f] []) (hne : f ≠ g) {pi : ℕ} (hpi : s.pipe pi = none)
    (hf : (s.file f).type = .none) (hg : (s.file g).type = .none) {u' : File → File}
    (hu : ∀ x, (u x).ref = x.ref ∧ (u x).asPipe = some (pi, false, s.pipes) ∧ (u x).asInode = none)
    (hu' : ∀ x, (u' x).ref = x.ref ∧ (u' x).asPipe = some (pi, true, s.pipes) ∧ (u' x).asInode = none) :
    Holds { ((s.setPipe pi (some ⟨true, true, s.pipes⟩)).setFile f u).setFile g u' with pipes := s.pipes + 1 }
      [g, f] [] := by
  set s₁ := s.setPipe pi (some ⟨true, true, s.pipes⟩) with hs₁
  have hpipe (e : FilePtr) (he : (s.file e).type = .none) : (s.file e).asPipe = none := by simp [File.asPipe, he]
  have hinode (e : FilePtr) (he : (s.file e).type = .none) : (s.file e).asInode = none := by simp [File.asInode, he]
  have hother (e : FilePtr) (hef : e ≠ f) (heg : e ≠ g) : ((s₁.setFile f u).setFile g u').file e = s.file e := by
    change update (update s.file f _) g _ e = _
    rw [update_of_ne heg, update_of_ne hef]
  have href (e : FilePtr) : (((s₁.setFile f u).setFile g u').file e).ref = (s.file e).ref := by
    by_cases heg : e = g
    · change (update (update s.file f (u (s.file f))) g
        (u' (update s.file f (u (s.file f)) g)) e).ref = _
      rw [heg, update_self, (hu' _).1, update_of_ne hne.symm]
    · by_cases hef : e = f
      · change (update (update s.file f (u (s.file f))) g _ e).ref = _
        rw [hef, update_of_ne hne, update_self, (hu _).1]
      · rw [hother e hef heg]
  refine ⟨h.panic, fun e => (href e).trans (h.ref e), fun e he => ?_, h.tables, ?_, ?_⟩
  · change (((s₁.setFile f u).setFile g u').file e).type = _
    change (((s₁.setFile f u).setFile g u').file e).ref = 0 at he
    rw [href] at he
    have hcount := h.ref e
    rw [he] at hcount
    have hnot : e ∉ [g, f] := count_eq_zero.mp (by omega)
    simp only [mem_cons, not_mem_nil, or_false, not_or] at hnot
    rw [hother e hnot.2 hnot.1]
    exact h.free e he
  · change Piped (fun e => (((s₁.setFile f u).setFile g u').file e).asPipe) _ _ _
    rw [asPipe_setFile, asPipe_setFile, (hu' _).2.1, (hu _).2.1]
    exact piped_new h.pipes hpi hne (hpipe f hf) (hpipe g hg)
  · change Opened (fun e => (((s₁.setFile f u).setFile g u').file e).asInode) _ _ _
    rw [asInode_setFile, asInode_setFile, (hu' _).2.2, (hu _).2.2]
    have hsame : update (update (fun e => (s.file e).asInode) f none) g none =
        fun e => (s.file e).asInode := by
      rw [← hinode f hf, update_eq_self f (fun e => (s.file e).asInode), hinode f hf, ← hinode g hg,
        update_eq_self g (fun e => (s.file e).asInode)]
    change Opened (update (update (fun e => (s.file e).asInode) f none) g none) _ _ _
    rw [hsame]
    exact h.inodes

/-- The references to the two files of a new pipe. -/
theorem holds_pipealloc (h : Holds s [] []) {page : Option ℕ} (hpage : ∀ pi, page = some pi → s.pipe pi = none) :
    ((s.pipealloc page).1 = none ∧ Holds (s.pipealloc page).2 [] []) ∨
      ∃ rf wf, (s.pipealloc page).1 = some (rf, wf) ∧ Holds (s.pipealloc page).2 [rf, wf] [] := by
  unfold pipealloc
  cases h0 : s.filealloc with
  | none => exact .inl ⟨rfl, h⟩
  | some x =>
    obtain ⟨f0, s₀⟩ := x
    obtain ⟨hs₀, htype₀, hzero₀⟩ := holds_filealloc h h0
    dsimp only
    cases h1 : s₀.filealloc with
    | none => exact .inl ⟨rfl, holds_fileclose hs₀⟩
    | some x =>
      obtain ⟨f1, s₁⟩ := x
      obtain ⟨hs₁, htype₁, hzero₁⟩ := holds_filealloc hs₀ h1
      dsimp only
      cases page with
      | none => exact .inl ⟨rfl, holds_fileclose (holds_fileclose (hs₁.perm (List.Perm.swap ..)))⟩
      | some pi =>
        have hne : f0 ≠ f1 := by
          rintro rfl
          rw [filealloc_some h0] at hzero₁
          simp [setFile] at hzero₁
        have hfree : s₁.pipe pi = none := by
          rw [filealloc_some h1, filealloc_some h0]
          exact hpage pi rfl
        have htype₀ : (s₁.file f0).type = .none := by
          rw [filealloc_some h1]
          change (update s₀.file f1 _ f0).type = _
          rwa [update_of_ne hne]
        refine .inr ⟨f0, f1, rfl, Holds.perm ?_ (List.Perm.swap f0 f1 [])⟩
        exact holds_pipe hs₁ hne hfree htype₀ htype₁ (fun _ => ⟨rfl, rfl, rfl⟩) fun _ => ⟨rfl, rfl, rfl⟩

variable [DecidableEq P] {p np : P} {fd : Fd}

theorem slots_setFd (s : State P) (p : P) (fd : Fd) (o : Option FilePtr) (g : FilePtr) :
    (s.setFd p fd o).slots g + (if s.ofile p fd = some g then 1 else 0) = s.slots g + if o = some g then 1 else 0 := by
  let one : Option FilePtr → ℕ := fun o => if o = some g then 1 else 0
  have hfd : total one (update (s.ofile p) fd o) + one (s.ofile p fd) = total one (s.ofile p) + one o :=
    total_update fd o
  have hp : total (total one) (update s.ofile p (update (s.ofile p) fd o)) +
      total one (s.ofile p) = total (total one) s.ofile + total one (update (s.ofile p) fd o) :=
    total_update p (update (s.ofile p) fd o)
  unfold slots
  change total (total one) (update s.ofile p (update (s.ofile p) fd o)) + one (s.ofile p fd) =
    total (total one) s.ofile + one o
  omega

/-- A descriptor takes or gives up a reference. -/
theorem Holds.setFd (h : Holds s held pending) {o : Option FilePtr} (hused : s.status p = .used)
    (hcount : ∀ g, held'.count g + (if o = some g then 1 else 0) =
      held.count g + if s.ofile p fd = some g then 1 else 0) : Holds (s.setFd p fd o) held' pending where
  panic := h.panic
  ref g := by
    have hslots := slots_setFd s p fd o g
    have hold := h.ref g
    have := hcount g
    change (s.file g).ref = _
    omega
  free := h.free
  tables q hq fd' := by
    have hqp : q ≠ p := by
      rintro rfl
      exact hq hused
    rw [setFd_other s hqp]
    exact h.tables q hq fd'
  pipes := h.pipes
  inodes := h.inodes

theorem Holds.drop (h : Holds s held pending) (hused : s.status p = .used) (hfd : s.ofile p fd = some f) :
    Holds (s.setFd p fd none) (f :: held) pending := by
  refine h.setFd hused fun g => ?_
  rw [hfd, count_cons]
  simp

theorem Holds.give (h : Holds s (f :: held) pending) (hused : s.status p = .used) (hfd : s.ofile p fd = none) :
    Holds (s.setFd p fd (some f)) held pending := by
  refine h.setFd hused fun g => ?_
  rw [hfd, count_cons]
  simp

theorem holds_fdalloc (h : Holds s (f :: held) pending) (hused : s.status p = .used)
    (hs : s.fdalloc p f = some (fd, s')) : Holds s' held pending ∧ s.ofile p fd = none ∧ s' = s.setFd p fd (some f) := by
  unfold fdalloc at hs
  obtain ⟨d, hd, heq⟩ := Option.map_eq_some_iff.mp hs
  obtain ⟨rfl, rfl⟩ := Prod.mk.inj heq
  have hnone := List.find?_some hd
  simp only [decide_eq_true_eq] at hnone
  exact ⟨h.give hused hnone, hnone, rfl⟩

section Calls

section

variable (h : Holds s [] []) (hused : s.status p = .used)

include h hused

theorem holds_sysDup (fd : ℤ) : Holds (s.sysDup p fd).2 [] [] := by
  unfold sysDup
  cases harg : s.argfd p fd with
  | none => exact h
  | some x =>
    have hf := argfd_some harg
    have hdup := holds_filedup h (f := x.2) (by rw [h.ref]; exact Nat.add_pos_left (slots_pos hf) _)
    dsimp only
    cases hfd : s.fdalloc p x.2 with
    | none => exact h
    | some y =>
      unfold fdalloc at hfd
      obtain ⟨d, hd, rfl⟩ := Option.map_eq_some_iff.mp hfd
      have hnone := List.find?_some hd
      simp only [decide_eq_true_eq] at hnone
      -- `filedup` may as well come first
      change Holds ((s.setFd p d (some x.2)).filedup x.2) [] []
      rw [filedup_setFd]
      refine hdup.give ?_ ?_
      · unfold filedup
        split_ifs <;> exact hused
      · unfold filedup
        split_ifs <;> exact hnone

theorem holds_sysClose (fd : ℤ) : Holds (s.sysClose p fd).2 [] [] := by
  unfold sysClose
  cases harg : s.argfd p fd with
  | none => exact h
  | some x => exact holds_fileclose (h.drop hused (argfd_some harg))

theorem holds_sysOpen (omode : BitVec 32) (ip : Option Inode) :
    Holds (s.sysOpen p omode ip).2 [] [] := by
  unfold sysOpen
  cases ip with
  | none => exact h
  | some ip =>
    have hgot : Holds { s with opens := s.opens + 1 } [] [s.opens] :=
      { h with inodes := opened_next h.inodes }
    dsimp only
    by_cases hdir : omode &&& O_CREATE = 0 ∧ ip.type = .dir ∧ omode ≠ O_RDONLY
    · rw [if_pos hdir]
      exact holds_iput hgot
    rw [if_neg hdir]
    by_cases hmajor : ip.type = .device ∧ (ip.major < 0 ∨ NDEV ≤ ip.major)
    · rw [if_pos hmajor]
      exact holds_iput hgot
    rw [if_neg hmajor]
    cases halloc : ({ s with opens := s.opens + 1 } : State P).filealloc with
    | none => exact holds_iput hgot
    | some x =>
      obtain ⟨f, s₁⟩ := x
      obtain ⟨h₁, htype, -⟩ := holds_filealloc hgot halloc
      have hused₁ : s₁.status p = .used := by rw [filealloc_status halloc]; exact hused
      dsimp only
      cases hfd : s₁.fdalloc p f with
      | none => exact holds_iput (holds_fileclose h₁)
      | some y =>
        obtain ⟨fd, s₂⟩ := y
        obtain ⟨h₂, -, rfl⟩ := holds_fdalloc h₁ hused₁ hfd
        have href := h₁.ref f
        rw [count_cons_self] at href
        dsimp only
        rw [setFile_setFile]
        refine holds_inode h₂ htype (by change 0 < (s₁.file f).ref; omega) ?_ ?_ ?_
        all_goals split_ifs <;> rfl

theorem holds_sysPipe {page : Option ℕ}
    (hpage : ∀ pi, page = some pi → s.pipe pi = none) (ok₀ ok₁ : Bool) : Holds (s.sysPipe p page ok₀ ok₁).2 [] [] := by
  have hstatus := pipealloc_status s page
  unfold sysPipe
  rcases holds_pipealloc h hpage with ⟨hnone, hs⟩ | ⟨rf, wf, hsome, hs⟩
  · rwa [show s.pipealloc page = (none, (s.pipealloc page).2) from Prod.ext hnone rfl]
  · rw [show s.pipealloc page = (some (rf, wf), (s.pipealloc page).2) from Prod.ext hsome rfl]
    set s₁ := (s.pipealloc page).2
    have hused₁ : s₁.status p = .used := by rw [hstatus, hused]
    dsimp only
    cases h0 : s₁.fdalloc p rf with
    | none => exact holds_fileclose (holds_fileclose hs)
    | some x =>
      obtain ⟨fd0, s₂⟩ := x
      obtain ⟨hs₂, hfd0, rfl⟩ := holds_fdalloc hs hused₁ h0
      dsimp only
      cases h1 : (s₁.setFd p fd0 (some rf)).fdalloc p wf with
      | none =>
        have hdrop := hs₂.drop hused₁ (setFd_self s₁ p fd0 (some rf))
        exact holds_fileclose (holds_fileclose hdrop)
      | some x =>
        obtain ⟨fd1, s₃⟩ := x
        obtain ⟨hs₃, hfd1, rfl⟩ := holds_fdalloc hs₂ hused₁ h1
        dsimp only
        split_ifs
        · exact hs₃
        · have hne : fd0 ≠ fd1 := by
            rintro rfl
            rw [setFd_self] at hfd1
            cases hfd1
          have hfd0' := (setFd_of_ne (s₁.setFd p fd0 (some rf)) p hne (some wf)).trans (setFd_self ..)
          have hdrop0 := hs₃.drop hused₁ hfd0'
          have hdrop1 := hdrop0.drop hused₁ ((setFd_of_ne _ p hne.symm none).trans (setFd_self ..))
          exact holds_fileclose (holds_fileclose (hdrop1.perm (List.Perm.swap ..)))

end

/-- The loop of `fork`. -/
theorem holds_forkFiles (is : List Fd) (hnodup : is.Nodup) (h : Holds s [] [])
    (hused : s.status np = .used) (hnone : ∀ i ∈ is, s.ofile np i = none) :
    Holds (is.foldl (fun s i => match s.ofile p i with
      | some f => (s.filedup f).setFd np i (some f)
      | none => s) s) [] [] := by
  induction is generalizing s with
  | nil => exact h
  | cons i is ih =>
    obtain ⟨hi, hnodup⟩ := nodup_cons.mp hnodup
    rw [foldl_cons]
    cases hf : s.ofile p i with
    | none => exact ih hnodup h hused fun j hj => hnone j (mem_cons_of_mem i hj)
    | some f =>
      have hdup : s.filedup f = s.setFile f fun x => { x with ref := x.ref + 1 } := by
        unfold filedup
        rw [if_neg]
        have := h.ref f
        have := slots_pos hf
        omega
      have hs := holds_filedup (f := f) h (by rw [h.ref]; exact Nat.add_pos_left (slots_pos hf) _)
      dsimp only
      rw [hdup] at hs ⊢
      refine ih hnodup (hs.give hused (hnone i mem_cons_self)) hused fun j hj => ?_
      have hji : j ≠ i := fun heq => hi (heq ▸ hj)
      rw [setFd_of_ne _ _ hji]
      exact hnone j (mem_cons_of_mem i hj)

/-- The loop of `exit`. -/
theorem holds_exitFiles (is : List Fd) (h : Holds s [] []) (hused : s.status p = .used)
    (hall : ∀ fd, fd ∉ is → s.ofile p fd = none) :
    Holds (is.foldl (fun s fd => match s.ofile p fd with
      | some f => (s.fileclose f).setFd p fd none
      | none => s) s) [] [] ∧
    ∀ fd, (is.foldl (fun s fd => match s.ofile p fd with
      | some f => (s.fileclose f).setFd p fd none
      | none => s) s).ofile p fd = none := by
  induction is generalizing s with
  | nil => exact ⟨h, fun fd => hall fd not_mem_nil⟩
  | cons i is ih =>
    rw [foldl_cons]
    cases hf : s.ofile p i with
    | none =>
      refine ih h hused fun fd hfd => ?_
      by_cases hi : fd = i
      · rw [hi, hf]
      · exact hall fd (not_mem_cons_of_ne_of_not_mem hi hfd)
    | some f =>
      dsimp only
      rw [← fileclose_setFd]
      refine ih (holds_fileclose (h.drop hused hf)) ?_ fun fd hfd => ?_
      · rwa [(fileclose_frame _ _).1]
      · rw [(fileclose_frame _ _).2]
        by_cases hi : fd = i
        · rw [hi, setFd_self]
        · rw [setFd_of_ne _ _ hi]
          exact hall fd (not_mem_cons_of_ne_of_not_mem hi hfd)

/-- A process without descriptors comes or goes. -/
theorem Holds.setStatus (h : Holds s held pending) (hnone : ∀ fd, s.ofile p fd = none) (x : Status) :
    Holds (s.setStatus p x) held pending := by
  refine { h with tables := fun q hq fd => ?_ }
  by_cases hqp : q = p
  · rw [hqp]
    exact hnone fd
  · refine h.tables q ?_ fd
    change update s.status p x q ≠ _ at hq
    rwa [update_of_ne hqp] at hq

theorem holds_fork (h : Holds s [] []) {q : Option P} (hq : ∀ np, q = some np → s.status np = .unused) (ok : Bool) :
    Holds (s.fork p q ok).2 [] [] := by
  unfold fork
  cases q with
  | none => exact h
  | some np =>
    have hnone := h.tables np (by rw [hq np rfl]; nofun)
    have hused : (s.setStatus np .used).status np = .used := update_self ..
    have hs := h.setStatus hnone .used
    dsimp only
    split_ifs
    · exact holds_forkFiles (List.finRange NOFILE) (nodup_finRange NOFILE) hs hused fun i _ => hnone i
    · exact hs.setStatus hnone .unused

theorem holds_exit {initproc : P} (h : Holds s [] []) (hused : s.status p = .used) (hp : p ≠ initproc) :
    Holds (s.exit initproc p) [] [] := by
  unfold exit
  rw [if_neg hp]
  obtain ⟨hs, hnone⟩ := holds_exitFiles (List.finRange NOFILE) h hused fun fd hfd => absurd (mem_finRange fd) hfd
  exact hs.setStatus hnone .zombie

end Calls

section Runs

/-- Between system calls: everything is counted, and the only panic is that of `exit` by the first process. -/
def Settled (s : State P) : Prop :=
  Holds { s with panic := none } [] [] ∧ (s.panic = none ∨ s.panic = some .initExiting)

omit [DecidableEq P] in
theorem Holds.settled (h : Holds s [] []) : Settled s :=
  ⟨{ h with panic := rfl }, .inl h.panic⟩

theorem settled_init (initproc : P) : Settled (init initproc) := by
  refine Holds.settled ⟨rfl, fun f => ?_, fun _ _ => rfl, fun _ _ _ => rfl, ?_, ?_⟩
  · have : (init initproc : State P).slots f = 0 := total_eq_zero fun q => total_eq_zero fun fd => rfl
    rw [this]
    rfl
  · refine ⟨nofun, nofun, nofun, nofun, nofun, fun k w => .inr ⟨rfl, fun hk => ?_⟩, fun k => .inr ⟨rfl, fun hk => ?_⟩⟩
    all_goals exact absurd hk (Nat.not_lt_zero k)
  · refine ⟨nofun, nofun, nofun, fun k => .inr ⟨rfl, fun hk => ?_⟩⟩
    exact absurd hk (Nat.not_lt_zero k)

theorem settled_step {initproc : P} (h : Settled s) {e : Event P} (hs : s.step initproc e = some s') : Settled s' := by
  unfold step at hs
  by_cases hpanic : s.panic = none
  case neg =>
    rw [if_pos hpanic] at hs
    cases hs
  rw [if_neg (not_not.mpr hpanic)] at hs
  have h : Holds s [] [] := { h.1 with panic := hpanic }
  cases e
  all_goals
    simp only [Option.ite_none_right_eq_some, Option.some.injEq] at hs
    obtain ⟨hguard, rfl⟩ := hs
  case «open» p omode ip => exact (holds_sysOpen h hguard omode ip).settled
  case dup p fd => exact (holds_sysDup h hguard fd).settled
  case pipe p page ok₀ ok₁ => exact (holds_sysPipe h hguard.1 hguard.2 ok₀ ok₁).settled
  case close p fd => exact (holds_sysClose h hguard fd).settled
  case fork p np ok => exact (holds_fork h hguard.2 ok).settled
  case exit p =>
    by_cases hp : p = initproc
    · unfold exit
      rw [if_pos hp]
      refine ⟨{ h with panic := rfl }, .inr ?_⟩
      unfold panics
      rw [hpanic]
      rfl
    · exact (holds_exit h hguard hp).settled
  case reap p => exact (h.setStatus (h.tables p (by rw [hguard]; nofun)) .unused).settled

/-- Some descriptor is open on an end of pipe number `k`. -/
def State.EndOpen (s : State P) (k : ℕ) (w : Bool) : Prop :=
  ∃ p fd f, s.ofile p fd = some f ∧ (s.file f).type = .pipe ∧ (s.file f).serial = k ∧ (s.file f).writable = w

/-- Some descriptor is open on the inode that `sys_open` got as number `k`. -/
def State.InodeOpen (s : State P) (k : ℕ) : Prop :=
  ∃ p fd f, s.ofile p fd = some f ∧ ((s.file f).type = .inode ∨ (s.file f).type = .device) ∧ (s.file f).serial = k

omit [DecidableEq P] in
/-- Between system calls the open files are those with a descriptor. -/
theorem Holds.slot (h : Holds s [] []) (hf : (s.file f).type ≠ .none) : ∃ p fd, s.ofile p fd = some f := by
  by_contra hno
  push Not at hno
  have hslots : s.slots f = 0 :=
    total_eq_zero fun p => total_eq_zero fun fd => if_neg (hno p fd)
  have href := h.ref f
  rw [hslots] at href
  exact hf (h.free f href)

omit [DecidableEq P] in
theorem Holds.endOpen_iff (h : Holds s [] []) (k : ℕ) (w : Bool) :
    s.EndOpen k w ↔ HasEnd (fun f => (s.file f).asPipe) k w := by
  constructor
  · rintro ⟨p, fd, f, -, htype, hserial, hw⟩
    exact ⟨f, (s.file f).pipe, asPipe_eq_some.mpr ⟨htype, rfl, hw, hserial⟩⟩
  · rintro ⟨f, pi, hf⟩
    obtain ⟨htype, -, hw, hserial⟩ := asPipe_eq_some.mp hf
    obtain ⟨p, fd, hfd⟩ := h.slot (f := f) (by rw [htype]; nofun)
    exact ⟨p, fd, f, hfd, htype, hserial, hw⟩

omit [DecidableEq P] in
theorem Holds.inodeOpen_iff (h : Holds s [] []) (k : ℕ) : s.InodeOpen k ↔ ∃ f, (s.file f).asInode = some k := by
  constructor
  · rintro ⟨p, fd, f, -, hf⟩
    exact ⟨f, asInode_eq_some.mpr hf⟩
  · rintro ⟨f, hf⟩
    have hf := asInode_eq_some.mp hf
    obtain ⟨p, fd, hfd⟩ := h.slot (f := f) (by rcases hf.1 with ht | ht <;> rw [ht] <;> nofun)
    exact ⟨p, fd, f, hfd, hf⟩

/-- `ref` counts the descriptors; `pipeclose` is called once for each end of a pipe and `iput` once for each inode that
`sys_open` got, when no descriptor is left; the page of a pipe is freed when both ends are gone; `filedup` and
`fileclose` do not panic. -/
theorem file_refs (initproc : P) (es : List (Event P)) (s : State P) (hrun : run initproc es = some s) :
    (s.panic = none ∨ s.panic = some .initExiting) ∧
    (∀ f, (s.file f).ref = s.slots f) ∧
    (∀ k w, k < s.pipes → (s.EndOpen k w → s.log.count (.pipeclose k w) = 0) ∧
      (¬s.EndOpen k w → s.log.count (.pipeclose k w) = 1)) ∧
    (∀ k, k < s.pipes → ((∃ w, s.EndOpen k w) → s.log.count (.kfree k) = 0) ∧
      ((∀ w, ¬s.EndOpen k w) → s.log.count (.kfree k) = 1)) ∧
    (∀ k, (∃ pi x, s.pipe pi = some x ∧ x.serial = k) ↔ ∃ w, s.EndOpen k w) ∧
    ∀ k, k < s.opens → (s.InodeOpen k → s.log.count (.iput k) = 0) ∧ (¬s.InodeOpen k → s.log.count (.iput k) = 1) := by
  obtain ⟨h, hpanic⟩ : Settled s :=
    System.exec_invariant (step initproc) (settled_init initproc) (fun _ _ _ h hs => settled_step h hs) es s hrun
  have hend (k : ℕ) (w : Bool) : s.EndOpen k w ↔ HasEnd (fun f => (s.file f).asPipe) k w := h.endOpen_iff k w
  have hinode (k : ℕ) : s.InodeOpen k ↔ ∃ f, (s.file f).asInode = some k := h.inodeOpen_iff k
  refine ⟨hpanic, fun f => h.ref f, fun k w hk => ?_, fun k hk => ?_, fun k => ?_, fun k hk => ?_⟩
  · rw [hend]
    rcases h.pipes.pipecloses k w with ⟨hone, -, hno⟩ | ⟨hzero, hyes⟩
    · exact ⟨fun hopen => absurd hopen hno, fun _ => hone⟩
    · exact ⟨fun _ => hzero, fun hno => absurd (hyes hk) hno⟩
  · simp only [hend]
    rcases h.pipes.kfrees k with ⟨hone, -, hno⟩ | ⟨hzero, hyes⟩
    · exact ⟨fun ⟨w, hopen⟩ => absurd hopen (hno w), fun _ => hone⟩
    · obtain ⟨w, hw⟩ := hyes hk
      exact ⟨fun _ => hzero, fun hno => absurd hw (hno w)⟩
  · simp only [hend]
    constructor
    · rintro ⟨pi, x, hx, rfl⟩
      obtain ⟨w, hw⟩ := (h.pipes.live pi x hx).2
      exact ⟨w, (h.pipes.ends pi x hx w).mp hw⟩
    · rintro ⟨w, f, pi, hf⟩
      obtain ⟨x, hx, hserial⟩ := h.pipes.page f pi w k hf
      exact ⟨pi, x, hx, hserial⟩
  · rw [hinode]
    rcases h.inodes.iputs k with ⟨hone, -, hno, -⟩ | ⟨hzero, hyes⟩
    · exact ⟨fun ⟨f, hf⟩ => absurd hf (hno f), fun _ => hone⟩
    · exact ⟨fun _ => hzero, fun hno => absurd ((hyes hk).resolve_right not_mem_nil) hno⟩

/-- A pipe shared with a child, one end closed by both, and a file. -/
def shareAndClose : List (Event (Fin 2)) :=
  [.pipe 0 (some 7) true true, .fork 0 (some 1) true, .close 0 0, .open 0 O_RDONLY (some ⟨5, .file, 0⟩), .exit 1]

theorem file_refs_shared : ∃ s : State (Fin 2), run 0 shareAndClose = some s ∧ s.log = [.pipeclose 0 false] ∧
    s.pipes = 1 ∧ ¬s.EndOpen 0 false ∧ ∀ f, (s.file f).ref = s.slots f := by
  have hrun : (run (P := Fin 2) 0 shareAndClose).map (fun s => (s.log, s.pipes)) = some ([.pipeclose 0 false], 1) := by
    decide +kernel
  obtain ⟨s, hs, heq⟩ := Option.map_eq_some_iff.mp hrun
  obtain ⟨hlog, hpipes⟩ := Prod.mk.inj heq
  obtain ⟨-, href, hclose, -⟩ := file_refs 0 shareAndClose s hs
  refine ⟨s, hs, hlog, hpipes, fun hopen => ?_, href⟩
  have := (hclose 0 false (by omega)).1 hopen
  rw [hlog] at this
  cases this

end Runs

end Xv6.Files
