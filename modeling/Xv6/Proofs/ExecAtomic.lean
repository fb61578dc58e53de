import Xv6.Proofs.WriteProtect
import Xv6.Spec.Exec

/-! `exec` replaces the image of a process or leaves everything as it was: whatever the file and the arguments are and
whichever `kalloc` fails, it does not panic, the inode and the transaction are released, and if it returns -1 then no page
that was in use has changed and the same pages are free. -/

namespace Xv6.Vm.Exec

open Prog Radix Function

variable {α : Type} {M : PageMap} {g : Pages} {p : Slot} {pr : Slot → Proc} {nm : Slot → List UInt8} {F F' : FsState → Prop}
  {P : Vm.State → Prop} {Q : α → Vm.State → Prop} {root y : ℕ} {k : ℕ × ℕ} {v : PageData}

/-! ### Programs over parts of the state -/

/-- Memory as `P` says, the process table and the names as given, and the file system as `F` says. -/
def Here (P : Vm.State → Prop) (pr : Slot → Proc) (nm : Slot → List UInt8) (F : FsState → Prop) (st : State) : Prop :=
  At P pr st.machine ∧ st.name = nm ∧ F st.fs

def Never : Panic → State → Prop := fun _ _ => False

theorem onMachine_here {x : ProcM α} {P : Machine → Prop} {Q : α → Machine → Prop} (h : Holds P x Q (Stops True)) :
    Holds (fun st => P st.machine ∧ st.name = nm ∧ F st.fs) (onMachine x)
      (fun r st => Q r st.machine ∧ st.name = nm ∧ F st.fs) Never := by
  rintro st ⟨hP, hrest⟩
  have hx := h st.machine hP
  unfold onMachine
  cases hr : x st.machine with
  | ok r m =>
    rw [hr] at hx
    exact ⟨hx, hrest⟩
  | fault e m =>
    rw [hr] at hx
    exact hx.2 trivial

theorem onVm_here {x : VmM α} (h : Holds P x Q (Faults True)) :
    Holds (Here P pr nm F) (onVm x) (fun r => Here (Q r) pr nm F) Never := onMachine_here (lift_at h)

/-- Besides, the page `y` has the contents `v`. -/
def Watched (P : Vm.State → Prop) (y : ℕ) (v : PageData) (s : Vm.State) : Prop := P s ∧ contents y s = v

theorem onVm_watched {x : VmM α} (h : Holds P x Q (Faults True)) (hx : Frames P (contents y) x) :
    Holds (Here (Watched P y v) pr nm F) (onVm x) (fun r => Here (Watched (Q r) y v) pr nm F) Never :=
  onVm_here (h.frames hx v)

variable {β : Type} {R : β → State → Prop} {x : ExecM β} {t : ℕ} {a : Owner} {argv : List ℕ} {g' : Pages}

theorem getProc_here {f : Proc → ExecM β} (h : Holds (Here P pr nm F) (f (pr p)) R Never) :
    Holds (Here P pr nm F) (onMachine (getProc p) >>= f) R Never := by
  rintro st ⟨⟨hP, hpr⟩, hrest⟩
  have hq : (onMachine (getProc p) >>= f) st = f (pr p) st := by
    rw [← hpr]
    rfl
  rw [hq]
  exact h st ⟨⟨hP, hpr⟩, hrest⟩

theorem here_exists {ι : Type} {P : ι → Vm.State → Prop}
    (h : ∀ i, Holds (Here (P i) pr nm F) x R Never) : Holds (Here (fun s => ∃ i, P i s) pr nm F) x R Never := by
  rintro st ⟨⟨⟨i, hi⟩, hpr⟩, hrest⟩
  exact h i st ⟨⟨hi, hpr⟩, hrest⟩

theorem here_assume {c : Prop} (hc : ∀ s, P s → c)
    (h : c → Holds (Here P pr nm F) x R Never) : Holds (Here P pr nm F) x R Never :=
  holds_assume (fun _ hst => hc _ hst.1.1) h

theorem here_mono (P' : Vm.State → Prop)
    (h : Holds (Here P' pr nm F) x R Never) (hP : ∀ s, P s → P' s) : Holds (Here P pr nm F) x R Never :=
  holds_conseq h (fun _ hst => ⟨⟨hP _ hst.1.1, hst.1.2⟩, hst.2⟩) fun _ _ hr => hr

/-! ### The file system -/

/-- The references and the number of transactions, and the one inode that the process has locked. -/
structure Holding (p : Slot) (ref : ℕ → ℕ) (n : ℕ) (lk : Option ℕ) (fs : FsState) : Prop where
  ref : fs.ref = ref
  outstanding : fs.outstanding = n
  lock : ∀ ip, fs.lock ip = some p ↔ lk = some ip

def plus (ref : ℕ → ℕ) (ip : ℕ) : ℕ → ℕ := Function.update ref ip (ref ip + 1)

def minus (ref : ℕ → ℕ) (ip : ℕ) : ℕ → ℕ := Function.update ref ip (ref ip - 1)

theorem plus_pos (ref : ℕ → ℕ) (ip : ℕ) : 0 < plus ref ip ip := by simp [plus]

theorem plus_comm (ref : ℕ → ℕ) (ip next : ℕ) : plus (plus ref ip) next = plus (plus ref next) ip := by
  funext x
  unfold plus
  by_cases hip : x = ip <;> by_cases hnext : x = next <;> simp_all [update_apply]

theorem minus_plus (ref : ℕ → ℕ) (ip : ℕ) : minus (plus ref ip) ip = ref := by
  simp [minus, plus]

section Fs

variable {ref : ℕ → ℕ} {n ip : ℕ} {lk : Option ℕ}

theorem updFs_here {f : FsState → FsState} (h : ∀ fs, F fs → F' (f fs)) :
    Holds (Here P pr nm F) (updFs f) (fun _ => Here P pr nm F') Never :=
  holds_modify fun _ hst => ⟨hst.1, hst.2.1, h _ hst.2.2⟩

theorem beginOp_here : Holds (Here P pr nm (Holding p ref n lk)) beginOp
    (fun _ => Here P pr nm (Holding p ref (n + 1) lk)) Never :=
  updFs_here fun _ h => ⟨h.ref, congrArg (· + 1) h.outstanding, h.lock⟩

theorem endOp_here : Holds (Here P pr nm (Holding p ref (n + 1) lk)) endOp
    (fun _ => Here P pr nm (Holding p ref n lk)) Never :=
  updFs_here fun _ h => ⟨h.ref, congrArg (· - 1) h.outstanding, h.lock⟩

theorem iget_here (ip : ℕ) : Holds (Here P pr nm (Holding p ref n lk)) (iget ip)
    (fun _ => Here P pr nm (Holding p (plus ref ip) n lk)) Never := by
  refine updFs_here fun fs h => ⟨?_, h.outstanding, h.lock⟩
  rw [← h.ref]
  rfl

theorem checked_here {c : FsState → Prop} [DecidablePred c] {e : Panic} {f : FsState → FsState} (hc : ∀ fs, F fs → ¬ c fs)
    (h : ∀ fs, F fs → F' (f fs)) :
    Holds (Here P pr nm F) (do let fs ← gets State.fs; if c fs then fail e else updFs f) (fun _ => Here P pr nm F') Never := by
  refine holds_bind (Q := fun fs st => Here P pr nm F st ∧ F fs) (holds_gets fun st hst => ⟨hst, hst.2.2⟩) fun fs => ?_
  refine holds_ite (fun hbad => holds_fail fun _ hst => hc fs hst.2 hbad) fun _ => ?_
  exact holds_conseq (updFs_here h) (fun _ hst => hst.1) fun _ _ hst => hst

theorem ilock_here (hip : 0 < ref ip) : Holds (Here P pr nm (Holding p ref n none)) (ilock p ip)
    (fun _ => Here P pr nm (Holding p ref n (some ip))) Never := by
  refine checked_here (fun fs h => ?_) fun fs h => ⟨h.ref, h.outstanding, fun x => ?_⟩
  · rw [h.ref]
    omega
  · change update fs.lock ip (some p) x = some p ↔ some ip = some x
    by_cases hx : x = ip
    · subst hx
      simp
    · have hfree : fs.lock x ≠ some p := fun hlk => nomatch (h.lock x).mp hlk
      rw [update_of_ne hx]
      exact iff_of_false hfree fun heq => hx (Option.some.inj heq).symm

theorem iunlockput_here (hip : 0 < ref ip) : Holds (Here P pr nm (Holding p ref n (some ip))) (iunlockput p ip)
    (fun _ => Here P pr nm (Holding p (minus ref ip) n none)) Never := by
  have hunlock : Holds (Here P pr nm (Holding p ref n (some ip))) (iunlock p ip)
      (fun _ => Here P pr nm (Holding p ref n none)) Never := by
    refine checked_here (fun fs h => ?_) fun fs h => ⟨h.ref, h.outstanding, fun x => ?_⟩
    · rintro (hlk | hlt)
      · exact hlk ((h.lock ip).mpr rfl)
      · rw [h.ref] at hlt
        omega
    · change update fs.lock ip none x = some p ↔ none = some x
      refine iff_of_false (fun hlk => ?_) (by simp)
      by_cases hx : x = ip
      · subst hx
        simp at hlk
      · rw [update_of_ne hx] at hlk
        exact hx (Option.some.inj ((h.lock x).mp hlk)).symm
  refine holds_bind hunlock fun _ => updFs_here fun fs h => ⟨?_, h.outstanding, h.lock⟩
  rw [← h.ref]
  rfl

/-- The references once `namei` has returned. -/
def found (ref : ℕ → ℕ) : Option ℕ → ℕ → ℕ
  | none => ref
  | some ip => plus ref ip

theorem namexFrom_here (files : Files) (fuel : ℕ) (path : List UInt8) (ip : ℕ) :
    Holds (Here P pr nm (Holding p (plus ref ip) n none)) (namexFrom files p fuel path ip)
      (fun r => Here P pr nm (Holding p (found ref r) n none)) Never := by
  induction fuel generalizing path ip with
  | zero => exact holds_pure fun _ h => h
  | succ fuel ih =>
    unfold namexFrom
    cases skipelem path with
    | none => exact holds_pure fun _ h => h
    | some e =>
      have hgone : Holds (Here P pr nm (Holding p (plus ref ip) n (some ip))) (do iunlockput p ip; pure none)
          (fun r => Here P pr nm (Holding p (found ref r) n none)) Never := by
        refine holds_bind (iunlockput_here (plus_pos ref ip)) fun _ => holds_pure fun st hst => ?_
        rwa [minus_plus] at hst
      refine holds_bind (ilock_here (plus_pos ref ip)) fun _ => holds_ite (fun _ => ?_) fun _ => hgone
      cases files.dirlookup ip e.2 with
      | none => exact hgone
      | some next =>
        refine holds_bind (iget_here next) fun _ => ?_
        rw [plus_comm]
        refine holds_bind (iunlockput_here (plus_pos _ ip)) fun _ => ?_
        rw [minus_plus]
        exact ih _ next

theorem namei_here (files : Files) (path : List UInt8) :
    Holds (Here P pr nm (Holding p ref n none)) (namei files p path)
      (fun r => Here P pr nm (Holding p (found ref r) n none)) Never :=
  holds_bind (iget_here _) fun _ => namexFrom_here files _ path _

end Fs

/-! ### The memory of `exec` -/

theorem updFs_machine (f : FsState → FsState) : Frames (fun _ => True) State.machine (updFs f) :=
  frames_modify fun _ _ => rfl

theorem ilock_machine (ip : ℕ) : Frames (fun _ => True) State.machine (ilock p ip) :=
  frames_seq (frames_gets _) fun _ => frames_ite (fun _ => frames_fail _) fun _ => updFs_machine _

theorem iunlockput_machine (ip : ℕ) : Frames (fun _ => True) State.machine (iunlockput p ip) :=
  frames_seq (frames_seq (frames_gets _) fun _ => frames_ite (fun _ => frames_fail _) fun _ => updFs_machine _)
    fun _ => updFs_machine _

theorem namexFrom_machine (files : Files) (fuel : ℕ) (path : List UInt8) (ip : ℕ) :
    Frames (fun _ => True) State.machine (namexFrom files p fuel path ip) := by
  induction fuel generalizing path ip with
  | zero => exact frames_pure _
  | succ fuel ih =>
    unfold namexFrom
    cases skipelem path with
    | none => exact frames_pure _
    | some e =>
      have hgone : Frames (fun _ => True) State.machine (do iunlockput p ip; pure none : ExecM (Option ℕ)) :=
        frames_seq (iunlockput_machine ip) fun _ => frames_pure _
      refine frames_seq (ilock_machine ip) fun _ => frames_ite (fun _ => ?_) fun _ => hgone
      cases files.dirlookup ip e.2 with
      | none => exact hgone
      | some next => exact frames_seq (updFs_machine _) fun _ => frames_seq (iunlockput_machine ip) fun _ => ih _ next

theorem lift_bind (x : VmM α) (k : α → VmM β) : lift (x >>= k) = lift x >>= fun a => lift (k a) := by
  funext m
  simp only [lift, zoom, bind_apply]
  cases x m.vm <;> rfl

theorem onMachine_machine (x : ProcM α) : Projects State.machine (onMachine x) x := by
  intro st r st' h
  unfold onMachine at h
  cases hx : x st.machine with
  | ok r' m =>
    rw [hx] at h
    cases h
    rfl
  | fault e m =>
    rw [hx] at h
    cases h

/-- Every call that returns is one of `Vm.exec`, for the file that `namei` found. -/
theorem exec_machine {files : Files} {path : List UInt8} {st st' : State} {r : Option ℕ}
    (h : exec files p path argv st = .ok r st') : ∃ file, Vm.exec p file argv st.machine = .ok r st'.machine := by
  obtain ⟨_, st₁, h₁, h⟩ := bind_eq_ok.mp h
  obtain ⟨o, st₂, h₂, h⟩ := bind_eq_ok.mp h
  have hnamei : Frames (fun _ => True) State.machine (namei files p path) :=
    frames_seq (updFs_machine _) fun _ => namexFrom_machine files _ _ _
  rw [← (updFs_machine _).ok trivial h₁, ← hnamei.ok trivial h₂]
  cases o with
  | none => exact ⟨none, projects_skip (updFs_machine _) (fun _ => projects_pure none) _ _ _ h⟩
  | some ip =>
    refine ⟨some (files.readi ip), projects_skip (ilock_machine ip) (fun _ => ?_) _ _ _ h⟩
    refine projects_bind (onMachine_machine _) fun q => ?_
    rw [loadImage, lift_bind, bind_assoc]
    refine projects_bind (onMachine_machine _) fun file => ?_
    refine projects_skip (iunlockput_machine ip) fun _ => projects_skip (updFs_machine _) fun _ => ?_
    obtain _ | ⟨entry, root, sz⟩ := file
    · exact projects_pure none
    refine projects_bind (onMachine_machine _) fun image => ?_
    cases image with
    | none => exact projects_pure none
    | some image =>
      refine projects_bind (onMachine_machine _) fun _ => ?_
      exact projects_skip (frames_modify fun _ _ => rfl) fun _ => onMachine_machine _
/-! ### exec -/

/-- What `exec` leaves of memory: everything as it was, or the process with a new image. -/
def Replaced (M : PageMap) (g : Pages) (p : Slot) (pr : Slot → Proc) (nm : Slot → List UInt8) (F : FsState → Prop) (y : ℕ)
    (v : PageData) : Option ℕ → State → Prop
  | none => Here (Watched (Inv True ∅ M (.slot p) g) y v) pr nm F
  | some _ => fun st => Kept True M g p pr st.machine ∧ F st.fs

theorem install_spec (hsp : Space True M g p (pr p)) (path : List UInt8) {image : Image} :
    Holds (Here (Loaded True M (.slot p) g (pr p).trapframe (some image)) pr nm F) (do
        onVm (setA1 (pr p) image)
        setName p path
        onMachine (commit p (pr p) image))
      (Replaced M g p pr nm F y v) Never := by
  refine here_mono (fun s => ∃ M' g', Built True M g p (pr p) image.pagetable image.sz M' g' ∧
    Inv True ∅ M' (.slot p) g' s) ?_ fun s ⟨hfresh, t, hout, hs⟩ => hs.built hfresh hout
  refine here_exists fun M' => here_exists fun g' => here_assume (fun s hs => hs.1) fun hbuilt => ?_
  refine here_mono (Inv True ∅ M' (.slot p) g') ?_ fun s hs => hs.2
  refine holds_bind (onVm_here (poke_built hbuilt hsp _)) fun _ => ?_
  refine holds_bind (Q := fun _ => Here (Inv True ∅ M' (.slot p) g') pr
    (update nm p (safestrcpy (nm p) (lastElem path) 16)) F) (holds_modify ?_) fun _ => ?_
  · rintro st ⟨hat, rfl, hF⟩
    exact ⟨hat, rfl, hF⟩
  refine holds_conseq (onMachine_here (commit_spec hbuilt hsp)) (fun _ h => h) ?_
  rintro _ st ⟨⟨rfl, hkept⟩, _, hF⟩
  exact ⟨hkept, hF⟩

theorem exec_spec (hsp : Space True M g p (pr p)) (hy : g y ≠ .free) (files : Files) (path : List UInt8) (argv : List ℕ)
    (ref : ℕ → ℕ) (n : ℕ) :
    Holds (Here (Watched (Inv True ∅ M (.slot p) g) y v) pr nm (Holding p ref n none)) (exec files p path argv)
      (Replaced M g p pr nm (Holding p ref n none) y v) Never := by
  refine holds_bind beginOp_here fun _ => holds_bind (namei_here files path) fun r => ?_
  cases r with
  | none => exact holds_bind endOp_here fun _ => holds_pure fun _ h => h
  | some ip =>
    refine holds_bind (ilock_here (plus_pos ref ip)) fun _ => getProc_here ?_
    refine here_assume (c := (pr p).trapframe < 2 ^ 52) (fun s hs => (hs.1.page_lt (by simp [hsp.trapframe])).2) fun htf => ?_
    refine holds_bind (onVm_watched (loadFile_spec htf (files.readi ip)) (loadFile_frames htf hy _)) fun file => ?_
    refine holds_bind (iunlockput_here (plus_pos ref ip)) fun _ => holds_bind endOp_here fun _ => ?_
    rw [found, minus_plus]
    obtain _ | ⟨entry, root, sz⟩ := file
    · exact holds_pure fun _ h => h
    · refine here_assume (fun s hs => hs.1.1) fun hfresh => here_mono (fun s => ∃ t, g t = .outside ∧
        Watched (Segments True M (.slot p) root (t, (pr p).trapframe) g sz) y v s) ?_
        fun s ⟨⟨_, t, hout, hs⟩, hv⟩ => ⟨t, hout, hs, hv⟩
      refine here_exists fun t => here_assume (fun s hs => hs.1) fun hout => here_mono _ ?_ fun s hs => hs.2
      refine holds_bind (onVm_watched (makeStack_spec hfresh hout argv entry sz)
        (makeStack_frames (hfresh.untied hy) argv entry sz)) fun image => ?_
      cases image with
      | none => exact holds_pure fun _ h => h
      | some image => exact here_mono _ (install_spec hsp path) fun s hs => hs.1

/-! ### sys_exec -/

theorem argPath_spec (hsp : Space True M g p (pr p)) :
    Keeps (Inv True ∅ M a g) (argPath (pr p)) (Faults True) :=
  holds_bind (keeps_gets _) fun _ => holds_bind (copyinstrFrom_spec hsp.root _ _ _) fun _ => keeps_pure _

theorem argPath_still {γ : Type} {f : Vm.State → γ} (q : Proc) : Frames P f (argPath q) :=
  frames_seq (frames_gets _) fun _ => frames_seq (copyinstrFrom_still _ _ _) fun _ => frames_pure _

theorem freeArgs_none (htaken : Taken (.slot p) g argv g') (hy : g y ≠ .free) :
    Holds (Here (Watched (Inv True ∅ M (.slot p) g') y v) pr nm F) (onVm (freeArgs argv))
      (fun _ => Here (Watched (Inv True ∅ M (.slot p) g) y v) pr nm F) Never := by
  refine holds_conseq (onVm_watched (freeArgs_spec argv htaken.nodup htaken.held) (freeArgs_frames fun hin => ?_))
    (fun _ h => h) ?_
  · exact hy (htaken.free y hin)
  · rintro _ st ⟨⟨⟨⟨g'', hinv, hfree, hother⟩, hv⟩, hpr⟩, hrest⟩
    rw [htaken.restore hfree hother] at hinv
    exact ⟨⟨⟨hinv, hv⟩, hpr⟩, hrest⟩

theorem freeArgs_some (htaken : Taken (.slot p) g argv g') :
    Holds (fun st => Kept True M g' p pr st.machine ∧ F st.fs) (onVm (freeArgs argv)) (fun _ st => F st.fs) Never := by
  rintro st ⟨⟨M₂, g₂, pt, sz, hinv, hsteady, hpr, _⟩, hF⟩
  have hspec := freeArgs_spec (C := True) (M := M₂) (a := .slot p) (g := g₂) argv htaken.nodup
    fun x hx => hsteady.held x _ (htaken.held x hx)
  exact holds_conseq (@onVm_here _ _ st.name F _ _ _ hspec) (fun _ h => h) (fun _ _ h => h.2.2) st
    ⟨⟨hinv, hpr⟩, rfl, hF⟩

theorem sysExec_spec (hsp : Space True M g p (pr p)) (hy : g y ≠ .free) (files : Files) (ref : ℕ → ℕ) (n : ℕ) :
    Holds (Here (Watched (Inv True ∅ M a g) y v) pr nm (Holding p ref n none)) (sysExec files p)
      (fun r st => Holding p ref n none st.fs ∧
        (r = none → Here (Watched (Inv True ∅ M (.slot p) g) y v) pr nm (Holding p ref n none) st)) Never := by
  refine getProc_here (holds_bind (onVm_watched (setActor_spec (.slot p)) (frames_modify fun _ _ => rfl)) fun _ => ?_)
  refine holds_bind (onVm_watched (argPath_spec hsp) (argPath_still _)) fun r => ?_
  cases r with
  | none => exact holds_pure fun st hst => ⟨hst.2.2, fun _ => hst⟩
  | some path =>
    refine holds_bind (onVm_watched (keeps_gets _) (frames_gets _)) fun uargv => ?_
    refine holds_bind (onVm_watched (fetchArgs_spec uargv MAXARG 0 hsp.root) (fetchArgs_frames hsp.root hy _ _ _)) fun args => ?_
    refine here_mono (fun s => ∃ g', Taken (.slot p) g args.1 g' ∧ Watched (Inv True ∅ M (.slot p) g') y v s) ?_
      fun s ⟨⟨g', hinv, htaken⟩, hv⟩ => ⟨g', htaken, hinv, hv⟩
    refine here_exists fun g' => here_assume (fun s hs => hs.1) fun htaken => here_mono _ ?_ fun s hs => hs.2
    have hy' : g' y ≠ .free := by
      rwa [htaken.other y fun hin => hy (htaken.free y hin)]
    have hexec : Holds (Here (Watched (Inv True ∅ M (.slot p) g') y v) pr nm (Holding p ref n none))
        (execArgs files p path args) (Replaced M g' p pr nm (Holding p ref n none) y v) Never :=
      holds_ite (fun _ => exec_spec (hsp.taken htaken) hy' files path args.1 ref n) fun _ => holds_pure fun _ h => h
    refine holds_bind hexec fun ret => ?_
    cases ret with
    | none => exact holds_bind (freeArgs_none htaken hy) fun _ => holds_pure fun st hst => ⟨hst.2.2, fun _ => hst⟩
    | some argc => exact holds_bind (freeArgs_some htaken) fun _ => holds_pure fun st hst => ⟨hst, fun h => nomatch h⟩

/-! ### What has not changed -/

theorem unchanged_of {a' : Owner} {st st' : State} (hinv : Inv True ∅ M a g st.machine.vm)
    (hsp : Space True M g p (st.machine.proc p)) (hinv' : Inv True ∅ M a' g st'.machine.vm)
    (hproc : st'.machine.proc = st.machine.proc) (hname : st'.name = st.name)
    (hmem : ∀ x, g x ≠ .free → st'.machine.vm.mem x = st.machine.vm.mem x) : Unchanged p st st' where
  proc := hproc
  name := hname
  mapping va _ := hinv.leaf_keep hsp.root (fun y n hy => hmem y (by simp [hy])) va
  memory va page hva hpage := by
    refine hmem page ?_
    rcases @Space.page_status _ _ _ _ st.machine.proc _ _ hsp hinv hva _ hpage with ⟨_, hg⟩ | ⟨_, hg⟩ | ⟨_, hg⟩ <;> rw [hg] <;> simp
  trapframe := hmem _ (by rw [hsp.trapframe]; simp)
  free page := (hinv'.free_iff page).trans (hinv.free_iff page).symm

theorem Tidy.trapped {m : Machine} (h : Tidy True m) (hp : (m.proc p).pagetable ≠ 0) (registers : PageData) (oom : List Bool) :
    ∃ M g a, Inv True ∅ M a g (trapped m p registers oom).vm ∧ Space True M g p (m.proc p) := by
  obtain ⟨M, g, ⟨a, hinv⟩, hall⟩ := h
  have hsp := hall.space hp
  refine ⟨M, g, a, ((hinv.restart oom).setPage ?_ registers), hsp⟩
  rw [hsp.trapframe]
  simp [Status.Plain]

/-- In every state that a run of the kernel reaches: whatever the registers, the files and the user's memory are and whichever
`kalloc` fails, `sys_exec` returns, with the inode and the transaction released; and if it returns -1 then nothing has
changed. -/
theorem sysExec_atomic {l : Layout} {mem : ℕ → PageData} {es : List (KernelOp × List Bool)} {k : SpaceRun}
    (hrun : SpaceRun.kernelRun l mem es = some k) (p : Slot) (hp : (k.machine.proc p).pagetable ≠ 0) (files : Files)
    (registers : PageData) (oom : List Bool) (st : State) (hst : st.machine = trapped k.machine p registers oom)
    (hlock : ∀ ip, st.fs.lock ip ≠ some p) :
    ∃ r st', sysExec files p st = .ok r st' ∧ Released p st.fs st'.fs ∧ (r = none → Unchanged p st st') := by
  obtain ⟨M, g, a, hinv, hsp⟩ := Tidy.trapped (tidy_kernelRun hrun).2 hp registers oom
  have hproc : st.machine.proc = k.machine.proc := by
    rw [hst]
    rfl
  rw [← hst] at hinv
  rw [← hproc] at hsp
  have hspec (y : ℕ) (hy : g y ≠ .free) := @sysExec_spec _ _ _ _ st.name _ (st.machine.vm.mem y) a hsp hy files
    st.fs.ref st.fs.outstanding st ⟨⟨⟨hinv, rfl⟩, rfl⟩, rfl, rfl, rfl, fun ip => iff_of_false (hlock ip) (by simp)⟩
  have hroot := hspec (st.machine.proc p).pagetable (by rw [hsp.root]; simp)
  cases hr : sysExec files p st with
  | fault e st' =>
    rw [hr] at hroot
    exact hroot.elim
  | ok r st' =>
    rw [hr] at hroot
    refine ⟨r, st', rfl, ⟨hroot.1.ref, hroot.1.outstanding, fun ip => ?_⟩, fun hnone => ?_⟩
    · exact fun hlk => nomatch (hroot.1.lock ip).mp hlk
    · obtain ⟨⟨⟨hinv', _⟩, hproc⟩, hname, _⟩ := hroot.2 hnone
      refine unchanged_of hinv hsp hinv' hproc hname fun y hy => ?_
      have hspecy := hspec y hy
      rw [hr] at hspecy
      exact (hspecy.2 hnone).1.1.2

/-- A file with two program headers. The second one asks for less memory than it has bytes in the file. -/
def badElf : List UInt8 :=
  [0x7f, 0x45, 0x4c, 0x46] ++ List.replicate 28 0 ++ [64] ++ List.replicate 23 0 ++ [2] ++ List.replicate 7 0 ++
    [1, 0, 0, 0, 7] ++ List.replicate 27 0 ++ [4] ++ List.replicate 7 0 ++ [8] ++ List.replicate 15 0 ++
    [1] ++ List.replicate 31 0 ++ [4] ++ List.replicate 23 0

/-- It is the file `x` of the root directory. -/
def oneFile : Files :=
  ⟨fun _ => ROOTINO, fun ip => ip = ROOTINO, fun _ name => if name = [120] then some 2 else none,
    fun _ off n => (badElf.drop off).take n⟩

/-- A process of 16 bytes: the path `x`, and at 8 an empty `argv`. -/
def named : List (KernelOp × List Bool) :=
  [(.space (.create 0), []), (.space (.grow 0 16), []), (.space (.store 0 0 120), [])]

/-- Its call of `exec(0, 8)`. -/
def calling (k : SpaceRun) : State :=
  ⟨trapped k.machine 0 (fun j => if j = 15 then 8 else 0) [], fun _ => [], ⟨fun _ => 1, fun _ => none, 0⟩⟩

/-- The call fails when the first segment is loaded, and six pages are freed. -/
theorem sysExec_atomic_badElf : ∃ k st', SpaceRun.kernelRun smallKernel (fun _ _ => 0) named = some k ∧
    sysExec oneFile 0 (calling k) = .ok none st' ∧ st'.machine.vm.trace.length = 6 ∧
    Released 0 (calling k).fs st'.fs ∧ Unchanged 0 (calling k) st' := by
  have hrun : (SpaceRun.kernelRun smallKernel (fun _ _ => 0) named).map (fun k => (decide ((k.machine.proc 0).pagetable ≠ 0),
      match sysExec oneFile 0 (calling k) with
      | .ok r st => some (r, st.machine.vm.trace.length)
      | .fault _ _ => none)) = some (true, some (none, 6)) := by
    rw [SpaceRun.kernelRun, boot_eq]
    decide +kernel
  obtain ⟨k, hk, hmap⟩ := Option.map_eq_some_iff.mp hrun
  obtain ⟨hne, hcall⟩ := Prod.mk.inj hmap
  obtain ⟨r, st', hok, hreleased, hunchanged⟩ := sysExec_atomic hk 0 (of_decide_eq_true hne) oneFile _ [] (calling k) rfl
    fun _ => by simp [calling]
  simp only [hok, Option.some.injEq, Prod.mk.injEq] at hcall
  obtain ⟨rfl, hfreed⟩ := hcall
  exact ⟨k, st', hk, hok, hfreed, hreleased, hunchanged rfl⟩

end Xv6.Vm.Exec
