import Xv6.Sanity.Slots

/-! What the calls of `VmProc` do to the pages of the slots: one specification for each
function of `proc.c` and `exec.c`. -/

namespace Xv6.Vm

open Prog Radix Function

variable {C : Prop} {M M' M'' : PageMap} {a : Owner} {g g' g'' : Pages} {p q : Slot} {pr : Slot → Proc} {m : Machine}

section Rules

variable {α β : Type} {P : State → Prop} {R : β → Machine → Prop} {E : Panic → Machine → Prop} {v : Proc}

theorem updProc_set (f : Proc → Proc) :
    Holds (At P (update pr p v)) (updProc p f) (fun _ => At P (update pr p (f v))) E := by
  refine holds_conseq (updProc_at f) (fun _ h => h) fun _ m hm => ?_
  rwa [update_self, update_idem] at hm

variable {f : Proc → ProcM β}

theorem getProc_set (h : Holds (At P (update pr p v)) (f v) R E) :
    Holds (At P (update pr p v)) (getProc p >>= f) R E :=
  getProc_at (by rwa [update_self])

theorem getProc_other (hqp : q ≠ p) (h : Holds (At P (update pr p v)) (f (pr q)) R E) :
    Holds (At P (update pr p v)) (getProc q >>= f) R E :=
  getProc_at (by rwa [update_of_ne hqp])

end Rules

/-! ### growproc and exec -/

/-- The slot has the same pages in hand and a page table with user memory of some size. -/
def Kept (C : Prop) (M : PageMap) (g : Pages) (p : Slot) (pr : Slot → Proc) (m : Machine) : Prop :=
  ∃ M' g' pt sz, Inv C ∅ M' (.slot p) g' m.vm ∧ Steady (.slot p) M g M' g' ∧
    m.proc = update pr p { pr p with pagetable := pt, sz := sz } ∧
    Space C M' g' p { pr p with pagetable := pt, sz := sz }

theorem Kept.same (hsp : Space C M g p (pr p)) (h : At (Inv C ∅ M (.slot p) g) pr m) : Kept C M g p pr m :=
  ⟨M, g, (pr p).pagetable, (pr p).sz, h.1, Steady.refl _ M g, by rw [h.2]; exact (update_eq_self p pr).symm, hsp⟩

variable {k : ℕ × ℕ} {sz xperm t : ℕ} {v : Proc}

theorem Space.laid (h : Space C M g p (pr p)) (hpins : Pins M (pr p).pagetable k) :
    Laid C M M (pr p).pagetable k (pr p).sz :=
  ⟨fun _ _ => rfl, hpins, h.exact_, h.sz⟩

theorem Laid.cut {root sz' : ℕ} (h : Laid C M M' root k sz) (hle : sz' ≤ sz) :
    Laid C M (M'.cut root (pageCount sz') (pageCount sz)) root k sz' where
  other r hr := by
    rw [← h.other r hr]
    funext pos
    exact PageMap.cut_other fun hin => hr hin.1
  pins := h.pins.cut (by rw [← PGROUNDUP_eq h.sz]; exact (PGROUNDUP_le h.sz).2.1)
  exact_ hc := (h.exact_ hc).cut (pageCount_mono hle h.sz)
  sz := le_trans hle h.sz

/-- The user memory of the process has been brought to the size `sz`. -/
def Resized (C : Prop) (M : PageMap) (g : Pages) (p : Slot) (q : Proc) (sz : ℕ) (s : State) : Prop :=
  ∃ t M', g t = .outside ∧ Laid C M M' q.pagetable (t, q.trapframe) sz ∧ Now C M' (.slot p) q.pagetable g s

section

variable (hsp : Space C M g p (pr p))

include hsp

theorem uvmalloc_resized (hxperm : xperm < 2 ^ 10) (newsz : ℕ) :
    Holds (Inv C ∅ M (.slot p) g) (uvmalloc (pr p).pagetable (pr p).sz newsz xperm)
      (fun r => Resized C M g p (pr p) (if r = 0 then (pr p).sz else r)) (Faults C) := by
  obtain ⟨t, hout, hpins⟩ := hsp.pins
  refine holds_conseq (uvmalloc_spec hpins hxperm hsp.sz hsp.exact_) (fun s hs => hs.now hsp.root) ?_
  rintro r s (⟨h0, hnow⟩ | ⟨hmax, htop, M', hext, hnow⟩)
  · rw [if_pos h0]
    exact ⟨t, M, hout, hsp.laid hpins, hnow⟩
  · have hr : (if r = 0 then (pr p).sz else r) = r := by
      split_ifs <;> omega
    rw [hr]
    exact ⟨t, M', hout, (hsp.laid hpins).grow hext (by omega) htop, hnow⟩

theorem uvmdealloc_resized (newsz : ℕ) :
    Holds (Inv C ∅ M (.slot p) g) (uvmdealloc (pr p).pagetable (pr p).sz newsz)
      (fun r => Resized C M g p (pr p) r) (Faults C) := by
  obtain ⟨t, hout, hpins⟩ := hsp.pins
  refine holds_conseq (uvmdealloc_spec hsp.sz hsp.exact_) (fun s hs => hs.now hsp.root) ?_
  rintro r s ⟨hmin, hnow⟩
  exact ⟨t, _, hout, (hsp.laid hpins).cut (by omega), hnow⟩

theorem Kept.resized (h : Resized C M g p (pr p) sz m.vm)
    (hpr : m.proc = update pr p { pr p with sz := sz }) : Kept C M g p pr m := by
  obtain ⟨t, M', hout, hlaid, g', hinv, hwithin, hroot⟩ := h
  have hsteady : Steady (.slot p) M g M' g' := hwithin.steady (.inr ⟨_, hsp.root, rfl⟩) hlaid.other
  exact ⟨M', g', (pr p).pagetable, sz, hinv, hsteady, hpr,
    ⟨hroot, ⟨t, hsteady.outside hout, hlaid.pins⟩, hlaid.exact_, hlaid.sz, hsteady.held _ _ hsp.trapframe⟩⟩

/-- `uvmalloc` for a process, whose size is changed only if it succeeds. -/
theorem allocSize_spec (hxperm : xperm < 2 ^ 10) (newsz : ℕ) :
    Holds (At (Inv C ∅ M (.slot p) g) pr) (do
        let sz ← lift (uvmalloc (pr p).pagetable (pr p).sz newsz xperm)
        if sz = 0 then pure false
        else do
          updProc p fun q => { q with sz := sz }
          pure true)
      (fun _ => Kept C M g p pr) (Stops C) := by
  refine holds_bind (lift_at (uvmalloc_resized hsp hxperm newsz)) fun sz => ?_
  refine holds_ite (fun h0 => ?_) fun h0 => ?_
  · rw [if_pos h0]
    refine holds_pure fun m hm => Kept.resized hsp hm.1 ?_
    rw [hm.2]
    exact (update_eq_self p pr).symm
  · rw [if_neg h0]
    exact holds_bind (updProc_at _) fun _ => holds_pure fun m hm => Kept.resized hsp hm.1 hm.2

theorem deallocSize_spec (newsz : ℕ) :
    Holds (At (Inv C ∅ M (.slot p) g) pr) (do
        let sz ← lift (uvmdealloc (pr p).pagetable (pr p).sz newsz)
        updProc p fun q => { q with sz := sz }
        pure true)
      (fun _ => Kept C M g p pr) (Stops C) := by
  refine holds_bind (lift_at (uvmdealloc_resized hsp newsz)) fun sz => ?_
  exact holds_bind (updProc_at _) fun _ => holds_pure fun m hm => Kept.resized hsp hm.1 hm.2

theorem growproc_spec (n : ℤ) :
    Holds (At (Inv C ∅ M a g) pr) (growproc p n) (fun _ => Kept C M g p pr) (Stops C) := by
  refine getProc_at (holds_bind (lift_at (setActor_spec (.slot p))) fun _ => ?_)
  refine holds_ite (fun _ => allocSize_spec hsp (by decide) _) fun _ => ?_
  exact holds_ite (fun _ => deallocSize_spec hsp _) fun _ => holds_pure fun m hm => Kept.same hsp hm

end

/-- A new page table with an image in it stands next to the one of the process. -/
structure Built (C : Prop) (M : PageMap) (g : Pages) (p : Slot) (q : Proc) (new sz : ℕ) (M' : PageMap) (g' : Pages) :
    Prop where
  fresh : Fresh M (.slot p) new g
  laid : ∃ t, g t = .outside ∧ Laid C M M' new (t, q.trapframe) sz
  within : Within (.slot p) new g g'
  root : g' new = .node (.slot p) (.table new 2 0)

theorem Image.Ready.built {q : Proc} {new : ℕ} {s : State} (hfresh : Fresh M (.slot p) new g) (hout : g t = .outside)
    (h : Image.Ready C M (.slot p) g new (t, q.trapframe) sz s) :
    ∃ M' g', Built C M g p q new sz M' g' ∧ Inv C ∅ M' (.slot p) g' s :=
  let ⟨M', hlaid, g', hinv, hwithin, hroot⟩ := h
  ⟨M', g', ⟨hfresh, ⟨t, hout, hlaid⟩, hwithin, hroot⟩, hinv⟩

section Built

variable {new sz : ℕ}

section

variable (h : Built C M g p (pr p) new sz M' g')

include h

theorem Built.steady : Steady (.slot p) M g M' g' :=
  let ⟨_, _, hlaid⟩ := h.laid
  h.within.steady (.inl h.fresh.1) hlaid.other

theorem Built.ne (hsp : Space C M g p (pr p)) : (pr p).pagetable ≠ new := by
  intro heq
  have hroot := hsp.root
  rw [heq, h.fresh.1] at hroot
  cases hroot

theorem poke_built (hsp : Space C M g p (pr p)) (f : PageData → PageData) :
    Keeps (Inv C ∅ M' (.slot p) g') (poke (pr p).trapframe f) (Faults C) :=
  poke_spec (by rw [h.steady.held _ _ hsp.trapframe]; simp [Status.Plain]) f

/-- The old page table is freed, and the process is left with the new one. -/
theorem dropOld_spec (hsp : Space C M g p (pr p)) :
    Holds (At (Inv C ∅ M' (.slot p) g') (update pr p { pr p with pagetable := new, sz := sz }))
      (lift (procFreepagetable (pr p).pagetable (pr p).sz)) (fun _ => Kept C M g p pr) (Stops C) := by
  have hne := h.ne hsp
  have hsteady := h.steady
  obtain ⟨t, hout, hlaid⟩ := h.laid
  obtain ⟨_, _, hpins⟩ := hsp.pins
  set pt := (pr p).pagetable
  have hold : g' pt = .node (.slot p) (.table pt 2 0) := h.within.root_keep hsp.root hne
  have hmap : M' pt = M pt := hlaid.other pt hne
  have hfree := @procFreepagetable_spec C M' (.slot p) g' _ pt _ hsp.sz fun hc =>
    ⟨fun pos hpos => by rw [hmap]; exact hsp.exact_ hc pos hpos, hpins.congr fun _ _ => by rw [hmap]⟩
  refine holds_conseq (lift_at (holds_conseq hfree (fun s hs => hs.now hold) fun _ _ h => h)) (fun _ h => h) ?_
  rintro _ m ⟨⟨g₂, hinv, hwithin₂, hgone⟩, hpr⟩
  have hsteady₂ : Steady (.slot p) M' g' (M'.clear pt) g₂ :=
    hwithin₂.steady (.inr ⟨_, hold, rfl⟩) fun r hr => PageMap.clear_other hr
  have hnew : M'.clear pt new = M' new := PageMap.clear_other hne.symm
  refine ⟨M'.clear pt, g₂, new, sz, hinv, hsteady.trans hsteady₂, hpr, hwithin₂.root_keep h.root hne.symm,
    ⟨t, (hsteady.trans hsteady₂).outside hout, hlaid.pins.congr fun pos _ => congrFun hnew pos⟩, ?_, hlaid.sz,
    hsteady₂.held _ _ (hsteady.held _ _ hsp.trapframe)⟩
  intro hc pos hpos
  rw [show (M'.clear pt) new pos = M' new pos from congrFun hnew pos]
  exact hlaid.exact_ hc pos hpos

end

end Built

theorem commit_spec {image : Image} (h : Built C M g p (pr p) image.pagetable image.sz M' g')
    (hsp : Space C M g p (pr p)) :
    Holds (At (Inv C ∅ M' (.slot p) g') pr) (commit p (pr p) image)
      (fun r m => r = some image.argc ∧ Kept C M g p pr m) (Stops C) := by
  refine holds_bind (updProc_at _) fun _ => holds_bind (lift_at (poke_built h hsp _)) fun _ => ?_
  refine holds_bind (lift_at (poke_built h hsp _)) fun _ => ?_
  exact holds_bind (dropOld_spec h hsp) fun _ => holds_pure fun _ h => ⟨rfl, h⟩

theorem exec_spec (hsp : Space C M g p (pr p)) (file : Option Readi) (argv : List ℕ) :
    Holds (At (Inv C ∅ M (.slot p) g) pr) (exec p file argv) (fun _ => Kept C M g p pr) (Stops C) := by
  cases file with
  | none => exact holds_pure fun m hm => Kept.same hsp hm
  | some readi =>
    refine getProc_at (at_assume (c := (pr p).trapframe < 2 ^ 52)
      (fun s hs => (hs.page_lt (by simp [hsp.trapframe])).2) fun htf => ?_)
    refine holds_bind (lift_at (loadImage_spec htf readi argv)) fun r => ?_
    cases r with
    | none => exact holds_pure fun m hm => Kept.same hsp hm
    | some image =>
      refine holds_at (fun s => ∃ M' g', Built C M g p (pr p) image.pagetable image.sz M' g' ∧ Inv C ∅ M' (.slot p) g' s) ?_
        fun s ⟨hfresh, t, hout, hready⟩ => hready.built hfresh hout
      refine at_exists fun M' => at_exists fun g' => at_assume (fun s hs => hs.1) fun hbuilt => ?_
      refine holds_bind (lift_at (holds_conseq (poke_built hbuilt hsp _) (fun s hs => hs.2) fun _ _ h => h)) fun _ => ?_
      exact holds_conseq (commit_spec hbuilt hsp) (fun _ h => h) fun _ _ h => h.2

/-! ### freeproc -/

/-- A slot after `freeproc`. -/
def freed (q : Proc) : Proc :=
  { q with trapframe := 0, pagetable := 0, sz := 0, parent := none, xstate := 0, state := .unused }

/-- The slot is free; of its pages the trapframe is still held. -/
def Freed (C : Prop) (M : PageMap) (g : Pages) (p : Slot) (pr : Slot → Proc) (m : Machine) : Prop :=
  ∃ M' g', Inv C ∅ M' (.slot p) g' m.vm ∧ Moves (.slot p) M g M' g' ∧ m.proc = update pr p (freed (pr p)) ∧
    Unused g' p (freed (pr p)) ∧ g' (pr p).trapframe = .held (.slot p)

theorem freeproc_spec (hsp : Space C M g p (pr p)) (hcopy : Copied g p (pr p)) :
    Holds (At (Inv C ∅ M a g) pr) (freeproc p) (fun _ => Freed C M g p pr) (Stops C) := by
  obtain ⟨hheld, hne⟩ := hcopy
  obtain ⟨_, _, hpins⟩ := hsp.pins
  set copy := (pr p).trapframeCopy
  set pt := (pr p).pagetable
  have hroot : update g copy .free pt = .node (.slot p) (.table pt 2 0) := by
    rw [update_of_ne, hsp.root]
    intro heq
    have := hsp.root
    rw [show (pr p).pagetable = copy from heq, hheld] at this
    cases this
  refine getProc_at (holds_bind (lift_at (setActor_spec (.slot p))) fun _ => ?_)
  refine at_assume (c := copy ≠ 0 ∧ pt ≠ 0) (fun s hs => ⟨((hs.page_lt (by rw [hheld]; simp)).1).ne',
    ((hs.page_lt (by rw [hsp.root]; simp)).1).ne'⟩) fun ⟨hcopy0, hpt0⟩ => ?_
  have hfirst : Holds (Inv C ∅ M (.slot p) g) (kfreeNonnull copy)
      (fun _ => Inv C ∅ M (.slot p) (update g copy .free)) (Faults C) := by
    rw [kfreeNonnull, if_pos hcopy0]
    exact kfree_held hheld
  have hsecond : Holds (Inv C ∅ M (.slot p) (update g copy .free)) (freePagetable pt (pr p).sz)
      (fun _ => Gone C (M.clear pt) (.slot p) pt (update g copy .free)) (Faults C) := by
    rw [freePagetable, if_pos hpt0]
    exact holds_conseq (procFreepagetable_spec hsp.sz fun hc => ⟨hsp.exact_ hc, hpins⟩) (fun s hs => hs.now hroot)
      fun _ _ h => h
  refine holds_bind (lift_at hfirst) fun _ => holds_bind (updProc_at _) fun _ => holds_bind (lift_at hsecond) fun _ => ?_
  refine holds_conseq (updProc_set _) (fun _ h => h) ?_
  rintro _ m ⟨⟨g', hinv, hwithin, hgone⟩, hpr⟩
  have hsteady : Steady (.slot p) M (update g copy .free) (M.clear pt) g' :=
    hwithin.steady (.inr ⟨_, hroot, rfl⟩) fun r hr => PageMap.clear_other hr
  have htf : g' (pr p).trapframe = .held (.slot p) := by
    refine hsteady.held _ _ ?_
    rw [update_of_ne (Ne.symm hne), hsp.trapframe]
  have hfree : g' copy = .free := by
    rcases hwithin copy with heq | ⟨_, htied⟩
    · rw [heq, update_self]
    · exact hgone copy htied
  refine ⟨_, g', hinv, (Moves.of_update (.inr (by rw [hheld]; rfl)) (.inl rfl)).trans hsteady.toMoves, hpr,
    ⟨rfl, rfl, fun _ => ?_, ?_⟩, htf⟩
  · rw [show (freed (pr p)).trapframeCopy = copy from rfl, hfree]
    simp
  · rw [show (freed (pr p)).trapframeCopy = copy from rfl, hfree]
    simp [Status.holder]

/-- `freeproc` of a slot without a page table. -/
theorem freeproc_bare {P : State → Prop} {Q : Unit → State → Prop} (hpt : (pr p).pagetable = 0)
    (h : Holds P (setActor (.slot p) >>= fun _ => kfreeNonnull (pr p).trapframeCopy) Q (Faults C)) :
    Holds (At P pr) (freeproc p) (fun _ => At (Q ()) (update pr p (freed (pr p)))) (Stops C) := by
  have hlift := @lift_at C pr _ _ _ _ h
  intro m hm
  have hout := hlift m hm
  have heq : freeproc p m = (lift (setActor (.slot p) >>= fun _ => kfreeNonnull (pr p).trapframeCopy) >>= fun _ =>
      updProc p freed) m := by
    obtain ⟨_, hpr⟩ := hm
    subst hpr
    simp only [freeproc, getProc, lift, zoom, bind_apply, gets_apply, updProc, modify_apply, freePagetable, hpt]
    cases hs : setActor (.slot p) m.vm with
    | fault e t => rfl
    | ok u t =>
      dsimp only
      cases hk : kfreeNonnull (m.proc p).trapframeCopy t with
      | fault e t' => rfl
      | ok u' t' => simp [freed]
  rw [heq, bind_apply]
  cases hx : lift (setActor (.slot p) >>= fun _ => kfreeNonnull (pr p).trapframeCopy) m with
  | fault e t =>
    rwa [hx] at hout
  | ok u t =>
    rw [hx] at hout
    obtain ⟨hq, hpr⟩ := hout
    refine ⟨hq, ?_⟩
    change update t.proc p (freed (t.proc p)) = _
    rw [hpr]

/-! ### allocproc -/

/-- Memory is in the state `g`, and the slots have their pages. -/
def SoundAt (C : Prop) (M : PageMap) (g : Pages) (m : Machine) : Prop := (∃ a, Inv C ∅ M a g m.vm) ∧ Slots C M g m.proc

def Sound (C : Prop) (m : Machine) : Prop := ∃ M g, SoundAt C M g m

theorem SoundAt.of_slot (hall : Slots C M g pr) (hinv : Inv C ∅ M' a g' m.vm)
    (hmoves : Moves (.slot p) M g M' g') (hpr : m.proc = update pr p v) (hslot : SlotOk C M' g' p v) :
    SoundAt C M' g' m :=
  ⟨⟨a, hinv⟩, by rw [hpr]; exact hall.move hmoves hslot⟩

/-- How a failed allocation ends. -/
def Refused (C : Prop) (M : PageMap) (g : Pages) (p : Slot) (pr : Slot → Proc) (m : Machine) : Prop :=
  ∃ v, m.proc = update pr p v ∧ v.state ≠ .runnable ∧ (Broken m.vm.trace ∨
    ∃ M' g', Inv C ∅ M' (.slot p) g' m.vm ∧ Moves (.slot p) M g M' g' ∧ SlotOk C M' g' p v)

theorem record_spec {e : Event} (he : e.Good) : Keeps (Inv C ∅ M a g) (record e) (Faults C) := by
  refine keeps_modify fun s hs => { hs with good := ?_ }
  intro e' he'
  rcases List.mem_append.mp he' with h | h
  · exact hs.good e' h
  · rwa [List.mem_singleton.mp h]

/-- The slot is given up. Its old `trapframe_copy` page is freed again, which is harmless
only if there is none or it has just been handed out as the trapframe. -/
theorem giveUp_spec (hpt : v.pagetable = 0) (hout : v.trapframeCopy ≠ 0 → g v.trapframeCopy ≠ .outside)
    (hown : v.trapframeCopy = v.trapframe → v.trapframeCopy ≠ 0 → g v.trapframeCopy = .held (.slot p))
    (hother : v.trapframeCopy ≠ v.trapframe → (g v.trapframeCopy).holder ≠ some (.slot p)) :
    Holds (At (Inv C ∅ M (.slot p) g) (update pr p v)) (giveUp p) (fun _ => Refused C M g p pr) (Stops C) := by
  set copy := v.trapframeCopy
  have hcur : (update pr p v) p = v := update_self _ _ _
  refine getProc_set ?_
  by_cases hgood : copy = 0 ∨ copy = v.trapframe
  · -- the page is the trapframe of the slot, or there is none
    refine holds_bind (lift_at (record_spec hgood)) fun _ => ?_
    have hkfree : Holds (Inv C ∅ M (.slot p) g) (kfreeNonnull copy) (fun _ s => ∃ g', Inv C ∅ M (.slot p) g' s ∧
        Moves (.slot p) M g M g' ∧ (g' copy).holder ≠ some (.slot p) ∧ (copy ≠ 0 → g' copy ≠ .outside)) (Faults C) := by
      refine holds_ite (fun h0 => ?_) fun h0 => holds_pure fun s hs => ⟨g, hs, Moves.refl _ M g, ?_, fun h => absurd h h0⟩
      · have hheld := hown (hgood.resolve_left h0) h0
        refine holds_conseq (kfree_held hheld) (fun _ h => h) fun _ s hs => ⟨_, hs, ?_, by simp [Status.holder], by simp⟩
        exact Moves.of_update (.inr (by rw [hheld]; rfl)) (.inl rfl)
      · have hz : copy = 0 := not_not.mp h0
        intro hh
        have hne : g copy ≠ .outside := by
          intro ho
          rw [ho] at hh
          cases hh
        exact absurd (hs.page_lt hne).1 (by omega)
    have hfree := @freeproc_bare C p (update pr p v) (Inv C ∅ M (.slot p) g) _
      (by rw [hcur]; exact hpt) (by rw [hcur]; exact holds_bind (setActor_spec (.slot p)) fun _ => hkfree)
    refine holds_conseq hfree (fun _ h => h) ?_
    rintro _ m ⟨⟨g', hinv, hmoves, hhold, hin⟩, hpr⟩
    rw [hcur, update_idem] at hpr
    exact ⟨freed v, hpr, by simp [freed], .inr ⟨M, g', hinv, hmoves, .inl ⟨rfl, rfl, rfl, hin, hhold⟩⟩⟩
  · -- a page of an earlier life is freed, whoever has it now
    obtain ⟨h0, hne⟩ := not_or.mp hgood
    have hrecord : Holds (Inv C ∅ M (.slot p) g) (record (.gaveUp p v.trapframe copy))
        (fun _ s => s.layout.Contains copy ∧ s.holder copy ≠ some (.slot p) ∧
          .gaveUp p v.trapframe copy ∈ s.trace) (Faults C) := by
      refine holds_modify fun s hs => ⟨hs.contains (hout h0), ?_, List.mem_append_right _ (List.mem_singleton.mpr rfl)⟩
      rw [hs.holder]
      exact hother hne
    refine holds_bind (lift_at hrecord) fun _ => ?_
    have hbad : Holds (fun s => s.layout.Contains copy ∧ s.holder copy ≠ some (.slot p) ∧
        .gaveUp p v.trapframe copy ∈ s.trace) (setActor (.slot p) >>= fun _ => kfreeNonnull copy)
        (fun _ s => Broken s.trace) (Faults C) := by
      rintro s ⟨hc, hhold, hmem⟩
      rw [bind_apply]
      simp only [setActor, modify_apply, kfreeNonnull, if_pos h0]
      rw [kfree_apply, if_pos hc]
      exact ⟨⟨p, v.trapframe, copy, List.mem_append_left _ hmem, hgood⟩, .slot p, copy, s.holder copy,
        List.mem_append_right _ (List.mem_singleton.mpr rfl), hhold⟩
    have hfree := @freeproc_bare C p (update pr p v) _ _ (by rw [hcur]; exact hpt)
      (by rw [hcur]; exact hbad)
    refine holds_conseq hfree (fun _ h => h) fun _ m hm => ⟨freed v, ?_, by simp [freed], .inl hm.1⟩
    rw [hm.2, hcur, update_idem]

/-- What `allocproc` leaves. -/
def Allocated (C : Prop) (M : PageMap) (g : Pages) (p : Slot) (pr : Slot → Proc) : Option Slot → Machine → Prop
  | none => Refused C M g p pr
  | some np => fun m => np = p ∧ ∃ M' g' tf pt copy, Inv C ∅ M' (.slot p) g' m.vm ∧ Moves (.slot p) M g M' g' ∧
      m.proc = update pr p
        { pr p with state := .used, trapframe := tf, pagetable := pt, trapframeCopy := copy } ∧
      Space C M' g' p { pr p with state := .used, trapframe := tf, pagetable := pt, trapframeCopy := copy } ∧
      Copied g' p { pr p with state := .used, trapframe := tf, pagetable := pt, trapframeCopy := copy } ∧ g tf = .free

/-- The last allocation of `allocproc`. -/
theorem allocproc_copy {tf pt : ℕ} (hsz : (pr p).sz = 0) (htf : g tf = .free) (hout : g t = .outside)
    (hfresh : Fresh M (.slot p) pt (update g tf (.held (.slot p)))) :
    Holds (At (Now C (withPins M pt t tf) (.slot p) pt (update g tf (.held (.slot p))))
        (update pr p { pr p with state := .used, trapframe := tf, pagetable := pt }))
      (do
        let copy ← lift kalloc
        updProc p fun q => { q with trapframeCopy := copy }
        if copy = 0 then pure none else pure (some p))
      (Allocated C M g p pr) (Stops C) := by
  set M₂ := withPins M pt t tf
  refine at_exists fun g₂ => at_assume (c := Within (.slot p) pt (update g tf (.held (.slot p))) g₂ ∧
    g₂ pt = .node (.slot p) (.table pt 2 0)) (fun s hs => hs.2) fun ⟨hwithin, hroot⟩ => ?_
  have hsteady : Steady (.slot p) M (update g tf (.held (.slot p))) M₂ g₂ :=
    hwithin.steady (.inl hfresh.1) fun r hr => withPins_other M t tf hr
  have hmoves : Moves (.slot p) M g M₂ g₂ :=
    (Moves.of_update (.inl htf) (.inr rfl)).trans hsteady.toMoves
  have htf₂ : g₂ tf = .held (.slot p) := hsteady.held _ _ (update_self _ _ _)
  have hout₂ := hmoves.outside hout
  have hexact : C → Exact M₂ pt (pageCount (pr p).sz) := by
    intro _
    rw [hsz]
    exact exact_withPins hfresh.2.2 t tf
  have htop : (pr p).sz ≤ TRAPFRAME := by
    rw [hsz]
    exact Nat.zero_le _
  refine holds_bind (lift_at (holds_conseq kalloc_spec (fun s hs => hs.1) fun _ _ h => h)) fun copy => ?_
  refine holds_bind (updProc_set _) fun _ => holds_ite (fun h0 => holds_pure ?_) fun h0 => holds_pure ?_
  · rintro m ⟨hres, hpr⟩
    have hinv : Inv C ∅ M₂ (.slot p) g₂ m.vm := by
      rcases hres with ⟨_, hinv⟩ | ⟨hfree, hinv⟩
      · exact hinv
      · exact absurd (hinv.page_lt (x := copy) (by simp)).1 (by omega)
    exact ⟨_, hpr, by simp, .inr ⟨M₂, g₂, hinv, hmoves,
      .inr (.inr ⟨rfl, ⟨hroot, ⟨t, hout₂, pins_withPins M pt t tf⟩, hexact, htop, htf₂⟩, h0⟩)⟩⟩
  · rintro m ⟨hres, hpr⟩
    rcases hres with ⟨hz, _⟩ | ⟨hfree, hinv⟩
    · exact absurd hz h0
    have hkeep : ∀ x, g₂ x ≠ .free → update g₂ copy (.held (.slot p)) x = g₂ x := by
      intro x hx
      rw [update_of_ne]
      rintro rfl
      exact hx hfree
    refine ⟨rfl, M₂, _, tf, pt, copy, hinv, hmoves.trans (Moves.of_update (.inl hfree) (.inr rfl)), hpr,
      ⟨?_, ⟨t, ?_, pins_withPins M pt t tf⟩, hexact, htop, ?_⟩, ⟨update_self _ _ _, ?_⟩, htf⟩
    · change update g₂ copy (.held (.slot p)) pt = _
      rw [hkeep pt (by simp [hroot]), hroot]
    · rw [hkeep t (by simp [hout₂]), hout₂]
    · change update g₂ copy (.held (.slot p)) tf = _
      rw [hkeep tf (by simp [htf₂]), htf₂]
    · change copy ≠ tf
      rintro rfl
      rw [htf₂] at hfree
      cases hfree

theorem allocprocAt_spec (hun : Unused g p (pr p)) :
    Holds (At (Inv C ∅ M a g) pr) (allocprocAt p) (Allocated C M g p pr) (Stops C) := by
  obtain ⟨hpt, hsz, hout, hown⟩ := hun
  refine holds_bind (updProc_at _) fun _ => holds_bind (lift_at (setActor_spec (.slot p))) fun _ => ?_
  refine holds_bind (lift_at kalloc_spec) fun tf => holds_bind (updProc_set _) fun _ => ?_
  refine holds_ite (fun h0 => ?_) fun h0 => ?_
  · subst h0
    have hgive := @giveUp_spec C M g p pr { pr p with state := .used, trapframe := 0 } hpt hout (fun h h' => absurd h h')
      fun _ => hown
    refine holds_bind (holds_at _ hgive ?_) fun _ => holds_pure fun m hm => hm
    rintro s (⟨_, hs⟩ | ⟨hfree, hs⟩)
    · exact hs
    · exact absurd (hs.page_lt (x := 0) (by simp)).1 (lt_irrefl 0)
  · refine at_assume (c := g tf = .free) ?_ fun hfree => ?_
    · rintro s (⟨h, _⟩ | ⟨hfree, _⟩)
      · exact absurd h h0
      · exact hfree
    refine holds_at (Inv C ∅ M (.slot p) (update g tf (.held (.slot p)))) ?_ ?_
    · refine at_assume (c := tf < 2 ^ 52) (fun s hs => (hs.page_lt (x := tf) (by simp)).2) fun hlt => ?_
      refine holds_bind (lift_at (procPagetable_spec hlt)) fun pt => holds_bind (updProc_set _) fun _ => ?_
      refine holds_ite (fun hp0 => ?_) fun hp0 => ?_
      · subst hp0
        have hgive := @giveUp_spec C M (update g tf (.held (.slot p))) p pr
          { pr p with state := .used, trapframe := tf, pagetable := 0 } rfl ?_ ?_ ?_
        · refine holds_bind (holds_at _ hgive fun s hs => hs) fun _ => holds_pure ?_
          rintro m ⟨v, hpr, hstate, hbroken | ⟨M', g', hinv, hmoves, hslot⟩⟩
          · exact ⟨v, hpr, hstate, .inl hbroken⟩
          · exact ⟨v, hpr, hstate, .inr ⟨M', g', hinv,
              (Moves.of_update (.inl hfree) (.inr rfl)).trans hmoves, hslot⟩⟩
        · intro hc
          by_cases heq : (pr p).trapframeCopy = tf
          · rw [heq, update_self]
            simp
          · rw [update_of_ne heq]
            exact hout hc
        · intro heq _
          change update g tf _ (pr p).trapframeCopy = _
          rw [show (pr p).trapframeCopy = tf from heq, update_self]
        · intro hne
          rwa [update_of_ne (show (pr p).trapframeCopy ≠ tf from hne)]
      · refine holds_at (fun s => ∃ t, (g t = .outside ∧ Fresh M (.slot p) pt (update g tf (.held (.slot p)))) ∧
          Now C (withPins M pt t tf) (.slot p) pt (update g tf (.held (.slot p))) s) ?_ ?_
        · refine at_exists fun t => at_assume (fun s hs => hs.1) fun ⟨hto, hfresh⟩ => ?_
          exact holds_at _ (allocproc_copy hsz hfree hto hfresh) fun s hs => hs.2
        · intro s hs
          rw [Made, if_neg hp0] at hs
          obtain ⟨hfresh, t, hto, hnow⟩ := hs
          refine ⟨t, ⟨?_, hfresh⟩, hnow⟩
          rwa [update_of_ne] at hto
          rintro rfl
          rw [update_self] at hto
          cases hto
    · rintro s (⟨h, _⟩ | ⟨_, hs⟩)
      · exact absurd h h0
      · exact hs

/-- `allocproc` of some free slot, or of none. -/
theorem allocproc_spec (hall : Slots C M g pr) :
    Holds (At (Inv C ∅ M a g) pr) allocproc (fun r m => match r with
      | none => (∀ c, (pr c).state = .unused → (m.proc c).state ≠ .runnable) ∧
          (Broken m.vm.trace ∨ ∃ M' g', SoundAt C M' g' m)
      | some np => (pr np).state = .unused ∧ Allocated C M g np pr (some np) m) (Stops C) := by
  refine holds_bind (Q := fun r m => At (Inv C ∅ M a g) pr m ∧ ∀ p, r = some p → (pr p).state = .unused)
    (holds_gets ?_) fun r => ?_
  · rintro m ⟨hinv, rfl⟩
    refine ⟨⟨hinv, rfl⟩, fun p hp => ?_⟩
    simpa using List.find?_some hp
  · cases r with
    | none =>
      refine holds_pure ?_
      rintro m ⟨⟨hinv, rfl⟩, _⟩
      exact ⟨fun c hc => by simp [hc], .inr ⟨M, g, ⟨a, hinv⟩, hall⟩⟩
    | some p =>
      refine holds_assume (fun m hm => hm.2 p rfl) fun hst => ?_
      have hun : Unused g p (pr p) := by
        rcases hall.slot p with ⟨_, h⟩ | ⟨h, _⟩ | ⟨h, _⟩
        · exact h
        · rw [hst] at h
          rcases h with h | h <;> cases h
        · rw [hst] at h
          cases h
      refine holds_conseq (allocprocAt_spec hun) (fun m hm => hm.1) fun r m hm => ?_
      cases r with
      | none =>
        obtain ⟨v, hpr, hstate, hres⟩ := hm
        refine ⟨fun c hc => ?_, ?_⟩
        · rw [hpr]
          by_cases hcp : c = p
          · rwa [hcp, update_self]
          · rw [update_of_ne hcp, hc]
            simp
        · rcases hres with hbroken | ⟨M', g', hinv, hmoves, hslot⟩
          · exact .inl hbroken
          · exact .inr ⟨M', g', SoundAt.of_slot hall hinv hmoves hpr hslot⟩
      | some np =>
        obtain ⟨rfl, hrest⟩ := hm
        exact ⟨hst, rfl, hrest⟩

end Xv6.Vm
