import Xv6.Sanity.Images

/-! The pages of the process slots. `SlotOk` says which pages a slot has in each of its
states; a call on behalf of one slot moves pages only between that slot and the free
list (`Moves`), so the other slots keep what they have. -/

namespace Xv6.Vm

open Prog Radix Function

variable {C : Prop} {M M' M'' : PageMap} {a o : Owner} {g g' g'' : Pages} {p q : Slot} {pr : Slot → Proc}

/-! ### Programs over the machine -/

/-- A statement about memory, with the process table known. -/
def At (P : State → Prop) (pr : Slot → Proc) (m : Machine) : Prop := P m.vm ∧ m.proc = pr

/-- A page has been freed for someone who does not hold it, after a slot was given up with
a `trapframe_copy` page of an earlier life. -/
def Broken (tr : List Event) : Prop :=
  (∃ p tf copy, .gaveUp p tf copy ∈ tr ∧ ¬ Event.Good (.gaveUp p tf copy)) ∧
    ∃ actor x holder, .freed actor x holder ∈ tr ∧ ¬ Event.Good (.freed actor x holder)

/-- How a call may end in a panic. -/
def Stops (C : Prop) : Panic → Machine → Prop := fun _ m => (GoodSoFar m.vm ∨ Broken m.vm.trace) ∧ ¬ C

theorem no_stops (e : Panic) (m : Machine) : ¬ Stops True e m := fun h => h.2 trivial

section Rules

variable {α β : Type} {P : State → Prop} {Q : α → State → Prop} {R : β → Machine → Prop} {E : Panic → Machine → Prop}

theorem lift_at {x : VmM α} (h : Holds P x Q (Faults C)) :
    Holds (At P pr) (lift x) (fun r => At (Q r) pr) (Stops C) := by
  have hz := @holds_zoom _ _ _ _ Machine.vm (fun v m => { m with vm := v }) x (fun m => m.proc = pr) _ _ _
    (fun _ _ => rfl) (fun _ _ hm => hm) h
  intro m hm
  have hout := hz m hm
  unfold lift
  cases hx : zoom Machine.vm (fun v m => { m with vm := v }) x m with
  | ok r t =>
    rwa [hx] at hout
  | fault e t =>
    rw [hx] at hout
    exact ⟨.inl hout.1, hout.2⟩

theorem lift_eq_ok {x : VmM α} {b : α} {m m' : Machine} : lift x m = .ok b m' ↔ ∃ t, x m.vm = .ok b t ∧ m' = { m with vm := t } := by
  unfold lift zoom
  cases h : x m.vm with
  | ok c t =>
    constructor
    · intro heq
      cases heq
      exact ⟨t, rfl, rfl⟩
    · rintro ⟨u, hu, rfl⟩
      cases hu
      rfl
  | fault e t => exact iff_of_false nofun fun ⟨_, hu, _⟩ => nomatch hu

theorem updProc_at (f : Proc → Proc) :
    Holds (At P pr) (updProc p f) (fun _ => At P (update pr p (f (pr p)))) E := by
  refine holds_modify ?_
  rintro m ⟨hP, rfl⟩
  exact ⟨hP, rfl⟩

theorem getProc_at {f : Proc → ProcM β} (h : Holds (At P pr) (f (pr p)) R E) :
    Holds (At P pr) (getProc p >>= f) R E := by
  refine holds_bind (Q := fun v m => At P pr m ∧ v = pr p) (holds_gets ?_) fun v => ?_
  · rintro m ⟨hP, rfl⟩
    exact ⟨⟨hP, rfl⟩, rfl⟩
  · refine holds_assume (fun m hm => hm.2) fun hv => ?_
    subst hv
    exact holds_conseq h (fun m hm => hm.1) fun _ _ hr => hr

variable {x : ProcM β}

theorem holds_at (P' : State → Prop) (h : Holds (At P' pr) x R E) (hP : ∀ s, P s → P' s) :
    Holds (At P pr) x R E :=
  holds_conseq h (fun _ hm => ⟨hP _ hm.1, hm.2⟩) fun _ _ hr => hr

/-- What a statement about memory says of no particular memory may be assumed. -/
theorem at_assume {c : Prop} (hc : ∀ s, P s → c) (h : c → Holds (At P pr) x R E) :
    Holds (At P pr) x R E :=
  holds_assume (fun m hm => hc m.vm hm.1) h

theorem at_exists {ι : Type} {P : ι → State → Prop} (h : ∀ i, Holds (At (P i) pr) x R E) :
    Holds (At (fun s => ∃ i, P i s) pr) x R E := by
  rintro m ⟨⟨i, hi⟩, hpr⟩
  exact h i m ⟨hi, hpr⟩

theorem setActor_spec (o : Owner) : Holds (Inv C ∅ M a g) (setActor o) (fun _ => Inv C ∅ M o g) (Faults C) :=
  holds_modify fun _ hs => { hs with actor := rfl }

theorem Inv.acting {s : State} (h : Inv C ∅ M a g s) (o : Owner) : Inv C ∅ M o g { s with actor := o } :=
  (setActor_spec o).ok h rfl

theorem Inv.now {s : State} {root : ℕ} (h : Inv C ∅ M a g s) (hroot : g root = .node a (.table root 2 0)) :
    Now C M a root g s := ⟨g, h, Within.refl a root g, hroot⟩

end Rules

/-! ### What a slot has -/

/-- A page table with trampoline, trapframe and user memory, and the trapframe page. -/
structure Space (C : Prop) (M : PageMap) (g : Pages) (p : Slot) (q : Proc) : Prop where
  root : g q.pagetable = .node (.slot p) (.table q.pagetable 2 0)
  pins : ∃ t, g t = .outside ∧ Pins M q.pagetable (t, q.trapframe)
  exact_ : C → Exact M q.pagetable (pageCount q.sz)
  sz : q.sz ≤ TRAPFRAME
  trapframe : g q.trapframe = .held (.slot p)

/-- The page of `trapframe_copy` is the slot's own. -/
def Copied (g : Pages) (p : Slot) (q : Proc) : Prop :=
  g q.trapframeCopy = .held (.slot p) ∧ q.trapframeCopy ≠ q.trapframe

/-- A free slot may still point to the `trapframe_copy` page it had. -/
def Unused (g : Pages) (p : Slot) (q : Proc) : Prop :=
  q.pagetable = 0 ∧ q.sz = 0 ∧ (q.trapframeCopy ≠ 0 → g q.trapframeCopy ≠ .outside) ∧
    (g q.trapframeCopy).holder ≠ some (.slot p)

/-- The third kind of slot is one that `allocproc` left behind without the copy page. -/
def SlotOk (C : Prop) (M : PageMap) (g : Pages) (p : Slot) (q : Proc) : Prop :=
  (q.state = .unused ∧ Unused g p q) ∨ ((q.state = .runnable ∨ q.state = .zombie) ∧ Space C M g p q ∧ Copied g p q) ∨
    (q.state = .used ∧ Space C M g p q ∧ q.trapframeCopy = 0)

theorem SlotOk.space (h : SlotOk C M g p (pr p)) (hst : (pr p).state = .runnable ∨ (pr p).state = .zombie) :
    Space C M g p (pr p) ∧ Copied g p (pr p) := by
  rcases h with ⟨hu, _⟩ | ⟨_, hs⟩ | ⟨hu, _⟩
  · rw [hu] at hst
    rcases hst with h | h <;> cases h
  · exact hs
  · rw [hu] at hst
    rcases hst with h | h <;> cases h

/-- A free page, or a page of the owner. -/
def Mine (o : Owner) (st : Status) : Prop := st = .free ∨ st.holder = some o

/-- Pages have moved only between the owner and the free list. -/
structure Moves (o : Owner) (M : PageMap) (g : Pages) (M' : PageMap) (g' : Pages) : Prop where
  pages : ∀ x, g' x = g x ∨ (Mine o (g x) ∧ Mine o (g' x))
  maps : ∀ r o' n, g r = .node o' n → o' ≠ o → M' r = M r

/-- Besides, pages that are held and in no page table stay so. -/
structure Steady (o : Owner) (M : PageMap) (g : Pages) (M' : PageMap) (g' : Pages) : Prop extends Moves o M g M' g' where
  held : ∀ x o', g x = .held o' → g' x = .held o'

theorem Moves.refl (o : Owner) (M : PageMap) (g : Pages) : Moves o M g M g :=
  ⟨fun _ => .inl rfl, fun _ _ _ _ _ => rfl⟩

variable {x root : ℕ} {st : Status} {q' : Proc}

theorem Moves.keep (h : Moves o M g M' g') (hx : ¬ Mine o (g x)) : g' x = g x := by
  rcases h.pages x with heq | ⟨hmine, _⟩
  · exact heq
  · exact absurd hmine hx

theorem Moves.outside (h : Moves o M g M' g') (hx : g x = .outside) : g' x = .outside := by
  rw [h.keep, hx]
  rintro (hfree | hown)
  · rw [hx] at hfree
    cases hfree
  · rw [hx] at hown
    cases hown

theorem not_mine_node {o' : Owner} {n : Node} (ho : o' ≠ o) : ¬ Mine o (.node o' n) := by
  rintro (hfree | hown)
  · cases hfree
  · exact ho (Option.some.inj hown)

theorem Moves.trans (h : Moves o M g M' g') (h' : Moves o M' g' M'' g'') : Moves o M g M'' g'' := by
  constructor
  · intro x
    rcases h'.pages x with heq | ⟨hmine, hmine'⟩
    · rcases h.pages x with heq' | ⟨hmine, hmine'⟩
      · exact .inl (heq.trans heq')
      · exact .inr ⟨hmine, by rwa [heq]⟩
    · rcases h.pages x with heq' | ⟨hm, _⟩
      · exact .inr ⟨by rwa [← heq'], hmine'⟩
      · exact .inr ⟨hm, hmine'⟩
  · intro r o' n hr ho
    have hr' : g' r = .node o' n := by
      rw [h.keep (by rw [hr]; exact not_mine_node ho), hr]
    rw [h'.maps r o' n hr' ho, h.maps r o' n hr ho]

theorem Steady.refl (o : Owner) (M : PageMap) (g : Pages) : Steady o M g M g :=
  ⟨Moves.refl o M g, fun _ _ h => h⟩

theorem Steady.trans (h : Steady o M g M' g') (h' : Steady o M' g' M'' g'') : Steady o M g M'' g'' :=
  ⟨h.toMoves.trans h'.toMoves, fun x o' hx => h'.held x o' (h.held x o' hx)⟩

/-- A page the owner comes to hold, or gives back. -/
theorem Moves.of_update (hx : Mine o (g x)) (hst : Mine o st) :
    Moves o M g M (update g x st) := by
  refine ⟨fun y => ?_, fun _ _ _ _ _ => rfl⟩
  by_cases hy : y = x
  · subst hy
    exact .inr ⟨hx, by simpa using hst⟩
  · exact .inl (by simp [hy])

theorem Tied.mine (h : Tied o root st) : Mine o st := by
  rcases h with rfl | ⟨n, rfl, _⟩
  · exact .inl rfl
  · exact .inr rfl

theorem Within.steady (h : Within o root g g') (hroot : Tied o root (g root))
    (hmaps : ∀ r, r ≠ root → M' r = M r) : Steady o M g M' g' := by
  refine ⟨⟨fun x => ?_, fun r o' n hr ho => hmaps r ?_⟩, fun x o' hx => ?_⟩
  · rcases h x with heq | ⟨ht, ht'⟩
    · exact .inl heq
    · exact .inr ⟨ht.mine, ht'.mine⟩
  · rintro rfl
    exact not_mine_node ho (hr ▸ hroot.mine)
  · rcases h x with heq | ⟨hfree | ⟨n, hn, _⟩, _⟩
    · rw [heq, hx]
    · rw [hx] at hfree
      cases hfree
    · rw [hx] at hn
      cases hn

/-- A page of another slot is not touched. -/
theorem Moves.other (h : Moves o M g M' g') (hqo : .slot q ≠ o) (hx : (g x).holder = some (.slot q)) :
    g' x = g x := by
  refine h.keep ?_
  rintro (hfree | hown)
  · rw [hfree] at hx
    cases hx
  · rw [hx] at hown
    exact hqo (Option.some.inj hown)

theorem Space.other (h : Space C M g q q') (hm : Moves o M g M' g') (hqp : .slot q ≠ o) :
    Space C M' g' q q' := by
  have hmap := hm.maps _ _ _ h.root hqp
  obtain ⟨t, hout, hpins⟩ := h.pins
  refine ⟨?_, ⟨t, hm.outside hout, hpins.congr fun _ _ => by rw [hmap]⟩, fun hc pos hpos => ?_, h.sz, ?_⟩
  · rw [hm.other hqp (by rw [h.root]; rfl), h.root]
  · rw [hmap]
    exact h.exact_ hc pos hpos
  · rw [hm.other hqp (by rw [h.trapframe]; rfl), h.trapframe]

theorem SlotOk.other (h : SlotOk C M g q q') (hm : Moves o M g M' g') (hqp : .slot q ≠ o) :
    SlotOk C M' g' q q' := by
  rcases h with ⟨hst, hpt, hsz, hout, hown⟩ | ⟨hst, hs, hc, hne⟩ | ⟨hst, hs, hc⟩
  · refine .inl ⟨hst, hpt, hsz, fun h0 => ?_, ?_⟩
    · rcases hm.pages q'.trapframeCopy with heq | ⟨_, hfree | hmine⟩
      · rw [heq]
        exact hout h0
      · rw [hfree]
        simp
      · intro ho
        rw [ho] at hmine
        cases hmine
    · rcases hm.pages q'.trapframeCopy with heq | ⟨_, hfree | hmine⟩
      · rwa [heq]
      · rw [hfree]
        simp [Status.holder]
      · rw [hmine]
        exact fun h => hqp (Option.some.inj h).symm
  · refine .inr (.inl ⟨hst, hs.other hm hqp, ?_, hne⟩)
    rw [hm.other hqp (by rw [hc]; rfl), hc]
  · exact .inr (.inr ⟨hst, hs.other hm hqp, hc⟩)

/-- All slots have their pages; the kernel's pages are in no user page table. -/
structure Slots (C : Prop) (M : PageMap) (g : Pages) (pr : Slot → Proc) : Prop where
  kernel : ∀ x n, g x ≠ .node .kernel n
  slot : ∀ q, SlotOk C M g q (pr q)

theorem Slots.move {v : Proc} (h : Slots C M g pr) (hm : Moves (.slot p) M g M' g') (hv : SlotOk C M' g' p v) :
    Slots C M' g' (update pr p v) := by
  refine ⟨fun x n hx => ?_, fun q => ?_⟩
  · rcases hm.pages x with heq | ⟨_, hfree | hmine⟩
    · exact h.kernel x n (heq ▸ hx)
    · rw [hx] at hfree
      cases hfree
    · rw [hx] at hmine
      cases hmine
  · by_cases hq : q = p
    · subst hq
      rwa [update_self]
    · rw [update_of_ne hq]
      exact (h.slot q).other hm (by simpa using hq)

end Xv6.Vm
