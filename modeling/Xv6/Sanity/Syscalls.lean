import Xv6.Sanity.Calls

/-! The calls a run is made of: `fork`, `wait`, `exec` with its argument pages, `sbrk`,
`exit`, user stores, and pages the kernel takes for itself. -/

namespace Xv6.Vm

open Prog Radix Function List

variable {C : Prop} {M M' M'' : PageMap} {a : Owner} {g g' g'' : Pages} {p q : Slot} {pr : Slot → Proc} {m : Machine}

/-! ### fork -/

/-- What `fork` leaves: a child that was made now has a trapframe page that was free. -/
def Forked (C : Prop) (g : Pages) (pr : Slot → Proc) (m : Machine) : Prop :=
  (∀ c, (pr c).state = .unused → (m.proc c).state = .runnable → g (m.proc c).trapframe = .free ∧
    ∃ M' g', SoundAt C M' g' m) ∧ (Broken m.vm.trace ∨ ∃ M' g', SoundAt C M' g' m)

theorem copyTrapframe_spec {dst : ℕ} (src : ℕ) (hdst : g dst = .held a) :
    Keeps (Inv C ∅ M a g) (copyTrapframe dst src) (Faults C) :=
  holds_bind (keeps_gets _) fun _ => poke_spec (by rw [hdst]; simp [Status.Plain]) _

theorem fork_spec (hall : Slots C M g pr) (hst : (pr p).state = .runnable) :
    Holds (At (Inv C ∅ M a g) pr) (fork p) (fun _ => Forked C g pr) (Stops C) := by
  refine holds_bind (allocproc_spec hall) fun r => ?_
  cases r with
  | none =>
    refine holds_pure ?_
    rintro m ⟨hno, hres⟩
    exact ⟨fun c hc hrun => absurd hrun (hno c hc), hres⟩
  | some np =>
    refine holds_assume (fun m hm => hm.1) fun hnew => ?_
    have hne : p ≠ np := ne_of_apply_ne (fun q => (pr q).state) (by simp [hst, hnew])
    have howner : (Owner.slot p) ≠ .slot np := by simpa using hne
    rintro m ⟨_, _, M₁, g₁, tf, pt, copy, hinv, hmoves, hpr, hsp, hcopied, htf⟩
    set v : Proc := { pr np with state := .used, trapframe := tf, pagetable := pt, trapframeCopy := copy }
    have hsz : v.sz = 0 := by
      rcases hall.slot np with ⟨_, _, hz, _⟩ | ⟨h, _⟩ | ⟨h, _⟩
      · exact hz
      · rw [hnew] at h
        rcases h with h | h <;> cases h
      · rw [hnew] at h
        cases h
    have hparent := ((hall.slot p).space (.inl hst)).1.other hmoves howner
    obtain ⟨t, hout, hpins⟩ := hsp.pins
    have hroots : (pr p).pagetable ≠ pt := by
      intro heq
      have hroot := hparent.root
      rw [heq, show g₁ pt = _ from hsp.root] at hroot
      injection hroot with hslot
      exact howner hslot.symm
    have hcopyC : C → Exact M₁ pt 0 ∧ ∀ pos, pos < pageCount (pr p).sz → M₁ (pr p).pagetable pos ≠ none := by
      intro hc
      have hexact := hsp.exact_ hc
      rw [hsz] at hexact
      refine ⟨hexact, fun pos hpos => (hparent.exact_ hc pos ?_).mpr hpos⟩
      exact unpinned_of_lt (lt_of_lt_of_le hpos (Nat.div_le_div_right (PGROUNDUP_le hparent.sz).2.1))
    refine (?_ : Holds (At (Inv C ∅ M₁ (.slot np) g₁) (update pr np v)) _ _ _) m ⟨hinv, hpr⟩
    refine getProc_other hne (getProc_set ?_)
    refine holds_bind (lift_at (holds_conseq (uvmcopy_spec hparent.root hroots hpins hparent.sz hcopyC)
      (fun s hs => hs.now hsp.root) fun _ _ h => h)) fun ok => ?_
    cases ok with
    | true =>
      refine holds_ite (fun _ => ?_) fun h => absurd rfl h
      refine holds_bind (updProc_set _) fun _ => ?_
      refine holds_at (fun s => ∃ M' g', (Extends M₁ M' pt 0 (pageCount (pr p).sz)
          (fun pos f => ∀ w, M₁ (pr p).pagetable pos = some w → w.2 = f) ∧ Within (.slot np) pt g₁ g' ∧
          g' pt = .node (.slot np) (.table pt 2 0)) ∧ Inv C ∅ M' (.slot np) g' s) ?_
            (by rintro s ⟨M', hext, g', hinv, hw, hroot⟩; exact ⟨M', g', ⟨hext, hw, hroot⟩, hinv⟩)
      refine at_exists fun M₂ => at_exists fun g₂ => at_assume (fun s hs => hs.1) fun hs => ?_
      obtain ⟨hext, hwithin, hroot⟩ := hs
      have hsteady : Steady (.slot np) M₁ g₁ M₂ g₂ :=
        hwithin.steady (.inr ⟨_, hsp.root, rfl⟩) fun r hr => hext.elsewhere hr
      have htf₂ := hsteady.held _ _ hsp.trapframe
      refine holds_bind (lift_at (holds_conseq (copyTrapframe_spec _ htf₂) (fun s hs => hs.2) fun _ _ h => h)) fun _ => ?_
      refine holds_bind (lift_at (poke_spec (by rw [htf₂]; simp [Status.Plain]) _)) fun _ => ?_
      refine holds_bind (updProc_set _) fun _ => holds_bind (updProc_set _) fun _ => holds_pure ?_
      rintro m ⟨hinv, hpr⟩
      have hsound : SoundAt C M₂ g₂ m := SoundAt.of_slot hall hinv (hmoves.trans hsteady.toMoves) hpr
        (.inr (.inl ⟨.inl rfl, ⟨hroot, ⟨t, hsteady.outside hout, hpins.extend hext⟩,
          fun hc => (hcopyC hc).1.extend hext (Nat.zero_le _), hparent.sz, htf₂⟩,
          hsteady.held _ _ hcopied.1, hcopied.2⟩))
      refine ⟨fun c hc hrun => ⟨?_, M₂, g₂, hsound⟩, .inr ⟨M₂, g₂, hsound⟩⟩
      by_cases hcnp : c = np
      · rwa [hcnp, hpr, update_self]
      · rw [hpr, update_of_ne hcnp, hc] at hrun
        cases hrun
    | false =>
      refine holds_ite (by simp) fun _ => ?_
      refine holds_at (fun s => ∃ g', (Within (.slot np) pt g₁ g' ∧ g' pt = .node (.slot np) (.table pt 2 0)) ∧
        Inv C ∅ M₁ (.slot np) g' s) ?_ (by rintro s ⟨g', hinv, hw, hroot⟩; exact ⟨g', ⟨hw, hroot⟩, hinv⟩)
      refine at_exists fun g₂ => at_assume (fun s hs => hs.1) fun hs => ?_
      obtain ⟨hwithin, hroot⟩ := hs
      have hsteady : Steady (.slot np) M₁ g₁ M₁ g₂ := hwithin.steady (.inr ⟨_, hsp.root, rfl⟩) fun _ _ => rfl
      have hcur : update pr np v np = v := update_self _ _ _
      have hfree := @freeproc_spec C M₁ (.slot np) g₂ np (update pr np v)
        (by rw [hcur]; exact ⟨hroot, ⟨t, hsteady.outside hout, hpins⟩, hsp.exact_, hsp.sz,
          hsteady.held _ _ hsp.trapframe⟩)
        (by rw [hcur]; exact ⟨hsteady.held _ _ hcopied.1, hcopied.2⟩)
      refine holds_bind (holds_at _ hfree fun s hs => hs.2) fun _ => holds_pure ?_
      rintro m ⟨M', g', hinv, hmoves', hpr, hunused, _⟩
      rw [hcur, update_idem] at hpr
      rw [hcur] at hunused
      refine ⟨fun c hc hrun => ?_, .inr ⟨M', g', SoundAt.of_slot hall hinv
        ((hmoves.trans hsteady.toMoves).trans hmoves') hpr (.inl ⟨rfl, hunused⟩)⟩⟩
      rw [hpr] at hrun
      by_cases hcnp : c = np
      · rw [hcnp, update_self] at hrun
        cases hrun
      · rw [update_of_ne hcnp, hc] at hrun
        cases hrun

/-! ### wait -/

/-- What the scan of `wait` leaves: the trapframe page of a child that was reaped is held. -/
def Reaped (C : Prop) (pr : Slot → Proc) (m : Machine) : Prop :=
  ∃ M' g', SoundAt C M' g' m ∧
    ∀ c, (pr c).state = .zombie → (m.proc c).state = .unused → g' (pr c).trapframe = .held (.slot c)

theorem reap_spec (hall : Slots C M g pr) (hst : (pr p).state = .runnable) (addr : ℕ) :
    Holds (At (Inv C ∅ M a g) pr) (reap p addr) (fun _ => Reaped C pr) (Stops C) := by
  have hsame : ∀ m, At (Inv C ∅ M a g) pr m → Reaped C pr m := by
    rintro m ⟨hinv, rfl⟩
    exact ⟨M, g, ⟨⟨a, hinv⟩, hall⟩, fun c hz hu => by rw [hz] at hu; cases hu⟩
  refine holds_bind (Q := fun r m => At (Inv C ∅ M a g) pr m ∧ ∀ c, r = some c → (pr c).state = .zombie)
    (holds_gets ?_) fun r => ?_
  · rintro m ⟨hinv, rfl⟩
    refine ⟨⟨hinv, rfl⟩, fun c hc => ?_⟩
    have := List.find?_some hc
    simp only [decide_eq_true_eq] at this
    exact this.2
  · cases r with
    | none => exact holds_pure fun m hm => hsame m hm.1
    | some c =>
      refine holds_assume (fun m hm => hm.2 c rfl) fun hz => ?_
      refine holds_conseq (P := At (Inv C ∅ M a g) pr) ?_ (fun m hm => hm.1) fun _ _ h => h
      obtain ⟨hsp, hcopied⟩ := (hall.slot c).space (.inr hz)
      have hroot := ((hall.slot p).space (.inl hst)).1.root
      have hfree : Holds (At (Inv C ∅ M a g) pr) (do freeproc c; pure (some c)) (fun _ => Reaped C pr) (Stops C) := by
        refine holds_bind (freeproc_spec hsp hcopied) fun _ => holds_pure ?_
        rintro m ⟨M', g', hinv, hmoves, hpr, hunused, htf⟩
        refine ⟨M', g', SoundAt.of_slot hall hinv hmoves hpr (.inl ⟨rfl, hunused⟩), fun c' hz' hu' => ?_⟩
        by_cases hcc : c' = c
        · rwa [hcc]
        · rw [hpr, update_of_ne hcc, hz'] at hu'
          cases hu'
      refine getProc_at (getProc_at (holds_ite (fun _ => ?_) fun _ => hfree))
      refine holds_bind (lift_at (copyout_spec hroot _ _)) fun ok => ?_
      exact holds_ite (fun _ => hfree) fun _ => holds_pure hsame

/-! ### exec with its arguments -/

/-- The pages of `argv` have been taken from the free list. -/
structure Taken (o : Owner) (g : Pages) (argv : List ℕ) (g' : Pages) : Prop where
  nodup : argv.Nodup
  free : ∀ x, x ∈ argv → g x = .free
  held : ∀ x, x ∈ argv → g' x = .held o
  other : ∀ x, x ∉ argv → g' x = g x

theorem Taken.nil (o : Owner) (g : Pages) : Taken o g [] g :=
  ⟨nodup_nil, fun _ h => absurd h not_mem_nil, fun _ h => absurd h not_mem_nil, fun _ _ => rfl⟩

variable {o : Owner} {page : ℕ} {argv : List ℕ} {v : Proc}

theorem Taken.cons (hfree : g page = .free)
    (h : Taken o (update g page (.held o)) argv g') : Taken o g (page :: argv) g' := by
  have hnot : page ∉ argv := by
    intro hin
    have := h.free page hin
    rw [update_self] at this
    cases this
  have hne : ∀ x, x ∈ argv → x ≠ page := by
    rintro x hx rfl
    exact hnot hx
  refine ⟨nodup_cons.mpr ⟨hnot, h.nodup⟩, fun x hx => ?_, fun x hx => ?_, fun x hx => ?_⟩
  · rcases mem_cons.mp hx with rfl | hx
    · exact hfree
    · rw [← h.free x hx, update_of_ne (hne x hx)]
  · rcases mem_cons.mp hx with rfl | hx
    · rw [h.other x hnot, update_self]
    · exact h.held x hx
  · obtain ⟨hxp, hxa⟩ := not_or.mp (fun h' => hx (mem_cons.mpr h'))
    rw [h.other x hxa, update_of_ne hxp]

theorem fetchaddr_spec (hroot : g v.pagetable = .node o (.table v.pagetable 2 0)) (addr : ℕ) :
    Keeps (Inv C ∅ M a g) (fetchaddr v addr) (Faults C) :=
  holds_ite (fun _ => keeps_pure none) fun _ => holds_bind (copyinFrom_spec hroot _ _ _) fun _ => keeps_pure _

theorem fetchArgs_spec (uargv k i : ℕ) (hroot : g v.pagetable = .node o (.table v.pagetable 2 0)) :
    Holds (Inv C ∅ M a g) (fetchArgs v uargv k i) (fun r s => ∃ g', Inv C ∅ M a g' s ∧ Taken a g r.1 g') (Faults C) := by
  have hnone : ∀ g ok, Holds (Inv C ∅ M a g) (pure ([], ok) : VmM (List ℕ × Bool))
      (fun r s => ∃ g', Inv C ∅ M a g' s ∧ Taken a g r.1 g') (Faults C) :=
    fun g ok => holds_pure fun s hs => ⟨g, hs, Taken.nil a g⟩
  induction k generalizing i g with
  | zero => exact hnone g false
  | succ k ih =>
    refine holds_bind (fetchaddr_spec hroot _) fun r => ?_
    cases r with
    | none => exact hnone g false
    | some uarg =>
      refine holds_ite (fun _ => hnone g true) fun _ => holds_bind kalloc_spec fun page => ?_
      refine holds_ite (fun h0 => holds_pure ?_) fun h0 => ?_
      · rintro s (⟨_, hs⟩ | ⟨_, hs⟩)
        · exact ⟨g, hs, Taken.nil a g⟩
        · exact absurd (hs.page_lt (x := page) (by simp)).1 (by omega)
      · refine holds_assume (c := g page = .free) ?_ fun hfree => ?_
        · rintro s (⟨h, _⟩ | ⟨hfree, _⟩)
          · exact absurd h h0
          · exact hfree
        refine holds_conseq (P := Inv C ∅ M a (update g page (.held a))) ?_ ?_ fun _ _ h => h
        · have hroot' : update g page (.held a) v.pagetable = .node o (.table v.pagetable 2 0) := by
            rw [update_hand_eq hfree (by rw [hroot]; simp), hroot]
          refine holds_bind (copyinstrFrom_spec hroot' _ _ _) fun str => ?_
          refine holds_bind (poke_spec (by simp [Status.Plain]) _) fun _ => holds_ite (fun _ => ?_) fun _ => holds_pure ?_
          · refine holds_bind (ih (i + 1) hroot') fun rest => holds_pure ?_
            rintro s ⟨g', hs, htaken⟩
            exact ⟨g', hs, Taken.cons hfree htaken⟩
          · exact fun s hs => ⟨_, hs, Taken.cons hfree (Taken.nil a _)⟩
        · rintro s (⟨h, _⟩ | ⟨_, hs⟩)
          · exact absurd h h0
          · exact hs

/-- The argument pages go back to the free list. -/
theorem freeArgs_spec (argv : List ℕ) (hnodup : argv.Nodup) (hheld : ∀ x, x ∈ argv → g x = .held a) :
    Holds (Inv C ∅ M a g) (freeArgs argv) (fun _ s => ∃ g', Inv C ∅ M a g' s ∧ (∀ x, x ∈ argv → g' x = .free) ∧
      ∀ x, x ∉ argv → g' x = g x) (Faults C) := by
  induction argv generalizing g with
  | nil => exact holds_pure fun s hs => ⟨g, hs, fun _ h => absurd h not_mem_nil, fun _ _ => rfl⟩
  | cons page argv ih =>
    obtain ⟨hnot, hnodup'⟩ := nodup_cons.mp hnodup
    refine holds_bind (kfree_held (hheld page mem_cons_self)) fun _ => ?_
    refine holds_conseq (ih hnodup' fun x hx => ?_) (fun _ h => h) ?_
    · rw [update_of_ne (by rintro rfl; exact hnot hx)]
      exact hheld x (mem_cons_of_mem _ hx)
    · rintro _ s ⟨g', hs, hfree, hother⟩
      refine ⟨g', hs, fun x hx => ?_, fun x hx => ?_⟩
      · rcases mem_cons.mp hx with rfl | hx
        · rw [hother x hnot, update_self]
        · exact hfree x hx
      · obtain ⟨hxp, hxa⟩ := not_or.mp (fun h' => hx (mem_cons.mpr h'))
        rw [hother x hxa, update_of_ne hxp]

/-- The arguments are taken, used while they are held, and given back. -/
theorem Taken.release (htaken : Taken a g argv g') (hsteady : Steady a M g' M' g'') {g₃ : Pages}
    (hfree : ∀ x, x ∈ argv → g₃ x = .free) (hother : ∀ x, x ∉ argv → g₃ x = g'' x) : Steady a M g M' g₃ := by
  refine ⟨⟨fun x => ?_, fun r o n hr ho => ?_⟩, fun x o hx => ?_⟩
  · by_cases hin : x ∈ argv
    · exact .inl (by rw [hfree x hin, htaken.free x hin])
    · rw [hother x hin, ← htaken.other x hin]
      exact hsteady.pages x
  · have hin : r ∉ argv := by
      intro hin
      rw [htaken.free r hin] at hr
      cases hr
    exact hsteady.maps r o n (by rw [htaken.other r hin, hr]) ho
  · have hin : x ∉ argv := by
      intro hin
      rw [htaken.free x hin] at hx
      cases hx
    rw [hother x hin]
    exact hsteady.held x o (by rw [htaken.other x hin, hx])

theorem Space.taken (h : Space C M g p v) (htaken : Taken (.slot p) g argv g') :
    Space C M g' p v := by
  have hkeep : ∀ x, g x ≠ .free → g' x = g x := fun x hx => htaken.other x fun hin => hx (htaken.free x hin)
  obtain ⟨t, hout, hpins⟩ := h.pins
  refine ⟨?_, ⟨t, ?_, hpins⟩, h.exact_, h.sz, ?_⟩
  · rw [hkeep _ (by rw [h.root]; simp), h.root]
  · rw [hkeep _ (by rw [hout]; simp), hout]
  · rw [hkeep _ (by rw [h.trapframe]; simp), h.trapframe]

theorem sysExec_spec (hsp : Space C M g p (pr p)) (uargv : ℕ) (file : Option Readi) :
    Holds (At (Inv C ∅ M a g) pr) (sysExec p uargv file) (fun _ => Kept C M g p pr) (Stops C) := by
  refine getProc_at (holds_bind (lift_at (setActor_spec (.slot p))) fun _ => ?_)
  refine holds_bind (lift_at (fetchArgs_spec uargv MAXARG 0 hsp.root)) fun args => ?_
  refine holds_at (fun s => ∃ g', Taken (.slot p) g args.1 g' ∧ Inv C ∅ M (.slot p) g' s) ?_
    fun s ⟨g', hinv, htaken⟩ => ⟨g', htaken, hinv⟩
  refine at_exists fun g₁ => at_assume (fun s hs => hs.1) fun htaken => holds_at (Inv C ∅ M (.slot p) g₁) ?_
    fun s hs => hs.2
  have hsp₁ := hsp.taken htaken
  have hexec : Holds (At (Inv C ∅ M (.slot p) g₁) pr) (execArgs p file args)
      (fun _ => Kept C M g₁ p pr) (Stops C) :=
    holds_ite (fun _ => exec_spec hsp₁ file args.1) fun _ => holds_pure fun m hm => Kept.same hsp₁ hm
  refine holds_bind hexec fun ret => ?_
  rintro m ⟨M₂, g₂, pt, sz, hinv, hsteady, hpr, hsp₂⟩
  have hrest := freeArgs_spec (C := C) (M := M₂) (a := .slot p) (g := g₂) args.1 htaken.nodup
    fun x hx => hsteady.held x _ (htaken.held x hx)
  refine (?_ : Holds (At (Inv C ∅ M₂ (.slot p) g₂) (update pr p { pr p with pagetable := pt, sz := sz })) _ _ _)
    m ⟨hinv, hpr⟩
  refine holds_bind (lift_at hrest) fun _ => holds_pure ?_
  rintro m ⟨⟨g₃, hinv₃, hfree, hother⟩, hpr₃⟩
  have hkeep : ∀ x, g₂ x ≠ .held (.slot p) → g₃ x = g₂ x := fun x hx =>
    hother x fun hin => hx (hsteady.held x _ (htaken.held x hin))
  have hsteady₃ := htaken.release hsteady hfree hother
  obtain ⟨t, hout, hpins⟩ := hsp₂.pins
  refine ⟨M₂, g₃, pt, sz, hinv₃, hsteady₃, hpr₃, ?_, ⟨t, ?_, hpins⟩, hsp₂.exact_, hsp₂.sz,
    hsteady₃.held _ _ hsp.trapframe⟩
  · rw [hkeep _ (by rw [hsp₂.root]; simp), hsp₂.root]
  · rw [hkeep _ (by rw [hout]; simp), hout]

/-- After a call of one slot that keeps its pages in hand. -/
theorem Kept.sound (hall : Slots C M g pr) (hst : (pr p).state = .runnable) (h : Kept C M g p pr m) :
    ∃ M' g', SoundAt C M' g' m ∧ (∀ x o, g x = .held o → g' x = .held o) ∧
      ∀ q, (m.proc q).state = (pr q).state ∧ (m.proc q).trapframe = (pr q).trapframe := by
  obtain ⟨M', g', pt, sz, hinv, hsteady, hpr, hsp⟩ := h
  obtain ⟨_, hcopied⟩ := (hall.slot p).space (.inl hst)
  refine ⟨M', g', SoundAt.of_slot hall hinv hsteady.toMoves hpr
    (.inr (.inl ⟨.inl hst, hsp, hsteady.held _ _ hcopied.1, hcopied.2⟩)), hsteady.held, fun q => ?_⟩
  rw [hpr]
  by_cases hq : q = p
  · subst hq
    simp
  · simp [update_of_ne hq]

/-! ### The other calls -/

theorem exit_spec (hall : Slots C M g pr) (hst : (pr p).state = .runnable) (status : ℤ) (hC : ¬ C) :
    Holds (At (Inv C ∅ M a g) pr) (exit p status) (fun _ m => SoundAt C M g m ∧
      ∀ q, (m.proc q).trapframe = (pr q).trapframe) (Stops C) := by
  refine holds_bind (holds_read Machine.initproc) fun initproc => holds_ite (fun _ => holds_fail ?_) fun _ => ?_
  · rintro m ⟨⟨hinv, _⟩, _⟩
    exact ⟨.inl hinv.good, hC⟩
  · -- only `parent`, `xstate` and `state` change
    refine holds_bind (Q := fun _ m => Inv C ∅ M a g m.vm ∧ ∃ par : Slot → Option Slot,
      m.proc = fun c => { pr c with parent := par c }) (holds_modify ?_) fun _ => holds_modify ?_
    · rintro m ⟨⟨hinv, rfl⟩, _⟩
      refine ⟨hinv, fun c => if (m.proc c).parent = some p then initproc else (m.proc c).parent, funext fun c => ?_⟩
      by_cases hc : (m.proc c).parent = some p <;> simp [hc]
    · rintro m ⟨hinv, par, hpr⟩
      have hcur : ∀ q, m.proc q = { pr q with parent := par q } := fun q => by rw [hpr]
      have hslots : Slots C M g m.proc := by
        refine ⟨hall.kernel, fun q => ?_⟩
        rw [hcur q]
        rcases hall.slot q with ⟨h, hu⟩ | ⟨h, hs, hc⟩ | ⟨h, hs, hc⟩
        · exact .inl ⟨h, hu⟩
        · exact .inr (.inl ⟨h, { hs with }, hc⟩)
        · exact .inr (.inr ⟨h, { hs with }, hc⟩)
      obtain ⟨hs, hc⟩ := (hslots.slot p).space (.inl (by rw [hcur p]; exact hst))
      refine ⟨⟨⟨a, hinv⟩, hslots.move (Moves.refl _ M g) ?_⟩, fun q => ?_⟩
      · exact .inr (.inl ⟨.inr rfl, { hs with }, hc⟩)
      · change (update m.proc p _ q).trapframe = _
        by_cases hq : q = p
        · subst hq
          rw [update_self, hcur q]
        · rw [update_of_ne hq, hcur q]

theorem userStore_spec (hroot : g (pr p).pagetable = .node o (.table (pr p).pagetable 2 0)) (va : ℕ) (c : UInt8) :
    Keeps (At (Inv C ∅ M a g) pr) (userStore p va c) (Stops C) := by
  refine getProc_at (holds_ite (fun _ => keeps_pure ()) fun hva => ?_)
  refine holds_bind (lift_at (walk_look hroot fun _ => not_le.mp hva)) fun r => ?_
  cases r with
  | none => exact holds_pure fun m hm => ⟨hm.1.1, hm.2⟩
  | some t =>
    refine at_assume (c := g t.1 = .node o (.table (pr p).pagetable 0 (va / PGSIZE / 512)) ∧ t.2 = PX 0 va)
      (fun s hs => hs.2.1 t.1 t.2 rfl) fun ⟨ht, hi⟩ => ?_
    refine holds_bind (lift_at (readPte_spec t.1 t.2)) fun pte => ?_
    refine holds_ite (fun _ => holds_pure fun m hm => ⟨hm.1.1.1, hm.2⟩) fun hflags => ?_
    obtain ⟨hv, hrest⟩ := not_or.mp hflags
    obtain ⟨hu, _⟩ := not_or.mp hrest
    refine at_assume (c := (g (PTE2PA pte)).Plain) ?_ fun hplain => ?_
    · rintro s ⟨⟨hs, _⟩, rfl⟩
      rw [hi] at hv hu ⊢
      rw [hs.user_leaf ht hv hu]
      simp [Status.Plain]
    · exact holds_at _ (lift_at (poke_spec hplain _)) fun s hs => hs.1.1

/-- The kernel has taken or given back a page that is in no page table. -/
def KernelMoved (C : Prop) (M : PageMap) (g : Pages) (pr : Slot → Proc) (m : Machine) : Prop :=
  ∃ g', Inv C ∅ M .kernel g' m.vm ∧ Moves .kernel M g M g' ∧ (∀ x n, g' x ≠ .node .kernel n) ∧ m.proc = pr

theorem KernelMoved.sound (hall : Slots C M g pr) (h : KernelMoved C M g pr m) : Sound C m := by
  obtain ⟨g', hinv, hmoves, hkernel, hpr⟩ := h
  refine ⟨M, g', ⟨_, hinv⟩, hkernel, fun q => ?_⟩
  rw [hpr]
  exact (hall.slot q).other hmoves (by simp)

theorem kernelAlloc_spec (hkernel : ∀ x n, g x ≠ .node .kernel n) :
    Holds (At (Inv C ∅ M a g) pr) kernelAlloc (fun _ => KernelMoved C M g pr) (Stops C) := by
  refine holds_bind (lift_at (setActor_spec .kernel)) fun _ => holds_bind (lift_at kalloc_spec) fun r => holds_pure ?_
  rintro m ⟨⟨_, hinv⟩ | ⟨hfree, hinv⟩, rfl⟩
  · exact ⟨g, hinv, Moves.refl _ M g, hkernel, rfl⟩
  · refine ⟨_, hinv, Moves.of_update (.inl hfree) (.inr rfl), fun x n hx => ?_, rfl⟩
    by_cases hxr : x = r
    · subst hxr
      rw [update_self] at hx
      cases hx
    · rw [update_of_ne hxr] at hx
      exact hkernel x n hx

theorem kernelFree_spec (hkernel : ∀ x n, g x ≠ .node .kernel n) (hpage : (g page).holder = some .kernel) :
    Holds (At (Inv C ∅ M a g) pr) (kernelFree page) (fun _ => KernelMoved C M g pr) (Stops C) := by
  have hheld : g page = .held .kernel := by
    cases hg : g page with
    | outside | free => rw [hg] at hpage; cases hpage
    | held o =>
      rw [hg] at hpage
      rw [show o = .kernel from Option.some.inj hpage]
    | node o n =>
      rw [hg] at hpage
      exact absurd (by rw [hg, show o = .kernel from Option.some.inj hpage]) (hkernel page n)
  refine holds_bind (lift_at (setActor_spec .kernel)) fun _ => ?_
  refine holds_conseq (lift_at (kfree_held hheld)) (fun _ h => h) ?_
  rintro _ m ⟨hinv, rfl⟩
  refine ⟨_, hinv, Moves.of_update (.inr (by rw [hheld]; rfl)) (.inl rfl), fun x n hx => ?_, rfl⟩
  by_cases hxr : x = page
  · subst hxr
    rw [update_self] at hx
    cases hx
  · rw [update_of_ne hxr] at hx
    exact hkernel x n hx

end Xv6.Vm
