import Xv6.Proofs.UserCopies
import Xv6.Spec.Snapshot

/-! `fork` copies the parent's memory page by page into fresh pages. -/

namespace Xv6.Vm

open Prog Radix Function

variable {C : Prop} {M M' : PageMap} {a o : Owner} {g g' : Pages} {p q r np : Slot} {m m' : Machine} {s t : State} {root va : ℕ}

/-! ### A call of fork that succeeds -/

/-- The slot as `allocproc` leaves it. -/
def allocated (v : Proc) (tf pt copy : ℕ) : Proc :=
  { v with state := .used, trapframe := tf, pagetable := pt, trapframeCopy := copy }

theorem allocprocAt_some (h : allocprocAt q m = .ok (some np) m') : np = q ∧ ∃ tf s₁ pt s₂ copy s₃,
    kalloc { m.vm with actor := .slot q } = .ok tf s₁ ∧ tf ≠ 0 ∧ procPagetable tf s₁ = .ok pt s₂ ∧ pt ≠ 0 ∧
      kalloc s₂ = .ok copy s₃ ∧ copy ≠ 0 ∧
      m' = { m with vm := s₃, proc := update m.proc q (allocated (m.proc q) tf pt copy) } := by
  unfold allocprocAt at h
  obtain ⟨_, m₁, h₁, h⟩ := bind_eq_ok.mp h
  cases h₁
  obtain ⟨_, m₂, h₂, h⟩ := bind_eq_ok.mp h
  cases h₂
  obtain ⟨tf, m₃, h₃, h⟩ := bind_eq_ok.mp h
  obtain ⟨s₁, hk, rfl⟩ := lift_eq_ok.mp h₃
  obtain ⟨_, m₄, h₄, h⟩ := bind_eq_ok.mp h
  cases h₄
  have hnone {x : ProcM Unit} {u : Machine} : (x >>= fun _ => pure none) u ≠ .ok (some np) m' := by
    intro heq
    obtain ⟨_, _, _, hend⟩ := bind_eq_ok.mp heq
    cases hend
  by_cases h0 : tf = 0
  · rw [if_pos h0] at h
    exact absurd h hnone
  rw [if_neg h0] at h
  obtain ⟨pt, m₅, h₅, h⟩ := bind_eq_ok.mp h
  obtain ⟨s₂, hpt, rfl⟩ := lift_eq_ok.mp h₅
  obtain ⟨_, m₆, h₆, h⟩ := bind_eq_ok.mp h
  cases h₆
  by_cases hp0 : pt = 0
  · rw [if_pos hp0] at h
    exact absurd h hnone
  rw [if_neg hp0] at h
  obtain ⟨copy, m₇, h₇, h⟩ := bind_eq_ok.mp h
  obtain ⟨s₃, hcopy, rfl⟩ := lift_eq_ok.mp h₇
  obtain ⟨_, m₈, h₈, h⟩ := bind_eq_ok.mp h
  cases h₈
  by_cases hc0 : copy = 0
  · rw [if_pos hc0] at h
    cases h
  rw [if_neg hc0] at h
  cases h
  refine ⟨rfl, tf, s₁, pt, s₂, copy, s₃, hk, h0, hpt, hp0, hcopy, hc0, ?_⟩
  simp only [update_self, update_idem]
  rfl

/-- The child's trapframe page. -/
def childFrame (src dst : PageData) : PageData := setWord 14 0 fun j => if j < 36 then src j else dst j

/-- The machine after `uvmcopy` has gone well. -/
def forked (m₁ : Machine) (p np : Slot) (s₂ : State) : Machine where
  vm := { s₂ with
    mem := setPage s₂.mem (m₁.proc np).trapframe (childFrame (s₂.mem (m₁.proc p).trapframe) (s₂.mem (m₁.proc np).trapframe)) }
  proc := Function.update m₁.proc np { m₁.proc np with sz := (m₁.proc p).sz, parent := some p, state := .runnable }
  initproc := m₁.initproc

theorem fork_some (h : fork p m = .ok (some np) m') : (m.proc np).state = .unused ∧ ∃ m₁ s₂,
    allocprocAt np m = .ok (some np) m₁ ∧
      uvmcopy (m₁.proc p).pagetable (m₁.proc np).pagetable (m₁.proc p).sz m₁.vm = .ok true s₂ ∧
      m' = forked m₁ p np s₂ := by
  unfold fork at h
  obtain ⟨r, m₁, halloc, h⟩ := bind_eq_ok.mp h
  cases r with
  | none => cases h
  | some q =>
    have hsome : (m.proc q).state = .unused ∧ allocprocAt q m = .ok (some q) m₁ := by
      unfold allocproc at halloc
      obtain ⟨c, u, hget, halloc⟩ := bind_eq_ok.mp halloc
      cases hget
      cases hfind : m.findUnused with
      | none =>
        rw [hfind] at halloc
        cases halloc
      | some c =>
        rw [hfind] at halloc
        obtain rfl := (allocprocAt_some halloc).1
        exact ⟨by simpa using List.find?_some hfind, halloc⟩
    obtain ⟨parent, u, hget, h⟩ := bind_eq_ok.mp h
    cases hget
    obtain ⟨child, u, hget, h⟩ := bind_eq_ok.mp h
    cases hget
    obtain ⟨ok, u, hlift, h⟩ := bind_eq_ok.mp h
    obtain ⟨s₂, hcopy, rfl⟩ := lift_eq_ok.mp hlift
    cases ok with
    | false =>
      rw [if_neg (by simp)] at h
      obtain ⟨_, _, _, hend⟩ := bind_eq_ok.mp h
      cases hend
    | true =>
      rw [if_pos rfl] at h
      cases h
      refine ⟨hsome.1, m₁, s₂, hsome.2, hcopy, ?_⟩
      simp only [update_self, update_idem, setPage_setPage, setPage_self, forked]
      rfl

/-! ### The new slot -/

/-- An empty address space for the slot has been made out of free pages. -/
structure NewSpace (M : PageMap) (g : Pages) (w : ℕ → PageData) (q : Slot) (tf pt t : ℕ) (M' : PageMap) (g' : Pages) (s : State) :
    Prop where
  inv : Inv True ∅ M' (.slot q) g' s
  moves : Moves (.slot q) M g M' g'
  root : g' pt = .node (.slot q) (.table pt 2 0)
  pins : Pins M' pt (t, tf)
  outside : g' t = .outside
  empty : Exact M' pt 0
  trapframe : g' tf = .held (.slot q)
  fresh : g tf = .free
  kept : ∀ y, g y ≠ .free → s.mem y = w y ∧ g' y = g y ∧ ¬ Tied (.slot q) pt (g' y)

theorem allocprocAt_space (h : allocprocAt q m = .ok (some np) m') (hinv : Inv True ∅ M a g m.vm) :
    ∃ tf pt copy t M' g', m'.proc = update m.proc q (allocated (m.proc q) tf pt copy) ∧
      NewSpace M g m.vm.mem q tf pt t M' g' m'.vm := by
  obtain ⟨-, tf, s₁, pt, s₂, copy, s₃, hk, h0, hpt, hp0, hcopy, hc0, rfl⟩ := allocprocAt_some h
  have hstart := hinv.acting (.slot q)
  -- the trapframe page
  obtain ⟨htf, hinv₁⟩ := (kalloc_spec.ok hstart hk).resolve_left fun h => h0 h.1
  have hmem₁ (y : ℕ) (hy : g y ≠ .free) : s₁.mem y = m.vm.mem y := by
    have hframe := kalloc_frames hy _ hstart
    rwa [hk] at hframe
  have hg₁ (y : ℕ) (hy : g y ≠ .free) : update g tf (.held (.slot q)) y ≠ .free := by
    rwa [update_hand_eq htf hy]
  -- the page table
  have hlt := (hinv₁.page_lt (show update g tf (.held (.slot q)) tf ≠ .outside by simp)).2
  have hmade := (procPagetable_spec hlt).ok hinv₁ hpt
  rw [Made, if_neg hp0] at hmade
  obtain ⟨hfresh, t, hout, g₂, hinv₂, hwithin, hroot⟩ := hmade
  have hmem₂ (y : ℕ) (hy : g y ≠ .free) : s₂.mem y = s₁.mem y := by
    have hframe := procPagetable_frames hlt (hg₁ y hy) _ hinv₁.weaken
    rwa [hpt] at hframe
  have hsteady : Steady (.slot q) M (update g tf (.held (.slot q))) (withPins M pt t tf) g₂ :=
    hwithin.steady (.inl hfresh.1) fun r hr => withPins_other M t tf hr
  -- the copy page
  obtain ⟨hcfree, hinv₃⟩ := (kalloc_spec.ok hinv₂ hcopy).resolve_left fun h => hc0 h.1
  have hkeep (y : ℕ) (hy : g y ≠ .free) : g₂ y = g y ∧ ¬ Tied (.slot q) pt (g₂ y) := by
    obtain ⟨heq, htied⟩ := hwithin.untied (hfresh.untied (hg₁ y hy))
    exact ⟨heq.trans (update_hand_eq htf hy _), htied⟩
  have hmem₃ (y : ℕ) (hy : g y ≠ .free) : s₃.mem y = s₂.mem y := by
    have hframe := kalloc_frames (by rw [(hkeep y hy).1]; exact hy) _ hinv₂
    rwa [hcopy] at hframe
  have htf₂ : g₂ tf = .held (.slot q) := hsteady.held _ _ (update_self ..)
  refine ⟨tf, pt, copy, t, _, _, rfl, hinv₃, ?_, ?_, pins_withPins M pt t tf, ?_, exact_withPins hfresh.2.2 t tf, ?_, htf,
    fun y hy => ⟨(hmem₃ y hy).trans ((hmem₂ y hy).trans (hmem₁ y hy)), ?_⟩⟩
  · exact ((Moves.of_update (.inl htf) (.inr rfl)).trans hsteady.toMoves).trans
      (Moves.of_update (.inl hcfree) (.inr rfl))
  · rw [update_hand_eq hcfree (by simp [hroot]), hroot]
  · have hout₂ := hsteady.outside hout
    rw [update_hand_eq hcfree (by simp [hout₂]), hout₂]
  · rw [update_hand_eq hcfree (by simp [htf₂]), htf₂]
  · rw [update_hand_eq hcfree (by rw [(hkeep y hy).1]; exact hy)]
    exact hkeep y hy

/-! ### The copied memory -/

variable {g₀ : Pages} {k : ℕ × ℕ} {old new sz : ℕ} {k' : SpaceRun} {e : KernelOp} {oom : List Bool}

section

variable (hinv : Inv True ∅ M a g₀ s) (hold : g₀ old = .node o (.table old 2 0))
  (hnew : g₀ new = .node a (.table new 2 0))

include hinv hold hnew

/-- The parent's memory has been copied into the new address space. -/
theorem uvmcopy_copies (hne : old ≠ new) (hpins : Pins M new k)
    (hsz : sz ≤ TRAPFRAME) (hsrc : ∀ pos, pos < pageCount sz → M old pos ≠ none) (hcopy : uvmcopy old new sz s = .ok true t) :
    (∀ y, ¬ Tied a new (g₀ y) → t.mem y = s.mem y) ∧
      ∀ va, va < PGROUNDUP sz → ∃ pte, t.leaf new va = some pte ∧
        ∀ v, M old (va / PGSIZE) = some v → t.mem (PTE2PA pte) = s.mem v.1 := by
  let D : ℕ → PageData := fun pos => ((M old pos).map fun v => s.mem v.1).getD fun _ => 0
  have hD (pos : ℕ) (v : ℕ × ℕ) (hv : M old pos = some v) : D pos = s.mem v.1 := by
    change ((M old pos).map fun v => s.mem v.1).getD _ = _
    rw [hv]
    rfl
  have hcount : pagesFrom 0 sz = pageCount sz := pagesFrom_zero hsz
  have hend : 0 + pagesFrom 0 sz * PGSIZE ≤ TRAPFRAME := by
    rw [hcount, Nat.zero_add, ← PGROUNDUP_eq hsz]
    exact (PGROUNDUP_le hsz).2.1
  have hstart : Now False M a new g₀ s ∧ Stocked M a new g₀ s.mem D 0 (0 / PGSIZE) s := by
    refine ⟨hinv.weaken.now hnew, fun _ _ => rfl, fun pos _ hlt => ?_⟩
    rw [Nat.zero_div] at hlt
    exact absurd hlt (Nat.not_lt_zero pos)
  have hloop := @uvmcopyFrom_stocked M a o g₀ k 0 s.mem D old new hold hne (pagesFrom 0 sz) 0 hpins hend (by norm_num) hD
    fun pos _ hlt => by
      rw [Nat.zero_div, Nat.zero_add, hcount] at hlt
      exact hsrc pos hlt
  obtain ⟨M', hnow, hstock⟩ := hloop.ok hstart hcopy rfl
  refine ⟨hstock.1, fun va hva => ?_⟩
  have hpos : va / PGSIZE < 0 / PGSIZE + pagesFrom 0 sz := by
    rw [Nat.zero_div, Nat.zero_add, hcount]
    exact lt_pageCount hsz hva
  have hmax : va < MAXVA := lt_trans (lt_of_lt_of_le hva (PGROUNDUP_le hsz).2.1) (by norm_num)
  obtain ⟨pte, hpte, hdata⟩ := hstock.leaf hnow hmax (Nat.zero_le _) hpos
  exact ⟨pte, hpte, fun v hv => hdata.trans (hD _ v hv)⟩

/-- The same, in the map. -/
theorem uvmcopy_map (hne : old ≠ new) (hpins : Pins M new k)
    (hsz : sz ≤ TRAPFRAME) (hempty : Exact M new 0) (hsrc : ∀ pos, pos < pageCount sz → M old pos ≠ none)
    (hcopy : uvmcopy old new sz s = .ok true t) : ∃ M' g', Inv True ∅ M' a g' t ∧ Within a new g₀ g' ∧
      g' new = .node a (.table new 2 0) ∧ (∀ r, r ≠ new → M' r = M r) ∧ Pins M' new k ∧ Exact M' new (pageCount sz) ∧
      ∀ va v, va < PGROUNDUP sz → M old (va / PGSIZE) = some v →
        ∃ y, M' new (va / PGSIZE) = some (y, v.2) ∧ t.mem y = s.mem v.1 := by
  have hspec := (uvmcopy_spec hold hne hpins hsz fun _ => ⟨hempty, hsrc⟩).ok (hinv.now hnew) hcopy
  rw [if_pos rfl] at hspec
  obtain ⟨M', hext, g', hinv', hwithin, hroot⟩ := hspec
  refine ⟨M', g', hinv', hwithin, hroot, fun r hr => hext.elsewhere hr, hpins.extend hext, hempty.extend hext (Nat.zero_le _),
    fun va v hva hv => ?_⟩
  have hpos := lt_pageCount hsz hva
  have hmax : va < MAXVA := lt_trans (lt_of_lt_of_le hva (PGROUNDUP_le hsz).2.1) (by norm_num)
  obtain ⟨y, f, hy, hf⟩ := hext.new _ (Nat.zero_le _) hpos
  obtain ⟨pte, hpte, hdata⟩ := (uvmcopy_copies hinv hold hnew hne hpins hsz hsrc hcopy).2 va hva
  obtain ⟨pte', hpte', rfl, -, -⟩ := hinv'.leaf_some hroot hmax hy
  rw [hpte] at hpte'
  cases hpte'
  exact ⟨_, by rw [hy, hf v hv], hdata v hv⟩

end

/-! ### fork -/

/-- What a successful `fork` leaves: the child's address space is in place, its pages are copies of the parent's, and no page in
use was written to. -/
structure ForkedSpace (M : PageMap) (g : Pages) (m m' : Machine) (p np : Slot) (M' : PageMap) (g' : Pages) : Prop where
  inv : Inv True ∅ M' (.slot np) g' m'.vm
  moves : Moves (.slot np) M g M' g'
  space : Space True M' g' np (m'.proc np)
  proc : m'.proc = Function.update m.proc np (m'.proc np)
  sz : (m'.proc np).sz = (m.proc p).sz
  kept : ∀ y, g y ≠ .free → m'.vm.mem y = m.vm.mem y
  copied : ∀ va v, va < PGROUNDUP (m.proc p).sz → M (m.proc p).pagetable (va / PGSIZE) = some v →
    ∃ y, M' (m'.proc np).pagetable (va / PGSIZE) = some (y, v.2) ∧ m'.vm.mem y = m.vm.mem v.1
  frame : ∃ d, m'.vm.mem (m'.proc np).trapframe = childFrame (m.vm.mem (m.proc p).trapframe) d

theorem fork_space (hfork : fork p m = .ok (some np) m') (hne : p ≠ np) (hinv : Inv True ∅ M a g m.vm)
    (hsp : Space True M g p (m.proc p)) : ∃ M' g', ForkedSpace M g m m' p np M' g' := by
  obtain ⟨-, m₁, s₂, halloc, hcopy, rfl⟩ := fork_some hfork
  obtain ⟨tf, pt, copy, t, M₁, g₁, hproc, hnew⟩ := allocprocAt_space halloc hinv
  have howner : (Owner.slot p) ≠ .slot np := by simpa using hne
  have hparent := hsp.other hnew.moves howner
  have hmap := hnew.moves.maps _ _ _ hsp.root howner
  have hp : m₁.proc p = m.proc p := by rw [hproc, update_of_ne hne]
  have hpt : (m₁.proc np).pagetable = pt := by rw [hproc, update_self]; rfl
  have htf : (m₁.proc np).trapframe = tf := by rw [hproc, update_self]; rfl
  have hroots : (m.proc p).pagetable ≠ pt := by
    intro heq
    have hroot := hparent.root
    rw [heq, hnew.root] at hroot
    injection hroot with hslot
    exact howner hslot.symm
  have hsrc (pos : ℕ) (hpos : pos < pageCount (m.proc p).sz) : M₁ (m.proc p).pagetable pos ≠ none :=
    (hparent.exact_ trivial pos (unpinned_of_lt (lt_of_lt_of_le hpos (Nat.div_le_div_right (PGROUNDUP_le hsp.sz).2.1)))).mpr hpos
  rw [hp, hpt] at hcopy
  obtain ⟨M₂, g₂, hinv₂, hwithin, hroot, hmaps, hpins, hexact, hcopied⟩ :=
    uvmcopy_map hnew.inv hparent.root hnew.root hroots hnew.pins hsp.sz hnew.empty hsrc hcopy
  have hkept := (uvmcopy_copies hnew.inv hparent.root hnew.root hroots hnew.pins hsp.sz hsrc hcopy).1
  have hsteady : Steady (.slot np) M₁ g₁ M₂ g₂ := hwithin.steady (.inr ⟨_, hnew.root, rfl⟩) hmaps
  have htf₂ : g₂ tf = .held (.slot np) := hsteady.held _ _ hnew.trapframe
  have hkeep (y : ℕ) (hy : g y ≠ .free) : s₂.mem y = m.vm.mem y :=
    (hkept y (hnew.kept y hy).2.2).trans (hnew.kept y hy).1
  have hframe (y : ℕ) (hy : y ≠ tf) : (forked m₁ p np s₂).vm.mem y = s₂.mem y := by
    rw [forked, htf]
    exact if_neg hy
  have hchild : (forked m₁ p np s₂).proc np = { m₁.proc np with sz := (m.proc p).sz, parent := some p, state := .runnable } := by
    rw [← hp]
    exact update_self ..
  refine ⟨M₂, g₂, ?_, hnew.moves.trans hsteady.toMoves, ?_, ?_, by rw [hchild], fun y hy => ?_, fun va v hva hv => ?_, ?_⟩
  · rw [forked, htf]
    exact hinv₂.setPage (by rw [htf₂]; simp [Status.Plain]) _
  · rw [hchild]
    refine ⟨?_, ⟨t, hsteady.outside hnew.outside, ?_⟩, fun _ => ?_, hsp.sz, ?_⟩
    · rwa [hpt]
    · rwa [hpt, htf]
    · rwa [hpt]
    · rwa [htf]
  · change update m₁.proc np _ = update m.proc np (update m₁.proc np _ np)
    rw [update_self, hproc, update_idem]
  · rw [hframe y fun heq => hy (heq ▸ hnew.fresh), hkeep y hy]
  · obtain ⟨y, hy, hdata⟩ := hcopied va v hva (by rwa [hmap])
    have hlt := lt_of_lt_of_le hva (PGROUNDUP_le hsp.sz).2.1
    have hunpin := unpinned_below hlt
    have hyt : y ≠ tf := by
      rintro rfl
      obtain ⟨o, ho⟩ := Status.place_eq_some.mp (hinv₂.mapped_page hunpin hy)
      rw [htf₂] at ho
      cases ho
    have hsource : g v.1 ≠ .free := by
      obtain ⟨x, f⟩ := v
      obtain ⟨o, ho⟩ := Status.place_eq_some.mp (hinv.mapped_page hunpin hv)
      simp [ho]
    refine ⟨y, by rwa [hchild, hpt], ?_⟩
    rw [hframe y hyt, hdata]
    exact (hnew.kept _ hsource).1
  · refine ⟨s₂.mem tf, ?_⟩
    rw [hchild, ← hkeep _ (by simp [hsp.trapframe]), ← hp, ← htf]
    exact if_pos rfl

theorem ForkedSpace.snapshot (h : ForkedSpace M g m m' p np M' g') (hne : p ≠ np) (hinv : Inv True ∅ M a g m.vm)
    (hsp : Space True M g p (m.proc p)) : Snapshot m m' p np := by
  have howner : (Owner.slot p) ≠ .slot np := by simpa using hne
  refine ⟨h.sz, by rw [h.proc, update_of_ne hne], fun va hva => ?_, fun j hj => ?_⟩
  · have hlt := lt_of_lt_of_le hva (PGROUNDUP_le hsp.sz).2.1
    have hmax : va < MAXVA := lt_trans hlt (by norm_num)
    have hunpin := unpinned_below hlt
    have hpos := lt_pageCount hsp.sz hva
    obtain ⟨⟨x, f⟩, hx⟩ := Option.ne_none_iff_exists'.mp ((hsp.exact_ trivial _ hunpin).mpr hpos)
    obtain ⟨y, hy, hdata⟩ := h.copied va (x, f) hva hx
    obtain ⟨pte, hpte, rfl, rfl, -⟩ := hinv.leaf_some hsp.root hmax hx
    obtain ⟨pte', hpte', rfl, hflags, -⟩ := h.inv.leaf_some h.space.root hmax hy
    -- the two pages have different owners
    obtain ⟨o, ho⟩ := Status.place_eq_some.mp (hinv.mapped_page hunpin hx)
    have hold : g (PTE2PA pte) = .node (.slot p) (.leaf (m.proc p).pagetable (va / PGSIZE)) := by
      rw [ho, hinv.same_owner ho hsp.root rfl]
    obtain ⟨o', ho'⟩ := Status.place_eq_some.mp (h.inv.mapped_page hunpin hy)
    have hnew : g' (PTE2PA pte') = .node (.slot np) (.leaf (m'.proc np).pagetable (va / PGSIZE)) := by
      rw [ho', h.inv.same_owner ho' h.space.root rfl]
    have hstill : g' (PTE2PA pte) = g (PTE2PA pte) := h.moves.other howner (by rw [hold]; rfl)
    have hkept := h.kept (PTE2PA pte) (by rw [hold]; nofun)
    refine ⟨pte, pte', hpte, ?_, hpte', hflags, fun heq => ?_, fun k _ => ⟨by rw [hkept], by rw [hdata]⟩⟩
    · rw [hinv.leaf_keep hsp.root (fun y n hy => h.kept y (by rw [hy]; nofun)), hpte]
    · rw [heq, hstill, hold] at hnew
      injection hnew with hslot
      exact howner hslot
  · obtain ⟨d, hd⟩ := h.frame
    rw [hd, childFrame, setWord]
    split_ifs <;> rfl

/-! ### Stores of other processes -/

theorem userStore_kept {pr : Slot → Proc} {w : PageData} {y : ℕ}
    (hroot : g (pr q).pagetable = .node o (.table (pr q).pagetable 2 0)) (hy : ∀ pos, g y ≠ .node o (.leaf (pr q).pagetable pos))
    (va : ℕ) (c : UInt8) : Holds (At (fun s => Inv C ∅ M a g s ∧ contents y s = w) pr) (userStore q va c)
      (fun _ => At (fun s => contents y s = w) pr) (Stops C) := by
  refine getProc_at (holds_ite (fun _ => holds_pure fun m hm => ⟨hm.1.2, hm.2⟩) fun hva => ?_)
  refine holds_bind (lift_at ((walk_look hroot fun _ => not_le.mp hva).frames walk_still w)) fun r => ?_
  cases r with
  | none => exact holds_pure fun m hm => ⟨hm.1.2, hm.2⟩
  | some t =>
    refine at_assume (c := g t.1 = .node o (.table (pr q).pagetable 0 (va / PGSIZE / 512)) ∧ t.2 = PX 0 va)
      (fun s hs => hs.1.2.1 t.1 t.2 rfl) fun ⟨ht, hi⟩ => ?_
    refine holds_bind (lift_at ((readPte_spec t.1 t.2).frames (frames_gets _) w)) fun pte => ?_
    refine holds_ite (fun _ => holds_pure fun m hm => ⟨hm.1.2, hm.2⟩) fun hflags => ?_
    obtain ⟨hv, hrest⟩ := not_or.mp hflags
    obtain ⟨hu, -⟩ := not_or.mp hrest
    refine at_assume (c := y ≠ PTE2PA pte) ?_ fun hne => ?_
    · rintro s ⟨⟨⟨hs, -⟩, rfl⟩, -⟩ rfl
      rw [hi] at hv hu hy
      exact hy _ (hs.user_leaf ht hv hu)
    · exact lift_at (holds_modify fun s hs => (if_neg hne).trans hs.2)

theorem userStore_ok (hinv : Inv True ∅ M a g m.vm) (hsp : Space True M g q (m.proc q)) (va : ℕ) (c : UInt8) :
    ∃ m', userStore q va c m = .ok () m' ∧ m'.proc = m.proc ∧
      ∀ y, (∀ root pos, g y ≠ .node (.slot q) (.leaf root pos)) → m'.vm.mem y = m.vm.mem y := by
  obtain ⟨_, t, hrun, hpost⟩ := (userStore_spec hsp.root va c).returns no_stops ⟨hinv, rfl⟩
  exact ⟨t, hrun, hpost.2, fun y hy => ((userStore_kept hsp.root (hy _) va c).ok ⟨⟨hinv, rfl⟩, rfl⟩ hrun).1⟩

/-- A store by a process goes to one of its own pages. -/
theorem store_kept {k : SpaceRun} (hpanic : k.panic = none)
    (hinv : Inv True ∅ M a g k.machine.vm) (hsp : Space True M g q (k.machine.proc q)) (hq : (k.machine.proc q).pagetable ≠ 0)
    (he : e.StoreBy q) (hstep : SpaceRun.kernelStep k (e, oom) = some k') : k'.machine.proc = k.machine.proc ∧
      ∀ y, (∀ root pos, g y ≠ .node (.slot q) (.leaf root pos)) → k'.machine.vm.mem y = k.machine.vm.mem y := by
  cases e with
  | copyout p dstva src =>
    obtain rfl : p = q := he
    have htable := hinv.userTable hsp.root
    obtain ⟨n, t, hok, ht, hmem⟩ := copyout_step hpanic hq htable dstva src oom
    cases ht.symm.trans hstep
    refine ⟨rfl, fun y hy => (congrFun hmem y).trans (storeBytes_keep id _ _ _ _ fun i hi heq => ?_)⟩
    rw [List.length_take] at hi
    have hpage := (htable.userPage_iff _).mpr (hok.2.1 i (by omega))
    rw [hinv.userPage_eq hsp.root] at heq hpage
    obtain ⟨-, -, -, -, hg⟩ := hinv.mapPage_node hsp.root hpage
    rw [heq] at hg
    exact absurd hg (hy _ _)
  | space e =>
    cases e with
    | store p va c =>
      obtain rfl : p = q := he
      obtain ⟨t, ht, hkept⟩ := @userStore_ok M a g p { k.machine with vm := { k.machine.vm with oom := oom, trace := [] } }
        (hinv.restart oom) hsp va c
      unfold SpaceRun.kernelStep at hstep
      rw [if_neg (by simp [hpanic]), if_pos (show KernelOp.Enabled _ (.space (.store p va c)) from hq),
        show (KernelOp.space (.store p va c)).prog _ = _ from ht] at hstep
      cases hstep
      exact hkept
    | _ => exact he.elim

/-- What another process reads is in pages that the store leaves alone. -/
theorem store_readsSame {k : SpaceRun} (hk : k.panic = none ∧ Tidy True k.machine)
    (hne : q ≠ r) (hq : (k.machine.proc q).pagetable ≠ 0) (hr : (k.machine.proc r).pagetable ≠ 0) (he : e.StoreBy q)
    (hstep : SpaceRun.kernelStep k (e, oom) = some k') : k.machine.ReadsSame k'.machine r := by
  obtain ⟨hpanic, M, g, ⟨a, hinv⟩, hall⟩ := hk
  obtain ⟨hproc, hkept⟩ := store_kept hpanic hinv (hall.space hq) hq he hstep
  have hsp := hall.space hr
  have howner : (Owner.slot r) ≠ .slot q := by simpa using hne.symm
  have hmine (y : ℕ) (n : Node) (hy : g y = .node (.slot r) n) : k'.machine.vm.mem y = k.machine.vm.mem y := by
    refine hkept y fun root pos hg => ?_
    rw [hy] at hg
    injection hg with hslot
    exact howner hslot
  have hleaf := hinv.leaf_keep hsp.root hmine
  intro va
  rw [hproc]
  refine ⟨by unfold State.UserOk; rw [hleaf], fun hok => ?_⟩
  have hpage : k'.machine.vm.userPage (k.machine.proc r).pagetable va = k.machine.vm.userPage (k.machine.proc r).pagetable va := by
    unfold State.userPage
    rw [hleaf]
  have huser := ((hinv.userTable (hall.space hr).root).userPage_iff va).mpr hok
  rw [hinv.userPage_eq hsp.root] at huser
  obtain ⟨-, -, -, -, hg⟩ := hinv.mapPage_node hsp.root huser
  unfold State.userByte
  rw [hpage, hinv.userPage_eq hsp.root, hmine _ _ hg]

theorem Tidy.isolated (h : Tidy True m) : m.Isolated := by
  intro es k hrun q r hne hq hr e oom k' he hstep
  have hk := @System.exec_invariant _ _ SpaceRun.kernelStep (fun k => k.panic = none ∧ Tidy True k.machine) _ ⟨rfl, h⟩
    (fun _ _ _ hk hs => tidy_kernelStep hk hs) es k hrun
  exact store_readsSame hk hne hq hr he hstep

/-- A child has its parent's memory and registers, and from then on no store of one process is seen by another. -/
theorem fork_snapshot (m : Machine) (h : Tidy True m) (p : Slot) (hp : (m.proc p).pagetable ≠ 0)
    (hst : (m.proc p).state ≠ .unused) (np : Slot) (m' : Machine) (hfork : fork p m = .ok (some np) m') :
    Snapshot m m' p np ∧ m'.Isolated := by
  obtain ⟨M, g, ⟨a, hinv⟩, hall⟩ := h
  have hne : p ≠ np := by
    rintro rfl
    exact hst (fork_some hfork).1
  have hsp := hall.space hp
  obtain ⟨M', g', hforked⟩ := fork_space hfork hne hinv hsp
  have htidy : Tidy True m' :=
    Touched.tidy hall ⟨M', g', m'.proc np, hforked.inv, hforked.moves, hforked.proc, .inr hforked.space⟩
  exact ⟨hforked.snapshot hne hinv hsp, htidy.isolated⟩

/-- The process in the first slot runs. -/
def runFirst (m : Machine) : Machine := { m with proc := Function.update m.proc 0 { m.proc 0 with state := .runnable } }

theorem runFirst_first (m : Machine) : (runFirst m).proc 0 = { m.proc 0 with state := .runnable } :=
  update_self (0 : Slot) _ m.proc

theorem Tidy.runFirst (h : Tidy C m) : Tidy C (runFirst m) := by
  obtain ⟨M, g, hinv, hall⟩ := h
  refine ⟨M, g, hinv, hall.kernel, fun q => ?_⟩
  by_cases hq : q = 0
  · subst hq
    rw [runFirst_first]
    exact (hall.slot 0).imp id fun hsp => { hsp with }
  · have hother : (Vm.runFirst m).proc q = m.proc q := update_of_ne hq _ m.proc
    rw [hother]
    exact hall.slot q

theorem fork_snapshot_grown : ∃ k, SpaceRun.kernelRun smallKernel (fun _ _ => 0) grown = some k ∧
    ∃ m', fork 0 (runFirst k.machine) = .ok (some 1) m' ∧ Snapshot (runFirst k.machine) m' 0 1 ∧ m'.Isolated := by
  have hrun : (SpaceRun.kernelRun smallKernel (fun _ _ => 0) grown).map (fun k =>
      (decide (((runFirst k.machine).proc 0).pagetable ≠ 0),
        match fork 0 (runFirst k.machine) with
        | .ok r _ => decide (r = some 1)
        | .fault _ _ => false)) = some (true, true) := by
    rw [SpaceRun.kernelRun, boot_eq]
    decide +kernel
  obtain ⟨k, hk, hout⟩ := Option.map_eq_some_iff.mp hrun
  simp only [Prod.mk.injEq, decide_eq_true_eq] at hout
  obtain ⟨hp, hfork⟩ := hout
  refine ⟨k, hk, ?_⟩
  split at hfork
  · next r m' heq =>
    obtain rfl := of_decide_eq_true hfork
    refine ⟨m', heq, fork_snapshot _ (tidy_kernelRun hk).2.runFirst 0 hp ?_ 1 m' heq⟩
    simp [runFirst_first]
  · cases hfork

end Xv6.Vm
