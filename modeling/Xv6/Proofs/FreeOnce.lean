import Xv6.Proofs.UserCopies

/-! `proc_freepagetable` gives back the pages of an address space and the pages of its page table, every one once and no other. -/

namespace Xv6.Vm

open Prog Radix List

variable {C : Prop} {M : PageMap} {a o : Owner} {g g' : Pages} {p : Slot} {q : Proc} {s t u : State} {root level pref pos x : ℕ}

/-! ### The calls of kfree -/

/-- From `s` to `t` the pages `xs` were freed one after the other, each with the holder it had then, and no page was taken. -/
def FreedIn (s t : State) (xs : List (ℕ × Option Owner)) : Prop :=
  t.actor = s.actor ∧ t.trace = s.trace ++ xs.map (fun v => .freed s.actor v.1 v.2) ∧
    (∀ x, t.holder x = if x ∈ xs.map Prod.fst then none else s.holder x) ∧
    ((∀ v ∈ xs, v.2 = some s.actor) → (xs.map Prod.fst).Nodup ∧ ∀ x ∈ xs.map Prod.fst, s.holder x = some s.actor)

def Freeing (s t : State) : Prop := ∃ xs, FreedIn s t xs

theorem Freeing.refl (s : State) : Freeing s s :=
  ⟨[], rfl, by simp, fun _ => rfl, fun _ => ⟨nodup_nil, nofun⟩⟩

/-- A page that was freed has no holder, so it is not freed again for one who holds it. -/
theorem Freeing.trans (s t u : State) (h : Freeing s t) (h' : Freeing t u) : Freeing s u := by
  obtain ⟨xs, hactor, htrace, hholder, hgood⟩ := h
  obtain ⟨ys, hactor', htrace', hholder', hgood'⟩ := h'
  rw [hactor] at hactor' htrace' hgood'
  refine ⟨xs ++ ys, hactor', ?_, fun x => ?_, fun hall => ?_⟩
  · rw [htrace', htrace, map_append, append_assoc]
  · rw [hholder', hholder, map_append]
    by_cases hy : x ∈ ys.map Prod.fst
    · rw [if_pos hy, if_pos (mem_append_right _ hy)]
    · rw [if_neg hy]
      simp only [mem_append, hy, or_false]
  · obtain ⟨hnodup, hheld⟩ := hgood fun v hv => hall v (mem_append_left _ hv)
    obtain ⟨hnodup', hheld'⟩ := hgood' fun v hv => hall v (mem_append_right _ hv)
    have hnew (x : ℕ) (hy : x ∈ ys.map Prod.fst) : x ∉ xs.map Prod.fst ∧ s.holder x = some s.actor := by
      have hx := hheld' x hy
      rw [hholder] at hx
      split_ifs at hx with hin
      exact ⟨hin, hx⟩
    rw [map_append]
    refine ⟨nodup_append.mpr ⟨hnodup, hnodup', ?_⟩, fun x hx => ?_⟩
    · rintro x hx y hy rfl
      exact (hnew x hy).1 hx
    · rcases mem_append.mp hx with hx | hx
      · exact hheld x hx
      · exact (hnew x hx).2

theorem kfree_freeing (x : ℕ) : Steps Freeing (kfree x) := by
  intro s
  rw [kfree_apply]
  split_ifs
  · refine ⟨[(x, s.holder x)], rfl, rfl, fun y => ?_, fun hall => ?_⟩
    · change Function.update s.holder x none y = _
      rw [Function.update_apply]
      simp
    · have hx := hall _ mem_cons_self
      simpa using hx
  · exact Freeing.refl s

theorem poke_freeing (x : ℕ) (f : PageData → PageData) : Steps Freeing (poke x f) := fun _ =>
  ⟨[], rfl, (append_nil _).symm, fun _ => rfl, fun _ => ⟨nodup_nil, nofun⟩⟩

theorem walkFrom_freeing (va level t : ℕ) : Steps Freeing (walkFrom va false level t) := by
  intro s
  obtain ⟨r, hr⟩ := walkFrom_pure va level t s
  rw [hr]
  exact Freeing.refl s

theorem unmapPte_freeing (t i : ℕ) (doFree : Bool) : Steps Freeing (unmapPte t i doFree) :=
  steps_bind Freeing.trans (steps_gets Freeing.refl _) fun _ =>
    steps_ite (fun _ => steps_fail Freeing.refl _) fun _ => steps_ite (fun _ => steps_fail Freeing.refl _) fun _ =>
      steps_ite (fun _ => steps_bind Freeing.trans (kfree_freeing _) fun _ => poke_freeing _ _) fun _ => poke_freeing _ _

theorem uvmunmapFrom_freeing (root : ℕ) (doFree : Bool) (n va : ℕ) : Steps Freeing (uvmunmapFrom root doFree n va) := by
  induction n generalizing va with
  | zero => exact steps_pure Freeing.refl ()
  | succ n ih =>
    refine steps_bind Freeing.trans (steps_ite (fun _ => steps_fail Freeing.refl _) fun _ => walkFrom_freeing _ _ _) fun r => ?_
    cases r with
    | none => exact steps_fail Freeing.refl _
    | some t => exact steps_bind Freeing.trans (unmapPte_freeing _ _ _) fun _ => ih _

theorem uvmunmap_freeing (root va n : ℕ) (doFree : Bool) : Steps Freeing (uvmunmap root va n doFree) :=
  steps_ite (fun _ => steps_fail Freeing.refl _) fun _ => uvmunmapFrom_freeing _ _ _ _

theorem freewalk_freeing (depth t : ℕ) : Steps Freeing (freewalk depth t) := by
  induction depth generalizing t with
  | zero => exact steps_fail Freeing.refl _
  | succ depth ih =>
    refine steps_bind Freeing.trans (steps_upTo Freeing.refl Freeing.trans (fun i => ?_) 512) fun _ => kfree_freeing t
    refine steps_bind Freeing.trans (steps_gets Freeing.refl _) fun pte => steps_ite (fun _ => ?_) fun _ => ?_
    · exact steps_bind Freeing.trans (ih _) fun _ => poke_freeing _ _
    · exact steps_ite (fun _ => steps_fail Freeing.refl _) fun _ => steps_pure Freeing.refl _

theorem procFreepagetable_freeing (root sz : ℕ) : Steps Freeing (procFreepagetable root sz) := by
  refine steps_bind Freeing.trans (uvmunmap_freeing _ _ _ _) fun _ => steps_bind Freeing.trans (uvmunmap_freeing _ _ _ _) fun _ => ?_
  exact steps_ite (fun _ => steps_bind Freeing.trans (uvmunmap_freeing _ _ _ _) fun _ => freewalk_freeing 3 root)
    fun _ => freewalk_freeing 3 root

/-! ### The pages of an address space -/

/-- A page that counts as a table is reached from the root. -/
theorem Inv.table_reached (h : Inv C ∅ M a g s) (hx : g x = .node o (.table root level pref)) : TablePage s.mem root level x := by
  have hplace : places g x = some (.table root level pref) := Status.place_eq_some.mpr ⟨o, hx⟩
  have hlevel : level ≤ 2 := h.tree.level_le hplace
  clear hx
  -- from the root down
  obtain ⟨k, hk⟩ : ∃ k, level + k = 2 := ⟨2 - level, by omega⟩
  induction k generalizing level pref x with
  | zero =>
    obtain rfl : level = 2 := hk
    rcases h.tree.up x _ hplace with heq | ⟨hbelow, -⟩
    · cases heq
      exact .root
    · exact absurd hbelow (lt_irrefl _)
  | succ k ih =>
    rcases h.tree.up x _ hplace with heq | ⟨-, y, hy, hleads⟩
    · injection heq with _ htop
      have hdepth : sv39.depth = 2 := rfl
      omega
    · have hparent := @ih (level + 1) (pref / 512) y hy (by omega) (by omega)
      have hentry : decode (s.mem y (pref % 512)) = .table x := by
        change Leads (decode (s.mem y (pref % 512))) _ x at hleads
        cases hd : decode (s.mem y (pref % 512)) with
        | table z =>
          rw [hd] at hleads
          rw [show z = x from hleads]
        | empty | leaf z f =>
          rw [hd] at hleads
          exact hleads.elim
      have hv : s.mem y (pref % 512) &&& PTE_V ≠ 0 := by
        intro h0
        rw [decode_empty.mpr h0] at hentry
        cases hentry
      rw [← decode_table_page hentry]
      exact .next hparent (Nat.mod_lt _ (by norm_num)) hv

/-- A page that counts as user memory is mapped at its position. -/
theorem Inv.leaf_mapped (h : Inv True ∅ M a g s) (hx : g x = .node o (.leaf root pos)) :
    ¬ sv39.pinned pos ∧ ∃ f, M root pos = some (x, f) := by
  have hplace : places g x = some (.leaf root pos) := Status.place_eq_some.mpr ⟨o, hx⟩
  rcases h.tree.up x _ hplace with heq | ⟨hpin, y, hy, hleads⟩
  · cases heq
  · refine ⟨hpin, ?_⟩
    cases hd : entry s.mem y (sv39.slot (.leaf root pos)) with
    | leaf z f =>
      rw [hd] at hleads
      obtain rfl : z = x := hleads
      exact ⟨f, h.maps.full trivial _ _ _ _ ⟨y, hy, hd⟩⟩
    | empty | table z =>
      rw [hd] at hleads
      exact hleads.elim

/-- The process has an address space of its own in `s`, and acts. -/
def OwnSpace (s : State) (p : Slot) (q : Proc) : Prop := ∃ M g, Inv True ∅ M (.slot p) g s ∧ Space True M g p q

/-- The user pages below `sz` and the pages of the page table. -/
def State.SpacePage (s : State) (q : Proc) (x : ℕ) : Prop :=
  (∃ va, va < PGROUNDUP q.sz ∧ s.pageAt q.pagetable va = some x) ∨ ∃ level, TablePage s.mem q.pagetable level x

theorem Space.page_iff (hsp : Space True M g p q) (h : Inv True ∅ M (.slot p) g s) :
    s.SpacePage q x ↔ ∃ n, g x = .node (.slot p) n ∧ n.root = q.pagetable := by
  constructor
  · rintro (⟨va, hva, hy⟩ | ⟨level, ht⟩)
    · have hlt := lt_of_lt_of_le hva (PGROUNDUP_le hsp.sz).2.1
      have hunpin := unpinned_below hlt
      rcases @Space.page_status _ _ _ p (fun _ => q) s va hsp h (lt_trans hlt (by norm_num)) x hy with
        ⟨_, hg⟩ | ⟨hpos, _⟩ | ⟨hpos, _⟩
      · exact ⟨_, hg, rfl⟩
      · exact absurd (.inr hpos) hunpin
      · exact absurd (.inl hpos) hunpin
    · obtain ⟨pref, hg⟩ := h.tablePage hsp.root ht
      exact ⟨_, hg, rfl⟩
  · rintro ⟨n, hg, hroot⟩
    cases n with
    | table r level pref =>
      obtain rfl : r = q.pagetable := hroot
      exact .inr ⟨level, h.table_reached hg⟩
    | leaf r pos =>
      obtain rfl : r = q.pagetable := hroot
      obtain ⟨hpin, f, hm⟩ := h.leaf_mapped hg
      have hpos := (hsp.exact_ trivial pos hpin).mp (by rw [hm]; nofun)
      have hva : pos * PGSIZE < PGROUNDUP q.sz := by
        rw [PGROUNDUP_eq hsp.sz]
        exact Nat.mul_lt_mul_of_pos_right hpos (by norm_num)
      have hmax : pos * PGSIZE < MAXVA := lt_trans (lt_of_lt_of_le hva (PGROUNDUP_le hsp.sz).2.1) (by norm_num)
      have hdiv : pos * PGSIZE / PGSIZE = pos := Nat.mul_div_cancel _ (by norm_num)
      obtain ⟨pte, hpte, hpa, -⟩ := h.leaf_some hsp.root hmax (by rw [hdiv]; exact hm)
      refine .inl ⟨pos * PGSIZE, hva, ?_⟩
      rw [State.pageAt, hpte, Option.map_some, hpa]

/-! ### proc_freepagetable -/

/-- The page table and its pages are freed once each, and no other page. -/
theorem freepagetable_once (s : State) (p : Slot) (q : Proc) (h : OwnSpace s p q) :
    ∃ t, ∃ xs : List ℕ, procFreepagetable q.pagetable q.sz s = .ok () t ∧
      t.trace = s.trace ++ xs.map (fun x => .freed (.slot p) x (some (.slot p))) ∧ xs.Nodup ∧ (∀ x, x ∈ xs ↔ s.SpacePage q x) ∧
      q.trapframe ∉ xs ∧ ∀ x, s.pageAt q.pagetable TRAMPOLINE = some x → x ∉ xs := by
  obtain ⟨M, g, hinv, hsp⟩ := h
  obtain ⟨tr, hout, hpins⟩ := hsp.pins
  obtain ⟨_, t, hrun, g', hinv', hwithin, hgone⟩ := (procFreepagetable_spec hsp.sz
    fun hc : True => ⟨hsp.exact_ hc, hpins⟩).returns no_faults (hinv.now hsp.root)
  obtain ⟨vs, -, htrace, hholder, hgood⟩ := (procFreepagetable_freeing q.pagetable q.sz).ok hrun
  rw [hinv.actor] at htrace hgood
  have hall (v : ℕ × Option Owner) (hv : v ∈ vs) : v.2 = some (.slot p) := by
    refine hinv'.good (.freed (.slot p) v.1 v.2) ?_
    rw [htrace]
    exact mem_append_right _ (mem_map_of_mem hv)
  obtain ⟨hnodup, hheld⟩ := hgood hall
  have hmem (x : ℕ) : x ∈ vs.map Prod.fst ↔ s.SpacePage q x := by
    rw [hsp.page_iff hinv]
    constructor
    · intro hx
      have hlost := hholder x
      rw [if_pos hx, hinv'.holder] at hlost
      have hhad := hheld x hx
      rw [hinv.holder] at hhad
      rcases hwithin x with heq | ⟨hfree | hnode, -⟩
      · rw [heq, hhad] at hlost
        cases hlost
      · rw [hfree] at hhad
        cases hhad
      · exact hnode
    · rintro ⟨n, hg, hroot⟩
      by_contra hx
      have hkept := hholder x
      rw [if_neg hx, hinv'.holder, hinv.holder, hg] at hkept
      have hfree : g' x = .free := by
        rcases hwithin x with heq | ⟨-, htied⟩
        · exact hgone x (by rw [heq]; exact .inr ⟨n, hg, hroot⟩)
        · exact hgone x htied
      rw [hfree] at hkept
      cases hkept
  have hapart (x : ℕ) (hx : ∀ n, g x ≠ .node (.slot p) n) : x ∉ vs.map Prod.fst := by
    rw [hmem, hsp.page_iff hinv]
    rintro ⟨n, hg, -⟩
    exact hx n hg
  refine ⟨t, vs.map Prod.fst, hrun, ?_, hnodup, hmem, hapart _ fun n => by rw [hsp.trapframe]; nofun, fun x hx => ?_⟩
  · rw [htrace, map_map]
    congr 1
    exact map_congr_left fun v hv => by rw [Function.comp_apply, ← hall v hv]
  · refine hapart x fun n => ?_
    rcases @Space.page_status _ _ _ p (fun _ => q) s _ hsp hinv (by norm_num) x hx with ⟨hpin, -⟩ | ⟨hpos, -⟩ | ⟨-, hg⟩
    · exact absurd (.inl rfl) hpin
    · exact absurd hpos.symm pins_ne
    · rw [hg]
      nofun

theorem Tidy.ownSpace {m : Machine} (h : Tidy True m) (hp : (m.proc p).pagetable ≠ 0) :
    OwnSpace { m.vm with actor := .slot p } p (m.proc p) := by
  obtain ⟨M, g, ⟨a, hinv⟩, hall⟩ := h
  exact ⟨M, g, hinv.acting (.slot p), hall.space hp⟩

theorem freepagetable_once_grown : ∃ k, SpaceRun.kernelRun smallKernel (fun _ _ => 0) grown = some k ∧
    ∃ t, ∃ xs : List ℕ,
      procFreepagetable (k.machine.proc 0).pagetable (k.machine.proc 0).sz { k.machine.vm with actor := .slot 0 } = .ok () t ∧
      xs.Nodup ∧ ∀ x, x ∈ xs ↔ State.SpacePage { k.machine.vm with actor := .slot 0 } (k.machine.proc 0) x := by
  obtain ⟨k, hk, hp⟩ := grown_runs
  obtain ⟨t, xs, hok, -, hnodup, hmem, -⟩ :=
    freepagetable_once _ 0 (k.machine.proc 0) ((tidy_kernelRun hk).2.ownSpace hp)
  exact ⟨k, hk, t, xs, hok, hnodup, hmem⟩

end Xv6.Vm
