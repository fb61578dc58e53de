import Xv6.Lib.Chain
import Xv6.Lib.Radix
import Xv6.Spec.Vm

/-! Who holds which page. `Inv` ties an abstract state of every page (free, held, a
place in a page table) to the free list and the page tables in memory; the
specifications of `kalloc.c` and of the page table walks are stated with it. -/

namespace Xv6.Vm

open Prog Radix Function

/-! ### Page table entries -/

theorem and_flags {m : ℕ} (hm : 1023 &&& m = m) (x : ℕ) : x &&& m = x % 2 ^ 10 &&& m := by
  rw [← Nat.and_two_pow_sub_one_eq_mod, Nat.and_assoc, show 2 ^ 10 - 1 &&& m = m from hm]

variable {perm page pte y : ℕ}

theorem pte_eq (page : ℕ) (hperm : perm < 2 ^ 10) :
    PA2PTE page ||| perm ||| PTE_V = page * 2 ^ 10 + (perm ||| PTE_V) := by
  have hlt : perm ||| PTE_V < 2 ^ 10 := Nat.or_lt_two_pow hperm (by norm_num)
  rw [Nat.or_assoc, PA2PTE, ← Nat.shiftLeft_add_eq_or_of_lt hlt, Nat.shiftLeft_eq]

/-- What an entry of a page table says. -/
def decode (pte : ℕ) : Entry :=
  if pte &&& PTE_V = 0 then .empty
  else if pte &&& (PTE_R ||| PTE_W ||| PTE_X) = 0 then .table (PTE2PA pte)
  else .leaf (PTE2PA pte) (PTE_FLAGS pte)

theorem pte_flags (page : ℕ) (hperm : perm < 2 ^ 10) :
    PTE_FLAGS (PA2PTE page ||| perm ||| PTE_V) = perm ||| PTE_V := by
  have hlt : perm ||| PTE_V < 2 ^ 10 := Nat.or_lt_two_pow hperm (by norm_num)
  rw [pte_eq page hperm, PTE_FLAGS]
  omega

theorem pte_page (hpage : page < 2 ^ 52) (hperm : perm < 2 ^ 10) :
    PTE2PA (PA2PTE page ||| perm ||| PTE_V) = page := by
  have hlt : perm ||| PTE_V < 2 ^ 10 := Nat.or_lt_two_pow hperm (by norm_num)
  rw [pte_eq page hperm, PTE2PA]
  omega

theorem decode_pte (hpage : page < 2 ^ 52) (hperm : perm < 2 ^ 10) :
    decode (PA2PTE page ||| perm ||| PTE_V) =
      if perm &&& (PTE_R ||| PTE_W ||| PTE_X) = 0 then .table page else .leaf page (perm ||| PTE_V) := by
  have hv : (PA2PTE page ||| perm ||| PTE_V) &&& PTE_V ≠ 0 := by
    rw [Nat.and_or_distrib_right]
    simp
  have hrwx : (PA2PTE page ||| perm ||| PTE_V) &&& (PTE_R ||| PTE_W ||| PTE_X) =
      perm &&& (PTE_R ||| PTE_W ||| PTE_X) := by
    have hmod := pte_flags page hperm
    rw [PTE_FLAGS] at hmod
    have hv0 : PTE_V &&& (PTE_R ||| PTE_W ||| PTE_X) = 0 := rfl
    rw [and_flags (by decide), hmod, Nat.and_or_distrib_right, hv0, Nat.or_zero]
  rw [decode, if_neg hv, hrwx, pte_page hpage hperm, pte_flags page hperm]

theorem decode_table (hpage : page < 2 ^ 52) : decode (PA2PTE page ||| PTE_V) = .table page := by
  have h := @decode_pte 0 page hpage (by norm_num)
  simpa using h

theorem decode_empty : decode pte = .empty ↔ pte &&& PTE_V = 0 := by
  unfold decode
  split_ifs with h1 h2
  · exact iff_of_true rfl h1
  · exact iff_of_false (by simp) h1
  · exact iff_of_false (by simp) h1

theorem decode_table_page (h : decode pte = .table y) : PTE2PA pte = y := by
  unfold decode at h
  split_ifs at h
  simpa using h

theorem decode_leaf {f : ℕ} (h : decode pte = .leaf y f) : PTE2PA pte = y ∧ PTE_FLAGS pte = f := by
  unfold decode at h
  split_ifs at h
  simpa using h

/-- The entries of all page tables in memory. -/
def entry (mem : ℕ → PageData) : ℕ → ℕ → Entry := fun x i => decode (mem x i)

theorem entry_setWord (mem : ℕ → PageData) (x i v : ℕ) :
    entry (setPage mem x (setWord i v (mem x))) = setEntry (entry mem) x i (decode v) := by
  funext y j
  by_cases hy : y = x
  · subst hy
    by_cases hj : j = i <;> simp [entry, setPage, setWord, setEntry, hj]
  · simp [entry, setPage, setEntry, hy]

theorem entry_setPage {mem : ℕ → PageData} {x : ℕ} (d : PageData) (i : ℕ) (h : y ≠ x) :
    entry (setPage mem x d) y i = entry mem y i := by
  simp [entry, setPage, h]

/-- The page tables of Sv39. The trampoline and the trapframe are mapped, not owned, and
not for the user. -/
def sv39 : Shape where
  fan := 512
  fanPos := by norm_num
  depth := 2
  pinned := fun pos => pos = TRAMPOLINE / PGSIZE ∨ pos = TRAPFRAME / PGSIZE
  pin := fun _ f => f &&& PTE_U = 0

theorem bare_memset (mem : ℕ → PageData) (x : ℕ) : Tree.Bare sv39 (entry (setPage mem x fun _ => 0 * 0x0101010101010101)) x := by
  intro i _
  simp [entry, setPage, decode]

/-! ### The state of a page -/

inductive Status where
  /-- not memory that `kalloc` hands out -/
  | outside
  | free
  | held (o : Owner)
  | node (o : Owner) (n : Node)

namespace Status

def holder : Status → Option Owner
  | .held o => some o
  | .node o _ => some o
  | _ => none

def place : Status → Option Node
  | .node _ n => some n
  | _ => none

/-- Neither on the free list nor part of a page table. -/
def Plain (st : Status) : Prop := st ≠ .free ∧ ∀ o root level pref, st ≠ .node o (.table root level pref)

theorem place_eq_some {st : Status} {n : Node} : st.place = some n ↔ ∃ o, st = .node o n := by
  cases st <;> simp [place]

end Status

/-- What each page is used for. -/
abbrev Pages := ℕ → Status

def places (g : Pages) : ℕ → Option Node := fun x => (g x).place

theorem places_update (g : Pages) (x : ℕ) (st : Status) :
    places (update g x st) = update (places g) x st.place := by
  funext y
  by_cases h : y = x
  · subst h; simp [places]
  · simp [places, h]

/-- An event that does no harm: a page is freed on behalf of its holder, and a slot is
given up only without a `trapframe_copy` page of an earlier life, or when that page
happens to be the trapframe page just handed out. -/
def Event.Good : Event → Prop
  | .freed actor _ holder => holder = some actor
  | .gaveUp _ trapframe copy => copy = 0 ∨ copy = trapframe

def GoodSoFar (s : State) : Prop := ∀ e ∈ s.trace, e.Good

/-- The memory is in the state `g`. Entries in `D` are being taken down; the page tables
map what `M` says, and nothing else where `C` is known. -/
structure Inv (C : Prop) (D : Set (ℕ × ℕ)) (M : PageMap) (a : Owner) (g : Pages) (s : State) : Prop where
  list : ∃ L, Chain.Spells (next s.mem) s.freelist L ∧ L.Nodup ∧ ∀ x, x ∈ L ↔ g x = .free
  range : ∀ x, g x = .outside ↔ ¬ s.layout.Contains x
  holder : ∀ x, s.holder x = (g x).holder
  actor : s.actor = a
  tree : Tree sv39 D (entry s.mem) (places g)
  owner : ∀ x o n, g x = .node o n → ∃ m, g n.root = .node o m
  maps : Maps C sv39 M (entry s.mem) (places g)
  good : GoodSoFar s

/-- How a call may end in a panic: with nothing bad recorded, and not at all if `C`. -/
def Faults (C : Prop) : Panic → State → Prop := fun _ s => GoodSoFar s ∧ ¬ C

theorem no_faults (e : Panic) (s : State) : ¬ Faults True e s := fun h => h.2 trivial

section Basics

variable {C : Prop} {D : Set (ℕ × ℕ)} {M M' : PageMap} {a : Owner} {g : Pages} {s : State}

variable {x y : ℕ}

theorem Inv.contains (h : Inv C D M a g s) (hx : g x ≠ .outside) : s.layout.Contains x := by
  by_contra hc
  exact hx ((h.range x).mpr hc)

theorem Inv.page_lt (h : Inv C D M a g s) (hx : g x ≠ .outside) : 0 < x ∧ x < 2 ^ 52 := by
  have hc := h.contains hx
  have hb := s.layout.trampoline_lt
  refine ⟨by have := hc.1; omega, lt_trans hc.2 (by norm_num)⟩

theorem spells_setPage {mem : ℕ → PageData} {r : ℕ} {L : List ℕ} (h : Chain.Spells (next mem) r L) (hx : x ∉ L)
    (d : PageData) : Chain.Spells (next (setPage mem x d)) r L :=
  h.congr fun y hy => congrArg (· / PGSIZE) (congrFun (if_neg fun heq : y = x => hx (heq ▸ hy)) 0)

/-- Contents of a page that is neither free nor a page table do not matter. -/
theorem Inv.setPage (h : Inv C D M a g s) (hx : (g x).Plain) (d : PageData) :
    Inv C D M a g { s with mem := setPage s.mem x d } := by
  obtain ⟨L, hspell, hnodup, hmem⟩ := h.list
  have htable : ∀ y root level pref i, places g y = some (.table root level pref) →
      entry (Vm.setPage s.mem x d) y i = entry s.mem y i := by
    intro y root level pref i hy
    refine entry_setPage d i ?_
    rintro rfl
    obtain ⟨o, ho⟩ := Status.place_eq_some.mp hy
    exact hx.2 o root level pref ho
  refine ⟨⟨L, ?_, hnodup, hmem⟩, h.range, h.holder, h.actor, ?_, h.owner, ?_, h.good⟩
  · exact spells_setPage hspell (fun hin => hx.1 ((hmem x).mp hin)) d
  · constructor
    · intro y root level pref i hy hi hout
      rw [htable y root level pref i hy]
      exact h.tree.down y root level pref i hy hi hout
    · intro y n hy
      rcases h.tree.up y n hy with hroot | ⟨hbelow, z, hz, hleads⟩
      · exact .inl hroot
      · refine .inr ⟨hbelow, z, hz, ?_⟩
        cases n with
        | table root level pref | leaf root pos => rwa [htable z _ _ _ _ hz]
  · exact h.maps.congr fun root _ _ _ => present_congr fun y level pref i hy => htable y root level pref i hy

theorem poke_spec (hx : (g x).Plain) (f : PageData → PageData) :
    Keeps (Inv C D M a g) (poke x f) (Faults C) :=
  keeps_modify fun s hs => hs.setPage hx (f (s.mem x))

/-- The state after `kfree` of a page in RAM. -/
def State.push (s : State) (x : ℕ) : State where
  layout := s.layout
  mem := Vm.setPage s.mem x (setWord 0 (s.freelist * PGSIZE) fun _ => 1 * 0x0101010101010101)
  freelist := x
  oom := s.oom
  actor := s.actor
  holder := Function.update s.holder x none
  trace := s.trace ++ [.freed s.actor x (s.holder x)]

theorem kfree_apply (x : ℕ) (s : State) :
    kfree x s = if s.layout.Contains x then .ok () (s.push x) else .fault .kfree s := by
  have hpage : ∀ d e : PageData, Vm.setPage (Vm.setPage s.mem x d) x e = Vm.setPage s.mem x e := by
    intro d e
    funext y
    by_cases hy : y = x <;> simp [Vm.setPage, hy]
  have hself : ∀ d : PageData, Vm.setPage s.mem x d x = d := by simp [Vm.setPage]
  by_cases hc : s.layout.Contains x
  · simp [kfree, bind_apply, hc, memset, poke, State.push, hpage, hself]
  · simp [kfree, bind_apply, hc]

theorem Inv.push (h : Inv C D M a g s) (hown : (g x).holder = some a)
    (htree : Tree sv39 D (entry s.mem) (places (update g x .free)))
    (hmaps : Maps C sv39 M (entry s.mem) (places (update g x .free))) :
    Inv C D M a (update g x .free) (s.push x) := by
  obtain ⟨L, hspell, hnodup, hmem⟩ := h.list
  have hxout : g x ≠ .outside := by
    intro hx
    rw [hx] at hown
    cases hown
  have hxL : x ∉ L := by
    intro hx
    rw [(hmem x).mp hx] at hown
    cases hown
  have hentry : ∀ y n i, places (update g x .free) y = some n →
      entry (s.push x).mem y i = entry s.mem y i := by
    intro y n i hy
    refine entry_setPage _ i ?_
    rintro rfl
    simp [places, Status.place] at hy
  refine ⟨⟨x :: L, ?_, ?_, ?_⟩, ?_, ?_, h.actor, htree.congr hentry, ?_, ?_, ?_⟩
  · refine hspell.push (h.page_lt hxout).1.ne' ?_ ?_
    · simp [next, State.push, Vm.setPage, setWord]
    · intro y hy
      have hne : y ≠ x := fun heq => hxL (heq ▸ hy)
      simp [next, State.push, Vm.setPage, hne]
  · exact List.nodup_cons.mpr ⟨hxL, hnodup⟩
  · intro y
    by_cases hy : y = x
    · subst hy; simp
    · simp [hy, hmem y]
  · intro y
    by_cases hy : y = x
    · subst hy
      simpa [State.push] using h.contains hxout
    · simpa [hy, State.push] using h.range y
  · intro y
    by_cases hy : y = x
    · subst hy; simp [State.push, Status.holder]
    · simp [hy, State.push, h.holder y]
  · intro y o n hy
    have hroot := htree.rooted (y := y) (n := n) (by simp [places, hy, Status.place])
    have hyx : y ≠ x := by
      rintro rfl
      simp at hy
    have hrx : n.root ≠ x := by
      rintro hrx
      rw [hrx] at hroot
      simp [places, Status.place] at hroot
    rw [update_of_ne hyx] at hy
    rw [update_of_ne hrx]
    exact h.owner y o n hy
  · exact hmaps.congr fun _ _ _ _ => present_congr fun y _ _ i hy => hentry y _ i hy
  · intro e he
    rcases List.mem_append.mp he with he | he
    · exact h.good e he
    · rw [List.mem_singleton] at he
      subst he
      change s.holder x = some s.actor
      rw [h.holder x, hown, h.actor]

theorem kfree_of_push {P : State → Prop} {Q : Unit → State → Prop} (hx : g x ≠ .outside)
    (hinv : ∀ s, P s → Inv C D M a g s) (hpush : ∀ s, P s → Q () (s.push x)) : Holds P (kfree x) Q (Faults C) := by
  intro s hs
  rw [kfree_apply, if_pos ((hinv s hs).contains hx)]
  exact hpush s hs

theorem places_held {st : Status} (hx : (g x).place = none) (hst : st.place = none) :
    places (update g x st) = places g := by
  rw [places_update, hst]
  exact update_eq_self_iff.mpr hx.symm

theorem kfree_held (hx : g x = .held a) :
    Holds (Inv C D M a g) (kfree x) (fun _ => Inv C D M a (update g x .free)) (Faults C) := by
  refine kfree_of_push (by simp [hx]) (fun _ hs => hs) fun s hs => ?_
  have hplaces : places (update g x .free) = places g := places_held (by simp [hx, Status.place]) rfl
  refine hs.push (by simp [hx, Status.holder]) ?_ ?_
  · rw [hplaces]
    exact hs.tree
  · rw [hplaces]
    exact hs.maps

/-- The state after `kalloc` has handed out the first page of the list. -/
def State.pop (s : State) : State where
  layout := s.layout
  mem := Vm.setPage s.mem s.freelist fun _ => 5 * 0x0101010101010101
  freelist := next s.mem s.freelist
  oom := s.oom.tail
  actor := s.actor
  holder := Function.update s.holder s.freelist (some s.actor)
  trace := s.trace

theorem kalloc_apply (s : State) :
    kalloc s = if s.oom.headD false ∨ s.freelist = 0 then .ok 0 { s with oom := s.oom.tail }
      else .ok s.freelist s.pop := by
  by_cases hc : s.oom.headD false = true ∨ s.freelist = 0
  · simp only [kalloc, bind_apply, gets_apply, modify_apply, if_pos hc]
    rfl
  · simp only [kalloc, bind_apply, gets_apply, modify_apply, if_neg hc]
    rfl

theorem Inv.pop (h : Inv C D M a g s) (hne : s.freelist ≠ 0) :
    g s.freelist = .free ∧ Inv C D M a (update g s.freelist (.held a)) s.pop := by
  obtain ⟨L, hspell, hnodup, hmem⟩ := h.list
  obtain ⟨xs, rfl, hrest⟩ := hspell.pop hne
  have hfree : g s.freelist = .free := (hmem _).mp (by simp)
  have hnot : s.freelist ∉ xs := (List.nodup_cons.mp hnodup).1
  have hplaces : places (update g s.freelist (.held a)) = places g :=
    places_held (by simp [hfree, Status.place]) rfl
  have hentry : ∀ y n i, places g y = some n → entry s.pop.mem y i = entry s.mem y i := by
    intro y n i hy
    refine entry_setPage _ i ?_
    rintro rfl
    simp [places, hfree, Status.place] at hy
  refine ⟨hfree, ⟨xs, ?_, (List.nodup_cons.mp hnodup).2, ?_⟩, ?_, ?_, h.actor, ?_, ?_, ?_, h.good⟩
  · exact spells_setPage hrest hnot _
  · intro y
    by_cases hy : y = s.freelist
    · subst hy; simp [hnot]
    · have := hmem y
      simpa [hy] using this
  · intro y
    by_cases hy : y = s.freelist
    · rw [hy]
      simpa [State.pop] using h.contains (x := s.freelist) (by simp [hfree])
    · simpa [hy, State.pop] using h.range y
  · intro y
    by_cases hy : y = s.freelist
    · subst hy; simp [State.pop, Status.holder, h.actor]
    · simp [hy, State.pop, h.holder y]
  · rw [hplaces]
    exact h.tree.congr hentry
  · intro y o n hy
    have hyne : y ≠ s.freelist := by
      rintro rfl
      simp at hy
    rw [update_of_ne hyne] at hy
    obtain ⟨m, hm⟩ := h.owner y o n hy
    have hrne : n.root ≠ s.freelist := ne_of_apply_ne g (by simp [hfree, hm])
    exact ⟨m, by rw [update_of_ne hrne, hm]⟩
  · rw [hplaces]
    exact h.maps.congr fun _ _ _ _ => present_congr fun y _ _ i hy => hentry y _ i hy

theorem kalloc_spec : Holds (Inv C D M a g) kalloc
    (fun r s => (r = 0 ∧ Inv C D M a g s) ∨ (g r = .free ∧ Inv C D M a (update g r (.held a)) s)) (Faults C) := by
  intro s hs
  rw [kalloc_apply]
  by_cases hc : s.oom.headD false = true ∨ s.freelist = 0
  · rw [if_pos hc]
    exact .inl ⟨rfl, { hs with }⟩
  · rw [if_neg hc]
    exact .inr (hs.pop fun h0 => hc (.inr h0))

/-- A page in hand gets a place in a page table. -/
theorem Inv.place (h : Inv C D M a g s) {n : Node} {mem : ℕ → PageData} (hy : g y = .held a)
    (hlist : ∀ L, Chain.Spells (next s.mem) s.freelist L → (∀ x, x ∈ L ↔ g x = .free) → Chain.Spells (next mem) s.freelist L)
    (hroot : n.root = y ∨ ∃ m, g n.root = .node a m) (htree : Tree sv39 D (entry mem) (update (places g) y (some n)))
    (hmaps : Maps C sv39 M' (entry mem) (update (places g) y (some n))) :
    Inv C D M' a (update g y (.node a n)) { s with mem := mem } := by
  obtain ⟨L, hspell, hnodup, hmem⟩ := h.list
  rw [← show places (update g y (.node a n)) = update (places g) y (some n) from places_update g y _] at htree hmaps
  have hne (z : ℕ) : (update g y (.node a n) z = .free ↔ g z = .free) ∧
      (update g y (.node a n) z = .outside ↔ g z = .outside) ∧ (update g y (.node a n) z).holder = (g z).holder := by
    by_cases hz : z = y
    · subst hz
      simp [hy, Status.holder]
    · simp [hz]
  refine ⟨⟨L, hlist L hspell hmem, hnodup, fun z => (hmem z).trans (hne z).1.symm⟩, fun z => (hne z).2.1.trans (h.range z),
    fun z => (h.holder z).trans (hne z).2.2.symm, h.actor, htree, fun z o m hz => ?_, hmaps, h.good⟩
  have hkeep {o : Owner} {r : ℕ} : (∃ k, g r = .node o k) → ∃ k, update g y (.node a n) r = .node o k := by
    rintro ⟨k, hk⟩
    have hr : r ≠ y := ne_of_apply_ne g (by simp [hk, hy])
    exact ⟨k, by rw [update_of_ne hr, hk]⟩
  by_cases hzy : z = y
  · subst hzy
    rw [update_self] at hz
    cases hz
    rcases hroot with hroot | hroot
    · exact ⟨_, by rw [hroot, update_self]⟩
    · exact hkeep hroot
  · rw [update_of_ne hzy] at hz
    exact hkeep (h.owner z o m hz)

/-- A page in hand is put in a place of a page table by the store to the empty entry. -/
theorem Inv.link (h : Inv C D M a g s) {i v root level pref : ℕ} (hx : g x = .node a (.table root level pref))
    (hi : i < 512) (hempty : entry s.mem x i = .empty) (hy : g y = .held a)
    (hbare : level ≠ 0 → Tree.Bare sv39 (entry s.mem) y)
    (hbelow : sv39.Below (sv39.child (.table root level pref) i))
    (hleads : Leads (decode v) (sv39.child (.table root level pref) i) y)
    (hmaps : Maps C sv39 M' (setEntry (entry s.mem) x i (decode v))
      (update (places g) y (some (sv39.child (.table root level pref) i)))) :
    Inv C D M' a (update g y (.node a (sv39.child (.table root level pref) i)))
      { s with mem := Vm.setPage s.mem x (setWord i v (s.mem x)) } := by
  have hplx : places g x = some (.table root level pref) := by simp [places, hx, Status.place]
  have hply : places g y = none := by simp [places, hy, Status.place]
  have hr : (sv39.child (.table root level pref) i).root = root := by cases level <;> rfl
  rw [← entry_setWord] at hmaps
  refine h.place hy (fun L hspell hmem => ?_) (.inr (by rw [hr]; exact h.owner x a _ hx)) ?_ hmaps
  · exact spells_setPage hspell (fun hin => by simp [(hmem x).mp hin] at hx) _
  · rw [entry_setWord]
    exact h.tree.link hplx hi hempty hply hbare hbelow hleads

/-- All pages of one page table belong to one owner. -/
theorem Inv.same_owner (h : Inv C D M a g s) {o o' : Owner} {n m : Node} (hx : g x = .node o n)
    (hy : g y = .node o' m) (hroot : n.root = m.root) : o = o' := by
  obtain ⟨k, hk⟩ := h.owner x o n hx
  obtain ⟨k', hk'⟩ := h.owner y o' m hy
  rw [hroot, hk'] at hk
  cases hk
  rfl

end Basics

/-! ### walk -/

section Walk

variable {C : Prop} {M : PageMap} {a o : Owner} {g : Pages} {s : State} {root va : ℕ}

theorem PX_lt (level va : ℕ) : PX level va < 512 := Nat.mod_lt _ (by norm_num)

/-- The place below a table on the way to `va`. -/
theorem child_PX (root level va : ℕ) :
    sv39.child (.table root (level + 1) (va / PGSIZE / 512 ^ (level + 2))) (PX (level + 1) va) =
      .table root level (va / PGSIZE / 512 ^ (level + 1)) := by
  have h := Nat.div_add_mod' (va / PGSIZE / 512 ^ (level + 1)) 512
  rw [Nat.div_div_eq_div_mul, ← pow_succ] at h
  simp only [Shape.child, sv39, PX]
  rw [h]

theorem child_PX_zero (root va : ℕ) :
    sv39.child (.table root 0 (va / PGSIZE / 512)) (PX 0 va) = .leaf root (va / PGSIZE) := by
  have h := Nat.div_add_mod' (va / PGSIZE) 512
  simp only [Shape.child, sv39, PX, pow_zero, Nat.div_one]
  rw [h]

variable {x level : ℕ} {g' : Pages}

/-- A valid entry of an upper table leads to the next table. -/
theorem Inv.next_table (h : Inv C ∅ M a g s)
    (hx : g x = .node o (.table root (level + 1) (va / PGSIZE / 512 ^ (level + 2))))
    (hv : s.mem x (PX (level + 1) va) &&& PTE_V ≠ 0) :
    g (PTE2PA (s.mem x (PX (level + 1) va))) = .node o (.table root level (va / PGSIZE / 512 ^ (level + 1))) := by
  have hplace : places g x = some (.table root (level + 1) (va / PGSIZE / 512 ^ (level + 2))) := by
    simp [places, hx, Status.place]
  have hfits := h.tree.down x _ _ _ _ hplace (PX_lt (level + 1) va) (by simp)
  rw [child_PX] at hfits
  rcases hfits with hempty | ⟨r, pos, y, f, hleaf, _⟩ | ⟨_, y, hleads, hy⟩
  · exact absurd (decode_empty.mp hempty) hv
  · cases hleaf
  · have hpage : PTE2PA (s.mem x (PX (level + 1) va)) = y := by
      change Leads (decode (s.mem x (PX (level + 1) va))) _ y at hleads
      cases hd : decode (s.mem x (PX (level + 1) va)) with
      | empty | leaf z f => simp [hd, Leads] at hleads
      | table z => rw [hd] at hleads; exact (decode_table_page hd).trans hleads
    obtain ⟨o', ho'⟩ := Status.place_eq_some.mp hy
    rw [hpage, ho', h.same_owner hx ho' rfl]

/-- Some free pages have become tables of the page table `root`. -/
def Grows (a : Owner) (root : ℕ) (g g' : Pages) : Prop :=
  ∀ x, g' x = g x ∨ (g x = .free ∧ ∃ level pref, g' x = .node a (.table root level pref))

theorem Grows.refl (a : Owner) (root : ℕ) (g : Pages) : Grows a root g g := fun _ => .inl rfl

theorem Grows.keep (h : Grows a root g g') (hx : g x ≠ .free) : g' x = g x := by
  rcases h x with heq | ⟨hfree, _⟩
  · exact heq
  · exact absurd hfree hx

theorem Grows.of_link {y pref : ℕ} (hfree : g y = .free)
    (h : Grows a root (update (update g y (.held a)) y (.node a (.table root level pref))) g') :
    Grows a root g g' := by
  intro x
  by_cases hx : x = y
  · subst hx
    refine .inr ⟨hfree, level, pref, ?_⟩
    rw [h.keep (by simp)]
    simp
  · rcases h x with heq | ⟨hf, hnode⟩
    · exact .inl (by simpa [hx] using heq)
    · exact .inr ⟨by simpa [hx] using hf, hnode⟩

/-- The memory after `walk` has put the first page of the free list below the entry `i` of `x`. -/
def State.hang (s : State) (x i : ℕ) : State :=
  let mem := Vm.setPage s.pop.mem s.freelist fun _ => 0 * 0x0101010101010101
  { s.pop with mem := Vm.setPage mem x (setWord i (PA2PTE s.freelist ||| PTE_V) (mem x)) }

theorem Inv.hang (hs : Inv C ∅ M a g s) (hne : s.freelist ≠ 0) (hlevel : level + 1 ≤ 2)
    (hx : g x = .node a (.table root (level + 1) (va / PGSIZE / 512 ^ (level + 2))))
    (hv : s.mem x (PX (level + 1) va) &&& PTE_V = 0) :
    Inv C ∅ M a (update (update g s.freelist (.held a)) s.freelist
      (.node a (.table root level (va / PGSIZE / 512 ^ (level + 1))))) (s.hang x (PX (level + 1) va)) := by
  obtain ⟨hfree, hpop⟩ := hs.pop hne
  have hplain : (update g s.freelist (.held a) s.freelist).Plain := by simp [Status.Plain]
  have hzero := hpop.setPage hplain fun _ => 0 * 0x0101010101010101
  have hxne : x ≠ s.freelist := ne_of_apply_ne g (by simp [hfree, hx])
  have hempty : entry (Vm.setPage s.pop.mem s.freelist fun _ => 0 * 0x0101010101010101) x (PX (level + 1) va) = .empty := by
    rw [entry_setPage _ _ hxne, State.pop, entry_setPage _ _ hxne]
    exact decode_empty.mpr hv
  have hlt : s.freelist < 2 ^ 52 := (hs.page_lt (by simp [hfree])).2
  have hlink := hzero.link (x := x) (y := s.freelist) (v := PA2PTE s.freelist ||| PTE_V)
    (by rw [update_of_ne hxne]; exact hx) (PX_lt (level + 1) va) hempty
    (by simp) (fun _ => bare_memset _ _) (by rw [child_PX]; exact hlevel)
    (by rw [child_PX, decode_table hlt]; rfl)
    (hzero.maps.link_table hzero.tree (by simp [places, hxne, hx, Status.place]) (PX_lt (level + 1) va)
      (by simp [places, Status.place]) (bare_memset _ _))
  rwa [child_PX] at hlink

theorem walkFrom_alloc (level x : ℕ) (g : Pages) (hlevel : level ≤ 2)
    (hx : g x = .node a (.table root level (va / PGSIZE / 512 ^ (level + 1)))) :
    Holds (Inv C ∅ M a g) (walkFrom va true level x) (fun r s => ∃ g', Inv C ∅ M a g' s ∧ Grows a root g g' ∧
      ∀ t i, r = some (t, i) → g' t = .node a (.table root 0 (va / PGSIZE / 512)) ∧ i = PX 0 va) (Faults C) := by
  induction level generalizing x g with
  | zero =>
    refine holds_pure fun s hs => ⟨g, hs, Grows.refl a root g, ?_⟩
    rintro t i h
    cases h
    exact ⟨by simpa using hx, rfl⟩
  | succ level ih =>
    intro s hs
    simp only [walkFrom, bind_apply, readPte, gets_apply]
    by_cases hv : s.mem x (PX (level + 1) va) &&& PTE_V = 0
    · rw [if_neg (by simpa using hv), if_pos trivial, bind_apply, kalloc_apply]
      by_cases hc : s.oom.headD false = true ∨ s.freelist = 0
      · simp only [if_pos hc, if_true, pure_apply]
        refine ⟨g, { hs with }, Grows.refl a root g, ?_⟩
        rintro t i h
        cases h
      · have hne : s.freelist ≠ 0 := fun h0 => hc (.inr h0)
        simp only [if_neg hc, if_neg hne]
        have hrec := ih s.freelist (update (update g s.freelist (.held a)) s.freelist
          (.node a (.table root level (va / PGSIZE / 512 ^ (level + 1))))) (by omega) (by simp)
        refine holds_conseq hrec (fun _ h => h) ?_ _ (hs.hang hne hlevel hx hv)
        rintro r t ⟨g', hinv, hgrows, hres⟩
        exact ⟨g', hinv, hgrows.of_link (hs.pop hne).1, hres⟩
    · rw [if_pos hv]
      exact ih _ g (by omega) (hs.next_table hx hv) s hs

theorem readPte_spec {P : State → Prop} {E : Panic → State → Prop} (x i : ℕ) :
    Holds P (readPte x i) (fun pte s => P s ∧ pte = s.mem x i) E :=
  holds_read fun s : State => s.mem x i

theorem top_table (h : ¬ MAXVA ≤ va) : va / PGSIZE / 512 ^ 3 = 0 := by
  rw [Nat.div_div_eq_div_mul, Nat.div_eq_of_lt]
  have : (PGSIZE * 512 ^ 3 : ℕ) = 2 * MAXVA := by norm_num
  omega

theorem walk_alloc (hroot : g root = .node a (.table root 2 0)) (hC : C → va < MAXVA) :
    Holds (Inv C ∅ M a g) (walk root va true) (fun r s => ∃ g', Inv C ∅ M a g' s ∧ Grows a root g g' ∧
      ∀ t i, r = some (t, i) → g' t = .node a (.table root 0 (va / PGSIZE / 512)) ∧ i = PX 0 va) (Faults C) := by
  refine holds_ite (fun hva => holds_fail fun s hs => ⟨hs.good, fun hc => absurd (hC hc) (not_lt.mpr hva)⟩) fun hva => ?_
  exact walkFrom_alloc 2 root g le_rfl (by rw [top_table hva]; exact hroot)

/-- A mapped position has tables on all levels. -/
theorem Inv.upper_entry (h : Inv C ∅ M a g s) (hlevel : level + 1 ≤ 2) (hm : M root (va / PGSIZE) ≠ none)
    (hx : g x = .node o (.table root (level + 1) (va / PGSIZE / 512 ^ (level + 2)))) :
    s.mem x (PX (level + 1) va) &&& PTE_V ≠ 0 := by
  obtain ⟨v, hv⟩ := Option.ne_none_iff_exists'.mp hm
  obtain ⟨t, ht, _⟩ := h.maps.sound _ _ v.1 v.2 hv
  obtain ⟨z, hz⟩ := h.tree.ancestor ht level (by simp only [sv39]; omega)
  rw [Nat.zero_add, Nat.div_div_eq_div_mul, ← pow_succ'] at hz
  rcases h.tree.up z _ hz with hroot | ⟨_, x', hx', hleads⟩
  · injection hroot with _ htop
    simp only [sv39] at htop
    omega
  · have hxx : x' = x := by
      refine h.tree.unique hx' ?_
      have hpref : va / PGSIZE / 512 ^ (level + 1) / 512 = va / PGSIZE / 512 ^ (level + 2) := by
        rw [Nat.div_div_eq_div_mul, ← pow_succ]
      simp only [places, hx, Status.place, Shape.parent, sv39, hpref]
    have hslot : sv39.slot (.table root level (va / PGSIZE / sv39.fan ^ (level + 1))) = PX (level + 1) va := rfl
    rw [hxx, hslot] at hleads
    exact fun h0 => hleads.ne_empty (decode_empty.mpr h0)

theorem walkFrom_look (level x : ℕ) (hlevel : level ≤ 2)
    (hx : g x = .node o (.table root level (va / PGSIZE / 512 ^ (level + 1)))) :
    Holds (Inv C ∅ M a g) (walkFrom va false level x) (fun r s => Inv C ∅ M a g s ∧
      (∀ t i, r = some (t, i) → g t = .node o (.table root 0 (va / PGSIZE / 512)) ∧ i = PX 0 va) ∧
      (r = none → M root (va / PGSIZE) = none)) (Faults C) := by
  induction level generalizing x with
  | zero =>
    refine holds_pure fun s hs => ⟨hs, ?_, nofun⟩
    rintro t i h
    cases h
    exact ⟨by simpa using hx, rfl⟩
  | succ level ih =>
    refine holds_bind (readPte_spec x (PX (level + 1) va)) fun pte => ?_
    refine holds_ite (fun hv => ?_) fun hv => ?_
    · refine holds_assume (c := g (PTE2PA pte) = .node o (.table root level (va / PGSIZE / 512 ^ (level + 1)))) ?_ ?_
      · rintro s ⟨hs, rfl⟩
        exact hs.next_table hx hv
      · intro hnext
        exact holds_conseq (ih (PTE2PA pte) (by omega) hnext) (fun s hs => hs.1) fun _ _ h => h
    · refine holds_ite (nofun) fun _ => holds_pure ?_
      rintro s ⟨hs, rfl⟩
      refine ⟨hs, nofun, fun _ => ?_⟩
      by_contra hm
      exact hv (hs.upper_entry hlevel hm hx)

/-- A walk that allocates nothing changes nothing, and it fails only where nothing is mapped. -/
theorem walk_look (hroot : g root = .node o (.table root 2 0)) (hC : C → va < MAXVA) :
    Holds (Inv C ∅ M a g) (walk root va false) (fun r s => Inv C ∅ M a g s ∧
      (∀ t i, r = some (t, i) → g t = .node o (.table root 0 (va / PGSIZE / 512)) ∧ i = PX 0 va) ∧
      (r = none → M root (va / PGSIZE) = none)) (Faults C) := by
  refine holds_ite (fun hva => holds_fail fun s hs => ⟨hs.good, fun hc => absurd (hC hc) (not_lt.mpr hva)⟩) fun hva => ?_
  exact walkFrom_look 2 root le_rfl (by rw [top_table hva]; exact hroot)

end Walk

end Xv6.Vm
