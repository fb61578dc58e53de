import Mathlib

/-! Radix trees kept in numbered pages. A page of a tree has a place in it: it is the
table of some level for all positions with a given prefix, or the leaf of one
position. `Tree` ties the places to the entries stored in the tables, in both
directions, so that every page has one place and every place one page. Entries in
`D` are being taken down and are exempt. -/

namespace Radix

open Function

inductive Entry where
  | empty
  | table (y : ℕ)
  | leaf (y flags : ℕ)
  deriving DecidableEq

/-- A place in the tree with the given root page. -/
inductive Node where
  | table (root level pref : ℕ)
  | leaf (root pos : ℕ)
  deriving DecidableEq

def Node.root : Node → ℕ
  | .table root _ _ => root
  | .leaf root _ => root

/-- The fan-out, the level of the root, and the positions whose leaves belong to nobody
in the tree, with what may stand there. -/
structure Shape where
  fan : ℕ
  fanPos : 0 < fan
  depth : ℕ
  pinned : ℕ → Prop
  pin : ℕ → ℕ → Prop

/-- The entry leads from the parent of the place `n` to the page `y`. -/
def Leads : Entry → Node → ℕ → Prop
  | .table y', .table _ _ _, y => y' = y
  | .leaf y' _, .leaf _ _, y => y' = y
  | _, _, _ => False

variable {e : Entry} {n : Node} {y : ℕ}

theorem Leads.unique {z : ℕ} (hy : Leads e n y) (hz : Leads e n z) : y = z := by
  cases e <;> cases n <;> simp_all [Leads]

theorem Leads.ne_empty (h : Leads e n y) : e ≠ .empty := by
  rintro rfl
  cases n <;> exact h

/-- One entry replaced. -/
def setEntry (entry : ℕ → ℕ → Entry) (x i : ℕ) (e : Entry) : ℕ → ℕ → Entry :=
  fun x' i' => if x' = x ∧ i' = i then e else entry x' i'

@[simp] theorem setEntry_same (entry : ℕ → ℕ → Entry) (x i : ℕ) (e : Entry) : setEntry entry x i e x i = e := by
  simp [setEntry]

theorem setEntry_other {entry : ℕ → ℕ → Entry} {x i x' i' : ℕ} (h : ¬ (x' = x ∧ i' = i)) :
    setEntry entry x i e x' i' = entry x' i' := by
  simp [setEntry, h]

namespace Shape

variable (T : Shape)

/-- The place below `n` at index `i`. -/
def child : Node → ℕ → Node
  | .table root (level + 1) pref, i => .table root level (pref * T.fan + i)
  | .table root 0 pref, i => .leaf root (pref * T.fan + i)
  | .leaf root pos, _ => .leaf root pos

def parent : Node → Node
  | .table root level pref => .table root (level + 1) (pref / T.fan)
  | .leaf root pos => .table root 0 (pos / T.fan)

def slot : Node → ℕ
  | .table _ _ pref => pref % T.fan
  | .leaf _ pos => pos % T.fan

/-- A place that is not the root's and whose page the tree keeps track of. -/
def Below : Node → Prop
  | .table _ level _ => level < T.depth
  | .leaf _ pos => ¬ T.pinned pos

theorem slot_lt (n : Node) : T.slot n < T.fan := by
  cases n <;> exact Nat.mod_lt _ T.fanPos

theorem child_parent (n : Node) : T.child (T.parent n) (T.slot n) = n := by
  cases n <;> simp [child, parent, slot, Nat.div_add_mod']

variable {i : ℕ}

theorem parent_child (root level pref : ℕ) (hi : i < T.fan) :
    T.parent (T.child (.table root level pref) i) = .table root level pref := by
  cases level <;> simp [child, parent, Nat.add_div T.fanPos, Nat.mul_div_cancel _ T.fanPos,
    Nat.div_eq_of_lt hi, Nat.mod_eq_of_lt hi, hi]

theorem slot_child (root level pref : ℕ) (hi : i < T.fan) :
    T.slot (T.child (.table root level pref) i) = i := by
  cases level <;> simp [child, slot, Nat.mod_eq_of_lt hi]

end Shape

/-- What a table entry at the place `n` may be: nothing, or a pinned leaf at a pinned
position, or a link to the page that has the place `n`. -/
def Shape.Fits (T : Shape) (node : ℕ → Option Node) (n : Node) (e : Entry) : Prop :=
  e = .empty ∨ (∃ root pos y f, n = .leaf root pos ∧ T.pinned pos ∧ e = .leaf y f ∧ T.pin y f) ∨
    (T.Below n ∧ ∃ y, Leads e n y ∧ node y = some n)

structure Tree (T : Shape) (D : Set (ℕ × ℕ)) (entry : ℕ → ℕ → Entry) (node : ℕ → Option Node) : Prop where
  down : ∀ x root level pref i, node x = some (.table root level pref) → i < T.fan → (x, i) ∉ D →
    T.Fits node (T.child (.table root level pref) i) (entry x i)
  up : ∀ y n, node y = some n → n = .table y T.depth 0 ∨
    (T.Below n ∧ ∃ x, node x = some (T.parent n) ∧ Leads (entry x (T.slot n)) n y)

namespace Tree

variable {T : Shape} {D D' : Set (ℕ × ℕ)} {entry entry' : ℕ → ℕ → Entry} {node : ℕ → Option Node}

theorem mono (h : Tree T D entry node) (hD : D ⊆ D') : Tree T D' entry node :=
  ⟨fun x root level pref i hx hi hout => h.down x root level pref i hx hi (fun hin => hout (hD hin)), h.up⟩

/-- What pages outside every tree hold does not matter. -/
theorem congr (h : Tree T D entry node) (heq : ∀ x n i, node x = some n → entry' x i = entry x i) :
    Tree T D entry' node := by
  constructor
  · intro x root level pref i hx hi hout
    rw [heq x _ i hx]
    exact h.down x root level pref i hx hi hout
  · intro y n hy
    rcases h.up y n hy with hroot | ⟨hbelow, x, hx, hleads⟩
    · exact .inl hroot
    · exact .inr ⟨hbelow, x, hx, by rwa [heq x _ _ hx]⟩

variable {x root level pref y z i : ℕ} {n : Node} {e : Entry}

theorem level_le (h : Tree T D entry node) (hx : node x = some (.table root level pref)) :
    level ≤ T.depth := by
  rcases h.up x _ hx with hroot | ⟨hbelow, _⟩
  · cases hroot
    exact le_rfl
  · exact le_of_lt hbelow

/-- Every place has at most one page. -/
theorem table_unique (h : Tree T D entry node) {k : ℕ} (hk : level + k = T.depth)
    (hy : node y = some (.table root level pref)) (hz : node z = some (.table root level pref)) : y = z := by
  induction k generalizing level pref y z with
  | zero =>
    have hroot : ∀ w, node w = some (.table root level pref) → w = root := by
      intro w hw
      rcases h.up w _ hw with heq | ⟨hbelow, _⟩
      · cases heq
        rfl
      · have hlt : level < T.depth := hbelow
        omega
    rw [hroot y hy, hroot z hz]
  | succ k ih =>
    have hparent : ∀ w, node w = some (.table root level pref) →
        ∃ x, node x = some (.table root (level + 1) (pref / T.fan)) ∧ entry x (pref % T.fan) = .table w := by
      intro w hw
      rcases h.up w _ hw with heq | ⟨_, x, hx, hleads⟩
      · cases heq
        omega
      · refine ⟨x, hx, ?_⟩
        change Leads (entry x (pref % T.fan)) _ w at hleads
        cases he : entry x (pref % T.fan) <;> simp_all [Leads]
    obtain ⟨x, hx, hxy⟩ := hparent y hy
    obtain ⟨x', hx', hxz⟩ := hparent z hz
    rw [ih (by omega) hx hx', hxz] at hxy
    cases hxy
    rfl

theorem unique (h : Tree T D entry node) (hy : node y = some n) (hz : node z = some n) :
    y = z := by
  have htable : ∀ root level pref y z, node y = some (.table root level pref) →
      node z = some (.table root level pref) → y = z := by
    intro root level pref y z hy hz
    obtain ⟨k, hk⟩ := Nat.exists_eq_add_of_le (h.level_le hy)
    exact h.table_unique hk.symm hy hz
  cases n with
  | table root level pref => exact htable root level pref y z hy hz
  | leaf root pos =>
    rcases h.up y _ hy with heq | ⟨_, x, hx, hleads⟩
    · cases heq
    · rcases h.up z _ hz with heq | ⟨_, x', hx', hleads'⟩
      · cases heq
      · have hxx := htable _ _ _ x x' hx hx'
        subst hxx
        exact hleads.unique hleads'

/-- A page at a place has pages at all places above it. -/
theorem ancestor (h : Tree T D entry node) (hx : node x = some (.table root level pref)) (k : ℕ)
    (hk : level + k ≤ T.depth) : ∃ z, node z = some (.table root (level + k) (pref / T.fan ^ k)) := by
  induction k with
  | zero => exact ⟨x, by simpa using hx⟩
  | succ k ih =>
    obtain ⟨z, hz⟩ := ih (by omega)
    rcases h.up z _ hz with hroot | ⟨_, t, ht, _⟩
    · injection hroot
      omega
    · refine ⟨t, ?_⟩
      rw [ht, Shape.parent, Nat.div_div_eq_div_mul, ← pow_succ, Nat.add_assoc]

/-- A page of a tree shows that the root is there. -/
theorem rooted (h : Tree T D entry node) (hy : node y = some n) :
    node n.root = some (.table n.root T.depth 0) := by
  have htable : ∀ root level pref y, node y = some (.table root level pref) →
      node root = some (.table root T.depth 0) := by
    intro root level pref y hy
    obtain ⟨k, hk⟩ := Nat.exists_eq_add_of_le (h.level_le hy)
    obtain ⟨z, hz⟩ := h.ancestor hy k hk.ge
    rw [← hk] at hz
    rcases h.up z _ hz with heq | ⟨hbelow, _⟩
    · rw [heq] at hz
      injection heq with hroot
      rwa [hroot]
    · exact absurd hbelow (lt_irrefl _)
  cases n with
  | table root level pref => exact htable root level pref y hy
  | leaf root pos =>
    rcases h.up y _ hy with heq | ⟨_, x, hx, _⟩
    · cases heq
    · exact htable root 0 _ x hx

/-- The page `x` has no page below it. -/
def Bare (T : Shape) (entry : ℕ → ℕ → Entry) (x : ℕ) : Prop := ∀ i, i < T.fan → entry x i = .empty

theorem fits_update (v : Option Node) (h : T.Fits node n e)
    (hy : ∀ m, node y = some m → T.Below m → Leads e m y → m = n → False) :
    T.Fits (update node y v) n e := by
  rcases h with he | hpin | ⟨hbelow, z, hleads, hz⟩
  · exact .inl he
  · exact .inr (.inl hpin)
  · refine .inr (.inr ⟨hbelow, z, hleads, ?_⟩)
    have hne : z ≠ y := by
      rintro rfl
      exact hy n hz hbelow hleads rfl
    rwa [update_of_ne hne]

/-- A bare page becomes the root of a tree of its own. -/
theorem plant (h : Tree T D entry node) {r : ℕ} (hr : node r = none) (hbare : Bare T entry r) :
    Tree T D entry (update node r (some (.table r T.depth 0))) := by
  constructor
  · intro x root level pref i hx hi hout
    by_cases hxr : x = r
    · subst hxr
      exact .inl (hbare i hi)
    · rw [update_of_ne hxr] at hx
      refine fits_update _ (h.down x root level pref i hx hi hout) (fun m hm => ?_)
      rw [hr] at hm
      cases hm
  · intro y n hy
    by_cases hyr : y = r
    · subst hyr
      rw [update_self] at hy
      cases hy
      exact .inl rfl
    · rw [update_of_ne hyr] at hy
      rcases h.up y n hy with hroot | ⟨hbelow, x, hx, hleads⟩
      · exact .inl hroot
      · refine .inr ⟨hbelow, x, ?_, hleads⟩
        have hxr : x ≠ r := ne_of_apply_ne node (by simp [hr, hx])
        rwa [update_of_ne hxr]

section

variable (h : Tree T D entry node) (hx : node x = some (.table root level pref)) (hi : i < T.fan)

include h hx hi

/-- A page outside every tree is linked into an empty entry. -/
theorem link (hempty : entry x i = .empty) (hy : node y = none) (hbare : level ≠ 0 → Bare T entry y)
    (hbelow : T.Below (T.child (.table root level pref) i)) (hleads : Leads e (T.child (.table root level pref) i) y) :
    Tree T D (setEntry entry x i e) (update node y (some (T.child (.table root level pref) i))) := by
  have hxy : x ≠ y := ne_of_apply_ne node (by simp [hy, hx])
  constructor
  · intro x' root' level' pref' i' hx' hi' hout
    by_cases hxy' : x' = y
    · subst hxy'
      rw [update_self] at hx'
      have hlevel : level ≠ 0 := by
        rintro rfl
        simp [Shape.child] at hx'
      rw [setEntry_other (fun hc => hxy hc.1.symm)]
      exact .inl (hbare hlevel i' hi')
    · rw [update_of_ne hxy'] at hx'
      by_cases hsame : x' = x ∧ i' = i
      · obtain ⟨rfl, rfl⟩ := hsame
        rw [hx] at hx'
        cases hx'
        rw [setEntry_same]
        exact .inr (.inr ⟨hbelow, y, hleads, by rw [update_self]⟩)
      · rw [setEntry_other hsame]
        refine fits_update _ (h.down x' root' level' pref' i' hx' hi' hout) (fun m hm => ?_)
        rw [hy] at hm
        cases hm
  · intro z n hz
    by_cases hzy : z = y
    · subst hzy
      rw [update_self] at hz
      cases hz
      refine .inr ⟨hbelow, x, ?_, ?_⟩
      · rw [update_of_ne hxy, T.parent_child _ _ _ hi, hx]
      · rwa [T.slot_child _ _ _ hi, setEntry_same]
    · rw [update_of_ne hzy] at hz
      rcases h.up z n hz with hroot | ⟨hbelow', x', hx', hleads'⟩
      · exact .inl hroot
      · refine .inr ⟨hbelow', x', ?_, ?_⟩
        · have hne : x' ≠ y := ne_of_apply_ne node (by simp [hy, hx'])
          rwa [update_of_ne hne]
        · rw [setEntry_other]
          · exact hleads'
          · rintro ⟨rfl, rfl⟩
            exact hleads'.ne_empty hempty

/-- An entry changes that no page hangs from, before or after. -/
theorem set_loose
    (hnone : ∀ y, node y = some (T.child (.table root level pref) i) → Leads (entry x i) (T.child (.table root level pref) i) y →
      Leads e (T.child (.table root level pref) i) y)
    (hfits : T.Fits node (T.child (.table root level pref) i) e) (hD : D ⊆ insert (x, i) D') :
    Tree T D' (setEntry entry x i e) node := by
  constructor
  · intro x' root' level' pref' i' hx' hi' hout
    by_cases hsame : x' = x ∧ i' = i
    · obtain ⟨rfl, rfl⟩ := hsame
      rw [hx] at hx'
      cases hx'
      rwa [setEntry_same]
    · rw [setEntry_other hsame]
      refine h.down x' root' level' pref' i' hx' hi' (fun hin => ?_)
      rcases hD hin with heq | hin
      · exact hsame ⟨congrArg Prod.fst heq, congrArg Prod.snd heq⟩
      · exact hout hin
  · intro y n hy
    rcases h.up y n hy with hroot | ⟨hbelow, x', hx', hleads⟩
    · exact .inl hroot
    · refine .inr ⟨hbelow, x', hx', ?_⟩
      by_cases hsame : x' = x ∧ T.slot n = i
      · obtain ⟨rfl, rfl⟩ := hsame
        have hn : T.child (.table root level pref) (T.slot n) = n := by
          rw [hx] at hx'
          rw [Option.some.inj hx', T.child_parent]
        rw [hn] at hnone
        rw [setEntry_same]
        exact hnone y hy hleads
      · rwa [setEntry_other hsame]

end

/-- A page with nothing below it leaves its tree; its parent's entry is being taken down. -/
theorem drop (h : Tree T D entry node) (hy : node y = some n)
    (hbare : ∀ root level pref, n = .table root level pref → Bare T entry y)
    (hD : ∀ x, node x = some (T.parent n) → (x, T.slot n) ∈ D) :
    Tree T D entry (update node y none) := by
  constructor
  · intro x root level pref i hx hi hout
    have hxy : x ≠ y := by
      rintro rfl
      rw [update_self] at hx
      cases hx
    rw [update_of_ne hxy] at hx
    refine fits_update _ (h.down x root level pref i hx hi hout) (fun m hm _ _ hmn => hout ?_)
    rw [hy] at hm
    cases hm
    have hin := hD x
    rw [hmn, T.parent_child _ _ _ hi, T.slot_child _ _ _ hi] at hin
    exact hin hx
  · intro z m hz
    have hzy : z ≠ y := by
      rintro rfl
      rw [update_self] at hz
      cases hz
    rw [update_of_ne hzy] at hz
    rcases h.up z m hz with hroot | ⟨hbelow, x, hx, hleads⟩
    · exact .inl hroot
    · refine .inr ⟨hbelow, x, ?_, hleads⟩
      have hxy : x ≠ y := by
        rintro rfl
        have hn : n = T.parent m := Option.some.inj (hy.symm.trans hx)
        cases m with
        | table root level pref | leaf root pos => exact hleads.ne_empty (hbare _ _ _ hn _ (T.slot_lt _))
      rwa [update_of_ne hxy]

end Tree

/-- The tree maps the position to the page `y`, with the flags `f`. -/
def Present (T : Shape) (entry : ℕ → ℕ → Entry) (node : ℕ → Option Node) (root pos y f : ℕ) : Prop :=
  ∃ x, node x = some (.table root 0 (pos / T.fan)) ∧ entry x (pos % T.fan) = .leaf y f

section Present

variable {T : Shape} {D : Set (ℕ × ℕ)} {entry entry' : ℕ → ℕ → Entry} {node : ℕ → Option Node} {root pos y f : ℕ}

theorem present_congr (heq : ∀ x level pref i, node x = some (.table root level pref) → entry' x i = entry x i) :
    Present T entry' node root pos y f ↔ Present T entry node root pos y f := by
  constructor
  · rintro ⟨x, hx, he⟩
    exact ⟨x, hx, by rwa [← heq x _ _ _ hx]⟩
  · rintro ⟨x, hx, he⟩
    exact ⟨x, hx, by rwa [heq x _ _ _ hx]⟩

variable {r z pref i x level : ℕ} {e : Entry}

/-- A page becomes or ceases to be part of a tree, with nothing in it as a lowest table. -/
theorem present_update {v : Option Node} (hold : ∀ pref, node r = some (.table root 0 pref) → Tree.Bare T entry r)
    (hnew : ∀ pref, v = some (.table root 0 pref) → Tree.Bare T entry r) :
    Present T entry (update node r v) root pos y f ↔ Present T entry node root pos y f := by
  have hne {x : ℕ} (he : entry x (pos % T.fan) = .leaf y f) (hbare : x = r → Tree.Bare T entry r) : x ≠ r := by
    rintro rfl
    rw [hbare rfl _ (Nat.mod_lt _ T.fanPos)] at he
    cases he
  constructor
  · rintro ⟨x, hx, he⟩
    have hxr := hne he fun h => hnew _ (by rw [← hx, h, update_self])
    exact ⟨x, by rwa [update_of_ne hxr] at hx, he⟩
  · rintro ⟨x, hx, he⟩
    have hxr := hne he fun h => hold _ (h ▸ hx)
    exact ⟨x, by rwa [update_of_ne hxr], he⟩

/-- The position of an entry in a lowest table. -/
theorem pos_eq (hi : i < T.fan) : pos / T.fan = pref ∧ pos % T.fan = i ↔ pos = pref * T.fan + i := by
  constructor
  · rintro ⟨rfl, rfl⟩
    exact (Nat.div_add_mod' pos T.fan).symm
  · rintro rfl
    constructor
    · rw [Nat.add_comm, Nat.add_mul_div_right _ _ T.fanPos, Nat.div_eq_of_lt hi, Nat.zero_add]
    · rw [Nat.add_comm, Nat.add_mul_mod_self_right, Nat.mod_eq_of_lt hi]

theorem Tree.present_set (h : Tree T D entry node) (hx : node x = some (.table r level pref)) (hi : i < T.fan) :
    Present T (setEntry entry x i e) node root pos y f ↔
      if level = 0 ∧ root = r ∧ pos = pref * T.fan + i then e = .leaf y f else Present T entry node root pos y f := by
  split_ifs with hc
  · obtain ⟨rfl, rfl, hpos⟩ := hc
    obtain ⟨hpref, hpi⟩ := (pos_eq hi).mpr hpos
    rw [← hpref] at hx
    constructor
    · rintro ⟨t, ht, he⟩
      rwa [h.unique ht hx, hpi, setEntry_same] at he
    · rintro rfl
      exact ⟨x, hx, by rw [hpi, setEntry_same]⟩
  · have hother : ∀ t, node t = some (.table root 0 (pos / T.fan)) → ¬ (t = x ∧ pos % T.fan = i) := by
      rintro t ht ⟨rfl, hpi⟩
      rw [hx] at ht
      cases ht
      exact hc ⟨rfl, rfl, (pos_eq hi).mp ⟨rfl, hpi⟩⟩
    constructor
    · rintro ⟨t, ht, he⟩
      exact ⟨t, ht, by rwa [setEntry_other (hother t ht)] at he⟩
    · rintro ⟨t, ht, he⟩
      exact ⟨t, ht, by rwa [setEntry_other (hother t ht)]⟩

end Present

/-! ### The map a tree stands for -/

/-- For every root and position the page there, with its flags. -/
abbrev PageMap := ℕ → ℕ → Option (ℕ × ℕ)

def Entry.target : Entry → Option (ℕ × ℕ)
  | .leaf y f => some (y, f)
  | _ => none

theorem Entry.target_eq_some {f : ℕ} : e.target = some (y, f) ↔ e = .leaf y f := by
  cases e <;> simp [Entry.target]

namespace PageMap

variable (M : PageMap) (root : ℕ)

def set (pos : ℕ) (v : Option (ℕ × ℕ)) : PageMap := fun r p => if r = root ∧ p = pos then v else M r p

/-- Nothing is mapped from `lo` to `hi` any more. -/
def cut (lo hi : ℕ) : PageMap := fun r p => if r = root ∧ lo ≤ p ∧ p < hi then none else M r p

def clear : PageMap := fun r p => if r = root then none else M r p

variable {M root}

@[simp] theorem set_self (pos : ℕ) (v : Option (ℕ × ℕ)) : M.set root pos v root pos = v := by
  simp [set]

variable {r p lo hi : ℕ}

theorem set_other {pos : ℕ} {v : Option (ℕ × ℕ)} (h : ¬ (r = root ∧ p = pos)) : M.set root pos v r p = M r p := by
  rw [set, if_neg h]

theorem cut_empty (h : hi ≤ lo) : M.cut root lo hi = M := by
  funext r p
  rw [cut, if_neg]
  omega

theorem cut_other (h : ¬ (r = root ∧ lo ≤ p ∧ p < hi)) : M.cut root lo hi r p = M r p := by
  rw [cut, if_neg h]

theorem cut_set (h : lo < hi) : (M.set root lo none).cut root (lo + 1) hi = M.cut root lo hi := by
  funext r p
  by_cases hr : r = root
  · subst hr
    by_cases hp : p = lo
    · subst hp
      simp [cut, set, h]
    · have hiff : lo + 1 ≤ p ↔ lo ≤ p := by omega
      simp [cut, set, hp, hiff]
  · simp [cut, set, hr]

theorem cut_set_last {n : ℕ} (hn : M root n = none) (hle : lo ≤ n) (v : Option (ℕ × ℕ)) :
    (M.set root n v).cut root lo (n + 1) = M.cut root lo n := by
  funext r p
  by_cases hp : r = root ∧ p = n
  · obtain ⟨rfl, rfl⟩ := hp
    simp [cut, hle, hn]
  · rw [cut, cut, set_other hp]
    refine if_congr ?_ rfl rfl
    omega

@[simp] theorem clear_set (pos : ℕ) (v : Option (ℕ × ℕ)) : (M.set root pos v).clear root = M.clear root := by
  funext r p
  by_cases hr : r = root <;> simp [clear, set, hr]

@[simp] theorem clear_cut (lo hi : ℕ) : (M.cut root lo hi).clear root = M.clear root := by
  funext r p
  by_cases hr : r = root <;> simp [clear, cut, hr]

theorem clear_eq (h : ∀ p, M root p = none) : M.clear root = M := by
  funext r p
  by_cases hr : r = root
  · simp [clear, hr, h]
  · simp [clear, hr]

theorem clear_other (h : r ≠ root) : M.clear root r = M r := by
  funext p
  rw [clear, if_neg h]

end PageMap

/-- The tree maps what `M` says, and if `C` holds, nothing else. -/
structure Maps (C : Prop) (T : Shape) (M : PageMap) (entry : ℕ → ℕ → Entry) (node : ℕ → Option Node) : Prop where
  sound : ∀ root pos y f, M root pos = some (y, f) → Present T entry node root pos y f
  full : C → ∀ root pos y f, Present T entry node root pos y f → M root pos = some (y, f)

namespace Maps

variable {C : Prop} {T : Shape} {M : PageMap} {D : Set (ℕ × ℕ)} {entry entry' : ℕ → ℕ → Entry}
  {node node' : ℕ → Option Node} {x i root level pref pos y f : ℕ} {e : Entry}

section

variable (h : Maps C T M entry node)

include h

theorem congr (hiff : ∀ root pos y f, Present T entry' node' root pos y f ↔ Present T entry node root pos y f) :
    Maps C T M entry' node' :=
  ⟨fun root pos y f hm => (hiff root pos y f).mpr (h.sound root pos y f hm),
    fun hC root pos y f hp => h.full hC root pos y f ((hiff root pos y f).mp hp)⟩

/-- What the map says of a position stands in its table. -/
theorem entry_eq (ht : Tree T D entry node)
    (hx : node x = some (.table root 0 (pos / T.fan))) (hm : M root pos = some (y, f)) :
    entry x (pos % T.fan) = .leaf y f := by
  obtain ⟨z, hz, he⟩ := h.sound root pos y f hm
  rwa [ht.unique hz hx] at he

theorem none_of_empty (ht : Tree T D entry node)
    (hx : node x = some (.table root 0 (pos / T.fan))) (hempty : entry x (pos % T.fan) = .empty) :
    M root pos = none := by
  cases hm : M root pos with
  | none => rfl
  | some v =>
    have he := h.entry_eq ht hx hm
    rw [hempty] at he
    cases he

/-- A page that no tree has a root in maps nothing. -/
theorem none_of_rootless (hroot : ∀ x n, node x = some n → n.root ≠ root) :
    M root pos = none := by
  cases hm : M root pos with
  | none => rfl
  | some v =>
    obtain ⟨x, hx, _⟩ := h.sound root pos v.1 v.2 hm
    exact absurd rfl (hroot x _ hx)

end

variable {z : ℕ}

section

variable (h : Maps C T M entry node)

include h

theorem set_table (ht : Tree T D entry node)
    (hx : node x = some (.table root (level + 1) pref)) (hi : i < T.fan) : Maps C T M (setEntry entry x i e) node := by
  refine h.congr fun r p y f => ?_
  rw [ht.present_set hx hi, if_neg (by simp)]

theorem set_leaf (ht : Tree T D entry node) (hx : node x = some (.table root 0 pref)) (hi : i < T.fan) :
    Maps C T (M.set root (pref * T.fan + i) e.target) (setEntry entry x i e) node := by
  have hiff : ∀ r p y f, Present T (setEntry entry x i e) node r p y f ↔
      if r = root ∧ p = pref * T.fan + i then e = .leaf y f else Present T entry node r p y f := by
    intro r p y f
    rw [ht.present_set hx hi]
    simp
  constructor
  · intro r p y f hm
    rw [hiff]
    split_ifs with hc
    · obtain ⟨rfl, rfl⟩ := hc
      rw [PageMap.set_self] at hm
      exact Entry.target_eq_some.mp hm
    · rw [PageMap.set_other hc] at hm
      exact h.sound r p y f hm
  · intro hC r p y f hp
    rw [hiff] at hp
    split_ifs at hp with hc
    · obtain ⟨rfl, rfl⟩ := hc
      rw [PageMap.set_self]
      exact Entry.target_eq_some.mpr hp
    · rw [PageMap.set_other hc]
      exact h.full hC r p y f hp

theorem link_table (ht : Tree T D entry node) (hx : node x = some (.table root (level + 1) pref)) (hi : i < T.fan)
    (hz : node z = none) (hbare : Tree.Bare T entry z) :
    Maps C T M (setEntry entry x i e) (update node z (some (T.child (.table root (level + 1) pref) i))) := by
  refine (h.set_table ht hx hi).congr fun r p y f => present_update (fun _ h => by simp [hz] at h) fun _ _ j hj => ?_
  have hxz : x ≠ z := ne_of_apply_ne node (by simp [hx, hz])
  rw [setEntry_other fun hc => hxz hc.1.symm]
  exact hbare j hj

theorem link_leaf (ht : Tree T D entry node) (hx : node x = some (.table root 0 pref)) (hi : i < T.fan)
    (hz : node z = none) :
    Maps C T (M.set root (pref * T.fan + i) e.target) (setEntry entry x i e)
      (update node z (some (T.child (.table root 0 pref) i))) :=
  (h.set_leaf ht hx hi).congr fun r p y f => present_update (fun _ h => by simp [hz] at h) fun _ h => by cases h

end

end Maps

end Radix
