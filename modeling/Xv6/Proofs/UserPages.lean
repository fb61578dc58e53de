import Xv6.Lib.Bytes
import Xv6.Proofs.AddressSpaces
import Xv6.Spec.Copy

/-! The pages of a user, and the stores of `copyout` byte by byte. Its loop, like those of `copyin` and `copyinstr`, goes in
rounds: a round stays in one page, and unless it is the last one it ends with the page. -/

namespace Xv6.Vm

open Prog Radix List

variable {s : State} {root va va' len n m : ℕ}

/-! ### Bytes of a page -/

theorem ofNat_mod (x : ℕ) : UInt8.ofNat (x % 256) = UInt8.ofNat x := UInt8.toNat_inj.mp (by simp)

theorem getByte_putByte (d : PageData) (k : ℕ) (c : UInt8) (i : ℕ) :
    getByte (putByte d k c) i = if i = k then c else getByte d i := by
  have hold : (getByte d k).toNat = d (k / 8) / 256 ^ (k % 8) % 256 := by simp [getByte]
  by_cases hword : i / 8 = k / 8
  · have hdigit := Bytes.digit_replace (d (k / 8)) c.toNat_lt (k % 8) (i % 8)
    have heq : getByte (putByte d k c) i =
        UInt8.ofNat ((d (k / 8) + c.toNat * 256 ^ (k % 8) - d (k / 8) / 256 ^ (k % 8) % 256 * 256 ^ (k % 8)) /
          256 ^ (i % 8) % 256) := by
      unfold getByte putByte setWord
      rw [if_pos hword, hold, ofNat_mod]
    rw [heq, hdigit]
    by_cases hik : i = k
    · rw [if_pos (by rw [hik]), if_pos hik]
      simp
    · rw [if_neg (by omega), if_neg hik, ofNat_mod, ← hword]
      rfl
  · rw [if_neg (fun h => hword (by rw [h]))]
    unfold getByte putByte setWord
    rw [if_neg hword]

/-! ### walkaddr -/

theorem walkaddr_eq (root va : ℕ) (s : State) : walkaddr root va s = .ok (s.userPage root va) s := by
  unfold walkaddr State.userPage
  by_cases hva : MAXVA ≤ va
  · rw [if_pos hva, if_pos hva]
    rfl
  · obtain ⟨r, hr⟩ := walkFrom_pure va 2 root s
    have hwalk : walk root va false s = .ok r s := by
      unfold walk
      rw [if_neg hva, hr]
    rw [if_neg hva, if_neg hva, bind_of_ok hwalk]
    have hleaf : s.leaf root va = match r with
        | none => none
        | some t => if s.mem t.1 t.2 &&& PTE_V = 0 then none else some (s.mem t.1 t.2) := by
      unfold State.leaf leafPte
      rw [bind_of_ok hwalk]
      cases r <;> rfl
    rw [hleaf]
    cases r with
    | none => rfl
    | some t =>
      dsimp only
      unfold readPte
      rw [bind_of_ok (gets_apply _ s)]
      by_cases hv : s.mem t.1 t.2 &&& PTE_V = 0
      · rw [if_pos hv, if_pos hv]
        rfl
      · rw [if_neg hv, if_neg hv]
        dsimp only
        split_ifs <;> rfl

/-! ### Rounds -/

/-- The round of `n` bytes at `va` when `len` bytes are left. -/
structure Round (va len n : ℕ) : Prop where
  pos : 0 < n
  le : n ≤ len
  inside : va % PGSIZE + n ≤ PGSIZE
  last : n = len ∨ va + n = PGROUNDDOWN va + PGSIZE

theorem roundDown_offset (va : ℕ) : va - PGROUNDDOWN va = va % PGSIZE := by
  unfold PGROUNDDOWN PGSIZE
  omega

theorem round_min (hlen : 0 < len) : Round va len (min (PGSIZE - va % PGSIZE) len) := by
  have hoff : va % PGSIZE < PGSIZE := Nat.mod_lt _ (by decide)
  refine ⟨by omega, by omega, by omega, ?_⟩
  rcases Nat.le_total len (PGSIZE - va % PGSIZE) with hle | hle
  · left
    omega
  · right
    have := roundDown_offset va
    have : PGROUNDDOWN va ≤ va := Nat.div_mul_le_self _ _
    omega

variable {i k : ℕ} {p : Slot}

theorem Round.page (h : Round va len n) (hi : i < n) : (va + i) / PGSIZE = va / PGSIZE := by
  have := h.inside
  unfold PGSIZE at *
  omega

theorem Round.offset (h : Round va len n) (hi : i < n) : (va + i) % PGSIZE = va % PGSIZE + i := by
  have := h.inside
  unfold PGSIZE at *
  omega

/-! ### The page of an address -/

section

variable (h : va / PGSIZE = va' / PGSIZE)

include h

theorem walkFrom_va (alloc : Bool) (level t : ℕ) :
    walkFrom va alloc level t = walkFrom va' alloc level t := by
  have hpx (l : ℕ) : PX l va = PX l va' := by
    unfold PX
    rw [h]
  induction level generalizing t with
  | zero => rw [walkFrom, walkFrom, hpx]
  | succ level ih =>
    rw [walkFrom, walkFrom, hpx]
    simp only [ih]

theorem maxva_page : MAXVA ≤ va ↔ MAXVA ≤ va' := by
  unfold MAXVA PGSIZE at *
  omega

theorem leaf_va (s : State) (root : ℕ) : s.leaf root va = s.leaf root va' := by
  unfold State.leaf leafPte walk
  rw [walkFrom_va h]
  simp only [maxva_page h]

theorem userPage_va (s : State) (root : ℕ) : s.userPage root va = s.userPage root va' := by
  unfold State.userPage
  rw [leaf_va h]
  simp only [maxva_page h]

theorem userOk_va (s : State) (root : ℕ) : s.UserOk root va ↔ s.UserOk root va' := by
  unfold State.UserOk
  rw [leaf_va h, ← not_le, ← not_le, maxva_page h]

end

theorem roundDown_page (va : ℕ) : PGROUNDDOWN va / PGSIZE = va / PGSIZE := Nat.mul_div_cancel _ (by decide)

/-- `walkaddr` returns 0 just where the user has no access. -/
theorem UserTable.userPage_iff (h : UserTable s root) (va : ℕ) : s.userPage root va ≠ 0 ↔ s.UserOk root va := by
  unfold State.userPage State.UserOk
  by_cases hva : MAXVA ≤ va
  · rw [if_pos hva]
    simp [hva]
  · rw [if_neg hva]
    cases hleaf : s.leaf root va with
    | none => simp
    | some pte =>
      by_cases hu : pte &&& PTE_U = 0
      · simp [hu]
      · have hpos : PTE2PA pte ≠ 0 := by
          have := (h.ram va pte hleaf hu).1
          have := s.layout.trampoline_lt
          omega
        simp [hu, hpos, not_le.mp hva]

theorem UserTable.noAccess (h : UserTable s root) (hva : s.userPage root va = 0) : ¬s.UserOk root va :=
  fun hok => (h.userPage_iff va).mpr hok hva

theorem Round.userOk (h : Round va len n) (ht : UserTable s root) (hva : s.userPage root va ≠ 0) (hi : i < n) :
    s.UserOk root (va + i) :=
  (userOk_va (h.page hi) s root).mpr ((ht.userPage_iff va).mp hva)

/-- A round, then the rest. -/
theorem Round.okFor (h : Round va len n) (ht : UserTable s root) (hva : s.userPage root va ≠ 0)
    (hrest : s.OkFor root (PGROUNDDOWN va + PGSIZE) (len - n) m) : s.OkFor root va len (n + m) := by
  have hle := h.le
  refine ⟨by have := hrest.1; omega, fun i hi => ?_, fun hlt => ?_⟩
  · rcases Nat.lt_or_ge i n with hin | hin
    · exact h.userOk ht hva hin
    · have hmore : va + n = PGROUNDDOWN va + PGSIZE := by
        rcases h.last with hlast | hlast
        · have := hrest.1
          omega
        · exact hlast
      have hok := hrest.2.1 (i - n) (by omega)
      rwa [← hmore, show va + n + (i - n) = va + i by omega] at hok
  · have hmore : va + n = PGROUNDDOWN va + PGSIZE := by
      rcases h.last with hlast | hlast
      · omega
      · exact hlast
    have hbad := hrest.2.2 (by omega)
    rwa [← hmore, add_assoc] at hbad

theorem okFor_nothing (ht : UserTable s root) (hva : s.userPage root va = 0) : s.OkFor root va len 0 :=
  ⟨Nat.zero_le _, fun _ hi => absurd hi (Nat.not_lt_zero _), fun _ => ht.noAccess hva⟩

/-- The address of the next round does not wrap. -/
theorem next_round (hva : s.userPage root va ≠ 0) : uint64 ((PGROUNDDOWN va : ℕ) + (PGSIZE : ℕ) : ℤ) = PGROUNDDOWN va + PGSIZE := by
  have hmax : va < MAXVA := by
    by_contra hge
    exact hva (if_pos (not_lt.mp hge))
  have : PGROUNDDOWN va ≤ va := Nat.div_mul_le_self _ _
  unfold uint64
  unfold MAXVA at hmax
  unfold PGSIZE
  omega

/-! ### Stores that leave the page table alone -/

section Tables

variable {t : State} (hmem : ∀ level x, TablePage s.mem root level x → t.mem x = s.mem x)

include hmem

theorem walkFrom_tables (va level x : ℕ) (hx : TablePage s.mem root level x) :
    ∃ r, walkFrom va false level x s = .ok r s ∧ walkFrom va false level x t = .ok r t ∧
      ∀ c i, r = some (c, i) → TablePage s.mem root 0 c := by
  induction level generalizing x with
  | zero =>
    refine ⟨_, rfl, rfl, fun c i hc => ?_⟩
    cases hc
    exact hx
  | succ level ih =>
    unfold walkFrom readPte
    rw [bind_of_ok (gets_apply _ s), bind_of_ok (gets_apply _ t), hmem _ x hx]
    by_cases hv : s.mem x (PX (level + 1) va) &&& PTE_V ≠ 0
    · rw [if_pos hv]
      exact ih _ (.next hx (Nat.mod_lt _ (by decide)) hv)
    · rw [if_neg hv]
      exact ⟨none, rfl, rfl, by simp⟩

theorem leaf_tables (va : ℕ) : t.leaf root va = s.leaf root va := by
  unfold State.leaf leafPte walk
  by_cases hva : MAXVA ≤ va
  · rw [if_pos hva]
    rfl
  · rw [if_neg hva]
    obtain ⟨r, hs, ht, hr⟩ := walkFrom_tables hmem va 2 root .root
    rw [bind_of_ok hs, bind_of_ok ht]
    cases r with
    | none => rfl
    | some c =>
      dsimp only
      unfold readPte
      rw [bind_of_ok (gets_apply _ s), bind_of_ok (gets_apply _ t), hmem 0 c.1 (hr c.1 c.2 rfl)]
      rfl

theorem userPage_tables : t.userPage root = s.userPage root := by
  funext va
  unfold State.userPage
  rw [leaf_tables hmem]

theorem userOk_tables (va : ℕ) : t.UserOk root va ↔ s.UserOk root va := by
  unfold State.UserOk
  rw [leaf_tables hmem]

theorem tablePage_tables {level x : ℕ} (hx : TablePage t.mem root level x) : TablePage s.mem root level x := by
  induction hx with
  | root => exact .root
  | next _ hi hv ih =>
    rw [hmem _ _ ih] at hv ⊢
    exact .next ih hi hv

theorem UserTable.keep (h : UserTable s root) (hlayout : t.layout = s.layout) : UserTable t root where
  ram va pte hleaf hu := by
    rw [leaf_tables hmem] at hleaf
    rw [hlayout]
    exact h.ram va pte hleaf hu
  apart va pte hleaf hu level x hx := by
    rw [leaf_tables hmem] at hleaf
    exact h.apart va pte hleaf hu level x (tablePage_tables hmem hx)

end Tables

/-- A page table none of whose pages was written to says the same. -/
theorem Inv.leaf_keep {C : Prop} {M : PageMap} {a o : Owner} {g : Pages} {t : State} (h : Inv C ∅ M a g s)
    (hroot : g root = .node o (.table root 2 0)) (hkept : ∀ y n, g y = .node o n → t.mem y = s.mem y) (va : ℕ) :
    t.leaf root va = s.leaf root va := by
  refine leaf_tables (fun level x hx => ?_) va
  obtain ⟨pref, hpref⟩ := h.tablePage hroot hx
  exact hkept x _ hpref

theorem UserTable.userPage_apart (h : UserTable s root) (hva : s.userPage root va ≠ 0) {level x : ℕ}
    (hx : TablePage s.mem root level x) : x ≠ s.userPage root va := by
  obtain ⟨hmax, pte, hleaf, hu⟩ := (h.userPage_iff va).mp hva
  have hpage : s.userPage root va = PTE2PA pte := by
    unfold State.userPage
    rw [if_neg (not_le.mpr hmax), hleaf]
    exact if_neg hu
  rw [hpage]
  exact (h.apart va pte hleaf hu level x hx).symm

/-- A store to a user page leaves the page table alone. -/
theorem UserTable.setPage_tables (h : UserTable s root) (hva : s.userPage root va ≠ 0) (d : PageData) (level x : ℕ)
    (hx : TablePage s.mem root level x) : setPage s.mem (s.userPage root va) d x = s.mem x :=
  if_neg (h.userPage_apart hva hx)

/-! ### `copyout` -/

theorem setPage_self (mem : ℕ → PageData) (x : ℕ) (d : PageData) : setPage mem x d x = d := if_pos rfl

theorem setPage_setPage (mem : ℕ → PageData) (x : ℕ) (d d' : PageData) :
    setPage (setPage mem x d) x d' = setPage mem x d' := by
  funext y
  unfold setPage
  split_ifs <;> rfl

theorem storeBytes_append (page : ℕ → ℕ) (cs cs' : List UInt8) (va : ℕ) (mem : ℕ → PageData) :
    storeBytes page va (cs ++ cs') mem = storeBytes page (va + cs.length) cs' (storeBytes page va cs mem) := by
  induction cs generalizing va mem with
  | nil => rfl
  | cons c cs ih =>
    rw [cons_append, storeBytes, ih, storeBytes, length_cons, Nat.add_right_comm, Nat.add_assoc]

/-- Bytes in one page are one store. -/
theorem storeBytes_page {page : ℕ → ℕ} (hpage : ∀ va va', va / PGSIZE = va' / PGSIZE → page va = page va')
    (cs : List UInt8) (va : ℕ) (mem : ℕ → PageData) (hcs : va % PGSIZE + cs.length ≤ PGSIZE) :
    storeBytes page va cs mem = setPage mem (page va) (putBytes (mem (page va)) (va % PGSIZE) cs) := by
  induction cs generalizing va mem with
  | nil =>
    funext y
    rw [storeBytes, putBytes, setPage]
    split_ifs with hy
    · rw [hy]
    · rfl
  | cons c cs ih =>
    rw [storeBytes]
    cases cs with
    | nil => rfl
    | cons c' cs =>
      rw [length_cons, length_cons] at hcs
      have hnext : (va + 1) / PGSIZE = va / PGSIZE ∧ (va + 1) % PGSIZE = va % PGSIZE + 1 := by
        unfold PGSIZE at *
        omega
      rw [ih _ _ (by rw [hnext.2, length_cons]; omega), hpage _ _ hnext.1, hnext.2, setPage_self, setPage_setPage]
      rfl

theorem copyoutFrom_bytes (fuel va : ℕ) (src : List UInt8) (hfuel : src.length ≤ fuel) (s : State) (h : UserTable s root) :
    ∃ m, s.OkFor root va src.length m ∧ copyoutFrom root fuel va src s =
      .ok (decide (m = src.length)) { s with mem := storeBytes (s.userPage root) va (src.take m) s.mem } := by
  have hempty (va : ℕ) (src : List UInt8) (hsrc : src = []) (s : State) : s.OkFor root va src.length 0 ∧
      (.ok true s : Outcome State Panic Bool) =
        .ok (decide (0 = src.length)) { s with mem := storeBytes (s.userPage root) va (src.take 0) s.mem } := by
    subst hsrc
    exact ⟨⟨le_rfl, fun i hi => absurd hi (Nat.not_lt_zero i), fun h => absurd h (Nat.not_lt_zero 0)⟩, rfl⟩
  induction fuel generalizing va src s with
  | zero => exact ⟨0, hempty va src (length_eq_zero_iff.mp (by omega)) s⟩
  | succ fuel ih =>
    rw [copyoutFrom]
    by_cases hnil : src = []
    · rw [if_pos hnil]
      exact ⟨0, hempty va src hnil s⟩
    have hlen : 0 < src.length := length_pos_iff.mpr hnil
    rw [if_neg hnil, bind_of_ok (walkaddr_eq _ _ s), userPage_va (roundDown_page va), roundDown_offset]
    by_cases hpage : s.userPage root va = 0
    · rw [if_pos hpage]
      refine ⟨0, okFor_nothing h hpage, ?_⟩
      rw [decide_eq_false hlen.ne]
      rfl
    rw [if_neg hpage]
    set n := min (PGSIZE - va % PGSIZE) src.length
    have hround : Round va src.length n := round_min hlen
    set d := putBytes (s.mem (s.userPage root va)) (va % PGSIZE) (src.take n)
    have htables := h.setPage_tables hpage d
    have hkeep : UserTable { s with mem := setPage s.mem (s.userPage root va) d } root := h.keep htables rfl
    obtain ⟨m, hok, hrest⟩ := ih (PGROUNDDOWN va + PGSIZE) (src.drop n)
      (by rw [length_drop]; have := hround.pos; omega) _ hkeep
    have hok' : s.OkFor root (PGROUNDDOWN va + PGSIZE) (src.length - n) m := by
      rw [length_drop] at hok
      refine ⟨hok.1, fun i hi => (userOk_tables htables _).mp (hok.2.1 i hi), fun hlt hgood => ?_⟩
      exact hok.2.2 hlt ((userOk_tables htables _).mpr hgood)
    have hpoke : poke (s.userPage root va) (fun d => putBytes d (va % PGSIZE) (src.take n)) s =
        .ok () { s with mem := setPage s.mem (s.userPage root va) d } := rfl
    have hle := hround.le
    have htake : (src.take n).length = n := by rw [length_take]; omega
    have hfirst : storeBytes (s.userPage root) va (src.take n) s.mem = setPage s.mem (s.userPage root va) d :=
      storeBytes_page (fun _ _ h => userPage_va h s root) _ va s.mem (by rw [htake]; exact hround.inside)
    refine ⟨n + m, hround.okFor h hpage hok', ?_⟩
    have hmem : storeBytes (s.userPage root) va (src.take (n + m)) s.mem =
        storeBytes (s.userPage root) (PGROUNDDOWN va + PGSIZE) ((src.drop n).take m) (setPage s.mem (s.userPage root va) d) := by
      rw [take_add, storeBytes_append, hfirst, htake]
      rcases hround.last with hlast | hlast
      · -- nothing is left
        have hdrop : src.drop n = [] := drop_eq_nil_of_le (by omega)
        rw [hdrop, take_nil]
        rfl
      · rw [hlast]
    rw [bind_of_ok hpoke, next_round hpage, hrest, hmem]
    have hcount : (m = (src.drop n).length) = (n + m = src.length) := by
      rw [length_drop]
      exact propext (by omega)
    simp only [hcount]
    rw [userPage_tables htables]

/-- What no store into the page changes. -/
theorem storeBytes_keep {β : Type} (f : PageData → β) (page : ℕ → ℕ) (cs : List UInt8) (va : ℕ) (mem : ℕ → PageData) {y : ℕ}
    (h : ∀ i, i < cs.length → page (va + i) = y → ∀ d c, f (putByte d ((va + i) % PGSIZE) c) = f d) :
    f (storeBytes page va cs mem y) = f (mem y) := by
  induction cs generalizing va mem with
  | nil => rfl
  | cons c cs ih =>
    rw [storeBytes, ih]
    · unfold setPage
      split_ifs with hy
      · rw [hy]
        exact h 0 (by simp) hy.symm _ c
      · rfl
    · intro i hi
      have := h (i + 1) (by rw [length_cons]; omega)
      rwa [show va + (i + 1) = va + 1 + i by omega] at this

theorem getByte_storeBytes (page : ℕ → ℕ) (cs : List UInt8) (va : ℕ) (mem : ℕ → PageData) (y k : ℕ)
    (h : ∀ i, i < cs.length → page (va + i) = y → (va + i) % PGSIZE ≠ k) :
    getByte (storeBytes page va cs mem y) k = getByte (mem y) k := by
  refine storeBytes_keep (getByte · k) page cs va mem fun i hi hy d c => ?_
  rw [getByte_putByte, if_neg (h i hi hy).symm]

/-! ### The page tables of processes -/

theorem leaf_below {pte : ℕ} (h : s.leaf root va = some pte) : va < MAXVA := by
  by_contra hva
  unfold State.leaf leafPte walk at h
  rw [if_pos (not_lt.mp hva)] at h
  cases h

theorem Inv.userTable {M : PageMap} {a o : Owner} {g : Pages} (h : Inv True ∅ M a g s)
    (hroot : g root = .node o (.table root 2 0)) : UserTable s root := by
  have hnode (va pte : ℕ) (hleaf : s.leaf root va = some pte) (hu : pte &&& PTE_U ≠ 0) :
      ∃ o pos, g (PTE2PA pte) = .node o (.leaf root pos) := by
    have hm := (h.leaf_eq hroot (leaf_below hleaf)).1
    rw [hleaf, Option.map_some] at hm
    have hpin : ¬sv39.pinned (va / PGSIZE) := by
      intro hpin
      have hflags := h.pin_flags hpin hm.symm
      rw [PTE_FLAGS, ← and_flags (by decide)] at hflags
      exact hu hflags
    obtain ⟨o, ho⟩ := Status.place_eq_some.mp (h.mapped_page hpin hm.symm)
    exact ⟨o, _, ho⟩
  constructor
  · intro va pte hleaf hu
    obtain ⟨o, pos, hg⟩ := hnode va pte hleaf hu
    exact h.contains (by simp [hg])
  · intro va pte hleaf hu level t ht heq
    obtain ⟨o, pos, hg⟩ := hnode va pte hleaf hu
    obtain ⟨pref, hg'⟩ := h.tablePage hroot ht
    rw [heq, hg'] at hg
    cases hg

end Xv6.Vm
