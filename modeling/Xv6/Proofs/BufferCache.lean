import Xv6.Lib.Locks
import Xv6.Sanity.BcacheSteps

/-! The buffer cache: the list keeps all buffers, in the order in which they were released; a
block is in at most one buffer; and `refcnt` counts the processes that use a buffer and
the pin of the log. -/

namespace Xv6.Bcache

open State Ring Function List

variable {P : Type}

section Ordered

/-- `x` was released later than `y`, if nobody uses them. -/
def Later (s : State P) (x y : Ptr) : Prop :=
  (s.buf x).refcnt = 0 → (s.buf y).refcnt = 0 → s.released y ≤ s.released x

/-- The list of all buffers, the unused ones sorted by their last release. -/
structure Listed (s : State P) (L : List Ptr) : Prop where
  ring : IsRing s.links.next s.links.prev head L
  mem : ∀ b, b ∈ L ↔ b ≠ head
  sorted : L.Pairwise (Later s)

structure Ordered (s : State P) : Prop where
  list : ∃ L, Listed s L
  recent : ∀ b, s.released b ≤ s.now

variable {s s' : State P} {L : List Ptr}

theorem Listed.length_lt (h : Listed s L) : L.length < NBUF + 1 := by
  have := h.ring.nodup.length_le_card
  simpa using this

theorem Ordered.of_refcnt (h : Ordered s) (hlinks : s'.links = s.links) (hreleased : s'.released = s.released)
    (hnow : s'.now = s.now) (hrefcnt : ∀ c, (s'.buf c).refcnt = 0 → (s.buf c).refcnt = 0) : Ordered s' := by
  obtain ⟨⟨L, hring, hmem, hsorted⟩, hrecent⟩ := h
  refine ⟨⟨L, by rwa [hlinks], hmem, hsorted.imp fun hxy hx hy => ?_⟩, by rwa [hreleased, hnow]⟩
  rw [hreleased]
  exact hxy (hrefcnt _ hx) (hrefcnt _ hy)

variable {l : Links} {b : Ptr}

theorem insert_ring (h : IsRing l.next l.prev head L) (hb : b ∉ head :: L) :
    IsRing (l.insert b).next (l.insert b).prev head (b :: L) := by
  have hhead : update l.next b (l.next head) head = l.next head := by
    by_cases hbh : b = head
    · rw [hbh, update_self]
    · rw [update_of_ne (Ne.symm hbh)]
  have := h.insert hb
  unfold Links.insert
  dsimp only
  rwa [hhead]

theorem unlink_ring {A B : List Ptr} (h : IsRing l.next l.prev head (A ++ b :: B)) :
    IsRing (l.unlink b).next (l.unlink b).prev head (A ++ B) := by
  have hb : update l.prev (l.next b) (l.prev b) b = l.prev b := by
    by_cases hnb : l.next b = b
    · rw [hnb, update_self]
    · rw [update_of_ne (Ne.symm hnb)]
  unfold Links.unlink
  dsimp only
  rw [hb]
  exact h.unlink

theorem binit_ring : IsRing binit.next binit.prev head ((List.finRange NBUF).map Fin.castSucc).reverse := by
  have hfold (bs L : List Ptr) (l : Links) (h : IsRing l.next l.prev head L) (hnodup : bs.Nodup)
      (hbs : ∀ b ∈ bs, b ∉ head :: L) : IsRing (bs.foldl Links.insert l).next (bs.foldl Links.insert l).prev head
        (bs.reverse ++ L) := by
    induction bs generalizing L l with
    | nil => exact h
    | cons b bs ih =>
      obtain ⟨hb, hnodup⟩ := nodup_cons.mp hnodup
      have := ih (b :: L) (l.insert b) (insert_ring h (hbs b (by simp))) hnodup fun c hc => by
        have hcL := hbs c (mem_cons_of_mem b hc)
        have hcb : c ≠ b := fun heq => hb (heq ▸ hc)
        simp only [mem_cons, not_or] at hcL ⊢
        exact ⟨hcL.1, hcb, hcL.2⟩
      simpa using this
  have hstart : IsRing (fun _ : Ptr => head) (fun _ => head) head [] := ⟨⟨rfl, rfl⟩, by simp⟩
  have := hfold ((List.finRange NBUF).map Fin.castSucc) [] ⟨fun _ => head, fun _ => head⟩ hstart
    ((nodup_finRange NBUF).map (Fin.castSucc_injective NBUF)) fun b hb => by
      obtain ⟨i, -, rfl⟩ := mem_map.mp hb
      rw [mem_singleton]
      exact (Fin.castSucc_lt_last i).ne
  rwa [append_nil] at this

theorem ordered_init (dev start size : ℕ) : Ordered (init dev start size : State P) := by
  refine ⟨⟨_, binit_ring, fun b => ?_, ?_⟩, fun b => le_rfl⟩
  · simp only [mem_reverse, mem_map, mem_finRange, true_and]
    constructor
    · rintro ⟨i, rfl⟩
      exact (Fin.castSucc_lt_last i).ne
    · intro hb
      exact ⟨Fin.castPred b hb, Fin.castSucc_castPred b hb⟩
  · exact pairwise_of_forall fun _ _ _ _ => le_rfl

/-- What the first loop of `bget` finds. -/
theorem Ordered.cached (h : Ordered s) (dev blockno : ℕ) : (∃ b, s.cached dev blockno = some (some b) ∧ b ≠ head ∧
      s.home b = (dev, blockno)) ∨
    s.cached dev blockno = some none ∧ ∀ b, b ≠ head → s.home b ≠ (dev, blockno) := by
  obtain ⟨⟨L, hL⟩, -⟩ := h
  have hsearch := hL.ring.search_next (fun b => (s.buf b).dev = dev ∧ (s.buf b).blockno = blockno) hL.length_lt
  unfold State.cached
  rw [hsearch]
  cases hfind : L.find? fun b => decide ((s.buf b).dev = dev ∧ (s.buf b).blockno = blockno) with
  | some b =>
    have hb := List.find?_some hfind
    simp only [decide_eq_true_eq] at hb
    exact .inl ⟨b, rfl, (hL.mem b).mp (mem_of_find?_eq_some hfind), Prod.ext hb.1 hb.2⟩
  | none =>
    refine .inr ⟨rfl, fun b hb heq => ?_⟩
    have := List.find?_eq_none.mp hfind b ((hL.mem b).mpr hb)
    simp only [decide_eq_true_eq] at this
    exact this (Prod.mk.inj heq)

/-- What the second loop of `bget` finds: the unused buffer that was released first. -/
theorem Ordered.unused (h : Ordered s) : (∃ b, s.unused = some (some b) ∧ b ≠ head ∧ (s.buf b).refcnt = 0 ∧
      ∀ c, c ≠ head → (s.buf c).refcnt = 0 → s.released b ≤ s.released c) ∨
    s.unused = some none ∧ ∀ b, b ≠ head → (s.buf b).refcnt ≠ 0 := by
  obtain ⟨⟨L, hL⟩, -⟩ := h
  have hsearch := hL.ring.search_prev (fun b => (s.buf b).refcnt = 0) hL.length_lt
  unfold State.unused
  rw [hsearch]
  cases hfind : L.reverse.find? fun b => decide ((s.buf b).refcnt = 0) with
  | some b =>
    obtain ⟨hb, A, B, hsplit, hA⟩ := List.find?_eq_some_iff_append.mp hfind
    simp only [decide_eq_true_eq] at hb
    have hmem : b ∈ L := by
      rw [← mem_reverse, hsplit]
      simp
    refine .inl ⟨b, rfl, (hL.mem b).mp hmem, hb, fun c hc hc0 => ?_⟩
    have hcL : c ∈ A ++ b :: B := by
      rw [← hsplit, mem_reverse]
      exact (hL.mem c).mpr hc
    have hsorted : (A ++ b :: B).Pairwise fun x y => Later s y x := by
      rw [← hsplit, pairwise_reverse]
      exact hL.sorted
    rcases mem_append.mp hcL with hcA | hcB
    · -- the buffers behind `b` in the list are all in use
      have := hA c hcA
      simp [hc0] at this
    · rcases mem_cons.mp hcB with rfl | hcB
      · exact le_rfl
      · have hlater := (pairwise_cons.mp (pairwise_append.mp hsorted).2.1).1 c hcB
        exact hlater hc0 hb
  | none =>
    refine .inr ⟨rfl, fun b hb => ?_⟩
    have := List.find?_eq_none.mp hfind b (by simpa using (hL.mem b).mpr hb)
    simpa using this

variable [DecidableEq P]

theorem ordered_unref (h : Ordered s) {p : P} (hb : b ≠ head) : Ordered (s.unref p b) := by
  obtain ⟨⟨L, hring, hmem, hsorted⟩, hrecent⟩ := h
  have hreleased (c : Ptr) (hc : c ≠ b) : (s.unref p b).released c = s.released c := update_of_ne hc _ _
  have hself : (s.unref p b).released b = s.now + 1 := update_self ..
  have hbuf (c : Ptr) (hc : c ≠ b) : (s.unref p b).buf c = s.buf c := update_of_ne hc _ _
  have hrefcnt : ((s.unref p b).buf b).refcnt = decr (s.buf b).refcnt := by
    unfold State.unref State.setCall State.setCtl State.setBuf
    simp
  have hlater {x y : Ptr} (hx : x ≠ b) (hy : y ≠ b) (hxy : Later s x y) : Later (s.unref p b) x y := by
    unfold Later
    rwa [hbuf x hx, hbuf y hy, hreleased x hx, hreleased y hy]
  refine ⟨?_, fun c => ?_⟩
  · by_cases hzero : decr (s.buf b).refcnt = 0
    · -- `b` goes to the front, as the buffer that was released last
      obtain ⟨A, B, rfl⟩ := append_of_mem ((hmem b).mpr hb)
      have hlinks : (s.unref p b).links = (s.links.unlink b).insert b := if_pos hzero
      obtain ⟨hhead, hnodup⟩ := nodup_cons.mp hring.nodup
      have hnot : b ∉ A ++ B := by
        have := nodup_middle.mp hnodup
        exact (nodup_cons.mp this).1
      refine ⟨b :: (A ++ B), ?_, fun c => ?_, pairwise_cons.mpr ⟨fun c hc hb0 hc0 => ?_, ?_⟩⟩
      · rw [hlinks]
        exact insert_ring (unlink_ring hring) (by simpa [hb] using hnot)
      · rw [← hmem c]
        simp only [mem_cons, mem_append]
        tauto
      · rw [hself, hreleased c (fun heq => hnot (heq ▸ hc))]
        exact (hrecent c).trans (Nat.le_succ _)
      · have hsub : (A ++ B).Pairwise (Later s) := by
          refine hsorted.sublist ?_
          exact List.Sublist.append_left (sublist_cons_self b B) A
        refine hsub.imp_of_mem fun {x y} hx hy hxy => ?_
        exact hlater (fun heq => hnot (heq ▸ hx)) (fun heq => hnot (heq ▸ hy)) hxy
    · have hlinks : (s.unref p b).links = s.links := if_neg hzero
      refine ⟨L, by rwa [hlinks], hmem, hsorted.imp fun {x y} hxy => ?_⟩
      by_cases hx : x = b
      · intro hx0
        rw [hx, hrefcnt] at hx0
        exact absurd hx0 hzero
      · by_cases hy : y = b
        · intro _ hy0
          rw [hy, hrefcnt] at hy0
          exact absurd hy0 hzero
        · exact hlater hx hy hxy
  · change _ ≤ s.now + 1
    by_cases hc : c = b
    · rw [hc, hself]
    · rw [hreleased c hc]
      exact (hrecent c).trans (Nat.le_succ _)

end Ordered

section Owned

/-- The holders of the sleep locks. -/
def Owned (s : State P) : Prop := Locks.Owns Ctl.locks (fun b => (s.buf b).lock) s.ctl

variable {s s' : State P} {p : P} {b : Ptr}

theorem owned_init (dev start size : ℕ) : Owned (init dev start size : State P) :=
  ⟨fun b p => iff_of_false (by simp [init]) (by simp [init, Ctl.locks]), fun p => by simp [init, Ctl.locks]⟩

theorem Owned.congr (h : Owned s) (hlock : ∀ c, (s'.buf c).lock = (s.buf c).lock)
    (hctl : ∀ q, (s'.ctl q).locks = (s.ctl q).locks) : Owned s' := Locks.Owns.congr h hlock hctl

variable {x : Buf P} {a : Ctl}

theorem lock_update {buf buf' : Ptr → Buf P} (hbuf : buf' = update buf b x) :
    (fun c => (buf' c).lock) = update (fun c => (buf c).lock) b x.lock := by
  funext c
  rw [hbuf]
  by_cases hc : c = b
  · rw [hc, update_self, update_self]
  · rw [update_of_ne hc, update_of_ne hc]

theorem wakeup_locks (s : State P) (b : Ptr) (q : P) : ((s.wakeup b).ctl q).locks = (s.ctl q).locks := by
  unfold State.wakeup
  dsimp only
  split_ifs with h
  · unfold Ctl.locks
    rw [h]
  · rfl

variable [DecidableEq P]

/-- The process goes on without a change of the locks. -/
theorem Owned.keep (h : Owned s) (hctl : s'.ctl = update s.ctl p a)
    (ha : a.locks = (s.ctl p).locks) (hlock : ∀ c, (s'.buf c).lock = (s.buf c).lock) : Owned s' := by
  unfold Owned
  rw [hctl, funext hlock]
  exact Locks.Owns.move h (.keep ha)

/-- The process takes or drops the lock of `b`. -/
theorem owned_move {place : P → Ctl}
    (h : Locks.Owns Ctl.locks (fun c => (s.buf c).lock) place) (hctl : s'.ctl = update place p a)
    (hbuf : s'.buf = update s.buf b x)
    (hd : Locks.Delta (fun c => (s.buf c).lock) p (place p).locks a.locks
      (update (fun c => (s.buf c).lock) b x.lock)) : Owned s' := by
  unfold Owned
  rw [hctl, lock_update hbuf]
  exact Locks.Owns.move h hd

theorem owned_release (h : Owned s) (hidle : (s.ctl p).call = .idle) (hlock : (s.buf b).lock = some p) :
    Owned (((s.setBuf b fun x => { x with lock := none }).wakeup b).setCtl p fun x =>
      { x with held := x.held.erase b, call := .releasing b }) := by
  have hlocks : (s.ctl p).locks = (s.ctl p).held := by
    unfold Ctl.locks
    rw [hidle]
  have hmem : b ∈ (s.ctl p).locks := (h.iff b p).mp hlock
  have hwoken : Locks.Owns Ctl.locks (fun c => (s.buf c).lock) ((s.setBuf b fun x => { x with lock := none }).wakeup b).ctl :=
    Locks.Owns.congr h (fun _ => rfl) fun q => wakeup_locks (s.setBuf b _) b q
  have hself : ((s.setBuf b fun x => { x with lock := none }).wakeup b).ctl p = s.ctl p := by
    refine if_neg ?_
    rw [setBuf_ctl, hidle]
    simp
  refine owned_move hwoken rfl rfl ?_
  rw [hself]
  refine .release b hmem fun hnodup => ?_
  rw [hlocks] at hnodup ⊢
  exact ⟨hnodup.erase b, fun c => hnodup.mem_erase_iff⟩

theorem owned_does (h : Owned s) (hd : Does s p s') : Owned s' := by
  cases hd with
  | nothing => exact h
  | hit dev blockno b hcall | recycle dev blockno b hcall | read b hcall | unref b hcall | bpin b hcall =>
    exact h.keep rfl (by simp [Ctl.locks, hcall]) (update_frame Buf.lock rfl rfl)
  | sleep b hcall | wake b hcall | pinning b hcall | logged b hcall =>
    exact h.keep rfl (by simp [Ctl.locks, hcall]) fun _ => rfl
  | acquire b hcall hfree =>
    refine owned_move h rfl rfl (.acquire b hfree ?_)
    simp [Ctl.locks, hcall]
  | release b hidle hlock => exact owned_release h hidle hlock
  | bunpin b => exact h.congr (update_frame Buf.lock rfl rfl) fun _ => rfl

end Owned

section Counted

variable [Fintype P]

structure Counted (s : State P) : Prop where
  real : ∀ p b, 0 < (s.ctl p).refs b → b ≠ head
  count : ∀ b, b ≠ head → (s.buf b).refcnt = s.refs b + if s.Pinned b then 1 else 0
  unique : ∀ b c, b ≠ head → c ≠ head → (s.buf b).dev ≠ 0 → s.home b = s.home c → b = c
  pinned : ∀ n ∈ s.pins, ∃ b, b ≠ head ∧ s.home b = (s.dev, n)
  nodup : s.pins.Nodup
  dev : s.dev ≠ 0
  held : ∀ p, ∀ b ∈ (s.ctl p).held, (s.buf b).valid = true
  valid : ∀ b, s.Pinned b → (s.buf b).valid = true

variable {s s' : State P} {p : P} {b : Ptr}

variable {dev : ℕ} {c a : Ctl} {x : Buf P}

theorem counted_init (hdev : dev ≠ 0) (start size : ℕ) : Counted (init dev start size : State P) where
  real p b h := by simp [init, Ctl.refs, Call.ref] at h
  count b hb := by
    have hrefs : (init dev start size : State P).refs b = 0 := Count.total_eq_zero fun c => rfl
    have hnot : ¬(init dev start size : State P).Pinned b := fun h => by cases h.2.2
    rw [hrefs, if_neg hnot]
    rfl
  unique b c hb hc h := absurd rfl h
  pinned n hn := by cases hn
  nodup := nodup_nil
  dev := hdev
  held p b hb := by cases hb
  valid b hb := by cases hb.2.2

omit [Fintype P] in
theorem Ctl.refs_pos_of_held (h : b ∈ c.held) : 0 < c.refs b :=
  Nat.lt_of_lt_of_le (count_pos_iff.mpr h) (Nat.le_add_right _ _)

omit [Fintype P] in
theorem Ctl.refs_pos_of_ref (h : c.call.ref = some b) : 0 < c.refs b := by
  unfold Ctl.refs
  rw [if_pos h]
  exact Nat.succ_pos _

/-- A process has a reference only to buffers that are in use. -/
theorem Counted.refcnt_pos (h : Counted s) (hp : 0 < (s.ctl p).refs b) : 0 < (s.buf b).refcnt := by
  rw [h.count b (h.real p b hp)]
  exact Nat.lt_of_lt_of_le hp ((Count.le_total (w := Ctl.refs b) p).trans (Nat.le_add_right _ _))

theorem Counted.pinned_pos (h : Counted s) (hb : s.Pinned b) : 0 < (s.buf b).refcnt := by
  rw [h.count b hb.1, if_pos hb]
  exact Nat.succ_pos _

omit [Fintype P] in
theorem Pinned.congr (hdev : s'.dev = s.dev) (hpins : s'.pins = s.pins) (hhome : s'.home b = s.home b) :
    s'.Pinned b ↔ s.Pinned b := by
  obtain ⟨hd, hn⟩ := Prod.mk.inj hhome
  unfold State.Pinned
  rw [hdev, hpins, hd, hn]

omit [Fintype P] in
/-- A buffer changes, but for its block. -/
theorem home_frame (hbuf : s'.buf = update s.buf b x) (hx : (x.dev, x.blockno) = s.home b)
    (c : Ptr) : s'.home c = s.home c := update_frame (fun x => (x.dev, x.blockno)) hbuf hx c

/-- The buffers keep their blocks, and what comes or goes is counted. -/
theorem Counted.next (h : Counted s) (hdev : s'.dev = s.dev) (hhome : ∀ c, s'.home c = s.home c)
    (hvalid : ∀ c, (s.buf c).valid = true → (s'.buf c).valid = true)
    (hreal : ∀ q c, 0 < (s'.ctl q).refs c → 0 < (s.ctl q).refs c ∨ c ≠ head)
    (hcount : ∀ c, (s'.buf c).refcnt + (s.refs c + if s.Pinned c then 1 else 0) =
      (s.buf c).refcnt + (s'.refs c + if s'.Pinned c then 1 else 0)) (hnodup : s'.pins.Nodup)
    (hpins : ∀ n ∈ s'.pins, n ∈ s.pins ∨ ∃ b, b ≠ head ∧ s.home b = (s.dev, n))
    (hheld : ∀ q, ∀ c ∈ (s'.ctl q).held, c ∈ (s.ctl q).held ∨ (s'.buf c).valid = true)
    (hpinned : ∀ c, s'.Pinned c → s.Pinned c ∨ (s'.buf c).valid = true) : Counted s' where
  real q c hc := (hreal q c hc).elim (h.real q c) id
  count c hc := by
    have := h.count c hc
    have := hcount c
    omega
  unique c d hc hd hdevc heq := by
    have hdevc' : (s'.buf c).dev = (s.buf c).dev := congrArg Prod.fst (hhome c)
    rw [hdevc'] at hdevc
    rw [hhome c, hhome d] at heq
    exact h.unique c d hc hd hdevc heq
  pinned n hn := by
    simp only [hhome, hdev]
    exact (hpins n hn).elim (h.pinned n) id
  nodup := hnodup
  dev := hdev ▸ h.dev
  held q c hc := (hheld q c hc).elim (fun hc => hvalid c (h.held q c hc)) id
  valid c hc := (hpinned c hc).elim (fun hc => hvalid c (h.valid c hc)) id

/-- Nothing changes for a buffer but its lock, and nothing for a process but what it does with its references. -/
theorem Counted.congr (h : Counted s) (hdev : s'.dev = s.dev) (hpins : s'.pins = s.pins)
    (hhome : ∀ c, s'.home c = s.home c) (hvalid : ∀ c, (s'.buf c).valid = (s.buf c).valid)
    (hrefcnt : ∀ c, (s'.buf c).refcnt = (s.buf c).refcnt) (hheld : ∀ q, (s'.ctl q).held = (s.ctl q).held)
    (hrefs : ∀ q c, (s'.ctl q).refs c = (s.ctl q).refs c) : Counted s' := by
  have hpinned (c : Ptr) : s'.Pinned c ↔ s.Pinned c := Pinned.congr hdev hpins (hhome c)
  have htotal (c : Ptr) : s'.refs c = s.refs c := Count.total_congr fun q => hrefs q c
  refine h.next hdev hhome (fun c hc => (hvalid c).trans hc) (fun q c hc => .inl (hrefs q c ▸ hc)) (fun c => ?_)
    (hpins ▸ h.nodup) (fun n hn => .inl (hpins ▸ hn)) (fun q c hc => .inl (hheld q ▸ hc))
    fun c hc => .inl ((hpinned c).mp hc)
  simp only [hpinned, htotal, hrefcnt]

variable [DecidableEq P]

theorem refs_update (hctl : s'.ctl = update s.ctl p a) (b : Ptr) :
    s'.refs b + (s.ctl p).refs b = s.refs b + a.refs b := by
  unfold State.refs
  rw [hctl]
  exact Count.total_update p a

/-- The process takes or gives up a reference to `b`, whose block stays. -/
theorem Counted.touch (h : Counted s) (hb : b ≠ head) (hctl : s'.ctl = update s.ctl p a)
    (hbuf : s'.buf = update s.buf b x) (hdev : s'.dev = s.dev) (hpins : s'.pins = s.pins)
    (hx : (x.dev, x.blockno) = s.home b) (hvalid : (s.buf b).valid = true → x.valid = true)
    (hheld : ∀ c ∈ a.held, c ∈ (s.ctl p).held ∨ c = b ∧ x.valid = true)
    (hrefcnt : x.refcnt + (s.ctl p).refs b = (s.buf b).refcnt + a.refs b)
    (hrefs : ∀ c, c ≠ b → a.refs c = (s.ctl p).refs c) : Counted s' := by
  have hhome (c : Ptr) : s'.home c = s.home c := home_frame hbuf hx c
  have hself : s'.buf b = x := by rw [hbuf, update_self]
  have hother (c : Ptr) (hc : c ≠ b) : s'.buf c = s.buf c := by rw [hbuf, update_of_ne hc]
  refine h.next hdev hhome (fun c hc => ?_) (fun q c hq => ?_) (fun c => ?_) (hpins ▸ h.nodup)
    (fun n hn => .inl (hpins ▸ hn)) (fun q c hc => ?_) fun c hc => .inl ((Pinned.congr hdev hpins (hhome c)).mp hc)
  · by_cases hcb : c = b
    · rw [hcb, hself]
      exact hvalid (hcb ▸ hc)
    · rwa [hother c hcb]
  · by_cases hcb : c = b
    · exact .inr (hcb ▸ hb)
    · rw [update_frame (Ctl.refs c) hctl (hrefs c hcb) q] at hq
      exact .inl hq
  · have htotal := refs_update hctl c
    simp only [Pinned.congr hdev hpins (hhome c)]
    by_cases hcb : c = b
    · rw [hcb] at htotal ⊢
      rw [hself]
      omega
    · have := hrefs c hcb
      rw [hother c hcb]
      omega
  · rw [hctl] at hc
    by_cases hqp : q = p
    · rw [hqp, update_self] at hc
      rw [hqp]
      refine (hheld c hc).imp_right fun ⟨hcb, hxv⟩ => ?_
      rwa [hcb, hself]
    · rw [update_of_ne hqp] at hc
      exact .inl hc

/-- An unused buffer is given to another block. -/
theorem counted_recycle (h : Counted s) (hb : b ≠ head) (hzero : (s.buf b).refcnt = 0) {blockno : ℕ}
    (hnone : ∀ c, c ≠ head → s.home c ≠ (dev, blockno)) (hidle : (s.ctl p).call = .idle) :
    Counted ((s.setBuf b fun x => { x with dev := dev, blockno := blockno, valid := false, refcnt := 1 }).setCall p
      (.locking b)) := by
  set s' := (s.setBuf b fun x => { x with dev := dev, blockno := blockno, valid := false, refcnt := 1 }).setCall p
    (.locking b)
  have hself : s'.buf b = { s.buf b with dev := dev, blockno := blockno, valid := false, refcnt := 1 } :=
    update_self ..
  have hother (c : Ptr) (hc : c ≠ b) : s'.buf c = s.buf c := update_of_ne hc _ _
  have hctl : s'.ctl = update s.ctl p { s.ctl p with call := .locking b } := rfl
  have hhome (c : Ptr) (hc : c ≠ b) : s'.home c = s.home c := by
    unfold State.home
    rw [hother c hc]
  have hnew : s'.home b = (dev, blockno) := by
    unfold State.home
    rw [hself]
  have hunpinned : ¬s.Pinned b := fun hpin => absurd (h.pinned_pos hpin) (by omega)
  have hrefs : (s.ctl p).refs b = 0 := by
    by_contra hne
    exact absurd (h.refcnt_pos (Nat.pos_of_ne_zero hne)) (by omega)
  have hnot : ¬s'.Pinned b := by
    rintro ⟨-, hdev, hmem⟩
    rw [hself] at hdev hmem
    obtain ⟨c, hc, heq⟩ := h.pinned blockno hmem
    exact hnone c hc (heq.trans (Prod.ext hdev.symm rfl))
  have hpinned (c : Ptr) (hc : c ≠ b) : s'.Pinned c ↔ s.Pinned c := Pinned.congr rfl rfl (hhome c hc)
  have hunheld (q : P) (hq : b ∈ (s.ctl q).held) : False :=
    absurd (h.refcnt_pos (Ctl.refs_pos_of_held hq)) (by omega)
  refine ⟨fun q c hq => ?_, fun c hc => ?_, fun c d hc hd hdev heq => ?_, fun n hn => ?_, h.nodup, h.dev,
    fun q c hc => ?_, fun c hc => ?_⟩
  · by_cases hcb : c = b
    · rwa [hcb]
    · have hsame : ({ s.ctl p with call := .locking b } : Ctl).refs c = (s.ctl p).refs c := by
        simp [Ctl.refs, Call.ref, hidle, Ne.symm hcb]
      rw [update_frame (Ctl.refs c) hctl hsame q] at hq
      exact h.real q c hq
  · have hold := h.count c hc
    have htotal := refs_update hctl c
    by_cases hcb : c = b
    · have hone : ({ s.ctl p with call := .locking b } : Ctl).refs b = (s.ctl p).refs b + 1 := by
        simp [Ctl.refs, Call.ref, hidle]
      rw [hcb] at hold htotal ⊢
      rw [if_neg hunpinned] at hold
      rw [if_neg hnot, hself]
      dsimp only
      omega
    · have hsame : ({ s.ctl p with call := .locking b } : Ctl).refs c = (s.ctl p).refs c := by
        simp [Ctl.refs, Call.ref, hidle, Ne.symm hcb]
      simp only [hpinned c hcb, hother c hcb]
      omega
  · by_cases hcb : c = b
    · by_cases hdb : d = b
      · rw [hcb, hdb]
      · rw [hcb, hnew, hhome d hdb] at heq
        exact absurd heq.symm (hnone d hd)
    · by_cases hdb : d = b
      · rw [hdb, hnew, hhome c hcb] at heq
        exact absurd heq (hnone c hc)
      · rw [hother c hcb] at hdev
        rw [hhome c hcb, hhome d hdb] at heq
        exact h.unique c d hc hd hdev heq
  · obtain ⟨c, hc, heq⟩ := h.pinned n hn
    have hcb : c ≠ b := fun hcb => hunpinned ⟨hb, hcb ▸ congrArg Prod.fst heq, by
      have hblock : (s.buf c).blockno = n := congrArg Prod.snd heq
      rw [← hcb, hblock]
      exact hn⟩
    exact ⟨c, hc, (hhome c hcb).trans heq⟩
  · have hheld : (s'.ctl q).held = (s.ctl q).held := update_frame Ctl.held hctl rfl q
    rw [hheld] at hc
    rw [hother c fun hcb => hunheld q (hcb ▸ hc)]
    exact h.held q c hc
  · have hcb : c ≠ b := fun hcb => hnot (hcb ▸ hc)
    rw [hother c hcb]
    exact h.valid c ((hpinned c hcb).mp hc)

theorem counted_bpin (h : Counted s) (hcall : (s.ctl p).call = .pinning b) (hheld : b ∈ (s.ctl p).held)
    (hdev : (s.buf b).dev = s.dev) (hnew : (s.buf b).blockno ∉ s.pins) : Counted (s.bpin p b) := by
  have hb : b ≠ head := h.real p b (Ctl.refs_pos_of_held hheld)
  have hctl : (s.bpin p b).ctl = update s.ctl p { s.ctl p with call := .pinned b } := rfl
  have hbuf : (s.bpin p b).buf = update s.buf b { s.buf b with refcnt := (s.buf b).refcnt + 1 } := rfl
  have hhome (c : Ptr) : (s.bpin p b).home c = s.home c := home_frame hbuf rfl c
  have hmem (n : ℕ) : n ∈ (s.bpin p b).pins ↔ n ∈ s.pins ∨ n = (s.buf b).blockno := by simp [State.bpin]
  have hiff (c : Ptr) : (s.bpin p b).Pinned c ↔
      c ≠ head ∧ (s.buf c).dev = s.dev ∧ ((s.buf c).blockno ∈ s.pins ∨ (s.buf c).blockno = (s.buf b).blockno) := by
    obtain ⟨hd, hn⟩ := Prod.mk.inj (hhome c)
    unfold State.Pinned
    rw [hd, hn, hmem]
    rfl
  have hyes : (s.bpin p b).Pinned b := (hiff b).mpr ⟨hb, hdev, .inr rfl⟩
  have hno : ¬s.Pinned b := fun hpin => hnew hpin.2.2
  have hother (c : Ptr) (hc : c ≠ b) : (s.bpin p b).Pinned c ↔ s.Pinned c := by
    rw [hiff]
    refine ⟨fun ⟨hch, hd, hn⟩ => ⟨hch, hd, hn.resolve_right fun heq => hc ?_⟩, fun ⟨hch, hd, hn⟩ => ⟨hch, hd, .inl hn⟩⟩
    exact h.unique c b hch hb (hd ▸ h.dev) (Prod.ext (hd.trans hdev.symm) heq)
  have hrefs (q : P) (c : Ptr) : ((s.bpin p b).ctl q).refs c = (s.ctl q).refs c :=
    update_frame (Ctl.refs c) hctl (by simp [Ctl.refs, Call.ref, hcall]) q
  have hvalid (c : Ptr) : ((s.bpin p b).buf c).valid = (s.buf c).valid := update_frame Buf.valid hbuf rfl c
  have htotal (c : Ptr) : (s.bpin p b).refs c = s.refs c := Count.total_congr fun q => hrefs q c
  refine h.next rfl hhome (fun c hc => (hvalid c).trans hc) (fun q c hc => .inl (hrefs q c ▸ hc)) (fun c => ?_) ?_
    (fun n hn => ?_) (fun q c hc => .inl (update_frame Ctl.held hctl rfl q ▸ hc)) fun c hc => ?_
  · rw [htotal, hbuf]
    by_cases hcb : c = b
    · rw [hcb, update_self, if_pos hyes, if_neg hno]
      dsimp only
      omega
    · simp only [update_of_ne hcb, hother c hcb]
  · exact nodup_append.mpr ⟨h.nodup, nodup_singleton _, fun n hn m hm heq => hnew (by
      rw [← mem_singleton.mp hm, ← heq]
      exact hn)⟩
  · rcases (hmem n).mp hn with hn | rfl
    · exact .inl hn
    · exact .inr ⟨b, hb, Prod.ext hdev rfl⟩
  · by_cases hcb : c = b
    · exact .inr ((hvalid c).trans (hcb ▸ h.held p b hheld))
    · exact .inl ((hother c hcb).mp hc)

omit [DecidableEq P] in
theorem counted_bunpin (h : Counted s) (hpin : s.Pinned b) : Counted (s.bunpin b) := by
  obtain ⟨hb, hdev, hmem⟩ := hpin
  have hbuf : (s.bunpin b).buf = update s.buf b { s.buf b with refcnt := decr (s.buf b).refcnt } := rfl
  have hhome (c : Ptr) : (s.bunpin b).home c = s.home c := home_frame hbuf rfl c
  have hiff (c : Ptr) : (s.bunpin b).Pinned c ↔ (s.buf c).blockno ≠ (s.buf b).blockno ∧ s.Pinned c := by
    obtain ⟨hd, hn⟩ := Prod.mk.inj (hhome c)
    unfold State.Pinned
    rw [hd, hn]
    change _ ∧ _ ∧ _ ∈ s.pins.erase (s.buf b).blockno ↔ _
    rw [h.nodup.mem_erase_iff]
    change _ ∧ (_ = s.dev) ∧ _ ↔ _
    tauto
  have hno : ¬(s.bunpin b).Pinned b := fun hpin => ((hiff b).mp hpin).1 rfl
  have hpos := h.pinned_pos ⟨hb, hdev, hmem⟩
  have hother (c : Ptr) (hc : c ≠ b) : (s.bunpin b).Pinned c ↔ s.Pinned c := by
    rw [hiff]
    refine ⟨fun hp => hp.2, fun hp => ⟨fun heq => hc ?_, hp⟩⟩
    exact h.unique c b hp.1 hb (hp.2.1 ▸ h.dev) (Prod.ext (hp.2.1.trans hdev.symm) heq)
  refine h.next rfl hhome (fun c hc => (update_frame Buf.valid hbuf rfl c).trans hc) (fun _ _ => .inl) (fun c => ?_)
    (h.nodup.erase _) (fun n hn => .inl (mem_of_mem_erase hn)) (fun _ _ => .inl) fun c hc => .inl ((hiff c).mp hc).2
  change _ + _ = _ + (s.refs c + _)
  rw [hbuf]
  by_cases hcb : c = b
  · rw [hcb, update_self, if_neg hno, if_pos ⟨hb, hdev, hmem⟩]
    dsimp only
    unfold decr
    rw [if_neg (by omega)]
    omega
  · simp only [update_of_ne hcb, hother c hcb]

theorem counted_release (h : Counted s) (hown : Owned s) (hidle : (s.ctl p).call = .idle)
    (hlock : (s.buf b).lock = some p) :
    Counted (((s.setBuf b fun x => { x with lock := none }).wakeup b).setCtl p fun x =>
      { x with held := x.held.erase b, call := .releasing b }) := by
  have hmem : b ∈ (s.ctl p).held := by
    have := (hown.iff b p).mp hlock
    unfold Ctl.locks at this
    rwa [hidle] at this
  have hb : b ≠ head := h.real p b (Ctl.refs_pos_of_held hmem)
  have hwoken : Counted (s.wakeup b) := by
    refine h.congr rfl rfl (fun _ => rfl) (fun _ => rfl) (fun _ => rfl) (fun q => ?_) fun q c => ?_
    · change (if _ then _ else _ : Ctl).held = _
      split_ifs <;> rfl
    · change Ctl.refs c (if _ then _ else _) = _
      split_ifs with hq
      · simp [Ctl.refs, Call.ref, hq]
      · rfl
  have hself : (s.wakeup b).ctl p = s.ctl p := if_neg (by rw [hidle]; simp)
  have hctl : (((s.setBuf b fun x => { x with lock := none }).wakeup b).setCtl p fun x =>
      { x with held := x.held.erase b, call := .releasing b }).ctl =
      update (s.wakeup b).ctl p { s.ctl p with held := (s.ctl p).held.erase b, call := .releasing b } := by
    rw [← hself]
    rfl
  refine hwoken.touch hb hctl rfl rfl rfl rfl id (fun c hc => .inl ?_) ?_ fun c hc => ?_
  · rw [hself]
    exact mem_of_mem_erase hc
  · rw [hself]
    have hpos := count_pos_iff.mpr hmem
    have : ({ s.ctl p with held := (s.ctl p).held.erase b, call := .releasing b } : Ctl).refs b = (s.ctl p).refs b := by
      simp [Ctl.refs, Call.ref, hidle, count_erase_self]
      omega
    rw [this]
    rfl
  · rw [hself]
    simp [Ctl.refs, Call.ref, hidle, count_erase_of_ne hc, Ne.symm hc]

theorem counted_does (hord : Ordered s) (hown : Owned s) (h : Counted s) (hbpin : ∀ b, (s.ctl p).call = .pinning b →
      b ∈ (s.ctl p).held ∧ (s.buf b).dev = s.dev ∧ (s.buf b).blockno ∉ s.pins)
    (hbunpin : (s.ctl p).call = .idle → ∀ b i is, s.op p = .committing (.bunpin i :: is) →
      (s.ctl p).held[i]? = some b → s.Pinned b)
    (hd : Does s p s') : Counted s' := by
  have hreal {b : Ptr} (hb : (s.ctl p).call.ref = some b) : b ≠ head := h.real p b (Ctl.refs_pos_of_ref hb)
  cases hd with
  | nothing => exact h
  | hit dev blockno b hidle hfound =>
    have hb : b ≠ head := by
      rcases hord.cached dev blockno with ⟨c, hc, hne, -⟩ | ⟨hc, -⟩
      · rw [hfound] at hc
        cases hc
        exact hne
      · rw [hfound] at hc
        cases hc
    refine h.touch hb rfl rfl rfl rfl rfl id (fun c hc => .inl hc) ?_ fun c hc => ?_
    · simp [Ctl.refs, Call.ref, hidle]
      omega
    · simp [Ctl.refs, Call.ref, hidle, Ne.symm hc]
  | recycle dev blockno b hidle hnone hfound =>
    have hfree : ∀ c, c ≠ head → s.home c ≠ (dev, blockno) := by
      rcases hord.cached dev blockno with ⟨c, hc, -⟩ | ⟨-, hc⟩
      · rw [hnone] at hc
        cases hc
      · exact hc
    rcases hord.unused with ⟨c, hc, hne, hzero, -⟩ | ⟨hc, -⟩
    · rw [hfound] at hc
      cases hc
      exact counted_recycle h hne hzero hfree hidle
    · rw [hfound] at hc
      cases hc
  | sleep b hcall | wake b hcall | pinning b hcall | logged b hcall =>
    refine h.congr rfl rfl (fun _ => rfl) (fun _ => rfl) (fun _ => rfl) (update_frame Ctl.held rfl rfl) fun q c =>
      update_frame (Ctl.refs c) rfl ?_ q
    simp [Ctl.refs, Call.ref, hcall]
  | acquire b hcall hfree =>
    refine h.congr rfl rfl (home_frame rfl rfl) (update_frame Buf.valid rfl rfl)
      (update_frame Buf.refcnt rfl rfl) (update_frame Ctl.held rfl rfl) fun q c => update_frame (Ctl.refs c) rfl ?_ q
    simp [Ctl.refs, Call.ref, hcall]
  | read b hcall =>
    refine h.touch (hreal (by rw [hcall]; rfl)) rfl rfl rfl rfl rfl (fun _ => rfl) (fun c hc => ?_) ?_ fun c hc => ?_
    · rcases mem_cons.mp hc with rfl | hc
      · exact .inr ⟨rfl, rfl⟩
      · exact .inl hc
    · simp [Ctl.refs, Call.ref, hcall]
    · simp [Ctl.refs, Call.ref, hcall, Ne.symm hc]
  | release b hidle hlock => exact counted_release h hown hidle hlock
  | unref b hcall =>
    have hpos := h.refcnt_pos (Ctl.refs_pos_of_ref (c := s.ctl p) (b := b) (by rw [hcall]; rfl))
    refine h.touch (hreal (by rw [hcall]; rfl)) rfl rfl rfl rfl rfl id (fun c hc => .inl hc) ?_ fun c hc => ?_
    · simp [Ctl.refs, Call.ref, hcall]
      unfold decr
      rw [if_neg (by omega)]
      omega
    · simp [Ctl.refs, Call.ref, hcall, Ne.symm hc]
  | bpin b hcall =>
    obtain ⟨hheld, hdev, hnew⟩ := hbpin b hcall
    exact counted_bpin h hcall hheld hdev hnew
  | bunpin b i is hidle hop hheld => exact counted_bunpin h (hbunpin hidle b i is hop hheld)

omit [Fintype P] [DecidableEq P] in
/-- The list need not change for a buffer that stays in use. -/
theorem Ordered.used (h : Ordered s) (hbuf : s'.buf = update s.buf b x) (hx : x.refcnt = 0 → (s.buf b).refcnt = 0)
    (hlinks : s'.links = s.links) (hreleased : s'.released = s.released) (hnow : s'.now = s.now) : Ordered s' := by
  refine h.of_refcnt hlinks hreleased hnow fun c hc => ?_
  rw [hbuf] at hc
  by_cases hcb : c = b
  · rw [hcb, update_self] at hc
    exact hcb ▸ hx hc
  · rwa [update_of_ne hcb] at hc

theorem ordered_does (h : Ordered s) (hcount : Counted s)
    (hbunpin : (s.ctl p).call = .idle → ∀ b i is, s.op p = .committing (.bunpin i :: is) →
      (s.ctl p).held[i]? = some b → s.Pinned b)
    (hd : Does s p s') : Ordered s' := by
  cases hd with
  | nothing => exact h
  | hit dev blockno b | bpin b => exact h.used rfl (fun hx => absurd hx (Nat.succ_ne_zero _)) rfl rfl rfl
  | recycle dev blockno b => exact h.used rfl (fun hx => absurd hx one_ne_zero) rfl rfl rfl
  | sleep | wake | pinning | logged => exact h.of_refcnt rfl rfl rfl fun c hc => hc
  | acquire b | read b | release b => exact h.used rfl id rfl rfl rfl
  | unref b hcall => exact ordered_unref h (hcount.real p b (Ctl.refs_pos_of_ref (by rw [hcall]; rfl)))
  | bunpin b i is hidle hop hheld =>
    -- the process that unpins the buffer has it locked
    have hpin := hbunpin hidle b i is hop hheld
    have hrefs := Ctl.refs_pos_of_held (mem_of_getElem? hheld)
    have hcnt := hcount.count b hpin.1
    have hle : (s.ctl p).refs b ≤ s.refs b := Count.le_total (w := Ctl.refs b) p
    rw [if_pos hpin] at hcnt
    refine h.used (b := b) rfl (fun hx => ?_) rfl rfl rfl
    change decr _ = 0 at hx
    unfold decr at hx
    rw [if_neg (by omega)] at hx
    omega

end Counted

end Xv6.Bcache
