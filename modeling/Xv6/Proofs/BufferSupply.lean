import Xv6.Proofs.BufferPins

/-! When `bget` finds no buffer. -/

namespace Xv6.Bcache

open State Function Finset

variable {P : Type}

/-- The references that the process has. -/
def Ctl.uses (c : Ctl) : ℕ := c.held.length + if c.call.ref.isSome then 1 else 0

variable [Fintype P]

/-- The references of all processes. -/
def State.uses (s : State P) : ℕ := Count.total Ctl.uses s.ctl

variable {s s' : State P} {p : P}

omit [Fintype P] in
theorem Ctl.sum_refs (c : Ctl) : ∑ b, c.refs b = c.uses := by
  unfold Ctl.refs Ctl.uses
  rw [sum_add_distrib, Count.sum_count, Count.sum_some]

theorem sum_refs (s : State P) : ∑ b, s.refs b = s.uses := by
  unfold State.refs State.uses Count.total
  rw [sum_comm]
  exact sum_congr rfl fun q _ => Ctl.sum_refs (s.ctl q)

/-- Each pinned buffer has a pin of its own. -/
theorem sum_pinned (h : Counted s) : (∑ b, if s.Pinned b then 1 else 0) ≤ s.pins.length := by
  rw [sum_boole, Nat.cast_id]
  calc (Finset.univ.filter s.Pinned).card ≤ s.pins.toFinset.card := by
        refine card_le_card_of_injOn (fun b => (s.buf b).blockno) (fun b hb => ?_) fun b hb c hc heq => ?_
        · exact List.mem_toFinset.mpr (mem_filter.mp hb).2.2.2
        · obtain ⟨hbh, hbd, -⟩ := (mem_filter.mp hb).2
          obtain ⟨hch, hcd, -⟩ := (mem_filter.mp hc).2
          exact h.unique b c hbh hch (hbd ▸ h.dev) (Prod.ext (hbd.trans hcd.symm) heq)
    _ ≤ s.pins.length := s.pins.toFinset_card_le

omit [Fintype P] in
theorem card_buffers : (Finset.univ.erase head).card = NBUF := by
  rw [card_erase_of_mem (mem_univ head)]
  simp

/-- As many references and pins as buffers, if all are in use. -/
theorem supply_le (h : Counted s) (hused : ∀ b, b ≠ head → (s.buf b).refcnt ≠ 0) : NBUF ≤ s.uses + s.pins.length := by
  have hone (b : Ptr) (hb : b ∈ Finset.univ.erase head) : 1 ≤ s.refs b + if s.Pinned b then 1 else 0 := by
    have hb := ne_of_mem_erase hb
    rw [← h.count b hb]
    exact Nat.pos_of_ne_zero (hused b hb)
  calc NBUF = (Finset.univ.erase head).card := card_buffers.symm
    _ = ∑ b ∈ Finset.univ.erase head, 1 := by simp
    _ ≤ ∑ b ∈ Finset.univ.erase head, (s.refs b + if s.Pinned b then 1 else 0) := sum_le_sum hone
    _ ≤ ∑ b, (s.refs b + if s.Pinned b then 1 else 0) :=
        sum_le_sum_of_subset (erase_subset _ _)
    _ = s.uses + ∑ b, (if s.Pinned b then 1 else 0) := by rw [sum_add_distrib, sum_refs]
    _ ≤ s.uses + s.pins.length := Nat.add_le_add_left (sum_pinned h) _

variable [DecidableEq P]

theorem bget_panics_iff_sound (h : Sound s) (hpanic : s.panic = none) (p : P) (dev' blockno : ℕ) :
    ∃ s', s.bget p dev' blockno = some s' ∧
      (s'.panic = some .bget ↔ (∀ b, b ≠ head → s.home b ≠ (dev', blockno)) ∧
        ∀ b, b ≠ head → 0 < s.refs b ∨ s.Pinned b) ∧
      (s.uses + s.pins.length < NBUF → s'.panic = none) := by
  have hused (b : Ptr) (hb : b ≠ head) : 0 < s.refs b ∨ s.Pinned b ↔ (s.buf b).refcnt ≠ 0 := by
    rw [h.counted.count b hb]
    split_ifs with hpin
    · simp [hpin]
    · simp [hpin, Nat.pos_iff_ne_zero]
  unfold State.bget
  rcases h.ordered.cached dev' blockno with ⟨b, hb, hne, hhome⟩ | ⟨hnone, hfree⟩
  · rw [hb]
    refine ⟨_, rfl, ⟨fun hp => ?_, fun hp => absurd hhome (hp.1 b hne)⟩, fun _ => hpanic⟩
    cases hpanic.symm.trans hp
  · rw [hnone]
    rcases h.ordered.unused with ⟨b, hb, hne, hzero, -⟩ | ⟨hb, hall⟩
    · rw [hb]
      refine ⟨_, rfl, ⟨fun hp => ?_, fun hp => absurd hzero ((hused b hne).mp (hp.2 b hne))⟩, fun _ => hpanic⟩
      cases hpanic.symm.trans hp
    · rw [hb]
      refine ⟨_, rfl, ⟨fun _ => ⟨hfree, fun b hb => (hused b hb).mpr (hall b hb)⟩, fun _ => rfl⟩, fun hlt => ?_⟩
      exact absurd (supply_le h.counted hall) (not_le.mpr hlt)

/-- `bget` panics if the block is not cached and every buffer has a reference or a pin, and only then; there are at
least `NBUF` of them in that case. -/
theorem bget_panics_iff {dev : ℕ} (hdev : dev ≠ 0) (start size : ℕ) (es : List (Event P)) (s : State P)
    (hrun : run dev start size es = some s) (hpanic : s.panic = none) (p : P) (dev' blockno : ℕ) :
    ∃ s', s.bget p dev' blockno = some s' ∧
      (s'.panic = some .bget ↔ (∀ b, b ≠ head → s.home b ≠ (dev', blockno)) ∧
        ∀ b, b ≠ head → 0 < s.refs b ∨ s.Pinned b) ∧
      (s.uses + s.pins.length < NBUF → s'.panic = none) :=
  bget_panics_iff_sound (sound_run hdev hrun) hpanic p dev' blockno

/-- Block 50 is in the log, and process 1 has block 51. -/
def pinAndRead (b : Ptr) : List (Event (Fin 2)) :=
  [.beginOp 0, .bread 0 1 50, .lock 0, .read 0, .logWrite 0 b, .bpin 0, .logged 0, .brelse 0 b, .unref 0,
    .bread 1 1 51, .lock 1, .read 1]

theorem bget_panics_iff_pinAndRead : ∃ s s' : State (Fin 2), run 1 2 30 (pinAndRead 0) = some s ∧ s.uses = 1 ∧ s.pins = [50] ∧
    s.bget 0 1 52 = some s' ∧ s'.panic = none := by
  have hrun : (run 1 2 30 (pinAndRead 0)).map (fun s => (s.panic, s.uses, s.pins)) = some (none, 1, [50]) := by decide +kernel
  obtain ⟨s, hs, heq⟩ := Option.map_eq_some_iff.mp hrun
  simp only [Prod.mk.injEq] at heq
  obtain ⟨hpanic, huses, hpins⟩ := heq
  obtain ⟨s', hget, -, hfine⟩ := bget_panics_iff one_ne_zero 2 30 _ s hs hpanic 0 1 52
  exact ⟨s, s', hs, huses, hpins, hget, hfine (by rw [huses, hpins]; decide)⟩

/-- The processes of `bs` wait in `bread` for blocks of their own, and the others do nothing. -/
structure Waiting (dev : ℕ) (bs : List (P × ℕ)) (s : State P) : Prop where
  panic : s.panic = none
  sound : Sound s
  waits : ∀ x ∈ bs, ∃ b, (s.ctl x.1).call = .locking b ∧ s.home b = (dev, x.2)
  idle : ∀ p, (∀ x ∈ bs, x.1 ≠ p) → (s.ctl p).call = .idle
  op : ∀ p, s.op p = .out

variable {dev : ℕ} {bs as : List (P × ℕ)}

theorem waiting_bread {n : ℕ} (h : Waiting dev bs s) (hp : ∀ x ∈ bs, x.1 ≠ p) :
    ∃ s', s.step (.bread p dev n) = some s' ∧ (s'.panic = some .bget ∨ Waiting dev ((p, n) :: bs) s') := by
  have hidle := h.idle p hp
  have hstep : s.step (.bread p dev n) = s.bget p dev n := by
    unfold State.step State.calls
    rw [if_pos h.panic]
    dsimp only
    rw [hidle, h.op p]
  obtain ⟨s', hget, -⟩ := bget_panics_iff_sound h.sound h.panic p dev n
  obtain ⟨hquiet, hop, hcall⟩ := bget_spec h.sound.ordered hidle hget
  refine ⟨s', hstep.trans hget, hcall.imp_right ?_⟩
  rintro ⟨hpanic, b, hhome, hctl⟩
  refine ⟨hpanic.trans h.panic, sound_step h.sound (hstep.trans hget), fun x hx => ?_, fun q hq => ?_,
    fun q => by rw [hop, h.op q]⟩
  · rcases List.mem_cons.mp hx with rfl | hx
    · exact ⟨b, by rw [hctl, update_self], hhome⟩
    · obtain ⟨c, hc, hold⟩ := h.waits x hx
      have hused := h.sound.counted.refcnt_pos (Ctl.refs_pos_of_ref (c := s.ctl x.1) (b := c) (by rw [hc]; rfl))
      exact ⟨c, by rw [hctl, update_of_ne (hp x hx), hc], (hquiet.home c hused).trans hold⟩
  · rw [hctl, update_of_ne (hq _ List.mem_cons_self).symm]
    exact h.idle q fun x hx => hq x (List.mem_cons_of_mem _ hx)

/-- Some of the processes panics, or they all wait. -/
theorem waiting_breads (h : Waiting dev bs s) (has : (as.map Prod.fst).Nodup)
    (hnew : ∀ a ∈ as, ∀ x ∈ bs, x.1 ≠ a.1) : ∃ k s', k ≤ as.length ∧
      System.exec step s ((as.take k).map fun a => .bread a.1 dev a.2) = some s' ∧
      (s'.panic = some .bget ∨ k = as.length ∧ Waiting dev (as.reverse ++ bs) s') := by
  induction as generalizing bs s with
  | nil => exact ⟨0, s, le_rfl, rfl, .inr ⟨rfl, h⟩⟩
  | cons a as ih =>
    obtain ⟨hmem, has⟩ := List.nodup_cons.mp has
    obtain ⟨s₁, hs₁, hcase⟩ := waiting_bread (n := a.2) h (hnew a List.mem_cons_self)
    rcases hcase with hpanic | hwait
    · exact ⟨1, s₁, by simp, by simp [System.exec, hs₁], .inl hpanic⟩
    · obtain ⟨k, s', hk, hrun, hcase⟩ := ih hwait has fun c hc x hx => by
        rcases List.mem_cons.mp hx with rfl | hx
        · exact fun heq => hmem (List.mem_map.mpr ⟨c, hc, heq.symm⟩)
        · exact hnew c (List.mem_cons_of_mem _ hc) x hx
      refine ⟨k + 1, s', Nat.succ_le_succ hk, ?_, hcase.imp_right fun ⟨heq, hw⟩ => ⟨by rw [heq]; rfl, ?_⟩⟩
      · rwa [List.take_succ_cons, List.map_cons, System.exec, hs₁]
      · simpa using hw

omit [DecidableEq P] in
/-- At most `NBUF` processes wait for different blocks. -/
theorem Waiting.length_le (h : Waiting dev bs s) (hbs : (bs.map Prod.snd).Nodup) :
    bs.length ≤ NBUF := by
  have hsub : (bs.map Prod.snd).toFinset ⊆ (Finset.univ.erase head).image fun b => (s.buf b).blockno := by
    intro n hn
    obtain ⟨x, hx, rfl⟩ := List.mem_map.mp (List.mem_toFinset.mp hn)
    obtain ⟨b, hcall, hhome⟩ := h.waits x hx
    have hb : b ≠ head := h.sound.counted.real x.1 b (Ctl.refs_pos_of_ref (by rw [hcall]; rfl))
    exact mem_image.mpr ⟨b, mem_erase.mpr ⟨hb, mem_univ b⟩, congrArg Prod.snd hhome⟩
  calc bs.length = (bs.map Prod.snd).toFinset.card := by rw [List.toFinset_card_of_nodup hbs, List.length_map]
    _ ≤ ((Finset.univ.erase head).image fun b => (s.buf b).blockno).card := card_le_card hsub
    _ ≤ (Finset.univ.erase head).card := card_image_le
    _ = NBUF := card_buffers

/-- Processes that read more than `NBUF` different blocks at once, one each, make `bget` panic. -/
theorem breads_panic (hdev : dev ≠ 0) (start size : ℕ) (hp : (as.map Prod.fst).Nodup)
    (hn : (as.map Prod.snd).Nodup) (hlen : NBUF < as.length) :
    ∃ k s, run dev start size ((as.take k).map fun a => .bread a.1 dev a.2) = some s ∧ s.panic = some .bget := by
  have hstart : Waiting dev [] (init dev start size : State P) :=
    ⟨rfl, sound_init hdev start size, fun x hx => (List.not_mem_nil hx).elim, fun _ _ => rfl, fun _ => rfl⟩
  obtain ⟨k, s, -, hrun, hpanic | ⟨-, hwait⟩⟩ := waiting_breads hstart hp fun _ _ x hx => (List.not_mem_nil hx).elim
  · exact ⟨k, s, hrun, hpanic⟩
  · have hle := hwait.length_le (by simpa using hn)
    simp at hle
    omega

/-- Readers in `fileread`, each in the `bread` of a block of its file. -/
def readers : List (Slot × ℕ) := (List.range 31).map fun i => (Fin.ofNat NPROC i, 100 + i)

theorem readers_noBuffers : ∃ k s, run 1 2 30 ((readers.take k).map fun a => .bread a.1 1 a.2) = some s ∧
    s.panic = some .bget :=
  breads_panic one_ne_zero 2 30 (by decide +kernel) (by decide +kernel) (by decide +kernel)

end Xv6.Bcache
