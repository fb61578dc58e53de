import Xv6.Sanity.Descriptors

/-! The protocol between the disk driver and the device. The requests are numbered in the order in which they
became available; the rings hold the heads of those that are on their way, and there are never more of them
than descriptors. -/

namespace Xv6.Virtio

open Function List

section Protocol

variable {P B : Type} {start : ℕ} {d d' : Disk P B}

namespace Disk

/-- How the rings, the device and the calls hang together. -/
structure Inv (start : ℕ) (d : Disk P B) : Prop where
  availIdx : d.availIdx = (start + d.requests.length) % 2 ^ 16
  devAvail : d.devAvail = (start + d.taken) % 2 ^ 16
  devUsed : d.devUsed = (start + d.completed.length) % 2 ^ 16
  usedIdx : d.usedIdx = (start + d.raised) % 2 ^ 16
  seenIdx : d.seenIdx = (start + d.cleared.length) % 2 ^ 16
  taken_le : d.taken ≤ d.requests.length
  raised_le : d.raised ≤ d.completed.length
  cleared_le : d.cleared.length ≤ d.raised
  work : (d.todo.map Prod.fst ++ (d.done.map Prod.fst ++ d.completed)).Perm (List.range d.taken)
  heads : ∀ k head, (k, head) ∈ d.todo ∨ (k, head) ∈ d.done → ∃ r, d.requests[k]? = some r ∧ r.head = head
  untaken : ∀ k r, d.taken ≤ k → d.requests[k]? = some r → d.availRing ((start + k) % NUM) = r.head
  next : ∀ p c, d.job p = .submitted c → d.availRing ((start + d.requests.length) % NUM) = c.i0
  used : ∀ j k r, d.cleared.length ≤ j → d.completed[j]? = some k → d.requests[k]? = some r →
    d.usedRing ((start + j) % NUM) = r.head
  tabled : Tabled d.table fun p => (d.job p).chain
  bufs : ∀ p q b, (d.job p).buf = some b → (d.job q).buf = some b → p = q
  alone : ∀ p q c c', d.job p = .submitted c → d.job q = .submitted c' → p = q
  waiting : ∀ p c k, d.job p = .waiting c k → d.requests[k]? = some ⟨p, c.b, c.op, c.i0⟩ ∧ k ∉ d.returned
  live : ∀ k r, d.requests[k]? = some r → k ∉ d.returned → ∃ c, d.job r.caller = .waiting c k
  returned : ∀ k ∈ d.returned, k ∈ d.completed.take d.cleared.length
  performed : ∀ k, k ∈ d.done.map Prod.fst ++ d.completed →
    ∃ r, d.requests[k]? = some r ∧ (k, r.op, r.b) ∈ d.performed
  status : ∀ k r, k ∈ d.done.map Prod.fst ++ d.completed → k ∉ d.returned → d.requests[k]? = some r →
    (d.table.info r.head).status = 0
  clears : d.cleared.map some = (d.completed.take d.cleared.length).map fun k => d.requests[k]?.map Request.b
  flags : ∀ b, d.flag b = true ↔ ∃ p, d.Pending p b

theorem slot_eq {x n : ℕ} (h : x = n % 2 ^ 16) : x % NUM = n % NUM := by
  rw [h]
  exact Counter.slot_mod ⟨2 ^ 13, by norm_num⟩

theorem idx_succ {x n : ℕ} (h : x = (start + n) % 2 ^ 16) : uint16Succ x = (start + (n + 1)) % 2 ^ 16 := by
  rw [← Nat.add_assoc, ← Counter.succ_mod, ← h]
  rfl

namespace Inv

theorem completed_le (h : Inv start d) : d.done.length + d.completed.length ≤ d.taken := by
  have hlen := h.work.length_eq
  simp only [length_append, length_map, length_range] at hlen
  omega

variable {k : ℕ}

section

variable (h : Inv start d)

include h

theorem taken_of_mem (hk : k ∈ d.done.map Prod.fst ++ d.completed) : k < d.taken :=
  mem_range.mp (h.work.subset (mem_append_right _ hk))

theorem completed_nodup : d.completed.Nodup :=
  ((h.work.nodup_iff.mpr nodup_range).of_append_right).of_append_right

/-- Every request whose completion has not been seen has a descriptor of its own. -/
theorem unseen_le (heads : Finset ℕ) (hheads : ∀ p c k, d.job p = .waiting c k → c.i0 ∈ heads) :
    d.requests.length - d.cleared.length ≤ heads.card := by
  set seen := (d.completed.take d.cleared.length).toFinset with hseen
  have hcard : seen.card ≤ d.cleared.length := (toFinset_card_le _).trans (length_take_le _ _)
  have hrest := Finset.le_card_sdiff seen (Finset.range d.requests.length)
  rw [Finset.card_range] at hrest
  -- a request that has not been seen is one that a process waits for
  have hlive : ∀ k ∈ Finset.range d.requests.length \ seen, ∃ p c, d.job p = .waiting c k ∧
      (d.requests[k]?.map Request.head).getD 0 = c.i0 := by
    intro k hk
    rw [Finset.mem_sdiff, Finset.mem_range] at hk
    have hr := List.getElem?_eq_getElem hk.1
    have hret : k ∉ d.returned := fun hmem => hk.2 (mem_toFinset.mpr (h.returned k hmem))
    obtain ⟨c, hc⟩ := h.live k _ hr hret
    refine ⟨_, c, hc, ?_⟩
    rw [(h.waiting _ c k hc).1]
    rfl
  have hle : (Finset.range d.requests.length \ seen).card ≤ heads.card := by
    refine Finset.card_le_card_of_injOn (fun k => (d.requests[k]?.map Request.head).getD 0) ?_ ?_
    · intro k hk
      obtain ⟨p, c, hc, heq⟩ := hlive k hk
      dsimp only
      rw [heq]
      exact hheads p c k hc
    · intro k hk k' hk' heq
      obtain ⟨p, c, hc, hhead⟩ := hlive k hk
      obtain ⟨q, c', hc', hhead'⟩ := hlive k' hk'
      dsimp only at heq
      rw [hhead, hhead'] at heq
      by_cases hpq : p = q
      · subst hpq
        rw [hc] at hc'
        cases hc'
        rfl
      · have hp : (d.job p).chain = some c := by rw [hc]; rfl
        have hq : (d.job q).chain = some c' := by rw [hc']; rfl
        have hdisj := h.tabled.apart p q c c' hpq hp hq
        exact absurd (heq ▸ Chain.i0_mem) (hdisj Chain.i0_mem)
  omega

theorem unseen_le_num : d.requests.length - d.cleared.length ≤ NUM := by
  have hle := h.unseen_le (Finset.range NUM) ?_
  · rwa [Finset.card_range] at hle
  · intro p c k hc
    have hp : (d.job p).chain = some c := by rw [hc]; rfl
    exact Finset.mem_range.mpr ((h.tabled.placed p c hp).bound c.i0 Chain.i0_mem)

theorem sound : d.Sound start := by
  refine ⟨?_, h.tabled.apart, ?_, h.untaken, ?_, h.clears, h.flags⟩
  · intro p c hp
    have hplaced := h.tabled.placed p c hp
    exact ⟨hplaced.nodup, hplaced.bound⟩
  · intro i hi
    constructor
    · intro hfree p c hp hmem
      rw [(h.tabled.placed p c hp).busy i hmem] at hfree
      cases hfree
    · intro hnone
      by_contra hbusy
      obtain ⟨p, c, hp, hmem⟩ := h.tabled.covered i hi (by simpa using hbusy)
      exact hnone p c hp hmem
  · intro k hk
    have hcompleted := mem_of_mem_take (h.returned k hk)
    exact ⟨hcompleted, h.performed k (mem_append_right _ hcompleted)⟩

/-- The head of a request that a process waits for is in its chain. -/
theorem head_of_live {r : Request P B} (hr : d.requests[k]? = some r) (hk : k ∉ d.returned) :
    ∃ c, d.job r.caller = .waiting c k ∧ r = ⟨r.caller, c.b, c.op, c.i0⟩ := by
  obtain ⟨c, hc⟩ := h.live k r hr hk
  have hreq := (h.waiting _ c k hc).1
  rw [hr] at hreq
  exact ⟨c, hc, Option.some.inj hreq⟩

end

end Inv

variable {p : P} {b : B}

theorem pending_iff : d.Pending p b ↔ (∃ c, d.job p = .submitted c ∧ c.b = b) ∨
    ∃ c k, d.job p = .waiting c k ∧ c.b = b ∧ k ∉ d.completed.take d.cleared.length := by
  unfold Pending
  cases d.job p with
  | none | trying b' op | submitted c | waiting c k => simp

theorem pending_buf (h : d.Pending p b) : (d.job p).buf = some b := by
  rcases pending_iff.mp h with ⟨c, hc, rfl⟩ | ⟨c, k, hc, rfl, -⟩
  · rw [hc]; rfl
  · rw [hc]; rfl

theorem pending_congr (hjob : d'.job p = d.job p)
    (hseen : d'.completed.take d'.cleared.length = d.completed.take d.cleared.length) :
    d'.Pending p b ↔ d.Pending p b := by
  unfold Pending
  rw [hjob, hseen]

theorem forget_status (t : Table B) (i j : ℕ) : ((t.forget i).info j).status = (t.info j).status := by
  unfold Table.forget
  by_cases hj : j = i
  · simp [hj]
  · simp [hj]

section Jobs

variable {p q : P} {j x : Job B}

theorem setJob_self [DecidableEq P] : (d.setJob p j).job p = j := update_self _ _ _

theorem setJob_of_ne [DecidableEq P] (hq : q ≠ p) : (d.setJob p j).job q = d.job q := update_of_ne hq _ _

/-- A job that `p` has not got is one that was there before. -/
theorem job_of_setJob [DecidableEq P] (hx : (d.setJob p j).job q = x) (hj : j ≠ x) : q ≠ p ∧ d.job q = x := by
  have hq : q ≠ p := by
    rintro rfl
    rw [setJob_self] at hx
    exact hj hx
  rw [setJob_of_ne hq] at hx
  exact ⟨hq, hx⟩

theorem setJob_chain [DecidableEq P] : (fun q => ((d.setJob p j).job q).chain) = update (fun q => (d.job q).chain) p j.chain := by
  funext q
  by_cases hq : q = p
  · subst hq
    rw [setJob_self, update_self]
  · rw [setJob_of_ne hq, update_of_ne hq]

theorem setJob_chain_same [DecidableEq P] (hchain : j.chain = (d.job p).chain) :
    (fun q => ((d.setJob p j).job q).chain) = fun q => (d.job q).chain := by
  rw [setJob_chain, hchain, update_eq_self]

/-- The buf of a call does not change, so bufs stay apart. -/
theorem bufs_setJob [DecidableEq P] (h : ∀ p q b, (d.job p).buf = some b → (d.job q).buf = some b → p = q)
    (hj : ∀ b, j.buf = some b → ∀ q, q ≠ p → (d.job q).buf ≠ some b) :
    ∀ q q' b, ((d.setJob p j).job q).buf = some b → ((d.setJob p j).job q').buf = some b → q = q' := by
  intro q q' b hq hq'
  by_cases hqp : q = p <;> by_cases hqp' : q' = p
  · rw [hqp, hqp']
  · subst hqp
    rw [setJob_self] at hq
    rw [setJob_of_ne hqp'] at hq'
    exact absurd hq' (hj b hq q' hqp')
  · subst hqp'
    rw [setJob_self] at hq'
    rw [setJob_of_ne hqp] at hq
    exact absurd hq (hj b hq' q hqp)
  · rw [setJob_of_ne hqp] at hq
    rw [setJob_of_ne hqp'] at hq'
    exact h q q' b hq hq'

/-- A request that `p` does not wait for is waited for as before. -/
theorem live_setJob [DecidableEq P] (h : Inv start d) {k : ℕ} {r : Request P B} (hp : ∀ c, d.job p ≠ .waiting c k)
    (hr : d.requests[k]? = some r) (hk : k ∉ d.returned) : ∃ c, (d.setJob p j).job r.caller = .waiting c k := by
  obtain ⟨c, hc⟩ := h.live k r hr hk
  have hne : r.caller ≠ p := fun heq => hp c (heq ▸ hc)
  exact ⟨c, (setJob_of_ne hne).trans hc⟩

/-- If nothing changes for `p`, the same bufs are pending. -/
theorem pending_setJob {b : B} (hp : d'.Pending p b ↔ d.Pending p b) (hother : ∀ q, q ≠ p → d'.job q = d.job q)
    (hseen : d'.completed.take d'.cleared.length = d.completed.take d.cleared.length) :
    (∃ q, d.Pending q b) ↔ ∃ q, d'.Pending q b := by
  refine exists_congr fun q => ?_
  by_cases hq : q = p
  · rw [hq, hp]
  · exact (pending_congr (hother q hq) hseen).symm

end Jobs

namespace Inv

variable {p : P} {b : B} {op : Op} {c : Chain B} {k : ℕ}

/-- A call begins. -/
theorem begin [DecidableEq P] (h : Inv start d) (hp : d.job p = .none) (hb : ∀ q, (d.job q).buf ≠ some b) :
    Inv start (d.setJob p (.trying b op)) := by
  exact { h with
    next := fun q c hq => h.next q c (job_of_setJob hq nofun).2
    tabled := by
      rw [setJob_chain_same (by rw [hp]; rfl)]
      exact h.tabled
    bufs := by
      refine bufs_setJob h.bufs fun b' hb' q _ => ?_
      cases hb'
      exact hb q
    alone := fun q q' c c' hq hq' => h.alone q q' c c' (job_of_setJob hq nofun).2 (job_of_setJob hq' nofun).2
    waiting := fun q c k hq => h.waiting q c k (job_of_setJob hq nofun).2
    live := fun k r => live_setJob h (by rw [hp]; nofun)
    flags := by
      intro b'
      refine (h.flags b').trans (pending_setJob (p := p) ?_ (fun q hq => setJob_of_ne hq) rfl)
      simp [Pending, setJob_self, hp] }

variable {t : Table B} {n : ℕ}

section

variable (h : Inv start d)

include h

/-- There were not three descriptors. -/
theorem refused (hsame : Table.Same d.table t) : Inv start { d with table := t } :=
  { h with
    tabled := h.tabled.same hsame
    status := by
      intro k r hk hret hr
      dsimp only
      rw [hsame.info]
      exact h.status k r hk hret hr }

/-- The request stands in the table and in the avail ring. -/
theorem enqueue [DecidableEq P] [DecidableEq B] (hp : d.job p = .trying c.b op) (hno : ∀ q c', d.job q ≠ .submitted c')
    (htakes : Table.Takes c.idx d.table t) :
    Inv start (d.enqueue p c t) := by
  have hslot := slot_eq h.availIdx
  -- no head of a request in progress is among the new descriptors
  have hnew : ∀ q c', (d.job q).chain = some c' → ∀ i ∈ c'.idx, i ∉ c.idx := by
    intro q c' hq i hi hmem
    have hbusy := (h.tabled.placed q c' hq).busy i hi
    rw [htakes.were i hmem] at hbusy
    cases hbusy
  have hroom : d.requests.length - d.cleared.length ≤ NUM - 1 := by
    have hle := h.unseen_le ((Finset.range NUM).erase c.i0) ?_
    · rwa [Finset.card_erase_of_mem (Finset.mem_range.mpr (htakes.bound _ Chain.i0_mem)), Finset.card_range] at hle
    · intro q c' k hq
      have hchain : (d.job q).chain = some c' := by rw [hq]; rfl
      refine Finset.mem_erase.mpr ⟨?_, Finset.mem_range.mpr ((h.tabled.placed q c' hchain).bound _ Chain.i0_mem)⟩
      intro heq
      exact hnew q c' hchain c'.i0 Chain.i0_mem (heq ▸ Chain.i0_mem)
  have hcompleted := h.completed_le
  have htaken := h.taken_le
  have hraised := h.raised_le
  have hcleared := h.cleared_le
  have hself : (d.enqueue p c t).job p = .submitted c := setJob_self
  exact { h with
    untaken := by
      intro k r hk hr
      have hlt : k < d.requests.length := (List.getElem?_eq_some_iff.mp hr).1
      have hne : (start + k) % NUM ≠ d.availIdx % NUM := by
        rw [hslot]
        refine Counter.slot_ne (by omega) ?_
        unfold NUM at hroom ⊢
        have hk' : d.taken ≤ k := hk
        omega
      rw [show (d.enqueue p c t).availRing = update d.availRing (d.availIdx % NUM) c.i0 from rfl,
        update_of_ne hne]
      exact h.untaken k r hk hr
    next := by
      intro q c' hq
      by_cases hqp : q = p
      · subst hqp
        have hcc : Job.submitted c = Job.submitted c' := setJob_self.symm.trans hq
        cases hcc
        rw [show (d.enqueue q c t).availRing = update d.availRing (d.availIdx % NUM) c.i0 from rfl, hslot]
        exact update_self _ _ _
      · exact absurd ((setJob_of_ne hqp).symm.trans hq) (hno q c')
    tabled := by
      have hnone : (d.job p).chain = none := by rw [hp]; rfl
      have htabled := h.tabled.submit hnone htakes
      have hheld : (fun q => ((d.enqueue p c t).job q).chain) = update (fun q => (d.job q).chain) p (some c) :=
        setJob_chain (d := d) (j := .submitted c)
      rwa [hheld]
    bufs := by
      refine bufs_setJob h.bufs fun b' hb' q hq hbuf => hq ?_
      cases hb'
      exact h.bufs q p c.b hbuf (by rw [hp]; rfl)
    alone := by
      have honly : ∀ q c', (d.setJob p (.submitted c)).job q = .submitted c' → q = p := by
        intro q c' hq
        by_contra hqp
        exact hno q c' ((setJob_of_ne hqp).symm.trans hq)
      intro q q' c₁ c₂ hq hq'
      rw [honly q c₁ hq, honly q' c₂ hq']
    waiting := fun q c' k hq => h.waiting q c' k (job_of_setJob hq nofun).2
    live := fun k r => live_setJob h (by rw [hp]; nofun)
    status := by
      intro k r hk hret hr
      obtain ⟨c', hc, hreq⟩ := h.head_of_live hr hret
      have hchain : (d.job r.caller).chain = some c' := by rw [hc]; rfl
      have hne : r.head ≠ c.i0 := by
        have hhead : r.head = c'.i0 := congrArg Request.head hreq
        rw [hhead]
        intro heq
        exact hnew r.caller c' hchain c'.i0 Chain.i0_mem (heq ▸ Chain.i0_mem)
      have hold := h.status k r hk hret hr
      simpa [Disk.enqueue, Table.format, hne, htakes.info] using hold
    flags := by
      intro b'
      rw [show (d.enqueue p c t).flag = update d.flag c.b true from rfl]
      by_cases hb' : b' = c.b
      · subst hb'
        rw [update_self]
        refine iff_of_true rfl ⟨p, ?_⟩
        exact pending_iff.mpr (.inl ⟨c, hself, rfl⟩)
      · rw [update_of_ne hb', h.flags]
        refine pending_setJob (p := p) (iff_of_false ?_ ?_) (fun q hq => setJob_of_ne hq) rfl
        · intro hpd
          have hbuf := pending_buf hpd
          rw [hself] at hbuf
          exact hb' (Option.some.inj hbuf).symm
        · intro hpd
          have hbuf := pending_buf hpd
          rw [hp] at hbuf
          exact hb' (Option.some.inj hbuf).symm }

/-- `avail->idx` is raised. -/
theorem publish [DecidableEq P] (hp : d.job p = .submitted c) : Inv start (d.publish p c) := by
  set r₀ : Request P B := ⟨p, c.b, c.op, c.i0⟩ with hr₀
  have hreqs : (d.publish p c).requests = d.requests ++ [r₀] := rfl
  have hself : (d.publish p c).job p = .waiting c d.requests.length := setJob_self
  have hother : ∀ q, q ≠ p → (d.publish p c).job q = d.job q := fun q hq => setJob_of_ne hq
  have hlast : (d.requests ++ [r₀])[d.requests.length]? = some r₀ := List.getElem?_concat_length
  have hold : ∀ {k : ℕ} {r : Request P B}, k ≠ d.requests.length → (d.requests ++ [r₀])[k]? = some r → d.requests[k]? = some r := by
    intro k r hk hr
    have hlt := (List.getElem?_eq_some_iff.mp hr).1
    rw [length_append, length_singleton] at hlt
    rwa [List.getElem?_append_left (by omega)] at hr
  have hkeep : ∀ {k : ℕ} {r : Request P B}, d.requests[k]? = some r → (d.requests ++ [r₀])[k]? = some r := by
    intro k r hr
    rwa [List.getElem?_append_left (List.getElem?_eq_some_iff.mp hr).1]
  have htaken := h.taken_le
  -- the requests that the device has performed are older
  have holder : ∀ {k : ℕ}, k ∈ d.done.map Prod.fst ++ d.completed → k ≠ d.requests.length := by
    intro k hk
    have := h.taken_of_mem hk
    omega
  have hnot : ∀ q c', (d.publish p c).job q ≠ .submitted c' := by
    intro q c' hq
    by_cases hqp : q = p
    · rw [hqp, hself] at hq
      cases hq
    · rw [hother q hqp] at hq
      exact hqp (h.alone q p c' c hq hp)
  have hunreturned : d.requests.length ∉ d.returned := by
    intro hmem
    have := h.taken_of_mem (mem_append_right _ (mem_of_mem_take (h.returned _ hmem)))
    omega
  exact { h with
    availIdx := by
      rw [hreqs, length_append]
      exact idx_succ h.availIdx
    taken_le := by
      rw [hreqs, length_append]
      exact htaken.trans (Nat.le_add_right _ _)
    heads := by
      intro k head hk
      obtain ⟨r, hr, hhead⟩ := h.heads k head hk
      exact ⟨r, hkeep hr, hhead⟩
    untaken := by
      intro k r hk hr
      by_cases hnew : k = d.requests.length
      · subst hnew
        rw [hreqs, hlast] at hr
        cases hr
        exact h.next p c hp
      · exact h.untaken k r hk (hold hnew hr)
    next := fun q c' hq => absurd hq (hnot q c')
    used := by
      intro j k r hj hk hr
      exact h.used j k r hj hk (hold (holder (mem_append_right _ (mem_of_getElem? hk))) hr)
    tabled := by
      have hheld : (fun q => ((d.publish p c).job q).chain) = fun q => (d.job q).chain :=
        setJob_chain_same (j := .waiting c d.requests.length) (by rw [hp]; rfl)
      rw [hheld]
      exact h.tabled
    bufs := by
      refine bufs_setJob h.bufs fun b' hb' q hq hbuf => hq ?_
      cases hb'
      exact h.bufs q p c.b hbuf (by rw [hp]; rfl)
    alone := fun q q' c₁ c₂ hq _ => absurd hq (hnot q c₁)
    waiting := by
      intro q c' k hq
      by_cases hqp : q = p
      · subst hqp
        rw [hself] at hq
        cases hq
        exact ⟨hlast, hunreturned⟩
      · rw [hother q hqp] at hq
        obtain ⟨hr, hret⟩ := h.waiting q c' k hq
        exact ⟨hkeep hr, hret⟩
    live := by
      intro k r hr hk
      by_cases hnew : k = d.requests.length
      · subst hnew
        rw [hreqs, hlast] at hr
        cases hr
        exact ⟨c, hself⟩
      · exact live_setJob h (by rw [hp]; nofun) (hold hnew hr) hk
    performed := by
      intro k hk
      obtain ⟨r, hr, hperf⟩ := h.performed k hk
      exact ⟨r, hkeep hr, hperf⟩
    status := fun k r hk hret hr => h.status k r hk hret (hold (holder hk) hr)
    clears := by
      rw [show (d.publish p c).cleared = d.cleared from rfl, h.clears]
      refine map_congr_left fun k hk => ?_
      have hmem := h.taken_of_mem (mem_append_right _ (mem_of_mem_take hk))
      rw [hreqs, List.getElem?_append_left (by omega)]
    flags := by
      intro b'
      rw [show (d.publish p c).flag = d.flag from rfl, h.flags]
      have hunseen : d.requests.length ∉ d.completed.take d.cleared.length := by
        intro hmem
        have := h.taken_of_mem (mem_append_right _ (mem_of_mem_take hmem))
        omega
      refine pending_setJob (p := p) ?_ hother rfl
      unfold Pending
      rw [hp, hself]
      exact ⟨fun hb => hb.1, fun hb => ⟨hb, hunseen⟩⟩ }

/-- A request whose flag has been cleared is one whose completion has been seen. -/
theorem seen_of_flag (hp : d.job p = .waiting c k) (hflag : d.flag c.b = false) :
    k ∈ d.completed.take d.cleared.length := by
  by_contra hk
  have hpend : d.Pending p c.b := pending_iff.mpr (.inr ⟨c, k, hp, rfl, hk⟩)
  rw [(h.flags c.b).mpr ⟨p, hpend⟩] at hflag
  cases hflag

/-- A call that sees its flag cleared frees its chain and returns. -/
theorem finish [DecidableEq P] (hp : d.job p = .waiting c k) (hflag : d.flag c.b = false) :
    ∃ d', d.finish p c k = .ok d' ∧ Inv start d' ∧ d'.job = update d.job p .none := by
  have hchain : (d.job p).chain = some c := by rw [hp]; rfl
  have hplaced := h.tabled.placed p c hchain
  obtain ⟨t, hok, hfrees⟩ := Table.freeAll_ok (t := d.table.forget c.i0) hplaced.nodup hplaced.bound hplaced.busy
  have hfree : (d.table.forget c.i0).freeChain c.i0 = .ok t :=
    (freeChain_eq (t := d.table.forget c.i0) hplaced.nodup hplaced.first hplaced.second.2 hplaced.third).trans hok
  set d₁ : Disk P B := { d.setJob p .none with table := t, returned := d.returned ++ [k] } with hd₁
  have hself : d₁.job p = .none := setJob_self
  have hseen := h.seen_of_flag hp hflag
  refine ⟨d₁, by unfold Disk.finish; rw [hfree], ?_, rfl⟩
  have hret : ∀ {x}, x ∉ d₁.returned → x ∉ d.returned ∧ x ≠ k := by
    intro x hx
    rwa [hd₁, mem_append, mem_singleton, not_or] at hx
  exact { h with
    next := fun q c' hq => h.next q c' (job_of_setJob hq nofun).2
    tabled := by
      have hheld : (fun q => (d₁.job q).chain) = update (fun q => (d.job q).chain) p none :=
        setJob_chain (d := d) (j := .none)
      rw [hheld]
      exact h.tabled.release hchain hfrees
    bufs := bufs_setJob h.bufs nofun
    alone := fun q q' c₁ c₂ hq hq' => h.alone q q' c₁ c₂ (job_of_setJob hq nofun).2 (job_of_setJob hq' nofun).2
    waiting := by
      intro q c' k' hq
      obtain ⟨hqp, hq⟩ := job_of_setJob hq nofun
      obtain ⟨hr, hk'⟩ := h.waiting q c' k' hq
      refine ⟨hr, ?_⟩
      rw [hd₁, mem_append, mem_singleton, not_or]
      refine ⟨hk', ?_⟩
      -- another process waits for another request
      rintro rfl
      rw [(h.waiting p c k' hp).1] at hr
      exact hqp (congrArg Request.caller (Option.some.inj hr)).symm
    live := by
      intro k' r hr hk'
      obtain ⟨hk', hne⟩ := hret hk'
      refine live_setJob h (fun c' hc => hne ?_) hr hk'
      cases hp.symm.trans hc
      rfl
    returned := by
      intro k' hk'
      rw [hd₁, mem_append, mem_singleton] at hk'
      rcases hk' with hk' | rfl
      · exact h.returned k' hk'
      · exact hseen
    status := by
      intro k' r hk' hx hr
      obtain ⟨hx, -⟩ := hret hx
      have hold := h.status k' r hk' hx hr
      rwa [show d₁.table.info = (d.table.forget c.i0).info from hfrees.info, forget_status]
    flags := by
      intro b'
      rw [show d₁.flag = d.flag from rfl, h.flags]
      refine pending_setJob (p := p) ?_ (fun q hq => setJob_of_ne hq) rfl
      unfold Pending
      rw [hp, hself]
      exact iff_of_false id fun hb => hb.2 hseen }

/-- The next completion that the driver will see. -/
theorem next_completed (hne : d.seenIdx ≠ d.usedIdx) :
    ∃ k c p, d.completed[d.cleared.length]? = some k ∧ d.job p = .waiting c k ∧
      d.requests[k]? = some ⟨p, c.b, c.op, c.i0⟩ ∧ k ∉ d.completed.take d.cleared.length ∧
      d.usedRing (d.seenIdx % NUM) = c.i0 ∧ (d.table.info c.i0).status = 0 := by
  have hcleared := h.cleared_le
  have hraised := h.raised_le
  have hlt : d.cleared.length < d.completed.length := by
    refine lt_of_le_of_ne (hcleared.trans hraised) fun heq => hne ?_
    rw [h.seenIdx, h.usedIdx, show d.raised = d.cleared.length by omega]
  have hk : d.completed[d.cleared.length]? = some (d.completed.get ⟨_, hlt⟩) := List.getElem?_eq_getElem hlt
  set k := d.completed.get ⟨_, hlt⟩
  have hmem : k ∈ d.done.map Prod.fst ++ d.completed := mem_append_right _ (mem_of_getElem? hk)
  have hunseen : k ∉ d.completed.take d.cleared.length := by
    intro hin
    have hnodup := h.completed_nodup
    rw [← take_append_drop d.cleared.length d.completed, nodup_append] at hnodup
    refine hnodup.2.2 k hin k ?_ rfl
    refine mem_of_getElem? (i := 0) ?_
    rw [List.getElem?_drop, Nat.add_zero, hk]
  have hret : k ∉ d.returned := fun hin => hunseen (h.returned k hin)
  obtain ⟨r, hr, -⟩ := h.performed k hmem
  obtain ⟨c, hc, hreq⟩ := h.head_of_live hr hret
  have hhead : r.head = c.i0 := congrArg Request.head hreq
  refine ⟨k, c, r.caller, hk, hc, by rw [hr, ← hreq], hunseen, ?_, ?_⟩
  · rw [slot_eq h.seenIdx, h.used _ k r le_rfl hk hr, hhead]
  · rw [← hhead]
    exact h.status k r hmem hret hr

/-- The interrupt handler sees one completion, and clears the flag of the buf that asked for it. -/
theorem intrRound [DecidableEq B] (hne : d.seenIdx ≠ d.usedIdx) :
    ∃ b d', d.intrRound = .ok (b, d') ∧ Inv start d' ∧ d'.job = d.job := by
  obtain ⟨k, c, p, hk, hp, hr, hunseen, hslot, hstatus⟩ := h.next_completed hne
  have hchain : (d.job p).chain = some c := by rw [hp]; rfl
  have hbuf := (h.tabled.placed p c hchain).buf
  have hlt : d.cleared.length < d.raised := by
    refine lt_of_le_of_ne h.cleared_le fun heq => hne ?_
    rw [h.seenIdx, h.usedIdx, heq]
  set d₁ : Disk P B := { d with
    flag := update d.flag c.b false
    seenIdx := uint16Succ d.seenIdx
    cleared := d.cleared ++ [c.b] } with hd₁
  have hround : d.intrRound = .ok (c.b, d₁) := by
    unfold Disk.intrRound
    dsimp only
    rw [hslot, if_neg (by rw [hstatus]; exact not_not.mpr rfl), hbuf]
  have hlen : d₁.cleared.length = d.cleared.length + 1 := by
    rw [hd₁, length_append, length_singleton]
  have hseen : d.completed.take d₁.cleared.length = d.completed.take d.cleared.length ++ [k] := by
    rw [hlen, take_add_one, hk]
    rfl
  refine ⟨c.b, d₁, hround, ?_, rfl⟩
  exact { h with
    seenIdx := by
      rw [hlen]
      exact idx_succ h.seenIdx
    cleared_le := by
      rwa [hlen]
    used := by
      intro j k' r hj hk' hr'
      rw [hlen] at hj
      exact h.used j k' r (by omega) hk' hr'
    returned := by
      intro k' hk'
      rw [hseen]
      exact mem_append_left _ (h.returned k' hk')
    clears := by
      have happend : (d.cleared ++ [c.b]).map some =
          (d.completed.take d.cleared.length ++ [k]).map fun k => d.requests[k]?.map Request.b := by
        rw [map_append, map_append, h.clears, map_singleton, map_singleton, hr]
        rfl
      rwa [hseen]
    flags := by
      intro b'
      by_cases hb' : b' = c.b
      · subst hb'
        rw [show d₁.flag = update d.flag c.b false from rfl, update_self]
        refine iff_of_false Bool.false_ne_true ?_
        rintro ⟨q, hq⟩
        -- whoever has `b` waits for the request that has been seen
        have hbuf' : (d.job q).buf = some c.b := pending_buf (d := d₁) hq
        have hqp : q = p := h.bufs q p c.b hbuf' (by rw [hp]; rfl)
        subst hqp
        unfold Pending at hq
        rw [show d₁.job q = .waiting c k from hp] at hq
        refine hq.2 ?_
        rw [hseen]
        exact mem_append_right _ (mem_singleton_self k)
      · rw [show d₁.flag = update d.flag c.b false from rfl, update_of_ne hb', h.flags]
        refine exists_congr fun q => ?_
        rw [pending_iff, pending_iff]
        refine or_congr Iff.rfl (exists_congr fun c' => exists_congr fun k' => ?_)
        refine and_congr_right fun hq => and_congr_right fun hbq => ?_
        rw [hseen, mem_append, mem_singleton, not_or]
        refine ⟨fun hk' => ⟨hk', ?_⟩, fun hk' => hk'.1⟩
        -- the request that has been seen is for another buf
        rintro rfl
        have hreq := (h.waiting q c' k' hq).1
        rw [hr] at hreq
        exact hb' (hbq.symm.trans (congrArg Request.b (Option.some.inj hreq)).symm) }

theorem take (hd : d.take = some d') : Inv start d' ∧ d'.job = d.job := by
  unfold Disk.take at hd
  split at hd
  case isTrue => cases hd
  case isFalse hne =>
  cases hd
  have htaken := h.taken_le
  have hlt : d.taken < d.requests.length := by
    refine lt_of_le_of_ne htaken fun heq => hne ?_
    rw [h.devAvail, h.availIdx, heq]
  refine ⟨{ h with
    devAvail := idx_succ h.devAvail
    taken_le := hlt
    work := ?_
    heads := ?_
    untaken := fun k r hk hr => h.untaken k r (Nat.le_of_succ_le hk) hr }, rfl⟩
  · dsimp only
    rw [map_append, range_succ, append_assoc]
    refine (perm_append_comm_assoc _ _ _).trans ?_
    exact (perm_append_comm).trans (h.work.append_right _)
  · intro k head hk
    rcases hk with hk | hk
    · rcases mem_append.mp hk with hk | hk
      · exact h.heads k head (.inl hk)
      · cases mem_singleton.mp hk
        have hr := List.getElem?_eq_getElem hlt
        refine ⟨_, hr, ?_⟩
        rw [slot_eq h.devAvail, h.untaken _ _ le_rfl hr]
    · exact h.heads k head (.inr hk)

theorem raise (hd : d.raise = some d') : Inv start d' ∧ d'.job = d.job := by
  unfold Disk.raise at hd
  split at hd
  case isTrue => cases hd
  case isFalse hne =>
  cases hd
  have hlt : d.raised < d.completed.length := by
    refine lt_of_le_of_ne h.raised_le fun heq => hne ?_
    rw [h.usedIdx, h.devUsed, heq]
  exact ⟨{ h with
    usedIdx := idx_succ h.usedIdx
    raised_le := hlt
    cleared_le := h.cleared_le.trans (Nat.le_succ _) }, rfl⟩

/-- What the device has not yet put into the used ring has not been seen. -/
theorem unreturned (hk : k ∈ d.todo.map Prod.fst ∨ k ∈ d.done.map Prod.fst) : k ∉ d.returned := by
  intro hret
  have hcompleted := mem_of_mem_take (h.returned k hret)
  have hnodup := h.work.nodup_iff.mpr nodup_range
  rw [nodup_append, nodup_append] at hnodup
  rcases hk with hk | hk
  · exact hnodup.2.2 k hk k (mem_append_right _ hcompleted) rfl
  · exact hnodup.2.1.2.2 k hk k hcompleted rfl

end

theorem perm_moved {α : Type} {as bs cs : List α} {x : α} (hx : as[n]? = some x) :
    (as.eraseIdx n ++ (bs ++ [x] ++ cs)).Perm (as ++ (bs ++ cs)) := by
  obtain ⟨hlt, rfl⟩ := List.getElem?_eq_some_iff.mp hx
  have hfront : (as.eraseIdx n ++ (bs ++ [as[n]] ++ cs)).Perm (as[n] :: as.eraseIdx n ++ (bs ++ cs)) := by
    rw [append_assoc bs, cons_append]
    refine (List.Perm.append_left _ (perm_middle)).trans ?_
    exact perm_middle
  exact hfront.trans ((getElem_cons_eraseIdx_perm hlt).append_right _)

/-- The device performs the request that was made. -/
theorem perform {res : Except String (Disk P B)} (h : Inv start d) (hd : d.perform n = some res) :
    ∃ d', res = .ok d' ∧ Inv start d' ∧ d'.job = d.job := by
  unfold Disk.perform at hd
  cases hn : d.todo[n]? with
  | none =>
    rw [hn] at hd
    cases hd
  | some x =>
  obtain ⟨k, head⟩ := x
  have hmem : (k, head) ∈ d.todo := mem_of_getElem? hn
  obtain ⟨r, hr, hhead⟩ := h.heads k head (.inl hmem)
  have hret : k ∉ d.returned := h.unreturned (.inl (mem_map_of_mem hmem))
  obtain ⟨c, hc, hreq⟩ := h.head_of_live hr hret
  have hi0 : head = c.i0 := hhead.symm.trans (congrArg Request.head hreq)
  have hchain : (d.job r.caller).chain = some c := by rw [hc]; rfl
  have hfetch := (h.tabled.placed _ c hchain).fetch
  rw [← hi0] at hfetch
  rw [hn] at hd
  dsimp only at hd
  rw [hfetch] at hd
  cases hd
  refine ⟨_, rfl, { h with
    work := ?_
    heads := ?_
    tabled := h.tabled.status head
    performed := ?_
    status := ?_ }, rfl⟩
  · dsimp only
    rw [map_append, map_singleton, ← eraseIdx_map]
    refine (perm_moved ?_).trans h.work
    rw [List.getElem?_map, hn]
    rfl
  · intro k' head' hk'
    rcases hk' with hk' | hk'
    · exact h.heads k' head' (.inl (mem_of_mem_eraseIdx hk'))
    · rcases mem_append.mp hk' with hk' | hk'
      · exact h.heads k' head' (.inr hk')
      · cases mem_singleton.mp hk'
        exact ⟨r, hr, hhead⟩
  · intro k' hk'
    rw [map_append, append_assoc, mem_append, mem_append] at hk'
    rcases hk' with hk' | hk' | hk'
    · obtain ⟨r', hr', hperf⟩ := h.performed k' (mem_append_left _ hk')
      exact ⟨r', hr', mem_append_left _ hperf⟩
    · rw [map_singleton, mem_singleton] at hk'
      subst hk'
      refine ⟨r, hr, mem_append_right _ ?_⟩
      rw [hreq]
      exact mem_singleton_self _
    · obtain ⟨r', hr', hperf⟩ := h.performed k' (mem_append_right _ hk')
      exact ⟨r', hr', mem_append_left _ hperf⟩
  · intro k' r' hk' hret' hr'
    by_cases heq : r'.head = head
    · simp [Table.setStatus, heq]
    · have hmem' : k' ∈ d.done.map Prod.fst ++ d.completed := by
        rw [map_append, append_assoc, mem_append, mem_append] at hk'
        rcases hk' with hk' | hk' | hk'
        · exact mem_append_left _ hk'
        · rw [map_singleton, mem_singleton] at hk'
          subst hk'
          rw [hr] at hr'
          cases hr'
          exact absurd hhead heq
        · exact mem_append_right _ hk'
      simpa [Table.setStatus, heq] using h.status k' r' hmem' hret' hr'

theorem complete (h : Inv start d) (hd : d.complete n = some d') : Inv start d' ∧ d'.job = d.job := by
  unfold Disk.complete at hd
  cases hn : d.done[n]? with
  | none =>
    rw [hn] at hd
    cases hd
  | some x =>
  obtain ⟨k, head⟩ := x
  rw [hn] at hd
  cases hd
  have hmem : (k, head) ∈ d.done := mem_of_getElem? hn
  obtain ⟨r, hr, hhead⟩ := h.heads k head (.inr hmem)
  have hdone : 0 < d.done.length := length_pos_of_mem hmem
  have hcompleted := h.completed_le
  have htaken := h.taken_le
  have hraised := h.raised_le
  have hcleared := h.cleared_le
  have hunseen := h.unseen_le_num
  have hseen : (d.completed ++ [k]).take d.cleared.length = d.completed.take d.cleared.length :=
    take_append_of_le_length (by omega)
  have hsub : ∀ k', k' ∈ (d.done.eraseIdx n).map Prod.fst ++ (d.completed ++ [k]) → k' ∈ d.done.map Prod.fst ++ d.completed := by
    intro k' hk'
    rw [← append_assoc, mem_append, mem_append] at hk'
    rcases hk' with (hk' | hk') | hk'
    · rw [← eraseIdx_map] at hk'
      exact mem_append_left _ (mem_of_mem_eraseIdx hk')
    · exact mem_append_right _ hk'
    · rw [mem_singleton] at hk'
      subst hk'
      exact mem_append_left _ (mem_map_of_mem hmem)
  refine ⟨{ h with
    devUsed := ?_
    raised_le := ?_
    work := ?_
    heads := ?_
    used := ?_
    returned := ?_
    performed := fun k' hk' => h.performed k' (hsub k' hk')
    status := fun k' r' hk' hret' hr' => h.status k' r' (hsub k' hk') hret' hr'
    clears := ?_
    flags := ?_ }, rfl⟩
  · rw [length_append]
    exact idx_succ h.devUsed
  · dsimp only
    rw [length_append]
    omega
  · dsimp only
    refine List.Perm.trans (List.Perm.append_left _ ?_) h.work
    rw [← eraseIdx_map]
    have hx : (d.done.map Prod.fst)[n]? = some k := by
      rw [List.getElem?_map, hn]
      rfl
    have hmoved : ((d.done.map Prod.fst).eraseIdx n ++ (d.completed ++ [k] ++ [])).Perm
        (d.done.map Prod.fst ++ (d.completed ++ [])) := perm_moved hx
    simpa using hmoved
  · intro k' head' hk'
    rcases hk' with hk' | hk'
    · exact h.heads k' head' (.inl hk')
    · exact h.heads k' head' (.inr (mem_of_mem_eraseIdx hk'))
  · intro j k' r' hj hk' hr'
    dsimp only at hj hk' hr' ⊢
    rw [slot_eq h.devUsed]
    by_cases hlast : j = d.completed.length
    · subst hlast
      rw [List.getElem?_concat_length] at hk'
      cases hk'
      rw [hr] at hr'
      cases hr'
      rw [update_self, hhead]
    · have hlt := (List.getElem?_eq_some_iff.mp hk').1
      rw [length_append, length_singleton] at hlt
      have hne : (start + j) % NUM ≠ (start + d.completed.length) % NUM := by
        refine Counter.slot_ne (by omega) ?_
        unfold NUM at hunseen ⊢
        omega
      rw [update_of_ne hne]
      rw [List.getElem?_append_left (by omega)] at hk'
      exact h.used j k' r' hj hk' hr'
  · intro k' hk'
    dsimp only
    rw [hseen]
    exact h.returned k' hk'
  · dsimp only
    rw [hseen]
    exact h.clears
  · intro b'
    rw [h.flags]
    refine exists_congr fun q => Iff.symm ?_
    exact pending_congr (by rfl) hseen

end Inv

end Disk

namespace State

variable {s s' : State P B} {p : P}

/-- What holds between any two steps. -/
structure Ok (start : ℕ) (s : State P B) : Prop where
  inv : s.disk.Inv start
  sane : s.panicked = none
  lock : ∀ p, s.phase p = .locked → s.lock = some (.proc p)
  out : ∀ p, s.phase p = .out ↔ s.disk.job p = .none
  busy : ∀ p c, s.disk.job p = .submitted c → s.phase p = .locked
  owner : ∀ p b, (s.disk.job p).buf = some b → s.sleepLock b = some p

/-- Some of those that sleep are woken. -/
def Wakes (s s' : State P B) : Prop :=
  ∀ q, s'.phase q = s.phase q ∨ (s.phase q = .asleep ∧ s'.phase q = .woken)

theorem woken_iff {x y : Phase} (h : y = x ∨ (x = .asleep ∧ y = .woken)) (ph : Phase) (hasleep : ph ≠ .asleep)
    (hwoken : ph ≠ .woken) : y = ph ↔ x = ph := by
  rcases h with rfl | ⟨rfl, rfl⟩
  · rfl
  · exact iff_of_false hwoken.symm hasleep.symm

theorem wakeFree_wakes (s : State P B) : Wakes s s.wakeFree := by
  intro q
  unfold wakeFree
  dsimp only
  split
  · rename_i hq _
    exact .inr ⟨hq, rfl⟩
  · exact .inl rfl

theorem wakeBuf_wakes [DecidableEq B] (s : State P B) (b : B) : Wakes s (s.wakeBuf b) := by
  intro q
  unfold wakeBuf
  dsimp only
  split
  · rename_i hq _
    split
    · exact .inr ⟨hq, rfl⟩
    · exact .inl hq.symm
  · exact .inl rfl

section

variable (h : Ok start s)

include h

theorem Ok.wake (hw : Wakes s s') (hdisk : s'.disk = s.disk) (hlock : s'.lock = s.lock)
    (hsleep : s'.sleepLock = s.sleepLock) (hpanic : s'.panicked = s.panicked) : Ok start s' := by
  refine ⟨hdisk ▸ h.inv, hpanic.trans h.sane, ?_, ?_, ?_, ?_⟩
  · intro q hq
    rw [hlock]
    exact h.lock q ((woken_iff (hw q) .locked nofun nofun).mp hq)
  · intro q
    rw [hdisk, woken_iff (hw q) .out nofun nofun, h.out]
  · intro q c hq
    rw [hdisk] at hq
    exact (woken_iff (hw q) .locked nofun nofun).mpr (h.busy q c hq)
  · intro q b hq
    rw [hdisk] at hq
    rw [hsleep]
    exact h.owner q b hq

/-- A step of the disk that leaves the calls alone. -/
theorem Ok.device (hinv : d.Inv start) (hjob : d.job = s.disk.job) :
    Ok start { s with disk := d } :=
  ⟨hinv, h.sane, h.lock, by rw [hjob]; exact h.out, by rw [hjob]; exact h.busy, by rw [hjob]; exact h.owner⟩

theorem Ok.locked_eq {q : P} (hp : s.phase p = .locked) (hq : s.phase q = .locked) : q = p := by
  have hlock := h.lock q hq
  rw [h.lock p hp] at hlock
  cases hlock
  rfl

/-- Process `p` goes on with its call while nobody else has the lock; others may be woken. -/
theorem Ok.move (hinv : s'.disk.Inv start) (hsane : s'.panicked = none)
    (hsleep : s'.sleepLock = s.sleepLock) (hnone : ∀ q, q ≠ p → s.phase q ≠ .locked)
    (hwake : ∀ q, q ≠ p → s'.phase q = s.phase q ∨ (s.phase q = .asleep ∧ s'.phase q = .woken))
    (hjob : ∀ q, q ≠ p → s'.disk.job q = s.disk.job q) (hlock : s'.phase p = .locked → s'.lock = some (.proc p))
    (hout : s'.phase p = .out ↔ s'.disk.job p = .none) (hbusy : ∀ c, s'.disk.job p = .submitted c → s'.phase p = .locked)
    (hown : ∀ b, (s'.disk.job p).buf = some b → s.sleepLock b = some p) : Ok start s' := by
  refine ⟨hinv, hsane, fun q hq => ?_, fun q => ?_, fun q c hq => ?_, fun q b hq => ?_⟩
  all_goals by_cases hqp : q = p
  · rw [hqp] at hq ⊢
    exact hlock hq
  · exact absurd ((woken_iff (hwake q hqp) .locked nofun nofun).mp hq) (hnone q hqp)
  · rwa [hqp]
  · rw [hjob q hqp, woken_iff (hwake q hqp) .out nofun nofun]
    exact h.out q
  · rw [hqp] at hq ⊢
    exact hbusy c hq
  · rw [hjob q hqp] at hq
    exact absurd (h.busy q c hq) (hnone q hqp)
  · rw [hqp] at hq ⊢
    rw [hsleep]
    exact hown b hq
  · rw [hjob q hqp] at hq
    rw [hsleep]
    exact h.owner q b hq

/-- A process goes to another place in its call and leaves the lock to others. -/
theorem Ok.goto [DecidableEq P] {ph : Phase} {lock : Option (Holder P)}
    (hp : s.phase p = .locked ∨ ∀ q, s.phase q ≠ .locked) (hlocked : ph = .locked → lock = some (.proc p))
    (hout : ph = .out ↔ s.disk.job p = .none) (hno : ∀ c, s.disk.job p ≠ .submitted c) :
    Ok start { s.goto p ph with lock := lock } := by
  have hself : (s.goto p ph).phase p = ph := update_self _ _ _
  refine h.move (p := p) h.inv h.sane rfl (fun q hq hlk => ?_) (fun q hq => .inl (update_of_ne hq _ _)) (fun _ _ => rfl)
    (fun hq => hlocked (hself.symm.trans hq)) ?_ (fun c hc => absurd hc (hno c)) (h.owner p)
  · rcases hp with hp | hp
    · exact hq (h.locked_eq hp hlk)
    · exact hp q hlk
  · rwa [show (s.goto p ph).phase p = ph from hself]

theorem Ok.unlocked (hlock : s.lock = none ∨ s.lock = some .intr) : ∀ q, s.phase q ≠ .locked := by
  intro q hq
  rw [h.lock q hq] at hlock
  rcases hlock with hlock | hlock <;> cases hlock

/-- The call of a process that has the lock goes on to another job. -/
theorem Ok.setJob [DecidableEq P] {j : Job B} (hp : s.phase p = .locked) (hinv : d.Inv start)
    (hjob : d.job = update s.disk.job p j) (hj : j ≠ .none) (hbuf : j.buf = (s.disk.job p).buf) :
    Ok start { s with disk := d } := by
  have hself : d.job p = j := by rw [hjob, update_self]
  refine h.move (p := p) hinv h.sane rfl (fun q hq hlk => hq (h.locked_eq hp hlk)) (fun _ _ => .inl rfl)
    (fun q hq => ?_) (h.lock p) ?_ (fun _ _ => hp) fun b hb => h.owner p b ?_
  · exact (congrFun hjob q).trans (update_of_ne hq _ _)
  · rw [show d.job p = j from hself]
    exact iff_of_false (by rw [show s.phase p = .locked from hp]; nofun) hj
  · rwa [← hbuf, ← hself]

/-- A call returns, and wakes those that want its descriptors. -/
theorem Ok.leave [DecidableEq P] (hp : s.phase p = .locked) (hinv : d.Inv start)
    (hjob : d.job = update s.disk.job p .none) :
    Ok start { { s with disk := d }.wakeFree.goto p .out with lock := none } := by
  set s₁ : State P B := { s with disk := d }.wakeFree
  have hself : d.job p = .none := by rw [hjob, update_self]
  have hphase : (s₁.goto p .out).phase p = .out := update_self _ _ _
  refine h.move (p := p) hinv h.sane rfl (fun q hq hlk => hq (h.locked_eq hp hlk)) (fun q hq => ?_) (fun q hq => ?_)
    (fun hq => ?_) (iff_of_true hphase hself) (fun c hc => ?_) fun b hb => ?_
  · rw [show (s₁.goto p .out).phase q = s₁.phase q from update_of_ne hq _ _]
    exact wakeFree_wakes { s with disk := d } q
  · exact (congrFun hjob q).trans (update_of_ne hq _ _)
  · cases hphase.symm.trans hq
  · cases hself.symm.trans hc
  · change (d.job p).buf = some b at hb
    rw [hself] at hb
    cases hb

/-- What a process with the lock does next. -/
theorem Ok.go [DecidableEq P] [DecidableEq B] (hp : s.phase p = .locked) (hs : s.go p = some s') : Ok start s' := by
  unfold State.go at hs
  cases hjob : s.disk.job p with
  | none =>
    rw [hjob] at hs
    cases hs
  | trying b op =>
    rw [hjob] at hs
    dsimp only [Disk.submit] at hs
    have hno : ∀ q c, s.disk.job q ≠ .submitted c := by
      intro q c hq
      have hqp := h.locked_eq hp (h.busy q c hq)
      rw [hqp, hjob] at hq
      cases hq
    rcases s.disk.table.alloc3Desc_ok with ⟨i0, i1, i2, t, hok, htakes⟩ | ⟨t, hok, hsame⟩
    · rw [hok] at hs
      cases hs
      set c : Chain B := ⟨b, op, i0, i1, i2⟩
      exact h.setJob hp (h.inv.enqueue (c := c) hjob hno htakes) (j := .submitted c) rfl nofun (by rw [hjob]; rfl)
    · rw [hok] at hs
      have hrefused : Ok start { s with disk := { s.disk with table := t } } := h.device (h.inv.refused hsame) rfl
      have hsleep : Ok start ({ s with disk := { s.disk with table := t } }.sleep p) := by
        refine hrefused.goto (.inl hp) nofun (iff_of_false nofun ?_) ?_
        · intro hnone
          cases hjob.symm.trans hnone
        · intro c
          exact hno p c
      dsimp only at hs
      split at hs
      · cases hs
        have hwake := hrefused.wake (wakeFree_wakes _) rfl rfl rfl rfl
        refine hwake.goto (.inl ?_) nofun (iff_of_false nofun ?_) ?_
        · exact (woken_iff (wakeFree_wakes _ p) .locked nofun nofun).mpr hp
        · intro hnone
          cases hjob.symm.trans hnone
        · intro c
          exact hno p c
      · cases hs
        exact hsleep
  | submitted c =>
    rw [hjob] at hs
    cases hs
    exact h.setJob hp (h.inv.publish hjob) (j := .waiting c s.disk.requests.length) rfl nofun (by rw [hjob]; rfl)
  | waiting c k =>
    rw [hjob] at hs
    dsimp only at hs
    split at hs
    case isTrue hflag =>
      cases hs
      refine h.goto (.inl hp) nofun (iff_of_false nofun ?_) ?_
      · rw [hjob]
        nofun
      · rw [hjob]
        nofun
    case isFalse hflag =>
      obtain ⟨d, hok, hinv, hnone⟩ := h.inv.finish hjob (by simpa using hflag)
      rw [hok] at hs
      cases hs
      exact h.leave hp hinv hnone

/-- A call of `virtio_disk_rw` begins. -/
theorem Ok.begin [DecidableEq P] {b : B} {op : Op} (hout : s.phase p = .out) (hb : s.sleepLock b = some p)
    (hlock : s.lock = none) : Ok start (s.virtioDiskRw p b op) := by
  have hnone : s.disk.job p = .none := (h.out p).mp hout
  have hfree : ∀ q, (s.disk.job q).buf ≠ some b := by
    intro q hq
    have howner := h.owner q b hq
    rw [hb] at howner
    cases howner
    rw [hnone] at hq
    cases hq
  have hself : (s.virtioDiskRw p b op).disk.job p = .trying b op := update_self _ _ _
  have hphase : (s.virtioDiskRw p b op).phase p = .locked := update_self _ _ _
  refine h.move (p := p) (h.inv.begin hnone hfree) h.sane rfl (fun q _ => h.unlocked (.inl hlock) q)
    (fun q hq => .inl (update_of_ne hq _ _)) (fun q hq => update_of_ne hq _ _) (fun _ => rfl)
    (iff_of_false ?_ ?_) (fun c _ => hphase) fun b' hb' => ?_
  · rw [hphase]
    nofun
  · rw [hself]
    nofun
  · rw [hself] at hb'
    cases hb'
    exact hb

/-- One round of the interrupt handler. -/
theorem Ok.round [DecidableEq B] (hlock : s.lock = some .intr) : Ok start s.round := by
  have hunlocked := h.unlocked (.inr hlock)
  unfold State.round
  split
  case isTrue => exact { h with lock := fun q hq => absurd hq (hunlocked q) }
  case isFalse hne =>
    obtain ⟨b, d, hok, hinv, hjob⟩ := h.inv.intrRound hne
    rw [hok]
    exact (h.device hinv hjob).wake (wakeBuf_wakes _ b) rfl rfl rfl rfl

theorem ok_step [DecidableEq P] [DecidableEq B] {e : Event P B} (hs : s.step e = some s') : Ok start s' := by
  have hsane : ¬s.panicked.isSome = true := by
    rw [h.sane]
    exact Bool.false_ne_true
  unfold State.step at hs
  rw [if_neg hsane] at hs
  cases e
  case' acquiresleep | releasesleep | virtioDiskRw | kill | virtioDiskIntr | round =>
    simp only [Option.ite_none_right_eq_some, Option.some.injEq] at hs
    obtain ⟨hguard, rfl⟩ := hs
  case acquiresleep p b =>
    refine { h with owner := fun q b' hq => ?_ }
    have howner := h.owner q b' hq
    have hne : b' ≠ b := by
      rintro rfl
      rw [hguard.2] at howner
      cases howner
    exact (update_of_ne hne _ _).trans howner
  case releasesleep p b =>
    refine { h with owner := fun q b' hq => ?_ }
    have howner := h.owner q b' hq
    have hne : b' ≠ b := by
      rintro rfl
      rw [hguard.2] at howner
      cases howner
      rw [(h.out p).mp hguard.1] at hq
      cases hq
    exact (update_of_ne hne _ _).trans howner
  case virtioDiskRw p b blockno write =>
    exact h.begin hguard.1 hguard.2.1 hguard.2.2
  case run p =>
    dsimp only at hs
    split at hs
    case h_1 hp => exact h.go hp hs
    case h_2 hp =>
      split at hs
      case isFalse => cases hs
      case isTrue hlock =>
      cases hs
      have hunlocked := h.unlocked (.inl hlock)
      have hjob : s.disk.job p ≠ .none := by
        intro hnone
        rw [(h.out p).mpr hnone] at hp
        cases hp
      refine h.goto (.inr hunlocked) (fun _ => rfl) (iff_of_false nofun hjob) fun c hc => ?_
      exact hunlocked p (h.busy p c hc)
    case h_3 => cases hs
  case kill p =>
    refine h.wake (fun q => ?_) rfl rfl rfl rfl
    by_cases hqp : q = p
    · subst hqp
      exact .inr ⟨hguard, update_self _ _ _⟩
    · exact .inl (update_of_ne hqp _ _)
  case virtioDiskIntr =>
    have hunlocked := h.unlocked (.inl hguard)
    exact { h with lock := fun q hq => absurd hq (hunlocked q) }
  case round =>
    exact h.round hguard
  case take =>
    obtain ⟨d, hd, rfl⟩ := Option.map_eq_some_iff.mp hs
    obtain ⟨hinv, hjob⟩ := h.inv.take hd
    exact h.device hinv hjob
  case perform n =>
    obtain ⟨res, hd, hs⟩ := Option.map_eq_some_iff.mp hs
    obtain ⟨d, rfl, hinv, hjob⟩ := h.inv.perform hd
    subst hs
    exact h.device hinv hjob
  case complete n =>
    obtain ⟨d, hd, rfl⟩ := Option.map_eq_some_iff.mp hs
    obtain ⟨hinv, hjob⟩ := h.inv.complete hd
    exact h.device hinv hjob
  case raise =>
    obtain ⟨d, hd, rfl⟩ := Option.map_eq_some_iff.mp hs
    obtain ⟨hinv, hjob⟩ := h.inv.raise hd
    exact h.device hinv hjob

end

theorem ok_init (start : ℕ) : Ok start (init start : State P B) := by
  refine ⟨?_, rfl, nofun, fun p => iff_of_true rfl rfl, nofun, nofun⟩
  have htabled : Tabled (init start : State P B).disk.table fun p => ((init start : State P B).disk.job p).chain :=
    ⟨nofun, nofun, nofun⟩
  constructor
  case tabled => exact htabled
  case flags => exact fun b => iff_of_false nofun (fun ⟨p, hp⟩ => hp)
  all_goals simp [init, Job.buf]

end State

end Protocol

section Runs

variable {P B : Type} [DecidableEq P] [DecidableEq B]

/-- The driver never panics and keeps the protocol with the device, whatever the device and the processes do. -/
theorem virtio_sound (start : ℕ) (es : List (Event P B)) :
    ∀ s, State.run start es = some s → s.panicked = none ∧ s.disk.Sound start := by
  intro s hs
  have hok : s.Ok start :=
    System.exec_invariant State.step (State.ok_init start) (fun s e s' h hs => State.ok_step h hs) es s hs
  exact ⟨hok.sane, hok.inv.sound⟩

/-- Three calls: the first two get descriptors, the device completes the second one first, and the third sleeps
until one of them returns. The 16-bit indices wrap. -/
def outOfOrder : List (Event (Fin 3) (Fin 3)) :=
  [.acquiresleep 0 0, .acquiresleep 1 1, .acquiresleep 2 2,
    .virtioDiskRw 0 0 7 true, .run 0, .run 0, .run 0, .virtioDiskRw 1 1 8 false, .run 1, .run 1, .run 1,
    .virtioDiskRw 2 2 9 false, .run 2, .take, .take, .perform 1, .complete 0, .raise, .perform 0, .virtioDiskIntr, .round,
    .complete 0, .raise, .round, .round, .run 1, .run 1, .run 0, .run 0, .run 2, .run 2]

theorem outOfOrder_sound : ∃ s : State (Fin 3) (Fin 3), State.run (2 ^ 16 - 1) outOfOrder = some s ∧
    s.disk.returned = [1, 0] ∧ s.disk.cleared = [1, 0] ∧ s.disk.seenIdx = 1 ∧
    s.panicked = none ∧ s.disk.Sound (2 ^ 16 - 1) := by
  have hrun : (State.run (P := Fin 3) (B := Fin 3) (2 ^ 16 - 1) outOfOrder).map
      (fun s => (s.disk.returned, s.disk.cleared, s.disk.seenIdx)) = some ([1, 0], [1, 0], 1) := by decide +kernel
  obtain ⟨s, hs, hmap⟩ := Option.map_eq_some_iff.mp hrun
  obtain ⟨hret, hrest⟩ := Prod.mk.inj hmap
  obtain ⟨hcleared, hseen⟩ := Prod.mk.inj hrest
  obtain ⟨hsane, hsound⟩ := virtio_sound _ _ s hs
  exact ⟨s, hs, hret, hcleared, hseen, hsane, hsound⟩

end Runs

end Xv6.Virtio
