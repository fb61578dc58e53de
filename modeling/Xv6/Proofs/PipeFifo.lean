import Xv6.Sanity.PipeSteps

/-! A pipe hands over the bytes in the order in which they were put in. The bytes between
`nread` and `nwrite`, counted modulo 2^32 and stored modulo `PIPESIZE`, are the ones
that have been put in and not yet been taken. -/

namespace Xv6.Pipe

open State Function List

section Content

variable (data : ℕ → UInt8) (r c : ℕ)

theorem content_succ : content data r (c + 1) = content data r c ++ [data ((r + c) % PIPESIZE)] := by
  simp [content, range_succ]

theorem content_uint : content data (uint r) c = content data r c := by
  unfold content uint PIPESIZE
  refine map_congr_left fun k _ => ?_
  congr 1
  omega

theorem content_cons : content data r (c + 1) = data (r % PIPESIZE) :: content data (r + 1) c := by
  induction c with
  | zero => simp [content]
  | succ c ih =>
    rw [content_succ, ih, content_succ data (r + 1), cons_append, show r + 1 + c = r + (c + 1) by omega]

/-- A byte stored behind the others does not touch them. -/
theorem content_update {c : ℕ} (hc : c < PIPESIZE) (ch : UInt8) :
    content (update data ((r + c) % PIPESIZE) ch) r c = content data r c := by
  refine map_congr_left fun k hk => ?_
  rw [mem_range] at hk
  refine update_of_ne ?_ _ _
  unfold PIPESIZE at hc ⊢
  omega

end Content

variable {P : Type}

/-- The user addresses of the call are good for all of it. -/
def Event.Copies : Event P → Prop
  | .pipewrite _ n src => n ≤ src.length
  | .piperead _ n room => n ≤ room
  | _ => True

/-- The number of bytes in the pipe, `nwrite - nread` as a `uint`. -/
def State.count (s : State P) : ℕ := (s.nwrite + 2 ^ 32 - s.nread) % 2 ^ 32

/-- The bytes that a call of `pipewrite` has put in so far. -/
def State.bytesOf (s : State P) (call : ℕ) : List UInt8 := (s.put.filter fun x => x.1 = some call).map Prod.snd

variable {s s' : State P} {e : Event P} {p : P}

section Fits

/-- In `piperead`, no `copyout` will fail. -/
def Pc.fits : Pc → Prop
  | .read n room | .readAsleep n room | .readWoken n room | .readCopy n room _ => n ≤ room
  | _ => True

theorem Pc.Wakes.fits {c c' : Pc} (h : c.Wakes c') (hc : c.fits) : c'.fits := by
  cases h with
  | same | reader => exact hc
  | writer => trivial

def Fits (s : State P) : Prop := ∀ q, (s.pc q).fits

variable [DecidableEq P]

theorem fits_does (he : e.Copies) (h : Fits s) (hd : Does s e s') : Fits s' := by
  intro q
  by_cases hq : q = e.proc
  · subst hq
    have hp := h e.proc
    cases hd with
    | @startRead p n room =>
      have hroom : n ≤ room := he
      simpa [goto, Event.proc, Pc.fits] using hroom
    | close => exact (pipeclose_wakes s _ _).fits hp
    | kill => exact (kill_wakes s _ _).fits hp
    | empty _ _ hpc | ready _ _ hpc | resumeRead _ _ hpc | take _ _ _ hpc =>
      simp only [Event.proc, hpc] at hp
      simpa [goto, Event.proc, Pc.fits] using hp
    | _ => simp [goto, leave, leaveWrite, Event.proc, Pc.fits]
  · exact (does_others hd hq).fits (h q)

end Fits

section Queue

/-- There are `c` bytes in the pipe. -/
structure Queue (s : State P) (c : ℕ) : Prop where
  small : c ≤ PIPESIZE
  range : s.nread < 2 ^ 32
  nwrite : s.nwrite = uint (s.nread + c)
  bytes : s.put.map Prod.snd = s.got ++ content s.data s.nread c

theorem Queue.count {c : ℕ} (h : Queue s c) : s.count = c := by
  obtain ⟨hsmall, hrange, hnwrite, -⟩ := h
  unfold State.count
  rw [hnwrite]
  unfold uint
  unfold PIPESIZE at hsmall
  omega

/-- Nothing but the two ends of the queue matters. -/
theorem Queue.congr {c : ℕ} (h : Queue s c) (hdata : s'.data = s.data) (hnread : s'.nread = s.nread)
    (hnwrite : s'.nwrite = s.nwrite) (hput : s'.put = s.put) (hgot : s'.got = s.got) : Queue s' c := by
  obtain ⟨hsmall, hrange, hn, hbytes⟩ := h
  exact ⟨hsmall, by rwa [hnread], by rw [hnwrite, hnread, hn], by rw [hput, hgot, hdata, hnread, hbytes]⟩

theorem Queue.put {c : ℕ} (h : Queue s c) (hspace : s.nwrite ≠ uint (s.nread + PIPESIZE)) (call : ℕ) (ch : UInt8)
    (pc : P → Pc) : Queue { s with
      pc := pc, data := update s.data (s.nwrite % PIPESIZE) ch, nwrite := uint (s.nwrite + 1),
      put := s.put ++ [(some call, ch)] } (c + 1) := by
  obtain ⟨hsmall, hrange, hnwrite, hbytes⟩ := h
  have hc : c < PIPESIZE := by
    refine lt_of_le_of_ne hsmall ?_
    rintro rfl
    exact hspace hnwrite
  -- 2^32 is a multiple of PIPESIZE
  have hslot : s.nwrite % PIPESIZE = (s.nread + c) % PIPESIZE := by
    rw [hnwrite]
    unfold uint PIPESIZE
    omega
  refine ⟨hc, hrange, ?_, ?_⟩
  · dsimp only
    rw [hnwrite]
    unfold uint
    omega
  · dsimp only
    rw [map_append, hbytes, hslot, content_succ, content_update s.data s.nread hc, update_self,
      append_assoc]
    rfl

theorem Queue.take {c : ℕ} (h : Queue s c) (hdata : s.nread ≠ s.nwrite) (pc : P → Pc) : Queue { s with
      pc := pc, nread := uint (s.nread + 1), got := s.got ++ [s.data (s.nread % PIPESIZE)] } (c - 1) := by
  obtain ⟨hsmall, hrange, hnwrite, hbytes⟩ := h
  obtain ⟨d, rfl⟩ : ∃ d, c = d + 1 := by
    refine ⟨c - 1, ?_⟩
    have : c ≠ 0 := by
      rintro rfl
      refine hdata ?_
      rw [hnwrite]
      unfold uint
      omega
    omega
  refine ⟨by omega, ?_, ?_, ?_⟩
  · exact Nat.mod_lt _ (by decide)
  · dsimp only
    rw [hnwrite]
    unfold uint
    omega
  · dsimp only
    rw [Nat.add_sub_cancel, content_uint, hbytes, content_cons, append_assoc]
    rfl

variable [DecidableEq P]

theorem queue_does (hfits : Fits s) (h : ∃ c, Queue s c) (hd : Does s e s') : ∃ c, Queue s' c := by
  obtain ⟨c, h⟩ := h
  cases hd with
  | put call n src start i ch hpc hopen hkilled hspace => exact ⟨c + 1, h.put hspace call ch _⟩
  | take n room i hpc hdata => exact ⟨c - 1, h.take hdata _⟩
  | @lose p n room i hpc hn hroom =>
    have := hfits p
    rw [hpc] at this
    have : n ≤ room := this
    omega
  | close writable =>
    refine ⟨c, ?_⟩
    unfold pipeclose
    split_ifs <;> exact h.congr rfl rfl rfl rfl rfl
  | _ => exact ⟨c, h.congr rfl rfl rfl rfl rfl⟩

end Queue

section Ready

/-- The copy loop starts with bytes to copy, or behind the last writer. -/
def Ready (s : State P) : Prop :=
  ∀ q n room, s.pc q = .readCopy n room 0 → s.nread ≠ s.nwrite ∨ s.writeopen = false

variable [DecidableEq P]

/-- While a process holds the lock, the others change neither the counters nor the ends. -/
theorem does_frame (hlocked : Locked s) (hd : Does s e s') {q : P} (hq : q ≠ e.proc) (hheld : (s.pc q).locked) :
    s'.nread = s.nread ∧ s'.nwrite = s.nwrite ∧ s'.writeopen = s.writeopen := by
  have hq' := (hlocked q).mpr hheld
  have hnot {p : P} (hp : (s.pc p).locked) (hne : q ≠ p) : False :=
    hne (Option.some.inj (hq'.symm.trans ((hlocked p).mpr hp)))
  cases hd with
  | close writable hlock => cases hq'.symm.trans hlock
  | @put p call n src start i ch hpc | @take p n room i hpc | @lose p n room i hpc =>
    exact (hnot (p := p) (by rw [hpc]; trivial) hq).elim
  | _ => exact ⟨rfl, rfl, rfl⟩

theorem ready_does (hlocked : Locked s) (h : Ready s) (hd : Does s e s') : Ready s' := by
  intro q n room hq
  by_cases hqp : q = e.proc
  · subst hqp
    cases hd with
    | ready n room hpc hready =>
      rwa [not_and_or, Bool.not_eq_true] at hready
    | @close p writable hlock =>
      have hq : (s.pipeclose writable).pc p = .readCopy n room 0 := hq
      have hsame := (pipeclose_wakes s writable p).eq_of_locked (by rw [hq]; trivial)
      have hheld : (s.pc p).locked := by rw [← hsame, hq]; trivial
      cases hlock.symm.trans ((hlocked p).mpr hheld)
    | kill =>
      have hsame := (kill_wakes s _ _).eq_of_locked (by rw [hq]; trivial)
      exact h _ n room (hsame ▸ hq)
    | _ => simp [goto, leave, leaveWrite, Event.proc] at hq
  · have hsame := (does_others hd hqp).eq_of_locked (by rw [hq]; trivial)
    have hold : s.pc q = .readCopy n room 0 := hsame ▸ hq
    obtain ⟨hr, hw, ho⟩ := does_frame hlocked hd hqp (by rw [hold]; trivial)
    rw [hr, hw, ho]
    exact h q n room hold

end Ready

section Sources

/-- Each call puts in the bytes of its source, in their order and from the first one on. -/
structure Sources (s : State P) : Prop where
  active : ∀ q call src i, (s.pc q).writing = some (call, src, i) →
    s.calls[call]? = some src ∧ s.bytesOf call = src.take i ∧ i ≤ src.length
  alone : ∀ q r call src i src' i', (s.pc q).writing = some (call, src, i) →
    (s.pc r).writing = some (call, src', i') → q = r
  initial : ∀ call, s.bytesOf call <+: s.calls.getD call []
  done : ∀ call r, (call, r) ∈ s.wrote → (∀ q src i, (s.pc q).writing ≠ some (call, src, i)) ∧
    call < s.calls.length ∧ (0 ≤ r → r = (s.bytesOf call).length)

theorem Sources.congr (h : Sources s) (hpc : ∀ q, (s'.pc q).writing = (s.pc q).writing) (hcalls : s'.calls = s.calls)
    (hput : s'.put = s.put) (hwrote : s'.wrote = s.wrote) : Sources s' := by
  have hbytes : ∀ call, s'.bytesOf call = s.bytesOf call := fun call => by rw [bytesOf, hput]; rfl
  constructor
  · intro q call src i hq
    rw [hpc] at hq
    rw [hcalls, hbytes]
    exact h.active q call src i hq
  · intro q r call src i src' i' hq hr
    rw [hpc] at hq hr
    exact h.alone q r call src i src' i' hq hr
  · intro call
    rw [hbytes, hcalls]
    exact h.initial call
  · intro call r hr
    rw [hwrote] at hr
    simp only [hpc, hcalls, hbytes]
    exact h.done call r hr

section

variable (h : Sources s) (hothers : ∀ q, q ≠ p → (s'.pc q).writing = (s.pc q).writing)

include h hothers

theorem sources_start {src : List UInt8}
    (hp : (s'.pc p).writing = some (s.calls.length, src, 0)) (hcalls : s'.calls = s.calls ++ [src])
    (hput : s'.put = s.put) (hwrote : s'.wrote = s.wrote) : Sources s' := by
  have hbytes : ∀ call, s'.bytesOf call = s.bytesOf call := fun call => by rw [bytesOf, hput]; rfl
  have hnew : s.bytesOf s.calls.length = [] := by
    have := h.initial s.calls.length
    simpa using this
  have hold {q : P} {call : ℕ} {src' : List UInt8} {i : ℕ} (hq : (s.pc q).writing = some (call, src', i)) :
      call < s.calls.length := by
    have := (h.active q call src' i hq).1
    exact (List.getElem?_eq_some_iff.mp this).1
  constructor
  · intro q call src' i hq
    rw [hcalls, hbytes]
    by_cases hqp : q = p
    · subst hqp
      cases hp.symm.trans hq
      simp [hnew]
    · rw [hothers q hqp] at hq
      have hlt := hold hq
      rw [List.getElem?_append_left hlt]
      exact h.active q call src' i hq
  · intro q r call src₁ i src₂ j hq hr
    by_cases hqp : q = p <;> by_cases hrp : r = p
    · rw [hqp, hrp]
    · subst hqp
      cases hp.symm.trans hq
      rw [hothers r hrp] at hr
      exact absurd (hold hr) (lt_irrefl _)
    · subst hrp
      cases hp.symm.trans hr
      rw [hothers q hqp] at hq
      exact absurd (hold hq) (lt_irrefl _)
    · rw [hothers q hqp] at hq
      rw [hothers r hrp] at hr
      exact h.alone q r call src₁ i src₂ j hq hr
  · intro call
    rw [hbytes, hcalls]
    rcases lt_or_ge call s.calls.length with hlt | hge
    · rw [getD_append _ _ _ _ hlt]
      exact h.initial call
    · have := h.initial call
      rw [getD_eq_default _ _ hge, prefix_nil] at this
      rw [this]
      exact nil_prefix
  · intro call r hr
    rw [hwrote] at hr
    obtain ⟨hfree, hlt, hlen⟩ := h.done call r hr
    rw [hcalls, hbytes]
    refine ⟨fun q src' i hq => ?_, by simp; omega, hlen⟩
    by_cases hqp : q = p
    · subst hqp
      cases hp.symm.trans hq
      exact lt_irrefl _ hlt
    · rw [hothers q hqp] at hq
      exact hfree q src' i hq

theorem sources_put {call i : ℕ} {src : List UInt8} {ch : UInt8} (hold : (s.pc p).writing = some (call, src, i))
    (hp : (s'.pc p).writing = some (call, src, i + 1)) (hch : src[i]? = some ch) (hcalls : s'.calls = s.calls)
    (hput : s'.put = s.put ++ [(some call, ch)]) (hwrote : s'.wrote = s.wrote) : Sources s' := by
  obtain ⟨hsrc, hbytes, -⟩ := h.active p call src i hold
  have hi : i < src.length := (List.getElem?_eq_some_iff.mp hch).1
  have hthis : s'.bytesOf call = src.take (i + 1) := by
    rw [bytesOf, hput, filter_append, map_append]
    change s.bytesOf call ++ _ = _
    rw [hbytes, take_add_one, hch]
    simp
  have hother : ∀ k, k ≠ call → s'.bytesOf k = s.bytesOf k := by
    intro k hk
    rw [bytesOf, hput, filter_append, map_append]
    simp [bytesOf, Ne.symm hk]
  have hone {q : P} {k : ℕ} {src' : List UInt8} {j : ℕ} (hqp : q ≠ p) (hq : (s.pc q).writing = some (k, src', j)) :
      k ≠ call := by
    rintro rfl
    exact hqp (h.alone q p k src' j src i hq hold)
  constructor
  · intro q k src' j hq
    rw [hcalls]
    by_cases hqp : q = p
    · subst hqp
      cases hp.symm.trans hq
      exact ⟨hsrc, hthis, hi⟩
    · rw [hothers q hqp] at hq
      rw [hother k (hone hqp hq)]
      exact h.active q k src' j hq
  · intro q r k src₁ j₁ src₂ j₂ hq hr
    by_cases hqp : q = p <;> by_cases hrp : r = p
    · rw [hqp, hrp]
    · subst hqp
      cases hp.symm.trans hq
      rw [hothers r hrp] at hr
      exact absurd rfl (hone hrp hr)
    · subst hrp
      cases hp.symm.trans hr
      rw [hothers q hqp] at hq
      exact absurd rfl (hone hqp hq)
    · rw [hothers q hqp] at hq
      rw [hothers r hrp] at hr
      exact h.alone q r k src₁ j₁ src₂ j₂ hq hr
  · intro k
    rw [hcalls]
    by_cases hk : k = call
    · subst hk
      rw [hthis, getD_eq_getElem?_getD, hsrc]
      exact take_prefix _ _
    · rw [hother k hk]
      exact h.initial k
  · intro k r hr
    rw [hwrote] at hr
    obtain ⟨hfree, hlt, hlen⟩ := h.done k r hr
    have hk : k ≠ call := by
      rintro rfl
      exact hfree p src i hold
    rw [hcalls, hother k hk]
    refine ⟨fun q src' j hq => ?_, hlt, hlen⟩
    by_cases hqp : q = p
    · subst hqp
      cases hp.symm.trans hq
      exact hk rfl
    · rw [hothers q hqp] at hq
      exact hfree q src' j hq

theorem sources_return {call i : ℕ}
    {src : List UInt8} {r : ℤ} (hold : (s.pc p).writing = some (call, src, i)) (hp : (s'.pc p).writing = none)
    (hr : 0 ≤ r → r = i) (hcalls : s'.calls = s.calls) (hput : s'.put = s.put)
    (hwrote : s'.wrote = s.wrote ++ [(call, r)]) : Sources s' := by
  have hbytes : ∀ call, s'.bytesOf call = s.bytesOf call := fun call => by rw [bytesOf, hput]; rfl
  obtain ⟨hsrc, htake, hi⟩ := h.active p call src i hold
  have hpc {q : P} {x : ℕ × List UInt8 × ℕ} (hq : (s'.pc q).writing = some x) : q ≠ p ∧ (s.pc q).writing = some x := by
    have hqp : q ≠ p := by
      rintro rfl
      cases hp.symm.trans hq
    exact ⟨hqp, hothers q hqp ▸ hq⟩
  constructor
  · intro q k src' j hq
    rw [hcalls, hbytes]
    exact h.active q k src' j (hpc hq).2
  · intro q q' k src₁ j₁ src₂ j₂ hq hq'
    exact h.alone q q' k src₁ j₁ src₂ j₂ (hpc hq).2 (hpc hq').2
  · intro k
    rw [hbytes, hcalls]
    exact h.initial k
  · intro k r' hk
    rw [hwrote, mem_append, mem_singleton] at hk
    rw [hcalls, hbytes]
    rcases hk with hk | hk
    · obtain ⟨hfree, hlt, hlen⟩ := h.done k r' hk
      exact ⟨fun q src' j hq => hfree q src' j (hpc hq).2, hlt, hlen⟩
    · cases hk
      refine ⟨fun q src' j hq => ?_, (List.getElem?_eq_some_iff.mp hsrc).1, fun hr0 => ?_⟩
      · exact (hpc hq).1 (h.alone q p call src' j src i (hpc hq).2 hold)
      · rw [htake, length_take, Nat.min_eq_left hi]
        exact hr hr0

end

variable [DecidableEq P]

/-- What the others are writing does not change. -/
theorem does_writing (hd : Does s e s') {q : P} (hq : q ≠ e.proc) : (s'.pc q).writing = (s.pc q).writing :=
  (does_others hd hq).writing

theorem sources_does (h : Sources s) (hd : Does s e s') : Sources s' := by
  have hothers : ∀ q, q ≠ e.proc → (s'.pc q).writing = (s.pc q).writing := fun q => does_writing hd
  have hsame (hp : (s'.pc e.proc).writing = (s.pc e.proc).writing) (q : P) :
      (s'.pc q).writing = (s.pc q).writing := by
    by_cases hq : q = e.proc
    · rw [hq, hp]
    · exact hothers q hq
  cases hd with
  | startWrite n src => exact sources_start h hothers (by simp [goto, Event.proc, Pc.writing]) rfl rfl rfl
  | @put p call n src start i ch hpc _ _ _ hch =>
    have hold : (s.pc p).writing = some (call, src, i) := by rw [hpc]; rfl
    exact sources_put h hothers hold (by simp [goto, Event.proc, Pc.writing]) hch rfl rfl rfl
  | @refuse p call n src start i hpc =>
    have hold : (s.pc p).writing = some (call, src, i) := by rw [hpc]; rfl
    exact sources_return h hothers hold (by simp [goto, leaveWrite, leave, Event.proc, Pc.writing])
      (fun h0 => by omega) rfl rfl rfl
  | @wrote p call n src start i hpc =>
    have hold : (s.pc p).writing = some (call, src, i) := by rw [hpc]; rfl
    exact sources_return h hothers hold (by simp [goto, leaveWrite, leave, Event.proc, Pc.writing])
      (fun _ => rfl) rfl rfl rfl
  | close writable =>
    refine h.congr (hsame (pipeclose_wakes s writable _).writing) ?_ ?_ ?_ <;>
      · unfold pipeclose
        split_ifs <;> rfl
  | kill => exact h.congr (hsame (kill_wakes s _ _).writing) rfl rfl rfl
  | startRead n room hpc | giveUp n room hpc | empty n room hpc | ready n room hpc | resumeRead n room hpc
  | take n room i hpc | lose n room i hpc | drained n room i hpc =>
    exact h.congr (hsame (by simp [goto, leave, Event.proc, hpc, Pc.writing])) rfl rfl rfl
  | full call n src start i hpc | resumeWrite call n src i hpc =>
    exact h.congr (hsame (by simp [goto, Event.proc, hpc, Pc.writing])) rfl rfl rfl

end Sources

section Order

/-- The bytes of one process are in the order of its calls. -/
def State.Sorted (s : State P) : Prop := s.put.Pairwise fun x y =>
  ∀ k l q, x.1 = some k → y.1 = some l → s.callers[k]? = some q → s.callers[l]? = some q → k ≤ l

structure Order (s : State P) : Prop where
  length : s.callers.length = s.calls.length
  latest : ∀ q call src i, (s.pc q).writing = some (call, src, i) →
    s.callers[call]? = some q ∧ ∀ k, s.callers[k]? = some q → k ≤ call
  known : ∀ x ∈ s.put, ∀ k, x.1 = some k → k < s.callers.length
  sorted : s.Sorted

theorem Order.congr (h : Order s) (hpc : ∀ q x, (s'.pc q).writing = some x → (s.pc q).writing = some x)
    (hcallers : s'.callers = s.callers) (hcalls : s'.calls = s.calls) (hput : s'.put = s.put) : Order s' := by
  obtain ⟨hlength, hlatest, hknown, hsorted⟩ := h
  refine ⟨by rw [hcallers, hcalls, hlength], fun q call src i hq => ?_, ?_, ?_⟩
  · rw [hcallers]
    exact hlatest q call src i (hpc q _ hq)
  · rwa [hput, hcallers]
  · unfold State.Sorted
    rwa [hput, hcallers]

theorem order_start (h : Order s) (hothers : ∀ q, q ≠ p → (s'.pc q).writing = (s.pc q).writing) {src : List UInt8}
    (hp : (s'.pc p).writing = some (s.calls.length, src, 0)) (hcallers : s'.callers = s.callers ++ [p])
    (hcalls : s'.calls = s.calls ++ [src]) (hput : s'.put = s.put) : Order s' := by
  obtain ⟨hlength, hlatest, hknown, hsorted⟩ := h
  have hold {k : ℕ} (hk : k < s.callers.length) : (s.callers ++ [p])[k]? = s.callers[k]? :=
    List.getElem?_append_left hk
  have hlt {k : ℕ} {q : P} (hk : (s.callers ++ [p])[k]? = some q) : k < s.callers.length + 1 := by
    have := (List.getElem?_eq_some_iff.mp hk).1
    simpa using this
  refine ⟨by simp [hcallers, hcalls, hlength], fun q call src' i hq => ?_, fun x hx k hk => ?_, ?_⟩
  · rw [hcallers]
    by_cases hqp : q = p
    · subst hqp
      cases hp.symm.trans hq
      refine ⟨by simp [← hlength], fun k hk => ?_⟩
      have := hlt hk
      omega
    · rw [hothers q hqp] at hq
      obtain ⟨hcall, hle⟩ := hlatest q call src' i hq
      refine ⟨?_, fun k hk => ?_⟩
      · rw [hold (List.getElem?_eq_some_iff.mp hcall).1, hcall]
      · rcases Nat.lt_succ_iff_lt_or_eq.mp (hlt hk) with hkl | hkl
        · exact hle k (by rwa [hold hkl] at hk)
        · -- the newest call is one of `p`
          subst hkl
          simp at hk
          exact absurd hk.symm hqp
  · rw [hput] at hx
    have := hknown x hx k hk
    rw [hcallers, length_append]
    omega
  · unfold State.Sorted at hsorted ⊢
    rw [hput, hcallers]
    refine hsorted.imp_of_mem fun hx hy hxy k l q hk hl hkq hlq => ?_
    rw [hold (hknown _ hx k hk)] at hkq
    rw [hold (hknown _ hy l hl)] at hlq
    exact hxy k l q hk hl hkq hlq

theorem order_put (h : Order s) (hothers : ∀ q, q ≠ p → (s'.pc q).writing = (s.pc q).writing) {call i : ℕ}
    {src : List UInt8} {ch : UInt8} (hold : (s.pc p).writing = some (call, src, i))
    (hp : (s'.pc p).writing = some (call, src, i + 1)) (hcallers : s'.callers = s.callers) (hcalls : s'.calls = s.calls)
    (hput : s'.put = s.put ++ [(some call, ch)]) : Order s' := by
  obtain ⟨hlength, hlatest, hknown, hsorted⟩ := h
  obtain ⟨hcaller, hle⟩ := hlatest p call src i hold
  refine ⟨by rw [hcallers, hcalls, hlength], fun q k src' j hq => ?_, fun x hx k hk => ?_, ?_⟩
  · rw [hcallers]
    by_cases hqp : q = p
    · subst hqp
      cases hp.symm.trans hq
      exact ⟨hcaller, hle⟩
    · rw [hothers q hqp] at hq
      exact hlatest q k src' j hq
  · rw [hput, mem_append, mem_singleton] at hx
    rw [hcallers]
    rcases hx with hx | rfl
    · exact hknown x hx k hk
    · cases hk
      exact (List.getElem?_eq_some_iff.mp hcaller).1
  · unfold State.Sorted at hsorted ⊢
    rw [hput, hcallers, pairwise_append]
    refine ⟨hsorted, pairwise_singleton _ _, fun x _ y hy k l q _ hl hkq hlq => ?_⟩
    rw [mem_singleton] at hy
    subst hy
    cases hl
    cases hcaller.symm.trans hlq
    exact hle k hkq

variable [DecidableEq P]

theorem order_does (h : Order s) (hd : Does s e s') : Order s' := by
  have hothers : ∀ q, q ≠ e.proc → (s'.pc q).writing = (s.pc q).writing := fun q => does_writing hd
  have hkept (hp : ∀ x, (s'.pc e.proc).writing = some x → (s.pc e.proc).writing = some x) (q : P)
      (x : ℕ × List UInt8 × ℕ) (hx : (s'.pc q).writing = some x) : (s.pc q).writing = some x := by
    by_cases hq : q = e.proc
    · rw [hq] at hx ⊢
      exact hp x hx
    · rwa [hothers q hq] at hx
  cases hd with
  | startWrite n src => exact order_start h hothers (by simp [goto, Event.proc, Pc.writing]) rfl rfl rfl
  | @put p call n src start i ch hpc =>
    have hold : (s.pc p).writing = some (call, src, i) := by rw [hpc]; rfl
    exact order_put h hothers hold (by simp [goto, Event.proc, Pc.writing]) rfl rfl rfl
  | close writable =>
    refine h.congr (hkept fun x hx => (pipeclose_wakes s writable _).writing ▸ hx) ?_ ?_ ?_ <;>
      · unfold pipeclose
        split_ifs <;> rfl
  | kill => exact h.congr (hkept fun x hx => (kill_wakes s _ _).writing ▸ hx) rfl rfl rfl
  | full call n src start i hpc | resumeWrite call n src i hpc =>
    exact h.congr (hkept (by simp [goto, Event.proc, hpc, Pc.writing])) rfl rfl rfl
  | _ => exact h.congr (hkept (by simp [goto, leave, leaveWrite, Event.proc, Pc.writing])) rfl rfl rfl

end Order

/-- The invariant of a pipe whose users pass good addresses. -/
structure Inv (s : State P) : Prop where
  locked : Locked s
  fits : Fits s
  queue : ∃ c, Queue s c
  ready : Ready s
  sources : Sources s
  order : Order s

theorem inv_init (data : ℕ → UInt8) (nread : ℕ) {count : ℕ} (hcount : count ≤ PIPESIZE) :
    Inv (init data nread count : State P) := by
  have hnone (call : ℕ) : (init data nread count : State P).bytesOf call = [] := by
    unfold bytesOf init
    simp
  refine ⟨fun q => ?_, fun q => ?_, ⟨count, hcount, Nat.mod_lt _ (by decide), ?_, ?_⟩, fun q n room hq => ?_, ?_, ?_⟩
  · exact iff_of_false (by simp [init]) (by simp [init, Pc.locked])
  · trivial
  · unfold init uint
    dsimp only
    omega
  · simp [init, content_uint]
  · cases hq
  · refine ⟨fun q call src i hq => ?_, fun q r call src i src' i' hq => ?_, fun call => ?_, fun call r hr => ?_⟩
    · cases hq
    · cases hq
    · rw [hnone]
      exact nil_prefix
    · cases hr
  · refine ⟨rfl, fun q call src i hq => ?_, fun x hx k hk => ?_, ?_⟩
    · cases hq
    · simp only [init, mem_map] at hx
      obtain ⟨ch, -, rfl⟩ := hx
      cases hk
    · unfold State.Sorted init
      rw [pairwise_map]
      exact pairwise_of_forall (by simp)

variable [DecidableEq P]

theorem inv_does (he : e.Copies) (h : Inv s) (hd : Does s e s') : Inv s' :=
  ⟨locked_does h.locked hd, fits_does he h.fits hd, queue_does h.fits h.queue hd, ready_does h.locked h.ready hd,
    sources_does h.sources hd, order_does h.order hd⟩

theorem inv_run {data : ℕ → UInt8} {nread count : ℕ} (hcount : count ≤ PIPESIZE) {es : List (Event P)}
    (hes : ∀ e ∈ es, e.Copies) {s : State P} (h : run data nread count es = some s) : Inv s :=
  System.exec_invariant_along State.step (inv_init data nread hcount)
    (fun _ _ _ hi he hs => inv_does he hi (step_does hs)) es s (System.along_of_mem _ fun _ => hes) h

/-- `piperead` returns 0 only for nothing to read, or at the end. -/
theorem eof_does (h : Inv s) {n : ℤ} {room i : ℕ} (hpc : s.pc p = .readCopy n room i)
    (hs : s.step (.run p) = some s') (hidle : s'.pc p = .idle) (hret : s'.ret p = some 0) :
    n ≤ 0 ∨ s.writeopen = false ∧ s.nread = s.nwrite := by
  have hi : i = 0 ∧ (s.nread = s.nwrite ∨ n ≤ i) := by
    have hd := step_does hs
    have hfits := h.fits p
    rw [hpc] at hfits
    have hfits : n ≤ room := hfits
    cases hd with
    | drained n' room' i' hpc' hend =>
      cases hpc.symm.trans hpc'
      simp only [leave, update_self, Option.some.injEq, Nat.cast_eq_zero] at hret
      exact ⟨hret, hend⟩
    | lose n' room' i' hpc' hn hroom =>
      cases hpc.symm.trans hpc'
      omega
    | take => simp [goto] at hidle
    | refuse call n src start i hpc' | full call n src start i hpc' | put call n src start i ch hpc'
    | wrote call n src start i hpc' | resumeWrite call n src i hpc' | giveUp n room hpc' | empty n room hpc'
    | ready n room hpc' | resumeRead n room hpc' => cases hpc.symm.trans hpc'
  obtain ⟨rfl, hend | hn⟩ := hi
  · rcases h.ready p n room hpc with hne | hclosed
    · exact absurd hend hne
    · exact .inr ⟨hclosed, hend⟩
  · exact .inl (by simpa using hn)

/-- The pipe is a FIFO: in every state of every interleaving there are at most `PIPESIZE` bytes in it, and
they are what has been put in and not been received; each call of `pipewrite` puts in the first
bytes of its source, as many as it returns, and the calls of a process one after the other; and
`piperead` returns 0 only behind the end. -/
theorem pipe_fifo (data : ℕ → UInt8) (nread count : ℕ) (hcount : count ≤ PIPESIZE) (es : List (Event P))
    (hes : ∀ e ∈ es, e.Copies) (s : State P) (h : run data nread count es = some s) :
    s.count ≤ PIPESIZE ∧
    s.put.map Prod.snd = s.got ++ content s.data s.nread s.count ∧
    (∀ call, s.bytesOf call <+: s.calls.getD call []) ∧
    (∀ call r, (call, r) ∈ s.wrote → 0 ≤ r → r = (s.bytesOf call).length) ∧
    s.Sorted ∧
    (∀ p n room i s', s.pc p = .readCopy n room i → s.step (.run p) = some s' → s'.pc p = .idle →
      s'.ret p = some 0 → n ≤ 0 ∨ s.writeopen = false ∧ s.nread = s.nwrite) := by
  have hinv := inv_run hcount hes h
  obtain ⟨c, hqueue⟩ := hinv.queue
  rw [hqueue.count]
  exact ⟨hqueue.small, hqueue.bytes, hinv.sources.initial, fun call r hr => (hinv.sources.done call r hr).2.2,
    hinv.order.sorted, fun p n room i s' => eof_does hinv⟩

/-- A writer and a reader across the wrap of the counters. -/
def acrossWrap : List (Event (Fin 2)) :=
  [.pipewrite 0 3 [7, 8, 9], .run 0, .run 0, .run 0, .run 0, .piperead 1 2 2, .run 1, .run 1, .run 1, .run 1]

theorem pipe_fifo_acrossWrap : ∃ s, run (fun _ => 0) (2 ^ 32 - 1) 0 acrossWrap = some s ∧ s.got = [7, 8] ∧
    s.count ≤ PIPESIZE ∧ s.put.map Prod.snd = s.got ++ content s.data s.nread s.count := by
  have hrun : (run (fun _ => 0) (2 ^ 32 - 1) 0 acrossWrap).map State.got = some [7, 8] := by decide +kernel
  obtain ⟨s, hs, hgot⟩ := Option.map_eq_some_iff.mp hrun
  have hcopies : ∀ e ∈ acrossWrap, e.Copies := by
    simp [acrossWrap, Event.Copies]
  have hfifo := pipe_fifo _ _ 0 (by decide) acrossWrap hcopies s hs
  exact ⟨s, hs, hgot, hfifo.1, hfifo.2.1⟩

end Xv6.Pipe
