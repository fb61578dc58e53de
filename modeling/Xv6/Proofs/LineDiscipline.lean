import Xv6.Spec.Console

/-! The console's line discipline. The three indices are free-running counters at which the edited
input of the reference rule stands in the buffer; the reads are accounted for by the characters taken. -/

namespace Xv6.Console

open Function List

section Buffer

variable {base r w e : ℕ} {buf : ℕ → UInt8} {l : Line} {c : UInt8}

/-- The characters of `l` that nobody has taken stand in the buffer, where the indices say. -/
structure Buffers (base : ℕ) (buf : ℕ → UInt8) (r w e : ℕ) (l : Line) : Prop where
  r_at : r = (base + l.takers.length) % 2 ^ 32
  w_at : w = (base + l.committed.length) % 2 ^ 32
  e_at : e = (base + (l.committed.length + l.pending.length)) % 2 ^ 32
  taken : l.takers.length ≤ l.committed.length
  room : l.held ≤ INPUT_BUF_SIZE
  stored : ∀ i b, l.takers.length ≤ i → (l.committed ++ l.pending)[i]? = some b →
    buf ((base + i) % INPUT_BUF_SIZE) = b

section

variable (h : Buffers base buf r w e l)

include h

theorem Buffers.near :
    l.committed.length - l.takers.length + l.pending.length ≤ 128 :=
  h.room

theorem Buffers.sub_er : uintSub e r = l.held := by
  have hnear := h.near
  have htaken := h.taken
  rw [h.e_at, h.r_at]
  unfold uintSub Line.held
  rw [Counter.sub_mod (by omega) (by omega)]
  omega

theorem Buffers.sub_wr : uintSub w r = l.committed.length - l.takers.length := by
  have hnear := h.near
  have htaken := h.taken
  rw [h.w_at, h.r_at]
  unfold uintSub
  rw [Counter.sub_mod (by omega) (by omega)]
  omega

theorem Buffers.sub_ew : uintSub e w = l.pending.length := by
  have hnear := h.near
  rw [h.w_at, h.e_at]
  unfold uintSub
  rw [Counter.sub_mod (by omega) (by omega)]
  omega

theorem Buffers.r_eq_w : r = w ↔ l.takers.length = l.committed.length := by
  have hnear := h.near
  have htaken := h.taken
  rw [h.w_at, h.r_at, eq_comm, Counter.mod_eq_iff (by omega) (by omega)]
  omega

theorem Buffers.ahead (hne : r ≠ w) : l.takers.length < l.committed.length :=
  lt_of_le_of_ne h.taken (mt h.r_eq_w.mpr hne)

theorem Buffers.e_eq_w : e = w ↔ l.pending = [] := by
  have hnear := h.near
  rw [h.w_at, h.e_at, Counter.mod_eq_iff (by omega) (by omega), ← length_eq_zero_iff]
  omega

end

/-- The place of a character in the buffer, from its index. -/
theorem index_slot (i : ℕ) : (base + i) % 2 ^ 32 % INPUT_BUF_SIZE = (base + i) % INPUT_BUF_SIZE :=
  Counter.slot_mod ⟨2 ^ 25, by norm_num⟩

/-- With a shorter pending part, everything still stands where it stood. -/
theorem Buffers.cut (h : Buffers base buf r w e l) (k : ℕ) :
    Buffers base buf r w ((base + (l.committed.length + (l.pending.take k).length)) % 2 ^ 32)
      { l with pending := l.pending.take k } := by
  obtain ⟨hr, hw, -, htaken, hroom, hstored⟩ := h
  refine ⟨hr, hw, rfl, htaken, ?_, ?_⟩
  · have hlen := length_take_le' k l.pending
    unfold Line.held at hroom ⊢
    dsimp only
    omega
  · intro i b hi hb
    refine hstored i b hi ?_
    dsimp only at hb
    rcases Nat.lt_or_ge i l.committed.length with hlt | hge
    · rwa [List.getElem?_append_left hlt] at hb ⊢
    · rw [List.getElem?_append_right hge] at hb ⊢
      rw [List.getElem?_take] at hb
      split at hb
      · exact hb
      · cases hb

/-- Over characters that are not newlines, the loop for Control-U goes back all the way. -/
theorem killLine_eq {n : ℕ} (k : ℕ) (h : ∀ i, n ≤ i → i < n + k → buf ((base + i) % INPUT_BUF_SIZE) ≠ newline) :
    killLine buf k ((base + (n + k)) % 2 ^ 32) = (base + n) % 2 ^ 32 := by
  induction k with
  | zero => rfl
  | succ k ih =>
    have hback : uintSub ((base + (n + (k + 1))) % 2 ^ 32) 1 = (base + (n + k)) % 2 ^ 32 :=
      Counter.pred_mod (by norm_num)
    have hchar := h (n + k) (by omega) (by omega)
    rw [killLine, hback, index_slot, if_pos hchar]
    exact ih fun i hi hlt => h i hi (by omega)

section

variable (h : Buffers base buf r w e l)

include h

theorem Buffers.kill (hclean : newline ∉ l.pending) :
    Buffers base buf r w (killLine buf (uintSub e w) e) { l with pending := [] } := by
  have hkill : killLine buf (uintSub e w) e = (base + l.committed.length) % 2 ^ 32 := by
    rw [h.sub_ew, h.e_at]
    refine killLine_eq _ fun i hi hlt hnl => ?_
    obtain ⟨b, hb⟩ : ∃ b, l.pending[i - l.committed.length]? = some b := ⟨_, List.getElem?_eq_getElem (by omega)⟩
    rw [h.stored i b (h.taken.trans hi) (by rw [List.getElem?_append_right hi, hb])] at hnl
    exact hclean (hnl ▸ mem_of_getElem? hb)
  have hcut := h.cut 0
  rwa [hkill]

theorem Buffers.backspace (hne : l.pending ≠ []) :
    Buffers base buf r w (uintSub e 1) { l with pending := l.pending.dropLast } := by
  have hpos : 0 < l.pending.length := length_pos_iff.mpr hne
  have hback : uintSub e 1 = (base + (l.committed.length + (l.pending.length - 1))) % 2 ^ 32 := by
    rw [h.e_at, show l.committed.length + l.pending.length = l.committed.length + (l.pending.length - 1) + 1 by omega]
    exact Counter.pred_mod (by norm_num)
  have hcut := h.cut (l.pending.length - 1)
  rwa [length_take, Nat.min_eq_left (by omega), ← hback, ← dropLast_eq_take] at hcut

/-- A character is stored after the pending ones. -/
theorem Buffers.append (hroom : l.held < INPUT_BUF_SIZE) (c : UInt8) :
    Buffers base (update buf (e % INPUT_BUF_SIZE) c) r w (uintSucc e)
      { l with pending := l.pending ++ [c] } := by
  refine ⟨h.r_at, h.w_at, ?_, h.taken, ?_, ?_⟩
  · rw [h.e_at, uintSucc, Counter.succ_mod]
    simp only [length_append, length_singleton, Nat.add_assoc]
  · unfold Line.held at hroom ⊢
    simp only [length_append, length_singleton]
    omega
  · intro i b hi hb
    dsimp only at hi hb
    rw [← append_assoc] at hb
    rw [h.e_at, index_slot]
    rcases Nat.lt_or_ge i (l.committed ++ l.pending).length with hlt | hge
    · rw [List.getElem?_append_left hlt] at hb
      rw [length_append] at hlt
      -- the new character is less than a round ahead of those not taken
      have hslot : (base + i) % INPUT_BUF_SIZE ≠ (base + (l.committed.length + l.pending.length)) % INPUT_BUF_SIZE := by
        refine Counter.slot_ne (by omega) ?_
        unfold Line.held at hroom
        have := h.taken
        omega
      rw [update_of_ne hslot]
      exact h.stored i b hi hb
    · rw [List.getElem?_append_right hge, List.getElem?_singleton] at hb
      split at hb
      case isFalse => cases hb
      case isTrue hzero =>
        cases hb
        rw [length_append] at hzero hge
        rw [show i = l.committed.length + l.pending.length by omega, update_self]

theorem Buffers.commit : Buffers base buf r e e l.commit := by
  have htaken := h.taken
  refine ⟨h.r_at, ?_, ?_, ?_, ?_, ?_⟩
  · rw [h.e_at, Line.commit, length_append]
  · rw [h.e_at, Line.commit, length_append]
    rfl
  · simp only [Line.commit, length_append]
    omega
  · have hroom := h.room
    unfold Line.held at hroom ⊢
    simp only [Line.commit, length_append, length_nil]
    omega
  · intro i b hi hb
    simp only [Line.commit, append_nil] at hb
    exact h.stored i b hi hb

/-- The oldest committed character is taken. -/
theorem Buffers.take (hne : r ≠ w) (call : ℕ) :
    Buffers base buf (uintSucc r) w e (l.edit (.taken call)) := by
  have hlt := h.ahead hne
  refine ⟨?_, h.w_at, h.e_at, ?_, ?_, ?_⟩
  · rw [h.r_at, uintSucc, Counter.succ_mod]
    simp only [Line.edit, length_append, length_singleton, Nat.add_assoc]
  · simp only [Line.edit, length_append, length_singleton]
    omega
  · have hroom := h.room
    unfold Line.held at hroom ⊢
    simp only [Line.edit, length_append, length_singleton]
    omega
  · intro i b hi hb
    simp only [Line.edit, length_append, length_singleton] at hi
    exact h.stored i b (by omega) hb

/-- The reader sees the oldest committed character. -/
theorem Buffers.oldest (hne : r ≠ w) :
    l.committed[l.takers.length]? = some (buf (r % INPUT_BUF_SIZE)) := by
  have hlt := h.ahead hne
  obtain ⟨b, hb⟩ : ∃ b, l.committed[l.takers.length]? = some b := ⟨_, List.getElem?_eq_getElem hlt⟩
  rw [h.r_at, index_slot, h.stored _ b le_rfl (by rw [List.getElem?_append_left hlt, hb]), hb]

end

end Buffer

section Input

variable {P : Type} {s : State P} {base : ℕ} {l : Line}

/-- The buffer of `s` holds `l`. -/
structure Holds (base : ℕ) (l : Line) (s : State P) : Prop where
  buffers : Buffers base s.buf s.r s.w s.e l
  clean : newline ∉ l.pending

theorem Holds.store (h : Holds base l s) (hroom : l.held < INPUT_BUF_SIZE) (c : UInt8) :
    Holds base (l.put c) (s.store c) := by
  have happend := h.buffers.append hroom c
  unfold State.store Line.put
  dsimp only
  rw [happend.sub_er]
  split
  case isTrue => exact ⟨happend.commit, not_mem_nil⟩
  case isFalse hgo =>
    push Not at hgo
    refine ⟨happend, ?_⟩
    simp only [mem_append, mem_singleton, not_or]
    exact ⟨h.clean, hgo.1.symm⟩

/-- `consoleintr` follows the reference rule. -/
theorem Holds.consoleintr (h : Holds base l s) (c : UInt8) : Holds base (l.edit (.typed c)) (s.consoleintr c) := by
  unfold State.consoleintr Line.edit
  dsimp only
  rw [h.buffers.sub_er]
  by_cases hP : c = C 'P'
  · rwa [if_pos hP, if_pos (.inr hP)]
  rw [if_neg hP]
  by_cases hzero : c = 0
  · subst hzero
    exact h
  rw [if_neg (not_or.mpr ⟨hzero, hP⟩)]
  by_cases hU : c = C 'U'
  · rw [if_pos hU, if_pos hU]
    exact ⟨h.buffers.kill h.clean, not_mem_nil⟩
  rw [if_neg hU, if_neg hU]
  by_cases hH : c = C 'H' ∨ c = delete
  · rw [if_pos hH, if_pos hH]
    by_cases hne : s.e = s.w
    · have hnil := h.buffers.e_eq_w.mp hne
      rw [if_neg (not_not.mpr hne)]
      refine ⟨?_, ?_⟩ <;> simp only [hnil, dropLast_nil]
      · exact hnil ▸ h.buffers
      · exact not_mem_nil
    · rw [if_pos hne]
      refine ⟨h.buffers.backspace (mt h.buffers.e_eq_w.mpr hne), ?_⟩
      exact fun hmem => h.clean (mem_of_mem_dropLast hmem)
  rw [if_neg hH, if_neg hH]
  by_cases hroom : l.held < INPUT_BUF_SIZE
  · have hstore : c ≠ 0 ∧ l.held < INPUT_BUF_SIZE := ⟨hzero, hroom⟩
    rw [if_pos hroom, if_pos hstore]
    exact h.store hroom _
  · rwa [if_neg hroom, if_neg (fun hand => hroom hand.2)]

end Input

section Accounts

variable {P : Type} [DecidableEq P] {pc : P → Pc} {p : P} {calls call target n k : ℕ}
  {T got : List (ℕ × UInt8)} {returned : List (ℕ × ℕ)}

def Pc.job : Pc → Option (ℕ × ℕ × ℕ)
  | .idle => none
  | .reading _ call target n => some (call, target, n)

def bytesIn (got : List (ℕ × UInt8)) (call : ℕ) : List UInt8 := (got.filter (·.1 = call)).map Prod.snd

theorem bytesIn_tag_self (G : List UInt8) : bytesIn (got ++ G.map (call, ·)) call = bytesIn got call ++ G := by
  unfold bytesIn
  rw [filter_append, map_append, (filter_eq_self (l := G.map (call, ·))).mpr (by simp), map_map]
  simp [Function.comp_def]

variable {call' : ℕ}

theorem bytesIn_tag_other (hne : call' ≠ call) (G : List UInt8) :
    bytesIn (got ++ G.map (call, ·)) call' = bytesIn got call' := by
  unfold bytesIn
  rw [filter_append, (filter_eq_nil_iff (l := G.map (call, ·))).mpr (by simp [hne.symm]), append_nil]

/-- A call that has not returned has delivered `target - n` bytes. -/
structure Ongoing (calls : ℕ) (got : List (ℕ × UInt8)) (returned : List (ℕ × ℕ)) (call target n : ℕ) : Prop where
  begun : call < calls
  open_ : call ∉ returned.map Prod.fst
  pos : 0 < target
  le : n ≤ target
  sofar : (bytesIn got call).length = target - n

/-- The reads are accounted for, when `T` are the characters taken, each with its call. -/
structure Reads (T : List (ℕ × UInt8)) (pc : P → Pc) (calls : ℕ) (got : List (ℕ × UInt8))
    (returned : List (ℕ × ℕ)) : Prop where
  bytes : got = T.filter (·.2 ≠ C 'D')
  eofs : returned.filter (·.2 = 0) = (T.filter (·.2 = C 'D')).map fun x => (x.1, 0)
  once : (returned.map Prod.fst).Nodup
  counts : ∀ call k, (call, k) ∈ returned → k = (bytesIn got call).length
  lines : ∀ call, newline ∈ bytesIn got call →
    newline ∉ (bytesIn got call).dropLast ∧ call ∈ returned.map Prod.fst
  known : (∀ x ∈ got, x.1 < calls) ∧ ∀ x ∈ returned, x.1 < calls
  jobs : ∀ p call target n, (pc p).job = some (call, target, n) → Ongoing calls got returned call target n
  apart : ∀ p q call a b, (pc p).job = some (call, a) → (pc q).job = some (call, b) → p = q

omit [DecidableEq P] in
/-- Only the jobs matter. -/
theorem Reads.rephase {pc' : P → Pc} (h : Reads T pc calls got returned) (hjob : ∀ q, (pc' q).job = (pc q).job) :
    Reads T pc' calls got returned := by
  obtain ⟨hbytes, heofs, honce, hcounts, hlines, hknown, hjobs, hapart⟩ := h
  refine ⟨hbytes, heofs, honce, hcounts, hlines, hknown, ?_, ?_⟩
  · intro p call target n hp
    exact hjobs p call target n (hjob p ▸ hp)
  · intro p q call a b hp hq
    exact hapart p q call a b (hjob p ▸ hp) (hjob q ▸ hq)

theorem Reads.begin (h : Reads T pc calls got returned) (p : P) (hn : 0 < n) :
    Reads T (update pc p (.reading .loop calls n n)) (calls + 1) got returned := by
  obtain ⟨hbytes, heofs, honce, hcounts, hlines, ⟨hgot, hret⟩, hjobs, hapart⟩ := h
  have hnone : bytesIn got calls = [] := by
    unfold bytesIn
    rw [filter_eq_nil_iff.mpr, map_nil]
    intro x hx
    simpa using (hgot x hx).ne
  have hopen : calls ∉ returned.map Prod.fst := by
    intro hmem
    obtain ⟨x, hx, hxc⟩ := mem_map.mp hmem
    exact (hret x hx).ne hxc
  refine ⟨hbytes, heofs, honce, hcounts, hlines, ⟨fun x hx => (hgot x hx).trans_le (Nat.le_succ _),
    fun x hx => (hret x hx).trans_le (Nat.le_succ _)⟩, ?_, ?_⟩
  · intro q call target m hq
    by_cases hqp : q = p
    · subst hqp
      rw [update_self] at hq
      cases hq
      exact ⟨Nat.lt_succ_self _, hopen, hn, le_rfl, by rw [hnone, Nat.sub_self]; rfl⟩
    · rw [update_of_ne hqp] at hq
      obtain ⟨hbegun, hopen', hpos, hle, hsofar⟩ := hjobs q call target m hq
      exact ⟨hbegun.trans (Nat.lt_succ_self _), hopen', hpos, hle, hsofar⟩
  · intro q q' call a b hq hq'
    by_cases hqp : q = p <;> by_cases hqp' : q' = p
    · exact hqp.trans hqp'.symm
    · subst hqp
      rw [update_self] at hq
      rw [update_of_ne hqp'] at hq'
      cases hq
      exact absurd (hjobs q' _ b.1 b.2 hq').begun (lt_irrefl _)
    · subst hqp'
      rw [update_self] at hq'
      rw [update_of_ne hqp] at hq
      cases hq'
      exact absurd (hjobs q _ a.1 a.2 hq).begun (lt_irrefl _)
    · rw [update_of_ne hqp] at hq
      rw [update_of_ne hqp'] at hq'
      exact hapart q q' call a b hq hq'

/-- A call does not see the bytes of another one. -/
theorem Ongoing.other (h : Ongoing calls got returned call' target n) (hne : call' ≠ call) (G : List UInt8)
    {returned' : List (ℕ × ℕ)} (hret : call' ∉ returned'.map Prod.fst) :
    Ongoing calls (got ++ G.map (call, ·)) returned' call' target n :=
  ⟨h.begun, hret, h.pos, h.le, by rw [bytesIn_tag_other hne, h.sofar]⟩

section

variable (h : Reads T pc calls got returned) (hp : (pc p).job = some (call, target, n))

include h hp

omit [DecidableEq P] in
theorem Reads.known_tag (G : List UInt8) :
    ∀ x ∈ got ++ G.map (call, ·), x.1 < calls := by
  intro x hx
  rcases mem_append.mp hx with hx | hx
  · exact h.known.1 x hx
  · obtain ⟨c, -, rfl⟩ := mem_map.mp hx
    exact (h.jobs p call target n hp).begun

omit [DecidableEq P] in
/-- A call that has not returned has not delivered a newline. -/
theorem Reads.noNewline :
    newline ∉ bytesIn got call :=
  fun hnl => (h.jobs p call target n hp).open_ (h.lines call hnl).2

/-- The call of `p` delivers one byte and goes on. -/
theorem Reads.more {c : UInt8} (hn : 0 < n) (hD : c ≠ C 'D') (hnl : c ≠ newline) :
    Reads (T ++ [(call, c)]) (update pc p (.reading .loop call target (n - 1))) calls
      (got ++ [c].map (call, ·)) returned := by
  have hself := h.jobs p call target n hp
  have hclean := h.noNewline hp
  refine ⟨?_, ?_, h.once, ?_, ?_, ⟨h.known_tag hp [c], h.known.2⟩, ?_, ?_⟩
  · rw [filter_append, ← h.bytes]
    simp [hD]
  · rw [h.eofs, filter_append]
    simp [hD]
  · intro call' k hk
    have hne : call' ≠ call := by
      rintro rfl
      exact hself.open_ (mem_map_of_mem hk)
    rw [bytesIn_tag_other hne]
    exact h.counts call' k hk
  · intro call' hmem
    by_cases hcall : call' = call
    · subst hcall
      rw [bytesIn_tag_self, mem_append, mem_singleton] at hmem
      exact absurd hmem (not_or.mpr ⟨hclean, hnl.symm⟩)
    · rw [bytesIn_tag_other hcall] at hmem ⊢
      exact h.lines call' hmem
  · intro q call' target' m hq
    by_cases hqp : q = p
    · subst hqp
      rw [update_self] at hq
      cases hq
      refine ⟨hself.begun, hself.open_, hself.pos, (Nat.sub_le n 1).trans hself.le, ?_⟩
      have hle := hself.le
      rw [bytesIn_tag_self, length_append, hself.sofar, length_singleton]
      omega
    · rw [update_of_ne hqp] at hq
      have hother := h.jobs q call' target' m hq
      refine hother.other ?_ [c] hother.open_
      rintro rfl
      exact hqp (h.apart q p call' _ _ hq hp)
  · intro q q' call' a b hq hq'
    -- the job of `p` is that of the same call as before
    have hold : ∀ q a, (update pc p (.reading .loop call target (n - 1)) q).job = some (call', a) →
        ∃ a', (pc q).job = some (call', a') := by
      intro q a hq
      by_cases hqp : q = p
      · subst hqp
        rw [update_self] at hq
        cases hq
        exact ⟨_, hp⟩
      · rw [update_of_ne hqp] at hq
        exact ⟨a, hq⟩
    obtain ⟨a', ha⟩ := hold q a hq
    obtain ⟨b', hb⟩ := hold q' b hq'
    exact h.apart q q' call' a' b' ha hb

/-- The call of `p` delivers the bytes `G` and returns. -/
theorem Reads.finish {T' : List (ℕ × UInt8)} (G : List UInt8) (hG : newline ∉ G.dropLast)
    (hk : k = target - n + G.length) (hbytes' : got ++ G.map (call, ·) = T'.filter (·.2 ≠ C 'D'))
    (heofs' : (returned ++ [(call, k)]).filter (·.2 = 0) = (T'.filter (·.2 = C 'D')).map fun x => (x.1, 0)) :
    Reads T' (update pc p .idle) calls (got ++ G.map (call, ·)) (returned ++ [(call, k)]) := by
  have hself := h.jobs p call target n hp
  have hclean := h.noNewline hp
  have hfst : (returned ++ [(call, k)]).map Prod.fst = returned.map Prod.fst ++ [call] := by
    rw [map_append]
    rfl
  -- nobody else has a job that was one of `p`
  have hrest : ∀ q call' a, (update pc p Pc.idle q).job = some (call', a) →
      (pc q).job = some (call', a) ∧ call' ≠ call := by
    intro q call' a hq
    have hqp : q ≠ p := by
      rintro rfl
      rw [update_self] at hq
      cases hq
    rw [update_of_ne hqp] at hq
    refine ⟨hq, ?_⟩
    rintro rfl
    exact hqp (h.apart q p call' _ _ hq hp)
  refine ⟨hbytes', heofs', ?_, ?_, ?_, ⟨h.known_tag hp G, ?_⟩, ?_, ?_⟩
  · rw [hfst, nodup_append]
    refine ⟨h.once, nodup_singleton _, ?_⟩
    rintro x hx y hy rfl
    rw [mem_singleton] at hy
    exact hself.open_ (hy ▸ hx)
  · intro call' k' hmem
    by_cases hcall : call' = call
    · subst hcall
      rw [bytesIn_tag_self, length_append, hself.sofar, ← hk]
      rcases mem_append.mp hmem with hold | hnew
      · exact absurd (mem_map_of_mem hold) hself.open_
      · exact (Prod.mk.inj (mem_singleton.mp hnew)).2
    · rw [bytesIn_tag_other hcall]
      rcases mem_append.mp hmem with hold | hnew
      · exact h.counts call' k' hold
      · exact absurd (Prod.mk.inj (mem_singleton.mp hnew)).1 hcall
  · intro call' hmem
    rw [hfst, mem_append, mem_singleton]
    by_cases hcall : call' = call
    · subst hcall
      refine ⟨?_, .inr rfl⟩
      rw [bytesIn_tag_self] at hmem ⊢
      have hGne : G ≠ [] := by
        rintro rfl
        rw [append_nil] at hmem
        exact hclean hmem
      rw [dropLast_append_of_ne_nil hGne, mem_append]
      exact not_or.mpr ⟨hclean, hG⟩
    · rw [bytesIn_tag_other hcall] at hmem ⊢
      exact ⟨(h.lines call' hmem).1, .inl (h.lines call' hmem).2⟩
  · intro x hx
    rcases mem_append.mp hx with hx | hx
    · exact h.known.2 x hx
    · rw [mem_singleton.mp hx]
      exact hself.begun
  · intro q call' target' m hq
    obtain ⟨hq, hne⟩ := hrest q call' _ hq
    have hother := h.jobs q call' target' m hq
    refine hother.other hne G ?_
    rw [hfst, mem_append, mem_singleton]
    exact not_or.mpr ⟨hother.open_, hne⟩
  · intro q q' call' a b hq hq'
    exact h.apart q q' call' a b (hrest q call' a hq).1 (hrest q' call' b hq').1

end

end Accounts

section Run

variable {P : Type} {s s' : State P} {base : ℕ}

theorem edited_snoc (history : List Mark) (m : Mark) : edited (history ++ [m]) = (edited history).edit m := by
  unfold edited
  rw [foldl_append]
  rfl

variable {α β : Type} {as : List α} {bs : List β} {p : P} {call target n : ℕ}

theorem zip_append_right (h : as.length ≤ bs.length) (cs : List β) :
    as.zip (bs ++ cs) = as.zip bs := by
  induction as generalizing bs with
  | nil => rfl
  | cons a as ih =>
    cases bs with
    | nil => exact absurd h (Nat.not_succ_le_zero _)
    | cons b bs =>
      rw [cons_append, zip_cons_cons, zip_cons_cons, ih (Nat.le_of_succ_le_succ h)]

theorem zip_snoc_left {b : β} (h : bs[as.length]? = some b) (a : α) :
    (as ++ [a]).zip bs = as.zip bs ++ [(a, b)] := by
  induction as generalizing bs with
  | nil =>
    cases bs with
    | nil => cases h
    | cons b' bs =>
      cases h
      rfl
  | cons a' as ih =>
    cases bs with
    | nil => cases h
    | cons b' bs =>
      rw [cons_append, zip_cons_cons, zip_cons_cons, ih h]
      rfl

/-- Typing takes nothing and only adds to what is committed. -/
theorem edit_typed (l : Line) (c : UInt8) :
    (l.edit (.typed c)).takers = l.takers ∧ l.committed <+: (l.edit (.typed c)).committed := by
  unfold Line.edit Line.put Line.commit
  dsimp only
  split_ifs
  all_goals exact ⟨rfl, by simp⟩

/-- `consoleintr` does nothing to the calls, except that it may wake them. -/
structure Spares (s s' : State P) : Prop where
  calls : s'.calls = s.calls
  got : s'.got = s.got
  returned : s'.returned = s.returned
  jobs : ∀ q, (s'.pc q).job = (s.pc q).job

theorem wakeup_job (s : State P) (q : P) : (s.wakeup.pc q).job = (s.pc q).job := by
  unfold State.wakeup
  dsimp only
  split
  · rename_i hq
    rw [hq]
    rfl
  · rfl

theorem consoleintr_spares (s : State P) (c : UInt8) : Spares s (s.consoleintr c) := by
  have hstore : ∀ c, Spares s (s.store c) := by
    intro c
    unfold State.store
    dsimp only
    split
    · exact ⟨rfl, rfl, rfl, wakeup_job _⟩
    · exact ⟨rfl, rfl, rfl, fun q => rfl⟩
  unfold State.consoleintr
  split_ifs
  all_goals first | exact hstore _ | exact ⟨rfl, rfl, rfl, fun q => rfl⟩

structure Inv (base : ℕ) (s : State P) : Prop where
  holds : Holds base (edited s.history) s
  reads : Reads s.taken s.pc s.calls s.got s.returned

theorem inv_consoleintr (h : Inv base s) (c : UInt8) :
    Inv base { s.consoleintr c with history := s.history ++ [Mark.typed c] } := by
  have hspares := consoleintr_spares s c
  have htyped := edit_typed (edited s.history) c
  have hholds := h.holds.consoleintr c
  rw [← edited_snoc] at hholds
  refine ⟨⟨hholds.buffers, hholds.clean⟩, ?_⟩
  have htaken : (edited (s.history ++ [Mark.typed c])).takers.zip (edited (s.history ++ [Mark.typed c])).committed =
      s.taken := by
    obtain ⟨more, hmore⟩ := htyped.2
    rw [edited_snoc, htyped.1, ← hmore, zip_append_right h.holds.buffers.taken]
    rfl
  have hreads := h.reads.rephase hspares.jobs
  unfold State.taken
  dsimp only
  rwa [htaken, hspares.calls, hspares.got, hspares.returned]

variable [DecidableEq P]

/-- A call that returns without taking anything has delivered something. -/
theorem Inv.leave (h : Inv base s) (hjob : (s.pc p).job = some (call, target, n))
    (hlt : n < target) : Inv base (s.leave p call (target - n)) := by
  have heofs : (s.returned ++ [(call, target - n)]).filter (·.2 = 0) =
      (s.taken.filter (·.2 = C 'D')).map fun x => (x.1, 0) := by
    have hpos : ¬ target - n = 0 := by omega
    rw [filter_append, h.reads.eofs, filter_cons_of_neg (by simpa using hpos), filter_nil,
      append_nil]
  have hbytes : s.got ++ ([] : List UInt8).map (call, ·) = s.taken.filter (·.2 ≠ C 'D') := by
    rw [map_nil, append_nil]
    exact h.reads.bytes
  have hfinish := h.reads.finish hjob [] not_mem_nil rfl hbytes heofs
  rw [map_nil, append_nil] at hfinish
  exact ⟨⟨h.holds.buffers, h.holds.clean⟩, hfinish⟩

omit [DecidableEq P] in
/-- Taking the oldest committed character. -/
theorem Inv.take (h : Inv base s) (hne : s.r ≠ s.w) (call : ℕ) :
    let s₁ := { s with r := uintSucc s.r, history := s.history ++ [Mark.taken call] }
    Holds base (edited s₁.history) s₁ ∧ s₁.taken = s.taken ++ [(call, s.buf (s.r % INPUT_BUF_SIZE))] := by
  have hbuffers := h.holds.buffers.take hne call
  rw [← edited_snoc] at hbuffers
  refine ⟨⟨hbuffers, ?_⟩, ?_⟩
  · dsimp only
    rw [edited_snoc]
    exact h.holds.clean
  · unfold State.taken
    dsimp only
    rw [edited_snoc]
    exact zip_snoc_left (h.holds.buffers.oldest hne) call

/-- One round of the loop. -/
theorem Inv.read (h : Inv base s) (hp : s.pc p = .reading .loop call target n) :
    Inv base (s.read p call target n) := by
  have hjob : (s.pc p).job = some (call, target, n) := by rw [hp]; rfl
  have hcall := h.reads.jobs p call target n hjob
  unfold State.read
  split
  case isFalse hn =>
    have hpos := hcall.pos
    exact h.leave hjob (by omega)
  case isTrue hn =>
  split
  case isTrue hempty =>
    refine ⟨⟨h.holds.buffers, h.holds.clean⟩, h.reads.rephase fun q => ?_⟩
    by_cases hq : q = p
    · subst hq
      simp [State.goto, Pc.job, hp]
    · simp [State.goto, hq]
  case isFalse hne =>
  obtain ⟨hholds, htaken⟩ := h.take hne call
  dsimp only
  set c := s.buf (s.r % INPUT_BUF_SIZE) with hc
  split
  case isTrue hD =>
    split
    case isTrue hlt =>
      have hback : uintSub (uintSucc s.r) 1 = s.r := by
        rw [h.holds.buffers.r_at, uintSucc, Counter.succ_mod]
        exact Counter.pred_mod (by norm_num)
      rw [hback]
      exact h.leave hjob hlt
    case isFalse hge =>
      have hall : target - n = 0 := by omega
      have hbytes : s.got ++ ([] : List UInt8).map (call, ·) = (s.taken ++ [(call, c)]).filter (·.2 ≠ C 'D') := by
        rw [map_nil, append_nil, filter_append, ← h.reads.bytes]
        simp [hD]
      have heofs : (s.returned ++ [(call, target - n)]).filter (·.2 = 0) =
          ((s.taken ++ [(call, c)]).filter (·.2 = C 'D')).map fun x => (x.1, 0) := by
        rw [filter_append, filter_append, map_append, h.reads.eofs]
        simp [hD, hall]
      have hfinish := h.reads.finish hjob [] not_mem_nil rfl hbytes heofs
      rw [map_nil, append_nil, ← htaken] at hfinish
      exact ⟨⟨hholds.buffers, hholds.clean⟩, hfinish⟩
  case isFalse hD =>
    unfold State.deliver
    dsimp only
    split
    case isTrue hnl =>
      have hone : target - (n - 1) = target - n + [c].length := by
        have hle := hcall.le
        rw [length_singleton]
        omega
      have hbytes : s.got ++ [c].map (call, ·) = (s.taken ++ [(call, c)]).filter (·.2 ≠ C 'D') := by
        rw [filter_append, ← h.reads.bytes]
        simp [hD]
      have heofs : (s.returned ++ [(call, target - (n - 1))]).filter (·.2 = 0) =
          ((s.taken ++ [(call, c)]).filter (·.2 = C 'D')).map fun x => (x.1, 0) := by
        rw [filter_append, filter_append, map_append, h.reads.eofs, hone]
        simp [hD]
      have hfinish := h.reads.finish hjob [c] not_mem_nil hone hbytes heofs
      rw [← htaken] at hfinish
      exact ⟨⟨hholds.buffers, hholds.clean⟩, hfinish⟩
    case isFalse hnl =>
      have hmore := h.reads.more hjob hn hD hnl
      rw [← htaken] at hmore
      exact ⟨⟨hholds.buffers, hholds.clean⟩, hmore⟩

theorem inv_step {e : Event P} (h : Inv base s) (hs : s.step e = some s') : Inv base s' := by
  cases e with
  | consoleintr c =>
    dsimp only [State.step] at hs
    split at hs
    · cases hs
      exact inv_consoleintr h c
    · cases hs
  | consoleread p n =>
    dsimp only [State.step] at hs
    split at hs
    · rename_i hfree
      cases hs
      exact ⟨⟨h.holds.buffers, h.holds.clean⟩, h.reads.begin p hfree.2.2⟩
    · cases hs
  | run p =>
    dsimp only [State.step] at hs
    split at hs
    · rename_i call target n hp
      cases hs
      exact h.read hp
    · rename_i call target n hp
      split at hs
      · cases hs
        refine ⟨⟨h.holds.buffers, h.holds.clean⟩, h.reads.rephase fun q => ?_⟩
        by_cases hq : q = p
        · subst hq
          simp [State.goto, Pc.job, hp]
        · simp [State.goto, hq]
      · cases hs
    · cases hs

omit [DecidableEq P] in
theorem inv_init (buf : ℕ → UInt8) (start : ℕ) : Inv start (State.init buf start : State P) := by
  refine ⟨⟨⟨rfl, rfl, rfl, le_rfl, Nat.zero_le _, ?_⟩, not_mem_nil⟩, ?_⟩
  · intro i b _ hb
    simp [State.init, edited] at hb
  · refine ⟨rfl, rfl, nodup_nil, ?_, ?_, ⟨?_, ?_⟩, ?_, ?_⟩
    all_goals simp [State.init, bytesIn, Pc.job]

omit [DecidableEq P] in
theorem Inv.disciplined (h : Inv base s) : s.Disciplined := by
  obtain ⟨hholds, hreads⟩ := h
  refine ⟨⟨?_, ?_⟩, ?_, hreads.once, hreads.counts, ?_, hreads.eofs⟩
  · rw [hholds.buffers.sub_wr, hholds.buffers.sub_er]
    exact Nat.le_add_right _ _
  · rw [hholds.buffers.sub_er]
    exact hholds.buffers.room
  · have hsnd : s.taken.map Prod.snd = (edited s.history).committed.take (edited s.history).takers.length := by
      have hlen : ((edited s.history).committed.take (edited s.history).takers.length).length =
          (edited s.history).takers.length := by
        rw [length_take, Nat.min_eq_left hholds.buffers.taken]
      unfold State.taken
      nth_rewrite 1 [← take_append_drop (edited s.history).takers.length (edited s.history).committed]
      rw [zip_append_right hlen.ge, map_snd_zip hlen.le]
    rw [hreads.bytes]
    have hmap : (s.taken.filter (·.2 ≠ C 'D')).map Prod.snd = (s.taken.map Prod.snd).filter (· ≠ C 'D') := by
      rw [filter_map]
      rfl
    rw [hmap, hsnd]
    exact (List.take_prefix _ _).filter _
  · intro call hmem
    obtain ⟨hlast, hret⟩ := hreads.lines call hmem
    obtain ⟨x, hx, rfl⟩ := mem_map.mp hret
    exact ⟨hlast, x.2, hx⟩

/-- Whatever is typed and read in whatever order, the console keeps its line discipline. -/
theorem console_disciplined (buf : ℕ → UInt8) (start : ℕ) (es : List (Event P)) :
    ∀ s, State.run buf start es = some s → s.Disciplined := by
  intro s hs
  have hinv : Inv start s :=
    System.exec_invariant State.step (inv_init buf start) (fun s e s' h hs => inv_step h hs) es s hs
  exact hinv.disciplined

/-- Two processes read while `abc`, a backspace, a newline and a control-D are typed; the indices wrap. -/
def lineAndEof : List (Event Bool) :=
  [.consoleread true 2, .run true, .consoleintr 97, .consoleintr 98, .consoleintr 99, .consoleintr (C 'H'),
    .consoleintr 10, .consoleintr (C 'D'), .run true, .run true, .run true, .run true,
    .consoleread false 9, .run false, .consoleread false 9, .run false]

theorem lineAndEof_disciplined : ∃ s : State Bool, State.run (fun _ => 0) (2 ^ 32 - 2) lineAndEof = some s ∧
    s.got = [(0, 97), (0, 98), (1, 10)] ∧ s.returned = [(0, 2), (1, 1), (2, 0)] ∧ s.r = 2 ∧ s.Disciplined := by
  have hrun : (State.run (P := Bool) (fun _ => 0) (2 ^ 32 - 2) lineAndEof).map (fun s => (s.got, s.returned, s.r)) =
      some ([(0, 97), (0, 98), (1, 10)], [(0, 2), (1, 1), (2, 0)], 2) := by decide +kernel
  obtain ⟨s, hs, hmap⟩ := Option.map_eq_some_iff.mp hrun
  obtain ⟨hgot, hrest⟩ := Prod.mk.inj hmap
  obtain ⟨hret, hr⟩ := Prod.mk.inj hrest
  exact ⟨s, hs, hgot, hret, hr, console_disciplined _ _ _ s hs⟩

end Run

end Xv6.Console
