import Xv6.Spec.Filewrite

/-! Writes through a shared `struct file` do not overwrite each other: the offset is read and moved with the
inode's lock, so that every chunk begins where the one before it ended. -/

namespace Xv6.Filewrite

open Function List

section Writei

variable {d : Blocks} {src : Src} {alloc : ℕ → Bool} {off n : ℕ}

/-- What `d'` has instead of the bytes of `d` from `lo` to `hi`. -/
def Overwrites (lo hi : ℕ) (new : ℕ → UInt8) (d d' : Blocks) : Prop :=
  ∀ j, d'.byte j = if lo ≤ j ∧ j < hi then new j else d.byte j

theorem copyin_overwrites (d : Blocks) (k : ℕ) (new : ℕ → UInt8) {m : ℕ} (hm : m ≤ BSIZE - k % BSIZE) :
    Overwrites k (k + m) new d (d.copyin (k / BSIZE) (k % BSIZE) (fun i => new (k + i)) m) := by
  intro j
  have hk := Nat.div_add_mod k BSIZE
  have hj := Nat.div_add_mod j BSIZE
  have hjlt : j % BSIZE < BSIZE := Nat.mod_lt j (by decide)
  unfold Blocks.byte Blocks.copyin
  by_cases hbn : j / BSIZE = k / BSIZE
  · rw [hbn, update_self]
    rw [hbn] at hj
    by_cases hin : k ≤ j ∧ j < k + m
    · rw [if_pos hin, if_pos (by omega)]
      dsimp only
      rw [show k + (j % BSIZE - k % BSIZE) = j by omega]
    · rw [if_neg hin, if_neg (by omega)]
  · have hout : ¬(k ≤ j ∧ j < k + m) := by
      rintro ⟨hle, hlt⟩
      refine hbn (le_antisymm ?_ (Nat.div_le_div_right hle))
      refine Nat.le_of_lt_succ ((Nat.div_lt_iff_lt_mul (by decide)).mpr ?_)
      rw [Nat.succ_mul, Nat.mul_comm]
      have hklt : k % BSIZE < BSIZE := Nat.mod_lt k (by decide)
      omega
    rw [update_of_ne hbn, if_neg hout]

theorem mapped_all (start m : ℕ) (h : ∀ k, start ≤ k → k < start + m → (src k).isSome) : mapped src start m = m := by
  induction m generalizing start with
  | zero => rfl
  | succ m ih =>
    rw [mapped, if_pos (h start le_rfl (by omega)), ih (start + 1) fun k hk hlt => h k (by omega) (by omega)]

/-- When every round works, the loop of `writei` writes all there is to write. -/
theorem writeRounds_all (halloc : ∀ bn, alloc bn = true) (hsrc : ∀ k, k < n → (src k).isSome) (off : ℕ) (d : Blocks)
    (fuel tot : ℕ) (hfuel : n ≤ tot + fuel) (htot : tot ≤ n) :
    (writeRounds alloc src off n fuel tot d).1 = n ∧
      Overwrites (off + tot) (off + n) (fun j => (src (j - off)).getD 0) d (writeRounds alloc src off n fuel tot d).2 := by
  induction fuel generalizing tot d with
  | zero =>
    have heq : tot = n := by omega
    subst heq
    refine ⟨rfl, fun j => ?_⟩
    rw [if_neg (by omega)]
    rfl
  | succ fuel ih =>
    unfold writeRounds
    by_cases hlt : tot < n
    · set m := min (n - tot) (BSIZE - (off + tot) % BSIZE) with hm
      have hmod : (off + tot) % BSIZE < BSIZE := Nat.mod_lt _ (by decide)
      have hall : mapped src tot m = m := mapped_all tot m fun k _ hk => hsrc k (by omega)
      have hcopy := copyin_overwrites d (off + tot) (fun j => (src (j - off)).getD 0) (m := m) (by omega)
      have hsame : (fun i => (src (off + tot + i - off)).getD 0) = fun i => (src (tot + i)).getD 0 := by
        funext i
        rw [show off + tot + i - off = tot + i by omega]
      rw [hsame] at hcopy
      rw [if_pos hlt, if_neg (by rw [halloc]; decide)]
      dsimp only
      rw [hall, if_neg (lt_irrefl m)]
      obtain ⟨hcount, hrest⟩ := ih
        (d.copyin ((off + tot) / BSIZE) ((off + tot) % BSIZE) (fun k => (src (tot + k)).getD 0) m) (tot + m)
        (by omega) (by omega)
      refine ⟨hcount, fun j => ?_⟩
      rw [hrest j, hcopy j]
      by_cases hnew : off + (tot + m) ≤ j ∧ j < off + n
      · rw [if_pos hnew, if_pos (by omega)]
      · rw [if_neg hnew]
        by_cases hin : off + tot ≤ j ∧ j < off + tot + m
        · rw [if_pos hin, if_pos (by omega)]
        · rw [if_neg hin, if_neg (by omega)]
    · have heq : tot = n := by omega
      subst heq
      rw [if_neg hlt]
      refine ⟨rfl, fun j => ?_⟩
      rw [if_neg (by omega)]

/-- A chunk that fits is written as a whole. -/
theorem writei_all (src : Src) {ip : Inode} (halloc : ∀ bn, alloc bn = true) (hsrc : ∀ k, k < n → (src k).isSome)
    (hoff : off ≤ ip.size) (hfits : off + n ≤ MAXFILE * BSIZE) :
    ∃ d, writei ip alloc src off n = ((n : ℤ), ⟨max ip.size (off + n), d⟩) ∧
      Overwrites off (off + n) (fun j => (src (j - off)).getD 0) ip.blocks d := by
  have hsmall : off + n < 2 ^ 32 := lt_of_le_of_lt hfits (by decide)
  obtain ⟨hcount, hover⟩ := writeRounds_all halloc hsrc off ip.blocks n 0 (by omega) (Nat.zero_le n)
  refine ⟨_, ?_, hover⟩
  unfold writei
  rw [Nat.mod_eq_of_lt hsmall, if_neg (by omega), if_neg (by omega)]
  dsimp only
  rw [hcount]

end Writei

section Chunks

variable {chunks : List Chunk} {c : Chunk} {call : ℕ}

def bytesIn (chunks : List Chunk) (call : ℕ) : List UInt8 := (chunks.filter (·.call = call)).flatMap Chunk.bytes

theorem bytesIn_snoc_self (chunks : List Chunk) (c : Chunk) :
    bytesIn (chunks ++ [c]) c.call = bytesIn chunks c.call ++ c.bytes := by
  unfold bytesIn
  rw [filter_append, flatMap_append, filter_cons_of_pos (by simp)]
  simp

theorem bytesIn_snoc_other (chunks : List Chunk) (hne : call ≠ c.call) :
    bytesIn (chunks ++ [c]) call = bytesIn chunks call := by
  unfold bytesIn
  rw [filter_append, filter_cons_of_neg (by simpa using hne.symm), filter_nil, append_nil]

/-- The chunks of all calls together are all chunks. -/
theorem length_eq_sum (L : ℕ) (h : ∀ c ∈ chunks, c.call < L) :
    (chunks.flatMap Chunk.bytes).length = ∑ call ∈ Finset.range L, (bytesIn chunks call).length := by
  induction chunks using List.reverseRecOn with
  | nil => simp [bytesIn]
  | append_singleton chunks c ih =>
    have hc : c.call ∈ Finset.range L := Finset.mem_range.mpr (h c (by simp))
    have hsplit : ∀ call, (bytesIn (chunks ++ [c]) call).length =
        (bytesIn chunks call).length + if call = c.call then c.bytes.length else 0 := by
      intro call
      by_cases heq : call = c.call
      · rw [heq, bytesIn_snoc_self, length_append, if_pos rfl]
      · rw [bytesIn_snoc_other chunks heq, if_neg heq, Nat.add_zero]
    rw [Finset.sum_congr rfl fun call _ => hsplit call, Finset.sum_add_distrib, Finset.sum_ite_eq', if_pos hc,
      ← ih fun x hx => h x (mem_append_left _ hx), flatMap_append, length_append]
    simp

end Chunks

section Calls

variable {P : Type} [DecidableEq P] {s s' : State P} {p : P} {o₀ : ℕ} {ip₀ : Inode}

def Pc.job : Pc → Option (ℕ × ℤ × Src × ℕ)
  | .idle => none
  | .loop call n src i => some (call, n, src, i)
  | .locked call n src i => some (call, n, src, i)

/-- The chunks stand where they should, and the calls know how far they are. -/
structure Core (o₀ : ℕ) (ip₀ : Inode) (s : State P) : Prop where
  writable : s.writable = true
  offset : s.off = o₀ + s.written.length
  size : s.off ≤ s.ip.size
  consecutive : ∀ pre c post, s.chunks = pre ++ c :: post → c.off = o₀ + (pre.flatMap Chunk.bytes).length
  content : ∀ j b, s.written[j]? = some b → s.ip.blocks.byte (o₀ + j) = b
  outside : ∀ j, j < o₀ ∨ o₀ + s.written.length ≤ j → s.ip.blocks.byte j = ip₀.blocks.byte j
  tags : ∀ c ∈ s.chunks, c.call < s.calls.length
  works : ∀ x ∈ s.calls, 0 ≤ x.1 ∧ ∀ k : ℕ, k < x.1 → (x.2 k).isSome
  pieces : ∀ call n src, s.calls[call]? = some (n, src) → bytesIn s.chunks call <+: bufferOf n src
  jobs : ∀ p call n src i, (s.pc p).job = some (call, n, src, i) →
    s.calls[call]? = some (n, src) ∧ i ≤ n ∧ (bytesIn s.chunks call).length = i
  apart : ∀ p q call a b, (s.pc p).job = some (call, a) → (s.pc q).job = some (call, b) → p = q
  returns : ∀ call r, (call, r) ∈ s.returned →
    (∃ src, s.calls[call]? = some (r, src) ∧ bytesIn s.chunks call = bufferOf r src) ∧
    ∀ p a, (s.pc p).job ≠ some (call, a)
  settled : ∀ call, call < s.calls.length → (∃ r, (call, r) ∈ s.returned) ∨ ∃ p a, (s.pc p).job = some (call, a)
  holds : ∀ p call n src i, s.pc p = .locked call n src i → s.lock = some p ∧ i < n
  order : match s.lock with
    | none => s.order = s.chunks.map Chunk.call
    | some p => ∃ call n src i, s.pc p = .locked call n src i ∧ s.order = s.chunks.map Chunk.call ++ [call]

theorem length_bufferOf (n : ℤ) (src : Src) : (bufferOf n src).length = n.toNat := by
  simp [bufferOf]

/-- The next piece of a buffer. -/
theorem buffer_snoc {n : ℤ} {src : Src} {l : List UInt8} {i m : ℕ} (hl : l <+: bufferOf n src) (hlen : l.length = i)
    (hle : i + m ≤ n.toNat) : l ++ (List.range m).map (fun k => (src (i + k)).getD 0) <+: bufferOf n src := by
  have hpiece : ∀ k, k ≤ n.toNat → (List.range k).map (fun k => (src k).getD 0) = (bufferOf n src).take k := by
    intro k hk
    unfold bufferOf
    rw [← map_take, take_range, Nat.min_eq_left hk]
  have hfirst : l = (List.range i).map fun k => (src k).getD 0 := by
    rw [hpiece i (by omega), ← hlen]
    exact prefix_iff_eq_take.mp hl
  have hboth : l ++ (List.range m).map (fun k => (src (i + k)).getD 0) = (bufferOf n src).take (i + m) := by
    rw [← hpiece (i + m) hle, range_add, map_append, ← hfirst, map_map]
    rfl
  rw [hboth]
  exact take_prefix _ _

namespace Core

variable {call : ℕ} {n : ℤ} {src : Src}

omit [DecidableEq P] in
theorem piece_le (h : Core o₀ ip₀ s) (hc : s.calls[call]? = some (n, src)) :
    (bytesIn s.chunks call).length ≤ n.toNat := by
  have hle := (h.pieces call n src hc).length_le
  rwa [length_bufferOf] at hle

/-- The lengths of the calls, by their numbers. -/
theorem sum_calls (calls : List (ℤ × Src)) :
    (calls.map fun c => c.1.toNat).sum = ∑ call ∈ Finset.range calls.length, (calls[call]?.map fun c => c.1.toNat).getD 0 := by
  induction calls using List.reverseRecOn with
  | nil => rfl
  | append_singleton calls c ih =>
    rw [map_append, sum_append, ih, length_append, length_singleton, Finset.sum_range_succ]
    congr 1
    · refine Finset.sum_congr rfl fun call hcall => ?_
      rw [List.getElem?_append_left (Finset.mem_range.mp hcall)]
    · simp

omit [DecidableEq P] in
/-- What is left of a call fits behind what has been written. -/
theorem room (h : Core o₀ ip₀ s) {i : ℕ} (hp : (s.pc p).job = some (call, n, src, i)) :
    s.written.length + (n.toNat - i) ≤ (s.calls.map fun c => c.1.toNat).sum := by
  obtain ⟨hc, hi, hlen⟩ := h.jobs p call n src i hp
  have hlt : call < s.calls.length := (List.getElem?_eq_some_iff.mp hc).1
  have hone : s.written.length + (n.toNat - i) = ∑ x ∈ Finset.range s.calls.length,
      ((bytesIn s.chunks x).length + if x = call then n.toNat - i else 0) := by
    rw [Finset.sum_add_distrib, Finset.sum_ite_eq', if_pos (Finset.mem_range.mpr hlt), ← length_eq_sum _ h.tags]
    rfl
  rw [hone, sum_calls]
  refine Finset.sum_le_sum fun x hx => ?_
  have hx' := List.getElem?_eq_getElem (Finset.mem_range.mp hx)
  by_cases heq : x = call
  · subst heq
    rw [hc, if_pos rfl, hlen]
    simp only [Option.map_some, Option.getD_some]
    omega
  · rw [hx', if_neg heq]
    exact h.piece_le hx'

omit [DecidableEq P] in
theorem ends (h : Core o₀ ip₀ s) (hidle : ∀ p, s.pc p = .idle) :
    s.off = o₀ + (s.calls.map fun c => c.1.toNat).sum := by
  rw [h.offset, sum_calls]
  congr 1
  refine (length_eq_sum _ h.tags).trans (Finset.sum_congr rfl fun call hcall => ?_)
  rcases h.settled call (Finset.mem_range.mp hcall) with ⟨r, hr⟩ | ⟨p, a, hp⟩
  · obtain ⟨src, hc, hall⟩ := (h.returns call r hr).1
    rw [hall, hc, length_bufferOf]
    rfl
  · rw [hidle p] at hp
    cases hp

omit [DecidableEq P] in
theorem shared (h : Core o₀ ip₀ s) : Shared o₀ ip₀ s := by
  refine ⟨?_, h.consecutive, h.content, h.outside, h.pieces, fun call r hr => (h.returns call r hr).1, h.offset, h.ends⟩
  have horder := h.order
  cases hlock : s.lock with
  | none =>
    rw [hlock] at horder
    exact ⟨by rw [horder], fun _ => horder⟩
  | some p =>
    rw [hlock] at horder
    obtain ⟨call, n, src, i, -, horder⟩ := horder
    exact ⟨by rw [horder]; exact prefix_append _ _, nofun⟩

section Moves

variable {call i : ℕ} {n : ℤ} {src : Src}

omit [DecidableEq P] in
theorem bytesIn_new (h : Core o₀ ip₀ s) : bytesIn s.chunks s.calls.length = [] := by
  unfold bytesIn
  rw [filter_eq_nil_iff.mpr, flatMap_nil]
  intro c hc
  simpa using (h.tags c hc).ne

/-- A move of a process that has no lock before or after. -/
theorem locked_update {c : Pc} (hp : ∀ call n src i, s.pc p ≠ .locked call n src i)
    (hc : ∀ call n src i, c ≠ .locked call n src i) (q : P) (call : ℕ) (n : ℤ) (src : Src) (i : ℕ) :
    update s.pc p c q = .locked call n src i ↔ s.pc q = .locked call n src i := by
  by_cases hqp : q = p
  · subst hqp
    rw [update_self]
    exact iff_of_false (hc call n src i) (hp call n src i)
  · rw [update_of_ne hqp]

/-- Another call begins. -/
theorem begin (h : Core o₀ ip₀ s) (hidle : s.pc p = .idle) (hn : 0 ≤ n) (hsrc : ∀ k : ℕ, k < n → (src k).isSome) :
    Core o₀ ip₀ ({ s with calls := s.calls ++ [(n, src)] }.goto p (.loop s.calls.length n src 0)) := by
  set s₁ : State P := { s with calls := s.calls ++ [(n, src)] }.goto p (.loop s.calls.length n src 0) with hs₁
  have hself : s₁.pc p = .loop s.calls.length n src 0 := update_self _ _ _
  have hother : ∀ q, q ≠ p → s₁.pc q = s.pc q := fun q hq => update_of_ne hq _ _
  have hlocked : ∀ q call' n' src' i', s₁.pc q = .locked call' n' src' i' ↔ s.pc q = .locked call' n' src' i' :=
    locked_update (by simp [hidle]) nofun
  have hcalls : s₁.calls = s.calls ++ [(n, src)] := rfl
  have hlast : (s.calls ++ [(n, src)])[s.calls.length]? = some (n, src) := List.getElem?_concat_length
  have hkeep : ∀ {call : ℕ} {x : ℤ × Src}, s.calls[call]? = some x → s₁.calls[call]? = some x := by
    intro call x hx
    rw [hcalls, List.getElem?_append_left (List.getElem?_eq_some_iff.mp hx).1, hx]
  -- the jobs are the old ones and the new one
  have hjob : ∀ q a, (s₁.pc q).job = some a → (q = p ∧ a = (s.calls.length, n, src, 0)) ∨ (q ≠ p ∧ (s.pc q).job = some a) := by
    intro q a hq
    by_cases hqp : q = p
    · rw [hqp, hself] at hq
      exact .inl ⟨hqp, (Option.some.inj hq).symm⟩
    · rw [hother q hqp] at hq
      exact .inr ⟨hqp, hq⟩
  have hold : ∀ q call a, (s.pc q).job = some (call, a) → q ≠ p ∧ call < s.calls.length := by
    rintro q call ⟨n', src', i'⟩ hq
    refine ⟨?_, (List.getElem?_eq_some_iff.mp (h.jobs q call n' src' i' hq).1).1⟩
    rintro rfl
    rw [hidle] at hq
    cases hq
  exact { h with
    tags := by
      intro c hc
      have hlt := h.tags c hc
      rw [hcalls, length_append]
      omega
    works := by
      intro x hx
      rcases mem_append.mp hx with hx | hx
      · exact h.works x hx
      · rw [mem_singleton.mp hx]
        exact ⟨hn, hsrc⟩
    pieces := by
      intro call' n' src' hc
      by_cases hnew : call' = s.calls.length
      · subst hnew
        have hnone := h.bytesIn_new
        exact hnone ▸ nil_prefix
      · have hlt := (List.getElem?_eq_some_iff.mp hc).1
        rw [hcalls, length_append, length_singleton] at hlt
        rw [hcalls, List.getElem?_append_left (by omega)] at hc
        exact h.pieces call' n' src' hc
    jobs := by
      intro q call' n' src' i' hq
      rcases hjob q _ hq with ⟨-, heq⟩ | ⟨-, hq⟩
      · cases heq
        refine ⟨hlast, by simpa using hn, ?_⟩
        exact congrArg List.length h.bytesIn_new
      · obtain ⟨hc, hrest⟩ := h.jobs q call' n' src' i' hq
        exact ⟨hkeep hc, hrest⟩
    apart := by
      intro q q' call' a b hq hq'
      rcases hjob q _ hq with ⟨hqp, heq⟩ | ⟨-, hq⟩ <;> rcases hjob q' _ hq' with ⟨hqp', heq'⟩ | ⟨-, hq'⟩
      · exact hqp.trans hqp'.symm
      · cases heq
        exact absurd (hold q' _ b hq').2 (lt_irrefl _)
      · cases heq'
        exact absurd (hold q _ a hq).2 (lt_irrefl _)
      · exact h.apart q q' call' a b hq hq'
    returns := by
      intro call' r hr
      obtain ⟨⟨src', hc, hall⟩, hover⟩ := h.returns call' r hr
      refine ⟨⟨src', hkeep hc, hall⟩, fun q a hq => ?_⟩
      rcases hjob q _ hq with ⟨-, heq⟩ | ⟨-, hq⟩
      · cases heq
        exact absurd (List.getElem?_eq_some_iff.mp hc).1 (lt_irrefl _)
      · exact hover q a hq
    settled := by
      intro call' hlt
      rw [hcalls, length_append, length_singleton] at hlt
      by_cases hnew : call' = s.calls.length
      · exact .inr ⟨p, (n, src, 0), by rw [hself, hnew]; rfl⟩
      · rcases h.settled call' (by omega) with hret | ⟨q, a, hq⟩
        · exact .inl hret
        · exact .inr ⟨q, a, by rw [hother q (hold q call' a hq).1, hq]⟩
    holds := fun q call' n' src' i' hq => h.holds q call' n' src' i' ((hlocked q call' n' src' i').mp hq)
    order := by
      simp only [hlocked]
      exact h.order }

/-- A call goes from one place to another with the same job. -/
theorem rejob {c : Pc} (hc : c.job = (s.pc p).job) (q : P) : ((s.goto p c).pc q).job = (s.pc q).job := by
  by_cases hqp : q = p
  · subst hqp
    rw [← hc]
    exact congrArg Pc.job (update_self _ _ _)
  · exact congrArg Pc.job (update_of_ne hqp _ _)

/-- A call takes the inode's lock. -/
theorem lock (h : Core o₀ ip₀ s) (hp : s.pc p = .loop call n src i) (hlt : i < n) (hfree : s.lock = none) :
    Core o₀ ip₀ { s.goto p (.locked call n src i) with lock := some p, order := s.order ++ [call] } := by
  have hjob : ∀ q, ((s.goto p (.locked call n src i)).pc q).job = (s.pc q).job := rejob (by rw [hp]; rfl)
  have horder := h.order
  rw [hfree] at horder
  exact { h with
    jobs := fun q call' n' src' i' hq => h.jobs q call' n' src' i' ((hjob q).symm.trans hq)
    apart := fun q q' call' a b hq hq' => h.apart q q' call' a b ((hjob q).symm.trans hq) ((hjob q').symm.trans hq')
    returns := fun call' r hr => ⟨(h.returns call' r hr).1,
      fun q a hq => (h.returns call' r hr).2 q a ((hjob q).symm.trans hq)⟩
    settled := by
      intro call' hcall
      rcases h.settled call' hcall with hret | ⟨q, a, hq⟩
      · exact .inl hret
      · exact .inr ⟨q, a, (hjob q).trans hq⟩
    holds := by
      intro q call' n' src' i' hq
      by_cases hqp : q = p
      · subst hqp
        have heq : Pc.locked call n src i = Pc.locked call' n' src' i' := (update_self _ _ _).symm.trans hq
        cases heq
        exact ⟨rfl, hlt⟩
      · have hold : s.pc q = .locked call' n' src' i' := (update_of_ne hqp _ _).symm.trans hq
        have hlock := (h.holds q call' n' src' i' hold).1
        rw [hfree] at hlock
        cases hlock
    order := ⟨call, n, src, i, update_self _ _ _, congrArg (· ++ [call]) horder⟩ }

/-- A call that has written everything returns. -/
theorem finish (h : Core o₀ ip₀ s) (hp : s.pc p = .loop call n src i) (hge : ¬i < n) :
    Core o₀ ip₀ (s.finish p call n i) := by
  have hjob : (s.pc p).job = some (call, n, src, i) := by rw [hp]; rfl
  obtain ⟨hc, hle, hlen⟩ := h.jobs p call n src i hjob
  have heq : (i : ℤ) = n := by omega
  have hall : bytesIn s.chunks call = bufferOf n src := by
    refine (h.pieces call n src hc).eq_of_length ?_
    rw [hlen, length_bufferOf]
    omega
  have hfin : s.finish p call n i = s.leave p call n := by
    unfold State.finish
    rw [if_pos heq]
  rw [hfin]
  set s₁ := s.leave p call n with hs₁
  have hself : s₁.pc p = .idle := update_self _ _ _
  have hother : ∀ q, q ≠ p → s₁.pc q = s.pc q := fun q hq => update_of_ne hq _ _
  have hlocked : ∀ q call' n' src' i', s₁.pc q = .locked call' n' src' i' ↔ s.pc q = .locked call' n' src' i' :=
    locked_update (by simp [hp]) nofun
  have hold : ∀ q a, (s₁.pc q).job = some a → q ≠ p ∧ (s.pc q).job = some a := by
    intro q a hq
    have hqp : q ≠ p := by
      rintro rfl
      rw [hself] at hq
      cases hq
    rw [hother q hqp] at hq
    exact ⟨hqp, hq⟩
  exact { h with
    jobs := fun q call' n' src' i' hq => h.jobs q call' n' src' i' (hold q _ hq).2
    apart := fun q q' call' a b hq hq' => h.apart q q' call' a b (hold q _ hq).2 (hold q' _ hq').2
    returns := by
      intro call' r hr
      rcases mem_append.mp hr with hr | hr
      · obtain ⟨hbytes, hover⟩ := h.returns call' r hr
        exact ⟨hbytes, fun q a hq => hover q a (hold q _ hq).2⟩
      · cases mem_singleton.mp hr
        refine ⟨⟨src, hc, hall⟩, fun q a hq => ?_⟩
        obtain ⟨hqp, hq⟩ := hold q _ hq
        exact hqp (h.apart q p call a _ hq hjob)
    settled := by
      intro call' hcall
      rcases h.settled call' hcall with ⟨r, hr⟩ | ⟨q, a, hq⟩
      · exact .inl ⟨r, mem_append_left _ hr⟩
      · by_cases hqp : q = p
        · rw [hqp, hjob] at hq
          cases hq
          exact .inl ⟨n, mem_append_right _ (mem_singleton_self _)⟩
        · exact .inr ⟨q, a, by rw [hother q hqp, hq]⟩
    holds := fun q call' n' src' i' hq => h.holds q call' n' src' i' ((hlocked q call' n' src' i').mp hq)
    order := by
      simp only [hlocked]
      exact h.order }

variable {alloc : ℕ → Bool}

section

variable (h : Core o₀ ip₀ s) (hp : s.pc p = .locked call n src i) (halloc : ∀ bn, alloc bn = true)

include h hp halloc

/-- The state after a chunk that fits. -/
theorem write_eq (hfits : o₀ + (s.calls.map fun c => c.1.toNat).sum ≤ MAXFILE * BSIZE) :
    ∃ (m : ℕ) (d : Blocks), 0 < m ∧ (i + m : ℤ) ≤ n ∧
      Overwrites s.off (s.off + m) (fun j => (src (i + (j - s.off))).getD 0) s.ip.blocks d ∧
      s.write p call n src i alloc = { s.goto p (.loop call n src (i + m)) with
        ip := ⟨max s.ip.size (s.off + m), d⟩
        off := s.off + m
        lock := none
        chunks := s.chunks ++ [(⟨call, s.off, (List.range m).map fun k => (src (i + k)).getD 0⟩ : Chunk)] } := by
  have hjob : (s.pc p).job = some (call, n, src, i) := by rw [hp]; rfl
  obtain ⟨hc, hle, hlen⟩ := h.jobs p call n src i hjob
  have hlt := (h.holds p call n src i hp).2
  have hroom := h.room hjob
  have hoff := h.offset
  set m := min (n - i).toNat maxChunk with hm
  have hmax : 0 < maxChunk := by decide
  have hpos : 0 < m := by omega
  have hsum : (i + m : ℤ) ≤ n := by omega
  have hsrc : ∀ k, k < m → (src (i + k)).isSome := by
    intro k hk
    refine (h.works _ (mem_of_getElem? hc)).2 (i + k) ?_
    push_cast
    omega
  have hend : s.off + m ≤ MAXFILE * BSIZE := by omega
  obtain ⟨d, hwritei, hover⟩ := writei_all (fun k => src (i + k)) halloc hsrc h.size hend
  have hsmall : s.off + m < 2 ^ 32 := lt_of_le_of_lt hend (by decide)
  refine ⟨m, d, hpos, hsum, hover, ?_⟩
  unfold State.write
  dsimp only
  rw [← hm, hwritei]
  dsimp only
  rw [Int.toNat_natCast, if_neg (not_not.mpr rfl), if_pos (by omega), Nat.mod_eq_of_lt hsmall]
  rfl

/-- A chunk is written. -/
theorem write (hfits : o₀ + (s.calls.map fun c => c.1.toNat).sum ≤ MAXFILE * BSIZE) :
    Core o₀ ip₀ (s.write p call n src i alloc) := by
  have hjob : (s.pc p).job = some (call, n, src, i) := by rw [hp]; rfl
  obtain ⟨hc, hle, hlen⟩ := h.jobs p call n src i hjob
  obtain ⟨m, d, hpos, hsum, hover, heq⟩ := h.write_eq hp halloc hfits
  have hlt : call < s.calls.length := (List.getElem?_eq_some_iff.mp hc).1
  have hlock := (h.holds p call n src i hp).1
  set c : Chunk := ⟨call, s.off, (List.range m).map fun k => (src (i + k)).getD 0⟩ with hcdef
  have hclen : c.bytes.length = m := by simp [hcdef]
  rw [heq]
  set s₁ : State P := { s.goto p (.loop call n src (i + m)) with
    ip := ⟨max s.ip.size (s.off + m), d⟩
    off := s.off + m
    lock := none
    chunks := s.chunks ++ [c] } with hs₁
  have hwritten : s₁.written = s.written ++ c.bytes := by
    simp [State.written, hs₁]
  have hself : s₁.pc p = .loop call n src (i + m) := update_self _ _ _
  have hother : ∀ q, q ≠ p → s₁.pc q = s.pc q := fun q hq => update_of_ne hq _ _
  have hown : bytesIn (s.chunks ++ [c]) call = bytesIn s.chunks call ++ c.bytes := bytesIn_snoc_self s.chunks c
  have hrest : ∀ {call'}, call' ≠ call → bytesIn (s.chunks ++ [c]) call' = bytesIn s.chunks call' :=
    fun hne => bytesIn_snoc_other s.chunks hne
  -- the jobs are those of before, except that `p` is `m` bytes further
  have hold : ∀ q call' a, (s₁.pc q).job = some (call', a) →
      (q = p ∧ call' = call ∧ a = (n, src, i + m)) ∨ (q ≠ p ∧ call' ≠ call ∧ (s.pc q).job = some (call', a)) := by
    intro q call' a hq
    by_cases hqp : q = p
    · rw [hqp, hself] at hq
      cases hq
      exact .inl ⟨hqp, rfl, rfl⟩
    · rw [hother q hqp] at hq
      refine .inr ⟨hqp, ?_, hq⟩
      rintro rfl
      exact hqp (h.apart q p call' a _ hq hjob)
  have hmine : ∀ q call' a, (s₁.pc q).job = some (call', a) → ∃ b, (s.pc q).job = some (call', b) := by
    intro q call' a hq
    rcases hold q call' a hq with ⟨rfl, rfl, -⟩ | ⟨-, -, hq⟩
    · exact ⟨_, hjob⟩
    · exact ⟨a, hq⟩
  exact { h with
    offset := by
      rw [hwritten, length_append, hclen, ← Nat.add_assoc, ← h.offset]
    size := le_max_right _ _
    consecutive := by
      intro pre x post hsplit
      rcases eq_nil_or_concat post with rfl | ⟨post', y, rfl⟩
      · obtain ⟨hpre, hx⟩ := append_inj' hsplit rfl
        cases hx
        rw [← hpre]
        exact h.offset
      · have hcut : s.chunks ++ [c] = (pre ++ x :: post') ++ [y] := by
          rw [show s.chunks ++ [c] = s₁.chunks from rfl, hsplit]
          simp
        exact h.consecutive pre x post' (append_inj' hcut rfl).1
    content := by
      intro j b hj
      rw [hwritten] at hj
      have hoff := h.offset
      have hbyte := hover (o₀ + j)
      rcases Nat.lt_or_ge j s.written.length with hlt' | hge
      · rw [List.getElem?_append_left hlt'] at hj
        rw [if_neg (by omega)] at hbyte
        exact hbyte.trans (h.content j b hj)
      · rw [List.getElem?_append_right hge] at hj
        have hjm : j - s.written.length < m := by
          rw [← hclen]
          exact (List.getElem?_eq_some_iff.mp hj).1
        rw [if_pos (by omega)] at hbyte
        dsimp only at hbyte
        rw [show o₀ + j - s.off = j - s.written.length by omega] at hbyte
        rw [hcdef, List.getElem?_map, List.getElem?_range hjm] at hj
        exact hbyte.trans (Option.some.inj hj)
    outside := by
      intro j hj
      rw [hwritten, length_append, hclen] at hj
      have hoff := h.offset
      have hbyte := hover j
      rw [if_neg (by omega)] at hbyte
      exact hbyte.trans (h.outside j (by omega))
    tags := by
      intro x hx
      rcases mem_append.mp hx with hx | hx
      · exact h.tags x hx
      · rwa [mem_singleton.mp hx]
    pieces := by
      intro call' n' src' hc'
      by_cases hcall : call' = call
      · subst hcall
        rw [show s₁.calls = s.calls from rfl, hc] at hc'
        cases hc'
        rw [show s₁.chunks = s.chunks ++ [c] from rfl, hown]
        exact buffer_snoc (h.pieces call' n src hc) hlen (by omega)
      · rw [show s₁.chunks = s.chunks ++ [c] from rfl, hrest hcall]
        exact h.pieces call' n' src' hc'
    jobs := by
      intro q call' n' src' i' hq
      rcases hold q call' _ hq with ⟨-, rfl, ha⟩ | ⟨-, hne, hq⟩
      · cases ha
        refine ⟨hc, by push_cast; exact hsum, ?_⟩
        rw [show s₁.chunks = s.chunks ++ [c] from rfl, hown, length_append, hlen, hclen]
      · rw [show s₁.chunks = s.chunks ++ [c] from rfl, hrest hne]
        exact h.jobs q call' n' src' i' hq
    apart := by
      intro q q' call' a b hq hq'
      obtain ⟨a', ha⟩ := hmine q call' a hq
      obtain ⟨b', hb⟩ := hmine q' call' b hq'
      exact h.apart q q' call' a' b' ha hb
    returns := by
      intro call' r hr
      obtain ⟨⟨src', hc', hall⟩, hnone⟩ := h.returns call' r hr
      have hne : call' ≠ call := by
        rintro rfl
        exact hnone p _ hjob
      refine ⟨⟨src', hc', by rw [show s₁.chunks = s.chunks ++ [c] from rfl, hrest hne, hall]⟩, fun q a hq => ?_⟩
      obtain ⟨b, hb⟩ := hmine q call' a hq
      exact hnone q b hb
    settled := by
      intro call' hcall
      rcases h.settled call' hcall with hret | ⟨q, a, hq⟩
      · exact .inl hret
      · by_cases hqp : q = p
        · rw [hqp, hjob] at hq
          cases hq
          exact .inr ⟨p, _, by rw [hself]; rfl⟩
        · exact .inr ⟨q, a, by rw [hother q hqp, hq]⟩
    holds := by
      intro q call' n' src' i' hq
      by_cases hqp : q = p
      · rw [hqp, hself] at hq
        cases hq
      · rw [hother q hqp] at hq
        have hq' := (h.holds q call' n' src' i' hq).1
        rw [hlock] at hq'
        exact absurd (Option.some.inj hq').symm hqp
    order := by
      have horder := h.order
      rw [hlock] at horder
      obtain ⟨call', n', src', i', hq, horder⟩ := horder
      rw [hp] at hq
      cases hq
      change s.order = (s.chunks ++ [c]).map Chunk.call
      rw [map_append, horder]
      rfl }

end

end Moves

end Core

omit [DecidableEq P] in
theorem core_init (hle : o₀ ≤ ip₀.size) : Core o₀ ip₀ (State.init true o₀ ip₀ : State P) := by
  constructor
  case size => exact hle
  case order => rfl
  all_goals simp [State.init, State.written, Pc.job]

/-- The calls so far have the lengths of the events so far. -/
def Inv (o₀ : ℕ) (ip₀ : Inode) (es : List (Event P)) (s : State P) : Prop :=
  Fits o₀ es → Core o₀ ip₀ s ∧ (s.calls.map fun c => c.1.toNat).sum = (es.map Event.length).sum

variable {es : List (Event P)} {e : Event P}

omit [DecidableEq P] in
theorem fits_snoc (h : Fits o₀ (es ++ [e])) :
    Fits o₀ es ∧ e.Works ∧ o₀ + ((es.map Event.length).sum + e.length) ≤ MAXFILE * BSIZE := by
  obtain ⟨hworks, hsum⟩ := h
  rw [map_append, sum_append, map_singleton, sum_singleton] at hsum
  exact ⟨⟨fun x hx => hworks x (mem_append_left _ hx), by omega⟩, hworks e (by simp), hsum⟩

theorem inv_step (h : Inv o₀ ip₀ es s) (hs : s.step e = some s') :
    Inv o₀ ip₀ (es ++ [e]) s' := by
  intro hfits
  obtain ⟨hbefore, hworks, hroom⟩ := fits_snoc hfits
  obtain ⟨hcore, hcalls⟩ := h hbefore
  rw [map_append, sum_append, map_singleton, sum_singleton, ← hcalls]
  cases e with
  | filewrite p n src =>
    dsimp only [State.step] at hs
    cases hp : s.pc p with
    | idle =>
      rw [hp] at hs
      dsimp only at hs
      rw [if_neg (by rw [hcore.writable]; decide)] at hs
      cases hs
      refine ⟨hcore.begin hp hworks.1 hworks.2, ?_⟩
      change ((s.calls ++ [(n, src)]).map fun c => c.1.toNat).sum = _
      rw [map_append, sum_append]
      simp [Event.length]
    | loop call n' src' i | locked call n' src' i =>
      rw [hp] at hs
      cases hs
  | next p =>
    dsimp only [State.step] at hs
    cases hp : s.pc p with
    | idle | locked call n src i =>
      rw [hp] at hs
      cases hs
    | loop call n src i =>
      rw [hp] at hs
      dsimp only at hs
      split at hs
      case isTrue hlt =>
        split at hs
        case isTrue hfree =>
          cases hs
          exact ⟨hcore.lock hp hlt hfree, rfl⟩
        case isFalse => cases hs
      case isFalse hge =>
        cases hs
        exact ⟨hcore.finish hp hge, rfl⟩
  | write p alloc =>
    dsimp only [State.step] at hs
    cases hp : s.pc p with
    | idle | loop call n src i =>
      rw [hp] at hs
      cases hs
    | locked call n src i =>
      rw [hp] at hs
      cases hs
      have hbudget : o₀ + (s.calls.map fun c => c.1.toNat).sum ≤ MAXFILE * BSIZE := by omega
      refine ⟨hcore.write hp hworks hbudget, ?_⟩
      obtain ⟨m, d, -, -, -, heq⟩ := hcore.write_eq hp hworks hbudget
      rw [heq]
      rfl

/-- Writes through a shared descriptor that is open for writing and not behind the end of the file do not overwrite
each other. -/
theorem filewrite_shared (o₀ : ℕ) (ip₀ : Inode) (es : List (Event P)) (hfits : Fits o₀ es) (hle : o₀ ≤ ip₀.size) :
    ∀ s, State.run true o₀ ip₀ es = some s → Shared o₀ ip₀ s := by
  intro s hs
  have hinv : Inv o₀ ip₀ es s := by
    refine @System.exec_history _ _ State.step (State.init true o₀ ip₀) (Inv o₀ ip₀) ?_ ?_ es s hs
    · exact fun _ => ⟨core_init hle, rfl⟩
    · exact fun es s e s' _ h hs => inv_step h hs
  exact (hinv hfits).1.shared

end Calls

section Runs

/-- One process writes more than a chunk, and another one writes in between. -/
def twoWriters : List (Event Bool) :=
  [.filewrite true 3073 (fun _ => some 1), .filewrite false 2 (fun _ => some 2), .next true, .write true (fun _ => true),
    .next false, .write false (fun _ => true), .next true, .write true (fun _ => true), .next false, .next true]

theorem twoWriters_fits : Fits 5 twoWriters := by
  refine ⟨fun e he => ?_, by decide⟩
  simp only [twoWriters, mem_cons, not_mem_nil, or_false] at he
  rcases he with rfl | rfl | rfl | rfl | rfl | rfl | rfl | rfl | rfl | rfl
  all_goals simp [Event.Works]

theorem twoWriters_shared : ∃ s : State Bool, State.run true 5 ⟨5, fun _ _ => 0⟩ twoWriters = some s ∧
    s.order = [0, 1, 0] ∧ s.returned = [(1, 2), (0, 3073)] ∧ s.off = 3080 ∧ Shared 5 ⟨5, fun _ _ => 0⟩ s := by
  have hrun : (State.run true 5 ⟨5, fun _ _ => 0⟩ twoWriters).map (fun s => (s.order, s.returned, s.off)) =
      some ([0, 1, 0], [(1, 2), (0, 3073)], 3080) := by decide +kernel
  obtain ⟨s, hs, hmap⟩ := Option.map_eq_some_iff.mp hrun
  obtain ⟨horder, hrest⟩ := Prod.mk.inj hmap
  obtain ⟨hret, hoff⟩ := Prod.mk.inj hrest
  exact ⟨s, hs, horder, hret, hoff, filewrite_shared 5 _ _ twoWriters_fits (le_refl 5) s hs⟩

/-- After the file has been truncated, its offset is behind its end. -/
def behindEnd : List (Event Unit) :=
  [.filewrite () 1 (fun _ => some 1), .next (), .write () (fun _ => true)]

/-- The only call was to write one byte, and has returned -1. -/
theorem not_shared {P : Type} {o₀ : ℕ} {ip₀ : Inode} {s : State P} (hret : s.returned = [(0, -1)])
    (hcalls : s.calls.map Prod.fst = [1]) : ¬Shared o₀ ip₀ s := by
  intro hshared
  obtain ⟨src, hc, -⟩ := hshared.returns 0 (-1) (by rw [hret]; exact mem_singleton_self _)
  have hfst : (s.calls.map Prod.fst)[0]? = some (-1) := by
    rw [List.getElem?_map, hc]
    rfl
  rw [hcalls] at hfst
  cases hfst

/-- A call at an offset behind the end of the file returns -1, and so does one through a descriptor that is not open for
writing. -/
theorem behindEnd_fails :
    (Fits 1 behindEnd ∧ ∃ s : State Unit, State.run true 1 ⟨0, fun _ _ => 0⟩ behindEnd = some s ∧
      s.returned = [(0, -1)] ∧ ¬Shared 1 ⟨0, fun _ _ => 0⟩ s) ∧
    Fits 0 (behindEnd.take 1) ∧ ∃ s : State Unit, State.run false 0 ⟨0, fun _ _ => 0⟩ (behindEnd.take 1) = some s ∧
      s.returned = [(0, -1)] ∧ ¬Shared 0 ⟨0, fun _ _ => 0⟩ s := by
  refine ⟨⟨⟨fun e he => ?_, by decide⟩, ?_⟩, ⟨fun e he => ?_, by decide⟩, ?_⟩
  · simp only [behindEnd, mem_cons, not_mem_nil, or_false] at he
    rcases he with rfl | rfl | rfl
    all_goals simp [Event.Works]
  · exact ⟨_, rfl, by decide +kernel, not_shared (by decide +kernel) (by decide +kernel)⟩
  · simp only [behindEnd, take, mem_singleton] at he
    subst he
    simp [Event.Works]
  · exact ⟨_, rfl, rfl, not_shared rfl rfl⟩

end Runs

end Xv6.Filewrite
