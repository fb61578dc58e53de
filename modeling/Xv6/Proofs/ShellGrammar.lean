import Xv6.Sanity.ShellTokens

/-! The shell parses its grammar: `parsecmd` returns a command exactly for the lines that the grammar derives, and it
is the tree of the derivation, with every word terminated by a NUL. -/

namespace Xv6.Shell

open List

section Tokens

variable {c c' d : Cmd Str} {ts us rest : List Token} {n : ℕ}

theorem Cmd.redirs_append (c : Cmd Str) (rs qs : Redirs) : c.redirs (rs ++ qs) = (c.redirs rs).redirs qs :=
  foldl_append

/-- The words go to the EXEC node, below the redirections. -/
theorem Cmd.push_redirs (argv : List Str) (rs : Redirs) (w : Str) :
    ((Cmd.exec argv).redirs rs).push w = (Cmd.exec (argv ++ [w])).redirs rs := by
  induction rs using List.reverseRecOn with
  | nil => rfl
  | append_singleton rs r ih =>
    rw [Cmd.redirs_append, Cmd.redirs_append]
    exact congrArg (fun c => Cmd.redir c r.2 r.1.mode r.1.fd) ih

theorem Cmd.back_backs (c : Cmd Str) (n : ℕ) : c.back.backs n = c.backs (n + 1) :=
  (Function.iterate_succ_apply Cmd.back n c).symm

/-! ### What is parsed can be derived -/

theorem redirsT_sound (h : redirsT n c ts = .ok (c', rest)) : ∃ rs : Redirs, ts = rs.tokens ++ rest ∧ c' = c.redirs rs := by
  induction n generalizing c ts with
  | zero => cases h
  | succ n ih =>
    unfold redirsT at h
    split at h
    · rename_i op w us hop htail
      obtain ⟨t, ht, hop⟩ := Option.bind_eq_some_iff.mp hop
      obtain ⟨us', hts⟩ := List.head?_eq_some_iff.mp ht
      rw [hts, tail_cons] at htail
      obtain ⟨rs, hus, hc⟩ := ih h
      refine ⟨(op, w) :: rs, ?_, hc⟩
      have htok : t = op.token := by cases t <;> cases hop <;> rfl
      rw [hts, htail, hus, htok]
      rfl
    · cases h
    · cases h
      exact ⟨[], rfl, rfl⟩

/-- The tokens of the words of a command, each with the redirections behind it. -/
def wordTokens (ws : List (Str × Redirs)) : List Token := ws.flatMap fun w => .word w.1 :: Redirs.tokens w.2

variable {α β : Type} {argv : List Str} {rs : Redirs} {argc k : ℕ} {x : Except Panic α} {f : α → Except Panic β}
  {p : Phrase} {r : Cmd Str × List Token}

theorem argsT_sound (h : argsT n ((Cmd.exec argv).redirs rs) argc ts = .ok (c', rest)) :
    ∃ ws, ts = wordTokens ws ++ rest ∧ (argc < MAXARGS → argc + ws.length < MAXARGS) ∧
      c' = (Cmd.exec (argv ++ ws.map Prod.fst)).redirs (rs ++ ws.flatMap Prod.snd) := by
  induction n generalizing argv rs argc ts with
  | zero => cases h
  | succ n ih =>
    cases ts with
    | nil =>
      cases h
      exact ⟨[], rfl, fun h => h, by simp⟩
    | cons t ts =>
      by_cases ht : ∃ w, t = .word w
      · obtain ⟨w, rfl⟩ := ht
        rw [argsT] at h
        split at h
        · cases h
        · rename_i hargc
          cases hr : redirsT n (((Cmd.exec argv).redirs rs).push w) ts with
          | error e => rw [hr] at h; cases h
          | ok r =>
            rw [hr] at h
            obtain ⟨qs, hts, hc⟩ := redirsT_sound hr
            rw [Cmd.push_redirs, ← Cmd.redirs_append] at hc
            have h' : argsT n r.1 (argc + 1) r.2 = .ok (c', rest) := h
            rw [hc] at h'
            obtain ⟨ws, hws, hlen, hc'⟩ := ih h'
            refine ⟨(w, qs) :: ws, ?_, fun _ => ?_, ?_⟩
            · rw [hts, hws]
              simp [wordTokens]
            · have := hlen (by omega)
              rw [length_cons]
              omega
            · rw [hc']
              simp
      · rw [argsT_other fun w hw => ht ⟨w, hw⟩] at h
        split at h
        · cases h
          exact ⟨[], rfl, fun h => h, by simp⟩
        · cases h

theorem backsT_sound (h : backsT n c ts = .ok (c', rest)) :
    ∃ k, ts = List.replicate k .amp ++ rest ∧ c' = c.backs k := by
  induction n generalizing c ts with
  | zero => cases h
  | succ n ih =>
    by_cases ht : ts.head? = some .amp
    · obtain ⟨us, rfl⟩ := List.head?_eq_some_iff.mp ht
      obtain ⟨k, hts, hc⟩ := ih (h : backsT n (.back c) us = _)
      refine ⟨k + 1, ?_, hc.trans (c.back_backs k)⟩
      rw [hts]
      rfl
    · rw [backsT_other ht] at h
      cases h
      exact ⟨0, rfl, rfl⟩

/-- What a function of the parser has consumed is a phrase. -/
def Sound (p : Phrase) (parse : List Token → Except Panic (Cmd Str × List Token)) : Prop :=
  ∀ ts c rest, parse ts = .ok (c, rest) → ∃ us, ts = us ++ rest ∧ Derives p us c

theorem bind_eq_ok {b : β} (h : (x >>= f) = .ok b) :
    ∃ a, x = .ok a ∧ f a = .ok b := by
  cases x with
  | error e => cases h
  | ok a => exact ⟨a, rfl, h⟩

theorem lineT_sound (hpipe : Sound .pipe (pipeT n)) (hline : Sound .line (lineT n)) : Sound .line (lineT (n + 1)) := by
  intro ts c rest h
  unfold lineT at h
  obtain ⟨⟨c₁, ts₁⟩, hp, hback⟩ := bind_eq_ok h
  obtain ⟨⟨c₂, ts₂⟩, hb, hseq⟩ := bind_eq_ok hback
  obtain ⟨us, rfl, hus⟩ := hpipe _ _ _ hp
  obtain ⟨k, rfl, rfl⟩ := backsT_sound hb
  dsimp only at hseq
  split at hseq
  · obtain ⟨⟨d, ts₄⟩, hl, hend⟩ := bind_eq_ok hseq
    cases hend
    obtain ⟨vs, rfl, hvs⟩ := hline _ _ _ hl
    exact ⟨us ++ List.replicate k .amp ++ .semi :: vs, by simp, .lineSeq k hus hvs⟩
  · cases hseq
    exact ⟨us ++ List.replicate k .amp, by simp, .line k hus⟩

theorem pipeT_sound (hexec : Sound .exec (execT n)) (hpipe : Sound .pipe (pipeT n)) : Sound .pipe (pipeT (n + 1)) := by
  intro ts c rest h
  unfold pipeT at h
  obtain ⟨⟨c₁, ts₁⟩, he, hbar⟩ := bind_eq_ok h
  obtain ⟨us, rfl, hus⟩ := hexec _ _ _ he
  dsimp only at hbar
  split at hbar
  · obtain ⟨⟨d, ts₃⟩, hp, hend⟩ := bind_eq_ok hbar
    cases hend
    obtain ⟨vs, rfl, hvs⟩ := hpipe _ _ _ hp
    exact ⟨us ++ .bar :: vs, by simp, .pipeBar hus hvs⟩
  · cases hbar
    exact ⟨us, rfl, .pipe hus⟩

theorem blockT_sound (hline : Sound .line (lineT n)) : Sound .exec (blockT (n + 1)) := by
  intro ts c rest h
  cases ts with
  | nil => cases h
  | cons t ts =>
    by_cases ht : t = .lpar
    · subst ht
      rw [blockT] at h
      obtain ⟨⟨c₁, ts₁⟩, hl, hclose⟩ := bind_eq_ok h
      obtain ⟨us, rfl, hus⟩ := hline _ _ _ hl
      dsimp only at hclose
      split at hclose
      · obtain ⟨rs, rfl, rfl⟩ := redirsT_sound hclose
        exact ⟨.lpar :: us ++ .rpar :: rs.tokens, by simp, .block rs hus⟩
      · cases hclose
    · cases t <;> first | cases h | exact absurd rfl ht

theorem execT_sound (hblock : Sound .exec (blockT n)) : Sound .exec (execT (n + 1)) := by
  intro ts c rest h
  by_cases ht : ts.head? = some .lpar
  · obtain ⟨ts, rfl⟩ := List.head?_eq_some_iff.mp ht
    exact hblock _ _ _ h
  · rw [execT_other ht] at h
    obtain ⟨⟨c₁, ts₁⟩, hr, h⟩ := bind_eq_ok h
    obtain ⟨rs, rfl, rfl⟩ := redirsT_sound hr
    obtain ⟨ws, rfl, hlen, rfl⟩ := argsT_sound h
    refine ⟨rs.tokens ++ wordTokens ws, by simp, ?_⟩
    rw [nil_append]
    refine .words rs ws ?_
    have := hlen (by decide)
    omega

theorem parse_sound (n : ℕ) : Sound .line (lineT n) ∧ Sound .pipe (pipeT n) ∧ Sound .exec (execT n) ∧
    Sound .exec (blockT n) := by
  induction n with
  | zero => exact ⟨nofun, nofun, nofun, nofun⟩
  | succ n ih =>
    obtain ⟨hline, hpipe, hexec, hblock⟩ := ih
    exact ⟨lineT_sound hpipe hline, pipeT_sound hexec hpipe, execT_sound hblock, blockT_sound hline⟩

/-! ### What can be derived is parsed -/

theorem redirsT_complete (rs : Redirs) (hrest : rest.head?.bind Token.op = none) (hn : rs.length < n) :
    redirsT n c (rs.tokens ++ rest) = .ok (c.redirs rs, rest) := by
  induction rs generalizing n c with
  | nil =>
    obtain ⟨n, rfl⟩ := Nat.exists_eq_succ_of_ne_zero hn.ne_bot
    change redirsT (n + 1) c rest = .ok (c, rest)
    rw [redirsT, hrest]
  | cons r rs ih =>
    obtain ⟨n, rfl⟩ := Nat.exists_eq_succ_of_ne_zero (Nat.ne_zero_of_lt hn)
    obtain ⟨op, w⟩ := r
    have hop : op.token.op = some op := by cases op <;> rfl
    change redirsT (n + 1) c (op.token :: .word w :: (Redirs.tokens rs ++ rest)) = _
    rw [redirsT, List.head?_cons, Option.bind_some, hop]
    exact ih (Nat.lt_of_succ_lt_succ hn)

/-- What may follow a phrase. -/
def Phrase.follow : Phrase → List Token
  | .line => [.rpar]
  | .pipe => [.rpar, .amp, .semi]
  | .exec => [.rpar, .amp, .semi, .bar]

def Stops (p : Phrase) (rest : List Token) : Prop := ∀ t, rest.head? = some t → t ∈ p.follow

theorem stops_nil (p : Phrase) : Stops p [] := nofun

theorem stops_cons {t : Token} (ht : t ∈ p.follow) : Stops p (t :: ts) := by
  intro u hu
  cases hu
  exact ht

theorem Stops.mono {q : Phrase} (h : Stops p rest) (hpq : p.follow ⊆ q.follow) : Stops q rest :=
  fun t ht => hpq (h t ht)

theorem Stops.no_op (h : Stops .exec rest) : rest.head?.bind Token.op = none := by
  cases hr : rest.head? with
  | none => rfl
  | some t =>
    have := h t hr
    simp only [Phrase.follow, mem_cons, not_mem_nil, or_false] at this
    rcases this with rfl | rfl | rfl | rfl <;> rfl

theorem argsT_stops (h : Stops .exec rest) (argc : ℕ) : argsT (n + 1) c argc rest = .ok (c, rest) := by
  cases rest with
  | nil => rfl
  | cons t ts =>
    have := h t rfl
    simp only [Phrase.follow, mem_cons, not_mem_nil, or_false] at this
    rcases this with rfl | rfl | rfl | rfl <;> rfl

theorem wordTokens_no_op (ws : List (Str × Redirs)) (hrest : Stops .exec rest) :
    (wordTokens ws ++ rest).head?.bind Token.op = none := by
  cases ws with
  | nil => exact hrest.no_op
  | cons w ws => rfl

theorem tokens_length (rs : Redirs) : rs.tokens.length = 2 * rs.length := by
  induction rs with
  | nil => rfl
  | cons r rs ih =>
    change (Redirs.tokens rs).length + 2 = _
    rw [ih, length_cons]
    omega

theorem argsT_complete (ws : List (Str × Redirs)) (hrest : Stops .exec rest)
    (hargc : argc + ws.length < MAXARGS) (hn : (wordTokens ws).length < n) :
    argsT n ((Cmd.exec argv).redirs rs) argc (wordTokens ws ++ rest) =
      .ok ((Cmd.exec (argv ++ ws.map Prod.fst)).redirs (rs ++ ws.flatMap Prod.snd), rest) := by
  induction ws generalizing n argv rs argc with
  | nil =>
    obtain ⟨n, rfl⟩ := Nat.exists_eq_succ_of_ne_zero (Nat.ne_zero_of_lt hn)
    rw [show wordTokens [] ++ rest = rest from rfl, argsT_stops hrest]
    simp
  | cons w ws ih =>
    obtain ⟨w, qs⟩ := w
    obtain ⟨n, rfl⟩ := Nat.exists_eq_succ_of_ne_zero (Nat.ne_zero_of_lt hn)
    have hcons : wordTokens ((w, qs) :: ws) ++ rest = .word w :: (Redirs.tokens qs ++ (wordTokens ws ++ rest)) := by
      simp [wordTokens]
    have hlen : (wordTokens ((w, qs) :: ws)).length = 1 + 2 * qs.length + (wordTokens ws).length := by
      simp [wordTokens, tokens_length]
      omega
    rw [length_cons] at hargc
    rw [hcons, argsT, if_neg (by omega), Cmd.push_redirs]
    rw [redirsT_complete qs (wordTokens_no_op ws hrest) (by omega), ← Cmd.redirs_append]
    change argsT n ((Cmd.exec (argv ++ [w])).redirs (rs ++ qs)) (argc + 1) (wordTokens ws ++ rest) = _
    rw [ih (by omega) (by omega)]
    simp

theorem backsT_complete (k : ℕ) (hrest : rest.head? ≠ some .amp) (hn : k < n) :
    backsT n c (List.replicate k .amp ++ rest) = .ok (c.backs k, rest) := by
  induction k generalizing n c with
  | zero =>
    obtain ⟨n, rfl⟩ := Nat.exists_eq_succ_of_ne_zero (Nat.ne_zero_of_lt hn)
    exact backsT_other hrest n c
  | succ k ih =>
    obtain ⟨n, rfl⟩ := Nat.exists_eq_succ_of_ne_zero (Nat.ne_zero_of_lt hn)
    rw [← Cmd.back_backs]
    exact ih (Nat.lt_of_succ_lt_succ hn)

/-- The function that parses a phrase. -/
def Phrase.parse : Phrase → ℕ → List Token → Except Panic (Cmd Str × List Token)
  | .line => lineT
  | .pipe => pipeT
  | .exec => execT

/-- How much fuel a phrase needs, apart from that for its tokens. -/
def Phrase.cost : Phrase → ℕ
  | .line => 4
  | .pipe => 3
  | .exec => 2

theorem bind_ok {a : α} (h : x = .ok a) (f : α → Except Panic β) : (x >>= f) = f a := by
  rw [h]
  rfl

/-- A line behind its first part and the `&`s. -/
theorem lineT_backs (hpipe : pipeT n (ts ++ (List.replicate k .amp ++ rest)) = .ok (c, List.replicate k .amp ++ rest))
    (hrest : rest.head? ≠ some .amp) (hn : k < n) :
    lineT (n + 1) (ts ++ (List.replicate k .amp ++ rest)) =
      (.ok (c.backs k, rest) : Except Panic (Cmd Str × List Token)) >>= fun r => match r.2 with
        | .semi :: us => do
          let (d, us) ← lineT n us
          .ok (.list r.1 d, us)
        | us => .ok (r.1, us) := by
  rw [lineT]
  exact (bind_ok hpipe _).trans (bind_ok (backsT_complete k hrest hn) _)

theorem stops_amps (hamp : .amp ∈ p.follow) (h : Stops p rest) :
    Stops p (List.replicate k .amp ++ rest) := by
  cases k with
  | zero => exact h
  | succ k => exact stops_cons hamp

theorem head_not_lpar (rs : Redirs) (ws : List (Str × Redirs)) (hrest : Stops .exec rest) :
    (rs.tokens ++ (wordTokens ws ++ rest)).head? ≠ some .lpar := by
  cases rs with
  | cons r rs =>
    obtain ⟨op, w⟩ := r
    cases op <;> exact nofun
  | nil =>
    cases ws with
    | cons w ws => exact nofun
    | nil =>
      intro h
      have := hrest _ h
      simp [Phrase.follow] at this

theorem parse_complete (h : Derives p ts c) (hrest : Stops p rest) (hn : 4 * ts.length + p.cost ≤ n) :
    p.parse n (ts ++ rest) = .ok (c, rest) := by
  -- the fuel that is left is enough for the parts, since each part has fewer tokens or is of a lower kind
  induction h generalizing n rest with
  | @line ts c k hpipe ih =>
    obtain ⟨n, rfl⟩ := Nat.exists_eq_succ_of_ne_zero (Nat.ne_zero_of_lt hn)
    simp only [Phrase.cost, length_append, length_replicate] at hn
    have hpipe : pipeT n (ts ++ (List.replicate k .amp ++ rest)) = .ok (c, List.replicate k .amp ++ rest) :=
      ih (stops_amps (by decide) (hrest.mono (by decide))) (by simp only [Phrase.cost]; omega)
    rw [append_assoc]
    refine (lineT_backs hpipe (fun h => absurd (hrest _ h) (by decide)) (by omega)).trans ?_
    cases rest with
    | nil => rfl
    | cons t us =>
      have := hrest t rfl
      rw [mem_singleton.mp this]
      rfl
  | @lineSeq ts c us d k hpipe hline ihpipe ihline =>
    obtain ⟨n, rfl⟩ := Nat.exists_eq_succ_of_ne_zero (Nat.ne_zero_of_lt hn)
    simp only [Phrase.cost, length_append, length_replicate, length_cons] at hn
    have hpipe : pipeT n (ts ++ (List.replicate k .amp ++ (.semi :: us ++ rest))) =
        .ok (c, List.replicate k .amp ++ (.semi :: us ++ rest)) :=
      ihpipe (stops_amps (by decide) (stops_cons (by decide))) (by simp only [Phrase.cost]; omega)
    have hline : lineT n (us ++ rest) = .ok (d, rest) := ihline hrest (by simp only [Phrase.cost]; omega)
    rw [append_assoc, append_assoc]
    exact (lineT_backs hpipe (by simp) (by omega)).trans (bind_ok hline _)
  | @pipe ts c hexec ih =>
    obtain ⟨n, rfl⟩ := Nat.exists_eq_succ_of_ne_zero (Nat.ne_zero_of_lt hn)
    simp only [Phrase.cost] at hn
    have hexec : execT n (ts ++ rest) = .ok (c, rest) := ih (hrest.mono (by decide)) (by simp only [Phrase.cost]; omega)
    change pipeT (n + 1) (ts ++ rest) = _
    unfold pipeT
    refine (bind_ok hexec _).trans ?_
    cases rest with
    | nil => rfl
    | cons t us =>
      have := hrest t rfl
      simp only [Phrase.follow, mem_cons, not_mem_nil, or_false] at this
      rcases this with rfl | rfl | rfl <;> rfl
  | @pipeBar ts c us d hexec hpipe ihexec ihpipe =>
    obtain ⟨n, rfl⟩ := Nat.exists_eq_succ_of_ne_zero (Nat.ne_zero_of_lt hn)
    simp only [Phrase.cost, length_append, length_cons] at hn
    have hexec : execT n (ts ++ (.bar :: us ++ rest)) = .ok (c, .bar :: us ++ rest) :=
      ihexec (stops_cons (by decide)) (by simp only [Phrase.cost]; omega)
    have hpipe : pipeT n (us ++ rest) = .ok (d, rest) := ihpipe hrest (by simp only [Phrase.cost]; omega)
    rw [append_assoc]
    change pipeT (n + 1) (ts ++ (.bar :: us ++ rest)) = _
    unfold pipeT
    exact (bind_ok hexec _).trans (bind_ok hpipe _)
  | @block ts c rs hline ih =>
    obtain ⟨n, rfl⟩ := Nat.exists_eq_add_of_le (show 2 ≤ n by simp only [Phrase.cost] at hn; omega)
    simp only [Phrase.cost, length_append, length_cons, tokens_length] at hn
    have hline : lineT n (ts ++ (.rpar :: rs.tokens ++ rest)) = .ok (c, .rpar :: rs.tokens ++ rest) :=
      ih (stops_cons (by decide)) (by simp only [Phrase.cost]; omega)
    rw [Nat.add_comm 2 n, append_assoc]
    change blockT (n + 1) (.lpar :: (ts ++ (.rpar :: rs.tokens ++ rest))) = _
    rw [blockT]
    exact (bind_ok hline _).trans (redirsT_complete rs hrest.no_op (by omega))
  | words rs ws hlen =>
    obtain ⟨n, rfl⟩ := Nat.exists_eq_succ_of_ne_zero (Nat.ne_zero_of_lt hn)
    have hlength : (rs.tokens ++ wordTokens ws).length = 2 * rs.length + (wordTokens ws).length := by
      rw [length_append, tokens_length]
    have hn' : 4 * (rs.tokens ++ wordTokens ws).length + 2 ≤ n + 1 := hn
    rw [hlength] at hn'
    change execT (n + 1) (rs.tokens ++ wordTokens ws ++ rest) = _
    rw [append_assoc, execT_other (head_not_lpar rs ws hrest)]
    refine (bind_ok (redirsT_complete rs (wordTokens_no_op ws hrest) (by omega)) _).trans ?_
    exact argsT_complete ws hrest (by omega) (by omega)

/-! ### The fuel is enough -/

theorem redirsT_fuel (hn : ts.length < n) : redirsT n c ts ≠ .error .outOfFuel := by
  induction n generalizing c ts with
  | zero => exact absurd hn (Nat.not_lt_zero _)
  | succ n ih =>
    unfold redirsT
    split
    · rename_i op w us hop htail
      refine ih ?_
      have hlen := congrArg List.length htail
      rw [length_tail, length_cons] at hlen
      omega
    · exact nofun
    · exact nofun

theorem redirsT_length (h : redirsT n c ts = .ok r) : r.2.length ≤ ts.length := by
  obtain ⟨c', rest⟩ := r
  obtain ⟨rs, rfl, -⟩ := redirsT_sound h
  rw [length_append]
  exact Nat.le_add_left _ _

theorem backsT_length (h : backsT n c ts = .ok r) : r.2.length ≤ ts.length := by
  obtain ⟨c', rest⟩ := r
  obtain ⟨k, rfl, -⟩ := backsT_sound h
  rw [length_append]
  exact Nat.le_add_left _ _

theorem bind_fuel (hx : x ≠ .error .outOfFuel)
    (hf : ∀ a, x = .ok a → f a ≠ .error .outOfFuel) : (x >>= f) ≠ .error .outOfFuel := by
  cases x with
  | error e => exact fun h => hx (congrArg Except.error (Except.error.inj h))
  | ok a => exact hf a rfl

theorem argsT_fuel (hn : ts.length < n) : argsT n c argc ts ≠ .error .outOfFuel := by
  induction n generalizing c argc ts with
  | zero => exact absurd hn (Nat.not_lt_zero _)
  | succ n ih =>
    cases ts with
    | nil => rintro ⟨⟩
    | cons t ts =>
      rw [length_cons] at hn
      by_cases ht : ∃ w, t = .word w
      · obtain ⟨w, rfl⟩ := ht
        rw [argsT]
        split
        · rintro ⟨⟩
        · refine bind_fuel (redirsT_fuel (by omega)) fun r hr => ih ?_
          have := redirsT_length hr
          omega
      · rw [argsT_other fun w hw => ht ⟨w, hw⟩]
        split <;> rintro ⟨⟩

theorem backsT_fuel (hn : ts.length < n) : backsT n c ts ≠ .error .outOfFuel := by
  induction n generalizing c ts with
  | zero => exact absurd hn (Nat.not_lt_zero _)
  | succ n ih =>
    by_cases ht : ts.head? = some .amp
    · obtain ⟨us, rfl⟩ := List.head?_eq_some_iff.mp ht
      rw [length_cons] at hn
      exact ih (by omega)
    · rw [backsT_other ht]
      exact nofun

/-- The fuel that is enough for a function of the parser. -/
def Fuelled (cost : ℕ) (n : ℕ) (parse : List Token → Except Panic (Cmd Str × List Token)) : Prop :=
  ∀ ts, 4 * ts.length + cost ≤ n → parse ts ≠ .error .outOfFuel

theorem Sound.length {parse : List Token → Except Panic (Cmd Str × List Token)} (h : Sound p parse)
    (hr : parse ts = .ok r) : r.2.length ≤ ts.length := by
  obtain ⟨us, rfl, -⟩ := h ts r.1 r.2 hr
  rw [length_append]
  omega

theorem parse_fuel (n : ℕ) : Fuelled 4 n (lineT n) ∧ Fuelled 3 n (pipeT n) ∧ Fuelled 2 n (execT n) ∧
    Fuelled 1 n (blockT n) := by
  induction n with
  | zero =>
    have hzero : ∀ {cost parse}, 0 < cost → Fuelled cost 0 parse := fun hc ts hts => absurd hts (by omega)
    exact ⟨hzero (by decide), hzero (by decide), hzero (by decide), hzero (by decide)⟩
  | succ n ih =>
    obtain ⟨hline, hpipe, hexec, hblock⟩ := ih
    obtain ⟨hlines, hpipes, hexecs, -⟩ := parse_sound n
    refine ⟨fun ts hts => ?_, fun ts hts => ?_, fun ts hts => ?_, fun ts hts => ?_⟩
    · rw [lineT]
      refine bind_fuel (hpipe ts (by omega)) fun r hr => ?_
      have hlen := hpipes.length hr
      refine bind_fuel (backsT_fuel (by omega)) fun r' hr' => ?_
      have hlen' := backsT_length hr'
      dsimp only
      split
      · rename_i us heq
        refine bind_fuel (hline us ?_) fun _ _ => by rintro ⟨⟩
        rw [heq, length_cons] at hlen'
        omega
      · rintro ⟨⟩
    · rw [pipeT]
      refine bind_fuel (hexec ts (by omega)) fun r hr => ?_
      have hlen := hexecs.length hr
      dsimp only
      split
      · rename_i us heq
        refine bind_fuel (hpipe us ?_) fun _ _ => by rintro ⟨⟩
        rw [heq, length_cons] at hlen
        omega
      · rintro ⟨⟩
    · by_cases ht : ts.head? = some .lpar
      · obtain ⟨us, rfl⟩ := List.head?_eq_some_iff.mp ht
        exact hblock _ (by omega)
      · rw [execT_other ht]
        refine bind_fuel (redirsT_fuel (by omega)) fun r hr => argsT_fuel ?_
        have := redirsT_length hr
        omega
    · cases ts with
      | nil => rintro ⟨⟩
      | cons t ts =>
        rw [length_cons] at hts
        by_cases ht : t = .lpar
        · subst ht
          rw [blockT]
          refine bind_fuel (hline ts (by omega)) fun r hr => ?_
          have hlen := hlines.length hr
          dsimp only
          split
          · rename_i us heq
            rw [heq, length_cons] at hlen
            exact redirsT_fuel (by omega)
          · rintro ⟨⟩
        · have hother : blockT (n + 1) (t :: ts) = .error .parseblock := by
            cases t <;> first | rfl | exact absurd rfl ht
          rw [hother]
          rintro ⟨⟩

theorem Derives.zeroTerminated (h : Derives p ts c) : c.zeroTerminated := by
  have hredirs : ∀ (rs : Redirs) (c : Cmd Str), c.zeroTerminated → (c.redirs rs).zeroTerminated := by
    intro rs
    induction rs with
    | nil => exact fun c hc => hc
    | cons r rs ih => exact fun c hc => ih _ hc
  have hbacks : ∀ (n : ℕ) (c : Cmd Str), c.zeroTerminated → (c.backs n).zeroTerminated := by
    intro n
    induction n with
    | zero => exact fun c hc => hc
    | succ n ih => exact fun c hc => c.back_backs n ▸ ih c.back hc
  induction h with
  | line n _ ih => exact hbacks n _ ih
  | lineSeq n _ _ ih₁ ih₂ => exact ⟨hbacks n _ ih₁, ih₂⟩
  | pipe _ ih => exact ih
  | pipeBar _ _ ih₁ ih₂ => exact ⟨ih₁, ih₂⟩
  | block rs _ ih => exact hredirs rs _ ih
  | words rs ws hlen => exact hredirs _ _ (by rwa [Cmd.zeroTerminated, length_map])

end Tokens

/-! ### The line and its strings -/

section Strings

variable {line s : Str} {cmd : Cmd Slice}

variable {V W : Type} {c : UInt8} {t : Str} {f : V → W}

theorem Front.length_le {rest : Str} {k : Kind} {tok : Token} (h : Front c t k tok rest)
    (hc : isSpace c = false) : rest.length ≤ t.length := by
  cases h with
  | append => exact (tail_sublist t).length_le
  | word hsym =>
    rw [dropWhile_cons_of_pos (isWord_of_other hc hsym)]
    exact (dropWhile_sublist isWord).length_le
  | _ => exact le_rfl

theorem lex_length (s : Str) : (lex s).length ≤ s.length := by
  induction hn : s.length using Nat.strong_induction_on generalizing s with
  | h n ih =>
    have hskip := (skip_suffix s).length_le
    rw [← lex_skip s]
    cases hq : skip s with
    | nil => simp
    | cons c t =>
      obtain ⟨k, tok, rest, hfront, -, hlex⟩ := front t (skip_cons hq)
      have hrest := hfront.length_le (skip_cons hq)
      rw [hq, length_cons] at hskip
      have := ih rest.length (by omega) rest rfl
      rw [hlex, length_cons]
      omega

theorem skip_eq_nil (s : Str) : skip s = [] ↔ lex s = [] := by
  rw [← lex_skip s]
  cases hq : skip s with
  | nil => simp
  | cons c t =>
    obtain ⟨k, tok, rest, -, -, hlex⟩ := front t (skip_cons hq)
    simp [hlex]

theorem Cmd.map_congr {g : V → W} {c : Cmd V} (h : ∀ w ∈ c.words, f w = g w) : c.map f = c.map g := by
  induction c with
  | exec argv => exact congrArg Cmd.exec (map_congr_left h)
  | redir c file mode fd ih =>
    obtain ⟨hfile, hc⟩ := forall_mem_cons.mp h
    rw [Cmd.map, Cmd.map, ih hc, hfile]
  | pipe c d ih₁ ih₂ | list c d ih₁ ih₂ =>
    obtain ⟨hc, hd⟩ := forall_mem_append.mp h
    rw [Cmd.map, Cmd.map, ih₁ hc, ih₂ hd]
  | back c ih => rw [Cmd.map, Cmd.map, ih h]

theorem zeroTerminated_map {c : Cmd V} : (c.map f).zeroTerminated ↔ c.zeroTerminated := by
  induction c with
  | exec argv => simp [Cmd.map, Cmd.zeroTerminated]
  | redir c file mode fd ih | back c ih => exact ih
  | pipe c d ih₁ ih₂ | list c d ih₁ ih₂ => exact and_congr ih₁ ih₂

theorem foldl_terminate (argv : List Slice) (m : Mem) (d : ℕ) :
    argv.foldl terminate m d = if d ∈ argv.map (·.eq.length) then 0 else m d := by
  induction argv generalizing m with
  | nil => rfl
  | cons w argv ih =>
    rw [foldl_cons, ih, map_cons]
    by_cases hd : d = w.eq.length
    · simp [hd, terminate]
    · simp [hd, terminate]

/-- `nulterminate` writes a 0 behind every word, and nothing else. -/
theorem nulterminate_apply (cmd : Cmd Slice) (m : Mem) (d : ℕ) :
    nulterminate cmd m d = if d ∈ cmd.words.map (·.eq.length) then 0 else m d := by
  induction cmd generalizing m with
  | exec argv => exact foldl_terminate argv m d
  | redir c file mode fd ih =>
    rw [nulterminate, Cmd.words, map_cons, terminate]
    by_cases hd : d = file.eq.length
    · simp [hd]
    · simp [hd, ih]
  | pipe c e ih₁ ih₂ | list c e ih₁ ih₂ =>
    rw [nulterminate, ih₂, ih₁, Cmd.words, map_append]
    by_cases hc : d ∈ c.words.map (·.eq.length) <;> by_cases he : d ∈ e.words.map (·.eq.length) <;>
      simp only [mem_append, hc, he, if_true, if_false, or_true, or_false]
  | back c ih => exact ih m

theorem ofLine_suffix (h : c :: t <:+ line) : Mem.ofLine line (t.length + 1) = c := by
  obtain ⟨a, rfl⟩ := h
  simp [Mem.ofLine]

/-- Words end at different places than they go through. -/
theorem eq_not_within (hwords : ∀ w ∈ cmd.words, w.Good line) (hs : c :: t <:+ line)
    (hc : isWord c = true) : t.length + 1 ∉ cmd.words.map (·.eq.length) := by
  intro hmem
  obtain ⟨w, hw, hlen⟩ := mem_map.mp hmem
  have heq := (hwords w hw).eq
  have hsuffix : w.eq <:+ line := heq ▸ (dropWhile_suffix isWord).trans (hwords w hw).q
  have hsame : w.eq = c :: t := (suffix_of_suffix_length_le hsuffix hs hlen.le).eq_of_length hlen
  have hhead := List.head?_dropWhile_not isWord w.q
  rw [← heq, hsame, List.head?_cons] at hhead
  exact Bool.noConfusion (hc.symm.trans hhead)

theorem string_word (hline : 0 ∉ line) (hwords : ∀ w ∈ cmd.words, w.Good line) (hs : s <:+ line)
    (hend : (s.dropWhile isWord).length ∈ cmd.words.map (·.eq.length)) :
    (nulterminate cmd (.ofLine line)).string s.length = s.takeWhile isWord := by
  induction s with
  | nil => rfl
  | cons c t ih =>
    by_cases hc : isWord c = true
    · have hzero : c ≠ 0 := fun h => hline (h ▸ hs.subset mem_cons_self)
      rw [dropWhile_cons_of_pos hc] at hend
      rw [length_cons, Mem.string, nulterminate_apply, if_neg (eq_not_within hwords hs hc), ofLine_suffix hs,
        if_neg hzero, takeWhile_cons_of_pos hc, ih ((suffix_cons c t).trans hs) hend]
    · rw [dropWhile_cons_of_neg hc, length_cons] at hend
      rw [length_cons, Mem.string, nulterminate_apply, if_pos hend, takeWhile_cons_of_neg hc]
      rfl

/-- The strings of the command are the words of the line. -/
theorem string_eq (hline : 0 ∉ line) (hwords : ∀ w ∈ cmd.words, w.Good line) (w : Slice) (hw : w ∈ cmd.words) :
    (nulterminate cmd (.ofLine line)).string w.q.length = w.text := by
  refine string_word hline hwords (hwords w hw).q ?_
  rw [← (hwords w hw).eq]
  exact mem_map_of_mem hw

end Strings

section Lines

variable {buf : Str} {r : Cmd Slice × Mem}

/-- What `parsecmd` makes of a line, by what the parser over tokens makes of it. -/
theorem parsecmd_eq (buf : Str) {line : Str} (hline : buf.takeWhile (· ≠ 0) = line) :
    (∃ cmd, parsecmd buf = .ok (cmd, nulterminate cmd (.ofLine line)) ∧ (∀ w ∈ cmd.words, w.Good line) ∧
      lineT (fuel line) (lex line) = .ok (cmd.map Slice.text, [])) ∨
    ∃ e, parsecmd buf = .error e ∧ (∀ c, lineT (fuel line) (lex line) ≠ .ok (c, [])) ∧
      (e = .outOfFuel → lineT (fuel line) (lex line) = .error .outOfFuel) := by
  have hagree : Agree line (parseline (fuel line) line) (lineT (fuel line) (lex line)) :=
    (agree_parse (fuel line)).1 line suffix_rfl
  unfold parsecmd
  rw [hline]
  dsimp only
  generalize parseline (fuel line) line = x at *
  generalize lineT (fuel line) (lex line) = y at *
  cases hagree with
  | error e => exact .inr ⟨e, rfl, nofun, congrArg Except.error⟩
  | @ok cmd s hwords hs =>
    dsimp only
    rw [show (peek s []).2 = skip s from rfl]
    by_cases hrest : skip s = []
    · rw [if_neg (not_not.mpr hrest), (skip_eq_nil s).mp hrest]
      exact .inl ⟨cmd, rfl, hwords, rfl⟩
    · refine .inr ⟨.malformed, if_pos hrest, fun c hc => hrest ((skip_eq_nil s).mpr ?_), nofun⟩
      exact (Prod.mk.inj (Except.ok.inj hc)).2

theorem zero_not_mem (buf : Str) : 0 ∉ buf.takeWhile (· ≠ 0) := fun h => by simpa using mem_takeWhile_imp h

/-- An accepted line: the words of the command are words of it, and its tokens are derived. -/
theorem parsecmd_ok (h : parsecmd buf = .ok r) :
    (∀ w ∈ r.1.words, w.Good (buf.takeWhile (· ≠ 0)) ∧ r.2.string w.q.length = w.text) ∧
      strings r = r.1.map Slice.text ∧ Derives .line (lex (buf.takeWhile (· ≠ 0))) (strings r) := by
  rcases parsecmd_eq buf rfl with ⟨cmd, hr, hwords, hy⟩ | ⟨e, hr, -⟩
  · rw [hr] at h
    cases h
    obtain ⟨us, hus, hderives⟩ := (parse_sound _).1 _ _ _ hy
    rw [append_nil] at hus
    have hstring := string_eq (zero_not_mem buf) hwords
    have hstrings := Cmd.map_congr hstring
    exact ⟨fun w hw => ⟨hwords w hw, hstring w hw⟩, hstrings, by rwa [strings, hstrings, hus]⟩
  · rw [hr] at h
    cases h

end Lines

/-- A line is parsed exactly if it can be derived, and the command is the tree of the derivation. -/
theorem parsecmd_grammar (buf : Str) :
    parsecmd buf ≠ .error .outOfFuel ∧
    (∀ r, parsecmd buf = .ok r → r.1.zeroTerminated) ∧
    ∀ c, (∃ r, parsecmd buf = .ok r ∧ strings r = c) ↔ Derives .line (lex (buf.takeWhile (· ≠ 0))) c := by
  have hcases := parsecmd_eq buf rfl
  have hlen := lex_length (buf.takeWhile (· ≠ 0))
  refine ⟨fun h => ?_, fun r hr => ?_, fun c => ⟨?_, fun hc => ?_⟩⟩
  · rcases hcases with ⟨cmd, hr, -⟩ | ⟨e, hr, -, hfuel⟩
    · rw [hr] at h
      cases h
    · rw [hr] at h
      exact (parse_fuel _).1 _ (by unfold fuel; omega) (hfuel (Except.error.inj h))
  · obtain ⟨-, hstrings, hderives⟩ := parsecmd_ok hr
    exact zeroTerminated_map.mp (hstrings ▸ hderives.zeroTerminated)
  · rintro ⟨r, hr, rfl⟩
    exact (parsecmd_ok hr).2.2
  · have hparse := parse_complete hc (stops_nil _) (n := fuel (buf.takeWhile (· ≠ 0)))
      (by simp only [Phrase.cost, fuel]; omega)
    rw [append_nil] at hparse
    rcases hcases with ⟨cmd, hr, -, hy⟩ | ⟨e, -, hnot, -⟩
    · refine ⟨_, hr, (parsecmd_ok hr).2.1.trans ?_⟩
      exact (Prod.mk.inj (Except.ok.inj (hy.symm.trans hparse))).1
    · exact absurd hparse (hnot c)

/-- In the command of an accepted line, every string is the word that stands at its pointer in the line, whatever is next
to it; with these strings the command is the tree that the tokens of the line derive. -/
theorem words_survive (buf : Str) (r : Cmd Slice × Mem) (h : parsecmd buf = .ok r) :
    (∀ w ∈ r.1.words, w.q <:+ buf.takeWhile (· ≠ 0) ∧ r.2.string w.q.length = w.q.takeWhile isWord) ∧
    Derives .line (lex (buf.takeWhile (· ≠ 0))) (strings r) := by
  obtain ⟨hwords, -, hderives⟩ := parsecmd_ok h
  exact ⟨fun w hw => ⟨(hwords w hw).1.q, (hwords w hw).2⟩, hderives⟩

/-- The line `a>b;c`. -/
theorem words_survive_apart : ∃ r, parsecmd [97, 62, 98, 59, 99] = .ok r ∧
    strings r = .list (.redir (.exec [[97]]) [98] 0x601 1) (.exec [[99]]) ∧
    ∀ w ∈ r.1.words, r.2.string w.q.length = w.q.takeWhile isWord := by
  have hrun : (parsecmd [97, 62, 98, 59, 99]).toOption.map strings =
      some (.list (.redir (.exec [[97]]) [98] 0x601 1) (.exec [[99]])) := by decide +kernel
  cases hr : parsecmd [97, 62, 98, 59, 99] with
  | error e =>
    rw [hr] at hrun
    cases hrun
  | ok r =>
    rw [hr] at hrun
    exact ⟨r, rfl, Option.some.inj hrun, fun w hw => ((words_survive _ r hr).1 w hw).2⟩

end Xv6.Shell
