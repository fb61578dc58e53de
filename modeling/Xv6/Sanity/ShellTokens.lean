import Xv6.Spec.Shell

/-! The parser over tokens: the functions of `user/sh.c` once more, with the pointer into the line replaced by the
tokens that are left. The two run in step. -/

namespace Xv6.Shell

open List Option

/-! ### Characters and tokens -/

def Slice.text (w : Slice) : Str := w.q.takeWhile isWord

/-- A word of the line. -/
structure Slice.Good (line : Str) (w : Slice) : Prop where
  q : w.q <:+ line
  eq : w.eq = w.q.dropWhile isWord

/-- The token of this kind, which for a word is `w`. -/
def Kind.token (w : Str) : Kind → Option Token
  | .eof => none
  | .bar => some .bar
  | .lpar => some .lpar
  | .rpar => some .rpar
  | .semi => some .semi
  | .amp => some .amp
  | .lt => some .lt
  | .gt => some .gt
  | .append => some .append
  | .word => some (.word w)

/-- The first character of a token that is not a word. -/
def Token.char : Token → Option UInt8
  | .word _ => none
  | .bar => some '|'.toUInt8
  | .lpar => some '('.toUInt8
  | .rpar => some ')'.toUInt8
  | .semi => some ';'.toUInt8
  | .amp => some '&'.toUInt8
  | .lt => some '<'.toUInt8
  | .gt | .append => some '>'.toUInt8

/-- The token begins with one of these characters. -/
def Token.starts (toks : List Char) (t : Token) : Bool := t.char.any fun c => c ∈ toks.map Char.toUInt8

theorem skip_suffix (s : Str) : skip s <:+ s := dropWhile_suffix _

variable {s : Str} {c : UInt8}

/-- What `skip` stops at is no white space. -/
theorem skip_cons {t : Str} (h : skip s = c :: t) : isSpace c = false := by
  have := List.head?_dropWhile_not isSpace s
  rwa [show s.dropWhile isSpace = c :: t from h] at this

@[simp] theorem lex_nil : lex [] = [] := by
  rw [lex]

theorem lex_skip (s : Str) : lex (skip s) = lex s := by
  induction s with
  | nil => rfl
  | cons c t ih =>
    by_cases hc : isSpace c = true
    · rw [show skip (c :: t) = skip t from dropWhile_cons_of_pos hc, ih]
      conv_rhs => rw [lex]
      rw [if_pos hc]
    · rw [show skip (c :: t) = c :: t from dropWhile_cons_of_neg hc]

theorem isWord_of_other (hspace : isSpace c = false) (hsym : c ∉ symbols) : isWord c = true := by
  unfold isWord isSpace at *
  exact decide_eq_true ⟨of_decide_eq_false hspace, hsym⟩

/-- The token that a line begins with, and what is behind it. -/
inductive Front (c : UInt8) (t : Str) : Kind → Token → Str → Prop
  | bar (h : c = '|'.toUInt8) : Front c t .bar .bar t
  | lpar (h : c = '('.toUInt8) : Front c t .lpar .lpar t
  | rpar (h : c = ')'.toUInt8) : Front c t .rpar .rpar t
  | semi (h : c = ';'.toUInt8) : Front c t .semi .semi t
  | amp (h : c = '&'.toUInt8) : Front c t .amp .amp t
  | lt (h : c = '<'.toUInt8) : Front c t .lt .lt t
  | gt (h : c = '>'.toUInt8) : Front c t .gt .gt t
  | append (h : c = '>'.toUInt8) : Front c t .append .append t.tail
  | word (h : c ∉ symbols) : Front c t .word (.word ((c :: t).takeWhile isWord)) ((c :: t).dropWhile isWord)

/-- `scan` and `lex` find the same token. -/
theorem front (t : Str) (hc : isSpace c = false) :
    ∃ k tok rest, Front c t k tok rest ∧ scan (c :: t) = (k, rest) ∧ lex (c :: t) = tok :: lex rest := by
  rw [lex]
  unfold scan single
  simp only [hc, Bool.false_eq_true, if_false]
  by_cases hbar : c = '|'.toUInt8
  · exact ⟨_, _, _, .bar hbar, by rw [if_pos hbar], if_pos hbar⟩
  rw [if_neg hbar, if_neg hbar]
  by_cases hlpar : c = '('.toUInt8
  · exact ⟨_, _, _, .lpar hlpar, by rw [if_pos hlpar], if_pos hlpar⟩
  rw [if_neg hlpar, if_neg hlpar]
  by_cases hrpar : c = ')'.toUInt8
  · exact ⟨_, _, _, .rpar hrpar, by rw [if_pos hrpar], if_pos hrpar⟩
  rw [if_neg hrpar, if_neg hrpar]
  by_cases hsemi : c = ';'.toUInt8
  · exact ⟨_, _, _, .semi hsemi, by rw [if_pos hsemi], if_pos hsemi⟩
  rw [if_neg hsemi, if_neg hsemi]
  by_cases hamp : c = '&'.toUInt8
  · exact ⟨_, _, _, .amp hamp, by rw [if_pos hamp], if_pos hamp⟩
  rw [if_neg hamp, if_neg hamp]
  by_cases hlt : c = '<'.toUInt8
  · exact ⟨_, _, _, .lt hlt, by rw [if_pos hlt], if_pos hlt⟩
  rw [if_neg hlt, if_neg hlt]
  by_cases hgt : c = '>'.toUInt8
  · simp only [if_pos hgt]
    by_cases hnext : t.head? = some '>'.toUInt8
    · exact ⟨_, _, _, .append hgt, if_pos hnext, if_pos hnext⟩
    · exact ⟨_, _, _, .gt hgt, if_neg hnext, if_neg hnext⟩
  · have hsym : c ∉ symbols := by
      intro h
      simp only [symbols, map_cons, map_nil, mem_cons, not_mem_nil, or_false] at h
      tauto
    have hw := isWord_of_other hc hsym
    refine ⟨_, _, _, .word hsym, by simp only [if_neg hgt], ?_⟩
    rw [if_neg hgt, takeWhile_cons_of_pos hw, dropWhile_cons_of_pos hw]

namespace Front

variable {c : UInt8} {t rest : Str} {k : Kind} {tok : Token}

theorem token (h : Front c t k tok rest) : k.token ((c :: t).takeWhile isWord) = some tok := by
  cases h <;> rfl

theorem suffix (h : Front c t k tok rest) : rest <:+ c :: t := by
  have htail : t <:+ c :: t := suffix_cons c t
  cases h with
  | append => exact (tail_suffix t).trans htail
  | word => exact dropWhile_suffix _
  | _ => exact htail

theorem behind_word (h : Front c t .word tok rest) : rest = (c :: t).dropWhile isWord := by
  cases h
  rfl

/-- The first character of the token is the one that `peek` looks at. -/
theorem starts (h : Front c t k tok rest) {toks : List Char} (htoks : toks.map Char.toUInt8 ⊆ symbols) :
    tok.starts toks = decide (c ∈ toks.map Char.toUInt8) := by
  cases h with
  | word hsym => exact (decide_eq_false fun hc => hsym (htoks hc)).symm
  | _ hc => rw [hc]; rfl

end Front

/-- What `gettoken` does to the line. -/
structure Got (line s : Str) (k : Kind) (w : Slice) (rest : Str) : Prop where
  tokens : lex s = (k.token w.text).toList ++ lex rest
  suffix : rest <:+ line
  word : k = .word → w.Good line
  eof : k = .eof → rest = []

theorem gettoken_got {line rest : Str} {k : Kind} {w : Slice} (hs : s <:+ line) (h : gettoken s = (k, w, rest)) :
    Got line s k w rest := by
  have hskip : skip s <:+ line := (skip_suffix s).trans hs
  unfold gettoken at h
  simp only [Prod.mk.injEq] at h
  obtain ⟨rfl, rfl, rfl⟩ := h
  cases hq : skip s with
  | nil =>
    refine ⟨?_, nil_suffix, nofun, fun _ => rfl⟩
    rw [← lex_skip s, hq]
    rfl
  | cons c t =>
    obtain ⟨k, tok, rest, hfront, hscan, hlex⟩ := front t (skip_cons hq)
    rw [hq] at hskip
    rw [hscan]
    refine ⟨?_, (skip_suffix _).trans (hfront.suffix.trans hskip), fun hk => ⟨hskip, ?_⟩, fun hk => ?_⟩
    · rw [← lex_skip s, hq, hlex, lex_skip]
      change tok :: lex rest = (k.token ((c :: t).takeWhile isWord)).toList ++ lex rest
      rw [hfront.token]
      rfl
    · cases (hk : k = .word)
      exact hfront.behind_word
    · cases (hk : k = .eof)
      cases hfront

/-- The next token begins with one of these characters. -/
def peekT (ts : List Token) (toks : List Char) : Bool := ts.head?.any (Token.starts toks)

theorem peek_eq (s : Str) {toks : List Char} (htoks : toks.map Char.toUInt8 ⊆ symbols) :
    peek s toks = (peekT (lex s) toks, skip s) := by
  unfold peek peekT
  rw [← lex_skip s]
  cases hq : skip s with
  | nil => rw [lex_nil]; rfl
  | cons c t =>
    obtain ⟨k, tok, rest, hfront, -, hlex⟩ := front t (skip_cons hq)
    rw [hlex]
    exact congrArg (·, c :: t) (hfront.starts htoks).symm

/-! ### The parser over tokens -/

def Token.op : Token → Option Op
  | .lt => some .lt
  | .gt => some .gt
  | .append => some .append
  | _ => none

def redirsT : ℕ → Cmd Str → List Token → Except Panic (Cmd Str × List Token)
  | 0, _, _ => .error .outOfFuel
  | n + 1, c, ts =>
    match ts.head?.bind Token.op, ts.tail with
    | some op, .word w :: us => redirsT n (.redir c w op.mode op.fd) us
    | some _, _ => .error .missingFile
    | none, _ => .ok (c, ts)

def argsT : ℕ → Cmd Str → ℕ → List Token → Except Panic (Cmd Str × List Token)
  | 0, _, _, _ => .error .outOfFuel
  | _ + 1, c, _, [] => .ok (c, [])
  | n + 1, c, argc, .word w :: ts =>
    if MAXARGS ≤ argc + 1 then .error .tooManyArgs
    else do
      let (c, ts) ← redirsT n (c.push w) ts
      argsT n c (argc + 1) ts
  | _ + 1, c, _, t :: ts => if t.starts ['|', ')', '&', ';'] then .ok (c, t :: ts) else .error .malformed

def backsT : ℕ → Cmd Str → List Token → Except Panic (Cmd Str × List Token)
  | 0, _, _ => .error .outOfFuel
  | n + 1, c, .amp :: ts => backsT n (.back c) ts
  | _ + 1, c, ts => .ok (c, ts)

mutual

def lineT : ℕ → List Token → Except Panic (Cmd Str × List Token)
  | 0, _ => .error .outOfFuel
  | n + 1, ts => do
    let (c, ts) ← pipeT n ts
    let (c, ts) ← backsT n c ts
    match ts with
    | .semi :: ts => do
      let (d, ts) ← lineT n ts
      .ok (.list c d, ts)
    | ts => .ok (c, ts)

def pipeT : ℕ → List Token → Except Panic (Cmd Str × List Token)
  | 0, _ => .error .outOfFuel
  | n + 1, ts => do
    let (c, ts) ← execT n ts
    match ts with
    | .bar :: ts => do
      let (d, ts) ← pipeT n ts
      .ok (.pipe c d, ts)
    | ts => .ok (c, ts)

def execT : ℕ → List Token → Except Panic (Cmd Str × List Token)
  | 0, _ => .error .outOfFuel
  | n + 1, .lpar :: ts => blockT n (.lpar :: ts)
  | n + 1, ts => do
    let (c, ts) ← redirsT n (.exec []) ts
    argsT n c 0 ts

def blockT : ℕ → List Token → Except Panic (Cmd Str × List Token)
  | 0, _ => .error .outOfFuel
  | n + 1, .lpar :: ts => do
    let (c, ts) ← lineT n ts
    match ts with
    | .rpar :: ts => redirsT n c ts
    | _ => .error .missingParen
  | _ + 1, _ => .error .parseblock

end

/-- The two parsers agree: the words of the command are words of the line, and the same tokens are left. -/
inductive Agree (line : Str) : Except Panic (Cmd Slice × Str) → Except Panic (Cmd Str × List Token) → Prop
  | ok {cmd : Cmd Slice} {s : Str} (hwords : ∀ w ∈ cmd.words, w.Good line) (hs : s <:+ line) :
      Agree line (.ok (cmd, s)) (.ok (cmd.map Slice.text, lex s))
  | error (e : Panic) : Agree line (.error e) (.error e)

theorem Token.starts_op (t : Token) : t.starts ['<', '>'] = t.op.isSome := by
  cases t with
  | word w => rfl
  | _ => decide

/-- The symbols of which `peek` asks for one. -/
def asked : List (Char × Token) := [('&', .amp), (';', .semi), ('|', .bar), ('(', .lpar), (')', .rpar)]

theorem peekT_eq {c : Char} {u : Token} (h : (c, u) ∈ asked) (ts : List Token) :
    peekT ts [c] = decide (ts.head? = some u) := by
  cases ts with
  | nil => rfl
  | cons t ts =>
    simp only [asked, mem_cons, Prod.mk.injEq, not_mem_nil, or_false] at h
    rcases h with ⟨rfl, rfl⟩ | ⟨rfl, rfl⟩ | ⟨rfl, rfl⟩ | ⟨rfl, rfl⟩ | ⟨rfl, rfl⟩ <;> cases t <;> rfl

theorem peekT_op (ts : List Token) : peekT ts ['<', '>'] = (ts.head?.bind Token.op).isSome := by
  cases ts with
  | nil => rfl
  | cons t us => exact t.starts_op

theorem redircmd_eq {k : Kind} {w : Str} {t : Token} {op : Op} (htok : k.token w = some t) (hop : t.op = some op)
    (cmd : Cmd Slice) (file : Slice) : redircmd k cmd file = .redir cmd file op.mode op.fd := by
  cases k <;> cases htok <;> cases hop <;> rfl

section Got

variable {line s rest : Str} {k : Kind} {w : Slice} {t : Token} {ts : List Token}

/-- The first token, if there is one. -/
theorem Got.cons (h : Got line s k w rest) (hlex : lex s = t :: ts) : k.token w.text = some t ∧ lex rest = ts := by
  have hcons := h.tokens
  rw [hlex] at hcons
  cases htok : k.token w.text with
  | none =>
    have hk : k = .eof := by cases k <;> first | rfl | cases htok
    rw [htok, h.eof hk, lex_nil] at hcons
    cases hcons
  | some t' =>
    rw [htok] at hcons
    injection hcons with h₁ h₂
    exact ⟨congrArg some h₁.symm, h₂.symm⟩

theorem Got.nil (h : Got line s k w rest) (hlex : lex s = []) : k = .eof ∧ rest = [] := by
  have hnil := h.tokens
  rw [hlex] at hnil
  have hk : k = .eof := by cases k <;> first | rfl | cases hnil
  exact ⟨hk, h.eof hk⟩

theorem Got.kind_word (h : Got line s k w rest) : k = .word ↔ ∃ v us, lex s = .word v :: us := by
  constructor
  · rintro rfl
    exact ⟨_, _, h.tokens⟩
  · rintro ⟨v, us, hlex⟩
    have htok := (h.cons hlex).1
    cases k <;> first | rfl | cases htok

end Got

section Agree

variable {line s : Str} {cmd : Cmd Slice}

theorem agree_redirs (n : ℕ) (hwords : ∀ w ∈ cmd.words, w.Good line) (hs : s <:+ line) :
    Agree line (parseredirs n cmd s) (redirsT n (cmd.map Slice.text) (lex s)) := by
  induction n generalizing cmd s with
  | zero => exact .error _
  | succ n ih =>
    have hskip := (skip_suffix s).trans hs
    unfold parseredirs redirsT
    rw [peek_eq s (by decide), peekT_op]
    dsimp only
    cases hop : (lex s).head?.bind Token.op with
    | none =>
      rw [← lex_skip s]
      exact .ok hwords hskip
    | some op =>
      obtain ⟨t, ht, hop⟩ := bind_eq_some_iff.mp hop
      obtain ⟨ts, hts⟩ := List.head?_eq_some_iff.mp ht
      rcases h₁ : gettoken (skip s) with ⟨k₁, w₁, s₁⟩
      rcases h₂ : gettoken s₁ with ⟨k₂, w₂, s₂⟩
      have hgot₁ := gettoken_got hskip h₁
      have hgot₂ := gettoken_got hgot₁.suffix h₂
      obtain ⟨htok, rfl⟩ := hgot₁.cons ((lex_skip s).trans hts)
      rw [hts]
      simp only [isSome_some, if_true, tail_cons, redircmd_eq htok hop]
      by_cases hk : k₂ = .word
      · subst hk
        rw [if_neg (by simp)]
        rw [show lex s₁ = .word w₂.text :: lex s₂ from hgot₂.tokens]
        exact ih (forall_mem_cons.mpr ⟨hgot₂.word rfl, hwords⟩) hgot₂.suffix
      · rw [if_pos hk]
        split
        · rename_i v us heq
          exact absurd (hgot₂.kind_word.mpr ⟨_, _, heq⟩) hk
        · exact .error _
        · rename_i hnone
          cases hnone

theorem Cmd.map_push (c : Cmd Slice) (w : Slice) : (c.push w).map Slice.text = (c.map Slice.text).push w.text := by
  induction c with
  | exec argv => simp [Cmd.push, Cmd.map]
  | redir c file mode fd ih => simp [Cmd.push, Cmd.map, ih]
  | _ => rfl

theorem Cmd.words_push {c : Cmd Slice} {w : Slice} {P : Slice → Prop} (h : ∀ v ∈ c.words, P v) (hw : P w) :
    ∀ v ∈ (c.push w).words, P v := by
  induction c with
  | exec argv =>
    intro v hv
    rcases mem_append.mp hv with hv | hv
    · exact h v hv
    · rwa [mem_singleton.mp hv]
  | redir c file mode fd ih =>
    obtain ⟨hfile, hrest⟩ := forall_mem_cons.mp h
    exact forall_mem_cons.mpr ⟨hfile, ih hrest⟩
  | _ => exact h

theorem Agree.bind {x : Except Panic (Cmd Slice × Str)} {y : Except Panic (Cmd Str × List Token)}
    {f : Cmd Slice × Str → Except Panic (Cmd Slice × Str)} {g : Cmd Str × List Token → Except Panic (Cmd Str × List Token)}
    (h : Agree line x y) (hf : ∀ cmd s, (∀ w ∈ cmd.words, w.Good line) → s <:+ line →
      Agree line (f (cmd, s)) (g (cmd.map Slice.text, lex s))) : Agree line (x >>= f) (y >>= g) := by
  cases h with
  | ok hwords hs => exact hf _ _ hwords hs
  | error e => exact .error e

/-- The pointer stays where `peek` has put it. -/
theorem Agree.stay (hwords : ∀ w ∈ cmd.words, w.Good line) (hs : s <:+ line) :
    Agree line (.ok (cmd, skip s)) (.ok (cmd.map Slice.text, lex s)) := by
  rw [← lex_skip s]
  exact .ok hwords ((skip_suffix s).trans hs)

variable {t : Token} {ts : List Token} {n : ℕ}

/-- The pointer behind the next token. -/
theorem next_token (hs : s <:+ line) (hlex : lex s = t :: ts) :
    (gettoken (skip s)).2.2 <:+ line ∧ lex (gettoken (skip s)).2.2 = ts := by
  have hgot := gettoken_got (k := (gettoken (skip s)).1) (w := (gettoken (skip s)).2.1)
    ((skip_suffix s).trans hs) rfl
  exact ⟨hgot.suffix, (hgot.cons ((lex_skip s).trans hlex)).2⟩

theorem argsT_other (ht : ∀ w, t ≠ .word w) (n : ℕ) (c : Cmd Str) (argc : ℕ) (ts : List Token) :
    argsT (n + 1) c argc (t :: ts) =
      if t.starts ['|', ')', '&', ';'] then .ok (c, t :: ts) else .error .malformed := by
  cases t with
  | word w => exact absurd rfl (ht w)
  | _ => rfl

theorem agree_args (n argc : ℕ) (hwords : ∀ w ∈ cmd.words, w.Good line) (hs : s <:+ line) :
    Agree line (parseargs n cmd argc s) (argsT n (cmd.map Slice.text) argc (lex s)) := by
  induction n generalizing cmd argc s with
  | zero => exact .error _
  | succ n ih =>
    have hskip := (skip_suffix s).trans hs
    rcases hget : gettoken (skip s) with ⟨k, w, rest⟩
    have hgot := gettoken_got hskip hget
    unfold parseargs
    rw [peek_eq s (by decide)]
    simp only [hget]
    cases hts : lex s with
    | nil =>
      obtain ⟨rfl, rfl⟩ := hgot.nil ((lex_skip s).trans hts)
      have hend : Agree line (.ok (cmd, [])) (.ok (cmd.map Slice.text, lex [])) := .ok hwords nil_suffix
      rwa [lex_nil] at hend
    | cons t ts =>
      obtain ⟨htok, rfl⟩ := hgot.cons ((lex_skip s).trans hts)
      by_cases hstart : t.starts ['|', ')', '&', ';'] = true
      · have ht : ∀ v, t ≠ .word v := by
          rintro v rfl
          cases hstart
        rw [argsT_other ht, if_pos hstart, show peekT (t :: lex rest) _ = true from hstart, if_pos rfl, ← hts]
        exact .stay hwords hs
      · rw [show peekT (t :: lex rest) _ = false from Bool.eq_false_iff.mpr hstart, if_neg (by decide)]
        have heof : k ≠ .eof := by
          rintro rfl
          cases htok
        rw [if_neg heof]
        by_cases hk : k = .word
        · subst hk
          cases htok
          rw [if_neg (by simp), argsT]
          split
          · exact .error _
          · rw [← Cmd.map_push]
            exact (agree_redirs n (Cmd.words_push hwords (hgot.word rfl)) hgot.suffix).bind fun cmd s hwords hs =>
              ih (argc + 1) hwords hs
        · have ht : ∀ v, t ≠ .word v := by
            rintro v rfl
            cases k <;> first | exact hk rfl | cases htok
          rw [if_pos hk, argsT_other ht, if_neg hstart]
          exact .error _

/-- A symbol is asked for: it is there, or the pointer stays where `peek` has put it. -/
theorem agree_peek {c : Char} {u : Token} (h : (c, u) ∈ asked) (x : Str → Except Panic (Cmd Slice × Str))
    {z : Except Panic (Cmd Slice × Str)} {y : Except Panic (Cmd Str × List Token)} (hs : s <:+ line)
    (hthere : ∀ rest, rest <:+ line → lex s = u :: lex rest → Agree line (x rest) y)
    (hnot : (lex s).head? ≠ some u → Agree line z y) :
    Agree line (if peekT (lex s) [c] then x (gettoken (skip s)).2.2 else z) y := by
  rw [peekT_eq h]
  by_cases hu : (lex s).head? = some u
  · obtain ⟨ts, hts⟩ := List.head?_eq_some_iff.mp hu
    obtain ⟨hrest, rfl⟩ := next_token hs hts
    rw [if_pos (decide_eq_true hu)]
    exact hthere _ hrest hts
  · rw [if_neg (by simpa using hu)]
    exact hnot hu

theorem backsT_other (ht : ts.head? ≠ some .amp) (n : ℕ) (c : Cmd Str) : backsT (n + 1) c ts = .ok (c, ts) := by
  cases ts with
  | nil => rfl
  | cons t ts => cases t <;> first | rfl | exact absurd rfl ht

theorem agree_backs (n : ℕ) (hwords : ∀ w ∈ cmd.words, w.Good line) (hs : s <:+ line) :
    Agree line (parsebacks n cmd s) (backsT n (cmd.map Slice.text) (lex s)) := by
  induction n generalizing cmd s with
  | zero => exact .error _
  | succ n ih =>
    unfold parsebacks
    rw [peek_eq s (by decide)]
    refine agree_peek (c := '&') (u := .amp) (by decide) (parsebacks n (.back cmd)) hs (fun rest hrest hlex => ?_) fun hnot => ?_
    · rw [hlex]
      exact ih hwords hrest
    · rw [backsT_other hnot]
      exact .stay hwords hs

theorem execT_other (ht : ts.head? ≠ some .lpar) (n : ℕ) :
    execT (n + 1) ts = (redirsT n (.exec []) ts >>= fun r => argsT n r.1 0 r.2) := by
  cases ts with
  | nil => rfl
  | cons t ts => cases t <;> first | rfl | exact absurd rfl ht

theorem agree_exec (hblock : ∀ s, s <:+ line → Agree line (parseblock n s) (blockT n (lex s)))
    (hs : s <:+ line) : Agree line (parseexec (n + 1) s) (execT (n + 1) (lex s)) := by
  have hskip := (skip_suffix s).trans hs
  unfold parseexec
  rw [peek_eq s (by decide)]
  by_cases ht : (lex s).head? = some .lpar
  · obtain ⟨ts, hts⟩ := List.head?_eq_some_iff.mp ht
    have hrun := hblock _ hskip
    rw [lex_skip, hts] at hrun
    rwa [hts]
  · rw [peekT_eq (u := .lpar) (by decide), decide_eq_false ht, execT_other ht, ← lex_skip s]
    exact (agree_redirs n (fun w hw => absurd hw not_mem_nil) hskip).bind fun cmd s hwords hs => agree_args n 0 hwords hs

theorem agree_block (hline : ∀ s, s <:+ line → Agree line (parseline n s) (lineT n (lex s)))
    (hs : s <:+ line) : Agree line (parseblock (n + 1) s) (blockT (n + 1) (lex s)) := by
  unfold parseblock
  simp only [ite_not]
  rw [peek_eq s (by decide)]
  refine agree_peek (c := '(') (u := .lpar) (by decide) (fun s => do
    let r ← parseline n s
    if (peek r.2 [')']).1 then parseredirs n r.1 (gettoken (peek r.2 [')']).2).2.2 else .error .missingParen) hs
    (fun rest hrest hlex => ?_) fun hnot => ?_
  · rw [hlex]
    refine (hline _ hrest).bind fun cmd s hwords hs => ?_
    dsimp only
    rw [peek_eq s (by decide)]
    refine agree_peek (c := ')') (u := .rpar) (by decide) (parseredirs n cmd) hs (fun rest hrest hlex => ?_) fun hnot => ?_
    · rw [hlex]
      exact agree_redirs n hwords hrest
    · split
      · exact absurd (by simp [*]) hnot
      · exact .error _
  · unfold blockT
    split
    · exact absurd ‹n + 1 = 0› (Nat.succ_ne_zero n)
    · exact absurd (by simp [*]) hnot
    · exact .error _

theorem agree_parse (n : ℕ) :
    (∀ s, s <:+ line → Agree line (parseline n s) (lineT n (lex s))) ∧
    (∀ s, s <:+ line → Agree line (parsepipe n s) (pipeT n (lex s))) ∧
    (∀ s, s <:+ line → Agree line (parseexec n s) (execT n (lex s))) ∧
    ∀ s, s <:+ line → Agree line (parseblock n s) (blockT n (lex s)) := by
  induction n with
  | zero => exact ⟨fun _ _ => .error _, fun _ _ => .error _, fun _ _ => .error _, fun _ _ => .error _⟩
  | succ n ih =>
    obtain ⟨hline, hpipe, hexec, hblock⟩ := ih
    refine ⟨fun s hs => ?_, fun s hs => ?_, fun s hs => agree_exec hblock hs, fun s hs => agree_block hline hs⟩
    · unfold parseline lineT
      refine (hpipe s hs).bind fun cmd s hwords hs => (agree_backs n hwords hs).bind fun cmd s hwords hs => ?_
      dsimp only
      rw [peek_eq s (by decide)]
      refine agree_peek (c := ';') (u := .semi) (by decide)
        (fun s => parseline n s >>= fun r => .ok (.list cmd r.1, r.2)) hs (fun rest hrest hlex => ?_) fun hnot => ?_
      · rw [hlex]
        exact (hline _ hrest).bind fun right s hright hs =>
          .ok (fun w hw => (mem_append.mp hw).elim (hwords w) (hright w)) hs
      · split
        · exact absurd (by simp [*]) hnot
        · exact .stay hwords hs
    · unfold parsepipe pipeT
      refine (hexec s hs).bind fun cmd s hwords hs => ?_
      dsimp only
      rw [peek_eq s (by decide)]
      refine agree_peek (c := '|') (u := .bar) (by decide)
        (fun s => parsepipe n s >>= fun r => .ok (.pipe cmd r.1, r.2)) hs (fun rest hrest hlex => ?_) fun hnot => ?_
      · rw [hlex]
        exact (hpipe _ hrest).bind fun right s hright hs =>
          .ok (fun w hw => (mem_append.mp hw).elim (hwords w) (hright w)) hs
      · split
        · exact absurd (by simp [*]) hnot
        · exact .stay hwords hs

end Agree

end Xv6.Shell
