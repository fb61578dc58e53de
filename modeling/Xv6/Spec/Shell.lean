import Mathlib

/-! The parser of `user/sh.c`: `gettoken`, `peek`, `parsecmd`, `parseline`, `parsepipe`, `parseredirs`, `parseblock`,
`parseexec` and `nulterminate`. A pointer into the line is the rest of the line that it points at. Below it is
the grammar of the lines. `malloc` succeeds, and the stack is large enough. -/

namespace Xv6.Shell

abbrev MAXARGS : ℕ := 10

abbrev O_RDONLY : ℕ := 0x000
abbrev O_WRONLY : ℕ := 0x001
abbrev O_CREATE : ℕ := 0x200
abbrev O_TRUNC : ℕ := 0x400

/-- The characters from a pointer on, up to `es`. -/
abbrev Str := List UInt8

/-- `struct cmd`, with the strings of type `W`. `argv` is the array up to the 0 behind its last string. -/
inductive Cmd (W : Type) where
  | exec (argv : List W)
  | redir (cmd : Cmd W) (file : W) (mode fd : ℕ)
  | pipe (left right : Cmd W)
  | list (left right : Cmd W)
  | back (cmd : Cmd W)
  deriving DecidableEq

namespace Cmd

variable {V W : Type}

def map (f : V → W) : Cmd V → Cmd W
  | .exec argv => .exec (argv.map f)
  | .redir cmd file mode fd => .redir (cmd.map f) (f file) mode fd
  | .pipe left right => .pipe (left.map f) (right.map f)
  | .list left right => .list (left.map f) (right.map f)
  | .back cmd => .back (cmd.map f)

def words : Cmd W → List W
  | .exec argv => argv
  | .redir cmd file _ _ => file :: cmd.words
  | .pipe left right | .list left right => left.words ++ right.words
  | .back cmd => cmd.words

/-- Every `argv` has room for the 0. -/
def zeroTerminated : Cmd W → Prop
  | .exec argv => argv.length < MAXARGS
  | .redir cmd _ _ _ | .back cmd => cmd.zeroTerminated
  | .pipe left right | .list left right => left.zeroTerminated ∧ right.zeroTerminated

/-- `cmd->argv[argc] = q`, where `cmd` is the EXEC node below the redirections. -/
def push (w : W) : Cmd W → Cmd W
  | .exec argv => .exec (argv ++ [w])
  | .redir cmd file mode fd => .redir (cmd.push w) file mode fd
  | cmd => cmd

end Cmd

/-- The pointers that `gettoken` stores at `q` and `eq`. -/
structure Slice where
  q : Str
  eq : Str
  deriving DecidableEq

/-- What `gettoken` returns: 0, the character itself, `'+'` for `>>`, or `'a'`. -/
inductive Kind where
  | eof
  | bar
  | lpar
  | rpar
  | semi
  | amp
  | lt
  | gt
  | append
  | word
  deriving DecidableEq

inductive Panic where
  /-- the panic `syntax`, also for leftovers -/
  | malformed
  | missingFile
  | missingParen
  | parseblock
  | tooManyArgs
  /-- a loop or recursion deeper than any the code can reach -/
  | outOfFuel
  deriving DecidableEq

def whitespace : List UInt8 := [' ', '\t', '\r', '\n', '\x0b'].map Char.toUInt8

def symbols : List UInt8 := ['<', '|', '>', '&', ';', '(', ')'].map Char.toUInt8

def isSpace (c : UInt8) : Bool := c ∈ whitespace

/-- Neither white space nor a symbol. -/
def isWord (c : UInt8) : Bool := c ∉ whitespace ∧ c ∉ symbols

def skip (s : Str) : Str := s.dropWhile isSpace

/-- The characters that are a token of their own, whatever follows. -/
def single (c : UInt8) : Option Kind :=
  if c = '|'.toUInt8 then some .bar
  else if c = '('.toUInt8 then some .lpar
  else if c = ')'.toUInt8 then some .rpar
  else if c = ';'.toUInt8 then some .semi
  else if c = '&'.toUInt8 then some .amp
  else if c = '<'.toUInt8 then some .lt
  else none

/-- The token at the beginning of `s`: its kind and what is behind it. -/
def scan : Str → Kind × Str
  | [] => (.eof, [])
  | c :: t =>
    match single c with
    | some k => (k, t)
    | none =>
      if c = '>'.toUInt8 then
        if t.head? = some '>'.toUInt8 then (.append, t.tail) else (.gt, t)
      else (.word, (c :: t).dropWhile isWord)

def gettoken (s : Str) : Kind × Slice × Str :=
  let q := skip s
  let (ret, eq) := scan q
  (ret, ⟨q, eq⟩, skip eq)

/-- `peek` also moves the pointer. -/
def peek (s : Str) (toks : List Char) : Bool × Str :=
  let s := skip s
  (s.head?.any fun c => c ∈ toks.map Char.toUInt8, s)

/-- `redircmd` with the mode of the operator. -/
def redircmd (tok : Kind) (cmd : Cmd Slice) (file : Slice) : Cmd Slice :=
  match tok with
  | .lt => .redir cmd file O_RDONLY 0
  | .gt => .redir cmd file (O_WRONLY ||| O_CREATE ||| O_TRUNC) 1
  | .append => .redir cmd file (O_WRONLY ||| O_CREATE) 1
  | _ => cmd

def parseredirs : ℕ → Cmd Slice → Str → Except Panic (Cmd Slice × Str)
  | 0, _, _ => .error .outOfFuel
  | n + 1, cmd, s =>
    let (more, s) := peek s ['<', '>']
    if more then
      let (tok, _, s) := gettoken s
      let (file, w, s) := gettoken s
      if file ≠ .word then .error .missingFile else parseredirs n (redircmd tok cmd w) s
    else .ok (cmd, s)

/-- The loop of `parseexec`. -/
def parseargs : ℕ → Cmd Slice → ℕ → Str → Except Panic (Cmd Slice × Str)
  | 0, _, _, _ => .error .outOfFuel
  | n + 1, ret, argc, s =>
    let (stop, s) := peek s ['|', ')', '&', ';']
    if stop then .ok (ret, s)
    else
      let (tok, w, s) := gettoken s
      if tok = .eof then .ok (ret, s)
      else if tok ≠ .word then .error .malformed
      else if MAXARGS ≤ argc + 1 then .error .tooManyArgs
      else do
        let (ret, s) ← parseredirs n (ret.push w) s
        parseargs n ret (argc + 1) s

/-- The loop of `parseline`. -/
def parsebacks : ℕ → Cmd Slice → Str → Except Panic (Cmd Slice × Str)
  | 0, _, _ => .error .outOfFuel
  | n + 1, cmd, s =>
    let (more, s) := peek s ['&']
    if more then parsebacks n (.back cmd) (gettoken s).2.2 else .ok (cmd, s)

mutual

def parseline : ℕ → Str → Except Panic (Cmd Slice × Str)
  | 0, _ => .error .outOfFuel
  | n + 1, s => do
    let (cmd, s) ← parsepipe n s
    let (cmd, s) ← parsebacks n cmd s
    let (more, s) := peek s [';']
    if more then do
      let (right, s) ← parseline n (gettoken s).2.2
      .ok (.list cmd right, s)
    else .ok (cmd, s)

def parsepipe : ℕ → Str → Except Panic (Cmd Slice × Str)
  | 0, _ => .error .outOfFuel
  | n + 1, s => do
    let (cmd, s) ← parseexec n s
    let (more, s) := peek s ['|']
    if more then do
      let (right, s) ← parsepipe n (gettoken s).2.2
      .ok (.pipe cmd right, s)
    else .ok (cmd, s)

def parseexec : ℕ → Str → Except Panic (Cmd Slice × Str)
  | 0, _ => .error .outOfFuel
  | n + 1, s =>
    let (block, s) := peek s ['(']
    if block then parseblock n s
    else do
      let (ret, s) ← parseredirs n (.exec []) s
      parseargs n ret 0 s

def parseblock : ℕ → Str → Except Panic (Cmd Slice × Str)
  | 0, _ => .error .outOfFuel
  | n + 1, s =>
    let (block, s) := peek s ['(']
    if ¬block then .error .parseblock
    else do
      let (cmd, s) ← parseline n (gettoken s).2.2
      let (close, s) := peek s [')']
      if ¬close then .error .missingParen else parseredirs n cmd (gettoken s).2.2

end

/-- The bytes of the line, by their distance to `es`. -/
abbrev Mem := ℕ → UInt8

def Mem.ofLine (line : Str) : Mem := fun d => if d = 0 then 0 else line.reverse[d - 1]?.getD 0

/-- `*eq = 0` -/
def terminate (m : Mem) (w : Slice) : Mem := Function.update m w.eq.length 0

def nulterminate : Cmd Slice → Mem → Mem
  | .exec argv, m => argv.foldl terminate m
  | .redir cmd file _ _, m => terminate (nulterminate cmd m) file
  | .pipe left right, m | .list left right, m => nulterminate right (nulterminate left m)
  | .back cmd, m => nulterminate cmd m

/-- The string that begins `d` bytes in front of `es`. -/
def Mem.string (m : Mem) : ℕ → Str
  | 0 => []
  | d + 1 => if m (d + 1) = 0 then [] else m (d + 1) :: m.string d

/-- The rounds and calls that are enough for a line. -/
def fuel (line : Str) : ℕ := 4 * line.length + 4

/-- The command and the memory that `parsecmd` leaves. -/
def parsecmd (buf : Str) : Except Panic (Cmd Slice × Mem) :=
  let line := buf.takeWhile (· ≠ 0)
  match parseline (fuel line) line with
  | .error e => .error e
  | .ok (cmd, s) =>
    let (_, s) := peek s []
    if s ≠ [] then .error .malformed else .ok (cmd, nulterminate cmd (.ofLine line))

/-- The command with its strings, as `runcmd` finds them. -/
def strings (r : Cmd Slice × Mem) : Cmd Str := r.1.map fun w => r.2.string w.q.length

/-! ### The grammar -/

inductive Token where
  | word (w : Str)
  | bar
  | lpar
  | rpar
  | semi
  | amp
  | lt
  | gt
  | append
  deriving DecidableEq

/-- The tokens of a line: white space separates them, words are as long as possible, and so is `>>`. -/
def lex : Str → List Token
  | [] => []
  | c :: t =>
    if isSpace c then lex t
    else if c = '|'.toUInt8 then .bar :: lex t
    else if c = '('.toUInt8 then .lpar :: lex t
    else if c = ')'.toUInt8 then .rpar :: lex t
    else if c = ';'.toUInt8 then .semi :: lex t
    else if c = '&'.toUInt8 then .amp :: lex t
    else if c = '<'.toUInt8 then .lt :: lex t
    else if c = '>'.toUInt8 then
      if t.head? = some '>'.toUInt8 then .append :: lex t.tail else .gt :: lex t
    else .word (c :: t.takeWhile isWord) :: lex (t.dropWhile isWord)
termination_by s => s.length
decreasing_by
  all_goals simp only [List.length_cons, List.length_tail]
  all_goals try omega
  have := (List.dropWhile_sublist isWord (l := t)).length_le
  omega

inductive Op where
  | lt
  | gt
  | append
  deriving DecidableEq

def Op.token : Op → Token
  | .lt => .lt
  | .gt => .gt
  | .append => .append

def Op.mode : Op → ℕ
  | .lt => O_RDONLY
  | .gt => O_WRONLY ||| O_CREATE ||| O_TRUNC
  | .append => O_WRONLY ||| O_CREATE

def Op.fd : Op → ℕ
  | .lt => 0
  | .gt | .append => 1

abbrev Redirs := List (Op × Str)

def Redirs.tokens (rs : Redirs) : List Token := rs.flatMap fun r => [r.1.token, .word r.2]

/-- The redirections around a command; the last one is outermost. -/
def Cmd.redirs (c : Cmd Str) (rs : Redirs) : Cmd Str := rs.foldl (fun c r => .redir c r.2 r.1.mode r.1.fd) c

/-- `n` times BACK around a command. -/
def Cmd.backs {W : Type} (c : Cmd W) (n : ℕ) : Cmd W := Cmd.back^[n] c

inductive Phrase where
  | line
  | pipe
  | exec

/-- The grammar, with the tree of the derivation: `line = pipe {'&'} [';' line]`, `pipe = exec ['|' pipe]`,
`exec = '(' line ')' redirs | redirs {word redirs}`. -/
inductive Derives : Phrase → List Token → Cmd Str → Prop
  | line {ts c} (n : ℕ) (hpipe : Derives .pipe ts c) : Derives .line (ts ++ List.replicate n .amp) (c.backs n)
  | lineSeq {ts c us d} (n : ℕ) (hpipe : Derives .pipe ts c) (hline : Derives .line us d) :
      Derives .line (ts ++ List.replicate n .amp ++ .semi :: us) (.list (c.backs n) d)
  | pipe {ts c} (hexec : Derives .exec ts c) : Derives .pipe ts c
  | pipeBar {ts c us d} (hexec : Derives .exec ts c) (hpipe : Derives .pipe us d) :
      Derives .pipe (ts ++ .bar :: us) (.pipe c d)
  | block {ts c} (rs : Redirs) (hline : Derives .line ts c) :
      Derives .exec (.lpar :: ts ++ .rpar :: rs.tokens) (c.redirs rs)
  | words (rs : Redirs) (ws : List (Str × Redirs)) (hlen : ws.length < MAXARGS) :
      Derives .exec (rs.tokens ++ ws.flatMap fun w => .word w.1 :: Redirs.tokens w.2)
        ((Cmd.exec (ws.map Prod.fst)).redirs (rs ++ ws.flatMap Prod.snd))

end Xv6.Shell
