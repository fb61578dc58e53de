import Xv6.Sanity.LogHeader

/-! Crash atomicity of the log. The recovered view `replay a d` of a disk is what
`recover_from_log` would install; along a commit it changes in one step, at the
header write, and along a recovery it does not change at all. -/

namespace Xv6

open Bytes Writes Function List Machine

/-- Home writes of the blocks `bs`, whose data `r` holds from log block `tail` on. -/
def entriesFrom (start : ℕ) : ℕ → List ℕ → Disk → Tx
  | _, [], _ => []
  | tail, b :: bs, r => (b, r (start + tail + 1)) :: entriesFrom start (tail + 1) bs r

/-- Log writes of the blocks `bs`, from log block `tail` on. -/
def copiesFrom (start : ℕ) : ℕ → List ℕ → Disk → List (ℕ × Block)
  | _, [], _ => []
  | tail, b :: bs, r => (start + tail + 1, r b) :: copiesFrom start (tail + 1) bs r

/-- The transaction that the log on `d` holds. -/
def logged (a : LogArea) (d : Disk) : Tx := entriesFrom a.start 0 (decodeHeader (d a.start)) d

def replay (a : LogArea) (d : Disk) : Disk := applyWrites d (logged a d)

namespace Machine

def bwrites (m : Machine) (ws : List (ℕ × Block)) : Machine := ws.foldl (fun m w => m.bwrite w.1 w.2) m

theorem bwrites_append (m : Machine) (ws vs : List (ℕ × Block)) :
    m.bwrites (ws ++ vs) = (m.bwrites ws).bwrites vs := by
  simp [bwrites, foldl_append]

theorem read_bwrite (m : Machine) (b : ℕ) (v : Block) :
    (m.bwrite b v).read = update m.read b v := by
  funext x
  by_cases hx : x = b
  · subst hx; simp [read, bwrite]
  · simp [read, bwrite, hx]

theorem bwrites_disk (m : Machine) (ws : List (ℕ × Block)) :
    (m.bwrites ws).disk = applyWrites m.disk ws := by
  induction ws generalizing m with
  | nil => rfl
  | cons w ws ih => exact ih (m.bwrite w.1 w.2)

theorem bwrites_read (m : Machine) (ws : List (ℕ × Block)) :
    (m.bwrites ws).read = applyWrites m.read ws := by
  induction ws generalizing m with
  | nil => rfl
  | cons w ws ih =>
    rw [applyWrites_cons, ← read_bwrite]
    exact ih (m.bwrite w.1 w.2)

theorem bwrites_writes (m : Machine) (ws : List (ℕ × Block)) :
    (m.bwrites ws).writes = m.writes ++ ws := by
  induction ws generalizing m with
  | nil => simp [bwrites]
  | cons w ws ih =>
    have h := ih (m.bwrite w.1 w.2)
    rwa [bwrite, append_assoc] at h

theorem bwrites_lh (m : Machine) (ws : List (ℕ × Block)) : (m.bwrites ws).lh = m.lh := by
  induction ws generalizing m with
  | nil => rfl
  | cons w ws ih => exact ih (m.bwrite w.1 w.2)

theorem bwrites_with_lh (m : Machine) (ws : List (ℕ × Block)) (lh : List ℕ) :
    { m.bwrites ws with lh := lh } = ({ m with lh := lh } : Machine).bwrites ws := by
  induction ws generalizing m with
  | nil => rfl
  | cons w ws ih => exact ih (m.bwrite w.1 w.2)

end Machine

variable {start tail b : ℕ} {bs : List ℕ} {r r' d₀ : Disk} {w : ℕ × Block} {a : LogArea} {m : Machine}
  {hist : List Tx} {ws : List (ℕ × Block)}

theorem copiesFrom_fst (h : w ∈ copiesFrom start tail bs r) :
    start + tail + 1 ≤ w.1 ∧ w.1 < start + tail + 1 + bs.length := by
  induction bs generalizing tail with
  | nil => simp [copiesFrom] at h
  | cons b bs ih =>
    rw [length_cons]
    rcases mem_cons.1 h with rfl | h
    · exact ⟨le_rfl, by simp⟩
    · have := ih h
      omega

theorem copiesFrom_congr (h : ∀ b ∈ bs, r b = r' b) :
    copiesFrom start tail bs r = copiesFrom start tail bs r' := by
  induction bs generalizing tail with
  | nil => rfl
  | cons b bs ih =>
    rw [copiesFrom, copiesFrom, h b (by simp), ih (fun x hx => h x (by simp [hx]))]

theorem entriesFrom_fst (start tail : ℕ) (bs : List ℕ) (r : Disk) :
    (entriesFrom start tail bs r).map Prod.fst = bs := by
  induction bs generalizing tail with
  | nil => rfl
  | cons b bs ih => rw [entriesFrom, map_cons, ih]

theorem entriesFrom_congr (h : ∀ i < bs.length, r (start + (tail + i) + 1) = r' (start + (tail + i) + 1)) :
    entriesFrom start tail bs r = entriesFrom start tail bs r' := by
  induction bs generalizing tail with
  | nil => rfl
  | cons b bs ih =>
    have h0 : r (start + tail + 1) = r' (start + tail + 1) := h 0 (by simp)
    rw [entriesFrom, entriesFrom, h0, ih]
    intro i hi
    have := h (i + 1) (by simpa using hi)
    rwa [show tail + 1 + i = tail + (i + 1) by omega]

/-- Reading the log blocks after the copies were written gives the copied data. -/
theorem entriesFrom_copies (start tail : ℕ) (bs : List ℕ) (r r' : Disk) :
    entriesFrom start tail bs (applyWrites r' (copiesFrom start tail bs r)) = bs.map fun b => (b, r b) := by
  induction bs generalizing tail r' with
  | nil => rfl
  | cons b bs ih =>
    rw [copiesFrom, applyWrites_cons, entriesFrom, ih, map_cons, applyWrites_of_unwritten]
    · simp
    · intro w hw
      have := copiesFrom_fst hw
      omega

theorem writeLogFrom_eq (start : ℕ) (tail : ℕ) (bs : List ℕ) (m : Machine)
    (hout : ∀ b ∈ bs, b < start + tail + 1 ∨ start + tail + 1 + bs.length ≤ b) :
    writeLogFrom start tail bs m = m.bwrites (copiesFrom start tail bs m.read) := by
  induction bs generalizing tail m with
  | nil => rfl
  | cons b bs ih =>
    simp only [length_cons] at hout
    rw [writeLogFrom, ih]
    · have hr : copiesFrom start (tail + 1) bs (m.bwrite (start + tail + 1) (m.read b)).read =
          copiesFrom start (tail + 1) bs m.read := by
        apply copiesFrom_congr
        intro x hx
        rw [read_bwrite, update_of_ne]
        have := hout x (by simp [hx])
        omega
      rw [hr]
      rfl
    · intro x hx
      have := hout x (by simp [hx])
      omega

theorem installFrom_eq (start : ℕ) (tail : ℕ) (bs : List ℕ) (m : Machine)
    (hout : ∀ b ∈ bs, b < start + tail + 1 ∨ start + tail + 1 + bs.length ≤ b) :
    installFrom start tail bs m = m.bwrites (entriesFrom start tail bs m.read) := by
  induction bs generalizing tail m with
  | nil => rfl
  | cons b bs ih =>
    simp only [length_cons] at hout
    have hb := hout b (by simp)
    rw [installFrom, ih]
    · have hr : entriesFrom start (tail + 1) bs (m.bwrite b (m.read (start + tail + 1))).read =
          entriesFrom start (tail + 1) bs m.read := by
        apply entriesFrom_congr
        intro i hi
        rw [read_bwrite, update_of_ne]
        omega
      rw [hr]
      rfl
    · intro x hx
      have := hout x (by simp [hx])
      omega

/-- Block numbers a transaction may log: outside the area, with room for all of them. -/
structure Loggable (a : LogArea) (bs : List ℕ) : Prop where
  outside : ∀ b ∈ bs, ¬ a.Mem b
  fits : bs.length < a.size
  short : bs.length ≤ LOGSIZE
  word : ∀ b ∈ bs, b < 2 ^ 32

theorem Loggable.apart (h : Loggable a bs) :
    ∀ b ∈ bs, b < a.start + 0 + 1 ∨ a.start + 0 + 1 + bs.length ≤ b := by
  intro b hb
  have h1 := h.outside b hb
  have h2 := h.fits
  unfold LogArea.Mem at h1
  omega

theorem start_mem (a : LogArea) : a.Mem a.start := by
  have := a.hasHeader
  exact ⟨le_rfl, by omega⟩

theorem Loggable.not_start (h : Loggable a bs) (hb : b ∈ bs) :
    b ≠ a.start := by
  rintro rfl
  exact h.outside _ hb (start_mem a)

/-- Everything `commit` writes, in order: the log copies, the header that commits,
the home blocks, the erased header. -/
def commitWrites (a : LogArea) (m : Machine) : List (ℕ × Block) :=
  copiesFrom a.start 0 m.lh m.read ++ ((a.start, encodeHeader (m.read a.start) m.lh) ::
    (m.tx ++ [(a.start, encodeHeader (encodeHeader (m.read a.start) m.lh) [])]))

theorem tx_fst (m : Machine) : m.tx.map Prod.fst = m.lh := by
  simp [tx, map_map, Function.comp_def]

theorem mem_tx_fst (hw : w ∈ m.tx) : w.1 ∈ m.lh := by
  rw [← tx_fst m]
  exact mem_map_of_mem hw

theorem commit_eq (a : LogArea) (m : Machine) (h : Loggable a m.lh) (hn : 0 < m.lh.length) :
    m.commit a = { m.bwrites (commitWrites a m) with lh := [] } := by
  set hdr := encodeHeader (m.read a.start) m.lh
  set m₁ := m.bwrites (copiesFrom a.start 0 m.lh m.read) with hm₁
  have hlog : m.writeLog a = m₁ := writeLogFrom_eq a.start 0 m.lh m h.apart
  have hstart : m₁.read a.start = m.read a.start := by
    rw [hm₁, bwrites_read]
    apply applyWrites_of_unwritten
    intro w hw
    have := copiesFrom_fst hw
    omega
  have hhead : m₁.writeHead a = m₁.bwrite a.start hdr := by
    rw [writeHead, hstart, hm₁, bwrites_lh]
  have hread : entriesFrom a.start 0 m.lh (m₁.bwrite a.start hdr).read = m.tx := by
    rw [read_bwrite, hm₁, bwrites_read, tx, ← entriesFrom_copies a.start 0 m.lh m.read m.read]
    apply entriesFrom_congr
    intro i _
    exact update_of_ne (by omega) _ _
  set m₃ := (m₁.bwrite a.start hdr).bwrites m.tx with hm₃
  have hinst : (m₁.bwrite a.start hdr).installTrans a = m₃ := by
    have hlh : (m₁.bwrite a.start hdr).lh = m.lh := by rw [hm₁]; exact bwrites_lh _ _
    rw [installTrans, hlh, installFrom_eq _ _ _ _ h.apart, hread]
  have hlast : m₃.read a.start = hdr := by
    rw [hm₃, bwrites_read, applyWrites_of_unwritten, read_bwrite]
    · simp
    · intro w hw
      exact h.not_start (mem_tx_fst hw)
  have hall : m.bwrites (commitWrites a m) = m₃.bwrite a.start (encodeHeader hdr []) := by
    rw [commitWrites, bwrites_append]
    change ((m₁.bwrite a.start hdr).bwrites (m.tx ++ _)) = _
    rw [bwrites_append]
    rfl
  rw [commit, if_pos hn, hlog, hhead, hinst, hall, writeHead]
  change bwrite { m₃ with lh := [] } a.start (encodeHeader (m₃.read a.start) []) = _
  rw [hlast]
  rfl

theorem commit_nil (a : LogArea) (m : Machine) (hn : m.lh = []) : m.commit a = m := by
  simp [commit, hn]

theorem issued_commit (a : LogArea) (m : Machine) (h : Loggable a m.lh) (hn : 0 < m.lh.length) :
    issued (commit a) m = commitWrites a m := by
  have hc := commit_eq a { m with writes := [] } h hn
  rw [issued, hc]
  exact (bwrites_writes _ _).trans (nil_append _)

theorem issued_commit_nil (a : LogArea) (m : Machine) (hn : m.lh = []) :
    issued (commit a) m = [] := by
  rw [issued, commit_nil a { m with writes := [] } hn]

/-- Everything `recover_from_log` writes from a power-on with disk `d`. -/
def recoverWrites (a : LogArea) (d : Disk) : List (ℕ × Block) :=
  logged a d ++ [(a.start, encodeHeader (d a.start) [])]

theorem boot_read (d : Disk) : (boot d).read = d := by
  funext b
  rfl

/-- Installing what the header lists and erasing it, from any machine that has just
read the header. -/
theorem install_erase_eq (a : LogArea) (d : Disk) (m : Machine) (hread : m.read = d)
    (hlh : m.lh = decodeHeader (d a.start)) (h : Loggable a (decodeHeader (d a.start))) :
    writeHead a { m.installTrans a with lh := [] } =
      ({ m with lh := [] } : Machine).bwrites (recoverWrites a d) := by
  set m₀ : Machine := { m with lh := [] } with hm₀
  have hread₀ : m₀.read = d := by funext b; exact congrFun hread b
  have hinst : { m.installTrans a with lh := [] } = m₀.bwrites (logged a d) := by
    rw [installTrans, hlh, installFrom_eq _ _ _ _ h.apart, hread, bwrites_with_lh, logged]
  have hlast : (m₀.bwrites (logged a d)).read a.start = d a.start := by
    rw [bwrites_read, hread₀, applyWrites_of_unwritten]
    intro w hw
    apply h.not_start
    rw [← entriesFrom_fst a.start 0 (decodeHeader (d a.start)) d]
    exact mem_map_of_mem hw
  have hnil : (m₀.bwrites (logged a d)).lh = [] := bwrites_lh _ _
  rw [hinst, writeHead, hlast, hnil, recoverWrites, bwrites_append]
  rfl

theorem recover_eq (a : LogArea) (d : Disk) (h : Loggable a (decodeHeader (d a.start))) :
    recoverFromLog a (boot d) = (boot d).bwrites (recoverWrites a d) := by
  have hlh : ((boot d).readHead a).lh = decodeHeader (d a.start) := by
    rw [readHead, boot_read]
  have hread : ((boot d).readHead a).read = d := by
    funext b
    simp [readHead, Machine.read, boot]
  exact install_erase_eq a d ((boot d).readHead a) hread hlh h

theorem issued_recover (a : LogArea) (d : Disk) (h : Loggable a (decodeHeader (d a.start))) :
    issued (recoverFromLog a) (boot d) = recoverWrites a d := by
  have hb : { boot d with writes := [] } = boot d := rfl
  rw [issued, hb, recover_eq a d h, bwrites_writes]
  exact nil_append _

/-- A live machine between two system calls: the header on disk is empty, the home
area is the history's, and only logged buffers differ from the disk. -/
structure UpInv (a : LogArea) (d₀ : Disk) (hist : List Tx) (m : Machine) : Prop where
  loggable : Loggable a m.lh
  clean : decodeHeader (m.disk a.start) = []
  coherent : ∀ b, b ∉ m.lh → m.read b = m.disk b
  home : ∀ b, ¬ a.Mem b → m.disk b = applyTxs d₀ hist b

/-- A stopped machine: what recovery would install is the history's. -/
structure DownInv (a : LogArea) (d₀ : Disk) (hist : List Tx) (d : Disk) : Prop where
  loggable : Loggable a (decodeHeader (d a.start))
  view : ∀ b, ¬ a.Mem b → replay a d b = applyTxs d₀ hist b

theorem loggable_nil (a : LogArea) : Loggable a [] :=
  ⟨by simp, a.hasHeader, by simp, by simp⟩

theorem not_mem_ne_start (h : ¬ a.Mem b) : a.start ≠ b := by
  rintro rfl
  exact h (start_mem a)

theorem replay_clean (a : LogArea) (d : Disk) (h : decodeHeader (d a.start) = []) : replay a d = d := by
  rw [replay, logged, h]
  rfl

theorem DownInv.of_clean {d : Disk}
    (hc : decodeHeader (d a.start) = []) (hh : ∀ b, ¬ a.Mem b → d b = applyTxs d₀ hist b) :
    DownInv a d₀ hist d := by
  refine ⟨?_, ?_⟩
  · rw [hc]; exact loggable_nil a
  · rw [replay_clean a d hc]; exact hh

theorem headerReached_false (h : ∀ w ∈ ws, w.1 ≠ a.start) :
    headerReached a ws = false := by
  rw [headerReached, any_eq_false]
  intro w hw
  simp [h w hw]

theorem headerReached_true (hb : Block) {lh : List ℕ}
    (hn : 0 < lh.length) (hlen : lh.length ≤ LOGSIZE) (h : (a.start, encodeHeader hb lh) ∈ ws) :
    headerReached a ws = true := by
  rw [headerReached, any_eq_true]
  refine ⟨_, h, ?_⟩
  have hpos : 0 < int32 (le 4 (encodeHeader hb lh) 0) := by
    rw [encodeHeader_n hb lh hlen]
    exact_mod_cast hn
  simpa using hpos

theorem applyTxs_snoc (d : Disk) (hist : List Tx) (t : Tx) :
    applyTxs d (hist ++ [t]) = applyWrites (applyTxs d hist) t := by
  simp [applyTxs, foldl_append]

section Commit

variable {a : LogArea} {d₀ : Disk} {hist : List Tx} {m : Machine}

variable {w : ℕ × Block} {b : ℕ}

theorem copies_ne_start (hw : w ∈ copiesFrom a.start 0 m.lh m.read) : w.1 ≠ a.start := by
  have := copiesFrom_fst hw
  omega

theorem copies_ne_home (h : Loggable a m.lh) (hb : ¬ a.Mem b)
    (hw : w ∈ copiesFrom a.start 0 m.lh m.read) : w.1 ≠ b := by
  rintro rfl
  have h1 := copiesFrom_fst hw
  have h2 := h.fits
  unfold LogArea.Mem at hb
  omega

/-- The home area once the transaction's blocks were written over it. -/
theorem home_tx (hinv : UpInv a d₀ hist m) {d : Disk} (hb : ¬ a.Mem b) (hd : d b = m.disk b) :
    applyWrites d m.tx b = applyTxs d₀ (hist ++ [m.tx]) b := by
  rw [applyTxs_snoc]
  apply applyWrites_congr
  intro _
  rw [hd, hinv.home b hb]

/-- Stopped while the log blocks are being written: nothing has happened. -/
theorem down_of_copies (hinv : UpInv a d₀ hist m) (k : ℕ) :
    DownInv a d₀ hist (applyWrites m.disk ((copiesFrom a.start 0 m.lh m.read).take k)) := by
  apply DownInv.of_clean
  · rw [applyWrites_of_unwritten _ _ _ (fun w hw => copies_ne_start (mem_of_mem_take hw))]
    exact hinv.clean
  · intro b hb
    rw [applyWrites_of_unwritten _ _ _
      (fun w hw => copies_ne_home hinv.loggable hb (mem_of_mem_take hw))]
    exact hinv.home b hb

/-- Stopped between the two header writes: recovery installs the whole transaction. -/
theorem down_of_header (hinv : UpInv a d₀ hist m) (j : ℕ) :
    DownInv a d₀ (hist ++ [m.tx]) (applyWrites m.disk (copiesFrom a.start 0 m.lh m.read ++
      (a.start, encodeHeader (m.read a.start) m.lh) :: m.tx.take j)) := by
  have hl := hinv.loggable
  set hdr := encodeHeader (m.read a.start) m.lh with hhdr
  set d₁ := applyWrites m.disk (copiesFrom a.start 0 m.lh m.read) with hd₁
  set d := applyWrites m.disk (copiesFrom a.start 0 m.lh m.read ++ (a.start, hdr) :: m.tx.take j) with hd
  have htx : ∀ b, b ∉ m.lh → ∀ w ∈ m.tx.take j, w.1 ≠ b := by
    rintro b hb w hw rfl
    exact hb (mem_tx_fst (mem_of_mem_take hw))
  have hoff : ∀ b, b ∉ m.lh → d b = update d₁ a.start hdr b := by
    intro b hb
    rw [hd, applyWrites_append, applyWrites_cons, applyWrites_of_unwritten _ _ _ (htx b hb)]
  have hdec : decodeHeader (d a.start) = m.lh := by
    rw [hoff _ (fun h => hl.not_start h rfl), update_self, hhdr]
    exact decode_encode _ _ hl.short hl.word
  have hlog : logged a d = m.tx := by
    rw [logged, hdec, tx, ← entriesFrom_copies a.start 0 m.lh m.read m.disk]
    apply entriesFrom_congr
    intro i hi
    rw [hoff, update_of_ne (by omega)]
    intro hmem
    have := hl.apart _ hmem
    omega
  refine ⟨by rw [hdec]; exact hl, ?_⟩
  intro b hb
  have hhome : d₁ b = m.disk b :=
    applyWrites_of_unwritten _ _ _ (fun w hw => copies_ne_home hl hb hw)
  rw [replay, hlog, ← home_tx hinv hb hhome]
  apply applyWrites_congr
  intro hun
  have hb' : b ∉ m.lh := by
    intro hmem
    exact hun (b, m.read b) (mem_map.2 ⟨b, hmem, rfl⟩) rfl
  rw [hoff b hb', update_of_ne (Ne.symm (not_mem_ne_start hb))]

theorem commitWrites_header (a : LogArea) (m : Machine) :
    decodeHeader (applyWrites m.disk (commitWrites a m) a.start) = [] := by
  rw [commitWrites, applyWrites_append, applyWrites_cons, applyWrites_append, applyWrites_cons,
    applyWrites_nil, update_self]
  exact decode_encode_nil _

theorem commitWrites_home (hinv : UpInv a d₀ hist m) (hb : ¬ a.Mem b) :
    applyWrites m.disk (commitWrites a m) b = applyTxs d₀ (hist ++ [m.tx]) b := by
  rw [commitWrites, applyWrites_append, applyWrites_cons, applyWrites_append, applyWrites_cons,
    applyWrites_nil, update_of_ne (Ne.symm (not_mem_ne_start hb))]
  apply home_tx hinv hb
  rw [update_of_ne (Ne.symm (not_mem_ne_start hb))]
  exact applyWrites_of_unwritten _ _ _ (fun w hw => copies_ne_home hinv.loggable hb hw)

theorem commitWrites_reached (hinv : UpInv a d₀ hist m) (hn : 0 < m.lh.length) :
    headerReached a (commitWrites a m) = true :=
  headerReached_true (m.read a.start) hn hinv.loggable.short (by simp [commitWrites])

theorem up_commit (hinv : UpInv a d₀ hist m) :
    UpInv a d₀ (extend a hist m.tx (issued (commit a) m)) (m.commit a) := by
  rcases Nat.eq_zero_or_pos m.lh.length with h0 | hn
  · have hnil := length_eq_zero_iff.1 h0
    rwa [issued_commit_nil a m hnil, commit_nil a m hnil]
  · have hl := hinv.loggable
    rw [issued_commit a m hl hn, commit_eq a m hl hn, extend, commitWrites_reached hinv hn, if_pos rfl]
    refine ⟨loggable_nil a, ?_, ?_, ?_⟩
    · change decodeHeader ((m.bwrites (commitWrites a m)).disk a.start) = []
      rw [bwrites_disk]
      exact commitWrites_header a m
    · intro b _
      change (m.bwrites (commitWrites a m)).read b = (m.bwrites (commitWrites a m)).disk b
      rw [bwrites_read, bwrites_disk]
      apply applyWrites_congr
      intro hun
      apply hinv.coherent
      intro hmem
      exact hun (b, m.read b) (by simp [commitWrites, tx, hmem]) rfl
    · intro b hb
      change (m.bwrites (commitWrites a m)).disk b = _
      rw [bwrites_disk]
      exact commitWrites_home hinv hb

theorem down_commit (hinv : UpInv a d₀ hist m) (k : ℕ) :
    DownInv a d₀ (extend a hist m.tx ((issued (commit a) m).take k))
      (applyWrites m.disk ((issued (commit a) m).take k)) := by
  rcases Nat.eq_zero_or_pos m.lh.length with h0 | hn
  · rw [issued_commit_nil a m (length_eq_zero_iff.1 h0), take_nil]
    exact DownInv.of_clean hinv.clean hinv.home
  · have hl := hinv.loggable
    rw [issued_commit a m hl hn]
    -- the cut falls among the copies, among the home writes, or behind everything
    rcases take_phases (copiesFrom a.start 0 m.lh m.read) m.tx (a.start, encodeHeader (m.read a.start) m.lh)
      (a.start, encodeHeader (encodeHeader (m.read a.start) m.lh) []) k with hk | ⟨j, hk⟩ | hk
    · rw [commitWrites, hk, extend,
        headerReached_false (fun w hw => copies_ne_start (mem_of_mem_take hw))]
      exact down_of_copies hinv k
    · rw [commitWrites, hk, extend, headerReached_true (m.read a.start) hn hl.short (by simp), if_pos rfl]
      exact down_of_header hinv j
    · rw [commitWrites, hk, ← commitWrites, extend, commitWrites_reached hinv hn, if_pos rfl]
      exact DownInv.of_clean (commitWrites_header a m) (fun b hb => commitWrites_home hinv hb)

end Commit

section Recovery

variable {a : LogArea} {d₀ d : Disk} {hist : List Tx}

theorem logged_fst_mem {w : ℕ × Block} (hw : w ∈ logged a d) : w.1 ∈ decodeHeader (d a.start) := by
  rw [← entriesFrom_fst a.start 0 (decodeHeader (d a.start)) d]
  exact mem_map_of_mem hw

theorem recoverWrites_header (a : LogArea) (d : Disk) :
    decodeHeader (applyWrites d (recoverWrites a d) a.start) = [] := by
  rw [recoverWrites, applyWrites_append, applyWrites_cons, applyWrites_nil, update_self]
  exact decode_encode_nil _

theorem recoverWrites_home (hinv : DownInv a d₀ hist d) {b : ℕ} (hb : ¬ a.Mem b) :
    applyWrites d (recoverWrites a d) b = applyTxs d₀ hist b := by
  rw [recoverWrites, applyWrites_append, applyWrites_cons, applyWrites_nil,
    update_of_ne (Ne.symm (not_mem_ne_start hb))]
  exact hinv.view b hb

/-- Stopped during the installation: the log still holds the same transaction. -/
theorem down_of_install (hinv : DownInv a d₀ hist d) (j : ℕ) :
    DownInv a d₀ hist (applyWrites d ((logged a d).take j)) := by
  have hl := hinv.loggable
  set d' := applyWrites d ((logged a d).take j) with hd'
  have hoff : ∀ b, b ∉ decodeHeader (d a.start) → d' b = d b := by
    intro b hb
    apply applyWrites_of_unwritten
    rintro w hw rfl
    exact hb (logged_fst_mem (mem_of_mem_take hw))
  have hdec : decodeHeader (d' a.start) = decodeHeader (d a.start) := by
    rw [hoff _ (fun h => hl.not_start h rfl)]
  have hlog : logged a d' = logged a d := by
    rw [logged, hdec, logged]
    apply entriesFrom_congr
    intro i hi
    apply hoff
    intro hmem
    have := hl.apart _ hmem
    omega
  refine ⟨by rw [hdec]; exact hl, ?_⟩
  intro b hb
  rw [replay, hlog, hd', applyWrites_replay]
  exact hinv.view b hb

theorem down_recover (hinv : DownInv a d₀ hist d) (k : ℕ) :
    DownInv a d₀ hist
      (applyWrites d ((issued (recoverFromLog a) (boot d)).take k)) := by
  rw [issued_recover a d hinv.loggable]
  rcases take_snoc (logged a d) (a.start, encodeHeader (d a.start) []) k with ⟨j, hk⟩ | hk
  · rw [recoverWrites, hk]
    exact down_of_install hinv j
  · rw [recoverWrites, hk, ← recoverWrites]
    exact DownInv.of_clean (recoverWrites_header a d) (fun b hb => recoverWrites_home hinv hb)

theorem up_recover (hinv : DownInv a d₀ hist d) :
    UpInv a d₀ hist (recoverFromLog a (boot d)) := by
  rw [recover_eq a d hinv.loggable]
  refine ⟨?_, ?_, ?_, ?_⟩
  · rw [bwrites_lh]
    exact loggable_nil a
  · rw [bwrites_disk]
    exact recoverWrites_header a d
  · intro b _
    rw [bwrites_read, bwrites_disk, boot_read]
    rfl
  · intro b hb
    rw [bwrites_disk]
    exact recoverWrites_home hinv hb

end Recovery

theorem up_logWrite {m' : Machine} {v : Block}
    (hinv : UpInv a d₀ hist m) (hout : ¬ a.Mem b) (hb : b < 2 ^ 32) (hw : m.logWrite a b v = some m') :
    UpInv a d₀ hist m' := by
  unfold logWrite at hw
  split_ifs at hw with hbig
  obtain rfl := Option.some.inj hw
  have hlen := absorb_length_le m.lh b
  simp only [tooBig, not_or, not_le] at hbig
  refine ⟨⟨?_, ?_, ?_, ?_⟩, hinv.clean, ?_, hinv.home⟩
  · intro x hx
    rcases (mem_absorb _ _ _).1 hx with rfl | hx
    · exact hout
    · exact hinv.loggable.outside x hx
  · change (absorb m.lh b).length < a.size
    omega
  · change (absorb m.lh b).length ≤ LOGSIZE
    omega
  · intro x hx
    rcases (mem_absorb _ _ _).1 hx with rfl | hx
    · exact hb
    · exact hinv.loggable.word x hx
  · intro x hx
    change x ∉ absorb m.lh b at hx
    rw [mem_absorb, not_or] at hx
    have := hinv.coherent x hx.2
    simpa [Machine.read, hx.1] using this

/-- The invariant of every run. -/
def PowerInv (a : LogArea) (d₀ : Disk) (hist : List Tx) : Power → Prop
  | .up m => UpInv a d₀ hist m
  | .down d => DownInv a d₀ hist d

theorem run_inv (hclean : decodeHeader (d₀ a.start) = [])
    {p : Power} (h : Run a d₀ hist p) : PowerInv a d₀ hist p := by
  induction h with
  | start => exact DownInv.of_clean hclean (fun _ _ => rfl)
  | write b v _ hout hb hw ih => exact up_logWrite ih hout hb hw
  | commit _ ih => exact up_commit ih
  | stop k _ ih => exact down_commit ih k
  | restop k _ ih => exact down_recover ih k
  | recover _ ih => exact up_recover ih

/-- Wherever the machine stops, and however often recovery is cut short, the next
complete recovery leaves the home area in the state after exactly the transactions
whose header reached the disk; while the machine is up the home area is there already. -/
theorem log_crash_atomic (a : LogArea) (d₀ : Disk) (hclean : decodeHeader (d₀ a.start) = [])
    (hist : List Tx) (p : Power) (hrun : Run a d₀ hist p) :
    (∀ d, p = .down d → ∀ b, ¬ a.Mem b →
      (Machine.recoverFromLog a (Machine.boot d)).disk b = applyTxs d₀ hist b) ∧
    (∀ m, p = .up m → ∀ b, ¬ a.Mem b → m.disk b = applyTxs d₀ hist b) := by
  have hinv := run_inv hclean hrun
  constructor
  · rintro d rfl b hb
    exact (up_recover hinv).home b hb
  · rintro m rfl b hb
    exact UpInv.home hinv b hb

theorem decode_zero : decodeHeader (fill BSIZE 0) = [] := by
  unfold decodeHeader
  rw [le_fill_zero]
  rfl

/-- A one-block transaction on an empty disk with mkfs's log, stopped right behind
its header write: recovery brings the block home. -/
theorem log_crash_atomic_after_header :
    ∃ hist d, Run ⟨2, nlog, by decide⟩ (fun _ => fill BSIZE 0) hist (.down d) ∧ hist.length = 1 ∧
      ∀ b, ¬ LogArea.Mem ⟨2, nlog, by decide⟩ b →
        (Machine.recoverFromLog ⟨2, nlog, by decide⟩ (Machine.boot d)).disk b =
          applyTxs (fun _ => fill BSIZE 0) hist b := by
  set a : LogArea := ⟨2, nlog, by decide⟩
  set d₀ : Disk := fun _ => fill BSIZE 0
  set m := recoverFromLog a (boot d₀)
  have hup : Run a d₀ [] (.up m) := Run.recover Run.start
  have hlh : m.lh = [] := by
    have h := recover_eq a d₀ (by rw [decode_zero]; exact loggable_nil a)
    rw [show m = _ from h, bwrites_lh]
    rfl
  obtain ⟨m', hm'⟩ : ∃ m', m.logWrite a 46 (fill BSIZE 7) = some m' := by
    unfold logWrite
    rw [if_neg (by rw [hlh]; decide)]
    exact ⟨_, rfl⟩
  have hwr : Run a d₀ [] (.up m') := Run.write 46 (fill BSIZE 7) hup (by unfold LogArea.Mem; decide) (by norm_num) hm'
  have hinv : UpInv a d₀ [] m' := run_inv decode_zero hwr
  have hlh' : m'.lh = [46] := by
    unfold logWrite at hm'
    rw [if_neg (by rw [hlh]; decide)] at hm'
    obtain rfl := Option.some.inj hm'
    rw [hlh]
    rfl
  have hstop := Run.stop 2 hwr
  refine ⟨_, _, hstop, ?_, (log_crash_atomic a d₀ decode_zero _ _ hstop).1 _ rfl⟩
  rw [issued_commit a m' hinv.loggable (by simp [hlh']), extend, headerReached_true (m'.read a.start)
    (by simp [hlh'] : 0 < m'.lh.length) hinv.loggable.short (by simp [commitWrites, hlh', copiesFrom])]
  rfl

end Xv6
