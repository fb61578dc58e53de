import Xv6.Spec.Files

/-! What stands behind the open files. While a system call runs, it has references of its own to files
and inodes, which it gives to a descriptor or gives back. -/

namespace Xv6.Files

open State Function List

variable {P : Type}

/-- The page, the end and the number of the pipe that a file stands for. -/
def File.asPipe (x : File) : Option (ℕ × Bool × ℕ) :=
  match x.type with
  | .pipe => some (x.pipe, x.writable, x.serial)
  | _ => none

/-- The number of the inode that a file stands for. -/
def File.asInode (x : File) : Option ℕ :=
  match x.type with
  | .inode | .device => some x.serial
  | _ => none

variable {x : File} {k : ℕ}

theorem asPipe_eq_some {pi : ℕ} {w : Bool} :
    x.asPipe = some (pi, w, k) ↔ x.type = .pipe ∧ x.pipe = pi ∧ x.writable = w ∧ x.serial = k := by
  unfold File.asPipe
  cases x.type <;> simp

theorem asInode_eq_some :
    x.asInode = some k ↔ (x.type = .inode ∨ x.type = .device) ∧ x.serial = k := by
  unfold File.asInode
  cases x.type <;> simp

def Pipe.opened (x : Pipe) (w : Bool) : Bool := if w then x.writeopen else x.readopen

section Pipes

variable {v : FilePtr → Option (ℕ × Bool × ℕ)} {pipe : ℕ → Option Pipe} {pipes : ℕ} {log : List Call} {f : FilePtr}

/-- An end of pipe number `k` is open. -/
def HasEnd (v : FilePtr → Option (ℕ × Bool × ℕ)) (k : ℕ) (w : Bool) : Prop := ∃ f pi, v f = some (pi, w, k)

/-- The pipes behind the files `v`. -/
structure Piped (v : FilePtr → Option (ℕ × Bool × ℕ)) (pipe : ℕ → Option Pipe) (pipes : ℕ) (log : List Call) : Prop where
  page : ∀ f pi w k, v f = some (pi, w, k) → ∃ x, pipe pi = some x ∧ x.serial = k
  sole : ∀ f g pi w k l, v f = some (pi, w, k) → v g = some (pi, w, l) → f = g
  ends : ∀ pi x, pipe pi = some x → ∀ w, x.opened w = true ↔ HasEnd v x.serial w
  live : ∀ pi x, pipe pi = some x → x.serial < pipes ∧ ∃ w, x.opened w = true
  serial : ∀ pi pj x y, pipe pi = some x → pipe pj = some y → x.serial = y.serial → pi = pj
  pipecloses : ∀ k w, log.count (.pipeclose k w) = 1 ∧ k < pipes ∧ ¬HasEnd v k w ∨
    log.count (.pipeclose k w) = 0 ∧ (k < pipes → HasEnd v k w)
  kfrees : ∀ k, log.count (.kfree k) = 1 ∧ k < pipes ∧ (∀ w, ¬HasEnd v k w) ∨
    log.count (.kfree k) = 0 ∧ (k < pipes → ∃ w, HasEnd v k w)

variable {g : FilePtr} {pi k : ℕ} {w : Bool} {x : Pipe} {y : Option Pipe} {l : List Call}

/-- Only one file stands for an end of a pipe. -/
theorem Piped.only (h : Piped v pipe pipes log) {pj : ℕ} (hf : v f = some (pi, w, k))
    (hg : v g = some (pj, w, k)) : f = g := by
  obtain ⟨x, hx, hxs⟩ := h.page f pi w k hf
  obtain ⟨y, hy, hys⟩ := h.page g pj w k hg
  cases h.serial pi pj x y hx hy (hxs.trans hys.symm)
  exact h.sole f g pi w k k hf hg

theorem Piped.hasEnd_clear (h : Piped v pipe pipes log) (hf : v f = some (pi, w, k)) (l : ℕ)
    (u : Bool) : HasEnd (update v f none) l u ↔ HasEnd v l u ∧ ¬(l = k ∧ u = w) := by
  constructor
  · rintro ⟨g, pj, hg⟩
    by_cases hgf : g = f
    · rw [hgf, update_self] at hg
      cases hg
    · rw [update_of_ne hgf] at hg
      refine ⟨⟨g, pj, hg⟩, ?_⟩
      rintro ⟨rfl, rfl⟩
      exact hgf (h.only hg hf)
  · rintro ⟨⟨g, pj, hg⟩, hnot⟩
    have hgf : g ≠ f := by
      rintro rfl
      rw [hf] at hg
      cases hg
      exact hnot ⟨rfl, rfl⟩
    exact ⟨g, pj, by rw [update_of_ne hgf, hg]⟩

/-- The pipe without one end. -/
def Pipe.shut (x : Pipe) (w : Bool) : Pipe := if w then { x with writeopen := false } else { x with readopen := false }

theorem shut_opened (x : Pipe) (w u : Bool) : (x.shut w).opened u = true ↔ x.opened u = true ∧ u ≠ w := by
  cases w <;> cases u <;> simp [Pipe.shut, Pipe.opened]

theorem shut_serial (x : Pipe) (w : Bool) : (x.shut w).serial = x.serial := by
  cases w <;> rfl

theorem opened_eq_false (x : Pipe) : x.readopen = false ∧ x.writeopen = false ↔ ∀ w, x.opened w = false := by
  simp [Pipe.opened, Bool.forall_bool]

/-- What `pipeclose` leaves at the page, and what it gives back. -/
inductive Shut (x : Pipe) (w : Bool) : Option Pipe → List Call → Prop
  | free (h : ∀ u, (x.shut w).opened u = false) : Shut x w none [.pipeclose x.serial w, .kfree x.serial]
  | keep (u : Bool) (h : (x.shut w).opened u = true) : Shut x w (some (x.shut w)) [.pipeclose x.serial w]

theorem Shut.page {x' : Pipe} (hs : Shut x w y l) (hx' : y = some x') :
    x' = x.shut w ∧ ∃ u, x'.opened u = true := by
  cases hs with
  | free h => cases hx'
  | keep u h =>
    cases hx'
    exact ⟨rfl, u, h⟩

/-- The last descriptor of one end of a pipe goes. -/
theorem piped_shut (h : Piped v pipe pipes log) (hf : v f = some (pi, w, k))
    (hx : pipe pi = some x) (hs : Shut x w y l) :
    Piped (update v f none) (update pipe pi y) pipes (log ++ l) := by
  have hserial : x.serial = k := by
    obtain ⟨x', hx', heq⟩ := h.page f pi w k hf
    cases hx.symm.trans hx'
    exact heq
  subst hserial
  have hlast : HasEnd v x.serial w := ⟨f, pi, hf⟩
  have hlt := (h.live pi x hx).1
  have hend := h.hasEnd_clear hf
  have hshut (u : Bool) : (x.shut w).opened u = true ↔ HasEnd v x.serial u ∧ u ≠ w := by
    rw [shut_opened, h.ends pi x hx]
  have hself : update pipe pi y pi = y := update_self ..
  have hother {pj : ℕ} (hne : pj ≠ pi) : update pipe pi y pj = pipe pj := update_of_ne hne _ _
  have hold {g : FilePtr} {z : ℕ × Bool × ℕ} (hg : update v f none g = some z) : g ≠ f ∧ v g = some z := by
    by_cases hgf : g = f
    · rw [hgf, update_self] at hg
      cases hg
    · rw [update_of_ne hgf] at hg
      exact ⟨hgf, hg⟩
  have hwas {pj : ℕ} {z : Pipe} (hz : update pipe pi y pj = some z) :
      ∃ z', pipe pj = some z' ∧ z'.serial = z.serial ∧ (∃ u, z.opened u = true) ∧
        ∀ u, z.opened u = true ↔ z'.opened u = true ∧ ¬(z'.serial = x.serial ∧ u = w) := by
    by_cases hpj : pj = pi
    · subst hpj
      obtain ⟨rfl, hu⟩ := hs.page (hself.symm.trans hz)
      refine ⟨x, hx, (shut_serial x w).symm, hu, fun u => ?_⟩
      rw [shut_opened]
      simp
    · rw [hother hpj] at hz
      exact ⟨z, hz, rfl, (h.live pj z hz).2, fun u => ⟨fun hu => ⟨hu, fun heq => hpj (h.serial pj pi z x hz hx heq.1)⟩,
        fun hu => hu.1⟩⟩
  refine ⟨fun g pj u m hg => ?_, fun g g' pj u m n hg hg' => ?_, fun pj z hz u => ?_, fun pj z hz => ?_,
    fun pj pk z z' hz hz' heq => ?_, fun m u => ?_, fun m => ?_⟩
  · obtain ⟨hgf, hg⟩ := hold hg
    obtain ⟨z, hz, hm⟩ := h.page g pj u m hg
    by_cases hpj : pj = pi
    · subst hpj
      cases hx.symm.trans hz
      have hu : (x.shut w).opened u = true := by
        refine (hshut u).mpr ⟨⟨g, pj, by rw [hg, hm]⟩, ?_⟩
        rintro rfl
        exact hgf (h.sole g f pj u m x.serial hg hf)
      rw [hself]
      cases hs with
      | free hall => cases (hall u).symm.trans hu
      | keep => exact ⟨x.shut w, rfl, (shut_serial x w).trans hm⟩
    · rw [hother hpj]
      exact ⟨z, hz, hm⟩
  · exact h.sole g g' pj u m n (hold hg).2 (hold hg').2
  · obtain ⟨z', hz', hserial, -, hiff⟩ := hwas hz
    rw [hiff, hend, ← hserial, h.ends pj z' hz']
  · obtain ⟨z', hz', hserial, hu, -⟩ := hwas hz
    exact ⟨hserial ▸ (h.live pj z' hz').1, hu⟩
  · obtain ⟨x₀, hx₀, hxs, -⟩ := hwas hz
    obtain ⟨y₀, hy₀, hys, -⟩ := hwas hz'
    exact h.serial pj pk x₀ y₀ hx₀ hy₀ (by rw [hxs, hys, heq])
  · have hl : l.count (.pipeclose m u) = if x.serial = m ∧ w = u then 1 else 0 := by
      cases hs <;> simp [count_cons]
    rw [hend, count_append, hl, eq_comm (a := m), eq_comm (a := u)]
    by_cases hmu : x.serial = m ∧ w = u
    · obtain ⟨rfl, rfl⟩ := hmu
      have hzero : log.count (.pipeclose x.serial w) = 0 := by
        rcases h.pipecloses x.serial w with ⟨-, -, hno⟩ | ⟨hzero, -⟩
        · exact absurd hlast hno
        · exact hzero
      simp [hzero, hlt]
    · simpa [hmu] using h.pipecloses m u
  · rw [count_append]
    by_cases hm : m = x.serial
    · subst hm
      have hzero : log.count (.kfree x.serial) = 0 := by
        rcases h.kfrees x.serial with ⟨-, -, hno⟩ | ⟨hzero, -⟩
        · exact absurd hlast (hno w)
        · exact hzero
      cases hs with
      | free hall =>
        refine .inl ⟨by simp [hzero], hlt, fun u hu => ?_⟩
        obtain ⟨hu, hne⟩ := (hend _ u).mp hu
        cases (hall u).symm.trans ((hshut u).mpr ⟨hu, fun heq => hne ⟨rfl, heq⟩⟩)
      | keep u hu =>
        obtain ⟨hev, hne⟩ := (hshut u).mp hu
        exact .inr ⟨by simp [hzero], fun _ => ⟨u, (hend _ u).mpr ⟨hev, fun heq => hne heq.2⟩⟩⟩
    · have hl : l.count (.kfree m) = 0 := by
        cases hs <;> simp [Ne.symm hm]
      simpa [hl, hend, hm] using h.kfrees m

theorem Shut.not_iput (hs : Shut x w y l) (k : ℕ) :
    l.count (.iput k) = 0 := by
  cases hs <;> simp

theorem pipeclose_shut {s : State P} (hx : s.pipe pi = some x) (w : Bool) : ∃ y l, Shut x w y l ∧
    s.pipeclose pi w = { s with pipe := update s.pipe pi y, log := s.log ++ l } := by
  have hpipe : s.pipeclose pi w = if (x.shut w).readopen = false ∧ (x.shut w).writeopen = false then
      { s with
        pipe := update s.pipe pi none
        log := s.log ++ [.pipeclose x.serial w] ++ [.kfree x.serial] }
      else { s with pipe := update s.pipe pi (some (x.shut w)), log := s.log ++ [.pipeclose x.serial w] } := by
    unfold State.pipeclose
    rw [hx]
    rfl
  rw [hpipe]
  split_ifs with hall
  · rw [opened_eq_false] at hall
    exact ⟨none, _, .free hall, by rw [append_assoc]; rfl⟩
  · rw [opened_eq_false, not_forall] at hall
    obtain ⟨u, hu⟩ := hall
    exact ⟨some (x.shut w), _, .keep u (by simpa using hu), rfl⟩

theorem Piped.iput (h : Piped v pipe pipes log) (k : ℕ) : Piped v pipe pipes (log ++ [.iput k]) :=
  ⟨h.page, h.sole, h.ends, h.live, h.serial, fun m u => by simpa using h.pipecloses m u, fun m => by simpa using h.kfrees m⟩

/-- A new pipe, with a file for each end. -/
theorem piped_new (h : Piped v pipe pipes log) (hpi : pipe pi = none) (hfg : f ≠ g)
    (hf : v f = none) (hg : v g = none) :
    Piped (update (update v f (some (pi, false, pipes))) g (some (pi, true, pipes)))
      (update pipe pi (some ⟨true, true, pipes⟩)) (pipes + 1) log := by
  set v' := update (update v f (some (pi, false, pipes))) g (some (pi, true, pipes)) with hv'
  have hat (u : Bool) : v' (if u then g else f) = some (pi, u, pipes) := by
    cases u with
    | true => exact update_self ..
    | false =>
      rw [hv']
      simp [update_of_ne hfg]
  have hother {e : FilePtr} (hef : e ≠ f) (heg : e ≠ g) : v' e = v e := by
    rw [hv', update_of_ne heg, update_of_ne hef]
  have hold {e : FilePtr} {pj m : ℕ} {u : Bool} (he : v' e = some (pj, u, m)) :
      (e = if u then g else f) ∧ pj = pi ∧ m = pipes ∨ v e = some (pj, u, m) ∧ pj ≠ pi ∧ m < pipes := by
    by_cases heg : e = g
    · rw [heg] at he
      cases (hat true).symm.trans he
      exact .inl ⟨heg, rfl, rfl⟩
    · by_cases hef : e = f
      · rw [hef] at he
        cases (hat false).symm.trans he
        exact .inl ⟨hef, rfl, rfl⟩
      · rw [hother hef heg] at he
        obtain ⟨x, hx, rfl⟩ := h.page e pj u m he
        refine .inr ⟨he, ?_, (h.live pj x hx).1⟩
        rintro rfl
        cases hpi.symm.trans hx
  have hend (m : ℕ) (u : Bool) : HasEnd v' m u ↔ m = pipes ∨ HasEnd v m u := by
    constructor
    · rintro ⟨e, pj, he⟩
      rcases hold he with ⟨-, -, hm⟩ | ⟨he, -⟩
      · exact .inl hm
      · exact .inr ⟨e, pj, he⟩
    · rintro (rfl | ⟨e, pj, he⟩)
      · exact ⟨_, pi, hat u⟩
      · refine ⟨e, pj, ?_⟩
        rw [hother, he]
        · rintro rfl
          cases hf.symm.trans he
        · rintro rfl
          cases hg.symm.trans he
  have hnone (u : Bool) : ¬HasEnd v pipes u := by
    rintro ⟨e, pj, he⟩
    obtain ⟨x, hx, hm⟩ := h.page e pj u pipes he
    exact absurd (h.live pj x hx).1 (by omega)
  have hpage {pj : ℕ} {z : Pipe} (hz : update pipe pi (some ⟨true, true, pipes⟩) pj = some z) :
      pj = pi ∧ z = ⟨true, true, pipes⟩ ∨ pj ≠ pi ∧ pipe pj = some z := by
    by_cases hpj : pj = pi
    · rw [hpj, update_self] at hz
      cases hz
      exact .inl ⟨hpj, rfl⟩
    · rw [update_of_ne hpj] at hz
      exact .inr ⟨hpj, hz⟩
  refine ⟨fun e pj u m he => ?_, fun e e' pj u m n he he' => ?_, fun pj z hz u => ?_, fun pj z hz => ?_,
    fun pj pk z z' hz hz' heq => ?_, fun m u => ?_, fun m => ?_⟩
  · rcases hold he with ⟨-, rfl, rfl⟩ | ⟨he, hne, -⟩
    · exact ⟨_, update_self .., rfl⟩
    · rw [update_of_ne hne]
      exact h.page e pj u m he
  · rcases hold he with ⟨rfl, rfl, -⟩ | ⟨he, hne, -⟩
    · rcases hold he' with ⟨rfl, -⟩ | ⟨-, hne, -⟩
      · rfl
      · exact absurd rfl hne
    · rcases hold he' with ⟨-, rfl, -⟩ | ⟨he', -⟩
      · exact absurd rfl hne
      · exact h.sole e e' pj u m n he he'
  · rcases hpage hz with ⟨rfl, rfl⟩ | ⟨-, hz⟩
    · refine iff_of_true ?_ ((hend _ u).mpr (.inl rfl))
      cases u <;> rfl
    · have hlt := (h.live pj z hz).1
      rw [hend, h.ends pj z hz]
      exact ⟨.inr, fun hor => hor.resolve_left (by omega)⟩
  · rcases hpage hz with ⟨-, rfl⟩ | ⟨-, hz⟩
    · exact ⟨Nat.lt_succ_self _, true, rfl⟩
    · exact ⟨(h.live pj z hz).1.trans (Nat.lt_succ_self _), (h.live pj z hz).2⟩
  · rcases hpage hz with ⟨rfl, rfl⟩ | ⟨-, hj⟩
    · rcases hpage hz' with ⟨rfl, -⟩ | ⟨-, hz'⟩
      · rfl
      · have := (h.live pk z' hz').1
        dsimp only at heq
        omega
    · rcases hpage hz' with ⟨rfl, rfl⟩ | ⟨-, hz'⟩
      · have := (h.live pj z hj).1
        dsimp only at heq
        omega
      · exact h.serial pj pk z z' hj hz' heq
  · rw [hend]
    rcases h.pipecloses m u with ⟨hone, hlt, hno⟩ | ⟨hzero, hyes⟩
    · exact .inl ⟨hone, by omega, by rintro (rfl | hy); exacts [absurd hlt (Nat.lt_irrefl _), hno hy]⟩
    · refine .inr ⟨hzero, fun hlt => ?_⟩
      by_cases hm : m = pipes
      · exact .inl hm
      · exact .inr (hyes (by omega))
  · simp only [hend]
    rcases h.kfrees m with ⟨hone, hlt, hno⟩ | ⟨hzero, hyes⟩
    · refine .inl ⟨hone, by omega, fun u => ?_⟩
      rintro (rfl | hy)
      · exact absurd hlt (Nat.lt_irrefl _)
      · exact hno u hy
    · refine .inr ⟨hzero, fun hlt => ?_⟩
      by_cases hm : m = pipes
      · exact ⟨true, .inl hm⟩
      · obtain ⟨u, hu⟩ := hyes (by omega)
        exact ⟨u, .inr hu⟩

end Pipes

section Inodes

variable {v : FilePtr → Option ℕ} {opens : ℕ} {log : List Call} {f : FilePtr} {pending : List ℕ}

/-- The inodes behind the files `v`, and those that the system call has got. -/
structure Opened (v : FilePtr → Option ℕ) (opens : ℕ) (log : List Call) (pending : List ℕ) : Prop where
  sole : ∀ f g k, v f = some k → v g = some k → f = g
  lt : ∀ f k, v f = some k → k < opens ∧ k ∉ pending
  fresh : ∀ k ∈ pending, k < opens
  iputs : ∀ k, log.count (.iput k) = 1 ∧ k < opens ∧ (∀ f, v f ≠ some k) ∧ k ∉ pending ∨
    log.count (.iput k) = 0 ∧ (k < opens → (∃ f, v f = some k) ∨ k ∈ pending)

theorem Opened.keep (h : Opened v opens log pending) {l : List Call} (hl : ∀ k, l.count (.iput k) = 0) :
    Opened v opens (log ++ l) pending :=
  ⟨h.sole, h.lt, h.fresh, fun k => by rw [count_append, hl, Nat.add_zero]; exact h.iputs k⟩

variable {k : ℕ}

/-- The last descriptor of an inode goes. -/
theorem opened_iput (h : Opened v opens log pending) (hf : v f = some k) :
    Opened (update v f none) opens (log ++ [.iput k]) pending := by
  have hold {g : FilePtr} {m : ℕ} : update v f none g = some m ↔ v g = some m ∧ m ≠ k := by
    by_cases hg : g = f
    · rw [hg, update_self, hf]
      simp [eq_comm]
    · rw [update_of_ne hg]
      refine ⟨fun hm => ⟨hm, ?_⟩, fun hm => hm.1⟩
      rintro rfl
      exact hg (h.sole g f m hm hf)
  obtain ⟨hlt, hnot⟩ := h.lt f k hf
  refine ⟨fun g g' m hg hg' => h.sole g g' m (hold.mp hg).1 (hold.mp hg').1, fun g m hg => h.lt g m (hold.mp hg).1, h.fresh,
    fun m => ?_⟩
  rw [count_append]
  by_cases hm : m = k
  · subst hm
    have hzero : log.count (.iput m) = 0 := by
      rcases h.iputs m with ⟨-, -, hno, -⟩ | ⟨hzero, -⟩
      · exact absurd hf (hno f)
      · exact hzero
    exact .inl ⟨by simp [hzero], hlt, fun g hg => (hold.mp hg).2 rfl, hnot⟩
  · have := h.iputs m
    simpa [hold, hm, Ne.symm hm] using this

/-- `sys_open` gets an inode. -/
theorem opened_next (h : Opened v opens log []) : Opened v (opens + 1) log [opens] := by
  refine ⟨h.sole, fun f k hf => ?_, fun k hk => ?_, fun k => ?_⟩
  · have := (h.lt f k hf).1
    exact ⟨by omega, by simp; omega⟩
  · rw [mem_singleton.mp hk]
    exact Nat.lt_succ_self _
  · rw [mem_singleton]
    rcases h.iputs k with ⟨hone, hlt, hno, -⟩ | ⟨hzero, hyes⟩
    · exact .inl ⟨hone, by omega, hno, by omega⟩
    · refine .inr ⟨hzero, fun hlt => ?_⟩
      by_cases hk : k = opens
      · exact .inr hk
      · exact .inl ((hyes (by omega)).resolve_right not_mem_nil)

/-- `sys_open` gives it back. -/
theorem opened_fail (h : Opened v opens log [k]) : Opened v opens (log ++ [.iput k]) [] := by
  refine ⟨h.sole, fun f m hf => ⟨(h.lt f m hf).1, not_mem_nil⟩, fun m hm => absurd hm not_mem_nil, fun m => ?_⟩
  rw [count_append]
  by_cases hm : m = k
  · subst hm
    have hzero : log.count (.iput m) = 0 := by
      rcases h.iputs m with ⟨-, -, -, hno⟩ | ⟨hzero, -⟩
      · exact absurd (mem_singleton_self m) hno
      · exact hzero
    refine .inl ⟨by simp [hzero], h.fresh m (mem_singleton_self m), fun f hf => ?_, not_mem_nil⟩
    exact (h.lt f m hf).2 (mem_singleton_self m)
  · have := h.iputs m
    simpa [hm, Ne.symm hm] using this

/-- `sys_open` makes a file for it. -/
theorem opened_file (h : Opened v opens log [k]) (hf : v f = none) :
    Opened (update v f (some k)) opens log [] := by
  have hnew {g : FilePtr} {m : ℕ} (hg : update v f (some k) g = some m) : g = f ∧ m = k ∨ v g = some m ∧ m ≠ k := by
    by_cases hgf : g = f
    · rw [hgf, update_self] at hg
      cases hg
      exact .inl ⟨hgf, rfl⟩
    · rw [update_of_ne hgf] at hg
      exact .inr ⟨hg, fun hm => (h.lt g m hg).2 (hm ▸ mem_singleton_self m)⟩
  refine ⟨fun g g' m hg hg' => ?_, fun g m hg => ⟨?_, not_mem_nil⟩, fun m hm => absurd hm not_mem_nil, fun m => ?_⟩
  · rcases hnew hg with ⟨rfl, rfl⟩ | ⟨hg, hm⟩
    · rcases hnew hg' with ⟨rfl, -⟩ | ⟨-, hm⟩
      · rfl
      · exact absurd rfl hm
    · rcases hnew hg' with ⟨-, rfl⟩ | ⟨hg', -⟩
      · exact absurd rfl hm
      · exact h.sole g g' m hg hg'
  · rcases hnew hg with ⟨-, rfl⟩ | ⟨hg, -⟩
    · exact h.fresh m (mem_singleton_self m)
    · exact (h.lt g m hg).1
  · rcases h.iputs m with ⟨hone, hlt, hno, hnot⟩ | ⟨hzero, hyes⟩
    · refine .inl ⟨hone, hlt, fun g hg => ?_, not_mem_nil⟩
      rcases hnew hg with ⟨-, rfl⟩ | ⟨hg, -⟩
      · exact hnot (mem_singleton_self m)
      · exact hno g hg
    · refine .inr ⟨hzero, fun hlt => .inl ?_⟩
      rcases hyes hlt with ⟨g, hg⟩ | hm
      · refine ⟨g, ?_⟩
        rwa [update_of_ne]
        rintro rfl
        cases hf.symm.trans hg
      · exact ⟨f, by rw [update_self, mem_singleton.mp hm]⟩

end Inodes

end Xv6.Files
