import Mathlib

/-! Sequential programs over a state that can fault. A fault keeps the state it
happened in, so that statements can be made about the moment of a bad access as
well as about normal completion. `Holds P x Q E` is the rule of pre- and
postconditions: from `P`, normal ends satisfy `Q` and faulting ends satisfy `E`. -/

inductive Outcome (σ φ α : Type) where
  | ok (a : α) (s : σ)
  | fault (f : φ) (s : σ)

def Outcome.state {σ φ α : Type} : Outcome σ φ α → σ
  | .ok _ s => s
  | .fault _ s => s

def Prog (σ φ α : Type) := σ → Outcome σ φ α

namespace Prog

variable {σ φ α β : Type}

instance : Monad (Prog σ φ) where
  pure a := fun s => .ok a s
  bind x f := fun s => match x s with
    | .ok a t => f a t
    | .fault e t => .fault e t

def gets (f : σ → α) : Prog σ φ α := fun s => .ok (f s) s

def modify (f : σ → σ) : Prog σ φ Unit := fun s => .ok () (f s)

def fail (e : φ) : Prog σ φ α := fun s => .fault e s

/-- The body for 0, 1, ..., n - 1 in this order. -/
def upTo (body : ℕ → Prog σ φ Unit) : ℕ → Prog σ φ Unit
  | 0 => pure ()
  | n + 1 => do
    upTo body n
    body n

theorem upTo_zero (body : ℕ → Prog σ φ Unit) : upTo body 0 = pure () := rfl

theorem upTo_succ (body : ℕ → Prog σ φ Unit) (n : ℕ) : upTo body (n + 1) = upTo body n >>= fun _ => body n := rfl

attribute [irreducible] upTo

/-- A program over a part of the state. -/
def zoom {τ : Type} (get : σ → τ) (set : τ → σ → σ) (x : Prog τ φ α) : Prog σ φ α := fun s =>
  match x (get s) with
  | .ok a t => .ok a (set t s)
  | .fault e t => .fault e (set t s)

@[simp] theorem pure_apply (a : α) (s : σ) : (pure a : Prog σ φ α) s = .ok a s := rfl

@[simp] theorem gets_apply (f : σ → α) (s : σ) : (gets f : Prog σ φ α) s = .ok (f s) s := rfl

@[simp] theorem modify_apply (f : σ → σ) (s : σ) : (modify f : Prog σ φ Unit) s = .ok () (f s) := rfl

@[simp] theorem fail_apply (e : φ) (s : σ) : (fail e : Prog σ φ α) s = .fault e s := rfl

theorem bind_apply (x : Prog σ φ α) (f : α → Prog σ φ β) (s : σ) :
    (x >>= f) s = match x s with
      | .ok a t => f a t
      | .fault e t => .fault e t := rfl

variable {x : Prog σ φ α} {s t : σ}

theorem bind_of_ok {a : α} (h : x s = .ok a t) (f : α → Prog σ φ β) :
    (x >>= f) s = f a t := by
  rw [bind_apply, h]

theorem bind_of_fault {e : φ} (h : x s = .fault e t) (f : α → Prog σ φ β) :
    (x >>= f) s = .fault e t := by
  rw [bind_apply, h]

theorem bind_eq_ok {f : α → Prog σ φ β} {b : β} :
    (x >>= f) s = .ok b t ↔ ∃ a u, x s = .ok a u ∧ f a u = .ok b t := by
  rw [bind_apply]
  cases h : x s with
  | ok a u | fault e u => simp

instance : LawfulMonad (Prog σ φ) := LawfulMonad.mk' _
  (fun x => by
    funext s
    change (match x s with | .ok a t => .ok (id a) t | .fault e t => .fault e t) = x s
    cases x s <;> rfl)
  (fun _ _ => rfl)
  (fun x f g => by
    funext s
    simp only [bind_apply]
    cases x s <;> rfl)

def Holds (P : σ → Prop) (x : Prog σ φ α) (Q : α → σ → Prop) (E : φ → σ → Prop) : Prop :=
  ∀ s, P s → match x s with
    | .ok a t => Q a t
    | .fault e t => E e t

section Rules

variable {P P' : σ → Prop} {Q Q' : α → σ → Prop} {R : β → σ → Prop} {E : φ → σ → Prop}

variable {x : Prog σ φ α} {s t : σ} {a : α} {e : φ} {c : Prop}

theorem Holds.ok (h : Holds P x Q E) (hs : P s) (hx : x s = .ok a t) :
    Q a t := by
  have := h s hs
  rwa [hx] at this

theorem Holds.fault (h : Holds P x Q E) (hs : P s) (hx : x s = .fault e t) : E e t := by
  have := h s hs
  rwa [hx] at this

/-- Without a fault the program returns. -/
theorem Holds.returns (h : Holds P x Q E) (hE : ∀ e s, ¬ E e s) (hs : P s) : ∃ a t, x s = .ok a t ∧ Q a t := by
  have hpost := h s hs
  cases hx : x s with
  | ok a t =>
    rw [hx] at hpost
    exact ⟨a, t, rfl, hpost⟩
  | fault e t =>
    rw [hx] at hpost
    exact absurd hpost (hE e t)

theorem holds_conseq (h : Holds P x Q E) (hP : ∀ s, P' s → P s) (hQ : ∀ a s, Q a s → Q' a s) : Holds P' x Q' E := by
  intro s hs
  have := h s (hP s hs)
  cases hx : x s with
  | ok a t => rw [hx] at this; exact hQ a t this
  | fault e t => rw [hx] at this; exact this

theorem holds_faults {E' : φ → σ → Prop} (h : Holds P x Q E) (hE : ∀ e s, E e s → E' e s) :
    Holds P x Q E' := by
  intro s hs
  have := h s hs
  cases hx : x s with
  | ok a t => rw [hx] at this; exact this
  | fault e t => rw [hx] at this; exact hE e t this

/-- The run from one state. -/
theorem Holds.start (h : Holds P x Q E) (hs : P s) (hQ : ∀ a t, Q a t → Q' a t) :
    Holds (fun t => t = s) x Q' E :=
  holds_conseq h (fun _ ht => by rwa [ht]) hQ

theorem holds_pure (h : ∀ s, P s → Q a s) : Holds P (pure a : Prog σ φ α) Q E :=
  fun s hs => h s hs

theorem holds_gets {f : σ → α} (h : ∀ s, P s → Q (f s) s) : Holds P (gets f) Q E :=
  fun s hs => h s hs

theorem holds_modify {f : σ → σ} {Q : Unit → σ → Prop} (h : ∀ s, P s → Q () (f s)) :
    Holds P (modify f) Q E :=
  fun s hs => h s hs

theorem holds_fail (h : ∀ s, P s → E e s) : Holds P (fail e : Prog σ φ α) Q E :=
  fun s hs => h s hs

theorem holds_bind {f : α → Prog σ φ β} (hx : Holds P x Q E)
    (hf : ∀ a, Holds (Q a) (f a) R E) : Holds P (x >>= f) R E := by
  intro s hs
  have h := hx s hs
  rw [bind_apply]
  cases hr : x s with
  | ok a t => rw [hr] at h; exact hf a t h
  | fault e t => rw [hr] at h; exact h

theorem holds_discard {Q : σ → Prop} (h : Holds P x (fun _ => Q) E) :
    Holds P (x >>= fun _ => pure ()) (fun _ => Q) E :=
  holds_bind h fun _ => holds_pure fun _ hs => hs

/-- The value read is known afterwards. -/
theorem holds_read (f : σ → α) : Holds P (gets f : Prog σ φ α) (fun a s => P s ∧ a = f s) E :=
  holds_gets fun _ hs => ⟨hs, rfl⟩

/-- What the precondition says of no particular state may be assumed. -/
theorem holds_assume (hc : ∀ s, P s → c) (h : c → Holds P x Q E) :
    Holds P x Q E :=
  fun s hs => h (hc s hs) s hs

theorem holds_ite [Decidable c] {y : Prog σ φ α} (hx : c → Holds P x Q E)
    (hy : ¬ c → Holds P y Q E) : Holds P (if c then x else y) Q E := by
  split_ifs with h
  · exact hx h
  · exact hy h

theorem holds_exists {ι : Type} {P : ι → σ → Prop} (h : ∀ i, Holds (P i) x Q E) :
    Holds (fun s => ∃ i, P i s) x Q E :=
  fun s ⟨i, hs⟩ => h i s hs

/-- The loop rule: `I i` holds before the round for `i`. -/
theorem holds_upTo {I : ℕ → σ → Prop} {body : ℕ → Prog σ φ Unit} (n : ℕ)
    (h : ∀ i, i < n → Holds (I i) (body i) (fun _ => I (i + 1)) E) :
    Holds (I 0) (upTo body n) (fun _ => I n) E := by
  induction n with
  | zero =>
    rw [upTo_zero]
    exact holds_pure fun _ hs => hs
  | succ n ih =>
    rw [upTo_succ]
    exact holds_bind (ih fun i hi => h i (by omega)) fun _ => h n (by omega)

/-- A program over a part of the state leaves alone what that part does not determine. -/
theorem holds_zoom {τ : Type} {get : σ → τ} {set : τ → σ → σ} {x : Prog τ φ α} {F : σ → Prop} {P : τ → Prop}
    {Q : α → τ → Prop} {E : φ → τ → Prop} (hget : ∀ t s, get (set t s) = t) (hF : ∀ t s, F s → F (set t s))
    (h : Holds P x Q E) :
    Holds (fun s => P (get s) ∧ F s) (zoom get set x) (fun a s => Q a (get s) ∧ F s) (fun e s => E e (get s)) := by
  rintro s ⟨hs, hf⟩
  have hx := h (get s) hs
  unfold zoom
  cases hr : x (get s) with
  | ok a t =>
    rw [hr] at hx
    change Q a (get (set t s)) ∧ F (set t s)
    rw [hget]
    exact ⟨hx, hF t s hf⟩
  | fault e t =>
    rw [hr] at hx
    change E e (get (set t s))
    rwa [hget]

end Rules

/-- `x` keeps `I`, and faults only in states that satisfy `E`. -/
def Keeps (I : σ → Prop) (x : Prog σ φ α) (E : φ → σ → Prop) : Prop := Holds I x (fun _ => I) E

section Keeps

variable {I : σ → Prop} {E : φ → σ → Prop}

theorem keeps_pure (a : α) : Keeps I (pure a : Prog σ φ α) E := holds_pure (fun _ h => h)

theorem keeps_gets (f : σ → α) : Keeps I (gets f : Prog σ φ α) E := holds_gets (fun _ h => h)

theorem keeps_modify {f : σ → σ} (h : ∀ s, I s → I (f s)) : Keeps I (modify f : Prog σ φ Unit) E := holds_modify h

theorem keeps_fail {e : φ} (h : ∀ s, I s → E e s) : Keeps I (fail e : Prog σ φ α) E := holds_fail h

variable {x : Prog σ φ α}

theorem keeps_bind {f : α → Prog σ φ β} (hx : Keeps I x E) (hf : ∀ a, Keeps I (f a) E) :
    Keeps I (x >>= f) E := holds_bind hx hf

theorem keeps_ite {c : Prop} [Decidable c] {y : Prog σ φ α} (hx : c → Keeps I x E)
    (hy : ¬ c → Keeps I y E) : Keeps I (if c then x else y) E := holds_ite hx hy

end Keeps

/-- From `P`, `x` leaves what `f` observes as it is, also where it faults. -/
def Frames {γ : Type} (P : σ → Prop) (f : σ → γ) (x : Prog σ φ α) : Prop := ∀ s, P s → f (x s).state = f s

section Frames

variable {γ : Type} {P P' : σ → Prop} {Q : α → σ → Prop} {E : φ → σ → Prop} {f : σ → γ}

variable {x : Prog σ φ α} {k : α → Prog σ φ β} {c : Prop}

theorem frames_conseq (h : Frames P f x) (hP : ∀ s, P' s → P s) : Frames P' f x :=
  fun s hs => h s (hP s hs)

theorem Frames.ok (h : Frames P f x) {s t : σ} {a : α} (hs : P s) (hr : x s = .ok a t) : f t = f s := by
  have hsame := h s hs
  rwa [hr] at hsame

theorem frames_pure (a : α) : Frames P f (pure a : Prog σ φ α) := fun _ _ => rfl

theorem frames_gets (k : σ → α) : Frames P f (gets k : Prog σ φ α) := fun _ _ => rfl

theorem frames_fail (e : φ) : Frames P f (fail e : Prog σ φ α) := fun _ _ => rfl

theorem frames_modify {k : σ → σ} (h : ∀ s, P s → f (k s) = f s) : Frames P f (modify k : Prog σ φ Unit) := h

theorem frames_bind (hx : Frames P f x) (hspec : Holds P x Q E)
    (hk : ∀ a, Frames (Q a) f (k a)) : Frames P f (x >>= k) := by
  intro s hs
  have hfirst := hx s hs
  have hpost := hspec s hs
  rw [bind_apply]
  cases hr : x s with
  | ok a t =>
    rw [hr] at hfirst hpost
    exact (hk a t hpost).trans hfirst
  | fault e t =>
    rwa [hr] at hfirst

/-- What comes after needs no precondition. -/
theorem frames_seq (hx : Frames P f x) (hk : ∀ a, Frames (fun _ => True) f (k a)) : Frames P f (x >>= k) := by
  refine frames_bind (Q := fun _ _ => True) (E := fun _ _ => True) hx (fun s _ => ?_) hk
  cases x s <;> trivial

theorem frames_ite [Decidable c] {y : Prog σ φ α} (hx : c → Frames P f x) (hy : ¬ c → Frames P f y) :
    Frames P f (if c then x else y) := by
  split_ifs with h
  · exact hx h
  · exact hy h

theorem frames_assume (hc : ∀ s, P s → c) (h : c → Frames P f x) : Frames P f x :=
  fun s hs => h (hc s hs) s hs

theorem frames_exists {ι : Type} {P : ι → σ → Prop} (h : ∀ i, Frames (P i) f x) :
    Frames (fun s => ∃ i, P i s) f x :=
  fun s ⟨i, hs⟩ => h i s hs

theorem frames_upTo {I : ℕ → σ → Prop} {body : ℕ → Prog σ φ Unit} (n : ℕ)
    (hspec : ∀ i, i < n → Holds (I i) (body i) (fun _ => I (i + 1)) E) (h : ∀ i, i < n → Frames (I i) f (body i)) :
    Frames (I 0) f (upTo body n) := by
  induction n with
  | zero =>
    rw [upTo_zero]
    exact frames_pure ()
  | succ n ih =>
    rw [upTo_succ]
    refine frames_bind (ih (fun i hi => hspec i (by omega)) fun i hi => h i (by omega))
      (holds_upTo n fun i hi => hspec i (by omega)) fun _ => h n (by omega)

/-- The value observed is known afterwards. -/
theorem Holds.frames (h : Holds P x Q E) (hx : Frames P f x) (v : γ) :
    Holds (fun s => P s ∧ f s = v) x (fun a s => Q a s ∧ f s = v) E := by
  rintro s ⟨hs, rfl⟩
  have hpost := h s hs
  have hsame := hx s hs
  cases hr : x s with
  | ok a t =>
    rw [hr] at hpost hsame
    exact ⟨hpost, hsame⟩
  | fault e t =>
    rwa [hr] at hpost

end Frames

/-- Whenever `x` returns, `y` returns the same in the part of the state that `f` observes. -/
def Projects {τ ψ : Type} (f : σ → τ) (x : Prog σ φ α) (y : Prog τ ψ α) : Prop :=
  ∀ s a t, x s = .ok a t → y (f s) = .ok a (f t)

section Projects

variable {τ ψ γ : Type} {f : σ → τ} {x : Prog σ φ α} {y : Prog τ ψ α} {k : α → Prog σ φ β}

theorem projects_pure (a : α) : Projects f (pure a : Prog σ φ α) (pure a : Prog τ ψ α) := by
  rintro s b t ⟨⟩
  rfl

theorem projects_modify {k : σ → σ} {l : τ → τ} (h : ∀ s, f (k s) = l (f s)) :
    Projects f (modify k : Prog σ φ Unit) (modify l : Prog τ ψ Unit) := by
  rintro s _ t ⟨⟩
  rw [modify_apply, h]

theorem projects_bind {l : α → Prog τ ψ β} (hx : Projects f x y) (hk : ∀ a, Projects f (k a) (l a)) :
    Projects f (x >>= k) (y >>= l) := by
  intro s b t h
  obtain ⟨a, u, ha, hb⟩ := bind_eq_ok.mp h
  rw [bind_of_ok (hx s a u ha)]
  exact hk a u b t hb

/-- The two may read different parts of the state. -/
theorem projects_gets {g : σ → α} {g' : τ → γ} {l : γ → Prog τ ψ β} (h : ∀ s, Projects f (k (g s)) (l (g' (f s)))) :
    Projects f (gets g >>= k) (gets g' >>= l) := fun s => h s s

/-- A step that `f` does not observe comes first. -/
theorem projects_skip {z : Prog τ ψ β} (hx : Frames (fun _ => True) f x) (hk : ∀ a, Projects f (k a) z) :
    Projects f (x >>= k) z := by
  intro s b t h
  obtain ⟨a, u, ha, hb⟩ := bind_eq_ok.mp h
  rw [← hx.ok trivial ha]
  exact hk a u b t hb

theorem projects_ite {c : Prop} [Decidable c] {x' : Prog σ φ α} {y' : Prog τ ψ α} (h : Projects f x y)
    (h' : Projects f x' y') : Projects f (if c then x else x') (if c then y else y') := by
  split_ifs
  · exact h
  · exact h'

end Projects

/-- `x` moves from a state only to states related to it, also where it faults. -/
def Steps (R : σ → σ → Prop) (x : Prog σ φ α) : Prop := ∀ s, R s (x s).state

section Steps

variable {R : σ → σ → Prop}

variable {x : Prog σ φ α}

theorem Steps.ok (h : Steps R x) {s t : σ} {a : α} (hr : x s = .ok a t) : R s t := by
  have hs := h s
  rwa [hr] at hs

theorem steps_pure (hrefl : ∀ s, R s s) (a : α) : Steps R (pure a : Prog σ φ α) := hrefl

theorem steps_gets (hrefl : ∀ s, R s s) (k : σ → α) : Steps R (gets k : Prog σ φ α) := hrefl

theorem steps_fail (hrefl : ∀ s, R s s) (e : φ) : Steps R (fail e : Prog σ φ α) := hrefl

theorem steps_bind (htrans : ∀ s t u, R s t → R t u → R s u) {k : α → Prog σ φ β} (hx : Steps R x)
    (hk : ∀ a, Steps R (k a)) : Steps R (x >>= k) := by
  intro s
  have hfirst := hx s
  rw [bind_apply]
  cases hr : x s with
  | ok a t =>
    rw [hr] at hfirst
    exact htrans _ _ _ hfirst (hk a t)
  | fault e t =>
    rwa [hr] at hfirst

theorem steps_ite {c : Prop} [Decidable c] {y : Prog σ φ α} (hx : c → Steps R x) (hy : ¬ c → Steps R y) :
    Steps R (if c then x else y) := by
  split_ifs with h
  · exact hx h
  · exact hy h

theorem steps_upTo (hrefl : ∀ s, R s s) (htrans : ∀ s t u, R s t → R t u → R s u) {body : ℕ → Prog σ φ Unit}
    (h : ∀ i, Steps R (body i)) (n : ℕ) : Steps R (upTo body n) := by
  induction n with
  | zero =>
    rw [upTo_zero]
    exact steps_pure hrefl ()
  | succ n ih =>
    rw [upTo_succ]
    exact steps_bind htrans ih fun _ => h n

end Steps

end Prog
