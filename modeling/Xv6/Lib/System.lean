import Mathlib

/-! Deterministic event-driven systems. `step s e` is the state after the event
`e`, or `none` when `e` cannot happen in `s`; a run is a list of events, and every
interleaving of several parties is one such list. -/

namespace System

open List Option

variable {σ ε : Type} (step : σ → ε → Option σ)

def exec : σ → List ε → Option σ
  | s, [] => some s
  | s, e :: es => (step s e).bind fun s' => exec s' es

@[simp] theorem exec_nil (s : σ) : exec step s [] = some s := rfl

theorem exec_cons (s : σ) (e : ε) (es : List ε) :
    exec step s (e :: es) = (step s e).bind fun s' => exec step s' es := rfl

theorem exec_append (s : σ) (es fs : List ε) :
    exec step s (es ++ fs) = (exec step s es).bind fun s' => exec step s' fs := by
  induction es generalizing s with
  | nil => rfl
  | cons e es ih =>
    simp only [cons_append, exec_cons, bind_assoc]
    congr 1
    funext s'
    exact ih s'

theorem exec_snoc (s : σ) (es : List ε) (e : ε) :
    exec step s (es ++ [e]) = (exec step s es).bind fun s' => step s' e := by
  rw [exec_append]
  congr 1
  funext s'
  cases h : step s' e <;> simp [exec_cons, h]

variable {Inv : σ → Prop} {s₀ s : σ} {C : σ → ε → Prop} {e : ε} {es : List ε}

/-- What holds at the start and is kept by every step of the run holds at its end; it may read the events so far. -/
theorem exec_history {Inv : List ε → σ → Prop} (h0 : Inv [] s₀)
    (hstep : ∀ es s e s', exec step s₀ es = some s → Inv es s → step s e = some s' → Inv (es ++ [e]) s') :
    ∀ es s, exec step s₀ es = some s → Inv es s := by
  intro es
  induction es using List.reverseRecOn with
  | nil => intro s h; cases h; exact h0
  | append_singleton es e ih =>
    intro s h
    rw [exec_snoc, bind_eq_some_iff] at h
    obtain ⟨s', hs', hs⟩ := h
    exact hstep es s' e s hs' (ih s' hs') hs

theorem exec_invariant (h0 : Inv s₀) (hstep : ∀ s e s', Inv s → step s e = some s' → Inv s') :
    ∀ es s, exec step s₀ es = some s → Inv s :=
  exec_history step h0 fun _ s e s' _ => hstep s e s'

/-- Every event of the run meets `C` in the state in which it happens. -/
def Along (C : σ → ε → Prop) (s₀ : σ) (es : List ε) : Prop :=
  ∀ pre e post t, es = pre ++ e :: post → exec step s₀ pre = some t → C t e

theorem along_nil : Along step C s [] := by
  intro pre e post _ h
  simp at h

theorem along_cons :
    Along step C s (e :: es) ↔ C s e ∧ ∀ t, step s e = some t → Along step C t es := by
  constructor
  · refine fun h => ⟨h [] e es s rfl rfl, fun t ht pre e' post t' hsplit hpre => ?_⟩
    exact h (e :: pre) e' post t' (by rw [hsplit]; rfl) (by rw [exec_cons, ht]; exact hpre)
  · rintro ⟨he, hrest⟩ pre e' post t' hsplit hpre
    cases pre with
    | nil =>
      cases hsplit
      cases hpre
      exact he
    | cons d pre =>
      cases hsplit
      rw [exec_cons, bind_eq_some_iff] at hpre
      obtain ⟨t, ht, hpre⟩ := hpre
      exact hrest t ht pre e' post t' rfl hpre

theorem along_snoc :
    Along step C s (es ++ [e]) ↔ Along step C s es ∧ ∀ t, exec step s es = some t → C t e := by
  constructor
  · refine fun h => ⟨fun pre e' post t hsplit => ?_, fun t ht => h es e [] t rfl ht⟩
    exact h pre e' (post ++ [e]) t (by simp [hsplit])
  · rintro ⟨h, he⟩ pre e' post t hsplit hpre
    rcases eq_nil_or_concat post with rfl | ⟨post', x, rfl⟩
    · obtain ⟨rfl, hlast⟩ := append_inj' hsplit rfl
      cases hlast
      exact he t hpre
    · have hcut : es ++ [e] = (pre ++ e' :: post') ++ [x] := by simpa using hsplit
      exact h pre e' post' t (append_inj' hcut rfl).1 hpre

theorem along_of_mem (h : ∀ t, ∀ e ∈ es, C t e) : Along step C s es := by
  intro pre e post t hsplit _
  exact h t e (by simp [hsplit])

instance decidableAlong {C : σ → ε → Prop} [∀ s e, Decidable (C s e)] :
    ∀ (s : σ) (es : List ε), Decidable (Along step C s es)
  | _, [] => .isTrue (along_nil step)
  | s, e :: es =>
    haveI : Decidable (∀ t, step s e = some t → Along step C t es) :=
      match step s e with
      | none => .isTrue nofun
      | some t =>
        haveI : Decidable (Along step C t es) := decidableAlong t es
        decidable_of_iff (Along step C t es) (by simp)
    decidable_of_iff (C s e ∧ ∀ t, step s e = some t → Along step C t es) (along_cons step).symm

/-- What every step that meets `C` keeps holds after every run whose steps all meet it. -/
theorem exec_invariant_along (h0 : Inv s₀) (hstep : ∀ s e s', Inv s → C s e → step s e = some s' → Inv s') :
    ∀ es s, Along step C s₀ es → exec step s₀ es = some s → Inv s := by
  suffices h : ∀ es s, exec step s₀ es = some s → Along step C s₀ es → Inv s from fun es s halong hs => h es s hs halong
  refine exec_history step (fun _ => h0) fun es s e s' hs ih hs' halong => ?_
  rw [along_snoc] at halong
  exact hstep s e s' (ih halong.1) (halong.2 s hs) hs'

/-- If the steps that meet `C` keep `Good`, the others lead to `Bad` and nothing leads out of it, a run shows in its last
state whether all its steps met `C`. -/
theorem exec_along_cases {Good Bad : σ → Prop} (h0 : Good s₀)
    (hgood : ∀ s e s', Good s → C s e → step s e = some s' → Good s')
    (hbad : ∀ s e s', Good s → ¬ C s e → step s e = some s' → Bad s')
    (hstay : ∀ s e s', Bad s → step s e = some s' → Bad s') :
    ∀ es s, exec step s₀ es = some s → Good s ∧ Along step C s₀ es ∨ Bad s ∧ ¬ Along step C s₀ es := by
  refine exec_history step (.inl ⟨h0, along_nil step⟩) fun es t e s ht ih hs => ?_
  rw [along_snoc]
  rcases ih with ⟨hgt, halong⟩ | ⟨hbt, halong⟩
  · by_cases hC : C t e
    · refine .inl ⟨hgood t e s hgt hC hs, halong, fun u hu => ?_⟩
      cases ht.symm.trans hu
      exact hC
    · exact .inr ⟨hbad t e s hgt hC hs, fun ⟨_, h⟩ => hC (h t ht)⟩
  · exact .inr ⟨hstay t e s hbt hs, fun ⟨h, _⟩ => halong h⟩

/-- If every step adds records that are good exactly if the step meets `C`, all records of a run are good exactly if all its
steps meet `C`. -/
theorem exec_records {ρ : Type} {records : σ → List ρ} {Good : ρ → Prop} (h0 : Inv s₀) (hnil : records s₀ = [])
    (hstep : ∀ s e s', Inv s → step s e = some s' →
      Inv s' ∧ ∃ new, records s' = records s ++ new ∧ ((∀ x ∈ new, Good x) ↔ C s e)) :
    ∀ es s, exec step s₀ es = some s → ((∀ x ∈ records s, Good x) ↔ Along step C s₀ es) := by
  have hrun : ∀ es s, exec step s₀ es = some s → Inv s ∧ ((∀ x ∈ records s, Good x) ↔ Along step C s₀ es) := by
    refine exec_history step ⟨h0, iff_of_true (by simp [hnil]) (along_nil step)⟩ fun es t e s ht ⟨hinv, hiff⟩ hs => ?_
    obtain ⟨hinv', new, hnew, hgood⟩ := hstep t e s hinv hs
    refine ⟨hinv', ?_⟩
    rw [hnew, forall_mem_append, hiff, hgood, along_snoc]
    exact and_congr_right fun _ => ⟨fun hC u hu => Option.some.inj (ht.symm.trans hu) ▸ hC, fun hC => hC t ht⟩
  exact fun es s h => (hrun es s h).2

/-- Every prefix of a run is a run. -/
theorem exec_prefix {s' : σ} {fs : List ε} (h : exec step s (es ++ fs) = some s') :
    ∃ t, exec step s es = some t ∧ exec step t fs = some s' := by
  rwa [exec_append, bind_eq_some_iff] at h

section Histories

variable (P : List ε → ε → Prop)

/-- Every event of the history has `P` with regard to the events before it. -/
def Always (tr : List ε) : Prop := ∀ pre e post, tr = pre ++ e :: post → P pre e

theorem always_nil : Always P [] := by
  intro pre e post h
  simp at h

theorem always_snoc (tr : List ε) (e : ε) : Always P (tr ++ [e]) ↔ Always P tr ∧ P tr e := by
  constructor
  · intro h
    exact ⟨fun pre e' post htr => h pre e' (post ++ [e]) (by simp [htr]), h tr e [] rfl⟩
  · rintro ⟨h, he⟩ pre e' post htr
    rcases eq_nil_or_concat post with rfl | ⟨post', x, rfl⟩
    · obtain ⟨rfl, hlast⟩ := append_inj' htr rfl
      cases hlast
      exact he
    · have hpre : tr ++ [e] = (pre ++ e' :: post') ++ [x] := by simpa using htr
      exact h pre e' post' (append_inj' hpre rfl).1

end Histories

end System
