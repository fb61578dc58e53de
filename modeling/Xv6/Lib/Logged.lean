import Mathlib

/-! Computations that note what they do, and may stop. What was done before the end stays noted, so that
statements can also be made about a computation that does not return. -/

structure Logged (ω α : Type) where
  log : List ω
  result : Option α

namespace Logged

variable {ω α β : Type}

instance : Monad (Logged ω) where
  pure a := ⟨[], some a⟩
  bind x f := match x.result with
    | none => ⟨x.log, none⟩
    | some a => ⟨x.log ++ (f a).log, (f a).result⟩

/-- Do `o`, which comes out as `r`. -/
def emit (o : ω) (r : Option α) : Logged ω α := ⟨[o], r⟩

/-- One after the other, for all elements of a list. -/
def traverse (g : α → Logged ω β) : List α → Logged ω (List β)
  | [] => pure []
  | a :: l => do
    let b ← g a
    let bs ← traverse g l
    pure (b :: bs)

@[simp] theorem pure_log (a : α) : (pure a : Logged ω α).log = [] := rfl

@[simp] theorem pure_result (a : α) : (pure a : Logged ω α).result = some a := rfl

@[simp] theorem emit_log (o : ω) (r : Option α) : (emit o r).log = [o] := rfl

@[simp] theorem emit_result (o : ω) (r : Option α) : (emit o r).result = r := rfl

@[simp] theorem bind_result (x : Logged ω α) (f : α → Logged ω β) :
    (x >>= f).result = x.result.bind fun a => (f a).result := by
  change Logged.result (match x.result with | none => _ | some a => _) = _
  cases x.result <;> rfl

@[simp] theorem mem_bind {x : Logged ω α} {f : α → Logged ω β} {o : ω} :
    o ∈ (x >>= f).log ↔ o ∈ x.log ∨ ∃ a, x.result = some a ∧ o ∈ (f a).log := by
  change o ∈ Logged.log (match x.result with | none => _ | some a => _) ↔ _
  cases x.result with
  | none | some a => simp

theorem traverse_result (g : α → Logged ω β) (l : List α) :
    (traverse g l).result = l.mapM fun a => (g a).result := by
  induction l with
  | nil => rfl
  | cons a l ih =>
    rw [traverse, bind_result, List.mapM_cons]
    simp only [bind_result, ih, pure_result]
    rfl

theorem mem_traverse {g : α → Logged ω β} {l : List α} {o : ω} (h : o ∈ (traverse g l).log) : ∃ a ∈ l, o ∈ (g a).log := by
  induction l with
  | nil => cases h
  | cons a l ih =>
    rw [traverse, mem_bind] at h
    rcases h with h | ⟨b, -, h⟩
    · exact ⟨a, List.mem_cons_self, h⟩
    · rw [mem_bind] at h
      rcases h with h | ⟨bs, -, h⟩
      · obtain ⟨c, hc, ho⟩ := ih h
        exact ⟨c, List.mem_cons_of_mem _ hc, ho⟩
      · cases h

theorem traverse_returns {g : α → Logged ω β} {l : List α} (h : ∀ a ∈ l, ∃ b, (g a).result = some b) :
    ∃ bs, (traverse g l).result = some bs := by
  induction l with
  | nil => exact ⟨[], rfl⟩
  | cons a l ih =>
    obtain ⟨⟨b, hb⟩, hl⟩ := List.forall_mem_cons.mp h
    obtain ⟨bs, hbs⟩ := ih hl
    refine ⟨b :: bs, ?_⟩
    simp [traverse, hb, hbs]

end Logged
