import Mathlib.Data.Nat.Init

/-!
# Loops that return from their body

The body of a loop takes the local variables to those of the next round, or
returns a value. The loop has no condition of its own that ends it. `after` is its
state in front of a round, and `Ends` says in which round the loop returns. The
rule is an invariant that counts the rounds.
-/

namespace Loop

universe u v

variable {σ : Type u} {β : Type v} {body : σ → β ⊕ σ} {s : σ} {n : Nat} {b : β}

/-- The variables behind the first `n` rounds, or what one of these rounds returned. -/
def after (body : σ → β ⊕ σ) : Nat → σ → β ⊕ σ
  | 0, s => .inr s
  | n + 1, s =>
    match after body n s with
    | .inl b => .inl b
    | .inr t => body t

/-- The loop returns `b` in round `n`, and every round before goes on. It states
termination and result in one, so a loop that never returns meets it for no `n`. -/
structure Ends (body : σ → β ⊕ σ) (s : σ) (n : Nat) (b : β) : Prop where
  returned : after body n s = .inl b
  running : ∀ k < n, ∃ t, after body k s = .inr t

theorem after_succ {t : σ} (h : after body n s = .inr t) : after body (n + 1) s = body t := by
  simp only [after, h]

/-- A value that has been returned stays. -/
theorem after_of_returned (h : after body n s = .inl b) {k : Nat} (later : n ≤ k) :
    after body k s = .inl b := by
  induction k, later using Nat.le_induction with
  | base => exact h
  | succ k _ ih => simp only [after, ih]

theorem Ends.after_eq (h : Ends body s n b) {k : Nat} (later : n ≤ k) :
    after body k s = .inl b :=
  after_of_returned h.returned later

section Counting

variable {I : Nat → σ → Prop}

/-- An invariant that counts the rounds holds in front of each of them. -/
theorem after_of_counts (start : I 0 s)
    (step : ∀ k < n, ∀ t, I k t → ∃ t', body t = .inr t' ∧ I (k + 1) t') :
    ∀ k ≤ n, ∃ t, after body k s = .inr t ∧ I k t := by
  intro k inside
  induction k with
  | zero => exact ⟨s, rfl, start⟩
  | succ k ih =>
      obtain ⟨t, reached, holds⟩ := ih (Nat.le_of_succ_le inside)
      obtain ⟨t', next, holds'⟩ := step k inside t holds
      exact ⟨t', (after_succ reached).trans next, holds'⟩

/-- The loop ends in the round in which the invariant makes the body return. -/
theorem ends_of_counts (start : I 0 s)
    (step : ∀ k < n, ∀ t, I k t → ∃ t', body t = .inr t' ∧ I (k + 1) t')
    (last : ∀ t, I n t → body t = .inl b) : Ends body s (n + 1) b := by
  have reached := after_of_counts start step
  constructor
  · obtain ⟨t, there, holds⟩ := reached n (Nat.le_refl n)
    rw [after_succ there, last t holds]
  · intro k before
    obtain ⟨t, there, -⟩ := reached k (Nat.le_of_lt_succ before)
    exact ⟨t, there⟩

end Counting

end Loop
