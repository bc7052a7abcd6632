import CtpTrade.Library.Execution

/-!
# Simulations between machines

A machine simulates another one when every step it makes is answered by some
steps of the other, possibly none, that lead to related states again. A
simulation may rely on a condition on the steps of the first machine, and then
guarantees one on the answers. The rules below carry this over to runs: every
state that the first machine reaches is related to one that the second machine
reaches, so what holds in all runs of the second holds of the first through the
relation.
-/

namespace Execution

universe u v w u' v' w'

variable {σ : Type u} {α : Type v} {ε : Type w} {τ : Type u'} {β : Type v'} {ε' : Type w'}
variable {step : σ → α → Except ε σ} {step' : τ → β → Except ε' τ} {R : σ → τ → Prop}
variable {ok : σ → α → Prop} {ok' : τ → β → Prop} {s s' : σ} {t : τ} {acts : List α}

theorem meets_append {first second : List α} (h : run step s first = .ok s') :
    Meets step ok s (first ++ second) ↔ Meets step ok s first ∧ Meets step ok s' second := by
  induction first generalizing s with
  | nil =>
      cases h
      simp [Meets]
  | cons a first ih =>
      simp only [run] at h
      cases hs : step s a with
      | error e => simp [hs] at h
      | ok m =>
          have rest := ih (s := m) (by simpa [hs] using h)
          simp [Meets, hs, rest, and_assoc]

theorem Meets.of_append {first second : List α} (h : Meets step ok s (first ++ second)) :
    Meets step ok s first := by
  induction first generalizing s with
  | nil => trivial
  | cons a first ih => exact ⟨h.1, fun t hs => ih (h.2 t hs)⟩

instance decidableMeetsRun [∀ s a, Decidable (ok s a)] :
    (acts : List α) → (s : σ) → Decidable (Meets step ok s acts)
  | [], _ => .isTrue trivial
  | a :: acts, s =>
    match h : step s a with
    | .ok t =>
      have : Decidable (Meets step ok t acts) := decidableMeetsRun acts t
      decidable_of_iff (ok s a ∧ Meets step ok t acts) (by simp [Meets, h])
    | .error _ => decidable_of_iff (ok s a) (by simp [Meets, h])

/-- A forward simulation under conditions. Every step that meets `ok` between related
states is answered by a run of the other machine, possibly empty, whose steps meet `ok'`
and which ends in a related state. -/
def SimulatesWhere (step : σ → α → Except ε σ) (step' : τ → β → Except ε' τ)
    (ok : σ → α → Prop) (ok' : τ → β → Prop) (R : σ → τ → Prop) : Prop :=
  ∀ s a s' t, R s t → ok s a → step s a = .ok s' →
    ∃ acts t', Meets step' ok' t acts ∧ run step' t acts = .ok t' ∧ R s' t'

/-- Each step is answered by at most one step. -/
theorem simulatesWhere_of_step
    (answer : ∀ s a s' t, R s t → ok s a → step s a = .ok s' →
      R s' t ∨ ∃ b t', ok' t b ∧ step' t b = .ok t' ∧ R s' t') :
    SimulatesWhere step step' ok ok' R := by
  intro s a s' t related hok h
  obtain same | ⟨b, t', hok', answered, related'⟩ := answer s a s' t related hok h
  · exact ⟨[], t, trivial, rfl, same⟩
  · exact ⟨[b], t', ⟨hok', fun _ _ => trivial⟩, by rw [run_cons_ok answered, run_nil], related'⟩

/-- A simulation of steps is a simulation of runs. -/
theorem SimulatesWhere.run (sim : SimulatesWhere step step' ok ok' R) (start : R s t)
    (meets : Meets step ok s acts) (h : run step s acts = .ok s') :
    ∃ acts' t', Meets step' ok' t acts' ∧ Execution.run step' t acts' = .ok t' ∧ R s' t' := by
  refine run_invariant_of_meets
    (fun s' => ∃ acts' t', Meets step' ok' t acts' ∧ Execution.run step' t acts' = .ok t' ∧ R s' t')
    ?_ ⟨[], t, trivial, rfl, start⟩ meets h
  rintro s₁ a s₂ ⟨acts₁, t₁, before, reached, related⟩ hok hstep
  obtain ⟨acts₂, t₂, answers, further, related'⟩ := sim s₁ a s₂ t₁ related hok hstep
  exact ⟨acts₁ ++ acts₂, t₂, (meets_append reached).mpr ⟨before, answers⟩,
    by rw [run_append_ok reached, further], related'⟩

/-- A forward simulation without conditions: every step of the first machine is answered
by some steps of the other one. -/
def Simulates (step : σ → α → Except ε σ) (step' : τ → β → Except ε' τ) (R : σ → τ → Prop) :
    Prop :=
  SimulatesWhere step step' (fun _ _ => True) (fun _ _ => True) R

theorem simulates_of_step
    (answer : ∀ s a s' t, R s t → step s a = .ok s' →
      R s' t ∨ ∃ b t', step' t b = .ok t' ∧ R s' t') : Simulates step step' R := by
  refine simulatesWhere_of_step ?_
  intro s a s' t related _ h
  obtain same | ⟨b, t', answered, related'⟩ := answer s a s' t related h
  · exact .inl same
  · exact .inr ⟨b, t', trivial, answered, related'⟩

theorem Simulates.run (sim : Simulates step step' R) (start : R s t)
    (h : run step s acts = .ok s') :
    ∃ acts' t', Execution.run step' t acts' = .ok t' ∧ R s' t' := by
  obtain ⟨acts', t', -, reached, related⟩ :=
    SimulatesWhere.run sim start (meets_of_forall fun _ _ => trivial) h
  exact ⟨acts', t', reached, related⟩

end Execution
