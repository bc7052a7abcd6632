import Mathlib.Data.List.Basic

/-!
# Finite executions of a step function that can fault

A machine is a step function from a state and an action to a new state or a
fault. `Execution.run` executes a list of actions and stops at the first fault,
so a state is reachable exactly when some action list runs to it. The rules
below package the induction over action lists once: an invariant that every
fault-free step keeps holds in every reachable state, also when the steps have
to meet a condition on the state they are taken in.
-/

namespace Execution

universe u v w

variable {σ : Type u} {α : Type v} {ε : Type w}
variable {step : σ → α → Except ε σ} {s t : σ} {acts : List α}

/-- Execute the actions in order. The first fault ends the run, and the state in which
it happened is gone, as with a process that dies. -/
def run (step : σ → α → Except ε σ) : σ → List α → Except ε σ
  | s, [] => .ok s
  | s, a :: acts =>
    match step s a with
    | .ok t => run step t acts
    | .error e => .error e

@[simp] theorem run_nil : run step s [] = .ok s := rfl

theorem run_cons_ok {a : α} (h : step s a = .ok t) :
    run step s (a :: acts) = run step t acts := by
  simp only [run, h]

/-- A run splits at every point of its action list. -/
theorem run_append {first second : List α} :
    run step s (first ++ second) =
      match run step s first with
      | .ok t => run step t second
      | .error e => .error e := by
  induction first generalizing s with
  | nil => rfl
  | cons a first ih =>
      simp only [List.cons_append, run]
      cases step s a with
      | ok t => exact ih
      | error e => rfl

theorem run_append_ok {first second : List α} (h : run step s first = .ok t) :
    run step s (first ++ second) = run step t second := by
  rw [run_append, h]

/-- The last step of a fault-free run starts in a state reached without a fault. -/
theorem run_concat_ok {a : α} (h : run step s (acts ++ [a]) = .ok t) :
    ∃ m, run step s acts = .ok m ∧ step m a = .ok t := by
  rw [run_append] at h
  cases hm : run step s acts with
  | error e => simp [hm] at h
  | ok m =>
      simp only [hm, run] at h
      cases hs : step m a with
      | error e => simp [hs] at h
      | ok m' => exact ⟨m, rfl, by simpa [hs] using h⟩

/-- An invariant of single steps is an invariant of runs. -/
theorem run_invariant (I : σ → Prop)
    (keep : ∀ s a t, I s → step s a = .ok t → I t)
    (start : I s) (h : run step s acts = .ok t) : I t := by
  induction acts generalizing s with
  | nil =>
      cases h
      exact start
  | cons a acts ih =>
      simp only [run] at h
      cases hs : step s a with
      | error e => simp [hs] at h
      | ok m => exact ih (keep s a m start hs) (by simpa [hs] using h)

/-- A condition on a run, asked step by step: every step meets `ok` in the state in
which it is taken. Nothing is asked behind a step that fails, since the run has no later
states. -/
def Meets (step : σ → α → Except ε σ) (ok : σ → α → Prop) : σ → List α → Prop
  | _, [] => True
  | s, a :: acts => ok s a ∧ ∀ t, step s a = .ok t → Meets step ok t acts

theorem meets_concat {ok : σ → α → Prop} {a : α} (h : run step s acts = .ok t) :
    Meets step ok s (acts ++ [a]) ↔ Meets step ok s acts ∧ ok t a := by
  induction acts generalizing s with
  | nil =>
      cases h
      simp [Meets]
  | cons b acts ih =>
      simp only [run] at h
      cases hs : step s b with
      | error e => simp [hs] at h
      | ok m =>
          have rest := ih (s := m) (by simpa [hs] using h)
          simp [Meets, hs, rest, and_assoc]

theorem Meets.imp {ok ok' : σ → α → Prop} (h : Meets step ok s acts)
    (weaker : ∀ s a, ok s a → ok' s a) : Meets step ok' s acts := by
  induction acts generalizing s with
  | nil => trivial
  | cons a acts ih => exact ⟨weaker s a h.1, fun t hs => ih (h.2 t hs)⟩

theorem meets_of_forall {ok : σ → α → Prop} (all : ∀ s a, ok s a) : Meets step ok s acts := by
  induction acts generalizing s with
  | nil => trivial
  | cons a acts ih => exact ⟨all s a, fun t _ => ih⟩

/-- The invariant may rely on the condition that every step of the run meets. -/
theorem run_invariant_of_meets (I : σ → Prop) {ok : σ → α → Prop}
    (keep : ∀ s a t, I s → ok s a → step s a = .ok t → I t)
    (start : I s) (meets : Meets step ok s acts) (h : run step s acts = .ok t) : I t := by
  induction acts generalizing s with
  | nil =>
      cases h
      exact start
  | cons a acts ih =>
      simp only [run] at h
      cases hs : step s a with
      | error e => simp [hs] at h
      | ok m =>
          exact ih (keep s a m start meets.1 hs) (meets.2 m hs) (by simpa [hs] using h)

/-- Evaluate a concrete run and a decidable fact about the state it reaches. -/
theorem exists_of_check {x : Except ε σ} {P : σ → Prop} [DecidablePred P]
    (h : (match x with | .ok s => decide (P s) | .error _ => false) = true) :
    ∃ s, x = .ok s ∧ P s := by
  cases x with
  | ok s => exact ⟨s, rfl, of_decide_eq_true h⟩
  | error e => cases h

section Total

variable {next : σ → α → σ}

/-- A step function without faults, as a machine. The rules for runs then hold of
systems that cannot fault as well. -/
def total (next : σ → α → σ) (s : σ) (a : α) : Except Empty σ := .ok (next s a)

/-- The state after a list of actions that cannot fault. -/
def exec (next : σ → α → σ) (s : σ) (acts : List α) : σ := acts.foldl next s

@[simp] theorem exec_nil : exec next s [] = s := rfl

@[simp] theorem exec_cons (a : α) : exec next s (a :: acts) = exec next (next s a) acts := rfl

@[simp] theorem exec_append (more : List α) :
    exec next s (acts ++ more) = exec next (exec next s acts) more := List.foldl_append

theorem run_total : run (total next) s acts = .ok (exec next s acts) := by
  induction acts generalizing s with
  | nil => rfl
  | cons a acts ih => exact ih

theorem exec_invariant (I : σ → Prop) (keep : ∀ s a, I s → I (next s a)) (start : I s)
    (acts : List α) : I (exec next s acts) := by
  refine run_invariant I ?_ start run_total
  intro s a t hs hstep
  cases hstep
  exact keep s a hs

theorem exec_invariant_of_meets (I : σ → Prop) {ok : σ → α → Prop}
    (keep : ∀ s a, I s → ok s a → I (next s a)) (start : I s)
    (meets : Meets (total next) ok s acts) : I (exec next s acts) := by
  refine run_invariant_of_meets I ?_ start meets run_total
  intro s a t hs hok hstep
  cases hstep
  exact keep s a hs hok

theorem meets_total_cons {ok : σ → α → Prop} {a : α} :
    Meets (total next) ok s (a :: acts) ↔ ok s a ∧ Meets (total next) ok (next s a) acts := by
  constructor
  · exact fun h => ⟨h.1, h.2 _ rfl⟩
  · rintro ⟨first, rest⟩
    refine ⟨first, ?_⟩
    rintro t ⟨⟩
    exact rest

instance decidableMeets {ok : σ → α → Prop} [∀ s a, Decidable (ok s a)] :
    (acts : List α) → (s : σ) → Decidable (Meets (total next) ok s acts)
  | [], _ => .isTrue trivial
  | a :: acts, s =>
    have : Decidable (Meets (total next) ok (next s a) acts) := decidableMeets acts (next s a)
    decidable_of_iff (ok s a ∧ Meets (total next) ok (next s a) acts) meets_total_cons.symm

theorem meets_total_concat {ok : σ → α → Prop} {a : α} :
    Meets (total next) ok s (acts ++ [a]) ↔
      Meets (total next) ok s acts ∧ ok (exec next s acts) a :=
  meets_concat run_total

end Total

end Execution
