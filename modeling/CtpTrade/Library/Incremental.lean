import Mathlib.Data.List.Basic

/-!
# Incremental consumers

A consumer reads a stream that arrives in pieces. With the input it holds it takes a
turn, which takes some of the input away and may put something out, or it waits for
more input. It is `Lawful` if every turn takes something away, and if more input
behind never changes a turn that was possible without it.

Such a consumer makes one thing of a stream, however the stream is cut. `drain` takes
all turns that are possible and `pull` stops behind the first output. Whatever the
order in which pieces are fed and outputs are pulled, the outputs are those of `drain`
on the whole stream.
-/

namespace Incremental

universe u v w

/-- A turn of a consumer: its new state, the input that is left and what it puts out, if
anything. -/
structure Turn (σ : Type u) (α : Type v) (β : Type w) where
  state : σ
  rest : List α
  out : Option β

/-- A consumer by its next turn, with some state on some input. It is `none` where the
consumer waits for more. -/
abbrev Consumer (σ : Type u) (α : Type v) (β : Type w) := σ → List α → Option (Turn σ α β)

variable {σ : Type u} {α : Type v} {β : Type w}

/-- What a consumer has to satisfy so that the cuts of the input do not matter. A turn
takes at least one element, and a turn that is possible on some input gives the same on
every longer input, with the rest behind it. -/
structure Lawful (next : Consumer σ α β) : Prop where
  shrinks : ∀ {s l t}, next s l = some t → t.rest.length < l.length
  stable : ∀ {s l t}, next s l = some t → ∀ more,
    next s (l ++ more) = some { t with rest := t.rest ++ more }

/-- A state of the consumer with the input that it holds and has not used. -/
structure Config (σ : Type u) (α : Type v) where
  state : σ
  input : List α

def Turn.config (t : Turn σ α β) : Config σ α := ⟨t.state, t.rest⟩

/-- More input arrives. -/
def Config.feed (c : Config σ α) (more : List α) : Config σ α := { c with input := c.input ++ more }

@[simp] theorem Config.feed_feed (c : Config σ α) (l m : List α) :
    (c.feed l).feed m = c.feed (l ++ m) := by
  simp [feed]

@[simp] theorem Config.feed_nil (c : Config σ α) : c.feed [] = c := by
  simp [feed]

variable (next : Consumer σ α β)

/-- Take turns, `fuel` of them at most. -/
def drainFor : Nat → Config σ α → Config σ α × List β
  | 0, c => (c, [])
  | fuel + 1, c =>
    match next c.state c.input with
    | none => (c, [])
    | some t =>
      let later := drainFor fuel t.config
      (later.1, t.out.toList ++ later.2)

/-- Take all turns that are possible, and collect what they put out. There are finitely
many, because each takes input away. -/
def drain (c : Config σ α) : Config σ α × List β := drainFor next c.input.length c

/-- Take turns up to the first output, `fuel` of them at most. -/
def pullFor : Nat → Config σ α → Config σ α × Option β
  | 0, c => (c, none)
  | fuel + 1, c =>
    match next c.state c.input with
    | none => (c, none)
    | some t =>
      match t.out with
      | some b => (t.config, some b)
      | none => pullFor fuel t.config

/-- Take turns up to the first output. -/
def pull (c : Config σ α) : Config σ α × Option β := pullFor next c.input.length c

/-- The consumer makes no turn on the input that is there. More input is needed before
anything can happen. -/
def Waits (c : Config σ α) : Prop := next c.state c.input = none

variable {next} {c : Config σ α}

theorem drain_of_waits (h : Waits next c) : drain next c = (c, []) := by
  rw [drain]
  cases c.input.length with
  | zero => rfl
  | succ fuel =>
      rw [drainFor, show next c.state c.input = none from h]

theorem pull_of_waits (h : Waits next c) : pull next c = (c, none) := by
  rw [pull]
  cases c.input.length with
  | zero => rfl
  | succ fuel =>
      rw [pullFor, show next c.state c.input = none from h]

section Rules

variable (inc : Lawful next)

include inc

/-- A turn takes input away, so as many turns as there is input are enough. -/
theorem drainFor_eq {fuel fuel' : Nat} (enough : c.input.length ≤ fuel)
    (enough' : c.input.length ≤ fuel') : drainFor next fuel c = drainFor next fuel' c := by
  induction fuel generalizing c fuel' with
  | zero =>
      cases fuel' with
      | zero => rfl
      | succ fuel' =>
          cases ht : next c.state c.input with
          | none => simp only [drainFor, ht]
          | some t =>
              have := inc.shrinks ht
              omega
  | succ fuel ih =>
      cases ht : next c.state c.input with
      | none => cases fuel' <;> simp only [drainFor, ht]
      | some t =>
          have smaller := inc.shrinks ht
          cases fuel' with
          | zero => omega
          | succ fuel' =>
              have left : t.config.input.length ≤ fuel := by simp only [Turn.config]; omega
              have left' : t.config.input.length ≤ fuel' := by simp only [Turn.config]; omega
              simp only [drainFor, ht]
              rw [ih left left']

theorem drain_of_turn {t : Turn σ α β} (h : next c.state c.input = some t) :
    drain next c = ((drain next t.config).1, t.out.toList ++ (drain next t.config).2) := by
  have smaller := inc.shrinks h
  have same : drainFor next c.input.length t.config = drain next t.config :=
    drainFor_eq inc (Nat.le_of_lt smaller) (Nat.le_refl _)
  rw [drain, drainFor_eq inc (Nat.le_refl _) (Nat.le_succ _)]
  simp only [drainFor, h, same]

theorem pullFor_eq {fuel fuel' : Nat} (enough : c.input.length ≤ fuel)
    (enough' : c.input.length ≤ fuel') : pullFor next fuel c = pullFor next fuel' c := by
  induction fuel generalizing c fuel' with
  | zero =>
      cases fuel' with
      | zero => rfl
      | succ fuel' =>
          cases ht : next c.state c.input with
          | none => simp only [pullFor, ht]
          | some t =>
              have := inc.shrinks ht
              omega
  | succ fuel ih =>
      cases ht : next c.state c.input with
      | none => cases fuel' <;> simp only [pullFor, ht]
      | some t =>
          have smaller := inc.shrinks ht
          cases fuel' with
          | zero => omega
          | succ fuel' =>
              have left : t.config.input.length ≤ fuel := by simp only [Turn.config]; omega
              have left' : t.config.input.length ≤ fuel' := by simp only [Turn.config]; omega
              simp only [pullFor, ht]
              rw [ih left left']

theorem pull_of_turn {t : Turn σ α β} (h : next c.state c.input = some t) :
    pull next c =
      match t.out with
      | some b => (t.config, some b)
      | none => pull next t.config := by
  have smaller := inc.shrinks h
  have same : pullFor next c.input.length t.config = pull next t.config :=
    pullFor_eq inc (Nat.le_of_lt smaller) (Nat.le_refl _)
  rw [pull, pullFor_eq inc (Nat.le_refl _) (Nat.le_succ _)]
  simp only [pullFor, h, same]

/-- A pull goes on behind a turn that puts nothing out. -/
theorem pull_of_silent {s : σ} {rest : List α}
    (h : next c.state c.input = some ⟨s, rest, none⟩) : pull next c = pull next ⟨s, rest⟩ :=
  pull_of_turn inc h

/-- The turns of a consumer, one after the other, as a rule of induction. -/
theorem turn_induction {motive : Config σ α → Prop}
    (waits : ∀ c, Waits next c → motive c)
    (turn : ∀ c t, next c.state c.input = some t → motive t.config → motive c)
    (c : Config σ α) : motive c := by
  induction hn : c.input.length using Nat.strongRecOn generalizing c with
  | ind n ih =>
      subst hn
      cases ht : next c.state c.input with
      | none => exact waits c ht
      | some t => exact turn c t ht (ih _ (inc.shrinks ht) t.config rfl)

theorem waits_drain (c : Config σ α) : Waits next (drain next c).1 := by
  induction c using turn_induction inc with
  | waits c h => rwa [drain_of_waits h]
  | turn c t h ih => rwa [drain_of_turn inc h]

/-- What is fed behind does not change what the input before it gives. -/
theorem drain_feed (c : Config σ α) (more : List α) :
    drain next (c.feed more) =
      ((drain next ((drain next c).1.feed more)).1,
        (drain next c).2 ++ (drain next ((drain next c).1.feed more)).2) := by
  induction c using turn_induction inc with
  | waits c h => simp [drain_of_waits h]
  | turn c t h ih =>
      have longer : next (c.feed more).state (c.feed more).input =
          some { t with rest := t.rest ++ more } := inc.stable h more
      rw [drain_of_turn inc longer, drain_of_turn inc h]
      change (let later := drain next (t.config.feed more); (later.1, t.out.toList ++ later.2)) = _
      simp only [ih, List.append_assoc]

/-- Taking turns in between changes nothing. -/
theorem drain_of_pull (c : Config σ α) :
    drain next c =
      ((drain next (pull next c).1).1,
        (pull next c).2.toList ++ (drain next (pull next c).1).2) := by
  induction c using turn_induction inc with
  | waits c h => simp [pull_of_waits h]
  | turn c t h ih =>
      rw [drain_of_turn inc h, pull_of_turn inc h]
      cases ho : t.out with
      | some b => rfl
      | none => exact ih

/-- A pull without an output ends where the consumer waits. -/
theorem waits_of_pull (h : (pull next c).2 = none) : Waits next (pull next c).1 := by
  induction c using turn_induction inc with
  | waits c hc => rwa [pull_of_waits hc]
  | turn c t ht ih =>
      rw [pull_of_turn inc ht] at h ⊢
      cases ho : t.out with
      | some b => simp [ho] at h
      | none =>
          simp only [ho] at h
          exact ih h

/-- Up to an output some input has been taken. -/
theorem pull_shrinks {b : β} (h : (pull next c).2 = some b) :
    (pull next c).1.input.length < c.input.length := by
  induction c using turn_induction inc with
  | waits c hc => simp [pull_of_waits hc] at h
  | turn c t ht ih =>
      have smaller := inc.shrinks ht
      rw [pull_of_turn inc ht] at h ⊢
      cases ho : t.out with
      | some b => exact smaller
      | none =>
          simp only [ho] at h
          exact Nat.lt_trans (ih h) smaller

/-- An output that takes the whole input does not come before its end. -/
theorem drain_of_pull_all {more : List α} {s : σ} {b : β} (more_left : more ≠ [])
    (h : pull next (c.feed more) = (⟨s, []⟩, some b)) : (drain next c).2 = [] := by
  induction c using turn_induction inc with
  | waits c hc => simp [drain_of_waits hc]
  | turn c t ht ih =>
      have longer : next (c.feed more).state (c.feed more).input =
          some { t with rest := t.rest ++ more } := inc.stable ht more
      rw [pull_of_turn inc longer] at h
      rw [drain_of_turn inc ht]
      cases ho : t.out with
      | some b =>
          simp only [ho, Turn.config, Prod.mk.injEq, Config.mk.injEq,
            List.append_eq_nil_iff] at h
          exact absurd h.1.2.2 more_left
      | none =>
          simp only [ho] at h
          exact ih h

/-- What the owner of a consumer does: feed it with another piece of the input, or ask
it for its next output. -/
inductive Call (α : Type v) where
  | feed (more : List α)
  | pull

/-- All that is fed by the calls. -/
def fed : List (Call α) → List α
  | [] => []
  | .feed more :: calls => more ++ fed calls
  | .pull :: calls => fed calls

omit inc in
variable (next) in
/-- Make the calls. The second component is what the pulls have given. -/
def serve : Config σ α → List (Call α) → Config σ α × List β
  | c, [] => (c, [])
  | c, .feed more :: calls => serve (c.feed more) calls
  | c, .pull :: calls =>
    let later := serve (pull next c).1 calls
    (later.1, (pull next c).2.toList ++ later.2)

/-- What has been given, and what is still to come, is what the whole stream gives. -/
theorem drain_fed (c : Config σ α) (calls : List (Call α)) :
    drain next (c.feed (fed calls)) =
      ((drain next (serve next c calls).1).1,
        (serve next c calls).2 ++ (drain next (serve next c calls).1).2) := by
  induction calls generalizing c with
  | nil => simp [fed, serve]
  | cons call calls ih =>
      cases call with
      | feed more =>
          rw [fed, ← Config.feed_feed]
          exact ih (c.feed more)
      | pull =>
          have later := ih (pull next c).1
          rw [drain_feed inc] at later
          obtain ⟨same, outs⟩ := Prod.mk.inj later
          rw [fed, drain_feed inc, drain_of_pull inc c]
          simp only [serve, List.append_assoc, same, outs]

end Rules

end Incremental
