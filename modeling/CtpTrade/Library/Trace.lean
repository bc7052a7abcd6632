import Mathlib.Data.List.Induction

/-!
# Properties of a trace

A trace is the list of what has happened, the oldest first. `Each P l` says of every
element of the trace that it meets `P` with what had happened before it, so an order of
events, a numbering, or a value that earlier events determine is stated in one way. A
trace only grows at its end, and `each_concat` is the step of the induction.
-/

namespace Trace

universe u

variable {α : Type u} {P : List α → α → Prop} {l : List α} {x : α}

/-- Every element meets `P` together with the elements in front of it. The elements
behind it play no part, so the property of a log is kept when the log grows by an
element that meets it. -/
def Each (P : List α → α → Prop) (l : List α) : Prop :=
  ∀ before x after, l = before ++ x :: after → P before x

@[simp] theorem each_nil : Each P [] := by
  intro before x after h
  simp at h

theorem each_concat : Each P (l ++ [x]) ↔ Each P l ∧ P l x := by
  constructor
  · intro h
    refine ⟨?_, h l x [] rfl⟩
    rintro before y after rfl
    exact h before y (after ++ [x]) (by simp)
  · rintro ⟨all, last⟩ before y after h
    obtain rfl | ⟨after, z, rfl⟩ := List.eq_nil_or_concat after
    · obtain ⟨rfl, same⟩ := List.append_inj' h rfl
      rwa [← List.singleton_inj.mp same]
    · rw [List.concat_eq_append, ← List.cons_append, ← List.append_assoc] at h
      obtain ⟨split, -⟩ := List.append_inj' h rfl
      exact all before y after split

/-- Causality in a log: in front of every element that meets `second` there is one that
meets `first`. -/
def Preceded (first second : α → Prop) : List α → Prop :=
  Each fun before x => second x → ∃ y ∈ before, first y

/-- The elements that carry a number carry `0`, `1` and so on, in the order of the log.
Elements without a number may stand anywhere in between. -/
def Numbered (number : α → Option Int) : List α → Prop :=
  Each fun before x => ∀ n ∈ number x, n = (before.filterMap number).length

theorem Numbered.filterMap {number : α → Option Int} (h : Numbered number l) :
    l.filterMap number = (List.range (l.filterMap number).length).map Int.ofNat := by
  induction l using List.reverseRecOn with
  | nil => rfl
  | append_singleton l x ih =>
      obtain ⟨before, last⟩ := each_concat.mp h
      cases hn : number x with
      | none =>
          simp only [List.filterMap_append, List.filterMap_cons, hn, List.filterMap_nil,
            List.append_nil]
          exact ih before
      | some n =>
          have same := last n hn
          simp only [List.filterMap_append, List.filterMap_cons, hn, List.filterMap_nil,
            List.length_append, List.length_singleton, List.range_succ, List.map_append]
          rw [← ih before, same]
          rfl

end Trace
