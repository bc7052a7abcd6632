import Mathlib.Data.List.SplitBy

/-!
# Segmenting a stream by a key

`segments key` cuts a list into its maximal runs of equal keys, using the
standard `List.splitBy`. A consumer that works on a stream in arrival order
holds a suffix of it and has finished some leading segments; the concatenation
laws say when a segment that was cut off early is a segment of the whole stream.

`settle bound` is the greedy consumer: it finishes the leading segment as long
as another one follows and more than `bound` elements are left. Its result only
depends on the stream, not on the moments at which the consumer looked.
-/

namespace Segments

universe u v

variable {τ : Type u} {κ : Type v} {key : τ → κ} {l m g : List τ}

/-- All elements of the segment have the same key. The empty list and every list of one
element are uniform. -/
def Uniform (key : τ → κ) (l : List τ) : Prop := ∀ a ∈ l, ∀ b ∈ l, key a = key b

variable [DecidableEq κ]

/-- The maximal runs of adjacent elements with equal keys. Their concatenation is the
list, and neighbouring runs differ in their key. -/
def segments (key : τ → κ) (l : List τ) : List (List τ) :=
  l.splitBy fun a b => decide (key a = key b)

@[simp] theorem segments_nil : segments key [] = [] := rfl

@[simp] theorem segments_flatten (key : τ → κ) (l : List τ) : (segments key l).flatten = l :=
  List.flatten_splitBy _ l

private theorem key_eq_head_of_isChain {a : τ}
    (h : (a :: l).IsChain fun x y => decide (key x = key y) = true) :
    ∀ b ∈ l, key b = key a := by
  induction l generalizing a with
  | nil => simp
  | cons c l ih =>
      obtain ⟨hac, hrest⟩ := List.isChain_cons_cons.mp h
      have same : key a = key c := of_decide_eq_true hac
      intro b hb
      obtain rfl | hb := List.mem_cons.mp hb
      · exact same.symm
      · exact (ih hrest b hb).trans same.symm

theorem uniform_of_mem_segments (h : g ∈ segments key l) : Uniform key g := by
  have chain := List.isChain_of_mem_splitBy h
  cases g with
  | nil => simp [Uniform]
  | cons a g =>
      have tail := key_eq_head_of_isChain chain
      have all : ∀ b ∈ a :: g, key b = key a := by
        intro b hb
        obtain rfl | hb := List.mem_cons.mp hb
        · rfl
        · exact tail b hb
      exact fun b hb c hc => (all b hb).trans (all c hc).symm

/-- A boundary between the two parts is a boundary of the whole list. -/
theorem segments_append (boundary : ∀ a ∈ l.getLast?, ∀ b ∈ m.head?, key a ≠ key b) :
    segments key (l ++ m) = segments key l ++ segments key m := by
  apply List.splitBy_append
  intro a ha b hb
  exact decide_eq_false (boundary a ha b hb)

theorem segments_uniform (hne : l ≠ []) (h : Uniform key l) : segments key l = [l] := by
  apply List.splitBy_of_isChain hne
  apply List.Pairwise.isChain
  apply List.pairwise_of_forall_mem_list
  intro a ha b hb
  exact decide_eq_true (h a ha b hb)

/-- Cut off a leading uniform part that ends at a boundary. -/
theorem segments_cons (hne : g ≠ []) (h : Uniform key g)
    (boundary : ∀ a ∈ g.getLast?, ∀ b ∈ m.head?, key a ≠ key b) :
    segments key (g ++ m) = g :: segments key m := by
  rw [segments_append boundary, segments_uniform hne h]
  rfl

/-- A list is uniform exactly when it has at most one segment. -/
theorem uniform_iff_segments_length : Uniform key l ↔ (segments key l).length ≤ 1 := by
  constructor
  · intro h
    cases hl : l with
    | nil => simp
    | cons a rest =>
        rw [segments_uniform (by simp) (hl ▸ h)]
        simp
  · intro h
    cases hs : segments key l with
    | nil =>
        have : l = [] := by rw [← segments_flatten key l, hs]; rfl
        simp [this, Uniform]
    | cons g gs =>
        have single : gs = [] := by simpa [hs] using h
        have : l = g := by rw [← segments_flatten key l, hs, single]; simp
        rw [this]
        exact uniform_of_mem_segments (l := l) (by simp [hs])

/-- The leading segments that a greedy consumer finishes: it takes a segment off as long
as more than `bound` elements are there and another segment follows. -/
def settle (bound : Nat) : List (List τ) → List (List τ)
  | g :: h :: gs =>
    if bound < (g :: h :: gs).flatten.length then g :: settle bound (h :: gs) else []
  | _ => []

/-- The segments the greedy consumer finishes are determined by two facts: each
of them was followed by another segment while more than `bound` elements were
left, and the rest allows no further step. -/
theorem settle_eq {bound : Nat} {done rest : List (List τ)}
    (forced : ∀ i < done.length, bound < ((done ++ rest).drop i).flatten.length ∧
      1 < ((done ++ rest).drop i).length)
    (stopped : rest.flatten.length ≤ bound ∨ rest.length ≤ 1) :
    settle bound (done ++ rest) = done := by
  induction done with
  | nil =>
      match rest, stopped with
      | [], _ => rfl
      | [g], _ => rfl
      | g :: h :: gs, stopped =>
          have small : ¬ bound < (g :: h :: gs).flatten.length := by
            simp only [List.length_cons] at stopped
            omega
          simp only [List.nil_append, settle, small, ↓reduceIte]
  | cons g done ih =>
      have first := forced 0 (by simp)
      simp only [List.drop_zero, List.cons_append] at first
      have tail : settle bound (done ++ rest) = done := by
        apply ih
        intro i hi
        simpa using forced (i + 1) (by simpa using hi)
      cases hrest : done ++ rest with
      | nil => simp [hrest] at first
      | cons h gs =>
          rw [hrest] at first tail
          simp only [List.cons_append, hrest, settle, first.1, ↓reduceIte, tail]

end Segments
