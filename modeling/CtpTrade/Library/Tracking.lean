import Mathlib.Order.Bounds.Basic

/-!
# Tracking an element through a list

`track r x l` keeps an element while it reads the list, and replaces it by an
element that stands in the relation `r` to it. `Leads` says the same without the
loop: from element to followed element, with those in between passed over. For
a strict order the tracked element is the greatest or least one so far.
-/

namespace Tracking

universe u v

variable {α : Type u}

/-- The element that a scan holds at the end of the list: it begins with `x` and moves
to an element whenever that one is related to the element it holds. -/
def track (r : α → α → Prop) [DecidableRel r] (x : α) (l : List α) : α :=
  l.foldl (fun x y => if r x y then y else x) x

/-- Beginning with `x` and always moving on to the next related element, one comes to
`z`. The elements in between are passed over because the element that is held is not
related to them. -/
inductive Leads (r : α → α → Prop) : α → List α → α → Prop where
  | stay {x : α} {l : List α} (passed : ∀ y ∈ l, ¬ r x y) : Leads r x l x
  | move {x y z : α} {skipped l : List α} (passed : ∀ y ∈ skipped, ¬ r x y) (follows : r x y)
      (rest : Leads r y l z) : Leads r x (skipped ++ y :: l) z

section Relation

variable {r : α → α → Prop} [DecidableRel r] {x y z : α} {l : List α}

@[simp] theorem track_nil : track r x [] = x := rfl

theorem track_cons : track r x (y :: l) = if r x y then track r y l else track r x l := by
  rw [track, List.foldl_cons]
  split_ifs <;> rfl

theorem track_append (more : List α) : track r x (l ++ more) = track r (track r x l) more :=
  List.foldl_append

theorem track_of_passed (passed : ∀ y ∈ l, ¬ r x y) : track r x l = x := by
  induction l with
  | nil => rfl
  | cons y l ih =>
      obtain ⟨here, later⟩ := List.forall_mem_cons.mp passed
      rw [track_cons, if_neg here, ih later]

theorem track_mem : track r x l ∈ x :: l := by
  induction l generalizing x with
  | nil => exact List.mem_singleton_self x
  | cons y l ih =>
      rw [track_cons]
      split_ifs
      · exact List.mem_cons_of_mem x ih
      · obtain same | later := List.mem_cons.mp (ih (x := x))
        · rw [same]
          exact List.mem_cons_self ..
        · exact List.mem_cons_of_mem x (List.mem_cons_of_mem y later)

omit [DecidableRel r] in
/-- Elements that are not followed may stand in front. -/
theorem Leads.cons (h : Leads r x l z) (passed : ¬ r x y) : Leads r x (y :: l) z := by
  cases h with
  | stay later => exact .stay (List.forall_mem_cons.mpr ⟨passed, later⟩)
  | @move _ next _ skipped rest later follows tail =>
      have passed : ∀ a ∈ y :: skipped, ¬ r x a := List.forall_mem_cons.mpr ⟨passed, later⟩
      exact .move passed follows tail

theorem leads_track (r : α → α → Prop) [DecidableRel r] (x : α) (l : List α) :
    Leads r x l (track r x l) := by
  induction l generalizing x with
  | nil => exact .stay (by simp)
  | cons y l ih =>
      rw [track_cons]
      split_ifs with follows
      · have none : ∀ a ∈ ([] : List α), ¬ r x a := by simp
        exact .move none follows (ih y)
      · exact (ih x).cons follows

theorem Leads.eq_track (h : Leads r x l z) : z = track r x l := by
  induction h with
  | stay passed => exact (track_of_passed passed).symm
  | move passed follows rest ih =>
      rw [track_append, track_of_passed passed, track_cons, if_pos follows]
      exact ih

theorem track_eq_iff : track r x l = z ↔ Leads r x l z := by
  constructor
  · rintro rfl
    exact leads_track r x l
  · intro h
    exact h.eq_track.symm

/-- Where only equal elements are followed, the first one stays. -/
theorem track_eq_self (equal : ∀ y ∈ l, r x y → y = x) : track r x l = x := by
  induction l with
  | nil => rfl
  | cons y l ih =>
      obtain ⟨here, later⟩ := List.forall_mem_cons.mp equal
      rw [track_cons]
      split_ifs with follows
      · rw [here follows]
        exact ih later
      · exact ih later

/-- Where all different elements are followed, the last one is tracked. -/
theorem track_eq_getLast (follow : ∀ a ∈ x :: l, ∀ b ∈ x :: l, a ≠ b → r a b) :
    track r x l = (x :: l).getLast (List.cons_ne_nil x l) := by
  induction l generalizing x with
  | nil => rfl
  | cons y l ih =>
      have tail := ih (x := y) fun a ha b hb => follow a (List.mem_cons_of_mem x ha) b
        (List.mem_cons_of_mem x hb)
      rw [List.getLast_cons (List.cons_ne_nil y l), ← tail, track_cons]
      split_ifs with follows
      · rfl
      · have same : x = y := by
          by_contra different
          exact follows (follow x (by simp) y (by simp) different)
        rw [same]

end Relation

section Order

variable [LinearOrder α] {x : α} {l : List α}

theorem track_isGreatest : IsGreatest {y | y ∈ x :: l} (track (fun high y => y > high) x l) := by
  refine ⟨track_mem, ?_⟩
  induction l generalizing x with
  | nil =>
      rintro y hy
      exact le_of_eq (List.mem_singleton.mp hy)
  | cons z l ih =>
      rw [track_cons]
      rintro y hy
      split_ifs with above
      · obtain rfl | hy := List.mem_cons.mp hy
        · exact le_of_lt (lt_of_lt_of_le above (ih (x := z) (List.mem_cons_self ..)))
        · exact ih (x := z) hy
      · have first := ih (x := x) (List.mem_cons_self ..)
        obtain rfl | hy := List.mem_cons.mp hy
        · exact first
        · obtain rfl | hy := List.mem_cons.mp hy
          · exact (not_lt.mp above).trans first
          · exact ih (x := x) (List.mem_cons_of_mem x hy)

theorem track_isLeast : IsLeast {y | y ∈ x :: l} (track (fun low y => y < low) x l) :=
  track_isGreatest (α := αᵒᵈ)

variable {β : Type v} (f : β → α) (bs : List β)

/-- The loop that keeps the largest value of a field. -/
theorem foldl_isGreatest (x : α) :
    IsGreatest {y | y ∈ x :: bs.map f}
      (bs.foldl (fun high b => if f b > high then f b else high) x) := by
  have greatest := track_isGreatest (x := x) (l := bs.map f)
  rwa [track, List.foldl_map] at greatest

theorem foldl_isLeast (x : α) :
    IsLeast {y | y ∈ x :: bs.map f}
      (bs.foldl (fun low b => if f b < low then f b else low) x) := by
  have least := track_isLeast (x := x) (l := bs.map f)
  rwa [track, List.foldl_map] at least

end Order

end Tracking
